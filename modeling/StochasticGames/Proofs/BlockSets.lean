import Mathlib.Data.List.GetD
import Mathlib.Data.List.Sort
import StochasticGames.Arena.BlockSet
import StochasticGames.Proofs.StateSets

/-! Working word by word gives the words of the same set. -/
namespace StochasticGames.Arena.BlockSet

open StateSet (blockSize blocksFor)

variable {n : Nat} {a b : BlockSet} {s t : StateSet}

def bit (a : BlockSet) (i : Nat) : Bool :=
  (a.word i).getLsbD (i % blockSize)

/-- As many words as the universe fills. -/
structure Fits (n : Nat) (a : BlockSet) : Prop where
  bound : a.bound = n
  words : a.words.length = blocksFor n

theorem Fits.ext (ha : a.Fits n) (hb : b.Fits n) (h : ∀ i, a.bit i = b.bit i) : a = b := by
  have hlen : a.words.length = b.words.length := ha.words.trans hb.words.symm
  have hwords : a.words = b.words := by
    apply List.ext_getElem hlen
    intro k hka hkb
    apply BitVec.eq_of_getLsbD_eq
    intro j hj
    have hbit := h (blockSize * k + j)
    have hk : (blockSize * k + j) / blockSize = k := by
      simp only [blockSize]
      omega
    have hr : (blockSize * k + j) % blockSize = j := by
      simp only [blockSize]
      omega
    simpa only [bit, word, hk, hr, List.getD_eq_getElem _ _ hka, List.getD_eq_getElem _ _ hkb]
      using hbit
  have hbound : a.bound = b.bound := ha.bound.trans hb.bound.symm
  cases a
  cases b
  simp_all only

/-! ## One bit of each operation -/

theorem getLsbD_mask (i : Nat) {j : Nat} (hj : j < blockSize) :
    (mask i).getLsbD j = decide (j = i % blockSize) := by
  have hi : i % blockSize < 64 := Nat.mod_lt _ (by decide)
  change j < 64 at hj
  rw [mask, ← BitVec.twoPow_eq, BitVec.getLsbD_twoPow]
  simp [hi, eq_comm]

/-- Changing the word of state `i` as a mask does changes no bit but the one of `i`. -/
theorem getD_modify (ws : List (BitVec 64)) (k l : Nat) (f : BitVec 64 → BitVec 64)
    (hk : k < ws.length) :
    (ws.modify k f).getD l 0 = if l = k then f (ws.getD l 0) else ws.getD l 0 := by
  simp only [List.getD_eq_getElem?_getD, List.getElem?_modify]
  by_cases hl : l = k
  · subst hl
    simp [hk]
  · simp [hl, Ne.symm hl]

theorem getD_combine {f : BitVec 64 → BitVec 64 → BitVec 64} (hf : f 0#64 0#64 = 0#64)
    {as bs : List (BitVec 64)} (hlen : as.length = bs.length) (k : Nat) :
    (combine f as bs).getD k 0 = f (as.getD k 0) (bs.getD k 0) := by
  induction as generalizing bs k with
  | nil =>
    have : bs = [] := List.eq_nil_of_length_eq_zero hlen.symm
    simp [this, combine, hf]
  | cons x as ih =>
    cases bs with
    | nil => simp at hlen
    | cons y bs =>
      cases k with
      | zero => rfl
      | succ k => simpa [combine] using ih (by simpa using hlen) k

theorem length_combine (f : BitVec 64 → BitVec 64 → BitVec 64) (as bs : List (BitVec 64)) :
    (combine f as bs).length = as.length := by
  induction as generalizing bs with
  | nil => rfl
  | cons x as ih => cases bs <;> simp [combine, ih]

theorem Fits.clearTail (ha : a.Fits n) : a.clearTail.Fits n := by
  unfold BlockSet.clearTail
  split
  · exact ha
  · exact ⟨ha.bound, by simp [ha.words]⟩

theorem Fits.bit_eq_false (ha : a.Fits n) {i : Nat} (hi : blocksFor n ≤ i / blockSize) :
    a.bit i = false := by
  rw [bit, word, List.getD_eq_default _ _ (by rwa [ha.words])]
  exact BitVec.getLsbD_zero

theorem getLsbD_tailMask (n j : Nat) : (tailMask n).getLsbD j = decide (j < n % blockSize) := by
  have hr : n % blockSize < 64 := Nat.mod_lt _ (by decide)
  have hpow : 2 ^ (n % blockSize) < 2 ^ 64 := Nat.pow_lt_pow_right (by omega) hr
  have hmask : (tailMask n).toNat = 2 ^ (n % blockSize) - 1 := by
    rw [tailMask, ← BitVec.twoPow_eq, BitVec.toNat_sub_of_le]
    · rw [BitVec.toNat_twoPow, Nat.mod_eq_of_lt hpow, BitVec.toNat_one (by omega)]
    · rw [BitVec.le_def, BitVec.toNat_twoPow, Nat.mod_eq_of_lt hpow, BitVec.toNat_one (by omega)]
      exact Nat.two_pow_pos _
  rw [BitVec.getLsbD, hmask, Nat.testBit_two_pow_sub_one]

/-- Clearing the tail cuts the set down to its universe. -/
theorem Fits.bit_clearTail (ha : a.Fits n) (i : Nat) :
    a.clearTail.bit i = (decide (i < n) && a.bit i) := by
  have hb := ha.bound
  have hfit : blocksFor n ≤ i / blockSize → a.bit i = false := ha.bit_eq_false
  simp only [blocksFor, blockSize] at hfit
  unfold BlockSet.clearTail
  simp only [hb]
  split
  · next h =>
    by_cases hi : i < n
    · simp [hi]
    · have : (n + 64 - 1) / 64 ≤ i / 64 := by
        simp only [blockSize] at h
        omega
      simp [hi, hfit this]
  · next h =>
    simp only [blockSize] at h
    have hlast : a.words.length - 1 < a.words.length := by
      rw [ha.words, blocksFor, blockSize]
      omega
    simp only [bit, word, getD_modify _ _ _ _ hlast]
    split
    · next hk =>
      have : i % blockSize < n % blockSize ↔ i < n := by
        rw [ha.words, blocksFor, blockSize] at hk
        simp only [blockSize]
        omega
      rw [BitVec.getLsbD_and, getLsbD_tailMask, Bool.and_comm, decide_eq_decide.mpr this]
    · next hk =>
      by_cases hi : i < n
      · simp [hi]
      · have : (n + 64 - 1) / 64 ≤ i / 64 := by
          rw [ha.words, blocksFor, blockSize] at hk
          omega
        simp only [hi, decide_false, Bool.false_and]
        exact hfit this

theorem fits_replicate (n : Nat) (w : BitVec 64) :
    Fits n ⟨List.replicate (blocksFor n) w, n⟩ :=
  ⟨rfl, List.length_replicate⟩

theorem fits_empty (n : Nat) : (empty n).Fits n :=
  fits_replicate n 0

theorem fits_full (n : Nat) : (full n).Fits n :=
  (fits_replicate n _).clearTail

theorem bit_empty (n i : Nat) : (empty n).bit i = false := by
  simp only [bit, word, empty, List.getD, List.getElem?_replicate]
  split <;> exact BitVec.getLsbD_zero

theorem bit_full (n i : Nat) : (full n).bit i = decide (i < n) := by
  rw [full, (fits_replicate n _).bit_clearTail]
  by_cases hi : i < n
  · have hk : i / blockSize < blocksFor n := by
      simp only [blocksFor, blockSize]
      omega
    have hr : i % blockSize < 64 := Nat.mod_lt _ (by decide)
    simp only [bit, word, List.getD, List.getElem?_replicate, hk, if_true, Option.getD_some,
      BitVec.getLsbD_allOnes, hr, hi, decide_true, Bool.and_self]
  · simp [hi]

theorem Fits.index_lt (ha : a.Fits n) {i : Nat} (hi : i < n) : i / blockSize < a.words.length := by
  rw [ha.words, blocksFor, blockSize]
  omega

/-- Bits of one place in one word. -/
theorem index_eq_iff {i j : Nat} :
    j = i ↔ j / blockSize = i / blockSize ∧ j % blockSize = i % blockSize := by
  simp only [blockSize]
  omega

theorem Fits.insert (ha : a.Fits n) (i : Nat) : (a.insert i).1.Fits n := by
  unfold BlockSet.insert
  split
  · exact ha
  · exact ⟨ha.bound, by simp [ha.words]⟩

theorem Fits.bit_insert (ha : a.Fits n) (i j : Nat) :
    (a.insert i).1.bit j = (a.bit j || decide (i < n ∧ j = i)) := by
  unfold BlockSet.insert
  rw [ha.bound]
  split
  · next h => simp [Nat.not_lt.mpr h]
  · next h =>
    have hi : i < n := Nat.not_le.mp h
    simp only [bit, word, getD_modify _ _ _ _ (ha.index_lt hi), index_eq_iff (i := i), hi, true_and]
    have hr : j % blockSize < blockSize := Nat.mod_lt _ (by decide)
    by_cases hk : j / blockSize = i / blockSize
    · simp [hk, getLsbD_mask i hr]
    · simp [hk]

theorem Fits.remove (ha : a.Fits n) (i : Nat) : (a.remove i).Fits n := by
  unfold BlockSet.remove
  split
  · exact ⟨ha.bound, by simp [ha.words]⟩
  · exact ha

theorem Fits.bit_remove (ha : a.Fits n) (i j : Nat) :
    (a.remove i).bit j = (a.bit j && !decide (i < n ∧ j = i)) := by
  unfold BlockSet.remove
  rw [ha.bound]
  split
  · next hi =>
    simp only [bit, word, getD_modify _ _ _ _ (ha.index_lt hi), index_eq_iff (i := i), hi, true_and]
    have hr : j % blockSize < blockSize := Nat.mod_lt _ (by decide)
    by_cases hk : j / blockSize = i / blockSize
    · simp only [hk, if_true, BitVec.getLsbD_and, BitVec.getLsbD_not, getLsbD_mask i hr, true_and,
        decide_eq_true (show j % blockSize < 64 from hr), Bool.true_and]
    · simp [hk]
  · next hi => simp [hi]

theorem Fits.combine (ha : a.Fits n) (b : BlockSet) (f : BitVec 64 → BitVec 64 → BitVec 64) :
    Fits n { a with words := combine f a.words b.words } :=
  ⟨ha.bound, by rw [length_combine, ha.words]⟩

theorem Fits.word_combine (ha : a.Fits n) (hb : b.Fits n) {f : BitVec 64 → BitVec 64 → BitVec 64}
    (hf : f 0#64 0#64 = 0#64) (i : Nat) :
    word { a with words := BlockSet.combine f a.words b.words } i = f (a.word i) (b.word i) :=
  getD_combine hf (ha.words.trans hb.words.symm) _

theorem Fits.bit_union (ha : a.Fits n) (hb : b.Fits n) (i : Nat) :
    (a.union b).bit i = (a.bit i || b.bit i) := by
  rw [bit, BlockSet.union, ha.word_combine hb (by rfl), BitVec.getLsbD_or, bit, bit]

theorem Fits.bit_inter (ha : a.Fits n) (hb : b.Fits n) (i : Nat) :
    (a.inter b).bit i = (a.bit i && b.bit i) := by
  rw [bit, BlockSet.inter, ha.word_combine hb (by rfl), BitVec.getLsbD_and, bit, bit]

theorem Fits.bit_diff (ha : a.Fits n) (hb : b.Fits n) (i : Nat) :
    (a.diff b).bit i = (a.bit i && !b.bit i) := by
  have hr : i % blockSize < 64 := Nat.mod_lt _ (by decide)
  rw [bit, BlockSet.diff, ha.word_combine hb (by rfl), BitVec.getLsbD_and, BitVec.getLsbD_not, bit,
    bit, decide_eq_true hr, Bool.true_and]

theorem Fits.compl (ha : a.Fits n) : a.compl.Fits n :=
  Fits.clearTail ⟨ha.bound, by rw [List.length_map, ha.words]⟩

theorem Fits.bit_compl (ha : a.Fits n) (i : Nat) :
    a.compl.bit i = (decide (i < n) && !a.bit i) := by
  have hfits : Fits n { a with words := a.words.map (~~~ ·) } :=
    ⟨ha.bound, by rw [List.length_map, ha.words]⟩
  rw [BlockSet.compl, hfits.bit_clearTail]
  by_cases hi : i < n
  · have hr : i % blockSize < 64 := Nat.mod_lt _ (by decide)
    have hk := ha.index_lt hi
    simp [hi, bit, word, hk, hr]
  · simp [hi]

/-! ## The words of a set -/

theorem fits_toBlockSet (h : s.Over n) : s.toBlockSet.Fits n :=
  ⟨h.bound, by simp [StateSet.toBlockSet, StateSet.toBlocks, h.blocks]⟩

theorem bit_toBlockSet (h : s.Over n) (i : Nat) : s.toBlockSet.bit i = s.bits.testBit i := by
  by_cases hk : i / blockSize < blocksFor n
  · have hr : i % blockSize < 64 := Nat.mod_lt _ (by decide)
    have hi : blockSize * (i / blockSize) + i % blockSize = i := Nat.div_add_mod i blockSize
    have hword : s.toBlockSet.word i =
        BitVec.ofNat 64 (s.bits >>> (blockSize * (i / blockSize)) % Nat.pow 2 blockSize) := by
      simp [word, StateSet.toBlockSet, StateSet.toBlocks, h.blocks, hk]
    rw [bit, hword, BitVec.getLsbD_ofNat, Nat.pow_eq, Nat.testBit_mod_two_pow,
      Nat.testBit_shiftRight, hi, decide_eq_true hr, decide_eq_true (Nat.mod_lt _ (by decide)),
      Bool.true_and, Bool.true_and]
  · have hi : i ∉ s := fun hmem => by
      have := h.lt hmem
      simp only [blocksFor, blockSize] at hk
      omega
    rw [h.mem_iff, Bool.not_eq_true] at hi
    rw [hi, (fits_toBlockSet h).bit_eq_false (not_lt.mp hk)]

theorem mem_iff_bit (h : s.Over n) {i : Nat} : i ∈ s ↔ s.toBlockSet.bit i = true := by
  rw [h.mem_iff, bit_toBlockSet h]

/-- The words of a set are told by its members. -/
theorem toBlockSet_eq (hs : s.Over n) (ha : a.Fits n) (h : ∀ i, i ∈ s ↔ a.bit i = true) :
    s.toBlockSet = a := by
  apply (fits_toBlockSet hs).ext ha
  intro i
  rw [Bool.eq_iff_iff, ← mem_iff_bit hs]
  exact h i

theorem toBlockSet_inj (hs : s.Over n) (ht : t.Over n) : s.toBlockSet = t.toBlockSet ↔ s = t := by
  refine ⟨fun h => hs.ext ht fun i => ?_, congrArg _⟩
  rw [mem_iff_bit hs, mem_iff_bit ht, h]

theorem toBlockSet_empty (n : Nat) : (StateSet.empty n).toBlockSet = empty n := by
  apply toBlockSet_eq (StateSet.over_empty n) (fits_empty n)
  intro i
  rw [bit_empty]
  exact iff_of_false (StateSet.not_mem_empty n i) Bool.false_ne_true

theorem toBlockSet_full (n : Nat) : (StateSet.full n).toBlockSet = full n := by
  apply toBlockSet_eq (StateSet.over_full n) (fits_full n)
  intro i
  rw [StateSet.mem_full, bit_full, decide_eq_true_iff]

theorem toBlockSet_insert (h : s.Over n) (i : Nat) :
    (s.insert i).toBlockSet = (s.toBlockSet.insert i).1 := by
  have hfits := fits_toBlockSet h
  apply toBlockSet_eq (h.insert i) (hfits.insert i)
  intro j
  rw [hfits.bit_insert, Bool.or_eq_true, ← mem_iff_bit h, decide_eq_true_iff]
  by_cases hi : i < n
  · rw [h.mem_insert hi, or_comm]
    simp [hi]
  · rw [StateSet.insert, if_neg (by rwa [h.bound])]
    simp [hi]

theorem toBlockSet_ofList (n : Nat) (l : List Nat) :
    (StateSet.ofList n l).toBlockSet = ofList n l := by
  have hfold : ∀ s : StateSet, s.Over n →
      (l.foldl StateSet.insert s).toBlockSet =
        l.foldl (fun a i => (a.insert i).1) s.toBlockSet := by
    induction l with
    | nil => exact fun _ _ => rfl
    | cons i l ih =>
      intro s hs
      rw [List.foldl_cons, List.foldl_cons, ih _ (hs.insert i), toBlockSet_insert hs]
  rw [StateSet.ofList, hfold _ (StateSet.over_empty n), toBlockSet_empty, ofList]

theorem toBlockSet_remove (h : s.Over n) (i : Nat) :
    (s.remove i).toBlockSet = s.toBlockSet.remove i := by
  have hfits := fits_toBlockSet h
  apply toBlockSet_eq (h.remove i) (hfits.remove i)
  intro j
  rw [hfits.bit_remove, Bool.and_eq_true, ← mem_iff_bit h, h.mem_remove, and_comm,
    Bool.not_eq_true', decide_eq_false_iff_not]
  refine and_congr_right fun hj => ⟨fun hne hc => hne hc.2, fun hc he => hc ⟨he ▸ h.lt hj, he⟩⟩

theorem toBlockSet_set (h : s.Over n) (i : Nat) (b : Bool) :
    (s.set i b).toBlockSet = s.toBlockSet.set i b := by
  cases b
  · exact toBlockSet_remove h i
  · exact toBlockSet_insert h i

theorem toBlockSet_union (hs : s.Over n) (ht : t.Over n) :
    (s.union t).toBlockSet = s.toBlockSet.union t.toBlockSet := by
  apply toBlockSet_eq (hs.union ht) ((fits_toBlockSet hs).combine _ _)
  intro i
  change _ ↔ (s.toBlockSet.union t.toBlockSet).bit i = true
  rw [(fits_toBlockSet hs).bit_union (fits_toBlockSet ht), Bool.or_eq_true, ← mem_iff_bit hs,
    ← mem_iff_bit ht, hs.mem_union ht]

theorem toBlockSet_inter (hs : s.Over n) (ht : t.Over n) :
    (s.inter t).toBlockSet = s.toBlockSet.inter t.toBlockSet := by
  apply toBlockSet_eq (hs.inter ht) ((fits_toBlockSet hs).combine _ _)
  intro i
  change _ ↔ (s.toBlockSet.inter t.toBlockSet).bit i = true
  rw [(fits_toBlockSet hs).bit_inter (fits_toBlockSet ht), Bool.and_eq_true, ← mem_iff_bit hs,
    ← mem_iff_bit ht, hs.mem_inter ht]

theorem toBlockSet_diff (hs : s.Over n) (ht : t.Over n) :
    (s.diff t).toBlockSet = s.toBlockSet.diff t.toBlockSet := by
  apply toBlockSet_eq (hs.diff t) ((fits_toBlockSet hs).combine _ _)
  intro i
  change _ ↔ (s.toBlockSet.diff t.toBlockSet).bit i = true
  rw [(fits_toBlockSet hs).bit_diff (fits_toBlockSet ht), Bool.and_eq_true, Bool.not_eq_true',
    ← Bool.not_eq_true, ← mem_iff_bit hs, ← mem_iff_bit ht, hs.mem_diff ht]

theorem toBlockSet_compl (h : s.Over n) : s.compl.toBlockSet = s.toBlockSet.compl := by
  apply toBlockSet_eq h.compl (fits_toBlockSet h).compl
  intro i
  rw [(fits_toBlockSet h).bit_compl, Bool.and_eq_true, Bool.not_eq_true', ← Bool.not_eq_true,
    ← mem_iff_bit h, decide_eq_true_iff, h.mem_compl]

/-! ## What is read off the words -/

theorem mask_ne_zero (i : Nat) : mask i ≠ 0#64 := by
  intro h
  have hr : i % blockSize < blockSize := Nat.mod_lt _ (by decide)
  have hbit := getLsbD_mask i hr
  rw [h, BitVec.getLsbD_zero, decide_eq_true rfl] at hbit
  exact Bool.false_ne_true hbit

theorem word_and_mask (a : BlockSet) (i : Nat) :
    a.word i &&& mask i = if a.bit i then mask i else 0#64 := by
  apply BitVec.eq_of_getLsbD_eq
  intro j hj
  rw [BitVec.getLsbD_and, getLsbD_mask i hj]
  by_cases he : j = i % blockSize
  · have hbit : (a.word i).getLsbD j = a.bit i := by rw [he, bit]
    rw [hbit, decide_eq_true he, Bool.and_true]
    split
    · next h => rw [h, getLsbD_mask i hj, decide_eq_true he]
    · next h => rw [BitVec.getLsbD_zero, Bool.eq_false_iff.mpr h]
  · rw [decide_eq_false he, Bool.and_false]
    split
    · rw [getLsbD_mask i hj, decide_eq_false he]
    · rw [BitVec.getLsbD_zero]

theorem contains_toBlockSet (h : s.Over n) (i : Nat) : s.toBlockSet.contains i = s.contains i := by
  have htest : (s.toBlockSet.word i &&& mask i != 0) = s.toBlockSet.bit i := by
    rw [word_and_mask]
    cases s.toBlockSet.bit i <;> simp [mask_ne_zero]
  rw [contains, htest, bit_toBlockSet h, StateSet.contains]
  rfl

/-- What `insert` reports is whether the state is a new one of the universe. -/
theorem insert_toBlockSet_snd (h : s.Over n) (i : Nat) :
    (s.toBlockSet.insert i).2 = s.isNew i := by
  have htest : (s.toBlockSet.word i &&& mask i == 0) = !s.toBlockSet.bit i := by
    rw [word_and_mask]
    cases s.toBlockSet.bit i <;> simp [mask_ne_zero]
  have hbound : s.toBlockSet.bound = s.bound := rfl
  unfold insert
  rw [StateSet.isNew, ← bit_toBlockSet h, ← htest, hbound]
  split
  · next hi => rw [decide_eq_false (not_lt.mpr hi), Bool.false_and]
  · next hi => rw [decide_eq_true (not_le.mp hi), Bool.true_and]

theorem Fits.isEmpty_iff (ha : a.Fits n) : a.isEmpty ↔ ∀ i, a.bit i = false := by
  rw [isEmpty, List.all_eq_true]
  constructor
  · intro h i
    by_cases hi : i / blockSize < a.words.length
    · have hzero := h _ (List.getElem_mem hi)
      rw [bit, word, List.getD_eq_getElem _ _ hi, eq_of_beq hzero]
      exact BitVec.getLsbD_zero
    · exact ha.bit_eq_false (by rw [← ha.words]; exact not_lt.mp hi)
  · intro h w hw
    obtain ⟨k, hk, rfl⟩ := List.getElem_of_mem hw
    apply beq_of_eq
    apply BitVec.eq_of_getLsbD_eq
    intro j hj
    have hkj : (blockSize * k + j) / blockSize = k ∧ (blockSize * k + j) % blockSize = j := by
      simp only [blockSize]
      omega
    have hbit := h (blockSize * k + j)
    rw [bit, word, hkj.1, hkj.2, List.getD_eq_getElem _ _ hk] at hbit
    rw [hbit]
    exact BitVec.getLsbD_zero.symm

theorem isEmpty_toBlockSet (h : s.Over n) : s.toBlockSet.isEmpty = s.isEmpty := by
  rw [Bool.eq_iff_iff, (fits_toBlockSet h).isEmpty_iff, h.isEmpty_iff]
  exact forall_congr' fun i => by rw [mem_iff_bit h, Bool.not_eq_true]

theorem all_combine (f : BitVec 64 → BitVec 64 → BitVec 64) (p : BitVec 64 → Bool)
    {as bs : List (BitVec 64)} (hlen : as.length = bs.length) :
    (combine f as bs).all p = (as.zip bs).all fun (x, y) => p (f x y) := by
  induction as generalizing bs with
  | nil => rfl
  | cons x as ih =>
    cases bs with
    | nil => simp at hlen
    | cons y bs => simp only [combine, List.all_cons, List.zip_cons_cons, ih (Nat.succ.inj hlen)]

theorem isSubset_toBlockSet (hs : s.Over n) (ht : t.Over n) :
    s.toBlockSet.isSubset t.toBlockSet = s.isSubset t := by
  have hlen := (fits_toBlockSet hs).words.trans (fits_toBlockSet ht).words.symm
  have hdiff : s.toBlockSet.isSubset t.toBlockSet = (s.diff t).toBlockSet.isEmpty := by
    rw [toBlockSet_diff hs ht, isSubset, isEmpty, diff, all_combine _ _ hlen]
  rw [hdiff, isEmpty_toBlockSet (hs.diff t), Bool.eq_iff_iff, (hs.diff t).isEmpty_iff,
    hs.isSubset_iff ht]
  exact forall_congr' fun i => by rw [hs.mem_diff ht, not_and_not_right]

/-! ## The lowest bit at a time -/

/-- Taking one off a word turns its lowest bit and those below it over. -/
theorem getLsbD_clear_lowest {w : BitVec 64} (hw : w ≠ 0#64) (j : Nat) :
    (w &&& (w - 1#64)).getLsbD j = (w.getLsbD j && decide (j ≠ w.ctz.toNat)) := by
  set k := w.ctz.toNat with hk
  have hlow : w.toNat % 2 ^ (k + 1) = 2 ^ k := by
    apply Nat.eq_of_testBit_eq
    intro i
    rw [Nat.testBit_mod_two_pow, Nat.testBit_two_pow]
    rcases lt_trichotomy i k with hi | rfl | hi
    · have hbit : w.toNat.testBit i = false := BitVec.getLsbD_false_of_lt_ctz hi
      simp [hbit, hi.ne']
    · have hbit : w.toNat.testBit k = true := BitVec.getLsbD_true_ctz_of_ne_zero hw
      simp [hbit]
    · simp [hi.ne, show ¬ i < k + 1 by omega]
  have hpow := Nat.two_pow_pos k
  have hlt : 2 ^ k < 2 ^ (k + 1) := Nat.pow_lt_pow_right (by omega) (by omega)
  have hX : w.toNat = 2 ^ (k + 1) * (w.toNat / 2 ^ (k + 1)) + 2 ^ k := by
    rw [← hlow, Nat.div_add_mod]
  generalize w.toNat / 2 ^ (k + 1) = q at hX
  have hsub : (w - 1#64).toNat = 2 ^ (k + 1) * q + (2 ^ k - 1) := by
    rw [BitVec.toNat_sub_of_le, BitVec.toNat_one (by omega)]
    · omega
    · rw [BitVec.le_def, BitVec.toNat_one (by omega)]
      omega
  rw [BitVec.getLsbD_and, BitVec.getLsbD, BitVec.getLsbD, hsub, hX,
    Nat.testBit_two_pow_mul_add _ hlt, Nat.testBit_two_pow_mul_add _ (by omega)]
  split
  · next hj =>
    rw [Nat.testBit_two_pow, Nat.testBit_two_pow_sub_one]
    by_cases he : j = k
    · simp [he]
    · simp [he, Ne.symm he]
  · next hj => simp [show j ≠ k by omega]

theorem mem_setBits (w : BitVec 64) (j : Nat) : j ∈ setBits w ↔ w.getLsbD j = true := by
  induction w using setBits.induct with
  | case1 =>
    rw [setBits, if_pos rfl, BitVec.getLsbD_zero]
    simp
  | case2 w hw ih =>
    rw [setBits, if_neg hw, List.mem_cons, ih, getLsbD_clear_lowest hw, Bool.and_eq_true,
      decide_eq_true_iff]
    by_cases hj : j = w.ctz.toNat
    · simp [hj, BitVec.getLsbD_true_ctz_of_ne_zero hw]
    · simp [hj]

theorem sorted_setBits (w : BitVec 64) : (setBits w).Pairwise (· < ·) := by
  induction w using setBits.induct with
  | case1 =>
    rw [setBits, if_pos rfl]
    exact List.Pairwise.nil
  | case2 w hw ih =>
    rw [setBits, if_neg hw, List.pairwise_cons]
    refine ⟨fun j hj => ?_, ih⟩
    rw [mem_setBits, getLsbD_clear_lowest hw, Bool.and_eq_true, decide_eq_true_iff] at hj
    apply lt_of_le_of_ne _ hj.2.symm
    by_contra hlt
    rw [BitVec.getLsbD_false_of_lt_ctz (not_le.mp hlt)] at hj
    exact Bool.false_ne_true hj.1

theorem length_setBits (w : BitVec 64) : (setBits w).length = w.cpop.toNat := by
  have hrec : ∀ k, w.cpopNatRec k 0 = ((List.range k).filter w.getLsbD).length := by
    intro k
    induction k with
    | zero => rfl
    | succ k ih =>
      rw [BitVec.cpopNatRec_succ, BitVec.cpopNatRec_add, ih, List.range_succ, List.filter_append,
        List.length_append]
      cases hb : w.getLsbD k <;> simp [hb]
  have hlist : setBits w = (List.range 64).filter w.getLsbD := by
    apply (sorted_setBits w).eq_of_mem_iff (List.pairwise_lt_range.filter _)
    intro j
    rw [mem_setBits, List.mem_filter, List.mem_range]
    exact ⟨fun hj => ⟨BitVec.lt_of_getLsbD hj, hj⟩, And.right⟩
  rw [BitVec.toNat_cpop, hrec, hlist]

theorem mem_members_iff (a : BlockSet) (i : Nat) : i ∈ a.members ↔ a.bit i = true := by
  simp only [members, List.mem_flatMap, List.mem_map, Prod.exists, List.mk_mem_zipIdx_iff_getElem?,
    mem_setBits]
  constructor
  · rintro ⟨w, k, hk, j, hj, rfl⟩
    have hlt : j < 64 := BitVec.lt_of_getLsbD hj
    have hkj : (blockSize * k + j) / blockSize = k ∧ (blockSize * k + j) % blockSize = j := by
      simp only [blockSize]
      omega
    rw [bit, word, hkj.1, hkj.2, List.getD_eq_getElem?_getD, hk]
    exact hj
  · intro h
    have hk : i / blockSize < a.words.length := by
      by_contra hk
      rw [bit, word, List.getD_eq_default _ _ (not_lt.mp hk)] at h
      exact Bool.false_ne_true (BitVec.getLsbD_zero.symm.trans h)
    rw [bit, word, List.getD_eq_getElem _ _ hk] at h
    exact ⟨_, _, List.getElem?_eq_getElem hk, _, h, Nat.div_add_mod i blockSize⟩

/-- The words come in order, and so do the positions in each. -/
theorem sorted_members (a : BlockSet) : a.members.Pairwise (· < ·) := by
  rw [members, List.pairwise_flatMap]
  constructor
  · rintro ⟨w, k⟩ -
    rw [List.pairwise_map]
    exact (sorted_setBits w).imp fun h => Nat.add_lt_add_left h _
  · have hindices : a.words.zipIdx.Pairwise (fun p q => p.2 < q.2) := by
      rw [← List.pairwise_map (f := Prod.snd) (R := (· < ·)), List.zipIdx_map_snd]
      exact List.pairwise_lt_range'
    refine hindices.imp ?_
    rintro ⟨w, k⟩ ⟨v, l⟩ hkl x hx y hy
    obtain ⟨i, hi, rfl⟩ := List.mem_map.mp hx
    obtain ⟨j, -, rfl⟩ := List.mem_map.mp hy
    have hi : i < 64 := BitVec.lt_of_getLsbD ((mem_setBits w i).mp hi)
    change k < l at hkl
    simp only [blockSize]
    omega

theorem members_toBlockSet (h : s.Over n) : s.toBlockSet.members = s.members := by
  apply (sorted_members _).eq_of_mem_iff (StateSet.sorted_members s)
  intro i
  rw [mem_members_iff, ← mem_iff_bit h, h.mem_members]

theorem count_toBlockSet (h : s.Over n) : s.toBlockSet.count = s.count := by
  have hlen : ∀ a : BlockSet, a.count = a.members.length := by
    intro a
    have hfst := List.zipIdx_map_fst 0 a.words
    rw [count, members, List.length_flatMap, ← List.foldl_map, ← List.sum_eq_foldl]
    conv_lhs => rw [← hfst, List.map_map]
    congr 1
    apply List.map_congr_left
    intro p _
    rw [Function.comp_apply, List.length_map, length_setBits]
  rw [hlen, members_toBlockSet h, StateSet.count]

end StochasticGames.Arena.BlockSet
