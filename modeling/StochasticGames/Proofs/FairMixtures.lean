import StochasticGames.Proofs.ParetoPlays

/-! Mixtures of two profiles are no fairer than the ones in which a gap closes. Between two weights
at which gaps close, the same coalitions stay ahead and behind. So spread and sum change at steady
rates, and one of the two weights is at least as good as any between them. -/
namespace StochasticGames.Analysis
open StochasticGames.Numeric StochasticGames.Arena

section Lines
variable {v w l u x y x' y' : ℝ}

/-- At `v` on the line from `y` to `x`. -/
noncomputable def along (v x y : ℝ) : ℝ :=
  v * x + (1 - v) * y

@[simp] theorem along_zero (x y : ℝ) : along 0 x y = y := by
  simp [along]

@[simp] theorem along_one (x y : ℝ) : along 1 x y = x := by
  simp [along]

theorem along_sub (v x y x' y' : ℝ) :
    along v x y - along v x' y' = along v (x - x') (y - y') := by
  unfold along
  ring

theorem along_add (v x y x' y' : ℝ) :
    along v x y + along v x' y' = along v (x + x') (y + y') := by
  unfold along
  ring

theorem along_eq (v x y : ℝ) : along v x y = y + v * (x - y) := by
  unfold along
  ring

/-- A line that gets below zero on the way from `w` to `l` crosses zero before `l`. -/
theorem exists_root (hw : 0 ≤ along w x y) (hl : along l x y < 0) :
    x ≠ y ∧ ∃ v ∈ Set.uIcc l w, v ≠ l ∧ along v x y = 0 := by
  have hne : x ≠ y := by
    rintro rfl
    rw [along_eq, sub_self, mul_zero] at hw hl
    exact hl.not_ge hw
  have hslope : x - y ≠ 0 := sub_ne_zero.mpr hne
  obtain ⟨v, hv⟩ : ∃ v, along v x y = 0 := ⟨-y / (x - y), by rw [along_eq]; field_simp; ring⟩
  have hbefore : 0 ≤ (w - v) * (x - y) := by
    rw [along_eq] at hw hv
    linarith
  have hafter : 0 < (v - l) * (x - y) := by
    rw [along_eq] at hl hv
    linarith
  refine ⟨hne, v, ?_, fun he => ?_, hv⟩
  · rcases hslope.lt_or_gt with hneg | hpos
    · exact Set.mem_uIcc_of_ge (sub_nonpos.mp (nonpos_of_mul_nonneg_left hbefore hneg))
        (sub_neg.mp (neg_of_mul_pos_left hafter hneg.le)).le
    · exact Set.mem_uIcc_of_le (sub_pos.mp (pos_of_mul_pos_left hafter hpos.le)).le
        (sub_nonneg.mp (nonneg_of_mul_nonneg_left hbefore hpos))
  · rw [he, sub_self, zero_mul] at hafter
    exact hafter.false

/-- Of two steady quantities the first is smaller at one end, or the same at both ends and the
second is as large at one of them. -/
theorem exists_end_le (hl : l ≤ w) (hu : w ≤ u) (x y x' y' : ℝ) : ∃ v, (v = l ∨ v = u) ∧
    (along v x y < along w x y ∨ along v x y = along w x y ∧ along w x' y' ≤ along v x' y') := by
  simp only [along_eq]
  rcases hl.eq_or_lt with rfl | hl
  · exact ⟨l, .inl rfl, .inr ⟨rfl, le_rfl⟩⟩
  rcases hu.eq_or_lt with rfl | hu
  · exact ⟨w, .inr rfl, .inr ⟨rfl, le_rfl⟩⟩
  rcases lt_trichotomy (x - y) 0 with hneg | hzero | hpos
  · exact ⟨u, .inr rfl, .inl (add_lt_add_right (mul_lt_mul_of_neg_right hu hneg) y)⟩
  · rcases le_total (x' - y') 0 with hdown | hup
    · exact ⟨l, .inl rfl, .inr ⟨by rw [hzero, mul_zero, mul_zero],
        add_le_add_right (mul_le_mul_of_nonpos_right hl.le hdown) y'⟩⟩
    · exact ⟨u, .inr rfl, .inr ⟨by rw [hzero, mul_zero, mul_zero],
        add_le_add_right (mul_le_mul_of_nonneg_right hu.le hup) y'⟩⟩
  · exact ⟨l, .inl rfl, .inl (add_lt_add_right (mul_lt_mul_of_pos_right hl hpos) y)⟩

/-- The nearest of finitely many weights on both sides. -/
theorem exists_bracket {K : Set ℝ} (hfinite : K.Finite) (h₀ : 0 ∈ K) (h₁ : 1 ∈ K) (hw : 0 ≤ w)
    (hw' : w ≤ 1) : ∃ l ∈ K, ∃ u ∈ K, l ≤ w ∧ w ≤ u ∧
      (∀ v ∈ K, v ≤ w → v ≤ l) ∧ ∀ v ∈ K, w ≤ v → u ≤ v := by
  obtain ⟨l, ⟨hl, hlw⟩, hmax⟩ := Set.exists_max_image (K ∩ Set.Iic w) id
    (hfinite.inter_of_left _) ⟨0, h₀, hw⟩
  obtain ⟨u, ⟨hu, hwu⟩, hmin⟩ := Set.exists_min_image (K ∩ Set.Ici w) id
    (hfinite.inter_of_left _) ⟨1, h₁, hw'⟩
  exact ⟨l, hl, u, hu, hlw, hwu, fun v hv hle => hmax v ⟨hv, hle⟩,
    fun v hv hge => hmin v ⟨hv, hge⟩⟩

/-- Where all roots of a line are in `K`, it does not get below zero on the way from `w` to the
nearest element of `K`. -/
theorem along_nonneg {K : Set ℝ} (hroots : x ≠ y → ∀ v ∈ Set.Icc (0 : ℝ) 1, along v x y = 0 → v ∈ K)
    (hw : w ∈ Set.Icc (0 : ℝ) 1) (hl : l ∈ Set.Icc (0 : ℝ) 1)
    (hnear : ∀ v ∈ K, v ∈ Set.uIcc l w → v = l) (hpos : 0 ≤ along w x y) : 0 ≤ along l x y := by
  by_contra hneg
  obtain ⟨hne, v, hv, hvl, hroot⟩ := exists_root hpos (not_le.mp hneg)
  exact hvl (hnear v (hroots hne v (Set.uIcc_subset_Icc hl hw hv) hroot) hv)

end Lines

/-- Mixes real payoffs. -/
noncomputable def blended (v : ℝ) (a b : List ℝ) : List ℝ :=
  List.zipWith (along v) a b

section Lists
variable {a b : List ℝ} {v w : ℝ}

theorem getD_blended (hlen : a.length = b.length) (v : ℝ) (k : Nat) :
    (blended v a b).getD k 0 = along v (a.getD k 0) (b.getD k 0) := by
  simp only [blended, List.getD_eq_getElem?_getD, List.getElem?_zipWith]
  by_cases hk : k < a.length
  · simp [hk, hlen ▸ hk]
  · have hkb := hlen ▸ hk
    simp [not_lt.mp hk, not_lt.mp hkb, along]

theorem length_blended (hlen : a.length = b.length) (v : ℝ) :
    (blended v a b).length = a.length := by
  rw [blended, List.length_zipWith, hlen, min_self]

theorem sum_blended (hlen : a.length = b.length) (v : ℝ) :
    (blended v a b).sum = along v a.sum b.sum := by
  induction a generalizing b with
  | nil =>
    obtain rfl := List.length_eq_zero_iff.mp hlen.symm
    simp [blended, along]
  | cons x a ih =>
    obtain ⟨y, b, rfl⟩ := List.exists_cons_of_length_eq_add_one hlen.symm
    have hsum := ih (b := b) (Nat.succ_injective hlen)
    rw [blended] at hsum
    rw [blended, List.zipWith_cons_cons, List.sum_cons, List.sum_cons, List.sum_cons, hsum,
      along_add]

theorem blended_zero (hlen : a.length = b.length) : blended 0 a b = b := by
  refine List.ext_getElem ((length_blended hlen 0).trans hlen) fun k hk hkb => ?_
  simp [blended]

theorem blended_one (hlen : a.length = b.length) : blended 1 a b = a := by
  refine List.ext_getElem (length_blended hlen 1) fun k hk hka => ?_
  simp [blended]

theorem blended_symm (hlen : a.length = b.length) (v : ℝ) :
    blended (1 - v) b a = blended v a b := by
  refine List.ext_getElem (by simp [blended, hlen]) fun k hk hka => ?_
  simp only [blended, List.getElem_zipWith, along_eq]
  ring

theorem blended_self (v : ℝ) (a : List ℝ) : blended v a a = a := by
  refine List.ext_getElem (length_blended rfl v) fun k hk hka => ?_
  simp [blended, along_eq]

end Lists

namespace Profile
variable {a b : List ℝ} {v w : ℝ} {c d : Nat}

/-- Real payoffs as a profile. -/
noncomputable def ofReals (l : List ℝ) : Profile EReal :=
  l.map fun x : ℝ => (x : EReal)

theorem exists_ofReals {p : Profile EReal} (hp : ∀ x ∈ p, ∃ y : ℝ, x = y) :
    ∃ l, p = ofReals l := by
  refine ⟨p.map EReal.toReal, (List.map_id p).symm.trans ?_⟩
  rw [ofReals, List.map_map]
  refine List.map_congr_left fun x hx => ?_
  obtain ⟨y, rfl⟩ := hp x hx
  rfl

theorem getD_ofReals (l : List ℝ) (k : Nat) : (ofReals l).getD k 0 = ((l.getD k 0 : ℝ) : EReal) :=
  List.getD_map l 0 fun x : ℝ => (x : EReal)

theorem mix_ofReals (v : ℝ) (a b : List ℝ) :
    mix (v : EReal) (ofReals a) (ofReals b) = ofReals (blended v a b) := by
  rw [mix, ofReals, ofReals, List.zipWith_map, ofReals, blended, List.map_zipWith]
  exact congrArg (List.zipWith · a b) (funext₂ fun x y => coe_mean v x y)

theorem sum_ofReals (l : List ℝ) : Scalar.sum (ofReals l) = ((l.sum : ℝ) : EReal) := by
  rw [Scalar.sum, ← List.sum_eq_foldl]
  induction l with
  | nil => rfl
  | cons x l ih =>
    rw [ofReals, List.map_cons, List.sum_cons, List.sum_cons, EReal.coe_add, ← ih, ofReals]

/-- The spread is the gap between a coalition that no other one is ahead of and one that no other
one is behind. -/
theorem spread_ofReals {l : List ℝ} (hc : c < l.length) (hd : d < l.length)
    (hle : ∀ k, k < l.length → l.getD k 0 ≤ l.getD c 0)
    (hge : ∀ k, k < l.length → l.getD d 0 ≤ l.getD k 0) :
    (ofReals l).spread = ((l.getD c 0 - l.getD d 0 : ℝ) : EReal) := by
  have hmem : ∀ x ∈ ofReals l, ∃ k < l.length, x = ((l.getD k 0 : ℝ) : EReal) := by
    intro x hx
    obtain ⟨y, hy, rfl⟩ := List.mem_map.mp hx
    obtain ⟨k, hk, rfl⟩ := List.getElem_of_mem hy
    exact ⟨k, hk, by rw [List.getD_eq_getElem]⟩
  have hin : ∀ k < l.length, ((l.getD k 0 : ℝ) : EReal) ∈ ofReals l := fun k hk => by
    rw [List.getD_eq_getElem _ _ hk]
    exact List.mem_map_of_mem (List.getElem_mem hk)
  have hne : ofReals l ≠ [] := List.ne_nil_of_mem (hin c hc)
  have hlargest : (ofReals l).largest = ((l.getD c 0 : ℝ) : EReal) := by
    obtain ⟨k, hk, he⟩ := hmem _ (largest_mem hne)
    exact le_antisymm (he ▸ EReal.coe_le_coe_iff.mpr (hle k hk)) (le_largest (hin c hc))
  have hsmallest : (ofReals l).smallest = ((l.getD d 0 : ℝ) : EReal) := by
    obtain ⟨k, hk, he⟩ := hmem _ (smallest_mem hne)
    exact le_antisymm (smallest_le (hin d hd)) (he ▸ EReal.coe_le_coe_iff.mpr (hge k hk))
  rw [spread, hlargest, hsmallest, EReal.coe_sub]

theorem mem_positionPairs {n : Nat} : (c, d) ∈ positionPairs n ↔ c < d ∧ d < n := by
  simp only [positionPairs, List.mem_flatMap, List.mem_range, List.mem_map, List.mem_range'_1,
    Prod.mk.injEq]
  constructor
  · rintro ⟨c, hc, d, hd, rfl, rfl⟩
    omega
  · rintro ⟨hlt, hd⟩
    exact ⟨c, by omega, d, by omega, rfl, rfl⟩

/-- The weights that matter: the two choices themselves, and where some gap closes. -/
noncomputable def turningPoints (a b : List ℝ) : Set ℝ :=
  {v | v = 0 ∨ v = 1 ∨ ∃ x ∈ positionPairs a.length,
    crossing? (ofReals a) (ofReals b) x.1 x.2 = some (v : EReal)}

theorem finite_turningPoints (a b : List ℝ) : (turningPoints a b).Finite := by
  have hsub : turningPoints a b ⊆ Set.preimage (fun v : ℝ => (v : EReal))
      {w | w ∈ (0 : EReal) :: 1 :: (positionPairs a.length).filterMap fun x =>
        crossing? (ofReals a) (ofReals b) x.1 x.2} := by
    rintro v (rfl | rfl | ⟨x, hx, hv⟩)
    · simp
    · simp
    · exact List.mem_cons_of_mem _ (List.mem_cons_of_mem _ (List.mem_filterMap.mpr ⟨x, hx, hv⟩))
  exact ((List.finite_toSet _).preimage EReal.coe_injective.injOn).subset hsub

theorem turningPoints_subset (a b : List ℝ) : turningPoints a b ⊆ Set.Icc 0 1 := by
  rintro v (rfl | rfl | ⟨x, -, hv⟩)
  · simp
  · simp
  · obtain ⟨hpos, hlt⟩ := crossing?_spec hv
    exact ⟨(EReal.coe_pos.mp hpos).le, (EReal.coe_lt_coe_iff.mp hlt).le⟩

/-- The gap between two coalitions closes nowhere else. -/
theorem mem_turningPoints (hc : c < a.length) (hd : d < a.length)
    (hne : a.getD c 0 - a.getD d 0 ≠ b.getD c 0 - b.getD d 0) (hv : v ∈ Set.Icc (0 : ℝ) 1)
    (hroot : along v (a.getD c 0 - a.getD d 0) (b.getD c 0 - b.getD d 0) = 0) :
    v ∈ turningPoints a b := by
  rcases hv.1.eq_or_lt with rfl | hpos
  · exact .inl rfl
  rcases hv.2.eq_or_lt with rfl | hlt
  · exact .inr (.inl rfl)
  have hcloses : ∀ {c d}, c < d → d < a.length →
      a.getD c 0 - a.getD d 0 ≠ b.getD c 0 - b.getD d 0 →
      along v (a.getD c 0 - a.getD d 0) (b.getD c 0 - b.getD d 0) = 0 → v ∈ turningPoints a b := by
    intro c d hcd hd hne hroot
    have hgap : ∀ l : List ℝ, (ofReals l).getD c 0 - (ofReals l).getD d 0 =
        ((l.getD c 0 - l.getD d 0 : ℝ) : EReal) := fun l => by
      rw [getD_ofReals, getD_ofReals, EReal.coe_sub]
    have hratio : (b.getD c 0 - b.getD d 0) /
        (b.getD c 0 - b.getD d 0 - (a.getD c 0 - a.getD d 0)) = v := by
      rw [div_eq_iff (sub_ne_zero.mpr hne.symm)]
      rw [along_eq] at hroot
      linarith
    refine .inr (.inr ⟨(c, d), mem_positionPairs.mpr ⟨hcd, hd⟩, ?_⟩)
    rw [crossing?_eq (hgap a) (hgap b), if_neg hne.symm, hratio, if_pos ⟨hpos, hlt⟩]
  rcases lt_trichotomy c d with hcd | rfl | hdc
  · exact hcloses hcd hd hne hroot
  · exact absurd (by rw [sub_self, sub_self]) hne
  · refine hcloses hdc hc (fun he => hne ?_) ?_
    · linarith
    · rw [along_eq] at hroot ⊢
      linarith

/-- Some coalition is ahead and some is behind. -/
theorem exists_extremes {l : List ℝ} (hl : l ≠ []) : ∃ c < l.length, ∃ d < l.length,
    (∀ k, k < l.length → l.getD k 0 ≤ l.getD c 0) ∧
      ∀ k, k < l.length → l.getD d 0 ≤ l.getD k 0 := by
  have hpos : 0 ∈ Finset.range l.length := Finset.mem_range.mpr (List.length_pos_iff.mpr hl)
  obtain ⟨c, hc, hmax⟩ := Finset.exists_max_image _ (fun k => l.getD k 0) ⟨0, hpos⟩
  obtain ⟨d, hd, hmin⟩ := Finset.exists_min_image _ (fun k => l.getD k 0) ⟨0, hpos⟩
  exact ⟨c, Finset.mem_range.mp hc, d, Finset.mem_range.mp hd,
    fun k hk => hmax k (Finset.mem_range.mpr hk), fun k hk => hmin k (Finset.mem_range.mpr hk)⟩

/-- Every mixture has a weight that matters at which the mixture is at least as fair. -/
theorem exists_turningPoint_le (hlen : a.length = b.length) (hne : a ≠ [])
    (hw : w ∈ Set.Icc (0 : ℝ) 1) : ∃ v ∈ turningPoints a b,
      (ofReals (blended v a b)).fairKey ≤ (ofReals (blended w a b)).fairKey := by
  obtain ⟨l, hl, u, hu, hlw, hwu, hbelow, habove⟩ :=
    exists_bracket (finite_turningPoints a b) (.inl rfl) (.inr (.inl rfl)) hw.1 hw.2
  have hnonempty : blended w a b ≠ [] := by
    rw [← List.length_pos_iff, length_blended hlen]
    exact List.length_pos_iff.mpr hne
  obtain ⟨c, hc, d, hd, hmax, hmin⟩ := exists_extremes hnonempty
  simp only [length_blended hlen] at hc hd hmax hmin
  -- no gap changes sides before the next turning point, so `c` stays ahead and `d` behind
  have hkeeps : ∀ v, v = l ∨ v = u → ∀ i < a.length, ∀ j < a.length,
      (blended w a b).getD i 0 ≤ (blended w a b).getD j 0 →
      (blended v a b).getD i 0 ≤ (blended v a b).getD j 0 := by
    intro v hv i hi j hj hle
    rw [getD_blended hlen, getD_blended hlen, ← sub_nonneg, along_sub] at hle ⊢
    refine along_nonneg (fun hgap z => mem_turningPoints hj hi hgap) hw
      (turningPoints_subset a b (hv.elim (· ▸ hl) (· ▸ hu))) (fun z hz hin => ?_) hle
    rcases hv with rfl | rfl
    · rw [Set.uIcc_of_le hlw] at hin
      exact (hbelow z hz hin.2).antisymm hin.1
    · rw [Set.uIcc_of_ge hwu] at hin
      exact hin.2.antisymm (habove z hz hin.1)
  have hspread : ∀ v, (∀ k < a.length, (blended v a b).getD k 0 ≤ (blended v a b).getD c 0) →
      (∀ k < a.length, (blended v a b).getD d 0 ≤ (blended v a b).getD k 0) →
      (ofReals (blended v a b)).spread =
        ((along v (a.getD c 0 - a.getD d 0) (b.getD c 0 - b.getD d 0) : ℝ) : EReal) := by
    intro v hahead hbehind
    rw [← length_blended hlen v] at hahead hbehind hc hd
    rw [spread_ofReals hc hd hahead hbehind, getD_blended hlen, getD_blended hlen, along_sub]
  obtain ⟨v, hv, hend⟩ := exists_end_le hlw hwu (a.getD c 0 - a.getD d 0)
    (b.getD c 0 - b.getD d 0) a.sum b.sum
  refine ⟨v, hv.elim (· ▸ hl) (· ▸ hu), ?_⟩
  rw [fairKey, fairKey, hspread w hmax hmin,
    hspread v (fun k hk => hkeeps v hv k hk c hc (hmax k hk))
      (fun k hk => hkeeps v hv d hd k hk (hmin k hk)),
    sum_ofReals, sum_ofReals, sum_blended hlen, sum_blended hlen, Prod.Lex.toLex_le_toLex]
  simpa only [EReal.coe_lt_coe_iff, EReal.coe_eq_coe_iff, OrderDual.toDual_le_toDual,
    EReal.coe_le_coe_iff] using hend

section Fairest
variable {a b : Profile EReal} {w : EReal}

/-- Two profiles and their mixtures in which some gap closes. -/
def contenders (a b : Profile EReal) : Set (Profile EReal) :=
  {p | p = a ∨ p = b ∨ ∃ w, (∃ x ∈ positionPairs a.length, crossing? a b x.1 x.2 = some w) ∧
    p = mix w a b}

/-- The mixture in which the gap between two coalitions closes. -/
noncomputable def closing? (a b : Profile EReal) (x : Nat × Nat) : Option (EReal × Profile EReal) :=
  (crossing? a b x.1 x.2).map fun w => (w, mix w a b)

/-- The fairer of two mixtures, the first one when neither is. -/
noncomputable def fairer (x y : EReal × Profile EReal) : EReal × Profile EReal :=
  if fairBetter y.2 x.2 then y else x

theorem fairestMixture?_eq (a b : Profile EReal) : fairestMixture? a b =
    match (positionPairs a.length).filterMap (closing? a b) with
    | [] => none
    | x :: rest => some (rest.foldl fairer x) := by
  unfold fairestMixture?
  generalize positionPairs a.length = l
  suffices h : ∀ found, l.foldl _ found =
      match found.toList ++ l.filterMap (closing? a b) with
      | [] => none
      | x :: rest => some (rest.foldl fairer x) from h none
  intro found
  induction l generalizing found with
  | nil => cases found <;> rfl
  | cons x l ih =>
    rw [List.foldl_cons, ih, List.filterMap_cons]
    obtain ⟨c, d⟩ := x
    dsimp only [closing?]
    cases h : crossing? a b c d with
    | none => rfl
    | some w =>
      cases found with
      | none => rfl
      | some q =>
        by_cases hbetter : fairBetter (mix w a b) q.2 <;> simp [fairer, hbetter]

/-- With exact ties no mixture in which a gap closes is fairer than the one that is found. -/
theorem fairestMixture?_le (hexact : ExactlyRanked (contenders a b)) {x : Nat × Nat}
    (hx : x ∈ positionPairs a.length) (hw : crossing? a b x.1 x.2 = some w) :
    ∃ q, fairestMixture? a b = some q ∧ q.2.fairKey ≤ (mix w a b).fairKey := by
  have hmem : (w, mix w a b) ∈ (positionPairs a.length).filterMap (closing? a b) :=
    List.mem_filterMap.mpr ⟨x, hx, by rw [closing?, hw, Option.map_some]⟩
  have hcontends : ∀ y ∈ (positionPairs a.length).filterMap (closing? a b),
      y.2 ∈ contenders a b := by
    intro y hy
    obtain ⟨x, hx, hy⟩ := List.mem_filterMap.mp hy
    obtain ⟨w, hw, rfl⟩ := Option.map_eq_some_iff.mp hy
    exact .inr (.inr ⟨w, ⟨x, hx, hw⟩, rfl⟩)
  rw [fairestMixture?_eq]
  cases hl : (positionPairs a.length).filterMap (closing? a b) with
  | nil => exact absurd (hl ▸ hmem) List.not_mem_nil
  | cons y rest =>
    rw [hl] at hmem hcontends
    refine ⟨_, rfl, key_foldl_le (fun q : EReal × Profile EReal => q.2.fairKey)
      (fun y hy z hz => ?_) _ hmem⟩
    exact if_congr (hexact.fairBetter_iff (hcontends z hz) (hcontends y hy)) rfl rfl

/-- Two profiles and the fairest mixture in which a gap closes, if there is any. -/
noncomputable def finalists (a b : Profile EReal) : List (Profile EReal) :=
  a :: b :: ((fairestMixture? a b).map Prod.snd).toList

theorem mem_finalists {p : Profile EReal} : p ∈ finalists a b ↔
    p = a ∨ p = b ∨ ∃ w, fairestMixture? a b = some (w, p) := by
  simp [finalists]

/-- The fairest of the finalists is as fair as all mixtures. -/
theorem exists_fairest {a b : List ℝ} (hlen : a.length = b.length)
    (hexact : ExactlyRanked (contenders (ofReals a) (ofReals b))) :
    ∃ p ∈ finalists (ofReals a) (ofReals b),
      (∀ q ∈ finalists (ofReals a) (ofReals b), p.fairKey ≤ q.fairKey) ∧
      ∀ w : ℝ, 0 ≤ w → w ≤ 1 → p.fairKey ≤ (mix (w : EReal) (ofReals a) (ofReals b)).fairKey := by
  obtain ⟨p, hp, hmin⟩ := Set.exists_min_image {p | p ∈ finalists (ofReals a) (ofReals b)} fairKey
    (List.finite_toSet _) ⟨_, mem_finalists.mpr (.inl rfl)⟩
  refine ⟨p, hp, hmin, fun w hw hw' => ?_⟩
  have hfirst := hmin _ (mem_finalists.mpr (.inl rfl))
  have hsecond := hmin _ (mem_finalists.mpr (.inr (.inl rfl)))
  rw [mix_ofReals]
  by_cases hne : a = []
  · subst hne
    exact hfirst
  obtain ⟨v, hv, hle⟩ := exists_turningPoint_le hlen hne ⟨hw, hw'⟩
  refine le_trans ?_ hle
  rcases hv with rfl | rfl | ⟨x, hx, hcrossing⟩
  · rwa [blended_zero hlen]
  · rwa [blended_one hlen]
  · obtain ⟨q, hq, hle⟩ := fairestMixture?_le hexact (by simpa [ofReals] using hx) hcrossing
    rw [← mix_ofReals]
    exact (hmin q.2 (mem_finalists.mpr (.inr (.inr ⟨q.1, hq⟩)))).trans hle

end Fairest

end Profile

namespace Selector
variable {sel : Selector EReal} {owner : Option Nat} {secure : EReal}
  {profiles : Array (Profile EReal)} {l : List Nat} {i j n : Nat}
  {play : EquilibriumChoice EReal × Profile EReal}

/-- The profiles that a selection out of the choices in `l` may have to compare. -/
def contested (profiles : Array (Profile EReal)) (l : List Nat) : Set (Profile EReal) :=
  {p | ∃ i ∈ l, ∃ j ∈ l, p ∈ Profile.contenders (profiles.getD i []) (profiles.getD j [])}

theorem contested_of_mem_plays (h : play ∈ sel.plays profiles l) :
    play.2 ∈ contested profiles l := by
  obtain ⟨i, hi, rfl⟩ | ⟨-, i, j, hij, q, hq, rfl⟩ := mem_plays.mp h
  · exact ⟨i, hi, i, hi, .inl rfl⟩
  · obtain ⟨⟨c, d, hcd, hcrossing⟩, hmix⟩ := Profile.fairestMixture?_spec q hq
    obtain ⟨hi, hj⟩ := mem_of_mem_pairs hij
    exact ⟨i, hi, j, hj, .inr (.inr ⟨q.1, ⟨(c, d), hcd, hcrossing⟩, hmix⟩)⟩

section Selected
variable (hne : 0 < profiles.size)
  (hexact : Profile.ExactlyRanked (contested profiles (sel.eligible owner secure profiles)))
  (hselect : sel.select? owner secure profiles = some play)
include hne hexact hselect

/-- No play has a larger sum than the one that is selected for its sum. -/
theorem sum_le_select? (hsocial : sel.criterion = .social) :
    ∀ x ∈ sel.plays profiles (sel.eligible owner secure profiles),
      Scalar.sum x.2 ≤ Scalar.sum play.2 := by
  refine fun x hx => OrderDual.toDual_le_toDual.mp
    (key_select?_le (fun p => OrderDual.toDual (Scalar.sum p)) hne (fun x hx y hy => ?_) hselect
      x hx)
  rw [hsocial]
  exact hexact.socialBetter_iff (contested_of_mem_plays hy) (contested_of_mem_plays hx)

theorem fairKey_select?_le_plays (hmixes : sel.mixes) :
    ∀ x ∈ sel.plays profiles (sel.eligible owner secure profiles),
      play.2.fairKey ≤ x.2.fairKey := by
  have hfair : sel.criterion = .fair := by
    simp only [mixes, Bool.and_eq_true, beq_iff_eq] at hmixes
    exact hmixes.2
  refine fairKey_select?_le hne hfair (hexact.mono ?_) hselect
  rintro _ ⟨x, hx, rfl⟩
  exact contested_of_mem_plays hx

theorem fairKey_select?_le_finalists (hmixes : sel.mixes)
    (hij : (i, j) ∈ pairs (sel.eligible owner secure profiles)) :
    ∀ p ∈ Profile.finalists (profiles.getD i []) (profiles.getD j []),
      play.2.fairKey ≤ p.fairKey := by
  have hplays := fairKey_select?_le_plays hne hexact hselect hmixes
  obtain ⟨hi, hj⟩ := mem_of_mem_pairs hij
  intro p hp
  obtain rfl | rfl | ⟨w, hw⟩ := Profile.mem_finalists.mp hp
  · exact hplays _ (mem_plays.mpr (.inl ⟨i, hi, rfl⟩))
  · exact hplays _ (mem_plays.mpr (.inl ⟨j, hj, rfl⟩))
  · exact hplays (.mixed i j w, p) (mem_plays.mpr (.inr ⟨hmixes, i, j, hij, (w, p), hw, rfl⟩))

variable (hreal : ∀ p ∈ profiles, p.length = n ∧ ∀ x ∈ p, ∃ y : ℝ, x = y)
  (hi : i ∈ sel.eligible owner secure profiles) (hj : j ∈ sel.eligible owner secure profiles)
  {w : ℝ} (hw : 0 ≤ w) (hw' : w ≤ 1)
include hreal hi hj hw hw'

omit hne hexact hselect hj hw hw' in
theorem exists_ofReals_getD : ∃ a, profiles.getD i [] = Profile.ofReals a ∧ a.length = n := by
  have hlt := lt_of_mem_eligible hi
  rw [Array.getD_eq_getD_getElem?, Array.getElem?_eq_getElem hlt, Option.getD_some]
  obtain ⟨hlen, hentries⟩ := hreal _ (Array.getElem_mem hlt)
  obtain ⟨a, ha⟩ := Profile.exists_ofReals hentries
  exact ⟨a, ha, by rw [← hlen, ha, Profile.ofReals, List.length_map]⟩

/-- Where coins are tossed, no coin between two eligible choices is fairer than what is selected. -/
theorem fairKey_select?_le_mix (hmixes : sel.mixes) : play.2.fairKey ≤
    (Profile.mix (w : EReal) (profiles.getD i []) (profiles.getD j [])).fairKey := by
  have hpair : ∀ {i j : Nat} {w : ℝ}, i ∈ sel.eligible owner secure profiles →
      j ∈ sel.eligible owner secure profiles →
      (i, j) ∈ pairs (sel.eligible owner secure profiles) → 0 ≤ w → w ≤ 1 → play.2.fairKey ≤
        (Profile.mix (w : EReal) (profiles.getD i []) (profiles.getD j [])).fairKey := by
    intro i j w hi hj hij hw hw'
    have hfinal := fairKey_select?_le_finalists hne hexact hselect hmixes hij
    have hranked : Profile.ExactlyRanked
        (Profile.contenders (profiles.getD i []) (profiles.getD j [])) :=
      hexact.mono fun p hp => ⟨i, hi, j, hj, hp⟩
    obtain ⟨a, ha, hlena⟩ := exists_ofReals_getD hreal hi
    obtain ⟨b, hb, hlenb⟩ := exists_ofReals_getD hreal hj
    rw [ha, hb] at hranked hfinal ⊢
    obtain ⟨p, hp, -, hle⟩ := Profile.exists_fairest (hlena.trans hlenb.symm) hranked
    exact (hfinal p hp).trans (hle w hw hw')
  obtain ⟨a, ha, hlena⟩ := exists_ofReals_getD hreal hi
  obtain ⟨b, hb, hlenb⟩ := exists_ofReals_getD hreal hj
  by_cases hij : i = j
  · subst hij
    have hself := fairKey_select?_le_plays hne hexact hselect hmixes _
      (mem_plays.mpr (.inl ⟨i, hi, rfl⟩))
    rwa [ha, Profile.mix_ofReals, blended_self, ← ha]
  · rcases mem_pairs_of_ne hi hj hij with h | h
    · exact hpair hi hj h hw hw'
    · have hother := hpair hj hi h (sub_nonneg.mpr hw') (sub_le_self 1 hw)
      rw [ha, hb, Profile.mix_ofReals] at hother ⊢
      rwa [blended_symm (hlena.trans hlenb.symm)] at hother

/-- No coin between two eligible choices has a larger sum than what is selected for the sum. -/
theorem sum_mix_le_select? (hsocial : sel.criterion = .social) :
    Scalar.sum (Profile.mix (w : EReal) (profiles.getD i []) (profiles.getD j [])) ≤
      Scalar.sum play.2 := by
  have hplays := sum_le_select? hne hexact hselect hsocial
  have hfirst := hplays _ (mem_plays.mpr (.inl ⟨i, hi, rfl⟩))
  have hsecond := hplays _ (mem_plays.mpr (.inl ⟨j, hj, rfl⟩))
  obtain ⟨a, ha, hlena⟩ := exists_ofReals_getD hreal hi
  obtain ⟨b, hb, hlenb⟩ := exists_ofReals_getD hreal hj
  have hlen := hlena.trans hlenb.symm
  rw [ha, Profile.sum_ofReals] at hfirst
  rw [hb, Profile.sum_ofReals] at hsecond
  rw [ha, hb, Profile.mix_ofReals, Profile.sum_ofReals, sum_blended hlen]
  rcases le_total a.sum b.sum with hab | hba
  · refine (EReal.coe_le_coe_iff.mpr ?_).trans hsecond
    rw [along_eq]
    nlinarith
  · refine (EReal.coe_le_coe_iff.mpr ?_).trans hfirst
    rw [along_eq]
    nlinarith

end Selected

/-- With exact ties, the fairest of two real profiles and of the mixture that is found between them
is as fair as every mixture of the two. So a fair selection loses nothing by trying only mixtures in
which a gap closes, and a social one nothing by trying none. -/
theorem closing_mixtures_suffice :
    (∀ a b : Profile EReal, a.length = b.length → (∀ x ∈ a, ∃ y : ℝ, x = y) →
      (∀ x ∈ b, ∃ y : ℝ, x = y) → Profile.ExactlyRanked (Profile.contenders a b) →
      ∃ p ∈ Profile.finalists a b, (∀ q ∈ Profile.finalists a b, p.fairKey ≤ q.fairKey) ∧
        ∀ w : ℝ, 0 ≤ w → w ≤ 1 → p.fairKey ≤ (Profile.mix (w : EReal) a b).fairKey) ∧
    ∀ (sel : Selector EReal) (owner : Option Nat) (secure : EReal)
      (profiles : Array (Profile EReal)) (n : Nat), 0 < profiles.size →
      (∀ p ∈ profiles, p.length = n ∧ ∀ x ∈ p, ∃ y : ℝ, x = y) →
      Profile.ExactlyRanked (contested profiles (sel.eligible owner secure profiles)) →
      ∃ play, sel.select? owner secure profiles = some play ∧
        ∀ i ∈ sel.eligible owner secure profiles, ∀ j ∈ sel.eligible owner secure profiles,
        ∀ w : ℝ, 0 ≤ w → w ≤ 1 →
          let mixture := Profile.mix (w : EReal) (profiles.getD i []) (profiles.getD j [])
          (sel.kind = .correlated → sel.criterion = .fair → play.2.fairKey ≤ mixture.fairKey) ∧
          (sel.criterion = .social → Scalar.sum mixture ≤ Scalar.sum play.2) := by
  refine ⟨fun a b hlen ha hb hexact => ?_, fun sel owner secure profiles n hne hreal hexact => ?_⟩
  · obtain ⟨a, rfl⟩ := Profile.exists_ofReals ha
    obtain ⟨b, rfl⟩ := Profile.exists_ofReals hb
    exact Profile.exists_fairest (by simpa [Profile.ofReals] using hlen) hexact
  · obtain ⟨play, hselect, -⟩ := select?_mem sel owner secure hne
    refine ⟨play, hselect, fun i hi j hj w hw hw' => ⟨fun hkind hfair => ?_, fun hsocial => ?_⟩⟩
    · exact fairKey_select?_le_mix hne hexact hselect hreal hi hj hw hw'
        (by rw [mixes, hkind, hfair]; rfl)
    · exact sum_mix_le_select? hne hexact hselect hreal hi hj hw hw' hsocial

private theorem quarters_real {m : List Nat} : ∀ x ∈ quarters m, ∃ y : ℝ, x = y := by
  intro x hx
  obtain ⟨k, -, rfl⟩ := List.mem_map.mp hx
  exact ⟨_, rfl⟩

theorem opposed_coin_fairest :
    (∃ p ∈ [quarters [4, 0, 0], quarters [0, 4, 0], quarters [2, 2, 0]],
      ∀ w : ℝ, 0 ≤ w → w ≤ 1 → p.fairKey ≤
        (Profile.mix (w : EReal) (quarters [4, 0, 0]) (quarters [0, 4, 0])).fairKey) ∧
    ∃ play, fairly.select? none 0 opposed = some play ∧
      ∀ i ∈ fairly.eligible none 0 opposed, ∀ j ∈ fairly.eligible none 0 opposed,
        play.2.fairKey ≤ (Profile.mix ((1 / 2 : ℝ) : EReal) (opposed.getD i [])
          (opposed.getD j [])).fairKey := by
  have hcompared : ∀ {i j : Nat}, i < opposed.size → j < opposed.size →
      Profile.contenders (opposed.getD i []) (opposed.getD j []) ⊆ {p | Compared opposed p} := by
    rintro i j hi hj p (rfl | rfl | ⟨w, ⟨x, hx, hw⟩, rfl⟩)
    exacts [.pure hi, .pure hj, .mixed hi hj hx hw]
  have hexact : Profile.ExactlyRanked {p | Compared opposed p} := fun p hp q hq =>
    ⟨opposed_exact.spread p q hp hq, opposed_exact.sum p q hp hq⟩
  obtain ⟨p, hp, -, hle⟩ := closing_mixtures_suffice.1 (quarters [4, 0, 0]) (quarters [0, 4, 0]) rfl
    quarters_real quarters_real (hexact.mono (hcompared (i := 0) (j := 1) (by decide) (by decide)))
  obtain ⟨play, hselect, hplay⟩ := closing_mixtures_suffice.2 fairly none 0 opposed 3 (by decide)
    (fun p hp => by
      simp only [opposed, List.mem_toArray, List.mem_cons, List.not_mem_nil, or_false] at hp
      rcases hp with rfl | rfl <;> exact ⟨rfl, quarters_real⟩)
    (hexact.mono fun p ⟨i, hi, j, hj, hp⟩ =>
      hcompared (lt_of_mem_eligible hi) (lt_of_mem_eligible hj) hp)
  refine ⟨⟨p, ?_, hle⟩, play, hselect, fun i hi j hj =>
    (hplay i hi j hj (1 / 2) (by norm_num) (by norm_num)).1 rfl rfl⟩
  simpa [Profile.finalists, opposed_fairest] using hp

end Selector

end StochasticGames.Analysis
