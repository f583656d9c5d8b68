import StochasticGames.Proofs.Equilibria
import StochasticGames.Proofs.ExploredGames
import StochasticGames.Proofs.PositiveDoubles
import StochasticGames.Proofs.Refusals

/-! Solving a game that has passed its checks: every question is answered, and everything that the
passes of equilibrium iteration look up is there. -/

namespace StochasticGames.Transition.Distribution
open StochasticGames.Numeric StochasticGames.Arena Doubles

/-! ## Distributions -/

/-- What the operations on distributions make. -/
inductive Built {α : Type} [Scalar α] : Distribution α → Prop where
  | empty : Built {}
  | point (j : Nat) : Built (point j)
  | add {d d' j p} (hd : Built d) (h : d.add j p = .ok d') : Built d'
  | set {d d' j p} (hd : Built d) (h : d.set j p = .ok d') : Built d'
  | permuted {d d' permut} (hd : Built d) (h : d.permuted permut = .ok d') : Built d'

theorem Built.ofPairs {α : Type} [Scalar α] {pairs : List (Nat × α)} {d : Distribution α}
    (h : ofPairs pairs = .ok d) : Built d :=
  foldlM_invariant (P := fun _ d => Built d) h .empty fun _ _ _ _ _ _ hd hadd => hd.add hadd

private theorem mem_insert_entries {β : Type} {m : Ascending β} {k : Nat} {b : β} {e : Nat × β}
    (h : e ∈ (m.insert k b).entries) : e.2 = b ∨ e ∈ m.entries := by
  obtain ⟨j, c⟩ := e
  rw [Ascending.mem_entries_iff, Ascending.get?_insert] at h
  split_ifs at h
  · exact .inl (Option.some.inj h).symm
  · exact .inr ((Ascending.mem_entries_iff m).mpr h)

private theorem mem_ofList_entries {β : Type} {es : List (Nat × β)} {e : Nat × β}
    (h : e ∈ (Ascending.ofList es).entries) : ∃ e' ∈ es, e'.2 = e.2 := by
  have hfold : ∀ m : Ascending β, e ∈ (es.foldl (fun m e => m.insert e.1 e.2) m).entries →
      (∃ e' ∈ es, e'.2 = e.2) ∨ e ∈ m.entries := by
    clear h
    induction es with
    | nil => exact fun m h => .inr h
    | cons a es ih =>
      intro m h
      obtain ⟨e', he', hsame⟩ | h := ih _ h
      · exact .inl ⟨e', List.mem_cons_of_mem _ he', hsame⟩
      · exact (mem_insert_entries h).imp_left fun hb => ⟨a, List.mem_cons_self, hb.symm⟩
  exact (hfold .empty h).resolve_right List.not_mem_nil

/-- All entries are positive, though sums of them may be infinite. -/
theorem Built.positive {d : Distribution Float} (h : d.Built) :
    ∀ e ∈ d.entries, Positive e.2.toModel.unpack := by
  induction h with
  | empty => exact fun e he => absurd he List.not_mem_nil
  | point j =>
    intro e he
    obtain ⟨rfl⟩ := List.mem_singleton.mp he
    exact positiveFinite_one.positive
  | @add d d' j p hd h ih =>
    obtain ⟨hfinite, hless, hd'⟩ := add_eq_ok_iff.mp h
    split_ifs at hd' with hsame
    · exact hd' ▸ ih
    · have hp := positiveFinite_of_admissible hfinite hless (Bool.eq_false_iff.mpr hsame)
      rintro ⟨k, q⟩ he
      rw [hd', entries, Ascending.mem_entries_iff, Ascending.get?_alter] at he
      split_ifs at he
      · obtain rfl := Option.some.inj he
        cases hold : d.map.get? j with
        | none =>
          have hfresh : Positive (0 + p).toModel.unpack := by
            rw [zero_add_of_positiveFinite hp]
            exact hp.positive
          exact hfresh
        | some old =>
          exact positive_add (ih (j, old) ((Ascending.mem_entries_iff _).mpr hold)) hp.positive
      · exact ih (k, q) ((Ascending.mem_entries_iff _).mpr he)
  | @set d d' j p hd h ih =>
    obtain ⟨hfinite, hless, hd'⟩ := set_eq_ok_iff.mp h
    split_ifs at hd' with hsame <;> subst hd' <;> intro e he
    · exact ih e (List.mem_of_mem_filter he)
    · obtain hp | he := mem_insert_entries he
      · have hp' := positiveFinite_of_admissible hfinite hless (Bool.eq_false_iff.mpr hsame)
        exact hp ▸ hp'.positive
      · exact ih e he
  | @permuted d d' permut hd h ih =>
    unfold Distribution.permuted at h
    generalize hmoves : (d.map.entries.mapM _ : Except (ProbabilityError Float) _) = moves at h
    cases moves with
    | error e => cases h
    | ok moved =>
      obtain rfl := Except.ok.inj h
      intro e he
      obtain ⟨e', he', hsame⟩ := mem_ofList_entries he
      obtain ⟨⟨j, p⟩, hj, hmove⟩ := (mem_of_mapM hmoves e').mp he'
      dsimp only at hmove
      split at hmove
      · obtain rfl := Except.ok.inj hmove
        exact hsame ▸ ih (j, p) hj
      · cases hmove

/-- The entries of a distribution that sums to one are finite, too. -/
theorem Built.positiveFinite {d : Distribution Float} (h : d.Built)
    (hnormal : d.checkNormalized = .ok ()) : ∀ e ∈ d.entries, PositiveFinite e.2 := by
  intro e he
  have hpos := h.positive e he
  unfold PositiveFinite
  by_contra hno
  have hinf : e.2.toModel.unpack = .infinity .positive := by
    generalize e.2.toModel.unpack = u at hpos hno
    cases hpos with
    | infinity => rfl
    | finite m e h => exact absurd ⟨m, e, h, rfl⟩ hno
  have hsum : d.sum.toModel.unpack = .infinity .positive := by
    refine sum_eq_infinity (fun p hp => ?_) (List.mem_map_of_mem he) hinf
    obtain ⟨e', he', rfl⟩ := List.mem_map.mp hp
    exact .positive (h.positive e' he')
  unfold checkNormalized at hnormal
  dsimp only at hnormal
  split_ifs at hnormal with hempty hclose
  exact hclose (not_close_infinity hsum)

end StochasticGames.Transition.Distribution

namespace StochasticGames.Arena.Row
open StochasticGames.Numeric Doubles

/-! ## One choice -/

section Leaving
variable {α : Type} [Scalar α] {r : Row α} {s : Nat} {v : Nat → α} {a : α}

/-- What one successor adds to what is collected, or leaves of the way out. -/
private def leave (s : Nat) (v : Nat → α) (q : α × α) (e : Nat × α) : α × α :=
  if e.1 = s then (q.1, q.2 - e.2) else (q.1 + e.2 * v e.1, q.2)

private theorem leaving_eq_foldl (r : Row α) (s : Nat) (v : Nat → α) (a : α) :
    r.leaving s v a = r.successors.entries.foldl (leave s v) (a, 1) :=
  rfl

/-- What is collected on the way out has a property that each summand keeps. -/
theorem leaving_fst_of_add {P : α → Prop} (ha : P a)
    (hadd : ∀ e ∈ r.successors.entries, ∀ b, P b → P (b + e.2 * v e.1)) :
    P (r.leaving s v a).1 := by
  rw [leaving_eq_foldl]
  generalize r.successors.entries = l, (1 : α) = out at hadd
  induction l generalizing a out with
  | nil => exact ha
  | cons e l ih =>
    obtain ⟨he, hl⟩ := List.forall_mem_cons.mp hadd
    rw [List.foldl_cons]
    by_cases hs : e.1 = s
    · rw [leave, if_pos hs]
      exact ih ha _ hl
    · rw [leave, if_neg hs]
      exact ih (he a ha) _ hl

private theorem leave_snd_of_ne {l : List (Nat × α)} (hl : ∀ e ∈ l, e.1 ≠ s) (q : α × α) :
    (l.foldl (leave s v) q).2 = q.2 := by
  induction l generalizing q with
  | nil => rfl
  | cons e l ih =>
    obtain ⟨he, hl⟩ := List.forall_mem_cons.mp hl
    rw [List.foldl_cons, ih hl, leave, if_neg he]

/-- At most one successor is the state itself. -/
theorem leaving_snd (r : Row α) (s : Nat) (v : Nat → α) (a : α) : (r.leaving s v a).2 = 1 ∨
    ∃ e ∈ r.successors.entries, (r.leaving s v a).2 = 1 - e.2 := by
  rw [leaving_eq_foldl]
  have hsorted : r.successors.entries.Pairwise fun e e' => e.1 < e'.1 := r.successors.map.sorted
  generalize r.successors.entries = l, (1 : α) = out at hsorted
  induction l generalizing a out with
  | nil => exact .inl rfl
  | cons e l ih =>
    obtain ⟨hhead, htail⟩ := List.pairwise_cons.mp hsorted
    rw [List.foldl_cons]
    by_cases he : e.1 = s
    · refine .inr ⟨e, List.mem_cons_self, ?_⟩
      rw [leave_snd_of_ne (fun e' he' => (he ▸ hhead e' he').ne'), leave, if_pos he]
    · rw [leave, if_neg he]
      refine (ih _ out htail).imp_right ?_
      rintro ⟨e', he', hout⟩
      exact ⟨e', List.mem_cons_of_mem e he', hout⟩

end Leaving

/-- With self-loops divided out a choice is worth an amount, as no zero meets an infinity. -/
theorem amount_normalised {r : Row Float} {v : Nat → Float}
    (hr : ∀ e ∈ r.successors.entries, PositiveFinite e.2) (hv : ∀ j, Amount (v j)) (s : Nat) :
    Amount (r.normalised .probability s v) := by
  have hacc : Amount (r.leaving s v 0).1 :=
    leaving_fst_of_add amount_zero fun e he b hb => hb.add ((hr e he).mul (hv e.1))
  have hout : Scalar.less 0 (r.leaving s v 0).2 = true → PositiveFinite (r.leaving s v 0).2 := by
    obtain hout | ⟨e, he, hout⟩ := leaving_snd r s v 0
    · exact fun _ => hout ▸ positiveFinite_one
    · rw [hout]
      exact (hr e he).rest
  show Amount (if Scalar.less 0 (r.leaving s v 0).2 then
    (r.leaving s v 0).1 / (r.leaving s v 0).2 else 0)
  split_ifs with hleaves
  · exact hacc.div (hout hleaves)
  · exact amount_zero

end StochasticGames.Arena.Row

namespace StochasticGames.Analysis
open StochasticGames.Numeric StochasticGames.Arena StochasticGames.Transition Doubles

namespace EquilibriumProblem

/-! ## Passes -/

section Visiting
variable {α : Type} [Scalar α]

/-- What the coalition of the owner of state `s` can secure there. -/
def secureAt (e : EquilibriumProblem α) (s : Nat) : α :=
  match e.owners.getD s none with
  | some k => lookup (e.secure.getD k #[]) s
  | none => 0

/-- The choices among which state `s` finds its play under the given payoffs. -/
def candidates (e : EquilibriumProblem α) (payoffs : Array (Array α)) (s : Nat) : List Nat :=
  e.selector.candidates (e.owners.getD s none) (e.secureAt s) (e.profiles payoffs s)

/-- What is read when a state is visited. -/
def source (method : IterMethod) (before now : EquilibriumState α) : EquilibriumState α :=
  match method with
  | .jacobi => before
  | .gaussSeidel => now

/-- Some pass visits state `s`, reads the first vectors and writes to the second ones. -/
inductive Visits (e : EquilibriumProblem α) (method : IterMethod) :
    EquilibriumState α → EquilibriumState α → Nat → Prop
  | visit {n before done s later now} (hbefore : e.after? method n = some before)
      (hrows : e.rows.members = done ++ s :: later)
      (hnow : done.foldlM (e.visit? method before) before = some now) :
      Visits e method (source method before now) now s

/-- Everything that a visit looks up is there: the state, its owner and its play; the values of all
successors in the vectors that are read, and entries for the play in those that are written; the
payoff and the secure value of the coalition of the owner; and a first candidate. -/
structure InRange (e : EquilibriumProblem α) (read now : EquilibriumState α) (s : Nat) : Prop where
  state : s < e.mdp.numStates ∧ s < e.owners.size ∧ s < now.choices.size
  vectors : read.payoffs.size = e.targets.length ∧
    ∀ v ∈ read.payoffs, ∀ r ∈ e.mdp.choices s, ∀ j ∈ r.successors.support, j < v.size
  profiles : ∀ p ∈ e.profiles read.payoffs s, p.length = e.targets.length
  play : ∃ choice p, e.play? read.payoffs s = some (choice, p) ∧ p.length = now.payoffs.size
  written : ∀ v ∈ now.payoffs, s < v.size
  coalition : ∀ k, e.owners[s]? = some (some k) → k < e.targets.length ∧
    (e.selector.kind = .correlated → ∃ v, e.secure[k]? = some v ∧ s < v.size)
  candidates : e.candidates read.payoffs s ≠ [] ∧
    ∀ i ∈ e.candidates read.payoffs s, i < (e.mdp.choices s).size

end Visiting

/-- What the question about a checked game is known to be. -/
structure Sound (e : EquilibriumProblem Float) : Prop where
  rows_over : e.rows.Over e.mdp.numStates
  has_choice : ∀ s ∈ e.rows, 0 < (e.mdp.choices s).size
  positive : ∀ s, ∀ r ∈ e.mdp.choices s, ∀ t ∈ r.successors.entries, PositiveFinite t.2
  closed : Closed e.mdp
  owners : e.owners.size = e.mdp.numStates
  coalition : ∀ (s k : Nat), e.owners[s]? = some (some k) → k < e.targets.length
  secure : e.selector.kind = .correlated →
    e.secure.size = e.targets.length ∧ ∀ v ∈ e.secure, v.size = e.mdp.numStates

/-- A payoff of each coalition. -/
structure Granted (e : EquilibriumProblem Float) (p : Profile Float) : Prop where
  length : p.length = e.targets.length
  amount : ∀ x ∈ p, Amount x

/-- A payoff of each coalition in each state, and room for what the states play. -/
structure Filled (e : EquilibriumProblem Float) (st : EquilibriumState Float) : Prop where
  count : st.payoffs.size = e.targets.length
  length : ∀ v ∈ st.payoffs, v.size = e.mdp.numStates
  amount : ∀ v ∈ st.payoffs, ∀ x ∈ v, Amount x
  choices : st.choices.size = e.mdp.numStates

section Float
variable {e : EquilibriumProblem Float} {st before now : EquilibriumState Float} {s : Nat}
  {p q : Profile Float}

private theorem mem_zipWith {β γ δ : Type} {f : β → γ → δ} {l : List β} {l' : List γ} {x : δ}
    (h : x ∈ List.zipWith f l l') : ∃ a ∈ l, ∃ b ∈ l', x = f a b := by
  rw [← List.map_uncurry_zip_eq_zipWith] at h
  obtain ⟨⟨a, b⟩, hab, rfl⟩ := List.mem_map.mp h
  exact ⟨a, (List.of_mem_zip hab).1, b, (List.of_mem_zip hab).2, rfl⟩

private theorem amount_lookup {v : Array Float} (h : ∀ x ∈ v, Amount x) (s : Nat) :
    Amount (lookup v s) := by
  rw [lookup_eq]
  cases hs : v[s]? with
  | none => exact amount_zero
  | some x => exact h x (Array.mem_of_getElem? hs)

theorem granted_profile (h : e.Sound) (hst : e.Filled st) {r : Row Float}
    (hr : r ∈ e.mdp.choices s) : e.Granted (e.profile st.payoffs s r) := by
  refine ⟨?_, fun x hx => ?_⟩
  · rw [profile, List.length_zipWith, Array.length_toList, hst.count, min_self]
  · obtain ⟨v, hv, t, -, rfl⟩ := mem_zipWith hx
    split_ifs
    · exact positiveFinite_one.amount
    · exact Row.amount_normalised (h.positive s r hr)
        (amount_lookup (hst.amount v (Array.mem_toList_iff.mp hv))) s

theorem granted_profiles (h : e.Sound) (hst : e.Filled st) :
    ∀ p ∈ e.profiles st.payoffs s, e.Granted p := by
  intro p hp
  obtain ⟨r, hr, rfl⟩ := Array.mem_map.mp hp
  exact granted_profile h hst hr

private theorem granted_getD (h : e.Sound) (hst : e.Filled st) {i : Nat}
    (hi : i < (e.profiles st.payoffs s).size) :
    e.Granted ((e.profiles st.payoffs s).getD i []) := by
  have hget : (e.profiles st.payoffs s).getD i [] = (e.profiles st.payoffs s)[i] := by simp [hi]
  rw [hget]
  exact granted_profiles h hst _ (Array.getElem_mem hi)

private theorem amount_getD (hp : e.Granted p) (k : Nat) : Amount (p.getD k 0) := by
  rw [List.getD_eq_getElem?_getD]
  cases hk : p[k]? with
  | none => exact amount_zero
  | some x => exact hp.amount x (List.mem_of_getElem? hk)

theorem Granted.mix (hp : e.Granted p) (hq : e.Granted q) {w : Float}
    (hpos : Scalar.less 0 w = true) (hlt : Scalar.less w 1 = true) :
    e.Granted (Profile.mix w p q) := by
  obtain ⟨hw, hrest⟩ := positiveFinite_of_between hpos hlt
  refine ⟨?_, fun x hx => ?_⟩
  · rw [Profile.mix, List.length_zipWith, hp.length, hq.length, min_self]
  · obtain ⟨y, hy, z, hz, rfl⟩ := mem_zipWith hx
    exact (hw.mul (hp.amount y hy)).add (hrest.mul (hq.amount z hz))

/-- The largest payoff of the owner is that of some choice, and ties with itself. -/
theorem candidates_ne_nil (h : e.Sound) (hst : e.Filled st) (hs : s ∈ e.rows) :
    e.candidates st.payoffs s ≠ [] := by
  have hsize : 0 < (e.profiles st.payoffs s).size := size_profiles e _ s ▸ h.has_choice s hs
  refine Selector.candidates_ne_nil_of_top hsize fun k _ => ?_
  let own (i : Nat) : Float := ((e.profiles st.payoffs s).getD i []).getD k 0
  have hown : ∀ x ∈ (List.range (e.profiles st.payoffs s).size).map own, Amount x := by
    intro x hx
    obtain ⟨i, hi, rfl⟩ := List.mem_map.mp hx
    exact amount_getD (granted_getD h hst (List.mem_range.mp hi)) k
  have hne : (List.range (e.profiles st.payoffs s).size).map own ≠ [] :=
    List.map_eq_nil_iff.not.mpr (List.range_eq_nil.not.mpr hsize.ne')
  have habove : ∀ x ∈ (List.range (e.profiles st.payoffs s).size).map own,
      Scalar.larger Scalar.negInfinity x = x := by
    intro x hx
    unfold Scalar.larger
    split
    · rfl
    · exact if_pos (hown x hx).ordered.2
  have hmem := Profile.largest_mem_of_above hne habove
  obtain ⟨i, hi, htop⟩ := List.mem_map.mp hmem
  have hclose := close_of_same (hown _ hmem).ordered.1
  refine ⟨i, List.mem_range.mp hi, ?_⟩
  show Scalar.close (own i) _ = true
  rw [htop]
  exact hclose

/-- A play is always found, and grants a payoff to each coalition. -/
theorem play?_granted (h : e.Sound) (hst : e.Filled st) (hs : s ∈ e.rows) :
    ∃ choice p, e.play? st.payoffs s = some (choice, p) ∧ e.Granted p := by
  obtain ⟨⟨choice, p⟩, hselect, hplay⟩ :=
    Selector.select?_mem_plays (candidates_ne_nil h hst hs)
  refine ⟨choice, p, hselect, ?_⟩
  obtain ⟨i, hi, he⟩ | ⟨-, i, j, hij, q, hq, he⟩ := Selector.mem_plays.mp hplay
  · obtain ⟨-, rfl⟩ := Prod.mk.inj he
    exact granted_getD h hst (Selector.lt_of_mem_eligible hi)
  · obtain ⟨-, rfl⟩ := Prod.mk.inj he
    obtain ⟨⟨c, d, -, hcrossing⟩, hmix⟩ := Profile.fairestMixture?_spec q hq
    obtain ⟨hpos, hlt⟩ := Profile.crossing?_between hcrossing
    obtain ⟨hi, hj⟩ := Selector.mem_of_mem_pairs hij
    rw [hmix]
    exact (granted_getD h hst (Selector.lt_of_mem_eligible hi)).mix
      (granted_getD h hst (Selector.lt_of_mem_eligible hj)) hpos hlt

theorem filled_start (e : EquilibriumProblem Float) : e.Filled e.start := by
  refine ⟨by simp [start], fun v hv => ?_, fun v hv x hx => ?_, by simp [start]⟩
  · simp only [start, List.mem_toArray, List.mem_map] at hv
    obtain ⟨t, -, rfl⟩ := hv
    simp [indicator]
  · simp only [start, List.mem_toArray, List.mem_map] at hv
    obtain ⟨t, -, rfl⟩ := hv
    obtain ⟨u, -, rfl⟩ := Array.mem_map.mp hx
    split_ifs
    · exact positiveFinite_one.amount
    · exact amount_zero

theorem Filled.record (hnow : e.Filled now) (hp : e.Granted p) (s : Nat)
    (choice : EquilibriumChoice Float) : e.Filled (record now s choice p) := by
  have hvectors : ∀ v ∈ (EquilibriumProblem.record now s choice p).payoffs,
      ∃ v₀ ∈ now.payoffs, ∃ x ∈ p, v = v₀.setIfInBounds s x := by
    intro v hv
    obtain ⟨v₀, hv₀, x, hx, rfl⟩ := mem_zipWith (List.mem_toArray.mp hv)
    exact ⟨v₀, Array.mem_toList_iff.mp hv₀, x, hx, rfl⟩
  refine ⟨?_, fun v hv => ?_, fun v hv y hy => ?_, ?_⟩
  · simp [EquilibriumProblem.record, hnow.count, hp.length]
  · obtain ⟨v₀, hv₀, x, -, rfl⟩ := hvectors v hv
    rw [Array.size_setIfInBounds]
    exact hnow.length v₀ hv₀
  · obtain ⟨v₀, hv₀, x, hx, rfl⟩ := hvectors v hv
    obtain hy | rfl := Array.mem_or_eq_of_mem_setIfInBounds hy
    · exact hnow.amount v₀ hv₀ y hy
    · exact hp.amount y hx
  · simp [EquilibriumProblem.record, hnow.choices]

/-- A visit is always completed. -/
theorem visit?_filled (h : e.Sound) (method : IterMethod) (hbefore : e.Filled before)
    (hnow : e.Filled now) (hs : s ∈ e.rows) :
    ∃ next, e.visit? method before now s = some next ∧ e.Filled next := by
  have hsource : e.Filled (source method before now) := by
    cases method with
    | jacobi => exact hbefore
    | gaussSeidel => exact hnow
  obtain ⟨choice, p, hplay, hp⟩ := play?_granted h hsource hs
  refine ⟨_, ?_, hnow.record hp s choice⟩
  unfold visit?
  cases method <;> exact congrArg (· >>= _) hplay

theorem foldlM_filled (h : e.Sound) (method : IterMethod) (hbefore : e.Filled before)
    {l : List Nat} (hl : ∀ s ∈ l, s ∈ e.rows) (hnow : e.Filled now) :
    ∃ last, l.foldlM (e.visit? method before) now = some last ∧ e.Filled last := by
  induction l generalizing now with
  | nil => exact ⟨now, rfl, hnow⟩
  | cons s l ih =>
    obtain ⟨hs, hl⟩ := List.forall_mem_cons.mp hl
    obtain ⟨next, hnext, hfilled⟩ := visit?_filled h method hbefore hnow hs
    rw [List.foldlM_cons, hnext]
    exact ih hl hfilled

/-- Every pass is completed. -/
theorem after?_filled (h : e.Sound) (method : IterMethod) (n : Nat) :
    ∃ st, e.after? method n = some st ∧ e.Filled st := by
  induction n with
  | zero => exact ⟨e.start, rfl, filled_start e⟩
  | succ n ih =>
    obtain ⟨st, hst, hfilled⟩ := ih
    obtain ⟨next, hnext, hfilled'⟩ :=
      foldlM_filled h method hfilled (fun s => h.rows_over.mem_members.mp) hfilled
    exact ⟨next, by rw [after_succ, hst, Option.bind_some]; exact hnext, hfilled'⟩

/-- What a visit in any pass looks up is there. -/
theorem Sound.inRange (h : e.Sound) {method : IterMethod} {read : EquilibriumState Float}
    (hvisit : e.Visits method read now s) : e.InRange read now s := by
  obtain @⟨n, before, done, s, later, now, hbefore, hrows, hnow⟩ := hvisit
  have hmem : ∀ t ∈ done ++ s :: later, t ∈ e.rows := fun t ht =>
    h.rows_over.mem_members.mp (hrows ▸ ht)
  have hs : s ∈ e.rows := hmem s (by simp)
  have hlt := h.rows_over.lt hs
  obtain ⟨before', hbefore', hfilled⟩ := after?_filled h method n
  obtain rfl := Option.some.inj (hbefore.symm.trans hbefore')
  obtain ⟨now', hnow', hfilled'⟩ := foldlM_filled h method hfilled
    (fun t ht => hmem t (List.mem_append_left _ ht)) hfilled
  obtain rfl := Option.some.inj (hnow.symm.trans hnow')
  have hsource : e.Filled (source method before now) := by
    cases method with
    | jacobi => exact hfilled
    | gaussSeidel => exact hfilled'
  obtain ⟨choice, p, hplay, hp⟩ := play?_granted h hsource hs
  exact {
    state := ⟨hlt, h.owners ▸ hlt, hfilled'.choices ▸ hlt⟩
    vectors := ⟨hsource.count, fun v hv r hr j hj => hsource.length v hv ▸ h.closed s r hr j hj⟩
    profiles := fun p hp => (granted_profiles h hsource p hp).length
    play := ⟨choice, p, hplay, hp.length.trans hfilled'.count.symm⟩
    written := fun v hv => hfilled'.length v hv ▸ hlt
    coalition := fun k hk => ⟨h.coalition s k hk, fun hkind => by
      obtain ⟨hsize, hvectors⟩ := h.secure hkind
      have hlt' : k < e.secure.size := hsize ▸ h.coalition s k hk
      exact ⟨_, Array.getElem?_eq_getElem hlt', hvectors _ (Array.getElem_mem hlt') ▸ hlt⟩⟩
    candidates := ⟨candidates_ne_nil h hsource hs, fun i hi =>
      size_profiles e _ s ▸ Selector.lt_of_mem_candidates hi⟩ }

end Float
end EquilibriumProblem

/-! ## Questions -/

/-- A game that has passed its checks. Its distributions are those that their operations make. -/
structure Checked (g : MultiplayerGame Float) : Prop where
  successors : g.mdp.checkSuccessors = .ok ()
  normalized : ∀ s, ∀ r ∈ g.mdp.choices s, r.successors.checkNormalized = .ok ()
  built : ∀ s, ∀ r ∈ g.mdp.choices s, r.successors.Built
  owned : g.owners.size = g.mdp.numStates

section Questions
variable {g : MultiplayerGame Float} {coalitions : List (List Nat)} {targets : List StateSet}

theorem answered_checkDisjoint {α : Type} (coalitions : List (List Nat)) :
    Answered (checkDisjoint coalitions : Except (SolverError α) Unit) := by
  unfold checkDisjoint
  refine .forM fun _ _ => .forM fun _ _ => ?_
  dsimp only
  split
  · exact answered_error trivial
  · exact .of_ok rfl

/-- A question is answered, and the answer has a property. -/
private def Yields {α β : Type} (P : β → Prop) (x : Except (SolverError α) β) : Prop :=
  Answered x ∧ ∀ b, x = .ok b → P b

private theorem yields_ok {α β : Type} {P : β → Prop} {b : β} (h : P b) :
    Yields P (.ok b : Except (SolverError α) β) :=
  ⟨.of_ok rfl, fun _ hb => Except.ok.inj hb ▸ h⟩

private theorem yields_bind {α β γ : Type} {P : γ → Prop} {x : Except (SolverError α) β}
    {f : β → Except (SolverError α) γ} (hx : Answered x)
    (hf : ∀ b, x = .ok b → Yields P (f b)) : Yields P (x >>= f) := by
  refine ⟨hx.bind fun b hb => (hf b hb).1, fun c hc => ?_⟩
  cases x with
  | error e => cases hc
  | ok b => exact (hf b rfl).2 c hc

private theorem yields_mapM {α β γ : Type} {P : γ → Prop} {f : β → Except (SolverError α) γ}
    {l : List β} (h : ∀ b ∈ l, Yields P (f b)) :
    Yields (fun cs => cs.length = l.length ∧ ∀ c ∈ cs, P c) (l.mapM f) := by
  induction l with
  | nil => exact yields_ok ⟨rfl, by simp⟩
  | cons b l ih =>
    obtain ⟨hb, hl⟩ := List.forall_mem_cons.mp h
    rw [List.mapM_cons]
    refine yields_bind hb.1 fun c hc => yields_bind (ih hl).1 fun cs hcs => yields_ok ?_
    obtain ⟨hlength, hall⟩ := (ih hl).2 cs hcs
    exact ⟨congrArg (· + 1) hlength, List.forall_mem_cons.mpr ⟨hb.2 c hc, hall⟩⟩

theorem Checked.asked (h : Checked g) {t : StateSet} (ht : t.Over t.bound) (members : List Nat) :
    Asked g.mdp none t (securing g members) := by
  refine ⟨ht, by simp, fun s hs => ?_⟩
  simp [securing, PerState.covers, PerState.get?, h.owned, hs]

/-- Each coalition can secure something in each state, unless the question is refused. -/
private theorem yields_secureValues (h : Checked g) (hsets : ∀ t ∈ targets, t.Over t.bound)
    (hcount : coalitions.length = targets.length) (config : SolverConfig Float) :
    Yields (fun secure => secure.size = targets.length ∧ ∀ v ∈ secure, v.size = g.mdp.numStates)
      (secureValues g coalitions targets config) := by
  have hclosed := closed_of_checkSuccessors h.successors
  have hvalues := yields_mapM (P := fun v => Array.size v = g.mdp.numStates)
    (l := coalitions.zip targets) (f := fun pair => do
      let r ← reachProb g.mdp none pair.2 (securing g pair.1)
        { config with extractStrategy := false }
      return r.values) fun pair hpair => by
    have hasked := h.asked (hsets pair.2 (List.of_mem_zip hpair).2) pair.1
    have hsafe := reachProb_safe hclosed hasked { config with extractStrategy := false }
    exact yields_bind hsafe.answered fun r hr => yields_ok (hsafe.in_range r hr).2.read.size
  refine yields_bind hvalues.1 fun values hv => yields_ok ?_
  obtain ⟨hlength, hall⟩ := hvalues.2 values hv
  rw [List.length_zip, hcount, min_self] at hlength
  exact ⟨hlength, fun v hv => hall v (List.mem_toArray.mp hv)⟩

/-- The problem that a question about a checked game poses is sound, unless it is refused. -/
private theorem yields_problem (h : Checked g) (hsets : ∀ t ∈ targets, t.Over t.bound)
    (kind : EquilibriumType) (criterion : EquilibriumCriterion) (config : SolverConfig Float) :
    Yields EquilibriumProblem.Sound
      (equilibriumProblem g coalitions targets kind criterion config) := by
  have hclosed := closed_of_checkSuccessors h.successors
  unfold equilibriumProblem
  refine yields_bind (answered_validate config) fun _ _ => ?_
  dsimp only
  split
  · exact ⟨answered_error trivial, nofun⟩
  rename_i hcount
  have hlength : coalitions.length = targets.length := by
    simp only [Bool.or_eq_true, bne_iff_ne, not_or, not_not] at hcount
    exact hcount.2
  refine yields_bind (.forM fun t _ => answered_checkSize _ t) fun _ hsizes => ?_
  refine yields_bind (answered_checkDisjoint coalitions) fun _ _ => ?_
  refine yields_bind (answered_checkChoices _ _) fun _ hchoices => ?_
  have hover : ∀ t ∈ targets, t.Over g.mdp.numStates := fun t ht =>
    over_of_checkSize (hsets t ht) (of_forM_ok hsizes t ht)
  have hrows := (StateSet.Over.foldl_inter hover (StateSet.over_full g.mdp.numStates)).1.compl
  have hsound : ∀ secure : Array (Array Float), (kind = .correlated →
      secure.size = targets.length ∧ ∀ v ∈ secure, v.size = g.mdp.numStates) →
      EquilibriumProblem.Sound {
        mdp := g.mdp
        owners := g.owners.map fun o => coalitions.findIdx? (·.contains o)
        targets := targets
        rows := (targets.foldl StateSet.inter (StateSet.full g.mdp.numStates)).compl
        secure := secure
        selector := ⟨kind, criterion, config.epsilon⟩ } := fun secure hsecure => {
    rows_over := hrows
    has_choice := has_choice_of_checkChoices hrows hchoices
    positive := fun s r hr => (h.built s r hr).positiveFinite (h.normalized s r hr)
    closed := hclosed
    owners := by rw [Array.size_map, h.owned]
    coalition := fun s k hk => by
      rw [Array.getElem?_map, Option.map_eq_some_iff] at hk
      obtain ⟨o, -, ho⟩ := hk
      exact hlength ▸ (List.findIdx?_eq_some_iff_findIdx_eq.mp ho).1
    secure := hsecure }
  have hready : (targets.foldl StateSet.inter (StateSet.full g.mdp.numStates)).compl.members.all
      (g.mdp.normalisedReady (PerState.everywhere ()) g.mdp.numStates) = true := by
    refine List.all_eq_true.mpr fun s hs => ?_
    exact normalisedReady_of_within (hrows.lt (hrows.mem_members.mp hs)) rfl (hclosed s)
  rw [hready]
  cases kind with
  | nash => exact yields_ok (hsound #[] nofun)
  | correlated =>
    have hsecure := yields_secureValues h hsets hlength config
    refine yields_bind hsecure.1 fun secure hs => yields_ok ?_
    exact hsound secure fun _ => hsecure.2 secure hs

end Questions

/-- A run that always finds something to play ends with payoffs. -/
theorem EquilibriumProblem.Sound.run_state {e : EquilibriumProblem Float} (h : e.Sound)
    (config : SolverConfig Float) : ∃ st, (e.run config e.start).state = some st := by
  obtain ⟨k, -, hstate⟩ :=
    drive_eq_iterate config (e.turn config) config.maxIters 0 (some e.start)
  obtain ⟨st, hst, -⟩ := after?_filled h config.method k
  exact ⟨st, by rw [run_eq_drive, hstate, iterate_turn, hst]⟩

section Turnoff

/-- From the first state to the target, which nobody leaves, or into a trap. -/
def turnoff : MultiplayerGame Float where
  mdp := { rows := #[#[⟨.point 1, none, 2⟩, ⟨.point 2, none, 0⟩], #[], #[⟨.point 2, none, 0⟩]] }
  owners := #[1, 2, 1]

def turnoffTarget : StateSet :=
  .ofList 3 [1]

def turnoffDir : PerState MinMax :=
  .listed #[.max, .min, .max]

theorem turnoff_choices {s : Nat} {r : Row Float} (hr : r ∈ turnoff.mdp.choices s) :
    ∃ j, r.successors = .point j ∧ j < 3 := by
  match s with
  | 0 =>
    obtain rfl | rfl : r = ⟨.point 1, none, 2⟩ ∨ r = ⟨.point 2, none, 0⟩ := by
      simpa [turnoff, Mdp.choices] using hr
    · exact ⟨1, rfl, by decide⟩
    · exact ⟨2, rfl, by decide⟩
  | 1 => exact absurd hr (Array.not_mem_empty r)
  | 2 =>
    obtain rfl : r = ⟨.point 2, none, 0⟩ := by simpa [turnoff, Mdp.choices] using hr
    exact ⟨2, rfl, by decide⟩
  | s + 3 => exact absurd hr (Array.not_mem_empty r)

theorem turnoff_checked : Checked turnoff where
  successors := checkSuccessors_eq_ok fun s _ r hr j hj => by
    obtain ⟨k, hk, hlt⟩ := turnoff_choices hr
    rw [hk] at hj
    exact List.mem_singleton.mp hj ▸ hlt
  normalized := fun s r hr => by
    obtain ⟨k, hk, -⟩ := turnoff_choices hr
    exact hk ▸ checkNormalized_point k
  built := fun s r hr => by
    obtain ⟨k, hk, -⟩ := turnoff_choices hr
    exact hk ▸ .point k
  owned := rfl

theorem turnoff_asked : Asked turnoff.mdp none turnoffTarget turnoffDir :=
  ⟨⟨rfl, rfl, by decide⟩, by simp, by decide⟩

/-- A self-loop at the target is not noticed. -/
theorem turnoff_agree : AgreeOn turnoff.mdp turnoff.mdp.fixDeadlocks
    (openStates turnoff.mdp.numStates none turnoffTarget) := by
  refine ⟨rfl, fun s hs => ?_⟩
  have hover : turnoffTarget.Over 3 := turnoff_asked.target_over
  obtain ⟨hlt, -, hn⟩ := (mem_openStates hover (by simp)).mp hs
  obtain rfl | rfl | rfl : s = 0 ∨ s = 1 ∨ s = 2 := by
    change s < 3 at hlt
    omega
  · rfl
  · exact absurd (by decide) hn
  · rfl

/-- One coalition wants to reach the target, the other one does not mind the trap. -/
def turnoffTargets : List StateSet :=
  [turnoffTarget, .ofList 3 [1, 2]]

theorem turnoffTargets_over : ∀ t ∈ turnoffTargets, t.Over t.bound := by
  refine List.forall_mem_cons.mpr ⟨turnoff_asked.target_over, ?_⟩
  exact List.forall_mem_singleton.mpr ⟨rfl, rfl, by decide⟩

/-- The question for a social Nash equilibrium. -/
def turnoffProblem : EquilibriumProblem Float where
  mdp := turnoff.mdp
  owners := turnoff.owners.map fun o => [[1], [2]].findIdx? (·.contains o)
  targets := turnoffTargets
  rows := unwonStates 3 turnoffTargets
  secure := #[]
  selector := ⟨.nash, .social, SolverConfig.standard.epsilon⟩

theorem turnoffProblem_rows : turnoffProblem.rows.members = [0, 2] := by
  decide

private theorem turnoff_problem : equilibriumProblem turnoff [[1], [2]] turnoffTargets .nash .social
    .standard = .ok turnoffProblem := by
  have hvalid : SolverConfig.standard.validate = .ok () := by
    unfold SolverConfig.validate
    rw [if_neg (by decide +kernel)]
    rfl
  have hchoices : checkChoices turnoff.mdp turnoffProblem.rows = .ok () := by
    rw [checkChoices, turnoffProblem_rows]
    rfl
  have hready : turnoffProblem.rows.members.all
      (turnoff.mdp.normalisedReady (PerState.everywhere ()) 3) = true := by
    rw [turnoffProblem_rows]
    decide +kernel
  unfold equilibriumProblem
  dsimp only [turnoffProblem, unwonStates] at hchoices hready
  simp only [hvalid, hchoices, hready, show turnoff.mdp.numStates = 3 from rfl]
  rfl

end Turnoff

end StochasticGames.Analysis
