import StochasticGames.Proofs.CheckedGames
import StochasticGames.Proofs.Deviations

/-! What every pass of equilibrium iteration leaves behind, also where some of the play gets lost:
payoffs between zero and one, and plays that their states admit. -/
namespace StochasticGames.Arena.Row

section Real
variable {r : Row ℝ} {s : Nat} {v : Nat → ℝ}

/-- What is found on the way out is worth no more than the way out. -/
theorem Substochastic.normalised_mem_Icc (h : r.Substochastic id) (s : Nat)
    (hv : ∀ j, v j ∈ Set.Icc (0 : ℝ) 1) : r.normalised .probability s v ∈ Set.Icc (0 : ℝ) 1 := by
  have hpos : ∀ e ∈ r.successors.entries, 0 ≤ id e.2 := fun e he => (h.pos e he).le
  rw [normalised_eq]
  split_ifs with hl
  · have hout := sub_pos.mpr hl
    have hzero : r.expect id (fun _ => 0) = 0 := by simp [expect]
    have hone : r.expect id (fun _ => 1) ≤ 1 := by simpa [expect] using h.total
    refine ⟨div_nonneg ?_ hout.le, (div_le_one hout).mpr ?_⟩
    · rw [← hzero]
      refine expect_mono hpos fun j _ => ?_
      split_ifs
      · exact le_rfl
      · exact (hv j).1
    · calc
        r.away id s v ≤ r.expect id fun j => 1 - if j = s then 1 else 0 :=
          expect_mono hpos fun j _ => by
            split_ifs
            · rw [sub_self]
            · rw [sub_zero]
              exact (hv j).2
        _ = r.expect id (fun _ => 1) - r.loop id s := expect_sub ..
        _ ≤ 1 - r.loop id s := sub_le_sub_right hone _
  · exact ⟨le_rfl, zero_le_one⟩

end Real

section Extended
variable {r : Row EReal} {s : Nat} {v : Nat → EReal}

theorem Substochastic.real (h : r.Substochastic EReal.toReal) : r.real.Substochastic id := by
  refine ⟨fun e he => ?_, ?_⟩
  · obtain ⟨e, hmem, rfl⟩ := List.mem_map.mp he
    exact h.pos e hmem
  · refine le_of_eq_of_le ?_ h.total
    simp only [Row.real, Transition.Distribution.entries, List.map_map]
    rfl

theorem Substochastic.normalised_coe_mem_Icc (h : r.Substochastic EReal.toReal) (s : Nat)
    (hv : ∀ j, v j ∈ Set.Icc (0 : EReal) 1) :
    r.normalised .probability s v ∈ Set.Icc (0 : EReal) 1 := by
  have hcoe : ∀ j, v j = ((v j).toReal : ℝ) := fun j =>
    (EReal.coe_toReal ((hv j).2.trans_lt (EReal.coe_lt_top 1)).ne
      (EReal.bot_lt_zero.trans_le (hv j).1).ne').symm
  rw [h.normalised_probability_eq fun j _ => hcoe j]
  have hreal := h.real.normalised_mem_Icc s (v := fun j => (v j).toReal) fun j => by
    have hj := hv j
    rw [hcoe j] at hj
    exact ⟨EReal.coe_nonneg.mp hj.1, EReal.coe_le_coe_iff.mp hj.2⟩
  exact ⟨EReal.coe_nonneg.mpr hreal.1, EReal.coe_le_coe_iff.mpr hreal.2⟩

end Extended
end StochasticGames.Arena.Row

namespace StochasticGames.Analysis
open StochasticGames.Numeric StochasticGames.Arena

namespace Selector
variable {α : Type} [Scalar α] {sel : Selector α} {owner : Option Nat} {secure : α}
  {profiles : Array (Profile α)} {i j : Nat} {l : List Nat}

theorem eligible_sublist :
    (sel.eligible owner secure profiles).Sublist (sel.candidates owner secure profiles) := by
  unfold eligible
  dsimp only
  split_ifs
  · exact .refl _
  · exact List.filter_sublist

theorem lt_of_mem_pairs (hl : l.Pairwise (· < ·)) (h : (i, j) ∈ pairs l) : i < j := by
  induction l with
  | nil => exact absurd h List.not_mem_nil
  | cons k l ih =>
    obtain ⟨hfirst, hl⟩ := List.pairwise_cons.mp hl
    rcases List.mem_append.mp h with h | h
    · obtain ⟨j', hj, he⟩ := List.mem_map.mp h
      obtain ⟨rfl, rfl⟩ := Prod.mk.inj he
      exact hfirst _ hj
    · exact ih hl h

/-- Coins decide between an earlier and a later choice. -/
theorem lt_of_mem_pairs_eligible (h : (i, j) ∈ pairs (sel.eligible owner secure profiles)) :
    i < j :=
  lt_of_mem_pairs (List.Pairwise.sublist (eligible_sublist.trans candidates_sublist)
    List.pairwise_lt_range) h

end Selector

/-- The choices that are played at times. -/
def EquilibriumChoice.indices {α : Type} : EquilibriumChoice α → List Nat
  | .pure i => [i]
  | .mixed i j _ => [i, j]

namespace EquilibriumProblem

/-- In pass `n + 1` the payoffs of `read` are there to be read when state `s` is visited. -/
def ReadsIn {α : Type} [Scalar α] (e : EquilibriumProblem α) (method : IterMethod) (n : Nat)
    (read : EquilibriumState α) (s : Nat) : Prop :=
  ∃ before done later now, e.after? method n = some before ∧ e.rows.members = done ++ s :: later ∧
    done.foldlM (e.visit? method before) before = some now ∧ read = source method before now

/-- A play out of the choices that its state admits under the payoffs that are read. Coins are for
fair correlated equilibria. -/
def Admits (e : EquilibriumProblem EReal) (payoffs : Array (Array EReal)) (s : Nat) :
    EquilibriumChoice EReal → Prop
  | .pure i => i ∈ e.candidates payoffs s
  | .mixed i j w => (e.selector.kind = .correlated ∧ e.selector.criterion = .fair) ∧ i < j ∧
      (0 < w ∧ w < 1) ∧ i ∈ e.candidates payoffs s ∧ j ∈ e.candidates payoffs s

/-- What every pass is to leave behind, here pass `n + 1`. -/
structure WellFormed (e : EquilibriumProblem EReal) (method : IterMethod) (n : Nat)
    (st : EquilibriumState EReal) : Prop where
  count : st.payoffs.size = e.targets.length
  payoffs : ∀ v ∈ st.payoffs, v.size = e.mdp.numStates ∧ ∀ x ∈ v, x ∈ Set.Icc (0 : EReal) 1
  won : ∀ k t, e.targets[k]? = some t → ∀ s ∈ t, payoff st.payoffs k s = 1
  room : st.choices.size = e.mdp.numStates
  unplayed : ∀ s < e.mdp.numStates, st.choices[s]? = some none ↔ ∀ t ∈ e.targets, s ∈ t
  played : ∀ s choice, st.choices[s]? = some (some choice) →
    (∃ read, e.ReadsIn method n read s ∧ e.Admits read.payoffs s choice) ∧
      ∀ i ∈ choice.indices, i < (e.mdp.choices s).size

/-- A regular problem, except that some of the play may get lost. -/
structure Lossy (e : EquilibriumProblem EReal) : Prop where
  targets_over : ∀ t ∈ e.targets, t.Over e.mdp.numStates
  rows_over : e.rows.Over e.mdp.numStates
  mem_rows : ∀ s, s ∈ e.rows ↔ s < e.mdp.numStates ∧ ∃ t ∈ e.targets, s ∉ t
  has_choice : ∀ s ∈ e.rows, 0 < (e.mdp.choices s).size
  substochastic : ∀ s ∈ e.rows, ∀ r ∈ e.mdp.choices s, r.Substochastic EReal.toReal

/-- A profile that fits, with nobody above one. -/
structure FitsBelow (e : EquilibriumProblem EReal) (s : Nat) (p : Profile EReal) : Prop
    extends e.Fits s p where
  le_one : ∀ x ∈ p, x ≤ 1

/-- Vectors of payoffs, none of them above one. -/
structure Bounded (e : EquilibriumProblem EReal) (st : EquilibriumState EReal) : Prop
    extends e.Proper st where
  le_one : ∀ k s, payoff st.payoffs k s ≤ 1

section Bounds
variable {e : EquilibriumProblem EReal} {st before now : EquilibriumState EReal} {s i j : Nat}
  {r : Row EReal} {p q : Profile EReal} {w : EReal}

theorem Bounded.mem_Icc (h : e.Bounded st) (k s : Nat) :
    payoff st.payoffs k s ∈ Set.Icc (0 : EReal) 1 := by
  obtain ⟨y, hy, he⟩ := h.real k s
  exact ⟨he ▸ EReal.coe_nonneg.mpr hy, h.le_one k s⟩

theorem fitsBelow_profile (h : e.Bounded st) (hr : r.Substochastic EReal.toReal) :
    e.FitsBelow s (e.profile st.payoffs s r) := by
  have hentry : ∀ k t, e.targets[k]? = some t →
      (e.profile st.payoffs s r).getD k 0 ∈ Set.Icc (0 : EReal) 1 := by
    intro k t hk
    rw [profile_getD h.toProper hk]
    split_ifs
    · exact ⟨zero_le_one, le_rfl⟩
    · exact hr.normalised_coe_mem_Icc s (h.mem_Icc k)
  have hlength := length_profile (r := r) (s := s) h.toProper
  refine ⟨⟨hlength, (forall_mem_iff_getD hlength _).mpr fun k t hk => ?_, fun k t hk hs => ?_⟩,
    (forall_mem_iff_getD hlength _).mpr fun k t hk => (hentry k t hk).2⟩
  · obtain ⟨hpos, hle⟩ := hentry k t hk
    have hcoe := EReal.coe_toReal (hle.trans_lt (EReal.coe_lt_top 1)).ne
      (EReal.bot_lt_zero.trans_le hpos).ne'
    exact ⟨_, EReal.toReal_nonneg hpos, hcoe.symm⟩
  · rw [profile_getD h.toProper hk, if_pos hs]

theorem FitsBelow.mix (hp : e.FitsBelow s p) (hq : e.FitsBelow s q) (hw : 0 < w) (hw' : w < 1) :
    e.FitsBelow s (Profile.mix w p q) := by
  have hfits := hp.toFits.mix hq.toFits hw hw'
  refine ⟨hfits, (forall_mem_iff_getD hfits.length _).mpr fun k t hk => ?_⟩
  rw [mix_getD hp.toFits hq.toFits hk]
  have hx := (forall_mem_iff_getD hp.length _).mp hp.real k t hk
  have hy := (forall_mem_iff_getD hq.length _).mp hq.real k t hk
  have hx' := (forall_mem_iff_getD hp.length _).mp hp.le_one k t hk
  have hy' := (forall_mem_iff_getD hq.length _).mp hq.le_one k t hk
  obtain ⟨hpos, hlt⟩ := toReal_odds hw hw'
  rw [mix_eq hw hw' hx hy]
  rw [← hx.coe_toReal] at hx'
  rw [← hy.coe_toReal] at hy'
  have hx' := EReal.coe_le_coe_iff.mp hx'
  have hy' := EReal.coe_le_coe_iff.mp hy'
  refine EReal.coe_le_coe_iff.mpr ?_
  calc
    _ ≤ w.toReal * 1 + (1 - w.toReal) * 1 := add_le_add (mul_le_mul_of_nonneg_left hx' hpos.le)
      (mul_le_mul_of_nonneg_left hy' (sub_pos.mpr hlt).le)
    _ = 1 := by ring

theorem Bounded.start (h : e.Lossy) : e.Bounded e.start := by
  refine ⟨proper_start_of_over h.targets_over, fun k s => ?_⟩
  rw [payoff_start_of_over h.targets_over]
  cases e.targets[k]? with
  | none => exact zero_le_one
  | some t =>
    rw [Option.elim_some]
    split_ifs
    · exact le_rfl
    · exact zero_le_one

theorem Bounded.record (h : e.Bounded st) (hp : e.FitsBelow s p) (hs : s < e.mdp.numStates)
    (choice : EquilibriumChoice EReal) : e.Bounded (record st s choice p) := by
  refine ⟨h.toProper.record hp.toFits hs choice, fun k u => ?_⟩
  rw [payoff_record h.toProper hp.toFits hs]
  split_ifs
  · rw [List.getD_eq_getElem?_getD]
    cases hx : p[k]? with
    | none => exact zero_le_one
    | some x => exact hp.le_one x (List.mem_of_getElem? hx)
  · exact h.le_one k u

/-- What is selected in a row is admitted there, and bounded again. -/
theorem play?_admits (h : e.Lossy) (hst : e.Bounded st) (hs : s ∈ e.rows) : ∃ choice p,
    e.play? st.payoffs s = some (choice, p) ∧ e.Admits st.payoffs s choice ∧ e.FitsBelow s p := by
  have hsize := size_profiles e st.payoffs s
  obtain ⟨⟨choice, p⟩, hselect, hplay⟩ := Selector.select?_mem e.selector (e.owners.getD s none)
    (e.secureAt s) (hsize ▸ h.has_choice s hs)
  have hcandidate : ∀ i ∈ e.selector.eligible (e.owners.getD s none) (e.secureAt s)
      (e.profiles st.payoffs s), i ∈ e.candidates st.payoffs s ∧
        e.FitsBelow s ((e.profiles st.payoffs s).getD i []) := by
    intro i hi
    have hlt := hsize ▸ Selector.lt_of_mem_eligible hi
    rw [profiles_getD hlt]
    exact ⟨Selector.mem_candidates_of_mem_eligible hi,
      fitsBelow_profile hst (h.substochastic s hs _ (Array.getElem_mem hlt))⟩
  refine ⟨choice, p, hselect, ?_⟩
  obtain ⟨i, hi, he⟩ | ⟨hmixes, i, j, hij, q, hq, he⟩ := Selector.mem_plays.mp hplay
  · obtain ⟨rfl, rfl⟩ := Prod.mk.inj he
    exact hcandidate i hi
  · obtain ⟨rfl, rfl⟩ := Prod.mk.inj he
    obtain ⟨⟨c, d, -, hcrossing⟩, hmix⟩ := Profile.fairestMixture?_spec q hq
    obtain ⟨hw, hw'⟩ := Profile.crossing?_spec hcrossing
    obtain ⟨hi, hj⟩ := Selector.mem_of_mem_pairs hij
    obtain ⟨hci, hpi⟩ := hcandidate i hi
    obtain ⟨hcj, hpj⟩ := hcandidate j hj
    rw [Selector.mixes, Bool.and_eq_true, beq_iff_eq, beq_iff_eq] at hmixes
    exact ⟨⟨hmixes, Selector.lt_of_mem_pairs_eligible hij, ⟨hw, hw'⟩, hci, hcj⟩,
      hmix ▸ hpi.mix hpj hw hw'⟩

/-- A visit records an admitted play in its state, and none elsewhere. -/
theorem visit_admits (h : e.Lossy) (hbefore : e.Bounded before) (hnow : e.Bounded now)
    (hs : s ∈ e.rows) (method : IterMethod) : ∃ next,
      e.visit? method before now s = some next ∧ e.Bounded next ∧
        (∃ choice, next.choices.getD s none = some choice ∧
          e.Admits (source method before now).payoffs s choice) ∧
        ∀ u, u ≠ s → next.choices.getD u none = now.choices.getD u none := by
  have hread : e.Bounded (source method before now) := by
    cases method with
    | jacobi => exact hbefore
    | gaussSeidel => exact hnow
  have hvisit : e.visit? method before now s =
      (e.play? (source method before now).payoffs s).bind fun play =>
        some (record now s play.1 play.2) := by
    cases method <;> rfl
  obtain ⟨choice, p, hselect, hadmits, hp⟩ := play?_admits h hread hs
  have hlt := h.rows_over.lt hs
  rw [hselect] at hvisit
  refine ⟨_, hvisit, hnow.record hp hlt choice, ⟨choice, ?_, hadmits⟩, fun u hu => ?_⟩
  · simp [record, hnow.choices, hlt, Array.getD_eq_getD_getElem?]
  · simp [record, Array.getElem?_setIfInBounds_ne (Ne.symm hu), Array.getD_eq_getD_getElem?]

/-- Visits to different rows: each of them records a play that was admitted when it came. -/
theorem foldlM_visit_admits (h : e.Lossy) (hbefore : e.Bounded before) (method : IterMethod)
    {l : List Nat} (hl : ∀ s ∈ l, s ∈ e.rows) (hnodup : l.Nodup) : ∃ last,
      l.foldlM (e.visit? method before) before = some last ∧ e.Bounded last ∧
        (∀ u, u ∉ l → last.choices.getD u none = before.choices.getD u none) ∧
        ∀ s ∈ l, ∃ done later now choice, l = done ++ s :: later ∧
          done.foldlM (e.visit? method before) before = some now ∧
          last.choices.getD s none = some choice ∧
          e.Admits (source method before now).payoffs s choice := by
  induction l using List.reverseRecOn with
  | nil => exact ⟨before, rfl, hbefore, fun _ _ => rfl, by simp⟩
  | append_singleton l t ih =>
    obtain ⟨hnodup, hnew⟩ : l.Nodup ∧ t ∉ l := by
      rw [List.nodup_append] at hnodup
      exact ⟨hnodup.1, fun hin => hnodup.2.2 t hin t (List.mem_singleton_self t) rfl⟩
    obtain ⟨now, hnow, hbounded, hframe, hplays⟩ :=
      ih (fun s hs => hl s (List.mem_append_left _ hs)) hnodup
    obtain ⟨next, hnext, hbounded', ⟨choice, hchoice, hadmits⟩, hframe'⟩ :=
      visit_admits h hbefore hbounded (hl t (by simp)) method
    refine ⟨next, ?_, hbounded', fun u hu => ?_, fun s hs => ?_⟩
    · rw [List.foldlM_append, hnow]
      simp [hnext]
    · rw [List.mem_append, List.mem_singleton, not_or] at hu
      rw [hframe' u hu.2, hframe u hu.1]
    · rcases List.mem_append.mp hs with hs | hs
      · obtain ⟨done, later, now', choice, he, hnow', hchoice, hadmits⟩ := hplays s hs
        refine ⟨done, later ++ [t], now', choice, by simp [he], hnow', ?_, hadmits⟩
        rw [hframe' s (ne_of_mem_of_not_mem hs hnew), hchoice]
      · obtain rfl := List.mem_singleton.mp hs
        exact ⟨l, [], now, choice, rfl, hnow, hchoice, hadmits⟩

/-- A pass records in every row a play that was admitted when it came. -/
theorem pass_admits (h : e.Lossy) {method : IterMethod} {n : Nat}
    (hn : e.after? method n = some before) (hbefore : e.Bounded before) : ∃ st,
      e.after? method (n + 1) = some st ∧ e.Bounded st ∧
        (∀ u, u ∉ e.rows → st.choices.getD u none = before.choices.getD u none) ∧
        ∀ s ∈ e.rows, ∃ read choice, e.ReadsIn method n read s ∧
          st.choices.getD s none = some choice ∧ e.Admits read.payoffs s choice := by
  have hnodup : e.rows.members.Nodup := e.rows.sorted_members.imp fun hlt => hlt.ne
  obtain ⟨st, hpass, hbounded, hframe, hplays⟩ := foldlM_visit_admits h hbefore method
    (fun s => h.rows_over.mem_members.mp) hnodup
  refine ⟨st, by rw [after_succ, hn]; exact hpass, hbounded,
    fun u hu => hframe u (mt h.rows_over.mem_members.mp hu), fun s hs => ?_⟩
  obtain ⟨done, later, now, choice, he, hnow, hchoice, hadmits⟩ :=
    hplays s (h.rows_over.mem_members.mpr hs)
  exact ⟨_, choice, ⟨before, done, later, now, hn, he, hnow, rfl⟩, hchoice, hadmits⟩

theorem after_bounded (h : e.Lossy) (method : IterMethod) (n : Nat) : ∃ st,
    e.after? method n = some st ∧ e.Bounded st ∧
      ∀ u, u ∉ e.rows → st.choices.getD u none = none := by
  induction n with
  | zero =>
    refine ⟨e.start, rfl, .start h, fun u _ => ?_⟩
    rw [start, Array.getD_eq_getD_getElem?, Array.getElem?_replicate]
    split_ifs <;> rfl
  | succ n ih =>
    obtain ⟨before, hn, hbefore, hnone⟩ := ih
    obtain ⟨st, hst, hbounded, hframe, -⟩ := pass_admits h hn hbefore
    exact ⟨st, hst, hbounded, fun u hu => (hframe u hu).trans (hnone u hu)⟩

theorem Admits.lt {payoffs : Array (Array EReal)} {choice : EquilibriumChoice EReal}
    (h : e.Admits payoffs s choice) : ∀ i ∈ choice.indices, i < (e.mdp.choices s).size := by
  have hlt : ∀ i ∈ e.candidates payoffs s, i < (e.mdp.choices s).size := fun i hi =>
    size_profiles e payoffs s ▸ Selector.lt_of_mem_candidates hi
  intro i hi
  cases choice with
  | pure j =>
    obtain rfl := List.mem_singleton.mp hi
    exact hlt i h
  | mixed j k w =>
    obtain ⟨-, -, -, hj, hk⟩ := h
    rcases List.mem_pair.mp hi with rfl | rfl
    exacts [hlt i hj, hlt i hk]

/-- Each pass finds something to play in every row and leaves all of it well formed. -/
theorem Lossy.wellFormed (h : e.Lossy) (method : IterMethod) (n : Nat) : ∃ st,
    e.after? method (n + 1) = some st ∧ e.WellFormed method n st := by
  obtain ⟨before, hn, hbefore, hnone⟩ := after_bounded h method n
  obtain ⟨st, hst, hbounded, hframe, hplays⟩ := pass_admits h hn hbefore
  have hget : ∀ s < e.mdp.numStates, st.choices[s]? = some (st.choices.getD s none) := by
    intro s hs
    simp [hbounded.choices, hs]
  refine ⟨st, hst, hbounded.count, fun v hv => ⟨hbounded.length v hv, fun x hx => ?_⟩,
    hbounded.won, hbounded.choices, fun s hs => ?_, fun s choice hchoice => ?_⟩
  · obtain ⟨k, hk, rfl⟩ := Array.getElem_of_mem hv
    obtain ⟨s, hs, rfl⟩ := Array.getElem_of_mem hx
    have hmem := hbounded.mem_Icc k s
    simpa [payoff, lookup_eq, hk, hs] using hmem
  · rw [hget s hs]
    by_cases hrow : s ∈ e.rows
    · obtain ⟨-, t, ht, hout⟩ := (h.mem_rows s).mp hrow
      obtain ⟨read, choice, -, hchoice, -⟩ := hplays s hrow
      exact iff_of_false (by simp [hchoice]) fun hall => hout (hall t ht)
    · refine iff_of_true (by rw [hframe s hrow, hnone s hrow]) fun t ht => ?_
      by_contra hout
      exact hrow ((h.mem_rows s).mpr ⟨hs, t, ht, hout⟩)
  · obtain ⟨hs, -⟩ := Array.getElem?_eq_some_iff.mp hchoice
    rw [hget s (hbounded.choices ▸ hs), Option.some.injEq] at hchoice
    have hrow : s ∈ e.rows := by
      by_contra hrow
      rw [hframe s hrow, hnone s hrow] at hchoice
      cases hchoice
    obtain ⟨read, choice', hread, hchoice', hadmits⟩ := hplays s hrow
    obtain rfl := Option.some.inj (hchoice.symm.trans hchoice')
    exact ⟨⟨read, hread, hadmits⟩, hadmits.lt⟩

end Bounds
end EquilibriumProblem

section Questions
variable {g : MultiplayerGame EReal} {coalitions : List (List Nat)} {targets : List StateSet}
  {kind : EquilibriumType} {criterion : EquilibriumCriterion} {config : SolverConfig EReal}
  {e : EquilibriumProblem EReal}

/-- What is known of a question that is not refused. -/
theorem of_equilibriumProblem
    (he : equilibriumProblem g coalitions targets kind criterion config = .ok e) :
    config.validate = .ok () ∧ (∀ t ∈ targets, checkSize (α := EReal) g.mdp.numStates t = .ok ()) ∧
      checkChoices g.mdp (unwonStates g.mdp.numStates targets) = .ok () ∧ ∃ secure,
        e = gameProblem g coalitions targets ⟨kind, criterion, config.epsilon⟩ secure := by
  unfold equilibriumProblem at he
  obtain ⟨⟨⟩, hvalid, he⟩ := bind_eq_ok.mp he
  dsimp only at he
  split at he
  · cases he
  obtain ⟨⟨⟩, hsizes, he⟩ := bind_eq_ok.mp he
  obtain ⟨⟨⟩, -, he⟩ := bind_eq_ok.mp he
  obtain ⟨⟨⟩, hchoices, he⟩ := bind_eq_ok.mp he
  refine ⟨hvalid, of_forM_ok hsizes, hchoices, ?_⟩
  cases kind <;> obtain ⟨secure, -, he⟩ := bind_eq_ok.mp he <;> split at he
  · cases he
  · exact ⟨secure, (Except.ok.inj he).symm⟩
  · cases he
  · exact ⟨secure, (Except.ok.inj he).symm⟩

variable (hsets : ∀ t ∈ targets, t.Over t.bound)
  (hrows : ∀ s ∈ unwonStates g.mdp.numStates targets, ∀ r ∈ g.mdp.choices s,
    r.Substochastic EReal.toReal)
  (he : equilibriumProblem g coalitions targets kind criterion config = .ok e)
include hsets hrows he

theorem lossy_of_equilibriumProblem : e.Lossy := by
  obtain ⟨-, hsizes, hchoices, secure, rfl⟩ := of_equilibriumProblem he
  have hover : ∀ t ∈ targets, t.Over g.mdp.numStates := fun t ht =>
    over_of_checkSize (hsets t ht) (hsizes t ht)
  have hunwon := over_unwonStates hover
  exact ⟨hover, hunwon, mem_unwonStates hover, has_choice_of_checkChoices hunwon hchoices, hrows⟩

/-- However many passes are made, the payoffs stay between zero and one, a coalition keeps what it
has won, and there is a play wherever some coalition has yet to win: a choice that was admitted when
the pass came by, or, in a fair correlated equilibrium, a coin between two of them. No probabilities
need to sum to one for that. What a solve reports is what one of the passes left. -/
theorem passes_wellFormed :
    (e.mdp = g.mdp ∧ e.targets = targets ∧ e.selector = ⟨kind, criterion, config.epsilon⟩) ∧
      (∀ method n, ∃ st, e.after? method (n + 1) = some st ∧ e.WellFormed method n st) ∧
      ∃ r n, solveEquilibrium g coalitions targets kind criterion config = .ok r ∧
        r.iterations = n + 1 ∧ e.after? config.method (n + 1) = some ⟨r.payoffs, r.choices⟩ := by
  have hlossy := lossy_of_equilibriumProblem hsets hrows he
  obtain ⟨hvalid, -, -, secure, hgame⟩ := of_equilibriumProblem he
  refine ⟨by simp [hgame, gameProblem], fun method n => hlossy.wellFormed method n, ?_⟩
  obtain ⟨n, hiter, hstate⟩ := e.run_eq_after hvalid
  obtain ⟨st, hst, -⟩ := EquilibriumProblem.after_bounded hlossy config.method (n + 1)
  exact ⟨_, n, solveEquilibrium_eq he (hstate.trans hst), hiter, hst⟩

end Questions

section Leak

/-- Half of what flows to 1 gets lost. -/
noncomputable def drip : Row EReal :=
  ⟨⟨⟨[(1, half)], by simp⟩⟩, none, 0⟩

/-- In 0 there is the drip and a coin to toss. -/
noncomputable def leak : MultiplayerGame EReal where
  mdp := { rows := #[#[drip, flip], #[], #[fare 2 0]] }
  owners := #[1, 2, 1]

theorem drip_substochastic : drip.Substochastic EReal.toReal := by
  constructor
  · intro t ht
    obtain rfl := List.mem_singleton.mp ht
    simp [toReal_half]
  · simp only [drip, Transition.Distribution.entries, List.map_cons, List.map_nil, List.sum_cons,
      List.sum_nil, toReal_half]
    norm_num

private theorem leak_rows : (unwonStates 3 turnoffTargets).members = [0, 2] := by
  decide

private theorem leak_choices {s : Nat} (hs : s ∈ unwonStates 3 turnoffTargets) :
    0 < (leak.mdp.choices s).size ∧ ∀ r ∈ leak.mdp.choices s,
      r.Substochastic EReal.toReal ∧ ∀ j ∈ r.successors.support, j < 3 := by
  have hover : (unwonStates 3 turnoffTargets).Over 3 := ⟨rfl, rfl, by decide⟩
  have hmem := hover.mem_members.mpr hs
  rw [leak_rows] at hmem
  rcases List.mem_pair.mp hmem with rfl | rfl <;> refine ⟨Nat.succ_pos _, fun r hr => ?_⟩
  · rcases List.mem_pair.mp (Array.mem_toList_iff.mpr hr) with rfl | rfl
    · exact ⟨drip_substochastic, List.forall_mem_singleton.mpr (by decide)⟩
    · exact ⟨flip_stochastic.substochastic, (by decide : ∀ j ∈ [1, 2], j < 3)⟩
  · obtain rfl := List.mem_singleton.mp (Array.mem_toList_iff.mpr hr)
    exact ⟨(fare_stochastic 2 0).substochastic, fare_within (by decide) 0⟩

/-- The question for a social Nash equilibrium. -/
noncomputable def leakProblem : EquilibriumProblem EReal :=
  gameProblem leak [[1], [2]] turnoffTargets ⟨.nash, .social, unitConfig.epsilon⟩ #[]

private theorem leak_problem : equilibriumProblem leak [[1], [2]] turnoffTargets .nash .social
    unitConfig = .ok leakProblem :=
  equilibriumProblem_eq unitConfig_valid (List.cons_ne_nil _ _) rfl (by simp)
    (List.forall_mem_cons.mpr ⟨turnoff_asked.target_over,
      List.forall_mem_singleton.mpr ⟨rfl, rfl, by decide⟩⟩)
    (fun s hs => (leak_choices hs).1) (fun s hs r hr => ((leak_choices hs).2 r hr).2) nofun
    fun _ => rfl

theorem leak_wellFormed : (∀ t ∈ turnoffTargets, t.Over t.bound) ∧
    (∀ s ∈ unwonStates leak.mdp.numStates turnoffTargets, ∀ r ∈ leak.mdp.choices s,
      r.Substochastic EReal.toReal) ∧
    equilibriumProblem leak [[1], [2]] turnoffTargets .nash .social unitConfig = .ok leakProblem ∧
    ∀ n, ∃ st, leakProblem.after? .jacobi (n + 1) = some st ∧
      leakProblem.WellFormed .jacobi n st := by
  have hrows : ∀ s ∈ unwonStates leak.mdp.numStates turnoffTargets, ∀ r ∈ leak.mdp.choices s,
      r.Substochastic EReal.toReal := fun s hs r hr => ((leak_choices hs).2 r hr).1
  exact ⟨turnoffTargets_over, hrows, leak_problem,
    (passes_wellFormed turnoffTargets_over hrows leak_problem).2.1 .jacobi⟩

end Leak
end StochasticGames.Analysis
