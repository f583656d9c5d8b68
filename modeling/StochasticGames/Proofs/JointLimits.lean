import Mathlib.Topology.Instances.EReal.Lemmas
import StochasticGames.Proofs.JointPasses
import StochasticGames.Proofs.Rounds

/-! What passes over the payoffs of all coalitions have in common, whichever way they are made.
Where no play goes round, payoffs settle; where one choice is always selected, they converge. -/
namespace StochasticGames.Analysis
open StochasticGames.Numeric StochasticGames.Arena Filter Topology

/-- Some play leads from the state into `t`. -/
inductive CanReach {α : Type} (m : Mdp α) (t : StateSet) : Nat → Prop where
  | here {s : Nat} (hs : s ∈ t) : CanReach m t s
  | onward {s j : Nat} {r : Row α} (hr : r ∈ m.choices s) (hj : j ∈ r.successors.support)
      (h : CanReach m t j) : CanReach m t s

/-- Play that stays in a state without leaving it reaches no target outside. -/
theorem not_canReach_of_loop {α : Type} {m : Mdp α} {t : StateSet} {s : Nat} (hs : s ∉ t)
    (hloop : ∀ r ∈ m.choices s, ∀ j ∈ r.successors.support, j = s) : ¬CanReach m t s := by
  intro hreach
  induction hreach with
  | here hin => exact hs hin
  | onward hr hj _ ih =>
    obtain rfl := hloop _ hr _ hj
    exact ih hs hloop

namespace EquilibriumProblem
variable {e : EquilibriumProblem EReal} {st st' before next read : EquilibriumState EReal}
  {s : Nat} {method : IterMethod}

section Still

/-- What is selected in the state under the given payoffs has the payoffs that it has already. -/
def StillAt (e : EquilibriumProblem EReal) (payoffs : Array (Array EReal)) (s : Nat) : Prop :=
  ∃ choice p, e.play? payoffs s = some (choice, p) ∧ ∀ k, payoff payoffs k s = p.getD k 0

/-- Where payoffs do not change, states of both methods read the same. -/
theorem foldlM_visit_still (h : e.Regular) (hst : e.Proper st) {l : List Nat}
    (hl : ∀ s ∈ l, s ∈ e.rows ∧ e.StillAt st.payoffs s) {now : EquilibriumState EReal}
    (hnow : e.Proper now) (hsame : now.payoffs = st.payoffs) : ∃ last,
      last.payoffs = st.payoffs ∧ ∀ method, l.foldlM (e.visit? method st) now = some last := by
  induction l generalizing now with
  | nil => exact ⟨now, hsame, fun _ => rfl⟩
  | cons s l ih =>
    obtain ⟨⟨hs, choice, p, hselect, hpay⟩, hl⟩ := List.forall_mem_cons.mp hl
    have hvisit : ∀ method, e.visit? method st now s = some (record now s choice p) := by
      intro method
      cases method with
      | jacobi => simp only [visit?, hselect]; rfl
      | gaussSeidel => simp only [visit?, hsame, hselect]; rfl
    obtain ⟨choice', p', hselect', hplay⟩ := play?_spec h hs st.payoffs
    obtain ⟨rfl, rfl⟩ := Prod.mk.inj (Option.some.inj (hselect.symm.trans hselect'))
    have hp := fits_of_plays h hst hs hplay
    have hlt := h.rows_over.lt hs
    have hrecord := hnow.record hp hlt choice
    simp only [List.foldlM_cons, hvisit]
    refine ih hl hrecord (hrecord.payoffs_ext hst fun k u => ?_)
    rw [payoff_record hnow hp hlt]
    split_ifs with hu
    · rw [hu, hpay]
    · rw [hsame]

theorem exists_pass_of_still (h : e.Regular) (hst : e.Proper st)
    (hstill : ∀ s ∈ e.rows, e.StillAt st.payoffs s) :
    ∃ last, last.payoffs = st.payoffs ∧ ∀ method, e.pass? method st = some last :=
  foldlM_visit_still h hst (fun s hs => have hs := h.rows_over.mem_members.mp hs
    ⟨hs, hstill s hs⟩) hst rfl

theorem stillAt_of_pass (h : e.Regular) (hst : e.Proper st) (hpass : e.pass? method st = some next)
    (hstill : next.payoffs = st.payoffs) : ∀ s ∈ e.rows, e.StillAt st.payoffs s := by
  obtain ⟨next', hpass', -, hplayed⟩ := pass_spec h hst method
  obtain rfl := Option.some.inj (hpass.symm.trans hpass')
  intro s hs
  obtain ⟨choice, p, hselect, -, hpay⟩ := hplayed hstill s hs
  rw [hstill] at hselect hpay
  exact ⟨choice, p, hselect, hpay⟩

/-- A pass that changes no payoff is a pass of the other method, too. -/
theorem pass_of_still (h : e.Regular) (hst : e.Proper st) (hpass : e.pass? method st = some next)
    (hstill : next.payoffs = st.payoffs) (method' : IterMethod) :
    e.pass? method' st = some next := by
  obtain ⟨last, -, hlast⟩ := exists_pass_of_still h hst (stillAt_of_pass h hst hpass hstill)
  rw [hlast, ← hlast method, hpass]

theorem pass_of_after {st : Nat → EquilibriumState EReal}
    (hst : ∀ i, e.after? method i = some (st i)) (i : Nat) :
    e.pass? method (st i) = some (st (i + 1)) := by
  rw [← hst (i + 1), after_succ, hst i, Option.bind_some]

/-- After a pass that changes no payoff no pass does. -/
theorem after_still (h : e.Regular) {st : Nat → EquilibriumState EReal}
    (hst : ∀ i, e.after? method i = some (st i)) {i : Nat}
    (hstill : (st (i + 1)).payoffs = (st i).payoffs) (j : Nat) :
    (st (i + j)).payoffs = (st i).payoffs := by
  have hproper := fun i => proper_of_after h (hst i)
  have hall := stillAt_of_pass h (hproper i) (pass_of_after hst i) hstill
  induction j with
  | zero => rfl
  | succ j ih =>
    obtain ⟨last, hlast, hagain⟩ := exists_pass_of_still h (hproper (i + j)) (ih ▸ hall)
    rw [← add_assoc, ← Option.some.inj ((hagain method).symm.trans (pass_of_after hst (i + j))), hlast, ih]

end Still

section Grounded

/-- No play from the state comes back to an open state that it has left. -/
inductive Grounded (e : EquilibriumProblem EReal) : Nat → Prop where
  | intro {s : Nat} (h : ∀ r ∈ e.mdp.choices s, ∀ j ∈ r.successors.support, j ≠ s → j ∈ e.rows →
      e.Grounded j) : e.Grounded s

/-- What is played depends on the payoffs of other states that choices lead to. -/
theorem play?_congr (h : e.Proper st) (h' : e.Proper st')
    (hsame : ∀ r ∈ e.mdp.choices s, ∀ j ∈ r.successors.support, j ≠ s → SamePayoffs st st' j) :
    e.play? st.payoffs s = e.play? st'.payoffs s := by
  have hprofiles : e.profiles st.payoffs s = e.profiles st'.payoffs s := by
    refine Array.map_congr_left fun r hr => ?_
    refine List.ext_getElem ((length_profile h).trans (length_profile h').symm) fun k hk hk' => ?_
    have ht := List.getElem?_eq_getElem (length_profile h ▸ hk)
    rw [← List.getD_eq_getElem _ 0 hk, ← List.getD_eq_getElem _ 0 hk', profile_getD h ht,
      profile_getD h' ht, Row.normalised_congr fun j hj hne => hsame r hr j hj hne k]
  simp only [play?, hprofiles]

/-- From some pass on, both methods have the same payoffs in the state. -/
def SettlesAt (e : EquilibriumProblem EReal) (s : Nat) : Prop :=
  ∃ p : Nat → EReal, ∀ᶠ i in atTop, ∀ method st, e.after? method i = some st →
    ∀ k, payoff st.payoffs k s = p k

/-- The last of some passes reads payoffs that the one before it has left, or, of smaller states,
its own. -/
theorem after_reads (h : e.Regular) {i : Nat} (hnext : e.after? method (i + 1) = some next) :
    ∃ before, e.after? method i = some before ∧ e.Proper before ∧ e.Proper next ∧
      (∀ u, u ∉ e.rows → SameAt next before u) ∧
      ∀ s ∈ e.rows, ∃ read, e.Proper read ∧ e.Played read.payoffs next s ∧
        ∀ u, SamePayoffs read before u ∨ u < s ∧ SamePayoffs read next u := by
  obtain ⟨before, hbefore, hproper⟩ := after_spec h method i
  obtain ⟨next', hpass, hproper', hframe, hplayed⟩ := pass_reads h hproper method
  rw [after_succ, hbefore, Option.bind_some, hpass] at hnext
  obtain rfl := Option.some.inj hnext
  exact ⟨before, hbefore, hproper, hproper', hframe, hplayed⟩

theorem settlesAt_of_not_mem (h : e.Regular) (hs : s ∉ e.rows) : e.SettlesAt s := by
  refine ⟨fun k => payoff e.start.payoffs k s, .of_forall fun i method => ?_⟩
  induction i with
  | zero =>
    rintro st hst k
    rw [← Option.some.inj hst]
  | succ i ih =>
    intro next hnext k
    obtain ⟨before, hbefore, -, -, hframe, -⟩ := after_reads h hnext
    exact ((hframe s hs).2 k).trans (ih before hbefore k)

/-- Finitely many states that settle have settled after the same number of passes. -/
theorem exists_settled (h : e.Regular) {S : Set Nat} (hfinite : S.Finite)
    (hS : ∀ j ∈ S, e.SettlesAt j) : ∃ K ref, e.after? .jacobi K = some ref ∧ e.Proper ref ∧
      ∀ i ≥ K, ∀ method st, e.after? method i = some st → ∀ j ∈ S, SamePayoffs st ref j := by
  have hall : ∀ᶠ i in atTop, ∀ j ∈ S, ∃ p : Nat → EReal, ∀ i' ≥ i, ∀ method st,
      e.after? method i' = some st → ∀ k, payoff st.payoffs k j = p k := by
    refine (eventually_all_finite hfinite).mpr fun j hj => ?_
    obtain ⟨p, hp⟩ := hS j hj
    obtain ⟨K, hK⟩ := eventually_atTop.mp hp
    exact eventually_atTop.mpr ⟨K, fun i hi => ⟨p, fun i' hi' => hK i' (hi.trans hi')⟩⟩
  obtain ⟨K, hK⟩ := hall.exists
  obtain ⟨ref, href, hproper⟩ := after_spec h .jacobi K
  refine ⟨K, ref, href, hproper, fun i hi method st hst j hj k => ?_⟩
  obtain ⟨p, hp⟩ := hK j hj
  rw [hp i hi method st hst, hp K le_rfl .jacobi ref href]

/-- Once all states that it can lead to have settled, so does the state. -/
theorem Grounded.settlesAt (h : e.Regular) (hg : e.Grounded s) : e.SettlesAt s := by
  induction hg with
  | @intro s _ ih =>
  by_cases hs : s ∈ e.rows
  swap
  · exact settlesAt_of_not_mem h hs
  let successors : Set Nat := {j | j ≠ s ∧ ∃ r ∈ (e.mdp.choices s).toList, j ∈ r.successors.support}
  have hfinite : successors.Finite :=
    ((e.mdp.choices s).toList.finite_toSet.biUnion fun r _ =>
      r.successors.support.finite_toSet).subset fun j ⟨_, r, hr, hj⟩ => Set.mem_biUnion hr hj
  obtain ⟨K, ref, -, hproper, hsettled⟩ := exists_settled h hfinite fun j ⟨hne, r, hr, hj⟩ => by
    by_cases hrow : j ∈ e.rows
    · exact ih r (Array.mem_toList_iff.mp hr) j hj hne hrow
    · exact settlesAt_of_not_mem h hrow
  obtain ⟨choice, p, hselect, -⟩ := play?_spec h hs ref.payoffs
  refine ⟨fun k => p.getD k 0, eventually_atTop.mpr ⟨K + 1, fun i hi method next hnext k => ?_⟩⟩
  obtain ⟨i, rfl⟩ : ∃ j, i = j + 1 := Nat.exists_eq_add_one_of_ne_zero (by omega)
  obtain ⟨before, hbefore, -, -, -, hplayed⟩ := after_reads h hnext
  obtain ⟨read, hread, ⟨choice', p', hselect', -, hpay⟩, hreads⟩ := hplayed s hs
  have hcongr := play?_congr hread hproper (s := s) fun r hr j hj hne k => by
    have hin : j ∈ successors := ⟨hne, r, Array.mem_toList_iff.mpr hr, hj⟩
    obtain hold | ⟨-, hnew⟩ := hreads j
    · exact (hold k).trans (hsettled i (by omega) method before hbefore j hin k)
    · exact (hnew k).trans (hsettled _ (by omega) method next hnext j hin k)
  obtain ⟨rfl, rfl⟩ := Prod.mk.inj
    (Option.some.inj (hselect'.symm.trans (hcongr.trans hselect)))
  exact hpay k

end Grounded

section Decided

/-- Each coalition is promised at most its target, and nothing where that is out of reach. -/
def PlausibleAt (e : EquilibriumProblem EReal) (st : EquilibriumState EReal) (s : Nat) : Prop :=
  ∀ k t, e.targets[k]? = some t → payoff st.payoffs k s ≤ 1 ∧
    (¬CanReach e.mdp t s → payoff st.payoffs k s = 0)

/-- Payoffs that could be probabilities. -/
structure Plausible (e : EquilibriumProblem EReal) (st : EquilibriumState EReal) : Prop where
  proper : e.Proper st
  promised : ∀ s, e.PlausibleAt st s

theorem Plausible.toReal_mem_Icc (hst : e.Plausible st) (k s : Nat) {t : StateSet}
    (hk : e.targets[k]? = some t) : (payoff st.payoffs k s).toReal ∈ Set.Icc (0 : ℝ) 1 := by
  have hreal := hst.proper.real k s
  refine ⟨hreal.toReal_nonneg, EReal.coe_le_coe_iff.mp ?_⟩
  rw [hreal.coe_toReal]
  exact (hst.promised s k t hk).1

theorem plausibleAt_congr (hsame : SamePayoffs st st' s) (h : e.PlausibleAt st' s) :
    e.PlausibleAt st s := fun k t hk => by
  rw [hsame k]
  exact h k t hk

/-- A choice is worth no more than a target, and nothing where that is out of reach. -/
theorem Plausible.worth (hread : e.Plausible read) (h : e.Regular) (hs : s ∈ e.rows) {i k : Nat}
    {t : StateSet} (hi : i < (e.profiles read.payoffs s).size) (hk : e.targets[k]? = some t) :
    ((e.profiles read.payoffs s).getD i []).getD k 0 ≤ 1 ∧
      (¬CanReach e.mdp t s → ((e.profiles read.payoffs s).getD i []).getD k 0 = 0) := by
  rw [size_profiles] at hi
  have hr := Array.getElem_mem hi
  have hst := h.stochastic s hs _ hr
  rw [profiles_getD hi, profile_getD hread.proper hk,
    hst.normalised_probability_eq fun j _ => (hread.proper.real k j).coe_toReal.symm]
  split_ifs with ht
  · exact ⟨le_rfl, fun hno => absurd (.here ht) hno⟩
  · refine ⟨EReal.coe_le_coe_iff.mpr (hst.real.normalised_le
      (fun j => (hread.toReal_mem_Icc k j hk).2) zero_le_one), fun hno => ?_⟩
    refine congrArg Real.toEReal (Row.Stochastic.normalised_eq_zero fun j hj _ => ?_)
    rw [Row.support_real] at hj
    rw [(hread.promised j k t hk).2 fun hj' => hno (.onward hr hj hj'), EReal.toReal_zero]

theorem Plausible.played (hread : e.Plausible read) (h : e.Regular) (hs : s ∈ e.rows)
    (hplayed : e.Played read.payoffs next s) : e.PlausibleAt next s := by
  intro k t hk
  obtain ⟨choice, p, hplay, -, hpay⟩ := hplayed.recorded h hs
  rw [hpay]
  have hworth := fun i (hi : i < (e.profiles read.payoffs s).size) => hread.worth h hs hi hk
  cases hplay with
  | pure hi => exact hworth _ hi
  | mixed hi hj _ hw hw' =>
    have hfits := fun i (hi : i < (e.profiles read.payoffs s).size) =>
      fits_of_plays h hread.proper hs (.pure hi : Plays true _ _ _)
    have hreal := fun i hi => (forall_mem_iff_getD (hfits i hi).length _).mp (hfits i hi).real k t hk
    obtain ⟨hpos, hlt⟩ := toReal_odds hw hw'
    rw [mix_getD (hfits _ hi) (hfits _ hj) hk]
    refine ⟨?_, fun hno => ?_⟩
    · obtain ⟨a, -, ha⟩ := hreal _ hi
      obtain ⟨b, -, hb⟩ := hreal _ hj
      have hone := (hworth _ hi).1
      have hone' := (hworth _ hj).1
      rw [mix_eq hw hw' (hreal _ hi) (hreal _ hj), ha, hb, ← EReal.coe_one,
        EReal.coe_le_coe_iff]
      rw [ha, ← EReal.coe_one, EReal.coe_le_coe_iff] at hone
      rw [hb, ← EReal.coe_one, EReal.coe_le_coe_iff] at hone'
      rw [EReal.toReal_coe, EReal.toReal_coe]
      nlinarith
    · rw [(hworth _ hi).2 hno, (hworth _ hj).2 hno, mul_zero, mul_zero, add_zero]

/-- Payoffs are plausible after every pass. -/
theorem plausible_after (h : e.Regular) {i : Nat} (hst : e.after? method i = some st) :
    e.Plausible st := by
  induction i generalizing st with
  | zero =>
    obtain rfl := Option.some.inj hst
    refine ⟨.start h, fun s k t hk => ?_⟩
    rw [payoff_start h, hk, Option.elim_some]
    split_ifs with ht
    · exact ⟨le_rfl, fun hno => absurd (.here ht) hno⟩
    · exact ⟨zero_le_one, fun _ => rfl⟩
  | succ i ih =>
    obtain ⟨before, hbefore, -, hproper, hframe, hplayed⟩ := after_reads h hst
    refine ⟨hproper, fun s => ?_⟩
    -- smaller states may have been read after they were written
    induction s using Nat.strong_induction_on with
    | _ s ih' =>
      by_cases hs : s ∈ e.rows
      · obtain ⟨read, hread, hplay, hreads⟩ := hplayed s hs
        refine Plausible.played ⟨hread, fun u => ?_⟩ h hs hplay
        obtain hold | ⟨hlt, hnew⟩ := hreads u
        · exact plausibleAt_congr hold ((ih hbefore).promised u)
        · exact plausibleAt_congr hnew (ih' u hlt)
      · exact plausibleAt_congr (hframe s hs).2 ((ih hbefore).promised s)

/-- The same choice is selected in the state whatever plausible payoffs are read. -/
def Decided (e : EquilibriumProblem EReal) (s : Nat) : Prop :=
  ∃ i, ∀ st, e.Plausible st → ∃ p, e.play? st.payoffs s = some (.pure i, p)

/-- One choice of the state gives coalition `k` what it gets there. -/
def Follows (e : EquilibriumProblem EReal) (k s : Nat) (r : Row EReal) : Prop :=
  r ∈ e.mdp.choices s ∧ ∀ read next, e.Plausible read → e.Played read.payoffs next s →
    payoff next.payoffs k s = r.normalised .probability s (payoff read.payoffs k)

theorem Decided.exists_follows (h : e.Regular) (hs : s ∈ e.rows) (hd : e.Decided s) {k : Nat}
    {t : StateSet} (hk : e.targets[k]? = some t) (ht : s ∉ t) : ∃ r, e.Follows k s r := by
  obtain ⟨i, hi⟩ := hd
  have hselected : ∀ st, e.Plausible st → i < (e.mdp.choices s).size ∧
      e.play? st.payoffs s = some (.pure i, (e.profiles st.payoffs s).getD i []) := fun st hst => by
    obtain ⟨p, hselect⟩ := hi st hst
    obtain ⟨choice, p', hselect', hplay⟩ := play?_spec h hs st.payoffs
    obtain ⟨rfl, rfl⟩ := Prod.mk.inj (Option.some.inj (hselect.symm.trans hselect'))
    cases hplay with
    | pure hlt => exact ⟨size_profiles e st.payoffs s ▸ hlt, hselect⟩
  have hstart : e.after? .jacobi 0 = some e.start := rfl
  have hlt := (hselected e.start (plausible_after h hstart)).1
  refine ⟨_, Array.getElem_mem hlt, fun read next hread ⟨choice, p, hselect, _, hpay⟩ => ?_⟩
  obtain ⟨-, rfl⟩ := Prod.mk.inj (Option.some.inj (hselect.symm.trans (hselected read hread).2))
  rw [hpay, profiles_getD hlt, profile_getD hread.proper hk, if_neg ht]

end Decided

section Limits

/-- Plays from an open state do not come back to open states, or one choice is always selected. -/
def Untangled (e : EquilibriumProblem EReal) : Prop :=
  ∀ s ∈ e.rows, e.Grounded s ∨ e.Decided s

theorem Proper.payoff_of_no_target (h : e.Proper st) {k : Nat} (hk : e.targets[k]? = none) (s : Nat) :
    payoff st.payoffs k s = 0 := by
  have hv : st.payoffs[k]? = none :=
    Array.getElem?_eq_none (h.count.trans_le (List.getElem?_eq_none_iff.mp hk))
  rw [payoff, Array.getD_eq_getD_getElem?, hv]
  exact lookup_of_le (Nat.zero_le s)

section Tangle
variable {st : Nat → EquilibriumState EReal} {k : Nat} {t inside : StateSet} {row : Nat → Row EReal}
  (h : e.Regular) (hk : e.targets[k]? = some t)
  (hinside : ∀ s, s ∈ inside ↔ s < e.mdp.numStates ∧ s ∈ e.rows ∧ ¬e.Grounded s ∧ s ∉ t)
include h hk hinside

/-- Outside of the decided states payoffs settle, with the same outcome for both methods. -/
theorem exists_outside : ∃ ref, e.Plausible ref ∧
    ∀ method (st : Nat → EquilibriumState EReal), (∀ i, e.after? method i = some (st i)) →
      ∀ᶠ i in atTop, ∀ s, s ∉ inside → payoff (st i).payoffs k s = payoff ref.payoffs k s := by
  obtain ⟨K, ref, href, hproper, hsettled⟩ :=
    exists_settled h (S := {s | s < e.mdp.numStates ∧ (s ∈ e.rows → e.Grounded s)})
      ((Set.finite_lt_nat _).subset fun s hs => hs.1) fun s ⟨_, hs⟩ => by
        by_cases hrow : s ∈ e.rows
        · exact (hs hrow).settlesAt h
        · exact settlesAt_of_not_mem h hrow
  refine ⟨ref, plausible_after h href, fun method st hst =>
    eventually_atTop.mpr ⟨K, fun i hi s hs => ?_⟩⟩
  have hp := proper_of_after h (hst i)
  by_cases hlt : s < e.mdp.numStates
  · by_cases ht : s ∈ t
    · rw [hp.won k t hk s ht, hproper.won k t hk s ht]
    · refine hsettled i hi method _ (hst i) s ⟨hlt, fun hrow => ?_⟩ k
      by_contra hg
      exact hs ((hinside s).mpr ⟨hlt, hrow, hg, ht⟩)
  · rw [hp.payoff_of_le (not_lt.mp hlt), hproper.payoff_of_le (not_lt.mp hlt)]

omit hk in
/-- In decided states passes are rounds of steps. -/
theorem exists_read (hrow : ∀ s ∈ inside, e.Follows k s (row s)) (hst : ∀ i, e.after? method i = some (st i))
    (i : Nat) (hs : s ∈ inside) : ∃ y : Nat → ℝ,
      (∀ u, y u = (payoff (st i).payoffs k u).toReal ∨
        u < s ∧ y u = (payoff (st (i + 1)).payoffs k u).toReal) ∧
      (payoff (st (i + 1)).payoffs k s).toReal = (row s).real.normalised .probability s y := by
  have hopen := ((hinside s).mp hs).2.1
  obtain ⟨before, hbefore, -, -, -, hplayed⟩ := after_reads h (hst (i + 1))
  obtain rfl := Option.some.inj (hbefore.symm.trans (hst i))
  obtain ⟨read, hread, hplay, hreads⟩ := hplayed s hopen
  have hplausible : e.Plausible read := ⟨hread, fun u => (hreads u).elim
    (fun hold => plausibleAt_congr hold ((plausible_after h hbefore).promised u))
    fun hnew => plausibleAt_congr hnew.2 ((plausible_after h (hst (i + 1))).promised u)⟩
  refine ⟨fun u => (payoff read.payoffs k u).toReal, fun u => (hreads u).imp
    (fun hold => congrArg EReal.toReal (hold k))
    fun hnew => ⟨hnew.1, congrArg EReal.toReal (hnew.2 k)⟩, ?_⟩
  obtain ⟨hr, hworth⟩ := hrow s hs
  rw [hworth read _ hplausible hplay, (h.stochastic s hopen _ hr).normalised_probability_eq
    fun j _ => (hread.real k j).coe_toReal.symm, EReal.toReal_coe]

end Tangle

/-- Passes of both methods find the same payoffs in the limit. -/
theorem Untangled.exists_limit (h : e.Regular) (hun : e.Untangled) (k : Nat) : ∃ z : Nat → ℝ,
    ∀ method (st : Nat → EquilibriumState EReal), (∀ i, e.after? method i = some (st i)) →
      ∀ s, Tendsto (fun i => (payoff (st i).payoffs k s).toReal) atTop (𝓝 (z s)) := by
  rcases hk : e.targets[k]? with _ | t
  · refine ⟨fun _ => 0, fun method st hst s => ?_⟩
    have hzero := fun i => (proper_of_after h (hst i)).payoff_of_no_target hk s
    simp only [hzero, EReal.toReal_zero, tendsto_const_nhds]
  obtain ⟨inside, hover, hinside⟩ := StateSet.exists_over e.mdp.numStates
    fun s => s ∈ e.rows ∧ ¬e.Grounded s ∧ s ∉ t
  have hfollows : ∀ s, ∃ r, s ∈ inside → e.Follows k s r := fun s => by
    by_cases hs : s ∈ inside
    · obtain ⟨-, hopen, hg, ht⟩ := (hinside s).mp hs
      obtain ⟨r, hr⟩ := ((hun s hopen).resolve_left hg).exists_follows h hopen hk ht
      exact ⟨r, fun _ => hr⟩
    · exact ⟨⟨.point 0, none, 0⟩, fun hin => absurd hin hs⟩
  choose row hrow using hfollows
  have hst := fun s hs => (h.stochastic s ((hinside s).mp hs).2.1 _ (hrow s hs).1).real
  obtain ⟨ref, href, hsettled⟩ := exists_outside h hk hinside
  obtain ⟨z, hz⟩ := exists_limit_of_rounds hst hover fun s => href.toReal_mem_Icc k s hk
  refine ⟨z, fun method st hst => hz _ ⟨fun i s => ?_, fun s hs => ?_,
    fun i s hs => exists_read h hinside hrow hst i hs, ?_⟩⟩
  · exact ((plausible_after h (hst i)).toReal_mem_Icc k s hk).1
  · rw [← Option.some.inj (hst 0), payoff_start h, hk, Option.elim_some,
      if_neg ((hinside s).mp hs).2.2.2, EReal.toReal_zero]
  · exact (hsettled method st hst).mono fun i hi s hs => congrArg EReal.toReal (hi s hs)

/-- Payoffs that a pass leaves as they are have reached their limit. -/
theorem payoff_eq_limit (h : e.Regular) {st : Nat → EquilibriumState EReal}
    (hst : ∀ i, e.after? method i = some (st i)) {k i : Nat} {z : ℝ}
    (hz : Tendsto (fun i => (payoff (st i).payoffs k s).toReal) atTop (𝓝 z))
    (hstill : (st (i + 1)).payoffs = (st i).payoffs) : payoff (st i).payoffs k s = z := by
  rw [← ((proper_of_after h (hst i)).real k s).coe_toReal]
  have hlater := hz.comp (tendsto_add_atTop_nat i)
  refine congrArg Real.toEReal (tendsto_nhds_unique (tendsto_const_nhds.congr fun j => ?_) hlater)
  rw [Function.comp_apply, add_comm, after_still h hst hstill]

end Limits

section Changes

private theorem foldl_larger_lt {l : List EReal} {x ε : EReal} (hx : x < ε) (hl : ∀ y ∈ l, y < ε) :
    l.foldl Scalar.larger x < ε :=
  (List.forall_mem_cons (p := (· < ε))).mpr ⟨hx, hl⟩ _ (isGreatest_foldl_larger x l).1

/-- The largest change is below a bound if every change is. -/
theorem largestChange_lt {measure : DiffMeasure} {ε : EReal} (hε : 0 < ε)
    (h : ∀ k s, measure.diff (payoff before.payoffs k s) (payoff next.payoffs k s) < ε) :
    largestChange measure before next < ε := by
  rw [largestChange, ← Array.foldl_toList]
  refine foldl_larger_lt hε fun change hchange => ?_
  obtain ⟨k, hk, rfl⟩ := Array.getElem_of_mem (Array.mem_toList_iff.mp hchange)
  have hk' : k < before.payoffs.size ∧ k < next.payoffs.size := by simpa using hk
  rw [Array.getElem_zipWith, Mdp.largestChange, ← Array.foldl_toList]
  refine foldl_larger_lt hε fun d hd => ?_
  obtain ⟨s, hs, rfl⟩ := Array.getElem_of_mem (Array.mem_toList_iff.mp hd)
  have hs' : s < before.payoffs[k].size ∧ s < next.payoffs[k].size := by simpa using hs
  simpa [payoff, lookup_eq, hk', hs'] using h k s

theorem absolute_diff (x y : ℝ) : DiffMeasure.absolute.diff (x : EReal) y = (|y - x| : ℝ) := by
  by_cases he : x = y
  · rw [he, diff_self, sub_self, abs_zero, EReal.coe_zero]
  · have hsame : Scalar.same (x : EReal) y = false :=
      decide_eq_false (EReal.coe_eq_coe_iff.not.mpr he)
    rw [DiffMeasure.diff, hsame, ← EReal.coe_sub, abs_coe]
    rfl

variable {st : Nat → EquilibriumState EReal} (h : e.Regular)
  (hst : ∀ i, e.after? method i = some (st i)) {ε : ℝ} (hε : 0 < ε)
include h hst hε

/-- Where payoffs have a limit, some pass changes all of them by less than `ε`. -/
theorem exists_absolute_change {z : Nat → Nat → ℝ}
    (hz : ∀ k s, Tendsto (fun i => (payoff (st i).payoffs k s).toReal) atTop (𝓝 (z k s))) :
    ∃ i, largestChange .absolute (st i) (st (i + 1)) < (ε : EReal) := by
  have hpos : (0 : EReal) < ε := EReal.coe_pos.mpr hε
  have hproper := fun i => proper_of_after h (hst i)
  have hclose : ∀ k s, ∀ᶠ i in atTop, |(payoff (st (i + 1)).payoffs k s).toReal -
      (payoff (st i).payoffs k s).toReal| < ε := fun k s => by
    have hchange := (((hz k s).comp (tendsto_add_atTop_nat 1)).sub (hz k s)).abs
    rw [sub_self, abs_zero] at hchange
    exact hchange.eventually_lt_const hε
  obtain ⟨i, hi⟩ := ((eventually_all_finite (Set.finite_lt_nat e.targets.length)).mpr fun k _ =>
    (eventually_all_finite (Set.finite_lt_nat e.mdp.numStates)).mpr fun s _ => hclose k s).exists
  refine ⟨i, largestChange_lt hpos fun k s => ?_⟩
  rw [← ((hproper i).real k s).coe_toReal, ← ((hproper (i + 1)).real k s).coe_toReal, absolute_diff,
    EReal.coe_lt_coe_iff]
  by_cases hk : k < e.targets.length
  · by_cases hs : s < e.mdp.numStates
    · exact hi k hk s hs
    · rw [(hproper _).payoff_of_le (not_lt.mp hs), (hproper _).payoff_of_le (not_lt.mp hs)]
      simpa using hε
  · have hnone := List.getElem?_eq_none (not_lt.mp hk)
    rw [(hproper _).payoff_of_no_target hnone, (hproper _).payoff_of_no_target hnone]
    simpa using hε

/-- Where no play goes round, some pass changes nothing. -/
theorem exists_no_change (hground : ∀ s ∈ e.rows, e.Grounded s) (measure : DiffMeasure) :
    ∃ i, largestChange measure (st i) (st (i + 1)) < (ε : EReal) := by
  have hproper := fun i => proper_of_after h (hst i)
  obtain ⟨K, ref, -, -, hsettled⟩ := exists_settled h (Set.finite_lt_nat e.mdp.numStates)
    fun s _ => by
      by_cases hs : s ∈ e.rows
      · exact (hground s hs).settlesAt h
      · exact settlesAt_of_not_mem h hs
  have hsame : (st K).payoffs = (st (K + 1)).payoffs := by
    refine (hproper K).payoffs_ext (hproper (K + 1)) fun k s => ?_
    by_cases hs : s < e.mdp.numStates
    · rw [hsettled K le_rfl method _ (hst K) s hs k,
        hsettled (K + 1) (Nat.le_succ K) method _ (hst (K + 1)) s hs k]
    · rw [(hproper _).payoff_of_le (not_lt.mp hs), (hproper _).payoff_of_le (not_lt.mp hs)]
  refine ⟨K, largestChange_lt (EReal.coe_pos.mpr hε) fun k s => ?_⟩
  rw [hsame, diff_self]
  exact EReal.coe_pos.mpr hε

/-- Some pass makes a small change only, if changes are absolute or no play goes round. -/
theorem exists_small_change {z : Nat → Nat → ℝ}
    (hz : ∀ k s, Tendsto (fun i => (payoff (st i).payoffs k s).toReal) atTop (𝓝 (z k s)))
    {measure : DiffMeasure} (hor : measure = .absolute ∨ ∀ s ∈ e.rows, e.Grounded s) :
    ∃ i, largestChange measure (st i) (st (i + 1)) < (ε : EReal) := by
  obtain rfl | hground := hor
  · exact exists_absolute_change h hst hε hz
  · exact exists_no_change h hst hε hground measure

end Changes

/-- A run that is allowed to gets as far as to a small change, and stops there at the latest. -/
theorem run_converges {config : SolverConfig EReal} (hbudget : config.timeBudget = none)
    {st : Nat → EquilibriumState EReal} (hst : ∀ i, e.after? config.method i = some (st i)) {i : Nat}
    (hi : i < config.maxIters)
    (hsmall : largestChange config.termination (st i) (st (i + 1)) < config.epsilon) :
    (e.run config e.start).termination = .converged := by
  rw [run_eq_drive]
  refine drive_converges hbudget hi 0 ?_
  rw [iterate_turn, hst i]
  simp only [turn, pass_of_after hst i]
  exact decide_eq_true hsmall

end EquilibriumProblem
end StochasticGames.Analysis
