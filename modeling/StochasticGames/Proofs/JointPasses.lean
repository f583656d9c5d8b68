import StochasticGames.Proofs.Mixtures
import StochasticGames.Proofs.Passes
import StochasticGames.Proofs.Selections

/-! Passes over the payoffs of all coalitions: there is always something to play, and what a pass
that changes nothing records has the payoffs of its state. -/
namespace StochasticGames.Analysis
open StochasticGames.Numeric StochasticGames.Arena

/-- A real number that is not negative. -/
def IsPayoff (x : EReal) : Prop :=
  ∃ y : ℝ, 0 ≤ y ∧ x = y

theorem IsPayoff.coe_toReal {x : EReal} (h : IsPayoff x) : ((x.toReal : ℝ) : EReal) = x := by
  obtain ⟨y, -, rfl⟩ := h
  rw [EReal.toReal_coe]

theorem IsPayoff.toReal_nonneg {x : EReal} (h : IsPayoff x) : 0 ≤ x.toReal := by
  obtain ⟨y, hy, rfl⟩ := h
  rwa [EReal.toReal_coe]

theorem isPayoff_zero : IsPayoff 0 :=
  ⟨0, le_rfl, rfl⟩

theorem isPayoff_one : IsPayoff 1 :=
  ⟨1, zero_le_one, rfl⟩

/-- What a coin with real odds makes of two payoffs. -/
theorem mix_eq {w x y : EReal} (hw : 0 < w) (hw' : w < 1) (hx : IsPayoff x) (hy : IsPayoff y) :
    w * x + (1 - w) * y = (w.toReal * x.toReal + (1 - w.toReal) * y.toReal : ℝ) := by
  have hreal : ((w.toReal : ℝ) : EReal) = w :=
    EReal.coe_toReal (hw'.trans (EReal.coe_lt_top 1)).ne (EReal.bot_lt_zero.trans hw).ne'
  rw [EReal.coe_add, EReal.coe_mul, EReal.coe_mul, EReal.coe_sub, EReal.coe_one, hreal,
    hx.coe_toReal, hy.coe_toReal]

theorem toReal_odds {w : EReal} (hw : 0 < w) (hw' : w < 1) : 0 < w.toReal ∧ w.toReal < 1 := by
  have hreal : ((w.toReal : ℝ) : EReal) = w :=
    EReal.coe_toReal (hw'.trans (EReal.coe_lt_top 1)).ne (EReal.bot_lt_zero.trans hw).ne'
  rw [← hreal] at hw hw'
  exact ⟨EReal.coe_pos.mp hw, EReal.coe_lt_coe_iff.mp hw'⟩

theorem IsPayoff.mix {w x y : EReal} (hw : 0 < w) (hw' : w < 1) (hx : IsPayoff x)
    (hy : IsPayoff y) : IsPayoff (w * x + (1 - w) * y) := by
  obtain ⟨hpos, hlt⟩ := toReal_odds hw hw'
  refine ⟨_, ?_, mix_eq hw hw' hx hy⟩
  exact add_nonneg (mul_nonneg hpos.le hx.toReal_nonneg)
    (mul_nonneg (sub_pos.mpr hlt).le hy.toReal_nonneg)

/-- A coin is worth no less than one of its sides. -/
theorem IsPayoff.le_mix {w x y : EReal} (hw : 0 < w) (hw' : w < 1) (hx : IsPayoff x)
    (hy : IsPayoff y) : x ≤ w * x + (1 - w) * y ∨ y ≤ w * x + (1 - w) * y := by
  obtain ⟨hpos, hlt⟩ := toReal_odds hw hw'
  rw [mix_eq hw hw' hx hy]
  obtain ⟨a, -, rfl⟩ := hx
  obtain ⟨b, -, rfl⟩ := hy
  simp only [EReal.toReal_coe, EReal.coe_le_coe_iff]
  rcases le_total a b with hab | hba
  · exact .inl (by nlinarith)
  · exact .inr (by nlinarith)

/-- The payoff of coalition `k` in state `s`. -/
def payoff {α : Type} [Scalar α] (payoffs : Array (Array α)) (k s : Nat) : α :=
  lookup (payoffs.getD k #[]) s

namespace EquilibriumProblem

/-- The rows are the states where some coalition has yet to win. They have choices, all of which
have probabilities. -/
structure Regular (e : EquilibriumProblem EReal) : Prop where
  targets_over : ∀ t ∈ e.targets, t.Over e.mdp.numStates
  rows_over : e.rows.Over e.mdp.numStates
  mem_rows : ∀ s, s ∈ e.rows ↔ s < e.mdp.numStates ∧ ∃ t ∈ e.targets, s ∉ t
  has_choice : ∀ s ∈ e.rows, 0 < (e.mdp.choices s).size
  stochastic : ∀ s ∈ e.rows, ∀ r ∈ e.mdp.choices s, r.Stochastic EReal.toReal

/-- A payoff for each coalition, all of it for those that have won. -/
structure Fits (e : EquilibriumProblem EReal) (s : Nat) (p : Profile EReal) : Prop where
  length : p.length = e.targets.length
  real : ∀ x ∈ p, IsPayoff x
  won : ∀ k t, e.targets[k]? = some t → s ∈ t → p.getD k 0 = 1

/-- Vectors of payoffs for each coalition, all of it for those that have won. -/
structure Proper (e : EquilibriumProblem EReal) (st : EquilibriumState EReal) : Prop where
  count : st.payoffs.size = e.targets.length
  length : ∀ v ∈ st.payoffs, v.size = e.mdp.numStates
  choices : st.choices.size = e.mdp.numStates
  real : ∀ k s, IsPayoff (payoff st.payoffs k s)
  won : ∀ k t, e.targets[k]? = some t → ∀ s ∈ t, payoff st.payoffs k s = 1

section Profiles
variable {e : EquilibriumProblem EReal} {st : EquilibriumState EReal} {s k : Nat} {t : StateSet}
  {r : Row EReal} {p q : Profile EReal}

/-- An entry of a profile is what the choice is worth, and one where the coalition has won. -/
theorem profile_getD (h : e.Proper st) (hk : e.targets[k]? = some t) :
    (e.profile st.payoffs s r).getD k 0 =
      if s ∈ t then 1 else r.normalised .probability s (payoff st.payoffs k) := by
  have hlt : k < st.payoffs.size := h.count ▸ (List.getElem?_eq_some_iff.mp hk).1
  have hv : st.payoffs.toList[k]? = some st.payoffs[k] := by simp [hlt]
  have hpay : payoff st.payoffs k = lookup st.payoffs[k] := by
    funext s
    simp [payoff, hlt]
  rw [profile, List.getD_eq_getElem?_getD, List.getElem?_zipWith, hv, hk, hpay]
  rfl

theorem length_profile (h : e.Proper st) :
    (e.profile st.payoffs s r).length = e.targets.length := by
  rw [profile, List.length_zipWith, Array.length_toList, h.count, min_self]

/-- Entries of a profile of the right length are found under the targets. -/
theorem forall_mem_iff_getD (hp : p.length = e.targets.length) (P : EReal → Prop) :
    (∀ x ∈ p, P x) ↔ ∀ k t, e.targets[k]? = some t → P (p.getD k 0) := by
  constructor
  · intro hall k t hk
    have hlt : k < p.length := hp ▸ (List.getElem?_eq_some_iff.mp hk).1
    rw [List.getD_eq_getElem _ _ hlt]
    exact hall _ (List.getElem_mem hlt)
  · intro hall x hx
    obtain ⟨k, hlt, rfl⟩ := List.getElem_of_mem hx
    rw [← List.getD_eq_getElem _ 0 hlt]
    exact hall k _ (List.getElem?_eq_getElem (hp ▸ hlt))

theorem isPayoff_normalised (h : e.Proper st) (hr : r.Stochastic EReal.toReal) (k s : Nat) :
    IsPayoff (r.normalised .probability s (payoff st.payoffs k)) :=
  ⟨_, hr.real.normalised_nonneg s fun j => (h.real k j).toReal_nonneg,
    hr.normalised_probability_eq fun j _ => (h.real k j).coe_toReal.symm⟩

theorem fits_profile (h : e.Proper st) (hr : r.Stochastic EReal.toReal) :
    e.Fits s (e.profile st.payoffs s r) := by
  refine ⟨length_profile h, (forall_mem_iff_getD (length_profile h) _).mpr fun k t hk => ?_,
    fun k t hk hs => ?_⟩
  · rw [profile_getD h hk]
    split_ifs
    · exact isPayoff_one
    · exact isPayoff_normalised h hr k s
  · rw [profile_getD h hk, if_pos hs]

theorem mix_getD (hp : e.Fits s p) (hq : e.Fits s q) (hk : e.targets[k]? = some t) (w : EReal) :
    (Profile.mix w p q).getD k 0 = w * p.getD k 0 + (1 - w) * q.getD k 0 := by
  have hlt := (List.getElem?_eq_some_iff.mp hk).1
  exact Profile.mix_getD (hp.length ▸ hlt) (hq.length ▸ hlt)

theorem Fits.mix {w : EReal} (hp : e.Fits s p) (hq : e.Fits s q) (hw : 0 < w) (hw' : w < 1) :
    e.Fits s (Profile.mix w p q) := by
  have hlength : (Profile.mix w p q).length = e.targets.length := by
    rw [Profile.mix, List.length_zipWith, hp.length, hq.length, min_self]
  refine ⟨hlength, (forall_mem_iff_getD hlength _).mpr fun k t hk => ?_, fun k t hk hs => ?_⟩
  · rw [mix_getD hp hq hk]
    exact .mix hw hw' ((forall_mem_iff_getD hp.length _).mp hp.real k t hk)
      ((forall_mem_iff_getD hq.length _).mp hq.real k t hk)
  · rw [mix_getD hp hq hk, hp.won k t hk hs, hq.won k t hk hs,
      mix_eq hw hw' isPayoff_one isPayoff_one, EReal.toReal_one, mul_one, mul_one, add_sub_cancel,
      EReal.coe_one]

theorem profiles_getD {i : Nat} (hi : i < (e.mdp.choices s).size) (payoffs : Array (Array EReal)) :
    (e.profiles payoffs s).getD i [] = e.profile payoffs s (e.mdp.choices s)[i] := by
  simp [profiles, hi]

/-- Whatever is played in a row has a profile that fits. -/
theorem fits_of_plays (h : e.Regular) (hst : e.Proper st) (hs : s ∈ e.rows)
    {choice : EquilibriumChoice EReal} {coins : Bool}
    (hplay : Plays coins (e.profiles st.payoffs s) choice p) :
    e.Fits s p := by
  have hpure : ∀ i < (e.profiles st.payoffs s).size,
      e.Fits s ((e.profiles st.payoffs s).getD i []) := fun i hi => by
    have hi' : i < (e.mdp.choices s).size := by simpa [profiles] using hi
    rw [profiles_getD hi']
    exact fits_profile hst (h.stochastic s hs _ (Array.getElem_mem hi'))
  cases hplay with
  | pure hi => exact hpure _ hi
  | mixed hi hj _ hw hw' => exact (hpure _ hi).mix (hpure _ hj) hw hw'

theorem payoff_start_of_over (h : ∀ t ∈ e.targets, t.Over e.mdp.numStates) (k s : Nat) :
    payoff e.start.payoffs k s =
      ((e.targets[k]?).elim 0 fun t => if s ∈ t then 1 else 0) := by
  simp only [payoff, EquilibriumProblem.start]
  cases hk : e.targets[k]? with
  | none => simp [lookup_eq, hk]
  | some t =>
    simp [hk, lookup_indicator (h t (List.mem_of_getElem? hk))]

theorem payoff_start (h : e.Regular) (k s : Nat) : payoff e.start.payoffs k s =
    ((e.targets[k]?).elim 0 fun t => if s ∈ t then 1 else 0) :=
  payoff_start_of_over h.targets_over k s

theorem proper_start_of_over (h : ∀ t ∈ e.targets, t.Over e.mdp.numStates) :
    e.Proper e.start := by
  have hpay := payoff_start_of_over h
  refine ⟨by simp [EquilibriumProblem.start], fun v hv => ?_, by simp [EquilibriumProblem.start],
    fun k s => ?_, fun k t hk s hs => ?_⟩
  · simp only [EquilibriumProblem.start, List.mem_toArray, List.mem_map] at hv
    obtain ⟨t, -, rfl⟩ := hv
    simp [indicator]
  · rw [hpay]
    cases e.targets[k]? with
    | none => exact isPayoff_zero
    | some t =>
      rw [Option.elim_some]
      split_ifs
      · exact isPayoff_one
      · exact isPayoff_zero
  · rw [hpay, hk, Option.elim_some, if_pos hs]

theorem Proper.start (h : e.Regular) : e.Proper e.start :=
  proper_start_of_over h.targets_over

theorem record_payoffs {α : Type} [Scalar α] (st : EquilibriumState α) (s : Nat)
    (choice : EquilibriumChoice α) (p : Profile α) (k : Nat) : (record st s choice p).payoffs[k]? =
      match st.payoffs[k]?, p[k]? with
      | some v, some x => some (v.setIfInBounds s x)
      | _, _ => none := by
  rw [EquilibriumProblem.record, List.getElem?_toArray, List.getElem?_zipWith,
    Array.getElem?_toList]
  cases st.payoffs[k]? <;> cases p[k]? <;> rfl

theorem payoff_record (h : e.Proper st) (hp : e.Fits s p) (hs : s < e.mdp.numStates)
    (choice : EquilibriumChoice EReal) (k u : Nat) : payoff (record st s choice p).payoffs k u =
      if u = s then p.getD k 0 else payoff st.payoffs k u := by
  by_cases hk : k < e.targets.length
  · have hkv : k < st.payoffs.size := h.count ▸ hk
    have hkx : k < List.length p := hp.length ▸ hk
    have hv := Array.getElem?_eq_getElem hkv
    have hx : p[k]? = some p[k] := List.getElem?_eq_getElem hkx
    have hsize := h.length _ (Array.getElem_mem hkv)
    have hnew := record_payoffs st s choice p k
    rw [hv, hx] at hnew
    rw [payoff, payoff, Array.getD_eq_getD_getElem?, Array.getD_eq_getD_getElem?, hnew, hv,
      List.getD_eq_getElem?_getD, hx]
    simp only [Option.getD_some]
    rw [lookup_setIfInBounds (hsize ▸ hs), Function.update_apply]
  · have hv : st.payoffs[k]? = none := Array.getElem?_eq_none (h.count ▸ not_lt.mp hk)
    have hx : p[k]? = none := List.getElem?_eq_none (hp.length ▸ not_lt.mp hk)
    have hnew := record_payoffs st s choice p k
    rw [hv, hx] at hnew
    rw [payoff, payoff, Array.getD_eq_getD_getElem?, Array.getD_eq_getD_getElem?, hnew, hv,
      List.getD_eq_getElem?_getD, hx]
    simp [lookup_eq]

theorem Proper.record (h : e.Proper st) (hp : e.Fits s p) (hs : s < e.mdp.numStates)
    (choice : EquilibriumChoice EReal) : e.Proper (record st s choice p) := by
  have hpay := payoff_record h hp hs choice
  refine ⟨?_, fun v hv => ?_, ?_, fun k u => ?_, fun k t hk u hu => ?_⟩
  · simp [EquilibriumProblem.record, h.count, hp.length]
  · obtain ⟨k, hk, rfl⟩ := Array.getElem_of_mem hv
    have hnew := record_payoffs st s choice p k
    rw [Array.getElem?_eq_getElem hk] at hnew
    split at hnew
    · rename_i v x hv hx
      rw [Option.some.inj hnew, Array.size_setIfInBounds]
      exact h.length v (Array.mem_of_getElem? hv)
    · exact absurd hnew (Option.some_ne_none _)
  · simp [EquilibriumProblem.record, h.choices]
  · rw [hpay]
    split_ifs
    · rw [List.getD_eq_getElem?_getD]
      cases hx : p[k]? with
      | none => exact isPayoff_zero
      | some x => exact hp.real x (List.mem_of_getElem? hx)
    · exact h.real k u
  · rw [hpay]
    split_ifs with he
    · exact hp.won k t hk (he ▸ hu)
    · exact h.won k t hk u hu

theorem Proper.payoff_of_le (h : e.Proper st) (hs : e.mdp.numStates ≤ s) (k : Nat) :
    payoff st.payoffs k s = 0 := by
  rw [payoff, Array.getD_eq_getD_getElem?]
  cases hv : st.payoffs[k]? with
  | none => exact lookup_of_le (Nat.zero_le s)
  | some v => exact lookup_of_le ((h.length v (Array.mem_of_getElem? hv)).trans_le hs)

theorem Proper.payoffs_ext {st' : EquilibriumState EReal} (h : e.Proper st) (h' : e.Proper st')
    (hpay : ∀ k s, payoff st.payoffs k s = payoff st'.payoffs k s) :
    st.payoffs = st'.payoffs := by
  refine Array.ext (h.count.trans h'.count.symm) fun k hk hk' => ?_
  have hsize := h.length _ (Array.getElem_mem hk)
  have hsize' := h'.length _ (Array.getElem_mem hk')
  refine Array.ext (hsize.trans hsize'.symm) fun s hs hs' => ?_
  have he := hpay k s
  simpa [payoff, lookup_eq, hk, hk', hs, hs'] using he

end Profiles

/-- A play is recorded in the state that was legal under the given payoffs, along with its
profile. -/
def Recorded (e : EquilibriumProblem EReal) (payoffs : Array (Array EReal))
    (st : EquilibriumState EReal) (s : Nat) : Prop :=
  ∃ choice p, Plays e.selector.mixes (e.profiles payoffs s) choice p ∧
    st.choices.getD s none = some choice ∧ ∀ k, payoff st.payoffs k s = p.getD k 0

/-- What is selected in the state under the given payoffs is recorded there, along with its
profile. -/
def Played (e : EquilibriumProblem EReal) (payoffs : Array (Array EReal))
    (st : EquilibriumState EReal) (s : Nat) : Prop :=
  ∃ choice p, e.play? payoffs s = some (choice, p) ∧
    st.choices.getD s none = some choice ∧ ∀ k, payoff st.payoffs k s = p.getD k 0

/-- Both states agree on the payoffs in state `u` of the game. -/
def SamePayoffs (st st' : EquilibriumState EReal) (u : Nat) : Prop :=
  ∀ k, payoff st.payoffs k u = payoff st'.payoffs k u

/-- Both states agree on state `u` of the game. -/
def SameAt (st st' : EquilibriumState EReal) (u : Nat) : Prop :=
  st.choices.getD u none = st'.choices.getD u none ∧ SamePayoffs st st' u

/-- The state after `k` passes, if all of them had something to play. -/
def after? {α : Type} [Scalar α] (e : EquilibriumProblem α) (method : IterMethod) (k : Nat) :
    Option (EquilibriumState α) :=
  (fun st => st.bind (e.pass? method))^[k] (some e.start)

section Passes
variable {e : EquilibriumProblem EReal} {before now : EquilibriumState EReal} {s : Nat}

theorem size_profiles {α : Type} [Scalar α] (e : EquilibriumProblem α)
    (payoffs : Array (Array α)) (s : Nat) : (e.profiles payoffs s).size = (e.mdp.choices s).size :=
  Array.size_map

/-- Something legal is selected in a row. -/
theorem play?_spec (h : e.Regular) (hs : s ∈ e.rows) (payoffs : Array (Array EReal)) :
    ∃ choice p, e.play? payoffs s = some (choice, p) ∧
      Plays e.selector.mixes (e.profiles payoffs s) choice p := by
  have hne : 0 < (e.profiles payoffs s).size := size_profiles e payoffs s ▸ h.has_choice s hs
  obtain ⟨⟨choice, p⟩, hselect, hplay⟩ := Selector.select?_spec hne
  exact ⟨choice, p, hselect, hplay⟩

theorem Played.recorded {payoffs : Array (Array EReal)} (h : e.Played payoffs now s)
    (he : e.Regular) (hs : s ∈ e.rows) : e.Recorded payoffs now s := by
  obtain ⟨choice, p, hselect, hchoice, hpay⟩ := h
  obtain ⟨choice', p', hselect', hplay⟩ := play?_spec he hs payoffs
  obtain ⟨rfl, rfl⟩ := Prod.mk.inj (Option.some.inj (hselect.symm.trans hselect'))
  exact ⟨choice, p, hplay, hchoice, hpay⟩

theorem Played.congr {payoffs : Array (Array EReal)} (h : e.Played payoffs now s)
    {st : EquilibriumState EReal} (hst : SameAt st now s) : e.Played payoffs st s := by
  obtain ⟨choice, p, hselect, hchoice, hpay⟩ := h
  exact ⟨choice, p, hselect, hst.1.trans hchoice, fun k => (hst.2 k).trans (hpay k)⟩

/-- A visit records what is played in its state when the payoffs from before the pass or those of
now are read, and leaves all other states alone. -/
theorem visit_spec (h : e.Regular) (hbefore : e.Proper before) (hnow : e.Proper now)
    (hs : s ∈ e.rows) (method : IterMethod) : ∃ next read,
      e.visit? method before now s = some next ∧ e.Proper next ∧ (∀ u, u ≠ s → SameAt next now u) ∧
        e.Proper read ∧ (read = before ∨ read = now) ∧ e.Played read.payoffs next s := by
  have hlt := h.rows_over.lt hs
  obtain ⟨read, hread, hread', hvisit⟩ : ∃ read : EquilibriumState EReal, e.Proper read ∧
      (read = before ∨ read = now) ∧
      e.visit? method before now s = (e.play? read.payoffs s).bind fun play =>
        some (record now s play.1 play.2) := by
    cases method with
    | jacobi => exact ⟨before, hbefore, .inl rfl, rfl⟩
    | gaussSeidel => exact ⟨now, hnow, .inr rfl, rfl⟩
  obtain ⟨choice, p, hselect, hplay⟩ := play?_spec h hs read.payoffs
  have hp := fits_of_plays h hread hs hplay
  have hpay := payoff_record hnow hp hlt choice
  rw [hselect] at hvisit
  refine ⟨_, read, hvisit, hnow.record hp hlt choice, fun u hu => ⟨?_, fun k => ?_⟩, hread, hread',
    choice, p, hselect, ?_, fun k => ?_⟩
  · simp [record, Array.getElem?_setIfInBounds_ne (Ne.symm hu), Array.getD_eq_getD_getElem?]
  · rw [hpay, if_neg hu]
  · simp [record, hnow.choices, hlt, Array.getD_eq_getD_getElem?]
  · rw [hpay, if_pos rfl]

/-- Visits to ascending states always succeed. Each state reads the payoffs from before the pass,
those of now, or, of a smaller state, those that are left in the end. -/
theorem foldlM_visit (h : e.Regular) (hbefore : e.Proper before) (method : IterMethod)
    {l : List Nat} (hl : ∀ s ∈ l, s ∈ e.rows) (hsorted : l.Pairwise (· < ·)) (hnow : e.Proper now) :
    ∃ last, l.foldlM (e.visit? method before) now = some last ∧ e.Proper last ∧
      (∀ u, u ∉ l → SameAt last now u) ∧
      ∀ s ∈ l, ∃ read, e.Proper read ∧ e.Played read.payoffs last s ∧ ∀ u,
        SamePayoffs read before u ∨ SamePayoffs read now u ∨ u < s ∧ SamePayoffs read last u := by
  induction l generalizing now with
  | nil => exact ⟨now, rfl, hnow, fun u _ => ⟨rfl, fun k => rfl⟩, fun s hs => by simp at hs⟩
  | cons s l ih =>
    obtain ⟨hs, hl⟩ := List.forall_mem_cons.mp hl
    obtain ⟨hlater, hsorted⟩ := List.pairwise_cons.mp hsorted
    have hnew : s ∉ l := fun hin => lt_irrefl s (hlater s hin)
    obtain ⟨next, read, hnext, hproper, hframe, hread, hsame, hplayed⟩ :=
      visit_spec h hbefore hnow hs method
    obtain ⟨last, hlast, hproper', hframe', hplayed'⟩ := ih hl hsorted hproper
    refine ⟨last, ?_, hproper', fun u hu => ?_, List.forall_mem_cons.mpr ⟨?_, fun t ht => ?_⟩⟩
    · rw [List.foldlM_cons, hnext]
      exact hlast
    · obtain ⟨hne, hout⟩ := not_or.mp (List.mem_cons.not.mp hu)
      have hlate := hframe' u hout
      have hearly := hframe u hne
      exact ⟨hlate.1.trans hearly.1, fun k => (hlate.2 k).trans (hearly.2 k)⟩
    · refine ⟨read, hread, hplayed.congr (hframe' s hnew), fun u => ?_⟩
      obtain rfl | rfl := hsame
      · exact .inl fun k => rfl
      · exact .inr (.inl fun k => rfl)
    · obtain ⟨read, hread, hplayed, hsame⟩ := hplayed' t ht
      refine ⟨read, hread, hplayed, fun u => (hsame u).imp_right ?_⟩
      rintro (hnow | hlast)
      · by_cases hu : u = s
        · exact .inr ⟨hu ▸ hlater t ht, fun k => (hnow k).trans (hu ▸ ((hframe' s hnew).2 k).symm)⟩
        · exact .inl fun k => (hnow k).trans ((hframe u hu).2 k)
      · exact .inr hlast

/-- A pass plays in every row, where it reads payoffs from before or, of smaller states, those that
it leaves itself. -/
theorem pass_reads (h : e.Regular) (hbefore : e.Proper before) (method : IterMethod) : ∃ next,
    e.pass? method before = some next ∧ e.Proper next ∧ (∀ u, u ∉ e.rows → SameAt next before u) ∧
      ∀ s ∈ e.rows, ∃ read, e.Proper read ∧ e.Played read.payoffs next s ∧
        ∀ u, SamePayoffs read before u ∨ u < s ∧ SamePayoffs read next u := by
  obtain ⟨next, hpass, hproper, hframe, hplayed⟩ := foldlM_visit h hbefore method
    (fun s => h.rows_over.mem_members.mp) e.rows.sorted_members hbefore
  refine ⟨next, hpass, hproper, fun u hu => hframe u (hu ∘ h.rows_over.mem_members.mp),
    fun s hs => ?_⟩
  obtain ⟨read, hread, hplay, hsame⟩ := hplayed s (h.rows_over.mem_members.mpr hs)
  exact ⟨read, hread, hplay, fun u => or_self_left.mp (hsame u)⟩

theorem pass_spec (h : e.Regular) (hbefore : e.Proper before) (method : IterMethod) : ∃ next,
    e.pass? method before = some next ∧ e.Proper next ∧ (next.payoffs = before.payoffs →
      ∀ s ∈ e.rows, e.Played next.payoffs next s) := by
  obtain ⟨next, hpass, hproper, -, hplayed⟩ := pass_reads h hbefore method
  refine ⟨next, hpass, hproper, fun hstill s hs => ?_⟩
  obtain ⟨read, hread, hplay, hsame⟩ := hplayed s hs
  have hpayoffs : read.payoffs = next.payoffs := hread.payoffs_ext hproper fun k u => by
    obtain hu | ⟨-, hu⟩ := hsame u
    · rw [hu k, hstill]
    · exact hu k
  exact hpayoffs ▸ hplay

theorem after_succ {α : Type} [Scalar α] (e : EquilibriumProblem α) (method : IterMethod) (k : Nat) :
    e.after? method (k + 1) = (e.after? method k).bind (e.pass? method) :=
  Function.iterate_succ_apply' _ _ _

theorem after_spec (h : e.Regular) (method : IterMethod) (k : Nat) :
    ∃ st, e.after? method k = some st ∧ e.Proper st := by
  induction k with
  | zero => exact ⟨e.start, rfl, .start h⟩
  | succ k ih =>
    obtain ⟨st, hst, hproper⟩ := ih
    obtain ⟨next, hnext, hproper', -⟩ := pass_spec h hproper method
    exact ⟨next, by rw [after_succ, hst, Option.bind_some, hnext], hproper'⟩

theorem proper_of_after (h : e.Regular) {method : IterMethod} {st : EquilibriumState EReal} {k : Nat}
    (hst : e.after? method k = some st) : e.Proper st := by
  obtain ⟨st', hst', hproper⟩ := after_spec h method k
  exact Option.some.inj (hst.symm.trans hst') ▸ hproper

/-- What the first pass leaves and the second one repeats is left by all of them. -/
theorem after_settled {method : IterMethod} {st : EquilibriumState EReal}
    (hfirst : e.pass? method e.start = some st) (hagain : e.pass? method st = some st) (k : Nat) :
    e.after? method (k + 1) = some st := by
  induction k with
  | zero => exact hfirst
  | succ k ih => rw [after_succ, ih, Option.bind_some, hagain]

/-- What a run repeats: a pass and its largest change. -/
def turn {α : Type} [Scalar α] (e : EquilibriumProblem α) (config : SolverConfig α) :
    Option (EquilibriumState α) → Option (EquilibriumState α) × α
  | none => (none, 0)
  | some old =>
    match e.pass? config.method old with
    | none => (none, 0)
    | some new => (some new, largestChange config.termination old new)

theorem run_eq_drive {α : Type} [Scalar α] (e : EquilibriumProblem α) (config : SolverConfig α) :
    e.run config e.start = drive config (e.turn config) config.maxIters 0 (some e.start) := by
  rfl

theorem iterate_turn {α : Type} [Scalar α] (e : EquilibriumProblem α) (config : SolverConfig α)
    (k : Nat) :
    (fun st => (e.turn config st).1)^[k] (some e.start) = e.after? config.method k := by
  have hpass : (fun st => (e.turn config st).1) = fun st => st.bind (e.pass? config.method) := by
    funext st
    cases st with
    | none => rfl
    | some st => dsimp only [turn, Option.bind_some]; cases e.pass? config.method st <;> rfl
  rw [hpass, after?]

/-- A run makes some passes, at least one. -/
theorem run_eq_after {α : Type} [Scalar α] (e : EquilibriumProblem α) {config : SolverConfig α}
    (hc : config.validate = .ok ()) : ∃ k, (e.run config e.start).iterations = k + 1 ∧
      (e.run config e.start).state = e.after? config.method (k + 1) := by
  obtain ⟨i, hi⟩ := Nat.exists_eq_add_one_of_ne_zero (maxIters_ne_zero hc)
  rw [run_eq_drive, hi]
  obtain ⟨k, hk, hstate⟩ := drive_eq_iterate config (e.turn config) (i + 1) 0 (some e.start)
  have hpos := lt_iterations_drive config (e.turn config) i 0 (some e.start)
  obtain ⟨j, rfl⟩ : ∃ j, k = j + 1 := Nat.exists_eq_add_one_of_ne_zero (by omega)
  exact ⟨j, by omega, by rw [hstate, iterate_turn]⟩

end Passes
end EquilibriumProblem
end StochasticGames.Analysis
