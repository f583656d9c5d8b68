import StochasticGames.Analysis.Strategy
import StochasticGames.Proofs.Plays

/-! Ties are broken layer by layer, working back from the target. The states that settle get to the
target, and the others have ties that keep away from all settled states. -/
namespace StochasticGames.Analysis
open StochasticGames.Arena

variable {α : Type}

/-- The choice played in a state when each state records a position. -/
def played (m : Mdp α) (choices : Array (Option Nat)) (s : Nat) : Option (Row α) :=
  (choices.getD s none).bind (m.row? s)

/-- Every state of `rows` has tied choices, and the game has them. -/
structure Ties (m : Mdp α) (rows target : StateSet) (optimal : Array (List Nat)) : Prop where
  rows_over : rows.Over optimal.size
  target_over : target.Over optimal.size
  exists_tie : ∀ s ∈ rows, optimal.getD s [] ≠ []
  legal : ∀ s ∈ rows, ∀ i ∈ optimal.getD s [], ∃ r, m.row? s i = some r

theorem Reaches.mono {play play' : Nat → Option (Row α)} {rows rows' target : StateSet} {s : Nat}
    (h : Reaches play rows target s)
    (hr : ∀ t ∈ rows, t ∈ target ∨ t ∈ rows' ∧ play' t = play t) :
    Reaches play' rows' target s := by
  induction h with
  | here hs => exact .here hs
  | onward hs hplay ht _ ih =>
    rcases hr _ hs with htarget | ⟨ho, he⟩
    · exact .here htarget
    · exact .onward ho (he.trans hplay) ht ih

namespace Settling
variable {m : Mdp α} {optimal : Array (List Nat)} {progress : Nat → Bool} {rows target : StateSet}
  {p : Settling} {s i : Nat}

/-- Choice `i` of `s` may lead to a state of `u`. -/
def LeadsTo (m : Mdp α) (u : StateSet) (s i : Nat) : Prop :=
  ∃ r, m.row? s i = some r ∧ ∃ j ∈ r.successors.support, j ∈ u

theorem leads_iff {u : StateSet} : leads m u s i ↔ LeadsTo m u s i := by
  unfold leads LeadsTo
  cases h : m.row? s i <;> simp [mayEnter_iff]

/-- What holds of every stage: each state of `rows` plays one of its ties, and the settled states
get to the target without leaving them. -/
structure Sound (m : Mdp α) (optimal : Array (List Nat)) (rows target : StateSet) (p : Settling) :
    Prop where
  size : p.choices.size = optimal.size
  settled_over : p.settled.Over optimal.size
  base : target ⊆ p.settled
  inside : ∀ s ∈ p.settled, s ∈ target ∨ s ∈ rows
  tied : ∀ s ∈ rows, ∃ i ∈ optimal.getD s [], p.choices.getD s none = some i
  reaches : ∀ s ∈ p.settled, Reaches (played m p.choices) p.settled target s

theorem sound_start (h : Ties m rows target optimal) :
    Sound m optimal rows target ⟨optimal.map List.head?, target⟩ := by
  refine ⟨Array.size_map, h.target_over, fun _ => id, fun _ => .inl, fun s hs => ?_,
    fun s hs => .here hs⟩
  have hlt : s < optimal.size := h.rows_over.lt hs
  have hne := h.exists_tie s hs
  simp only [Array.getD_eq_getD_getElem?, Array.getElem?_map, Array.getElem?_eq_getElem hlt,
    Option.map_some, Option.getD_some] at hne ⊢
  exact ⟨_, List.head_mem hne, List.head?_eq_some_head hne⟩

theorem newcomer?_eq_some (h : Sound m optimal rows target p) (hs : s ∈ rows) {c : Option Nat}
    (hc : newcomer? m optimal progress p s = some c) :
    ∃ i ∈ optimal.getD s [], c = some i ∧ LeadsTo m p.settled s i := by
  simp only [newcomer?] at hc
  split_ifs at hc with hprogress hall
  · obtain ⟨i, hi, rfl⟩ := Option.map_eq_some_iff.mp hc
    exact ⟨i, List.mem_of_find?_eq_some hi, rfl, leads_iff.mp (List.find?_some hi)⟩
  · obtain ⟨i, hi, hplays⟩ := h.tied s hs
    rw [Bool.and_eq_true, List.all_eq_true] at hall
    exact ⟨i, hi, (Option.some.inj hc).symm.trans hplays, leads_iff.mp (hall.2 i hi)⟩

theorem newcomer?_eq_none (h : Ties m rows target optimal) (hs : s ∈ rows)
    (hc : newcomer? m optimal progress p s = none) :
    if progress s then ∀ i ∈ optimal.getD s [], ¬ LeadsTo m p.settled s i
    else ∃ i ∈ optimal.getD s [], ¬ LeadsTo m p.settled s i := by
  simp only [newcomer?] at hc
  split_ifs at hc ⊢ with hprogress hall
  · rw [Option.map_eq_none_iff, List.find?_eq_none] at hc
    exact fun i hi hleads => hc i hi (leads_iff.mpr hleads)
  · simp only [Bool.and_eq_true, not_and, List.all_eq_true, not_forall, Bool.not_eq_true',
      List.isEmpty_eq_false_iff] at hall
    obtain ⟨i, hi, hno⟩ := hall (h.exists_tie s hs)
    exact ⟨i, hi, fun hleads => hno (leads_iff.mpr hleads)⟩

theorem mem_layer {n : Nat} (h : rows.Over n) {e : Nat × Option Nat} :
    e ∈ layer m optimal progress rows.members p ↔
      e.1 ∈ rows ∧ e.1 ∉ p.settled ∧ newcomer? m optimal progress p e.1 = some e.2 := by
  obtain ⟨s, c⟩ := e
  simp only [layer, List.mem_filterMap, List.mem_filter, h.mem_members,
    Option.map_eq_some_iff, Prod.mk.injEq, Bool.not_eq_true', ← Bool.not_eq_true,
    ← StateSet.mem_def]
  constructor
  · rintro ⟨t, ⟨ht, hn⟩, c', hc, rfl, rfl⟩
    exact ⟨ht, hn, hc⟩
  · rintro ⟨hs, hn, hc⟩
    exact ⟨s, ⟨hs, hn⟩, c, hc, rfl, rfl⟩

/-- Entering a list of states that agree on what they play adds them to the settled ones, and
changes nothing else. -/
theorem enter_spec {n : Nat} {f : Nat → Option Nat} {l : List (Nat × Option Nat)}
    (hl : ∀ e ∈ l, e.1 < n ∧ e.2 = f e.1) (hsize : p.choices.size = n) (hover : p.settled.Over n) :
    (p.enter l).choices.size = n ∧ (p.enter l).settled.Over n ∧
      (∀ s, (p.enter l).choices.getD s none =
        if s ∈ l.map Prod.fst then f s else p.choices.getD s none) ∧
      ∀ s, s ∈ (p.enter l).settled ↔ s ∈ l.map Prod.fst ∨ s ∈ p.settled := by
  induction l generalizing p with
  | nil => exact ⟨hsize, hover, by simp [enter], by simp [enter]⟩
  | cons e l ih =>
    obtain ⟨hlt, hf⟩ := hl e List.mem_cons_self
    obtain ⟨hsize', hover', hplays, hmem⟩ := ih (p := ⟨p.choices.setIfInBounds e.1 e.2,
      p.settled.insert e.1⟩) (fun e he => hl e (List.mem_cons_of_mem _ he))
      (Array.size_setIfInBounds.trans hsize) (hover.insert e.1)
    refine ⟨hsize', hover', fun s => (hplays s).trans ?_, fun s => (hmem s).trans ?_⟩
    · by_cases hs : s ∈ l.map Prod.fst
      · simp [hs]
      · by_cases he : s = e.1
        · subst he
          simp [hs, Array.getD_eq_getD_getElem?, hsize, hlt, hf]
        · simp [hs, he, Array.getD_eq_getD_getElem?, Array.getElem?_setIfInBounds_ne (Ne.symm he)]
    · rw [hover.mem_insert hlt, List.map_cons, List.mem_cons]
      exact or_left_comm.trans or_assoc.symm

/-- A layer makes its states play what they settle with, and settles just these. -/
theorem enter_layer_spec {n : Nat} (m : Mdp α) (optimal : Array (List Nat))
    (progress : Nat → Bool) (hrows : rows.Over n) (hsize : p.choices.size = n)
    (hover : p.settled.Over n) :
    let l := layer m optimal progress rows.members p
    (p.enter l).choices.size = n ∧ (p.enter l).settled.Over n ∧
      (∀ s, (p.enter l).choices.getD s none = if s ∈ l.map Prod.fst then
        (newcomer? m optimal progress p s).getD none else p.choices.getD s none) ∧
      ∀ s, s ∈ (p.enter l).settled ↔ s ∈ l.map Prod.fst ∨ s ∈ p.settled := by
  refine enter_spec (f := fun s => (newcomer? m optimal progress p s).getD none)
    (fun e he => ?_) hsize hover
  obtain ⟨hs, -, hc⟩ := (mem_layer hrows).mp he
  exact ⟨hrows.lt hs, by rw [hc, Option.getD_some]⟩

/-- A layer is sound: what was settled keeps its path, and a newcomer steps onto it. -/
theorem Sound.enter_layer (progress : Nat → Bool) (h : Sound m optimal rows target p)
    (ht : Ties m rows target optimal) :
    Sound m optimal rows target (p.enter (layer m optimal progress rows.members p)) := by
  obtain ⟨hsize, hover, hplays, hmem⟩ :=
    enter_layer_spec m optimal progress ht.rows_over h.size h.settled_over
  set l := layer m optimal progress rows.members p
  have hnew : ∀ s, s ∈ l.map Prod.fst → s ∈ rows ∧ s ∉ p.settled ∧
      ∃ i ∈ optimal.getD s [], LeadsTo m p.settled s i ∧
        (p.enter l).choices.getD s none = some i := by
    intro s hs
    obtain ⟨e, he, rfl⟩ := List.mem_map.mp hs
    obtain ⟨ho, hn, hc⟩ := (mem_layer ht.rows_over).mp he
    obtain ⟨i, hi, hci, hleads⟩ := newcomer?_eq_some h ho hc
    exact ⟨ho, hn, i, hi, hleads, by rw [hplays, if_pos hs, hc, Option.getD_some, hci]⟩
  have hold : ∀ s ∈ p.settled,
      Reaches (played m (p.enter l).choices) (p.enter l).settled target s := by
    refine fun s hs => (h.reaches s hs).mono fun t ht' => .inr ⟨(hmem t).mpr (.inr ht'), ?_⟩
    rw [played, hplays, if_neg fun hin => (hnew t hin).2.1 ht', played]
  refine ⟨hsize, hover, fun s hs => (hmem s).mpr (.inr (h.base s hs)), fun s hs => ?_,
    fun s hs => ?_, fun s hs => ?_⟩
  · rcases (hmem s).mp hs with hin | hs
    · exact .inr (hnew s hin).1
    · exact h.inside s hs
  · by_cases hin : s ∈ l.map Prod.fst
    · obtain ⟨-, -, i, hi, -, hplays⟩ := hnew s hin
      exact ⟨i, hi, hplays⟩
    · rw [hplays, if_neg hin]
      exact h.tied s hs
  · rcases (hmem s).mp hs with hin | hs'
    · obtain ⟨-, -, i, -, ⟨r, hr, j, hj, hsettled⟩, hplays⟩ := hnew s hin
      exact .onward hs (by rw [played, hplays, Option.bind_some, hr]) hj (hold j hsettled)
    · exact hold s hs'

theorem filter_length_lt {l : List Nat} {f g : Nat → Bool} (hfg : ∀ a, g a → f a)
    {a : Nat} (ha : a ∈ l) (hf : f a) (hg : ¬ g a) : (l.filter g).length < (l.filter f).length := by
  have hsub : l.filter g = (l.filter f).filter g := by
    rw [List.filter_filter]
    exact List.filter_congr fun b _ => by cases h : g b <;> simp [h, hfg]
  rw [hsub, List.length_filter_lt_length_iff_exists]
  exact ⟨a, List.mem_filter.mpr ⟨ha, hf⟩, hg⟩

/-- There is fuel for all layers: each but the last settles a state. -/
theorem run_spec (progress : Nat → Bool) (ht : Ties m rows target optimal) (fuel : Nat)
    (h : Sound m optimal rows target p)
    (hfuel : (rows.members.filter fun s => !p.settled.contains s).length < fuel) :
    Sound m optimal rows target (run m optimal progress rows.members fuel p) ∧
      layer m optimal progress rows.members (run m optimal progress rows.members fuel p) = [] := by
  induction fuel generalizing p with
  | zero => exact absurd hfuel (Nat.not_lt_zero _)
  | succ fuel ih =>
    simp only [run]
    split_ifs with hempty
    · exact ⟨h, List.isEmpty_iff.mp hempty⟩
    refine ih (h.enter_layer progress ht) ?_
    obtain ⟨e, he⟩ := List.exists_mem_of_ne_nil _ (mt List.isEmpty_iff.mpr hempty)
    obtain ⟨hs, hn, -⟩ := (mem_layer ht.rows_over).mp he
    obtain ⟨-, -, -, hmem⟩ :=
      enter_layer_spec m optimal progress ht.rows_over h.size h.settled_over
    have hfewer := filter_length_lt (l := rows.members) (a := e.1)
      (f := fun s => !p.settled.contains s)
      (g := fun s => !(p.enter (layer m optimal progress rows.members p)).settled.contains s)
      (fun a ha => ?_) (ht.rows_over.mem_members.mpr hs) ?_ ?_
    · omega
    · simp only [Bool.not_eq_true', ← Bool.not_eq_true, ← StateSet.mem_def, hmem] at ha ⊢
      exact fun hold => ha (.inr hold)
    · simpa only [Bool.not_eq_true', ← Bool.not_eq_true, ← StateSet.mem_def] using hn
    · simp only [Bool.not_eq_true', ← Bool.not_eq_true, ← StateSet.mem_def, hmem, not_not]
      exact .inl (List.mem_map_of_mem he)

end Settling

section Extraction
variable {m : Mdp α} {optimal : Array (List Nat)} {rows target : StateSet}

/-- Every state plays one of its ties. Some of the states settle: they get to the target. Of the
others a progress state has no tie that leads to a settled state, and any other state has some tie
that does not. -/
theorem settle_spec (h : Ties m rows target optimal) (progress : Nat → Bool) :
    ∃ settled : StateSet, target ⊆ settled ∧
      (∀ s ∈ settled, Reaches (played m (settle m optimal progress rows target).choices)
        rows target s) ∧
      (∀ s ∈ rows, ∃ i ∈ optimal.getD s [],
        (settle m optimal progress rows target).choices.getD s none = some i) ∧
      ∀ s ∈ rows, s ∉ settled →
        if progress s then ∀ i ∈ optimal.getD s [], ¬ Settling.LeadsTo m settled s i
        else ∃ i ∈ optimal.getD s [], ¬ Settling.LeadsTo m settled s i := by
  obtain ⟨hsound, hlast⟩ := Settling.run_spec progress h (rows.members.length + 1)
    (Settling.sound_start h) (Nat.lt_succ_of_le (List.length_filter_le _ _))
  refine ⟨_, hsound.base, fun s hs => (hsound.reaches s hs).mono fun t ht => ?_, hsound.tied,
    fun s hs hn => ?_⟩
  · exact (hsound.inside t ht).imp_right fun ho => ⟨ho, rfl⟩
  · refine Settling.newcomer?_eq_none h hs (Option.eq_none_iff_forall_ne_some.mpr fun c hc => ?_)
    exact List.not_mem_nil (hlast ▸ (Settling.mem_layer h.rows_over (e := (s, c))).mpr ⟨hs, hn, hc⟩)

end Extraction
end StochasticGames.Analysis
