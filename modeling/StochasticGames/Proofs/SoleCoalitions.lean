import StochasticGames.Proofs.Changes
import StochasticGames.Proofs.ParetoPlays
import StochasticGames.Proofs.PassInvariants

/-! With one coalition there is nothing to agree on: equilibrium iteration makes the passes that
find out how probable the target is when everybody helps to reach it. -/
namespace StochasticGames.Analysis
open StochasticGames.Numeric StochasticGames.Arena

/-- With one coalition, to dominate is to be better for it. -/
theorem Profile.dominates_single {x y : EReal} (hexact : Scalar.close x y → x = y) :
    Profile.dominates [x] [y] ↔ y < x := by
  have hclose : Scalar.close x y ↔ x = y := ⟨hexact, fun he => he ▸ close_refl x⟩
  rw [Profile.dominates_iff_zip]
  simp only [List.zip_cons_cons, List.zip_nil_left, List.forall_mem_singleton, hclose, not_lt]
  constructor
  · rintro ⟨hne, he | hle⟩
    · exact absurd he hne
    · exact hle.lt_of_ne (Ne.symm hne)
  · exact fun hlt => ⟨hlt.ne', .inr hlt.le⟩

namespace Selector
section Single
variable (sel : Selector EReal) {owner : Option Nat} (secure : EReal) {xs : Array EReal} {i : Nat}
  (howner : ∀ k, owner = some k → k = 0)

/-- The choices of a state in a game with one coalition, by what they are worth to it. -/
def single (xs : Array EReal) : Array (Profile EReal) :=
  xs.map fun x => [x]

theorem size_single : (single xs).size = xs.size :=
  Array.size_map

theorem single_getD (hi : i < xs.size) : (single xs).getD i [] = [xs[i]] := by
  simp [single, hi]

theorem own_single : (List.range (single xs).size).map (fun j => ((single xs).getD j []).getD 0 0) =
    xs.toList := by
  refine List.ext_getElem (by simp [size_single]) fun j hj hj' => ?_
  rw [List.getElem_map, List.getElem_range, single_getD (by simpa using hj')]
  simp

include howner

/-- The best choice for the coalition is admitted whoever owns the state: it grants what can be
secured if any choice does. -/
theorem mem_candidates_of_best (hi : i < xs.size) (hbest : ∀ x ∈ xs, x ≤ xs[i]) :
    i ∈ sel.candidates owner secure (single xs) := by
  have hrange : i ∈ List.range (single xs).size := List.mem_range.mpr (size_single ▸ hi)
  unfold candidates
  dsimp only
  split
  · exact hrange
  · rename_i k
    obtain rfl := howner k rfl
    rw [own_single]
    have htop : xs[i] = Profile.largest xs.toList := by
      have hmem : xs[i] ∈ xs.toList := Array.mem_toList_iff.mpr (Array.getElem_mem hi)
      exact (Profile.le_largest hmem).antisymm
        (hbest _ (Array.mem_toList_iff.mp (Profile.largest_mem (List.ne_nil_of_mem hmem))))
    have hnash : i ∈ (List.range (single xs).size).filter fun j =>
        Scalar.close (((single xs).getD j []).getD 0 0) (Profile.largest xs.toList) := by
      refine List.mem_filter.mpr ⟨hrange, ?_⟩
      rw [single_getD hi, ← htop]
      exact close_refl _
    split
    · exact hnash
    · split_ifs with hempty
      · exact hnash
      · obtain ⟨j, hj⟩ := List.exists_mem_of_ne_nil _ fun hnil => hempty (List.isEmpty_iff.mpr hnil)
        obtain ⟨hj, hgrants⟩ := List.mem_filter.mp hj
        have hj := size_single ▸ List.mem_range.mp hj
        rw [single_getD hj] at hgrants
        refine List.mem_filter.mpr ⟨hrange, atMost_iff.mpr ?_⟩
        rw [single_getD hi]
        exact (atMost_iff.mp hgrants).trans
          (add_le_add_left (hbest _ (Array.getElem_mem hj)) sel.slack)

variable (hne : 0 < xs.size) (hexact : ∀ x ∈ xs, ∀ y ∈ xs, Scalar.close x y → x = y)
include hne hexact

/-- What is eligible is best for the coalition. -/
theorem eligible_single (hi : i ∈ sel.eligible owner secure (single xs)) :
    ∃ h : i < xs.size, xs[i] = best .max xs.toList := by
  have hlt := size_single ▸ lt_of_mem_eligible hi
  obtain ⟨hmem, hbest⟩ := best_spec .max (l := xs.toList) (List.ne_nil_of_length_pos hne)
  obtain ⟨j, hj, he⟩ := Array.getElem_of_mem (Array.mem_toList_iff.mp hmem)
  have hle : ∀ x ∈ xs, x ≤ xs[j] := fun x hx => he ▸ hbest x (Array.mem_toList_iff.mpr hx)
  have hadmitted := mem_candidates_of_best sel secure howner hj hle
  have hund : undominated (sel.candidates owner secure (single xs)) (single xs) ≠ [] := by
    refine List.ne_nil_of_mem (mem_undominated.mpr ⟨hadmitted, fun k hk => ?_⟩)
    have hk := size_single ▸ lt_of_mem_candidates hk
    rw [single_getD hk, single_getD hj, Profile.dominates_single
      (hexact _ (Array.getElem_mem hk) _ (Array.getElem_mem hj))]
    exact not_lt.mpr (hle _ (Array.getElem_mem hk))
  have hnot := not_dominates_eligible hund hi hadmitted
  rw [single_getD hlt, single_getD hj, Profile.dominates_single
    (hexact _ (Array.getElem_mem hj) _ (Array.getElem_mem hlt)), not_lt] at hnot
  exact ⟨hlt, (hle _ (Array.getElem_mem hlt)).antisymm hnot |>.trans he⟩

/-- Whatever is looked for, the best choice for the coalition is selected. -/
theorem select?_single : ∃ choice,
    sel.select? owner secure (single xs) = some (choice, [best .max xs.toList]) := by
  have hsize : 0 < (single xs).size := size_single ▸ hne
  obtain ⟨⟨choice, p⟩, hselect, hplay⟩ := select?_mem sel owner secure hsize
  refine ⟨choice, hselect.trans ?_⟩
  obtain ⟨i, hi, he⟩ | ⟨-, i, j, hij, q, hq, -⟩ := mem_plays.mp hplay
  · obtain ⟨hlt, hbest⟩ := eligible_single sel secure howner hne hexact hi
    obtain ⟨-, rfl⟩ := Prod.mk.inj he
    rw [single_getD hlt, hbest]
  · -- a single payoff has no gap to close
    obtain ⟨hlt, -⟩ := eligible_single sel secure howner hne hexact (mem_of_mem_pairs hij).1
    rw [single_getD hlt, Profile.fairestMixture?_eq_none (by simp)] at hq
    cases hq

end Single
end Selector

section Writing
variable {α : Type} [Scalar α] {m : Mdp α} {q : Quantity} {owner : Nat → MinMax} {rows : StateSet}
  {n : Nat} {v : Array α}

/-- What a pass over `v` reads that has written `w` so far. -/
def readOf (method : IterMethod) (v w : Array α) : Array α :=
  match method with
  | .jacobi => v
  | .gaussSeidel => w

/-- Writes the best worths of the listed states one after the other, as a pass over `v` does. -/
def writeBest (m : Mdp α) (method : IterMethod) (q : Quantity) (owner : Nat → MinMax)
    (v : Array α) (l : List Nat) : Array α :=
  l.foldl (fun w s =>
    w.setIfInBounds s (m.normalisedBest q (owner s) s (lookup (readOf method v w)))) v

theorem writeBest_concat (method : IterMethod) (l : List Nat) (s : Nat) :
    writeBest m method q owner v (l ++ [s]) =
      (writeBest m method q owner v l).setIfInBounds s (m.normalisedBest q (owner s) s
        (lookup (readOf method v (writeBest m method q owner v l)))) :=
  List.foldl_append

/-- A pass is made of the rows alone. -/
theorem pass_eq_writeBest (hrows : rows.Over n) (hv : v.size = n) (method : IterMethod) :
    pass m method q owner rows v = writeBest m method q owner v rows.members := by
  subst hv
  cases method with
  | jacobi =>
    refine Eq.trans ?_ (foldl_setIfInBounds (fun s => m.normalisedBest q (owner s) s (lookup v))
      rows.members v).symm
    simp only [pass, Mdp.jacobiPass, RowFilter.includes, ← StateSet.mem_def, hrows.mem_members]
  | gaussSeidel =>
    rw [writeBest, hrows.members_eq, List.foldl_filter]
    rfl

theorem size_pass (hrows : rows.Over n) (hv : v.size = n) (method : IterMethod) :
    (pass m method q owner rows v).size = n :=
  (lookup_pass hrows hv method).1

end Writing

namespace EquilibriumProblem

/-- Under the given payoffs two choices of state `s` tie for a coalition only where they are worth
the same to it. -/
def TiesExactAt (e : EquilibriumProblem EReal) (payoffs : Array (Array EReal)) (s : Nat) : Prop :=
  ∀ a ∈ e.mdp.choices s, ∀ b ∈ e.mdp.choices s, ∀ k,
    Scalar.close ((e.profile payoffs s a).getD k 0) ((e.profile payoffs s b).getD k 0) →
      (e.profile payoffs s a).getD k 0 = (e.profile payoffs s b).getD k 0

/-- A problem with one target and nobody who wants to get anywhere else. -/
structure Sole (e : EquilibriumProblem EReal) (t : StateSet) : Prop where
  targets : e.targets = [t]
  rows_over : e.rows.Over e.mdp.numStates
  outside : ∀ s ∈ e.rows, s ∉ t
  has_choice : ∀ s ∈ e.rows, 0 < (e.mdp.choices s).size
  owner : ∀ s k, e.owners.getD s none = some k → k = 0

namespace Sole
variable {e : EquilibriumProblem EReal} {t : StateSet} (h : e.Sole t) {s : Nat} {v : Array EReal}
include h

theorem profile_eq (hs : s ∈ e.rows) (v : Array EReal) (r : Row EReal) :
    e.profile #[v] s r = [r.normalised .probability s (lookup v)] := by
  rw [profile, h.targets]
  exact congrArg (fun x => [x]) (if_neg (h.outside s hs))

/-- What is played is worth what the best choice is worth when everybody helps. -/
theorem play?_eq (hs : s ∈ e.rows) (hexact : e.TiesExactAt #[v] s) : ∃ choice,
    e.play? #[v] s = some (choice, [e.mdp.normalisedBest .probability .max s (lookup v)]) := by
  have hprofiles : e.profiles #[v] s =
      Selector.single ((e.mdp.choices s).map (Row.normalised .probability s (lookup v))) := by
    rw [Selector.single, Array.map_map]
    exact Array.map_congr_left fun r _ => h.profile_eq hs v r
  have hties : ∀ x ∈ (e.mdp.choices s).map (Row.normalised .probability s (lookup v)),
      ∀ y ∈ (e.mdp.choices s).map (Row.normalised .probability s (lookup v)),
        Scalar.close x y → x = y := by
    intro x hx y hy
    obtain ⟨a, ha, rfl⟩ := Array.mem_map.mp hx
    obtain ⟨b, hb, rfl⟩ := Array.mem_map.mp hy
    have hab := hexact a ha b hb 0
    rwa [h.profile_eq hs, h.profile_eq hs] at hab
  obtain ⟨choice, hselect⟩ := Selector.select?_single e.selector (e.secureAt s)
    (h.owner s) (by simpa using h.has_choice s hs) hties
  rw [Array.toList_map] at hselect
  refine ⟨choice, ?_⟩
  rw [play?, hprofiles]
  exact hselect

theorem visit_eq {method : IterMethod} {w : Array EReal}
    {c c' : Array (Option (EquilibriumChoice EReal))} (hs : s ∈ e.rows)
    (hexact : e.TiesExactAt (source method ⟨#[v], c⟩ ⟨#[w], c'⟩).payoffs s) : ∃ c'',
      e.visit? method ⟨#[v], c⟩ ⟨#[w], c'⟩ s =
        some ⟨#[w.setIfInBounds s (e.mdp.normalisedBest .probability .max s
          (lookup (readOf method v w)))], c''⟩ := by
  have hread : (source method ⟨#[v], c⟩ ⟨#[w], c'⟩).payoffs = #[readOf method v w] := by
    cases method <;> rfl
  rw [hread] at hexact
  obtain ⟨choice, hplay⟩ := h.play?_eq hs hexact
  have hvisit : e.visit? method ⟨#[v], c⟩ ⟨#[w], c'⟩ s =
      (e.play? #[readOf method v w] s).bind fun play =>
        some (record ⟨#[w], c'⟩ s play.1 play.2) := by
    cases method <;> rfl
  rw [hvisit, hplay]
  exact ⟨_, rfl⟩

/-- A pass makes of the payoffs of the coalition what a pass for the probability of the target
makes of them. -/
theorem pass_eq {method : IterMethod} {n : Nat} {c : Array (Option (EquilibriumChoice EReal))}
    (hn : e.after? method n = some ⟨#[v], c⟩) (hv : v.size = e.mdp.numStates)
    (hexact : ∀ read s, e.ReadsIn method n read s → e.TiesExactAt read.payoffs s) : ∃ c',
      e.pass? method ⟨#[v], c⟩ =
        some ⟨#[pass e.mdp method .probability (fun _ => .max) e.rows v], c'⟩ := by
  rw [pass_eq_writeBest h.rows_over hv]
  suffices hwrite : ∀ done later, e.rows.members = done ++ later → ∃ c',
      done.foldlM (e.visit? method ⟨#[v], c⟩) ⟨#[v], c⟩ =
        some ⟨#[writeBest e.mdp method .probability (fun _ => .max) v done], c'⟩ from
    hwrite _ [] (List.append_nil _).symm
  intro done
  -- from the last row backwards, as its visit reads what all earlier ones wrote
  induction done using List.reverseRecOn with
  | nil => exact fun _ _ => ⟨c, rfl⟩
  | append_singleton done s ih =>
    intro later hmembers
    rw [List.append_assoc, List.singleton_append] at hmembers
    obtain ⟨c', hdone⟩ := ih (s :: later) hmembers
    have hs : s ∈ e.rows := h.rows_over.mem_members.mp (by simp [hmembers])
    obtain ⟨c'', hvisit⟩ := h.visit_eq hs
      (hexact _ s ⟨_, done, later, _, hn, hmembers, hdone, rfl⟩)
    refine ⟨c'', ?_⟩
    rw [List.foldlM_append, hdone, writeBest_concat]
    simp [hvisit]

omit h in
theorem largestChange_eq (measure : DiffMeasure) (v w : Array EReal)
    (c c' : Array (Option (EquilibriumChoice EReal))) :
    largestChange measure ⟨#[v], c⟩ ⟨#[w], c'⟩ = Mdp.largestChange measure v w := by
  have hlarger : Scalar.larger 0 (Mdp.largestChange measure v w) =
      Mdp.largestChange measure v w := by
    rw [larger_eq, max_eq_right (largestChange_nonneg measure v w)]
  simpa [largestChange] using hlarger

/-- Both runs make the same passes. -/
theorem run_eq {config : SolverConfig EReal} (hopen : e.rows.isEmpty = false)
    (hexact : ∀ n < (e.run config e.start).iterations, ∀ read s,
      e.ReadsIn config.method n read s → e.TiesExactAt read.payoffs s) :
    let run := e.run config e.start
    let run' := iterate e.mdp .probability (fun _ => .max) e.rows
      { config with precomputation := false } (indicator e.mdp.numStates 1 0 t)
    (∃ c, run.state = some ⟨#[run'.state], c⟩) ∧ run.iterations = run'.iterations ∧
      run.termination = run'.termination := by
  have hstart : e.start = ⟨#[indicator e.mdp.numStates 1 0 t],
      Array.replicate e.mdp.numStates none⟩ := by
    rw [start, h.targets]
    rfl
  rw [run_eq_drive] at hexact ⊢
  rw [iterate_eq, if_neg (by simp [hopen])]
  let R (x : Option (EquilibriumState EReal)) (v : Array EReal) : Prop :=
    ∃ c, x = some ⟨#[v], c⟩ ∧ v.size = e.mdp.numStates
  let next (v : Array EReal) : Array EReal :=
    pass e.mdp config.method .probability (fun _ => .max) e.rows v
  have hR : R (some e.start) (indicator e.mdp.numStates 1 0 t) :=
    ⟨_, congrArg some hstart, by simp [indicator]⟩
  have hstep : ∀ k, 0 + k < (drive config (e.turn config) config.maxIters 0
      (some e.start)).iterations → ∀ v, R ((fun x => (e.turn config x).1)^[k] (some e.start)) v →
        R (e.turn config ((fun x => (e.turn config x).1)^[k] (some e.start))).1 (next v) ∧
          (e.turn config ((fun x => (e.turn config x).1)^[k] (some e.start))).2 =
            Mdp.largestChange config.termination v (next v) := by
    intro k hk v
    rw [iterate_turn]
    rintro ⟨c, hk', hv⟩
    obtain ⟨c', hpass⟩ := h.pass_eq hk' hv (hexact k (by omega))
    rw [hk', turn, hpass]
    exact ⟨⟨c', rfl, size_pass h.rows_over hv config.method⟩, largestChange_eq ..⟩
  obtain ⟨⟨c, hstate, -⟩, hiter, hterm⟩ := drive_related config
    { config with precomputation := false } R rfl rfl hR
    (g := fun v => (next v, Mdp.largestChange config.termination v (next v))) hstep
  exact ⟨⟨c, hstate⟩, hiter, hterm⟩

end Sole
end EquilibriumProblem

section Solves
variable {g : MultiplayerGame EReal} {t : StateSet} (members : List Nat) (kind : EquilibriumType)
  (criterion : EquilibriumCriterion) (config : SolverConfig EReal)

theorem openStates_eq_unwonStates {n : Nat} (ht : t.Over n) :
    openStates n none t = unwonStates n [t] := by
  have hover := List.forall_mem_singleton.mpr ht
  refine (over_openStates (by simp)).ext (over_unwonStates hover) fun s => ?_
  rw [mem_openStates ht (by simp), mem_unwonStates hover]
  simp

theorem unknown_eq_unwonStates {n : Nat} (ht : t.Over n) :
    (t.union (StateSet.empty n)).compl = unwonStates n [t] := by
  have hempty := StateSet.over_empty n
  have hover := List.forall_mem_singleton.mpr ht
  refine (ht.union hempty).compl.ext (over_unwonStates hover) fun s => ?_
  rw [(ht.union hempty).mem_compl, ht.mem_union hempty, mem_unwonStates hover]
  simp [StateSet.not_mem_empty]

/-- Both questions are refused for the same reasons. -/
theorem sole_refused (g : MultiplayerGame EReal) (ht : t.Over t.bound) :
    (∃ err, equilibriumProblem g [members] [t] kind criterion config = .error err ∧
      reachProb g.mdp none t (.everywhere .max) { config with precomputation := false } =
        .error err) ∨
    config.validate = .ok () ∧ t.Over g.mdp.numStates ∧
      ∀ s ∈ openStates g.mdp.numStates none t, 0 < (g.mdp.choices s).size := by
  have hsettings : { config with precomputation := false }.validate = config.validate := rfl
  have hcount : ([members].isEmpty || [members].length != [t].length) = false := rfl
  cases hc : config.validate with
  | error err =>
    refine .inl ⟨err, ?_, ?_⟩
    · rw [equilibriumProblem, hc]
      rfl
    · rw [reachProb, hsettings, hc]
      rfl
  | ok =>
    cases hsize : checkSize (α := EReal) g.mdp.numStates t with
    | error err =>
      refine .inl ⟨err, ?_, ?_⟩
      · have hsizes : [t].forM (checkSize (α := EReal) g.mdp.numStates) = .error err := by
          rw [List.forM, hsize]
          rfl
        simp only [equilibriumProblem, hc, hcount, hsizes]
        rfl
      · simp only [reachProb, hsettings, hc, hsize]
        rfl
    | ok =>
      have hover := over_of_checkSize ht hsize
      cases hchoices : checkChoices g.mdp (openStates g.mdp.numStates none t) with
      | error err =>
        have hdisjoint := checkDisjoint_ok (List.pairwise_singleton List.Disjoint members)
        have hunwon := openStates_eq_unwonStates hover ▸ hchoices
        dsimp only [unwonStates] at hunwon
        refine .inl ⟨err, ?_, ?_⟩
        · have hsizes : [t].forM (checkSize (α := EReal) g.mdp.numStates) = .ok () :=
            forM_ok (List.forall_mem_singleton.mpr hsize)
          simp only [equilibriumProblem, hc, hcount, hsizes, hdisjoint, hunwon]
          rfl
        · simp only [reachProb, hsettings, hc, hsize, hchoices]
          rfl
      | ok =>
        exact .inr ⟨rfl, hover, has_choice_of_checkChoices (over_openStates (by simp)) hchoices⟩

/-- The question for one coalition, if it is not refused. -/
theorem exists_sole {config : SolverConfig EReal} (howned : g.owners.size = g.mdp.numStates)
    (ht : t.Over g.mdp.numStates)
    (hchoice : ∀ s ∈ openStates g.mdp.numStates none t, 0 < (g.mdp.choices s).size)
    (hwithin : ∀ s ∈ openStates g.mdp.numStates none t, ∀ r ∈ g.mdp.choices s,
      ∀ j ∈ r.successors.support, j < g.mdp.numStates)
    (hc : config.validate = .ok ()) : ∃ secure,
      let e := gameProblem g [members] [t] ⟨kind, criterion, config.epsilon⟩ secure
      equilibriumProblem g [members] [t] kind criterion config = .ok e ∧ e.Sole t := by
  have hover := List.forall_mem_singleton.mpr ht
  have hrows := openStates_eq_unwonStates ht
  obtain ⟨secure, hsecure, hnash⟩ : ∃ secure,
      (kind = .correlated → secureValues g [members] [t] config = .ok secure) ∧
        (kind = .nash → secure = #[]) := by
    cases kind with
    | nash => exact ⟨#[], nofun, fun _ => rfl⟩
    | correlated =>
      refine ⟨_, fun _ => secureValues_eq_of (List.forall_mem_singleton.mpr fun members =>
        wellPosed_securing howned ht hchoice members) (List.forall_mem_singleton.mpr hwithin) hc,
        nofun⟩
  refine ⟨secure, equilibriumProblem_eq hc (List.cons_ne_nil _ _) rfl
    (List.pairwise_singleton _ _) hover (hrows ▸ hchoice) (hrows ▸ hwithin) hsecure hnash,
    rfl, over_unwonStates hover, fun s hs => ?_, fun s hs => hchoice s (hrows ▸ hs),
    fun s k hk => ?_⟩
  · obtain ⟨-, t', ht', hout⟩ := (mem_unwonStates hover s).mp hs
    exact List.mem_singleton.mp ht' ▸ hout
  · rw [gameProblem, Array.getD_eq_getD_getElem?, Array.getElem?_map] at hk
    cases ho : g.owners[s]? with
    | none => simp [ho] at hk
    | some o =>
      rw [ho, Option.map_some, Option.getD_some] at hk
      exact Nat.lt_one_iff.mp (List.findIdx?_eq_some_iff_findIdx_eq.mp hk).1

/-- Without precomputation, everybody helping to reach the target leaves it to the passes. -/
theorem reachRun_everybody (m : Mdp EReal) (ht : t.Over m.numStates) :
    reachRun m none t (.everywhere .max) { config with precomputation := false } =
      iterate m .probability (fun _ => .max) (unwonStates m.numStates [t])
        { config with precomputation := false } (indicator m.numStates 1 0 t) := by
  rw [← unknown_eq_unwonStates ht]
  rfl

/-- An equilibrium for one coalition is found as the probability of its target is when everybody
helps to reach it: both solves make the same passes, end for the same reason, and find the same
values, or are refused for the same reason. That is so whoever belongs to the coalition, whichever
equilibrium is asked for, and whatever the probabilities, as long as choices tie only where they are
worth the same. -/
theorem sole_coalition_reaches (howned : g.owners.size = g.mdp.numStates) (ht : t.Over t.bound)
    (hwithin : ∀ s ∈ openStates g.mdp.numStates none t, ∀ r ∈ g.mdp.choices s,
      ∀ j ∈ r.successors.support, j < g.mdp.numStates)
    (hopen : ∃ s < g.mdp.numStates, s ∉ t)
    (hexact : ∀ e, equilibriumProblem g [members] [t] kind criterion config = .ok e →
      ∀ n < (e.run config e.start).iterations, ∀ read s, e.ReadsIn config.method n read s →
        e.TiesExactAt read.payoffs s) :
    (solveEquilibrium g [members] [t] kind criterion config).map
        (fun r => (r.payoffs, r.iterations, r.termination)) =
      (reachProb g.mdp none t (.everywhere .max) { config with precomputation := false }).map
        (fun r => (#[r.values], r.iterations, r.termination)) ∧
    (config.validate = .ok () → t.bound = g.mdp.numStates →
      (∀ s ∈ openStates g.mdp.numStates none t, 0 < (g.mdp.choices s).size) →
        ∃ r, solveEquilibrium g [members] [t] kind criterion config = .ok r) := by
  have hsolved : config.validate = .ok () → t.Over g.mdp.numStates →
      (∀ s ∈ openStates g.mdp.numStates none t, 0 < (g.mdp.choices s).size) →
      let run := reachRun g.mdp none t (.everywhere .max) { config with precomputation := false }
      ∃ c, solveEquilibrium g [members] [t] kind criterion config =
        .ok ⟨#[run.state], c, run.iterations, run.termination⟩ := by
    intro hc hover hchoice
    obtain ⟨secure, he, hsole⟩ := exists_sole members kind criterion howned hover hchoice
      hwithin hc
    have hrows : (unwonStates g.mdp.numStates [t]).isEmpty = false := by
      obtain ⟨s, hs, hout⟩ := hopen
      have hmem := (mem_unwonStates (List.forall_mem_singleton.mpr hover) s).mpr
        ⟨hs, t, List.mem_singleton_self t, hout⟩
      exact Bool.eq_false_iff.mpr fun hempty => StateSet.not_mem_of_isEmpty hempty s hmem
    obtain ⟨⟨c, hstate⟩, hiter, hterm⟩ := hsole.run_eq hrows (hexact _ he)
    refine ⟨c, ?_⟩
    rw [solveEquilibrium_eq he hstate, hiter, hterm, reachRun_everybody config g.mdp hover]
    rfl
  refine ⟨?_, fun hc hbound hchoice => ?_⟩
  · obtain ⟨err, he, hreach⟩ | ⟨hc, hover, hchoice⟩ := sole_refused members kind criterion
      config g ht
    · rw [hreach, solveEquilibrium, he]
      rfl
    · obtain ⟨c, hsolve⟩ := hsolved hc hover hchoice
      have hposed : WellPosed g.mdp (.everywhere .max) none t :=
        ⟨hover, by simp, hchoice, fun _ _ => rfl⟩
      have hsettings : { config with precomputation := false }.validate = .ok () := hc
      rw [hsolve, hposed.reachProb_eq hwithin hsettings]
      rfl
  · obtain ⟨c, hsolve⟩ := hsolved hc (hbound ▸ ht) hchoice
    exact ⟨_, hsolve⟩

end Solves

section Gamble

/-- Every pass finds the coalition at the target in 1 and without hope in 2. -/
private theorem gamble_before (secure : Array (Array EReal)) {n : Nat}
    {before : EquilibriumState EReal}
    (hn : (gambleProblem secure).after? .gaussSeidel n = some before) :
    ∃ x c, before = ⟨#[#[x, 1, 0]], c⟩ := by
  cases n with
  | zero => exact ⟨0, _, (Option.some.inj hn).symm.trans (gamble_start secure)⟩
  | succ n =>
    have hfirst : (gambleProblem secure).pass? .gaussSeidel (gambleProblem secure).start =
        some gambleState := by
      rw [gamble_start]
      exact gamble_pass ..
    have hlater := EquilibriumProblem.after_settled hfirst (gamble_pass ..) n
    exact ⟨half, _, Option.some.inj (hn.symm.trans hlater)⟩

/-- Tossing the coin is never worth the same as giving up. -/
private theorem gamble_ties (secure : Array (Array EReal)) {n : Nat}
    {read : EquilibriumState EReal} {s : Nat} (h : (gambleProblem secure).Sole gambleTarget)
    (hreads : (gambleProblem secure).ReadsIn .gaussSeidel n read s) :
    (gambleProblem secure).TiesExactAt read.payoffs s := by
  obtain ⟨before, done, later, now, hn, hrows, hnow, rfl⟩ := hreads
  obtain ⟨x, c, rfl⟩ := gamble_before secure hn
  have hmembers : (gambleProblem secure).rows.members = [0, 2] := gamble_rows
  rw [hmembers] at hrows
  intro a ha b hb k hclose
  rcases List.cons_eq_append_iff.mp hrows with ⟨rfl, he⟩ | ⟨done, rfl, he⟩
  · obtain ⟨rfl, -⟩ := List.cons.inj he
    obtain rfl := Option.some.inj hnow
    have hs : 0 ∈ (gambleProblem secure).rows := h.rows_over.mem_members.mp (by simp [hmembers])
    have hworth : ∀ r ∈ (gambleProblem secure).mdp.choices 0,
        (gambleProblem secure).profile #[#[x, 1, 0]] 0 r = [half] ∨
          (gambleProblem secure).profile #[#[x, 1, 0]] 0 r = [0] := by
      intro r hr
      rw [h.profile_eq hs]
      rcases List.mem_pair.mp (Array.mem_toList_iff.mpr hr) with rfl | rfl
      · exact .inl (congrArg (fun y => [y]) (flip_normalised _ rfl rfl))
      · exact .inr (congrArg (fun y => [y]) (fare_probability (by decide) 0 _))
    dsimp only [EquilibriumProblem.source] at hclose ⊢
    cases k with
    | zero =>
      rcases hworth a ha with ha | ha <;> rcases hworth b hb with hb | hb <;>
        rw [ha, hb] at hclose ⊢
      · exact absurd hclose (by simp [half_apart.2])
      · exact absurd hclose (by simp [half_apart.1])
    | succ k =>
      rcases hworth a ha with ha | ha <;> rcases hworth b hb with hb | hb <;> rw [ha, hb] <;> rfl
  · obtain rfl : s = 2 := by
      rcases List.singleton_eq_append_iff.mp he with ⟨-, he⟩ | ⟨-, he⟩
      · exact (List.cons.inj he).1
      · cases he
    obtain rfl := List.mem_singleton.mp (Array.mem_toList_iff.mpr ha)
    obtain rfl := List.mem_singleton.mp (Array.mem_toList_iff.mpr hb)
    rfl

theorem gamble_helped : gamble.owners.size = gamble.mdp.numStates ∧
    gambleTarget.Over gambleTarget.bound ∧ (∃ s < gamble.mdp.numStates, s ∉ gambleTarget) ∧
    ∃ r r', solveEquilibrium gamble [[1]] [gambleTarget] .nash .social halfConfig = .ok r ∧
      reachProb gamble.mdp none gambleTarget (.everywhere .max)
        { halfConfig with precomputation := false } = .ok r' ∧
      r.payoffs = #[r'.values] ∧ r.iterations = r'.iterations := by
  have hover : gambleTarget.Over 3 := ⟨rfl, rfl, by decide⟩
  have hunwon := openStates_eq_unwonStates hover
  have hchoice : ∀ s ∈ openStates gamble.mdp.numStates none gambleTarget,
      0 < (gamble.mdp.choices s).size := fun s hs => gamble_game.has_choice s (hunwon ▸ hs)
  have hwithin : ∀ s ∈ openStates gamble.mdp.numStates none gambleTarget,
      ∀ r ∈ gamble.mdp.choices s, ∀ j ∈ r.successors.support, j < gamble.mdp.numStates :=
    fun s hs => gamble_game.within s (hunwon ▸ hs)
  have hopen : ∃ s < gamble.mdp.numStates, s ∉ gambleTarget := ⟨0, by decide, by decide⟩
  obtain ⟨secure, he, hsole⟩ := exists_sole [1] .nash .social (g := gamble) rfl hover hchoice
    hwithin halfConfig_valid
  obtain ⟨hsame, hsolved⟩ := sole_coalition_reaches [1] .nash .social halfConfig (g := gamble)
    rfl hover hwithin hopen fun e he' n _ read s hreads => by
      obtain rfl := Except.ok.inj (he.symm.trans he')
      exact gamble_ties secure hsole hreads
  obtain ⟨r, hr⟩ := hsolved halfConfig_valid rfl hchoice
  rw [hr] at hsame
  cases hreach : reachProb gamble.mdp none gambleTarget (.everywhere .max)
      { halfConfig with precomputation := false } with
  | error err =>
    rw [hreach] at hsame
    cases hsame
  | ok r' =>
    rw [hreach] at hsame
    obtain ⟨hpayoffs, hrest⟩ := Prod.mk.inj (Except.ok.inj hsame)
    exact ⟨rfl, hover, hopen, r, r', hr, rfl, hpayoffs, (Prod.mk.inj hrest).1⟩

end Gamble
end StochasticGames.Analysis
