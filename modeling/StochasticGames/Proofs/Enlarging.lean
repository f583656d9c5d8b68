import StochasticGames.Proofs.Convergence
import StochasticGames.Proofs.Queries

/-! More maximisers, a larger target and a larger set to pass through never hurt. -/
namespace StochasticGames.Arena
open StochasticGames.Numeric StochasticGames.Analysis

variable {α : Type}

/-- Probabilities that may be zero and sum to one. -/
structure Row.Lottery (weight : α → ℝ) (r : Row α) : Prop where
  nonneg : ∀ e ∈ r.successors.entries, 0 ≤ weight e.2
  total : (r.successors.entries.map fun e => weight e.2).sum = 1

namespace Row.Lottery
variable {weight : α → ℝ} {r : Row α} {v w : Nat → ℝ}

theorem expect_mono (h : r.Lottery weight) (hvw : v ≤ w) :
    r.expect weight v ≤ r.expect weight w :=
  Row.expect_mono h.nonneg fun j _ => hvw j

theorem expect_const (h : r.Lottery weight) (a : ℝ) : r.expect weight (fun _ => a) = a := by
  rw [Row.expect, List.sum_map_mul_right, h.total, one_mul]

end Row.Lottery

/-- The choice with its numbers read as reals. -/
noncomputable def Row.read (weight : α → ℝ) (r : Row α) : Row ℝ where
  successors := ⟨{
    entries := r.successors.entries.map fun e => (e.1, weight e.2)
    sorted := List.pairwise_map.mpr r.successors.map.sorted }⟩
  action := r.action
  reward := weight r.reward

theorem Row.support_read (weight : α → ℝ) (r : Row α) :
    (r.read weight).successors.support = r.successors.support := by
  simp only [Row.read, Transition.Distribution.support, Ascending.keys, List.map_map]
  rfl

theorem Row.Lottery.read {weight : α → ℝ} {r : Row α} (h : r.Lottery weight) :
    (r.read weight).Lottery id := by
  refine ⟨fun e he => ?_, ?_⟩
  · obtain ⟨e, hmem, rfl⟩ := List.mem_map.mp he
    exact h.nonneg e hmem
  · rw [← h.total]
    simp only [Row.read, Transition.Distribution.entries, List.map_map]
    rfl

namespace Mdp

/-- The game with its numbers read as reals. -/
noncomputable def read (weight : α → ℝ) (m : Mdp α) : Mdp ℝ where
  rows := m.rows.map fun choices => choices.map (Row.read weight)
  initial := m.initial

theorem numStates_read (weight : α → ℝ) (m : Mdp α) : (m.read weight).numStates = m.numStates :=
  Array.size_map

theorem choices_read (weight : α → ℝ) (m : Mdp α) (s : Nat) :
    (m.read weight).choices s = (m.choices s).map (Row.read weight) := by
  unfold choices
  simp only [read, Array.getD_eq_getD_getElem?, Array.getElem?_map]
  cases m.rows[s]? <;> simp

end Mdp
end StochasticGames.Arena

namespace StochasticGames.Analysis
open StochasticGames.Numeric StochasticGames.Arena

variable {α : Type}

/-- What is in the power of the maximisers in one state stays so when the state becomes theirs. -/
theorem Enforces.promote {d d' : MinMax} {choices : Array (Row α)} {P : Row α → Prop}
    (h : Enforces .max d choices P) (hd : d = .max → d' = .max) (hne : 0 < choices.size) :
    Enforces .max d' choices P := by
  cases d with
  | max => rwa [hd rfl]
  | min => exact .of_forall hne h

/-- A larger target and a larger set to pass through, which no set at all stands for as well. -/
structure Wider (n : Nat) (remain remain' : Option StateSet) (target target' : StateSet) :
    Prop where
  target_over : target.Over n
  target_over' : target'.Over n
  remain_over : ∀ r ∈ remain, r.Over n
  remain_over' : ∀ r ∈ remain', r.Over n
  target_subset : target ⊆ target'
  remain_subset : ∀ s < n, (∀ r ∈ remain, s ∈ r) → ∀ r ∈ remain', s ∈ r

/-- The same problem for more maximisers, a larger target and a larger set to pass through. -/
structure Enlarges (m : Mdp α) (dir dir' : PerState MinMax) (remain remain' : Option StateSet)
    (target target' : StateSet) : Prop extends Wider m.numStates remain remain' target target' where
  has_choice : ∀ s < m.numStates, s ∉ target → 0 < (m.choices s).size
  directed : ∀ s < m.numStates, s ∉ target → dir.covers s ∧ dir'.covers s
  maximisers : ∀ s < m.numStates, dir.get? s = some .max → dir'.get? s = some .max

section Graph
variable {m : Mdp α} {dir dir' : PerState MinMax} {remain remain' : Option StateSet}
  {target target' : StateSet} (h : Enlarges m dir dir' remain remain' target target')
include h

namespace Enlarges

theorem posed : WellPosed m dir remain target := by
  have hopen := fun s hs => (mem_openStates h.target_over h.remain_over (s := s)).mp hs
  refine ⟨h.target_over, h.remain_over, fun s hs => ?_, fun s hs => ?_⟩
  · exact h.has_choice s (hopen s hs).1 (hopen s hs).2.2
  · exact (h.directed s (hopen s hs).1 (hopen s hs).2.2).1

theorem posed' : WellPosed m dir' remain' target' := by
  have hopen := fun s hs => (mem_openStates (s := s) h.target_over' h.remain_over').mp hs
  have hout : ∀ s, s ∉ target' → s ∉ target := fun s hs ht => hs (h.target_subset s ht)
  refine ⟨h.target_over', h.remain_over', fun s hs => ?_, fun s hs => ?_⟩
  · exact h.has_choice s (hopen s hs).1 (hout s (hopen s hs).2.2)
  · exact (h.directed s (hopen s hs).1 (hout s (hopen s hs).2.2)).2

/-- An open state of the smaller problem is open or belongs to the target in the larger one. -/
theorem open_cases {s : Nat} (hs : s ∈ openStates m.numStates remain target) :
    s ∈ target' ∨ s ∈ openStates m.numStates remain' target' := by
  obtain ⟨hlt, hin, -⟩ := (mem_openStates h.target_over h.remain_over).mp hs
  by_cases ht : s ∈ target'
  · exact .inl ht
  · exact .inr ((mem_openStates h.target_over' h.remain_over').mpr
      ⟨hlt, h.remain_subset s hlt hin, ht⟩)

theorem owner {s : Nat} (hs : s ∈ openStates m.numStates remain target)
    (ho : dir.getD .max s = .max) : dir'.getD .max s = .max := by
  obtain ⟨d, hd⟩ := Option.isSome_iff_exists.mp (h.posed.directed s hs)
  have hmax : dir.get? s = some .max := by
    rw [PerState.getD, hd, Option.getD_some] at ho
    rw [hd, ho]
  rw [PerState.getD, h.maximisers s (h.posed.open_lt hs) hmax, Option.getD_some]

/-- By the ranks of the smaller attractor its states are in the larger one. -/
theorem attractor_subset {ok ok' : Row α → Prop} {u v : StateSet}
    (hu : Attractor m .max (dir.getD .max) (openStates m.numStates remain target) target ok u)
    (hv : Attractor m .max (dir'.getD .max) (openStates m.numStates remain' target') target' ok' v)
    (hok : ∀ r, ok r → ok' r) : u ⊆ v := by
  obtain ⟨rank, hrank⟩ := hu.ranked
  intro s hs
  induction hd : rank s using Nat.strong_induction_on generalizing s with
  | _ d ih =>
    rcases hrank s hs with ht | ⟨ho, he⟩
    · exact hv.base s (h.target_subset s ht)
    rcases h.open_cases ho with ht' | ho'
    · exact hv.base s ht'
    · refine hv.closed s ho' (.promote (he.mono fun r _ hr => ⟨hok r hr.1, ?_⟩) (h.owner ho)
        (h.posed'.has_choice s ho'))
      obtain ⟨j, hj, hju, hlt⟩ := hr.2
      exact ⟨j, hj, ih (rank j) (hd ▸ hlt) j hju rfl⟩

theorem never_subset : neverStates m dir' remain' target' ⊆ neverStates m dir remain target := by
  obtain ⟨u, huover, hu, hnever⟩ := h.posed.never_compl
  obtain ⟨v, hvover, hv, hnever'⟩ := h.posed'.never_compl
  intro s hs
  rw [hnever'] at hs
  obtain ⟨hlt, hout⟩ := hvover.mem_compl.mp hs
  rw [hnever]
  exact huover.mem_compl.mpr ⟨hlt, fun hsu => hout (h.attractor_subset hu hv (fun _ => id) s hsu)⟩

/-- The sure states of the smaller problem stay in every level of the larger one. -/
theorem sure_subset : sureStates m dir remain target ⊆ sureStates m dir' remain' target' := by
  obtain ⟨level, last, -, hstep, hover, hsure, hlast⟩ := h.posed.sure_levels
  obtain ⟨level', last', hzero', hstep', -, hsure', -⟩ := h.posed'.sure_levels
  have hfix := hstep last
  rw [hlast] at hfix
  have hbelow : ∀ i, level last ⊆ level' i := by
    intro i
    induction i with
    | zero => exact fun s hs => (hzero' s).mpr ((hover last).lt hs)
    | succ i ih => exact h.attractor_subset hfix (hstep' i) fun r hr j hj => ih j (hr j hj)
  rw [hsure, hsure']
  exact hbelow last'

end Enlarges
end Graph

section Bounded
variable {m : Mdp ℝ} {owner owner' : Nat → MinMax} {rows rows' target target' : StateSet} {k : Nat}

/-- States without a row keep what they start with. -/
theorem boundedValue_of_not_mem {s : Nat} (hs : s ∉ rows) :
    boundedValue m owner rows target k s = ones target s := by
  induction k with
  | zero => rfl
  | succ k ih =>
    rw [boundedValue, Function.iterate_succ_apply', plainStep, if_neg hs, ← ih, boundedValue]

theorem boundedValue_succ {s : Nat} (hs : s ∈ rows) :
    boundedValue m owner rows target (k + 1) s =
      m.plainBest .probability (owner s) s (boundedValue m owner rows target k) := by
  rw [boundedValue, Function.iterate_succ_apply', plainStep, if_pos hs, boundedValue]

section Lotteries
variable (hne : ∀ s ∈ rows, 0 < (m.choices s).size)
  (hrow : ∀ s ∈ rows, ∀ r ∈ m.choices s, r.Lottery id)
include hne hrow

theorem boundedValue_mem_Icc (k s : Nat) :
    boundedValue m owner rows target k s ∈ Set.Icc (0 : ℝ) 1 := by
  induction k generalizing s with
  | zero => exact ⟨ones_nonneg target s, ones_le_one target s⟩
  | succ k ih =>
    by_cases hs : s ∈ rows
    · rw [boundedValue_succ hs]
      refine ⟨(Mdp.le_plainBest_iff (hne s hs)).mpr (.of_forall (hne s hs) fun r hr => ?_),
        (Mdp.plainBest_le_iff (hne s hs)).mpr (.of_forall (hne s hs) fun r hr => ?_)⟩
      · exact ((hrow s hs r hr).expect_const 0).symm.trans_le
          ((hrow s hs r hr).expect_mono fun j => (ih j).1)
      · exact ((hrow s hs r hr).expect_mono fun j => (ih j).2).trans_eq
          ((hrow s hs r hr).expect_const 1)
    · rw [boundedValue_of_not_mem hs]
      exact ⟨ones_nonneg target s, ones_le_one target s⟩

theorem boundedValue_le_of_enlarged (hne' : ∀ s ∈ rows', 0 < (m.choices s).size)
    (hrow' : ∀ s ∈ rows', ∀ r ∈ m.choices s, r.Lottery id)
    (hopen : ∀ s ∈ rows, s ∈ target' ∨ s ∈ rows')
    (howner : ∀ s ∈ rows, owner s = .max → owner' s = .max)
    (htarget : target ⊆ target') (hrest : ∀ s ∈ rows', s ∉ target') (k : Nat) :
    boundedValue m owner rows target k ≤ boundedValue m owner' rows' target' k := by
  have hones : ones target ≤ ones target' := fun s => by
    by_cases hs : s ∈ target
    · exact (ones_le_one target s).trans_eq (if_pos (htarget s hs)).symm
    · exact (if_neg hs).trans_le (ones_nonneg target' s)
  induction k with
  | zero => exact hones
  | succ k ih =>
    intro s
    by_cases hs : s ∈ rows
    · by_cases hs' : s ∈ rows'
      · rw [boundedValue_succ hs, boundedValue_succ hs', Mdp.le_plainBest_iff (hne s hs)]
        refine .promote ?_ (howner s hs) (hne s hs)
        exact ((Mdp.le_plainBest_iff (hne s hs)).mp le_rfl).mono fun r hr hle =>
          hle.trans ((hrow s hs r hr).expect_mono ih)
      · have ht := (hopen s hs).resolve_right hs'
        rw [boundedValue_of_not_mem hs', ones, if_pos ht]
        exact (boundedValue_mem_Icc hne hrow (k + 1) s).2
    · rw [boundedValue_of_not_mem hs]
      by_cases hs' : s ∈ rows'
      · have ht : s ∉ target := fun ht => hrest s hs' (htarget s ht)
        rw [ones, if_neg ht]
        exact (boundedValue_mem_Icc hne' hrow' (k + 1) s).1
      · rw [boundedValue_of_not_mem hs']
        exact hones s

end Lotteries

end Bounded

section Reading
variable {m : Mdp α} {dir dir' : PerState MinMax} {remain remain' : Option StateSet}
  {target target' : StateSet}

theorem WellPosed.read (h : WellPosed m dir remain target) (weight : α → ℝ) :
    WellPosed (m.read weight) dir remain target := by
  have hn := Mdp.numStates_read weight m
  refine ⟨hn ▸ h.target_over, fun r hr => hn ▸ h.remain_over r hr, fun s hs => ?_, fun s hs => ?_⟩
  · rw [Mdp.choices_read, Array.size_map]
    exact h.has_choice s (hn ▸ hs)
  · exact h.directed s (hn ▸ hs)

/-- What the second of two problems has over the first: it is sure of the target in more states and
has no chance in fewer, and within any number of steps its chances are at least as good. -/
structure Favours (m : Mdp α) (dir dir' : PerState MinMax) (remain remain' : Option StateSet)
    (target target' : StateSet) : Prop where
  sure : ∃ sure sure', prob1? m remain target (universalForMax dir) = some sure ∧
    prob1? m remain' target' (universalForMax dir') = some sure' ∧ sure ⊆ sure'
  never : ∃ never never', prob0? m remain target (universalForMax dir) = some never ∧
    prob0? m remain' target' (universalForMax dir') = some never' ∧ never' ⊆ never
  bounded : ∀ weight : α → ℝ, (∀ s < m.numStates, s ∉ target → ∀ r ∈ m.choices s,
      r.Lottery weight ∧ ∀ j ∈ r.successors.support, j < m.numStates) →
    ∀ k, ∃ p p' : Array ℝ,
      boundedReachProb (m.read weight) remain target k dir = .ok ⟨p, k, .converged, none⟩ ∧
      boundedReachProb (m.read weight) remain' target' k dir' = .ok ⟨p', k, .converged, none⟩ ∧
      ∀ s, lookup p s ≤ lookup p' s

theorem Enlarges.favours (h : Enlarges m dir dir' remain remain' target target') :
    Favours m dir dir' remain remain' target target' := by
  refine ⟨⟨_, _, h.posed.prob1?_eq, h.posed'.prob1?_eq, h.sure_subset⟩,
    ⟨_, _, h.posed.prob0?_eq, h.posed'.prob0?_eq, h.never_subset⟩, fun weight hw k => ?_⟩
  have hn := Mdp.numStates_read weight m
  have hrows : ∀ s < m.numStates, s ∉ target → ∀ r ∈ (m.read weight).choices s,
      r.Lottery id ∧ ∀ j ∈ r.successors.support, j < (m.read weight).numStates := by
    intro s hs ht r hr
    rw [Mdp.choices_read] at hr
    obtain ⟨r, hmem, rfl⟩ := Array.mem_map.mp hr
    rw [Row.support_read, hn]
    exact ⟨(hw s hs ht r hmem).1.read, (hw s hs ht r hmem).2⟩
  have hopen := fun s hs => hrows s (h.posed.open_lt hs) (h.posed.open_not_target hs)
  have hopen' := fun s hs => hrows s (h.posed'.open_lt hs)
    fun ht => h.posed'.open_not_target hs (h.target_subset s ht)
  have hread := h.posed.read weight
  have hread' := h.posed'.read weight
  have hcases := fun s => h.open_cases (s := s)
  have howner := fun s => h.owner (s := s)
  rw [← hn] at hopen hopen' hcases howner
  refine ⟨_, _, hread.boundedReachProb_eq (fun s hs r hr => (hopen s hs r hr).2) k,
    hread'.boundedReachProb_eq (fun s hs r hr => (hopen' s hs r hr).2) k, ?_⟩
  rw [(hread.lookup_boundedSteps k).2, (hread'.lookup_boundedSteps k).2]
  exact boundedValue_le_of_enlarged hread.has_choice (fun s hs r hr => (hopen s hs r hr).1)
    hread'.has_choice (fun s hs r hr => (hopen' s hs r hr).1) hcases howner h.target_subset
    (fun s => hread'.open_not_target) k

end Reading

section Coalitions
variable {g : MultiplayerGame α} {q q' : GameQuery} {c c' : List Nat}

/-- Both queries ask for the largest value that their coalitions can achieve, and every owner of a
state in the first coalition is in the second one. -/
structure CoalitionGrows (g : MultiplayerGame α) (q q' : GameQuery) (c c' : List Nat) : Prop where
  existential : q.operator.thereExists = true ∧ q'.operator.thereExists = true
  maximal : q.dir = .max ∧ q'.dir = .max
  ids : q.coalitionIds g 0 = .ok c ∧ q'.coalitionIds g 0 = .ok c'
  subset : ∀ i ∈ c, i ∈ g.owners → i ∈ c'

/-- The coalition of such a query maximises and everybody else minimises. -/
theorem directions_eq (hexists : q.operator.thereExists = true) (hmax : q.dir = .max)
    (hids : q.coalitionIds g 0 = .ok c) :
    q.directions g = .ok (g.owners.map fun o => if o ∈ c then .max else .min) := by
  have hdir : ∀ o, q.dirOf c o = if o ∈ c then .max else .min := by
    intro o
    by_cases ho : o ∈ c <;> simp [GameQuery.dirOf, ho, hexists, hmax, MinMax.opposite]
  rw [GameQuery.directions_of_coalitionIds hids]
  exact congrArg Except.ok (congrArg (g.owners.map ·) (funext hdir))

/-- The players of a coalition that names them. -/
theorem mem_coalitionIds {d : Coalition} (hd : q.operator.coalition? 0 = some d)
    (hnamed : d.allPlayers = false) (hc : q.coalitionIds g 0 = .ok c) (i : Nat) :
    i ∈ c ↔ ∃ p ∈ d.players, g.players.resolve (α := α) p = .ok i := by
  have hlists := Coalition.Lists.of_coalitionIds hd hc
  rw [Coalition.Lists, hnamed] at hlists
  exact hlists.2 i

/-- Naming more players makes a larger coalition. -/
theorem coalitionIds_subset {d d' : Coalition} (hd : q.operator.coalition? 0 = some d)
    (hd' : q'.operator.coalition? 0 = some d') (hnamed : d.allPlayers = false)
    (hnamed' : d'.allPlayers = false) (hplayers : d.players ⊆ d'.players)
    (hc : q.coalitionIds g 0 = .ok c) (hc' : q'.coalitionIds g 0 = .ok c') : c ⊆ c' := by
  intro i hi
  obtain ⟨p, hp, hresolve⟩ := (mem_coalitionIds hd hnamed hc i).mp hi
  exact (mem_coalitionIds hd' hnamed' hc' i).mpr ⟨p, hplayers hp, hresolve⟩

/-- All players are a larger coalition than any of them, the scheduler being no player. -/
theorem mem_coalitionIds_all {d' : Coalition} (hd' : q'.operator.coalition? 0 = some d')
    (hall : d'.allPlayers = true) (hc' : q'.coalitionIds g 0 = .ok c') {i : Nat} (hi : i ≠ 0)
    (ho : i ∈ g.owners) : i ∈ c' := by
  have hlists := Coalition.Lists.of_coalitionIds hd' hc'
  rw [Coalition.Lists, hall] at hlists
  exact (hlists i).mpr (.inr ⟨hi, ho⟩)

theorem CoalitionGrows.enlarges (h : CoalitionGrows g q q' c c') {remain remain' : Option StateSet}
    {target target' : StateSet} (hw : Wider g.mdp.numStates remain remain' target target')
    (howners : g.owners.size = g.mdp.numStates)
    (hne : ∀ s < g.mdp.numStates, s ∉ target → 0 < (g.mdp.choices s).size) :
    Enlarges g.mdp (.listed (g.owners.map fun o => if o ∈ c then .max else .min))
      (.listed (g.owners.map fun o => if o ∈ c' then .max else .min)) remain remain' target
      target' := by
  have hcovers : ∀ (f : Nat → MinMax), ∀ s < g.mdp.numStates,
      (PerState.listed (g.owners.map f)).covers s := by
    intro f s hs
    rw [← howners] at hs
    simp [PerState.covers, PerState.get?, hs]
  refine ⟨hw, hne, fun s hs _ => ⟨hcovers _ s hs, hcovers _ s hs⟩, fun s hs hmax => ?_⟩
  rw [← howners] at hs
  simp only [PerState.get?, Array.getElem?_map, Array.getElem?_eq_getElem hs, Option.map_some,
    Option.some.injEq, ite_eq_left_iff, reduceCtorEq, imp_false, not_not] at hmax ⊢
  exact h.subset _ hmax (Array.getElem_mem hs)

end Coalitions

/-- More maximisers, a larger target and a larger set to pass through only help, and so does a
larger coalition. -/
theorem enlarging_favours (α : Type) :
    (∀ (m : Mdp α) (dir dir' : PerState MinMax) (remain remain' : Option StateSet)
      (target target' : StateSet), Enlarges m dir dir' remain remain' target target' →
        Favours m dir dir' remain remain' target target') ∧
    ∀ (g : MultiplayerGame α) (q q' : GameQuery) (c c' : List Nat)
      (remain remain' : Option StateSet) (target target' : StateSet),
      CoalitionGrows g q q' c c' → Wider g.mdp.numStates remain remain' target target' →
      g.owners.size = g.mdp.numStates →
      (∀ s < g.mdp.numStates, s ∉ target → 0 < (g.mdp.choices s).size) →
      ∃ ds ds', q.directions g = .ok ds ∧ q'.directions g = .ok ds' ∧
        Favours g.mdp (.listed ds) (.listed ds') remain remain' target target' := by
  refine ⟨fun m dir dir' remain remain' target target' h => h.favours, ?_⟩
  intro g q q' c c' remain remain' target target' h hw howners hne
  exact ⟨_, _, directions_eq h.existential.1 h.maximal.1 h.ids.1,
    directions_eq h.existential.2 h.maximal.2 h.ids.2, (h.enlarges hw howners hne).favours⟩

/-- The duel with a player in each of its first two states. -/
noncomputable def duelGame : MultiplayerGame ℝ where
  mdp := duel
  owners := #[1, 2, 0, 0]

/-- The largest probability that the named players can achieve. -/
def largestFor (players : List String) : GameQuery :=
  ⟨StrategyOperator.existential.setCoalition ⟨players, false⟩, .max⟩

theorem duelGame_grows : CoalitionGrows duelGame (largestFor []) (largestFor ["1"]) [] [1] where
  existential := ⟨rfl, rfl⟩
  maximal := ⟨rfl, rfl⟩
  ids := ⟨rfl, rfl⟩
  subset := fun _ hi => absurd hi List.not_mem_nil

def duelEscapes : StateSet :=
  .ofList 4 [2, 3]

theorem duelGame_wider : Wider duel.numStates duelRemain none duelEscapes duelEscapes where
  target_over := ⟨rfl, rfl, by decide⟩
  target_over' := ⟨rfl, rfl, by decide⟩
  remain_over := duel_wellPosed.remain_over
  remain_over' := by simp
  target_subset := fun _ => id
  remain_subset := by simp

theorem duelGame_has_choice :
    ∀ s < duel.numStates, s ∉ duelEscapes → 0 < (duel.choices s).size := by
  intro s hs ht
  have hs : s < 4 := hs
  obtain rfl | rfl | rfl | rfl : s = 0 ∨ s = 1 ∨ s = 2 ∨ s = 3 := by omega
  · decide
  · decide
  · exact absurd (by decide) ht
  · exact absurd (by decide) ht

theorem duelGame_favours :
    Favours duel (.everywhere .min) (.everywhere .max) duelRemain none duelEscapes duelEscapes ∧
    ∃ ds ds', (largestFor []).directions duelGame = .ok ds ∧
      (largestFor ["1"]).directions duelGame = .ok ds' ∧
      Favours duel (.listed ds) (.listed ds') duelRemain none duelEscapes duelEscapes := by
  have hdirs : Enlarges duel (.everywhere .min) (.everywhere .max) duelRemain none duelEscapes
      duelEscapes :=
    ⟨duelGame_wider, duelGame_has_choice, fun _ _ _ => ⟨rfl, rfl⟩, fun _ _ _ => rfl⟩
  obtain ⟨hgame, hcoalition⟩ := enlarging_favours ℝ
  exact ⟨hgame duel _ _ _ _ _ _ hdirs, hcoalition duelGame _ _ _ _ _ _ _ _ duelGame_grows
    duelGame_wider rfl duelGame_has_choice⟩

end StochasticGames.Analysis
