import StochasticGames.Proofs.BlockSets

/-! Every set that the operations build is the finite set they stand for. -/
namespace StochasticGames.Arena

/-- How a set of one universe is built. -/
inductive Recipe where
  | empty
  | full
  | ofList (indices : List Nat)
  | insert (r : Recipe) (i : Nat)
  | remove (r : Recipe) (i : Nat)
  | set (r : Recipe) (i : Nat) (member : Bool)
  | union (r q : Recipe)
  | inter (r q : Recipe)
  | diff (r q : Recipe)
  | compl (r : Recipe)

namespace Recipe

def build (n : Nat) : Recipe → StateSet
  | empty => .empty n
  | full => .full n
  | ofList indices => .ofList n indices
  | insert r i => (r.build n).insert i
  | remove r i => (r.build n).remove i
  | set r i member => (r.build n).set i member
  | union r q => (r.build n).union (q.build n)
  | inter r q => (r.build n).inter (q.build n)
  | diff r q => (r.build n).diff (q.build n)
  | compl r => (r.build n).compl

/-- The same word by word. -/
def words (n : Nat) : Recipe → BlockSet
  | empty => .empty n
  | full => .full n
  | ofList indices => .ofList n indices
  | insert r i => ((r.words n).insert i).1
  | remove r i => (r.words n).remove i
  | set r i member => (r.words n).set i member
  | union r q => (r.words n).union (q.words n)
  | inter r q => (r.words n).inter (q.words n)
  | diff r q => (r.words n).diff (q.words n)
  | compl r => (r.words n).compl

/-- The finite set it stands for, indices outside the universe being ignored. -/
def denote (n : Nat) : Recipe → Finset Nat
  | empty => ∅
  | full => Finset.range n
  | ofList indices => indices.toFinset ∩ Finset.range n
  | insert r i => r.denote n ∪ {i} ∩ Finset.range n
  | remove r i => (r.denote n).erase i
  | set r i member => if member then r.denote n ∪ {i} ∩ Finset.range n else (r.denote n).erase i
  | union r q => r.denote n ∪ q.denote n
  | inter r q => r.denote n ∩ q.denote n
  | diff r q => r.denote n \ q.denote n
  | compl r => Finset.range n \ r.denote n

end Recipe

namespace StateSet

variable {n : Nat} {s t : StateSet} {A B : Finset Nat}

/-- The set over the first `n` states whose members are those of `A`. -/
structure Denotes (n : Nat) (s : StateSet) (A : Finset Nat) : Prop where
  bounded : s.Over n
  mem : ∀ i, i ∈ s ↔ i ∈ A

theorem Denotes.insert (h : s.Denotes n A) (i : Nat) :
    (s.insert i).Denotes n (A ∪ {i} ∩ Finset.range n) := by
  refine ⟨h.bounded.insert i, fun j => ?_⟩
  rw [Finset.mem_union, Finset.mem_inter, Finset.mem_singleton, Finset.mem_range, ← h.mem]
  by_cases hi : i < n
  · rw [h.bounded.mem_insert hi, or_comm]
    exact or_congr_right ⟨fun hj => ⟨hj, hj ▸ hi⟩, And.left⟩
  · rw [StateSet.insert, if_neg (by rwa [h.bounded.bound])]
    exact (or_iff_left fun hj : j = i ∧ j < n => hi (hj.1 ▸ hj.2)).symm

theorem Denotes.ofList (n : Nat) (l : List Nat) :
    (StateSet.ofList n l).Denotes n (l.toFinset ∩ Finset.range n) := by
  have hfold : ∀ (s : StateSet) (A : Finset Nat), s.Denotes n A →
      (l.foldl StateSet.insert s).Denotes n (A ∪ l.toFinset ∩ Finset.range n) := by
    induction l with
    | nil => exact fun s A h => by simpa using h
    | cons i l ih =>
      intro s A h
      rw [List.foldl_cons, List.toFinset_cons, Finset.insert_eq, Finset.union_inter_distrib_right,
        ← Finset.union_assoc]
      exact ih _ _ (h.insert i)
  have hempty : (StateSet.empty n).Denotes n ∅ :=
    ⟨over_empty n, fun i => iff_of_false (not_mem_empty n i) (Finset.notMem_empty i)⟩
  rw [← Finset.empty_union (l.toFinset ∩ Finset.range n)]
  exact hfold _ ∅ hempty

theorem Denotes.remove (h : s.Denotes n A) (i : Nat) : (s.remove i).Denotes n (A.erase i) :=
  ⟨h.bounded.remove i, fun j => by rw [h.bounded.mem_remove, Finset.mem_erase, h.mem]⟩

theorem Denotes.members_toFinset (h : s.Denotes n A) : s.members.toFinset = A := by
  ext i
  rw [List.mem_toFinset, h.bounded.mem_members, h.mem]

theorem Denotes.subset_iff (hs : s.Denotes n A) (ht : t.Denotes n B) :
    s.isSubset t = true ↔ A ⊆ B := by
  rw [hs.bounded.isSubset_iff ht.bounded]
  exact forall_congr' fun i => by rw [hs.mem, ht.mem]

theorem Denotes.eq_iff (hs : s.Denotes n A) (ht : t.Denotes n B) : s = t ↔ A = B := by
  constructor
  · rintro rfl
    ext i
    rw [← hs.mem, ht.mem]
  · rintro rfl
    exact hs.bounded.ext ht.bounded fun i => (hs.mem i).trans (ht.mem i).symm

end StateSet

namespace Recipe

variable {n : Nat}

theorem denotes (n : Nat) (r : Recipe) : (r.build n).Denotes n (r.denote n) := by
  induction r with
  | empty => exact ⟨StateSet.over_empty n, fun i => by simp [build, denote, StateSet.not_mem_empty]⟩
  | full =>
    refine ⟨StateSet.over_full n, fun i => ?_⟩
    rw [build, StateSet.mem_full, denote, Finset.mem_range]
  | ofList l => exact .ofList n l
  | insert r i ih => exact ih.insert i
  | remove r i ih => exact ih.remove i
  | set r i b ih =>
    cases b
    · exact ih.remove i
    · exact ih.insert i
  | union r q ihr ihq =>
    refine ⟨ihr.bounded.union ihq.bounded, fun i => ?_⟩
    rw [build, ihr.bounded.mem_union ihq.bounded, ihr.mem, ihq.mem, denote, Finset.mem_union]
  | inter r q ihr ihq =>
    refine ⟨ihr.bounded.inter ihq.bounded, fun i => ?_⟩
    rw [build, ihr.bounded.mem_inter ihq.bounded, ihr.mem, ihq.mem, denote, Finset.mem_inter]
  | diff r q ihr ihq =>
    refine ⟨ihr.bounded.diff _, fun i => ?_⟩
    rw [build, ihr.bounded.mem_diff ihq.bounded, ihr.mem, ihq.mem, denote, Finset.mem_sdiff]
  | compl r ih =>
    refine ⟨ih.bounded.compl, fun i => ?_⟩
    rw [build, ih.bounded.mem_compl, ih.mem, denote, Finset.mem_sdiff, Finset.mem_range]

theorem words_eq (n : Nat) (r : Recipe) : r.words n = (r.build n).toBlockSet := by
  have hover : ∀ q : Recipe, (q.build n).Over n := fun q => (q.denotes n).bounded
  induction r with
  | empty => exact (BlockSet.toBlockSet_empty n).symm
  | full => exact (BlockSet.toBlockSet_full n).symm
  | ofList l => exact (BlockSet.toBlockSet_ofList n l).symm
  | insert r i ih => rw [words, ih, build, BlockSet.toBlockSet_insert (hover r)]
  | remove r i ih => rw [words, ih, build, BlockSet.toBlockSet_remove (hover r)]
  | set r i b ih => rw [words, ih, build, BlockSet.toBlockSet_set (hover r)]
  | union r q ihr ihq => rw [words, ihr, ihq, build, BlockSet.toBlockSet_union (hover r) (hover q)]
  | inter r q ihr ihq => rw [words, ihr, ihq, build, BlockSet.toBlockSet_inter (hover r) (hover q)]
  | diff r q ihr ihq => rw [words, ihr, ihq, build, BlockSet.toBlockSet_diff (hover r) (hover q)]
  | compl r ih => rw [words, ih, build, BlockSet.toBlockSet_compl (hover r)]

/-- What a set answers when it is `A`, drawn from the first `n` states. -/
structure Answers (n : Nat) (A : Finset Nat) (contains isNew : Nat → Bool) (members : List Nat)
    (count : Nat) (isEmpty : Bool) : Prop where
  contains : ∀ i, contains i = true ↔ i ∈ A
  isNew : ∀ i, isNew i = true ↔ i < n ∧ i ∉ A
  sorted : members.Pairwise (· < ·)
  members : ∀ i, i ∈ members ↔ i ∈ A
  count : count = A.card
  isEmpty : isEmpty = true ↔ A = ∅

theorem answers (n : Nat) (r : Recipe) :
    Answers n (r.denote n) (r.build n).contains (r.build n).isNew (r.build n).members
      (r.build n).count (r.build n).isEmpty where
  contains := (r.denotes n).mem
  isNew i := by
    have h := r.denotes n
    rw [StateSet.isNew, h.bounded.bound, Bool.and_eq_true, decide_eq_true_iff, Bool.not_eq_true',
      ← Bool.not_eq_true, ← h.bounded.mem_iff, h.mem]
  sorted := StateSet.sorted_members _
  members i := by rw [(r.denotes n).bounded.mem_members, (r.denotes n).mem]
  count := by
    rw [StateSet.count, ← (r.denotes n).members_toFinset,
      List.toFinset_card_of_nodup ((StateSet.sorted_members _).imp Nat.ne_of_lt)]
  isEmpty := by
    rw [(r.denotes n).bounded.isEmpty_iff, Finset.eq_empty_iff_forall_notMem]
    exact forall_congr' fun i => not_congr ((r.denotes n).mem i)

/-- Sets of states are faithful finite sets, kept as bits of one number or word by word: each is
the set its operations stand for, answers as that set does, and equals another one of its universe
just when the two stand for the same set. -/
theorem faithful (n : Nat) (r : Recipe) :
    r.denote n = (Finset.range n).filter (fun i => (r.build n).contains i = true) ∧
    Answers n (r.denote n) (r.build n).contains (r.build n).isNew (r.build n).members
      (r.build n).count (r.build n).isEmpty ∧
    r.words n = (r.build n).toBlockSet ∧
    Answers n (r.denote n) (r.words n).contains (fun i => ((r.words n).insert i).2)
      (r.words n).members (r.words n).count (r.words n).isEmpty ∧
    ∀ q : Recipe,
      ((r.build n).isSubset (q.build n) = true ↔ r.denote n ⊆ q.denote n) ∧
      ((r.words n).isSubset (q.words n) = true ↔ r.denote n ⊆ q.denote n) ∧
      (r.build n = q.build n ↔ r.denote n = q.denote n) ∧
      (r.words n = q.words n ↔ r.denote n = q.denote n) := by
  have h := r.denotes n
  have hanswers := r.answers n
  refine ⟨?_, hanswers, r.words_eq n, ?_, fun q => ?_⟩
  · ext i
    rw [Finset.mem_filter, ← h.mem, Finset.mem_range]
    exact ⟨fun hi => ⟨h.bounded.lt hi, hi⟩, And.right⟩
  · rw [words_eq, funext (BlockSet.contains_toBlockSet h.bounded),
      funext (BlockSet.insert_toBlockSet_snd h.bounded), BlockSet.members_toBlockSet h.bounded,
      BlockSet.count_toBlockSet h.bounded, BlockSet.isEmpty_toBlockSet h.bounded]
    exact hanswers
  · have hq := q.denotes n
    rw [words_eq, words_eq, BlockSet.isSubset_toBlockSet h.bounded hq.bounded,
      BlockSet.toBlockSet_inj h.bounded hq.bounded]
    exact ⟨h.subset_iff hq, h.subset_iff hq, h.eq_iff hq, h.eq_iff hq⟩

example : ((Recipe.ofList [1, 3]).compl.build 5).members = [0, 2, 4] := by decide

end Recipe

end StochasticGames.Arena
