import StochasticGames.Analysis.Reachability
import StochasticGames.Proofs.StateSets

/-! Rows that are written one by one, into a second vector or in place, amount to passes over whole
vectors. -/
namespace StochasticGames.Arena.Mdp
open StochasticGames.Numeric

variable {α : Type} [Scalar α]

/-- One step with self-loops divided out for the rows of the filter, all of them reading
the vector as it was before. -/
def jacobiPass (m : Mdp α) (q : Quantity) (dir : Nat → MinMax) (rows : RowFilter)
    (v : Array α) : Array α :=
  v.mapIdx fun s old => if rows.includes s then m.normalisedBest q (dir s) s (lookup v) else old

/-- The rows of the filter one after the other, each reading what the earlier ones wrote. -/
def gaussSeidelPass (m : Mdp α) (q : Quantity) (dir : Nat → MinMax)
    (rows : RowFilter) (v : Array α) : Array α :=
  (List.range v.size).foldl (fun v s =>
    if rows.includes s then v.setIfInBounds s (m.normalisedBest q (dir s) s (lookup v)) else v) v

end StochasticGames.Arena.Mdp

namespace StochasticGames.Analysis
open StochasticGames.Numeric StochasticGames.Arena

/-- One pass of the configured method over some rows of a vector. -/
def pass {α : Type} [Scalar α] (m : Mdp α) (method : IterMethod) (q : Quantity)
    (dir : Nat → MinMax) (rows : StateSet) (values : Array α) : Array α :=
  match method with
  | .jacobi => m.jacobiPass q dir (.only rows) values
  | .gaussSeidel => m.gaussSeidelPass q dir (.only rows) values

/-- Two vectors of one length that differ in `rows` at most. -/
structure AlikeOutside {α : Type} (rows : StateSet) (v w : Array α) : Prop where
  size : v.size = w.size
  outside : ∀ s, s ∉ rows → v[s]? = w[s]?

variable {α : Type} {v w : Array α} {s : Nat}

theorem AlikeOutside.refl (rows : StateSet) (v : Array α) : AlikeOutside rows v v :=
  ⟨rfl, fun _ _ => rfl⟩

theorem AlikeOutside.symm {rows : StateSet} (h : AlikeOutside rows v w) : AlikeOutside rows w v :=
  ⟨h.size.symm, fun s hs => (h.outside s hs).symm⟩

section Overwriting
variable {rows : StateSet}

/-- Once the rows are overwritten, what they held does not matter. -/
theorem AlikeOutside.overwrite_eq (h : AlikeOutside rows v w) (f : Nat → α) :
    w.mapIdx (fun s old => if s ∈ rows then f s else old) =
      v.mapIdx fun s old => if s ∈ rows then f s else old := by
  refine Array.ext_getElem? fun s => ?_
  rw [Array.getElem?_mapIdx, Array.getElem?_mapIdx]
  by_cases hs : s ∈ rows
  · by_cases hlt : s < v.size
    · simp [hs, hlt, h.size ▸ hlt]
    · simp [Array.getElem?_eq_none (not_lt.mp hlt), Array.getElem?_eq_none (h.size ▸ not_lt.mp hlt)]
  · simp only [hs, if_false, h.outside s hs]

theorem alikeOutside_overwrite (f : Nat → α) (v : Array α) :
    AlikeOutside rows (v.mapIdx fun s old => if s ∈ rows then f s else old) v := by
  refine ⟨Array.size_mapIdx, fun s hs => ?_⟩
  simp only [Array.getElem?_mapIdx, hs, if_false, Option.map_id']

end Overwriting

theorem foldl_setIfInBounds (f : Nat → α) (l : List Nat) (v : Array α) :
    l.foldl (fun w s => w.setIfInBounds s (f s)) v =
      v.mapIdx fun s old => if s ∈ l then f s else old := by
  induction l generalizing v with
  | nil => exact Array.ext (by simp) fun s hs hs' => by simp
  | cons t l ih =>
    rw [List.foldl_cons, ih]
    refine Array.ext_getElem? fun s => ?_
    rw [Array.getElem?_mapIdx, Array.getElem?_mapIdx, Array.getElem?_setIfInBounds]
    by_cases hst : t = s
    · subst hst
      by_cases hlt : t < v.size <;> simp [hlt]
    · simp [hst, Ne.symm hst]

theorem foldl_setIfInBounds_outside (g : Array α → Nat → α) (l : List Nat) (v : Array α) :
    let w := l.foldl (fun v s => v.setIfInBounds s (g v s)) v
    w.size = v.size ∧ ∀ s ∉ l, w[s]? = v[s]? := by
  induction l generalizing v with
  | nil => exact ⟨rfl, fun _ _ => rfl⟩
  | cons t l ih =>
    obtain ⟨hsize, hout⟩ := ih (v.setIfInBounds t (g v t))
    refine ⟨hsize.trans Array.size_setIfInBounds, fun s hs => ?_⟩
    obtain ⟨hst, hs⟩ := not_or.mp (mt List.mem_cons.mpr hs)
    exact (hout s hs).trans (Array.getElem?_setIfInBounds_ne (Ne.symm hst))

variable [Scalar α]

theorem lookup_eq (v : Array α) (s : Nat) : lookup v s = v[s]?.getD 0 :=
  Array.getD_eq_getD_getElem?

theorem lookup_of_le (h : v.size ≤ s) : lookup v s = 0 := by
  rw [lookup_eq, Array.getElem?_eq_none h, Option.getD_none]

theorem lookup_mapIdx (f : Nat → α → α) (v : Array α) (s : Nat) :
    lookup (v.mapIdx f) s = if s < v.size then f s (lookup v s) else 0 := by
  by_cases hs : s < v.size <;> simp [lookup_eq, hs]

theorem lookup_setIfInBounds (hs : s < v.size) (x : α) :
    lookup (v.setIfInBounds s x) = Function.update (lookup v) s x := by
  funext t
  by_cases he : t = s
  · subst he
    simp [lookup_eq, hs]
  · simp [lookup_eq, Array.getElem?_setIfInBounds_ne (Ne.symm he), he]

theorem AlikeOutside.lookup_eq {rows : StateSet} (h : AlikeOutside rows v w) (hs : s ∉ rows) :
    lookup v s = lookup w s := by
  rw [Analysis.lookup_eq, Analysis.lookup_eq, h.outside s hs]

/-- The largest change that rows of a list show between two vectors, if it exceeds `start`. -/
private def changeOver (measure : DiffMeasure) (rows : RowFilter) (old new : Nat → α)
    (l : List Nat) (start : α) : α :=
  l.foldl (fun change s =>
    if rows.includes s then Scalar.larger change (measure.diff (old s) (new s)) else change) start

/-- The largest change between two vectors in the rows of the filter. -/
def changeOn (measure : DiffMeasure) (rows : RowFilter) (v w : Array α) : α :=
  (List.range v.size).foldl (fun change s => if rows.includes s then
    Scalar.larger change (measure.diff (lookup v s) (lookup w s)) else change) 0

section Writing
variable {m : Mdp α} {q : Quantity} {dir : Nat → MinMax} {measure : DiffMeasure}
  {read : Array α → Array α}

theorem writeRow_of_includes {rows : RowFilter} (h : rows.includes s) (v : Array α) (change : α) :
    m.writeRow q dir rows measure read (v, change) s =
      (v.setIfInBounds s (m.normalisedBest q (dir s) s (lookup (read v))),
        Scalar.larger change (measure.diff (lookup (read v) s)
          (m.normalisedBest q (dir s) s (lookup (read v))))) :=
  if_pos h

theorem writeRow_of_not_includes {rows : RowFilter} (h : ¬ rows.includes s) (v : Array α)
    (change : α) : m.writeRow q dir rows measure read (v, change) s = (v, change) :=
  if_neg h

/-- The vector does not depend on the changes that are tracked beside it. -/
private theorem foldl_writeRow_fst (rows : RowFilter) (l : List Nat) (v : Array α) (change : α) :
    (l.foldl (m.writeRow q dir rows measure read) (v, change)).1 =
      (l.filter rows.includes).foldl (fun v s =>
        v.setIfInBounds s (m.normalisedBest q (dir s) s (lookup (read v)))) v := by
  induction l generalizing v change with
  | nil => rfl
  | cons t l ih =>
    rw [List.foldl_cons]
    by_cases h : rows.includes t
    · rw [writeRow_of_includes h, List.filter_cons_of_pos h, List.foldl_cons, ih]
    · rw [writeRow_of_not_includes h, List.filter_cons_of_neg h, ih]

/-- As each row is visited once, its change is the one between the vector before and the vector
after. -/
private theorem foldl_writeRow_snd {rows : RowFilter} {old : Nat → α} {l : List Nat}
    (hl : l.Nodup) (hlt : ∀ s ∈ l, s < v.size)
    (hold : ∀ w, ∀ s ∈ l, lookup w s = lookup v s → lookup (read w) s = old s) (change : α) :
    let last := l.foldl (m.writeRow q dir rows measure read) (v, change)
    last.2 = changeOver measure rows old (lookup last.1) l change := by
  induction l generalizing v change with
  | nil => rfl
  | cons t l ih =>
    obtain ⟨hnot, hl⟩ := List.nodup_cons.mp hl
    obtain ⟨ht, hlt⟩ := List.forall_mem_cons.mp hlt
    rw [List.foldl_cons]
    by_cases hrow : rows.includes t
    · rw [writeRow_of_includes hrow, hold v t List.mem_cons_self rfl]
      generalize m.normalisedBest q (dir t) t (lookup (read v)) = new
      have hset := lookup_setIfInBounds ht new
      have hrest := ih (v := v.setIfInBounds t new) hl
        (by simpa only [Array.size_setIfInBounds] using hlt)
        (fun w s hs hw => hold w s (List.mem_cons_of_mem t hs) (by
          rw [hw, hset, Function.update_of_ne (ne_of_mem_of_not_mem hs hnot)]))
        (Scalar.larger change (measure.diff (old t) new))
      have hlast : lookup (l.foldl (m.writeRow q dir rows measure read)
          (v.setIfInBounds t new, Scalar.larger change (measure.diff (old t) new))).1 t = new := by
        rw [foldl_writeRow_fst, lookup_eq, (foldl_setIfInBounds_outside _ _ _).2 t
          fun h => hnot (List.mem_of_mem_filter h), ← lookup_eq, hset, Function.update_self]
      refine hrest.trans ?_
      rw [changeOver, changeOver, List.foldl_cons, if_pos hrow, hlast]
    · rw [writeRow_of_not_includes hrow]
      refine (ih hl hlt (fun w s hs => hold w s (List.mem_cons_of_mem t hs)) change).trans ?_
      rw [changeOver, changeOver, List.foldl_cons, if_neg hrow]

/-- Rows written in place make a Gauss-Seidel pass. -/
theorem writeRows_in_place (rows : RowFilter) (v : Array α) :
    m.writeRows q dir rows measure id v = (m.gaussSeidelPass q dir rows v,
      changeOn measure rows v (m.gaussSeidelPass q dir rows v)) := by
  have hvector : (m.writeRows q dir rows measure id v).1 = m.gaussSeidelPass q dir rows v :=
    (foldl_writeRow_fst rows (List.range v.size) v 0).trans List.foldl_filter
  refine Prod.ext hvector ?_
  rw [← hvector]
  exact foldl_writeRow_snd List.nodup_range (fun s => List.mem_range.mp) (fun w s _ hw => hw) 0

/-- Rows written to a second vector make a Jacobi pass, whatever they held there before. -/
theorem AlikeOutside.writeRows_apart {rows : StateSet} (h : AlikeOutside rows v w) :
    m.writeRows q dir (.only rows) measure (fun _ => v) w = (m.jacobiPass q dir (.only rows) v,
      changeOn measure (.only rows) v (m.jacobiPass q dir (.only rows) v)) := by
  have hvector : (m.writeRows q dir (.only rows) measure (fun _ => v) w).1 =
      m.jacobiPass q dir (.only rows) v := by
    refine Eq.trans ?_ (h.overwrite_eq fun s => m.normalisedBest q (dir s) s (lookup v))
    refine (foldl_writeRow_fst (.only rows) (List.range w.size) w 0).trans ?_
    rw [foldl_setIfInBounds]
    refine Array.mapIdx_eq_mapIdx_iff.mpr fun s hs => ?_
    simp only [List.mem_filter, List.mem_range, hs, true_and, RowFilter.includes,
      ← StateSet.mem_def]
  refine Prod.ext hvector ?_
  rw [← hvector, changeOn, h.size]
  exact foldl_writeRow_snd List.nodup_range (fun s => List.mem_range.mp) (fun _ _ _ _ => rfl) 0

/-- Vectors that change places do as well as one: the rows that are never written are the same in
both. -/
theorem AlikeOutside.jacobiTurn_eq {rows : StateSet} (h : AlikeOutside rows v w) :
    let next := m.jacobiPass q dir (.only rows) v
    jacobiTurn m q dir rows measure (v, w) =
      ((next, v), changeOn measure (.only rows) v next) := by
  simp only [jacobiTurn, h.writeRows_apart]

/-- A pass changes its rows at most. -/
theorem alikeOutside_pass (m : Mdp α) (method : IterMethod) (q : Quantity) (dir : Nat → MinMax)
    (rows : StateSet) (v : Array α) : AlikeOutside rows (pass m method q dir rows v) v := by
  cases method with
  | jacobi => exact alikeOutside_overwrite _ v
  | gaussSeidel =>
    obtain ⟨hsize, hout⟩ := foldl_setIfInBounds_outside
      (fun v s => m.normalisedBest q (dir s) s (lookup v))
      ((List.range v.size).filter (RowFilter.includes (.only rows))) v
    rw [List.foldl_filter] at hsize hout
    exact ⟨hsize, fun s hs => hout s fun hin => hs (List.mem_filter.mp hin).2⟩

end Writing

end StochasticGames.Analysis
