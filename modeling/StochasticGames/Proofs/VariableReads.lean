import StochasticGames.Proofs.FirstOccurrences
import StochasticGames.Proofs.IntegerExpressions

/-! What an expression reads. Evaluation depends on nothing else, and the variables that are listed
as read primed are all that are, in the order of their first reads. -/
namespace StochasticGames.Valuation

/-- Lists of one length with the same values in the given places. -/
structure AgreeAt (places : List Nat) (values values' : List Value) : Prop where
  size : values.length = values'.length
  same : ∀ i ∈ places, values[i]? = values'[i]?

namespace Expr

/-- The variable that an expression is a read of, with a prime or without. -/
def read? (primed : Bool) : Expr → Option Nat
  | var index _ p => if p = primed then some index else none
  | _ => none

/-- The reads in all parts of an expression, those with primes or those without, from left to
right. -/
def reads (primed : Bool) (e : Expr) : List Nat :=
  e.subexpressions.filterMap (read? primed)

/-- Two contexts that agree wherever an expression reads them. Unless it reads something primed,
their next states may be any, or missing. -/
structure Alike (e : Expr) (c d : Context) : Prop where
  current : AgreeAt (e.reads false) c.current d.current
  next : e.containsPrimes = true → Option.Rel (AgreeAt e.primedVars) c.next d.next

end Expr

section Agreement
variable {places : List Nat} {values values' : List Value}

theorem AgreeAt.refl (places : List Nat) (values : List Value) : AgreeAt places values values :=
  ⟨rfl, fun _ _ => rfl⟩

/-- Lists that agree also fail alike, since the error for a missing variable tells no more of them
than their length. -/
theorem AgreeAt.lookup (h : AgreeAt places values values') {i : Nat} (hi : i ∈ places) :
    Context.lookup values i = Context.lookup values' i := by
  simp only [Context.lookup, h.size, h.same i hi]

end Agreement

namespace Expr
variable {e : Expr} {c d : Context} {index : Nat} {primed : Bool}

theorem mem_reads_var (index : Nat) (name : String) (primed : Bool) :
    index ∈ (var index name primed).reads primed := by
  simp [reads, subexpressions, read?]

theorem reads_logic (primed : Bool) (op : Connective) (l r : Expr) :
    (logic op l r).reads primed = l.reads primed ++ r.reads primed :=
  List.filterMap_append

theorem reads_apply (primed : Bool) (op : Operation) (l r : Expr) :
    (apply op l r).reads primed = l.reads primed ++ r.reads primed :=
  List.filterMap_append

theorem reads_cond (primed : Bool) (test yes no : Expr) :
    (cond test yes no).reads primed = test.reads primed ++ yes.reads primed ++ no.reads primed :=
  List.filterMap_append.trans (congrArg (· ++ no.reads primed) List.filterMap_append)

/-- No primed read is missed, wherever in the expression it is. -/
theorem primedReads_eq (e : Expr) : e.primedReads = e.reads true := by
  induction e with
  | literal v => rfl
  | var index name primed => cases primed <;> rfl
  | unary op e ih => exact ih
  | logic op l r ihl ihr => rw [primedReads, reads_logic, ihl, ihr]
  | apply op l r ihl ihr => rw [primedReads, reads_apply, ihl, ihr]
  | cond test yes no ihc ihy ihn => rw [primedReads, reads_cond, ihc, ihy, ihn]

theorem primedVars_eq (e : Expr) : e.primedVars = (e.reads true).eraseDups := by
  rw [primedVars, primedReads_eq]

theorem mem_primedVars : index ∈ e.primedVars ↔ index ∈ e.reads true := by
  rw [primedVars_eq, List.mem_eraseDups]

theorem containsPrimes_eq_false_iff : e.containsPrimes = false ↔ e.primedReads = [] := by
  induction e with
  | literal v => exact iff_of_true rfl rfl
  | var index name primed => cases primed <;> simp [containsPrimes, primedReads]
  | unary op e ih => exact ih
  | logic op l r ihl ihr | apply op l r ihl ihr =>
    rw [containsPrimes, primedReads, Bool.or_eq_false_iff, List.append_eq_nil_iff, ihl, ihr]
  | cond test yes no ihc ihy ihn =>
    rw [containsPrimes, primedReads, Bool.or_eq_false_iff, Bool.or_eq_false_iff,
      List.append_eq_nil_iff, List.append_eq_nil_iff, ihc, ihy, ihn]

theorem primedVars_ne_nil_iff : e.primedVars ≠ [] ↔ e.containsPrimes = true := by
  rw [← Bool.not_eq_false, containsPrimes_eq_false_iff, primedReads_eq]
  simp only [ne_eq, List.eq_nil_iff_forall_not_mem, mem_primedVars]

/-- Evaluation sees a context through reads alone. Operands are left out in both contexts or in
none, since what decides about that has the same value in both. -/
theorem eval_eq_of_reads (h : ∀ primed, ∀ i ∈ e.reads primed, ∀ name,
    c.read i name primed = d.read i name primed) : e.eval c = e.eval d := by
  induction e with
  | literal v => rfl
  | var index name primed => exact h primed index (mem_reads_var index name primed) name
  | unary op e ih => rw [eval, eval, ih h]
  | logic op l r ihl ihr =>
    simp only [reads_logic, List.forall_mem_append, forall_and] at h
    simp only [eval, ihl h.1, ihr h.2]
  | apply op l r ihl ihr =>
    simp only [reads_apply, List.forall_mem_append, forall_and] at h
    simp only [eval, ihl h.1, ihr h.2]
  | cond test yes no ihc ihy ihn =>
    simp only [reads_cond, List.forall_mem_append, forall_and] at h
    simp only [eval, ihc h.1.1, ihy h.1.2, ihn h.2]

theorem Alike.read (h : e.Alike c d) (hi : index ∈ e.reads primed) (name : String) :
    c.read index name primed = d.read index name primed := by
  cases primed with
  | false => exact h.current.lookup hi
  | true =>
    have hmem : index ∈ e.primedVars := mem_primedVars.mpr hi
    have hnext := h.next (primedVars_ne_nil_iff.mp (List.ne_nil_of_mem hmem))
    obtain ⟨current, next⟩ := c
    obtain ⟨current', next'⟩ := d
    cases hnext with
    | none => rfl
    | some hagree => exact hagree.lookup hmem

theorem Alike.eval_eq (h : e.Alike c d) : e.eval c = e.eval d :=
  eval_eq_of_reads fun _ _ hi => h.read hi

theorem alike_of_free (hfree : e.containsPrimes = false) (current : List Value)
    (next next' : Option (List Value)) : e.Alike ⟨current, next⟩ ⟨current, next'⟩ :=
  ⟨.refl _ _, fun hprimes => absurd (hfree.symm.trans hprimes) Bool.false_ne_true⟩

/-- Evaluation depends on what an expression reads and on nothing else. The variables that it reads
primed are listed once each, in the order of their first reads, and there are some exactly if it
has a prime. Contexts that agree wherever the expression reads them lead to the same value or to the
same error, and without a prime the next state makes no difference. -/
theorem evaluation_sees_reads (e : Expr) :
    (e.primedVars.Nodup ∧ (∀ i, i ∈ e.primedVars ↔ i ∈ e.reads true) ∧
      e.primedVars.Pairwise (fun i j => (e.reads true).idxOf i < (e.reads true).idxOf j) ∧
      (e.primedVars ≠ [] ↔ e.containsPrimes = true)) ∧
    (∀ c d : Context, e.Alike c d → e.eval c = e.eval d) ∧
    (e.containsPrimes = false → ∀ (current : List Value) (next next' : Option (List Value)),
      e.eval ⟨current, next⟩ = e.eval ⟨current, next'⟩) := by
  have hnodup : e.primedVars.Nodup := nodup_eraseDups e.primedReads
  have hordered : e.primedVars.Pairwise
      fun i j => (e.reads true).idxOf i < (e.reads true).idxOf j :=
    primedVars_eq e ▸ pairwise_idxOf_eraseDups (e.reads true)
  exact ⟨⟨hnodup, fun _ => mem_primedVars, hordered, primedVars_ne_nil_iff⟩,
    fun _ _ halike => halike.eval_eq,
    fun hfree current next next' => (alike_of_free hfree current next next').eval_eq⟩

/-- The new `c` is below the new `a`, and equal to `b`. -/
def wedged : Expr :=
  logic .and (apply .lt (var 2 "c" true) (var 0 "a" true))
    (apply .eq (var 2 "c" true) (var 1 "b" false))

def aboveThree : Expr :=
  apply .gt (var 1 "b" false) (literal (.int 3))

/-- Changes of `a`, `c` and the new `b` go unnoticed. Without a next state it is the new `c` that is
missing, whatever `a` is, unless nothing is primed. -/
theorem wedged_sees_reads :
    (wedged.primedVars = [2, 0] ∧ wedged.reads true = [2, 0, 2] ∧
      ∀ i, i ∈ wedged.primedVars ↔ i ∈ wedged.reads true) ∧
    (wedged.Alike ⟨[.int 1, .int 5, .int 2], some [.int 8, .int 0, .int 5]⟩
        ⟨[.bool true, .int 5, .int 9], some [.int 8, .bool false, .int 5]⟩ ∧
      wedged.eval ⟨[.int 1, .int 5, .int 2], some [.int 8, .int 0, .int 5]⟩ = .ok (.bool true) ∧
      wedged.eval ⟨[.bool true, .int 5, .int 9], some [.int 8, .bool false, .int 5]⟩ =
        .ok (.bool true)) ∧
    (wedged.Alike ⟨[.int 1, .int 5], none⟩ ⟨[.int 2, .int 5], none⟩ ∧
      wedged.eval ⟨[.int 1, .int 5], none⟩ = .error (.primedReadWithoutNext "c") ∧
      wedged.eval ⟨[.int 2, .int 5], none⟩ = .error (.primedReadWithoutNext "c")) ∧
    (aboveThree.containsPrimes = false ∧
      aboveThree.eval ⟨[.int 1, .int 5], some []⟩ = aboveThree.eval ⟨[.int 1, .int 5], none⟩) := by
  obtain ⟨⟨-, hmem, -, -⟩, hsame, -⟩ := evaluation_sees_reads wedged
  obtain ⟨-, -, hfree⟩ := evaluation_sees_reads aboveThree
  have hpresent : wedged.Alike ⟨[.int 1, .int 5, .int 2], some [.int 8, .int 0, .int 5]⟩
      ⟨[.bool true, .int 5, .int 9], some [.int 8, .bool false, .int 5]⟩ :=
    ⟨⟨rfl, by decide⟩, fun _ => .some ⟨rfl, by decide⟩⟩
  have habsent : wedged.Alike ⟨[.int 1, .int 5], none⟩ ⟨[.int 2, .int 5], none⟩ :=
    ⟨⟨rfl, by decide⟩, fun _ => .none⟩
  have htrue : wedged.eval ⟨[.int 1, .int 5, .int 2], some [.int 8, .int 0, .int 5]⟩ =
    .ok (.bool true) := rfl
  have hfails : wedged.eval ⟨[.int 1, .int 5], none⟩ = .error (.primedReadWithoutNext "c") := rfl
  exact ⟨⟨by decide, by decide, hmem⟩, ⟨hpresent, htrue, (hsame _ _ hpresent).symm.trans htrue⟩,
    ⟨habsent, hfails, (hsame _ _ habsent).symm.trans hfails⟩, rfl, hfree rfl _ _ _⟩

end Expr
end StochasticGames.Valuation
