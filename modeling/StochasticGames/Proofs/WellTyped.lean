import StochasticGames.Valuation.Eval

/-! Well-typed expressions evaluate to values of their kind, unless arithmetic itself fails. -/
namespace StochasticGames.Valuation

/-- The values of a kind. Integers have 64 bits. -/
inductive Value.Of : Kind → Value → Prop
  | int {n : Int} (h : Value.inRange n = true) : Of .int (.int n)
  | bool (b : Bool) : Of .bool (.bool b)
  | double (x : Float) : Of .double (.double x)

inductive Kind.Number : Kind → Prop
  | int : Number .int
  | double : Number .double

/-- What an operator makes of operands of two kinds. -/
inductive Operation.Typed : Operation → Kind → Kind → Kind → Prop
  | ints {op : Operation} (hop : op ∈ [.add, .sub, .mul]) : Typed op .int .int .int
  | doubles {op : Operation} {a b : Kind} (hop : op ∈ [.add, .sub, .mul]) (ha : a.Number)
      (hb : b.Number) (hmixed : ¬ (a = .int ∧ b = .int)) : Typed op a b .double
  | quotient {a b : Kind} (ha : a.Number) (hb : b.Number) : Typed .div a b .double
  | truths {op : Operation} (hop : op ∈ [.eq, .ne]) : Typed op .bool .bool .bool
  | equality {op : Operation} {a b : Kind} (hop : op ∈ [.eq, .ne]) (ha : a.Number)
      (hb : b.Number) : Typed op a b .bool
  | order {op : Operation} {a b : Kind} (hop : op ∈ [.lt, .le, .gt, .ge]) (ha : a.Number)
      (hb : b.Number) : Typed op a b .bool

/-- An expression of a kind, where `types` are the kinds of the variables. -/
inductive Expr.Typed (types : List Kind) : Expr → Kind → Prop
  | literal {v : Value} {k : Kind} (hv : v.Of k) : Typed types (literal v) k
  | var {index : Nat} {name : String} {primed : Bool} {k : Kind} (hk : types[index]? = some k) :
      Typed types (var index name primed) k
  | not {e : Expr} (he : e.Typed types .bool) : Typed types (unary .not e) .bool
  | neg {e : Expr} {k : Kind} (hk : k.Number) (he : e.Typed types k) : Typed types (unary .neg e) k
  | logic {op : Connective} {l r : Expr} (hl : l.Typed types .bool) (hr : r.Typed types .bool) :
      Typed types (logic op l r) .bool
  | apply {op : Operation} {l r : Expr} {a b k : Kind} (hl : l.Typed types a)
      (hr : r.Typed types b) (hop : op.Typed a b k) : Typed types (apply op l r) k
  | cond {c t e : Expr} {k : Kind} (hc : c.Typed types .bool) (ht : t.Typed types k)
      (he : e.Typed types k) : Typed types (cond c t e) k

/-- Every variable has a value of its kind. -/
def Holds (types : List Kind) (values : List Value) : Prop :=
  ∀ (i : Nat) (k : Kind), types[i]? = some k → ∃ v : Value, values[i]? = some v ∧ v.Of k

/-- The variables have their kinds wherever an expression may read them: in the current state, and
in the next one if it reads that at all. -/
structure Context.Serves (ctx : Context) (types : List Kind) (e : Expr) : Prop where
  current : Holds types ctx.current
  next : e.containsPrimes = true → ∃ next, ctx.next = some next ∧ Holds types next

/-- What an operator can run into although its operands are of the right kinds. -/
def Operation.faults : Operation → List ValuationError
  | .add | .sub | .mul => [.overflow]
  | .div => [.divisionByZero]
  | .eq | .ne => []
  | .lt | .le | .gt | .ge => [.unordered]

def UnaryOp.faults : UnaryOp → List ValuationError
  | .not => []
  | .neg => [.overflow]

/-- What the operators of an expression can run into. -/
def Expr.faults : Expr → List ValuationError
  | literal _ | var .. => []
  | unary op e => e.faults ++ op.faults
  | logic _ l r => l.faults ++ r.faults
  | apply op l r => l.faults ++ r.faults ++ op.faults
  | cond c t e => c.faults ++ t.faults ++ e.faults

theorem Expr.faults_subset (e : Expr) :
    e.faults ⊆ [.overflow, .divisionByZero, .unordered] := by
  induction e with
  | literal v => exact List.nil_subset _
  | var index name primed => exact List.nil_subset _
  | unary op e ih => cases op <;> simpa [faults, UnaryOp.faults] using ih
  | logic op l r ihl ihr => exact List.append_subset.mpr ⟨ihl, ihr⟩
  | apply op l r ihl ihr =>
    refine List.append_subset.mpr ⟨List.append_subset.mpr ⟨ihl, ihr⟩, ?_⟩
    cases op <;> simp [Operation.faults]
  | cond c t e ihc iht ihe =>
    exact List.append_subset.mpr ⟨List.append_subset.mpr ⟨ihc, iht⟩, ihe⟩

/-- The outcome is as `P` says, or one of the listed failures. -/
def Safely {β : Type} (faults : List ValuationError) (P : β → Prop) :
    Except ValuationError β → Prop
  | .ok b => P b
  | .error fault => fault ∈ faults

section Safely
variable {β γ : Type} {faults faults' : List ValuationError} {P : β → Prop} {Q : γ → Prop}
  {r : Except ValuationError β} {f : β → Except ValuationError γ}

theorem Safely.mono (h : Safely faults P r) (hsub : faults ⊆ faults') : Safely faults' P r := by
  cases r with
  | ok b => exact h
  | error fault => exact hsub h

/-- Where the first step comes to a result as `P` says, the second goes on from there. -/
theorem Safely.bind (h : Safely faults P r) (hf : ∀ b, P b → Safely faults' Q (f b)) :
    Safely (faults ++ faults') Q (r >>= f) := by
  cases r with
  | ok b => exact (hf b h).mono (List.subset_append_right faults faults')
  | error fault => exact List.mem_append_left faults' h

end Safely

section Operators
variable {k a b : Kind} {v w : Value}

theorem Value.Of.asBool (h : v.Of .bool) : ∃ b, v.asBool = .ok b := by
  cases h with
  | bool b => exact ⟨b, rfl⟩

theorem Value.Of.asDouble (h : v.Of k) (hk : k.Number) : ∃ x, v.asDouble = .ok x := by
  cases h with
  | int _ => exact ⟨_, rfl⟩
  | bool b => cases hk
  | double x => exact ⟨x, rfl⟩

theorem safely_asBool (h : v.Of .bool) : Safely [] (fun _ : Bool => True) v.asBool := by
  obtain ⟨b, hb⟩ := h.asBool
  rw [hb]
  trivial

theorem safely_checked (n : Int) : Safely [.overflow] (Value.Of .int) (Value.checked n) := by
  unfold Value.checked
  split
  · next h => exact .int h
  · exact List.mem_singleton_self _

theorem UnaryOp.safely_neg (hk : k.Number) (h : v.Of k) :
    Safely [.overflow] (Value.Of k) (UnaryOp.neg.eval v) := by
  cases h with
  | int _ => exact safely_checked _
  | bool b => cases hk
  | double x => exact .double _

theorem UnaryOp.safely_not (h : v.Of .bool) : Safely [] (Value.Of .bool) (UnaryOp.not.eval v) := by
  cases h with
  | bool b => exact .bool _

/-- Unless both operands are integers, arithmetic is done in doubles. -/
theorem Operation.arithmetic_eq {op : Operation} (hop : op ∈ [.add, .sub, .mul]) (hv : v.Of a)
    (hw : w.Of b) (ha : a.Number) (hb : b.Number) (hmixed : ¬ (a = .int ∧ b = .int)) :
    ∃ x, op.eval v w = .ok (.double x) := by
  simp only [List.mem_cons, List.not_mem_nil, or_false] at hop
  cases ha <;> cases hb
  · exact absurd ⟨rfl, rfl⟩ hmixed
  all_goals
    cases hv
    cases hw
    rcases hop with rfl | rfl | rfl <;> exact ⟨_, rfl⟩

/-- Any two numbers are equal or not. -/
theorem Operation.equality_eq {op : Operation} (hop : op ∈ [.eq, .ne]) (hv : v.Of a) (hw : w.Of b)
    (ha : a.Number) (hb : b.Number) : ∃ c, op.eval v w = .ok (.bool c) := by
  simp only [List.mem_cons, List.not_mem_nil, or_false] at hop
  cases ha <;> cases hb
  all_goals
    cases hv
    cases hw
    rcases hop with rfl | rfl <;> exact ⟨_, rfl⟩

theorem safely_unless (unordered c : Bool) : Safely [.unordered] (Value.Of .bool)
    (if unordered then .error .unordered else .ok (.bool c)) := by
  cases unordered with
  | true => exact List.mem_singleton_self _
  | false => exact .bool c

/-- Integers have an order, and doubles have one unless they are no numbers. -/
theorem Operation.safely_order {op : Operation} (hop : op ∈ [.lt, .le, .gt, .ge]) (hv : v.Of a)
    (hw : w.Of b) (ha : a.Number) (hb : b.Number) :
    Safely [.unordered] (Value.Of .bool) (op.eval v w) := by
  simp only [List.mem_cons, List.not_mem_nil, or_false] at hop
  cases ha <;> cases hb <;> cases hv <;> cases hw
  case int.int.int.int => rcases hop with rfl | rfl | rfl | rfl <;> exact .bool _
  all_goals rcases hop with rfl | rfl | rfl | rfl <;> exact safely_unless _ _

theorem Operation.safely_eval {op : Operation} (h : op.Typed a b k) (hv : v.Of a) (hw : w.Of b) :
    Safely op.faults (Value.Of k) (op.eval v w) := by
  cases h with
  | ints hop =>
    cases hv
    cases hw
    simp only [List.mem_cons, List.not_mem_nil, or_false] at hop
    rcases hop with rfl | rfl | rfl <;> exact safely_checked _
  | doubles hop ha hb hmixed =>
    obtain ⟨x, hx⟩ := arithmetic_eq hop hv hw ha hb hmixed
    rw [hx]
    exact .double x
  | quotient ha hb =>
    obtain ⟨x, hx⟩ := hv.asDouble ha
    obtain ⟨y, hy⟩ := hw.asDouble hb
    have heval : div.eval v w = if y == 0 then .error .divisionByZero else .ok (.double (x / y)) := by
      rw [eval, hx, hy]
      rfl
    rw [heval]
    split
    · exact List.mem_singleton_self _
    · exact .double _
  | truths hop =>
    cases hv
    cases hw
    simp only [List.mem_cons, List.not_mem_nil, or_false] at hop
    rcases hop with rfl | rfl <;> exact .bool _
  | equality hop ha hb =>
    obtain ⟨c, hc⟩ := equality_eq hop hv hw ha hb
    rw [hc]
    exact .bool c
  | order hop ha hb =>
    refine (safely_order hop hv hw ha hb).mono ?_
    simp only [List.mem_cons, List.not_mem_nil, or_false] at hop
    rcases hop with rfl | rfl | rfl | rfl <;> exact List.Subset.refl _

end Operators

section Expressions
variable {ctx : Context} {types : List Kind} {e e' : Expr} {k : Kind} {index : Nat}

theorem Context.Serves.mono (h : ctx.Serves types e)
    (hprimes : e'.containsPrimes = true → e.containsPrimes = true) : ctx.Serves types e' :=
  ⟨h.current, fun he => h.next (hprimes he)⟩

theorem Holds.lookup {values : List Value} (h : Holds types values) (hk : types[index]? = some k) :
    ∃ v : Value, Context.lookup values index = .ok v ∧ v.Of k := by
  obtain ⟨v, hv, hof⟩ := h index k hk
  exact ⟨v, by rw [Context.lookup, hv], hof⟩

theorem Context.Serves.read {name : String} {primed : Bool}
    (h : ctx.Serves types (.var index name primed)) (hk : types[index]? = some k) :
    ∃ v : Value, ctx.read index name primed = .ok v ∧ v.Of k := by
  cases primed with
  | false => exact h.current.lookup hk
  | true =>
    obtain ⟨next, hnext, hholds⟩ := h.next rfl
    simp only [Context.read, if_true, hnext]
    exact hholds.lookup hk

theorem safely_truth {faults : List ValuationError} {r : Except ValuationError Value}
    (h : Safely faults (Value.Of .bool) r) :
    Safely faults (Value.Of .bool) (do return .bool (← (← r).asBool)) := by
  cases r with
  | error fault => exact h
  | ok v =>
    obtain ⟨b, hb⟩ := Value.Of.asBool h
    show Safely faults (Value.Of .bool) (v.asBool >>= fun b => .ok (.bool b))
    rw [hb]
    exact .bool b

/-- An expression comes to a value of its kind, or one of its operators fails. -/
theorem Expr.Typed.safely_eval (h : e.Typed types k) (hctx : ctx.Serves types e) :
    Safely e.faults (Value.Of k) (e.eval ctx) := by
  induction h with
  | literal hv => exact hv
  | var hk =>
    obtain ⟨v, hv, hof⟩ := hctx.read hk
    rw [eval, hv]
    exact hof
  | not _ ih => exact (ih (hctx.mono id)).bind fun v hv => UnaryOp.safely_not hv
  | neg hk _ ih => exact (ih (hctx.mono id)).bind fun v hv => UnaryOp.safely_neg hk hv
  | @logic op l r _ _ ihl ihr =>
    have hl := ihl (hctx.mono fun h => by simp [containsPrimes, h])
    have hr := ihr (hctx.mono fun h => by simp [containsPrimes, h])
    refine hl.bind fun v hv => (safely_asBool hv).bind fun b _ => ?_
    cases op.settled? b with
    | some c => exact .bool c
    | none => exact safely_truth hr
  | @apply op l r _ _ _ _ _ hop ihl ihr =>
    have hl := ihl (hctx.mono fun h => by simp [containsPrimes, h])
    have hr := ihr (hctx.mono fun h => by simp [containsPrimes, h])
    rw [faults, List.append_assoc]
    exact hl.bind fun v hv => hr.bind fun w hw => Operation.safely_eval hop hv hw
  | @cond c t e _ _ _ _ ihc iht ihe =>
    have hc := ihc (hctx.mono fun h => by simp [containsPrimes, h])
    have ht := iht (hctx.mono fun h => by simp [containsPrimes, h])
    have he := ihe (hctx.mono fun h => by simp [containsPrimes, h])
    rw [faults, List.append_assoc]
    refine hc.bind fun v hv => (safely_asBool hv).bind fun b _ => ?_
    cases b with
    | true => exact ht.mono (List.subset_append_left _ _)
    | false => exact he.mono (List.subset_append_right _ _)

/-- Evaluation keeps types. Where the variables have values of their kinds, a well-typed expression
comes to a value of its own kind, or an operator in it fails in one of the three ways that no type
rules out. -/
theorem evaluation_keeps_types (h : e.Typed types k) (hctx : ctx.Serves types e) :
    (∃ v : Value, e.eval ctx = .ok v ∧ v.Of k) ∨ ∃ fault, e.eval ctx = .error fault ∧
      fault ∈ e.faults ∧ (fault = .overflow ∨ fault = .divisionByZero ∨ fault = .unordered) := by
  have hsafe := h.safely_eval hctx
  cases heval : e.eval ctx with
  | ok v =>
    rw [heval] at hsafe
    exact .inl ⟨v, rfl, hsafe⟩
  | error fault =>
    rw [heval] at hsafe
    exact .inr ⟨fault, rfl, hsafe, by simpa using e.faults_subset hsafe⟩

end Expressions

section Capped

/-- While `b` becomes true below three, `x` changes its sign. Elsewhere it is squared. -/
def capped : Expr :=
  .cond (.logic .and (.var 1 "b" true) (.apply .lt (.var 0 "x" false) (.literal (.int 3))))
    (.unary .neg (.var 0 "x" false)) (.apply .mul (.var 0 "x" false) (.var 0 "x" false))

def cappedContext : Context :=
  ⟨[.int 5, .bool false], some [.int 5, .bool true]⟩

private theorem holds_capped (b : Bool) : Holds [.int, .bool] [.int 5, .bool b] := by
  intro i k hk
  match i with
  | 0 =>
    obtain rfl : Kind.int = k := Option.some.inj hk
    exact ⟨_, rfl, .int (by decide)⟩
  | 1 =>
    obtain rfl : Kind.bool = k := Option.some.inj hk
    exact ⟨_, rfl, .bool b⟩
  | i + 2 => cases hk

theorem capped_keeps_types : capped.Typed [.int, .bool] .int ∧
    cappedContext.Serves [.int, .bool] capped ∧
    ((∃ v : Value, capped.eval cappedContext = .ok v ∧ v.Of .int) ∨
      ∃ fault, capped.eval cappedContext = .error fault ∧ fault ∈ capped.faults ∧
        (fault = .overflow ∨ fault = .divisionByZero ∨ fault = .unordered)) := by
  have hx : Expr.Typed [.int, .bool] (.var 0 "x" false) .int := .var rfl
  have htyped : capped.Typed [.int, .bool] .int :=
    .cond (.logic (.var rfl) (.apply hx (.literal (.int (by decide)))
      (.order (List.mem_cons_self) .int .int)))
      (.neg .int hx) (.apply hx hx (.ints (by decide)))
  have hserves : cappedContext.Serves [.int, .bool] capped :=
    ⟨holds_capped false, fun _ => ⟨_, rfl, holds_capped true⟩⟩
  exact ⟨htyped, hserves, evaluation_keeps_types htyped hserves⟩

end Capped
end StochasticGames.Valuation
