import SignalTopology.Guard.Missing

/-!
# What a guard reads

Of all the payload a guard only sees what its payload paths lead to.
-/

namespace SignalTopology.Guard

/-- The paths after `payload` in an expression. -/
def Expr.reads : Expr → List (List String)
  | payloadAccess path => [path]
  | unary _ expr => expr.reads
  | binary left _ right => left.reads ++ right.reads
  | literal _ | identifier _ => []

section

variable [RustStd] [SerdeJson]

/-- What a path leads to in the payload of an event. -/
def readPayload (payload : Option JsonValue) (path : List String) : Except String Value :=
  match payload with
  | some payload => accessPayload payload path
  | none => .error "No payload available"

/-- Payloads with the same content along all paths give an expression the same value. -/
theorem eval_reads {expr : Expr} {ctx ctx' : ActionContext}
    (same : ∀ path ∈ expr.reads, readPayload ctx'.payload path = readPayload ctx.payload path) :
    eval expr ctx' = eval expr ctx := by
  induction expr with
  | literal value => cases value <;> rfl
  | payloadAccess path => exact same path List.mem_cons_self
  | identifier name => rfl
  | unary op expr ih => rw [eval, eval, ih same]
  | binary left op right ihl ihr =>
      rw [eval, eval, ihl fun path member => same path (List.mem_append_left _ member),
        ihr fun path member => same path (List.mem_append_right _ member)]

end

/-- The expression that a guard text stands for. -/
def readGuard [RustStd] (guard : String) : Except String Expr := tokenize guard >>= parse

/-- The paths in the text of a guard, if it is one. -/
def guardReads [RustStd] (guard : String) : List (List String) :=
  match readGuard guard with
  | .ok expr => expr.reads
  | .error _ => []

section

variable [RustStd] [SerdeJson]

theorem evalGuard_eq (guard : String) (ctx : ActionContext) :
    evalGuard guard ctx = readGuard guard >>= fun expr => (eval expr ctx).map asBool := by
  cases read : tokenize guard with
  | error e => simp only [evalGuard, readGuard, bind, Except.bind, read]
  | ok tokens =>
      cases parsed : parse tokens with
      | error e => simp only [evalGuard, readGuard, bind, Except.bind, read, parsed]
      | ok expr =>
          rw [evalGuard_parsed read parsed]
          simp only [readGuard, bind, Except.bind, read, parsed]

/-- Payloads with the same content along all paths of a guard give it the same outcome. -/
theorem evalGuard_reads {guard : String} {ctx ctx' : ActionContext}
    (same : ∀ path ∈ guardReads guard,
      readPayload ctx'.payload path = readPayload ctx.payload path) :
    evalGuard guard ctx' = evalGuard guard ctx := by
  rw [evalGuard_eq, evalGuard_eq]
  unfold guardReads at same
  cases read : readGuard guard with
  | error e => rfl
  | ok expr =>
      rw [read] at same
      exact congrArg (Except.map asBool) (eval_reads same)

end

end SignalTopology.Guard
