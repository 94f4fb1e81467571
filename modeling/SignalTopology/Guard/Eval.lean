import SignalTopology.Guard.Parser
import SignalTopology.Trace

/-!
# Guard evaluation

Both operands of a binary operator are evaluated before it is applied, `and`
and `or` included. Arithmetic on two integers is checked except for the unary
minus, which is the machine operation and wraps in a release build.
-/

namespace SignalTopology.Guard

/-- The scalar values of guard evaluation. -/
inductive Value where
  | integer (i : Int64)
  | float (f : Float)
  | string (s : String)
  | bool (b : Bool)
  | null
  deriving DecidableEq

/-- The exact result, or nothing when it leaves the `i64` range. -/
def checked (result : Int) : Option Int64 :=
  if Int64.minValue.toInt ≤ result ∧ result ≤ Int64.maxValue.toInt then some (Int64.ofInt result)
  else none

/-- `Option::ok_or_else` with a message. -/
def okOr {α : Type} (message : String) : Option α → Except String α
  | some a => .ok a
  | none => .error message

/-- `as f64`. -/
def intToFloat (i : Int64) : Float := Float.ofInt i.toInt

/-- `as_bool`, also the final coercion of `eval_guard`. -/
def asBool : Value → Bool
  | .bool b => b
  | .null => false
  | .integer i => i ≠ 0
  | .float f => f != 0.0
  | .string s => s ≠ ""

def valuesEqual : Value → Value → Bool
  | .null, .null => true
  | .bool a, .bool b => a = b
  | .integer a, .integer b => a = b
  | .integer a, .float b => intToFloat a == b
  | .float a, .integer b => a == intToFloat b
  | .float a, .float b => a == b
  | .string a, .string b => a = b
  | _, _ => false

/-- `f64::partial_cmp`: a NaN compares with nothing. -/
def partialCmp (a b : Float) : Option Ordering :=
  if a < b then some .lt
  else if b < a then some .gt
  else if a == b then some .eq
  else none

variable [RustStd]

/-- The derived `{:?}` text of a value. -/
def Value.debug : Value → String
  | integer i => "Integer(" ++ toString i.toInt ++ ")"
  | float f => "Float(" ++ RustStd.debugF64 f ++ ")"
  | string s => "String(" ++ RustStd.debugStr s ++ ")"
  | bool b => "Bool(" ++ (if b then "true" else "false") ++ ")"
  | null => "Null"

def valueOrdering : Value → Value → Except String Ordering
  | .integer a, .integer b => .ok (compare a.toInt b.toInt)
  | .integer a, .float b => okOr "Cannot compare floats" (partialCmp (intToFloat a) b)
  | .float a, .integer b => okOr "Cannot compare floats" (partialCmp a (intToFloat b))
  | .float a, .float b => okOr "Cannot compare floats" (partialCmp a b)
  | .string a, .string b => .ok (if a < b then .lt else if a = b then .eq else .gt)
  | a, b => .error ("Cannot compare " ++ a.debug ++ " and " ++ b.debug)

/-- `compare`: false as soon as one side is null. -/
def compareValues (left right : Value) (pred : Ordering → Bool) : Except String Value :=
  if left = .null ∨ right = .null then .ok (.bool false)
  else do
    let ord ← valueOrdering left right
    .ok (.bool (pred ord))

def applyNumeric (left right : Value) (intOp : Int64 → Int64 → Except String Int64)
    (floatOp : Float → Float → Except String Float) : Except String Value :=
  match left, right with
  | .integer a, .integer b => (intOp a b).map .integer
  | .integer a, .float b => (floatOp (intToFloat a) b).map .float
  | .float a, .integer b => (floatOp a (intToFloat b)).map .float
  | .float a, .float b => (floatOp a b).map .float
  | _, _ =>
      .error ("Cannot perform arithmetic on " ++ left.debug ++ " and " ++ right.debug)

section
variable [SerdeJson]

def jsonToValue : JsonValue → Except String Value
  | .null => .ok .null
  | .bool b => .ok (.bool b)
  | .number n =>
      match n.asI64, n.asF64 with
      | some i, _ => .ok (.integer i)
      | none, some f => .ok (.float f)
      | none, none => .error ("Unsupported number: " ++ SerdeJson.valueToString (.number n))
  | .string s => .ok (.string s)
  | _ => .error "Unsupported JSON value type"

/-- Follow `path` through nested objects; leaving them reads null. -/
def accessPayload (payload : JsonValue) (path : List String) : Except String Value :=
  match path with
  | [] => jsonToValue payload
  | part :: path =>
      match payload with
      | .object map => accessPayload ((JsonMap.get map part).getD .null) path
      | _ => .ok .null

def applyBinary (op : BinaryOp) (left right : Value) : Except String Value :=
  match op with
  | .add => applyNumeric left right
      (fun a b => okOr "Integer overflow" (checked (a.toInt + b.toInt))) (fun a b => .ok (a + b))
  | .sub => applyNumeric left right
      (fun a b => okOr "Integer overflow" (checked (a.toInt - b.toInt))) (fun a b => .ok (a - b))
  | .mul => applyNumeric left right
      (fun a b => okOr "Integer overflow" (checked (a.toInt * b.toInt))) (fun a b => .ok (a * b))
  | .div => applyNumeric left right
      (fun a b => okOr "Division by zero"
        (if b = 0 then none else checked (a.toInt.tdiv b.toInt)))
      (fun a b => if b == 0.0 then .error "Division by zero" else .ok (a / b))
  | .eq => .ok (.bool (valuesEqual left right))
  | .neq => .ok (.bool !(valuesEqual left right))
  | .lt => compareValues left right (· = .lt)
  | .lte => compareValues left right (· ≠ .gt)
  | .gt => compareValues left right (· = .gt)
  | .gte => compareValues left right (· ≠ .lt)
  | .and => .ok (.bool (asBool left && asBool right))
  | .or => .ok (.bool (asBool left || asBool right))

def applyUnary (op : UnaryOp) (value : Value) : Except String Value :=
  match op, value with
  | .not, value => .ok (.bool !(asBool value))
  | .neg, .integer i => .ok (.integer (-i))
  | .neg, .float f => .ok (.float (-f))
  | .neg, value => .error ("Cannot negate " ++ value.debug)

def eval (expr : Expr) (ctx : ActionContext) : Except String Value :=
  match expr with
  | .literal (.integer i) => .ok (.integer i)
  | .literal (.float f) => .ok (.float f)
  | .literal (.string s) => .ok (.string s)
  | .literal (.bool b) => .ok (.bool b)
  | .payloadAccess path =>
      match ctx.payload with
      | some payload => accessPayload payload path
      | none => .error "No payload available"
  | .identifier name => .error ("Unknown identifier: " ++ name)
  | .unary op expr => do
      let value ← eval expr ctx
      applyUnary op value
  | .binary left op right => do
      let leftValue ← eval left ctx
      let rightValue ← eval right ctx
      applyBinary op leftValue rightValue

/-- Evaluate a guard text against a context. -/
def evalGuard (guard : String) (ctx : ActionContext) : Except String Bool := do
  let tokens ← tokenize guard
  let expr ← parse tokens
  let value ← eval expr ctx
  .ok (asBool value)

end

end SignalTopology.Guard
