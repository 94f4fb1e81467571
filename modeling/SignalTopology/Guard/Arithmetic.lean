import SignalTopology.Guard.Missing
import SignalTopology.Library.Fallible

/-!
# Integer arithmetic in guards

The exact meaning of a guard over the integers, without a bound on their size,
beside the machine arithmetic of `eval`. Every operator of `eval` checks its
result except the unary minus, so the two agree until a minus is applied to
`i64::MIN`: there a checked build panics and a release build wraps.
-/

namespace SignalTopology.Guard

open Fallible

/-- The result of an integer guard in exact arithmetic. -/
inductive Exact where
  | int (z : Int)
  | bool (b : Bool)
  deriving DecidableEq

namespace Exact

/-- An integer inside the `i64` range; every truth value. -/
def Fits : Exact → Prop
  | int z => Int64.minValue.toInt ≤ z ∧ z ≤ Int64.maxValue.toInt
  | bool _ => True

def truth : Exact → Bool
  | int z => z ≠ 0
  | bool b => b

/-- Negation, of integers or of truth. -/
def unary : UnaryOp → Exact → Option Exact
  | .not, x => some (bool !x.truth)
  | .neg, int z => some (int (-z))
  | .neg, bool _ => none

/-- The operators on exact operands. Division truncates toward zero, and nothing
orders two truth values. -/
def binary : BinaryOp → Exact → Exact → Option Exact
  | .add, int a, int b => some (int (a + b))
  | .sub, int a, int b => some (int (a - b))
  | .mul, int a, int b => some (int (a * b))
  | .div, int a, int b => if b = 0 then none else some (int (a.tdiv b))
  | .eq, x, y => some (bool (x = y))
  | .neq, x, y => some (bool (x ≠ y))
  | .lt, int a, int b => some (bool (a < b))
  | .lte, int a, int b => some (bool (a ≤ b))
  | .gt, int a, int b => some (bool (b < a))
  | .gte, int a, int b => some (bool (b ≤ a))
  | .and, x, y => some (bool (x.truth && y.truth))
  | .or, x, y => some (bool (x.truth || y.truth))
  | _, _, _ => none

/-- The operators defined on integers only. -/
def onIntegers : BinaryOp → Bool
  | .eq | .neq | .and | .or => false
  | _ => true

theorem binary_bool_left {op : BinaryOp} (h : onIntegers op = true) (b : Bool) (y : Exact) :
    binary op (bool b) y = none := by
  cases op with
  | eq | neq | and | or => cases h
  | _ => rfl

theorem binary_bool_right {op : BinaryOp} (h : onIntegers op = true) (x : Exact) (b : Bool) :
    binary op x (bool b) = none := by
  cases op with
  | eq | neq | and | or => cases h
  | _ => cases x <;> rfl

end Exact

/-- The machine value of an exact result. -/
inductive Represents : Value → Exact → Prop where
  | integer (i : Int64) : Represents (.integer i) (.int i.toInt)
  | bool (b : Bool) : Represents (.bool b) (.bool b)

namespace Represents

variable {v w : Value} {x y : Exact}

theorem fits (h : Represents v x) : x.Fits := by
  cases h with
  | integer i => exact ⟨i.minValue_le_toInt, i.toInt_le⟩
  | bool b => trivial

theorem truth (h : Represents v x) : asBool v = x.truth := by
  cases h with
  | integer i => simp [asBool, Exact.truth, ← Int64.toInt_inj]
  | bool b => rfl

/-- Equality of values is equality of what they stand for. -/
theorem equal (first : Represents v x) (second : Represents w y) :
    valuesEqual v w = decide (x = y) := by
  cases first <;> cases second <;> simp [valuesEqual, Int64.toInt_inj]

end Represents

theorem ofInt_fits {z : Int} (h : (Exact.int z).Fits) : (Int64.ofInt z).toInt = z := by
  obtain ⟨low, high⟩ := h
  rw [Int64.toInt_minValue] at low
  rw [Int64.toInt_maxValue] at high
  exact Int64.toInt_ofInt_of_le low (by omega)

theorem checked_some {z : Int} {i : Int64} (h : checked z = some i) : i.toInt = z := by
  unfold checked at h
  split at h
  · next range =>
      obtain rfl := Option.some.inj h
      exact ofInt_fits range
  · cases h

theorem checked_fits {z : Int} (h : (Exact.int z).Fits) : checked z = some (Int64.ofInt z) :=
  if_pos h

theorem checked_represents {z : Int} (h : (Exact.int z).Fits) :
    Represents (.integer (Int64.ofInt z)) (.int z) := by
  have exact := Represents.integer (Int64.ofInt z)
  rwa [ofInt_fits h] at exact

/-- `Agrees result exact`: a computed result is the exact one, in range, or the
computation failed where the exact result does not exist or does not fit. -/
inductive Agrees : Except String Value → Option Exact → Prop where
  | value {v : Value} {x : Exact} (same : Represents v x) : Agrees (.ok v) (some x)
  | error {message : String} {result : Option Exact}
      (none : ∀ x, result = some x → ¬x.Fits) : Agrees (.error message) result

/-- A checked machine operation agrees with the exact operation. -/
theorem agrees_checked (message : String) (z : Int) :
    Agrees ((okOr message (checked z)).map .integer) (some (.int z)) := by
  by_cases h : (Exact.int z).Fits
  · rw [checked_fits h]
    exact .value (checked_represents h)
  · cases done : checked z with
    | none =>
        refine .error ?_
        rintro x ⟨⟩
        exact h
    | some i =>
        have exact := Represents.integer i
        rw [checked_some done] at exact
        exact absurd exact.fits h

theorem neg_exact {i : Int64} (h : i.toInt ≠ Int64.minValue.toInt) : (-i).toInt = -i.toInt := by
  rw [Int64.toInt_minValue] at h
  have low := i.le_toInt
  have high := i.toInt_lt
  rw [Int64.toInt_neg, Int.bmod_eq_of_le]
  all_goals omega

theorem agrees_div (i j : Int64) :
    Agrees ((okOr "Division by zero"
      (if j = 0 then none else checked (i.toInt.tdiv j.toInt))).map .integer)
      (Exact.binary .div (.int i.toInt) (.int j.toInt)) := by
  by_cases zero : j = 0
  · subst zero
    exact .error (by rintro x ⟨⟩)
  · have nonzero : j.toInt ≠ 0 := fun h => zero (Int64.toInt_inj.mp h)
    simp only [if_neg zero, Exact.binary, if_neg nonzero]
    exact agrees_checked _ _

section
variable [RustStd]
variable {v w : Value} {x y : Exact}

/-- Arithmetic on two integers; nothing else adds up. -/
theorem agrees_numeric {op : BinaryOp} (integers : Exact.onIntegers op = true)
    (first : Represents v x) (second : Represents w y)
    {intOp : Int64 → Int64 → Except String Int64}
    {floatOp : Float → Float → Except String Float}
    (exact : ∀ i j : Int64, Agrees ((intOp i j).map .integer)
      (Exact.binary op (.int i.toInt) (.int j.toInt))) :
    Agrees (applyNumeric v w intOp floatOp) (Exact.binary op x y) := by
  cases first with
  | integer i =>
      cases second with
      | integer j => exact exact i j
      | bool b =>
          rw [Exact.binary_bool_right integers]
          exact .error (by rintro x ⟨⟩)
  | bool b =>
      rw [Exact.binary_bool_left integers]
      cases second <;> exact .error (by rintro x ⟨⟩)

/-- An ordering of two integers; nothing else is ordered. -/
theorem agrees_compare {op : BinaryOp} (integers : Exact.onIntegers op = true)
    (first : Represents v x) (second : Represents w y) {pred : Ordering → Bool}
    (exact : ∀ a b : Int, Exact.binary op (.int a) (.int b) = some (.bool (pred (compare a b)))) :
    Agrees (compareValues v w pred) (Exact.binary op x y) := by
  cases first with
  | integer i =>
      cases second with
      | integer j =>
          rw [exact]
          exact .value (.bool _)
      | bool b =>
          rw [Exact.binary_bool_right integers]
          exact .error (by rintro x ⟨⟩)
  | bool b =>
      rw [Exact.binary_bool_left integers]
      cases second <;> exact .error (by rintro x ⟨⟩)

/-- Every binary operator agrees with its exact meaning. -/
theorem agrees_binary (op : BinaryOp) (first : Represents v x) (second : Represents w y) :
    Agrees (applyBinary op v w) (Exact.binary op x y) := by
  cases op with
  | add =>
      rw [applyBinary]
      exact agrees_numeric rfl first second fun i j => agrees_checked _ _
  | sub =>
      rw [applyBinary]
      exact agrees_numeric rfl first second fun i j => agrees_checked _ _
  | mul =>
      rw [applyBinary]
      exact agrees_numeric rfl first second fun i j => agrees_checked _ _
  | div =>
      rw [applyBinary]
      exact agrees_numeric rfl first second agrees_div
  | eq | neq =>
      simp only [applyBinary, first.equal second, Exact.binary]
      exact .value (by simpa using .bool _)
  | lt =>
      refine agrees_compare rfl first second fun a b => ?_
      simp [Exact.binary, Int.compare_eq_lt]
  | lte =>
      refine agrees_compare rfl first second fun a b => ?_
      simp [Exact.binary, Int.compare_ne_gt]
  | gt =>
      refine agrees_compare rfl first second fun a b => ?_
      simp [Exact.binary, Int.compare_eq_gt]
  | gte =>
      refine agrees_compare rfl first second fun a b => ?_
      simp [Exact.binary, Int.compare_ne_lt]
  | and | or =>
      simp only [applyBinary, first.truth, second.truth, Exact.binary]
      exact .value (.bool _)

end

/-! ## Expressions -/

section
variable [RustStd]

/-- How an evaluation in a build with overflow checks stops. -/
inductive Failure where
  | error (message : String)
  | panic
  deriving DecidableEq

/-- `applyUnary` with the overflow check of the machine negation. -/
def applyUnaryChecked (op : UnaryOp) (value : Value) : Except Failure Value :=
  match op, value with
  | .neg, .integer i => if i = Int64.minValue then .error .panic else .ok (.integer (-i))
  | op, value => mapErr .error (applyUnary op value)

/-- Away from the negation of `i64::MIN`, both builds apply a unary operator
alike and exactly. -/
theorem agrees_unary {v : Value} {x : Exact} (op : UnaryOp) (same : Represents v x)
    (safe : ¬(op = .neg ∧ x = .int Int64.minValue.toInt)) :
    Agrees (applyUnary op v) (Exact.unary op x) ∧
      applyUnaryChecked op v = mapErr .error (applyUnary op v) := by
  cases op with
  | not =>
      refine ⟨?_, rfl⟩
      rw [applyUnary, same.truth, Exact.unary]
      exact .value (.bool _)
  | neg =>
      cases same with
      | integer i =>
          have bound : i.toInt ≠ Int64.minValue.toInt := fun least => safe ⟨rfl, by rw [least]⟩
          have notLeast : i ≠ Int64.minValue := by
            rintro rfl
            exact bound rfl
          refine ⟨?_, by rw [applyUnaryChecked, if_neg notLeast]; rfl⟩
          rw [applyUnary, Exact.unary, ← neg_exact bound]
          exact .value (.integer _)
      | bool b => exact ⟨.error (by rintro x ⟨⟩), rfl⟩

variable [SerdeJson]

/-- `eval` in a build with overflow checks. -/
def evalChecked (expr : Expr) (ctx : ActionContext) : Except Failure Value :=
  match expr with
  | .unary op expr => do
      let value ← evalChecked expr ctx
      applyUnaryChecked op value
  | .binary left op right => do
      let leftValue ← evalChecked left ctx
      let rightValue ← evalChecked right ctx
      mapErr .error (applyBinary op leftValue rightValue)
  | expr => mapErr .error (eval expr ctx)

/-- Guards over integers: integer literals, payload reads that yield an `i64`,
and every operator. -/
inductive IntegerGuard (ctx : ActionContext) : Expr → Prop where
  | literal (i : Int64) : IntegerGuard ctx (.literal (.integer i))
  | read {path : List String} {i : Int64}
      (reads : eval (.payloadAccess path) ctx = .ok (.integer i)) :
      IntegerGuard ctx (.payloadAccess path)
  | unary (op : UnaryOp) {expr : Expr} (operand : IntegerGuard ctx expr) :
      IntegerGuard ctx (.unary op expr)
  | binary {left right : Expr} (op : BinaryOp) (first : IntegerGuard ctx left)
      (second : IntegerGuard ctx right) : IntegerGuard ctx (.binary left op right)

/-- The exact value of a guard over integers; nothing where it divides by zero,
orders truth values or adds them. -/
def exact (ctx : ActionContext) : Expr → Option Exact
  | .literal (.integer i) => some (.int i.toInt)
  | .payloadAccess path =>
      match eval (.payloadAccess path) ctx with
      | .ok (.integer i) => some (.int i.toInt)
      | _ => none
  | .unary op expr => (exact ctx expr).bind (Exact.unary op)
  | .binary left op right =>
      (exact ctx left).bind fun x => (exact ctx right).bind fun y => Exact.binary op x y
  | _ => none

/-- `Part whole part`: a sub-expression, the whole one included. -/
inductive Part : Expr → Expr → Prop where
  | whole (expr : Expr) : Part expr expr
  | unary {op : UnaryOp} {expr part : Expr} (inner : Part expr part) : Part (.unary op expr) part
  | left {left right part : Expr} {op : BinaryOp} (inner : Part left part) :
      Part (.binary left op right) part
  | right {left right part : Expr} {op : BinaryOp} (inner : Part right part) :
      Part (.binary left op right) part

/-- `Evaluates ctx whole part v`: the evaluation of `whole` computes `v` for its
sub-expression `part`. Operands are evaluated from the left, up to the first
failure. -/
inductive Evaluates (ctx : ActionContext) : Expr → Expr → Value → Prop where
  | whole {expr : Expr} {v : Value} (value : eval expr ctx = .ok v) : Evaluates ctx expr expr v
  | unary {op : UnaryOp} {expr part : Expr} {v : Value} (inner : Evaluates ctx expr part v) :
      Evaluates ctx (.unary op expr) part v
  | left {left right part : Expr} {op : BinaryOp} {v : Value}
      (inner : Evaluates ctx left part v) : Evaluates ctx (.binary left op right) part v
  | right {left right part : Expr} {op : BinaryOp} {v w : Value}
      (first : eval left ctx = .ok w) (inner : Evaluates ctx right part v) :
      Evaluates ctx (.binary left op right) part v

/-- Every sub-expression has an exact value, inside the `i64` range. -/
def Fits (ctx : ActionContext) (expr : Expr) : Prop :=
  ∀ part, Part expr part → ∃ x, exact ctx part = some x ∧ x.Fits

/-- A unary minus that evaluation reaches has the exact operand `i64::MIN`. -/
inductive NegatesMin (ctx : ActionContext) : Expr → Prop where
  | here {expr : Expr} (fits : Fits ctx expr)
      (least : exact ctx expr = some (.int Int64.minValue.toInt)) :
      NegatesMin ctx (.unary .neg expr)
  | unary {op : UnaryOp} {expr : Expr} (inner : NegatesMin ctx expr) :
      NegatesMin ctx (.unary op expr)
  | left {left right : Expr} {op : BinaryOp} (inner : NegatesMin ctx left) :
      NegatesMin ctx (.binary left op right)
  | right {left right : Expr} {op : BinaryOp} (fits : Fits ctx left)
      (inner : NegatesMin ctx right) : NegatesMin ctx (.binary left op right)

section
variable {ctx : ActionContext} {expr left right : Expr}

theorem Fits.whole (h : Fits ctx expr) : ∃ x, exact ctx expr = some x ∧ x.Fits :=
  h expr (.whole expr)

theorem fits_unary {op : UnaryOp} : Fits ctx (.unary op expr) ↔
    Fits ctx expr ∧ ∃ x, exact ctx (.unary op expr) = some x ∧ x.Fits := by
  constructor
  · exact fun h => ⟨fun part inner => h part (.unary inner), h.whole⟩
  · rintro ⟨inner, own⟩ part (_ | below)
    · exact own
    · exact inner part below

theorem fits_binary {op : BinaryOp} : Fits ctx (.binary left op right) ↔
    Fits ctx left ∧ Fits ctx right ∧
      ∃ x, exact ctx (.binary left op right) = some x ∧ x.Fits := by
  constructor
  · exact fun h => ⟨fun part inner => h part (.left inner),
      fun part inner => h part (.right inner), h.whole⟩
  · rintro ⟨first, second, own⟩ part (_ | _ | below | below)
    · exact own
    · exact first part below
    · exact second part below

/-- The three ways the evaluation of an integer guard can go. -/
inductive Verdict (ctx : ActionContext) (expr : Expr) : Prop where
  /-- a checked build panics, at a minus applied to `i64::MIN` -/
  | panics (least : NegatesMin ctx expr) (checked : evalChecked expr ctx = .error .panic)
  /-- both builds compute the exact value, every intermediate one in range -/
  | computes (v : Value) (x : Exact) (never : ¬NegatesMin ctx expr)
      (checked : evalChecked expr ctx = .ok v) (value : eval expr ctx = .ok v)
      (same : Represents v x) (exactly : exact ctx expr = some x) (fits : Fits ctx expr)
  /-- both builds return the same error, as some exact value is missing or out
  of range -/
  | fails (message : String) (never : ¬NegatesMin ctx expr)
      (checked : evalChecked expr ctx = .error (.error message))
      (value : eval expr ctx = .error message) (unfit : ¬Fits ctx expr)

/-- An operation on evaluated operands that agrees with its exact meaning. -/
theorem verdict_of_agrees {result : Except String Value} (never : ¬NegatesMin ctx expr)
    (value : eval expr ctx = result) (checked : evalChecked expr ctx = mapErr .error result)
    (agrees : Agrees result (exact ctx expr))
    (fits : ∀ x, exact ctx expr = some x → x.Fits → Fits ctx expr) : Verdict ctx expr := by
  subst value
  generalize done : eval expr ctx = result, meant : exact ctx expr = meaning at agrees
  rw [done] at checked
  cases agrees with
  | value same => exact .computes _ _ never checked done same meant (fits _ meant same.fits)
  | error none =>
      refine .fails _ never checked done fun all => ?_
      obtain ⟨x, value, inside⟩ := all.whole
      exact none x (meant.symm.trans value) inside

theorem verdict_unary (op : UnaryOp) (operand : Verdict ctx expr) :
    Verdict ctx (.unary op expr) := by
  cases operand with
  | panics least checked => exact .panics (.unary least) (by rw [evalChecked, checked]; rfl)
  | fails message never checked value unfit =>
      refine .fails message ?_ (by rw [evalChecked, checked]; rfl) (by rw [eval, value]; rfl)
        fun fits => unfit (fits_unary.mp fits).1
      rintro (⟨fits, -⟩ | inner)
      · exact unfit fits
      · exact never inner
  | computes v x never checked value same exactly fits =>
      by_cases least : op = .neg ∧ x = .int Int64.minValue.toInt
      · obtain ⟨rfl, rfl⟩ := least
        refine .panics (.here fits exactly) ?_
        generalize bound : Int64.minValue.toInt = z at same
        cases same with
        | integer i =>
            have least : i = Int64.minValue := Int64.toInt_inj.mp bound.symm
            rw [evalChecked, checked, least]
            rfl
      · obtain ⟨agrees, both⟩ := agrees_unary op same least
        have meant : exact ctx (.unary op expr) = Exact.unary op x := by
          rw [exact, exactly, Option.bind_some]
        refine verdict_of_agrees ?_ (by rw [eval, value]; rfl)
          (by rw [evalChecked, checked]; exact both) (meant ▸ agrees)
          fun z value inside => fits_unary.mpr ⟨fits, z, value, inside⟩
        rintro (⟨-, bound⟩ | inner)
        · exact least ⟨rfl, Option.some.inj (exactly.symm.trans bound)⟩
        · exact never inner

theorem verdict_binary (op : BinaryOp) (first : Verdict ctx left) (second : Verdict ctx right) :
    Verdict ctx (.binary left op right) := by
  cases first with
  | panics least checked => exact .panics (.left least) (by rw [evalChecked, checked]; rfl)
  | fails message never checked value unfit =>
      refine .fails message ?_ (by rw [evalChecked, checked]; rfl) (by rw [eval, value]; rfl)
        fun fits => unfit (fits_binary.mp fits).1
      rintro (_ | _ | inner | ⟨fits, -⟩)
      · exact never inner
      · exact unfit fits
  | computes v x never checked value same exactly fits =>
      cases second with
      | panics least checkedRight =>
          exact .panics (.right fits least) (by rw [evalChecked, checked, checkedRight]; rfl)
      | fails message neverRight checkedRight valueRight unfit =>
          refine .fails message ?_ (by rw [evalChecked, checked, checkedRight]; rfl)
            (by rw [eval, value, valueRight]; rfl)
            fun all => unfit (fits_binary.mp all).2.1
          rintro (_ | _ | inner | ⟨-, inner⟩)
          · exact never inner
          · exact neverRight inner
      | computes w y neverRight checkedRight valueRight sameRight exactlyRight fitsRight =>
          have meant : exact ctx (.binary left op right) = Exact.binary op x y := by
            rw [exact, exactly, exactlyRight]
            rfl
          refine verdict_of_agrees ?_ (eval_binary op value valueRight)
            (by rw [evalChecked, checked, checkedRight]; rfl)
            (meant ▸ agrees_binary op same sameRight)
            fun z value inside => fits_binary.mpr ⟨fits, fitsRight, z, value, inside⟩
          rintro (_ | _ | inner | ⟨-, inner⟩)
          · exact never inner
          · exact neverRight inner

/-- The evaluation of an integer guard goes one of the three ways. -/
theorem verdict (integers : IntegerGuard ctx expr) : Verdict ctx expr := by
  induction integers with
  | literal i =>
      refine .computes (.integer i) (.int i.toInt) ?_ rfl rfl (.integer i) rfl ?_
      · rintro ⟨⟩
      · rintro part ⟨⟩
        exact ⟨_, rfl, (Represents.integer i).fits⟩
  | @read path i reads =>
      have value : exact ctx (.payloadAccess path) = some (.int i.toInt) := by
        rw [exact, reads]
      refine .computes (.integer i) (.int i.toInt) ?_
        (by simp only [evalChecked, reads, mapErr]) reads
        (.integer i) value ?_
      · rintro ⟨⟩
      · rintro part ⟨⟩
        exact ⟨_, value, (Represents.integer i).fits⟩
  | unary op _ operand => exact verdict_unary op operand
  | binary op _ _ first second => exact verdict_binary op first second

/-- A sub-expression of an expression with a value has one too. -/
theorem evaluates_part {part : Expr} (inner : Part expr part) {v : Value}
    (value : eval expr ctx = .ok v) : ∃ w, Evaluates ctx expr part w := by
  induction inner generalizing v with
  | whole expr => exact ⟨v, .whole value⟩
  | unary _ ih =>
      rw [eval] at value
      obtain ⟨w, operand, -⟩ := bind_ok value
      exact (ih operand).imp fun _ => .unary
  | left _ ih =>
      rw [eval] at value
      obtain ⟨w, first, -⟩ := bind_ok value
      exact (ih first).imp fun _ => .left
  | right _ ih =>
      rw [eval] at value
      obtain ⟨w, first, rest⟩ := bind_ok value
      obtain ⟨u, second, -⟩ := bind_ok rest
      exact (ih second).imp fun _ => .right first

/-- Without a negated `i64::MIN`, every value computed on the way is exact. -/
theorem evaluates_exact {part : Expr} {v : Value} (computed : Evaluates ctx expr part v)
    (integers : IntegerGuard ctx expr) (never : ¬NegatesMin ctx expr) :
    ∃ x, exact ctx part = some x ∧ Represents v x := by
  induction computed with
  | whole value =>
      cases verdict integers with
      | panics least _ => exact absurd least never
      | computes w x _ _ same represents exactly _ =>
          obtain rfl := Except.ok.inj (value.symm.trans same)
          exact ⟨x, exactly, represents⟩
      | fails _ _ _ failed _ => cases value.symm.trans failed
  | unary _ ih =>
      cases integers with
      | unary _ operand => exact ih operand fun inner => never (.unary inner)
  | left _ ih =>
      cases integers with
      | binary _ first _ => exact ih first fun inner => never (.left inner)
  | right first _ ih =>
      cases integers with
      | binary _ ints second =>
          refine ih second fun inner => ?_
          cases verdict ints with
          | panics least _ => exact never (.left least)
          | computes _ _ _ _ _ _ _ fits => exact never (.right fits inner)
          | fails _ _ _ failed _ => cases first.symm.trans failed

/-- Integer evaluation is exact or fails: a checked build never panics, every
value computed for a sub-expression is its exact value (which is then inside the
`i64` range), a sub-expression left without a value makes the evaluation fail,
and so does a division by zero. -/
structure ExactOrError (ctx : ActionContext) (expr : Expr) : Prop where
  checked : evalChecked expr ctx ≠ .error .panic
  exactly : ∀ part v, Evaluates ctx expr part v →
    ∃ x, exact ctx part = some x ∧ x.Fits ∧ Represents v x
  otherwise : ∀ part, Part expr part →
    (∃ v, Evaluates ctx expr part v) ∨ ∃ message, eval expr ctx = .error message
  division : ∀ left right, Part expr (.binary left .div right) →
    exact ctx right = some (.int 0) → ∃ message, eval expr ctx = .error message

/-- Integer guards are exact or fail as long as evaluation reaches no minus
applied to `i64::MIN`, and only then. -/
theorem exactOrError_iff (integers : IntegerGuard ctx expr) :
    ExactOrError ctx expr ↔ ¬NegatesMin ctx expr := by
  constructor
  · intro h least
    cases verdict integers with
    | panics _ checked => exact h.checked checked
    | computes _ _ never => exact never least
    | fails _ never => exact never least
  · intro never
    have exactly : ∀ part v, Evaluates ctx expr part v →
        ∃ x, exact ctx part = some x ∧ x.Fits ∧ Represents v x := by
      intro part v computed
      obtain ⟨x, value, same⟩ := evaluates_exact computed integers never
      exact ⟨x, value, same.fits, same⟩
    refine ⟨?_, exactly, fun part inner => ?_, fun left right inner zero => ?_⟩
    · cases verdict integers with
      | panics least _ => exact absurd least never
      | computes _ _ _ checked => simp [checked]
      | fails _ _ checked => simp [checked]
    · cases value : eval expr ctx with
      | error message => exact .inr ⟨message, rfl⟩
      | ok v => exact .inl (evaluates_part inner value)
    · cases value : eval expr ctx with
      | error message => exact ⟨message, rfl⟩
      | ok v =>
          obtain ⟨w, computed⟩ := evaluates_part inner value
          obtain ⟨x, quotient, -⟩ := exactly _ w computed
          obtain ⟨y, -, rest⟩ := Option.bind_eq_some_iff.mp quotient
          rw [zero] at rest
          cases y <;> cases rest

end

end

/-- A call with the integer `x` in its payload. -/
def payloadOf (x : Int64) : ActionContext where
  signalId := "door"
  fromState := "closed"
  toState := "open"
  event := "push"
  payload := some (.object [("x", .number (.negInt x))])
  failure := none

/-- A quotient, by a negated literal. -/
theorem exactOrError_quotient : @ExactOrError .ascii .keywords (payloadOf (-7))
    (.binary (.payloadAccess ["x"]) .div (.unary .neg (.literal (.integer 2)))) := by
  refine (@exactOrError_iff .ascii .keywords (payloadOf (-7)) _ ?_).mpr ?_
  · exact @IntegerGuard.binary .ascii .keywords _ _ _ .div
      (@IntegerGuard.read .ascii .keywords _ _ (-7) rfl)
      (@IntegerGuard.unary .ascii .keywords _ .neg _ (@IntegerGuard.literal .ascii .keywords _ 2))
  · rintro (_ | _ | ⟨⟨⟩⟩ | ⟨-, ⟨-, least⟩ | ⟨⟨⟩⟩⟩)
    cases least

/-- The guard `-payload.x` on the least integer: a checked build panics, and a
release build takes the least integer for its own negation. -/
theorem exactOrError_least :
    (@tokenize .ascii "-payload.x").bind (@parse .ascii) =
        .ok (.unary .neg (.payloadAccess ["x"])) ∧
      @eval .ascii .keywords (.unary .neg (.payloadAccess ["x"])) (payloadOf Int64.minValue) =
        .ok (.integer Int64.minValue) ∧
      ¬@ExactOrError .ascii .keywords (payloadOf Int64.minValue)
        (.unary .neg (.payloadAccess ["x"])) :=
  ⟨by decide +kernel, rfl, fun h => @ExactOrError.checked .ascii .keywords _ _ h rfl⟩

end SignalTopology.Guard
