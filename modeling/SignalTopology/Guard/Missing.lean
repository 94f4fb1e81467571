import SignalTopology.Guard.Eval

/-!
# Missing values in guards

A payload path that leads nowhere reads null. The orderings are false on a null
operand. Equality compares null like any other value, and `!=` is its negation,
so `!=` holds as soon as exactly one operand is null.
-/

namespace SignalTopology.Guard

/-- `Reaches payload path v`: the path leads through nested objects to `v`. -/
inductive Reaches : JsonValue → List String → JsonValue → Prop where
  | here (payload : JsonValue) : Reaches payload [] payload
  | field {map : JsonMap} {part : String} {path : List String} {inner v : JsonValue}
      (found : JsonMap.get map part = some inner) (rest : Reaches inner path v) :
      Reaches (.object map) (part :: path) v

/-- The operators that compare their operands. -/
def BinaryOp.compares : BinaryOp → Bool
  | .eq | .neq | .lt | .lte | .gt | .gte => true
  | _ => false

section
variable [SerdeJson]

theorem jsonToValue_null_iff {payload : JsonValue} :
    jsonToValue payload = .ok .null ↔ payload = .null := by
  cases payload with
  | number n =>
      simp only [jsonToValue]
      split <;> simp
  | _ => simp [jsonToValue]

theorem accessPayload_of_null (path : List String) :
    accessPayload .null path = .ok .null := by
  cases path <;> rfl

/-- A path reads null exactly when it reaches nothing, or a null. -/
theorem accessPayload_null_iff {payload : JsonValue} {path : List String} :
    accessPayload payload path = .ok .null ↔ ∀ v, Reaches payload path v → v = .null := by
  induction path generalizing payload with
  | nil =>
      rw [accessPayload, jsonToValue_null_iff]
      constructor
      · rintro rfl v ⟨⟩
        rfl
      · intro only
        exact only payload (.here payload)
  | cons part path ih =>
      cases payload with
      | object map =>
          rw [accessPayload]
          cases found : JsonMap.get map part with
          | none =>
              simp only [Option.getD_none, accessPayload_of_null, true_iff]
              rintro v ⟨⟩
              simp_all
          | some inner =>
              rw [Option.getD_some, ih]
              constructor
              · rintro only v ⟨⟩
                rename_i same rest
                obtain rfl : inner = _ := Option.some.inj (found.symm.trans same)
                exact only v rest
              · exact fun only v reached => only v (.field found reached)
      | _ =>
          simp only [accessPayload, true_iff]
          rintro v ⟨⟩

end

section
variable {leftValue rightValue : Value}

theorem valuesEqual_null_left (value : Value) :
    valuesEqual .null value = decide (value = .null) := by
  cases value <;> simp [valuesEqual]

theorem valuesEqual_null_right (value : Value) :
    valuesEqual value .null = decide (value = .null) := by
  cases value <;> simp [valuesEqual]

/-- With a null operand, equality asks whether both are null. -/
theorem valuesEqual_null (missing : leftValue = .null ∨ rightValue = .null) :
    valuesEqual leftValue rightValue = decide (leftValue = .null ∧ rightValue = .null) := by
  obtain rfl | rfl := missing
  · simp [valuesEqual_null_left]
  · simp [valuesEqual_null_right]

variable [RustStd]

theorem compareValues_null (missing : leftValue = .null ∨ rightValue = .null)
    (pred : Ordering → Bool) : compareValues leftValue rightValue pred = .ok (.bool false) :=
  if_pos missing

/-- What a comparison with a null operand evaluates to. -/
theorem applyBinary_null {op : BinaryOp} (comparison : op.compares = true)
    (missing : leftValue = .null ∨ rightValue = .null) :
    applyBinary op leftValue rightValue = .ok (.bool
      (decide (op = .eq ∧ leftValue = .null ∧ rightValue = .null) ||
        decide (op = .neq ∧ ¬(leftValue = .null ∧ rightValue = .null)))) := by
  cases op with
  | eq | neq => simp [applyBinary, valuesEqual_null missing]
  | lt | lte | gt | gte => simp [applyBinary, compareValues_null missing]
  | _ => cases comparison

end

section
variable [RustStd] [SerdeJson]
variable {left right : Expr} {op : BinaryOp} {ctx : ActionContext} {leftValue rightValue : Value}

theorem eval_binary (op : BinaryOp) (first : eval left ctx = .ok leftValue)
    (second : eval right ctx = .ok rightValue) :
    eval (.binary left op right) ctx = applyBinary op leftValue rightValue := by
  rw [eval, first, second]
  rfl

theorem evalGuard_parsed {guard : String} {tokens : List Token} {expr : Expr}
    (read : tokenize guard = .ok tokens) (parsed : parse tokens = .ok expr) :
    evalGuard guard ctx = (eval expr ctx).map asBool := by
  unfold evalGuard
  rw [read]
  simp only [bind, Except.bind, parsed]
  cases eval expr ctx <;> rfl

/-- A guard comparing a field the payload lacks with a value it has is false,
and true when the comparison is `!=`. -/
theorem evalGuard_missing_field {guard : String} {tokens : List Token} {payload : JsonValue}
    {path : List String} (read : tokenize guard = .ok tokens)
    (parsed : parse tokens = .ok (.binary (.payloadAccess path) op right))
    (comparison : op.compares = true) (given : ctx.payload = some payload)
    (missing : ∀ v, Reaches payload path v → v = .null)
    (second : eval right ctx = .ok rightValue) (present : rightValue ≠ .null) :
    evalGuard guard ctx = .ok (op = .neq) := by
  have first : eval (.payloadAccess path) ctx = .ok .null := by
    rw [eval, given]
    exact accessPayload_null_iff.mpr missing
  rw [evalGuard_parsed read parsed, eval_binary op first second,
    applyBinary_null comparison (.inl rfl)]
  simp [Except.map, asBool, present]

/-- The comparison `left op right` treats the operand values as the guide for
missing fields says: it is false unless it is `==` between two nulls, and a
guard that is this comparison passes for no other reason. -/
def MissingIsFalse (left : Expr) (op : BinaryOp) (right : Expr) (ctx : ActionContext)
    (leftValue rightValue : Value) : Prop :=
  eval (.binary left op right) ctx =
      .ok (.bool (op = .eq ∧ leftValue = .null ∧ rightValue = .null)) ∧
    ∀ guard tokens, tokenize guard = .ok tokens → parse tokens = .ok (.binary left op right) →
      evalGuard guard ctx = .ok true → op = .eq ∧ leftValue = .null ∧ rightValue = .null

/-- The guide's rule holds of every comparison but `!=` between a null and
something else. -/
theorem missingIsFalse_iff (comparison : op.compares = true)
    (first : eval left ctx = .ok leftValue) (second : eval right ctx = .ok rightValue)
    (missing : leftValue = .null ∨ rightValue = .null) :
    MissingIsFalse left op right ctx leftValue rightValue ↔
      op ≠ .neq ∨ (leftValue = .null ∧ rightValue = .null) := by
  have value := (eval_binary op first second).trans (applyBinary_null comparison missing)
  constructor
  · rintro ⟨expected, -⟩
    by_contra differ
    obtain ⟨rfl, one⟩ : op = .neq ∧ ¬(leftValue = .null ∧ rightValue = .null) := by
      simpa only [not_or, not_not] using differ
    rw [value] at expected
    simp [one] at expected
  · intro agrees
    have same : eval (.binary left op right) ctx =
        .ok (.bool (op = .eq ∧ leftValue = .null ∧ rightValue = .null)) := by
      have never : ¬(op = .neq ∧ ¬(leftValue = .null ∧ rightValue = .null)) := by tauto
      rw [value, decide_eq_false never, Bool.or_false]
    refine ⟨same, fun guard tokens read parsed passes => ?_⟩
    rw [evalGuard_parsed read parsed, same] at passes
    simpa [Except.map, asBool] using passes

end

/-- A call whose payload has no fields. -/
def bareContext : ActionContext where
  signalId := "door"
  fromState := "closed"
  toState := "open"
  event := "push"
  payload := some (.object [])
  failure := none

theorem missingIsFalse_eq :
    @MissingIsFalse .ascii .keywords (.payloadAccess ["age"]) .eq (.literal (.integer 5))
      bareContext .null (.integer 5) :=
  (@missingIsFalse_iff .ascii .keywords (.payloadAccess ["age"]) (.literal (.integer 5)) .eq
    bareContext .null (.integer 5) rfl rfl rfl (.inl rfl)).mpr (.inl (by decide))

/-- `payload.age != 5` lets a call without an age through. -/
theorem missingIsFalse_neq :
    @eval .ascii .keywords (.payloadAccess ["age"]) bareContext = .ok .null ∧
      @evalGuard .ascii .keywords "payload.age != 5" bareContext = .ok true ∧
      ¬@MissingIsFalse .ascii .keywords (.payloadAccess ["age"]) .neq (.literal (.integer 5))
        bareContext .null (.integer 5) := by
  refine ⟨rfl, by decide +kernel, ?_⟩
  rintro ⟨expected, -⟩
  have value : @eval .ascii .keywords (.binary (.payloadAccess ["age"]) .neq
      (.literal (.integer 5))) bareContext = .ok (.bool true) := rfl
  simp [value] at expected

end SignalTopology.Guard
