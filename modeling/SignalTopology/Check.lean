import Mathlib.Data.Finset.Insert
import SignalTopology.Ddl.Codegen

/-!
# Checks on a compiled source

`stc --check` looks for suspicious patterns: `checkSchema` in the lowered schema,
`checkDdl` in the document it was lowered from. The warnings never stop a compilation.
-/

namespace SignalTopology

open Ddl

inductive WarningKind where
  | selfLoop
  | unreachableState
  | unusedGuardTemplate
  | duplicateGuardCondition
  deriving DecidableEq

/-- A suspicious pattern. No check knows the place of what it reports. -/
structure CheckWarning where
  kind : WarningKind
  message : String
  line : Option Nat := none
  col : Option Nat := none
  deriving DecidableEq

/-! ## The schema -/

/-- The initial state and every target of a transition from another state. -/
def reachable (schema : TopologySchema) (sig : SignalDef) : Finset String :=
  schema.transitions.foldl (fun states t =>
    if t.signalId ≠ sig.id then states
    else if t.fromState = t.toState then states
    else insert t.toState states) {sig.initialState}

def selfLoop (t : TransitionDef) : CheckWarning where
  kind := .selfLoop
  message := t.signalId ++ ": " ++ t.fromState ++ " -> " ++ t.toState

/-- The report that `signalId` is never in `state`. -/
def unreachableState (signalId state : String) : CheckWarning where
  kind := .unreachableState
  message := signalId ++ ": " ++ state

/-- `check_schema`. -/
def checkSchema (schema : TopologySchema) : List CheckWarning :=
  (schema.transitions.filter fun t => t.fromState = t.toState).map selfLoop ++
    schema.signals.flatMap fun sig =>
      (sig.states.filter (· ∉ reachable schema sig)).map (unreachableState sig.id)

/-! ## The document -/

/-- The report that no reaction refers to the guard `id`. -/
def unusedGuard (id : String) : CheckWarning where
  kind := .unusedGuardTemplate
  message := "guard '" ++ id ++ "' is declared but never referenced by a reaction"

def duplicateGuards (expr : String) (ids : List String) : CheckWarning where
  kind := .duplicateGuardCondition
  message := "guards [" ++ String.intercalate ", " ids ++
    "] share the same condition `" ++ expr ++ "`"

/-- The ids of the guards with each condition, in the order of their declarations. -/
def guardsByExpr (guards : List GuardDecl) : HashMap (List String) :=
  guards.foldl (fun map g => map.insert g.expr ((map.lookup g.expr).getD [] ++ [g.id])) ∅

/-- `check_ddl`. The schema is accepted and not read. -/
def checkDdl (doc : DdlDoc) (_schema : TopologySchema) : List CheckWarning :=
  let referenced : Finset String := (doc.reactions.filterMap (·.guardRef)).toFinset
  (doc.guards.filter (·.id ∉ referenced)).map (fun g => unusedGuard g.id) ++
    ((guardsByExpr doc.guards).entries.filter fun e => 1 < e.2.length).map fun e =>
      duplicateGuards e.1 e.2

/-! ## What the warnings say -/

theorem mem_reachable {schema : TopologySchema} {sig : SignalDef} {state : String} :
    state ∈ reachable schema sig ↔ state = sig.initialState ∨
      ∃ t ∈ schema.transitions, t.signalId = sig.id ∧ t.fromState ≠ t.toState ∧
        t.toState = state := by
  rw [reachable]
  suffices loop : ∀ (ts : List TransitionDef) (states : Finset String),
      state ∈ ts.foldl (fun states t =>
        if t.signalId ≠ sig.id then states
        else if t.fromState = t.toState then states
        else insert t.toState states) states ↔
      state ∈ states ∨ ∃ t ∈ ts, t.signalId = sig.id ∧ t.fromState ≠ t.toState ∧
        t.toState = state by
    rw [loop, Finset.mem_singleton]
  intro ts
  induction ts with
  | nil => simp
  | cons t ts ih =>
      intro states
      rw [List.foldl_cons, ih, List.exists_mem_cons_iff]
      by_cases own : t.signalId = sig.id
      · by_cases loop : t.fromState = t.toState
        · simp [own, loop]
        · simp [own, loop, eq_comm, or_assoc, or_left_comm]
      · simp [own]

/-- A report of `check_schema` on a state is made by its second loop. -/
theorem unreachableState_mem {schema : TopologySchema} {signalId state : String} :
    unreachableState signalId state ∈ checkSchema schema ↔
      ∃ sig ∈ schema.signals, ∃ s ∈ sig.states, s ∉ reachable schema sig ∧
        sig.id ++ ": " ++ s = signalId ++ ": " ++ state := by
  simp only [checkSchema, List.mem_append, List.mem_map, List.mem_flatMap, List.mem_filter,
    decide_eq_true_eq, unreachableState, CheckWarning.mk.injEq, selfLoop]
  constructor
  · rintro (⟨_, _, other, _⟩ | ⟨sig, declared, s, ⟨listed, outside⟩, _, message, _⟩)
    · cases other
    · exact ⟨sig, declared, s, listed, outside, message⟩
  · rintro ⟨sig, declared, s, listed, outside, message⟩
    exact .inr ⟨sig, declared, s, ⟨listed, outside⟩, trivial, message, trivial, trivial⟩

theorem unusedGuard_inj {id id' : String} (same : unusedGuard id = unusedGuard id') : id = id' := by
  have message := congrArg CheckWarning.message same
  simpa [unusedGuard, String.append_assoc] using message

/-- A guard is reported when it is declared and no reaction at the top level refers to it. -/
theorem unusedGuard_mem {doc : DdlDoc} {schema : TopologySchema} {id : String} :
    unusedGuard id ∈ checkDdl doc schema ↔
      (∃ g ∈ doc.guards, g.id = id) ∧ ∀ r ∈ doc.reactions, r.guardRef ≠ some id := by
  simp only [checkDdl, List.mem_append, List.mem_map, List.mem_filter, List.mem_toFinset,
    List.mem_filterMap, decide_eq_true_eq, not_exists, not_and]
  constructor
  · rintro (⟨g, ⟨member, unseen⟩, same⟩ | ⟨_, _, other⟩)
    · obtain rfl := unusedGuard_inj same
      exact ⟨⟨g, member, rfl⟩, unseen⟩
    · cases other
  · rintro ⟨⟨g, member, rfl⟩, unseen⟩
    exact .inl ⟨g, ⟨member, unseen⟩, rfl⟩

end SignalTopology
