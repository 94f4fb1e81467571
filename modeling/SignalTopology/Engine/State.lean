import Mathlib.Data.Finset.Union
import Mathlib.Data.List.Destutter
import SignalTopology.Compose
import SignalTopology.Trace
import SignalTopology.Library.Sequencing

/-!
# The engine

`TopologyEngine W` is the runtime state. `W` is everything the registered
callbacks read and write: a callback is a function of its context and of `W`,
so any outcome, effect and nondeterminism of the `FnMut`s is one value of `W`.
-/

namespace SignalTopology

/-- The runtime state of one signal. -/
structure SignalState where
  current : String
  states : List String
  initialState : String
  deriving DecidableEq

/-- A registered callback. -/
abbrev ActionFn (W : Type) := ActionContext → W → Except EngineError Unit × W

structure TopologyEngine (W : Type) where
  signals : HashMap SignalState
  transitions : List TransitionDef
  reactions : List ReactionDef
  actions : HashMap (ActionFn W)
  trace : List TraceEvent
  maxCascadeDepth : Nat
  world : W

/-! ## Validation -/

section Validation

variable (schema : TopologySchema)

/-- One signal of the first loop of `validate`: a new id and a legal initial
state. -/
def validateSignal (signalIds : Finset String) (sig : SignalDef) :
    Except EngineError (Finset String) :=
  if sig.id ∈ signalIds then .error (.validationError ("Duplicate signal id: " ++ sig.id))
  else if sig.initialState ∈ sig.states then .ok (insert sig.id signalIds)
  else .error (.validationError ("Invalid initial_state '" ++ sig.initialState ++
    "' for signal '" ++ sig.id ++ "'"))

/-- One transition of the second loop. `signal_ids` holds exactly the ids of the
signals, so the lookup decides both the test and the `unwrap` after it. -/
def validateTransition (trans : TransitionDef) (i : Nat) : Except EngineError Unit :=
  match schema.signals.find? (·.id = trans.signalId) with
  | none => .error (.validationError ("Transition " ++ toString i ++
      " references unknown signal '" ++ trans.signalId ++ "'"))
  | some signal =>
      if trans.fromState ≠ "*" ∧ trans.fromState ∉ signal.states then
        .error (.validationError ("Transition " ++ toString i ++
          " references invalid 'from' state '" ++ trans.fromState ++ "' for signal '" ++
          trans.signalId ++ "'"))
      else if trans.toState ∈ signal.states then .ok ()
      else .error (.validationError ("Transition " ++ toString i ++
        " references invalid 'to' state '" ++ trans.toState ++ "' for signal '" ++
        trans.signalId ++ "'"))

/-- One reaction of the last loop. -/
def validateReaction (signalIds : Finset String) (reaction : ReactionDef) :
    Except EngineError Unit :=
  if reaction.fromSignal ∈ signalIds then
    if reaction.toSignal ∈ signalIds then .ok ()
    else .error (.reactionSignalNotFound reaction.toSignal)
  else .error (.reactionSignalNotFound reaction.fromSignal)

/-- `TopologyEngine::validate`. -/
def validate : Except EngineError Unit := do
  let signalIds ← schema.signals.foldlM validateSignal ∅
  schema.transitions.zipIdx.forM fun entry => validateTransition schema entry.1 entry.2
  schema.reactions.forM (validateReaction signalIds)

end Validation

/-! ## Construction and registration -/

/-- The signal table of a schema, each signal in the state `current` gives it. -/
def signalTable (current : SignalDef → String) (signals : List SignalDef) : HashMap SignalState :=
  signals.foldl (fun table sig => table.insert sig.id
    { current := current sig, states := sig.states, initialState := sig.initialState }) ∅

namespace TopologyEngine

variable {W : Type}

/-- `from_schema`. -/
def fromSchema (world : W) (schema : TopologySchema) : Except EngineError (TopologyEngine W) := do
  let schema ← expand schema
  validate schema
  .ok {
    signals := signalTable (·.initialState) schema.signals
    transitions := schema.transitions
    reactions := schema.reactions
    actions := ∅
    trace := []
    maxCascadeDepth := 8
    world }

/-- `from_json`. -/
def fromJson [SerdeJson] (world : W) (json : String) : Except EngineError (TopologyEngine W) := do
  let schema ← mapErr .parseError (SerdeJson.schemaFromStr json)
  fromSchema world schema

/-- `register_action`. -/
def registerAction (engine : TopologyEngine W) (actionId : String) (f : ActionFn W) :
    TopologyEngine W :=
  { engine with actions := engine.actions.insert actionId f }

/-- `set_max_cascade_depth`. -/
def setMaxCascadeDepth (engine : TopologyEngine W) (depth : Nat) : TopologyEngine W :=
  { engine with maxCascadeDepth := depth }

/-- `get_state`. -/
def getState (engine : TopologyEngine W) (signalId : String) : Except EngineError String :=
  match engine.signals.lookup signalId with
  | some signal => .ok signal.current
  | none => .error (.signalNotFound signalId)

/-- `action_ids`, and `collect_action_ids` of the C binding. -/
def actionIds (engine : TopologyEngine W) : List String :=
  ((engine.transitions.flatMap (·.actions.allActions)).mergeSort (· ≤ ·)).destutter (· ≠ ·)

/-! ## Elementary updates -/

/-- `trace.push`. -/
def push (engine : TopologyEngine W) (event : TraceEvent) : TopologyEngine W :=
  { engine with trace := engine.trace ++ [event] }

/-- Assign `signal.current` through a `get_mut`. -/
def setCurrent (engine : TopologyEngine W) (signalId state : String) : TopologyEngine W :=
  match engine.signals.lookup signalId with
  | some signal =>
      { engine with signals := engine.signals.insert signalId { signal with current := state } }
  | none => engine

/-- The current state of a known signal. -/
def current (engine : TopologyEngine W) (signalId : String) : Option String :=
  (engine.signals.lookup signalId).map (·.current)

/-- The action id has a registered callback. -/
def Registered (engine : TopologyEngine W) (actionId : String) : Prop :=
  (engine.actions.lookup actionId).isSome

section

variable (engine : TopologyEngine W) (event : TraceEvent) (signalId state : String)

@[simp] theorem push_signals : (engine.push event).signals = engine.signals := rfl

@[simp] theorem push_transitions : (engine.push event).transitions = engine.transitions := rfl

@[simp] theorem push_actions : (engine.push event).actions = engine.actions := rfl

@[simp] theorem push_trace : (engine.push event).trace = engine.trace ++ [event] := rfl

@[simp] theorem push_world : (engine.push event).world = engine.world := rfl

@[simp] theorem setCurrent_transitions :
    (engine.setCurrent signalId state).transitions = engine.transitions := by
  unfold setCurrent
  split <;> rfl

@[simp] theorem setCurrent_reactions :
    (engine.setCurrent signalId state).reactions = engine.reactions := by
  unfold setCurrent
  split <;> rfl

@[simp] theorem setCurrent_actions :
    (engine.setCurrent signalId state).actions = engine.actions := by
  unfold setCurrent
  split <;> rfl

@[simp] theorem setCurrent_trace : (engine.setCurrent signalId state).trace = engine.trace := by
  unfold setCurrent
  split <;> rfl

/-- Only the `current` field of one present signal is written. -/
theorem setCurrent_lookup (id : String) :
    (engine.setCurrent signalId state).signals.lookup id =
      if id = signalId then (engine.signals.lookup id).map ({ · with current := state })
      else engine.signals.lookup id := by
  unfold setCurrent
  by_cases same : id = signalId
  · subst same
    split
    · next signal found => simp [found]
    · next missing => simp [missing]
  · split <;> simp [same]

/-- Only a known signal moves. -/
theorem current_setCurrent (id : String) :
    (engine.setCurrent signalId state).current id =
      if id = signalId then (engine.current id).map fun _ => state else engine.current id := by
  rw [current, setCurrent_lookup, current]
  split
  · rw [Option.map_map, Option.map_map]
    rfl
  · rfl

end

/-! ## Running an action -/

/-- The message of a failed action: an execution error is not wrapped twice. -/
def failureMessage : EngineError → String
  | .actionExecutionError message => message
  | e => e.toString

/-- `run_action`. -/
def runAction (signalId actionId : String) (ctx : ActionContext) (engine : TopologyEngine W) :
    Except EngineError Unit × TopologyEngine W :=
  let engine := engine.push (.actionStarted signalId actionId)
  match engine.actions.lookup actionId with
  | none => (.error (.actionNotFound actionId), engine)
  | some action =>
      match action ctx engine.world with
      | (.ok (), world) =>
          (.ok (), { engine with world }.push (.actionSucceeded signalId actionId))
      | (.error e, world) =>
          (.error (.actionExecutionError (failureMessage e)),
            { engine with world }.push (.actionFailed signalId actionId (failureMessage e)))

end TopologyEngine

/-- `collect_action_ids` of the runner. -/
def collectActionIds (schema : TopologySchema) : Finset String :=
  schema.transitions.foldl (fun ids trans => ids ∪ trans.actions.allActions.toFinset) ∅

end SignalTopology
