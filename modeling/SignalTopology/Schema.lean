import SignalTopology.Json
import SignalTopology.Error

/-!
# The topology model

The types parsed from a topology file. The two fields the source calls `from`
and `to` are `fromState` and `toState` here. `PortDef.direction` is
documentation for the author of a topology and no function reads it back, but
it is kept because the DDL parser computes it.
-/

namespace SignalTopology

/-- A `std::collections::HashMap` with string keys. The order of the entries
stands for the order of iteration, which no result may depend on. -/
abbrev HashMap (β : Type) := AList fun _ : String => β

/-- A signal: a named state machine with a fixed set of states. -/
structure SignalDef where
  id : String
  initialState : String
  states : List String
  deriving DecidableEq

/-- The lifecycle actions bound to a transition, in the order the engine runs
them. -/
structure ActionBinding where
  onExit : List String := []
  onTransition : List String := []
  onEnter : List String := []
  deriving DecidableEq

/-- All bound action ids in lifecycle order. -/
def ActionBinding.allActions (actions : ActionBinding) : List String :=
  actions.onExit ++ actions.onTransition ++ actions.onEnter

/-- A named event that moves a signal from one state to another. -/
structure TransitionDef where
  signalId : String
  fromState : String
  event : String
  toState : String
  actions : ActionBinding := {}
  guard : Option String := none
  deriving DecidableEq

/-- A cascade rule: when `fromSignal` enters `fromState`, deliver `event` to
`toSignal`. -/
structure ReactionDef where
  fromSignal : String
  fromState : String
  toSignal : String
  event : String
  payload : Option JsonValue := none
  guard : Option String := none
  joinGroup : Option String := none
  requires : List String := []
  onFail : Option String := none

/-- How the parent topology may interact with a port. -/
inductive PortDirection where
  | «in»
  | out
  | inOut
  deriving DecidableEq

/-- An exposed reaction interface on a component. -/
structure PortDef where
  direction : PortDirection
  signal : String
  state : String
  «alias» : Option String
  deriving DecidableEq

/-- A wire from a component port to a parent-level signal. -/
structure ConnectionDef where
  port : String
  targetSignal : String
  deriving DecidableEq

/-- A named, parameterized sub-topology. -/
structure ComponentDef where
  params : List String
  ports : List PortDef := []
  signals : List SignalDef
  transitions : List TransitionDef
  reactions : List ReactionDef := []

/-- A concrete instantiation of a component. -/
structure InstanceDef where
  component : String
  bindings : HashMap String
  connections : List ConnectionDef := []

/-- A fully-described topology. -/
structure TopologySchema where
  version : String
  signals : List SignalDef
  transitions : List TransitionDef
  reactions : List ReactionDef := []
  components : Option (HashMap ComponentDef) := none
  instances : List InstanceDef := []
  includes : List String := []

/-- Nothing of the schema is left to expand. -/
def TopologySchema.Flat (schema : TopologySchema) : Prop :=
  schema.instances = []

end SignalTopology
