import SignalTopology.Schema

/-!
# Reading a schema from a JSON value

What the derived `Deserialize` of the schema types does with a `serde_json`
value. A field marked `#[serde(default)]` may be absent, an `Option` field may
also be `null`, and unknown fields are ignored. The derived code also takes a
structure written as an array; no file of the crate is.
-/

namespace SignalTopology

section

variable {α : Type} (field : Option JsonValue) (item : JsonValue → Option α)

/-- A field without a default. -/
def required : Option α := field.bind item

/-- A field with `#[serde(default)]`. -/
def defaulted (default : α) : Option α :=
  match field with
  | none => some default
  | some value => item value

/-- An `Option` field, which is absent, `null` or a value. -/
def nullable : Option (Option α) :=
  match field with
  | none | some .null => some none
  | some value => (item value).map some

end

namespace JsonValue

def asString : JsonValue → Option String
  | string s => some s
  | _ => none

def asList {α : Type} (item : JsonValue → Option α) : JsonValue → Option (List α)
  | array xs => xs.mapM item
  | _ => none

def asStrings : JsonValue → Option (List String) := asList asString

/-- A `HashMap`, read entry by entry. -/
def asMap {α : Type} (item : JsonValue → Option α) : JsonValue → Option (HashMap α)
  | object map => map.foldlM
      (fun (table : HashMap α) (entry : String × JsonValue) =>
        (item entry.2).map (table.insert entry.1)) ∅
  | _ => none

/-- A list that was written entry by entry is read back. -/
theorem asList_map {α : Type} {item : JsonValue → Option α} {write : α → JsonValue} (xs : List α)
    (entry : ∀ x ∈ xs, item (write x) = some x) :
    asList item (array (xs.map write)) = some xs := by
  show (xs.map write).mapM item = some xs
  induction xs with
  | nil => rfl
  | cons x xs ih =>
      have rest := ih fun y member => entry y (List.mem_cons_of_mem x member)
      rw [List.map_cons, List.mapM_cons, entry x List.mem_cons_self, rest]
      rfl

@[simp] theorem asStrings_map (xs : List String) :
    asStrings (array (xs.map string)) = some xs :=
  asList_map xs fun _ _ => rfl

end JsonValue

open JsonMap JsonValue

def decodeActionBinding : JsonValue → Option ActionBinding
  | object map => do
      let onExit ← defaulted (get map "on_exit") asStrings []
      let onTransition ← defaulted (get map "on_transition") asStrings []
      let onEnter ← defaulted (get map "on_enter") asStrings []
      return { onExit, onTransition, onEnter }
  | _ => none

def decodeSignalDef : JsonValue → Option SignalDef
  | object map => do
      let id ← required (get map "id") asString
      let initialState ← required (get map "initial_state") asString
      let states ← required (get map "states") asStrings
      return { id, initialState, states }
  | _ => none

def decodeTransitionDef : JsonValue → Option TransitionDef
  | object map => do
      let signalId ← required (get map "signal_id") asString
      let fromState ← required (get map "from") asString
      let event ← required (get map "event") asString
      let toState ← required (get map "to") asString
      let actions ← defaulted (get map "actions") decodeActionBinding {}
      let guard ← nullable (get map "guard") asString
      return { signalId, fromState, event, toState, actions, guard }
  | _ => none

def decodeReactionDef : JsonValue → Option ReactionDef
  | object map => do
      let fromSignal ← required (get map "from_signal") asString
      let fromState ← required (get map "from_state") asString
      let toSignal ← required (get map "to_signal") asString
      let event ← required (get map "event") asString
      let payload ← nullable (get map "payload") some
      let guard ← nullable (get map "guard") asString
      let joinGroup ← nullable (get map "join_group") asString
      let requires ← defaulted (get map "requires") asStrings []
      let onFail ← nullable (get map "on_fail") asString
      return { fromSignal, fromState, toSignal, event, payload, guard, joinGroup, requires, onFail }
  | _ => none

/-- A variant is its name, alone or as the key of `null`. -/
def decodePortDirection : JsonValue → Option PortDirection
  | string "In" | object [("In", null)] => some .in
  | string "Out" | object [("Out", null)] => some .out
  | string "InOut" | object [("InOut", null)] => some .inOut
  | _ => none

def decodePortDef : JsonValue → Option PortDef
  | object map => do
      let direction ← required (get map "direction") decodePortDirection
      let signal ← required (get map "signal") asString
      let state ← required (get map "state") asString
      let name ← nullable (get map "alias") asString
      return { direction, signal, state, «alias» := name }
  | _ => none

def decodeConnectionDef : JsonValue → Option ConnectionDef
  | object map => do
      let port ← required (get map "port") asString
      let targetSignal ← required (get map "target_signal") asString
      return { port, targetSignal }
  | _ => none

def decodeComponentDef : JsonValue → Option ComponentDef
  | object map => do
      let params ← required (get map "params") asStrings
      let ports ← defaulted (get map "ports") (asList decodePortDef) []
      let signals ← required (get map "signals") (asList decodeSignalDef)
      let transitions ← required (get map "transitions") (asList decodeTransitionDef)
      let reactions ← defaulted (get map "reactions") (asList decodeReactionDef) []
      return { params, ports, signals, transitions, reactions }
  | _ => none

def decodeInstanceDef : JsonValue → Option InstanceDef
  | object map => do
      let component ← required (get map "component") asString
      let bindings ← required (get map "bindings") (asMap asString)
      let connections ← defaulted (get map "connections") (asList decodeConnectionDef) []
      return { component, bindings, connections }
  | _ => none

/-- `serde_json::from_value::<TopologySchema>`. -/
def decodeTopologySchema : JsonValue → Option TopologySchema
  | object map => do
      let version ← required (get map "version") asString
      let signals ← required (get map "signals") (asList decodeSignalDef)
      let transitions ← required (get map "transitions") (asList decodeTransitionDef)
      let reactions ← defaulted (get map "reactions") (asList decodeReactionDef) []
      let components ← nullable (get map "components") (asMap decodeComponentDef)
      let instances ← defaulted (get map "instances") (asList decodeInstanceDef) []
      let includes ← defaulted (get map "includes") asStrings []
      return { version, signals, transitions, reactions, components, instances, includes }
  | _ => none

end SignalTopology
