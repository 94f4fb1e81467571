import Mathlib.Data.Finset.Insert
import SignalTopology.Schema

/-!
# Expansion of components and instances

Texts are handled as lists of characters: the source cuts its slices at the
ends of `${` and of `}`, which lie between characters.
-/

namespace SignalTopology

/-- The text before the first `${` and the text after it. -/
def findOpen : List Char → Option (List Char × List Char)
  | '$' :: '{' :: rest => some ([], rest)
  | c :: rest => (findOpen rest).map fun (before, after) => (c :: before, after)
  | [] => none

/-- The text before the first `\x7d` and the text after it. -/
def findClose : List Char → Option (List Char × List Char)
  | '}' :: rest => some ([], rest)
  | c :: rest => (findClose rest).map fun (before, after) => (c :: before, after)
  | [] => none

theorem findOpen_length {cs before after : List Char} (h : findOpen cs = some (before, after)) :
    before.length + after.length + 2 = cs.length := by
  fun_induction findOpen cs generalizing before after with
  | case1 rest =>
      obtain ⟨rfl, rfl⟩ : [] = before ∧ rest = after := by simpa using h
      simp
  | case2 c rest _ ih =>
      obtain ⟨⟨b, a⟩, found, same⟩ := Option.map_eq_some_iff.mp h
      obtain ⟨rfl, rfl⟩ : c :: b = before ∧ a = after := by simpa using same
      have := ih found
      simp only [List.length_cons]
      omega
  | case3 => cases h

theorem findClose_length {cs before after : List Char} (h : findClose cs = some (before, after)) :
    before.length + after.length + 1 = cs.length := by
  fun_induction findClose cs generalizing before after with
  | case1 rest =>
      obtain ⟨rfl, rfl⟩ : [] = before ∧ rest = after := by simpa using h
      simp
  | case2 c rest _ ih =>
      obtain ⟨⟨b, a⟩, found, same⟩ := Option.map_eq_some_iff.mp h
      obtain ⟨rfl, rfl⟩ : c :: b = before ∧ a = after := by simpa using same
      have := ih found
      simp only [List.length_cons]
      omega
  | case3 => cases h

/-- The loop of `subst`. An unclosed `${` appends the whole remaining text, the
part before it included. -/
def substChars (bound : HashMap String) (rest : List Char) : List Char :=
  match _opened : findOpen rest with
  | none => rest
  | some (before, afterOpen) =>
      match _closed : findClose afterOpen with
      | some (name, after) =>
          let value := match bound.lookup (String.ofList name) with
            | some value => value.toList
            | none => ['$', '{'] ++ name ++ ['}']
          before ++ value ++ substChars bound after
      | none => before ++ rest
termination_by rest.length
decreasing_by
  have := findOpen_length _opened
  have := findClose_length _closed
  omega

/-- Replace `${param}` by its bound value in one left-to-right pass. -/
def subst (s : String) (bound : HashMap String) : String :=
  String.ofList (substChars bound s.toList)

def substVec (items : List String) (bound : HashMap String) : List String :=
  items.map (subst · bound)

/-- The inner text of the first closed `${...}`. -/
def findUnresolved (s : String) : Option String := do
  let (_, afterOpen) ← findOpen s.toList
  let (name, _) ← findClose afterOpen
  some (String.ofList name)

/-- `subst`, then reject a remaining reference that is not a parameter. -/
def resolve (s name : String) (component : ComponentDef) (bound : HashMap String) :
    Except EngineError String :=
  let result := subst s bound
  match findUnresolved result with
  | some rem =>
      if rem ∈ component.params then .ok result else .error (.invalidParamRef name rem)
  | none => .ok result

def resolveVec (items : List String) (name : String) (component : ComponentDef)
    (bound : HashMap String) : Except EngineError (List String) :=
  items.mapM fun s => resolve s name component bound

/-- Every declared parameter must be supplied. -/
def checkBindings (component : ComponentDef) (bindings : HashMap String) (owner : String) :
    Except EngineError (HashMap String) :=
  component.params.foldlM (fun bound param =>
    match bindings.lookup param with
    | some value => .ok (bound.insert param value)
    | none => .error (.missingBinding owner param)) ∅

/-- The name a connection uses to address a port. -/
def portName (port : PortDef) (bound : HashMap String) : String :=
  match port.alias with
  | some name => name
  | none => subst port.signal bound ++ "." ++ subst port.state bound

/-- One connection of an instance, added to the table that renames the
component's signals. -/
def resolveConnection (component : ComponentDef) (signals : HashMap (List String))
    (bound : HashMap String) (owner : String) (remap : HashMap String) (conn : ConnectionDef) :
    Except EngineError (HashMap String) :=
  match component.ports.find? (fun port => portName port bound = conn.port) with
  | none => .error (.unknownPort owner conn.port)
  | some port =>
      let signalId := subst port.signal bound
      let state := subst port.state bound
      match signals.lookup signalId with
      | none => .error (.portUnknownSignal owner conn.port signalId)
      | some states =>
          if state ∈ states then
            let target := subst conn.targetSignal bound
            match remap.lookup signalId with
            | some existing =>
                if existing ≠ target then .error (.conflictingPortConnection owner conn.port)
                else .ok (remap.insert signalId target)
            | none => .ok (remap.insert signalId target)
          else .error (.portUnknownState owner conn.port signalId state)

def resolveConnections (component : ComponentDef) (connections : List ConnectionDef)
    (bound : HashMap String) (owner : String) : Except EngineError (HashMap String) :=
  let signals : HashMap (List String) := component.signals.foldl
    (fun map sig => map.insert (subst sig.id bound) (substVec sig.states bound)) ∅
  connections.foldlM (resolveConnection component signals bound owner) ∅

def expandSignal (sig : SignalDef) (name : String) (component : ComponentDef)
    (bound : HashMap String) : Except EngineError SignalDef := do
  let id ← resolve sig.id name component bound
  let initialState ← resolve sig.initialState name component bound
  let states ← resolveVec sig.states name component bound
  .ok { id, initialState, states }

def expandTransition (trans : TransitionDef) (name : String) (component : ComponentDef)
    (bound : HashMap String) : Except EngineError TransitionDef := do
  let signalId ← resolve trans.signalId name component bound
  let fromState ← resolve trans.fromState name component bound
  let event ← resolve trans.event name component bound
  let toState ← resolve trans.toState name component bound
  let onExit ← resolveVec trans.actions.onExit name component bound
  let onTransition ← resolveVec trans.actions.onTransition name component bound
  let onEnter ← resolveVec trans.actions.onEnter name component bound
  let guard ← trans.guard.mapM fun guard => resolve guard name component bound
  .ok { signalId, fromState, event, toState,
        actions := { onExit, onTransition, onEnter }, guard }

/-- Only the four endpoint fields of a reaction are substituted. -/
def expandReaction (reaction : ReactionDef) (name : String) (component : ComponentDef)
    (bound : HashMap String) : Except EngineError ReactionDef := do
  let fromSignal ← resolve reaction.fromSignal name component bound
  let fromState ← resolve reaction.fromState name component bound
  let toSignal ← resolve reaction.toSignal name component bound
  let event ← resolve reaction.event name component bound
  .ok { reaction with fromSignal, fromState, toSignal, event }

/-- The parent-level name of a signal of the instance. -/
def renamed (remap : HashMap String) (signal : String) : String :=
  (remap.lookup signal).getD signal

/-- What one instance adds to the flat schema. -/
structure Expansion where
  signals : List SignalDef
  transitions : List TransitionDef
  reactions : List ReactionDef

def expandInstance (components : HashMap ComponentDef) (inst : InstanceDef) :
    Except EngineError Expansion := do
  let component ← match components.lookup inst.component with
    | some component => .ok component
    | none => .error (.componentNotFound inst.component)
  let bound ← checkBindings component inst.bindings inst.component
  let remap ← resolveConnections component inst.connections bound inst.component
  let signals ← component.signals.mapM fun sig => do
    let expanded ← expandSignal sig inst.component component bound
    .ok { expanded with id := renamed remap expanded.id }
  let transitions ← component.transitions.mapM fun trans => do
    let expanded ← expandTransition trans inst.component component bound
    .ok { expanded with signalId := renamed remap expanded.signalId }
  let reactions ← component.reactions.mapM fun reaction => do
    let expanded ← expandReaction reaction inst.component component bound
    .ok { expanded with
      fromSignal := renamed remap expanded.fromSignal
      toSignal := renamed remap expanded.toSignal }
  .ok { signals, transitions, reactions }

def enforceUniqueSignalIds (signals : List SignalDef) : Except EngineError Unit := do
  let _ ← signals.foldlM (fun seen sig =>
    if sig.id ∈ seen then .error (.duplicateSignalAfterExpand sig.id)
    else .ok (insert sig.id seen)) (∅ : Finset String)

/-- Flatten a schema. Without instances it is returned unchanged. -/
def expand (schema : TopologySchema) : Except EngineError TopologySchema :=
  if schema.instances.isEmpty then .ok schema
  else do
    let components := schema.components.getD ∅
    let expansions ← schema.instances.mapM (expandInstance components)
    let signals := schema.signals ++ expansions.flatMap (·.signals)
    let transitions := schema.transitions ++ expansions.flatMap (·.transitions)
    let reactions := schema.reactions ++ expansions.flatMap (·.reactions)
    enforceUniqueSignalIds signals
    .ok { version := schema.version, signals, transitions, reactions }

/-- A flat schema is its own expansion. -/
theorem expand_of_flat {schema : TopologySchema} (flat : schema.Flat) :
    expand schema = .ok schema := by
  have none_left : schema.instances = [] := flat
  simp [expand, none_left]

end SignalTopology
