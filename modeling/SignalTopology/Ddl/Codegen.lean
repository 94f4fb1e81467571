import SignalTopology.Compose
import SignalTopology.Ddl.Parser
import SignalTopology.Platform

/-!
# DDL codegen

A document becomes a schema declaration by declaration. A wildcard transition
becomes one arm per state of its signal, and a payload text becomes a JSON
value. `compileFull` is the whole pipeline.
-/

namespace SignalTopology.Ddl

open TokenParser

def DdlActionBinding.emit (actions : DdlActionBinding) : ActionBinding where
  onExit := actions.onExit
  onTransition := actions.onTransition
  onEnter := actions.onEnter

/-- The transitions of one clause: an arm per state for a wildcard. -/
def emitTransition (signalId : String) (states : List String) (tr : TransDecl) :
    List TransitionDef :=
  let arm (fromState : String) : TransitionDef := {
    signalId, fromState, event := tr.event, toState := tr.toState, actions := tr.actions.emit
    guard := tr.guard }
  if tr.fromState = "*" then states.map arm else [arm tr.fromState]

/-- The signals and transitions of a body, in source order. -/
def emitSignals (decls : List SignalDecl) : List SignalDef × List TransitionDef :=
  (decls.map fun sig => { id := sig.id, initialState := sig.initial, states := sig.states },
    decls.flatMap fun sig => sig.transitions.flatMap (emitTransition sig.id sig.states))

def emitInstantiate (inst : InstantiateDecl) : InstanceDef where
  component := inst.component
  bindings := inst.bindings
  connections := inst.connections

variable [SerdeJson]

def emitReaction (r : ReactionDecl) : Except EngineError ReactionDef := do
  let payload ← match r.payload with
    | none => .ok none
    | some raw =>
        match SerdeJson.valueFromStr raw with
        | .ok value => .ok (some value)
        | .error e => .error (.parseError ("reaction payload is not valid JSON: " ++ e))
  return { fromSignal := r.fromSignal, fromState := r.fromState, toSignal := r.toSignal
           event := r.event, payload, guard := r.guard, joinGroup := r.joinGroup
           requires := r.requires, onFail := r.onFail }

def emitComponent (comp : ComponentDecl) : Except EngineError ComponentDef := do
  let (signals, transitions) := emitSignals comp.signals
  let reactions ← comp.reactions.mapM emitReaction
  return { params := comp.params, ports := comp.ports, signals, transitions, reactions }

/-- `ddl::codegen::emit`. -/
def emit (doc : DdlDoc) : Except EngineError TopologySchema := do
  let (signals, transitions) := emitSignals doc.signals
  let reactions ← doc.reactions.mapM emitReaction
  let components ← doc.components.foldlM
    (fun (map : HashMap ComponentDef) comp => do return map.insert comp.id (← emitComponent comp)) ∅
  return { version := "0.1", signals, transitions, reactions
           components := if components.keys.isEmpty then none else some components
           instances := doc.instantiates.map emitInstantiate }

section

variable [RustStd]

/-- `compile_full`: the schema, with the document it was lowered from. -/
def compileFull (src : String) : Except (Failure EngineError) (TopologySchema × DdlDoc) :=
  match tokenize src with
  | .error e => .error (.error (.parseError e))
  | .ok tokens =>
      match parse tokens src with
      | .error (.error e) => .error (.error (.parseError e))
      | .error .panic => .error .panic
      | .error .outOfFuel => .error .outOfFuel
      | .ok doc =>
          match emit doc with
          | .error e => .error (.error e)
          | .ok schema =>
              match expand schema with
              | .error e => .error (.error e)
              | .ok schema => .ok (schema, doc)

/-- `compileFull` on the characters of a source. -/
def compileChars (src : List Char) : Except (Failure EngineError) (TopologySchema × DdlDoc) :=
  match tokenizeChars .start src with
  | .error e => .error (.error (.parseError e))
  | .ok tokens =>
      match (match tokens with
        | [] => .error .panic
        | t :: ts => (parseDoc src ⟨t, ts⟩).map Prod.fst : Except (Failure String) DdlDoc) with
      | .error (.error e) => .error (.error (.parseError e))
      | .error .panic => .error .panic
      | .error .outOfFuel => .error .outOfFuel
      | .ok doc =>
          match emit doc with
          | .error e => .error (.error e)
          | .ok schema =>
              match expand schema with
              | .error e => .error (.error e)
              | .ok schema => .ok (schema, doc)

/-- A check on a source that is spelled out is evaluated without decoding the source. -/
theorem compileFull_check {src : String} {cs : List Char}
    {check : Except (Failure EngineError) (TopologySchema × DdlDoc) → Bool}
    (chars : String.ofList cs = src) (checked : check (compileChars cs) = true) :
    check (compileFull src) = true := by
  obtain rfl : src.toList = cs := by rw [← chars, String.toList_ofList]
  have same : compileFull src = compileChars src.toList := by
    unfold compileFull compileChars tokenize parse
    rfl
  rw [same]
  exact checked

omit [SerdeJson] [RustStd] in
theorem chars_append {s t : String} {cs ds : List Char} (first : String.ofList cs = s)
    (second : String.ofList ds = t) : String.ofList (cs ++ ds) = s ++ t := by
  rw [String.ofList_append, first, second]

/-- `compile`: the schema alone. -/
def compile (src : String) : Except (Failure EngineError) TopologySchema :=
  (compileFull src).map Prod.fst

/-- A source compiles when each stage of the pipeline succeeds. -/
theorem compileFull_ok_iff {src : String} {schema : TopologySchema} {doc : DdlDoc} :
    compileFull src = .ok (schema, doc) ↔ ∃ tokens lowered, tokenize src = .ok tokens ∧
      parse tokens src = .ok doc ∧ emit doc = .ok lowered ∧ expand lowered = .ok schema := by
  unfold compileFull
  constructor
  · intro compiled
    split at compiled
    · cases compiled
    · next tokens lexed =>
        split at compiled <;> try cases compiled
        next doc parsed =>
          split at compiled
          · cases compiled
          · next lowered emitted =>
              split at compiled
              · cases compiled
              · next flat expanded =>
                  cases compiled
                  exact ⟨tokens, lowered, lexed, parsed, emitted, expanded⟩
  · rintro ⟨tokens, lowered, lexed, parsed, emitted, expanded⟩
    simp only [lexed, parsed, emitted, expanded]

end

end SignalTopology.Ddl
