import SignalTopology.Compose.Instances
import SignalTopology.Ddl.Codegen
import SignalTopology.Engine.State
import SignalTopology.Serde

/-!
# The compiled file

`stc` writes a compiled schema by hand, field by field. Every field but one is
read back as it was: the payload of a reaction is not written. A compiled file
therefore means the same as the schema exactly when no reaction has a payload.
-/

namespace SignalTopology

open JsonMap JsonValue

/-- `m.insert(key, Value::String(..))` when there is a text. -/
def insertText (map : JsonMap) (key : String) : Option String → JsonMap
  | some text => JsonMap.insert map key (string text)
  | none => map

/-- `m.insert(key, Value::Array(..))` when the list is not empty. -/
def insertTexts (map : JsonMap) (key : String) (texts : List String) : JsonMap :=
  if texts.isEmpty then map else JsonMap.insert map key (array (texts.map string))

def actionBindingToValue (a : ActionBinding) : JsonValue :=
  let m := insertTexts [] "on_exit" a.onExit
  let m := insertTexts m "on_transition" a.onTransition
  let m := insertTexts m "on_enter" a.onEnter
  object m

def transitionToValue (t : TransitionDef) : JsonValue :=
  let m := JsonMap.insert [] "signal_id" (string t.signalId)
  let m := JsonMap.insert m "from" (string t.fromState)
  let m := JsonMap.insert m "event" (string t.event)
  let m := JsonMap.insert m "to" (string t.toState)
  let m := JsonMap.insert m "actions" (actionBindingToValue t.actions)
  let m := insertText m "guard" t.guard
  object m

def signalToValue (s : SignalDef) : JsonValue :=
  let m := JsonMap.insert [] "id" (string s.id)
  let m := JsonMap.insert m "initial_state" (string s.initialState)
  let m := JsonMap.insert m "states" (array (s.states.map string))
  object m

/-- The closure of `schema_to_value` over the reactions; it writes no payload. -/
def reactionToValue (r : ReactionDef) : JsonValue :=
  let m := JsonMap.insert [] "from_signal" (string r.fromSignal)
  let m := JsonMap.insert m "from_state" (string r.fromState)
  let m := JsonMap.insert m "to_signal" (string r.toSignal)
  let m := JsonMap.insert m "event" (string r.event)
  let m := insertText m "guard" r.guard
  let m := insertText m "join_group" r.joinGroup
  let m := insertTexts m "requires" r.requires
  let m := insertText m "on_fail" r.onFail
  object m

/-- `schema_to_value`. -/
def schemaToValue (schema : TopologySchema) : JsonValue :=
  let root := JsonMap.insert [] "version" (string schema.version)
  let root := JsonMap.insert root "signals" (array (schema.signals.map signalToValue))
  let root := JsonMap.insert root "transitions" (array (schema.transitions.map transitionToValue))
  let root :=
    if schema.reactions.isEmpty then root
    else JsonMap.insert root "reactions" (array (schema.reactions.map reactionToValue))
  object root

/-! ## Reading back what was written -/

theorem get_insertText (map : JsonMap) (key other : String) (text : Option String) :
    get (insertText map key text) other =
      if other = key then text.elim (get map other) (some ∘ string) else get map other := by
  cases text with
  | none => simp [insertText]
  | some text => simp [insertText, get_insert]

theorem get_insertTexts (map : JsonMap) (key other : String) (texts : List String) :
    get (insertTexts map key texts) other =
      if other = key ∧ texts ≠ [] then some (array (texts.map string)) else get map other := by
  cases texts with
  | nil => simp [insertTexts]
  | cons text texts => simp [insertTexts, get_insert]

@[simp] theorem nullable_none {α : Type} (item : JsonValue → Option α) :
    nullable none item = some none := rfl

@[simp] theorem nullable_text (text : Option String) :
    nullable (text.elim none (some ∘ string)) asString = some text := by
  cases text with
  | none => rfl
  | some text => rfl

@[simp] theorem defaulted_texts (texts : List String) :
    defaulted (if texts = [] then none else some (array (texts.map string))) asStrings [] =
      some texts := by
  cases texts with
  | nil => rfl
  | cons text texts => exact asStrings_map (text :: texts)

theorem decode_actionBinding (a : ActionBinding) :
    decodeActionBinding (actionBindingToValue a) = some a := by
  simp [decodeActionBinding, actionBindingToValue, get_insertTexts]

theorem decode_signal (s : SignalDef) : decodeSignalDef (signalToValue s) = some s := by
  simp [decodeSignalDef, signalToValue, required, get_insert, asString]

theorem decode_transition (t : TransitionDef) :
    decodeTransitionDef (transitionToValue t) = some t := by
  simp [decodeTransitionDef, transitionToValue, required, defaulted, get_insert, get_insertText,
    asString, decode_actionBinding]

/-- A reaction comes back without its payload. -/
theorem decode_reaction (r : ReactionDef) :
    decodeReactionDef (reactionToValue r) = some { r with payload := none } := by
  simp [decodeReactionDef, reactionToValue, required, get_insert, get_insertText,
    get_insertTexts, asString]

/-- The content of a schema that an engine is built from. -/
structure SameContent (schema schema' : TopologySchema) : Prop where
  version : schema'.version = schema.version
  signals : schema'.signals = schema.signals
  transitions : schema'.transitions = schema.transitions
  reactions : schema'.reactions = schema.reactions

/-- What a written schema is read back as. -/
def TopologySchema.reread (schema : TopologySchema) : TopologySchema where
  version := schema.version
  signals := schema.signals
  transitions := schema.transitions
  reactions := schema.reactions.map fun r => { r with payload := none }

theorem decode_schema (schema : TopologySchema) :
    decodeTopologySchema (schemaToValue schema) = some schema.reread := by
  have signals : asList decodeSignalDef (array (schema.signals.map signalToValue)) =
      some schema.signals :=
    asList_map schema.signals fun s _ => decode_signal s
  have transitions : asList decodeTransitionDef (array (schema.transitions.map transitionToValue)) =
      some schema.transitions :=
    asList_map schema.transitions fun t _ => decode_transition t
  have reactions : ∀ rs : List ReactionDef,
      asList decodeReactionDef (array (rs.map reactionToValue)) =
        some (rs.map fun r => { r with payload := none }) := by
    intro rs
    show (rs.map reactionToValue).mapM decodeReactionDef = _
    induction rs with
    | nil => rfl
    | cons r rs ih =>
        rw [List.map_cons, List.mapM_cons, decode_reaction, ih]
        rfl
  by_cases none_left : schema.reactions = []
  · simp [decodeTopologySchema, schemaToValue, required, defaulted, get_insert, asString, signals,
      transitions, none_left, TopologySchema.reread]
  · simp [decodeTopologySchema, schemaToValue, required, defaulted, get_insert, asString, signals,
      transitions, reactions, none_left, TopologySchema.reread]

/-- Only payloads are lost. -/
theorem reread_sameContent {schema : TopologySchema} :
    SameContent schema schema.reread ↔ ∀ r ∈ schema.reactions, r.payload = none := by
  constructor
  · intro same r member
    have unchanged : schema.reactions.map (fun r => { r with payload := none }) =
        schema.reactions.map id := by
      rw [List.map_id]
      exact same.reactions
    have erased := List.map_inj_left.mp unchanged r member
    exact (congrArg ReactionDef.payload erased).symm
  · intro bare
    refine ⟨rfl, rfl, rfl, ?_⟩
    show schema.reactions.map (fun r => { r with payload := none }) = schema.reactions
    rw [List.map_congr_left (g := id), List.map_id]
    intro r member
    have absent := bare r member
    cases r
    cases absent
    rfl

theorem fromSchema_sameContent {W : Type} {schema schema' : TopologySchema}
    (same : SameContent schema schema') (flat : schema.Flat) (flat' : schema'.Flat) (world : W) :
    TopologyEngine.fromSchema world schema' = TopologyEngine.fromSchema world schema := by
  have checked : validate schema' = validate schema := by
    simp only [validate, validateTransition, same.signals, same.transitions, same.reactions]
  simp only [TopologyEngine.fromSchema, expand_of_flat flat, expand_of_flat flat', bind,
    Except.bind, checked, same.signals, same.transitions, same.reactions]

section

variable [RustStd] [SerdeJson]

/-- The file written for a compiled source is read back as the compiled schema
exactly if no reaction carries a payload; apart from the payloads it always is.
Without payloads, the engine built from the file is the one built in memory. -/
theorem compiled_file_iff {src : String} {schema : TopologySchema} {doc : Ddl.DdlDoc}
    (compiled : Ddl.compileFull src = .ok (schema, doc)) :
    ∃ decoded, decodeTopologySchema (schemaToValue schema) = some decoded ∧
      (SameContent schema decoded ↔ ∀ r ∈ schema.reactions, r.payload = none) ∧
      SameContent { schema with
        reactions := schema.reactions.map fun r => { r with payload := none } } decoded ∧
      ((∀ r ∈ schema.reactions, r.payload = none) → ∀ {W : Type} (world : W),
        TopologyEngine.fromSchema world decoded = TopologyEngine.fromSchema world schema) := by
  refine ⟨schema.reread, decode_schema schema, reread_sameContent, ⟨rfl, rfl, rfl, rfl⟩, ?_⟩
  intro bare W world
  obtain ⟨_, lowered, _, _, _, expanded⟩ := Ddl.compileFull_ok_iff.mp compiled
  exact fromSchema_sameContent (reread_sameContent.mpr bare) (expand_flat expanded) rfl world

end

/-- An order that is put on hold when it is paid; `payload` follows the event. -/
def holdSource (payload : String) : String :=
  "signal order \x7b states: [open, paid] initial: open on pay from open -> paid \x7d " ++
  "reaction \x7b when order enters paid -> order hold " ++ payload ++ "\x7d"

/-- Compiling `holdSource payload` gives one reaction, with a payload if `carries`. -/
def holdCompiles (payload : String) (carries : Bool) : Bool :=
  match @Ddl.compileFull .keywords .ascii (holdSource payload) with
  | .ok (schema, _) => schema.reactions.map (·.payload.isSome) == [carries]
  | .error _ => false

theorem holdSource_compiles (payload : String) (carries : Bool)
    (checked : holdCompiles payload carries = true) :
    ∃ schema doc, @Ddl.compileFull .keywords .ascii (holdSource payload) = .ok (schema, doc) ∧
      schema.reactions.map (·.payload.isSome) = [carries] := by
  unfold holdCompiles at checked
  split at checked
  · next schema doc compiled => exact ⟨schema, doc, compiled, eq_of_beq checked⟩
  · cases checked

/-- The check is evaluated on the characters of the source. -/
theorem holdCompiles_chars {payload : String} {carries : Bool} {cs : List Char}
    (chars : String.ofList cs = holdSource payload)
    (checked : (@Ddl.compileChars .keywords .ascii cs).toOption.any (fun result =>
      result.1.reactions.map (·.payload.isSome) == [carries]) = true) :
    holdCompiles payload carries = true := by
  have whole := @Ddl.compileFull_check .keywords .ascii (holdSource payload) cs (fun outcome =>
    outcome.toOption.any fun result => result.1.reactions.map (·.payload.isSome) ==
      [carries]) chars checked
  unfold holdCompiles
  split
  · next compiled =>
      rw [compiled] at whole
      exact whole
  · next failed =>
      rw [failed] at whole
      cases whole

theorem holdSource_same : ∃ schema doc decoded,
    @Ddl.compileFull .keywords .ascii (holdSource "") = .ok (schema, doc) ∧
      decodeTopologySchema (schemaToValue schema) = some decoded ∧
      SameContent schema decoded := by
  obtain ⟨schema, doc, compiled, bare⟩ := holdSource_compiles "" false
    (holdCompiles_chars (Ddl.chars_append (Ddl.chars_append (Ddl.chars_append rfl rfl) rfl) rfl)
      (by decide +kernel))
  obtain ⟨decoded, read, same, _⟩ := @compiled_file_iff .ascii .keywords _ schema doc compiled
  refine ⟨schema, doc, decoded, compiled, read, same.mpr fun r member => ?_⟩
  have absent : r.payload.isSome ∈ [false] := bare ▸ List.mem_map_of_mem member
  simpa using absent

/-- The payload of a compiled reaction is missing from the file. -/
theorem holdSource_differs : ∃ schema doc decoded,
    @Ddl.compileFull .keywords .ascii (holdSource "with \x7b \"auto\": true \x7d ") =
        .ok (schema, doc) ∧
      decodeTopologySchema (schemaToValue schema) = some decoded ∧
      schema.reactions.map (·.payload.isSome) = [true] ∧
      decoded.reactions.map (·.payload.isSome) = [false] ∧ ¬ SameContent schema decoded := by
  obtain ⟨schema, doc, compiled, carries⟩ :=
    holdSource_compiles "with \x7b \"auto\": true \x7d " true
      (holdCompiles_chars (Ddl.chars_append (Ddl.chars_append (Ddl.chars_append rfl rfl) rfl) rfl)
        (by decide +kernel))
  have lost : schema.reread.reactions.map (·.payload.isSome) = [false] := by
    have one := congrArg List.length carries
    rw [List.length_map] at one
    obtain ⟨r, only⟩ := List.length_eq_one_iff.mp one
    simp [TopologySchema.reread, only]
  refine ⟨schema, doc, schema.reread, compiled, decode_schema schema, carries, lost, ?_⟩
  intro same
  rw [same.reactions, carries] at lost
  cases lost

end SignalTopology
