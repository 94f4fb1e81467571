import SignalTopology.Engine.Payloads
import SignalTopology.Engine.Success
import SignalTopology.Serde

/-!
# The C and the WASM binding

Both bindings take an event as JSON text and hand it to `send_event`. The C binding reads the
text into a derived structure, the WASM binding into a value from which it picks the fields.
A field that is missing, or no string, is refused by the one and taken for the empty name by
the other.
-/

namespace SignalTopology

/-- `Value::get` with a key. -/
def JsonValue.get : JsonValue → String → Option JsonValue
  | object map, key => JsonMap.get map key
  | _, _ => none

/-- The string at a key. -/
def JsonValue.getStr (v : JsonValue) (key : String) : Option String := (v.get key).bind asString

namespace Bindings

open JsonValue

/-- `ffi::EventInput`. -/
structure EventInput where
  signalId : String
  event : String
  payload : Option JsonValue

/-- The derived `Deserialize`, which also takes the fields in order as an array. -/
def decodeEventInput : JsonValue → Option EventInput
  | object map => do
      let signalId ← required (JsonMap.get map "signal_id") asString
      let event ← required (JsonMap.get map "event") asString
      let payload ← nullable (JsonMap.get map "payload") some
      return { signalId, event, payload }
  | array [first, second] => do
      let signalId ← asString first
      let event ← asString second
      return { signalId, event, payload := none }
  | array [first, second, third] => do
      let signalId ← asString first
      let event ← asString second
      let payload ← nullable (some third) some
      return { signalId, event, payload }
  | _ => none

/-- The value of a successful send. Both bindings hand out its text. -/
def okJson (result : TransitionResult) : JsonValue :=
  .object [("ok", .object [
    ("executed_actions", .array (result.executedActions.map .string)),
    ("from", .string result.fromState),
    ("signal_id", .string result.signalId),
    ("to", .string result.toState)])]

def errJson (message : String) : JsonValue := .object [("error", .string message)]

section

variable {W : Type} [RustStd] [SerdeJson]

/-- `ffi::engine_send_event` behind the checks of its pointers. `inputFromStr` is
`serde_json::from_str::<EventInput>`. -/
def engineSendEvent (inputFromStr : String → Except String EventInput) (engine : TopologyEngine W)
    (json : String) : JsonValue × TopologyEngine W :=
  match inputFromStr json with
  | .error e => (errJson ("invalid event JSON: " ++ e), engine)
  | .ok event =>
      match engine.sendEvent event.signalId event.event event.payload with
      | (.ok result, engine) => (okJson result, engine)
      | (.error e, engine) => (errJson e.toString, engine)

omit [RustStd] [SerdeJson] in
/-- The payload of an event. An explicit `null` is none. -/
def payloadOf (parsed : JsonValue) : Option JsonValue :=
  match parsed.get "payload" with
  | none | some .null => none
  | some v => some v

omit [RustStd] in
/-- `parse_event_json` of the WASM crate. -/
def parseEventJson (eventJson : String) : Except String (String × String × Option JsonValue) :=
  match SerdeJson.valueFromStr eventJson with
  | .error e => .error ("invalid event JSON: " ++ e)
  | .ok parsed =>
      let signalId := (parsed.getStr "signal_id").getD ""
      let event := (parsed.getStr "event").getD ""
      .ok (signalId, event, payloadOf parsed)

/-- `send_event_impl` of the WASM crate. -/
def sendEventImpl (engine : TopologyEngine W) (eventJson : String) :
    Except String JsonValue × TopologyEngine W :=
  match parseEventJson eventJson with
  | .error e => (.error e, engine)
  | .ok (signalId, event, payload) =>
      match engine.sendEvent signalId event payload with
      | (.ok result, engine) => (.ok (okJson result), engine)
      | (.error e, engine) => (.error e.toString, engine)

/-! ## Agreement -/

omit [RustStd] [SerdeJson] in
/-- The value names a signal and an event. -/
def Addressed (v : JsonValue) : Prop := v.getStr "signal_id" ≠ none ∧ v.getStr "event" ≠ none

/-- What the two bindings have in common on one text: results, states and trace. A value that
names no signal or no event reaches the engine through neither. -/
structure Agree (inputFromStr : String → Except String EventInput) (engine : TopologyEngine W)
    (text : String) : Prop where
  result : ∀ content, (sendEventImpl engine text).1 = .ok (.object [("ok", content)]) ↔
    (engineSendEvent inputFromStr engine text).1 = .object [("ok", content)]
  states : ∀ id, (sendEventImpl engine text).2.current id =
    (engineSendEvent inputFromStr engine text).2.current id
  trace : (sendEventImpl engine text).2.trace = (engineSendEvent inputFromStr engine text).2.trace
  rejects : ∀ v, SerdeJson.valueFromStr text = .ok v → ¬ Addressed v →
    (∃ e, sendEventImpl engine text = (.error e, engine)) ∧
      ∃ e, engineSendEvent inputFromStr engine text = (errJson e, engine)

omit [RustStd] in
/-- The text is JSON to neither reader, or a value that names a signal and an event. -/
structure WellFormed (inputFromStr : String → Except String EventInput) (text : String) : Prop where
  refused : ∀ e, SerdeJson.valueFromStr text = .error e → ∃ e', inputFromStr text = .error e'
  addressed : ∀ v, SerdeJson.valueFromStr text = .ok v → Addressed v

omit [RustStd] [SerdeJson] in
/-- Where the fields are strings, the derived reader and the picks find the same. -/
theorem decode_addressed {v : JsonValue} {signalId event : String}
    (signal : v.getStr "signal_id" = some signalId) (name : v.getStr "event" = some event) :
    decodeEventInput v = some ⟨signalId, event, payloadOf v⟩ := by
  cases v with
  | object map =>
      have first : required (JsonMap.get map "signal_id") asString = some signalId := signal
      have second : required (JsonMap.get map "event") asString = some event := name
      have third : nullable (JsonMap.get map "payload") some = some (payloadOf (.object map)) := by
        have field : (JsonValue.object map).get "payload" = JsonMap.get map "payload" := rfl
        rw [payloadOf, field]
        cases JsonMap.get map "payload" with
        | none => rfl
        | some value => cases value <;> rfl
      rw [decodeEventInput, first, second, third]
      rfl
  | null => cases signal
  | bool => cases signal
  | number => cases signal
  | string => cases signal
  | array => cases signal

/-- An event that is sent appears in the trace. -/
theorem sendEvent_grows (engine : TopologyEngine W) (signalId event : String)
    (payload : Option JsonValue) :
    (engine.sendEvent signalId event payload).2.trace ≠ engine.trace := by
  intro same
  have received : (engine.sendEvent signalId event payload).2.trace[engine.trace.length]? =
      some _ :=
    Call.Reached.received (c := .top engine signalId event payload) .refl (Nat.zero_le _)
  rw [same, List.getElem?_eq_none (Nat.le_refl _)] at received
  cases received

/-! ## What the bindings do with a text -/

section

variable {inputFromStr : String → Except String EventInput}
  (engine : TopologyEngine W) {text : String}

omit [RustStd] in
theorem parseEventJson_ok {v : JsonValue} (read : SerdeJson.valueFromStr text = .ok v) :
    parseEventJson text = .ok
      ((v.getStr "signal_id").getD "", (v.getStr "event").getD "", payloadOf v) := by
  rw [parseEventJson, read]

/-- A text that is no JSON does not reach the engine. -/
theorem sendEventImpl_refused {e : String} (read : SerdeJson.valueFromStr text = .error e) :
    sendEventImpl engine text = (.error ("invalid event JSON: " ++ e), engine) := by
  rw [sendEventImpl, parseEventJson, read]

theorem engineSendEvent_refused {e : String} (read : inputFromStr text = .error e) :
    engineSendEvent inputFromStr engine text = (errJson ("invalid event JSON: " ++ e), engine) := by
  rw [engineSendEvent, read]

/-- The WASM binding sends whatever value it reads. -/
theorem sendEventImpl_after {v : JsonValue} (read : SerdeJson.valueFromStr text = .ok v) :
    (sendEventImpl engine text).2 = (engine.sendEvent ((v.getStr "signal_id").getD "")
      ((v.getStr "event").getD "") (payloadOf v)).2 := by
  rw [sendEventImpl, parseEventJson_ok read]
  dsimp only
  split <;> next sent => rw [sent]

theorem engineSendEvent_after {input : EventInput} (read : inputFromStr text = .ok input) :
    (engineSendEvent inputFromStr engine text).2 =
      (engine.sendEvent input.signalId input.event input.payload).2 := by
  rw [engineSendEvent, read]
  dsimp only
  split <;> next sent => rw [sent]

/-- The outcome of a send, as either binding hands it out. -/
theorem same_outcome {v : JsonValue} {signalId event : String}
    (read : SerdeJson.valueFromStr text = .ok v)
    (input : inputFromStr text = .ok ⟨signalId, event, payloadOf v⟩)
    (signal : v.getStr "signal_id" = some signalId) (name : v.getStr "event" = some event) :
    (∀ content, (sendEventImpl engine text).1 = .ok (.object [("ok", content)]) ↔
      (engineSendEvent inputFromStr engine text).1 = .object [("ok", content)]) ∧
      (sendEventImpl engine text).2 = (engineSendEvent inputFromStr engine text).2 := by
  rw [sendEventImpl, parseEventJson_ok read, engineSendEvent, input, signal, name]
  dsimp only [Option.getD_some]
  cases sent : engine.sendEvent signalId event (payloadOf v) with
  | mk outcome after =>
      cases outcome with
      | ok result => exact ⟨fun content => by simp, rfl⟩
      | error e => exact ⟨fun content => by simp [errJson], rfl⟩

end

/-- The bindings agree exactly on well-formed texts. On any other value the WASM binding still
sends an event, with the empty name for what is missing. -/
theorem agree_iff {inputFromStr : String → Except String EventInput} (engine : TopologyEngine W)
    {text : String}
    (reads : ∀ v, SerdeJson.valueFromStr text = .ok v →
      (inputFromStr text).toOption = decodeEventInput v) :
    Agree inputFromStr engine text ↔ WellFormed inputFromStr text := by
  constructor
  · intro agree
    constructor
    · intro e read
      cases input : inputFromStr text with
      | error e' => exact ⟨e', rfl⟩
      | ok input' =>
          have trace := agree.trace
          rw [sendEventImpl_refused engine read, engineSendEvent_after engine input] at trace
          exact absurd trace.symm (sendEvent_grows _ _ _ _)
    · intro v read
      by_contra missing
      obtain ⟨⟨e, refused⟩, _⟩ := agree.rejects v read missing
      have after := sendEventImpl_after engine read
      rw [refused] at after
      exact sendEvent_grows _ _ _ _ (congrArg TopologyEngine.trace after.symm)
  · rintro ⟨refused, addressed⟩
    cases read : SerdeJson.valueFromStr text with
    | error e =>
        obtain ⟨e', input⟩ := refused e read
        have left := sendEventImpl_refused engine read
        have right := engineSendEvent_refused engine input
        refine ⟨fun content => ?_, fun id => ?_, ?_, fun v found => ?_⟩
        · rw [left, right]
          simp [errJson]
        · rw [left, right]
        · rw [left, right]
        · rw [read] at found
          cases found
    | ok v =>
        obtain ⟨signal, name⟩ := addressed v read
        obtain ⟨signalId, signal⟩ := Option.ne_none_iff_exists'.mp signal
        obtain ⟨event, name⟩ := Option.ne_none_iff_exists'.mp name
        have input : inputFromStr text = .ok ⟨signalId, event, payloadOf v⟩ := by
          have decoded := reads v read
          rw [decode_addressed signal name] at decoded
          cases input : inputFromStr text with
          | error => rw [input] at decoded; cases decoded
          | ok => rw [input] at decoded; cases decoded; rfl
        obtain ⟨result, after⟩ := same_outcome engine read input signal name
        refine ⟨result, fun id => by rw [after], by rw [after], fun v' found missing => ?_⟩
        rw [read] at found
        cases found
        exact absurd (addressed v read) missing

end

/-! ## Two texts -/

def pushText : String := "\x7b\"signal_id\":\"door\",\"event\":\"push\"\x7d"

/-- The signal is missing. -/
def looseText : String := "\x7b\"event\":\"push\"\x7d"

@[reducible] def eventSerde : SerdeJson where
  valueFromStr text :=
    if text = pushText then .ok (.object [("event", .string "push"), ("signal_id", .string "door")])
    else if text = looseText then .ok (.object [("event", .string "push")])
    else .error "expected value at line 1 column 1"
  schemaFromStr _ := .error "expected value at line 1 column 1"
  valueToString _ := "null"

/-- The derived reader of these texts. -/
def eventFromStr (text : String) : Except String EventInput :=
  match @SerdeJson.valueFromStr eventSerde text with
  | .error e => .error e
  | .ok v =>
      match decodeEventInput v with
      | some input => .ok input
      | none => .error "missing field `signal_id` at line 1 column 16"

theorem pushText_agrees : @Agree Nat .ascii eventSerde eventFromStr doorEngine pushText := by
  let json : SerdeJson := eventSerde
  have read : SerdeJson.valueFromStr pushText =
      .ok (.object [("event", .string "push"), ("signal_id", .string "door")]) := rfl
  refine (@agree_iff Nat .ascii eventSerde eventFromStr doorEngine pushText ?_).mpr ⟨?_, ?_⟩
  · intro v found
    rw [read] at found
    cases found
    rfl
  · intro e found
    rw [read] at found
    cases found
  · intro v found
    rw [read] at found
    cases found
    exact ⟨Option.some_ne_none "door", Option.some_ne_none "push"⟩

/-- The WASM binding sends `push` to the signal with the empty name. -/
theorem looseText_differs : ¬ @Agree Nat .ascii eventSerde eventFromStr doorEngine looseText := by
  intro agree
  have trace := @Agree.trace Nat .ascii eventSerde eventFromStr doorEngine looseText agree
  have sent : (@sendEventImpl Nat .ascii eventSerde doorEngine looseText).2.trace =
      [.eventReceived "" "push" none] := by decide +kernel
  have untouched :
    (@engineSendEvent Nat .ascii eventSerde eventFromStr doorEngine looseText).2.trace =
      [] := by decide +kernel
  rw [sent, untouched] at trace
  cases trace

end Bindings

end SignalTopology
