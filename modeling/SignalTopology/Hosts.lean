import SignalTopology.Bindings
import SignalTopology.Engine.Equivalent
import SignalTopology.Engine.History
import SignalTopology.Engine.Parallel

/-!
# Engines behind a binding

A host of another language builds its engine through `engine_new` or `WasmEngine::new`, which
register a callback that does nothing for every action, and drives it with texts. Nothing such
a host can do makes an action fail, so a transition is never rolled back; and it cannot tell
which of the two bindings it is talking to.
-/

namespace SignalTopology.Bindings

open Sequencing TopologyEngine

/-- `|_| Ok(())`. -/
def noop : ActionFn Unit := fun _ world => (.ok (), world)

/-- `register_all_noops` of the WASM crate. -/
def registerAllNoops (engine : TopologyEngine Unit) : TopologyEngine Unit :=
  registerAll engine (engine.actionIds.map fun id => (id, noop))

section

variable [SerdeJson]

/-- `ffi::engine_new`, with nothing for the null pointer. -/
def engineNew (topologyJson : String) : Option (TopologyEngine Unit) :=
  match fromJson () topologyJson with
  | .error _ => none
  | .ok engine => some (registerAll engine (engine.actionIds.map fun id => (id, noop)))

/-- `WasmEngine::new`. -/
def wasmNew (topologyJson : String) : Except String (TopologyEngine Unit) :=
  match fromJson () topologyJson with
  | .error e => .error e.toString
  | .ok engine => .ok (registerAllNoops engine)

end

/-! ## No action fails -/

/-- Every callback does nothing, and every bound action has one. -/
structure Idle (engine : TopologyEngine Unit) : Prop where
  callbacks : ∀ id f, engine.actions.lookup id = some f → f = noop
  bound : ∀ t ∈ engine.transitions, ∀ id ∈ t.actions.allActions,
    engine.actions.lookup id = some noop

theorem Idle.sameTopology {s t : TopologyEngine Unit} (h : Idle s) (same : SameTopology s t) :
    Idle t := by
  refine ⟨fun id f found => h.callbacks id f (same.actions ▸ found),
    fun tr declared id member => ?_⟩
  rw [same.actions]
  exact h.bound tr (same.transitions ▸ declared) id member

/-- An engine is built by one binding exactly if by the other, and it is the same. -/
theorem wasmNew_ok_iff [SerdeJson] {topologyJson : String} {engine : TopologyEngine Unit} :
    wasmNew topologyJson = .ok engine ↔ engineNew topologyJson = some engine := by
  unfold wasmNew engineNew registerAllNoops
  cases fromJson () topologyJson <;> simp

theorem idle_engineNew [SerdeJson] {topologyJson : String} {engine : TopologyEngine Unit}
    (built : engineNew topologyJson = some engine) : Idle engine ∧ engine.trace = [] := by
  unfold engineNew at built
  cases loaded : fromJson () topologyJson with
  | error e =>
      rw [loaded] at built
      cases built
  | ok fresh =>
      rw [loaded] at built
      obtain rfl := Option.some.inj built
      unfold fromJson at loaded
      obtain ⟨schema, _, constructed⟩ := Fallible.bind_ok_iff.mp loaded
      have unregistered : ∀ id, fresh.actions.lookup id = none := by
        obtain ⟨_, _, _, rfl⟩ := fromSchema_iff.mp constructed
        exact AList.lookup_empty
      have empty : fresh.trace = [] := by
        obtain ⟨_, _, _, rfl⟩ := fromSchema_iff.mp constructed
        rfl
      have lookups := registerAll_lookup fresh fresh.actionIds fun _ => noop
      refine ⟨⟨fun id f found => ?_, fun t declared id member => ?_⟩,
        by rw [registerAll_frame, empty]⟩
      · rw [lookups, unregistered] at found
        split at found
        · exact (Option.some.inj found).symm
        · cases found
      · rw [(registerAll_transitions fresh _).1] at declared
        rw [lookups, if_pos (mem_actionIds.mpr ⟨t, declared, member⟩)]

/-- The entries of a log in which nothing went wrong with an action. -/
def Unfailing : TraceEvent → Prop
  | .actionFailed .. | .rollbacked .. => False
  | _ => True

/-- From `s` to `t` no action has failed. -/
def Undisturbed (s t : TopologyEngine Unit) : Prop :=
  SameTopology s t ∧ ∃ log, t.trace = s.trace ++ log ∧ ∀ ev ∈ log, Unfailing ev

namespace Undisturbed

variable {s t u : TopologyEngine Unit}

theorem refl (s : TopologyEngine Unit) : Undisturbed s s :=
  ⟨sameTopology_elementary.refl s, [], by simp, by simp⟩

theorem trans (first : Undisturbed s t) (second : Undisturbed t u) : Undisturbed s u := by
  obtain ⟨same, log, trace, clean⟩ := first
  obtain ⟨same', log', trace', clean'⟩ := second
  exact ⟨sameTopology_elementary.trans same same', log ++ log',
    by rw [trace', trace, List.append_assoc],
    List.forall_mem_append.mpr ⟨clean, clean'⟩⟩

theorem push (s : TopologyEngine Unit) {ev : TraceEvent} (clean : Unfailing ev) :
    Undisturbed s (s.push ev) :=
  ⟨sameTopology_elementary.push s ev, [ev], rfl, List.forall_mem_singleton.mpr clean⟩

theorem setCurrent (s : TopologyEngine Unit) (signalId state : String) :
    Undisturbed s (s.setCurrent signalId state) :=
  ⟨sameTopology_elementary.setCurrent s signalId state, [], by simp, by simp⟩

/-- A hook is not found or does nothing. -/
theorem runAction (idle : Idle s) (signalId actionId : String) (ctx : ActionContext) :
    Undisturbed s (runAction signalId actionId ctx s).2 := by
  unfold TopologyEngine.runAction
  dsimp only
  rw [push_actions]
  cases found : s.actions.lookup actionId with
  | none => exact push s (by trivial)
  | some f =>
      obtain rfl := idle.callbacks actionId f found
      exact (push s (by trivial)).trans (push _ (by trivial))

/-- Bound actions succeed. -/
theorem runActions (ctx : ActionContext) {ids : List String} {s : TopologyEngine Unit}
    (bound : ∀ id ∈ ids, s.actions.lookup id = some noop) :
    ∃ t, runActions ctx ids s = (.ok (), t) ∧ Undisturbed s t := by
  induction ids generalizing s with
  | nil => exact ⟨s, rfl, refl s⟩
  | cons id ids ih =>
      have first : TopologyEngine.runAction ctx.signalId id ctx s = (.ok (),
          (s.push (.actionStarted ctx.signalId id)).push (.actionSucceeded ctx.signalId id)) := by
        unfold TopologyEngine.runAction
        dsimp only
        rw [push_actions, bound id List.mem_cons_self]
        rfl
      obtain ⟨t, rest, undisturbed⟩ := @ih
        ((s.push (.actionStarted ctx.signalId id)).push (.actionSucceeded ctx.signalId id))
        (fun id' member => bound id' (List.mem_cons_of_mem id member))
      refine ⟨t, ?_, ((push s (by trivial)).trans (push _ (by trivial))).trans undisturbed⟩
      unfold TopologyEngine.runActions
      simp only [runAll, first]
      exact rest

/-- A transition commits. -/
theorem runTransition (ctx : ActionContext) {actions : ActionBinding}
    (bound : ∀ id ∈ actions.allActions, s.actions.lookup id = some noop) :
    ∃ result t, runTransition ctx actions s = (.ok result, t) ∧ Undisturbed s t := by
  unfold ActionBinding.allActions at bound
  rw [List.append_assoc] at bound
  obtain ⟨u, exits, exited⟩ := runActions ctx fun id member =>
    bound id (List.mem_append_left _ member)
  have left := exited.trans (setCurrent u ctx.signalId ctx.toState)
  obtain ⟨v, enters, entered⟩ := runActions ctx fun id member => by
    rw [left.1.actions]
    exact bound id (List.mem_append_right _ member)
  exact ⟨_, _, runTransition_commit exits enters,
    (left.trans entered).trans (push v (by trivial))⟩

end Undisturbed

/-- The errors of actions. -/
def actionError : EngineError → Bool
  | .actionNotFound _ | .actionExecutionError _ => true
  | _ => false

section

variable [RustStd] [SerdeJson]

/-- An attempt is refused or commits. -/
theorem attempt_idle {s : TopologyEngine Unit} (idle : Idle s) (signalId event : String)
    (payload : Option JsonValue) : Undisturbed s (s.attemptTransition signalId event payload).2 ∧
      ∀ e, (s.attemptTransition signalId event payload).1 = .error e → actionError e = false := by
  have received : Undisturbed s (s.receive signalId event payload) := .push s (by trivial)
  unfold attemptTransition
  dsimp only
  cases (s.receive signalId event payload).signals.lookup signalId with
  | none => exact ⟨received, fun e failed => by cases failed; rfl⟩
  | some signal =>
      dsimp only
      cases found :
        (s.receive signalId event payload).findTransition signalId event signal.current with
      | none => exact ⟨received, fun e failed => by cases failed; rfl⟩
      | some transition =>
          dsimp only
          cases checked : checkGuard transition
              ⟨signalId, signal.current, transition.toState, event, payload, none⟩ with
          | error e' =>
              refine ⟨received, fun e failed => ?_⟩
              obtain rfl := Except.error.inj failed
              unfold checkGuard at checked
              split at checked
              · cases checked
              · split at checked <;> cases checked <;> rfl
          | ok =>
              obtain ⟨result, t, ran, undisturbed⟩ := Undisturbed.runTransition
                (s := s.receive signalId event payload)
                ⟨signalId, signal.current, transition.toState, event, payload, none⟩
                (idle.bound transition (List.mem_of_find?_eq_some found))
              dsimp only
              rw [ran]
              exact ⟨received.trans undisturbed, fun e failed => by cases failed⟩

theorem run_idle (limit : Nat) (c : Call Unit) (idle : Idle c.engine) :
    Undisturbed c.engine (c.run limit).2 := by
  have kept := Call.run_rel (R := fun s t => Idle s → Undisturbed s t)
    (fun s _ => .refl s)
    (fun first second idle =>
      (first idle).trans (second (idle.sameTopology (first idle).1)))
    (fun c idle => (attempt_idle idle c.signalId c.event c.payload).1)
    (fun c reaction engine idle => ?_)
    (fun c reaction e engine idle => ?_) limit c
  · exact kept idle
  · obtain ⟨_, same⟩ | ⟨_, _, _, _, same⟩ := gate_cases reaction c.parentPayload c.signalId engine
    · rw [Call.gate, same]
      exact .refl engine
    · rw [Call.gate, same]
      exact .push engine (by trivial)
  · obtain ⟨_, same⟩ | ⟨actionId, _, _, rfl, same⟩ :=
      compensate_cases reaction c.parentPayload c.signalId e engine
    · rw [Call.compensate, same]
      exact .refl engine
    · rw [Call.compensate, same]
      exact (Undisturbed.runAction idle _ actionId _).trans (.push _ (by trivial))

/-- What a call fails with is not an action. -/
theorem run_error (limit : Nat) (c : Call Unit) (idle : Idle c.engine) {e : EngineError}
    (failed : (c.run limit).1 = .error e) : actionError e = false := by
  induction c using Call.nested_induction limit with
  | step c nested =>
      obtain ⟨attempted, refused⟩ := attempt_idle idle c.signalId c.event c.payload
      obtain ⟨deep, ran⟩ | ⟨within, e', u, rejected, ran⟩ |
        ⟨within, result, u, v, committed, all, ran⟩ |
        ⟨within, result, u, e', v, committed, all, ran⟩ := c.run_cases limit <;>
        rw [ran] at failed <;> cases failed
      · rfl
      · exact refused e (congrArg Prod.fst rejected)
      · have committed : c.engine.attemptTransition c.signalId c.event c.payload =
            (.ok result, u) :=
          committed
        rw [committed] at attempted
        obtain ⟨front, reaction, back, w, split, reached, last⟩ := runAll_error_iff.mp all
        -- the reaction that failed was fired on an engine of the same topology
        have before : Idle w := by
          have kept := runAll_rel (R := SameTopology) sameTopology_elementary.refl
            sameTopology_elementary.trans
            (fun reaction (_ : reaction ∈ front) engine =>
              sameTopology_elementary.fire limit c reaction engine) u
          rw [reached] at kept
          exact idle.sameTopology (sameTopology_elementary.trans attempted.1 kept)
        have gated := sameTopology_elementary.gate reaction c.parentPayload c.signalId w
        obtain ⟨x, _, same⟩ | ⟨x, _, _, _, _, same⟩ | ⟨x, e', y, passed, below, same⟩ :=
          c.fire_cases limit reaction w <;> rw [same] at last <;> cases last
        rw [Call.gate] at passed
        rw [passed] at gated
        exact nested within reaction x (before.sameTopology gated) (congrArg Prod.fst below)

/-- Whatever a host sends to an engine of a binding, no action fails and nothing is rolled back:
an event that is not handled was refused before it ran an action, or a reaction to it was, or the
cascade was too deep. -/
theorem binding_undisturbed {topologyJson : String} {engine : TopologyEngine Unit}
    (built : engineNew topologyJson = some engine ∨ wasmNew topologyJson = .ok engine)
    (events : List Event) :
    (∀ answer ∈ (session Event.send events engine).1, ∀ e, answer = .error e →
      actionError e = false) ∧
    ∀ ev ∈ (session Event.send events engine).2.trace, Unfailing ev := by
  have built : engineNew topologyJson = some engine := built.elim id wasmNew_ok_iff.mp
  obtain ⟨idle, empty⟩ := idle_engineNew built
  have run : ∀ ev : Event, ∀ s, Idle s → Undisturbed s (ev.send s).2 := fun ev s idle =>
    run_idle s.maxCascadeDepth (.top s ev.signalId ev.event ev.payload) idle
  constructor
  · refine session_answers (P := Idle) (fun ev _ s idle => ⟨fun e failed => ?_, ?_⟩) idle
    · exact run_error s.maxCascadeDepth (.top s ev.signalId ev.event ev.payload) idle failed
    · exact idle.sameTopology (run ev s idle).1
  · have clean : Idle (session Event.send events engine).2 ∧
        ∀ ev ∈ (session Event.send events engine).2.trace, Unfailing ev := by
      refine session_keeps (P := fun s => Idle s ∧ ∀ ev ∈ s.trace, Unfailing ev)
        (fun ev _ s clean => ?_) ⟨idle, by simp [empty]⟩
      obtain ⟨same, log, trace, added⟩ := run ev s clean.1
      refine ⟨clean.1.sameTopology same, ?_⟩
      rw [trace]
      exact List.forall_mem_append.mpr ⟨clean.2, added⟩
    exact clean.2

end

/-- A host rings the bell. -/
def ringText : String := "\x7b\"event\":\"toggle\",\"signal_id\":\"bell\"\x7d"

@[reducible] def hostSerde : SerdeJson where
  valueFromStr text :=
    if text = ringText then
      .ok (.object [("event", .string "toggle"), ("signal_id", .string "bell")])
    else .error "expected value at line 1 column 1"
  schemaFromStr := porchSerde.schemaFromStr
  valueToString _ := "null"

/-- The bell as a host builds it. -/
theorem bell_built : ∃ engine, @engineNew hostSerde bellJson = some engine := by
  have read : hostSerde.schemaFromStr bellJson = .ok bellFile.schema := by
    have other : bellJson ≠ lampJson := by decide +kernel
    exact (if_neg other).trans (if_pos rfl)
  have flat : bellFile.schema.Flat := rfl
  have valid : validate bellFile.schema = .ok () := by decide +kernel
  unfold engineNew fromJson
  rw [read]
  show ∃ engine, (match fromSchema () bellFile.schema with
    | .error _ => none
    | .ok engine => some (registerAll engine (engine.actionIds.map fun id => (id, noop)))) =
      some engine
  rw [fromSchema_flat flat valid]
  exact ⟨_, rfl⟩

theorem bell_undisturbed : ∃ engine, @engineNew hostSerde bellJson = some engine ∧
    (∀ answer ∈ (session (@Event.send Unit .ascii hostSerde) porchEvents engine).1, ∀ e,
      answer = .error e → actionError e = false) ∧
    ∀ ev ∈ (session (@Event.send Unit .ascii hostSerde) porchEvents engine).2.trace,
      Unfailing ev := by
  obtain ⟨engine, built⟩ := bell_built
  exact ⟨engine, built,
    @binding_undisturbed .ascii hostSerde bellJson engine (.inl built) porchEvents⟩

/-! ## What is handed out of the log -/

/-- Inserting fields one after the other. -/
def insertAll (map : JsonMap) (fields : List (String × JsonValue)) : JsonMap :=
  fields.foldl (fun map field => JsonMap.insert map field.1 field.2) map

/-- The fields of one kind of event, the discriminator first. -/
def kindFields : TraceEvent → List (String × JsonValue)
  | .eventReceived _ event payload => [("kind", .string "EventReceived"), ("event", .string event),
      ("payload", (payload.map .string).getD .null)]
  | .actionStarted _ actionId =>
      [("kind", .string "ActionStarted"), ("action_id", .string actionId)]
  | .actionSucceeded _ actionId =>
      [("kind", .string "ActionSucceeded"), ("action_id", .string actionId)]
  | .actionFailed _ actionId error => [("kind", .string "ActionFailed"),
      ("action_id", .string actionId), ("error", .string error)]
  | .stateChanged _ fromState toState => [("kind", .string "StateChanged"),
      ("from", .string fromState), ("to", .string toState)]
  | .rollbacked _ fromState toState => [("kind", .string "Rollbacked"),
      ("from", .string fromState), ("to", .string toState)]
  | .reactionGuardEvaluated _ fromSignal fromState toSignal event guard result =>
      [("kind", .string "ReactionGuardEvaluated"), ("from_signal", .string fromSignal),
        ("from_state", .string fromState), ("to_signal", .string toSignal),
        ("event", .string event), ("guard", .string guard), ("result", .string result)]
  | .reactionCompensated _ fromSignal fromState toSignal event actionId error =>
      [("kind", .string "ReactionCompensated"), ("from_signal", .string fromSignal),
        ("from_state", .string fromState), ("to_signal", .string toSignal),
        ("event", .string event), ("action_id", .string actionId), ("error", .string error)]

/-- One event with its time. -/
def eventValue (timestampMs : UInt64) (e : TraceEvent) : JsonValue :=
  .object (insertAll
    [("signal_id", .string e.signalId), ("timestamp_ms", .number (.posInt timestampMs))]
    (kindFields e))

/-- `ffi::trace_to_value`. -/
def traceToValue (timestampMs : UInt64) (e : TraceEvent) : JsonValue := eventValue timestampMs e

/-- `trace_event_to_value` of the engine. -/
def traceEventToValue (timestampMs : UInt64) (e : TraceEvent) : JsonValue :=
  eventValue timestampMs e

/-- `ffi::engine_get_traces` behind the check of its pointer. The clock is not part of the log:
`stamp` is the time at which each entry was recorded. -/
def engineGetTraces {W : Type} (stamp : Nat → UInt64) (engine : TopologyEngine W) : JsonValue :=
  .array (engine.trace.mapIdx fun i e => traceToValue (stamp i) e)

/-- `traces_json`, which `get_traces` of the WASM crate hands out. -/
def tracesJson {W : Type} (stamp : Nat → UInt64) (engine : TopologyEngine W) : JsonValue :=
  .array (engine.trace.mapIdx fun i e => traceEventToValue (stamp i) e)

/-- The event of which a value tells. -/
def readEvent (v : JsonValue) : Option TraceEvent := do
  let signalId ← v.getStr "signal_id"
  match ← v.getStr "kind" with
  | "EventReceived" => return .eventReceived signalId (← v.getStr "event") (v.getStr "payload")
  | "ActionStarted" => return .actionStarted signalId (← v.getStr "action_id")
  | "ActionSucceeded" => return .actionSucceeded signalId (← v.getStr "action_id")
  | "ActionFailed" =>
      return .actionFailed signalId (← v.getStr "action_id") (← v.getStr "error")
  | "StateChanged" => return .stateChanged signalId (← v.getStr "from") (← v.getStr "to")
  | "Rollbacked" => return .rollbacked signalId (← v.getStr "from") (← v.getStr "to")
  | "ReactionGuardEvaluated" =>
      return .reactionGuardEvaluated signalId (← v.getStr "from_signal") (← v.getStr "from_state")
        (← v.getStr "to_signal") (← v.getStr "event") (← v.getStr "guard") (← v.getStr "result")
  | "ReactionCompensated" =>
      return .reactionCompensated signalId (← v.getStr "from_signal") (← v.getStr "from_state")
        (← v.getStr "to_signal") (← v.getStr "event") (← v.getStr "action_id") (← v.getStr "error")
  | _ => none

theorem readEvent_eventValue (timestampMs : UInt64) (e : TraceEvent) :
    readEvent (eventValue timestampMs e) = some e := by
  have field : ∀ key, (eventValue timestampMs e).get key = JsonMap.get (insertAll
      [("signal_id", .string e.signalId), ("timestamp_ms", .number (.posInt timestampMs))]
      (kindFields e)) key := fun _ => rfl
  unfold readEvent JsonValue.getStr
  simp only [field]
  cases e with
  | eventReceived signalId event payload =>
      cases payload <;>
        simp [insertAll, kindFields, JsonMap.get_insert, JsonMap.get, JsonValue.asString,
          TraceEvent.signalId]
  | _ => simp [insertAll, kindFields, JsonMap.get_insert, JsonMap.get, JsonValue.asString,
        TraceEvent.signalId]

/-- The values handed out tell the whole log. -/
theorem handed_log {stamp stamp' : Nat → UInt64} {log log' : List TraceEvent}
    (same : (log.mapIdx fun i e => eventValue (stamp i) e) =
      log'.mapIdx fun i e => eventValue (stamp' i) e) : log = log' := by
  have read : ∀ (stamp : Nat → UInt64) (log : List TraceEvent),
      (log.mapIdx fun i e => eventValue (stamp i) e).map readEvent = log.map some := by
    intro stamp log
    refine List.ext_getElem? fun i => ?_
    rw [List.getElem?_map, List.getElem?_mapIdx, List.getElem?_map]
    cases log[i]? with
    | none => rfl
    | some e => exact congrArg some (readEvent_eventValue (stamp i) e)
  have again := congrArg (List.map readEvent) same
  rw [read, read] at again
  exact List.map_injective_iff.mpr (Option.some_injective _) again

/-! ## One host, two bindings -/

/-- What a host asks of an engine. -/
inductive Request where
  | sendEvent (eventJson : String)
  | getState (signalId : String)
  | getTraces

/-- What a host of the WASM binding gets: a value, an exception, or a state that may be `null`. -/
inductive WasmAnswer where
  | value (v : JsonValue)
  | thrown (message : String)
  | state (name : Option String)

section

variable {W : Type}

/-- `ffi::engine_get_state` behind the checks of its pointers. -/
def engineGetState (engine : TopologyEngine W) (signalId : String) : JsonValue :=
  match engine.getState signalId with
  | .ok state => .object [("state", .string state)]
  | .error e => errJson e.toString

/-- `get_state` of the WASM crate. -/
def wasmGetState (engine : TopologyEngine W) (signalId : String) : Option String :=
  (engine.getState signalId).toOption

variable [RustStd] [SerdeJson]

/-- A request to the C binding. -/
def Request.throughC (inputFromStr : String → Except String EventInput) (stamp : Nat → UInt64) :
    Request → TopologyEngine W → JsonValue × TopologyEngine W
  | sendEvent eventJson, engine => engineSendEvent inputFromStr engine eventJson
  | getState signalId, engine => (engineGetState engine signalId, engine)
  | getTraces, engine => (engineGetTraces stamp engine, engine)

/-- A request to the WASM binding. -/
def Request.throughWasm (stamp : Nat → UInt64) :
    Request → TopologyEngine W → WasmAnswer × TopologyEngine W
  | sendEvent eventJson, engine =>
      match sendEventImpl engine eventJson with
      | (.ok v, engine) => (.value v, engine)
      | (.error message, engine) => (.thrown message, engine)
  | getState signalId, engine => (.state (wasmGetState engine signalId), engine)
  | getTraces, engine => (.value (tracesJson stamp engine), engine)

end

/-- The two bindings. -/
inductive Binding where
  | c
  | wasm

namespace Binding

/-- The traces that a binding hands out. -/
def traces {W : Type} (stamp : Nat → UInt64) (engine : TopologyEngine W) : Binding → JsonValue
  | c => engineGetTraces stamp engine
  | wasm => tracesJson stamp engine

/-- Both bindings hand out the same of a log, but for the clock. -/
theorem traces_log {W : Type} {binding binding' : Binding} {stamp stamp' : Nat → UInt64}
    {s t : TopologyEngine W} (same : binding.traces stamp s = binding'.traces stamp' t) :
    s.trace = t.trace := by
  have handed : ∀ (binding : Binding) (stamp : Nat → UInt64) (engine : TopologyEngine W),
      binding.traces stamp engine =
        .array (engine.trace.mapIdx fun i e => eventValue (stamp i) e) := by
    intro binding stamp engine
    cases binding <;> rfl
  rw [handed, handed] at same
  exact handed_log (JsonValue.array.inj same)

variable [RustStd] [SerdeJson]

/-- The engine that a binding builds. -/
def Builds (topologyJson : String) (engine : TopologyEngine Unit) : Binding → Prop
  | c => engineNew topologyJson = some engine
  | wasm => wasmNew topologyJson = .ok engine

/-- The engine behind a binding when it has answered the requests of a host. -/
def after (inputFromStr : String → Except String EventInput) (stamp : Nat → UInt64)
    (requests : List Request) (engine : TopologyEngine Unit) : Binding → TopologyEngine Unit
  | c => (session (Request.throughC inputFromStr stamp) requests engine).2
  | wasm => (session (Request.throughWasm stamp) requests engine).2

end Binding

/-- An answer of the C binding, and the answer of the WASM binding that tells the same. Each engine
has its own clock. -/
inductive Corresponds (stamp stamp' : Nat → UInt64) : JsonValue → WasmAnswer → Prop where
  | value (v : JsonValue) : Corresponds stamp stamp' v (.value v)
  | thrown (message : String) : Corresponds stamp stamp' (errJson message) (.thrown message)
  | unread (message message' : String) : Corresponds stamp stamp'
      (errJson ("invalid event JSON: " ++ message)) (.thrown ("invalid event JSON: " ++ message'))
  | state (name : String) :
      Corresponds stamp stamp' (.object [("state", .string name)]) (.state (some name))
  | unknown (signalId : String) :
      Corresponds stamp stamp'
        (errJson (EngineError.signalNotFound signalId).toString) (.state none)
  | traces {W : Type} (engine : TopologyEngine W) :
      Corresponds stamp stamp' (engineGetTraces stamp engine) (.value (tracesJson stamp' engine))

section

variable [RustStd] [SerdeJson]

/-- One request. -/
theorem Request.corresponds {W : Type} {inputFromStr : String → Except String EventInput}
    {request : Request} (reads : ∀ text, request = sendEvent text → ∀ v,
      SerdeJson.valueFromStr text = .ok v → (inputFromStr text).toOption = decodeEventInput v)
    (wellFormed : ∀ text, request = sendEvent text → WellFormed inputFromStr text)
    (stamp stamp' : Nat → UInt64) (engine : TopologyEngine W) :
    Corresponds stamp stamp' (request.throughC inputFromStr stamp engine).1
        (request.throughWasm stamp' engine).1 ∧
      (request.throughC inputFromStr stamp engine).2 = (request.throughWasm stamp' engine).2 := by
  cases request with
  | getTraces => exact ⟨.traces engine, rfl⟩
  | getState signalId =>
      have told : Corresponds stamp stamp' (engineGetState engine signalId)
          (.state (wasmGetState engine signalId)) := by
        unfold engineGetState wasmGetState TopologyEngine.getState
        cases engine.signals.lookup signalId with
        | none => exact .unknown signalId
        | some signal => exact .state signal.current
      exact ⟨told, rfl⟩
  | sendEvent text =>
      obtain ⟨refused, addressed⟩ := wellFormed text rfl
      unfold throughC throughWasm
      cases read : SerdeJson.valueFromStr text with
      | error e =>
          obtain ⟨e', input⟩ := refused e read
          dsimp only
          rw [engineSendEvent_refused engine input, sendEventImpl_refused engine read]
          exact ⟨.unread e' e, rfl⟩
      | ok v =>
          obtain ⟨signal, name⟩ := addressed v read
          obtain ⟨signalId, signal⟩ := Option.ne_none_iff_exists'.mp signal
          obtain ⟨event, name⟩ := Option.ne_none_iff_exists'.mp name
          have input : inputFromStr text = .ok ⟨signalId, event, payloadOf v⟩ := by
            have decoded := reads text rfl v read
            rw [decode_addressed signal name] at decoded
            cases input : inputFromStr text with
            | error => rw [input] at decoded; cases decoded
            | ok => rw [input] at decoded; cases decoded; rfl
          dsimp only
          rw [engineSendEvent, input, sendEventImpl, parseEventJson_ok read, signal, name]
          dsimp only [Option.getD_some]
          cases engine.sendEvent signalId event (payloadOf v) with
          | mk outcome after =>
              cases outcome with
              | ok result => exact ⟨.value _, rfl⟩
              | error e => exact ⟨.thrown _, rfl⟩

/-- A host that changes the binding notices nothing: as long as the texts it sends are well formed,
every request is answered alike, and the engines stay the same. -/
theorem bindings_session {inputFromStr : String → Except String EventInput} {topologyJson : String}
    {engine engine' : TopologyEngine Unit} (built : engineNew topologyJson = some engine)
    (built' : wasmNew topologyJson = .ok engine') {requests : List Request}
    (reads : ∀ text, .sendEvent text ∈ requests → ∀ v, SerdeJson.valueFromStr text = .ok v →
      (inputFromStr text).toOption = decodeEventInput v)
    (wellFormed : ∀ text, .sendEvent text ∈ requests → WellFormed inputFromStr text)
    (stamp stamp' : Nat → UInt64) :
    List.Forall₂ (Corresponds stamp stamp')
        (session (Request.throughC inputFromStr stamp) requests engine).1
        (session (Request.throughWasm stamp') requests engine').1 ∧
      (session (Request.throughC inputFromStr stamp) requests engine).2 =
        (session (Request.throughWasm stamp') requests engine').2 := by
  have same : some engine = some engine' := built.symm.trans (wasmNew_ok_iff.mp built')
  refine session_corresponds (R := Eq)
    (P := fun request request' => request' = request ∧ request ∈ requests)
    (List.forall₂_same.mpr fun request member => ⟨rfl, member⟩) ?_ (Option.some.inj same)
  rintro request request' ⟨rfl, member⟩ s t rfl
  refine Request.corresponds ?_ ?_ stamp stamp' s
  · rintro text rfl
    exact reads text member
  · rintro text rfl
    exact wellFormed text member

end

/-- The derived reader of a host's texts. -/
def hostFromStr (text : String) : Except String EventInput :=
  match hostSerde.valueFromStr text with
  | .error e => .error e
  | .ok v =>
      match decodeEventInput v with
      | some input => .ok input
      | none => .error "missing field `signal_id` at line 1 column 2"

theorem hostFromStr_reads {text : String} {v : JsonValue}
    (read : hostSerde.valueFromStr text = .ok v) :
    (hostFromStr text).toOption = decodeEventInput v := by
  unfold hostFromStr
  rw [read]
  dsimp only
  cases decodeEventInput v <;> rfl

theorem host_wellFormed (text : String) : @WellFormed hostSerde hostFromStr text := by
  refine @WellFormed.mk hostSerde hostFromStr text (fun e read => ⟨e, ?_⟩) fun v read => ?_
  · unfold hostFromStr
    rw [read]
  · have known : text = ringText := by
      by_contra other
      have refused : hostSerde.valueFromStr text = _ := if_neg other
      rw [refused] at read
      cases read
    have value : hostSerde.valueFromStr text = _ := if_pos known
    obtain rfl := Except.ok.inj (value.symm.trans read)
    exact ⟨Option.some_ne_none "bell", Option.some_ne_none "toggle"⟩

/-- The bell is rung, once in a text that is no JSON, and its engine is asked for everything. -/
def bellRequests : List Request :=
  [.getState "bell", .sendEvent ringText, .sendEvent "ring", .getState "gate", .getTraces]

theorem bell_session : ∃ engine, @engineNew hostSerde bellJson = some engine ∧
    @wasmNew hostSerde bellJson = .ok engine ∧
    let throughC := @Request.throughC Unit .ascii hostSerde hostFromStr fun _ => 0
    let throughWasm := @Request.throughWasm Unit .ascii hostSerde fun _ => 1
    List.Forall₂ (Corresponds (fun _ => 0) fun _ => 1) (session throughC bellRequests engine).1
        (session throughWasm bellRequests engine).1 ∧
      (session throughC bellRequests engine).2 = (session throughWasm bellRequests engine).2 := by
  obtain ⟨engine, built⟩ := bell_built
  have built' := (@wasmNew_ok_iff hostSerde bellJson engine).mpr built
  exact ⟨engine, built, built', @bindings_session .ascii hostSerde hostFromStr bellJson engine
    engine built built' bellRequests (fun _ _ _ => hostFromStr_reads)
    (fun text _ => host_wellFormed text) (fun _ => 0) fun _ => 1⟩

/-! ### What the traces tell -/

section

variable [RustStd] [SerdeJson]

/-- A request sends at most one event. -/
theorem Request.throughC_state {W : Type} (inputFromStr : String → Except String EventInput)
    (stamp : Nat → UInt64) (request : Request) (engine : TopologyEngine W) :
    (request.throughC inputFromStr stamp engine).2 = engine ∨ ∃ signalId event payload,
      (request.throughC inputFromStr stamp engine).2 =
        (engine.sendEvent signalId event payload).2 := by
  cases request with
  | getTraces => exact .inl rfl
  | getState => exact .inl rfl
  | sendEvent text =>
      cases read : inputFromStr text with
      | error e => exact .inl (congrArg Prod.snd (engineSendEvent_refused engine read))
      | ok input => exact .inr ⟨_, _, _, engineSendEvent_after engine read⟩

theorem Request.throughWasm_state {W : Type} (stamp : Nat → UInt64) (request : Request)
    (engine : TopologyEngine W) :
    (request.throughWasm stamp engine).2 = engine ∨ ∃ signalId event payload,
      (request.throughWasm stamp engine).2 = (engine.sendEvent signalId event payload).2 := by
  cases request with
  | getTraces => exact .inl rfl
  | getState => exact .inl rfl
  | sendEvent text =>
      have after : ((sendEvent text).throughWasm stamp engine).2 =
          (sendEventImpl engine text).2 := by
        unfold throughWasm
        dsimp only
        split <;> next sent => rw [sent]
      rw [after]
      cases read : SerdeJson.valueFromStr text with
      | error e => exact .inl (congrArg Prod.snd (sendEventImpl_refused engine read))
      | ok v => exact .inr ⟨_, _, _, sendEventImpl_after engine read⟩

/-- From `s` to `t` only events were sent, and the log accounts for all that they changed. -/
def Accounted (s t : TopologyEngine Unit) : Prop := Recorded s t ∧ SameTopology s t

/-- Whatever requests an engine answers, its log accounts for it. -/
theorem session_accounted {β : Type}
    {answer : Request → TopologyEngine Unit → β × TopologyEngine Unit}
    (sends : ∀ request engine, (answer request engine).2 = engine ∨ ∃ signalId event payload,
      (answer request engine).2 = (engine.sendEvent signalId event payload).2)
    (requests : List Request) (engine : TopologyEngine Unit) :
    Accounted engine (session answer requests engine).2 := by
  refine session_keeps (P := Accounted engine) (fun request _ s before => ?_)
    ⟨.refl engine, sameTopology_elementary.refl engine⟩
  obtain same | ⟨signalId, event, payload, same⟩ := sends request s <;> rw [same]
  · exact before
  · exact ⟨before.1.trans (.sendEvent s signalId event payload),
      sameTopology_elementary.trans before.2
      (sameTopology_elementary.run s.maxCascadeDepth (.top s signalId event payload))⟩

omit [RustStd] in
/-- Both bindings build the same engine. -/
theorem Binding.builds_iff {binding : Binding} {topologyJson : String}
    {engine : TopologyEngine Unit} :
    binding.Builds topologyJson engine ↔ engineNew topologyJson = some engine := by
  cases binding with
  | c => exact Iff.rfl
  | wasm => exact wasmNew_ok_iff

theorem Binding.accounted (binding : Binding) (inputFromStr : String → Except String EventInput)
    (stamp : Nat → UInt64) (requests : List Request) (engine : TopologyEngine Unit) :
    Accounted engine (binding.after inputFromStr stamp requests engine) := by
  cases binding with
  | c => exact session_accounted (Request.throughC_state inputFromStr stamp) requests engine
  | wasm => exact session_accounted (Request.throughWasm_state stamp) requests engine

/-- What a host reads out of an engine tells everything about it. Two engines of one topology that
hand out the same traces, whatever requests they have answered and whichever bindings they are
behind, are in the same states and answer all further operations alike. -/
theorem traces_tell {binding binding' : Binding}
    {inputFromStr : String → Except String EventInput} {topologyJson : String}
    {engine engine' : TopologyEngine Unit} (built : binding.Builds topologyJson engine)
    (built' : binding'.Builds topologyJson engine') {requests requests' : List Request}
    {stamp stamp' : Nat → UInt64}
    (same : binding.traces stamp (binding.after inputFromStr stamp requests engine) =
      binding'.traces stamp' (binding'.after inputFromStr stamp' requests' engine')) :
    let reached := binding.after inputFromStr stamp requests engine
    let reached' := binding'.after inputFromStr stamp' requests' engine'
    (∀ id, reached.current id = reached'.current id) ∧
      ∀ operations : List (Operation Unit),
        (session Operation.perform operations reached).1 =
          (session Operation.perform operations reached').1 := by
  have built := Binding.builds_iff.mp built
  obtain rfl : engine = engine' :=
    Option.some.inj (built.symm.trans (Binding.builds_iff.mp built'))
  have fresh := (idle_engineNew built).2
  intro reached reached'
  obtain ⟨⟨log, trace, leads⟩, frame⟩ := binding.accounted inputFromStr stamp requests engine
  obtain ⟨⟨log', trace', leads'⟩, frame'⟩ :=
    binding'.accounted inputFromStr stamp' requests' engine
  have equal := Binding.traces_log same
  rw [trace, trace', fresh, List.nil_append, List.nil_append] at equal
  have alike : SameBehaviour Eq reached reached' := by
    refine ⟨fun id => (leads' id).unique (equal ▸ leads id), ?_, ?_, fun id => ?_, ?_, rfl, ?_⟩
    · rw [frame.transitions, frame'.transitions]
    · rw [frame.reactions, frame'.reactions]
    · rw [frame.actions, frame'.actions]
    · rw [frame.maxCascadeDepth, frame'.maxCascadeDepth]
    · rw [trace, trace', equal]
  have grows : Grows (Eq (α := List TraceEvent)) := fun log log' ev same => same ▸ rfl
  exact ⟨fun id => (alike.current id).symm, fun operations => (alike.session grows operations).1⟩

end

/-- The bell behind one binding is rung before, and behind the other after it is asked for its
state. -/
theorem bell_told : ∃ engine, @engineNew hostSerde bellJson = some engine ∧
    let reached := @Binding.after .ascii hostSerde hostFromStr (fun _ => 0)
      [.sendEvent ringText, .getState "bell"] engine .c
    let reached' := @Binding.after .ascii hostSerde hostFromStr (fun _ => 0)
      [.getState "bell", .sendEvent ringText] engine .wasm
    (∀ id, reached.current id = reached'.current id) ∧
      ∀ operations : List (Operation Unit),
        (@session _ _ _ (@Operation.perform _ .ascii hostSerde) operations reached).1 =
          (@session _ _ _ (@Operation.perform _ .ascii hostSerde) operations reached').1 := by
  obtain ⟨engine, built⟩ := bell_built
  have rung :=
    (@Request.corresponds .ascii hostSerde Unit hostFromStr (.sendEvent ringText)
    (fun _ _ _ => hostFromStr_reads) (fun text _ => host_wellFormed text) (fun _ => 0)
    (fun _ => 0) engine).2
  exact ⟨engine, built, @traces_tell .ascii hostSerde .c .wasm hostFromStr bellJson engine engine
    built ((@wasmNew_ok_iff hostSerde _ _).mpr built) [.sendEvent ringText, .getState "bell"]
    [.getState "bell", .sendEvent ringText] (fun _ => 0) (fun _ => 0)
    (congrArg (engineGetTraces fun _ => 0) rung)⟩

end SignalTopology.Bindings
