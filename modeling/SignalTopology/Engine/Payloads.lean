import SignalTopology.Engine.Depth
import SignalTopology.Engine.StateSpace
import SignalTopology.Guard.Missing

/-!
# The payload a reaction guard reads

`send_event_internal` carries two payloads side by side, the one its own guard
reads and the one the guards of its reactions read. They are the same on every
call of a run: the payload given to `send_event` at the top, and below it the
static payload of the reaction that delivered the call. So the guard of a
reaction is evaluated on the payload of the event it reacts to.
-/

namespace SignalTopology

open Sequencing TopologyEngine

namespace Guard

variable [RustStd] [SerdeJson]

/-- Evaluation looks at the context through its payload only. -/
theorem eval_congr {ctx ctx' : ActionContext} (same : ctx'.payload = ctx.payload) (expr : Expr) :
    eval expr ctx' = eval expr ctx := by
  induction expr with
  | binary left op right first second => rw [eval, eval, first, second]
  | unary op expr ih => rw [eval, eval, ih]
  | literal lit => cases lit <;> rfl
  | payloadAccess path => rw [eval, eval, same]
  | identifier name => rfl

theorem evalGuard_congr {ctx ctx' : ActionContext} (same : ctx'.payload = ctx.payload)
    (guard : String) : evalGuard guard ctx' = evalGuard guard ctx := by
  simp only [evalGuard, eval_congr same]

end Guard

section

variable {W : Type} [RustStd] [SerdeJson]

/-- The guard of a reaction records its outcome on the parent payload. -/
theorem TopologyEngine.gate_records {reaction : ReactionDef} {guard : String}
    (guarded : reaction.guard = some guard) (parentPayload : Option JsonValue)
    (transitionSignal : String) (engine : TopologyEngine W) (ctx : ActionContext)
    (reads : ctx.payload = parentPayload) :
    (gate reaction parentPayload transitionSignal engine).2 = engine.push
      (.reactionGuardEvaluated transitionSignal reaction.fromSignal reaction.fromState
        reaction.toSignal reaction.event guard (guardResult (Guard.evalGuard guard ctx))) := by
  unfold gate
  rw [guarded]
  dsimp only
  rw [Guard.evalGuard_congr reads.symm]

namespace Call

variable {limit : Nat} {c c' : Call W}

/-- Both payloads of a call of a run are the same. -/
theorem Reached.parentPayload (h : c.Reached limit c') (same : c.parentPayload = c.payload) :
    c'.parentPayload = c'.payload := by
  induction h with
  | refl => exact same
  | tail _ last _ =>
      obtain ⟨reaction, delivers⟩ := last
      rw [delivers.eq]
      rfl

/-- A guard record of a run is left by the gate of a call. -/
theorem OwnSegment.guarded {s t : TopologyEngine W} (h : c.OwnSegment limit s t) {i : Nat}
    (fresh : s.trace.length ≤ i)
    {transitionSignal fromSignal fromState toSignal event guard result : String}
    (entry : t.trace[i]? = some (.reactionGuardEvaluated transitionSignal fromSignal fromState
      toSignal event guard result)) :
    ∃ reaction, c.Fires limit reaction s ∧ s.trace.length = i ∧ reaction.guard = some guard ∧
      transitionSignal = c.signalId ∧ fromSignal = reaction.fromSignal ∧
      fromState = reaction.fromState ∧ toSignal = reaction.toSignal ∧ event = reaction.event ∧
      ∀ ctx : ActionContext, ctx.payload = c.parentPayload →
        result = guardResult (Guard.evalGuard guard ctx) := by
  cases h with
  | attempt within =>
      obtain ⟨events, log, lifecycle⟩ :=
        attemptTransition_lifecycle c.engine c.signalId c.event c.payload
      rw [Call.attempt, log, List.getElem?_append_right fresh] at entry
      rcases List.mem_cons.mp (List.mem_of_getElem? entry) with first | later
      · cases first
      · cases lifecycle _ later
  | @gate reaction _ fires =>
      cases guarded : reaction.guard with
      | none =>
          obtain ⟨_, same⟩ | ⟨_, _, _, given, _⟩ :=
            gate_cases reaction c.parentPayload c.signalId s
          · rw [Call.gate, same, List.getElem?_eq_none fresh] at entry
            cases entry
          · rw [guarded] at given
            cases given
      | some guard' =>
          rw [Call.gate, gate_records guarded c.parentPayload c.signalId s
            ⟨"", "", "", "", c.parentPayload, none⟩ rfl, push_trace,
            List.getElem?_append_right fresh, List.getElem?_singleton] at entry
          split at entry
          · next first =>
              cases entry
              refine ⟨reaction, fires, by omega, guarded, rfl, rfl, rfl, rfl, rfl,
                fun ctx reads => ?_⟩
              rw [Guard.evalGuard_congr reads.symm]
          · cases entry
  | @hook reaction _ e _ _ _ =>
      obtain ⟨_, same⟩ | ⟨actionId, ctx, _, _, same⟩ :=
        compensate_cases reaction c.parentPayload c.signalId e s
      · rw [Call.compensate, same, List.getElem?_eq_none fresh] at entry
        cases entry
      · obtain ⟨events, acted, actions⟩ := runAction_acted reaction.toSignal actionId ctx s
        rw [Call.compensate, same, push_trace, acted.trace, List.append_assoc,
          List.getElem?_append_right fresh] at entry
        rcases List.mem_append.mp (List.mem_of_getElem? entry) with action | last
        · cases actions _ action
        · cases List.mem_singleton.mp last

/-- What a reached call was made by. -/
theorem Reached.trigger (h : c.Reached limit c') :
    c' = c ∨ ∃ parent reaction, c.Reached limit parent ∧ parent.Delivers limit reaction c' ∧
      c'.payload = reaction.payload := by
  rcases Relation.ReflTransGen.cases_tail h with rfl | ⟨parent, reached, reaction, delivers⟩
  · exact .inl rfl
  · exact .inr ⟨parent, reaction, reached, delivers, by rw [delivers.eq]; rfl⟩

/-- A reached call within the limit has its event in the trace of the run, at the
position where the call started. -/
theorem Reached.received (h : c.Reached limit c') (within : c'.depth ≤ limit) :
    (c.run limit).2.trace[c'.engine.trace.length]? =
      some (.eventReceived c'.signalId c'.event (c'.payload.map SerdeJson.valueToString)) := by
  obtain ⟨events, log, _⟩ :=
    attemptTransition_lifecycle c'.engine c'.signalId c'.event c'.payload
  have inside := (OwnSegment.attempt (c := c') within).on_path.2.rel trace_elementary
  have grown := h.on_path.2.rel trace_elementary
  obtain ⟨later, same⟩ := inside.trans grown
  rw [← same, Call.attempt, log, List.append_assoc,
    List.getElem?_append_right (Nat.le_refl _), Nat.sub_self]
  rfl

end Call

omit [RustStd] [SerdeJson] in
theorem loadState_trace (engine : TopologyEngine W) (file : Except String StateSnapshot) :
    (engine.loadState file).2.trace = engine.trace := by
  have written : ∀ (entries : List (Sigma fun _ : String => String)) (engine : TopologyEngine W),
      (entries.foldl (fun engine entry => engine.setCurrent entry.1 entry.2) engine).trace =
        engine.trace := by
    intro entries
    induction entries with
    | nil => exact fun _ => rfl
    | cons entry entries ih =>
        intro engine
        rw [List.foldl_cons, ih, setCurrent_trace]
  unfold loadState
  split
  · rfl
  · split
    · rfl
    · exact written _ engine

/-- Only `send_event` records anything. -/
theorem Operation.trace_kept (engine : TopologyEngine W) {op : Operation W}
    (other : ∀ signalId event payload, op ≠ .sendEvent signalId event payload) :
    (op.apply engine).trace = engine.trace := by
  cases op with
  | sendEvent signalId event payload => exact absurd rfl (other signalId event payload)
  | loadState file => exact loadState_trace engine file
  | reloadTopology json =>
      unfold Operation.apply TopologyEngine.reloadTopology
      dsimp only
      split
      · rfl
      · split <;> rfl
  | registerAction | setMaxCascadeDepth | environment => rfl

/-- Every entry that a sequence of operations adds to the trace is added by one of
its `send_event` calls, and the trace of that call is a prefix of the whole. -/
theorem execute_entry {engine : TopologyEngine W} {ops : List (Operation W)} {i : Nat}
    (fresh : engine.trace.length ≤ i) {ev : TraceEvent}
    (entry : (execute engine ops).trace[i]? = some ev) :
    ∃ before signalId event payload after,
      ops = before ++ .sendEvent signalId event payload :: after ∧
      (execute engine before).trace.length ≤ i ∧
      ((execute engine before).sendEvent signalId event payload).2.trace[i]? = some ev ∧
      ((execute engine before).sendEvent signalId event payload).2.trace <+:
        (execute engine ops).trace := by
  induction ops using List.reverseRecOn with
  | nil =>
      have missing : engine.trace[i]? = none := List.getElem?_eq_none fresh
      rw [execute, List.foldl_nil, missing] at entry
      cases entry
  | append_singleton ops op ih =>
      rw [execute_append] at entry ⊢
      have kept : (execute engine ops).trace <+: (op.apply (execute engine ops)).trace := by
        by_cases sends : ∃ signalId event payload, op = .sendEvent signalId event payload
        · obtain ⟨signalId, event, payload, rfl⟩ := sends
          exact trace_elementary.run _ (.top (execute engine ops) signalId event payload)
        · rw [op.trace_kept _ fun signalId event payload same => sends ⟨_, _, _, same⟩]
      rcases Nat.lt_or_ge i (execute engine ops).trace.length with earlier | new
      · obtain ⟨rest, grown⟩ := kept
        rw [← grown, List.getElem?_append_left earlier] at entry
        obtain ⟨before, signalId, event, payload, after, rfl, start, found, inside⟩ := ih entry
        exact ⟨before, signalId, event, payload, after ++ [op], by simp, start, found,
          inside.trans ⟨rest, grown⟩⟩
      · by_cases sends : ∃ signalId event payload, op = .sendEvent signalId event payload
        · obtain ⟨signalId, event, payload, rfl⟩ := sends
          exact ⟨ops, signalId, event, payload, [], rfl, new, entry, List.prefix_rfl⟩
        · rw [op.trace_kept _ fun signalId event payload same => sends ⟨_, _, _, same⟩,
            List.getElem?_eq_none new] at entry
          cases entry

/-- A reaction guard always reads its trigger's payload. Every `ReactionGuardEvaluated`
of a run is recorded in some call `c`, whose committed transition triggers the
reaction: its result is the outcome of the guard on the payload of `c`, the event
that caused that transition. This payload is the one given to `send_event` when
`c` is the top call, and else the static payload of the reaction that made `c`. -/
theorem guard_reads_trigger (engine : TopologyEngine W) (ops : List (Operation W)) {i : Nat}
    (fresh : engine.trace.length ≤ i)
    {transitionSignal fromSignal fromState toSignal event guard result : String}
    (entry : (execute engine ops).trace[i]? = some (.reactionGuardEvaluated transitionSignal
      fromSignal fromState toSignal event guard result)) :
    ∃ before top after, ops = before ++ .sendEvent top.signalId top.event top.payload :: after ∧
      top = Call.top (execute engine before) top.signalId top.event top.payload ∧
      ∃ c reaction v, top.Reached (execute engine before).maxCascadeDepth c ∧
        c.Fires (execute engine before).maxCascadeDepth reaction v ∧ v.trace.length = i ∧
        reaction.guard = some guard ∧ transitionSignal = c.signalId ∧
        fromSignal = reaction.fromSignal ∧ fromState = reaction.fromState ∧
        toSignal = reaction.toSignal ∧ event = reaction.event ∧
        (∀ ctx : ActionContext, ctx.payload = c.payload →
          result = guardResult (Guard.evalGuard guard ctx)) ∧
        (execute engine ops).trace[c.engine.trace.length]? =
          some (.eventReceived c.signalId c.event (c.payload.map SerdeJson.valueToString)) ∧
        (c = top ∨ ∃ parent trigger, top.Reached (execute engine before).maxCascadeDepth parent ∧
          parent.Delivers (execute engine before).maxCascadeDepth trigger c ∧
          c.payload = trigger.payload) := by
  obtain ⟨before, signalId, sent, payload, after, split, start, found, inside⟩ :=
    execute_entry fresh entry
  obtain ⟨s, t, ⟨c, reached, own⟩, new, recorded⟩ :=
    (Call.run_path (execute engine before).maxCascadeDepth
      (.top (execute engine before) signalId sent payload)).entry start found
  obtain ⟨reaction, fires, position, guarded, onSignal, source, state, target, name, outcome⟩ :=
    own.guarded new recorded
  refine ⟨before, .top (execute engine before) signalId sent payload, after, split, rfl, c,
    reaction, s, reached, fires, position, guarded, onSignal, source, state, target, name, ?_, ?_,
    reached.trigger⟩
  · intro ctx reads
    exact outcome ctx (by rw [reads, reached.parentPayload rfl])
  · have event := reached.received fires.1
    obtain ⟨rest, grown⟩ := inside
    rw [← Call.sendEvent_eq] at event
    rw [← grown, List.getElem?_append_left (List.getElem?_eq_some_iff.mp event).1]
    exact event

end

/-- A door that turns the porch lamp on at night. The lamp is told that it is day. -/
def porchEngine : TopologyEngine Unit where
  signals := signalTable (·.initialState)
    (["door", "lamp"].map fun id => ⟨id, "rest", ["rest", "active"]⟩)
  transitions := ["door", "lamp"].map fun id =>
    { signalId := id, fromState := "rest", event := "move", toState := "active" }
  reactions := [
    { fromSignal := "door", fromState := "active", toSignal := "lamp", event := "move"
      payload := some (.object [("night", .bool false)])
      guard := some "payload.night == true" }]
  actions := ∅
  trace := []
  maxCascadeDepth := 8
  world := ()

/-- The guard record says `true`, as it does on the payload of the door only. -/
theorem porchEngine_reads : ∃ limit c reaction v,
    @Call.Fires Unit .ascii .keywords limit c reaction v ∧ v.trace.length = 2 ∧
    ∀ ctx : ActionContext, ctx.payload = c.payload →
      "true" = guardResult (@Guard.evalGuard .ascii .keywords "payload.night == true" ctx) := by
  have entry : (@execute Unit .ascii .keywords porchEngine
      [.sendEvent "door" "move" (some (.object [("night", .bool true)]))]).trace[2]? =
      some (.reactionGuardEvaluated "door" "door" "active" "lamp" "move" "payload.night == true"
        "true") := by decide +kernel
  obtain ⟨before, top, after, _, _, c, reaction, v, _, fires, position, _, _, _, _, _, _, outcome,
    _⟩ := @guard_reads_trigger Unit .ascii .keywords porchEngine _ 2 (by decide) _ _ _ _ _ _ _ entry
  exact ⟨_, c, reaction, v, fires, position, outcome⟩

end SignalTopology
