import SignalTopology.Engine.Lockstep

/-!
# Cascades end within the depth limit

Only calls up to the limit do anything: they record their event and may deliver
one level deeper. A call above the limit fails at once, and its failure reaches
the top through hooks alone. So a successful `send_event` never met the limit,
and a higher one does not change it.
-/

namespace SignalTopology

open Sequencing TopologyEngine

variable {W : Type}

/-- Only the trace and the callbacks' world differ, and no state change is
recorded. -/
def Settled (s t : TopologyEngine W) : Prop :=
  t.signals = s.signals ∧ ∃ events, t.trace = s.trace ++ events ∧ Silent events

theorem Settled.refl (s : TopologyEngine W) : Settled s s :=
  ⟨rfl, [], (List.append_nil _).symm, fun _ => rfl⟩

theorem Settled.trans {s t u : TopologyEngine W} (first : Settled s t) (second : Settled t u) :
    Settled s u := by
  obtain ⟨signals, events, log, silent⟩ := first
  obtain ⟨signals', events', log', silent'⟩ := second
  refine ⟨signals'.trans signals, events ++ events', ?_, silent.append silent'⟩
  rw [log', log, List.append_assoc]

theorem compensate_settled (reaction : ReactionDef) (parentPayload : Option JsonValue)
    (transitionSignal : String) (e : EngineError) (engine : TopologyEngine W) :
    Settled engine
      (TopologyEngine.compensate reaction parentPayload transitionSignal e engine) := by
  obtain ⟨_, same⟩ | ⟨actionId, ctx, _, _, same⟩ :=
    compensate_cases reaction parentPayload transitionSignal e engine
  · rw [same]
    exact .refl engine
  · obtain ⟨events, acted, actions⟩ := runAction_acted reaction.toSignal actionId ctx engine
    have closing : Silent [compensated reaction transitionSignal actionId e] := fun _ => rfl
    rw [same]
    refine ⟨by rw [push_signals, acted.signals], _, ?_, (silent_actions actions).append closing⟩
    rw [push_trace, acted.trace, List.append_assoc]

section

variable [RustStd] [SerdeJson]

namespace Call

variable {limit : Nat} {c c' : Call W}

/-- A failing delivery fails the call that makes it with the same error; only
the hook of the reaction runs in between. -/
theorem Delivers.fails {reaction : ReactionDef} (h : c.Delivers limit reaction c')
    {e : EngineError} {x : TopologyEngine W} (failed : c'.run limit = (.error e, x)) :
    c.run limit = (.error e, c.compensate reaction e x) := by
  obtain ⟨v, ⟨within, result, u, front, back, committed, split, reached⟩, _, ended⟩ := h.fired
  have last : c.fire limit reaction v = (.error e, c.compensate reaction e x) := by
    obtain ⟨result, y, ran, _⟩ | ⟨e', y, ran, fired⟩ := ended
    · rw [failed] at ran
      cases ran
    · rw [failed] at ran
      cases ran
      exact fired
  rw [c.run_committed limit within committed, split, runAll_append_ok reached,
    runAll_cons_error last]

/-- The error of a reached call is the error of the whole run, and nothing but
hooks runs after it. -/
theorem Reached.fails (h : c.Reached limit c') {e : EngineError} {x : TopologyEngine W}
    (failed : c'.run limit = (.error e, x)) :
    ∃ y, c.run limit = (.error e, y) ∧ Settled x y := by
  induction h using Relation.ReflTransGen.head_induction_on with
  | refl => exact ⟨x, failed, .refl x⟩
  | head first _ ih =>
      obtain ⟨reaction, delivers⟩ := first
      obtain ⟨y, ran, settled⟩ := ih
      exact ⟨_, delivers.fails ran, settled.trans (compensate_settled _ _ _ _ _)⟩

theorem Reached.depth (h : c.Reached limit c') (within : c.depth ≤ limit + 1) :
    c'.depth ≤ limit + 1 := by
  induction h with
  | refl => exact within
  | tail _ last _ =>
      obtain ⟨reaction, delivers⟩ := last
      have deeper := delivers.depth
      omega

/-- No chain of deliveries goes on forever. -/
theorem delivers_wellFounded (limit : Nat) :
    WellFounded fun c' c : Call W => ∃ reaction, c.Delivers limit reaction c' := by
  refine Subrelation.wf ?_ (measure fun c : Call W => limit + 1 - c.depth).wf
  rintro c' c ⟨reaction, delivers⟩
  have deeper := delivers.depth
  change limit + 1 - c'.depth < limit + 1 - c.depth
  omega

/-- The trace of a segment: an attempt records its event first, and nothing else
records one. -/
theorem OwnSegment.received {s t : TopologyEngine W} (h : c.OwnSegment limit s t) {i : Nat}
    (fresh : s.trace.length ≤ i) {signalId event : String} {payload : Option String}
    (entry : t.trace[i]? = some (.eventReceived signalId event payload)) :
    c.depth ≤ limit ∧ c.engine.trace.length = i ∧ c.signalId = signalId ∧ c.event = event := by
  cases h with
  | attempt within =>
      obtain ⟨events, log, lifecycle⟩ :=
        attemptTransition_lifecycle c.engine c.signalId c.event c.payload
      rw [Call.attempt, log, List.getElem?_append_right fresh] at entry
      rcases Nat.eq_or_lt_of_le fresh with first | later
      · rw [← first, Nat.sub_self, List.getElem?_cons_zero] at entry
        cases entry
        exact ⟨within, first, rfl, rfl⟩
      · obtain ⟨k, offset⟩ : ∃ k, i - c.engine.trace.length = k + 1 :=
          ⟨i - c.engine.trace.length - 1, by omega⟩
        rw [offset, List.getElem?_cons_succ] at entry
        have impossible := lifecycle _ (List.mem_of_getElem? entry)
        cases impossible
  | @gate reaction _ fires =>
      obtain ⟨_, same⟩ | ⟨guard, passed, result, _, same⟩ :=
        gate_cases reaction c.parentPayload c.signalId s
      · rw [Call.gate, same, List.getElem?_eq_none fresh] at entry
        cases entry
      · rw [Call.gate, same, push_trace, List.getElem?_append_right fresh] at entry
        have member := List.mem_of_getElem? entry
        simp at member
  | @hook reaction _ e _ _ _ =>
      obtain ⟨_, same⟩ | ⟨actionId, ctx, _, _, same⟩ :=
        compensate_cases reaction c.parentPayload c.signalId e s
      · rw [Call.compensate, same, List.getElem?_eq_none fresh] at entry
        cases entry
      · obtain ⟨events, acted, actions⟩ := runAction_acted reaction.toSignal actionId ctx s
        rw [Call.compensate, same, push_trace, acted.trace, List.append_assoc,
          List.getElem?_append_right fresh] at entry
        rcases List.mem_append.mp (List.mem_of_getElem? entry) with action | last
        · have impossible := actions _ action
          cases impossible
        · cases List.mem_singleton.mp last

end Call

/-- Cascades always end within the limit `d`. Deliveries cannot go on forever,
and no call is made above level `d + 1`. Every `EventReceived` of a `send_event`
is recorded by a call at a level up to `d`. When a call comes to be made at
level `d + 1`, the whole `send_event` fails with `CascadeDepthExceeded`, and
every signal keeps the state it was in at that moment. -/
theorem sendEvent_depth (engine : TopologyEngine W) (signalId event : String)
    (payload : Option JsonValue) :
    (WellFounded fun c' c : Call W =>
      ∃ reaction, c.Delivers engine.maxCascadeDepth reaction c') ∧
    (∀ c', (Call.top engine signalId event payload).Reached engine.maxCascadeDepth c' →
      c'.depth ≤ engine.maxCascadeDepth + 1) ∧
    (∀ i s ev p, engine.trace.length ≤ i →
      (engine.sendEvent signalId event payload).2.trace[i]? = some (.eventReceived s ev p) →
      ∃ c', (Call.top engine signalId event payload).Reached engine.maxCascadeDepth c' ∧
        c'.depth ≤ engine.maxCascadeDepth ∧ c'.engine.trace.length = i ∧ c'.signalId = s ∧
        c'.event = ev) ∧
    (∀ c', (Call.top engine signalId event payload).Reached engine.maxCascadeDepth c' →
      c'.depth = engine.maxCascadeDepth + 1 →
      (engine.sendEvent signalId event payload).1 = .error .cascadeDepthExceeded ∧
      (engine.sendEvent signalId event payload).2.current = c'.engine.current ∧
      ∃ events, Silent events ∧
        (engine.sendEvent signalId event payload).2.trace = c'.engine.trace ++ events) := by
  refine ⟨Call.delivers_wellFounded _, ?_, ?_, ?_⟩
  · intro c' reached
    exact reached.depth (Nat.zero_le _)
  · intro i s ev p fresh entry
    obtain ⟨t, u, ⟨c', reached, own⟩, new, entry'⟩ :=
      (Call.run_path engine.maxCascadeDepth (.top engine signalId event payload)).entry fresh entry
    exact ⟨c', reached, own.received new entry'⟩
  · intro c' reached deep
    have stopped := c'.run_deep engine.maxCascadeDepth (by omega)
    obtain ⟨y, ran, signals, events, log, silent⟩ := reached.fails stopped
    rw [Call.sendEvent_eq, ran]
    refine ⟨rfl, ?_, events, silent, log⟩
    funext id
    rw [current, current, signals]

end

/-! ## Raising the limit -/

namespace TopologyEngine

@[simp] theorem setMaxCascadeDepth_signals (engine : TopologyEngine W) (depth : Nat) :
    (engine.setMaxCascadeDepth depth).signals = engine.signals := rfl

theorem setMaxCascadeDepth_setCurrent (engine : TopologyEngine W) (depth : Nat)
    (signalId state : String) :
    (engine.setMaxCascadeDepth depth).setCurrent signalId state =
      (engine.setCurrent signalId state).setMaxCascadeDepth depth := by
  rw [setCurrent, setCurrent, setMaxCascadeDepth_signals]
  cases engine.signals.lookup signalId with
  | none => rfl
  | some signal => rfl

/-- No step reads the limit of its engine. -/
theorem lockstep_setMaxCascadeDepth (depth : Nat) :
    Lockstep Set.univ fun s t : TopologyEngine W => t = s.setMaxCascadeDepth depth where
  current := by
    rintro s t rfl id -
    rfl
  push := by
    rintro s t rfl ev
    rfl
  setCurrent := by
    rintro s t rfl signalId state
    rw [setMaxCascadeDepth_setCurrent]
  runAction := by
    intro s t same
    refine agree_runAction ?_ ?_ same ?_ ?_
    · rintro s t rfl ev
      rfl
    · rintro s t rfl world
      rfl
    · rw [same]
      rfl
    · rw [same]
      rfl

end TopologyEngine

/-- A `send_event` that succeeds with the limit `d` does exactly the same with
any higher limit. -/
theorem sendEvent_raised [RustStd] [SerdeJson] (engine : TopologyEngine W) (signalId event : String)
    (payload : Option JsonValue) {d d' : Nat} (higher : d ≤ d') {result : TransitionResult}
    {reached : TopologyEngine W}
    (done : (engine.setMaxCascadeDepth d).sendEvent signalId event payload =
      (.ok result, reached)) :
    (engine.setMaxCascadeDepth d').sendEvent signalId event payload =
      (.ok result, reached.setMaxCascadeDepth d') := by
  obtain ⟨_, ran, rfl⟩ := Call.run_follows (lockstep_setMaxCascadeDepth (W := W) d')
    (by rintro s t rfl; exact ⟨rfl, rfl⟩) (by simp) higher
    (.top (engine.setMaxCascadeDepth d) signalId event payload)
    (t := engine.setMaxCascadeDepth d') trivial rfl result reached done
  exact ran

/-- A bell that rings a chime when it is pushed. -/
def bellEngine : TopologyEngine Unit where
  signals := signalTable (·.initialState)
    (["bell", "chime"].map fun id => ⟨id, "quiet", ["quiet", "loud"]⟩)
  transitions := ["bell", "chime"].map fun id =>
    { signalId := id, fromState := "quiet", event := "ring", toState := "loud" }
  reactions := [
    { fromSignal := "bell", fromState := "loud", toSignal := "chime", event := "ring" }]
  actions := ∅
  trace := []
  maxCascadeDepth := 8
  world := ()

theorem bellEngine_raised : ∃ result reached,
    @TopologyEngine.sendEvent Unit .ascii .keywords (bellEngine.setMaxCascadeDepth 1) "bell" "ring"
      none = (.ok result, reached) ∧
    @TopologyEngine.sendEvent Unit .ascii .keywords (bellEngine.setMaxCascadeDepth 8) "bell" "ring"
      none = (.ok result, reached.setMaxCascadeDepth 8) := by
  have succeeds : (@TopologyEngine.sendEvent Unit .ascii .keywords
      (bellEngine.setMaxCascadeDepth 1) "bell" "ring" none).1 =
      .ok ⟨"bell", "quiet", "loud", []⟩ := by decide +kernel
  have done : @TopologyEngine.sendEvent Unit .ascii .keywords (bellEngine.setMaxCascadeDepth 1)
      "bell" "ring" none = (.ok ⟨"bell", "quiet", "loud", []⟩, _) := Prod.ext succeeds rfl
  exact ⟨_, _, done, @sendEvent_raised Unit .ascii .keywords bellEngine "bell" "ring" none 1 8
    (by decide) _ _ done⟩

end SignalTopology
