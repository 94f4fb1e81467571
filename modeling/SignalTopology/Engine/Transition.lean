import SignalTopology.Engine.State
import SignalTopology.Guard.Eval

/-!
# One transition

The part of `send_event_internal` up to the dispatch of reactions: receive the
event, pick the transition, check its guard and run the lifecycle actions. The
target state is entered before `on_transition` and left again if an action
fails. The `_cases` theorems list what each step can do; every later argument
starts from them.
-/

namespace SignalTopology

open Sequencing

/-- The outcome of a successful transition. -/
structure TransitionResult where
  signalId : String
  fromState : String
  toState : String
  executedActions : List String
  deriving DecidableEq

namespace TopologyEngine

variable {W : Type}

/-- The actions of one lifecycle phase, up to the first failure. -/
def runActions (ctx : ActionContext) (ids : List String) (engine : TopologyEngine W) :
    Except EngineError Unit × TopologyEngine W :=
  runAll (fun actionId => runAction ctx.signalId actionId ctx) ids engine

/-- The phases after the tentative commit; `on_enter` is skipped after a failure. -/
def runEnterPhases (ctx : ActionContext) (actions : ActionBinding) (engine : TopologyEngine W) :
    Except EngineError Unit × TopologyEngine W :=
  match runActions ctx actions.onTransition engine with
  | (.ok (), engine) => runActions ctx actions.onEnter engine
  | (.error e, engine) => (.error e, engine)

/-- The three lifecycle phases. `signal` stays borrowed over the first one, so
`old_state` is the `from` state of the context. A run that commits has executed
every bound action. -/
def runTransition (ctx : ActionContext) (actions : ActionBinding) (engine : TopologyEngine W) :
    Except EngineError TransitionResult × TopologyEngine W :=
  match runActions ctx actions.onExit engine with
  | (.error e, engine) => (.error e, engine)
  | (.ok (), engine) =>
      match runEnterPhases ctx actions (engine.setCurrent ctx.signalId ctx.toState) with
      | (.error e, engine) =>
          (.error e, (engine.setCurrent ctx.signalId ctx.fromState).push
            (.rollbacked ctx.signalId ctx.toState ctx.fromState))
      | (.ok (), engine) =>
          (.ok {
            signalId := ctx.signalId
            fromState := ctx.fromState
            toState := ctx.toState
            executedActions := actions.onExit ++ actions.onTransition ++ actions.onEnter },
          engine.push (.stateChanged ctx.signalId ctx.fromState ctx.toState))

/-- The first transition declared for the event in the current state. -/
def findTransition (engine : TopologyEngine W) (signalId event current : String) :
    Option TransitionDef :=
  engine.transitions.find? fun t =>
    t.signalId = signalId && t.event = event && (t.fromState = current || t.fromState = "*")

section

variable [RustStd] [SerdeJson]

/-- The guard of a transition, if it has one. -/
def checkGuard (transition : TransitionDef) (ctx : ActionContext) : Except EngineError Unit :=
  match transition.guard with
  | none => .ok ()
  | some guard =>
      match Guard.evalGuard guard ctx with
      | .ok true => .ok ()
      | .ok false => .error (.guardBlocked ctx.signalId ctx.event guard)
      | .error msg => .error (.guardEvaluationError msg)

/-- The first event of a call. -/
def receive (engine : TopologyEngine W) (signalId event : String) (payload : Option JsonValue) :
    TopologyEngine W :=
  engine.push (.eventReceived signalId event (payload.map SerdeJson.valueToString))

/-- `send_event_internal` up to the dispatch of reactions. -/
def attemptTransition (engine : TopologyEngine W) (signalId event : String)
    (payload : Option JsonValue) : Except EngineError TransitionResult × TopologyEngine W :=
  let engine := engine.receive signalId event payload
  match engine.signals.lookup signalId with
  | none => (.error (.signalNotFound signalId), engine)
  | some signal =>
      match engine.findTransition signalId event signal.current with
      | none => (.error (.transitionNotFound signalId event), engine)
      | some transition =>
          let ctx : ActionContext := {
            signalId, fromState := signal.current, toState := transition.toState, event, payload
            failure := none }
          match checkGuard transition ctx with
          | .error e => (.error e, engine)
          | .ok () => engine.runTransition ctx transition.actions

end

/-! ## What the steps do -/

/-- `engine'` is `engine` after callbacks that appended `events`. -/
def Acted (engine : TopologyEngine W) (events : List TraceEvent) (engine' : TopologyEngine W) :
    Prop :=
  ∃ world, engine' = { engine with world, trace := engine.trace ++ events }

namespace Acted

variable {engine engine' engine'' : TopologyEngine W} {events events' : List TraceEvent}

theorem refl (engine : TopologyEngine W) : Acted engine [] engine :=
  ⟨engine.world, by simp⟩

theorem trans (first : Acted engine events engine') (second : Acted engine' events' engine'') :
    Acted engine (events ++ events') engine'' := by
  obtain ⟨_, rfl⟩ := first
  obtain ⟨world, rfl⟩ := second
  exact ⟨world, by simp⟩

theorem signals (h : Acted engine events engine') : engine'.signals = engine.signals := by
  obtain ⟨_, rfl⟩ := h
  rfl

theorem actions (h : Acted engine events engine') : engine'.actions = engine.actions := by
  obtain ⟨_, rfl⟩ := h
  rfl

theorem trace (h : Acted engine events engine') : engine'.trace = engine.trace ++ events := by
  obtain ⟨_, rfl⟩ := h
  rfl

end Acted

/-- The outcome event of an action. -/
inductive Outcome (signalId actionId : String) : TraceEvent → Prop where
  | succeeded : Outcome signalId actionId (.actionSucceeded signalId actionId)
  | failed (error : String) : Outcome signalId actionId (.actionFailed signalId actionId error)

section

variable (signalId actionId : String) (ctx : ActionContext) (engine : TopologyEngine W)

/-- An action that is not registered fails after its `ActionStarted`; any other
records how it ended. -/
theorem runAction_cases :
    (engine.actions.lookup actionId = none ∧
      runAction signalId actionId ctx engine =
        (.error (.actionNotFound actionId), engine.push (.actionStarted signalId actionId))) ∨
    (engine.Registered actionId ∧ ∃ engine',
      runAction signalId actionId ctx engine = (.ok (), engine') ∧
      Acted engine [.actionStarted signalId actionId, .actionSucceeded signalId actionId]
        engine') ∨
    (engine.Registered actionId ∧ ∃ error engine',
      runAction signalId actionId ctx engine = (.error (.actionExecutionError error), engine') ∧
      Acted engine [.actionStarted signalId actionId, .actionFailed signalId actionId error]
        engine') := by
  cases found : engine.actions.lookup actionId with
  | none => exact .inl ⟨rfl, by simp [runAction, found]⟩
  | some action =>
      have registered : engine.Registered actionId := by simp [Registered, found]
      rcases called : action ctx engine.world with ⟨e | _, world⟩
      · refine .inr (.inr ⟨registered, failureMessage e, _, ?_, world, rfl⟩)
        simp [runAction, found, called, push]
      · refine .inr (.inl ⟨registered, _, ?_, world, rfl⟩)
        simp [runAction, found, called, push]

/-- Running an action writes nothing but the trace and the callbacks' world. -/
theorem runAction_acted : ∃ events,
    Acted engine events (runAction signalId actionId ctx engine).2 ∧
      ∀ ev ∈ events, ev.isAction = true := by
  obtain ⟨_, same⟩ | ⟨_, engine', same, acted⟩ | ⟨_, error, engine', same, acted⟩ :=
    runAction_cases signalId actionId ctx engine
  · rw [same]
    exact ⟨[.actionStarted signalId actionId], ⟨engine.world, rfl⟩, by simp [TraceEvent.isAction]⟩
  · rw [same]
    exact ⟨_, acted, by simp [TraceEvent.isAction]⟩
  · rw [same]
    exact ⟨_, acted, by simp [TraceEvent.isAction]⟩

end

theorem runActions_acted (ctx : ActionContext) (ids : List String) (engine : TopologyEngine W) :
    ∃ events, Acted engine events (runActions ctx ids engine).2 ∧
      ∀ ev ∈ events, ev.isAction = true := by
  refine runAll_rel (R := fun engine engine' => ∃ events, Acted engine events engine' ∧
      ∀ ev ∈ events, ev.isAction = true)
    (fun engine => ⟨[], .refl engine, by simp⟩) ?_
    (fun id _ => runAction_acted ctx.signalId id ctx) engine
  rintro s t u ⟨events, first, actions⟩ ⟨events', second, actions'⟩
  refine ⟨events ++ events', first.trans second, fun ev member => ?_⟩
  exact (List.mem_append.mp member).elim (actions ev) (actions' ev)

theorem runEnterPhases_eq (ctx : ActionContext) (actions : ActionBinding)
    (engine : TopologyEngine W) :
    runEnterPhases ctx actions engine =
      runActions ctx (actions.onTransition ++ actions.onEnter) engine := by
  rcases h : runActions ctx actions.onTransition engine with ⟨e | _, engine'⟩
  · simp only [runEnterPhases, h]
    obtain ⟨front, id, back, u, split, reached, last⟩ := runAll_error_iff.mp h
    refine (runAll_error_iff.mpr ⟨front, id, back ++ actions.onEnter, u, ?_, reached, last⟩).symm
    simp [split]
  · simp only [runEnterPhases, h]
    exact (runAll_append_ok h).symm

theorem runTransition_exit {ctx : ActionContext} {actions : ActionBinding}
    {engine u : TopologyEngine W} {e : EngineError}
    (exits : runActions ctx actions.onExit engine = (.error e, u)) :
    runTransition ctx actions engine = (.error e, u) := by
  simp only [runTransition, exits]

theorem runTransition_rollback {ctx : ActionContext} {actions : ActionBinding}
    {engine u v : TopologyEngine W} {e : EngineError}
    (exits : runActions ctx actions.onExit engine = (.ok (), u))
    (enters : runActions ctx (actions.onTransition ++ actions.onEnter)
      (u.setCurrent ctx.signalId ctx.toState) = (.error e, v)) :
    runTransition ctx actions engine =
      (.error e, (v.setCurrent ctx.signalId ctx.fromState).push
        (.rollbacked ctx.signalId ctx.toState ctx.fromState)) := by
  simp only [runTransition, exits, runEnterPhases_eq, enters]

theorem runTransition_commit {ctx : ActionContext} {actions : ActionBinding}
    {engine u v : TopologyEngine W} (exits : runActions ctx actions.onExit engine = (.ok (), u))
    (enters : runActions ctx (actions.onTransition ++ actions.onEnter)
      (u.setCurrent ctx.signalId ctx.toState) = (.ok (), v)) :
    runTransition ctx actions engine =
      (.ok ⟨ctx.signalId, ctx.fromState, ctx.toState,
        actions.onExit ++ actions.onTransition ++ actions.onEnter⟩,
      v.push (.stateChanged ctx.signalId ctx.fromState ctx.toState)) := by
  simp only [runTransition, exits, runEnterPhases_eq, enters]

/-- The three ways a transition can go. -/
theorem runTransition_cases (ctx : ActionContext) (actions : ActionBinding)
    (engine : TopologyEngine W) :
    (∃ e u, runActions ctx actions.onExit engine = (.error e, u) ∧
      runTransition ctx actions engine = (.error e, u)) ∨
    (∃ e u v, runActions ctx actions.onExit engine = (.ok (), u) ∧
      runActions ctx (actions.onTransition ++ actions.onEnter)
        (u.setCurrent ctx.signalId ctx.toState) = (.error e, v) ∧
      runTransition ctx actions engine =
        (.error e, (v.setCurrent ctx.signalId ctx.fromState).push
          (.rollbacked ctx.signalId ctx.toState ctx.fromState))) ∨
    (∃ u v, runActions ctx actions.onExit engine = (.ok (), u) ∧
      runActions ctx (actions.onTransition ++ actions.onEnter)
        (u.setCurrent ctx.signalId ctx.toState) = (.ok (), v) ∧
      runTransition ctx actions engine =
        (.ok ⟨ctx.signalId, ctx.fromState, ctx.toState,
          actions.onExit ++ actions.onTransition ++ actions.onEnter⟩,
        v.push (.stateChanged ctx.signalId ctx.fromState ctx.toState))) := by
  rcases exits : runActions ctx actions.onExit engine with ⟨e | _, u⟩
  · exact .inl ⟨e, u, rfl, runTransition_exit exits⟩
  · rcases enters : runActions ctx (actions.onTransition ++ actions.onEnter)
      (u.setCurrent ctx.signalId ctx.toState) with ⟨e | _, v⟩
    · exact .inr (.inl ⟨e, u, v, rfl, enters, runTransition_rollback exits enters⟩)
    · exact .inr (.inr ⟨u, v, rfl, enters, runTransition_commit exits enters⟩)

theorem findTransition_some {engine : TopologyEngine W} {signalId event current : String}
    {transition : TransitionDef}
    (found : engine.findTransition signalId event current = some transition) :
    transition ∈ engine.transitions ∧ transition.signalId = signalId ∧
      (transition.fromState = current ∨ transition.fromState = "*") := by
  refine ⟨List.mem_of_find?_eq_some found, ?_⟩
  have matches_ := List.find?_some found
  simp only [Bool.and_eq_true, Bool.or_eq_true, decide_eq_true_eq] at matches_
  exact ⟨matches_.1.1, matches_.2⟩

/-- A transition records its actions and how it ended. -/
theorem runTransition_lifecycle (ctx : ActionContext) (actions : ActionBinding)
    (engine : TopologyEngine W) : ∃ events,
      (runTransition ctx actions engine).2.trace = engine.trace ++ events ∧
        ∀ ev ∈ events, ev.isLifecycle = true := by
  obtain ⟨exitEvents, exited, exitActions⟩ := runActions_acted ctx actions.onExit engine
  obtain ⟨e, u, exits, ran⟩ | ⟨e, u, v, exits, enters, ran⟩ | ⟨u, v, exits, enters, ran⟩ :=
    runTransition_cases ctx actions engine
  · rw [exits] at exited
    rw [ran]
    exact ⟨exitEvents, exited.trace,
      fun ev member => TraceEvent.isLifecycle_of_isAction (exitActions ev member)⟩
  all_goals
    obtain ⟨enterEvents, entered, enterActions⟩ := runActions_acted ctx
      (actions.onTransition ++ actions.onEnter) (u.setCurrent ctx.signalId ctx.toState)
    rw [exits] at exited
    rw [enters] at entered
    rw [ran]
    have log : v.trace = engine.trace ++ (exitEvents ++ enterEvents) := by
      rw [entered.trace, setCurrent_trace, exited.trace, List.append_assoc]
    have acted : ∀ ev ∈ exitEvents ++ enterEvents, ev.isLifecycle = true := fun ev member =>
      TraceEvent.isLifecycle_of_isAction
        ((List.mem_append.mp member).elim (exitActions ev) (enterActions ev))
  · refine ⟨_, by rw [push_trace, setCurrent_trace, log, List.append_assoc], fun ev member => ?_⟩
    rcases List.mem_append.mp member with earlier | last
    · exact acted ev earlier
    · rw [List.mem_singleton.mp last]
      rfl
  · refine ⟨_, by rw [push_trace, log, List.append_assoc], fun ev member => ?_⟩
    rcases List.mem_append.mp member with earlier | last
    · exact acted ev earlier
    · rw [List.mem_singleton.mp last]
      rfl

/-- A failed transition leaves every signal as it was; a successful one moves its
own signal and records that as its last event. -/
theorem runTransition_spec (ctx : ActionContext) (actions : ActionBinding)
    (engine : TopologyEngine W) {signal : SignalState}
    (known : engine.signals.lookup ctx.signalId = some signal)
    (source : ctx.fromState = signal.current) :
    (∃ e u events, runTransition ctx actions engine = (.error e, u) ∧
      u.trace = engine.trace ++ events ∧ Silent events ∧
      ∀ id, u.signals.lookup id = engine.signals.lookup id) ∨
    ∃ result u events, runTransition ctx actions engine = (.ok result, u) ∧
      result.toState = ctx.toState ∧
      u.trace = engine.trace ++ (events ++
        [.stateChanged ctx.signalId signal.current ctx.toState]) ∧ Silent events ∧
      ∀ id, u.signals.lookup id =
        if id = ctx.signalId then some { signal with current := ctx.toState }
        else engine.signals.lookup id := by
  have exit := runActions_acted ctx actions.onExit engine
  obtain ⟨e, u, exits, ran⟩ | ⟨e, u, v, exits, enters, ran⟩ | ⟨u, v, exits, enters, ran⟩ :=
    runTransition_cases ctx actions engine
  · rw [exits] at exit
    obtain ⟨events, exited, silent⟩ := exit
    exact .inl ⟨e, u, events, ran, exited.trace, silent_actions silent,
      fun id => by rw [exited.signals]⟩
  all_goals
    have enter := runActions_acted ctx (actions.onTransition ++ actions.onEnter)
      (u.setCurrent ctx.signalId ctx.toState)
    rw [exits] at exit
    rw [enters] at enter
    obtain ⟨exitEvents, exited, exitSilent⟩ := exit
    obtain ⟨enterEvents, entered, enterSilent⟩ := enter
    have log : v.trace = engine.trace ++ (exitEvents ++ enterEvents) := by
      rw [entered.trace, setCurrent_trace, exited.trace, List.append_assoc]
    have silent := (silent_actions exitSilent).append (silent_actions enterSilent)
    have moved : ∀ id, v.signals.lookup id =
        if id = ctx.signalId then some { signal with current := ctx.toState }
        else engine.signals.lookup id := by
      intro id
      rw [entered.signals, setCurrent_lookup, exited.signals]
      split
      · next same => rw [same, known, Option.map_some]
      · rfl
  · have rolled : Silent [.rollbacked ctx.signalId ctx.toState ctx.fromState] := fun id => rfl
    refine .inl ⟨e, _, _, ran, ?_, silent.append rolled, fun id => ?_⟩
    · rw [push_trace, setCurrent_trace, log, List.append_assoc]
    · rw [push_signals, setCurrent_lookup]
      split
      · next same => rw [moved, if_pos same, same, known, source, Option.map_some]
      · next other => rw [moved, if_neg other]
  · refine .inr ⟨_, _, _, ran, rfl, ?_, silent, moved⟩
    rw [push_trace, log, source, List.append_assoc]

variable [SerdeJson]

@[simp] theorem receive_signals (engine : TopologyEngine W) (signalId event : String)
    (payload : Option JsonValue) :
    (engine.receive signalId event payload).signals = engine.signals := rfl

variable [RustStd]

/-- An attempt is rejected before any action runs, or it runs the lifecycle of
a transition of the signal that matches its current state. -/
theorem attemptTransition_cases (engine : TopologyEngine W) (signalId event : String)
    (payload : Option JsonValue) :
    (∃ e, engine.attemptTransition signalId event payload =
      (.error e, engine.receive signalId event payload)) ∨
    ∃ signal transition ctx, engine.signals.lookup signalId = some signal ∧
      engine.findTransition signalId event signal.current = some transition ∧
      ctx = ⟨signalId, signal.current, transition.toState, event, payload, none⟩ ∧
      checkGuard transition ctx = .ok () ∧
      engine.attemptTransition signalId event payload =
        (engine.receive signalId event payload).runTransition ctx transition.actions := by
  cases known : engine.signals.lookup signalId with
  | none =>
      refine .inl ⟨.signalNotFound signalId, ?_⟩
      simp only [attemptTransition, receive_signals, known]
  | some signal =>
      have chosen : (engine.receive signalId event payload).findTransition signalId event
          signal.current = engine.findTransition signalId event signal.current := rfl
      cases found : engine.findTransition signalId event signal.current with
      | none =>
          refine .inl ⟨.transitionNotFound signalId event, ?_⟩
          simp only [attemptTransition, receive_signals, known, chosen, found]
      | some transition =>
          cases checked : checkGuard transition
              ⟨signalId, signal.current, transition.toState, event, payload, none⟩ with
          | error e =>
              refine .inl ⟨e, ?_⟩
              simp only [attemptTransition, receive_signals, known, chosen, found, checked]
          | ok =>
              refine .inr ⟨signal, transition, _, rfl, found, rfl, checked, ?_⟩
              simp only [attemptTransition, receive_signals, known, chosen, found, checked]

/-- An attempt records its event first, and then its transition. -/
theorem attemptTransition_lifecycle (engine : TopologyEngine W) (signalId event : String)
    (payload : Option JsonValue) : ∃ events,
      (engine.attemptTransition signalId event payload).2.trace =
        engine.trace ++ .eventReceived signalId event (payload.map SerdeJson.valueToString) ::
          events ∧
        ∀ ev ∈ events, ev.isLifecycle = true := by
  obtain ⟨e, rejected⟩ | ⟨_, transition, ctx, _, _, _, _, attempted⟩ :=
    engine.attemptTransition_cases signalId event payload
  · rw [rejected]
    exact ⟨[], rfl, by simp⟩
  · rw [attempted]
    obtain ⟨events, log, lifecycle⟩ := runTransition_lifecycle ctx transition.actions
      (engine.receive signalId event payload)
    exact ⟨events, by rw [log, receive, push_trace, List.append_assoc]; rfl, lifecycle⟩

/-- A failed attempt leaves every signal as it was; a successful one moves its
own signal along a declared transition and records that as its last event. -/
theorem attemptTransition_spec (engine : TopologyEngine W) (signalId event : String)
    (payload : Option JsonValue) :
    (∃ e u events, engine.attemptTransition signalId event payload = (.error e, u) ∧
      u.trace = engine.trace ++ events ∧ Silent events ∧
      ∀ id, u.signals.lookup id = engine.signals.lookup id) ∨
    ∃ result u events signal, engine.attemptTransition signalId event payload = (.ok result, u) ∧
      engine.signals.lookup signalId = some signal ∧
      (∃ t ∈ engine.transitions, t.signalId = signalId ∧ t.toState = result.toState ∧
        (t.fromState = signal.current ∨ t.fromState = "*")) ∧
      u.trace = engine.trace ++ (events ++
        [.stateChanged signalId signal.current result.toState]) ∧ Silent events ∧
      ∀ id, u.signals.lookup id =
        if id = signalId then some { signal with current := result.toState }
        else engine.signals.lookup id := by
  have received : Silent [.eventReceived signalId event
      (payload.map SerdeJson.valueToString)] := fun id => rfl
  obtain ⟨e, rejected⟩ | ⟨signal, transition, ctx, known, found, rfl, _, attempted⟩ :=
    engine.attemptTransition_cases signalId event payload
  · exact .inl ⟨e, _, _, rejected, rfl, received, fun id => rfl⟩
  · obtain ⟨member, owner, source⟩ := findTransition_some found
    rw [attempted]
    obtain ⟨e, u, events, ran, log, silent, same⟩ |
        ⟨result, u, events, ran, target, log, silent, same⟩ :=
      runTransition_spec ⟨signalId, signal.current, transition.toState, event, payload, none⟩
        transition.actions (engine.receive signalId event payload) known rfl
    · refine .inl ⟨e, u, _, ran, ?_, received.append silent, same⟩
      rw [log, receive, push_trace, List.append_assoc]
    · rw [← target] at log same
      refine .inr ⟨result, u, _, signal, ran, known,
        ⟨transition, member, owner, target.symm, source⟩, ?_, received.append silent, same⟩
      rw [log, receive, push_trace, List.append_assoc, List.append_assoc]

end TopologyEngine

end SignalTopology
