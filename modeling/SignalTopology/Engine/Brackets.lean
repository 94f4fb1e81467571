import SignalTopology.Engine.Registration

/-!
# The trace is bracketed

`run_action` records a start and an outcome, with one exception: the start of an
action without a callback is recorded and its failure is not. The trace of a run
is bracketed exactly when no such action is run.
-/

namespace SignalTopology

open Sequencing TopologyEngine

/-- Every start is followed by its outcome, every rollback preceded by a failed
action of its signal, and every compensation by the outcome of its hook. -/
structure Bracketed (log : List TraceEvent) : Prop where
  started : ∀ i signalId actionId, log[i]? = some (.actionStarted signalId actionId) →
    ∃ outcome, log[i + 1]? = some outcome ∧ Outcome signalId actionId outcome
  rollbacked : ∀ i signalId fromState toState,
    log[i]? = some (.rollbacked signalId fromState toState) →
    ∃ j actionId error, i = j + 1 ∧ log[j]? = some (.actionFailed signalId actionId error)
  compensated : ∀ i signalId fromSignal fromState toSignal event actionId error,
    log[i]? = some
      (.reactionCompensated signalId fromSignal fromState toSignal event actionId error) →
    ∃ j outcome, i = j + 1 ∧ log[j]? = some outcome ∧ Outcome toSignal actionId outcome

/-- An event that a bracketed log may be continued with. -/
inductive Continues (log : List TraceEvent) : TraceEvent → Prop where
  | other {ev : TraceEvent} (started : ∀ s a, ev ≠ .actionStarted s a)
      (rollbacked : ∀ s f t, ev ≠ .rollbacked s f t) (compensated : ev.isCompensation = false) :
      Continues log ev
  | rollbacked {init actionId error signalId fromState toState}
      (last : log = init ++ [.actionFailed signalId actionId error]) :
      Continues log (.rollbacked signalId fromState toState)
  | compensated {init outcome signalId fromSignal fromState toSignal event actionId error}
      (last : log = init ++ [outcome]) (outcome : Outcome toSignal actionId outcome) :
      Continues log
        (.reactionCompensated signalId fromSignal fromState toSignal event actionId error)

namespace Bracketed

variable {log log' : List TraceEvent}

theorem nil : Bracketed [] :=
  ⟨by simp, by simp, by simp⟩

private theorem kept {i : Nat} {ev : TraceEvent} (entry : log[i]? = some ev)
    (log' : List TraceEvent) : (log ++ log')[i]? = some ev := by
  rw [List.getElem?_append_left (List.getElem?_eq_some_iff.mp entry).1, entry]

/-- An entry of a concatenation lies in one of its parts. -/
private theorem part {i : Nat} {ev : TraceEvent} (entry : (log ++ log')[i]? = some ev) :
    log[i]? = some ev ∨ ∃ j, i = log.length + j ∧ log'[j]? = some ev := by
  rcases Nat.lt_or_ge i log.length with early | late
  · rw [List.getElem?_append_left early] at entry
    exact .inl entry
  · rw [List.getElem?_append_right late] at entry
    exact .inr ⟨i - log.length, by omega, entry⟩

private theorem shifted {j : Nat} {ev : TraceEvent} (entry : log'[j]? = some ev) :
    (log ++ log')[log.length + j]? = some ev := by
  rw [List.getElem?_append_right (Nat.le_add_right _ _), Nat.add_sub_cancel_left, entry]

theorem append (h : Bracketed log) (h' : Bracketed log') : Bracketed (log ++ log') := by
  constructor
  · intro i s a entry
    rcases part entry with early | ⟨j, rfl, late⟩
    · obtain ⟨outcome, next, same⟩ := h.started i s a early
      exact ⟨outcome, kept next log', same⟩
    · obtain ⟨outcome, next, same⟩ := h'.started j s a late
      exact ⟨outcome, shifted next, same⟩
  · intro i s f t entry
    rcases part entry with early | ⟨j, rfl, late⟩
    · obtain ⟨k, a, error, rfl, before⟩ := h.rollbacked i s f t early
      exact ⟨k, a, error, rfl, kept before log'⟩
    · obtain ⟨k, a, error, rfl, before⟩ := h'.rollbacked j s f t late
      exact ⟨log.length + k, a, error, by omega, shifted before⟩
  · intro i s fs f ts ev a error entry
    rcases part entry with early | ⟨j, rfl, late⟩
    · obtain ⟨k, outcome, rfl, before, same⟩ := h.compensated i s fs f ts ev a error early
      exact ⟨k, outcome, rfl, kept before log', same⟩
    · obtain ⟨k, outcome, rfl, before, same⟩ := h'.compensated j s fs f ts ev a error late
      exact ⟨log.length + k, outcome, by omega, shifted before, same⟩

theorem snoc (h : Bracketed log) {ev : TraceEvent} (continues : Continues log ev) :
    Bracketed (log ++ [ev]) := by
  have final {i : Nat} {ev' : TraceEvent} (entry : (log ++ [ev])[i]? = some ev') :
      log[i]? = some ev' ∨ i = log.length ∧ ev = ev' := by
    rcases part entry with early | ⟨j, rfl, late⟩
    · exact .inl early
    · cases j with
      | zero => exact .inr ⟨rfl, Option.some.inj late⟩
      | succ j => simp at late
  constructor
  · intro i s a entry
    rcases final entry with early | ⟨_, rfl⟩
    · obtain ⟨outcome, next, same⟩ := h.started i s a early
      exact ⟨outcome, kept next [ev], same⟩
    · cases continues with
      | other started => exact absurd rfl (started s a)
  · intro i s f t entry
    rcases final entry with early | ⟨rfl, rfl⟩
    · obtain ⟨k, a, error, rfl, before⟩ := h.rollbacked i s f t early
      exact ⟨k, a, error, rfl, kept before [ev]⟩
    · cases continues with
      | other _ rollbacked => exact absurd rfl (rollbacked s f t)
      | @rollbacked init a error _ _ _ last =>
          subst last
          exact ⟨init.length, a, error, by simp, by simp⟩
  · intro i s fs f ts event a error entry
    rcases final entry with early | ⟨rfl, rfl⟩
    · obtain ⟨k, outcome, rfl, before, same⟩ := h.compensated i s fs f ts event a error early
      exact ⟨k, outcome, rfl, kept before [ev], same⟩
    · cases continues with
      | other _ _ compensated => cases compensated
      | @compensated init outcome _ _ _ _ _ _ _ last same =>
          subst last
          exact ⟨init.length, outcome, by simp, by simp, same⟩

/-- The two events of an action that has a callback. -/
theorem action {signalId actionId : String} {outcome : TraceEvent}
    (same : Outcome signalId actionId outcome) :
    Bracketed [.actionStarted signalId actionId, outcome] := by
  have entries {i : Nat} {ev : TraceEvent}
      (entry : [.actionStarted signalId actionId, outcome][i]? = some ev) :
      (i = 0 ∧ .actionStarted signalId actionId = ev) ∨ (i = 1 ∧ outcome = ev) := by
    rcases i with _ | _ | i
    · exact .inl ⟨rfl, Option.some.inj entry⟩
    · exact .inr ⟨rfl, Option.some.inj entry⟩
    · simp at entry
  constructor
  · intro i s a entry
    rcases entries entry with ⟨rfl, started⟩ | ⟨_, rfl⟩
    · cases started
      exact ⟨outcome, rfl, same⟩
    · cases same
  · intro i s f t entry
    rcases entries entry with ⟨_, started⟩ | ⟨_, rfl⟩
    · cases started
    · cases same
  · intro i s fs f ts event a error entry
    rcases entries entry with ⟨_, started⟩ | ⟨_, rfl⟩
    · cases started
    · cases same

end Bracketed

variable {W : Type}

/-- The events appended between two engines are bracketed. -/
def Bracketing (s t : TopologyEngine W) : Prop :=
  ∃ events, t.trace = s.trace ++ events ∧ Bracketed events

namespace Bracketing

variable {s t u : TopologyEngine W}

theorem refl (s : TopologyEngine W) : Bracketing s s :=
  ⟨[], (List.append_nil _).symm, .nil⟩

theorem trans (first : Bracketing s t) (second : Bracketing t u) : Bracketing s u := by
  obtain ⟨events, log, bracketed⟩ := first
  obtain ⟨events', log', bracketed'⟩ := second
  exact ⟨events ++ events', by rw [log', log, List.append_assoc], bracketed.append bracketed'⟩

/-- An event that does not refer to the one before it. -/
theorem push {ev : TraceEvent} (continues : Continues [] ev) : Bracketing s (s.push ev) :=
  ⟨[ev], rfl, Bracketed.nil.snoc continues⟩

theorem setCurrent (signalId state : String) : Bracketing s (s.setCurrent signalId state) :=
  ⟨[], by simp, .nil⟩

/-- An action with a callback records its outcome last. -/
theorem run_found {i : Invocation W} (found : i.Found) :
    ∃ outcome, Outcome i.signalId i.actionId outcome ∧
      i.run.2.trace = i.engine.trace ++ [.actionStarted i.signalId i.actionId, outcome] ∧
      (∀ e, i.run.1 = .error e → ∃ error, outcome = .actionFailed i.signalId i.actionId error) := by
  obtain ⟨missing, _⟩ | ⟨_, engine', ran, acted⟩ | ⟨_, error, engine', ran, acted⟩ :=
    runAction_cases i.signalId i.actionId i.ctx i.engine
  · rw [Invocation.Found, Registered, missing] at found
    cases found
  · rw [Invocation.run, ran]
    exact ⟨_, .succeeded, acted.trace, fun e failed => by cases failed⟩
  · rw [Invocation.run, ran]
    exact ⟨_, .failed error, acted.trace, fun _ _ => ⟨error, rfl⟩⟩

theorem runActions {ctx : ActionContext} {ids : List String} {engine : TopologyEngine W}
    (found : ∀ i, Comes ctx ids engine i → i.Found) :
    Bracketing engine (runActions ctx ids engine).2 := by
  refine runAll_along refl trans fun front actionId back u split reached => ?_
  obtain ⟨outcome, same, log, _⟩ := run_found (i := ⟨ctx.signalId, actionId, ctx, u⟩)
    (found _ ⟨rfl, rfl, front, back, split, reached⟩)
  exact ⟨_, log, .action same⟩

/-- A phase that fails ends with the failed action. -/
theorem runActions_failed {ctx : ActionContext} {ids : List String} {engine v : TopologyEngine W}
    {e : EngineError} (found : ∀ i, Comes ctx ids engine i → i.Found)
    (failed : TopologyEngine.runActions ctx ids engine = (.error e, v)) :
    ∃ init actionId error, v.trace =
        engine.trace ++ (init ++ [.actionFailed ctx.signalId actionId error]) ∧
      Bracketed (init ++ [.actionFailed ctx.signalId actionId error]) := by
  obtain ⟨front, actionId, back, u, split, reached, last⟩ := runAll_error_iff.mp failed
  have before : Bracketing engine (TopologyEngine.runActions ctx front engine).2 :=
    runActions fun i comes => found i (by
      obtain ⟨front', back', split', reached'⟩ := comes.reached
      exact ⟨comes.signalId, comes.context, front', back' ++ actionId :: back,
        by simp [split, split'], reached'⟩)
  rw [TopologyEngine.runActions, reached] at before
  obtain ⟨events, log, bracketed⟩ := before
  obtain ⟨outcome, same, log', ended⟩ := run_found (i := ⟨ctx.signalId, actionId, ctx, u⟩)
    (found _ ⟨rfl, rfl, front, back, split, reached⟩)
  rw [Invocation.run, last] at log' ended
  obtain ⟨error, rfl⟩ := ended e rfl
  refine ⟨events ++ [.actionStarted ctx.signalId actionId], actionId, error, ?_, ?_⟩
  · rw [log', log]
    simp
  · simpa using bracketed.append (.action same)

variable [RustStd] [SerdeJson] {limit : Nat} {c : Call W}

theorem attempt (within : c.depth ≤ limit) (found : ∀ i, c.Invokes limit i → i.Found) :
    Bracketing c.engine c.attempt.2 := by
  have received : Bracketing c.engine c.received :=
    push (.other (by simp) (by simp) rfl)
  obtain ⟨e, rejected⟩ | ⟨transition, ctx, picks, attempted⟩ := c.attempt_cases
  · rw [rejected]
    exact received
  · have exit : Bracketing c.received
        (TopologyEngine.runActions ctx transition.actions.onExit c.received).2 :=
      runActions fun i comes => found i (.exit within picks comes)
    rw [attempted]
    obtain ⟨e, u, exits, ran⟩ | ⟨e, u, v, exits, enters, ran⟩ | ⟨u, v, exits, enters, ran⟩ :=
      runTransition_cases ctx transition.actions c.received
    · rw [exits] at exit
      rw [ran]
      exact received.trans exit
    all_goals
      have entering : ∀ i, Comes ctx
          (transition.actions.onTransition ++ transition.actions.onEnter)
          (u.setCurrent ctx.signalId ctx.toState) i → i.Found :=
        fun i comes => found i (.enter within picks exits comes)
      rw [exits] at exit
      rw [ran]
      refine (received.trans exit).trans ((setCurrent ctx.signalId ctx.toState).trans ?_)
    · obtain ⟨init, actionId, error, log, bracketed⟩ := runActions_failed entering enters
      have closed : Bracketed ((init ++ [.actionFailed ctx.signalId actionId error]) ++
          [.rollbacked ctx.signalId ctx.toState ctx.fromState]) :=
        bracketed.snoc (.rollbacked rfl)
      exact ⟨_, by rw [push_trace, setCurrent_trace, log, List.append_assoc], closed⟩
    · have enter := runActions entering
      rw [enters] at enter
      exact enter.trans (push (.other (by simp) (by simp) rfl))

theorem segment {s t : TopologyEngine W} (own : c.OwnSegment limit s t)
    (found : ∀ i, c.Invokes limit i → i.Found) : Bracketing s t := by
  cases own with
  | attempt within => exact attempt within found
  | @gate reaction _ fires =>
      obtain ⟨_, same⟩ | ⟨guard, passed, result, _, same⟩ :=
        gate_cases reaction c.parentPayload c.signalId s
      · rw [Call.gate, same]
        exact refl s
      · rw [Call.gate, same]
        exact push (.other (by simp) (by simp) rfl)
  | @hook reaction c' e _ delivers failed =>
      obtain ⟨_, same⟩ | ⟨actionId, ctx, named, rfl, same⟩ :=
        compensate_cases reaction c.parentPayload c.signalId e s
      · rw [Call.compensate, same]
        exact refl s
      · obtain ⟨outcome, ended, log, _⟩ := run_found (found _ (.hook delivers failed named))
        have last : [.actionStarted reaction.toSignal actionId, outcome] =
            [.actionStarted reaction.toSignal actionId] ++ [outcome] := rfl
        have closed : Bracketed ([.actionStarted reaction.toSignal actionId, outcome] ++
            [TopologyEngine.compensated reaction c.signalId actionId e]) :=
          (Bracketed.action ended).snoc (.compensated last ended)
        rw [Call.compensate, same]
        refine ⟨_, ?_, closed⟩
        rw [push_trace]
        exact (congrArg (· ++ _) log).trans (List.append_assoc _ _ _)

/-- A run in which every action has a callback. -/
theorem run (limit : Nat) (c : Call W)
    (found : ∀ c' i, c.Reached limit c' → c'.Invokes limit i → i.Found) :
    Bracketing c.engine (c.run limit).2 := by
  have path := Call.run_path limit c
  generalize (c.run limit).2 = final at path ⊢
  induction path with
  | refl => exact refl c.engine
  | tail _ last ih =>
      obtain ⟨c', reached, own⟩ := last
      exact ih.trans (segment own fun i invoked => found c' i reached invoked)

end Bracketing

/-! ## A start without an outcome -/

/-- No outcome is the first event appended between two engines. -/
def Opens (s t : TopologyEngine W) : Prop :=
  ∃ events, t.trace = s.trace ++ events ∧
    ∀ ev, events.head? = some ev → ∀ signalId actionId, ¬ Outcome signalId actionId ev

namespace Opens

variable {s t u : TopologyEngine W}

theorem refl (s : TopologyEngine W) : Opens s s :=
  ⟨[], (List.append_nil _).symm, fun _ first => by cases first⟩

theorem trans (first : Opens s t) (second : Opens t u) : Opens s u := by
  obtain ⟨events, log, opens⟩ := first
  obtain ⟨events', log', opens'⟩ := second
  refine ⟨events ++ events', by rw [log', log, List.append_assoc], ?_⟩
  cases events with
  | nil => exact opens'
  | cons ev events => exact opens

theorem push (ev : TraceEvent) (other : ∀ signalId actionId, ¬ Outcome signalId actionId ev)
    (grown : (s.push ev).trace <+: t.trace) : Opens s t := by
  obtain ⟨rest, log⟩ := grown
  refine ⟨ev :: rest, by rw [← log, push_trace, List.append_assoc]; rfl, ?_⟩
  intro ev' first
  cases first
  exact other

theorem runAction (signalId actionId : String) (ctx : ActionContext)
    (engine : TopologyEngine W) : Opens engine (runAction signalId actionId ctx engine).2 := by
  have grown : (engine.push (.actionStarted signalId actionId)).trace <+:
      (TopologyEngine.runAction signalId actionId ctx engine).2.trace := by
    obtain ⟨_, ran⟩ | ⟨_, engine', ran, acted⟩ | ⟨_, error, engine', ran, acted⟩ :=
      runAction_cases signalId actionId ctx engine
    · rw [ran]
    all_goals
      rw [ran, acted.trace, push_trace]
      exact ⟨[_], List.append_assoc _ _ _⟩
  exact push _ (fun _ _ outcome => by cases outcome) grown

variable [RustStd] [SerdeJson] {limit : Nat} {c : Call W}

theorem segment (own : c.OwnSegment limit s t) : Opens s t := by
  cases own with
  | attempt =>
      refine push (.eventReceived c.signalId c.event
        (c.payload.map SerdeJson.valueToString)) (fun _ _ outcome => by cases outcome) ?_
      obtain ⟨e, rejected⟩ | ⟨transition, ctx, _, attempted⟩ := c.attempt_cases
      · rw [rejected]
        exact List.prefix_rfl
      · rw [attempted]
        exact trace_elementary.runTransition ctx transition.actions c.received
  | @gate reaction _ _ =>
      obtain ⟨_, same⟩ | ⟨guard, passed, result, _, same⟩ :=
        gate_cases reaction c.parentPayload c.signalId s
      · rw [Call.gate, same]
        exact refl s
      · rw [Call.gate, same]
        exact push _ (fun _ _ outcome => by cases outcome) List.prefix_rfl
  | @hook reaction _ e _ _ _ =>
      obtain ⟨_, same⟩ | ⟨actionId, ctx, _, _, same⟩ :=
        compensate_cases reaction c.parentPayload c.signalId e s
      · rw [Call.compensate, same]
        exact refl s
      · rw [Call.compensate, same]
        exact (runAction _ _ _ _).trans
          (push _ (fun _ _ outcome => by cases outcome) List.prefix_rfl)

theorem path (path : c.Path limit s t) : Opens s t := by
  induction path with
  | refl => exact refl s
  | tail _ last ih =>
      obtain ⟨c', _, own⟩ := last
      exact ih.trans (segment own)

theorem run (limit : Nat) (c : Call W) : Opens c.engine (c.run limit).2 :=
  path (Call.run_path limit c)

end Opens

namespace Call

variable [RustStd] [SerdeJson] {limit : Nat} {c : Call W}

/-- After an action without a callback, the run goes on without an outcome. -/
theorem Invokes.opens {i : Invocation W} (invoked : c.Invokes limit i) (missing : ¬ i.Found) :
    Opens i.run.2 (c.run limit).2 := by
  have last : runAction i.signalId i.actionId i.ctx i.engine =
      (.error (.actionNotFound i.actionId), i.run.2) :=
    Prod.ext (Invocation.run_missing missing) rfl
  have stopped {ctx : ActionContext} {ids : List String} {engine : TopologyEngine W}
      (comes : Comes ctx ids engine i) :
      runActions ctx ids engine = (.error (.actionNotFound i.actionId), i.run.2) := by
    obtain ⟨front, back, split, reached⟩ := comes.reached
    refine runAll_error_iff.mpr ⟨front, i.actionId, back, i.engine, split, reached, ?_⟩
    rw [← comes.signalId, ← comes.context]
    exact last
  cases invoked with
  | exit within picks comes =>
      have attempted := picks.attempt
      rw [runTransition_exit (stopped comes)] at attempted
      rw [c.run_rejected limit within attempted]
      exact .refl _
  | @enter transition ctx u _ within picks exits comes =>
      have attempted := picks.attempt
      rw [runTransition_rollback exits (stopped comes)] at attempted
      rw [c.run_rejected limit within attempted]
      refine .push (.rollbacked ctx.signalId ctx.toState ctx.fromState)
        (fun _ _ outcome => by cases outcome) ?_
      rw [push_trace, push_trace, setCurrent_trace]
  | @hook reaction c' e x actionId delivers failed named =>
      have hook := OwnSegment.hook delivers failed
      have compensated : Opens
          (runAction reaction.toSignal actionId (hookContext reaction c.parentPayload e x) x).2
          (c.compensate reaction e x) := by
        obtain ⟨unnamed, _⟩ | ⟨actionId', ctx, named', rfl, same⟩ :=
          compensate_cases reaction c.parentPayload c.signalId e x
        · rw [named] at unnamed
          cases unnamed
        · cases named.symm.trans named'
          rw [compensate, same]
          exact .push _ (fun _ _ outcome => by cases outcome) List.prefix_rfl
      exact compensated.trans (.path hook.on_path.2)

/-- An action is run after everything recorded before its call. -/
theorem Invokes.grown {i : Invocation W} (invoked : c.Invokes limit i) :
    c.engine.trace <+: i.engine.trace := by
  have along {ctx : ActionContext} {ids : List String} {engine : TopologyEngine W}
      (comes : Comes ctx ids engine i) : engine.trace <+: i.engine.trace := by
    obtain ⟨front, back, _, reached⟩ := comes.reached
    have grown := trace_elementary.runActions ctx front engine
    rwa [reached] at grown
  have received : c.engine.trace <+: c.received.trace := trace_elementary.push c.engine _
  cases invoked with
  | exit within picks comes => exact received.trans (along comes)
  | @enter transition ctx u _ within picks exits comes =>
      have exit := trace_elementary.runActions ctx transition.actions.onExit c.received
      rw [exits] at exit
      have entered := along comes
      rw [setCurrent_trace] at entered
      exact received.trans (exit.trans entered)
  | @hook reaction c' e x actionId delivers failed named =>
      have below := trace_elementary.run limit c'
      rw [failed] at below
      exact (delivers.on_path.1.rel trace_elementary).trans below

end Call

section

variable [RustStd] [SerdeJson]

/-- The start of an action without a callback stays without an outcome. -/
theorem InvokedIn.unanswered {engine : TopologyEngine W} {events : List Event} {i : Invocation W}
    (h : InvokedIn engine events i) (missing : ¬ i.Found) :
    ∃ front back, (sendAll engine events).trace =
        engine.trace ++ (front ++ .actionStarted i.signalId i.actionId :: back) ∧
      ∀ ev, back.head? = some ev → ¬ Outcome i.signalId i.actionId ev := by
  obtain ⟨before, ev, after, rfl, c', reached, invoked⟩ := h
  obtain ⟨entered, left⟩ := reached.on_path
  have grown : engine.trace <+: i.engine.trace :=
    (sendAll_elementary trace_elementary engine before).trans
      ((entered.rel trace_elementary).trans invoked.grown)
  have sent : sendAll engine (before ++ ev :: after) =
      sendAll ((ev.call (sendAll engine before)).run engine.maxCascadeDepth).2 after := by
    rw [← (sendAll_sameTopology engine before).maxCascadeDepth, ← sendAll_append]
    simp [sendAll]
  have rest : Opens i.run.2 (sendAll engine (before ++ ev :: after)) := by
    rw [sent]
    exact ((invoked.opens missing).trans (.path left)).trans
      (sendAll_rel Opens.refl Opens.trans Opens.run _ after)
  have started : i.run.2.trace = i.engine.trace ++ [.actionStarted i.signalId i.actionId] := by
    obtain ⟨_, ran⟩ | ⟨found, _⟩ | ⟨found, _⟩ :=
      runAction_cases i.signalId i.actionId i.ctx i.engine
    · rw [Invocation.run, ran, push_trace]
    · exact absurd found missing
    · exact absurd found missing
  obtain ⟨front, split⟩ := grown
  obtain ⟨back, log, opens⟩ := rest
  refine ⟨front, back, ?_, fun ev first => opens ev first i.signalId i.actionId⟩
  rw [log, started, ← split]
  simp

/-- The events appended by a sequence of `send_event` calls are bracketed exactly
if every action that is run has a callback; in particular if every id bound by a
transition or named as a hook has one. -/
theorem trace_bracketed_iff (engine : TopologyEngine W) (events : List Event) :
    ∃ log, (sendAll engine events).trace = engine.trace ++ log ∧
      (Bracketed log ↔ ∀ i, InvokedIn engine events i → engine.Registered i.actionId) ∧
      ((∀ t ∈ engine.transitions, ∀ id ∈ t.actions.allActions, engine.Registered id) →
        (∀ reaction ∈ engine.reactions, ∀ id, reaction.onFail = some id →
          engine.Registered id) → Bracketed log) := by
  have found : ∀ {i}, InvokedIn engine events i →
      (i.Found ↔ engine.Registered i.actionId) := by
    intro i invoked
    rw [Invocation.Found, Registered, invoked.actions]
    rfl
  obtain ⟨log, sent⟩ := sendAll_elementary trace_elementary engine events
  have brackets : (∀ i, InvokedIn engine events i → engine.Registered i.actionId) →
      Bracketed log := by
    intro registered
    have loop : ∀ before after, events = before ++ after →
        Bracketing engine (sendAll engine before) := by
      intro before
      induction before using List.reverseRecOn with
      | nil => exact fun _ _ => .refl engine
      | append_singleton before ev ih =>
          intro after split
          have split' : events = before ++ ev :: after := by simpa using split
          rw [sendAll_append, (sendAll_sameTopology engine before).maxCascadeDepth]
          refine (ih (ev :: after) split').trans (Bracketing.run _ _ fun c' i reached invoked => ?_)
          have member : InvokedIn engine events i :=
            ⟨before, ev, after, split', c', reached, invoked⟩
          exact (found member).mpr (registered i member)
    obtain ⟨log', sent', bracketed⟩ := loop events [] (List.append_nil events).symm
    rw [← sent] at sent'
    rwa [List.append_cancel_left sent']
  refine ⟨log, sent.symm, ⟨fun bracketed i invoked => ?_, brackets⟩, fun bound hooks => ?_⟩
  · refine (found invoked).mp (Classical.byContradiction fun missing => ?_)
    obtain ⟨front, back, split, unanswered⟩ := invoked.unanswered missing
    rw [← sent] at split
    have same := List.append_cancel_left split
    obtain ⟨outcome, next, answered⟩ := bracketed.started front.length i.signalId i.actionId
      (by rw [same]; simp)
    refine unanswered outcome ?_ answered
    rw [same, List.getElem?_append_right (Nat.le_succ _), Nat.succ_sub (Nat.le_refl _),
      Nat.sub_self] at next
    rw [List.head?_eq_getElem?]
    exact next
  · refine brackets fun i invoked => ?_
    rcases invoked.bound with ⟨t, declared, member⟩ | ⟨reaction, declared, _, named⟩
    · exact bound t declared _ member
    · exact hooks reaction declared _ named

end

/-- Without a handler, paying the order records a start with no outcome and a
rollback with no failed action. -/
theorem refund_not_bracketed :
    ∃ log, (@sendAll Unit .ascii .keywords refundEngine [⟨"order", "pay", none⟩]).trace =
        refundEngine.trace ++ log ∧
      log[1]? = some (.actionStarted "order" "charge") ∧
      log[2]? = some (.rollbacked "order" "paid" "open") ∧ ¬ Bracketed log := by
  have sent : (@sendAll Unit .ascii .keywords refundEngine [⟨"order", "pay", none⟩]).trace =
      [.eventReceived "order" "pay" none, .actionStarted "order" "charge",
        .rollbacked "order" "paid" "open"] := by
    decide +kernel
  refine ⟨_, sent, rfl, rfl, fun bracketed => ?_⟩
  obtain ⟨outcome, next, answered⟩ := bracketed.started 1 "order" "charge" rfl
  cases next
  cases answered

end SignalTopology
