import SignalTopology.Engine.Reached
import SignalTopology.Engine.Run
import SignalTopology.Engine.Schedule

/-!
# The actions a call runs

An `Invocation` is one call of `run_action`. `Invokes` lists the places where
the code makes one: the three phases of a transition, each action after the ones
before it have succeeded, and the hook of a reaction whose cascade failed. The
`ActionStarted` events of a run are exactly those of its invocations.
-/

namespace SignalTopology

open Sequencing TopologyEngine

variable {W : Type}

/-- One call of `run_action`. -/
structure Invocation (W : Type) where
  signalId : String
  actionId : String
  ctx : ActionContext
  engine : TopologyEngine W

namespace Invocation

def run (i : Invocation W) : Except EngineError Unit × TopologyEngine W :=
  runAction i.signalId i.actionId i.ctx i.engine

/-- The action has a callback, so the lookup of `run_action` succeeds. -/
def Found (i : Invocation W) : Prop := i.engine.Registered i.actionId

theorem found_iff (i : Invocation W) :
    i.Found ↔ ∀ actionId, i.run.1 ≠ .error (.actionNotFound actionId) := by
  obtain ⟨missing, ran⟩ | ⟨found, engine', ran, _⟩ | ⟨found, error, engine', ran, _⟩ :=
    runAction_cases i.signalId i.actionId i.ctx i.engine
  · refine ⟨fun found => ?_, fun never => ?_⟩
    · rw [Found, Registered, missing] at found
      cases found
    · exact absurd (by rw [run, ran]) (never i.actionId)
  · refine ⟨fun _ actionId => ?_, fun _ => found⟩
    rw [run, ran]
    exact fun missing => by cases missing
  · refine ⟨fun _ actionId => ?_, fun _ => found⟩
    rw [run, ran]
    exact fun missing => by cases missing

theorem run_missing {i : Invocation W} (missing : ¬ i.Found) :
    i.run.1 = .error (.actionNotFound i.actionId) := by
  obtain ⟨_, ran⟩ | ⟨found, _⟩ | ⟨found, _⟩ :=
    runAction_cases i.signalId i.actionId i.ctx i.engine
  · rw [run, ran]
  · exact absurd found missing
  · exact absurd found missing

end Invocation

/-- The loop over `ids` comes to the invocation `i`. -/
structure Comes (ctx : ActionContext) (ids : List String) (engine : TopologyEngine W)
    (i : Invocation W) : Prop where
  signalId : i.signalId = ctx.signalId
  context : i.ctx = ctx
  reached : ∃ front back, ids = front ++ i.actionId :: back ∧
    runActions ctx front engine = (.ok (), i.engine)

variable [RustStd] [SerdeJson]

namespace Call

/-- The transition the call runs and the context of its actions. -/
def Picks (c : Call W) (transition : TransitionDef) (ctx : ActionContext) : Prop :=
  ∃ signal, c.engine.signals.lookup c.signalId = some signal ∧
    c.engine.findTransition c.signalId c.event signal.current = some transition ∧
    ctx = ⟨c.signalId, signal.current, transition.toState, c.event, c.payload, none⟩ ∧
    checkGuard transition ctx = .ok ()

/-- The engine right after the event of the call is recorded. -/
def received (c : Call W) : TopologyEngine W := c.engine.receive c.signalId c.event c.payload

/-- The calls of `run_action` that `c` makes, apart from the calls it delivers. -/
inductive Invokes (limit : Nat) (c : Call W) : Invocation W → Prop where
  | exit {transition ctx i} (within : c.depth ≤ limit) (picks : c.Picks transition ctx)
      (comes : Comes ctx transition.actions.onExit c.received i) : Invokes limit c i
  | enter {transition ctx u i} (within : c.depth ≤ limit) (picks : c.Picks transition ctx)
      (exits : runActions ctx transition.actions.onExit c.received = (.ok (), u))
      (comes : Comes ctx (transition.actions.onTransition ++ transition.actions.onEnter)
        (u.setCurrent ctx.signalId ctx.toState) i) : Invokes limit c i
  | hook {reaction c' e x actionId} (delivers : c.Delivers limit reaction c')
      (failed : c'.run limit = (.error e, x)) (named : reaction.onFail = some actionId) :
      Invokes limit c
        ⟨reaction.toSignal, actionId, hookContext reaction c.parentPayload e x, x⟩

theorem attempt_cases (c : Call W) :
    (∃ e, c.attempt = (.error e, c.received)) ∨
    ∃ transition ctx, c.Picks transition ctx ∧
      c.attempt = c.received.runTransition ctx transition.actions := by
  obtain ⟨e, rejected⟩ | ⟨signal, transition, ctx, known, found, same, checked, attempted⟩ :=
    c.engine.attemptTransition_cases c.signalId c.event c.payload
  · exact .inl ⟨e, rejected⟩
  · exact .inr ⟨transition, ctx, ⟨signal, known, found, same, checked⟩, attempted⟩

variable {limit : Nat} {c c' : Call W}

theorem Picks.attempt {transition : TransitionDef} {ctx : ActionContext}
    (h : c.Picks transition ctx) :
    c.attempt = c.received.runTransition ctx transition.actions := by
  obtain ⟨signal, known, found, rfl, checked⟩ := h
  have known' : c.received.signals.lookup c.signalId = some signal := known
  have found' : c.received.findTransition c.signalId c.event signal.current = some transition :=
    found
  unfold received at *
  simp only [Call.attempt, attemptTransition, known', found', checked]

theorem Picks.declared {transition : TransitionDef} {ctx : ActionContext}
    (h : c.Picks transition ctx) : transition ∈ c.engine.transitions := by
  obtain ⟨_, _, found, _⟩ := h
  exact (findTransition_some found).1

theorem Delivers.declared {reaction : ReactionDef} (h : c.Delivers limit reaction c') :
    reaction ∈ c.engine.reactions := by
  obtain ⟨v, ⟨_, result, u, front, back, committed, split, _⟩, _⟩ := h.fired
  have kept := (sameTopology_elementary.attemptTransition c.engine c.signalId c.event
    c.payload).reactions
  rw [attempt] at committed
  rw [committed] at kept
  have matched : reaction ∈ u.matchingReactions c.signalId result.toState :=
    @order_subset _ ReactionDef.joinGroup ReactionDef.requires _ _
      (by rw [← agenda, split]; simp)
  rw [← kept]
  exact List.mem_of_mem_filter matched

/-- An invoked action is bound by a transition or is the hook of a reaction that
failed. -/
theorem Invokes.bound {i : Invocation W} (h : c.Invokes limit i) :
    (∃ t ∈ c.engine.transitions, i.actionId ∈ t.actions.allActions) ∨
    ∃ reaction c' e x, c.Delivers limit reaction c' ∧ c'.run limit = (.error e, x) ∧
      reaction.onFail = some i.actionId := by
  cases h with
  | @exit transition ctx _ within picks comes =>
      obtain ⟨front, back, split, _⟩ := comes.reached
      exact .inl ⟨transition, picks.declared, by simp [ActionBinding.allActions, split]⟩
  | @enter transition ctx u _ within picks exits comes =>
      obtain ⟨front, back, split, _⟩ := comes.reached
      refine .inl ⟨transition, picks.declared, ?_⟩
      rw [ActionBinding.allActions, List.append_assoc, split]
      simp
  | hook delivers failed named => exact .inr ⟨_, _, _, _, delivers, failed, named⟩

theorem Reached.sameTopology (h : c.Reached limit c') : SameTopology c.engine c'.engine :=
  h.on_path.1.rel sameTopology_elementary

/-- An action is looked up among the callbacks registered before the call. -/
theorem Invokes.actions {i : Invocation W} (h : c.Invokes limit i) :
    i.engine.actions = c.engine.actions := by
  have comes {ctx : ActionContext} {ids : List String} {engine : TopologyEngine W}
      (comes : Comes ctx ids engine i) : i.engine.actions = engine.actions := by
    obtain ⟨front, _, _, reached⟩ := comes.reached
    obtain ⟨events, acted, _⟩ := runActions_acted ctx front engine
    rw [reached] at acted
    exact acted.actions
  cases h with
  | exit within picks invoked =>
      have same := comes invoked
      exact same
  | @enter transition ctx u _ within picks exits invoked =>
      obtain ⟨events, acted, _⟩ := runActions_acted ctx transition.actions.onExit c.received
      rw [exits] at acted
      rw [comes invoked, setCurrent_actions, acted.actions]
      rfl
  | @hook reaction c' e x actionId delivers failed named =>
      have before := (delivers.on_path.1.rel sameTopology_elementary).actions
      have after := (sameTopology_elementary.run limit c').actions
      rw [failed] at after
      exact after.trans before

/-! ## Invocations and `ActionStarted` -/

/-- Every `ActionStarted` between two engines belongs to an invocation in `P`. -/
def StartedBy (P : Invocation W → Prop) (s t : TopologyEngine W) : Prop :=
  ∃ events, t.trace = s.trace ++ events ∧ ∀ signalId actionId,
    .actionStarted signalId actionId ∈ events →
      ∃ i, P i ∧ i.signalId = signalId ∧ i.actionId = actionId

namespace StartedBy

variable {P : Invocation W → Prop} {s t u : TopologyEngine W}

omit [RustStd] [SerdeJson]

theorem refl (s : TopologyEngine W) : StartedBy P s s :=
  ⟨[], (List.append_nil _).symm, by simp⟩

theorem trans (first : StartedBy P s t) (second : StartedBy P t u) : StartedBy P s u := by
  obtain ⟨events, log, known⟩ := first
  obtain ⟨events', log', known'⟩ := second
  refine ⟨events ++ events', by rw [log', log, List.append_assoc], ?_⟩
  intro signalId actionId member
  exact (List.mem_append.mp member).elim (known signalId actionId) (known' signalId actionId)

theorem push {ev : TraceEvent}
    (other : ∀ signalId actionId, ev ≠ .actionStarted signalId actionId) :
    StartedBy P s (s.push ev) := by
  refine ⟨[ev], rfl, fun signalId actionId member => ?_⟩
  exact absurd (List.mem_singleton.mp member).symm (other signalId actionId)

theorem runAction {i : Invocation W} (member : P i) : StartedBy P i.engine i.run.2 := by
  have only {ev : TraceEvent} (other : ∀ s a, ev ≠ .actionStarted s a) : ∀ signalId actionId,
      .actionStarted signalId actionId ∈ [.actionStarted i.signalId i.actionId, ev] →
        ∃ i, P i ∧ i.signalId = signalId ∧ i.actionId = actionId := by
    intro signalId actionId started
    rcases List.mem_cons.mp started with same | last
    · cases same
      exact ⟨i, member, rfl, rfl⟩
    · exact absurd (List.mem_singleton.mp last).symm (other signalId actionId)
  obtain ⟨_, ran⟩ | ⟨_, engine', ran, acted⟩ | ⟨_, error, engine', ran, acted⟩ :=
    runAction_cases i.signalId i.actionId i.ctx i.engine
  · rw [Invocation.run, ran]
    refine ⟨_, rfl, fun signalId actionId started => ?_⟩
    cases List.mem_singleton.mp started
    exact ⟨i, member, rfl, rfl⟩
  · rw [Invocation.run, ran]
    exact ⟨_, acted.trace, only fun _ _ => by simp⟩
  · rw [Invocation.run, ran]
    exact ⟨_, acted.trace, only fun _ _ => by simp⟩

theorem runActions {ctx : ActionContext} {ids : List String} {engine : TopologyEngine W}
    (comes : ∀ i, Comes ctx ids engine i → P i) :
    StartedBy P engine (runActions ctx ids engine).2 := by
  refine runAll_along refl trans fun front actionId back u split reached => ?_
  exact runAction (i := ⟨ctx.signalId, actionId, ctx, u⟩)
    (comes _ ⟨rfl, rfl, front, back, split, reached⟩)

theorem setCurrent (signalId state : String) :
    StartedBy P s (s.setCurrent signalId state) :=
  ⟨[], by simp, by simp⟩

end StartedBy

theorem attempt_startedBy (within : c.depth ≤ limit) :
    StartedBy (c.Invokes limit) c.engine c.attempt.2 := by
  have received : StartedBy (c.Invokes limit) c.engine c.received :=
    .push fun _ _ => by simp
  obtain ⟨e, rejected⟩ | ⟨transition, ctx, picks, attempted⟩ := c.attempt_cases
  · rw [rejected]
    exact received
  · have exit : StartedBy (c.Invokes limit) c.received
        (TopologyEngine.runActions ctx transition.actions.onExit c.received).2 :=
      .runActions fun i comes => .exit within picks comes
    rw [attempted]
    obtain ⟨e, u, exits, ran⟩ | ⟨e, u, v, exits, enters, ran⟩ | ⟨u, v, exits, enters, ran⟩ :=
      runTransition_cases ctx transition.actions c.received
    · rw [exits] at exit
      rw [ran]
      exact received.trans exit
    all_goals
      have enter : StartedBy (c.Invokes limit) (u.setCurrent ctx.signalId ctx.toState)
          (TopologyEngine.runActions ctx
            (transition.actions.onTransition ++ transition.actions.onEnter)
            (u.setCurrent ctx.signalId ctx.toState)).2 :=
        .runActions fun i comes => .enter within picks exits comes
      rw [exits] at exit
      rw [enters] at enter
      rw [ran]
      have entered := (received.trans exit).trans ((StartedBy.setCurrent _ _).trans enter)
    · exact entered.trans ((StartedBy.setCurrent _ _).trans (.push fun _ _ => by simp))
    · exact entered.trans (.push fun _ _ => by simp)

theorem OwnSegment.startedBy {s t : TopologyEngine W} (h : c.OwnSegment limit s t) :
    StartedBy (c.Invokes limit) s t := by
  cases h with
  | attempt within => exact attempt_startedBy within
  | @gate reaction _ fires =>
      obtain ⟨_, same⟩ | ⟨guard, passed, result, _, same⟩ :=
        gate_cases reaction c.parentPayload c.signalId s
      · rw [Call.gate, same]
        exact .refl s
      · rw [Call.gate, same]
        exact .push fun _ _ => by simp
  | @hook reaction c' e _ delivers failed =>
      obtain ⟨_, same⟩ | ⟨actionId, ctx, named, rfl, same⟩ :=
        compensate_cases reaction c.parentPayload c.signalId e s
      · rw [Call.compensate, same]
        exact .refl s
      · rw [Call.compensate, same]
        have hooked := StartedBy.runAction (Invokes.hook delivers failed named)
        exact hooked.trans (.push fun _ _ => by simp [compensated])

/-- The actions that the run of `c` starts are the ones its calls invoke. -/
theorem run_startedBy (limit : Nat) (c : Call W) :
    StartedBy (fun i => ∃ c', c.Reached limit c' ∧ c'.Invokes limit i) c.engine
      (c.run limit).2 := by
  have path := run_path limit c
  generalize (c.run limit).2 = final at path ⊢
  induction path with
  | refl => exact .refl c.engine
  | tail _ last ih =>
      obtain ⟨c', reached, own⟩ := last
      obtain ⟨events, log, known⟩ := own.startedBy
      refine ih.trans ⟨events, log, fun signalId actionId member => ?_⟩
      obtain ⟨i, invoked, same⟩ := known signalId actionId member
      exact ⟨i, ⟨c', reached, invoked⟩, same⟩

end Call

/-! ## Runs -/

/-- `i` is a call of `run_action` in the run that sends `events`. -/
def InvokedIn (engine : TopologyEngine W) (events : List Event) (i : Invocation W) : Prop :=
  ∃ before ev after, events = before ++ ev :: after ∧
    ∃ c', (ev.call (sendAll engine before)).Reached engine.maxCascadeDepth c' ∧
      c'.Invokes engine.maxCascadeDepth i

/-- The cascade of `reaction` fails in the run that sends `events`. -/
def CompensatedIn (engine : TopologyEngine W) (events : List Event) (reaction : ReactionDef) :
    Prop :=
  ∃ before ev after, events = before ++ ev :: after ∧
    ∃ c' c'' e x, (ev.call (sendAll engine before)).Reached engine.maxCascadeDepth c' ∧
      c'.Delivers engine.maxCascadeDepth reaction c'' ∧
      c''.run engine.maxCascadeDepth = (.error e, x)

theorem InvokedIn.actions {engine : TopologyEngine W} {events : List Event} {i : Invocation W}
    (h : InvokedIn engine events i) : i.engine.actions = engine.actions := by
  obtain ⟨before, ev, _, _, c', reached, invoked⟩ := h
  rw [invoked.actions, reached.sameTopology.actions]
  exact (sendAll_sameTopology engine before).actions

/-- An action of the run is bound by a transition or is the hook of a reaction
whose cascade failed. -/
theorem InvokedIn.bound {engine : TopologyEngine W} {events : List Event} {i : Invocation W}
    (h : InvokedIn engine events i) :
    (∃ t ∈ engine.transitions, i.actionId ∈ t.actions.allActions) ∨
      ∃ reaction ∈ engine.reactions, CompensatedIn engine events reaction ∧
        reaction.onFail = some i.actionId := by
  obtain ⟨before, ev, after, split, c', reached, invoked⟩ := h
  have sent := sendAll_sameTopology engine before
  have kept := reached.sameTopology
  rcases invoked.bound with ⟨t, declared, bound⟩ | ⟨reaction, c'', e, x, delivers, failed, named⟩
  · rw [kept.transitions] at declared
    exact .inl ⟨t, sent.transitions ▸ declared, bound⟩
  · have declared := delivers.declared
    rw [kept.reactions] at declared
    exact .inr ⟨reaction, sent.reactions ▸ declared,
      ⟨before, ev, after, split, c', c'', e, x, reached, delivers, failed⟩, named⟩

end SignalTopology
