import SignalTopology.Engine.Influence

/-!
# What a successful `send_event` did

A send that returns `Ok` chose the first transition that matches, found its guard true,
ran every bound action once, and then dispatched the reactions. The state it reports is
kept as long as no chain of reactions leads back to the signal.
-/

namespace SignalTopology

open Sequencing TopologyEngine

variable {W : Type}

/-- The callbacks of the actions succeed one after the other and take the world from the
first value to the second. -/
inductive Ran (actions : HashMap (ActionFn W)) (ctx : ActionContext) :
    List String → W → W → Prop where
  | nil (world : W) : Ran actions ctx [] world world
  | cons {actionId : String} {f : ActionFn W} {ids : List String} {world world' world'' : W}
      (found : actions.lookup actionId = some f) (called : f ctx world = (.ok (), world'))
      (rest : Ran actions ctx ids world' world'') : Ran actions ctx (actionId :: ids) world world''

/-- What successful actions record. -/
def actionEvents (signalId : String) (ids : List String) : List TraceEvent :=
  ids.flatMap fun actionId => [.actionStarted signalId actionId, .actionSucceeded signalId actionId]

/-- A transition declared for the event of a signal in a state, or in any state. -/
def TransitionDef.Matches (t : TransitionDef) (signalId event state : String) : Prop :=
  t.signalId = signalId ∧ t.event = event ∧ (t.fromState = state ∨ t.fromState = "*")

/-- The first match of the list. -/
def FirstMatch (transitions : List TransitionDef) (signalId event state : String)
    (transition : TransitionDef) : Prop :=
  ∃ before behind, transitions = before ++ transition :: behind ∧
    transition.Matches signalId event state ∧ ∀ t ∈ before, ¬ t.Matches signalId event state

namespace Ran

variable {actions : HashMap (ActionFn W)} {ctx : ActionContext} {ids ids' : List String}
  {world world' world'' : W}

theorem append (first : Ran actions ctx ids world world')
    (second : Ran actions ctx ids' world' world'') :
    Ran actions ctx (ids ++ ids') world world'' := by
  induction first with
  | nil => exact second
  | cons found called _ ih => exact .cons found called (ih second)

end Ran

theorem actionEvents_append (signalId : String) (ids ids' : List String) :
    actionEvents signalId (ids ++ ids') = actionEvents signalId ids ++ actionEvents signalId ids' :=
  List.flatMap_append

namespace TopologyEngine

theorem runAction_ok {signalId actionId : String} {ctx : ActionContext}
    {engine after : TopologyEngine W}
    (ran : runAction signalId actionId ctx engine = (.ok (), after)) :
    ∃ f world, engine.actions.lookup actionId = some f ∧ f ctx engine.world = (.ok (), world) ∧
      after = { engine with
        world, trace := engine.trace ++ actionEvents signalId [actionId] } := by
  unfold runAction at ran
  cases found : engine.actions.lookup actionId with
  | none =>
      simp only [push_actions, found] at ran
      cases ran
  | some f =>
      simp only [push_actions, found, push_world] at ran
      rcases called : f ctx engine.world with ⟨e | _, world⟩
      · rw [called] at ran
        cases ran
      · rw [called] at ran
        cases ran
        refine ⟨f, world, rfl, called, ?_⟩
        simp [push, actionEvents]

/-- A phase that succeeds runs each of its actions once, in order. -/
theorem runActions_ok {ctx : ActionContext} {ids : List String} {engine after : TopologyEngine W}
    (ran : runActions ctx ids engine = (.ok (), after)) :
    ∃ world, Ran engine.actions ctx ids engine.world world ∧
      after = { engine with world, trace := engine.trace ++ actionEvents ctx.signalId ids } := by
  induction ids generalizing engine with
  | nil =>
      cases ran
      exact ⟨after.world, .nil after.world, by simp [actionEvents]⟩
  | cons actionId ids ih =>
      obtain ⟨t, first⟩ | ⟨e, t, failed⟩ :=
        step_cases (fun actionId => runAction ctx.signalId actionId ctx) actionId engine
      · have further : runActions ctx (actionId :: ids) engine = runActions ctx ids t :=
          runAll_cons_ok first
        rw [further] at ran
        obtain ⟨f, world, found, called, rfl⟩ := runAction_ok first
        obtain ⟨world', rest, same⟩ := ih ran
        refine ⟨world', .cons found called rest, ?_⟩
        rw [same, List.append_assoc, ← actionEvents_append]
        rfl
      · have stopped : runActions ctx (actionId :: ids) engine = (.error e, t) :=
          runAll_cons_error failed
        rw [stopped] at ran
        cases ran

/-- Moving a signal and letting callbacks run do not interfere. -/
theorem setCurrent_ran (engine : TopologyEngine W) (world : W) (log : List TraceEvent)
    (signalId state : String) :
    { engine with world, trace := log }.setCurrent signalId state =
      { engine.setCurrent signalId state with world, trace := log } := by
  unfold setCurrent
  dsimp only
  split <;> rfl

theorem findTransition_first {engine : TopologyEngine W} {signalId event state : String}
    {transition : TransitionDef}
    (found : engine.findTransition signalId event state = some transition) :
    FirstMatch engine.transitions signalId event state transition := by
  obtain ⟨own, before, behind, split, others⟩ := List.find?_eq_some_iff_append.mp found
  refine ⟨before, behind, split, ?_, fun t member taken => ?_⟩
  · simpa [TransitionDef.Matches, and_assoc] using own
  · have passed := others t member
    obtain ⟨signal, named, source⟩ := taken
    simp only [signal, named, decide_true, Bool.true_and, Bool.not_eq_true', Bool.or_eq_false_iff,
      decide_eq_false_iff_not] at passed
    exact source.elim passed.1 passed.2

variable [RustStd] [SerdeJson]

theorem checkGuard_ok {transition : TransitionDef} {ctx : ActionContext}
    (checked : checkGuard transition ctx = .ok ()) :
    ∀ guard, transition.guard = some guard → Guard.evalGuard guard ctx = .ok true := by
  intro guard named
  simp only [checkGuard, named] at checked
  rcases result : Guard.evalGuard guard ctx with e | passed
  · rw [result] at checked
    cases checked
  · rw [result] at checked
    cases passed
    · cases checked
    · rfl

end TopologyEngine

/-- The engine that a transition commits: the signal is in its new state, and the
callbacks have left their world behind. -/
def TopologyEngine.committed [SerdeJson] (engine : TopologyEngine W) (ctx : ActionContext)
    (ids : List String) (world : W) : TopologyEngine W :=
  { engine.setCurrent ctx.signalId ctx.toState with
    world
    trace := engine.trace ++
      .eventReceived ctx.signalId ctx.event (ctx.payload.map SerdeJson.valueToString) ::
        (actionEvents ctx.signalId ids ++
          [.stateChanged ctx.signalId ctx.fromState ctx.toState]) }

theorem TopologyEngine.committed_reactions [SerdeJson] (engine : TopologyEngine W)
    (ctx : ActionContext) (ids : List String) (world : W) :
    (engine.committed ctx ids world).reactions = engine.reactions :=
  setCurrent_reactions engine ctx.signalId ctx.toState

theorem TopologyEngine.committed_current [SerdeJson] (engine : TopologyEngine W)
    (ctx : ActionContext) (ids : List String) (world : W) (id : String) :
    (engine.committed ctx ids world).current id =
      if id = ctx.signalId then (engine.current id).map fun _ => ctx.toState
      else engine.current id :=
  current_setCurrent engine ctx.signalId ctx.toState id

section

variable [RustStd] [SerdeJson]

omit [RustStd] in
theorem TopologyEngine.runTransition_ok {ctx : ActionContext} {actions : ActionBinding}
    {engine after : TopologyEngine W} {result : TransitionResult}
    (ran : runTransition ctx actions (engine.receive ctx.signalId ctx.event ctx.payload) =
      (.ok result, after)) :
    ∃ world, Ran engine.actions ctx actions.allActions engine.world world ∧
      result = ⟨ctx.signalId, ctx.fromState, ctx.toState, actions.allActions⟩ ∧
      after = engine.committed ctx actions.allActions world := by
  obtain ⟨e, u, exits, same⟩ | ⟨e, u, v, exits, enters, same⟩ | ⟨u, v, exits, enters, same⟩ :=
    runTransition_cases ctx actions (engine.receive ctx.signalId ctx.event ctx.payload)
  · rw [same] at ran
    cases ran
  · rw [same] at ran
    cases ran
  · rw [same] at ran
    cases ran
    obtain ⟨world, exited, left⟩ := runActions_ok exits
    obtain ⟨world', entered, rfl⟩ := runActions_ok enters
    -- the callbacks of `on_exit` run on the engine that has received the event
    have exitEngine : u = { engine with
        world
        trace := engine.trace ++
          .eventReceived ctx.signalId ctx.event (ctx.payload.map SerdeJson.valueToString) ::
            actionEvents ctx.signalId actions.onExit } := by
      rw [left, List.append_cons]
      rfl
    rw [exitEngine, setCurrent_ran] at entered
    refine ⟨world', ?_, rfl, ?_⟩
    · rw [setCurrent_actions] at entered
      rw [ActionBinding.allActions, List.append_assoc]
      exact exited.append entered
    · have log : ((engine.trace ++ TraceEvent.eventReceived ctx.signalId ctx.event
          (ctx.payload.map SerdeJson.valueToString) :: actionEvents ctx.signalId actions.onExit) ++
          actionEvents ctx.signalId (actions.onTransition ++ actions.onEnter)) ++
            [.stateChanged ctx.signalId ctx.fromState ctx.toState] =
          engine.trace ++ .eventReceived ctx.signalId ctx.event
            (ctx.payload.map SerdeJson.valueToString) ::
              (actionEvents ctx.signalId actions.allActions ++
                [.stateChanged ctx.signalId ctx.fromState ctx.toState]) := by
        simp [actionEvents_append, ActionBinding.allActions]
      rw [exitEngine, setCurrent_ran, committed, ← log]
      rfl

namespace Call

variable {limit : Nat}

/-- The state of a signal outlives a reaction that no chain leads back from. -/
theorem fire_current {c : Call W} {reaction : ReactionDef} {s t : TopologyEngine W} {id : String}
    (outside : ¬ Influences s.reactions reaction.toSignal id)
    (fired : c.fire limit reaction s = (.ok (), t)) :
    t.reactions = s.reactions ∧ t.current id = s.current id := by
  have gated : ∀ {passed u}, c.gate reaction s = (passed, u) →
      u.reactions = s.reactions ∧ u.current id = s.current id := by
    intro passed u ran
    obtain ⟨_, same⟩ | ⟨guard, _, result, _, same⟩ :=
      gate_cases reaction c.parentPayload c.signalId s
    · rw [Call.gate, same] at ran
      cases ran
      exact ⟨rfl, rfl⟩
    · rw [Call.gate, same] at ran
      cases ran
      exact ⟨rfl, rfl⟩
  obtain ⟨u, skipped, same⟩ | ⟨u, result, v, passed, ran, same⟩ | ⟨u, e, v, passed, ran, same⟩ :=
    c.fire_cases limit reaction s
  · rw [same] at fired
    cases fired
    exact gated skipped
  · rw [same] at fired
    cases fired
    obtain ⟨reactions, state⟩ := gated passed
    have topology := (sameTopology_elementary.run limit (c.deliver reaction u)).reactions
    have kept := (run_touches limit (c.deliver reaction u)).current id
      (by rw [deliver_engine, reactions]; exact outside)
    rw [ran, deliver_engine] at topology kept
    exact ⟨topology.trans reactions, kept.trans state⟩
  · rw [same] at fired
    cases fired

/-- The dispatch of a call keeps the state of a signal that its reactions do not lead
to. -/
theorem dispatch_current {c : Call W} {result : TransitionResult} {u v : TopologyEngine W}
    {id : String} (outside : ¬ Relation.TransGen (Edge u.reactions) c.signalId id)
    (fired : runAll (c.fire limit) (c.agenda result u) u = (.ok (), v)) :
    v.current id = u.current id := by
  have kept : u.reactions = u.reactions → v.reactions = u.reactions ∧
      v.current id = u.current id := by
    refine runAll_rel_ok (R := fun s t => s.reactions = u.reactions →
      t.reactions = u.reactions ∧ t.current id = s.current id) (fun s same =>
        ⟨same, rfl⟩) ?_ ?_ fired
    · intro r s t first second same
      obtain ⟨same', state⟩ := first same
      obtain ⟨same'', state'⟩ := second same'
      exact ⟨same'', state'.trans state⟩
    · intro reaction member s t stepped same
      have apart : ¬ Influences s.reactions reaction.toSignal id := by
        rw [same]
        exact fun reaches => outside (.head' (agenda_edge member) reaches)
      obtain ⟨reactions, state⟩ := fire_current apart stepped
      exact ⟨reactions.trans same, state⟩
  exact (kept rfl).2

end Call

/-- What a send that succeeds did. The callbacks of the first transition that matches ran
once each, in the order of the phases, before the dispatch of the reactions began; and the
signal is left in the target state unless reactions lead back to it. -/
theorem sendEvent_ok {engine after : TopologyEngine W} {signalId event : String}
    {payload : Option JsonValue} {result : TransitionResult}
    (sent : engine.sendEvent signalId event payload = (.ok result, after)) :
    ∃ state transition ctx world,
      engine.current signalId = some state ∧
      FirstMatch engine.transitions signalId event state transition ∧
      ctx = ⟨signalId, state, transition.toState, event, payload, none⟩ ∧
      (∀ guard, transition.guard = some guard → Guard.evalGuard guard ctx = .ok true) ∧
      result = ⟨signalId, state, transition.toState, transition.actions.allActions⟩ ∧
      Ran engine.actions ctx transition.actions.allActions engine.world world ∧
      dispatchReactions engine.maxCascadeDepth (engine.matchingReactions signalId result.toState)
        payload 0 signalId (engine.committed ctx transition.actions.allActions world) =
          (.ok (), after) ∧
      (¬ Relation.TransGen (Edge engine.reactions) signalId signalId →
        after.current signalId = some result.toState) := by
  rw [Call.sendEvent_eq] at sent
  obtain ⟨_, ran⟩ | ⟨_, e, u, _, ran⟩ | ⟨within, result', u, v, attempted, fired, ran⟩ |
    ⟨_, result', u, e, v, _, _, ran⟩ :=
      (Call.top engine signalId event payload).run_cases engine.maxCascadeDepth
  · rw [ran] at sent
    cases sent
  · rw [ran] at sent
    cases sent
  · rw [ran] at sent
    cases sent
    rw [Call.attempt] at attempted
    obtain ⟨e, rejected⟩ | ⟨signal, transition, ctx, known, found, context, checked, started⟩ :=
      engine.attemptTransition_cases signalId event payload
    · rw [Call.top, rejected] at attempted
      cases attempted
    · rw [Call.top, started] at attempted
      subst context
      obtain ⟨world, callbacks, rfl, rfl⟩ := runTransition_ok attempted
      have state : engine.current signalId = some signal.current := by rw [current, known]; rfl
      refine ⟨signal.current, transition, _, world, state, findTransition_first found, rfl,
        checkGuard_ok checked, rfl, callbacks, ?_, fun acyclic => ?_⟩
      · rw [dispatchReactions, dispatch_eq, matchingReactions, ← committed_reactions engine _
          transition.actions.allActions world]
        exact fired
      · rw [← committed_reactions engine _ transition.actions.allActions world] at acyclic
        rw [Call.dispatch_current acyclic fired, committed_current, if_pos rfl, state]
        rfl
  · rw [ran] at sent
    cases sent

end

/-- A door that lights a lamp when it is opened. The world counts the callbacks. -/
def doorEngine : TopologyEngine Nat where
  signals := signalTable (·.initialState)
    [⟨"door", "closed", ["closed", "open"]⟩, ⟨"lamp", "off", ["off", "on"]⟩]
  transitions := [
    { signalId := "door", fromState := "closed", event := "push", toState := "open"
      actions := { onExit := ["unlatch"], onEnter := ["chime"] } },
    { signalId := "door", fromState := "*", event := "push", toState := "closed" },
    { signalId := "lamp", fromState := "*", event := "light", toState := "on" }]
  reactions := [
    { fromSignal := "door", fromState := "open", toSignal := "lamp", event := "light" }]
  actions := ["unlatch", "chime"].foldl
    (fun table actionId => table.insert actionId fun _ count => (.ok (), count + 1)) ∅
  trace := []
  maxCascadeDepth := 8
  world := 0

theorem doorEngine_ok : ∃ after ctx world,
    @sendEvent Nat .ascii .keywords doorEngine "door" "push" none =
      (.ok ⟨"door", "closed", "open", ["unlatch", "chime"]⟩, after) ∧
    Ran doorEngine.actions ctx ["unlatch", "chime"] 0 world ∧
    after.current "door" = some "open" := by
  have succeeds : (@sendEvent Nat .ascii .keywords doorEngine "door" "push" none).1 =
      .ok ⟨"door", "closed", "open", ["unlatch", "chime"]⟩ := by decide +kernel
  have sent : @sendEvent Nat .ascii .keywords doorEngine "door" "push" none =
      (.ok ⟨"door", "closed", "open", ["unlatch", "chime"]⟩, _) := Prod.ext succeeds rfl
  have acyclic : ¬ Relation.TransGen (Edge doorEngine.reactions) "door" "door" := by
    intro cycle
    obtain ⟨_, _, r, declared, _, target⟩ := Relation.TransGen.tail'_iff.mp cycle
    obtain rfl := List.mem_singleton.mp declared
    exact absurd target (by decide)
  obtain ⟨state, transition, ctx, world, _, _, _, _, same, callbacks, _, kept⟩ :=
    @sendEvent_ok Nat .ascii .keywords _ _ "door" "push" none _ sent
  have actions := congrArg TransitionResult.executedActions same
  refine ⟨_, ctx, world, sent, ?_, kept acyclic⟩
  rw [← show ["unlatch", "chime"] = transition.actions.allActions from actions] at callbacks
  exact callbacks

end SignalTopology
