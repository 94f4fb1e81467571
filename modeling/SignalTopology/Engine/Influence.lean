import SignalTopology.Engine.Invocations

/-!
# What a cascade can touch

The reactions of a topology are the edges of a graph on its signals. A call reaches
deliveries only along these edges, and each stretch of its run touches only the
signal of its own call and the targets of the reactions it fires. So no call moves a
signal, or records an event of one, that the graph does not reach.
-/

namespace SignalTopology

open TopologyEngine

variable {W : Type}

/-- Some reaction leads from the first signal to the second. -/
def Edge (reactions : List ReactionDef) (fromSignal toSignal : String) : Prop :=
  ∃ r ∈ reactions, r.fromSignal = fromSignal ∧ r.toSignal = toSignal

/-- Reactions lead from the first signal to the second in any number of steps. -/
abbrev Influences (reactions : List ReactionDef) : String → String → Prop :=
  Relation.ReflTransGen (Edge reactions)

/-- From `s` to `t`, signals outside `reach` keep their state and no event of one is
recorded. -/
structure Touches (reach : String → Prop) (s t : TopologyEngine W) : Prop where
  current : ∀ id, ¬ reach id → t.current id = s.current id
  log : ∃ events, t.trace = s.trace ++ events ∧ ∀ ev ∈ events, reach ev.signalId

namespace Touches

variable {reach : String → Prop} {s t u : TopologyEngine W}

theorem refl (s : TopologyEngine W) : Touches reach s s :=
  ⟨fun _ _ => rfl, [], (List.append_nil _).symm, by simp⟩

theorem trans (first : Touches reach s t) (second : Touches reach t u) : Touches reach s u := by
  obtain ⟨events, log, own⟩ := first.log
  obtain ⟨events', log', own'⟩ := second.log
  refine ⟨fun id outside => (second.current id outside).trans (first.current id outside),
    events ++ events', by rw [log', log, List.append_assoc], fun ev member => ?_⟩
  exact (List.mem_append.mp member).elim (own ev) (own' ev)

theorem push (s : TopologyEngine W) {ev : TraceEvent} (own : reach ev.signalId) :
    Touches reach s (s.push ev) :=
  ⟨fun _ _ => rfl, [ev], rfl, by simpa using own⟩

theorem setCurrent (s : TopologyEngine W) {signalId : String} (own : reach signalId)
    (state : String) : Touches reach s (s.setCurrent signalId state) := by
  refine ⟨fun id outside => ?_, [], by simp, by simp⟩
  have other : id ≠ signalId := by
    rintro rfl
    exact outside own
  rw [TopologyEngine.current, setCurrent_lookup, if_neg other, TopologyEngine.current]

theorem runAction {signalId : String} (own : reach signalId) (actionId : String)
    (ctx : ActionContext) (s : TopologyEngine W) :
    Touches reach s (runAction signalId actionId ctx s).2 := by
  have acted : ∀ {t : TopologyEngine W} {events : List TraceEvent}, Acted s events t →
      (∀ ev ∈ events, ev.signalId = signalId) → Touches reach s t := by
    intro t events acted same
    refine ⟨fun id _ => ?_, events, acted.trace, fun ev member => same ev member ▸ own⟩
    rw [TopologyEngine.current, acted.signals, TopologyEngine.current]
  obtain ⟨_, ran⟩ | ⟨_, t, ran, ends⟩ | ⟨_, error, t, ran, ends⟩ :=
    runAction_cases signalId actionId ctx s
  · rw [ran]
    exact push s own
  · rw [ran]
    exact acted ends (by simp [TraceEvent.signalId])
  · rw [ran]
    exact acted ends (by simp [TraceEvent.signalId])

theorem runActions {ctx : ActionContext} (own : reach ctx.signalId) (ids : List String)
    (s : TopologyEngine W) : Touches reach s (runActions ctx ids s).2 :=
  Sequencing.runAll_rel refl trans (fun id _ s => runAction own id ctx s) s

theorem runTransition {ctx : ActionContext} (own : reach ctx.signalId) (actions : ActionBinding)
    (s : TopologyEngine W) : Touches reach s (runTransition ctx actions s).2 := by
  have exit := runActions own actions.onExit s
  obtain ⟨e, u, exits, ran⟩ | ⟨e, u, v, exits, enters, ran⟩ | ⟨u, v, exits, enters, ran⟩ :=
    runTransition_cases ctx actions s
  · rw [exits] at exit
    rw [ran]
    exact exit
  all_goals
    have enter := runActions own (actions.onTransition ++ actions.onEnter)
      (u.setCurrent ctx.signalId ctx.toState)
    rw [exits] at exit
    rw [enters] at enter
    rw [ran]
    have entered := exit.trans ((setCurrent u own ctx.toState).trans enter)
  · exact entered.trans ((setCurrent v own ctx.fromState).trans (push _ own))
  · exact entered.trans (push v own)

end Touches

variable [RustStd] [SerdeJson]

namespace Call

omit [RustStd] [SerdeJson] in
theorem mem_agenda {c : Call W} {result : TransitionResult} {engine : TopologyEngine W}
    {reaction : ReactionDef} (fired : reaction ∈ c.agenda result engine) :
    reaction ∈ engine.reactions ∧ reaction.fromSignal = c.signalId := by
  obtain ⟨declared, source⟩ := List.mem_filter.mp (order_subset fired)
  simp only [Bool.and_eq_true, decide_eq_true_eq] at source
  exact ⟨declared, source.1⟩

omit [RustStd] [SerdeJson] in
/-- The reactions of a dispatch lead away from the signal that committed. -/
theorem agenda_edge {c : Call W} {result : TransitionResult} {engine : TopologyEngine W}
    {reaction : ReactionDef} (fired : reaction ∈ c.agenda result engine) :
    Edge engine.reactions c.signalId reaction.toSignal := by
  obtain ⟨declared, source⟩ := mem_agenda fired
  exact ⟨reaction, declared, source, rfl⟩

variable {limit : Nat} {c c' : Call W}

/-- A reaction that the dispatch comes to leads away from the signal of the call. -/
theorem Fires.edge {reaction : ReactionDef} {v : TopologyEngine W}
    (h : c.Fires limit reaction v) : Edge c.engine.reactions c.signalId reaction.toSignal := by
  obtain ⟨_, result, u, front, back, committed, split, _⟩ := h
  have kept := (sameTopology_elementary.attemptTransition c.engine c.signalId c.event
    c.payload).reactions
  rw [attempt] at committed
  rw [committed] at kept
  have fired : reaction ∈ c.agenda result u := by
    rw [split]
    exact List.mem_append_right front List.mem_cons_self
  exact kept ▸ agenda_edge fired

theorem Delivers.edge {reaction : ReactionDef} (h : c.Delivers limit reaction c') :
    Edge c.engine.reactions c.signalId c'.signalId := by
  obtain ⟨v, w, fires, _, rfl⟩ := h
  exact fires.edge

/-- A call is reached along reactions. -/
theorem Reached.influences (h : c.Reached limit c') :
    Influences c.engine.reactions c.signalId c'.signalId := by
  induction h with
  | refl => exact .refl
  | tail reached delivers ih =>
      obtain ⟨reaction, delivers⟩ := delivers
      have edge := delivers.edge
      rw [Reached.sameTopology reached |>.reactions] at edge
      exact ih.tail edge

/-- A stretch of a call touches its own signal and the targets of its reactions. -/
theorem OwnSegment.touches {s t : TopologyEngine W} (h : c.OwnSegment limit s t)
    {reach : String → Prop} (own : reach c.signalId)
    (next : ∀ id, Edge c.engine.reactions c.signalId id → reach id) : Touches reach s t := by
  cases h with
  | attempt within =>
      have received : Touches reach c.engine c.received := .push c.engine own
      obtain ⟨e, rejected⟩ | ⟨transition, ctx, picks, attempted⟩ := c.attempt_cases
      · rw [rejected]
        exact received
      · obtain ⟨signal, _, _, rfl, _⟩ := picks
        rw [attempted]
        exact received.trans (.runTransition own transition.actions c.received)
  | @gate reaction _ fires =>
      obtain ⟨_, same⟩ | ⟨guard, passed, result, _, same⟩ :=
        gate_cases reaction c.parentPayload c.signalId s
      · rw [Call.gate, same]
        exact .refl s
      · rw [Call.gate, same]
        exact .push s own
  | @hook reaction c' e _ delivers failed =>
      have target : reach reaction.toSignal := by
        obtain ⟨v, w, fires, _, rfl⟩ := delivers
        exact next _ fires.edge
      obtain ⟨_, same⟩ | ⟨actionId, ctx, _, _, same⟩ :=
        compensate_cases reaction c.parentPayload c.signalId e s
      · rw [Call.compensate, same]
        exact .refl s
      · rw [Call.compensate, same]
        exact (Touches.runAction target actionId ctx s).trans (.push _ own)

/-- A call touches what its signal influences. -/
theorem run_touches (limit : Nat) (c : Call W) :
    Touches (Influences c.engine.reactions c.signalId) c.engine (c.run limit).2 := by
  have along : ∀ {s t}, c.Path limit s t →
      Touches (Influences c.engine.reactions c.signalId) s t := by
    intro s t path
    induction path with
    | refl => exact .refl s
    | tail _ last ih =>
        obtain ⟨c', reached, own⟩ := last
        refine ih.trans (own.touches reached.influences fun id edge => ?_)
        rw [reached.sameTopology.reactions] at edge
        exact reached.influences.tail edge
  exact along (run_path limit c)

end Call

/-- An event sent to one signal keeps the state of every signal that no chain of
reactions leads to, and records no event of such a signal. -/
theorem sendEvent_influence (engine : TopologyEngine W) (signalId event : String)
    (payload : Option JsonValue) :
    (∀ id, ¬ Influences engine.reactions signalId id →
      (engine.sendEvent signalId event payload).2.current id = engine.current id) ∧
    ∃ events, (engine.sendEvent signalId event payload).2.trace = engine.trace ++ events ∧
      ∀ id, ¬ Influences engine.reactions signalId id → ∀ ev ∈ events, ev.signalId ≠ id := by
  have touched := Call.run_touches engine.maxCascadeDepth (.top engine signalId event payload)
  obtain ⟨events, log, own⟩ := touched.log
  refine ⟨touched.current, events, log, fun id outside ev member same => ?_⟩
  subst same
  exact outside (own ev member)

end SignalTopology
