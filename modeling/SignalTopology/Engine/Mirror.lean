import SignalTopology.Engine.Influence
import SignalTopology.Engine.Lockstep

/-!
# Engines that mirror a part of another

Two engines, each with a world of its own, of which the second shows the first on the
signals of a set: on these both are in the same states and choose the same transitions and
reactions, and callbacks answer alike. `Mirrors` collects what a relation between such
engines has to keep at each elementary update; every call about a signal of the set then
ends alike on both, however deep its cascade goes.
-/

namespace SignalTopology

open Sequencing TopologyEngine

variable {A W : Type}

namespace TopologyEngine

variable (engine : TopologyEngine W) (signalId state : String)

@[simp] theorem setCurrent_world : (engine.setCurrent signalId state).world = engine.world := by
  unfold setCurrent
  split <;> rfl

@[simp] theorem setCurrent_maxCascadeDepth :
    (engine.setCurrent signalId state).maxCascadeDepth = engine.maxCascadeDepth := by
  unfold setCurrent
  split <;> rfl

end TopologyEngine

/-- A relation between logs that is kept when both record the same event. -/
def Grows (Q : List TraceEvent → List TraceEvent → Prop) : Prop :=
  ∀ log log' ev, Q log log' → Q (log ++ [ev]) (log' ++ [ev])

/-- A relation between engines that agree on the signals of `S` and on all that is declared
for them, kept by the elementary updates of both at signals of `S`. -/
structure Mirrors (S : Set String) (R : TopologyEngine A → TopologyEngine W → Prop) : Prop where
  current : ∀ {s t}, R s t → ∀ id ∈ S, t.current id = s.current id
  findTransition : ∀ {s t}, R s t → ∀ id ∈ S, ∀ event state,
    t.findTransition id event state = s.findTransition id event state
  matchingReactions : ∀ {s t}, R s t → ∀ id ∈ S, ∀ state,
    t.matchingReactions id state = s.matchingReactions id state
  closed : ∀ {s t}, R s t → ∀ id ∈ S, ∀ id', Edge s.reactions id id' → id' ∈ S
  push : ∀ {s t}, R s t → ∀ ev : TraceEvent, ev.signalId ∈ S → R (s.push ev) (t.push ev)
  setCurrent : ∀ {s t}, R s t → ∀ id ∈ S, ∀ state, R (s.setCurrent id state) (t.setCurrent id state)
  call : ∀ {s t}, R s t → ∀ actionId (ctx : ActionContext), ctx.signalId ∈ S →
    Option.Rel (fun f g => Agree (fun a w => R { s with world := a } { t with world := w })
      (f ctx s.world) (g ctx t.world)) (s.actions.lookup actionId) (t.actions.lookup actionId)

namespace Mirrors

variable {S : Set String} {R : TopologyEngine A → TopologyEngine W → Prop} (h : Mirrors S R)
variable {s : TopologyEngine A} {t : TopologyEngine W}

include h

theorem runAction {ctx : ActionContext} (own : ctx.signalId ∈ S) (actionId : String)
    (related : R s t) :
    Agree R (runAction ctx.signalId actionId ctx s) (runAction ctx.signalId actionId ctx t) := by
  have started := h.push related (.actionStarted ctx.signalId actionId) own
  have called := h.call started actionId ctx own
  rw [push_actions, push_actions, push_world, push_world] at called
  unfold TopologyEngine.runAction
  dsimp only
  rw [push_actions, push_actions, push_world, push_world]
  rcases found : s.actions.lookup actionId with _ | f <;>
    rcases found' : t.actions.lookup actionId with _ | g <;>
    rw [found, found'] at called <;> cases called
  · exact ⟨rfl, started⟩
  next answer =>
    rcases first : f ctx s.world with ⟨outcome, a⟩
    rcases second : g ctx t.world with ⟨outcome', w⟩
    rw [first, second] at answer
    obtain ⟨same, after⟩ := answer
    dsimp only at same after ⊢
    subst same
    rw [first, second]
    cases outcome with
    | error e =>
        exact ⟨rfl, h.push after (.actionFailed ctx.signalId actionId (failureMessage e)) own⟩
    | ok => exact ⟨rfl, h.push after (.actionSucceeded ctx.signalId actionId) own⟩

theorem runActions {ctx : ActionContext} (own : ctx.signalId ∈ S) (ids : List String)
    (related : R s t) :
    Agree R (runActions ctx ids s) (runActions ctx ids t) :=
  runAll_agree (fun id _ _ _ related => h.runAction own id related) related

theorem runTransition {ctx : ActionContext} (own : ctx.signalId ∈ S) (actions : ActionBinding)
    (related : R s t) : Agree R (runTransition ctx actions s) (runTransition ctx actions t) := by
  have exit := h.runActions own actions.onExit related
  obtain ⟨e, u, exits, ran⟩ | ⟨e, u, v, exits, enters, ran⟩ | ⟨u, v, exits, enters, ran⟩ :=
    runTransition_cases ctx actions s
  · obtain ⟨u', exits', after⟩ := exit.eq exits
    rw [ran, runTransition_exit exits']
    exact ⟨rfl, after⟩
  all_goals
    obtain ⟨u', exits', exited⟩ := exit.eq exits
    obtain ⟨v', enters', entered⟩ := (h.runActions own (actions.onTransition ++ actions.onEnter)
      (h.setCurrent exited ctx.signalId own ctx.toState)).eq enters
  · rw [ran, runTransition_rollback exits' enters']
    exact ⟨rfl, h.push (h.setCurrent entered _ own _) _ own⟩
  · rw [ran, runTransition_commit exits' enters']
    exact ⟨rfl, h.push entered _ own⟩

theorem currentOrDefault (related : R s t) {id : String} (own : id ∈ S) :
    t.currentOrDefault id = s.currentOrDefault id := by
  rw [TopologyEngine.currentOrDefault, h.current related id own]
  rfl

theorem compensate {reaction : ReactionDef} (target : reaction.toSignal ∈ S)
    (parentPayload : Option JsonValue) {transitionSignal : String} (own : transitionSignal ∈ S)
    (e : EngineError) (related : R s t) : R (compensate reaction parentPayload transitionSignal e s)
      (compensate reaction parentPayload transitionSignal e t) := by
  unfold TopologyEngine.compensate
  cases reaction.onFail with
  | none => exact related
  | some actionId =>
      dsimp only
      have same : hookContext reaction parentPayload e t =
          hookContext reaction parentPayload e s := by
        rw [hookContext, h.currentOrDefault related target]
        rfl
      rw [same]
      exact h.push (@runAction _ _ S R h s t (hookContext reaction parentPayload e s) target
        actionId related).2 _ own

variable [RustStd] [SerdeJson]

theorem gate {reaction : ReactionDef} (target : reaction.toSignal ∈ S)
    (parentPayload : Option JsonValue) {transitionSignal : String} (own : transitionSignal ∈ S)
    (related : R s t) : Agree R (gate reaction parentPayload transitionSignal s)
      (gate reaction parentPayload transitionSignal t) := by
  unfold TopologyEngine.gate
  cases reaction.guard with
  | none => exact ⟨rfl, related⟩
  | some guard =>
      dsimp only
      rw [h.currentOrDefault related target]
      exact ⟨rfl, h.push related _ own⟩

theorem attemptTransition {signalId : String} (own : signalId ∈ S) (event : String)
    (payload : Option JsonValue) (related : R s t) :
    Agree R (s.attemptTransition signalId event payload)
      (t.attemptTransition signalId event payload) := by
  have received : R (s.receive signalId event payload) (t.receive signalId event payload) :=
    h.push related _ own
  have same := h.current received signalId own
  rw [TopologyEngine.current, TopologyEngine.current] at same
  unfold TopologyEngine.attemptTransition
  dsimp only
  cases known : (s.receive signalId event payload).signals.lookup signalId with
  | none =>
      rw [known, Option.map_none, Option.map_eq_none_iff] at same
      rw [same]
      exact ⟨rfl, received⟩
  | some signal =>
      rw [known] at same
      obtain ⟨signal', known', state⟩ := Option.map_eq_some_iff.mp same
      rw [known']
      dsimp only
      rw [h.findTransition received signalId own, state]
      cases (s.receive signalId event payload).findTransition signalId event signal.current with
      | none => exact ⟨rfl, received⟩
      | some transition =>
          dsimp only
          cases checkGuard transition
              ⟨signalId, signal.current, transition.toState, event, payload, none⟩ with
          | error e => exact ⟨rfl, received⟩
          | ok => exact h.runTransition own _ received

end Mirrors

namespace Call

/-- The same call on an engine with another world. -/
def onto (c : Call A) (engine : TopologyEngine W) : Call W where
  signalId := c.signalId
  event := c.event
  payload := c.payload
  parentPayload := c.parentPayload
  depth := c.depth
  engine := engine

variable [RustStd] [SerdeJson]

section

variable {R : TopologyEngine A → TopologyEngine W → Prop} {limit limit' : Nat}
variable {c : Call A} {c' : Call W}

/-- A reaction fires alike where its guard, its call and its hook go alike. -/
theorem fire_alike {reaction : ReactionDef} {u : TopologyEngine A} {v : TopologyEngine W}
    (gated : Agree R (c.gate reaction u) (c'.gate reaction v))
    (nested : ∀ w w', R w w' →
      Agree R ((c.deliver reaction w).run limit) ((c'.deliver reaction w').run limit'))
    (hook : ∀ e w w', R w w' → R (c.compensate reaction e w) (c'.compensate reaction e w')) :
    Agree R (c.fire limit reaction u) (c'.fire limit' reaction v) := by
  obtain ⟨w, skipped, same⟩ | ⟨w, result, x, passed, ran, same⟩ | ⟨w, e, x, passed, ran, same⟩ :=
    c.fire_cases limit reaction u
  · obtain ⟨w', skipped', after⟩ := gated.eq skipped
    rw [same, fire_skipped skipped']
    exact ⟨rfl, after⟩
  all_goals
    obtain ⟨w', passed', after⟩ := gated.eq passed
    obtain ⟨x', ran', done⟩ := (nested w w' after).eq ran
  · rw [same, fire_delivered passed' ran']
    exact ⟨rfl, done⟩
  · rw [same, fire_failed passed' ran']
    exact ⟨rfl, hook e x x' done⟩

/-- Two calls at the same distance from their limits end alike where their attempts and the
reactions these match go alike. -/
theorem run_alike (related : R c.engine c'.engine) (levels : limit' < c'.depth ↔ limit < c.depth)
    (attempted : Agree R c.attempt c'.attempt)
    (agenda : ∀ result u u', R u u' → c'.agenda result u' = c.agenda result u)
    (fires : c.depth ≤ limit → ∀ result u, c.attempt = (.ok result, u) →
      ∀ reaction ∈ c.agenda result u, ∀ v v', R v v' →
        Agree R (c.fire limit reaction v) (c'.fire limit' reaction v')) :
    Agree R (c.run limit) (c'.run limit') := by
  obtain ⟨deep, ran⟩ | ⟨within, e, u, rejected, ran⟩ | ⟨within, result, u, v, committed, all, ran⟩ |
    ⟨within, result, u, e, v, committed, all, ran⟩ := c.run_cases limit
  · rw [ran, run_deep limit' c' (levels.mpr deep)]
    exact ⟨rfl, related⟩
  all_goals have within' : c'.depth ≤ limit' := Nat.le_of_not_lt fun deep =>
    Nat.not_lt.mpr within (levels.mp deep)
  · obtain ⟨u', rejected', after⟩ := attempted.eq rejected
    rw [ran, run_rejected limit' c' within' rejected']
    exact ⟨rfl, after⟩
  all_goals
    obtain ⟨u', committed', after⟩ := attempted.eq committed
    have dispatched := runAll_agree (fires within result u committed) after
    rw [← agenda result u u' after] at dispatched all
    obtain ⟨v', all', done⟩ := dispatched.eq all
    rw [ran, run_committed limit' c' within' committed', all']
    exact ⟨rfl, done⟩

end

/-- A call about a signal of the part ends alike in the part and in the whole. -/
theorem run_mirrors {S : Set String} {R : TopologyEngine A → TopologyEngine W → Prop}
    (h : Mirrors S R) (limit : Nat) (c : Call A) {t : TopologyEngine W} (own : c.signalId ∈ S)
    (related : R c.engine t) : Agree R (c.run limit) ((c.onto t).run limit) := by
  induction c using nested_induction limit generalizing t with
  | step c nested =>
      have agenda : ∀ result u u', R u u' → (c.onto t).agenda result u' = c.agenda result u := by
        intro result u u' after
        rw [Call.agenda, Call.agenda]
        exact congrArg _ (h.matchingReactions after c.signalId own result.toState)
      have attempted : Agree R c.attempt (c.onto t).attempt :=
        h.attemptTransition own c.event c.payload related
      refine run_alike related Iff.rfl attempted agenda ?_
      intro within result u committed reaction fired v v' between
      obtain ⟨u', _, after⟩ := attempted.eq committed
      have target : reaction.toSignal ∈ S :=
        h.closed after c.signalId own reaction.toSignal (agenda_edge fired)
      exact fire_alike (h.gate target c.parentPayload own between)
        (fun w w' after => nested within reaction w target after)
        (fun e w w' after => h.compensate target c.parentPayload own e after)

end Call

/-- What is sent to a signal of the part ends alike under the same limit. -/
theorem Mirrors.sendEvent [RustStd] [SerdeJson] {S : Set String}
    {R : TopologyEngine A → TopologyEngine W → Prop} (h : Mirrors S R) {s : TopologyEngine A}
    {t : TopologyEngine W} (related : R s t) (limit : t.maxCascadeDepth = s.maxCascadeDepth)
    {signalId : String} (own : signalId ∈ S) (event : String) (payload : Option JsonValue) :
    Agree R (s.sendEvent signalId event payload) (t.sendEvent signalId event payload) := by
  rw [Call.sendEvent_eq, Call.sendEvent_eq, limit]
  exact Call.run_mirrors h s.maxCascadeDepth (.top s signalId event payload) own related

end SignalTopology
