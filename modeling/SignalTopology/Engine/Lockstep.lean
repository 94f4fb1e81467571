import SignalTopology.Engine.Influence
import SignalTopology.Library.TwoRuns

/-!
# Engines in lockstep

Two engines whose difference no step looks at do the same. A step reads the
signals it is about, the transitions and the registered callbacks; a relation
that agrees on these and that elementary updates keep is kept by every attempt,
guard and hook, and the outcomes are equal.
-/

namespace SignalTopology

open Sequencing TopologyEngine

variable {W : Type}

/-- A relation between engines that agree on the signals of `S` and on what
callbacks answer, kept by every elementary update on both sides. -/
structure Lockstep (S : Set String) (R : TopologyEngine W → TopologyEngine W → Prop) : Prop where
  current : ∀ {s t}, R s t → ∀ id ∈ S, t.current id = s.current id
  push : ∀ {s t}, R s t → ∀ ev, R (s.push ev) (t.push ev)
  setCurrent : ∀ {s t}, R s t → ∀ signalId state,
    R (s.setCurrent signalId state) (t.setCurrent signalId state)
  runAction : ∀ {s t}, R s t → ∀ signalId actionId ctx,
    Agree R (runAction signalId actionId ctx s) (runAction signalId actionId ctx t)

/-- Engines with the same callbacks in the same world run an action alike. -/
theorem agree_runAction {R : TopologyEngine W → TopologyEngine W → Prop}
    (push : ∀ {s t}, R s t → ∀ ev, R (s.push ev) (t.push ev))
    (call : ∀ {s t}, R s t → ∀ world, R { s with world } { t with world })
    {s t : TopologyEngine W} (related : R s t) (actions : t.actions = s.actions)
    (world : t.world = s.world) (signalId actionId : String) (ctx : ActionContext) :
    Agree R (runAction signalId actionId ctx s) (runAction signalId actionId ctx t) := by
  have started := push related (.actionStarted signalId actionId)
  cases found : s.actions.lookup actionId with
  | none =>
      have found' : t.actions.lookup actionId = none := by rw [actions, found]
      simp only [runAction, push_actions, found, found']
      exact ⟨rfl, started⟩
  | some action =>
      have found' : t.actions.lookup actionId = some action := by rw [actions, found]
      rcases called : action ctx s.world with ⟨e | _, world'⟩ <;>
        simp only [runAction, push_actions, push_world, found, found', world, called]
      · exact ⟨rfl, push (call started world') _⟩
      · exact ⟨rfl, push (call started world') _⟩

namespace Lockstep

variable {S : Set String} {R : TopologyEngine W → TopologyEngine W → Prop} (h : Lockstep S R)
variable {s t : TopologyEngine W}

include h

theorem runActions (ctx : ActionContext) (ids : List String) (related : R s t) :
    Agree R (runActions ctx ids s) (runActions ctx ids t) :=
  runAll_agree (fun id _ _ _ related => h.runAction related ctx.signalId id ctx) related

theorem runTransition (ctx : ActionContext) (actions : ActionBinding) (related : R s t) :
    Agree R (runTransition ctx actions s) (runTransition ctx actions t) := by
  have exit := h.runActions ctx actions.onExit related
  obtain ⟨e, u, exits, ran⟩ | ⟨e, u, v, exits, enters, ran⟩ | ⟨u, v, exits, enters, ran⟩ :=
    runTransition_cases ctx actions s
  · obtain ⟨u', exits', after⟩ := exit.eq exits
    rw [ran, runTransition_exit exits']
    exact ⟨rfl, after⟩
  · obtain ⟨u', exits', exited⟩ := exit.eq exits
    obtain ⟨v', enters', entered⟩ := (h.runActions ctx (actions.onTransition ++ actions.onEnter)
      (h.setCurrent exited ctx.signalId ctx.toState)).eq enters
    rw [ran, runTransition_rollback exits' enters']
    exact ⟨rfl, h.push (h.setCurrent entered _ _) _⟩
  · obtain ⟨u', exits', exited⟩ := exit.eq exits
    obtain ⟨v', enters', entered⟩ := (h.runActions ctx (actions.onTransition ++ actions.onEnter)
      (h.setCurrent exited ctx.signalId ctx.toState)).eq enters
    rw [ran, runTransition_commit exits' enters']
    exact ⟨rfl, h.push entered _⟩

theorem currentOrDefault (related : R s t) {id : String} (own : id ∈ S) :
    t.currentOrDefault id = s.currentOrDefault id := by
  rw [TopologyEngine.currentOrDefault, h.current related id own]
  rfl

theorem compensate {reaction : ReactionDef} (own : reaction.toSignal ∈ S)
    (parentPayload : Option JsonValue) (transitionSignal : String) (e : EngineError)
    (related : R s t) : R (compensate reaction parentPayload transitionSignal e s)
      (compensate reaction parentPayload transitionSignal e t) := by
  unfold TopologyEngine.compensate
  cases reaction.onFail with
  | none => exact related
  | some actionId =>
      dsimp only
      have same : hookContext reaction parentPayload e t =
          hookContext reaction parentPayload e s := by
        rw [hookContext, h.currentOrDefault related own]
        rfl
      rw [same]
      exact h.push (h.runAction related _ _ _).2 _

variable [RustStd] [SerdeJson]

theorem gate {reaction : ReactionDef} (own : reaction.toSignal ∈ S)
    (parentPayload : Option JsonValue) (transitionSignal : String) (related : R s t) :
    Agree R (gate reaction parentPayload transitionSignal s)
      (gate reaction parentPayload transitionSignal t) := by
  unfold TopologyEngine.gate
  cases reaction.guard with
  | none => exact ⟨rfl, related⟩
  | some guard =>
      dsimp only
      rw [h.currentOrDefault related own]
      exact ⟨rfl, h.push related _⟩

/-- Engines with the same transitions attempt alike. -/
theorem attemptTransition (transitions : t.transitions = s.transitions) {signalId : String}
    (own : signalId ∈ S) (event : String) (payload : Option JsonValue) (related : R s t) :
    Agree R (s.attemptTransition signalId event payload)
      (t.attemptTransition signalId event payload) := by
  have received : R (s.receive signalId event payload) (t.receive signalId event payload) :=
    h.push related _
  have chosen : ∀ state, (t.receive signalId event payload).findTransition signalId event state =
      (s.receive signalId event payload).findTransition signalId event state := by
    intro state
    unfold findTransition receive
    rw [push_transitions, push_transitions, transitions]
  have same := h.current received signalId own
  rw [TopologyEngine.current, TopologyEngine.current] at same
  unfold TopologyEngine.attemptTransition
  dsimp only
  cases known : (s.receive signalId event payload).signals.lookup signalId with
  | none =>
      rw [known, Option.map_none, Option.map_eq_none_iff] at same
      rw [same]
      exact ⟨rfl, received⟩
  | some signal =>
      rw [known] at same
      obtain ⟨signal', known', state⟩ := Option.map_eq_some_iff.mp same
      rw [known']
      dsimp only
      rw [chosen, state]
      cases (s.receive signalId event payload).findTransition signalId event signal.current with
      | none => exact ⟨rfl, received⟩
      | some transition =>
          dsimp only
          cases checkGuard transition
              ⟨signalId, signal.current, transition.toState, event, payload, none⟩ with
          | error e => exact ⟨rfl, received⟩
          | ok => exact h.runTransition _ _ received

end Lockstep

namespace Call

/-- The same call on another engine. -/
def on (c : Call W) (engine : TopologyEngine W) : Call W := { c with engine }

variable [RustStd] [SerdeJson]

/-- A reaction fires alike when the call it delivers goes alike. -/
theorem fire_agree {S : Set String} {R : TopologyEngine W → TopologyEngine W → Prop}
    (h : Lockstep S R) (c : Call W) {limit : Nat} {reaction : ReactionDef}
    (target : reaction.toSignal ∈ S) {s s' : TopologyEngine W}
    (nested : ∀ u u', c.gate reaction s = (true, u) → R u u' →
      Agree R ((c.deliver reaction u).run limit) ((c.deliver reaction u').run limit))
    (related : R s s') : Agree R (c.fire limit reaction s) (c.fire limit reaction s') := by
  have gated := h.gate target c.parentPayload c.signalId related
  obtain ⟨w, skipped, same⟩ | ⟨w, result, x, passed, ran, same⟩ | ⟨w, e, x, passed, ran, same⟩ :=
    c.fire_cases limit reaction s
  · obtain ⟨w', skipped', after⟩ := gated.eq skipped
    rw [same, fire_skipped skipped']
    exact ⟨rfl, after⟩
  · obtain ⟨w', passed', after⟩ := gated.eq passed
    obtain ⟨x', ran', done⟩ := (nested w w' passed after).eq ran
    rw [same, fire_delivered passed' ran']
    exact ⟨rfl, done⟩
  · obtain ⟨w', passed', after⟩ := gated.eq passed
    obtain ⟨x', ran', done⟩ := (nested w w' passed after).eq ran
    rw [same, fire_failed passed' ran']
    exact ⟨rfl, h.compensate target c.parentPayload c.signalId e done⟩

/-- A success of a reaction can be repeated when that of its call can. -/
theorem fire_follows {S : Set String} {R : TopologyEngine W → TopologyEngine W → Prop}
    (h : Lockstep S R) (c : Call W) {limit limit' : Nat} {reaction : ReactionDef}
    (target : reaction.toSignal ∈ S)
    (nested : ∀ u u', R u u' →
      Follows R ((c.deliver reaction u).run limit) ((c.deliver reaction u').run limit'))
    {s s' : TopologyEngine W} (related : R s s') :
    Follows R (c.fire limit reaction s) (c.fire limit' reaction s') := by
  rintro ⟨⟩ final ended
  have gated := h.gate target c.parentPayload c.signalId related
  obtain ⟨w, skipped, same⟩ | ⟨w, delivered, x, passed, ran, same⟩ | ⟨_, _, _, _, _, same⟩ :=
    c.fire_cases limit reaction s <;> rw [same] at ended <;> cases ended
  · obtain ⟨w', skipped', after⟩ := gated.eq skipped
    exact ⟨w', fire_skipped skipped', after⟩
  · obtain ⟨w', passed', after⟩ := gated.eq passed
    obtain ⟨x', ran', done⟩ := nested w w' after delivered final ran
    exact ⟨x', fire_delivered passed' ran', done⟩

/-- A successful call is repeated from a related engine with the same topology,
under any limit that is not lower. -/
theorem run_follows {S : Set String} {R : TopologyEngine W → TopologyEngine W → Prop}
    (h : Lockstep S R)
    (topology : ∀ {s t}, R s t → t.transitions = s.transitions ∧ t.reactions = s.reactions)
    (closed : ∀ {s t}, R s t → ∀ id ∈ S, ∀ id', Edge s.reactions id id' → id' ∈ S)
    {limit limit' : Nat} (deeper : limit ≤ limit') (c : Call W) {t : TopologyEngine W}
    (own : c.signalId ∈ S) (related : R c.engine t) :
    Follows R (c.run limit) ((c.on t).run limit') := by
  induction c using nested_induction limit generalizing t with
  | step c nested =>
      intro result last ended
      obtain ⟨_, ran⟩ | ⟨_, e, u, _, ran⟩ | ⟨within, result, u, v, committed, all, ran⟩ |
        ⟨_, _, _, e, v, _, _, ran⟩ := c.run_cases limit <;> rw [ran] at ended <;> cases ended
      obtain ⟨u', committed', after⟩ := (h.attemptTransition (topology related).1 own c.event
        c.payload related).eq committed
      have fires : ∀ reaction ∈ c.agenda result u, ∀ s s', R s s' →
          Follows R (c.fire limit reaction s) (c.fire limit' reaction s') := by
        intro reaction fired s s' between
        have target : reaction.toSignal ∈ S := closed after _ own _ (agenda_edge fired)
        exact c.fire_follows h target (fun _ _ => nested within reaction _ target) between
      obtain ⟨v', all', done⟩ := runAll_follows fires after () last all
      have agenda : (c.on t).agenda result u' = c.agenda result u := by
        rw [Call.agenda, matchingReactions, (topology after).2]
        rfl
      have fire : (c.on t).fire limit' = c.fire limit' := rfl
      refine ⟨v', ?_, done⟩
      rw [run_committed limit' (c.on t) (le_trans within deeper) committed', agenda, fire, all']

end Call

end SignalTopology
