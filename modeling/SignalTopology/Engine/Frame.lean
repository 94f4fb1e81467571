import SignalTopology.Engine.Cascade

/-!
# What every call keeps

A call changes an engine only by elementary updates: it appends to the trace,
lets a callback change its world, and assigns the current state of a signal.
A relation that composes and holds across these three holds across every call.
-/

namespace SignalTopology

open Sequencing

variable {W : Type}

/-- A relation that every elementary update respects. -/
structure Elementary (R : TopologyEngine W → TopologyEngine W → Prop) : Prop where
  refl : ∀ s, R s s
  trans : ∀ {s t u}, R s t → R t u → R s u
  push : ∀ (engine : TopologyEngine W) event, R engine (engine.push event)
  call : ∀ (engine : TopologyEngine W) world, R engine { engine with world }
  setCurrent : ∀ (engine : TopologyEngine W) signalId state,
    R engine (engine.setCurrent signalId state)

namespace Elementary

open TopologyEngine

variable {R : TopologyEngine W → TopologyEngine W → Prop} (h : Elementary R)

include h

theorem runAction (signalId actionId : String) (ctx : ActionContext) (engine : TopologyEngine W) :
    R engine (runAction signalId actionId ctx engine).2 := by
  have started := h.push engine (.actionStarted signalId actionId)
  unfold TopologyEngine.runAction
  dsimp only
  split
  · exact started
  · split
    · exact h.trans started (h.trans (h.call _ _) (h.push _ _))
    · exact h.trans started (h.trans (h.call _ _) (h.push _ _))

theorem runActions (ctx : ActionContext) (ids : List String) (engine : TopologyEngine W) :
    R engine (runActions ctx ids engine).2 :=
  runAll_rel h.refl h.trans (fun id _ => h.runAction ctx.signalId id ctx) engine

theorem runTransition (ctx : ActionContext) (actions : ActionBinding)
    (engine : TopologyEngine W) : R engine (runTransition ctx actions engine).2 := by
  have exit := h.runActions ctx actions.onExit engine
  obtain ⟨e, u, exits, ran⟩ | ⟨e, u, v, exits, enters, ran⟩ | ⟨u, v, exits, enters, ran⟩ :=
    runTransition_cases ctx actions engine
  · rw [exits] at exit
    rw [ran]
    exact exit
  all_goals
    have enter := h.runActions ctx (actions.onTransition ++ actions.onEnter)
      (u.setCurrent ctx.signalId ctx.toState)
    rw [exits] at exit
    rw [enters] at enter
    rw [ran]
    have entered := h.trans exit (h.trans (h.setCurrent u ctx.signalId ctx.toState) enter)
  · exact h.trans entered (h.trans (h.setCurrent v _ _) (h.push _ _))
  · exact h.trans entered (h.push v _)

theorem compensate (reaction : ReactionDef) (parentPayload : Option JsonValue)
    (transitionSignal : String) (e : EngineError) (engine : TopologyEngine W) :
    R engine (compensate reaction parentPayload transitionSignal e engine) := by
  obtain ⟨_, same⟩ | ⟨actionId, ctx, _, _, same⟩ :=
    compensate_cases reaction parentPayload transitionSignal e engine
  · rw [same]
    exact h.refl engine
  · rw [same]
    exact h.trans (h.runAction _ _ _ _) (h.push _ _)

variable [RustStd] [SerdeJson]

theorem attemptTransition (engine : TopologyEngine W) (signalId event : String)
    (payload : Option JsonValue) :
    R engine (engine.attemptTransition signalId event payload).2 := by
  have received : R engine (engine.receive signalId event payload) := h.push engine _
  obtain ⟨e, rejected⟩ | ⟨_, transition, ctx, _, _, _, _, attempted⟩ :=
    engine.attemptTransition_cases signalId event payload
  · rw [rejected]
    exact received
  · rw [attempted]
    exact h.trans received (h.runTransition ctx transition.actions _)

theorem gate (reaction : ReactionDef) (parentPayload : Option JsonValue)
    (transitionSignal : String) (engine : TopologyEngine W) :
    R engine (gate reaction parentPayload transitionSignal engine).2 := by
  obtain ⟨_, same⟩ | ⟨guard, passed, result, _, same⟩ :=
    gate_cases reaction parentPayload transitionSignal engine
  · rw [same]
    exact h.refl engine
  · rw [same]
    exact h.push engine _

theorem run (limit : Nat) (c : Call W) : R c.engine (c.run limit).2 :=
  Call.run_rel h.refl h.trans
    (fun c => h.attemptTransition c.engine c.signalId c.event c.payload)
    (fun c reaction engine => h.gate reaction c.parentPayload c.signalId engine)
    (fun c reaction e engine => h.compensate reaction c.parentPayload c.signalId e engine) limit c

theorem fire (limit : Nat) (c : Call W) (reaction : ReactionDef) (engine : TopologyEngine W) :
    R engine (c.fire limit reaction engine).2 := by
  have gated := h.gate reaction c.parentPayload c.signalId engine
  obtain ⟨u, skipped, fired⟩ | ⟨u, result, v, passed, ran, fired⟩ | ⟨u, e, v, passed, ran, fired⟩ :=
    c.fire_cases limit reaction engine
  · rw [Call.gate] at skipped
    rw [skipped] at gated
    rw [fired]
    exact gated
  all_goals
    rw [Call.gate] at passed
    rw [passed] at gated
    have delivered := h.run limit (c.deliver reaction u)
    rw [ran] at delivered
    rw [fired]
  · exact h.trans gated delivered
  · exact h.trans (h.trans gated delivered) (h.compensate reaction c.parentPayload c.signalId e v)

end Elementary

/-- Everything a call only reads. -/
structure SameTopology (engine engine' : TopologyEngine W) : Prop where
  transitions : engine'.transitions = engine.transitions
  reactions : engine'.reactions = engine.reactions
  actions : engine'.actions = engine.actions
  maxCascadeDepth : engine'.maxCascadeDepth = engine.maxCascadeDepth

theorem sameTopology_elementary : Elementary (SameTopology (W := W)) where
  refl _ := ⟨rfl, rfl, rfl, rfl⟩
  trans first second := ⟨second.transitions.trans first.transitions,
    second.reactions.trans first.reactions, second.actions.trans first.actions,
    second.maxCascadeDepth.trans first.maxCascadeDepth⟩
  push _ _ := ⟨rfl, rfl, rfl, rfl⟩
  call _ _ := ⟨rfl, rfl, rfl, rfl⟩
  setCurrent engine signalId state :=
    ⟨by simp, by simp, by simp, by unfold TopologyEngine.setCurrent; split <;> rfl⟩

/-- The trace only grows. -/
theorem trace_elementary : Elementary fun engine engine' : TopologyEngine W =>
    engine.trace <+: engine'.trace where
  refl _ := List.prefix_rfl
  trans := List.IsPrefix.trans
  push _ _ := List.prefix_append _ _
  call _ _ := List.prefix_rfl
  setCurrent engine signalId state := by
    rw [TopologyEngine.setCurrent_trace]

end SignalTopology
