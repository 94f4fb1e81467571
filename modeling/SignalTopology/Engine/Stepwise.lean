import SignalTopology.Engine.Run

/-!
# What every run keeps, action by action

`Elementary` treats a callback as any change of the world. A relation that speaks about what
callbacks do has to hold across `run_action` as a whole; the other steps of a call only write
the current state of a signal or record an event that is not about an action.
-/

namespace SignalTopology

open Sequencing

variable {W : Type}

/-- A relation that running an action keeps, and every step that runs none. -/
structure Stepwise (R : TopologyEngine W → TopologyEngine W → Prop) : Prop where
  refl : ∀ s, R s s
  trans : ∀ {s t u}, R s t → R t u → R s u
  push : ∀ (engine : TopologyEngine W) {event}, event.isAction = false →
    R engine (engine.push event)
  setCurrent : ∀ (engine : TopologyEngine W) signalId state,
    R engine (engine.setCurrent signalId state)
  runAction : ∀ actionId (ctx : ActionContext) (engine : TopologyEngine W),
    R engine (TopologyEngine.runAction ctx.signalId actionId ctx engine).2

namespace Stepwise

open TopologyEngine

variable {R : TopologyEngine W → TopologyEngine W → Prop} (h : Stepwise R)

include h

theorem runActions (ctx : ActionContext) (ids : List String) (engine : TopologyEngine W) :
    R engine (runActions ctx ids engine).2 :=
  runAll_rel h.refl h.trans (fun id _ => h.runAction id ctx) engine

theorem runTransition (ctx : ActionContext) (actions : ActionBinding)
    (engine : TopologyEngine W) : R engine (runTransition ctx actions engine).2 := by
  have exit := h.runActions ctx actions.onExit engine
  obtain ⟨e, u, exits, ran⟩ | ⟨e, u, v, exits, enters, ran⟩ | ⟨u, v, exits, enters, ran⟩ :=
    runTransition_cases ctx actions engine
  · rw [exits] at exit
    rw [ran]
    exact exit
  all_goals
    have enter := h.runActions ctx (actions.onTransition ++ actions.onEnter)
      (u.setCurrent ctx.signalId ctx.toState)
    rw [exits] at exit
    rw [enters] at enter
    rw [ran]
    have entered := h.trans exit (h.trans (h.setCurrent u ctx.signalId ctx.toState) enter)
  · exact h.trans entered (h.trans (h.setCurrent v ctx.signalId ctx.fromState) (h.push _ rfl))
  · exact h.trans entered (h.push v rfl)

variable [RustStd] [SerdeJson]

theorem run (limit : Nat) (c : Call W) : R c.engine (c.run limit).2 := by
  refine Call.run_rel h.refl h.trans (fun c => ?_) (fun c reaction engine => ?_)
    (fun c reaction e engine => ?_) limit c
  · have received : R c.engine (c.engine.receive c.signalId c.event c.payload) :=
      h.push c.engine rfl
    obtain ⟨e, rejected⟩ | ⟨_, transition, ctx, _, _, _, _, attempted⟩ :=
      c.engine.attemptTransition_cases c.signalId c.event c.payload
    · rw [Call.attempt, rejected]
      exact received
    · rw [Call.attempt, attempted]
      exact h.trans received (h.runTransition ctx transition.actions _)
  · obtain ⟨_, same⟩ | ⟨_, _, _, _, same⟩ := gate_cases reaction c.parentPayload c.signalId engine
    · rw [Call.gate, same]
      exact h.refl engine
    · rw [Call.gate, same]
      exact h.push engine rfl
  · obtain ⟨_, same⟩ | ⟨actionId, _, _, rfl, same⟩ :=
      compensate_cases reaction c.parentPayload c.signalId e engine
    · rw [Call.compensate, same]
      exact h.refl engine
    · rw [Call.compensate, same]
      have ran := h.runAction actionId (hookContext reaction c.parentPayload e engine) engine
      exact h.trans ran (h.push _ rfl)

theorem sendEvent (engine : TopologyEngine W) (signalId event : String)
    (payload : Option JsonValue) : R engine (engine.sendEvent signalId event payload).2 :=
  h.run engine.maxCascadeDepth (.top engine signalId event payload)

end Stepwise

end SignalTopology
