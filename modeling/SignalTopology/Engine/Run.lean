import SignalTopology.Engine.Frame

/-!
# Runs

What a host does with an engine in memory: send events, register callbacks and
set the depth limit. Between two of these the world shared with the callbacks
may change in any way.
-/

namespace SignalTopology

variable {W : Type} [RustStd] [SerdeJson]

inductive HostStep : TopologyEngine W → TopologyEngine W → Prop where
  | sendEvent (engine signalId event payload) :
      HostStep engine (engine.sendEvent signalId event payload).2
  | registerAction (engine actionId f) : HostStep engine (engine.registerAction actionId f)
  | setMaxCascadeDepth (engine depth) : HostStep engine (engine.setMaxCascadeDepth depth)
  | environment (engine world) : HostStep engine { engine with world }

/-- Any finite sequence of steps. -/
abbrev HostRun : TopologyEngine W → TopologyEngine W → Prop := Relation.ReflTransGen HostStep

/-- The arguments of one `send_event`. -/
structure Event where
  signalId : String
  event : String
  payload : Option JsonValue

/-- The engine after a sequence of `send_event` calls, whatever they returned. -/
def sendAll (engine : TopologyEngine W) (events : List Event) : TopologyEngine W :=
  events.foldl (fun engine ev => (engine.sendEvent ev.signalId ev.event ev.payload).2) engine

/-- The call that sends an event. -/
def Event.call (ev : Event) (engine : TopologyEngine W) : Call W :=
  .top engine ev.signalId ev.event ev.payload

theorem sendAll_append (engine : TopologyEngine W) (events : List Event) (ev : Event) :
    sendAll engine (events ++ [ev]) =
      ((ev.call (sendAll engine events)).run (sendAll engine events).maxCascadeDepth).2 := by
  simp [sendAll, Event.call, Call.sendEvent_eq]

/-- A relation that holds across every call holds across a sequence of calls. -/
theorem sendAll_rel {R : TopologyEngine W → TopologyEngine W → Prop} (refl : ∀ s, R s s)
    (trans : ∀ {s t u}, R s t → R t u → R s u)
    (run : ∀ (limit : Nat) (c : Call W), R c.engine (c.run limit).2) (engine : TopologyEngine W)
    (events : List Event) : R engine (sendAll engine events) := by
  induction events using List.reverseRecOn with
  | nil => exact refl engine
  | append_singleton events ev ih =>
      rw [sendAll_append]
      exact trans ih (run _ (ev.call (sendAll engine events)))

theorem sendAll_elementary {R : TopologyEngine W → TopologyEngine W → Prop} (h : Elementary R)
    (engine : TopologyEngine W) (events : List Event) : R engine (sendAll engine events) :=
  sendAll_rel h.refl h.trans h.run engine events

theorem sendAll_sameTopology (engine : TopologyEngine W) (events : List Event) :
    SameTopology engine (sendAll engine events) :=
  sendAll_elementary sameTopology_elementary engine events

end SignalTopology
