import SignalTopology.Platform

/-!
# Trace log and action context

`timestamp_ms` is left out of every event: it is the reading of the wall clock
and no function of the engine depends on it.
-/

namespace SignalTopology

/-- The context passed to every action callback during a transition. -/
structure ActionContext where
  signalId : String
  fromState : String
  toState : String
  event : String
  payload : Option JsonValue
  /-- The failure message when the action runs as an `on_fail` hook. -/
  failure : Option String

/-- One entry in the ordered trace log. -/
inductive TraceEvent where
  | eventReceived (signalId event : String) (payload : Option String)
  | actionStarted (signalId actionId : String)
  | actionSucceeded (signalId actionId : String)
  | actionFailed (signalId actionId error : String)
  | stateChanged (signalId fromState toState : String)
  | rollbacked (signalId fromState toState : String)
  | reactionGuardEvaluated
      (signalId reactionFromSignal reactionFromState reactionToSignal reactionEvent
        guard result : String)
  | reactionCompensated
      (signalId reactionFromSignal reactionFromState reactionToSignal reactionEvent
        actionId error : String)
  deriving DecidableEq

/-- The signal an event relates to. -/
def TraceEvent.signalId : TraceEvent → String
  | eventReceived signalId .. | actionStarted signalId .. | actionSucceeded signalId ..
  | actionFailed signalId .. | stateChanged signalId .. | rollbacked signalId ..
  | reactionGuardEvaluated signalId .. | reactionCompensated signalId .. => signalId

/-- The events that `run_action` records. -/
def TraceEvent.isAction : TraceEvent → Bool
  | actionStarted .. | actionSucceeded .. | actionFailed .. => true
  | _ => false

/-- The events of one transition between its `EventReceived` and its end. -/
def TraceEvent.isLifecycle : TraceEvent → Bool
  | stateChanged .. | rollbacked .. => true
  | ev => ev.isAction

theorem TraceEvent.isLifecycle_of_isAction {ev : TraceEvent} (action : ev.isAction = true) :
    ev.isLifecycle = true := by
  cases ev <;> simp_all [isAction, isLifecycle]

/-- The `ReactionCompensated` events. -/
def TraceEvent.isCompensation : TraceEvent → Bool
  | reactionCompensated .. => true
  | _ => false

theorem TraceEvent.not_isCompensation {ev : TraceEvent} (lifecycle : ev.isLifecycle = true) :
    ev.isCompensation = false := by
  cases ev <;> simp_all [isAction, isLifecycle, isCompensation]

/-- The steps from state to state that the log records for one signal. -/
def stateChanges (signalId : String) (log : List TraceEvent) : List (String × String) :=
  log.filterMap fun
    | .stateChanged id fromState toState =>
        if id = signalId then some (fromState, toState) else none
    | _ => none

@[simp] theorem stateChanges_nil (signalId : String) : stateChanges signalId [] = [] := rfl

@[simp] theorem stateChanges_append (signalId : String) (log log' : List TraceEvent) :
    stateChanges signalId (log ++ log') = stateChanges signalId log ++ stateChanges signalId log' :=
  List.filterMap_append

/-- No state change is recorded. -/
def Silent (log : List TraceEvent) : Prop := ∀ signalId, stateChanges signalId log = []

theorem Silent.append {log log' : List TraceEvent} (h : Silent log) (h' : Silent log') :
    Silent (log ++ log') := by
  intro signalId
  rw [stateChanges_append, h, h', List.append_nil]

theorem silent_actions {log : List TraceEvent} (actions : ∀ ev ∈ log, ev.isAction = true) :
    Silent log := by
  intro signalId
  refine List.filterMap_eq_nil_iff.mpr fun ev member => ?_
  have action := actions ev member
  cases ev with
  | stateChanged => cases action
  | _ => rfl

end SignalTopology
