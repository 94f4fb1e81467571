import Mathlib.Data.List.AList

/-!
# Errors

`EngineError` is the single error type of the crate. `toString` is the text
that `thiserror` derives; the engine puts it into trace events and into the
`failure` field of a compensation hook, so it is part of the behaviour.
-/

namespace SignalTopology

/-- The error type for every failure path in the crate. -/
inductive EngineError where
  | parseError (message : String)
  | validationError (message : String)
  | signalNotFound (signal : String)
  | stateNotFound (signal state : String)
  | transitionNotFound (signal event : String)
  | actionNotFound (action : String)
  | actionExecutionError (message : String)
  | guardEvaluationError (message : String)
  | guardBlocked (signal event guard : String)
  | reloadError (message : String)
  | persistenceError (message : String)
  | cascadeDepthExceeded
  | reactionSignalNotFound (signal : String)
  | componentNotFound (component : String)
  | missingBinding (component param : String)
  | duplicateSignalAfterExpand (signal : String)
  | invalidParamRef (component param : String)
  | unknownPort (component port : String)
  | conflictingPortConnection (component port : String)
  | portUnknownSignal (component port signal : String)
  | portUnknownState (component port signal state : String)
  | includeNotFound (path : String)
  | includeCycle (path : String)
  deriving DecidableEq

namespace EngineError

/-- The derived `Display` text. -/
def toString : EngineError → String
  | parseError message => "Parse error: " ++ message
  | validationError message => "Validation error: " ++ message
  | signalNotFound signal => "Signal not found: " ++ signal
  | stateNotFound signal state => "State not found: signal=" ++ signal ++ ", state=" ++ state
  | transitionNotFound signal event =>
      "Transition not found: signal=" ++ signal ++ ", event=" ++ event
  | actionNotFound action => "Action not found: " ++ action
  | actionExecutionError message => "Action execution error: " ++ message
  | guardEvaluationError message => "Guard evaluation error: " ++ message
  | guardBlocked signal event guard =>
      "Transition blocked by guard '" ++ guard ++ "' for signal '" ++ signal ++
        "' on event '" ++ event ++ "'"
  | reloadError message => "Reload error: " ++ message
  | persistenceError message => "Persistence error: " ++ message
  | cascadeDepthExceeded => "Cascade depth exceeded"
  | reactionSignalNotFound signal => "Reaction references unknown signal: " ++ signal
  | componentNotFound component => "Component not found: " ++ component
  | missingBinding component param =>
      "Missing binding for param '" ++ param ++ "' in component '" ++ component ++ "'"
  | duplicateSignalAfterExpand signal => "Duplicate signal id after expand: " ++ signal
  | invalidParamRef component param =>
      "Invalid param reference '$" ++ param ++ "' in component '" ++ component ++
        "' (not in params list)"
  | unknownPort component port =>
      "Connection references unknown port '" ++ port ++ "' on component '" ++ component ++ "'"
  | conflictingPortConnection component port =>
      "Port '" ++ port ++ "' on component '" ++ component ++ "' is wired to multiple targets"
  | portUnknownSignal component port signal =>
      "Port '" ++ port ++ "' on component '" ++ component ++
        "' references unknown signal '" ++ signal ++ "'"
  | portUnknownState component port signal state =>
      "Port '" ++ port ++ "' on component '" ++ component ++ "' references unknown state '" ++
        state ++ "' for signal '" ++ signal ++ "'"
  | includeNotFound path => "Include file not found: " ++ path
  | includeCycle path => "Cyclic include detected: " ++ path

end EngineError

end SignalTopology
