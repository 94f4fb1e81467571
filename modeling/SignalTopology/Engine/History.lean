import SignalTopology.Engine.Run
import SignalTopology.Engine.Validation
import SignalTopology.Library.Walk

/-!
# The log of state changes is an exact history

`Recorded` says that the `StateChanged` events appended between two engines lead
each signal from its old to its new state without a gap. The tentative commit of
a transition is not recorded yet, so the relation holds across a whole attempt
and not across each assignment.
-/

namespace SignalTopology

/-- The recorded steps of one signal lead from one table entry to another. -/
inductive Leads (steps : List (String × String)) : Option SignalState →
    Option SignalState → Prop where
  | absent (silent : steps = []) : Leads steps none none
  | present {signal signal' : SignalState} (states : signal'.states = signal.states)
      (initialState : signal'.initialState = signal.initialState)
      (walk : Walk signal.current steps signal'.current) :
      Leads steps (some signal) (some signal')

theorem Leads.refl (signal : Option SignalState) : Leads [] signal signal := by
  cases signal with
  | none => exact .absent rfl
  | some signal => exact .present rfl rfl (.nil _)

/-- Without steps the state stays. -/
theorem Leads.still {signal signal' : Option SignalState} (h : Leads [] signal signal') :
    signal'.map SignalState.current = signal.map SignalState.current := by
  cases h with
  | absent => rfl
  | present _ _ walk => exact congrArg some walk.eq_of_nil

/-- The steps and the old entry determine the new one. -/
theorem Leads.unique {steps : List (String × String)} {old new new' : Option SignalState}
    (first : Leads steps old new) (second : Leads steps old new') : new = new' := by
  cases first with
  | absent => cases second; rfl
  | @present signal signal₁ states initialState walk =>
      cases second with
      | @present _ signal₂ states' initialState' walk' =>
          have current := walk.unique walk'
          cases signal₁
          cases signal₂
          simp_all

theorem Leads.trans {steps steps' : List (String × String)} {s t u : Option SignalState}
    (first : Leads steps s t) (second : Leads steps' t u) : Leads (steps ++ steps') s u := by
  cases first with
  | absent silent =>
      cases second with
      | absent silent' => exact .absent (by rw [silent, silent', List.append_nil])
  | present states initialState walk =>
      cases second with
      | present states' initialState' walk' =>
          exact .present (states'.trans states) (initialState'.trans initialState)
            (walk.append walk')

section

variable {W : Type}

/-- The events appended between two engines account for every signal. -/
def Recorded (engine engine' : TopologyEngine W) : Prop :=
  ∃ events, engine'.trace = engine.trace ++ events ∧
    ∀ id, Leads (stateChanges id events) (engine.signals.lookup id) (engine'.signals.lookup id)

namespace Recorded

theorem refl (engine : TopologyEngine W) : Recorded engine engine :=
  ⟨[], (List.append_nil _).symm, fun _ => .refl _⟩

theorem trans {s t u : TopologyEngine W} (first : Recorded s t) (second : Recorded t u) :
    Recorded s u := by
  obtain ⟨events, log, leads⟩ := first
  obtain ⟨events', log', leads'⟩ := second
  refine ⟨events ++ events', by rw [log', log, List.append_assoc], fun id => ?_⟩
  rw [stateChanges_append]
  exact (leads id).trans (leads' id)

/-- Appending events that record no change, with no signal touched. -/
theorem of_silent {engine engine' : TopologyEngine W} {events : List TraceEvent}
    (log : engine'.trace = engine.trace ++ events) (silent : Silent events)
    (same : ∀ id, engine'.signals.lookup id = engine.signals.lookup id) :
    Recorded engine engine' := by
  refine ⟨events, log, fun id => ?_⟩
  rw [silent id, same id]
  exact .refl _

theorem compensate (reaction : ReactionDef) (parentPayload : Option JsonValue)
    (transitionSignal : String) (e : EngineError) (engine : TopologyEngine W) :
    Recorded engine
      (TopologyEngine.compensate reaction parentPayload transitionSignal e engine) := by
  obtain ⟨_, same⟩ | ⟨actionId, ctx, _, _, same⟩ :=
    TopologyEngine.compensate_cases reaction parentPayload transitionSignal e engine
  · rw [same]
    exact refl engine
  · obtain ⟨events, acted, actions⟩ :=
      TopologyEngine.runAction_acted reaction.toSignal actionId ctx engine
    have closing : Silent [TopologyEngine.compensated reaction transitionSignal actionId e] :=
      fun _ => rfl
    rw [same]
    refine of_silent ?_ ((silent_actions actions).append closing) fun id => ?_
    · rw [TopologyEngine.push_trace, acted.trace, List.append_assoc]
    · rw [TopologyEngine.push_signals, acted.signals]

variable [RustStd] [SerdeJson]

theorem attempt (c : Call W) : Recorded c.engine c.attempt.2 := by
  obtain ⟨e, u, events, attempted, log, silent, same⟩ |
      ⟨result, u, events, signal, attempted, known, _, log, silent, moved⟩ :=
    c.engine.attemptTransition_spec c.signalId c.event c.payload
  · rw [Call.attempt, attempted]
    exact of_silent log silent same
  · rw [Call.attempt, attempted]
    refine ⟨_, log, fun id => ?_⟩
    rw [stateChanges_append, silent id, moved id, List.nil_append]
    by_cases own : id = c.signalId
    · rw [if_pos own, own, known]
      have step : stateChanges c.signalId
          [.stateChanged c.signalId signal.current result.toState] =
            [(signal.current, result.toState)] := by simp [stateChanges]
      rw [step]
      exact .present rfl rfl (.single _ _)
    · rw [if_neg own]
      have other : stateChanges id
          [.stateChanged c.signalId signal.current result.toState] = [] := by
        simp [stateChanges, Ne.symm own]
      rw [other]
      exact .refl _

theorem gate (c : Call W) (reaction : ReactionDef) (engine : TopologyEngine W) :
    Recorded engine (c.gate reaction engine).2 := by
  obtain ⟨_, same⟩ | ⟨guard, passed, result, _, same⟩ :=
    TopologyEngine.gate_cases reaction c.parentPayload c.signalId engine
  · rw [Call.gate, same]
    exact refl engine
  · rw [Call.gate, same]
    exact of_silent (TopologyEngine.push_trace _ _) (fun _ => rfl) fun _ => rfl

theorem run (limit : Nat) (c : Call W) : Recorded c.engine (c.run limit).2 :=
  Call.run_rel refl trans attempt gate
    (fun c reaction e engine => compensate reaction c.parentPayload c.signalId e engine) limit c

theorem sendEvent (engine : TopologyEngine W) (signalId event : String)
    (payload : Option JsonValue) : Recorded engine (engine.sendEvent signalId event payload).2 :=
  run engine.maxCascadeDepth (.top engine signalId event payload)

theorem step {engine engine' : TopologyEngine W} (step : HostStep engine engine') :
    Recorded engine engine' := by
  cases step with
  | sendEvent signalId event payload => exact sendEvent engine signalId event payload
  | registerAction => exact refl engine
  | setMaxCascadeDepth => exact refl engine
  | environment => exact refl engine

theorem hostRun {engine engine' : TopologyEngine W} (run : HostRun engine engine') :
    Recorded engine engine' := by
  induction run with
  | refl => exact refl engine
  | tail _ last ih => exact ih.trans (step last)

end Recorded

section

variable [RustStd] [SerdeJson]

/-- The `StateChanged` log of an engine built by `from_schema` is an exact
history: after any run, the events of each signal of the schema lead from its
initial state to its current one. A call, whatever it returns, keeps the state
of a signal without an appended `StateChanged`, and leaves any other signal at
the target of the last one. -/
theorem stateChanged_history {world : W} {schema : TopologySchema}
    {engine engine' : TopologyEngine W}
    (built : TopologyEngine.fromSchema world schema = .ok engine)
    (run : HostRun engine engine') :
    (∃ flat, expand schema = .ok flat ∧
      (∀ id, engine'.current id ≠ none → ∃ sig ∈ flat.signals, sig.id = id) ∧
      ∀ sig ∈ flat.signals, ∃ current, engine'.current sig.id = some current ∧
        Walk sig.initialState (stateChanges sig.id engine'.trace) current) ∧
    ∀ signalId event payload, ∃ events,
      (engine'.sendEvent signalId event payload).2.trace = engine'.trace ++ events ∧
      ∀ id old, engine'.current id = some old →
        ∃ new, (engine'.sendEvent signalId event payload).2.current id = some new ∧
          Walk old (stateChanges id events) new ∧
          (stateChanges id events = [] → new = old) ∧
          ∀ earlier fromState toState,
            stateChanges id events = earlier ++ [(fromState, toState)] → new = toState := by
  constructor
  · obtain ⟨flat, flattened, valid, signals, _, _, _, fresh⟩ := fromSchema_spec built
    obtain ⟨events, log, leads⟩ := Recorded.hostRun run
    rw [fresh, List.nil_append] at log
    rw [signals] at leads
    refine ⟨flat, flattened, fun id known => ?_, fun sig member => ?_⟩
    · have history := leads id
      cases found : (signalTable (·.initialState) flat.signals).lookup id with
      | none =>
          rw [found] at history
          cases ended : engine'.signals.lookup id with
          | none => simp [TopologyEngine.current, ended] at known
          | some signal =>
              rw [ended] at history
              cases history
      | some signal =>
          obtain ⟨sig, member, named, _⟩ := signalTable_some valid.distinct found
          exact ⟨sig, member, named⟩
    · have history := leads sig.id
      rw [signalTable_member valid.distinct _ member, ← log] at history
      generalize ended : engine'.signals.lookup sig.id = signal at history
      cases history with
      | present states initialState walk =>
          exact ⟨_, by rw [TopologyEngine.current, ended, Option.map_some], walk⟩
  · intro signalId event payload
    obtain ⟨events, log, leads⟩ := Recorded.sendEvent engine' signalId event payload
    refine ⟨events, log, fun id old known => ?_⟩
    obtain ⟨signal, found, rfl⟩ := Option.map_eq_some_iff.mp known
    have history := leads id
    rw [found] at history
    generalize ended : (engine'.sendEvent signalId event payload).2.signals.lookup id = signal'
      at history
    cases history with
    | present states initialState walk =>
        refine ⟨_, by rw [TopologyEngine.current, ended, Option.map_some], walk, ?_, ?_⟩
        · intro silent
          rw [silent] at walk
          exact walk.eq_of_nil
        · intro earlier fromState toState last
          rw [last] at walk
          exact walk.last

end

/-- A job that may be retried in place, and a log that cannot be written. -/
def retrySchema : TopologySchema where
  version := "1.0"
  signals := [⟨"job", "running", ["running"]⟩, ⟨"log", "closed", ["closed"]⟩]
  transitions := [
    { signalId := "job", fromState := "running", event := "retry", toState := "running" }]
  reactions := [
    { fromSignal := "job", fromState := "running", toSignal := "log", event := "write" }]

/-- The engine `from_schema` builds for it. -/
def retryEngine : TopologyEngine Unit where
  signals := signalTable (·.initialState) retrySchema.signals
  transitions := retrySchema.transitions
  reactions := retrySchema.reactions
  actions := ∅
  trace := []
  maxCascadeDepth := 8
  world := ()

theorem retryEngine_built : TopologyEngine.fromSchema () retrySchema = .ok retryEngine := rfl

/-- The engine after a failing call. -/
def retried : TopologyEngine Unit :=
  (@TopologyEngine.sendEvent Unit .ascii .keywords retryEngine "job" "retry" none).2

theorem retried_history :
    ∃ flat, expand retrySchema = .ok flat ∧
      (∀ id, retried.current id ≠ none → ∃ sig ∈ flat.signals, sig.id = id) ∧
      ∀ sig ∈ flat.signals, ∃ current, retried.current sig.id = some current ∧
        Walk sig.initialState (stateChanges sig.id retried.trace) current :=
  (@stateChanged_history Unit .ascii .keywords () retrySchema retryEngine retried
    retryEngine_built
    (.single (@HostStep.sendEvent Unit .ascii .keywords retryEngine "job" "retry" none))).1

/-- A failing call that commits a transition from a state to itself appends a
`StateChanged` for a signal it does not change. -/
theorem retry_unchanged :
    ¬ ∀ (schema : TopologySchema) (engine : TopologyEngine Unit) (signalId event : String),
      TopologyEngine.fromSchema () schema = .ok engine →
      (∃ e, (@TopologyEngine.sendEvent Unit .ascii .keywords engine signalId event none).1 =
        .error e) →
      ∀ id, (@TopologyEngine.sendEvent Unit .ascii .keywords engine signalId event none).2.current
          id ≠ engine.current id ↔
        stateChanges id
          (@TopologyEngine.sendEvent Unit .ascii .keywords engine signalId event none).2.trace ≠
            [] := by
  intro exactly
  have changed := exactly retrySchema retryEngine "job" "retry" retryEngine_built
    ⟨.transitionNotFound "log" "write", by decide +kernel⟩ "job"
  exact absurd (changed.mpr (by decide +kernel)) (by decide +kernel)

end

end SignalTopology
