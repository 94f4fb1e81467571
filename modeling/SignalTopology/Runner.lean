import SignalTopology.Engine.Parallel
import SignalTopology.Engine.Stepwise

/-!
# Running a topology

What the shell and the replay tools share: an engine with a handler for every action, which a
set of action ids makes fail. A scenario adds to this set for one event at a time, so the
failures it injects are exactly those of its own actions.
-/

namespace SignalTopology

open Fallible Sequencing TopologyEngine

/-- A line on the standard output. -/
inductive Output where
  /-- The line of an action that runs. -/
  | action (signalId actionId : String)
  | text (line : String)
  deriving DecidableEq

def Output.line : Output → String
  | action signalId actionId => "[action] " ++ signalId ++ "." ++ actionId
  | text line => line

/-- What handlers share: the ids that are forced to fail, and what was printed. -/
structure RunWorld where
  failSet : Finset String := ∅
  output : List Output := []

/-- The message of an injected failure. -/
def injectedMessage (id : String) : String :=
  "injected failure for action '" ++ id ++ "' (set via `fail`)"

/-- The handler that `register_actions` makes for an id. `failing` tells whether it was given a
set of ids to fail. -/
def handler (failing record : Bool) (id : String) : ActionFn RunWorld := fun ctx world =>
  if failing ∧ id ∈ world.failSet then (.error (.actionExecutionError (injectedMessage id)), world)
  else if record then
    (.ok (), { world with output := world.output ++ [.action ctx.signalId id] })
  else (.ok (), world)

/-- `register_actions`. The ids come in some order. -/
def registerActions (engine : TopologyEngine RunWorld) (ids : List String) (failing record : Bool) :
    TopologyEngine RunWorld :=
  registerAll engine (ids.map fun id => (id, handler failing record id))

/-- `load_topology_for_run`. `iter` is the order in which a set of ids is visited. -/
def loadTopologyForRun [SerdeJson] (iter : Finset String → List String) (fs : FileSystem)
    (path : String) (failing record : Bool) :
    Except (TokenParser.Failure EngineError) (TopologyEngine RunWorld) := do
  let schema ← loadTopology fs path
  let engine ← (fromSchema {} schema).mapError .error
  return registerActions engine (iter (collectActionIds schema)) failing record

/-! ## Scenarios -/

structure ScenarioEvent where
  signalId : String
  event : String
  payload : Option JsonValue
  failActions : List String := []

structure Scenario where
  events : List ScenarioEvent

structure ScenarioError where
  signalId : String
  event : String
  error : EngineError
  stateAfter : String

/-- Make the ids fail from now on. -/
def inject (ids : List String) (engine : TopologyEngine RunWorld) : TopologyEngine RunWorld :=
  { engine with world := { engine.world with
      failSet := ids.foldl (fun set id => insert id set) engine.world.failSet } }

/-- Let the ids succeed again. -/
def withdraw (ids : List String) (engine : TopologyEngine RunWorld) : TopologyEngine RunWorld :=
  { engine with world := { engine.world with
      failSet := ids.foldl (fun set id => set.erase id) engine.world.failSet } }

section

variable [RustStd] [SerdeJson]

/-- One turn of the loop of `run_scenario`. -/
def ScenarioEvent.run (ev : ScenarioEvent) (engine : TopologyEngine RunWorld) :
    Option ScenarioError × TopologyEngine RunWorld :=
  let (outcome, engine) := (inject ev.failActions engine).sendEvent ev.signalId ev.event ev.payload
  let failure := match outcome with
    | .ok _ => none
    | .error error => some {
        signalId := ev.signalId
        event := ev.event
        error
        stateAfter := match engine.getState ev.signalId with
          | .ok state => state
          | .error _ => "" }
  (failure, withdraw ev.failActions engine)

/-- `run_scenario`. -/
def runScenario (engine : TopologyEngine RunWorld) (scenario : Scenario) :
    List ScenarioError × TopologyEngine RunWorld :=
  ((session ScenarioEvent.run scenario.events engine).1.reduceOption,
    (session ScenarioEvent.run scenario.events engine).2)

end

/-! ## What handlers do -/

/-- Every callback of the engine is a handler for its id. -/
def Handled (failing record : Bool) (engine : TopologyEngine RunWorld) : Prop :=
  ∀ id f, engine.actions.lookup id = some f → f = handler failing record id

theorem handled_registerActions {engine : TopologyEngine RunWorld} {failing record : Bool}
    (handled : Handled failing record engine) (ids : List String) :
    Handled failing record (registerActions engine ids failing record) := by
  intro id f found
  unfold registerActions at found
  rw [registerAll_lookup] at found
  split at found
  · exact (Option.some.inj found).symm
  · exact handled id f found

/-- A recorded outcome is the one the set of failing ids asks for. -/
def Judged (failSet : Finset String) : TraceEvent → Prop
  | .actionSucceeded _ actionId => actionId ∉ failSet
  | .actionFailed _ actionId error => actionId ∈ failSet ∧ error = injectedMessage actionId
  | _ => True

/-- The line that goes with an entry of the log. -/
def printed : TraceEvent → Option Output
  | .actionSucceeded signalId actionId => some (.action signalId actionId)
  | _ => none

/-- From `s` to `t` handlers have done what the set of failing ids asks for, and have printed a
line for every success if they record. -/
structure Performed (record : Bool) (s t : TopologyEngine RunWorld) : Prop where
  actions : t.actions = s.actions
  failSet : t.world.failSet = s.world.failSet
  log : ∃ events, t.trace = s.trace ++ events ∧ (∀ ev ∈ events, Judged s.world.failSet ev) ∧
    t.world.output = s.world.output ++ if record then events.filterMap printed else []

namespace Performed

variable {record : Bool} {s t u : TopologyEngine RunWorld}

theorem refl (s : TopologyEngine RunWorld) : Performed record s s :=
  ⟨rfl, rfl, [], by simp, by simp, by simp⟩

theorem trans (first : Performed record s t) (second : Performed record t u) :
    Performed record s u := by
  obtain ⟨events, log, judged, output⟩ := first.log
  obtain ⟨events', log', judged', output'⟩ := second.log
  rw [first.failSet] at judged'
  refine ⟨second.actions.trans first.actions, second.failSet.trans first.failSet,
    events ++ events', by rw [log', log, List.append_assoc],
    List.forall_mem_append.mpr ⟨judged, judged'⟩, ?_⟩
  rw [output', output, List.append_assoc]
  cases record <;> simp

/-- Events that are not about actions are not judged and print nothing. -/
theorem push (s : TopologyEngine RunWorld) {ev : TraceEvent} (other : ev.isAction = false) :
    Performed record s (s.push ev) := by
  refine ⟨rfl, rfl, [ev], rfl, List.forall_mem_singleton.mpr ?_, ?_⟩
  · cases ev <;> first | exact trivial | cases other
  · have silent : printed ev = none := by
      cases ev <;> first | rfl | cases other
    simp [silent]

theorem runAction (handled : Handled true record s) (actionId : String) (ctx : ActionContext) :
    Performed record s (runAction ctx.signalId actionId ctx s).2 := by
  unfold TopologyEngine.runAction
  dsimp only
  rw [push_actions, push_world]
  cases found : s.actions.lookup actionId with
  | none => exact ⟨rfl, rfl, [_], rfl, by simp [Judged], by simp [printed]⟩
  | some f =>
      obtain rfl := handled actionId f found
      dsimp only
      by_cases failing : actionId ∈ s.world.failSet
      · have failed : handler true record actionId ctx s.world =
            (.error (.actionExecutionError (injectedMessage actionId)), s.world) :=
          if_pos ⟨rfl, failing⟩
        rw [failed]
        refine ⟨rfl, rfl, [_, _], List.append_assoc _ _ _, ?_, by simp [printed]⟩
        simp [Judged, failing, failureMessage]
      · have unforced : ¬ (true ∧ actionId ∈ s.world.failSet) := fun forced => failing forced.2
        cases record with
        | false =>
            have passed : handler true false actionId ctx s.world = (.ok (), s.world) :=
              if_neg unforced
            rw [passed]
            exact ⟨rfl, rfl, [_, _], List.append_assoc _ _ _, by simp [Judged, failing], by simp⟩
        | true =>
            have passed : handler true true actionId ctx s.world = (.ok (), { s.world with
                output := s.world.output ++ [.action ctx.signalId actionId] }) := if_neg unforced
            rw [passed]
            exact ⟨rfl, rfl, [_, _], List.append_assoc _ _ _, by simp [Judged, failing], rfl⟩

theorem handled (h : Performed record s t) (handled : Handled true record s) :
    Handled true record t := by
  intro id f found
  rw [h.actions] at found
  exact handled id f found

/-- Every step of a run keeps to it. -/
theorem stepwise (record : Bool) :
    Stepwise fun s t => Handled true record s → Performed record s t where
  refl s _ := .refl s
  trans first second handled := (first handled).trans (second ((first handled).handled handled))
  push s _ other _ := .push s other
  setCurrent s signalId state _ := by
    have actions : (s.setCurrent signalId state).actions = s.actions := s.setCurrent_actions _ _
    have trace : (s.setCurrent signalId state).trace = s.trace := s.setCurrent_trace _ _
    have world : (s.setCurrent signalId state).world = s.world := by
      unfold TopologyEngine.setCurrent
      split <;> rfl
    exact ⟨actions, by rw [world], [], by rw [trace]; simp, by simp, by rw [world]; simp⟩
  runAction actionId ctx _ handled := .runAction handled actionId ctx

end Performed

/-! ## Failures are injected for one event -/

/-- An engine that a tool has loaded: its callbacks are handlers, and no id is forced to fail. -/
structure Ready (record : Bool) (engine : TopologyEngine RunWorld) : Prop where
  handled : Handled true record engine
  failSet : engine.world.failSet = ∅

theorem loadTopologyForRun_built [SerdeJson] {iter : Finset String → List String} {fs : FileSystem}
    {path : String} {failing record : Bool} {engine : TopologyEngine RunWorld}
    (loaded : loadTopologyForRun iter fs path failing record = .ok engine) :
    ∃ schema built, loadTopology fs path = .ok schema ∧ fromSchema {} schema = .ok built ∧
      engine = registerActions built (iter (collectActionIds schema)) failing record := by
  obtain ⟨schema, read, rest⟩ := bind_ok_iff.mp loaded
  obtain ⟨built, constructed, ended⟩ := bind_ok_iff.mp rest
  obtain rfl := Except.ok.inj ended
  refine ⟨schema, built, read, ?_, rfl⟩
  cases ran : fromSchema ({} : RunWorld) schema with
  | error e =>
      rw [ran] at constructed
      cases constructed
  | ok other =>
      rw [ran] at constructed
      exact congrArg Except.ok (Except.ok.inj constructed)

theorem fromSchema_unregistered {schema : TopologySchema} {built : TopologyEngine RunWorld}
    (fresh : fromSchema {} schema = .ok built) (id : String) : built.actions.lookup id = none := by
  obtain ⟨_, _, _, rfl⟩ := fromSchema_iff.mp fresh
  exact AList.lookup_empty id

theorem loadTopologyForRun_ready [SerdeJson] {iter : Finset String → List String} {fs : FileSystem}
    {path : String} {record : Bool} {engine : TopologyEngine RunWorld}
    (loaded : loadTopologyForRun iter fs path true record = .ok engine) :
    Ready record engine ∧ engine.trace = [] ∧ engine.world.output = [] := by
  obtain ⟨schema, built, _, fresh, rfl⟩ := loadTopologyForRun_built loaded
  refine ⟨⟨handled_registerActions (fun id f found => ?_) _, ?_⟩, ?_⟩
  · rw [fromSchema_unregistered fresh] at found
    cases found
  all_goals
    obtain ⟨_, _, _, rfl⟩ := fromSchema_iff.mp fresh
    rw [registerActions, registerAll_frame]
  exact ⟨rfl, rfl⟩

theorem inject_failSet (ids : List String) (engine : TopologyEngine RunWorld) :
    (inject ids engine).world.failSet = ids.toFinset ∪ engine.world.failSet := by
  have loop : ∀ set : Finset String,
      ids.foldl (fun set id => insert id set) set = ids.toFinset ∪ set := by
    induction ids with
    | nil => simp
    | cons id ids ih =>
        intro set
        rw [List.foldl_cons, ih, List.toFinset_cons, Finset.union_insert, Finset.insert_union]
  exact loop engine.world.failSet

theorem withdraw_failSet (ids : List String) (engine : TopologyEngine RunWorld) :
    (withdraw ids engine).world.failSet = engine.world.failSet \ ids.toFinset := by
  have loop : ∀ set : Finset String,
      ids.foldl (fun set id => set.erase id) set = set \ ids.toFinset := by
    induction ids with
    | nil => simp
    | cons id ids ih =>
        intro set
        rw [List.foldl_cons, ih, List.toFinset_cons, Finset.sdiff_insert, Finset.erase_sdiff_comm]
  exact loop engine.world.failSet

section

variable [RustStd] [SerdeJson]

/-- One event of a scenario: its own ids fail while it is handled, and no ids after it. -/
theorem ScenarioEvent.run_ready {record : Bool} {s : TopologyEngine RunWorld}
    (ready : Ready record s) (ev : ScenarioEvent) :
    Ready record (ev.run s).2 ∧ ∃ log, (ev.run s).2.trace = s.trace ++ log ∧
      ∀ entry ∈ log, Judged ev.failActions.toFinset entry := by
  have injected := inject_failSet ev.failActions s
  rw [ready.failSet, Finset.union_empty] at injected
  have handled : Handled true record (inject ev.failActions s) := ready.handled
  have ran := (Performed.stepwise record).sendEvent (inject ev.failActions s) ev.signalId ev.event
    ev.payload handled
  obtain ⟨log, trace, judged, _⟩ := ran.log
  rw [injected] at judged
  refine ⟨⟨ran.handled handled, ?_⟩, log, trace, judged⟩
  rw [ScenarioEvent.run, withdraw_failSet, ran.failSet, injected, Finset.sdiff_self]

/-- In the replay of a scenario, the failures injected for an event are those of its own actions:
in what the log records while the event is handled, an action fails, with the message of the
injection, exactly if the event names it. After the event no action is forced to fail, so the
outcomes of later events do not depend on it. -/
theorem runScenario_scoped {iter : Finset String → List String} {fs : FileSystem} {path : String}
    {record : Bool} {engine : TopologyEngine RunWorld}
    (loaded : loadTopologyForRun iter fs path true record = .ok engine) (scenario : Scenario) :
    ∀ before ev after, scenario.events = before ++ ev :: after →
      (runScenario engine ⟨before⟩).2.world.failSet = ∅ ∧
      ∃ log, (runScenario engine ⟨before ++ [ev]⟩).2.trace =
          (runScenario engine ⟨before⟩).2.trace ++ log ∧
        (runScenario engine ⟨before ++ [ev]⟩).2.trace <+: (runScenario engine scenario).2.trace ∧
        (∀ signalId actionId, .actionSucceeded signalId actionId ∈ log →
          actionId ∉ ev.failActions) ∧
        ∀ signalId actionId error, .actionFailed signalId actionId error ∈ log →
          actionId ∈ ev.failActions ∧ error = injectedMessage actionId := by
  intro before ev after split
  have ready := (loadTopologyForRun_ready loaded).1
  have kept : ∀ events : List ScenarioEvent, ∀ s, Ready record s →
      Ready record (session ScenarioEvent.run events s).2 := fun events s ready =>
    session_keeps (fun ev _ s ready => (ev.run_ready ready).1) ready
  have grows : ∀ events : List ScenarioEvent, ∀ s, Ready record s →
      s.trace <+: (session ScenarioEvent.run events s).2.trace := by
    intro events
    induction events with
    | nil => exact fun s _ => List.prefix_rfl
    | cons ev events ih =>
        intro s ready
        obtain ⟨after, log, trace, _⟩ := ev.run_ready ready
        exact (trace ▸ List.prefix_append s.trace log).trans (ih _ after)
  have reached := kept before engine ready
  obtain ⟨after', log, trace, judged⟩ := ev.run_ready reached
  have step : (runScenario engine ⟨before ++ [ev]⟩).2 =
      (ev.run (session ScenarioEvent.run before engine).2).2 := by
    rw [runScenario, session_append]
    rfl
  refine ⟨reached.failSet, log, by rw [step, trace]; rfl, ?_, fun signalId actionId member => ?_,
    fun signalId actionId error member => ?_⟩
  · have whole : (runScenario engine scenario).2 =
        (session ScenarioEvent.run after
          (ev.run (session ScenarioEvent.run before engine).2).2).2 := by
      rw [runScenario, split, session_append]
      rfl
    rw [step, whole]
    exact grows after _ after'
  · have outcome : actionId ∉ ev.failActions.toFinset := judged _ member
    simpa using outcome
  · have outcome : actionId ∈ ev.failActions.toFinset ∧ error = injectedMessage actionId :=
      judged _ member
    simpa using outcome

end

/-! ## Two engines in the same run -/

/-- Two engines in the same run, each of which prints its actions or keeps quiet about them, with
logs that `Q` relates. -/
structure SameRun (Q : List TraceEvent → List TraceEvent → Prop) (record record' : Bool)
    (s t : TopologyEngine RunWorld) : Prop where
  current : ∀ id, t.current id = s.current id
  transitions : t.transitions = s.transitions
  reactions : t.reactions = s.reactions
  actions : ∀ id, Option.Rel
    (fun f g => f = handler true record id ∧ g = handler true record' id)
    (s.actions.lookup id) (t.actions.lookup id)
  maxCascadeDepth : t.maxCascadeDepth = s.maxCascadeDepth
  failSet : t.world.failSet = s.world.failSet
  trace : Q s.trace t.trace

namespace SameRun

variable {Q : List TraceEvent → List TraceEvent → Prop} {record record' : Bool}
variable {s t : TopologyEngine RunWorld}

/-- The world is compared on the failing ids only. -/
theorem world (h : SameRun Q record record' s t) {w w' : RunWorld} (same : w'.failSet = w.failSet) :
    SameRun Q record record' { s with world := w } { t with world := w' } :=
  ⟨h.current, h.transitions, h.reactions, h.actions, h.maxCascadeDepth, same, h.trace⟩

theorem inject (h : SameRun Q record record' s t) (ids : List String) :
    SameRun Q record record' (inject ids s) (inject ids t) :=
  h.world (by rw [h.failSet])

theorem withdraw (h : SameRun Q record record' s t) (ids : List String) :
    SameRun Q record record' (withdraw ids s) (withdraw ids t) :=
  h.world (by rw [h.failSet])

theorem getState (h : SameRun Q record record' s t) (id : String) :
    t.getState id = s.getState id := by
  have same := h.current id
  unfold TopologyEngine.current at same
  unfold TopologyEngine.getState
  cases known : s.signals.lookup id with
  | none =>
      rw [known, Option.map_none, Option.map_eq_none_iff] at same
      rw [same]
  | some signal =>
      rw [known] at same
      obtain ⟨signal', known', state⟩ := Option.map_eq_some_iff.mp same
      rw [known']
      exact congrArg Except.ok state

/-- Whether handlers print makes no difference to the engine. -/
theorem mirrors (grows : Grows Q) : Mirrors Set.univ (SameRun Q record record') where
  current h id _ := h.current id
  findTransition h id _ event state := by
    unfold TopologyEngine.findTransition
    rw [h.transitions]
  matchingReactions h id _ state := by
    unfold TopologyEngine.matchingReactions
    rw [h.reactions]
  closed _ _ _ _ _ := Set.mem_univ _
  push h ev _ := ⟨h.current, h.transitions, h.reactions, h.actions, h.maxCascadeDepth, h.failSet, by
    rw [push_trace, push_trace]
    exact grows _ _ ev h.trace⟩
  setCurrent h id _ state :=
    { current := fun id' => by rw [current_setCurrent, current_setCurrent, h.current]
      transitions := by rw [setCurrent_transitions, setCurrent_transitions, h.transitions]
      reactions := by rw [setCurrent_reactions, setCurrent_reactions, h.reactions]
      actions := by
        rw [setCurrent_actions, setCurrent_actions]
        exact h.actions
      maxCascadeDepth := by
        rw [setCurrent_maxCascadeDepth, setCurrent_maxCascadeDepth, h.maxCascadeDepth]
      failSet := by rw [setCurrent_world, setCurrent_world, h.failSet]
      trace := by
        rw [setCurrent_trace, setCurrent_trace]
        exact h.trace }
  call {s t} h actionId ctx _ := by
    have actions := h.actions actionId
    revert actions
    cases s.actions.lookup actionId <;> cases t.actions.lookup actionId <;> intro actions <;>
      cases actions
    · exact .none
    next handlers =>
      obtain ⟨rfl, rfl⟩ := handlers
      refine .some ?_
      unfold handler
      rw [h.failSet]
      by_cases forced : actionId ∈ s.world.failSet
      · rw [if_pos ⟨rfl, forced⟩, if_pos ⟨rfl, forced⟩]
        exact ⟨rfl, h.world h.failSet⟩
      · rw [if_neg (not_and_of_not_right _ forced), if_neg (not_and_of_not_right _ forced)]
        refine ⟨by cases record <;> cases record' <;> rfl, h.world ?_⟩
        cases record <;> cases record' <;> first | exact h.failSet | rfl

variable [RustStd] [SerdeJson]

theorem sendEvent (h : SameRun Q record record' s t)
    (grows : Grows Q) (signalId event : String) (payload : Option JsonValue) :
    Agree (SameRun Q record record')
      (s.sendEvent signalId event payload) (t.sendEvent signalId event payload) :=
  (mirrors grows).sendEvent h h.maxCascadeDepth (Set.mem_univ signalId) event payload

end SameRun

/-- The porch is loaded for a run. -/
theorem porch_loadedForRun (record : Bool) : ∃ engine, @loadTopologyForRun porchSerde Finset.toList
    porchFiles "main.json" true record = .ok engine := by
  obtain ⟨merged, loaded, flat, valid, _⟩ := @loadTopology_selfContained porchSerde porchFiles
    "main.json" lampFile [bellFile] porch_unfolds porch_separate porch_selfContained
  unfold loadTopologyForRun
  rw [loaded]
  show ∃ engine, ((fromSchema ({} : RunWorld) merged).mapError _ >>= _) = Except.ok engine
  rw [fromSchema_flat flat valid]
  exact ⟨_, rfl⟩

/-- The lamp fails to light. -/
def failingToggle : ScenarioEvent := ⟨"lamp", "toggle", none, ["light"]⟩

/-- The lamp is tried again, with a payload. -/
def lastingToggle : ScenarioEvent := ⟨"lamp", "toggle", some (.bool true), []⟩

/-- The lamp fails to light once, and lights when it is tried again. -/
def lampScenario : Scenario where
  events := [failingToggle, lastingToggle]

theorem lampScenario_scoped : ∃ engine,
    @loadTopologyForRun porchSerde Finset.toList porchFiles "main.json" true true = .ok engine ∧
    (@runScenario .ascii porchSerde engine ⟨[failingToggle]⟩).2.world.failSet = ∅ ∧
    ∃ log, (@runScenario .ascii porchSerde engine lampScenario).2.trace =
        (@runScenario .ascii porchSerde engine ⟨[failingToggle]⟩).2.trace ++ log ∧
      (@runScenario .ascii porchSerde engine lampScenario).2.trace <+:
        (@runScenario .ascii porchSerde engine
          ⟨[failingToggle, lastingToggle, failingToggle]⟩).2.trace ∧
      (∀ signalId actionId, .actionSucceeded signalId actionId ∈ log →
        actionId ∉ lastingToggle.failActions) ∧
      ∀ signalId actionId error, .actionFailed signalId actionId error ∈ log →
        actionId ∈ lastingToggle.failActions ∧ error = injectedMessage actionId := by
  obtain ⟨engine, loaded⟩ := porch_loadedForRun true
  exact ⟨engine, loaded, @runScenario_scoped .ascii porchSerde _ porchFiles "main.json" true engine
    loaded ⟨[failingToggle, lastingToggle, failingToggle]⟩ [failingToggle] lastingToggle
    [failingToggle] rfl⟩

end SignalTopology
