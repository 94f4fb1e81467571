import SignalTopology.Engine.History
import SignalTopology.Runner

/-!
# Replaying the events that count

An event of a scenario that changes no state, because it was refused, blocked or rolled back,
can be cut out of the scenario: nothing that comes after it can tell.
-/

namespace SignalTopology

open Sequencing TopologyEngine

/-- The `StateChanged` events. -/
def TraceEvent.isStateChange : TraceEvent → Bool
  | stateChanged .. => true
  | _ => false

theorem silent_of_none {log : List TraceEvent} (none : log.any TraceEvent.isStateChange = false) :
    Silent log := by
  intro signalId
  refine List.filterMap_eq_nil_iff.mpr fun ev member => ?_
  have other := List.any_eq_false.mp none ev member
  cases ev with
  | stateChanged => exact absurd rfl other
  | _ => rfl

section

variable [RustStd] [SerdeJson]

/-- What an event adds to the log. -/
def ScenarioEvent.log (ev : ScenarioEvent) (engine : TopologyEngine RunWorld) : List TraceEvent :=
  (ev.run engine).2.trace.drop engine.trace.length

/-- The event changes a state, at whatever level of its cascade. -/
def ScenarioEvent.moves (ev : ScenarioEvent) (engine : TopologyEngine RunWorld) : Bool :=
  (ev.log engine).any TraceEvent.isStateChange

/-- The scenario without the events that change no state when their turn comes. -/
def Scenario.moving (scenario : Scenario) (engine : TopologyEngine RunWorld) : Scenario where
  events := selected ScenarioEvent.run ScenarioEvent.moves scenario.events engine

variable {record : Bool} {s t : TopologyEngine RunWorld}

/-- What is added to the log accounts for the states. -/
theorem ScenarioEvent.run_recorded (ev : ScenarioEvent) (s : TopologyEngine RunWorld) :
    (ev.run s).2.trace = s.trace ++ ev.log s ∧
      (ev.moves s = false → Silent (ev.log s) ∧ ∀ id, (ev.run s).2.current id = s.current id) := by
  obtain ⟨log, trace, leads⟩ := Recorded.sendEvent (inject ev.failActions s) ev.signalId ev.event
    ev.payload
  have added : (ev.run s).2.trace = s.trace ++ log := trace
  have entries : ev.log s = log := by
    rw [ScenarioEvent.log, added, List.drop_left]
  refine ⟨by rw [added, entries], fun still => ?_⟩
  have silent : Silent log := silent_of_none (entries ▸ still)
  refine ⟨entries ▸ silent, fun id => ?_⟩
  have lead := leads id
  rw [silent id] at lead
  exact lead.still

/-- The logs of two engines in the same run of which the second has left out events that change
no state. -/
def Thinned (log log' : List TraceEvent) : Prop :=
  List.Sublist log' log ∧ ∀ id, stateChanges id log' = stateChanges id log

omit [RustStd] [SerdeJson] in
theorem thinned_grows : Grows Thinned := fun _ _ _ h =>
  ⟨h.1.append (.refl _), fun id => by rw [stateChanges_append, stateChanges_append, h.2]⟩

/-- An event is handled alike and recorded alike in two engines in the same run. -/
theorem SameRun.run (h : SameRun Thinned record record s t) (ev : ScenarioEvent) :
    Agree (SameRun Thinned record record) (ev.run s) (ev.run t) ∧ ev.log t = ev.log s := by
  have outcome : ∀ {Q : List TraceEvent → List TraceEvent → Prop},
      Grows Q → Q s.trace t.trace →
      Agree (SameRun Q record record) (ev.run s) (ev.run t) := by
    intro Q grows trace
    have started : SameRun Q record record (SignalTopology.inject ev.failActions s)
        (SignalTopology.inject ev.failActions t) :=
      SameRun.inject ⟨h.current, h.transitions, h.reactions, h.actions,
        h.maxCascadeDepth, h.failSet, trace⟩ ev.failActions
    obtain ⟨answer, sent⟩ := started.sendEvent grows ev.signalId ev.event ev.payload
    have after := sent.getState ev.signalId
    refine ⟨?_, sent.withdraw ev.failActions⟩
    unfold ScenarioEvent.run
    dsimp only
    rw [answer, after]
  refine ⟨outcome thinned_grows h.trace, ?_⟩
  obtain ⟨_, same⟩ := outcome
    (Q := fun log log' => ∃ new, log = s.trace ++ new ∧ log' = t.trace ++ new)
    (fun log log' ev ⟨new, left, right⟩ =>
      ⟨new ++ [ev], by rw [left, List.append_assoc], by rw [right, List.append_assoc]⟩)
    ⟨[], by simp, by simp⟩
  obtain ⟨new, left, right⟩ := same.trace
  rw [ScenarioEvent.log, ScenarioEvent.log, left, right, List.drop_left, List.drop_left]

/-- The second engine may leave out an event that moves no signal of the first. -/
theorem SameRun.rest (h : SameRun Thinned record record s t) (ready : Ready record s)
    {ev : ScenarioEvent} (still : ev.moves s = false) :
    SameRun Thinned record record (ev.run s).2 t := by
  obtain ⟨added, quiet⟩ := ev.run_recorded s
  obtain ⟨silent, same⟩ := quiet still
  have frame : SameTopology s (ev.run s).2 := by
    have ran := sameTopology_elementary.run (SignalTopology.inject ev.failActions s).maxCascadeDepth
      (.top (SignalTopology.inject ev.failActions s) ev.signalId ev.event ev.payload)
    exact ⟨ran.transitions, ran.reactions, ran.actions, ran.maxCascadeDepth⟩
  have settled := (ev.run_ready ready).1.failSet
  refine ⟨fun id => by rw [h.current, same], h.transitions.trans frame.transitions.symm,
    h.reactions.trans frame.reactions.symm, fun id => by rw [frame.actions]; exact h.actions id,
    h.maxCascadeDepth.trans frame.maxCascadeDepth.symm,
    by rw [h.failSet, settled, ready.failSet], ?_, fun id => ?_⟩
  · rw [added]
    exact h.trace.1.trans (List.sublist_append_left _ _)
  · rw [added, stateChanges_append, silent id, List.append_nil, h.trace.2]

/-- An event that changes no state can be cut out of a scenario, whether it was refused, blocked
by its guard or rolled back. What is left reports the same errors, leaves every signal in the
same state by the same changes of state, and records what the full scenario records of these
events; and nothing more can be cut out of it. -/
theorem runScenario_moving {iter : Finset String → List String} {fs : FileSystem} {path : String}
    {engine : TopologyEngine RunWorld}
    (loaded : loadTopologyForRun iter fs path true record = .ok engine) (scenario : Scenario) :
    List.Sublist (runScenario engine (scenario.moving engine)).1 (runScenario engine scenario).1 ∧
      (∀ id, (runScenario engine (scenario.moving engine)).2.current id =
        (runScenario engine scenario).2.current id) ∧
      (∀ id, stateChanges id (runScenario engine (scenario.moving engine)).2.trace =
        stateChanges id (runScenario engine scenario).2.trace) ∧
      List.Sublist (runScenario engine (scenario.moving engine)).2.trace
        (runScenario engine scenario).2.trace ∧
      (scenario.moving engine).moving engine = scenario.moving engine := by
  have ready := (loadTopologyForRun_ready loaded).1
  have start : SameRun Thinned record record engine engine ∧ Ready record engine := by
    refine ⟨⟨fun _ => rfl, rfl, rfl, fun id => ?_, rfl, rfl, .refl _, fun _ => rfl⟩, ready⟩
    cases found : engine.actions.lookup id with
    | none => exact .none
    | some f => exact .some ⟨ready.handled id f found, ready.handled id f found⟩
  have kept : ∀ ev ∈ scenario.events, ∀ s t, SameRun Thinned record record s t ∧ Ready record s →
      ev.moves s = true →
      Agree (fun s t => SameRun Thinned record record s t ∧ Ready record s)
        (ev.run s) (ev.run t) := by
    intro ev _ s t same _
    obtain ⟨answer, after⟩ := (same.1.run ev).1
    exact ⟨answer, after, (ev.run_ready same.2).1⟩
  have omitted : ∀ ev ∈ scenario.events, ∀ s t, SameRun Thinned record record s t ∧ Ready record s →
      ev.moves s = false → SameRun Thinned record record (ev.run s).2 t ∧
        Ready record (ev.run s).2 :=
    fun ev _ s t same still => ⟨same.1.rest same.2 still, (ev.run_ready same.2).1⟩
  obtain ⟨answers, same, _⟩ := session_selected kept omitted start
  refine ⟨answers.filterMap id, same.current, same.trace.2, same.trace.1, ?_⟩
  have chosen : ∀ ev ∈ scenario.events, ∀ s t, SameRun Thinned record record s t ∧ Ready record s →
      ev.moves s = true → (SameRun Thinned record record (ev.run s).2 (ev.run t).2 ∧
        Ready record (ev.run s).2) ∧ ev.moves t = true := by
    intro ev member s t same moves
    refine ⟨(kept ev member s t same moves).2, ?_⟩
    rw [ScenarioEvent.moves, (same.1.run ev).2]
    exact moves
  exact congrArg Scenario.mk (selected_selected chosen omitted start)

end

/-- Only the second attempt lights the lamp. -/
theorem lampScenario_moving : ∃ engine,
    @loadTopologyForRun porchSerde Finset.toList porchFiles "main.json" true false = .ok engine ∧
    let moving := @Scenario.moving .ascii porchSerde lampScenario engine
    let full := @runScenario .ascii porchSerde engine lampScenario
    let cut := @runScenario .ascii porchSerde engine moving
    List.Sublist cut.1 full.1 ∧ (∀ id, cut.2.current id = full.2.current id) ∧
      (∀ id, stateChanges id cut.2.trace = stateChanges id full.2.trace) ∧
      List.Sublist cut.2.trace full.2.trace ∧
      @Scenario.moving .ascii porchSerde moving engine = moving := by
  obtain ⟨engine, loaded⟩ := porch_loadedForRun false
  exact ⟨engine, loaded, @runScenario_moving .ascii porchSerde false Finset.toList porchFiles
    "main.json" engine loaded lampScenario⟩

end SignalTopology
