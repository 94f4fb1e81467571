import SignalTopology.Engine.Snapshots
import SignalTopology.Runner

/-!
# Saving and reloading in two processes

`stp save` replays a scenario and writes the states it ends in; `stp reload` reads them into a
new engine, reloads another topology there and writes the states again. The second process
takes up exactly where the first one stopped.
-/

namespace SignalTopology.Stp

open Fallible Sequencing TopologyEngine

/-- A failure that ends the process. -/
abbrev Failure := TokenParser.Failure EngineError

section

variable [SerdeJson]

/-- `cmd_reload`, up to the file it writes. `file` is what reading the state file gives. -/
def cmdReload (iter : Finset String → List String) (fs : FileSystem)
    (topologyPath newTopologyJson : String)
    (file : Except String StateSnapshot) : Except Failure StateSnapshot := do
  let engine ← loadTopologyForRun iter fs topologyPath false false
  match engine.loadState file with
  | (.error e, _) => .error (.error e)
  | (.ok (), engine) =>
      match engine.reloadTopology newTopologyJson with
      | (.error e, _) => .error (.error e)
      | (.ok (), engine) => .ok engine.saveState

variable [RustStd]

/-- `cmd_save`, up to the file it writes. -/
def cmdSave (iter : Finset String → List String) (fs : FileSystem) (topologyPath : String)
    (scenario : Scenario) : Except Failure StateSnapshot := do
  let engine ← loadTopologyForRun iter fs topologyPath true false
  return (runScenario engine scenario).2.saveState

end

/-- The invariants that a scenario keeps: every signal is in one of its states, and the signals
and states are those of the topology. -/
structure Kept (space : String → Option (List String))
    (engine : TopologyEngine RunWorld) : Prop where
  sound : engine.Sound
  space : engine.space = space

theorem Kept.world {space : String → Option (List String)} {engine : TopologyEngine RunWorld}
    (h : Kept space engine) (world : RunWorld) : Kept space { engine with world } :=
  ⟨h.sound.congr (fun _ => rfl) rfl, h.space⟩

theorem Kept.registerActions {space : String → Option (List String)}
    {engine : TopologyEngine RunWorld} (h : Kept space engine) (ids : List String)
    (failing record : Bool) : Kept space (registerActions engine ids failing record) := by
  rw [SignalTopology.registerActions, registerAll_frame]
  exact ⟨h.sound.congr (fun _ => rfl) rfl, h.space⟩

section

variable [RustStd] [SerdeJson]

theorem Kept.runScenario {space : String → Option (List String)} {engine : TopologyEngine RunWorld}
    (h : Kept space engine) (scenario : Scenario) : Kept space (runScenario engine scenario).2 := by
  unfold SignalTopology.runScenario
  refine session_keeps (fun ev _ s kept => ?_) h
  have injected : Kept space (inject ev.failActions s) := kept.world _
  have sent : Kept space
      ((inject ev.failActions s).sendEvent ev.signalId ev.event ev.payload).2 :=
    ⟨injected.sound.run (c := .top _ ev.signalId ev.event ev.payload),
      (space_elementary.run _ (.top _ ev.signalId ev.event ev.payload)).trans injected.space⟩
  exact sent.world _

omit [RustStd] in
/-- Engines in the same states reload to the same states. -/
theorem reloadTopology_congr {s t : TopologyEngine RunWorld} (same : t.current = s.current)
    (json : String) : (t.reloadTopology json).1 = (s.reloadTopology json).1 ∧
      (t.reloadTopology json).2.current = (s.reloadTopology json).2.current := by
  unfold reloadTopology
  cases SerdeJson.schemaFromStr json with
  | error message => exact ⟨rfl, same⟩
  | ok schema =>
      dsimp only
      cases validate schema with
      | error e => exact ⟨rfl, same⟩
      | ok =>
          refine ⟨rfl, funext fun id => ?_⟩
          have states := congrArg (fun (current : String → Option String) =>
            ((signalTable (fun sig => (current sig.id).getD sig.initialState)
              schema.signals).lookup id).map fun sig => sig.current) same
          exact states

/-- `stp save` and then `stp reload` write what a single process would have that goes on with the
engine in memory: the state file of the first is always accepted, the second fails exactly if
the hot reload does, with the same error, and otherwise writes the states the hot reload leaves. -/
theorem cmdReload_continues {iter iter' : Finset String → List String} {fs : FileSystem}
    {path : String} {engine : TopologyEngine RunWorld}
    (loaded : loadTopologyForRun iter fs path true false = .ok engine) (scenario : Scenario)
    (json : String) : ∃ saved, cmdSave iter fs path scenario = .ok saved ∧
      (∀ e, cmdReload iter' fs path json (.ok saved) = .error (.error e) ↔
        ((runScenario engine scenario).2.reloadTopology json).1 = .error e) ∧
      (((runScenario engine scenario).2.reloadTopology json).1 = .ok () →
        ∃ written, cmdReload iter' fs path json (.ok saved) = .ok written ∧
          ∀ id, written.states.lookup id =
            ((runScenario engine scenario).2.reloadTopology json).2.current id) := by
  refine ⟨(runScenario engine scenario).2.saveState, ?_, ?_⟩
  · unfold cmdSave
    rw [loaded]
    rfl
  obtain ⟨schema, built, read, fresh, rfl⟩ := loadTopologyForRun_built loaded
  have start : Kept built.space built := ⟨fromSchema_sound fresh, rfl⟩
  generalize ran : runScenario _ scenario = result
  obtain ⟨errors, stopped⟩ := result
  have kept : Kept built.space stopped := by
    have kept :=
      (start.registerActions (iter (collectActionIds schema)) true false).runScenario scenario
    rwa [ran] at kept
  -- the second process builds the same engine
  have again : loadTopologyForRun iter' fs path false false =
      .ok (registerActions built (iter' (collectActionIds schema)) false false) := by
    unfold loadTopologyForRun
    rw [read]
    dsimp only [bind, Except.bind]
    rw [fresh]
    rfl
  have same := (start.registerActions (iter' (collectActionIds schema)) false false).space
  obtain ⟨restored, accepted, current⟩ := loadState_restores kept.sound.legal
    (same.trans kept.space.symm)
  obtain ⟨outcome, states⟩ := reloadTopology_congr current json
  have second : cmdReload iter' fs path json (.ok stopped.saveState) =
      match restored.reloadTopology json with
      | (.error e, _) => .error (.error e)
      | (.ok (), engine) => .ok engine.saveState := by
    unfold cmdReload
    rw [again]
    dsimp only [bind, Except.bind]
    rw [accepted]
  rw [second]
  rcases reloaded : restored.reloadTopology json with ⟨e | ⟨⟩, after⟩
  all_goals
    rw [reloaded] at outcome states
    dsimp only at outcome states
    rw [← outcome]
  · simp
  · refine ⟨by simp, fun _ => ⟨after.saveState, rfl, fun id => ?_⟩⟩
    rw [saveState_lookup, states]

end

/-- The lamp is saved and reloaded into its own topology. -/
theorem porch_continues : ∃ engine saved,
    @loadTopologyForRun porchSerde Finset.toList porchFiles "main.json" true false = .ok engine ∧
    @cmdSave porchSerde .ascii Finset.toList porchFiles "main.json" lampScenario = .ok saved ∧
    let reload := @cmdReload porchSerde Finset.toList porchFiles "main.json" lampJson (.ok saved)
    let reloaded := @reloadTopology _ porchSerde
      (@runScenario .ascii porchSerde engine lampScenario).2 lampJson
    (∀ e, reload = .error (.error e) ↔ reloaded.1 = .error e) ∧
      (reloaded.1 = .ok () →
        ∃ written, reload = .ok written ∧
          ∀ id, written.states.lookup id = reloaded.2.current id) := by
  obtain ⟨engine, loaded⟩ := porch_loadedForRun false
  obtain ⟨saved, continues⟩ := @cmdReload_continues .ascii porchSerde Finset.toList Finset.toList
    porchFiles "main.json" engine loaded lampScenario lampJson
  exact ⟨engine, saved, loaded, continues⟩

end SignalTopology.Stp
