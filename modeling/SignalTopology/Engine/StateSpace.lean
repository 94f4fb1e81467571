import SignalTopology.Engine.Persist

/-!
# Runs with persistence and reload

An `Operation` is one thing a host can do with an engine. Along any sequence of
operations the state-space invariant is kept up to the first reload that drops
the state some kept signal is in.
-/

namespace SignalTopology

/-- One call on an engine, or a change of the world its callbacks share. -/
inductive Operation (W : Type) where
  | sendEvent (signalId event : String) (payload : Option JsonValue)
  | loadState (file : Except String StateSnapshot)
  | reloadTopology (json : String)
  | registerAction (actionId : String) (f : ActionFn W)
  | setMaxCascadeDepth (depth : Nat)
  | environment (world : W)

section

variable {W : Type} [RustStd] [SerdeJson]

/-- The engine after an operation, whatever the operation returned. -/
def Operation.apply (engine : TopologyEngine W) : Operation W → TopologyEngine W
  | sendEvent signalId event payload => (engine.sendEvent signalId event payload).2
  | loadState file => (engine.loadState file).2
  | reloadTopology json => (engine.reloadTopology json).2
  | registerAction actionId f => engine.registerAction actionId f
  | setMaxCascadeDepth depth => engine.setMaxCascadeDepth depth
  | environment world => { engine with world }

/-- The engine after a sequence of operations. -/
def execute (engine : TopologyEngine W) (ops : List (Operation W)) : TopologyEngine W :=
  ops.foldl Operation.apply engine

theorem execute_append (engine : TopologyEngine W) (ops : List (Operation W)) (op : Operation W) :
    execute engine (ops ++ [op]) = op.apply (execute engine ops) := by
  simp [execute]

/-- Every operation but a reload keeps the invariant in any case. -/
theorem Operation.sound {engine : TopologyEngine W} (h : engine.Sound) (op : Operation W)
    (keeps : ∀ json, op = .reloadTopology json → engine.ReloadKeeps json) :
    (op.apply engine).Sound := by
  cases op with
  | sendEvent signalId event payload =>
      exact TopologyEngine.Sound.run (c := .top engine signalId event payload) h
  | loadState file => exact h.loadState file
  | reloadTopology json => exact h.reload (keeps json rfl)
  | registerAction | setMaxCascadeDepth | environment => exact ⟨h.legal, h.target⟩

theorem execute_sound {engine : TopologyEngine W} (h : engine.Sound) {ops : List (Operation W)}
    (keeps : ∀ before json after, ops = before ++ .reloadTopology json :: after →
      (execute engine before).ReloadKeeps json) : (execute engine ops).Sound := by
  induction ops using List.reverseRecOn with
  | nil => exact h
  | append_singleton ops op ih =>
      rw [execute_append]
      refine Operation.sound (ih fun before json after split => ?_) op fun json same => ?_
      · exact keeps before json (after ++ [op]) (by simp [split])
      · exact keeps ops json [] (by rw [same])

/-- From construction on, every signal is in one of its own states after every
operation, and the snapshot of `save_state` is accepted by `load_state`, exactly
as long as every successful reload lists the current state of every signal it
keeps. -/
theorem states_legal_iff {world : W} {engine : TopologyEngine W}
    (built : (∃ schema, TopologyEngine.fromSchema world schema = .ok engine) ∨
      ∃ json, TopologyEngine.fromJson world json = .ok engine) (ops : List (Operation W)) :
    (∀ before after, ops = before ++ after →
      (∀ id signal, (execute engine before).signals.lookup id = some signal →
        signal.current ∈ signal.states) ∧
      ((execute engine before).loadState (.ok (execute engine before).saveState)).1 = .ok ()) ↔
    ∀ before json after, ops = before ++ .reloadTopology json :: after →
      (execute engine before).ReloadKeeps json := by
  have sound : engine.Sound := by
    rcases built with ⟨schema, built⟩ | ⟨json, built⟩
    · exact TopologyEngine.fromSchema_sound built
    · rcases parsed : SerdeJson.schemaFromStr json with message | schema
      · simp [TopologyEngine.fromJson, parsed, mapErr, bind, Except.bind] at built
      · refine @TopologyEngine.fromSchema_sound W world schema engine ?_
        simpa [TopologyEngine.fromJson, parsed, mapErr, bind, Except.bind] using built
  constructor
  · intro legal before json after split
    have held := (legal before (.reloadTopology json :: after) split).1
    have kept := (legal (before ++ [.reloadTopology json]) after (by simp [split])).1
    rw [execute_append] at kept
    exact (TopologyEngine.Legal.reload_iff held json).mp kept
  · intro keeps before after split
    have reached : (execute engine before).Sound := by
      refine execute_sound sound fun before' json after' split' => ?_
      exact keeps before' json (after' ++ after) (by simp [split, split'])
    exact ⟨reached.legal, (TopologyEngine.loadState_saveState _).mpr reached.legal⟩

end

/-- A lamp with one state. -/
def lampSchema : TopologySchema where
  version := "1.0"
  signals := [⟨"lamp", "dark", ["dark"]⟩]
  transitions := []

/-- The same lamp after its states have been renamed. -/
def renamedSchema : TopologySchema where
  version := "2.0"
  signals := [⟨"lamp", "off", ["off", "on"]⟩]
  transitions := []

/-- The file with the renamed lamp. -/
def renamedJson : String :=
  "\x7b\"version\":\"2.0\",\"signals\":[\x7b\"id\":\"lamp\",\"initial_state\":\"off\"," ++
    "\"states\":[\"off\",\"on\"]\x7d],\"transitions\":[]\x7d"

/-- A JSON parser on this file. -/
@[reducible] def renamedSerde : SerdeJson where
  valueFromStr _ := .error "expected value at line 1 column 1"
  schemaFromStr text :=
    if text = renamedJson then .ok renamedSchema else .error "expected value at line 1 column 1"
  valueToString _ := "null"

/-- The engine `from_schema` builds for the lamp. -/
def lampEngine : TopologyEngine Unit where
  signals := signalTable (·.initialState) lampSchema.signals
  transitions := []
  reactions := []
  actions := ∅
  trace := []
  maxCascadeDepth := 8
  world := ()

theorem lampEngine_built : TopologyEngine.fromSchema () lampSchema = .ok lampEngine := rfl

/-- A run that saves nothing and reloads once. -/
def lampRun : List (Operation Unit) :=
  [.sendEvent "lamp" "toggle" none, .reloadTopology renamedJson]

theorem lampRun_legal_iff :
    (∀ before after, lampRun = before ++ after →
      (∀ id signal, (@execute Unit .ascii renamedSerde lampEngine before).signals.lookup id =
        some signal → signal.current ∈ signal.states) ∧
      ((@execute Unit .ascii renamedSerde lampEngine before).loadState
        (.ok (@execute Unit .ascii renamedSerde lampEngine before).saveState)).1 = .ok ()) ↔
    ∀ before json after, lampRun = before ++ .reloadTopology json :: after →
      @TopologyEngine.ReloadKeeps Unit renamedSerde
        (@execute Unit .ascii renamedSerde lampEngine before) json :=
  @states_legal_iff Unit .ascii renamedSerde () lampEngine (.inl ⟨lampSchema, lampEngine_built⟩)
    lampRun

/-- The lamp after the reload. -/
def renamedLamp : TopologyEngine Unit :=
  (@TopologyEngine.reloadTopology Unit renamedSerde lampEngine renamedJson).2

/-- Reloading the renamed lamp succeeds and leaves it in a state it no longer
has; the engine then rejects its own snapshot. -/
theorem renamedLamp_illegal :
    TopologyEngine.fromSchema () lampSchema = .ok lampEngine ∧
    (@TopologyEngine.reloadTopology Unit renamedSerde lampEngine renamedJson).1 = .ok () ∧
    (∃ signal, renamedLamp.signals.lookup "lamp" = some signal ∧
      signal.current ∉ signal.states) ∧
    (renamedLamp.loadState (.ok renamedLamp.saveState)).1 =
      .error (.stateNotFound "lamp" "dark") :=
  ⟨lampEngine_built, by decide +kernel,
    ⟨⟨"dark", ["off", "on"], "off"⟩, by decide +kernel, by decide⟩, by decide +kernel⟩

end SignalTopology
