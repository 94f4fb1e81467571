import SignalTopology.Engine.Mirror
import SignalTopology.Engine.Registration
import SignalTopology.Engine.Snapshots
import SignalTopology.Library.Sessions

/-!
# Engines with the same behaviour

No decision of an engine reads the log it writes, and its tables count only by what they
answer. So two engines that agree on everything else cannot be told apart by any sequence of
operations: an engine whose log was cleared goes on as if it had not been, and a hot reload
leaves what a new process would have after loading the saved states.
-/

namespace SignalTopology

open Fallible Sequencing TopologyEngine

variable {W : Type}

/-- Two engines that differ in how their tables are laid out and in the log, where `Q` relates the
one log to the other. -/
structure SameBehaviour (Q : List TraceEvent → List TraceEvent → Prop) (s t : TopologyEngine W) :
    Prop where
  signals : ∀ id, t.signals.lookup id = s.signals.lookup id
  transitions : t.transitions = s.transitions
  reactions : t.reactions = s.reactions
  actions : ∀ id, t.actions.lookup id = s.actions.lookup id
  maxCascadeDepth : t.maxCascadeDepth = s.maxCascadeDepth
  world : t.world = s.world
  trace : Q s.trace t.trace

namespace SameBehaviour

variable {Q : List TraceEvent → List TraceEvent → Prop} {s t : TopologyEngine W}

theorem current (h : SameBehaviour Q s t) (id : String) : t.current id = s.current id := by
  rw [TopologyEngine.current, h.signals, TopologyEngine.current]

theorem push (h : SameBehaviour Q s t) (grows : Grows Q) (ev : TraceEvent) :
    SameBehaviour Q (s.push ev) (t.push ev) where
  signals := h.signals
  transitions := h.transitions
  reactions := h.reactions
  actions := h.actions
  maxCascadeDepth := h.maxCascadeDepth
  world := h.world
  trace := by
    rw [push_trace, push_trace]
    exact grows _ _ ev h.trace

theorem setCurrent (h : SameBehaviour Q s t) (signalId state : String) :
    SameBehaviour Q (s.setCurrent signalId state) (t.setCurrent signalId state) where
  signals id := by rw [setCurrent_lookup, setCurrent_lookup, h.signals]
  transitions := by rw [setCurrent_transitions, setCurrent_transitions, h.transitions]
  reactions := by rw [setCurrent_reactions, setCurrent_reactions, h.reactions]
  actions id := by rw [setCurrent_actions, setCurrent_actions, h.actions]
  maxCascadeDepth := by
    rw [setCurrent_maxCascadeDepth, setCurrent_maxCascadeDepth, h.maxCascadeDepth]
  world := by rw [setCurrent_world, setCurrent_world, h.world]
  trace := by
    rw [setCurrent_trace, setCurrent_trace]
    exact h.trace

/-- No step of a call tells such engines apart. -/
theorem mirrors (grows : Grows Q) : Mirrors Set.univ (SameBehaviour (W := W) Q) where
  current h id _ := h.current id
  findTransition h id _ event state := by
    unfold findTransition
    rw [h.transitions]
  matchingReactions h id _ state := by
    unfold matchingReactions
    rw [h.reactions]
  closed _ _ _ _ _ := Set.mem_univ _
  push h ev _ := h.push grows ev
  setCurrent h id _ state := h.setCurrent id state
  call {s t} h actionId ctx _ := by
    rw [h.actions]
    cases s.actions.lookup actionId with
    | none => exact .none
    | some f =>
        refine .some ?_
        rw [h.world]
        exact ⟨rfl, h.signals, h.transitions, h.reactions, h.actions, h.maxCascadeDepth, rfl,
          h.trace⟩

/-- A snapshot is accepted by both or by none, and moves the same signals. -/
theorem loadState (h : SameBehaviour Q s t) (file : Except String StateSnapshot) :
    Agree (SameBehaviour Q) (s.loadState file) (t.loadState file) := by
  cases file with
  | error message => exact ⟨rfl, h⟩
  | ok snapshot =>
      have check : t.checkEntry = s.checkEntry := by
        funext id state
        unfold checkEntry
        rw [h.signals]
      have written : ∀ (entries : List (Sigma fun _ : String => String)) (s t : TopologyEngine W),
          SameBehaviour Q s t → SameBehaviour Q
            (entries.foldl (fun engine entry => engine.setCurrent entry.1 entry.2) s)
            (entries.foldl (fun engine entry => engine.setCurrent entry.1 entry.2) t) := by
        intro entries
        induction entries with
        | nil => exact fun s t h => h
        | cons entry entries ih => exact fun s t h => ih _ _ (h.setCurrent entry.1 entry.2)
      unfold TopologyEngine.loadState
      dsimp only
      rw [check]
      cases snapshot.states.entries.forM fun entry => s.checkEntry entry.1 entry.2 with
      | error e => exact ⟨rfl, h⟩
      | ok => exact ⟨rfl, written snapshot.states.entries s t h⟩

variable [SerdeJson]

/-- A reload reads the states of both alike. -/
theorem reloadTopology (h : SameBehaviour Q s t) (json : String) :
    Agree (SameBehaviour Q) (s.reloadTopology json) (t.reloadTopology json) := by
  unfold TopologyEngine.reloadTopology
  cases SerdeJson.schemaFromStr json with
  | error message => exact ⟨rfl, h⟩
  | ok schema =>
      dsimp only
      cases validate schema with
      | error e => exact ⟨rfl, h⟩
      | ok =>
          have same : (fun sig : SignalDef => (t.current sig.id).getD sig.initialState) =
              fun sig => (s.current sig.id).getD sig.initialState := by
            funext sig
            rw [h.current]
          refine ⟨rfl, fun id => ?_, rfl, rfl, h.actions, h.maxCascadeDepth, h.world, h.trace⟩
          dsimp only
          rw [same]

end SameBehaviour

section

variable [RustStd] [SerdeJson]

/-- An operation with what it returns; only an event has a result. -/
def Operation.perform (op : Operation W) (engine : TopologyEngine W) :
    Except EngineError (Option TransitionResult) × TopologyEngine W :=
  match op with
  | sendEvent signalId event payload =>
      ((engine.sendEvent signalId event payload).1.map some,
        (engine.sendEvent signalId event payload).2)
  | loadState file => ((engine.loadState file).1.map fun _ => none, (engine.loadState file).2)
  | reloadTopology json =>
      ((engine.reloadTopology json).1.map fun _ => none, (engine.reloadTopology json).2)
  | registerAction actionId f => (.ok none, engine.registerAction actionId f)
  | setMaxCascadeDepth depth => (.ok none, engine.setMaxCascadeDepth depth)
  | environment world => (.ok none, { engine with world })

/-- No operation tells such engines apart. -/
theorem SameBehaviour.perform {Q : List TraceEvent → List TraceEvent → Prop}
    {s t : TopologyEngine W} (h : SameBehaviour Q s t) (grows : Grows Q) (op : Operation W) :
    Agree (SameBehaviour Q) (op.perform s) (op.perform t) := by
  cases op with
  | sendEvent signalId event payload =>
      obtain ⟨same, after⟩ := (mirrors grows).sendEvent h h.maxCascadeDepth
        (Set.mem_univ signalId) event payload
      exact ⟨congrArg (Except.map some) same, after⟩
  | loadState file =>
      obtain ⟨same, after⟩ := h.loadState file
      exact ⟨congrArg (Except.map fun _ => none) same, after⟩
  | reloadTopology json =>
      obtain ⟨same, after⟩ := h.reloadTopology json
      exact ⟨congrArg (Except.map fun _ => none) same, after⟩
  | registerAction actionId f =>
      refine ⟨rfl, h.signals, h.transitions, h.reactions, fun id => ?_, h.maxCascadeDepth, h.world,
        h.trace⟩
      show (t.actions.insert actionId f).lookup id = (s.actions.insert actionId f).lookup id
      by_cases own : id = actionId
      · rw [own, AList.lookup_insert, AList.lookup_insert]
      · rw [AList.lookup_insert_ne own, AList.lookup_insert_ne own, h.actions]
  | setMaxCascadeDepth depth =>
      exact ⟨rfl, h.signals, h.transitions, h.reactions, h.actions, rfl, h.world, h.trace⟩
  | environment world =>
      exact ⟨rfl, h.signals, h.transitions, h.reactions, h.actions, h.maxCascadeDepth, rfl, h.trace⟩

theorem SameBehaviour.session {Q : List TraceEvent → List TraceEvent → Prop}
    {s t : TopologyEngine W} (h : SameBehaviour Q s t) (grows : Grows Q)
    (ops : List (Operation W)) : Agree (SameBehaviour Q) (session Operation.perform ops s)
      (session Operation.perform ops t) :=
  session_agree (fun op _ _ related => related.perform grows op) h

/-- The first log has `before` ahead of all that the second one has. -/
def Ahead (before log log' : List TraceEvent) : Prop := log = before ++ log'

omit [RustStd] [SerdeJson] in
theorem ahead_grows (before : List TraceEvent) : Grows (Ahead before) := by
  rintro _ log' ev rfl
  exact List.append_assoc _ _ _

/-! ## Clearing the log -/

namespace TopologyEngine

/-- `clear_traces`. -/
def clearTraces (engine : TopologyEngine W) : TopologyEngine W := { engine with trace := [] }

end TopologyEngine

/-- What a host asks of an engine: an operation, or a fresh log. -/
inductive HostRequest (W : Type) where
  | operation (op : Operation W)
  | clearTraces

namespace HostRequest

def perform (request : HostRequest W) (engine : TopologyEngine W) :
    Except EngineError (Option TransitionResult) × TopologyEngine W :=
  match request with
  | operation op => op.perform engine
  | clearTraces => (.ok none, engine.clearTraces)

/-- The request without the log. -/
def operation? : HostRequest W → Option (Operation W)
  | operation op => some op
  | clearTraces => none

end HostRequest

/-- Clearing the log changes nothing but the log: with any number of clearings in between, every
operation returns what it returns without them and the same states are reached, and the log at
the end is what was recorded since the last clearing. -/
theorem clearTraces_transparent (engine : TopologyEngine W) (requests : List (HostRequest W)) :
    answersTo HostRequest.operation? requests (session HostRequest.perform requests engine).1 =
        (session Operation.perform (requests.filterMap HostRequest.operation?) engine).1 ∧
    (∀ id, (session HostRequest.perform requests engine).2.signals.lookup id =
      (session Operation.perform (requests.filterMap HostRequest.operation?)
        engine).2.signals.lookup
        id) ∧
    ∀ earlier later, requests = earlier ++ .clearTraces :: later → .clearTraces ∉ later →
      (session Operation.perform (requests.filterMap HostRequest.operation?) engine).2.trace =
        (session Operation.perform (earlier.filterMap HostRequest.operation?) engine).2.trace ++
          (session HostRequest.perform requests engine).2.trace := by
  have repeated : ∀ (before : List TraceEvent) (request : HostRequest W) (op : Operation W),
      request.operation? = some op → ∀ s t, SameBehaviour (Ahead before) t s →
        Agree (fun s t => SameBehaviour (Ahead before) t s) (request.perform s) (op.perform t) := by
    intro before request op found s t related
    cases request with
    | clearTraces => cases found
    | operation op' =>
        obtain rfl := Option.some.inj found
        obtain ⟨same, after⟩ := related.perform (ahead_grows before) op'
        exact ⟨same.symm, after⟩
  -- a clearing forgets a longer part of what the plain run has recorded
  have sessions : ∀ requests : List (HostRequest W), _ := fun requests =>
    @session_repeats _ _ _ _ _ HostRequest.perform Operation.perform
      (fun s t : TopologyEngine W => ∃ before, SameBehaviour (Ahead before) t s)
      HostRequest.operation? requests
      (fun request _ op found s t related => by
        obtain ⟨before, related⟩ := related
        obtain ⟨same, after⟩ := repeated before request op found s t related
        exact ⟨same, before, after⟩)
      (fun request _ lacked s t related => by
        obtain ⟨before, related⟩ := related
        cases request with
        | operation op => cases lacked
        | clearTraces =>
            exact ⟨t.trace, related.signals, related.transitions, related.reactions,
              related.actions, related.maxCascadeDepth, related.world, (List.append_nil _).symm⟩)
      engine engine ⟨[], fun _ => rfl, rfl, rfl, fun _ => rfl, rfl, rfl, rfl⟩
  obtain ⟨answers, before, related⟩ := sessions requests
  refine ⟨answers, fun id => related.signals id, fun earlier later split none => ?_⟩
  obtain ⟨_, before', reached⟩ := sessions earlier
  -- from the last clearing on, what is forgotten does not change
  have forgotten : SameBehaviour
      (Ahead (session Operation.perform (earlier.filterMap HostRequest.operation?) engine).2.trace)
      (session Operation.perform (earlier.filterMap HostRequest.operation?) engine).2
      (session HostRequest.perform earlier engine).2.clearTraces :=
    ⟨reached.signals, reached.transitions, reached.reactions, reached.actions,
      reached.maxCascadeDepth, reached.world, (List.append_nil _).symm⟩
  obtain ⟨_, last⟩ := session_repeats HostRequest.operation?
    (fun request _ op found s t => repeated _ request op found s t)
    (fun request member lacked s t related => by
      cases request with
      | operation op => cases lacked
      | clearTraces => exact absurd member none) forgotten
  rw [split, List.filterMap_append, List.filterMap_cons_none rfl, session_append, session_append]
  exact last.trace

/-! ## Reloading and starting again -/

namespace TopologyEngine

/-- The part of a signal that no operation but a reload writes. -/
def declared (engine : TopologyEngine W) (id : String) : Option (List String × String) :=
  (engine.signals.lookup id).map fun signal => (signal.states, signal.initialState)

omit [RustStd] [SerdeJson] in
/-- Writing states changes nothing else. -/
theorem foldl_setCurrent_frame (entries : List (Sigma fun _ : String => String))
    (engine : TopologyEngine W) {written : TopologyEngine W}
    (same : written = entries.foldl (fun engine entry =>
      engine.setCurrent entry.1 entry.2) engine) :
    SameTopology engine written ∧ written.trace = engine.trace ∧ written.world = engine.world ∧
      written.declared = engine.declared := by
  induction entries generalizing engine with
  | nil =>
      rw [same]
      exact ⟨sameTopology_elementary.refl engine, rfl, rfl, rfl⟩
  | cons entry entries ih =>
      obtain ⟨topology, trace, world, shape⟩ := ih _ same
      refine ⟨sameTopology_elementary.trans (sameTopology_elementary.setCurrent _ _ _) topology,
        by rw [trace, setCurrent_trace], by rw [world, setCurrent_world], ?_⟩
      rw [shape]
      funext id
      rw [declared, setCurrent_lookup, declared]
      split
      · rw [Option.map_map]
        rfl
      · rfl

/-- A new process in the same world: the topology is read, the handlers are registered and the
limit is set. -/
def startAgain (engine : TopologyEngine W) (json : String) (handlers : List (String × ActionFn W)) :
    Except EngineError (TopologyEngine W) := do
  let fresh ← fromJson engine.world json
  return (registerAll fresh handlers).setMaxCascadeDepth engine.maxCascadeDepth

omit [RustStd] in
theorem startAgain_parsed {engine : TopologyEngine W} {json : String} {schema : TopologySchema}
    (parsed : SerdeJson.schemaFromStr json = .ok schema) (handlers : List (String × ActionFn W)) :
    engine.startAgain json handlers = do
      let fresh ← fromSchema engine.world schema
      return (registerAll fresh handlers).setMaxCascadeDepth engine.maxCascadeDepth := by
  rw [startAgain, fromJson, parsed]
  rfl

omit [RustStd] in
/-- A new process starts exactly on what a reload accepts, in the initial states. -/
theorem startAgain_flat {engine : TopologyEngine W} {json : String} {schema : TopologySchema}
    (parsed : SerdeJson.schemaFromStr json = .ok schema) (flat : schema.Flat)
    (handlers : List (String × ActionFn W)) :
    (validate schema = .ok () → ∃ fresh, engine.startAgain json handlers = .ok fresh) ∧
    ∀ fresh, engine.startAgain json handlers = .ok fresh → validate schema = .ok () ∧
      fresh.signals = signalTable (·.initialState) schema.signals ∧
      fresh.transitions = schema.transitions ∧ fresh.reactions = schema.reactions ∧
      fresh.trace = [] ∧ fresh.maxCascadeDepth = engine.maxCascadeDepth ∧
      fresh.world = engine.world := by
  rw [startAgain_parsed parsed]
  constructor
  · intro valid
    rw [fromSchema_flat flat valid engine.world]
    exact ⟨_, rfl⟩
  · intro fresh started
    obtain ⟨built, loaded, ended⟩ := bind_ok_iff.mp started
    obtain rfl := Except.ok.inj ended
    obtain ⟨schema', expanded, valid, rfl⟩ := fromSchema_iff.mp loaded
    rw [expand_of_flat flat] at expanded
    obtain rfl := Except.ok.inj expanded
    rw [registerAll_frame]
    exact ⟨valid, rfl, rfl, rfl, rfl, rfl, rfl⟩

omit [RustStd] [SerdeJson] in
/-- A snapshot is accepted by an engine that lists every saved state. -/
theorem loadState_accepts (engine other : TopologyEngine W) :
    (other.loadState (.ok engine.saveState)).1 = .ok () ↔
      ∀ id state, engine.current id = some state →
        ∃ signal, other.signals.lookup id = some signal ∧ state ∈ signal.states := by
  have checked : (other.loadState (.ok engine.saveState)).1 = .ok () ↔
      engine.saveState.states.entries.forM
        (fun entry => other.checkEntry entry.1 entry.2) = .ok () := by
    simp only [loadState]
    split <;> simp_all
  rw [checked, forM_ok_iff]
  constructor
  · intro accepted id state held
    rw [← saveState_lookup] at held
    exact checkEntry_ok.mp (accepted ⟨id, state⟩ (AList.mem_lookup_iff.mp held))
  · intro listed entry member
    have held : engine.saveState.states.lookup entry.1 = some entry.2 :=
      AList.mem_lookup_iff.mpr member
    rw [saveState_lookup] at held
    exact checkEntry_ok.mpr (listed entry.1 entry.2 held)

omit [RustStd] [SerdeJson] in
/-- A signal table lists the states of its signals. -/
theorem signalTable_lists {signals : List SignalDef} (distinct : (signals.map (·.id)).Nodup)
    (current : SignalDef → String) (id state : String) :
    (∃ signal, (signalTable current signals).lookup id = some signal ∧ state ∈ signal.states) ↔
      ∃ sig ∈ signals, sig.id = id ∧ state ∈ sig.states := by
  constructor
  · rintro ⟨signal, found, member⟩
    obtain ⟨sig, declared, named, rfl⟩ := signalTable_some distinct found
    exact ⟨sig, declared, named, member⟩
  · rintro ⟨sig, declared, rfl, member⟩
    exact ⟨_, signalTable_member distinct current declared, member⟩

omit [RustStd] [SerdeJson] in
/-- The signals of a new process that has loaded the states of another engine. -/
theorem loadState_signals {engine fresh restored : TopologyEngine W} {schema : TopologySchema}
    (distinct : (schema.signals.map (·.id)).Nodup)
    (signals : fresh.signals = signalTable (·.initialState) schema.signals)
    (loaded : fresh.loadState (.ok engine.saveState) = (.ok (), restored)) (id : String) :
    restored.signals.lookup id =
      (signalTable (fun sig => (engine.current sig.id).getD sig.initialState) schema.signals).lookup
        id := by
  obtain ⟨e, rejected⟩ | ⟨snapshot, read, _, accepted⟩ :=
    fresh.loadState_cases (.ok engine.saveState)
  · rw [loaded] at rejected
    cases rejected
  rw [loaded] at accepted
  obtain rfl := Except.ok.inj read
  obtain ⟨_, _, _, shape⟩ := foldl_setCurrent_frame _ fresh (Prod.mk.inj accepted).2
  obtain ⟨snapshot, read, moved⟩ := loadState_current loaded
  obtain rfl := Except.ok.inj read
  have state := moved id
  have lists := congrFun shape id
  rw [TopologyEngine.declared, TopologyEngine.declared, signals,
    signalTable_lookup distinct] at lists
  have started : fresh.current id =
      (schema.signals.find? (·.id = id)).map (·.initialState) := by
    rw [TopologyEngine.current, signals, signalTable_lookup distinct, Option.map_map]
    rfl
  rw [saveState_lookup, started] at state
  rw [signalTable_lookup distinct]
  cases declared : schema.signals.find? (·.id = id) with
  | none =>
      rw [declared] at lists
      simpa using lists
  | some sig =>
      have named : sig.id = id := by simpa using List.find?_some declared
      rw [declared] at lists state
      obtain ⟨signal, found, same⟩ := Option.map_eq_some_iff.mp lists
      rw [TopologyEngine.current, found] at state
      have held : signal.current = (engine.current sig.id).getD sig.initialState := by
        rw [named]
        cases saved : engine.current id with
        | none => simpa [saved] using state
        | some _ => simpa [saved] using state
      have states : signal.states = sig.states := congrArg Prod.fst same
      have initial : signal.initialState = sig.initialState := congrArg Prod.snd same
      rw [found, Option.map_some, SignalDef.state, ← held, ← states, ← initial]

end TopologyEngine

/-- A hot reload does what saving the states, starting a new process on the new file and loading
the states does. The new process starts exactly on the flat topologies that the reload accepts,
and then refuses the snapshot exactly if the new topology lacks a signal, or the state it is in.
If it accepts, every later sequence of operations returns the same on both engines and leads to
the same states, with the log of the reloaded engine continuing the old one. -/
theorem reload_restarts {engine : TopologyEngine W} {json : String} {schema : TopologySchema}
    (parsed : SerdeJson.schemaFromStr json = .ok schema) (flat : schema.Flat)
    {handlers : List (String × ActionFn W)} :
    ((engine.reloadTopology json).1 = .ok () ↔
      ∃ fresh, engine.startAgain json handlers = .ok fresh) ∧
    ∀ fresh, engine.startAgain json handlers = .ok fresh →
      ((fresh.loadState (.ok engine.saveState)).1 = .ok () ↔
        ∀ id state, engine.current id = some state →
          ∃ sig ∈ schema.signals, sig.id = id ∧ state ∈ sig.states) ∧
      ((fresh.loadState (.ok engine.saveState)).1 = .ok () →
        (∀ id, fresh.actions.lookup id = engine.actions.lookup id) → ∀ ops : List (Operation W),
          Agree (SameBehaviour (Ahead engine.trace))
            (session Operation.perform ops (engine.reloadTopology json).2)
            (session Operation.perform ops (fresh.loadState (.ok engine.saveState)).2)) := by
  have hot : validate schema = .ok () → engine.reloadTopology json = (.ok (), { engine with
      signals :=
        signalTable (fun sig => (engine.current sig.id).getD sig.initialState) schema.signals
      transitions := schema.transitions
      reactions := schema.reactions }) := by
    intro valid
    unfold reloadTopology
    rw [parsed]
    dsimp only
    rw [valid]
  obtain ⟨starts, started⟩ := startAgain_flat parsed flat handlers
  refine ⟨⟨fun reloaded => starts ?_, fun ⟨fresh, ran⟩ => ?_⟩, fun fresh ran => ?_⟩
  · cases checked : validate schema with
    | ok => rfl
    | error e =>
        unfold reloadTopology at reloaded
        rw [parsed] at reloaded
        dsimp only at reloaded
        rw [checked] at reloaded
        cases reloaded
  · rw [hot (started fresh ran).1]
  obtain ⟨valid, signals, transitions, reactions, log, depth, world⟩ := started fresh ran
  have distinct := (validate_ok valid).distinct
  refine ⟨?_, fun accepted actions ops => SameBehaviour.session ?_ (ahead_grows engine.trace) ops⟩
  · rw [loadState_accepts, signals]
    simp only [signalTable_lists distinct]
  obtain ⟨e, rejected⟩ | ⟨snapshot, read, _, loaded⟩ := fresh.loadState_cases (.ok engine.saveState)
  · rw [rejected] at accepted
    cases accepted
  have states := loadState_signals distinct signals loaded
  obtain ⟨topology, trace, same, _⟩ := foldl_setCurrent_frame snapshot.states.entries fresh rfl
  rw [hot valid, loaded]
  exact {
    signals := states
    transitions := topology.transitions.trans transitions
    reactions := topology.reactions.trans reactions
    actions := fun id => (congrArg (AList.lookup id) topology.actions).trans (actions id)
    maxCascadeDepth := topology.maxCascadeDepth.trans depth
    world := same.trans world
    trace := ((congrArg (engine.trace ++ ·) (trace.trans log)).trans (List.append_nil _)).symm }

end

/-- The lamp with a second state. -/
def switchedSchema : TopologySchema where
  version := "2.0"
  signals := [⟨"lamp", "lit", ["dark", "lit"]⟩]
  transitions := [{ signalId := "lamp", fromState := "dark", event := "toggle", toState := "lit" }]

def switchedJson : String :=
  "\x7b\"version\":\"2.0\",\"signals\":[\x7b\"id\":\"lamp\",\"initial_state\":\"lit\"," ++
    "\"states\":[\"dark\",\"lit\"]\x7d],\"transitions\":[\x7b\"signal\":\"lamp\"," ++
    "\"from\":\"dark\"," ++
    "\"event\":\"toggle\",\"to\":\"lit\"\x7d]\x7d"

@[reducible] def switchedSerde : SerdeJson where
  valueFromStr _ := .error "expected value at line 1 column 1"
  schemaFromStr text :=
    if text = switchedJson then .ok switchedSchema else .error "expected value at line 1 column 1"
  valueToString _ := "null"

theorem switchedSerde_parses : @SerdeJson.schemaFromStr switchedSerde switchedJson =
    .ok switchedSchema := if_pos rfl

/-- The lamp as a new process has it. -/
def switchedLamp : TopologyEngine Unit where
  signals := signalTable (·.initialState) switchedSchema.signals
  transitions := switchedSchema.transitions
  reactions := []
  actions := ∅
  trace := []
  maxCascadeDepth := 8
  world := ()

theorem switchedLamp_started :
    @startAgain Unit switchedSerde lampEngine switchedJson [] = .ok switchedLamp := by
  rw [@startAgain_parsed Unit switchedSerde lampEngine switchedJson switchedSchema
    switchedSerde_parses []]
  rfl

/-- The dark lamp is reloaded, or started again in its old state; then it is switched. -/
theorem lampEngine_restarts : Agree (SameBehaviour (Ahead lampEngine.trace))
    (session (@Operation.perform Unit .ascii switchedSerde) [.sendEvent "lamp" "toggle" none]
      (@reloadTopology Unit switchedSerde lampEngine switchedJson).2)
    (session (@Operation.perform Unit .ascii switchedSerde) [.sendEvent "lamp" "toggle" none]
      (switchedLamp.loadState (.ok lampEngine.saveState)).2) := by
  obtain ⟨accepts, alike⟩ := (@reload_restarts Unit .ascii switchedSerde lampEngine switchedJson
    switchedSchema switchedSerde_parses rfl []).2 switchedLamp switchedLamp_started
  refine alike (accepts.mpr fun id state held => ?_) (fun _ => rfl) _
  by_cases lamp : id = "lamp"
  · subst lamp
    have dark : state = "dark" := (Option.some.inj held).symm
    exact ⟨_, List.mem_singleton.mpr rfl, rfl, by rw [dark]; decide⟩
  · rw [TopologyEngine.current, lampEngine, signalTable_lookup (by decide)] at held
    simp [lampSchema, Ne.symm lamp] at held

end SignalTopology
