import SignalTopology.Runner
import SignalTopology.Sts

/-!
# Shell sessions

The loop of `sts` runs the commands of its lines on one engine. What it shows while actions run
is what the log says of them, and a scenario that is typed in leaves the engine as the replay
of the scenario does.
-/

namespace SignalTopology.Sts

open Fallible Sequencing TopologyEngine
open Ddl (trim)

/-- `println!`. -/
def println (line : String) (engine : TopologyEngine RunWorld) : TopologyEngine RunWorld :=
  { engine with world := { engine.world with output := engine.world.output ++ [.text line] } }

def printAll (lines : List String) (engine : TopologyEngine RunWorld) : TopologyEngine RunWorld :=
  lines.foldl (fun engine line => println line engine) engine

/-- `StsSession::fail`. -/
def fail (actionId : String) (engine : TopologyEngine RunWorld) : TopologyEngine RunWorld :=
  println ("will fail next: " ++ actionId) (inject [actionId] engine)

/-- `StsSession::reset`. -/
def reset (engine : TopologyEngine RunWorld) : TopologyEngine RunWorld :=
  println "fail set cleared" { engine with world := { engine.world with failSet := ∅ } }

/-- The usage line of a command that was not understood. -/
def ParseError.usage : ParseError → String
  | eventArgs => "Usage: event <signal> <event> [json payload]"
  | failActionId => "Usage: fail <action_id>"
  | whyArgs => "Usage: why <from_signal> <from_state> <to_signal> <event>"

/-- What a command prints that only looks at the engine. -/
abbrev Report := Command → TopologyEngine RunWorld → List String

section

variable [RustStd] [SerdeJson]

/-- The payload of `event`, if there is one. -/
def parsePayload : Option String → Except String (Option JsonValue)
  | none => .ok none
  | some text => (SerdeJson.valueFromStr text).map some

/-- The lines for the outcome of an event. -/
def outcomeLines (signal : String) (engine : TopologyEngine RunWorld) :
    Except EngineError TransitionResult → List String
  | .ok result => (result.signalId ++ " -> " ++ result.toState) ::
      result.executedActions.map ("  action executed: " ++ ·)
  | .error e => ("Error: " ++ e.toString) ::
      match engine.getState signal with
      | .ok state => ["State rolled back to '" ++ state ++ "'"]
      | .error _ => []

/-- `cmd_event`. -/
def cmdEvent (signal event : String) (payloadArg : Option String)
    (engine : TopologyEngine RunWorld) : TopologyEngine RunWorld :=
  match parsePayload payloadArg with
  | .error e => println ("Invalid JSON payload: " ++ e) engine
  | .ok payload =>
      let (outcome, engine) := engine.sendEvent signal event payload
      printAll (outcomeLines signal engine outcome) engine

/-- One command of the loop, `quit` apart. -/
def Command.run (report : Report) (command : Command) (engine : TopologyEngine RunWorld) :
    TopologyEngine RunWorld :=
  match command with
  | .event signal name payload => cmdEvent signal name payload engine
  | .fail actionId => Sts.fail actionId engine
  | .reset => Sts.reset engine
  | command => printAll (report command engine) engine

/-- The loop of `main` over the lines it reads. -/
def repl (report : Report) : List String → TopologyEngine RunWorld → TopologyEngine RunWorld
  | [], engine => engine
  | line :: lines, engine =>
      if trim line.toList = [] then repl report lines engine
      else
        match parseCommand line with
        | .ok .quit => engine
        | .ok command => repl report lines (command.run report engine)
        | .error e => repl report lines (println e.usage engine)

end

/-! ## What is shown of the actions -/

/-- The lines of actions, of all that was printed. -/
def actionLines (engine : TopologyEngine RunWorld) : List Output :=
  engine.world.output.filter fun output =>
    match output with
    | .action _ _ => true
    | .text _ => false

/-- A session so far: handlers as callbacks, and a line for every action that succeeded. -/
structure Shown (engine : TopologyEngine RunWorld) : Prop where
  handled : Handled true true engine
  lines : actionLines engine = engine.trace.filterMap printed

theorem Shown.println {engine : TopologyEngine RunWorld} (h : Shown engine) (line : String) :
    Shown (println line engine) := by
  refine ⟨h.handled, ?_⟩
  have lines := h.lines
  unfold actionLines at lines
  simp only [actionLines, Sts.println, List.filter_append, lines]
  simp

theorem Shown.printAll {engine : TopologyEngine RunWorld} (h : Shown engine) (lines : List String) :
    Shown (printAll lines engine) := by
  induction lines generalizing engine with
  | nil => exact h
  | cons line lines ih => exact ih (h.println line)

theorem Shown.failSet {engine : TopologyEngine RunWorld} (h : Shown engine)
    (failSet : Finset String) :
    Shown { engine with world := { engine.world with failSet } } :=
  ⟨h.handled, h.lines⟩

section

variable [RustStd] [SerdeJson]

theorem Shown.sendEvent {engine : TopologyEngine RunWorld} (h : Shown engine)
    (signal event : String) (payload : Option JsonValue) :
    Shown (engine.sendEvent signal event payload).2 := by
  have performed := (Performed.stepwise true).sendEvent engine signal event payload h.handled
  obtain ⟨events, log, _, output⟩ := performed.log
  refine ⟨performed.handled h.handled, ?_⟩
  have lines := h.lines
  unfold actionLines at lines
  have kept : (events.filterMap printed).filter (fun output =>
      match output with
      | .action _ _ => true
      | .text _ => false) = events.filterMap printed := by
    rw [List.filter_eq_self]
    intro output member
    obtain ⟨ev, _, shown⟩ := List.mem_filterMap.mp member
    cases ev <;> cases shown
    rfl
  rw [actionLines, output, log, if_pos rfl, List.filter_append, lines, kept, List.filterMap_append]

theorem Shown.run {engine : TopologyEngine RunWorld} (h : Shown engine) (report : Report)
    (command : Command) : Shown (command.run report engine) := by
  cases command with
  | event signal event payload =>
      unfold Command.run cmdEvent
      dsimp only
      split
      · exact h.println _
      · exact (h.sendEvent signal event _).printAll _
  | fail actionId => exact (h.failSet _).println _
  | reset => exact (h.failSet ∅).println _
  | _ => exact h.printAll _

/-- Through every session of the shell, whatever is typed, the lines that were printed for
actions are the actions that the log says have succeeded, in the same order: none is missing,
none is printed for an action that failed or was not found, and nothing else prints one. -/
theorem repl_shows {iter : Finset String → List String} {fs : FileSystem} {path : String}
    {engine : TopologyEngine RunWorld}
    (loaded : loadTopologyForRun iter fs path true true = .ok engine)
    (report : Report) (lines : List String) :
    actionLines (repl report lines engine) =
      (repl report lines engine).trace.filterMap printed := by
  have session : ∀ (lines : List String) (engine : TopologyEngine RunWorld), Shown engine →
      Shown (repl report lines engine) := by
    intro lines
    induction lines with
    | nil => exact fun engine shown => shown
    | cons line lines ih =>
        intro engine shown
        unfold repl
        split
        · exact ih engine shown
        · split
          · exact shown
          · exact ih _ (shown.run report _)
          · exact ih _ (shown.println _)
  obtain ⟨ready, trace, output⟩ := loadTopologyForRun_ready loaded
  have fresh : Shown engine := ⟨ready.handled, by rw [actionLines, output, trace]; rfl⟩
  exact (session lines engine fresh).lines

end

/-- The lamp fails to light once, typed in. -/
def lampLines : List String :=
  ["fail light", "event lamp  toggle", " reset ", "event lamp toggle true", "reset"]

/-- The lamp is lit in the shell. -/
theorem porch_shows : ∃ shell,
    @loadTopologyForRun porchSerde Finset.toList porchFiles "main.json" true true = .ok shell ∧
    actionLines (@repl .ascii porchSerde (fun _ _ => []) lampLines shell) =
      (@repl .ascii porchSerde (fun _ _ => []) lampLines shell).trace.filterMap printed := by
  obtain ⟨shell, loaded⟩ := porch_loadedForRun true
  exact ⟨shell, loaded, @repl_shows .ascii porchSerde Finset.toList porchFiles "main.json" shell
    loaded (fun _ _ => []) lampLines⟩

/-! ## Replay and shell -/

/-- Two engines in the same run with the same log, of which the first keeps quiet about actions. -/
abbrev Replays : TopologyEngine RunWorld → TopologyEngine RunWorld → Prop :=
  SameRun (fun log log' => log' = log) false true

namespace Replays

variable {s t : TopologyEngine RunWorld}

theorem println (h : Replays s t) (line : String) : Replays s (println line t) :=
  h.world (w := s.world) h.failSet

theorem printAll (h : Replays s t) (lines : List String) : Replays s (printAll lines t) := by
  induction lines generalizing t with
  | nil => exact h
  | cons line lines ih => exact ih (h.println line)

end Replays

/-- The commands by which a scenario event is typed in. -/
def ScenarioEvent.commands [SerdeJson] (ev : ScenarioEvent) : List Command :=
  ev.failActions.map .fail ++
    [.event ev.signalId ev.event (ev.payload.map SerdeJson.valueToString), .reset]

theorem parseCommand_blank {line : String} (blank : trim line.toList = []) :
    parseCommand line = .ok (.unknown "") := by
  have none_split : splitWhitespace [] = [] := by
    rw [splitWhitespace]
    rfl
  unfold parseCommand
  rw [blank]
  dsimp only
  rw [none_split]

section

variable [RustStd] [SerdeJson]

/-- What `repl` does with lines that stand for commands. -/
theorem repl_commands (report : Report) {commands : List Command} {lines : List String}
    (typed : lines.map parseCommand = commands.map .ok)
    (proper : ∀ command ∈ commands, command ≠ .quit ∧ command ≠ .unknown "")
    (engine : TopologyEngine RunWorld) :
    repl report lines engine = commands.foldl (fun engine command => command.run report engine)
      engine := by
  induction lines generalizing commands engine with
  | nil =>
      obtain rfl := List.map_eq_nil_iff.mp typed.symm
      rfl
  | cons line lines ih =>
      cases commands with
      | nil => cases typed
      | cons command commands =>
          rw [List.map_cons, List.map_cons] at typed
          obtain ⟨parsed, rest⟩ := List.cons.inj typed
          obtain ⟨stays, known⟩ := proper command List.mem_cons_self
          have later := ih rest (fun other member => proper other (List.mem_cons_of_mem _ member))
          have visible : trim line.toList ≠ [] := by
            intro blank
            rw [parseCommand_blank blank] at parsed
            exact known (Except.ok.inj parsed).symm
          unfold repl
          rw [if_neg visible, parsed]
          split
          · next same => exact absurd (Except.ok.inj same) stays
          · next same =>
              obtain rfl := Except.ok.inj same
              exact later _
          · next same => cases same

variable {s t : TopologyEngine RunWorld}

/-- The `fail` commands of an event force its actions to fail. -/
theorem Replays.fails (h : Replays s t) (report : Report) (ids : List String) :
    Replays (inject ids s)
      ((ids.map Command.fail).foldl (fun engine command => command.run report engine) t) := by
  induction ids generalizing s t with
  | nil => exact h
  | cons id ids ih => exact ih (Replays.println (h.inject [id]) _)

/-- Typing in an event does what replaying it does. -/
theorem Replays.commands (h : Replays s t) (ready : Ready false s) (report : Report)
    (ev : ScenarioEvent) (faithful : ∀ v, ev.payload = some v →
      SerdeJson.valueFromStr (SerdeJson.valueToString v) = .ok v) :
    Replays (ev.run s).2 ((ScenarioEvent.commands ev).foldl
      (fun engine command => command.run report engine) t) := by
  have parsed : parsePayload (ev.payload.map SerdeJson.valueToString) = .ok ev.payload := by
    cases given : ev.payload with
    | none => rfl
    | some v => rw [Option.map_some, parsePayload, faithful v given]; rfl
  obtain ⟨answer, sent⟩ := (h.fails report ev.failActions).sendEvent
    (fun _ _ _ same => by rw [same]) ev.signalId ev.event ev.payload
  have settled := (ev.run_ready ready).1.failSet
  unfold ScenarioEvent.commands
  rw [List.foldl_append]
  simp only [List.foldl_cons, List.foldl_nil, Command.run, cmdEvent, parsed]
  refine Replays.println (SameRun.world (Replays.printAll sent _) ?_) _
  exact settled.symm

/-- A scenario that is typed into the shell, the failing actions of every event first and a reset
after it, leaves the engine of the shell as the replay tool leaves its own: with the same log, in
the same states, and with no action forced to fail. -/
theorem repl_replays {iter iter' : Finset String → List String}
    (visits : ∀ ids id, id ∈ iter ids ↔ id ∈ ids) (visits' : ∀ ids id, id ∈ iter' ids ↔ id ∈ ids)
    {fs : FileSystem} {path : String} (loaded : loadTopologyForRun iter fs path true false = .ok s)
    (loaded' : loadTopologyForRun iter' fs path true true = .ok t) {scenario : Scenario}
    (faithful : ∀ ev ∈ scenario.events, ∀ v, ev.payload = some v →
      SerdeJson.valueFromStr (SerdeJson.valueToString v) = .ok v) {lines : List String}
    (typed : lines.map parseCommand = (scenario.events.flatMap ScenarioEvent.commands).map .ok)
    (report : Report) :
    (repl report lines t).trace = (runScenario s scenario).2.trace ∧
      (∀ id, (repl report lines t).current id = (runScenario s scenario).2.current id) ∧
      (repl report lines t).world.failSet = ∅ := by
  have started : Replays s t := by
    obtain ⟨schema, built, read, fresh, rfl⟩ := loadTopologyForRun_built loaded
    obtain ⟨schema', built', read', fresh', rfl⟩ := loadTopologyForRun_built loaded'
    rw [read] at read'
    obtain rfl := Except.ok.inj read'
    rw [fresh] at fresh'
    obtain rfl := Except.ok.inj fresh'
    have lookups := fun ids record id => registerAll_lookup built ids (handler true record) id
    have frame := fun record (ids : List String) =>
      registerAll_frame built (ids.map fun id => (id, handler true record id))
    unfold registerActions at *
    rw [frame false, frame true]
    refine ⟨fun _ => rfl, rfl, rfl, fun id => ?_, rfl, rfl, rfl⟩
    dsimp only
    rw [lookups, lookups, fromSchema_unregistered fresh]
    by_cases collected : id ∈ collectActionIds schema
    · rw [if_pos ((visits _ id).mpr collected), if_pos ((visits' _ id).mpr collected)]
      exact .some ⟨rfl, rfl⟩
    · rw [if_neg ((visits _ id).not.mpr collected), if_neg ((visits' _ id).not.mpr collected)]
      exact .none
  have replayed : ∀ (events : List ScenarioEvent), (∀ ev ∈ events, ∀ v, ev.payload = some v →
      SerdeJson.valueFromStr (SerdeJson.valueToString v) = .ok v) → ∀ s t, Replays s t →
      Ready false s → Replays (session ScenarioEvent.run events s).2
        ((events.flatMap ScenarioEvent.commands).foldl
          (fun engine command => command.run report engine) t) ∧
        Ready false (session ScenarioEvent.run events s).2 := by
    intro events
    induction events with
    | nil => exact fun _ s t same ready => ⟨same, ready⟩
    | cons ev events ih =>
        intro faithful s t same ready
        rw [List.flatMap_cons, List.foldl_append]
        exact ih (fun other member => faithful other (List.mem_cons_of_mem ev member)) _ _
          (same.commands ready report ev (faithful ev List.mem_cons_self)) (ev.run_ready ready).1
  have proper : ∀ command ∈ scenario.events.flatMap ScenarioEvent.commands,
      command ≠ .quit ∧ command ≠ .unknown "" := by
    intro command member
    obtain ⟨ev, _, typed⟩ := List.mem_flatMap.mp member
    rcases List.mem_append.mp typed with failing | rest
    · obtain ⟨id, _, rfl⟩ := List.mem_map.mp failing
      simp
    · simp only [List.mem_cons, List.not_mem_nil, or_false] at rest
      rcases rest with rfl | rfl <;> simp
  rw [repl_commands report typed proper]
  obtain ⟨same, ready⟩ := replayed scenario.events faithful s t started
    (loadTopologyForRun_ready loaded).1
  exact ⟨same.trace, same.current, same.failSet.trans ready.failSet⟩

end

/-- The payload reads back as it was. -/
theorem lampScenario_faithful : ∀ ev ∈ lampScenario.events, ∀ v, ev.payload = some v →
    porchSerde.valueFromStr (porchSerde.valueToString v) = .ok v := by
  refine List.forall_mem_cons.mpr
    ⟨fun v given => ?_, List.forall_mem_singleton.mpr fun v given => ?_⟩
  · cases given
  · cases given
    exact if_pos rfl

theorem porch_replays : ∃ replayed shell,
    @loadTopologyForRun porchSerde Finset.toList porchFiles "main.json" true false =
      .ok replayed ∧
    @loadTopologyForRun porchSerde Finset.toList porchFiles "main.json" true true = .ok shell ∧
    let typed := @repl .ascii porchSerde (fun _ _ => []) lampLines shell
    let ran := (@runScenario .ascii porchSerde replayed lampScenario).2
    typed.trace = ran.trace ∧ (∀ id, typed.current id = ran.current id) ∧
      typed.world.failSet = ∅ := by
  obtain ⟨replayed, loaded⟩ := porch_loadedForRun false
  obtain ⟨shell, loaded'⟩ := porch_loadedForRun true
  have typed : lampLines.map parseCommand =
      (lampScenario.events.flatMap (@ScenarioEvent.commands porchSerde)).map .ok := by
    decide +kernel
  exact ⟨replayed, shell, loaded, loaded', @repl_replays .ascii porchSerde replayed shell
    Finset.toList Finset.toList (fun _ _ => Finset.mem_toList) (fun _ _ => Finset.mem_toList)
    porchFiles "main.json" loaded loaded' lampScenario lampScenario_faithful lampLines typed
    fun _ _ => []⟩

end SignalTopology.Sts
