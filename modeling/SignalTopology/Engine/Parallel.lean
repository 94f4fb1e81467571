import SignalTopology.Compose.Includes
import SignalTopology.Engine.Mirror
import SignalTopology.Engine.Registration
import SignalTopology.Library.Sessions

/-!
# Topologies side by side

An engine whose signals fall into parts that no reaction connects is the asynchronous product
of its parts: whatever is sent to other signals in between, a part does what an engine of its
own does with the events that are its own. Files that are loaded together and refer only to
their own signals are such parts.
-/

namespace SignalTopology

open Sequencing TopologyEngine

variable {A W : Type}

/-! ## One part of an engine -/

/-- The callback `f` of the whole keeps to the parts: for a signal of the part it does what `g`
does there, and for any other signal it leaves the world of the part alone. -/
structure Confines (ids : List String) (view : W → A) (g : ActionFn A) (f : ActionFn W) : Prop where
  own : ∀ ctx : ActionContext, ctx.signalId ∈ ids → ∀ world,
    Agree (fun a world => view world = a) (g ctx (view world)) (f ctx world)
  other : ∀ ctx : ActionContext, ctx.signalId ∉ ids → ∀ world, view (f ctx world).2 = view world

/-- The engine `s` is the part of `t` with the signals `ids`. -/
structure PartOf (ids : List String) (view : W → A) (s : TopologyEngine A) (t : TopologyEngine W) :
    Prop where
  signals : ∀ id ∈ ids, t.signals.lookup id = s.signals.lookup id
  transitions : s.transitions = t.transitions.filter (·.signalId ∈ ids)
  reactions : s.reactions = t.reactions.filter (·.fromSignal ∈ ids)
  apart : ∀ r ∈ t.reactions, r.fromSignal ∈ ids ↔ r.toSignal ∈ ids
  actions : ∀ id, Option.Rel (Confines ids view) (s.actions.lookup id) (t.actions.lookup id)
  maxCascadeDepth : t.maxCascadeDepth = s.maxCascadeDepth
  world : view t.world = s.world
  trace : s.trace = t.trace.filter (·.signalId ∈ ids)

namespace PartOf

variable {ids : List String} {view : W → A} {s : TopologyEngine A} {t : TopologyEngine W}

theorem current (h : PartOf ids view s t) {id : String} (own : id ∈ ids) :
    t.current id = s.current id := by
  rw [TopologyEngine.current, h.signals id own, TopologyEngine.current]

/-- What else is declared for a signal of the part does not matter to it. -/
theorem findTransition (h : PartOf ids view s t) {id : String} (own : id ∈ ids)
    (event state : String) :
    t.findTransition id event state = s.findTransition id event state := by
  rw [TopologyEngine.findTransition, TopologyEngine.findTransition, h.transitions,
    List.find?_filter]
  congr 1
  funext transition
  by_cases same : transition.signalId = id
  · simp [same, own]
  · simp [same]

theorem matchingReactions (h : PartOf ids view s t) {id : String} (own : id ∈ ids)
    (state : String) :
    t.matchingReactions id state = s.matchingReactions id state := by
  rw [TopologyEngine.matchingReactions, TopologyEngine.matchingReactions, h.reactions,
    List.filter_filter]
  congr 1
  funext reaction
  by_cases same : reaction.fromSignal = id
  · simp [same, own]
  · simp [same]

theorem push (h : PartOf ids view s t) {ev : TraceEvent} (own : ev.signalId ∈ ids) :
    PartOf ids view (s.push ev) (t.push ev) where
  signals := h.signals
  transitions := h.transitions
  reactions := h.reactions
  apart := h.apart
  actions := h.actions
  maxCascadeDepth := h.maxCascadeDepth
  world := h.world
  trace := by
    rw [push_trace, push_trace, List.filter_append, h.trace, List.filter_singleton]
    simp [own]

/-- What is recorded of other signals does not show in the part. -/
theorem push_other (h : PartOf ids view s t) {ev : TraceEvent} (other : ev.signalId ∉ ids) :
    PartOf ids view s (t.push ev) where
  signals := h.signals
  transitions := h.transitions
  reactions := h.reactions
  apart := h.apart
  actions := h.actions
  maxCascadeDepth := h.maxCascadeDepth
  world := h.world
  trace := by
    rw [push_trace, List.filter_append, h.trace, List.filter_singleton]
    simp [other]

theorem setCurrent (h : PartOf ids view s t) (signalId state : String) :
    PartOf ids view (s.setCurrent signalId state) (t.setCurrent signalId state) where
  signals id own := by rw [setCurrent_lookup, setCurrent_lookup, h.signals id own]
  transitions := by rw [setCurrent_transitions, setCurrent_transitions, h.transitions]
  reactions := by rw [setCurrent_reactions, setCurrent_reactions, h.reactions]
  apart := by
    rw [setCurrent_reactions]
    exact h.apart
  actions := by
    rw [setCurrent_actions, setCurrent_actions]
    exact h.actions
  maxCascadeDepth := by
    rw [setCurrent_maxCascadeDepth, setCurrent_maxCascadeDepth, h.maxCascadeDepth]
  world := by rw [setCurrent_world, setCurrent_world, h.world]
  trace := by rw [setCurrent_trace, setCurrent_trace, h.trace]

theorem setCurrent_other (h : PartOf ids view s t) {signalId : String} (other : signalId ∉ ids)
    (state : String) : PartOf ids view s (t.setCurrent signalId state) where
  signals id own := by
    have apart : id ≠ signalId := fun same => other (same ▸ own)
    rw [setCurrent_lookup, if_neg apart, h.signals id own]
  transitions := by rw [setCurrent_transitions, h.transitions]
  reactions := by rw [setCurrent_reactions, h.reactions]
  apart := by
    rw [setCurrent_reactions]
    exact h.apart
  actions := by
    rw [setCurrent_actions]
    exact h.actions
  maxCascadeDepth := by rw [setCurrent_maxCascadeDepth, h.maxCascadeDepth]
  world := by rw [setCurrent_world, h.world]
  trace := by rw [setCurrent_trace, h.trace]

theorem call (h : PartOf ids view s t) {a : A} {world : W} (same : view world = a) :
    PartOf ids view { s with world := a } { t with world } :=
  ⟨h.signals, h.transitions, h.reactions, h.apart, h.actions, h.maxCascadeDepth, same, h.trace⟩

/-- On its own signals the part and the whole go alike. -/
theorem mirrors (ids : List String) (view : W → A) :
    Mirrors {id | id ∈ ids} (PartOf ids view) where
  current h _ own := h.current own
  findTransition h _ own := h.findTransition own
  matchingReactions h _ own := h.matchingReactions own
  closed {s t} h id own id' edge := by
    obtain ⟨r, declared, source, target⟩ := edge
    rw [h.reactions] at declared
    have inside := (h.apart r (List.mem_of_mem_filter declared)).mp (source ▸ own)
    exact target ▸ inside
  push h _ own := h.push own
  setCurrent h id _ state := h.setCurrent id state
  call {s t} h actionId ctx own := by
    have actions := h.actions actionId
    revert actions
    cases s.actions.lookup actionId <;> cases t.actions.lookup actionId <;> intro actions <;>
      cases actions
    · exact .none
    next confined =>
      have answer := confined.own ctx own t.world
      rw [h.world] at answer
      exact .some ⟨answer.1, h.call answer.2⟩

/-- A call about another signal stays outside the part. -/
theorem mirrors_other (ids : List String) (view : W → A) (s : TopologyEngine A) :
    Mirrors {id | id ∉ ids} fun t t' : TopologyEngine W => t = t' ∧ PartOf ids view s t where
  current := by
    rintro t _ ⟨rfl, _⟩ _ _
    rfl
  findTransition := by
    rintro t _ ⟨rfl, _⟩ _ _ _ _
    rfl
  matchingReactions := by
    rintro t _ ⟨rfl, _⟩ _ _ _
    rfl
  closed := by
    rintro t _ ⟨rfl, h⟩ id other id' ⟨r, declared, rfl, rfl⟩
    exact (h.apart r declared).not.mp other
  push := by
    rintro t _ ⟨rfl, h⟩ ev other
    exact ⟨rfl, h.push_other other⟩
  setCurrent := by
    rintro t _ ⟨rfl, h⟩ id other state
    exact ⟨rfl, h.setCurrent_other other state⟩
  call := by
    rintro t _ ⟨rfl, h⟩ actionId ctx other
    have actions := h.actions actionId
    revert actions
    cases s.actions.lookup actionId <;> cases t.actions.lookup actionId <;> intro actions <;>
      cases actions
    · exact .none
    next confined =>
      exact .some ⟨rfl, rfl, h.call ((confined.other ctx other t.world).trans h.world)⟩

end PartOf

section

variable [RustStd] [SerdeJson]

/-- An event as a request to an engine. -/
def Event.send (ev : Event) (engine : TopologyEngine W) :
    Except EngineError TransitionResult × TopologyEngine W :=
  engine.sendEvent ev.signalId ev.event ev.payload

/-- The events of a part. -/
def Event.within (ids : List String) (ev : Event) : Option Event :=
  if ev.signalId ∈ ids then some ev else none

/-- Among any events, those of a part are answered as by an engine of its own. -/
theorem PartOf.session {ids : List String} {view : W → A} {s : TopologyEngine A}
    {t : TopologyEngine W} (h : PartOf ids view s t) (events : List Event) :
    answersTo (Event.within ids) events (session Event.send events t).1 =
        (session Event.send (events.filterMap (Event.within ids)) s).1 ∧
      PartOf ids view (session Event.send (events.filterMap (Event.within ids)) s).2
        (session Event.send events t).2 := by
  refine session_repeats (R := fun t s => PartOf ids view s t) (Event.within ids) ?_ ?_ h
  · intro ev _ ev' found t s related
    unfold Event.within at found
    split at found
    · next own =>
        obtain rfl := Option.some.inj found
        obtain ⟨answer, after⟩ := (mirrors ids view).sendEvent related related.maxCascadeDepth own
          ev.event ev.payload
        exact ⟨answer.symm, after⟩
    · cases found
  · intro ev _ found t s related
    unfold Event.within at found
    split at found
    · cases found
    · next other =>
        exact ((mirrors_other ids view s).sendEvent ⟨rfl, related⟩ rfl other ev.event
          ev.payload).2.2

end

/-! ## Files that are loaded together -/

/-- The signals that a file declares. -/
def SourceFile.ids (file : SourceFile) : List String := file.schema.signals.map (·.id)

/-- A file that could be loaded alone: it declares no instances, and its transitions and
reactions are about its own signals. -/
structure SourceFile.SelfContained (file : SourceFile) : Prop where
  flat : file.schema.Flat
  valid : validate file.schema = .ok ()

section

variable {files : List SourceFile} {file : SourceFile}

theorem Separate.ids_apart (separate : Separate files) (member : file ∈ files) {other : SourceFile}
    (member' : other ∈ files) {id : String} (own : id ∈ file.ids) (also : id ∈ other.ids) :
    file = other := by
  have signals := separate.signals
  rw [List.map_flatMap, List.nodup_flatMap] at signals
  have symmetric : Std.Symm fun a b : SourceFile => a.ids.Disjoint b.ids := ⟨fun _ _ h => h.symm⟩
  have apart : files.Pairwise fun a b => a.ids.Disjoint b.ids := signals.2
  by_contra ne
  exact apart.forall member member' ne own also

/-- What is declared for the signals of one file is what this file declares. -/
theorem Separate.filter_own (separate : Separate files) (member : file ∈ files) {α : Type}
    (declares : SourceFile → List α) (owner : α → String)
    (within : ∀ file ∈ files, ∀ a ∈ declares file, owner a ∈ file.ids) :
    (files.flatMap declares).filter (owner · ∈ file.ids) = declares file := by
  have kept : (declares file).filter (owner · ∈ file.ids) = declares file := by
    rw [List.filter_eq_self]
    exact fun a declared => decide_eq_true (within file member a declared)
  have dropped : ∀ other ∈ files, other ≠ file →
      (declares other).filter (owner · ∈ file.ids) = [] := by
    intro other member' ne
    rw [List.filter_eq_nil_iff]
    intro a declared own
    exact ne (separate.ids_apart member' member (within other member' a declared)
      (of_decide_eq_true own))
  have once : files.Nodup := List.Nodup.of_map _ separate.canonicals
  obtain ⟨front, back, rfl⟩ := List.append_of_mem member
  have apart := List.nodup_middle.mp once
  rw [List.nodup_cons, List.mem_append, not_or] at apart
  have nothing : ∀ others : List SourceFile, (∀ other ∈ others, other ∈ front ++ file :: back) →
      file ∉ others → (others.flatMap declares).filter (owner · ∈ file.ids) = [] := by
    intro others inside absent
    rw [List.filter_flatMap, List.flatMap_eq_nil_iff]
    exact fun other among => dropped other (inside other among) fun same => absent (same ▸ among)
  rw [List.flatMap_append, List.flatMap_cons, List.filter_append, List.filter_append, kept,
    nothing front (by simp +contextual) apart.1.1, nothing back (by simp +contextual) apart.1.2]
  simp

/-- The union of self-contained files is valid. -/
theorem Separate.valid (separate : Separate files)
    (alone : ∀ file ∈ files, file.SelfContained) {merged : TopologySchema}
    (signals : merged.signals = files.flatMap (·.schema.signals))
    (transitions : merged.transitions = files.flatMap (·.schema.transitions))
    (reactions : merged.reactions = files.flatMap (·.schema.reactions)) :
    validate merged = .ok () := by
  have checked : ∀ file ∈ files, _ := fun file member => validate_iff.mp (alone file member).valid
  have inside : ∀ file ∈ files, ∀ id ∈ file.ids, id ∈ merged.signals.map (·.id) := by
    intro file member id own
    obtain ⟨sig, declared, rfl⟩ := List.mem_map.mp own
    rw [signals]
    exact List.mem_map_of_mem (List.mem_flatMap.mpr ⟨file, member, declared⟩)
  refine validate_iff.mpr
    ⟨⟨signals ▸ separate.signals, fun sig declared => ?_, fun t declared => ?_⟩,
    fun r declared => ?_⟩
  · rw [signals] at declared
    obtain ⟨file, member, own⟩ := List.mem_flatMap.mp declared
    exact (checked file member).1.initial sig own
  · rw [transitions] at declared
    obtain ⟨file, member, own⟩ := List.mem_flatMap.mp declared
    obtain ⟨sig, known, legal⟩ := (checked file member).1.transition t own
    refine ⟨sig, ?_, legal⟩
    rw [signals]
    exact List.mem_flatMap.mpr ⟨file, member, known⟩
  · rw [reactions] at declared
    obtain ⟨file, member, own⟩ := List.mem_flatMap.mp declared
    obtain ⟨source, target⟩ := (checked file member).2 r own
    exact ⟨inside file member _ source, inside file member _ target⟩

end

theorem PartOf.registerAction {ids : List String} {view : W → A} {s : TopologyEngine A}
    {t : TopologyEngine W} (h : PartOf ids view s t) (actionId : String) {g : ActionFn A}
    {f : ActionFn W} (confined : Confines ids view g f) :
    PartOf ids view (s.registerAction actionId g) (t.registerAction actionId f) where
  signals := h.signals
  transitions := h.transitions
  reactions := h.reactions
  apart := h.apart
  actions id := by
    show Option.Rel _ ((s.actions.insert actionId g).lookup id)
      ((t.actions.insert actionId f).lookup id)
    by_cases same : id = actionId
    · rw [same, AList.lookup_insert, AList.lookup_insert]
      exact .some confined
    · rw [AList.lookup_insert_ne same, AList.lookup_insert_ne same]
      exact h.actions id
  maxCascadeDepth := h.maxCascadeDepth
  world := h.world
  trace := h.trace

theorem PartOf.setMaxCascadeDepth {ids : List String} {view : W → A} {s : TopologyEngine A}
    {t : TopologyEngine W} (h : PartOf ids view s t) (depth : Nat) :
    PartOf ids view (s.setMaxCascadeDepth depth) (t.setMaxCascadeDepth depth) :=
  ⟨h.signals, h.transitions, h.reactions, h.apart, h.actions, rfl, h.world, h.trace⟩

/-- Handlers for the same ids, those of the whole confined to the part. -/
abbrev ConfinesAll (ids : List String) (view : W → A) (handlers' : List (String × ActionFn A))
    (handlers : List (String × ActionFn W)) : Prop :=
  List.Forall₂ (fun g f => g.1 = f.1 ∧ Confines ids view g.2 f.2) handlers' handlers

theorem PartOf.registerAll {ids : List String} {view : W → A} {s : TopologyEngine A}
    {t : TopologyEngine W} (h : PartOf ids view s t) {handlers' : List (String × ActionFn A)}
    {handlers : List (String × ActionFn W)} (confined : ConfinesAll ids view handlers' handlers) :
    PartOf ids view (registerAll s handlers') (registerAll t handlers) := by
  induction confined generalizing s t with
  | nil => exact h
  | @cons g f _ _ first _ ih =>
      obtain ⟨actionId, g⟩ := g
      obtain ⟨_, f⟩ := f
      obtain ⟨rfl, confined⟩ := first
      exact ih (h.registerAction actionId confined)

section

variable [RustStd] [SerdeJson]

omit [RustStd] in
/-- Loading self-contained files gives what they declare, one file after the other. -/
theorem loadTopology_selfContained {fs : FileSystem} {path : String} {root : SourceFile}
    {below : List SourceFile} (unfolds : Unfolds fs [path] (root :: below))
    (separate : Separate (root :: below))
    (alone : ∀ file ∈ root :: below, file.SelfContained) :
    ∃ merged : TopologySchema, loadTopology fs path = .ok merged ∧ merged.Flat ∧
      validate merged = .ok () ∧
      merged.signals = (root :: below).flatMap (·.schema.signals) ∧
      merged.transitions = (root :: below).flatMap (·.schema.transitions) ∧
      merged.reactions = (root :: below).flatMap (·.schema.reactions) := by
  obtain ⟨merged, appended, loaded⟩ := loadTopology_merged unfolds separate
  have flat : merged.Flat := appended.instances.trans (alone root List.mem_cons_self).flat
  rw [expand_of_flat flat] at loaded
  exact ⟨merged, loaded, flat,
    separate.valid alone appended.signals appended.transitions appended.reactions,
    appended.signals, appended.transitions, appended.reactions⟩

/-- Self-contained files that are loaded together run side by side. The merged topology is
accepted, and whatever events its engine is sent in any order, unknown signals included: the
events of one file are answered as by an engine for this file alone that is sent no others, and
its signals end in the same states, its callbacks in the same world and its part of the log is
the same. -/
theorem loadTopology_sideBySide {fs : FileSystem} {path : String} {root : SourceFile}
    {below : List SourceFile} (unfolds : Unfolds fs [path] (root :: below))
    (separate : Separate (root :: below))
    (alone : ∀ file ∈ root :: below, file.SelfContained) :
    ∃ merged, loadTopology fs path = .ok merged ∧ ∀ world : W,
      ∃ whole, fromSchema world merged = .ok whole ∧
        ∀ file ∈ root :: below, ∀ view : W → A,
          ∃ part, fromSchema (view world) file.schema = .ok part ∧
            ∀ handlers' handlers, ConfinesAll file.ids view handlers' handlers →
              ∀ (depth : Nat) (events : List Event),
                let ran := session Event.send events
                  ((registerAll whole handlers).setMaxCascadeDepth depth)
                let own := session Event.send (events.filterMap (Event.within file.ids))
                  ((registerAll part handlers').setMaxCascadeDepth depth)
                answersTo (Event.within file.ids) events ran.1 = own.1 ∧
                  (∀ id ∈ file.ids, ran.2.current id = own.2.current id) ∧
                  view ran.2.world = own.2.world ∧
                  ran.2.trace.filter (·.signalId ∈ file.ids) = own.2.trace := by
  obtain ⟨merged, loaded, flat, valid, signals, transitions, reactions⟩ :=
    loadTopology_selfContained unfolds separate alone
  refine ⟨merged, loaded, fun world => ⟨_, fromSchema_flat flat valid world, ?_⟩⟩
  intro file member view
  refine ⟨_, fromSchema_flat (alone file member).flat (alone file member).valid (view world), ?_⟩
  intro handlers' handlers confined depth events
  have checked : ∀ file ∈ root :: below, _ := fun file member =>
    validate_iff.mp (alone file member).valid
  -- the fresh engine for the file is a part of the fresh engine for all of them
  have fresh : PartOf file.ids view
      { signals := signalTable (·.initialState) file.schema.signals
        transitions := file.schema.transitions
        reactions := file.schema.reactions
        actions := ∅
        trace := []
        maxCascadeDepth := 8
        world := view world }
      { signals := signalTable (·.initialState) merged.signals
        transitions := merged.transitions
        reactions := merged.reactions
        actions := ∅
        trace := []
        maxCascadeDepth := 8
        world } := by
    refine ⟨fun id own => ?_, ?_, ?_, fun r declared => ?_, fun _ => .none, rfl, rfl, rfl⟩
    · obtain ⟨sig, declared, rfl⟩ := List.mem_map.mp own
      rw [signalTable_member (validate_ok valid).distinct (·.initialState) (by
          rw [signals]
          exact List.mem_flatMap.mpr ⟨file, member, declared⟩),
        signalTable_member (checked file member).1.distinct (·.initialState) declared]
    · dsimp only
      rw [transitions]
      refine (separate.filter_own member (fun file => file.schema.transitions)
        (fun t : TransitionDef => t.signalId) ?_).symm
      intro file member t declared
      obtain ⟨sig, known, same, _⟩ := (checked file member).1.transition t declared
      exact same ▸ List.mem_map_of_mem known
    · dsimp only
      rw [reactions]
      refine (separate.filter_own member (fun file => file.schema.reactions)
        (fun r : ReactionDef => r.fromSignal) ?_).symm
      exact fun file member r declared => ((checked file member).2 r declared).1
    · dsimp only at declared
      rw [reactions] at declared
      obtain ⟨other, member', declared⟩ := List.mem_flatMap.mp declared
      obtain ⟨source, target⟩ := (checked other member').2 r declared
      constructor
      · intro own
        rwa [separate.ids_apart member member' own source]
      · intro own
        rwa [separate.ids_apart member member' own target]
  obtain ⟨answers, after⟩ :=
    ((fresh.registerAll confined).setMaxCascadeDepth depth).session events
  exact ⟨answers, fun id own => after.current own, after.world, after.trace.symm⟩

end

/-! ## A lamp and a bell -/

/-- A file with one signal that an event moves back and forth, counted by a callback. -/
def toggleFile (canonical id actionId : String) (includes : List String) : SourceFile where
  canonical := canonical
  schema := {
    version := "1.0"
    signals := [⟨id, "off", ["off", "on"]⟩]
    transitions := [
      { signalId := id, fromState := "off", event := "toggle", toState := "on"
        actions := { onEnter := [actionId] } },
      { signalId := id, fromState := "on", event := "toggle", toState := "off" }]
    includes := includes }

def toggleJson (id actionId includes : String) : String :=
  "\x7b\"version\":\"1.0\",\"signals\":[\x7b\"id\":\"" ++ id ++ "\",\"initial_state\":\"off\"," ++
    "\"states\":[\"off\",\"on\"]\x7d],\"transitions\":[\x7b\"signal\":\"" ++ id ++
    "\",\"from\":\"off\",\"event\":\"toggle\",\"to\":\"on\",\"actions\":\x7b\"on_enter\":[\"" ++
    actionId ++ "\"]\x7d\x7d,\x7b\"signal\":\"" ++ id ++
    "\",\"from\":\"on\",\"event\":\"toggle\",\"to\":\"off\"\x7d]" ++ includes ++ "\x7d"

def lampFile : SourceFile := toggleFile "/porch/main.json" "lamp" "light" ["bell.json"]

def bellFile : SourceFile := toggleFile "/porch/bell.json" "bell" "ring" []

def lampJson : String := toggleJson "lamp" "light" ",\"includes\":[\"bell.json\"]"

def bellJson : String := toggleJson "bell" "ring" ""

def porchFiles : FileSystem where
  readToString path :=
    if path = "main.json" then some lampJson
    else if path = "bell.json" then some bellJson
    else none
  canonicalize path :=
    if path = "main.json" then some "/porch/main.json"
    else if path = "bell.json" then some "/porch/bell.json"
    else none
  parent _ := some ""
  join _ inc := inc
  files := {"/porch/main.json", "/porch/bell.json"}
  canonicalize_mem := by
    intro path canonical named
    by_cases main : path = "main.json"
    · rw [if_pos main] at named
      cases named
      decide
    · rw [if_neg main] at named
      by_cases bell : path = "bell.json"
      · rw [if_pos bell] at named
        cases named
        decide
      · rw [if_neg bell] at named
        cases named

@[reducible] def porchSerde : SerdeJson where
  valueFromStr text :=
    if text = "true" then .ok (.bool true) else .error "expected value at line 1 column 1"
  schemaFromStr text :=
    if text = lampJson then .ok lampFile.schema
    else if text = bellJson then .ok bellFile.schema
    else .error "expected value at line 1 column 1"
  valueToString
    | .bool b => toString b
    | _ => "null"

theorem porch_unfolds : @Unfolds porchSerde porchFiles ["main.json"] [lampFile, bellFile] := by
  have lamp : porchSerde.schemaFromStr lampJson = .ok lampFile.schema := if_pos rfl
  have bell : porchSerde.schemaFromStr bellJson = .ok bellFile.schema := by
    have other : bellJson ≠ lampJson := by decide +kernel
    exact (if_neg other).trans (if_pos rfl)
  let _ : SerdeJson := porchSerde
  exact .cons rfl lamp rfl (.cons rfl bell rfl .nil .nil) .nil

theorem porch_separate : Separate [lampFile, bellFile] := ⟨by decide, by decide⟩

theorem porch_selfContained : ∀ file ∈ [lampFile, bellFile], file.SelfContained :=
  List.forall_mem_cons.mpr ⟨⟨rfl, rfl⟩, List.forall_mem_singleton.mpr ⟨rfl, rfl⟩⟩

/-- The lamp is lit, the bell rings, an unknown signal is tried, and the lamp goes out. -/
def porchEvents : List Event :=
  [⟨"lamp", "toggle", none⟩, ⟨"bell", "toggle", none⟩, ⟨"gate", "open", none⟩,
    ⟨"lamp", "toggle", none⟩]

/-- The callbacks count for the lamp in one half of the world and for the bell in the other. -/
def tally : ActionFn (Nat × Nat) := fun ctx world =>
  (.ok (), if ctx.signalId = "lamp" then (world.1 + 1, world.2) else (world.1, world.2 + 1))

def lampTally : ActionFn Nat := fun _ count => (.ok (), count + 1)

theorem tally_confined :
    ConfinesAll lampFile.ids Prod.fst [("light", lampTally), ("ring", lampTally)]
    [("light", tally), ("ring", tally)] := by
  have confined : Confines lampFile.ids Prod.fst lampTally tally := by
    constructor
    · intro ctx own world
      have lamp : ctx.signalId = "lamp" := List.mem_singleton.mp own
      refine ⟨rfl, ?_⟩
      simp only [tally, if_pos lamp, lampTally]
    · intro ctx other world
      have bell : ctx.signalId ≠ "lamp" := fun lamp => other (List.mem_singleton.mpr lamp)
      simp only [tally, if_neg bell]
  exact .cons ⟨rfl, confined⟩ (.cons ⟨rfl, confined⟩ .nil)

/-- The lamp is answered, moved, counted and logged as if it were alone. -/
theorem porch_sideBySide : ∃ merged whole part,
    @loadTopology porchSerde porchFiles "main.json" = .ok merged ∧
    fromSchema (0, 0) merged = .ok whole ∧ fromSchema 0 lampFile.schema = .ok part ∧
    let ran := @session _ _ _ (@Event.send _ .ascii porchSerde) porchEvents
      ((registerAll whole [("light", tally), ("ring", tally)]).setMaxCascadeDepth 8)
    let own := @session _ _ _ (@Event.send _ .ascii porchSerde)
      (porchEvents.filterMap (Event.within lampFile.ids))
      ((registerAll part [("light", lampTally), ("ring", lampTally)]).setMaxCascadeDepth 8)
    answersTo (Event.within lampFile.ids) porchEvents ran.1 = own.1 ∧
      (∀ id ∈ lampFile.ids, ran.2.current id = own.2.current id) ∧
      ran.2.world.1 = own.2.world ∧
      ran.2.trace.filter (·.signalId ∈ lampFile.ids) = own.2.trace := by
  obtain ⟨merged, loaded, build⟩ := @loadTopology_sideBySide Nat (Nat × Nat) .ascii porchSerde
    porchFiles "main.json" lampFile [bellFile] porch_unfolds
    porch_separate porch_selfContained
  obtain ⟨whole, built, alone⟩ := build (0, 0)
  obtain ⟨part, built', same⟩ := alone lampFile List.mem_cons_self Prod.fst
  exact ⟨merged, whole, part, loaded, built, built', same _ _ tally_confined 8 porchEvents⟩

end SignalTopology
