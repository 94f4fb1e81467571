import SignalTopology.Engine.History

/-!
# Persistence and hot reload

`load_state` reads and parses a file before it looks at the engine, so its
argument here is what that gives. `reload_topology` replaces the signal table
and keeps the current state of every signal that is still declared.
-/

namespace SignalTopology

open Fallible

/-- A snapshot of every signal's current state. -/
structure StateSnapshot where
  states : HashMap String

namespace TopologyEngine

variable {W : Type}

/-- The snapshot `save_state` writes. -/
def saveState (engine : TopologyEngine W) : StateSnapshot where
  states := engine.signals.foldl (fun states id signal => states.insert id signal.current) ∅

/-- One entry of the first loop of `load_state`. -/
def checkEntry (engine : TopologyEngine W) (signalId state : String) : Except EngineError Unit :=
  match engine.signals.lookup signalId with
  | none => .error (.persistenceError ("Unknown signal: " ++ signalId))
  | some signal => if state ∈ signal.states then .ok () else .error (.stateNotFound signalId state)

/-- `load_state`: every entry is checked before the first one is written. -/
def loadState (engine : TopologyEngine W) (file : Except String StateSnapshot) :
    Except EngineError Unit × TopologyEngine W :=
  match file with
  | .error message => (.error (.persistenceError message), engine)
  | .ok snapshot =>
      match snapshot.states.entries.forM fun entry => engine.checkEntry entry.1 entry.2 with
      | .error e => (.error e, engine)
      | .ok () => (.ok (), snapshot.states.foldl setCurrent engine)

/-- `reload_topology`. -/
def reloadTopology [SerdeJson] (engine : TopologyEngine W) (json : String) :
    Except EngineError Unit × TopologyEngine W :=
  match SerdeJson.schemaFromStr json with
  | .error message => (.error (.reloadError message), engine)
  | .ok schema =>
      match validate schema with
      | .error e => (.error (.reloadError e.toString), engine)
      | .ok () => (.ok (), { engine with
          signals := signalTable (fun sig => (engine.current sig.id).getD sig.initialState)
            schema.signals
          transitions := schema.transitions
          reactions := schema.reactions })

/-! ## The state-space invariant -/

/-- Every signal is in one of its own states. -/
def Legal (engine : TopologyEngine W) : Prop :=
  ∀ id signal, engine.signals.lookup id = some signal → signal.current ∈ signal.states

/-- Moreover, every transition leads to a state of its signal. -/
structure Sound (engine : TopologyEngine W) : Prop where
  legal : engine.Legal
  target : ∀ t ∈ engine.transitions, ∀ signal, engine.signals.lookup t.signalId = some signal →
    t.toState ∈ signal.states

/-- The entries of the file that `save_state` writes. -/
theorem saveState_lookup (engine : TopologyEngine W) (id : String) :
    engine.saveState.states.lookup id = engine.current id := by
  have loop : ∀ (entries : List (Sigma fun _ : String => SignalState)) (states : HashMap String),
      entries.NodupKeys →
      (entries.foldl (fun states entry => states.insert entry.1 entry.2.current) states).lookup
          id =
        (entries.dlookup id).elim (states.lookup id) fun signal => some signal.current := by
    intro entries
    induction entries with
    | nil => simp
    | cons entry entries ih =>
        intro states distinct
        obtain ⟨key, signal⟩ := entry
        rw [List.nodupKeys_cons] at distinct
        rw [List.foldl_cons, ih _ distinct.2]
        by_cases same : id = key
        · subst same
          have absent : entries.dlookup id = none := List.dlookup_eq_none.mpr distinct.1
          simp [absent]
        · rw [List.dlookup_cons_ne _ _ same]
          cases entries.dlookup id with
          | none => exact AList.lookup_insert_ne same
          | some signal' => rfl
  have table := loop engine.signals.entries ∅ engine.signals.nodupKeys
  refine table.trans ?_
  change (engine.signals.lookup id).elim none (fun signal => some signal.current) =
    (engine.signals.lookup id).map (·.current)
  cases engine.signals.lookup id with
  | none => rfl
  | some signal => rfl

theorem checkEntry_ok {engine : TopologyEngine W} {signalId state : String} :
    engine.checkEntry signalId state = .ok () ↔
      ∃ signal, engine.signals.lookup signalId = some signal ∧ state ∈ signal.states := by
  unfold checkEntry
  cases engine.signals.lookup signalId with
  | none => simp
  | some signal => simp

/-- A saved snapshot is accepted exactly in a legal engine. -/
theorem loadState_saveState (engine : TopologyEngine W) :
    (engine.loadState (.ok engine.saveState)).1 = .ok () ↔ engine.Legal := by
  have accepted : (engine.loadState (.ok engine.saveState)).1 = .ok () ↔
      engine.saveState.states.entries.forM
        (fun entry => engine.checkEntry entry.1 entry.2) = .ok () := by
    simp only [loadState]
    split <;> simp_all
  rw [accepted, forM_ok_iff]
  constructor
  · intro checked id signal found
    have written : engine.saveState.states.lookup id = some signal.current := by
      rw [saveState_lookup, current, found, Option.map_some]
    obtain ⟨signal', found', member⟩ := checkEntry_ok.mp
      (checked ⟨id, signal.current⟩ (AList.mem_lookup_iff.mp written))
    rw [found] at found'
    cases found'
    exact member
  · intro legal entry member
    have written : engine.saveState.states.lookup entry.1 = some entry.2 :=
      AList.mem_lookup_iff.mpr member
    rw [saveState_lookup] at written
    obtain ⟨signal, found, same⟩ := Option.map_eq_some_iff.mp written
    exact checkEntry_ok.mpr ⟨signal, found, same ▸ legal entry.1 signal found⟩

/-- Writing a legal state keeps the invariant. -/
theorem Sound.setCurrent {engine : TopologyEngine W} (h : engine.Sound) {signalId state : String}
    (member : ∀ signal, engine.signals.lookup signalId = some signal → state ∈ signal.states) :
    (engine.setCurrent signalId state).Sound := by
  constructor
  · intro id signal found
    rw [setCurrent_lookup] at found
    split at found
    · next same =>
        obtain ⟨signal', found', rfl⟩ := Option.map_eq_some_iff.mp found
        exact member signal' (same ▸ found')
    · exact h.legal id signal found
  · intro t declared signal found
    rw [setCurrent_transitions] at declared
    rw [setCurrent_lookup] at found
    split at found
    · obtain ⟨signal', found', rfl⟩ := Option.map_eq_some_iff.mp found
      exact h.target t declared signal' found'
    · exact h.target t declared signal found

theorem Sound.loadState {engine : TopologyEngine W} (h : engine.Sound)
    (file : Except String StateSnapshot) : (engine.loadState file).2.Sound := by
  cases file with
  | error message => exact h
  | ok snapshot =>
      unfold TopologyEngine.loadState
      dsimp only
      split
      · exact h
      · next checked =>
          have legal := forM_ok_iff.mp checked
          clear checked
          -- writing states keeps the state lists the entries were checked against
          have loop : ∀ (entries : List (Sigma fun _ : String => String))
              (target : TopologyEngine W), target.Sound →
              (∀ entry ∈ entries, ∀ signal, target.signals.lookup entry.1 = some signal →
                entry.2 ∈ signal.states) →
              (entries.foldl (fun engine entry => engine.setCurrent entry.1 entry.2)
                target).Sound := by
            intro entries
            induction entries with
            | nil => exact fun target sound _ => sound
            | cons entry entries ih =>
                intro target sound allowed
                rw [List.foldl_cons]
                refine ih _ (sound.setCurrent (allowed entry List.mem_cons_self)) ?_
                intro later member signal found
                rw [setCurrent_lookup] at found
                split at found
                · obtain ⟨signal', found', rfl⟩ := Option.map_eq_some_iff.mp found
                  exact allowed later (List.mem_cons_of_mem _ member) signal' found'
                · exact allowed later (List.mem_cons_of_mem _ member) signal found
          refine loop snapshot.states.entries engine h fun entry member signal found => ?_
          obtain ⟨signal', found', allowed⟩ := checkEntry_ok.mp (legal entry member)
          rw [found] at found'
          cases found'
          exact allowed

/-- Every signal kept by a successful reload is in one of its new states. -/
def ReloadKeeps [SerdeJson] (engine : TopologyEngine W) (json : String) : Prop :=
  ∀ schema, SerdeJson.schemaFromStr json = .ok schema → validate schema = .ok () →
    ∀ sig ∈ schema.signals, ∀ state, engine.current sig.id = some state → state ∈ sig.states

theorem reload_cases [SerdeJson] (engine : TopologyEngine W) (json : String) :
    (engine.reloadTopology json).2 = engine ∧
      (∀ schema, SerdeJson.schemaFromStr json = .ok schema → validate schema ≠ .ok ()) ∨
    ∃ schema, SerdeJson.schemaFromStr json = .ok schema ∧ validate schema = .ok () ∧
      (engine.reloadTopology json).2.transitions = schema.transitions ∧
      (engine.reloadTopology json).2.signals =
        signalTable (fun sig => (engine.current sig.id).getD sig.initialState) schema.signals := by
  unfold reloadTopology
  rcases parsed : SerdeJson.schemaFromStr json with message | schema
  · exact .inl ⟨rfl, by simp⟩
  · rcases checked : validate schema with e | _
    · refine .inl ⟨by simp [checked], fun schema' same => ?_⟩
      cases same
      rw [checked]
      exact fun accepted => by cases accepted
    · exact .inr ⟨schema, rfl, checked, by simp [checked], by simp [checked]⟩

/-- A reload keeps the invariant exactly when it keeps the kept states. -/
theorem Legal.reload_iff [SerdeJson] {engine : TopologyEngine W} (h : engine.Legal)
    (json : String) : (engine.reloadTopology json).2.Legal ↔ engine.ReloadKeeps json := by
  obtain ⟨same, rejected⟩ | ⟨schema, parsed, checked, _, signals⟩ := engine.reload_cases json
  · rw [same]
    exact ⟨fun _ schema parsed checked => absurd checked (rejected schema parsed), fun _ => h⟩
  · have valid := validate_ok checked
    constructor
    · intro legal schema' parsed' _ sig member state held
      rw [parsed] at parsed'
      cases parsed'
      have found := signalTable_member valid.distinct
        (fun sig => (engine.current sig.id).getD sig.initialState) member
      rw [← signals] at found
      have kept := legal sig.id _ found
      rw [SignalDef.state, held] at kept
      exact kept
    · intro keeps id signal found
      rw [signals] at found
      obtain ⟨sig, member, rfl, rfl⟩ := signalTable_some valid.distinct found
      cases held : engine.current sig.id with
      | none => simpa [SignalDef.state, held] using valid.initial sig member
      | some state =>
          simpa [SignalDef.state, held] using keeps schema parsed checked sig member state held

theorem Sound.reload [SerdeJson] {engine : TopologyEngine W} (h : engine.Sound) {json : String}
    (keeps : engine.ReloadKeeps json) : (engine.reloadTopology json).2.Sound := by
  refine ⟨(h.legal.reload_iff json).mpr keeps, ?_⟩
  obtain ⟨same, _⟩ | ⟨schema, _, checked, transitions, signals⟩ := engine.reload_cases json
  · rw [same]
    exact h.target
  · have valid := validate_ok checked
    intro t declared signal found
    rw [transitions] at declared
    rw [signals] at found
    obtain ⟨sig, member, owner, rfl⟩ := signalTable_some valid.distinct found
    exact valid.target t declared sig member owner

/-- A freshly built engine satisfies the invariant. -/
theorem fromSchema_sound {world : W} {schema : TopologySchema} {engine : TopologyEngine W}
    (built : fromSchema world schema = .ok engine) : engine.Sound := by
  obtain ⟨flat, _, valid, signals, transitions, _⟩ := fromSchema_spec built
  constructor
  · intro id signal found
    rw [signals] at found
    obtain ⟨sig, member, _, rfl⟩ := signalTable_some valid.distinct found
    exact valid.initial sig member
  · intro t declared signal found
    rw [transitions] at declared
    rw [signals] at found
    obtain ⟨sig, member, owner, rfl⟩ := signalTable_some valid.distinct found
    exact valid.target t declared sig member owner

variable [RustStd] [SerdeJson]

omit [RustStd] [SerdeJson] in
/-- The invariant looks at the signals and the transitions only. -/
theorem Sound.congr {engine engine' : TopologyEngine W} (h : engine.Sound)
    (signals : ∀ id, engine'.signals.lookup id = engine.signals.lookup id)
    (transitions : engine'.transitions = engine.transitions) : engine'.Sound := by
  refine ⟨fun id signal found => h.legal id signal (signals id ▸ found), ?_⟩
  intro t declared signal found
  exact h.target t (transitions ▸ declared) signal (signals t.signalId ▸ found)

theorem Sound.attempt {c : Call W} (h : c.engine.Sound) : c.attempt.2.Sound := by
  have kept := (sameTopology_elementary.attemptTransition c.engine c.signalId c.event
    c.payload).transitions
  obtain ⟨e, u, events, attempted, _, _, signals⟩ |
      ⟨result, u, events, signal, attempted, known, ⟨t, declared, owner, target, _⟩, _, _, moved⟩ :=
    c.engine.attemptTransition_spec c.signalId c.event c.payload
  · rw [attempted] at kept
    rw [Call.attempt, attempted]
    exact h.congr signals kept
  · rw [attempted] at kept
    rw [Call.attempt, attempted]
    have legal : (c.engine.setCurrent c.signalId result.toState).Sound := by
      refine h.setCurrent fun signal' found => ?_
      rw [← target]
      exact h.target t declared signal' (owner ▸ found)
    refine legal.congr (fun id => ?_) (by rw [kept, setCurrent_transitions])
    rw [moved, setCurrent_lookup]
    by_cases own : id = c.signalId
    · rw [if_pos own, if_pos own, own, known, Option.map_some]
    · rw [if_neg own, if_neg own]

theorem Sound.gate {engine : TopologyEngine W} (h : engine.Sound) (c : Call W)
    (reaction : ReactionDef) : (c.gate reaction engine).2.Sound := by
  obtain ⟨_, gated⟩ | ⟨guard, passed, result, _, gated⟩ :=
    gate_cases reaction c.parentPayload c.signalId engine
  · rw [Call.gate, gated]
    exact h
  · rw [Call.gate, gated]
    exact h.congr (fun _ => rfl) rfl

omit [RustStd] [SerdeJson] in
theorem Sound.compensate {engine : TopologyEngine W} (h : engine.Sound) (c : Call W)
    (reaction : ReactionDef) (e : EngineError) : (c.compensate reaction e engine).Sound := by
  have kept := (sameTopology_elementary.compensate reaction c.parentPayload c.signalId e
    engine).transitions
  refine h.congr (fun id => ?_) kept
  obtain ⟨_, hooked⟩ | ⟨actionId, ctx, _, _, hooked⟩ :=
    compensate_cases reaction c.parentPayload c.signalId e engine
  · rw [Call.compensate, hooked]
  · obtain ⟨events, acted, _⟩ := runAction_acted reaction.toSignal actionId ctx engine
    rw [Call.compensate, hooked, push_signals, acted.signals]

/-- A call moves signals along declared transitions only. -/
theorem Sound.run {limit : Nat} {c : Call W} (h : c.engine.Sound) : (c.run limit).2.Sound :=
  Call.run_rel (R := fun engine engine' => engine.Sound → engine'.Sound)
    (fun _ sound => sound) (fun first second sound => second (first sound))
    (fun _ sound => sound.attempt) (fun c reaction _ sound => sound.gate c reaction)
    (fun c reaction e _ sound => sound.compensate c reaction e) limit c h

end TopologyEngine

end SignalTopology
