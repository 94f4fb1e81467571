import SignalTopology.Engine.StateSpace

/-!
# Snapshots restore

`load_state` checks every entry of a snapshot before it writes the first one, and
then writes those entries only. No call changes which signals there are or which
states they have, so a snapshot is still accepted after any run and brings back the
saved states.
-/

namespace SignalTopology

open Fallible

namespace TopologyEngine

variable {W : Type}

/-- The states a signal can be in. -/
def space (engine : TopologyEngine W) (id : String) : Option (List String) :=
  (engine.signals.lookup id).map (·.states)

theorem setCurrent_space (engine : TopologyEngine W) (signalId state : String) :
    (engine.setCurrent signalId state).space = engine.space := by
  funext id
  rw [space, setCurrent_lookup, space]
  by_cases own : id = signalId
  · rw [if_pos own, Option.map_map]
    rfl
  · rw [if_neg own]

theorem space_elementary : Elementary fun engine engine' : TopologyEngine W =>
    engine'.space = engine.space where
  refl _ := rfl
  trans first second := second.trans first
  push _ _ := rfl
  call _ _ := rfl
  setCurrent := setCurrent_space

/-- Writing a known signal moves it and no other. -/
theorem setCurrent_current {engine : TopologyEngine W} {signalId : String}
    (known : (engine.space signalId).isSome) (state id : String) :
    (engine.setCurrent signalId state).current id =
      if id = signalId then some state else engine.current id := by
  rw [current, setCurrent_lookup]
  by_cases own : id = signalId
  · rw [if_pos own, if_pos own, own]
    obtain ⟨signal, found, _⟩ := Option.map_eq_some_iff.mp (Option.some_get known).symm
    rw [found]
    rfl
  · rw [if_neg own, if_neg own]
    rfl

/-- Writing the entries of a table moves each signal to its entry. -/
theorem foldl_setCurrent {entries : List (Sigma fun _ : String => String)}
    {engine : TopologyEngine W} (distinct : entries.NodupKeys)
    (known : ∀ entry ∈ entries, (engine.space entry.1).isSome) (id : String) :
    (entries.foldl (fun engine entry => engine.setCurrent entry.1 entry.2) engine).current id =
      (entries.dlookup id).or (engine.current id) := by
  induction entries generalizing engine with
  | nil => rfl
  | cons entry entries ih =>
      obtain ⟨key, state⟩ := entry
      rw [List.nodupKeys_cons] at distinct
      have own : (engine.space key).isSome := known ⟨key, state⟩ List.mem_cons_self
      have later : ∀ entry ∈ entries,
          ((engine.setCurrent key state).space entry.1).isSome := by
        intro entry member
        rw [setCurrent_space]
        exact known entry (List.mem_cons_of_mem _ member)
      rw [List.foldl_cons, ih distinct.2 later, setCurrent_current own]
      by_cases same : id = key
      · subst same
        rw [List.dlookup_eq_none.mpr distinct.1, List.dlookup_cons_eq, if_pos rfl]
        rfl
      · rw [List.dlookup_cons_ne _ _ same, if_neg same]

/-- A rejected snapshot changes nothing; an accepted one has legal entries and
writes them. -/
theorem loadState_cases (engine : TopologyEngine W) (file : Except String StateSnapshot) :
    (∃ e, engine.loadState file = (.error e, engine)) ∨
    ∃ snapshot, file = .ok snapshot ∧
      (∀ entry ∈ snapshot.states.entries, engine.checkEntry entry.1 entry.2 = .ok ()) ∧
      engine.loadState file = (.ok (), snapshot.states.foldl setCurrent engine) := by
  cases file with
  | error message => exact .inl ⟨_, rfl⟩
  | ok snapshot =>
      cases checked : snapshot.states.entries.forM
          fun entry => engine.checkEntry entry.1 entry.2 with
      | error e =>
          refine .inl ⟨e, ?_⟩
          simp only [loadState, checked]
      | ok =>
          refine .inr ⟨snapshot, rfl, forM_ok_iff.mp checked, ?_⟩
          simp only [loadState, checked]

/-- Loading a snapshot is made of elementary updates. -/
theorem loadState_elementary {R : TopologyEngine W → TopologyEngine W → Prop} (h : Elementary R)
    (engine : TopologyEngine W) (file : Except String StateSnapshot) :
    R engine (engine.loadState file).2 := by
  have written : ∀ (entries : List (Sigma fun _ : String => String)) (engine : TopologyEngine W),
      R engine (entries.foldl (fun engine entry => engine.setCurrent entry.1 entry.2) engine) := by
    intro entries
    induction entries with
    | nil => exact h.refl
    | cons entry entries ih =>
        intro engine
        exact h.trans (h.setCurrent engine entry.1 entry.2) (ih _)
  obtain ⟨e, rejected⟩ | ⟨snapshot, _, _, loaded⟩ := engine.loadState_cases file
  · rw [rejected]
    exact h.refl engine
  · rw [loaded]
    exact written snapshot.states.entries engine

theorem checkEntry_space {engine : TopologyEngine W} {signalId state : String}
    (checked : engine.checkEntry signalId state = .ok ()) : (engine.space signalId).isSome := by
  obtain ⟨signal, found, _⟩ := checkEntry_ok.mp checked
  rw [space, found]
  rfl

/-- An accepted snapshot moves the signals it names and no others. -/
theorem loadState_current {engine other : TopologyEngine W} {file : Except String StateSnapshot}
    (loaded : engine.loadState file = (.ok (), other)) :
    ∃ snapshot, file = .ok snapshot ∧
      ∀ id, other.current id = (snapshot.states.lookup id).or (engine.current id) := by
  obtain ⟨e, rejected⟩ | ⟨snapshot, same, checked, accepted⟩ := engine.loadState_cases file
  · rw [loaded] at rejected
    cases rejected
  · rw [loaded] at accepted
    cases accepted
    refine ⟨snapshot, same, fun id => ?_⟩
    exact foldl_setCurrent snapshot.states.nodupKeys
      (fun entry member => checkEntry_space (checked entry member)) id

/-- A snapshot of a legal engine is accepted by every engine with the same signals
and states, and restores what was saved. -/
theorem loadState_restores {engine other : TopologyEngine W} (legal : engine.Legal)
    (same : other.space = engine.space) :
    ∃ restored, other.loadState (.ok engine.saveState) = (.ok (), restored) ∧
      restored.current = engine.current := by
  have accepted : ∀ entry ∈ engine.saveState.states.entries,
      other.checkEntry entry.1 entry.2 = .ok () := by
    intro entry member
    have saved : engine.saveState.states.lookup entry.1 = some entry.2 :=
      AList.mem_lookup_iff.mpr member
    rw [saveState_lookup] at saved
    obtain ⟨signal, found, held⟩ := Option.map_eq_some_iff.mp saved
    have states : other.space entry.1 = some signal.states := by
      rw [same, space, found]
      rfl
    obtain ⟨signal', found', states'⟩ := Option.map_eq_some_iff.mp states
    refine checkEntry_ok.mpr ⟨signal', found', ?_⟩
    rw [states', ← held]
    exact legal entry.1 signal found
  obtain ⟨e, rejected⟩ | ⟨snapshot, read, _, loaded⟩ := other.loadState_cases (.ok engine.saveState)
  · have checked := forM_ok_iff.mpr accepted
    simp only [loadState, checked] at rejected
    cases rejected
  · refine ⟨_, loaded, ?_⟩
    obtain ⟨snapshot', read', moved⟩ := loadState_current loaded
    cases read'
    funext id
    rw [moved, saveState_lookup]
    cases held : engine.current id with
    | some state => rfl
    | none =>
        have missing : other.space id = none := by
          rw [same, space, Option.map_eq_none_iff]
          exact Option.map_eq_none_iff.mp held
        rw [Option.none_or, current, Option.map_eq_none_iff]
        exact Option.map_eq_none_iff.mp missing

/-- Engines of one topology have the same signals and states. -/
theorem fromSchema_space {world world' : W} {schema : TopologySchema}
    {engine other : TopologyEngine W} (built : fromSchema world schema = .ok engine)
    (again : fromSchema world' schema = .ok other) : other.space = engine.space := by
  obtain ⟨flat, expanded, _, signals, _⟩ := fromSchema_spec built
  obtain ⟨flat', expanded', _, signals', _⟩ := fromSchema_spec again
  rw [expanded] at expanded'
  cases expanded'
  funext id
  rw [space, space, signals, signals']

end TopologyEngine

section

open TopologyEngine

variable {W : Type} [RustStd] [SerdeJson]

/-- Everything but a reload keeps the signals and their states. -/
theorem Operation.space {op : Operation W} (keeps : ∀ json, op ≠ .reloadTopology json)
    (engine : TopologyEngine W) : (op.apply engine).space = engine.space := by
  cases op with
  | sendEvent signalId event payload =>
      exact space_elementary.run _ (.top engine signalId event payload)
  | loadState file => exact loadState_elementary space_elementary engine file
  | reloadTopology json => exact absurd rfl (keeps json)
  | registerAction | setMaxCascadeDepth | environment => rfl

theorem execute_space {ops : List (Operation W)}
    (keeps : ∀ op ∈ ops, ∀ json, op ≠ .reloadTopology json) (engine : TopologyEngine W) :
    (execute engine ops).space = engine.space := by
  induction ops using List.reverseRecOn with
  | nil => rfl
  | append_singleton ops op ih =>
      rw [execute_append, op.space (keeps op (by simp))]
      exact ih fun op member => keeps op (by simp [member])

/-- A snapshot of a legal engine restores exactly, after any events and in any other
engine of the same topology; a snapshot that is rejected changes no state, and one
that is accepted moves the signals it names and no others. -/
theorem snapshot_restores {engine : TopologyEngine W} (legal : engine.Legal) :
    (∀ events, ∃ restored,
      (sendAll engine events).loadState (.ok engine.saveState) = (.ok (), restored) ∧
        restored.current = engine.current) ∧
    (∀ schema (world world' : W) first ops second, fromSchema world schema = .ok first →
      (∀ op ∈ ops, ∀ json, op ≠ .reloadTopology json) → execute first ops = engine →
      fromSchema world' schema = .ok second →
      ∃ restored, second.loadState (.ok engine.saveState) = (.ok (), restored) ∧
        restored.current = engine.current) ∧
    ∀ (other : TopologyEngine W) file,
      (∀ e after, other.loadState file = (.error e, after) → after.current = other.current) ∧
      ∀ after, other.loadState file = (.ok (), after) →
        ∃ snapshot, file = .ok snapshot ∧
          (∀ id state, snapshot.states.lookup id = some state → after.current id = some state) ∧
          ∀ id, snapshot.states.lookup id = none → after.current id = other.current id := by
  refine ⟨fun events => ?_, ?_, fun other file =>
    ⟨fun e after loaded => ?_, fun after loaded => ?_⟩⟩
  · exact loadState_restores legal (sendAll_elementary space_elementary engine events)
  · intro schema world world' first ops second built keeps reached again
    have same : second.space = engine.space := by
      rw [fromSchema_space built again, ← reached, execute_space keeps]
    exact loadState_restores legal same
  · obtain ⟨e', rejected⟩ | ⟨snapshot, _, _, accepted⟩ := other.loadState_cases file
    · rw [loaded] at rejected
      cases rejected
      rfl
    · rw [loaded] at accepted
      cases accepted
  · obtain ⟨snapshot, read, moved⟩ := loadState_current loaded
    refine ⟨snapshot, read, fun id state named => ?_, fun id unnamed => ?_⟩
    · rw [moved, named]
      rfl
    · rw [moved, unnamed]
      rfl

end

/-- The lamp is restored after it was switched. -/
theorem lampEngine_restores : ∃ restored,
    (@sendAll Unit .ascii renamedSerde lampEngine [⟨"lamp", "toggle", none⟩]).loadState
      (.ok lampEngine.saveState) = (.ok (), restored) ∧ restored.current = lampEngine.current :=
  (@snapshot_restores Unit .ascii renamedSerde lampEngine
    (TopologyEngine.fromSchema_sound lampEngine_built).legal).1 [⟨"lamp", "toggle", none⟩]

end SignalTopology
