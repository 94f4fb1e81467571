import SignalTopology.Engine.State
import SignalTopology.Library.Fallible

/-!
# What validation guarantees

`Valid` collects the facts of `validate` that the engine relies on, and
`fromSchema_spec` says which engine a valid schema gives.
-/

namespace SignalTopology

open Fallible

/-- The facts `validate` checks of signals and transitions. -/
structure TopologySchema.Valid (schema : TopologySchema) : Prop where
  distinct : (schema.signals.map (·.id)).Nodup
  initial : ∀ sig ∈ schema.signals, sig.initialState ∈ sig.states
  target : ∀ t ∈ schema.transitions, ∀ sig ∈ schema.signals, sig.id = t.signalId →
    t.toState ∈ sig.states

theorem validateSignal_ok {signalIds signalIds' : Finset String} {sig : SignalDef}
    (h : validateSignal signalIds sig = .ok signalIds') :
    sig.id ∉ signalIds ∧ sig.initialState ∈ sig.states ∧ signalIds' = insert sig.id signalIds := by
  unfold validateSignal at h
  split at h
  · cases h
  · next fresh =>
      split at h
      · next legal =>
          cases h
          exact ⟨fresh, legal, rfl⟩
      · cases h

theorem validateSignals_ok {signals : List SignalDef} {signalIds signalIds' : Finset String}
    (h : signals.foldlM validateSignal signalIds = .ok signalIds') :
    (∀ sig ∈ signals, sig.id ∉ signalIds ∧ sig.initialState ∈ sig.states) ∧
      (signals.map (·.id)).Nodup := by
  induction signals generalizing signalIds with
  | nil => simp
  | cons sig signals ih =>
      rw [List.foldlM_cons] at h
      rcases first : validateSignal signalIds sig with e | signalIds''
      · rw [first] at h
        cases h
      · rw [first] at h
        obtain ⟨fresh, legal, rfl⟩ := validateSignal_ok first
        obtain ⟨rest, distinct⟩ := ih h
        constructor
        · intro other member
          rcases List.mem_cons.mp member with rfl | later
          · exact ⟨fresh, legal⟩
          · obtain ⟨apart, legal'⟩ := rest other later
            exact ⟨fun seen => apart (Finset.mem_insert_of_mem seen), legal'⟩
        · refine List.nodup_cons.mpr ⟨fun again => ?_, distinct⟩
          obtain ⟨other, member, same⟩ := List.mem_map.mp again
          exact (rest other member).1 (same ▸ Finset.mem_insert_self _ _)

theorem validateTransition_ok {schema : TopologySchema} {t : TransitionDef} {i : Nat}
    (h : validateTransition schema t i = .ok ()) :
    ∃ signal, schema.signals.find? (·.id = t.signalId) = some signal ∧
      t.toState ∈ signal.states := by
  unfold validateTransition at h
  split at h
  · cases h
  · next signal found =>
      split at h
      · cases h
      · split at h
        · next legal => exact ⟨signal, found, legal⟩
        · cases h

/-- An accepted transition belongs to a signal and stays inside its states. -/
theorem validateTransition_legal {schema : TopologySchema} {t : TransitionDef} {i : Nat}
    (h : validateTransition schema t i = .ok ()) :
    ∃ sig ∈ schema.signals, sig.id = t.signalId ∧
      (t.fromState = "*" ∨ t.fromState ∈ sig.states) ∧ t.toState ∈ sig.states := by
  unfold validateTransition at h
  split at h
  · cases h
  · next sig found =>
      have owner : sig.id = t.signalId := by simpa using List.find?_some found
      split at h
      · cases h
      · next source =>
          split at h
          · next target =>
              exact ⟨sig, List.mem_of_find?_eq_some found, owner, by tauto, target⟩
          · cases h

theorem eq_of_id {signals : List SignalDef} (distinct : (signals.map (·.id)).Nodup)
    {sig sig' : SignalDef} (member : sig ∈ signals) (member' : sig' ∈ signals)
    (same : sig.id = sig'.id) : sig = sig' :=
  List.inj_on_of_nodup_map distinct member member' same

theorem validate_ok {schema : TopologySchema} (h : validate schema = .ok ()) : schema.Valid := by
  unfold validate at h
  rcases signals : schema.signals.foldlM validateSignal ∅ with e | signalIds
  · rw [signals] at h
    cases h
  · rw [signals] at h
    change (do
      schema.transitions.zipIdx.forM fun entry => validateTransition schema entry.1 entry.2
      schema.reactions.forM (validateReaction signalIds)) = Except.ok () at h
    rcases transitions : schema.transitions.zipIdx.forM
        (fun entry => validateTransition schema entry.1 entry.2) with e | _
    · rw [transitions] at h
      cases h
    · obtain ⟨legal, distinct⟩ := validateSignals_ok signals
      refine ⟨distinct, fun sig member => (legal sig member).2, ?_⟩
      intro t member sig declared owner
      obtain ⟨i, bound, rfl⟩ := List.getElem_of_mem member
      obtain ⟨signal, found, target⟩ := validateTransition_ok
        (forM_ok_iff.mp transitions (schema.transitions[i], i)
          (List.mk_mem_zipIdx_iff_getElem?.mpr (by simp)))
      have named : signal.id = schema.transitions[i].signalId := by
        simpa using List.find?_some found
      have same : sig = signal := eq_of_id distinct declared (List.mem_of_find?_eq_some found)
        (owner.trans named.symm)
      exact same ▸ target

/-! ## Which schemas are accepted -/

/-- What the loops of `validate` over signals and transitions check. -/
structure TopologySchema.Checked (schema : TopologySchema) : Prop where
  distinct : (schema.signals.map (·.id)).Nodup
  initial : ∀ sig ∈ schema.signals, sig.initialState ∈ sig.states
  transition : ∀ t ∈ schema.transitions, ∃ sig ∈ schema.signals, sig.id = t.signalId ∧
    (t.fromState = "*" ∨ t.fromState ∈ sig.states) ∧ t.toState ∈ sig.states

theorem validateSignals_mem {signals : List SignalDef} {signalIds signalIds' : Finset String}
    (h : signals.foldlM validateSignal signalIds = .ok signalIds') (id : String) :
    id ∈ signalIds' ↔ id ∈ signalIds ∨ id ∈ signals.map (·.id) := by
  induction signals generalizing signalIds with
  | nil =>
      cases h
      simp
  | cons sig signals ih =>
      rw [List.foldlM_cons] at h
      cases first : validateSignal signalIds sig with
      | error e =>
          rw [first] at h
          cases h
      | ok signalIds'' =>
          rw [first] at h
          obtain ⟨_, _, rfl⟩ := validateSignal_ok first
          rw [ih h, Finset.mem_insert, List.map_cons, List.mem_cons]
          tauto

theorem validateSignals_of {signals : List SignalDef} {signalIds : Finset String}
    (fresh : ∀ sig ∈ signals, sig.id ∉ signalIds)
    (initial : ∀ sig ∈ signals, sig.initialState ∈ sig.states)
    (distinct : (signals.map (·.id)).Nodup) :
    ∃ signalIds', signals.foldlM validateSignal signalIds = .ok signalIds' := by
  induction signals generalizing signalIds with
  | nil => exact ⟨signalIds, rfl⟩
  | cons sig signals ih =>
      rw [List.map_cons, List.nodup_cons] at distinct
      have first : validateSignal signalIds sig = .ok (insert sig.id signalIds) := by
        rw [validateSignal, if_neg (fresh sig List.mem_cons_self),
          if_pos (initial sig List.mem_cons_self)]
      obtain ⟨signalIds', rest⟩ := @ih (insert sig.id signalIds) (fun other member => by
        rw [Finset.mem_insert, not_or]
        refine ⟨fun same => distinct.1 (List.mem_map.mpr ⟨other, member, same⟩), ?_⟩
        exact fresh other (List.mem_cons_of_mem sig member))
        (fun other member => initial other (List.mem_cons_of_mem sig member)) distinct.2
      refine ⟨signalIds', ?_⟩
      rw [List.foldlM_cons, first]
      exact rest

theorem validateTransition_of {schema : TopologySchema}
    (distinct : (schema.signals.map (·.id)).Nodup) {t : TransitionDef} {sig : SignalDef}
    (declared : sig ∈ schema.signals) (owner : sig.id = t.signalId)
    (source : t.fromState = "*" ∨ t.fromState ∈ sig.states) (target : t.toState ∈ sig.states)
    (i : Nat) : validateTransition schema t i = .ok () := by
  have found : schema.signals.find? (·.id = t.signalId) = some sig := by
    cases found : schema.signals.find? (·.id = t.signalId) with
    | none =>
        have absent := List.find?_eq_none.mp found sig declared
        simp [owner] at absent
    | some other =>
        have named : other.id = t.signalId := by simpa using List.find?_some found
        rw [eq_of_id distinct (List.mem_of_find?_eq_some found) declared
          (named.trans owner.symm)]
  have inside : ¬ (t.fromState ≠ "*" ∧ t.fromState ∉ sig.states) := by tauto
  rw [validateTransition, found]
  dsimp only
  rw [if_neg inside, if_pos target]

/-- On a schema that passes the first two loops, only the last one can fail. -/
theorem TopologySchema.Checked.validate {schema : TopologySchema} (h : schema.Checked) :
    ∃ signalIds : Finset String, (∀ id, id ∈ signalIds ↔ id ∈ schema.signals.map (·.id)) ∧
      validate schema = schema.reactions.forM (validateReaction signalIds) := by
  obtain ⟨signalIds, signals⟩ := @validateSignals_of schema.signals ∅ (by simp) h.initial h.distinct
  refine ⟨signalIds, fun id => by simpa using validateSignals_mem signals id, ?_⟩
  have transitions : schema.transitions.zipIdx.forM
      (fun entry => validateTransition schema entry.1 entry.2) = .ok () := by
    refine forM_ok_iff.mpr fun entry member => ?_
    obtain ⟨sig, declared, owner, source, target⟩ :=
      h.transition entry.1 (List.fst_mem_of_mem_zipIdx member)
    exact validateTransition_of h.distinct declared owner source target entry.2
  rw [SignalTopology.validate, signals]
  show ((schema.transitions.zipIdx.forM fun entry => validateTransition schema entry.1 entry.2) >>=
    fun _ => schema.reactions.forM (validateReaction signalIds)) = _
  rw [transitions]
  rfl

theorem validateReaction_ok {signalIds : Finset String} {reaction : ReactionDef} :
    validateReaction signalIds reaction = .ok () ↔
      reaction.fromSignal ∈ signalIds ∧ reaction.toSignal ∈ signalIds := by
  rw [validateReaction]
  by_cases source : reaction.fromSignal ∈ signalIds
  · rw [if_pos source]
    by_cases target : reaction.toSignal ∈ signalIds
    · simp [source, target]
    · simp [target]
  · simp [source]

/-- The schemas that `validate` accepts. -/
theorem validate_iff {schema : TopologySchema} : validate schema = .ok () ↔
    schema.Checked ∧ ∀ r ∈ schema.reactions,
      r.fromSignal ∈ schema.signals.map (·.id) ∧ r.toSignal ∈ schema.signals.map (·.id) := by
  constructor
  · intro accepted
    have valid := validate_ok accepted
    have checked : schema.Checked := by
      refine ⟨valid.distinct, valid.initial, fun t member => ?_⟩
      unfold validate at accepted
      cases signals : schema.signals.foldlM validateSignal ∅ with
      | error e =>
          rw [signals] at accepted
          cases accepted
      | ok signalIds =>
          rw [signals] at accepted
          change ((schema.transitions.zipIdx.forM
            fun entry => validateTransition schema entry.1 entry.2) >>= _) = _ at accepted
          cases transitions : schema.transitions.zipIdx.forM
              fun entry => validateTransition schema entry.1 entry.2 with
          | error e =>
              rw [transitions] at accepted
              cases accepted
          | ok =>
              obtain ⟨i, bound, rfl⟩ := List.getElem_of_mem member
              exact validateTransition_legal (forM_ok_iff.mp transitions (schema.transitions[i], i)
                (List.mk_mem_zipIdx_iff_getElem?.mpr (by simp)))
    refine ⟨checked, fun r member => ?_⟩
    obtain ⟨signalIds, known, same⟩ := checked.validate
    rw [same] at accepted
    have ends := validateReaction_ok.mp (forM_ok_iff.mp accepted r member)
    exact ⟨(known _).mp ends.1, (known _).mp ends.2⟩
  · rintro ⟨checked, ends⟩
    obtain ⟨signalIds, known, same⟩ := checked.validate
    rw [same]
    refine forM_ok_iff.mpr fun r member => validateReaction_ok.mpr ?_
    exact ⟨(known _).mpr (ends r member).1, (known _).mpr (ends r member).2⟩

/-- Apart from an unknown endpoint of a reaction, nothing fails. -/
theorem TopologySchema.Checked.validate_cases {schema : TopologySchema} (h : schema.Checked) :
    SignalTopology.validate schema = .ok () ∨
      ∃ id, SignalTopology.validate schema = .error (.reactionSignalNotFound id) ∧
        id ∉ schema.signals.map (·.id) ∧
        ∃ r ∈ schema.reactions, r.fromSignal = id ∨ r.toSignal = id := by
  obtain ⟨signalIds, known, same⟩ := h.validate
  rw [same]
  induction schema.reactions with
  | nil => exact .inl rfl
  | cons r rs ih =>
      rw [List.forM_eq_forM, List.forM_cons]
      by_cases source : r.fromSignal ∈ signalIds
      · by_cases target : r.toSignal ∈ signalIds
        · rw [validateReaction_ok.mpr ⟨source, target⟩]
          obtain valid | ⟨id, failed, unknown, other, member, own⟩ := ih
          · exact .inl valid
          · exact .inr ⟨id, failed, unknown, other, List.mem_cons_of_mem r member, own⟩
        · refine .inr ⟨r.toSignal, ?_, (known _).not.mp target, r, List.mem_cons_self, .inr rfl⟩
          rw [validateReaction, if_pos source, if_neg target]
          rfl
      · refine .inr ⟨r.fromSignal, ?_, (known _).not.mp source, r, List.mem_cons_self, .inl rfl⟩
        rw [validateReaction, if_neg source]
        rfl

/-! ## The signal table -/

/-- The runtime state of a signal that is in `current`. -/
def SignalDef.state (sig : SignalDef) (current : String) : SignalState :=
  { current, states := sig.states, initialState := sig.initialState }

theorem signalTable_lookup {signals : List SignalDef} (distinct : (signals.map (·.id)).Nodup)
    (current : SignalDef → String) (id : String) :
    (signalTable current signals).lookup id =
      (signals.find? (·.id = id)).map fun sig => sig.state (current sig) := by
  have loop : ∀ (rest : List SignalDef) (table : HashMap SignalState),
      (rest.map (·.id)).Nodup →
      (rest.foldl (fun table sig => table.insert sig.id
        { current := current sig, states := sig.states, initialState := sig.initialState })
        table).lookup id =
      ((rest.find? (·.id = id)).map fun sig => sig.state (current sig)).or (table.lookup id) := by
    intro rest
    induction rest with
    | nil => simp
    | cons sig rest ih =>
        intro table distinct
        rw [List.map_cons, List.nodup_cons] at distinct
        rw [List.foldl_cons, ih _ distinct.2, List.find?_cons]
        by_cases same : sig.id = id
        · -- no later signal has this id
          have absent : rest.find? (·.id = id) = none := by
            refine List.find?_eq_none.mpr fun other member => ?_
            intro again
            refine distinct.1 (List.mem_map.mpr ⟨other, member, ?_⟩)
            rw [same]
            exact of_decide_eq_true again
          simp [same, absent, SignalDef.state]
        · simp only [same, decide_false]
          rw [AList.lookup_insert_ne (Ne.symm same)]
  rw [signalTable, loop signals ∅ distinct, AList.lookup_empty, Option.or_none]

theorem signalTable_member {signals : List SignalDef} (distinct : (signals.map (·.id)).Nodup)
    (current : SignalDef → String) {sig : SignalDef} (member : sig ∈ signals) :
    (signalTable current signals).lookup sig.id = some (sig.state (current sig)) := by
  rw [signalTable_lookup distinct]
  cases found : signals.find? (·.id = sig.id) with
  | none =>
      have absent := List.find?_eq_none.mp found sig member
      simp at absent
  | some other =>
      have same : other = sig := eq_of_id distinct (List.mem_of_find?_eq_some found) member
        (by simpa using List.find?_some found)
      rw [same]
      rfl

theorem signalTable_some {signals : List SignalDef} (distinct : (signals.map (·.id)).Nodup)
    {current : SignalDef → String} {id : String} {signal : SignalState}
    (found : (signalTable current signals).lookup id = some signal) :
    ∃ sig ∈ signals, sig.id = id ∧ signal = sig.state (current sig) := by
  rw [signalTable_lookup distinct] at found
  obtain ⟨sig, declared, rfl⟩ := Option.map_eq_some_iff.mp found
  exact ⟨sig, List.mem_of_find?_eq_some declared, by simpa using List.find?_some declared, rfl⟩

/-- `from_schema` builds one engine from the flat form of a schema it accepts. -/
theorem fromSchema_iff {W : Type} {world : W} {schema : TopologySchema}
    {engine : TopologyEngine W} : TopologyEngine.fromSchema world schema = .ok engine ↔
      ∃ flat, expand schema = .ok flat ∧ validate flat = .ok () ∧ engine = {
        signals := signalTable (·.initialState) flat.signals
        transitions := flat.transitions
        reactions := flat.reactions
        actions := ∅
        trace := []
        maxCascadeDepth := 8
        world } := by
  unfold TopologyEngine.fromSchema
  rw [bind_ok_iff]
  refine exists_congr fun flat => and_congr_right fun _ => ?_
  rw [bind_ok_iff]
  constructor
  · rintro ⟨⟨⟩, valid, built⟩
    exact ⟨valid, (Except.ok.inj built).symm⟩
  · rintro ⟨valid, rfl⟩
    exact ⟨(), valid, rfl⟩

theorem fromSchema_flat {W : Type} {schema : TopologySchema} (flat : schema.Flat)
    (valid : validate schema = .ok ()) (world : W) :
    TopologyEngine.fromSchema world schema = .ok {
      signals := signalTable (·.initialState) schema.signals
      transitions := schema.transitions
      reactions := schema.reactions
      actions := ∅
      trace := []
      maxCascadeDepth := 8
      world } :=
  fromSchema_iff.mpr ⟨schema, expand_of_flat flat, valid, rfl⟩

/-- An engine is built from the flat form of a valid schema. -/
theorem fromSchema_spec {W : Type} {world : W} {schema : TopologySchema}
    {engine : TopologyEngine W} (built : TopologyEngine.fromSchema world schema = .ok engine) :
    ∃ flat : TopologySchema, expand schema = .ok flat ∧ flat.Valid ∧
      engine.signals = signalTable (·.initialState) flat.signals ∧
      engine.transitions = flat.transitions ∧ engine.reactions = flat.reactions ∧
      engine.actions = ∅ ∧ engine.trace = [] := by
  obtain ⟨flat, flattened, checked, rfl⟩ := fromSchema_iff.mp built
  exact ⟨flat, flattened, validate_ok checked, rfl, rfl, rfl, rfl, rfl⟩

end SignalTopology
