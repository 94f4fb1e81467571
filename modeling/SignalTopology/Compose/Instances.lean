import SignalTopology.Compose.Connections
import SignalTopology.Engine.Validation

/-!
# What instances add

An instance adds the declarations of its component, with the parameters replaced
and the wired signals renamed. Both are done to the names of a component's signals
wherever they occur, so a declaration that fits the component as written fits the
flat schema.
-/

namespace SignalTopology

open Fallible

/-! ## One instance -/

def SignalDef.instantiate (bound remap : HashMap String) (sig : SignalDef) : SignalDef where
  id := renamed remap (subst sig.id bound)
  initialState := subst sig.initialState bound
  states := substVec sig.states bound

def TransitionDef.instantiate (bound remap : HashMap String) (t : TransitionDef) :
    TransitionDef where
  signalId := renamed remap (subst t.signalId bound)
  fromState := subst t.fromState bound
  event := subst t.event bound
  toState := subst t.toState bound
  actions := {
    onExit := substVec t.actions.onExit bound
    onTransition := substVec t.actions.onTransition bound
    onEnter := substVec t.actions.onEnter bound }
  guard := t.guard.map (subst · bound)

def ReactionDef.instantiate (bound remap : HashMap String) (r : ReactionDef) : ReactionDef :=
  { r with
    fromSignal := renamed remap (subst r.fromSignal bound)
    fromState := subst r.fromState bound
    toSignal := renamed remap (subst r.toSignal bound)
    event := subst r.event bound }

def ComponentDef.instantiate (bound remap : HashMap String) (component : ComponentDef) :
    Expansion where
  signals := component.signals.map (SignalDef.instantiate bound remap)
  transitions := component.transitions.map (TransitionDef.instantiate bound remap)
  reactions := component.reactions.map (ReactionDef.instantiate bound remap)

section

variable {name : String} {component : ComponentDef} {bound remap : HashMap String}

theorem resolve_ok {s r : String} (h : resolve s name component bound = .ok r) :
    r = subst s bound := by
  rw [resolve] at h
  cases left : findUnresolved (subst s bound) with
  | none =>
      rw [left] at h
      cases h
      rfl
  | some rem =>
      rw [left] at h
      dsimp only at h
      by_cases param : rem ∈ component.params
      · rw [if_pos param] at h
        cases h
        rfl
      · rw [if_neg param] at h
        cases h

theorem resolveVec_ok {items rs : List String}
    (h : resolveVec items name component bound = .ok rs) :
    rs = substVec items bound :=
  mapM_eq_map h fun _ _ resolved => resolve_ok resolved

theorem resolveGuard_ok {guard resolved : Option String}
    (h : (guard.mapM fun guard => resolve guard name component bound) = .ok resolved) :
    resolved = guard.map (subst · bound) := by
  cases guard with
  | none =>
      cases h
      rfl
  | some guard =>
      obtain ⟨text, replaced, same⟩ := bind_ok h
      cases same
      rw [resolve_ok replaced]
      rfl

theorem expandSignal_ok {sig : SignalDef} {out : SignalDef}
    (h : (do
      let expanded ← expandSignal sig name component bound
      .ok { expanded with id := renamed remap expanded.id }) = Except.ok out) :
    out = sig.instantiate bound remap := by
  obtain ⟨expanded, filled, same⟩ := bind_ok h
  obtain ⟨id, ownId, filled⟩ := bind_ok filled
  obtain ⟨initialState, ownInitial, filled⟩ := bind_ok filled
  obtain ⟨states, ownStates, filled⟩ := bind_ok filled
  cases filled
  cases same
  rw [resolve_ok ownId, resolve_ok ownInitial, resolveVec_ok ownStates]
  rfl

theorem expandTransition_ok {t out : TransitionDef}
    (h : (do
      let expanded ← expandTransition t name component bound
      .ok { expanded with signalId := renamed remap expanded.signalId }) = Except.ok out) :
    out = t.instantiate bound remap := by
  obtain ⟨expanded, filled, same⟩ := bind_ok h
  obtain ⟨signalId, ownSignal, filled⟩ := bind_ok filled
  obtain ⟨fromState, ownFrom, filled⟩ := bind_ok filled
  obtain ⟨event, ownEvent, filled⟩ := bind_ok filled
  obtain ⟨toState, ownTo, filled⟩ := bind_ok filled
  obtain ⟨onExit, ownExit, filled⟩ := bind_ok filled
  obtain ⟨onTransition, ownTransition, filled⟩ := bind_ok filled
  obtain ⟨onEnter, ownEnter, filled⟩ := bind_ok filled
  obtain ⟨guard, ownGuard, filled⟩ := bind_ok filled
  cases filled
  cases same
  rw [resolve_ok ownSignal, resolve_ok ownFrom, resolve_ok ownEvent, resolve_ok ownTo,
    resolveVec_ok ownExit, resolveVec_ok ownTransition, resolveVec_ok ownEnter,
    resolveGuard_ok ownGuard]
  rfl

theorem expandReaction_ok {r out : ReactionDef}
    (h : (do
      let expanded ← expandReaction r name component bound
      .ok { expanded with
        fromSignal := renamed remap expanded.fromSignal
        toSignal := renamed remap expanded.toSignal }) = Except.ok out) :
    out = r.instantiate bound remap := by
  obtain ⟨expanded, filled, same⟩ := bind_ok h
  obtain ⟨fromSignal, ownFrom, filled⟩ := bind_ok filled
  obtain ⟨fromState, ownState, filled⟩ := bind_ok filled
  obtain ⟨toSignal, ownTo, filled⟩ := bind_ok filled
  obtain ⟨event, ownEvent, filled⟩ := bind_ok filled
  cases filled
  cases same
  rw [resolve_ok ownFrom, resolve_ok ownState, resolve_ok ownTo, resolve_ok ownEvent]
  rfl

end

/-- What the bindings and the connections of an instance come to. -/
structure InstanceDef.Resolves (inst : InstanceDef) (components : HashMap ComponentDef)
    (component : ComponentDef) (bound remap : HashMap String) : Prop where
  found : components.lookup inst.component = some component
  bindings : checkBindings component inst.bindings inst.component = .ok bound
  connections : resolveConnections component inst.connections bound inst.component = .ok remap

/-- An instance that expands adds its component's declarations, filled in. -/
theorem expandInstance_ok {components : HashMap ComponentDef} {inst : InstanceDef} {e : Expansion}
    (h : expandInstance components inst = .ok e) :
    ∃ component bound remap, inst.Resolves components component bound remap ∧
      e = component.instantiate bound remap := by
  rw [expandInstance] at h
  cases found : components.lookup inst.component with
  | none =>
      rw [found] at h
      cases h
  | some component =>
      rw [found] at h
      obtain ⟨_, same, h⟩ := bind_ok h
      cases same
      obtain ⟨bound, bindings, h⟩ := bind_ok h
      obtain ⟨remap, connections, h⟩ := bind_ok h
      obtain ⟨signals, filledSignals, h⟩ := bind_ok h
      obtain ⟨transitions, filledTransitions, h⟩ := bind_ok h
      obtain ⟨reactions, filledReactions, h⟩ := bind_ok h
      cases h
      refine ⟨component, bound, remap, ⟨found, bindings, connections⟩, ?_⟩
      rw [mapM_eq_map filledSignals fun _ _ => expandSignal_ok,
        mapM_eq_map filledTransitions fun _ _ => expandTransition_ok,
        mapM_eq_map filledReactions fun _ _ => expandReaction_ok]
      rfl

/-! ## The steps of an expansion -/

/-- What an instance adds once its bindings and connections are resolved. -/
def ComponentDef.declare (component : ComponentDef) (name : String) (bound remap : HashMap String) :
    Except EngineError Expansion := do
  let signals ← component.signals.mapM fun sig => do
    let expanded ← expandSignal sig name component bound
    .ok { expanded with id := renamed remap expanded.id }
  let transitions ← component.transitions.mapM fun trans => do
    let expanded ← expandTransition trans name component bound
    .ok { expanded with signalId := renamed remap expanded.signalId }
  let reactions ← component.reactions.mapM fun reaction => do
    let expanded ← expandReaction reaction name component bound
    .ok { expanded with
      fromSignal := renamed remap expanded.fromSignal
      toSignal := renamed remap expanded.toSignal }
  .ok { signals, transitions, reactions }

theorem expandInstance_found {components : HashMap ComponentDef} {inst : InstanceDef}
    {component : ComponentDef} (found : components.lookup inst.component = some component) :
    expandInstance components inst =
      checkBindings component inst.bindings inst.component >>= fun bound =>
      resolveConnections component inst.connections bound inst.component >>= fun remap =>
      component.declare inst.component bound remap := by
  rw [expandInstance, found]
  rfl

/-- The errors of the connections. -/
inductive EngineError.OfPorts (owner : String) : EngineError → Prop
  | unknownPort (port : String) : OfPorts owner (.unknownPort owner port)
  | portUnknownSignal (port signal : String) : OfPorts owner (.portUnknownSignal owner port signal)
  | portUnknownState (port signal state : String) :
      OfPorts owner (.portUnknownState owner port signal state)
  | conflictingPortConnection (port : String) :
      OfPorts owner (.conflictingPortConnection owner port)

section

variable {name : String} {component : ComponentDef} {bound remap : HashMap String}

theorem checkBindings_fails (component : ComponentDef) (bindings : HashMap String)
    (owner : String) :
    Fails (fun e => ∃ param, e = .missingBinding owner param)
      (checkBindings component bindings owner) := by
  refine .foldlM fun bound param => ?_
  cases bindings.lookup param with
  | none => exact .error ⟨param, rfl⟩
  | some value => exact .ok

theorem resolveConnections_fails (connections : List ConnectionDef) (owner : String) :
    Fails (EngineError.OfPorts owner) (resolveConnections component connections bound owner) := by
  refine .foldlM fun remap conn => ?_
  rw [resolveConnection]
  cases component.ports.find? (fun port => portName port bound = conn.port) with
  | none => exact .error (.unknownPort _)
  | some port =>
      dsimp only
      cases (component.signals.foldl (fun (map : HashMap (List String)) sig =>
          map.insert (subst sig.id bound) (substVec sig.states bound)) ∅).lookup
          (subst port.signal bound) with
      | none => exact .error (.portUnknownSignal _ _)
      | some states =>
          dsimp only
          by_cases listed : subst port.state bound ∈ states
          · rw [if_pos listed]
            cases remap.lookup (subst port.signal bound) with
            | none => exact .ok
            | some existing =>
                dsimp only
                by_cases conflict : existing ≠ subst conn.targetSignal bound
                · rw [if_pos conflict]
                  exact .error (.conflictingPortConnection _)
                · rw [if_neg conflict]
                  exact .ok
          · rw [if_neg listed]
            exact .error (.portUnknownState _ _ _)

/-- The error of a reference to no parameter. -/
abbrev EngineError.OfRef (name : String) (e : EngineError) : Prop :=
  ∃ param, e = .invalidParamRef name param

theorem resolve_fails (s : String) :
    Fails (EngineError.OfRef name) (resolve s name component bound) := by
  rw [resolve]
  cases findUnresolved (subst s bound) with
  | none => exact .ok
  | some rem =>
      dsimp only
      by_cases param : rem ∈ component.params
      · rw [if_pos param]
        exact .ok
      · rw [if_neg param]
        exact .error ⟨rem, rfl⟩

theorem resolveVec_fails (items : List String) :
    Fails (EngineError.OfRef name) (resolveVec items name component bound) :=
  .mapM fun s => resolve_fails s

theorem resolveGuard_fails (guard : Option String) :
    Fails (EngineError.OfRef name)
    (guard.mapM fun guard => resolve guard name component bound) := by
  cases guard with
  | none => exact .ok
  | some guard => exact (resolve_fails guard).bind fun _ => .ok

/-- Once the connections are resolved, only a reference can be wrong. -/
theorem declare_fails : Fails (EngineError.OfRef name) (component.declare name bound remap) := by
  refine Fails.bind (.mapM fun sig => ?_) fun signals => ?_
  · refine Fails.bind ?_ fun _ => .ok
    refine (resolve_fails _).bind fun _ => (resolve_fails _).bind fun _ => ?_
    exact (resolveVec_fails _).bind fun _ => .ok
  · refine Fails.bind (.mapM fun trans => ?_) fun transitions => ?_
    · refine Fails.bind ?_ fun _ => .ok
      refine (resolve_fails _).bind fun _ => (resolve_fails _).bind fun _ => ?_
      refine (resolve_fails _).bind fun _ => (resolve_fails _).bind fun _ => ?_
      refine (resolveVec_fails _).bind fun _ => (resolveVec_fails _).bind fun _ => ?_
      exact (resolveVec_fails _).bind fun _ => (resolveGuard_fails _).bind fun _ => .ok
    · refine Fails.bind (.mapM fun reaction => ?_) fun reactions => .ok
      refine Fails.bind ?_ fun _ => .ok
      refine (resolve_fails _).bind fun _ => (resolve_fails _).bind fun _ => ?_
      exact (resolve_fails _).bind fun _ => (resolve_fails _).bind fun _ => .ok

end

/-! ## The whole schema -/

/-- One turn of the loop of `enforce_unique_signal_ids`. -/
def seeSignal (seen : Finset String) (sig : SignalDef) : Except EngineError (Finset String) :=
  if sig.id ∈ seen then .error (.duplicateSignalAfterExpand sig.id) else .ok (insert sig.id seen)

theorem seeSignals_iff {signals : List SignalDef} {seen : Finset String} :
    (∃ seen', signals.foldlM seeSignal seen = .ok seen') ↔
      (∀ sig ∈ signals, sig.id ∉ seen) ∧ (signals.map (·.id)).Nodup := by
  induction signals generalizing seen with
  | nil => simp [pure, Except.pure]
  | cons sig signals ih =>
      rw [List.foldlM_cons, seeSignal, List.map_cons, List.nodup_cons, List.forall_mem_cons]
      by_cases again : sig.id ∈ seen
      · rw [if_pos again]
        constructor
        · rintro ⟨seen', h⟩
          cases h
        · rintro ⟨⟨fresh, _⟩, _⟩
          exact absurd again fresh
      · rw [if_neg again]
        refine (@ih (insert sig.id seen)).trans ?_
        simp only [Finset.mem_insert, not_or, List.mem_map, not_exists, not_and]
        constructor
        · rintro ⟨fresh, distinct⟩
          exact ⟨⟨again, fun other member => (fresh other member).2⟩,
            fun other member => (fresh other member).1, distinct⟩
        · rintro ⟨⟨_, fresh⟩, own, distinct⟩
          exact ⟨fun other member => ⟨own other member, fresh other member⟩, distinct⟩

theorem enforceUnique_eq (signals : List SignalDef) :
    enforceUniqueSignalIds signals = signals.foldlM seeSignal ∅ >>= fun _ => .ok () := rfl

/-- The check accepts lists without a repeated id. -/
theorem enforceUnique_iff {signals : List SignalDef} :
    enforceUniqueSignalIds signals = .ok () ↔ (signals.map (·.id)).Nodup := by
  rw [enforceUnique_eq, bind_ok_iff]
  simp only [and_true, seeSignals_iff, Finset.notMem_empty, not_false_eq_true, implies_true,
    true_and]

/-- A repeated id is found no matter what follows. -/
theorem enforceUnique_append {signals : List SignalDef} {e : EngineError}
    (h : enforceUniqueSignalIds signals = .error e) (more : List SignalDef) :
    enforceUniqueSignalIds (signals ++ more) = .error e := by
  rw [enforceUnique_eq] at h ⊢
  rw [List.foldlM_append]
  cases looped : signals.foldlM seeSignal ∅ with
  | error e' =>
      rw [looped] at h
      cases h
      rfl
  | ok seen =>
      rw [looped] at h
      cases h

/-- The schema of the given expansions. -/
def TopologySchema.withExpansions (schema : TopologySchema) (expansions : List Expansion) :
    TopologySchema where
  version := schema.version
  signals := schema.signals ++ expansions.flatMap (·.signals)
  transitions := schema.transitions ++ expansions.flatMap (·.transitions)
  reactions := schema.reactions ++ expansions.flatMap (·.reactions)

/-- A schema with instances: expand them, then look for repeated signals. -/
theorem expand_of_instances {schema : TopologySchema} (some_left : schema.instances ≠ []) :
    expand schema = (do
      let expansions ← schema.instances.mapM (expandInstance (schema.components.getD ∅))
      enforceUniqueSignalIds (schema.withExpansions expansions).signals
      .ok (schema.withExpansions expansions)) := by
  have left : ¬ schema.instances.isEmpty = true := by
    rw [List.isEmpty_iff]
    exact some_left
  rw [expand, if_neg left]
  rfl

/-- A schema that expands has nothing to expand, or is extended by its instances. -/
theorem expand_ok {schema flat : TopologySchema} (h : expand schema = .ok flat) :
    (schema.Flat ∧ flat = schema) ∨
      ∃ expansions, schema.instances.mapM (expandInstance (schema.components.getD ∅)) =
        .ok expansions ∧ flat = schema.withExpansions expansions ∧
        (flat.signals.map (·.id)).Nodup := by
  by_cases none_left : schema.instances = []
  · rw [expand_of_flat none_left] at h
    cases h
    exact .inl ⟨none_left, rfl⟩
  · rw [expand_of_instances none_left] at h
    obtain ⟨expansions, expanded, h⟩ := bind_ok h
    obtain ⟨⟨⟩, unique, h⟩ := bind_ok h
    cases h
    exact .inr ⟨expansions, expanded, rfl, enforceUnique_iff.mp unique⟩

/-- Expansion leaves nothing to expand. -/
theorem expand_flat {schema flat : TopologySchema} (expanded : expand schema = .ok flat) :
    flat.Flat := by
  obtain ⟨none_left, rfl⟩ | ⟨_, _, rfl, _⟩ := expand_ok expanded
  · exact none_left
  · rfl

/-! ## Well-formed components -/

/-- The component fits together as it is written. -/
structure ComponentDef.WellFormed (component : ComponentDef) : Prop where
  initial : ∀ sig ∈ component.signals, sig.initialState ∈ sig.states
  transition : ∀ t ∈ component.transitions, ∃ sig ∈ component.signals, sig.id = t.signalId ∧
    (t.fromState = "*" ∨ t.fromState ∈ sig.states) ∧ t.toState ∈ sig.states

theorem mem_substVec {s : String} {items : List String} (member : s ∈ items)
    (bound : HashMap String) : subst s bound ∈ substVec items bound :=
  List.mem_map_of_mem member

/-- A wildcard holds no reference. -/
theorem subst_wildcard (bound : HashMap String) : subst "*" bound = "*" := by
  have chars : substChars bound "*".toList = "*".toList := by
    rw [substChars]
    rfl
  rw [subst, chars]
  rfl

/-- The instance of a well-formed component is valid on its own signals. -/
theorem ComponentDef.WellFormed.instantiate {component : ComponentDef} (h : component.WellFormed)
    (bound remap : HashMap String) :
    (∀ sig ∈ (component.instantiate bound remap).signals, sig.initialState ∈ sig.states) ∧
    ∀ t ∈ (component.instantiate bound remap).transitions,
      ∃ sig ∈ (component.instantiate bound remap).signals, sig.id = t.signalId ∧
        (t.fromState = "*" ∨ t.fromState ∈ sig.states) ∧ t.toState ∈ sig.states := by
  constructor
  · intro out member
    obtain ⟨sig, declared, rfl⟩ := List.mem_map.mp member
    exact mem_substVec (h.initial sig declared) bound
  · intro out member
    obtain ⟨t, declared, rfl⟩ := List.mem_map.mp member
    obtain ⟨sig, known, owner, source, target⟩ := h.transition t declared
    refine ⟨_, List.mem_map_of_mem known, ?_, ?_, mem_substVec target bound⟩
    · show renamed remap (subst sig.id bound) = renamed remap (subst t.signalId bound)
      rw [owner]
    · rcases source with wildcard | listed
      · left
        show subst t.fromState bound = "*"
        rw [wildcard, subst_wildcard]
      · exact .inr (mem_substVec listed bound)

/-- Expansion keeps what validation checks of signals and transitions. -/
theorem expand_checked {schema flat : TopologySchema} (checked : schema.Checked)
    (formed : ∀ name component, (schema.components.getD ∅).lookup name = some component →
      component.WellFormed)
    (h : expand schema = .ok flat) : flat.Checked := by
  obtain ⟨_, rfl⟩ | ⟨expansions, expanded, rfl, distinct⟩ := expand_ok h
  · exact checked
  · have added : ∀ e ∈ expansions, (∀ sig ∈ e.signals, sig.initialState ∈ sig.states) ∧
        ∀ t ∈ e.transitions, ∃ sig ∈ e.signals, sig.id = t.signalId ∧
          (t.fromState = "*" ∨ t.fromState ∈ sig.states) ∧ t.toState ∈ sig.states := by
      intro e member
      obtain ⟨inst, _, expandedInst⟩ := mapM_result expanded e member
      obtain ⟨component, bound, remap, resolves, rfl⟩ := expandInstance_ok expandedInst
      exact (formed _ component resolves.found).instantiate bound remap
    refine ⟨distinct, fun sig member => ?_, fun t member => ?_⟩
    · rcases List.mem_append.mp member with own | fromInstance
      · exact checked.initial sig own
      · obtain ⟨e, inside, declared⟩ := List.mem_flatMap.mp fromInstance
        exact (added e inside).1 sig declared
    · rcases List.mem_append.mp member with own | fromInstance
      · obtain ⟨sig, declared, fits⟩ := checked.transition t own
        exact ⟨sig, List.mem_append_left _ declared, fits⟩
      · obtain ⟨e, inside, listed⟩ := List.mem_flatMap.mp fromInstance
        obtain ⟨sig, declared, fits⟩ := (added e inside).2 t listed
        exact ⟨sig, List.mem_append_right _ (List.mem_flatMap.mpr ⟨e, inside, declared⟩), fits⟩

/-! ## Endpoints of reactions -/

/-- Only signals of the component are renamed. -/
theorem resolveConnections_key {component : ComponentDef} {connections : List ConnectionDef}
    {bound remap : HashMap String} {owner : String}
    (h : resolveConnections component connections bound owner = .ok remap) {id target : String}
    (wired : remap.lookup id = some target) :
    ∃ sig ∈ component.signals, subst sig.id bound = id := by
  refine foldlM_ok (fun remap : HashMap String => ∀ id target, remap.lookup id = some target →
    ∃ sig ∈ component.signals, subst sig.id bound = id) h ?_ ?_ id target wired
  · intro id target absent
    cases absent
  · intro conn _ remap remap' known step
    obtain ⟨own, ⟨_, _, _, sig, found, _⟩, _, rfl⟩ :=
      (resolveConnection_iff (signalStates_lookup bound component.signals)).mp step
    intro id target wired
    by_cases same : id = own
    · have named := List.find?_some (Option.mem_def.mp found)
      exact ⟨sig, List.mem_reverse.mp (List.mem_of_find?_eq_some found),
        (of_decide_eq_true named).trans same.symm⟩
    · rw [AList.lookup_insert_ne same] at wired
      exact known id target wired

/-- A reaction endpoint of an instance: a signal of the component as written, or a
name that comes to one of the given signals. -/
def ComponentDef.Knows (component : ComponentDef) (bound remap : HashMap String)
    (ids : List String) (endpoint : String) : Prop :=
  endpoint ∈ component.signals.map (·.id) ∨ subst endpoint bound ∈ ids ∨
    renamed remap (subst endpoint bound) ∈ ids

/-- A known endpoint names a signal of the flat schema. -/
theorem ComponentDef.Knows.renamed_mem {component : ComponentDef} {bound remap : HashMap String}
    {ids : List String} {endpoint : String} (h : component.Knows bound remap ids endpoint)
    (own : ∀ sig ∈ (component.instantiate bound remap).signals, sig.id ∈ ids)
    (keys : ∀ id target, remap.lookup id = some target →
      ∃ sig ∈ component.signals, subst sig.id bound = id) :
    renamed remap (subst endpoint bound) ∈ ids := by
  have signal : ∀ sig ∈ component.signals, renamed remap (subst sig.id bound) ∈ ids :=
    fun sig declared => own _ (List.mem_map_of_mem declared)
  rcases h with written | flat | flat
  · obtain ⟨sig, declared, rfl⟩ := List.mem_map.mp written
    exact signal sig declared
  · cases wired : remap.lookup (subst endpoint bound) with
    | none =>
        rw [renamed, wired]
        exact flat
    | some target =>
        -- a renamed name is the name of a signal of the component
        obtain ⟨sig, declared, same⟩ := keys _ target wired
        rw [← same]
        exact signal sig declared
  · exact flat

/-- A schema of well-formed parts that expands, expands to a valid one. -/
theorem expand_valid {schema flat : TopologySchema} (checked : schema.Checked)
    (formed : ∀ name component, (schema.components.getD ∅).lookup name = some component →
      component.WellFormed)
    (ends : ∀ r ∈ schema.reactions,
      r.fromSignal ∈ flat.signals.map (·.id) ∧ r.toSignal ∈ flat.signals.map (·.id))
    (instanceEnds : ∀ inst ∈ schema.instances, ∀ component bound remap,
      inst.Resolves (schema.components.getD ∅) component bound remap →
      ∀ r ∈ component.reactions,
        component.Knows bound remap (flat.signals.map (·.id)) r.fromSignal ∧
        component.Knows bound remap (flat.signals.map (·.id)) r.toSignal)
    (h : expand schema = .ok flat) : validate flat = .ok () := by
  refine validate_iff.mpr ⟨expand_checked checked formed h, fun r member => ?_⟩
  obtain ⟨_, rfl⟩ | ⟨expansions, expanded, rfl, _⟩ := expand_ok h
  · exact ends r member
  · rcases List.mem_append.mp member with top | fromInstance
    · exact ends r top
    · obtain ⟨e, inside, listed⟩ := List.mem_flatMap.mp fromInstance
      obtain ⟨inst, declaredInst, expandedInst⟩ := mapM_result expanded e inside
      obtain ⟨component, bound, remap, resolves, rfl⟩ := expandInstance_ok expandedInst
      obtain ⟨written, declared, rfl⟩ := List.mem_map.mp listed
      have own : ∀ sig ∈ (component.instantiate bound remap).signals,
          sig.id ∈ (schema.withExpansions expansions).signals.map (·.id) := by
        intro sig declaredSig
        refine List.mem_map_of_mem (List.mem_append_right _ ?_)
        exact List.mem_flatMap.mpr ⟨_, inside, declaredSig⟩
      have keys := fun id target => @resolveConnections_key _ _ _ _ _ resolves.connections id target
      obtain ⟨source, target⟩ :=
        instanceEnds inst declaredInst component bound remap resolves written declared
      exact ⟨source.renamed_mem own keys, target.renamed_mem own keys⟩

/-- A gate, named by its parameter, that falls shut again. -/
def gateComponent : ComponentDef where
  params := ["id"]
  signals := [⟨"$\x7bid\x7d", "shut", ["shut", "open"]⟩]
  transitions := [
    ⟨"$\x7bid\x7d", "shut", "push", "open", {}, none⟩,
    ⟨"$\x7bid\x7d", "*", "fall", "shut", {}, none⟩]
  reactions := [⟨"$\x7bid\x7d", "open", "$\x7bid\x7d", "fall", none, none, none, [], none⟩]

/-- Two gates. -/
def gateSchema : TopologySchema where
  version := "1.0"
  signals := []
  transitions := []
  components := some (AList.insert "gate" gateComponent ∅)
  instances := [⟨"gate", AList.insert "id" "left" ∅, []⟩, ⟨"gate", AList.insert "id" "right" ∅, []⟩]

theorem gateSchema_lookup {name : String} {component : ComponentDef}
    (found : (gateSchema.components.getD ∅).lookup name = some component) :
    component = gateComponent := by
  change (AList.insert "gate" gateComponent (∅ : HashMap ComponentDef)).lookup name = some component
    at found
  by_cases named : name = "gate"
  · subst named
    rw [AList.lookup_insert] at found
    cases found
    rfl
  · rw [AList.lookup_insert_ne named] at found
    cases found

theorem gateComponent_wellFormed : gateComponent.WellFormed where
  initial := by decide
  transition := by decide

theorem gateSchema_valid : ∃ flat, expand gateSchema = .ok flat ∧ validate flat = .ok () := by
  have expands : (expand gateSchema).isOk = true := by decide +kernel
  cases expanded : expand gateSchema with
  | error e =>
      rw [expanded] at expands
      cases expands
  | ok flat =>
      have top : gateSchema.Checked := ⟨by decide, by decide, by decide⟩
      refine ⟨flat, rfl, expand_valid top ?_ ?_ ?_ expanded⟩
      · intro name component found
        exact gateSchema_lookup found ▸ gateComponent_wellFormed
      · intro r member
        cases member
      · intro inst _ component bound remap resolves r member
        cases gateSchema_lookup resolves.found
        cases List.mem_singleton.mp member
        exact ⟨.inl (by decide), .inl (by decide)⟩

end SignalTopology
