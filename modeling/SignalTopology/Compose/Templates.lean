import SignalTopology.Compose.Instances

/-!
# Templates

A field of a component is a template. Where expansion replaces parameters, it does
so as the template says, except that it repeats the text before a reference that is
never closed. The guard, the join group, the requirements and the hook of a reaction
are taken over as they are.
-/

namespace SignalTopology

open Fallible

/-! ## Texts with references -/

/-- A character of a template, or a reference to a parameter. -/
inductive Part where
  | literal (c : Char)
  | reference (name : List Char)

/-- The parts of a template. A reference goes from `${` to the next closing brace; a
`${` that is never closed is plain text. -/
def parts : List Char → List Part
  | '$' :: '{' :: rest =>
      match _closed : findClose rest with
      | some (name, after) => .reference name :: parts after
      | none => .literal '$' :: parts ('{' :: rest)
  | c :: rest => .literal c :: parts rest
  | [] => []
termination_by cs => cs.length
decreasing_by
  · have := findClose_length _closed
    simp only [List.length_cons]
    omega
  · simp
  · simp

/-- A reference to a parameter stands for its value. -/
def Part.fill (value : String → Option String) : Part → List Char
  | literal c => [c]
  | reference name =>
      match value (String.ofList name) with
      | some value => value.toList
      | none => ['$', '{'] ++ name ++ ['}']

/-- The template with every reference to a parameter replaced by its value. -/
def fill (value : String → Option String) (text : String) : String :=
  String.ofList ((parts text.toList).flatMap (Part.fill value))

/-- An unclosed `${` follows some text since the last reference. -/
def dangling (cs : List Char) : Bool :=
  match _opened : findOpen cs with
  | none => false
  | some (before, afterOpen) =>
      match _closed : findClose afterOpen with
      | some (_, after) => dangling after
      | none => !before.isEmpty
termination_by cs.length
decreasing_by
  have := findOpen_length _opened
  have := findClose_length _closed
  omega

section

variable {value : String → Option String} {cs before afterOpen name after : List Char}

theorem parts_nil : parts [] = [] := by
  rw [parts]

theorem parts_literal {c : Char} (other : ∀ rest, c = '$' → cs = '{' :: rest → False) :
    parts (c :: cs) = .literal c :: parts cs := by
  rw [parts]
  exact other

theorem parts_reference (closed : findClose cs = some (name, after)) :
    parts ('$' :: '{' :: cs) = .reference name :: parts after := by
  rw [parts]
  split
  · next closed' =>
      rw [closed] at closed'
      cases closed'
      rfl
  · next closed' =>
      rw [closed] at closed'
      cases closed'

theorem dangling_none (opened : findOpen cs = none) : dangling cs = false := by
  rw [dangling]
  split
  · rfl
  · next opened' =>
      rw [opened] at opened'
      cases opened'

theorem dangling_closed (opened : findOpen cs = some (before, afterOpen))
    (closed : findClose afterOpen = some (name, after)) : dangling cs = dangling after := by
  rw [dangling]
  split
  · next opened' =>
      rw [opened] at opened'
      cases opened'
  · next opened' =>
      rw [opened] at opened'
      cases opened'
      split
      · next closed' =>
          rw [closed] at closed'
          cases closed'
          rfl
      · next closed' =>
          rw [closed] at closed'
          cases closed'

theorem dangling_unclosed (opened : findOpen cs = some (before, afterOpen))
    (closed : findClose afterOpen = none) : dangling cs = !before.isEmpty := by
  rw [dangling]
  split
  · next opened' =>
      rw [opened] at opened'
      cases opened'
  · next opened' =>
      rw [opened] at opened'
      cases opened'
      split
      · next closed' =>
          rw [closed] at closed'
          cases closed'
      · rfl

theorem fill_literals (cs : List Char) : (cs.map Part.literal).flatMap (Part.fill value) = cs := by
  rw [List.flatMap_map]
  exact List.flatMap_singleton' cs

/-- What comes before the first `${` is plain text. -/
theorem parts_open (h : findOpen cs = some (before, afterOpen)) :
    cs = before ++ '$' :: '{' :: afterOpen ∧
      parts cs = before.map Part.literal ++ parts ('$' :: '{' :: afterOpen) := by
  fun_induction findOpen cs generalizing before with
  | case1 rest =>
      cases h
      exact ⟨rfl, rfl⟩
  | case2 c rest other ih =>
      obtain ⟨⟨b, a⟩, found, same⟩ := Option.map_eq_some_iff.mp h
      cases same
      obtain ⟨split, literals⟩ := ih found
      refine ⟨congrArg (c :: ·) split, ?_⟩
      rw [parts_literal other, literals]
      rfl
  | case3 => cases h

theorem parts_plain (h : findOpen cs = none) : parts cs = cs.map Part.literal := by
  fun_induction findOpen cs with
  | case1 rest => cases h
  | case2 c rest other ih =>
      rw [parts_literal other, ih (Option.map_eq_none_iff.mp h)]
      rfl
  | case3 => exact parts_nil

/-- A text without a closing brace has no reference. -/
theorem parts_unclosed (h : findClose cs = none) : parts cs = cs.map Part.literal := by
  fun_induction parts cs with
  | case1 rest name after closed ih => simp [findClose, closed] at h
  | case2 rest closed ih =>
      rw [ih (by simp [findClose, closed])]
      rfl
  | case3 c rest other ih =>
      have later : findClose rest = none := by
        by_cases brace : c = '}'
        · subst brace
          cases h
        · simpa [findClose, brace] using h
      rw [ih later]
      rfl
  | case4 => rfl

/-- Substitution fills a template exactly if no unclosed `${` is left behind text. -/
theorem substChars_iff (bound : HashMap String) (cs : List Char) :
    substChars bound cs = (parts cs).flatMap (Part.fill bound.lookup) ↔ dangling cs = false := by
  fun_induction substChars bound cs with
  | case1 rest opened =>
      rw [parts_plain opened, fill_literals, dangling_none opened]
      exact iff_of_true rfl rfl
  | case2 rest before afterOpen opened name after closed value ih =>
      rw [(parts_open opened).2, parts_reference closed, dangling_closed opened closed, ← ih,
        List.flatMap_append, fill_literals, List.flatMap_cons, List.append_assoc,
        List.append_cancel_left_eq]
      exact List.append_right_inj _
  | case3 rest before afterOpen opened closed =>
      obtain ⟨split, literals⟩ := parts_open opened
      have unclosed : parts ('$' :: '{' :: afterOpen) =
          ('$' :: '{' :: afterOpen).map Part.literal :=
        parts_unclosed (by simp [findClose, closed])
      rw [literals, unclosed, ← List.map_append, fill_literals, ← split,
        dangling_unclosed opened closed, List.append_left_eq_self]
      cases before <;> simp

/-- `subst` does what the template says. -/
theorem subst_iff (bound : HashMap String) (text : String) :
    subst text bound = fill bound.lookup text ↔ dangling text.toList = false := by
  rw [subst, fill, String.ofList_inj, substChars_iff]

end

/-! ## Expansion as the template says -/

def SignalDef.filled (value : String → Option String) (remap : HashMap String) (sig : SignalDef) :
    SignalDef where
  id := renamed remap (fill value sig.id)
  initialState := fill value sig.initialState
  states := sig.states.map (fill value)

def TransitionDef.filled (value : String → Option String) (remap : HashMap String)
    (t : TransitionDef) : TransitionDef where
  signalId := renamed remap (fill value t.signalId)
  fromState := fill value t.fromState
  event := fill value t.event
  toState := fill value t.toState
  actions := {
    onExit := t.actions.onExit.map (fill value)
    onTransition := t.actions.onTransition.map (fill value)
    onEnter := t.actions.onEnter.map (fill value) }
  guard := t.guard.map (fill value)

def ReactionDef.filled (value : String → Option String) (remap : HashMap String)
    (r : ReactionDef) : ReactionDef where
  fromSignal := renamed remap (fill value r.fromSignal)
  fromState := fill value r.fromState
  toSignal := renamed remap (fill value r.toSignal)
  event := fill value r.event
  payload := r.payload
  guard := r.guard.map (fill value)
  joinGroup := r.joinGroup.map (fill value)
  requires := r.requires.map (fill value)
  onFail := r.onFail.map (fill value)

/-- Every string field is a template; wired signals are renamed afterwards. -/
def ComponentDef.filled (value : String → Option String) (remap : HashMap String)
    (component : ComponentDef) : Expansion where
  signals := component.signals.map (SignalDef.filled value remap)
  transitions := component.transitions.map (TransitionDef.filled value remap)
  reactions := component.reactions.map (ReactionDef.filled value remap)

/-- The value of a declared parameter. -/
def InstanceDef.value (inst : InstanceDef) (component : ComponentDef) (param : String) :
    Option String :=
  if param ∈ component.params then inst.bindings.lookup param else none

/-- What the templates of its component say an instance adds. -/
def InstanceDef.Expected (components : HashMap ComponentDef) (inst : InstanceDef)
    (e : Expansion) : Prop :=
  ∃ component bound remap, inst.Resolves components component bound remap ∧
    e = component.filled (inst.value component) remap

/-! ## When expansion does what the templates say -/

/-- The text of a signal id is filled, or renamed to the same id as if it were. -/
def Settles (bound remap : HashMap String) (id : String) : Prop :=
  dangling id.toList = false ∨
    renamed remap (subst id bound) = renamed remap (fill bound.lookup id)

structure SignalDef.Settled (bound remap : HashMap String) (sig : SignalDef) : Prop where
  id : Settles bound remap sig.id
  initialState : dangling sig.initialState.toList = false
  states : ∀ s ∈ sig.states, dangling s.toList = false

structure TransitionDef.Settled (bound remap : HashMap String) (t : TransitionDef) : Prop where
  signalId : Settles bound remap t.signalId
  fromState : dangling t.fromState.toList = false
  event : dangling t.event.toList = false
  toState : dangling t.toState.toList = false
  actions : ∀ s ∈ t.actions.allActions, dangling s.toList = false
  guard : ∀ g ∈ t.guard, dangling g.toList = false

/-- The endpoints are filled, and the other fields have nothing to fill. -/
structure ReactionDef.Settled (bound remap : HashMap String) (r : ReactionDef) : Prop where
  fromSignal : Settles bound remap r.fromSignal
  fromState : dangling r.fromState.toList = false
  toSignal : Settles bound remap r.toSignal
  event : dangling r.event.toList = false
  guard : ∀ g ∈ r.guard, fill bound.lookup g = g
  joinGroup : ∀ g ∈ r.joinGroup, fill bound.lookup g = g
  requires : ∀ g ∈ r.requires, fill bound.lookup g = g
  onFail : ∀ a ∈ r.onFail, fill bound.lookup a = a

structure ComponentDef.Settled (bound remap : HashMap String) (component : ComponentDef) :
    Prop where
  signals : ∀ sig ∈ component.signals, sig.Settled bound remap
  transitions : ∀ t ∈ component.transitions, t.Settled bound remap
  reactions : ∀ r ∈ component.reactions, r.Settled bound remap

section

variable {bound remap : HashMap String}

theorem settles_iff {id : String} :
    renamed remap (subst id bound) = renamed remap (fill bound.lookup id) ↔
      Settles bound remap id := by
  constructor
  · exact .inr
  · rintro (closed | same)
    · rw [(subst_iff bound id).mpr closed]
    · exact same

theorem substVec_iff {items : List String} :
    substVec items bound = items.map (fill bound.lookup) ↔
      ∀ s ∈ items, dangling s.toList = false := by
  rw [substVec, List.map_inj_left]
  exact forall₂_congr fun s _ => subst_iff bound s

theorem substOption_iff {text : Option String} :
    text.map (subst · bound) = text.map (fill bound.lookup) ↔
      ∀ g ∈ text, dangling g.toList = false := by
  cases text with
  | none => simp
  | some g => simpa using subst_iff bound g

theorem fillOption_iff {text : Option String} :
    text = text.map (fill bound.lookup) ↔ ∀ g ∈ text, fill bound.lookup g = g := by
  cases text with
  | none => simp
  | some g => simp [eq_comm]

theorem fillVec_iff {items : List String} :
    items = items.map (fill bound.lookup) ↔ ∀ g ∈ items, fill bound.lookup g = g := by
  constructor
  · intro same
    apply List.map_inj_left.mp
    rw [← same, List.map_id']
  · intro kept
    rw [List.map_congr_left kept, List.map_id']

theorem SignalDef.settled_iff {sig : SignalDef} :
    sig.instantiate bound remap = sig.filled bound.lookup remap ↔ sig.Settled bound remap := by
  rw [SignalDef.instantiate, SignalDef.filled, SignalDef.mk.injEq, settles_iff, subst_iff,
    substVec_iff]
  constructor
  · rintro ⟨id, initialState, states⟩
    exact ⟨id, initialState, states⟩
  · rintro ⟨id, initialState, states⟩
    exact ⟨id, initialState, states⟩

theorem TransitionDef.settled_iff {t : TransitionDef} :
    t.instantiate bound remap = t.filled bound.lookup remap ↔ t.Settled bound remap := by
  rw [TransitionDef.instantiate, TransitionDef.filled, TransitionDef.mk.injEq,
    ActionBinding.mk.injEq,
    settles_iff, subst_iff, subst_iff, subst_iff, substVec_iff, substVec_iff, substVec_iff,
    substOption_iff]
  constructor
  · rintro ⟨signalId, fromState, event, toState, ⟨onExit, onTransition, onEnter⟩, guard⟩
    refine ⟨signalId, fromState, event, toState, ?_, guard⟩
    exact List.forall_mem_append.mpr ⟨List.forall_mem_append.mpr ⟨onExit, onTransition⟩, onEnter⟩
  · rintro ⟨signalId, fromState, event, toState, actions, guard⟩
    obtain ⟨before, onEnter⟩ := List.forall_mem_append.mp actions
    obtain ⟨onExit, onTransition⟩ := List.forall_mem_append.mp before
    exact ⟨signalId, fromState, event, toState, ⟨onExit, onTransition, onEnter⟩, guard⟩

theorem ReactionDef.settled_iff {r : ReactionDef} :
    r.instantiate bound remap = r.filled bound.lookup remap ↔ r.Settled bound remap := by
  rw [ReactionDef.instantiate, ReactionDef.filled, ReactionDef.mk.injEq, settles_iff, subst_iff,
    settles_iff, subst_iff, fillOption_iff, fillOption_iff, fillVec_iff, fillOption_iff]
  constructor
  · rintro ⟨fromSignal, fromState, toSignal, event, _, guard, joinGroup, requires, onFail⟩
    exact ⟨fromSignal, fromState, toSignal, event, guard, joinGroup, requires, onFail⟩
  · rintro ⟨fromSignal, fromState, toSignal, event, guard, joinGroup, requires, onFail⟩
    exact ⟨fromSignal, fromState, toSignal, event, rfl, guard, joinGroup, requires, onFail⟩

theorem ComponentDef.settled_iff {component : ComponentDef} :
    component.instantiate bound remap = component.filled bound.lookup remap ↔
      component.Settled bound remap := by
  rw [ComponentDef.instantiate, ComponentDef.filled, Expansion.mk.injEq, List.map_inj_left,
    List.map_inj_left, List.map_inj_left]
  simp only [SignalDef.settled_iff, TransitionDef.settled_iff, ReactionDef.settled_iff]
  constructor
  · rintro ⟨signals, transitions, reactions⟩
    exact ⟨signals, transitions, reactions⟩
  · rintro ⟨signals, transitions, reactions⟩
    exact ⟨signals, transitions, reactions⟩

end

/-- One turn of the loop of `check_bindings`. -/
def bindParam (bindings : HashMap String) (owner : String) (bound : HashMap String)
    (param : String) : Except EngineError (HashMap String) :=
  match bindings.lookup param with
  | some value => .ok (bound.insert param value)
  | none => .error (.missingBinding owner param)

theorem bindParams_lookup {bindings : HashMap String} {owner : String} {params : List String}
    {table bound : HashMap String} (h : params.foldlM (bindParam bindings owner) table = .ok bound)
    (name : String) : bound.lookup name =
      if name ∈ params then bindings.lookup name else table.lookup name := by
  induction params generalizing table with
  | nil =>
      cases h
      rfl
  | cons param params ih =>
      rw [List.foldlM_cons] at h
      obtain ⟨next, first, rest⟩ := bind_ok h
      rw [ih rest]
      rw [bindParam] at first
      cases found : bindings.lookup param with
      | none =>
          rw [found] at first
          cases first
      | some value =>
          rw [found] at first
          cases first
          by_cases own : name = param
          · subst own
            simp [found]
          · simp [own]

/-- The bindings that are checked are those of the declared parameters. -/
theorem checkBindings_lookup {component : ComponentDef} {inst : InstanceDef}
    {bound : HashMap String}
    (h : checkBindings component inst.bindings inst.component = .ok bound) :
    (bound.lookup ·) = inst.value component := by
  funext name
  rw [InstanceDef.value]
  exact @bindParams_lookup inst.bindings inst.component component.params ∅ bound h name

/-! ## The flat schema -/

theorem InstanceDef.Resolves.unique {inst : InstanceDef} {components : HashMap ComponentDef}
    {component component' : ComponentDef} {bound bound' remap remap' : HashMap String}
    (h : inst.Resolves components component bound remap)
    (h' : inst.Resolves components component' bound' remap') :
    component' = component ∧ bound' = bound ∧ remap' = remap := by
  cases Option.some.inj (h.found.symm.trans h'.found)
  cases Except.ok.inj (h.bindings.symm.trans h'.bindings)
  cases Except.ok.inj (h.connections.symm.trans h'.connections)
  exact ⟨rfl, rfl, rfl⟩

/-- The instance resolves, and its component then settles. -/
def InstanceDef.Settled (components : HashMap ComponentDef) (inst : InstanceDef) : Prop :=
  ∀ component bound remap, inst.Resolves components component bound remap →
    component.Settled bound remap

/-- The expansions of a list of instances. -/
theorem expansions_iff {components : HashMap ComponentDef} {insts : List InstanceDef}
    {es : List Expansion}
    (h : List.Forall₂ (fun inst e => expandInstance components inst = .ok e) insts es) :
    (∃ es', List.Forall₂ (InstanceDef.Expected components) insts es' ∧
        es.flatMap (·.signals) = es'.flatMap (·.signals) ∧
        es.flatMap (·.transitions) = es'.flatMap (·.transitions) ∧
        es.flatMap (·.reactions) = es'.flatMap (·.reactions)) ↔
      ∀ inst ∈ insts, inst.Settled components := by
  induction h with
  | nil =>
      refine iff_of_true ⟨[], .nil, rfl, rfl, rfl⟩ ?_
      intro inst member
      cases member
  | @cons inst e insts es expanded _ ih =>
      obtain ⟨component, bound, remap, resolves, rfl⟩ := expandInstance_ok expanded
      have settled : inst.Settled components ↔
          component.instantiate bound remap = component.filled (inst.value component) remap := by
        rw [← checkBindings_lookup resolves.bindings, ComponentDef.settled_iff]
        constructor
        · exact fun settled => settled component bound remap resolves
        · intro settled component' bound' remap' resolves'
          obtain ⟨rfl, rfl, rfl⟩ := resolves.unique resolves'
          exact settled
      rw [List.forall_mem_cons, settled, ← ih]
      constructor
      · rintro ⟨es', expected, signals, transitions, reactions⟩
        cases expected with
        | @cons _ e' _ es' first rest =>
            obtain ⟨component', bound', remap', resolves', rfl⟩ := first
            obtain ⟨rfl, rfl, rfl⟩ := resolves.unique resolves'
            simp only [List.flatMap_cons] at signals transitions reactions
            obtain ⟨ownSignals, signals⟩ := List.append_inj signals (by
              simp [ComponentDef.instantiate, ComponentDef.filled])
            obtain ⟨ownTransitions, transitions⟩ := List.append_inj transitions (by
              simp [ComponentDef.instantiate, ComponentDef.filled])
            obtain ⟨ownReactions, reactions⟩ := List.append_inj reactions (by
              simp [ComponentDef.instantiate, ComponentDef.filled])
            exact ⟨Expansion.mk.injEq .. ▸ ⟨ownSignals, ownTransitions, ownReactions⟩,
              es', rest, signals, transitions, reactions⟩
      · rintro ⟨same, es', rest, signals, transitions, reactions⟩
        refine ⟨_, .cons ⟨component, bound, remap, resolves, rfl⟩ rest, ?_⟩
        simp only [List.flatMap_cons, same, signals, transitions, reactions, and_self]

/-- What the templates of the components say the flat schema is: the declarations of
the schema and, for every instance in turn, those of its component, filled in. -/
def Parameterized (schema flat : TopologySchema) : Prop :=
  ∃ es, List.Forall₂ (InstanceDef.Expected (schema.components.getD ∅)) schema.instances es ∧
    flat.signals = schema.signals ++ es.flatMap (·.signals) ∧
    flat.transitions = schema.transitions ++ es.flatMap (·.transitions) ∧
    flat.reactions = schema.reactions ++ es.flatMap (·.reactions)

/-- Expansion does what the templates say exactly if, in every instance, no unclosed
`${` is left behind text and the fields that are not replaced hold no parameter. -/
theorem expand_parameterized_iff {schema flat : TopologySchema} (h : expand schema = .ok flat) :
    Parameterized schema flat ↔
      ∀ inst ∈ schema.instances, inst.Settled (schema.components.getD ∅) := by
  obtain ⟨none_left, rfl⟩ | ⟨expansions, expanded, rfl, _⟩ := expand_ok h
  · rw [TopologySchema.Flat] at none_left
    rw [Parameterized, none_left]
    refine iff_of_true ⟨[], .nil, ?_, ?_, ?_⟩ ?_
    · exact (List.append_nil _).symm
    · exact (List.append_nil _).symm
    · exact (List.append_nil _).symm
    · intro inst member
      cases member
  · rw [← expansions_iff (mapM_ok_iff.mp expanded), Parameterized]
    simp only [TopologySchema.withExpansions, List.append_cancel_left_eq]

/-- The component of the gates holds its parameter where it is replaced only. -/
theorem gateComponent_settled (bound remap : HashMap String) :
    gateComponent.Settled bound remap := by
  have id : dangling "$\x7bid\x7d".toList = false := by decide +kernel
  have shut : dangling "shut".toList = false := by decide +kernel
  have opened : dangling "open".toList = false := by decide +kernel
  have push : dangling "push".toList = false := by decide +kernel
  have fall : dangling "fall".toList = false := by decide +kernel
  have wildcard : dangling "*".toList = false := by decide +kernel
  refine ⟨?_, ?_, ?_⟩
  · intro sig member
    cases List.mem_singleton.mp member
    exact ⟨.inl id, shut, by decide +kernel⟩
  · intro t member
    rcases List.mem_pair.mp member with rfl | rfl
    · exact ⟨.inl id, shut, push, opened, by simp [ActionBinding.allActions], by simp⟩
    · exact ⟨.inl id, wildcard, fall, shut, by simp [ActionBinding.allActions], by simp⟩
  · intro r member
    cases List.mem_singleton.mp member
    exact ⟨.inl id, opened, .inl id, fall, by simp, by simp, by simp, by simp⟩

theorem gateSchema_parameterized : ∃ flat, expand gateSchema = .ok flat ∧
    Parameterized gateSchema flat := by
  have expands : (expand gateSchema).isOk = true := by decide +kernel
  cases expanded : expand gateSchema with
  | error e =>
      rw [expanded] at expands
      cases expands
  | ok flat =>
      refine ⟨flat, rfl, (expand_parameterized_iff expanded).mpr ?_⟩
      intro inst _ component bound remap resolves
      cases gateSchema_lookup resolves.found
      exact gateComponent_settled bound remap

/-- A tank that is drained above a limit, which is a parameter. -/
def tankComponent : ComponentDef where
  params := ["limit"]
  signals := [⟨"tank", "low", ["low", "high"]⟩]
  transitions := []
  reactions := [
    ⟨"tank", "high", "tank", "drain", none, some "payload.n > $\x7blimit\x7d", none, [], none⟩]

def tankInstance : InstanceDef where
  component := "tank"
  bindings := AList.insert "limit" "3" ∅

def tankSchema : TopologySchema where
  version := "1.0"
  signals := []
  transitions := []
  components := some (AList.insert "tank" tankComponent ∅)
  instances := [tankInstance]

/-- The limit is not put into the guard of the reaction. -/
theorem tankSchema_unfilled : ∃ flat, expand tankSchema = .ok flat ∧
    ¬ Parameterized tankSchema flat := by
  have expands : (expand tankSchema).isOk = true := by decide +kernel
  cases expanded : expand tankSchema with
  | error e =>
      rw [expanded] at expands
      cases expands
  | ok flat =>
      refine ⟨flat, rfl, ?_⟩
      rintro ⟨es, expected, signals, transitions, reactions⟩
      obtain ⟨none_left, _⟩ | ⟨expansions, expandedAll, rfl, _⟩ := expand_ok expanded
      · cases none_left
      · have settled := (expansions_iff (mapM_ok_iff.mp expandedAll)).mp
          ⟨es, expected, signals, transitions, reactions⟩ tankInstance List.mem_cons_self
        cases expected with
        | cons first _ =>
            obtain ⟨component, bound, remap, resolves, _⟩ := first
            have own : component = tankComponent := Option.some.inj (resolves.found.symm.trans rfl)
            subst own
            have kept :=
              ((settled _ bound remap resolves).reactions _ List.mem_cons_self).guard _ rfl
            rw [checkBindings_lookup resolves.bindings] at kept
            revert kept
            decide +kernel

end SignalTopology
