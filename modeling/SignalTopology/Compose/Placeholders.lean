import SignalTopology.Compose.Spelling

/-!
# Unknown parameters

Expansion looks for references to no parameter in the text that replaces a field,
and there at the first placeholder only. A value that was put in may spell that
placeholder. So a reference can be hidden behind a value, and a value can forge one
that the template does not have.
-/

namespace SignalTopology

open Fallible

/-! ## What replaces a field -/

/-- The parts that are written for a template. Before an unclosed `${`, the text since
the last reference comes twice. -/
def writtenParts (cs : List Char) : List Part :=
  match _opened : findOpen cs with
  | none => cs.map .literal
  | some (before, afterOpen) =>
      match _closed : findClose afterOpen with
      | some (name, after) => before.map .literal ++ .reference name :: writtenParts after
      | none => (before ++ cs).map .literal
termination_by cs.length
decreasing_by
  have := findOpen_length _opened
  have := findClose_length _closed
  omega

/-- What replaces a template. -/
def written (value : String → Option String) (s : String) : String :=
  String.ofList ((writtenParts s.toList).flatMap (Part.fill value))

/-- A reference to no parameter. -/
def Part.unknown (params : List String) : Part → Bool
  | literal _ => false
  | reference name => String.ofList name ∉ params

section

variable {value : String → Option String} {params : List String}
variable {cs before afterOpen name after : List Char}

theorem written_none (opened : findOpen cs = none) : writtenParts cs = cs.map .literal := by
  rw [writtenParts]
  split
  · rfl
  · next opened' =>
      rw [opened] at opened'
      cases opened'

theorem written_closed (opened : findOpen cs = some (before, afterOpen))
    (closed : findClose afterOpen = some (name, after)) :
    writtenParts cs = before.map .literal ++ .reference name :: writtenParts after := by
  rw [writtenParts]
  split
  · next opened' =>
      rw [opened] at opened'
      cases opened'
  · next opened' =>
      rw [opened] at opened'
      cases opened'
      split
      · next closed' =>
          rw [closed] at closed'
          cases closed'
          rfl
      · next closed' =>
          rw [closed] at closed'
          cases closed'

theorem written_unclosed (opened : findOpen cs = some (before, afterOpen))
    (closed : findClose afterOpen = none) : writtenParts cs = (before ++ cs).map .literal := by
  rw [writtenParts]
  split
  · next opened' =>
      rw [opened] at opened'
      cases opened'
  · next opened' =>
      rw [opened] at opened'
      cases opened'
      split
      · next closed' =>
          rw [closed] at closed'
          cases closed'
      · rfl

/-- Substitution writes the parts, with the values put in. -/
theorem substChars_written (bound : HashMap String) (cs : List Char) :
    substChars bound cs = (writtenParts cs).flatMap (Part.fill bound.lookup) := by
  fun_induction substChars bound cs with
  | case1 rest opened => rw [written_none opened, fill_literals]
  | case2 rest before afterOpen opened name after closed value ih =>
      rw [written_closed opened closed, ih, List.flatMap_append, fill_literals, List.flatMap_cons,
        List.append_assoc]
      rfl
  | case3 rest before afterOpen opened closed => rw [written_unclosed opened closed, fill_literals]

/-- The references of a template are the ones that are written. -/
theorem written_reference (cs : List Char) :
    .reference name ∈ writtenParts cs ↔ .reference name ∈ parts cs := by
  fun_induction writtenParts cs with
  | case1 cs opened => rw [parts_plain opened]
  | case2 cs before afterOpen opened inner after closed ih =>
      rw [(parts_open opened).2, parts_reference closed, List.mem_append, List.mem_append,
        List.mem_cons, List.mem_cons, ih]
  | case3 cs before afterOpen opened closed =>
      have unclosed : parts ('$' :: '{' :: afterOpen) =
          ('$' :: '{' :: afterOpen).map Part.literal :=
        parts_unclosed (by simp [findClose, closed])
      rw [(parts_open opened).2, unclosed, ← List.map_append]
      simp

/-- Only the values of the references matter. -/
theorem fill_congr {value' : String → Option String} {ps : List Part}
    (same : ∀ name, .reference name ∈ ps → value' (String.ofList name) =
      value (String.ofList name)) :
    ps.flatMap (Part.fill value') = ps.flatMap (Part.fill value) := by
  refine List.flatMap_congr fun part member => ?_
  cases part with
  | literal c => rfl
  | reference name => rw [Part.fill, Part.fill, same name member]

end

/-! ## Simultaneous substitution -/

/-- At this template and these values, substitution is simultaneous: each closed reference is
replaced by its value, and a binding for a name that does not occur does not matter. -/
structure Simultaneous (bound : HashMap String) (s : String) : Prop where
  filled : subst s bound = fill bound.lookup s
  others : ∀ bound' : HashMap String,
    (∀ name, .reference name ∈ parts s.toList →
      bound'.lookup (String.ofList name) = bound.lookup (String.ofList name)) →
    subst s bound' = subst s bound

theorem subst_written (bound : HashMap String) (s : String) :
    subst s bound = written bound.lookup s := by
  rw [subst, substChars_written, written]

/-- Which pieces are written depends on the template alone, and only an unclosed `${` behind
some text is written otherwise than the template says. -/
theorem simultaneous_iff (bound : HashMap String) (s : String) :
    Simultaneous bound s ↔ dangling s.toList = false := by
  constructor
  · rintro ⟨filled, _⟩
    exact (subst_iff bound s).mp filled
  · intro closed
    refine ⟨(subst_iff bound s).mpr closed, ?_⟩
    intro bound' same
    rw [subst_written, subst_written, written, written, fill_congr]
    intro name member
    exact same name ((written_reference _).mp member)

/-- The text before the unclosed reference comes twice. -/
theorem lampTemplate_repeated : ¬ Simultaneous ∅ "lamp-$\x7bid" := by
  rintro ⟨filled, _⟩
  have closed := (subst_iff _ _).mp filled
  revert closed
  decide +kernel

/-! ## Hidden and forged references -/

/-- The parts up to the first reference to no parameter, with it. -/
def upToUnknown (params : List String) : List Part → List Part
  | [] => []
  | part :: rest => if part.unknown params then [part] else part :: upToUnknown params rest

/-- The pieces of a template up to the first reference to no parameter: its characters, the
values of its references, and this reference. -/
def piecesUpTo (params : List String) (value : String → Option String) (s : String) :
    List (List Char) :=
  (upToUnknown params (writtenParts s.toList)).map (Part.fill value)

/-- The template has a closed reference to no parameter. -/
def Unknown (params : List String) (s : String) : Prop :=
  ∃ name, .reference name ∈ parts s.toList ∧ String.ofList name ∉ params

/-- The pieces up to the reference spell the name of a parameter first: a value has a `${`, or
one begins at the edge of a value, and what follows it closes it. -/
def Hidden (params : List String) (value : String → Option String) (s : String) : Prop :=
  ∃ name ∈ spelled (piecesUpTo params value s), name ∈ params

/-- The pieces spell a name that is no parameter first, though the template has no reference
to one. -/
def Forged (params : List String) (value : String → Option String) (s : String) : Prop :=
  ¬ Unknown params s ∧ ∃ name ∈ spelled (piecesUpTo params value s), name ∉ params

section

variable {value : String → Option String} {params : List String} {s : String}

theorem unknown_iff : Unknown params s ↔
    (writtenParts s.toList).any (Part.unknown params) = true := by
  rw [List.any_eq_true, Unknown]
  constructor
  · rintro ⟨name, member, outside⟩
    exact ⟨_, (written_reference _).mpr member, decide_eq_true outside⟩
  · rintro ⟨part, member, outside⟩
    cases part with
    | literal c => cases outside
    | reference name => exact ⟨name, (written_reference _).mp member, of_decide_eq_true outside⟩

instance : Decidable (Unknown params s) := decidable_of_iff _ unknown_iff.symm

/-- Without such a reference, everything is written. -/
theorem upToUnknown_none {ps : List Part} (h : ps.any (Part.unknown params) = false) :
    upToUnknown params ps = ps := by
  induction ps with
  | nil => rfl
  | cons part rest ih =>
      rw [List.any_cons, Bool.or_eq_false_iff] at h
      rw [upToUnknown, if_neg (by rw [h.1]; exact Bool.false_ne_true), ih h.2]

/-- The parts end with the reference. -/
theorem upToUnknown_some {ps : List Part} (h : ps.any (Part.unknown params) = true) :
    ∃ front name rest, String.ofList name ∉ params ∧
      upToUnknown params ps = front ++ [.reference name] ∧ ps = upToUnknown params ps ++ rest := by
  induction ps with
  | nil => cases h
  | cons part rest ih =>
      rw [upToUnknown]
      by_cases own : part.unknown params = true
      · rw [if_pos own]
        cases part with
        | literal c => cases own
        | reference name => exact ⟨[], name, rest, of_decide_eq_true own, rfl, rfl⟩
      · rw [List.any_cons, Bool.or_eq_true, or_iff_right own] at h
        obtain ⟨front, name, later, outside, split, whole⟩ := ih h
        rw [if_neg own]
        refine ⟨part :: front, name, later, outside, congrArg (part :: ·) split, ?_⟩
        exact congrArg (part :: ·) whole

end

section

variable {component : ComponentDef} {bound : HashMap String} {s : String}

theorem spelled_pieces {value : String → Option String} {params : List String} :
    spelled (piecesUpTo params value s) = findUnresolved
      (String.ofList ((upToUnknown params (writtenParts s.toList)).flatMap (Part.fill value))) := by
  rw [spelled_eq, piecesUpTo, List.flatMap_def]

/-- Without such a reference, the pieces are the whole text. -/
theorem spelled_known (known : ¬ Unknown component.params s) :
    spelled (piecesUpTo component.params bound.lookup s) = findUnresolved (subst s bound) := by
  rw [unknown_iff, Bool.not_eq_true] at known
  rw [spelled_pieces, subst_written, written, upToUnknown_none known]

/-- The pieces up to the reference already spell the placeholder that is looked at. -/
theorem spelled_unknown (outside : ∀ name, name ∉ component.params → bound.lookup name = none)
    (unknown : Unknown component.params s) :
    ∃ name, spelled (piecesUpTo component.params bound.lookup s) = some name ∧
      findUnresolved (subst s bound) = some name := by
  obtain ⟨front, name, rest, missing, ends, whole⟩ := upToUnknown_some (unknown_iff.mp unknown)
  have last : Part.fill bound.lookup (.reference name) = '$' :: '{' :: (name ++ ['}']) := by
    rw [Part.fill, outside _ missing]
    rfl
  have text : (upToUnknown component.params (writtenParts s.toList)).flatMap
      (Part.fill bound.lookup) =
        front.flatMap (Part.fill bound.lookup) ++ '$' :: '{' :: (name ++ ['}']) := by
    rw [ends, List.flatMap_append, List.flatMap_singleton, last]
  obtain ⟨first, found⟩ := Option.isSome_iff_exists.mp
    (findUnresolved_isSome (front.flatMap (Part.fill bound.lookup)) name)
  rw [← text] at found
  refine ⟨first, spelled_pieces.trans found, ?_⟩
  rw [subst_written, written, whole, List.flatMap_append]
  exact findUnresolved_append found

/-- The check of a field reports a reference to no parameter: one that is not hidden,
or one that is forged. -/
def Reported (params : List String) (value : String → Option String) (s : String) : Prop :=
  (Unknown params s ∧ ¬ Hidden params value s) ∨ Forged params value s

instance (params : List String) (value : String → Option String) (s : String) :
    Decidable (Hidden params value s) :=
  inferInstanceAs (Decidable (∃ name ∈ spelled (piecesUpTo params value s), name ∈ params))

instance (params : List String) (value : String → Option String) (s : String) :
    Decidable (Forged params value s) :=
  inferInstanceAs (Decidable (¬ Unknown params s ∧
    ∃ name ∈ spelled (piecesUpTo params value s), name ∉ params))

instance (params : List String) (value : String → Option String) (s : String) :
    Decidable (Reported params value s) :=
  inferInstanceAs (Decidable ((Unknown params s ∧ ¬ Hidden params value s) ∨ Forged params value s))

theorem resolve_checks {owner : String} : (∃ text, resolve s owner component bound = .ok text) ↔
    ∀ name, findUnresolved (subst s bound) = some name → name ∈ component.params := by
  rw [resolve]
  cases findUnresolved (subst s bound) with
  | none => simp
  | some rem =>
      dsimp only
      by_cases param : rem ∈ component.params
      · simp [param]
      · simp [param]

theorem resolve_succeeds_iff {owner : String}
    (outside : ∀ name, name ∉ component.params → bound.lookup name = none) :
    (∃ text, resolve s owner component bound = .ok text) ↔
      ¬ Reported component.params bound.lookup s := by
  rw [resolve_checks]
  by_cases unknown : Unknown component.params s
  · obtain ⟨name, early, found⟩ := spelled_unknown outside unknown
    have reported : Reported component.params bound.lookup s ↔ name ∉ component.params := by
      rw [Reported, Hidden, Forged, early]
      simp [unknown]
    rw [reported, found, not_not]
    simp
  · have reported : Reported component.params bound.lookup s ↔
        ∃ name ∈ findUnresolved (subst s bound), name ∉ component.params := by
      rw [Reported, Forged, spelled_known unknown]
      simp [unknown]
    rw [reported]
    simp only [Option.mem_def, not_exists, not_and, not_not]

end

/-! ## Inert values -/

/-- No placeholder begins in the value or at one of its edges. -/
structure Inert (value : String) : Prop where
  visible : value.toList ≠ []
  inside : findOpen value.toList = none
  front : value.toList.head? ≠ some '{'
  back : value.toList.getLast? ≠ some '$'

theorem upToUnknown_literals (params : List String) (cs : List Char) (ps : List Part) :
    upToUnknown params (cs.map .literal ++ ps) = cs.map .literal ++ upToUnknown params ps := by
  induction cs with
  | nil => rfl
  | cons c cs ih =>
      rw [List.map_cons, List.cons_append, upToUnknown, if_neg (by simp [Part.unknown]), ih]
      rfl

section

variable {value : String → Option String} {params : List String}

/-- With inert values, the first placeholder is the template's own first reference to no
parameter. -/
theorem spelled_inert (inert : ∀ name ∈ params, ∃ v ∈ value name, Inert v)
    (outside : ∀ name, name ∉ params → value name = none) (cs : List Char)
    (tidy : dangling cs = false) {before inner name after : List Char}
    (opened : findOpen ((upToUnknown params (writtenParts cs)).flatMap (Part.fill value)) =
      some (before, inner)) (closed : findClose inner = some (name, after)) :
    .reference name ∈ writtenParts cs ∧ String.ofList name ∉ params := by
  fun_induction writtenParts cs generalizing before with
  | case1 cs none =>
      have whole := upToUnknown_literals params cs []
      rw [List.append_nil] at whole
      rw [whole, upToUnknown, List.append_nil, fill_literals, none] at opened
      cases opened
  | case2 cs front afterOpen opens own later closes ih =>
      rw [upToUnknown_literals, List.flatMap_append, fill_literals, upToUnknown] at opened
      have quiet := findOpen_quiet opens
      by_cases known : String.ofList own ∈ params
      · -- the value is skipped, so the placeholder stands behind it
        obtain ⟨v, found, inert⟩ := inert _ known
        rw [if_neg (by simpa [Part.unknown] using known), List.flatMap_cons, Part.fill, found,
          findOpen_skip quiet, findOpen_skip inert.inside] at opened
        · rw [Option.map_map] at opened
          obtain ⟨p, behind, same⟩ := Option.map_eq_some_iff.mp opened
          obtain ⟨_, rfl⟩ := Prod.mk.inj same
          rw [dangling_closed opens closes] at tidy
          obtain ⟨member, unknown⟩ := ih tidy behind
          exact ⟨by simp [member], unknown⟩
        · exact fun last => absurd last inert.back
        · intro _
          rw [List.head?_append_of_ne_nil _ inert.visible]
          exact inert.front
      · rw [if_pos (by simpa [Part.unknown] using known), List.flatMap_singleton, Part.fill,
          outside _ known, findOpen_skip quiet fun _ => by simp] at opened
        obtain ⟨p, behind, same⟩ := Option.map_eq_some_iff.mp opened
        obtain ⟨_, rfl⟩ := Prod.mk.inj same
        cases behind
        change findClose (own ++ ['}']) = _ at closed
        rw [findClose_skip (findClose_quiet closes)] at closed
        cases closed
        simp [known]
  | case3 cs front afterOpen opens closes =>
      rw [dangling_unclosed opens closes, Bool.not_eq_false', List.isEmpty_iff] at tidy
      subst tidy
      have whole := upToUnknown_literals params cs []
      rw [List.append_nil] at whole
      rw [List.nil_append, whole, upToUnknown, List.append_nil, fill_literals, opens] at opened
      cases opened
      rw [closes] at closed
      cases closed

/-- With inert values, a field is reported for the references of its template only. -/
theorem reported_inert (inert : ∀ name ∈ params, ∃ v ∈ value name, Inert v)
    (outside : ∀ name, name ∉ params → value name = none) {s : String}
    (tidy : dangling s.toList = false) : Reported params value s ↔ Unknown params s := by
  have own : ∀ name ∈ spelled (piecesUpTo params value s), Unknown params s ∧ name ∉ params := by
    intro name found
    rw [spelled_pieces, findUnresolved_ofList] at found
    obtain ⟨⟨before, inner⟩, opened, found⟩ := Option.bind_eq_some_iff.mp found
    obtain ⟨⟨inner', after⟩, closed, rfl⟩ := Option.map_eq_some_iff.mp found
    obtain ⟨member, unknown⟩ := spelled_inert inert outside s.toList tidy opened closed
    exact ⟨⟨inner', (written_reference _).mp member, unknown⟩, unknown⟩
  constructor
  · rintro (⟨unknown, _⟩ | ⟨known, name, found, _⟩)
    · exact unknown
    · exact absurd (own name found).1 known
  · exact fun unknown => .inl ⟨unknown, fun ⟨name, found, param⟩ => (own name found).2 param⟩

end

/-! ## Fields -/

/-- The templates of a signal. -/
def SignalDef.templates (sig : SignalDef) : List String := sig.id :: sig.initialState :: sig.states

def TransitionDef.templates (t : TransitionDef) : List String :=
  t.signalId :: t.fromState :: t.event :: t.toState :: (t.actions.allActions ++ t.guard.toList)

/-- Only the endpoints of a reaction are substituted. -/
def ReactionDef.templates (r : ReactionDef) : List String :=
  [r.fromSignal, r.fromState, r.toSignal, r.event]

/-- The fields of a component whose text is substituted in the declarations of an instance. -/
def ComponentDef.templates (component : ComponentDef) : List String :=
  component.signals.flatMap (·.templates) ++ component.transitions.flatMap (·.templates) ++
    component.reactions.flatMap (·.templates)

section

variable {component : ComponentDef} {bound remap : HashMap String} {owner : String}

theorem resolveGuard_succeeds_iff {guard : Option String} :
    (∃ out, (guard.mapM fun guard => resolve guard owner component bound) = .ok out) ↔
      ∀ s ∈ guard.toList, ∃ text, resolve s owner component bound = .ok text := by
  cases guard with
  | none => simp [pure, Except.pure]
  | some guard =>
      rw [Option.toList_some, List.forall_mem_singleton]
      exact map_succeeds_iff

theorem expandSignal_succeeds_iff {sig : SignalDef} :
    (∃ out, expandSignal sig owner component bound = .ok out) ↔
      ∀ s ∈ sig.templates, ∃ text, resolve s owner component bound = .ok text := by
  rw [SignalDef.templates, List.forall_mem_cons, List.forall_mem_cons]
  refine bind_succeeds_iff fun id => bind_succeeds_iff fun initialState => ?_
  rw [← mapM_succeeds_iff]
  exact map_succeeds_iff

theorem expandReaction_succeeds_iff {r : ReactionDef} :
    (∃ out, expandReaction r owner component bound = .ok out) ↔
      ∀ s ∈ r.templates, ∃ text, resolve s owner component bound = .ok text := by
  rw [ReactionDef.templates, List.forall_mem_cons, List.forall_mem_cons, List.forall_mem_cons,
    List.forall_mem_singleton]
  refine bind_succeeds_iff fun fromSignal => bind_succeeds_iff fun fromState => ?_
  exact bind_succeeds_iff fun toSignal => map_succeeds_iff

theorem expandTransition_succeeds_iff {t : TransitionDef} :
    (∃ out, expandTransition t owner component bound = .ok out) ↔
      ∀ s ∈ t.templates, ∃ text, resolve s owner component bound = .ok text := by
  rw [TransitionDef.templates, ActionBinding.allActions, List.forall_mem_cons,
    List.forall_mem_cons, List.forall_mem_cons, List.forall_mem_cons, List.forall_mem_append,
    List.forall_mem_append, List.forall_mem_append, ← resolveGuard_succeeds_iff,
    ← mapM_succeeds_iff, ← mapM_succeeds_iff, ← mapM_succeeds_iff, and_assoc, and_assoc]
  refine bind_succeeds_iff fun signalId => bind_succeeds_iff fun fromState => ?_
  refine bind_succeeds_iff fun event => bind_succeeds_iff fun toState => ?_
  refine bind_succeeds_iff fun onExit => bind_succeeds_iff fun onTransition => ?_
  exact bind_succeeds_iff fun onEnter => map_succeeds_iff

/-- The declarations are filled in exactly if the check of every field lets it pass. -/
theorem declare_succeeds_iff : (∃ e, component.declare owner bound remap = .ok e) ↔
    ∀ s ∈ component.templates, ∃ text, resolve s owner component bound = .ok text := by
  simp only [ComponentDef.templates, List.forall_mem_append, List.forall_mem_flatMap, and_assoc,
    ← expandSignal_succeeds_iff, ← expandTransition_succeeds_iff, ← expandReaction_succeeds_iff]
  refine (bind_succeeds_iff fun signals => bind_succeeds_iff fun transitions =>
    map_succeeds_iff).trans ?_
  simp only [mapM_succeeds_iff, map_succeeds_iff]

end

/-! ## Instances -/

theorem checkBindings_complete {component : ComponentDef} {bindings : HashMap String}
    (owner : String) (complete : ∀ param ∈ component.params, (bindings.lookup param).isSome) :
    ∃ bound, checkBindings component bindings owner = .ok bound := by
  have loop : ∀ (params : List String) (table : HashMap String),
      (∀ param ∈ params, (bindings.lookup param).isSome) →
      ∃ bound, params.foldlM (bindParam bindings owner) table = .ok bound := by
    intro params
    induction params with
    | nil => exact fun table _ => ⟨table, rfl⟩
    | cons param params ih =>
        intro table complete
        rw [List.forall_mem_cons] at complete
        obtain ⟨value, supplied⟩ := Option.isSome_iff_exists.mp complete.1
        obtain ⟨bound, rest⟩ := ih (table.insert param value) complete.2
        refine ⟨bound, ?_⟩
        rw [List.foldlM_cons, bindParam, supplied]
        exact rest
  exact loop component.params ∅ complete

namespace InstanceDef

variable {components : HashMap ComponentDef} {component : ComponentDef} {inst : InstanceDef}

/-- The instance fails with a reference to no parameter. -/
def RefFails (components : HashMap ComponentDef) (inst : InstanceDef) : Prop :=
  ∃ param, expandInstance components inst = .error (.invalidParamRef inst.component param)

/-- The connections of the instance are in order. -/
def Connects (component : ComponentDef) (inst : InstanceDef) : Prop :=
  component.Connected (written (inst.value component)) inst.connections

/-- An instance with its connections in order fails at a field that is reported. -/
theorem refFails_iff (found : components.lookup inst.component = some component)
    (complete : ∀ param ∈ component.params, (inst.bindings.lookup param).isSome) :
    inst.RefFails components ↔ inst.Connects component ∧
      ∃ s ∈ component.templates, Reported component.params (inst.value component) s := by
  obtain ⟨bound, bindings⟩ := checkBindings_complete inst.component complete
  have value : bound.lookup = inst.value component := checkBindings_lookup bindings
  have outside : ∀ name, name ∉ component.params → bound.lookup name = none := by
    intro name missing
    exact (congrFun value name).trans (if_neg missing)
  have same : expandInstance components inst =
      resolveConnections component inst.connections bound inst.component >>= fun remap =>
        component.declare inst.component bound remap := by
    rw [expandInstance_found found, bindings]
    rfl
  have connects : (∃ remap, resolveConnections component inst.connections bound inst.component =
      .ok remap) ↔ inst.Connects component := by
    have text : (subst · bound) = written (inst.value component) := by
      funext s
      rw [subst_written, value]
    rw [resolveConnections_succeeds_iff, text]
    exact Iff.rfl
  rw [RefFails, same]
  cases connections : resolveConnections component inst.connections bound inst.component with
  | error e =>
      have failed := resolveConnections_fails _ _ e connections
      constructor
      · rintro ⟨param, other⟩
        cases other
        cases failed
      · rintro ⟨order, _⟩
        obtain ⟨remap, resolved⟩ := connects.mpr order
        cases connections.symm.trans resolved
  | ok remap =>
      have passes : (∃ e, component.declare inst.component bound remap = .ok e) ↔
          ∀ s ∈ component.templates, ¬ Reported component.params (inst.value component) s := by
        rw [← value]
        exact declare_succeeds_iff.trans (forall₂_congr fun s _ => resolve_succeeds_iff outside)
      rw [and_iff_right (connects.mp ⟨remap, connections⟩)]
      change (∃ param, component.declare inst.component bound remap = .error _) ↔ _
      cases result : component.declare inst.component bound remap with
      | ok e =>
          have clean := passes.mp ⟨e, result⟩
          constructor
          · rintro ⟨param, other⟩
            cases other
          · rintro ⟨s, member, reported⟩
            exact absurd reported (clean s member)
      | error e =>
          obtain ⟨param, rfl⟩ := declare_fails e result
          refine iff_of_true ⟨param, rfl⟩ ?_
          by_contra none
          obtain ⟨e, other⟩ := passes.mpr fun s member reported => none ⟨s, member, reported⟩
          rw [result] at other
          cases other

/-- When expansion reports the references of the templates and no others. -/
structure Detects (component : ComponentDef) (inst : InstanceDef) : Prop where
  /-- The connections are looked at before the fields. -/
  wired : (∃ s ∈ component.templates, Unknown component.params s) → inst.Connects component
  /-- Not every reference to no parameter is hidden by the pieces in front of it, or the pieces
  of another field forge one. -/
  seen : (∃ s ∈ component.templates, Unknown component.params s) → ∃ s ∈ component.templates,
    (Unknown component.params s ∧ ¬ Hidden component.params (inst.value component) s) ∨
      Forged component.params (inst.value component) s
  /-- Where there is no such reference, no pieces forge one. -/
  honest : (∀ s ∈ component.templates, ¬ Unknown component.params s) →
    inst.Connects component →
      ∀ s ∈ component.templates, ¬ Forged component.params (inst.value component) s

/-- The values of the parameters are inert, and no field repeats text before a `${` that is
never closed. -/
structure Plain (component : ComponentDef) (inst : InstanceDef) : Prop where
  inert : ∀ param ∈ component.params, ∃ v ∈ inst.bindings.lookup param, Inert v
  tidy : ∀ s ∈ component.templates, dangling s.toList = false

end InstanceDef

/-- A signal that is named by its parameter, and by one that is not declared. -/
def tagComponent : ComponentDef where
  params := ["tag"]
  signals := [⟨"$\x7btag\x7d$\x7boops\x7d", "off", ["off"]⟩]
  transitions := []
  reactions := []

/-- A signal that is named by its parameter. -/
def labelComponent : ComponentDef where
  params := ["tag"]
  signals := [⟨"$\x7btag\x7d", "off", ["off"]⟩]
  transitions := []
  reactions := []

def tagComponents : HashMap ComponentDef :=
  AList.insert "tag" tagComponent (AList.insert "label" labelComponent ∅)

def taggedInstance (component value : String) : InstanceDef where
  component := component
  bindings := AList.insert "tag" value ∅

theorem taggedInstance_complete {component : ComponentDef} (params : component.params = ["tag"])
    (name value : String) :
    ∀ param ∈ component.params, ((taggedInstance name value).bindings.lookup param).isSome := by
  rw [params, List.forall_mem_singleton]
  exact Option.isSome_iff_exists.mpr ⟨value, AList.lookup_insert ∅⟩

theorem taggedInstance_connects (name value : String) (component : ComponentDef) :
    (taggedInstance name value).Connects component :=
  ⟨List.forall_mem_nil _, .nil⟩

end SignalTopology
