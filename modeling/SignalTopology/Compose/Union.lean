import SignalTopology.Compose.Includes
import SignalTopology.Compose.Instances

/-!
# Loading against the union of the files

The schema that loading expands has everything the files declare except the
instances of the included ones. So loading agrees with expanding the union of the
files if no included file declares an instance; else only where those instances
would not have made a difference.
-/

namespace SignalTopology

open Fallible

/-! ## Equal schemas -/

/-- The same schema, whatever the order in the table of components. -/
structure SameSchema (a b : TopologySchema) : Prop where
  version : a.version = b.version
  signals : a.signals = b.signals
  transitions : a.transitions = b.transitions
  reactions : a.reactions = b.reactions
  declared : a.components.isSome = b.components.isSome
  component : a.component = b.component
  instances : a.instances = b.instances
  includes : a.includes = b.includes

theorem SameSchema.refl (a : TopologySchema) : SameSchema a a :=
  ⟨rfl, rfl, rfl, rfl, rfl, rfl, rfl, rfl⟩

theorem SameSchema.symm {a b : TopologySchema} (h : SameSchema a b) : SameSchema b a :=
  ⟨h.version.symm, h.signals.symm, h.transitions.symm, h.reactions.symm, h.declared.symm,
    h.component.symm, h.instances.symm, h.includes.symm⟩

theorem SameSchema.trans {a b c : TopologySchema} (h : SameSchema a b) (h' : SameSchema b c) :
    SameSchema a c :=
  ⟨h.version.trans h'.version, h.signals.trans h'.signals, h.transitions.trans h'.transitions,
    h.reactions.trans h'.reactions, h.declared.trans h'.declared, h.component.trans h'.component,
    h.instances.trans h'.instances, h.includes.trans h'.includes⟩

/-- The same schema, or the same error. -/
def SameResult {ε : Type} : Except ε TopologySchema → Except ε TopologySchema → Prop
  | .ok a, .ok b => SameSchema a b
  | .error e, .error e' => e = e'
  | _, _ => False

theorem SameResult.refl {ε : Type} (x : Except ε TopologySchema) : SameResult x x := by
  cases x with
  | error e => rfl
  | ok a => exact SameSchema.refl a

theorem SameResult.left_iff {ε : Type} {x y z : Except ε TopologySchema} (same : SameResult x y) :
    SameResult x z ↔ SameResult y z := by
  cases x <;> cases y <;> cases z <;> simp only [SameResult] at *
  · rw [same]
  · exact ⟨same.symm.trans, same.trans⟩

theorem SameResult.mapError {ε ε' : Type} {f : ε → ε'} (inj : Function.Injective f)
    {x y : Except ε TopologySchema} :
    SameResult (x.mapError f) (y.mapError f) ↔ SameResult x y := by
  cases x <;> cases y <;> simp only [SameResult, Except.mapError]
  exact inj.eq_iff

theorem expandInstance_congr {components components' : HashMap ComponentDef}
    (same : ∀ name, components.lookup name = components'.lookup name) :
    expandInstance components = expandInstance components' := by
  funext inst
  rw [expandInstance, expandInstance, same]

/-- Expansion does not look at the order of the components. -/
theorem SameSchema.expand {a b : TopologySchema} (h : SameSchema a b) :
    SameResult (expand a) (expand b) := by
  have table : expandInstance (a.components.getD ∅) = expandInstance (b.components.getD ∅) :=
    expandInstance_congr fun name => congrFun h.component name
  by_cases none_left : b.instances = []
  · rw [expand_of_flat none_left, expand_of_flat (h.instances.trans none_left)]
    exact h
  · rw [expand_of_instances none_left, expand_of_instances (h.instances ▸ none_left), table,
      h.instances]
    have extended : a.withExpansions = b.withExpansions := by
      funext expansions
      rw [TopologySchema.withExpansions, TopologySchema.withExpansions, h.version, h.signals,
        h.transitions, h.reactions]
    rw [extended]
    exact .refl _

/-! ## The union of the files -/

/-- The components of all files. -/
def unionComponents (files : List SourceFile) : Option (HashMap ComponentDef) :=
  if files.any (·.schema.components.isSome) then
    some (files.foldr (fun file table => (file.schema.components.getD ∅) ∪ table) ∅)
  else none

/-- Everything that the files declare, with the version of the root. -/
def SourceFile.union (root : SourceFile) (below : List SourceFile) : TopologySchema where
  version := root.schema.version
  signals := (root :: below).flatMap (·.schema.signals)
  transitions := (root :: below).flatMap (·.schema.transitions)
  reactions := (root :: below).flatMap (·.schema.reactions)
  components := unionComponents (root :: below)
  instances := (root :: below).flatMap (·.schema.instances)

theorem unionComponents_lookup (files : List SourceFile) (name : String) :
    ((unionComponents files).getD ∅).lookup name = firstComponent files name := by
  have table : ∀ files : List SourceFile,
      (files.foldr (fun (file : SourceFile) (table : HashMap ComponentDef) =>
        (file.schema.components.getD ∅) ∪ table) ∅).lookup name =
        firstComponent files name := by
    intro files
    induction files with
    | nil => rfl
    | cons file files ih =>
        rw [List.foldr_cons, firstComponent_cons, TopologySchema.component]
        by_cases own : name ∈ file.schema.components.getD ∅
        · rw [AList.lookup_union_left own]
          obtain ⟨component, found⟩ := Option.isSome_iff_exists.mp (AList.lookup_isSome.mpr own)
          rw [found, Option.some_or]
        · rw [AList.lookup_union_right own, ih, AList.lookup_eq_none.mpr own, Option.none_or]
  rw [unionComponents]
  by_cases declared : files.any (·.schema.components.isSome)
  · rw [if_pos declared]
    exact table files
  · rw [if_neg declared]
    have absent : firstComponent files name = none := by
      rw [firstComponent, List.findSome?_eq_none_iff]
      intro file member
      have bare : file.schema.components = none := by
        cases present : file.schema.components with
        | none => rfl
        | some components =>
            exact absurd (List.any_eq_true.mpr ⟨file, member, by rw [present]; rfl⟩) declared
      rw [TopologySchema.component, bare]
      rfl
    rw [absent]
    rfl

/-- What loading expands is the union with the instances of the root only. -/
theorem Appended.sameSchema {root : SourceFile} {below : List SourceFile} {merged : TopologySchema}
    (h : Appended { root.schema with includes := [] } below merged)
    (distinct : Distinct (root :: below)) :
    SameSchema merged { root.union below with instances := root.schema.instances } where
  version := h.version
  signals := h.signals
  transitions := h.transitions
  reactions := h.reactions
  declared := by
    rw [h.declared]
    show (root :: below).any (·.schema.components.isSome) = (unionComponents (root :: below)).isSome
    rw [unionComponents]
    by_cases declared : (root :: below).any (·.schema.components.isSome)
    · rw [if_pos declared, declared]
      rfl
    · rw [if_neg declared]
      exact Bool.eq_false_of_not_eq_true declared
  component := by
    funext name
    have last := (h.component name).trans (lastComponent_cons root below name).symm
    rw [last, distinct.lastComponent]
    exact (unionComponents_lookup (root :: below) name).symm
  instances := h.instances
  includes := h.includes

/-! ## Errors of an instance -/

/-- Not the error of a repeated signal. -/
def NotDuplicate (e : EngineError) : Prop := ∀ id, e ≠ .duplicateSignalAfterExpand id

/-- An instance on its own cannot repeat a signal. -/
theorem expandInstance_fails (components : HashMap ComponentDef) (inst : InstanceDef) :
    Fails NotDuplicate (expandInstance components inst) := by
  cases found : components.lookup inst.component with
  | none =>
      rw [expandInstance, found]
      exact .error (by intro id other; cases other)
  | some component =>
      rw [expandInstance_found found]
      refine Fails.bind ((checkBindings_fails _ _ _).mono ?_) fun bound =>
        Fails.bind ((resolveConnections_fails _ _).mono ?_) fun remap => declare_fails.mono ?_
      · rintro _ ⟨param, rfl⟩ id other
        cases other
      · rintro _ (_ | _ | _ | _) id other <;> cases other
      · rintro _ ⟨param, rfl⟩ id other
        cases other

theorem enforceUnique_fails {signals : List SignalDef} {e : EngineError}
    (h : enforceUniqueSignalIds signals = .error e) : ¬ NotDuplicate e := by
  rw [enforceUnique_eq] at h
  have looped : Fails (fun e => ∃ id, e = .duplicateSignalAfterExpand id)
      (signals.foldlM seeSignal ∅ >>= fun _ => (.ok () : Except EngineError Unit)) := by
    refine Fails.bind (.foldlM fun seen sig => ?_) fun _ => .ok
    rw [seeSignal]
    by_cases again : sig.id ∈ seen
    · rw [if_pos again]
      exact .error ⟨sig.id, rfl⟩
    · rw [if_neg again]
      exact .ok
  obtain ⟨id, same⟩ := looped e h
  exact fun other => other id same

/-! ## Instances of included files -/

/-- To a root with the instances `own`, the instances `more` make no difference: one of
`own` is rejected before, `own` already repeats a signal, or `more` declare nothing. -/
def Idle (components : HashMap ComponentDef) (signals : List SignalDef)
    (own more : List InstanceDef) : Prop :=
  own ≠ [] ∧ ((∃ e, own.mapM (expandInstance components) = .error e) ∨
    ∃ es es', own.mapM (expandInstance components) = .ok es ∧
      more.mapM (expandInstance components) = .ok es' ∧
      (¬ ((signals ++ es.flatMap (·.signals)).map (·.id)).Nodup ∨ ∀ e ∈ es', e = ⟨[], [], []⟩))

theorem flatMap_expansions_nil {es : List Expansion} :
    (∀ e ∈ es, e = ⟨[], [], []⟩) ↔ es.flatMap (·.signals) = [] ∧
      es.flatMap (·.transitions) = [] ∧ es.flatMap (·.reactions) = [] := by
  simp only [List.flatMap_eq_nil_iff]
  constructor
  · intro empty
    exact ⟨fun e member => by rw [empty e member], fun e member => by rw [empty e member],
      fun e member => by rw [empty e member]⟩
  · rintro ⟨signals, transitions, reactions⟩ e member
    obtain ⟨_, _, _⟩ := e
    cases signals _ member
    cases transitions _ member
    cases reactions _ member
    rfl

/-- A schema whose instances expand has components. -/
theorem no_components {schema : TopologySchema} (bare : schema.components = none)
    {inst : InstanceDef} (member : inst ∈ schema.instances) (flat : TopologySchema) :
    expand schema ≠ .ok flat := by
  intro expanded
  obtain ⟨none_left, _⟩ | ⟨expansions, expandedAll, _, _⟩ := expand_ok expanded
  · rw [TopologySchema.Flat] at none_left
    rw [none_left] at member
    cases member
  · obtain ⟨e, _, expandedInst⟩ := mapM_mem expandedAll inst member
    obtain ⟨component, _, _, resolves, _⟩ := expandInstance_ok expandedInst
    have found := resolves.found
    rw [bare] at found
    cases found

variable {schema : TopologySchema} {own more : List InstanceDef}

/-- Without instances of its own, the schema is expanded to something else. -/
theorem expand_more_none (some_more : more ≠ []) :
    ¬ SameResult (expand { schema with instances := [] })
      (expand { schema with instances := more }) := by
  intro same
  rw [@expand_of_flat { schema with instances := [] } rfl] at same
  cases expanded : expand { schema with instances := more } with
  | error e =>
      rw [expanded] at same
      exact same
  | ok flat =>
      rw [expanded] at same
      obtain ⟨inst, member⟩ := List.exists_mem_of_ne_nil more some_more
      obtain ⟨none_left, _⟩ | ⟨expansions, _, rfl, _⟩ := expand_ok expanded
      · exact some_more none_left
      · have bare : schema.components = none := Option.isNone_iff_eq_none.mp
          (Option.isSome_eq_false_iff.mp same.declared)
        exact @no_components { schema with instances := more } bare inst member _ expanded

/-- The schema of more expansions. -/
theorem withExpansions_append (es es' : List Expansion) :
    schema.withExpansions (es ++ es') = (schema.withExpansions es).withExpansions es' := by
  simp only [TopologySchema.withExpansions, List.flatMap_append, List.append_assoc]

theorem withExpansions_same {es' : List Expansion} (bare : schema.components = none)
    (flat : schema.instances = []) (resolved : schema.includes = []) :
    SameSchema schema (schema.withExpansions es') ↔ ∀ e ∈ es', e = ⟨[], [], []⟩ := by
  rw [flatMap_expansions_nil]
  constructor
  · intro same
    exact ⟨List.append_right_eq_self.mp same.signals.symm,
      List.append_right_eq_self.mp same.transitions.symm,
      List.append_right_eq_self.mp same.reactions.symm⟩
  · rintro ⟨signals, transitions, reactions⟩
    refine ⟨rfl, ?_, ?_, ?_, ?_, ?_, flat, resolved⟩
    · exact (List.append_right_eq_self.mpr signals).symm
    · exact (List.append_right_eq_self.mpr transitions).symm
    · exact (List.append_right_eq_self.mpr reactions).symm
    · rw [bare]
      rfl
    · funext name
      rw [TopologySchema.component, bare]
      rfl

/-- The schema of the given expansions, if no signal is repeated. -/
def TopologySchema.checkedExpansions (schema : TopologySchema) (es : List Expansion) :
    Except EngineError TopologySchema := do
  enforceUniqueSignalIds (schema.withExpansions es).signals
  .ok (schema.withExpansions es)

/-- More expansions change nothing if a signal is repeated anyway, or they are empty. -/
theorem checkedExpansions_more_iff {es es' : List Expansion} :
    SameResult (schema.checkedExpansions es) (schema.checkedExpansions (es ++ es')) ↔
      ¬ ((schema.signals ++ es.flatMap (·.signals)).map (·.id)).Nodup ∨
        ∀ e ∈ es', e = ⟨[], [], []⟩ := by
  have signals : (schema.withExpansions (es ++ es')).signals =
      (schema.withExpansions es).signals ++ es'.flatMap (·.signals) := by
    rw [withExpansions_append]
    rfl
  rw [TopologySchema.checkedExpansions, TopologySchema.checkedExpansions]
  cases unique : enforceUniqueSignalIds (schema.withExpansions es).signals with
  | error e =>
      have repeated : ¬ ((schema.withExpansions es).signals.map (·.id)).Nodup := by
        rw [← enforceUnique_iff, unique]
        intro other
        cases other
      rw [signals, enforceUnique_append unique (es'.flatMap (·.signals))]
      exact iff_of_true rfl (.inl repeated)
  | ok =>
      have distinct := enforceUnique_iff.mp unique
      rw [withExpansions_append, ← @withExpansions_same (schema.withExpansions es) es' rfl rfl rfl]
      constructor
      · intro same
        right
        cases unique' : enforceUniqueSignalIds
            ((schema.withExpansions es).withExpansions es').signals with
        | error e =>
            rw [unique'] at same
            exact same.elim
        | ok =>
            rw [unique'] at same
            exact same
      · rintro (repeated | same)
        · exact absurd distinct repeated
        · have unique' := unique
          rw [same.signals] at unique'
          rw [unique']
          exact same

/-- A repeated signal is not the error of an instance. -/
theorem checkedExpansions_error {es : List Expansion} {e : EngineError} (single : NotDuplicate e) :
    ¬ SameResult (schema.checkedExpansions es) (.error e) := by
  intro same
  rw [TopologySchema.checkedExpansions] at same
  cases unique : enforceUniqueSignalIds (schema.withExpansions es).signals with
  | error e' =>
      rw [unique] at same
      have equal : e' = e := same
      exact enforceUnique_fails unique (equal ▸ single)
  | ok =>
      rw [unique] at same
      exact same

/-- Expanding more instances after the own ones gives the same exactly if they are
idle. -/
theorem expand_more_iff (some_own : own ≠ []) :
    SameResult (expand { schema with instances := own })
        (expand { schema with instances := own ++ more }) ↔
      Idle (schema.components.getD ∅) schema.signals own more := by
  have some_all : own ++ more ≠ [] :=
    fun none_left => some_own (List.append_eq_nil_iff.mp none_left).1
  rw [@expand_of_instances { schema with instances := own } some_own,
    @expand_of_instances { schema with instances := own ++ more } some_all]
  dsimp only
  rw [List.mapM_append, Idle]
  cases own.mapM (expandInstance (schema.components.getD ∅)) with
  | error e => exact iff_of_true rfl ⟨some_own, .inl ⟨e, rfl⟩⟩
  | ok es =>
      cases moreRun : more.mapM (expandInstance (schema.components.getD ∅)) with
      | error e =>
          refine iff_of_false ?_ ?_
          · exact checkedExpansions_error (Fails.mapM (expandInstance_fails _) e moreRun)
          · rintro ⟨_, ⟨e, failed⟩ | ⟨_, _, _, ran, _⟩⟩
            · cases failed
            · cases ran
      | ok es' =>
          refine Iff.trans checkedExpansions_more_iff ?_
          constructor
          · exact fun idle => ⟨some_own, .inr ⟨es, es', rfl, rfl, idle⟩⟩
          · rintro ⟨_, ⟨e, failed⟩ | ⟨_, _, same, same', idle⟩⟩
            · cases failed
            · cases same
              cases same'
              exact idle

section

variable [SerdeJson] {fs : FileSystem} {path : String} {root : SourceFile} {below : List SourceFile}

/-- Loading a root agrees with expanding the union of its files exactly if no included
file declares an instance, or those instances make no difference to the instances of
the root. -/
theorem loadTopology_iff (tree : Unfolds fs [path] (root :: below))
    (distinct : Distinct (root :: below)) :
    SameResult (loadTopology fs path) ((expand (root.union below)).mapError .error) ↔
      (∀ file ∈ below, file.schema.instances = []) ∨
        Idle ((root.union below).components.getD ∅) (root.union below).signals
          root.schema.instances (below.flatMap (·.schema.instances)) := by
  obtain ⟨merged, appended, loaded⟩ := loadTopology_merged tree distinct.toSeparate
  have inj : Function.Injective (TokenParser.Failure.error (ε := EngineError)) :=
    fun _ _ same => TokenParser.Failure.error.inj same
  rw [loaded, SameResult.mapError inj, (appended.sameSchema distinct).expand.left_iff]
  have all : root.union below = { root.union below with
      instances := root.schema.instances ++ below.flatMap (·.schema.instances) } := rfl
  rw [← List.flatMap_eq_nil_iff]
  by_cases none_more : below.flatMap (·.schema.instances) = []
  · refine iff_of_true ?_ (.inl none_more)
    rw [none_more, List.append_nil] at all
    rw [← all]
    exact .refl _
  · rw [or_iff_right none_more]
    by_cases none_own : root.schema.instances = []
    · refine iff_of_false ?_ fun idle => idle.1 none_own
      rw [none_own, List.nil_append] at all
      rw [none_own, all]
      exact expand_more_none none_more
    · rw [all]
      exact expand_more_iff none_own

end

/-! ## A yard with a gate -/

def gateInstance : InstanceDef where
  component := "gate"
  bindings := AList.insert "id" "left" ∅

/-- The instances of a file that does or does not declare the gate. -/
def gateInstances (here : Bool) : List InstanceDef := if here then [gateInstance] else []

def yardMain (here : Bool) : SourceFile where
  canonical := "/yard/main.json"
  schema := {
    version := "1.0"
    signals := []
    transitions := []
    instances := gateInstances here
    includes := ["lib.json"] }

def yardLib (here : Bool) : SourceFile where
  canonical := "/yard/lib.json"
  schema := {
    version := "1.0"
    signals := []
    transitions := []
    components := some (AList.insert "gate"
      { params := ["id"], signals := [⟨"$\x7bid\x7d", "shut", ["shut"]⟩], transitions := [] } ∅)
    instances := gateInstances here }

def gateInstancesJson (here : Bool) : String :=
  if here then
    ",\"instances\":[\x7b\"component\":\"gate\",\"bindings\":\x7b\"id\":\"left\"\x7d\x7d]"
  else ""

/-- The text of the root file. -/
def yardMainJson (here : Bool) : String :=
  "\x7b\"version\":\"1.0\",\"signals\":[],\"transitions\":[]" ++ gateInstancesJson here ++
    ",\"includes\":[\"lib.json\"]\x7d"

/-- The text of the included file. -/
def yardLibJson (here : Bool) : String :=
  "\x7b\"version\":\"1.0\",\"signals\":[],\"transitions\":[],\"components\":" ++
    "\x7b\"gate\":\x7b\"params\":[\"id\"],\"signals\":[\x7b\"id\":\"$\x7bid\x7d\"," ++
    "\"initial_state\":\"shut\",\"states\":[\"shut\"]\x7d],\"transitions\":[]\x7d\x7d" ++
    gateInstancesJson here ++ "\x7d"

/-- The two files in the working directory; the gate is declared in the root or in the
included one. -/
def yardFiles (inMain : Bool) : FileSystem where
  readToString path :=
    if path = "main.json" then some (yardMainJson inMain)
    else if path = "lib.json" then some (yardLibJson !inMain)
    else none
  canonicalize path :=
    if path = "main.json" then some "/yard/main.json"
    else if path = "lib.json" then some "/yard/lib.json"
    else none
  parent _ := some ""
  join _ inc := inc
  files := {"/yard/main.json", "/yard/lib.json"}
  canonicalize_mem := by
    intro path canonical named
    by_cases main : path = "main.json"
    · rw [if_pos main] at named
      cases named
      decide
    · rw [if_neg main] at named
      by_cases lib : path = "lib.json"
      · rw [if_pos lib] at named
        cases named
        decide
      · rw [if_neg lib] at named
        cases named

/-- A JSON parser on these files. -/
@[reducible] def yardSerde (inMain : Bool) : SerdeJson where
  valueFromStr _ := .error "expected value at line 1 column 1"
  schemaFromStr text :=
    if text = yardMainJson inMain then .ok (yardMain inMain).schema
    else if text = yardLibJson !inMain then .ok (yardLib !inMain).schema
    else .error "expected value at line 1 column 1"
  valueToString _ := "null"

theorem yard_unfolds (inMain : Bool) : @Unfolds (yardSerde inMain) (yardFiles inMain)
    ["main.json"] [yardMain inMain, yardLib !inMain] := by
  have main : (yardSerde inMain).schemaFromStr (yardMainJson inMain) =
      .ok (yardMain inMain).schema := if_pos rfl
  have lib : (yardSerde inMain).schemaFromStr (yardLibJson !inMain) =
      .ok (yardLib !inMain).schema := by
    have other : yardLibJson (!inMain) ≠ yardMainJson inMain := by
      cases inMain <;> decide +kernel
    exact (if_neg other).trans (if_pos rfl)
  let _ : SerdeJson := yardSerde inMain
  exact .cons rfl main rfl (.cons rfl lib rfl .nil .nil) .nil

theorem yard_distinct (inMain : Bool) : Distinct [yardMain inMain, yardLib !inMain] := by
  cases inMain <;> exact ⟨⟨by decide, by decide⟩, by decide⟩

/-- With the gate in the root, the instance is kept. -/
theorem yard_loadTopology_iff :
    SameResult (@loadTopology (yardSerde true) (yardFiles true) "main.json")
      ((expand ((yardMain true).union [yardLib false])).mapError .error) ↔
    (∀ file ∈ [yardLib false], file.schema.instances = []) ∨
      Idle (((yardMain true).union [yardLib false]).components.getD ∅)
        ((yardMain true).union [yardLib false]).signals (yardMain true).schema.instances
        ([yardLib false].flatMap (·.schema.instances)) :=
  @loadTopology_iff (yardSerde true) (yardFiles true) "main.json" (yardMain true) [yardLib false]
    (yard_unfolds true) (yard_distinct true)

/-- The number of signals of a result. -/
def signalCount {ε : Type} : Except ε TopologySchema → Option Nat
  | .ok schema => some schema.signals.length
  | .error _ => none

theorem not_sameResult {ε : Type} {x y : Except ε TopologySchema}
    (counts : signalCount x ≠ signalCount y) : ¬ SameResult x y := by
  intro same
  apply counts
  cases x with
  | error e =>
      cases y with
      | error e' => rfl
      | ok b => exact same.elim
  | ok a =>
      cases y with
      | error e' => exact same.elim
      | ok b => exact congrArg (fun signals => some (List.length signals)) (SameSchema.signals same)

theorem yard_loaded :
    signalCount (@loadTopology (yardSerde false) (yardFiles false) "main.json") = some 0 := by
  decide +kernel

theorem yard_expanded : signalCount ((expand ((yardMain false).union [yardLib true])).mapError
    (TokenParser.Failure.error (ε := EngineError))) = some 1 := by
  decide +kernel

/-- With the gate in the included file, the instance is lost. -/
theorem yard_loses_instance :
    @Unfolds (yardSerde false) (yardFiles false) ["main.json"] [yardMain false, yardLib true] ∧
    Distinct [yardMain false, yardLib true] ∧
    ¬ SameResult (@loadTopology (yardSerde false) (yardFiles false) "main.json")
      ((expand ((yardMain false).union [yardLib true])).mapError .error) := by
  refine ⟨yard_unfolds false, yard_distinct false, not_sameResult ?_⟩
  rw [yard_loaded, yard_expanded]
  decide

end SignalTopology
