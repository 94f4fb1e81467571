import Mathlib.Data.Finset.Card
import SignalTopology.Compose
import SignalTopology.Library.Fallible
import SignalTopology.Library.TokenParser
import SignalTopology.Platform

/-!
# Included files

`load_topology` reads a file and, depth first, every file it includes, merges them
and expands the result. Reading a file and the paths of the operating system are a
parameter; it has finitely many files, so the recursion ends.
-/

namespace SignalTopology

open Fallible

/-- The file system, as far as loading uses it. -/
structure FileSystem where
  /-- `std::fs::read_to_string` -/
  readToString : String → Option String
  /-- `std::fs::canonicalize` -/
  canonicalize : String → Option String
  /-- `Path::parent` -/
  parent : String → Option String
  /-- `Path::join` -/
  join : String → String → String
  /-- The canonical paths of the files. -/
  files : Finset String
  canonicalize_mem : ∀ {path canonical}, canonicalize path = some canonical → canonical ∈ files

/-- The path of an include of the file at `path`. -/
def FileSystem.includePath (fs : FileSystem) (path inc : String) : String :=
  fs.join ((fs.parent path).getD ".") inc

/-- The components of `merge_in`: those of `sub` overwrite. -/
def mergeComponents (acc sub : Option (HashMap ComponentDef)) : Option (HashMap ComponentDef) :=
  match sub with
  | none => acc
  | some subComponents =>
      some (subComponents.foldl (fun accComponents name comp => accComponents.insert name comp)
        (acc.getD ∅))

/-- `merge_in`. The instances of `sub` are not merged. -/
def mergeIn (acc sub : TopologySchema) : Except EngineError TopologySchema :=
  match sub.signals.find? fun sig => acc.signals.any (·.id = sig.id) with
  | some sig => .error (.duplicateSignalAfterExpand sig.id)
  | none => .ok { acc with
      signals := acc.signals ++ sub.signals
      transitions := acc.transitions ++ sub.transitions
      reactions := acc.reactions ++ sub.reactions
      components := mergeComponents acc.components sub.components }

/-- A loader: the merged schema of a file, and the files visited so far. -/
abbrev Loader :=
  String → Finset String → Except (TokenParser.Failure EngineError) (TopologySchema × Finset String)

/-- The body of the loop over the includes. -/
def mergeInclude (load : Loader) (state : TopologySchema × Finset String) (path : String) :
    Except (TokenParser.Failure EngineError) (TopologySchema × Finset String) := do
  let (sub, seen) ← load path state.2
  let merged ← (mergeIn state.1 sub).mapError .error
  return (merged, seen)

variable [SerdeJson]

/-- `load_topology_inner`, nested at most `fuel` deep. -/
def loadTopologyInner (fs : FileSystem) : Nat → Loader
  | 0, _, _ => .error .outOfFuel
  | fuel + 1, path, seen =>
      match fs.readToString path with
      | none => .error (.error (.includeNotFound path))
      | some text =>
          match SerdeJson.schemaFromStr text with
          | .error e => .error (.error (.includeNotFound (path ++ ": " ++ e)))
          | .ok schema =>
              match fs.canonicalize path with
              | none => .error (.error (.includeNotFound path))
              | some canonical =>
                  if canonical ∈ seen then .error (.error (.includeCycle path))
                  else schema.includes.foldlM
                    (fun state inc =>
                      mergeInclude (loadTopologyInner fs fuel) state (fs.includePath path inc))
                    ({ schema with includes := [] }, insert canonical seen)

/-- `load_topology`. Every nested call visits a new file. -/
def loadTopology (fs : FileSystem) (path : String) :
    Except (TokenParser.Failure EngineError) TopologySchema := do
  let (merged, _) ← loadTopologyInner fs (fs.files.card + 1) path ∅
  (expand merged).mapError .error

/-! ## The files below a root -/

/-- A file that was read. -/
structure SourceFile where
  canonical : String
  schema : TopologySchema

/-- The component of the given name that a schema declares. -/
def TopologySchema.component (schema : TopologySchema) (name : String) : Option ComponentDef :=
  (schema.components.getD ∅).lookup name

/-- The files at the given paths, each followed by the files below it. -/
inductive Unfolds (fs : FileSystem) : List String → List SourceFile → Prop where
  | nil : Unfolds fs [] []
  | cons {path text : String} {paths : List String} {file : SourceFile}
      {below rest : List SourceFile} (read : fs.readToString path = some text)
      (parsed : SerdeJson.schemaFromStr text = .ok file.schema)
      (named : fs.canonicalize path = some file.canonical)
      (included : Unfolds fs (file.schema.includes.map (fs.includePath path)) below)
      (later : Unfolds fs paths rest) : Unfolds fs (path :: paths) (file :: (below ++ rest))

/-- The first declaration of a component in a list of files. -/
def firstComponent (files : List SourceFile) (name : String) : Option ComponentDef :=
  files.findSome? fun file => file.schema.component name

/-- The last declaration of a component in a list of files. -/
def lastComponent (files : List SourceFile) (name : String) : Option ComponentDef :=
  firstComponent files.reverse name

/-- No file occurs twice, and no signal is declared twice. -/
structure Separate (files : List SourceFile) : Prop where
  canonicals : (files.map (·.canonical)).Nodup
  signals : ((files.flatMap (·.schema.signals)).map (·.id)).Nodup

/-- Nothing is declared twice in the files. -/
structure Distinct (files : List SourceFile) : Prop extends Separate files where
  components : (files.flatMap fun file => (file.schema.components.getD ∅).keys).Nodup

/-! ## Merging -/

section

omit [SerdeJson]

theorem insert_entries_lookup {entries : List (Sigma fun _ : String => ComponentDef)}
    (distinct : entries.NodupKeys) (acc : HashMap ComponentDef) (name : String) :
    (entries.foldl (fun acc entry => acc.insert entry.1 entry.2) acc).lookup name =
      (entries.dlookup name).or (acc.lookup name) := by
  induction entries generalizing acc with
  | nil => rfl
  | cons entry entries ih =>
      obtain ⟨key, value⟩ := entry
      rw [List.nodupKeys_cons] at distinct
      rw [List.foldl_cons, ih distinct.2]
      by_cases own : name = key
      · subst own
        rw [List.dlookup_eq_none.mpr distinct.1, List.dlookup_cons_eq, AList.lookup_insert]
        rfl
      · rw [List.dlookup_cons_ne entries ⟨key, value⟩ own, AList.lookup_insert_ne own]

/-- The merged table: what `sub` declares, then what was there. -/
theorem mergeComponents_lookup (acc sub : Option (HashMap ComponentDef)) (name : String) :
    ((mergeComponents acc sub).getD ∅).lookup name =
      ((sub.getD ∅).lookup name).or ((acc.getD ∅).lookup name) := by
  cases sub with
  | none => rfl
  | some components => exact insert_entries_lookup components.nodupKeys (acc.getD ∅) name

theorem mergeIn_of {acc sub : TopologySchema}
    (distinct : ((acc.signals ++ sub.signals).map (·.id)).Nodup) :
    mergeIn acc sub = .ok { acc with
      signals := acc.signals ++ sub.signals
      transitions := acc.transitions ++ sub.transitions
      reactions := acc.reactions ++ sub.reactions
      components := mergeComponents acc.components sub.components } := by
  have fresh : (sub.signals.find? fun sig => acc.signals.any (·.id = sig.id)) = none := by
    rw [List.find?_eq_none]
    intro sig member twice
    obtain ⟨own, declared, same⟩ := List.any_eq_true.mp twice
    rw [List.map_append, List.nodup_append] at distinct
    exact distinct.2.2 own.id (List.mem_map_of_mem declared) sig.id (List.mem_map_of_mem member)
      (of_decide_eq_true same)
  rw [mergeIn, fresh]

theorem firstComponent_isSome {files : List SourceFile} {name : String} :
    (firstComponent files name).isSome ↔
      name ∈ files.flatMap fun file => (file.schema.components.getD ∅).keys := by
  rw [firstComponent, List.findSome?_isSome_iff, List.mem_flatMap]
  simp only [TopologySchema.component, AList.lookup_isSome, AList.mem_keys]

theorem firstComponent_cons (file : SourceFile) (files : List SourceFile) (name : String) :
    firstComponent (file :: files) name =
      (file.schema.component name).or (firstComponent files name) := by
  rw [firstComponent, List.findSome?_cons]
  cases file.schema.component name with
  | none => rfl
  | some component => rfl

theorem lastComponent_append (files more : List SourceFile) (name : String) :
    lastComponent (files ++ more) name = (lastComponent more name).or
      (lastComponent files name) := by
  rw [lastComponent, List.reverse_append]
  exact List.findSome?_append

theorem lastComponent_cons (file : SourceFile) (files : List SourceFile) (name : String) :
    lastComponent (file :: files) name =
      (lastComponent files name).or (file.schema.component name) := by
  have own : lastComponent [file] name = file.schema.component name := by
    rw [lastComponent, List.reverse_singleton, firstComponent_cons]
    exact Option.or_none
  rw [← List.singleton_append, lastComponent_append, own]

/-- `merged` is `acc` with the declarations of the files appended, apart from their
instances; a component is the one that was declared last. -/
structure Appended (acc : TopologySchema) (files : List SourceFile) (merged : TopologySchema) :
    Prop where
  version : merged.version = acc.version
  signals : merged.signals = acc.signals ++ files.flatMap (·.schema.signals)
  transitions : merged.transitions = acc.transitions ++ files.flatMap (·.schema.transitions)
  reactions : merged.reactions = acc.reactions ++ files.flatMap (·.schema.reactions)
  declared : merged.components.isSome =
    (acc.components.isSome || files.any (·.schema.components.isSome))
  component : ∀ name, merged.component name = (lastComponent files name).or (acc.component name)
  instances : merged.instances = acc.instances
  includes : merged.includes = acc.includes

namespace Appended

variable {acc middle sub merged : TopologySchema} {file : SourceFile} {files more : List SourceFile}

theorem refl (acc : TopologySchema) : Appended acc [] acc where
  version := rfl
  signals := (List.append_nil _).symm
  transitions := (List.append_nil _).symm
  reactions := (List.append_nil _).symm
  declared := by simp
  component _ := rfl
  instances := rfl
  includes := rfl

theorem trans (first : Appended acc files middle) (second : Appended middle more merged) :
    Appended acc (files ++ more) merged where
  version := second.version.trans first.version
  signals := by rw [second.signals, first.signals, List.append_assoc, List.flatMap_append]
  transitions := by
    rw [second.transitions, first.transitions, List.append_assoc, List.flatMap_append]
  reactions := by rw [second.reactions, first.reactions, List.append_assoc, List.flatMap_append]
  declared := by rw [second.declared, first.declared, Bool.or_assoc, List.any_append]
  component name := by
    rw [second.component, first.component, lastComponent_append, Option.or_assoc]
  instances := second.instances.trans first.instances
  includes := second.includes.trans first.includes

/-- Merging a file that everything below it was merged into. -/
theorem mergeIn (h : Appended { file.schema with includes := [] } files sub)
    (merges : SignalTopology.mergeIn acc sub = .ok merged) :
    Appended acc (file :: files) merged := by
  unfold SignalTopology.mergeIn at merges
  split at merges
  · cases merges
  · cases merges
    refine ⟨rfl, ?_, ?_, ?_, ?_, ?_, rfl, rfl⟩
    · exact congrArg (acc.signals ++ ·) h.signals
    · exact congrArg (acc.transitions ++ ·) h.transitions
    · exact congrArg (acc.reactions ++ ·) h.reactions
    · have declared : sub.components.isSome =
          (file :: files).any (·.schema.components.isSome) := h.declared
      rw [← declared]
      cases sub.components with
      | none => simp [mergeComponents]
      | some components => simp [mergeComponents]
    · intro name
      have own : sub.component name = lastComponent (file :: files) name :=
        (h.component name).trans (lastComponent_cons file files name).symm
      rw [← own]
      exact mergeComponents_lookup acc.components sub.components name

end Appended

namespace Separate

variable {front back : List SourceFile}

theorem left (h : Separate (front ++ back)) : Separate front := by
  obtain ⟨canonicals, signals⟩ := h
  rw [List.map_append] at canonicals
  rw [List.flatMap_append, List.map_append] at signals
  exact ⟨canonicals.of_append_left, signals.of_append_left⟩

theorem right (h : Separate (front ++ back)) : Separate back := by
  obtain ⟨canonicals, signals⟩ := h
  rw [List.map_append] at canonicals
  rw [List.flatMap_append, List.map_append] at signals
  exact ⟨canonicals.of_append_right, signals.of_append_right⟩

end Separate

/-- Where no component is declared twice, the last declaration is the first. -/
theorem Distinct.lastComponent {files : List SourceFile} (distinct : Distinct files)
    (name : String) : lastComponent files name = firstComponent files name := by
  have once := distinct.components
  clear distinct
  induction files with
  | nil => rfl
  | cons file files ih =>
      rw [List.flatMap_cons, List.nodup_append] at once
      rw [lastComponent_cons, firstComponent_cons, ih once.2.1]
      cases own : file.schema.component name with
      | none => rw [Option.or_none, Option.none_or]
      | some component =>
          have absent : firstComponent files name = none := by
            by_contra again
            rw [← ne_eq, ← Option.isSome_iff_ne_none, firstComponent_isSome] at again
            have declared : name ∈ (file.schema.components.getD ∅).keys :=
              AList.lookup_isSome.mp (Option.isSome_of_mem own)
            exact once.2.2 name declared name again rfl
          rw [absent, Option.none_or, Option.some_or]

end

/-! ## Loading -/

/-- A file that was not visited yet is what its loop over the includes gives. -/
theorem loadTopologyInner_file {fs : FileSystem} {fuel : Nat} {path text : String}
    {file : SourceFile} {seen : Finset String} (read : fs.readToString path = some text)
    (parsed : SerdeJson.schemaFromStr text = .ok file.schema)
    (named : fs.canonicalize path = some file.canonical) (unseen : file.canonical ∉ seen) :
    loadTopologyInner fs (fuel + 1) path seen =
      (file.schema.includes.map (fs.includePath path)).foldlM
        (mergeInclude (loadTopologyInner fs fuel))
        ({ file.schema with includes := [] }, insert file.canonical seen) := by
  rw [loadTopologyInner, read]
  dsimp only
  rw [parsed, named]
  dsimp only
  rw [if_neg unseen, List.foldlM_map]

/-- The loop over the includes merges every file below, and visits each of them. -/
theorem Unfolds.load {fs : FileSystem} {paths : List String} {files : List SourceFile}
    (h : Unfolds fs paths files) {fuel : Nat} (enough : files.length ≤ fuel)
    (separate : Separate files) {acc : TopologySchema} {seen : Finset String}
    (fresh : ∀ file ∈ files, file.canonical ∉ seen)
    (signals : ((acc.signals ++ files.flatMap (·.schema.signals)).map (·.id)).Nodup) :
    ∃ merged seen', paths.foldlM (mergeInclude (loadTopologyInner fs fuel)) (acc, seen) =
        .ok (merged, seen') ∧ Appended acc files merged ∧
      ∀ canonical, canonical ∈ seen' ↔
        canonical ∈ seen ∨ canonical ∈ files.map (·.canonical) := by
  induction h generalizing fuel acc seen with
  | nil => exact ⟨acc, seen, rfl, .refl acc, fun canonical => by simp⟩
  | @cons path text paths file below rest read parsed named _ _ ihBelow ihRest =>
      obtain ⟨fuel, rfl⟩ : ∃ n, fuel = n + 1 := ⟨fuel - 1, by simp at enough; omega⟩
      simp only [List.length_cons, List.length_append] at enough
      have split : file :: (below ++ rest) = (file :: below) ++ rest := rfl
      rw [split] at separate fresh signals ⊢
      rw [List.flatMap_append, ← List.append_assoc] at signals
      have own : Separate (file :: below) := separate.left
      have unseen : file.canonical ∉ seen := fresh file (by simp)
      -- the files below this one
      have belowFresh : ∀ other ∈ below, other.canonical ∉ insert file.canonical seen := by
        intro other member inside
        rcases Finset.mem_insert.mp inside with same | again
        · exact (List.nodup_cons.mp own.canonicals).1 (List.mem_map.mpr ⟨other, member, same⟩)
        · exact fresh other (by simp [member]) again
      obtain ⟨sub, seen₁, loadedBelow, appendedBelow, visited₁⟩ := @ihBelow fuel (by omega)
        (@Separate.right [file] below own) { file.schema with includes := [] }
        (insert file.canonical seen) belowFresh own.signals
      -- this file
      have loaded : loadTopologyInner fs (fuel + 1) path seen = .ok (sub, seen₁) :=
        (loadTopologyInner_file read parsed named unseen).trans loadedBelow
      have declared : sub.signals = (file :: below).flatMap (·.schema.signals) :=
        appendedBelow.signals
      have first := signals
      rw [List.map_append] at first
      obtain ⟨middle, merges⟩ : ∃ middle, mergeIn acc sub = .ok middle :=
        ⟨_, mergeIn_of (declared ▸ first.of_append_left)⟩
      have appended := appendedBelow.mergeIn merges
      have step : mergeInclude (loadTopologyInner fs (fuel + 1)) (acc, seen) path =
          .ok (middle, seen₁) := by
        rw [mergeInclude, loaded]
        dsimp only [bind, Except.bind]
        rw [merges]
        rfl
      have visited : ∀ canonical, canonical ∈ seen₁ ↔
          canonical ∈ seen ∨ canonical ∈ (file :: below).map (·.canonical) := by
        intro canonical
        rw [visited₁, Finset.mem_insert, List.map_cons, List.mem_cons]
        tauto
      -- the files at the other paths
      have restFresh : ∀ other ∈ rest, other.canonical ∉ seen₁ := by
        intro other member inside
        rcases (visited _).mp inside with before | again
        · exact fresh other (List.mem_append_right _ member) before
        · have canonicals := separate.canonicals
          rw [List.map_append, List.nodup_append] at canonicals
          exact canonicals.2.2 _ again _ (List.mem_map_of_mem member) rfl
      obtain ⟨merged, seen', loadedRest, appendedRest, visited'⟩ := @ihRest (fuel + 1) (by omega)
        separate.right middle seen₁ restFresh (by rw [appended.signals]; exact signals)
      refine ⟨merged, seen', ?_, appended.trans appendedRest, fun canonical => ?_⟩
      · rw [List.foldlM_cons, step]
        exact loadedRest
      · rw [visited', visited, List.map_append, List.mem_append, or_assoc]

theorem Unfolds.canonical_mem {fs : FileSystem} {paths : List String} {files : List SourceFile}
    (h : Unfolds fs paths files) : ∀ file ∈ files, file.canonical ∈ fs.files := by
  induction h with
  | nil =>
      intro file member
      cases member
  | cons _ _ named _ _ ihBelow ihRest =>
      refine List.forall_mem_cons.mpr ⟨fs.canonicalize_mem named, ?_⟩
      exact List.forall_mem_append.mpr ⟨ihBelow, ihRest⟩

/-- Files with different canonical paths are no more than there are files. -/
theorem Unfolds.length_le {fs : FileSystem} {paths : List String} {files : List SourceFile}
    (h : Unfolds fs paths files) (separate : Separate files) :
    files.length ≤ fs.files.card := by
  have card := List.toFinset_card_of_nodup separate.canonicals
  rw [List.length_map] at card
  rw [← card]
  apply Finset.card_le_card
  intro canonical member
  obtain ⟨file, inside, rfl⟩ := List.mem_map.mp (List.mem_toFinset.mp member)
  exact h.canonical_mem file inside

/-- The schema that `load_topology` expands: the root with everything below merged into
it, apart from instances. -/
theorem loadTopology_merged {fs : FileSystem} {path : String} {root : SourceFile}
    {below : List SourceFile} (h : Unfolds fs [path] (root :: below))
    (separate : Separate (root :: below)) :
    ∃ merged, Appended { root.schema with includes := [] } below merged ∧
      loadTopology fs path = (expand merged).mapError .error := by
  have bound := h.length_le separate
  generalize files : root :: below = all at h
  cases h with
  | cons read parsed named included later =>
      cases later
      rw [List.append_nil] at files
      cases files
      rw [List.length_cons] at bound
      obtain ⟨merged, seen, loaded, appended, _⟩ := @Unfolds.load _ fs _ _ included fs.files.card
        (by omega) (@Separate.right [root] below separate) { root.schema with includes := [] }
        (insert root.canonical ∅) (by
          intro other member inside
          rw [Finset.mem_insert, or_iff_left (Finset.notMem_empty _)] at inside
          exact (List.nodup_cons.mp separate.canonicals).1
            (List.mem_map.mpr ⟨other, member, inside⟩))
        separate.signals
      refine ⟨merged, appended, ?_⟩
      rw [loadTopology, loadTopologyInner_file read parsed named (Finset.notMem_empty _), loaded]
      rfl

end SignalTopology
