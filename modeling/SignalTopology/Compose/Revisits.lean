import SignalTopology.Compose.Includes
import SignalTopology.Library.Fuel

/-!
# Files that are reached twice

The visited files are shared by all branches of the recursion, and a file joins them
before its own includes are read. So every nested call visits a new file, and loading
ends; and a file that is reached twice fails the load, whether it is on the way down
or in another branch.
-/

namespace SignalTopology

open Fallible Fuel

/-! ## Include paths -/

variable [SerdeJson]

/-- Following the includes at the given positions leads from one path to another. -/
inductive Reaches (fs : FileSystem) : String → List Nat → String → Prop where
  | here (path : String) : Reaches fs path [] path
  | step {path text inc target : String} {schema : TopologySchema} {i : Nat} {chain : List Nat}
      (read : fs.readToString path = some text) (parsed : SerdeJson.schemaFromStr text = .ok schema)
      (included : schema.includes[i]? = some inc)
      (rest : Reaches fs (fs.includePath path inc) chain target) :
      Reaches fs path (i :: chain) target

/-- From one of the given paths. -/
def ReachesFrom (fs : FileSystem) (paths : List String) (i : Nat) (chain : List Nat)
    (target : String) : Prop :=
  ∃ path, paths[i]? = some path ∧ Reaches fs path chain target

namespace Unfolds

variable {fs : FileSystem} {paths : List String} {files : List SourceFile}

/-- What is reached first is the file itself, a file below it, or one of the others. -/
theorem reaches_cons {path text target : String} {file : SourceFile} {i : Nat} {chain : List Nat}
    (read : fs.readToString path = some text)
    (parsed : SerdeJson.schemaFromStr text = .ok file.schema)
    (h : ReachesFrom fs (path :: paths) i chain target) :
    (i = 0 ∧ chain = [] ∧ target = path) ∨
      (∃ k chain', i = 0 ∧ chain = k :: chain' ∧
        ReachesFrom fs (file.schema.includes.map (fs.includePath path)) k chain' target) ∨
      ∃ i', i = i' + 1 ∧ ReachesFrom fs paths i' chain target := by
  obtain ⟨start, first, reaches⟩ := h
  cases i with
  | succ i' => exact .inr (.inr ⟨i', rfl, start, first, reaches⟩)
  | zero =>
      cases first
      cases reaches with
      | here => exact .inl ⟨rfl, rfl, rfl⟩
      | @step _ text' inc _ schema k chain' read' parsed' included rest =>
          cases Option.some.inj (read.symm.trans read')
          cases Except.ok.inj (parsed.symm.trans parsed')
          refine .inr (.inl ⟨k, chain', rfl, rfl, _, ?_, rest⟩)
          rw [List.getElem?_map, included]
          rfl

/-- Whatever is reached is among the files. -/
theorem reached_mem (h : Unfolds fs paths files) {i : Nat} {chain : List Nat} {target : String}
    (reaches : ReachesFrom fs paths i chain target) :
    ∃ file ∈ files, fs.canonicalize target = some file.canonical := by
  induction h generalizing i chain with
  | nil =>
      obtain ⟨_, absent, _⟩ := reaches
      cases absent
  | @cons path text paths file below rest read parsed named _ _ ihBelow ihRest =>
      obtain ⟨rfl, rfl, rfl⟩ | ⟨k, chain', rfl, rfl, inner⟩ | ⟨i', rfl, other⟩ :=
        reaches_cons read parsed reaches
      · exact ⟨file, List.mem_cons_self, named⟩
      · obtain ⟨found, member, same⟩ := ihBelow inner
        exact ⟨found, List.mem_cons_of_mem _ (List.mem_append_left _ member), same⟩
      · obtain ⟨found, member, same⟩ := ihRest other
        exact ⟨found, List.mem_cons_of_mem _ (List.mem_append_right _ member), same⟩

/-- Every file is reached. -/
theorem mem_reached (h : Unfolds fs paths files) : ∀ file ∈ files, ∃ i chain target text,
    ReachesFrom fs paths i chain target ∧ fs.canonicalize target = some file.canonical ∧
      fs.readToString target = some text ∧ SerdeJson.schemaFromStr text = .ok file.schema := by
  induction h with
  | nil =>
      intro file member
      cases member
  | @cons path text paths file below rest read parsed named _ _ ihBelow ihRest =>
      refine List.forall_mem_cons.mpr
        ⟨⟨0, [], path, text, ⟨path, rfl, .here path⟩, named, read, parsed⟩, ?_⟩
      refine List.forall_mem_append.mpr ⟨fun other member => ?_, fun other member => ?_⟩
      · obtain ⟨k, chain, target, text', ⟨start, first, reaches⟩, same⟩ := ihBelow other member
        rw [List.getElem?_map, Option.map_eq_some_iff] at first
        obtain ⟨inc, included, rfl⟩ := first
        exact ⟨0, k :: chain, target, text', ⟨path, rfl, .step read parsed included reaches⟩, same⟩
      · obtain ⟨i, chain, target, text', ⟨start, first, reaches⟩, same⟩ := ihRest other member
        exact ⟨i + 1, chain, target, text', ⟨start, first, reaches⟩, same⟩

/-- When no file occurs twice, no two ways lead to the same file. -/
theorem reached_once (h : Unfolds fs paths files) (distinct : (files.map (·.canonical)).Nodup)
    {i i' : Nat} {chain chain' : List Nat} {target target' canonical : String}
    (first : ReachesFrom fs paths i chain target) (second : ReachesFrom fs paths i' chain' target')
    (named : fs.canonicalize target = some canonical)
    (named' : fs.canonicalize target' = some canonical) : i = i' ∧ chain = chain' := by
  induction h generalizing i i' chain chain' with
  | nil =>
      obtain ⟨_, absent, _⟩ := first
      cases absent
  | @cons path text paths file below rest read parsed own included later ihBelow ihRest =>
      rw [List.map_cons, List.map_append, List.nodup_cons, List.nodup_append, List.mem_append,
        not_or] at distinct
      obtain ⟨⟨apartBelow, apartRest⟩, distinctBelow, distinctRest, apart⟩ := distinct
      have inBelow : ∀ {k chain target}, ReachesFrom fs
          (file.schema.includes.map (fs.includePath path)) k chain target →
          fs.canonicalize target = some canonical → canonical ∈ below.map (·.canonical) := by
        intro k chain target reaches named
        obtain ⟨found, member, same⟩ := included.reached_mem reaches
        cases Option.some.inj (named.symm.trans same)
        exact List.mem_map_of_mem member
      have inRest : ∀ {k chain target}, ReachesFrom fs paths k chain target →
          fs.canonicalize target = some canonical → canonical ∈ rest.map (·.canonical) := by
        intro k chain target reaches named
        obtain ⟨found, member, same⟩ := later.reached_mem reaches
        cases Option.some.inj (named.symm.trans same)
        exact List.mem_map_of_mem member
      obtain ⟨rfl, rfl, rfl⟩ | ⟨k, chain, rfl, rfl, inner⟩ | ⟨i, rfl, other⟩ :=
        reaches_cons read parsed first
      · cases Option.some.inj (own.symm.trans named)
        obtain ⟨rfl, rfl, rfl⟩ | ⟨k', chain', rfl, rfl, inner'⟩ | ⟨i', rfl, other'⟩ :=
          reaches_cons read parsed second
        · exact ⟨rfl, rfl⟩
        · exact absurd (inBelow inner' named') apartBelow
        · exact absurd (inRest other' named') apartRest
      · obtain ⟨rfl, rfl, rfl⟩ | ⟨k', chain', rfl, rfl, inner'⟩ | ⟨i', rfl, other'⟩ :=
          reaches_cons read parsed second
        · cases Option.some.inj (own.symm.trans named')
          exact absurd (inBelow inner named) apartBelow
        · obtain ⟨rfl, rfl⟩ := ihBelow distinctBelow inner inner'
          exact ⟨rfl, rfl⟩
        · exact absurd rfl (apart _ (inBelow inner named) _ (inRest other' named'))
      · obtain ⟨rfl, rfl, rfl⟩ | ⟨k', chain', rfl, rfl, inner'⟩ | ⟨i', rfl, other'⟩ :=
          reaches_cons read parsed second
        · cases Option.some.inj (own.symm.trans named')
          exact absurd (inRest other named) apartRest
        · exact absurd rfl (apart _ (inBelow inner' named') _ (inRest other named))
        · obtain ⟨rfl, rfl⟩ := ihRest distinctRest other other'
          exact ⟨rfl, rfl⟩

end Unfolds

/-! ## What loading has visited -/

/-- A load from the paths has visited the files, each of them for the first time. -/
structure Visits (fs : FileSystem) (paths : List String) (seen seen' : Finset String)
    (files : List SourceFile) : Prop where
  unfolds : Unfolds fs paths files
  distinct : (files.map (·.canonical)).Nodup
  fresh : ∀ file ∈ files, file.canonical ∉ seen
  visited : ∀ canonical, canonical ∈ seen' ↔
    canonical ∈ seen ∨ canonical ∈ files.map (·.canonical)

variable {fs : FileSystem}

namespace Visits

variable {path : String} {paths : List String} {seen seen₁ seen' : Finset String}
variable {file : SourceFile} {below files : List SourceFile}

theorem nil (seen : Finset String) : Visits fs [] seen seen [] :=
  ⟨.nil, List.nodup_nil, by simp, by simp⟩

/-- A file is visited before the files below it. -/
theorem visit {text : String} (read : fs.readToString path = some text)
    (parsed : SerdeJson.schemaFromStr text = .ok file.schema)
    (named : fs.canonicalize path = some file.canonical) (unseen : file.canonical ∉ seen)
    (h : Visits fs (file.schema.includes.map (fs.includePath path)) (insert file.canonical seen)
      seen' below) : Visits fs [path] seen seen' (file :: below) := by
  refine ⟨?_, ?_, ?_, fun canonical => ?_⟩
  · have unfolds := Unfolds.cons read parsed named h.unfolds .nil
    rwa [List.append_nil] at unfolds
  · refine List.nodup_cons.mpr ⟨fun again => ?_, h.distinct⟩
    obtain ⟨other, member, same⟩ := List.mem_map.mp again
    exact h.fresh other member (same ▸ Finset.mem_insert_self _ _)
  · refine List.forall_mem_cons.mpr ⟨unseen, fun other member before => ?_⟩
    exact h.fresh other member (Finset.mem_insert_of_mem before)
  · rw [h.visited, Finset.mem_insert, List.map_cons, List.mem_cons]
    tauto

/-- The other paths are loaded with the files that were visited. -/
theorem cons (first : Visits fs [path] seen seen₁ (file :: below))
    (rest : Visits fs paths seen₁ seen' files) :
    Visits fs (path :: paths) seen seen' (file :: (below ++ files)) := by
  have whole : file :: (below ++ files) = (file :: below) ++ files := rfl
  refine ⟨?_, ?_, ?_, fun canonical => ?_⟩
  · generalize all : file :: below = visited at first
    obtain ⟨unfolds, _, _, _⟩ := first
    cases unfolds with
    | cons read parsed named included later =>
        cases later
        rw [List.append_nil] at all
        cases all
        exact .cons read parsed named included rest.unfolds
  · rw [whole, List.map_append, List.nodup_append]
    refine ⟨first.distinct, rest.distinct, ?_⟩
    rintro canonical early _ later rfl
    obtain ⟨other, member, rfl⟩ := List.mem_map.mp later
    exact rest.fresh other member ((first.visited _).mpr (.inr early))
  · rw [whole, List.forall_mem_append]
    refine ⟨first.fresh, fun other member before => ?_⟩
    exact rest.fresh other member ((first.visited _).mpr (.inl before))
  · rw [rest.visited, first.visited, whole, List.map_append, List.mem_append, or_assoc]

end Visits

/-- The steps of `load_topology_inner` on a file that loads. -/
theorem loadTopologyInner_ok {fuel : Nat} {path : String} {seen seen' : Finset String}
    {merged : TopologySchema} (h : loadTopologyInner fs (fuel + 1) path seen =
      .ok (merged, seen')) :
    ∃ text file, fs.readToString path = some text ∧
      SerdeJson.schemaFromStr text = .ok (SourceFile.schema file) ∧
      fs.canonicalize path = some file.canonical ∧ file.canonical ∉ seen ∧
      (file.schema.includes.map (fs.includePath path)).foldlM
        (mergeInclude (loadTopologyInner fs fuel))
        ({ file.schema with includes := [] }, insert file.canonical seen) =
          .ok (merged, seen') := by
  rw [loadTopologyInner] at h
  split at h
  · cases h
  · next text read =>
      split at h
      · cases h
      · next schema parsed =>
          split at h
          · cases h
          · next canonical named =>
              split at h
              · cases h
              · next unseen =>
                  refine ⟨text, ⟨canonical, schema⟩, read, parsed, named, unseen, ?_⟩
                  rw [List.foldlM_map]
                  exact h

omit [SerdeJson] in
/-- The steps of the loop over the includes. -/
theorem mergeInclude_ok {load : Loader} {acc merged : TopologySchema} {seen seen' : Finset String}
    {path : String} (h : mergeInclude load (acc, seen) path = .ok (merged, seen')) :
    ∃ sub, load path seen = .ok (sub, seen') ∧ mergeIn acc sub = .ok merged := by
  obtain ⟨⟨sub, seen₁⟩, loaded, h⟩ := bind_ok h
  obtain ⟨merged', merges, same⟩ := bind_ok h
  cases same
  exact ⟨sub, loaded, mapError_ok merges⟩

/-- A file that loads is merged with all the files below it, each visited once. -/
theorem visits_of_ok (fuel : Nat) {path : String} {seen seen' : Finset String}
    {merged : TopologySchema} (h : loadTopologyInner fs fuel path seen = .ok (merged, seen')) :
    ∃ file below, Visits fs [path] seen seen' (file :: below) ∧
      Appended { file.schema with includes := [] } below merged := by
  induction fuel generalizing path seen seen' merged with
  | zero => cases h
  | succ fuel ih =>
      -- the loop over the includes, one nesting deeper
      have loop : ∀ {paths acc merged seen seen'},
          paths.foldlM (mergeInclude (loadTopologyInner fs fuel)) (acc, seen) =
            .ok (merged, seen') →
          ∃ files, Visits fs paths seen seen' files ∧ Appended acc files merged := by
        intro paths
        induction paths with
        | nil =>
            intro acc merged seen seen' h
            cases h
            exact ⟨[], .nil _, .refl _⟩
        | cons path paths ihPaths =>
            intro acc merged seen seen' h
            rw [List.foldlM_cons] at h
            obtain ⟨⟨middle, seen₁⟩, first, rest⟩ := bind_ok h
            obtain ⟨sub, loaded, merges⟩ := mergeInclude_ok first
            obtain ⟨file, below, visits, appended⟩ := ih loaded
            obtain ⟨files, visitsRest, appendedRest⟩ := ihPaths rest
            refine ⟨file :: (below ++ files), visits.cons visitsRest, ?_⟩
            exact (appended.mergeIn merges).trans appendedRest
      obtain ⟨text, file, read, parsed, named, unseen, h⟩ := loadTopologyInner_ok h
      obtain ⟨below, visits, appended⟩ := loop h
      exact ⟨file, below, .visit read parsed named unseen visits, appended⟩

/-! ## Termination -/

/-- A failure of the source, and not of the fuel. -/
abbrev Stops (failure : TokenParser.Failure EngineError) : Prop := ∃ e, failure = .error e

/-- Every nested call has one file less left to visit. -/
theorem loadTopologyInner_stops (fuel : Nat) {path : String} {seen : Finset String}
    (enough : (fs.files \ seen).card < fuel) :
    Fails Stops (loadTopologyInner fs fuel path seen) := by
  induction fuel generalizing path seen with
  | zero => exact absurd enough (Nat.not_lt_zero _)
  | succ fuel ih =>
      have loop : ∀ (paths : List String) (acc : TopologySchema) (seen : Finset String),
          (fs.files \ seen).card < fuel →
          Fails Stops (paths.foldlM (mergeInclude (loadTopologyInner fs fuel)) (acc, seen)) := by
        intro paths
        induction paths with
        | nil => exact fun _ _ _ => .ok
        | cons path paths ihPaths =>
            intro acc seen enough
            rw [List.foldlM_cons]
            refine Fails.bind_of_ok ?_ ?_
            · refine (ih enough).bind fun loaded => ?_
              exact (Fails.mapError fun e => ⟨e, rfl⟩).bind fun _ => .ok
            · rintro ⟨middle, seen₁⟩ step
              obtain ⟨sub, loaded, _⟩ := mergeInclude_ok step
              obtain ⟨_, _, visits, _⟩ := visits_of_ok fuel loaded
              have grows : seen ⊆ seen₁ := fun c before => (visits.visited c).mpr (.inl before)
              exact ihPaths middle seen₁
                (lt_of_le_of_lt (Finset.card_le_card (Finset.sdiff_subset_sdiff subset_rfl grows))
                  enough)
      rw [loadTopologyInner]
      split
      · exact .error ⟨_, rfl⟩
      · split
        · exact .error ⟨_, rfl⟩
        · next schema _ =>
            split
            · exact .error ⟨_, rfl⟩
            · next canonical named =>
                split
                · exact .error ⟨_, rfl⟩
                · next unseen =>
                    have known := fs.canonicalize_mem named
                    have fewer :
                        (fs.files \ insert canonical seen).card < (fs.files \ seen).card := by
                      refine Finset.card_lt_card ⟨?_, fun back => ?_⟩
                      · exact Finset.sdiff_subset_sdiff subset_rfl (Finset.subset_insert _ _)
                      · have inside := back (Finset.mem_sdiff.mpr ⟨known, unseen⟩)
                        exact (Finset.mem_sdiff.mp inside).2 (Finset.mem_insert_self _ _)
                    have rest := loop (schema.includes.map (fs.includePath path))
                      { schema with includes := [] } (insert canonical seen) (by omega)
                    rwa [List.foldlM_map] at rest

/-- A load with more fuel goes on from where the first one stops. -/
theorem loadTopologyInner_continues (fuel : Nat) : ∀ (fuel' : Nat), fuel ≤ fuel' →
    ∀ path seen, Continues .outOfFuel Eq (loadTopologyInner fs fuel path seen)
      (loadTopologyInner fs fuel' path seen) := by
  induction fuel with
  | zero => exact fun fuel' _ path seen => .cutOff _
  | succ fuel ih =>
      intro fuel' enough path seen
      obtain ⟨fuel', rfl⟩ : ∃ n, fuel' = n + 1 := ⟨fuel' - 1, by omega⟩
      rw [loadTopologyInner, loadTopologyInner]
      split
      · exact .fails _
      · split
        · exact .fails _
        · split
          · exact .fails _
          · split
            · exact .fails _
            · refine .foldlM (fun state inc => ?_) _ _
              refine (ih fuel' (by omega) _ _).bind ?_
              rintro loaded _ rfl
              exact .refl _

/-- Loading ends however deep the files are nested, and merges each file once. When it
succeeds, the files that were merged are the ones the root reaches, none of them twice;
and it fails when two include paths lead to the same file. -/
theorem loadTopology_once (fs : FileSystem) (path : String) :
    (∀ fuel, fs.files.card < fuel → loadTopologyInner fs fuel path ∅ =
      loadTopologyInner fs (fs.files.card + 1) path ∅) ∧
    loadTopology fs path ≠ .error .outOfFuel ∧
    (∀ flat, loadTopology fs path = .ok flat → ∃ root below merged,
      Appended { root.schema with includes := [] } below merged ∧ expand merged = .ok flat ∧
      ((root :: below).map (·.canonical)).Nodup ∧
      (∀ chain target, Reaches fs path chain target →
        ∃ file ∈ root :: below, fs.canonicalize target = some file.canonical) ∧
      ∀ file ∈ root :: below, ∃ chain target text, Reaches fs path chain target ∧
        fs.canonicalize target = some file.canonical ∧ fs.readToString target = some text ∧
        SerdeJson.schemaFromStr text = .ok file.schema) ∧
    ∀ chain chain' target target' canonical, Reaches fs path chain target →
      Reaches fs path chain' target' → chain ≠ chain' → fs.canonicalize target = some canonical →
      fs.canonicalize target' = some canonical → ∃ e, loadTopology fs path = .error (.error e) := by
  have stops : Fails Stops (loadTopologyInner fs (fs.files.card + 1) path ∅) :=
    loadTopologyInner_stops _ (by rw [Finset.sdiff_empty]; exact Nat.lt_succ_self _)
  have ends : Fails Stops (loadTopology fs path) :=
    stops.bind fun loaded => .mapError fun e => ⟨e, rfl⟩
  have loads : ∀ flat, loadTopology fs path = .ok flat → ∃ root below merged seen,
      Visits fs [path] ∅ seen (root :: below) ∧
      Appended { root.schema with includes := [] } below merged ∧ expand merged = .ok flat := by
    intro flat ok
    obtain ⟨⟨merged, seen⟩, loaded, expanded⟩ := bind_ok ok
    obtain ⟨root, below, visits, appended⟩ := visits_of_ok _ loaded
    exact ⟨root, below, merged, seen, visits, appended, mapError_ok expanded⟩
  refine ⟨fun fuel enough => ?_, fun gone => ?_, fun flat ok => ?_, ?_⟩
  · refine (loadTopologyInner_continues (fs.files.card + 1) fuel enough path ∅).eq fun gone => ?_
    obtain ⟨e, other⟩ := stops _ gone
    cases other
  · obtain ⟨e, other⟩ := ends _ gone
    cases other
  · obtain ⟨root, below, merged, seen, visits, appended, expanded⟩ := loads flat ok
    refine ⟨root, below, merged, appended, expanded, visits.distinct, ?_, ?_⟩
    · intro chain target reaches
      have start : ReachesFrom fs [path] 0 chain target := ⟨path, rfl, reaches⟩
      exact visits.unfolds.reached_mem start
    · intro file member
      obtain ⟨i, chain, target, text, ⟨start, first, reaches⟩, same⟩ :=
        visits.unfolds.mem_reached file member
      cases i with
      | zero =>
          cases first
          exact ⟨chain, target, text, reaches, same⟩
      | succ i => cases first
  · intro chain chain' target target' canonical first second apart named named'
    cases result : loadTopology fs path with
    | ok flat =>
        obtain ⟨root, below, merged, seen, visits, _, _⟩ := loads flat result
        have once : 0 = 0 ∧ chain = chain' := visits.unfolds.reached_once visits.distinct
          ⟨path, rfl, first⟩ ⟨path, rfl, second⟩ named named'
        exact absurd once.2 apart
    | error failure =>
        obtain ⟨e, rfl⟩ := ends failure result
        exact ⟨e, rfl⟩

end SignalTopology
