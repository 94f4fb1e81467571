import SignalTopology.Ddl.Codegen
import SignalTopology.Ddl.Edits

/-!
# What is made of documents that are alike

The resolution of the guards goes through the reactions of the document one by one, and
the lowering drops the names of the guards. So documents whose reactions are resolved to
the same guard texts are lowered to the same schema.
-/

namespace SignalTopology.Ddl

open TokenParser Fallible

/-! ## The table of guards -/

/-- The guard texts by the ids of their declarations. -/
def guardTable (guards : List GuardDecl) : HashMap String :=
  guards.foldl (fun map g => map.insert g.id g.expr) ∅

section

variable {guards before gone after : List GuardDecl} {id expr : String}

theorem lookup_append (map : HashMap String) (apart : ∀ g ∈ gone, g.id ≠ id) :
    (gone.foldl (fun map g => map.insert g.id g.expr) map).lookup id = map.lookup id := by
  induction gone generalizing map with
  | nil => rfl
  | cons g gone ih =>
      rw [List.foldl_cons, ih _ fun g' member => apart g' (List.mem_cons_of_mem _ member)]
      exact AList.lookup_insert_ne (Ne.symm (apart g List.mem_cons_self))

theorem lookup_foldl {map map' : HashMap String} (same : map.lookup id = map'.lookup id) :
    (guards.foldl (fun map g => map.insert g.id g.expr) map).lookup id =
      (guards.foldl (fun map g => map.insert g.id g.expr) map').lookup id := by
  induction guards generalizing map map' with
  | nil => exact same
  | cons g guards ih =>
      rw [List.foldl_cons, List.foldl_cons]
      apply ih
      by_cases own : id = g.id
      · rw [own, AList.lookup_insert, AList.lookup_insert]
      · rw [AList.lookup_insert_ne own, AList.lookup_insert_ne own, same]

/-- Guards of other names do not matter. -/
theorem guardTable_without (apart : ∀ g ∈ gone, g.id ≠ id) :
    (guardTable (before ++ (gone ++ after))).lookup id =
      (guardTable (before ++ after)).lookup id := by
  simp only [guardTable, List.foldl_append]
  exact lookup_foldl (lookup_append _ apart)

theorem guardTable_declared (found : (guardTable guards).lookup id = some expr) :
    ∃ g ∈ guards, g.id = id := by
  by_contra absent
  have apart : ∀ g ∈ guards, g.id ≠ id := fun g member same => absent ⟨g, member, same⟩
  rw [guardTable, lookup_append _ apart] at found
  cases found

end

/-! ## The reactions of a document -/

/-- The reactions at the top level and inside the components. -/
def DdlDoc.everyReaction (doc : DdlDoc) : List ReactionDecl :=
  doc.reactions ++ doc.components.flatMap ComponentDecl.reactions

/-- Two reactions that are lowered alike. -/
def ReactionDecl.Agrees (r r' : ReactionDecl) : Prop := r' = { r with guardRef := r'.guardRef }

section

variable (Q : ReactionDecl → ReactionDecl → Prop)

structure ComponentDecl.Like (c c' : ComponentDecl) : Prop where
  id : c'.id = c.id
  params : c'.params = c.params
  ports : c'.ports = c.ports
  signals : c'.signals = c.signals
  reactions : List.Forall₂ Q c.reactions c'.reactions

/-- The same document but for related reactions, and without some guards. -/
structure DdlDoc.Like (gone : List GuardDecl) (doc doc' : DdlDoc) : Prop where
  signals : doc'.signals = doc.signals
  reactions : List.Forall₂ Q doc.reactions doc'.reactions
  guards : ∃ before after, doc.guards = before ++ (gone ++ after) ∧ doc'.guards = before ++ after
  components : List.Forall₂ (ComponentDecl.Like Q) doc.components doc'.components
  instantiates : doc'.instantiates = doc.instantiates

end

section

variable {Q Q' : ReactionDecl → ReactionDecl → Prop} {gone : List GuardDecl} {doc doc' : DdlDoc}

theorem DdlDoc.Like.mono (like : doc.Like Q gone doc') (weaker : ∀ r r', Q r r' → Q' r r') :
    doc.Like Q' gone doc' where
  signals := like.signals
  reactions := like.reactions.imp weaker
  guards := like.guards
  components := like.components.imp fun _ _ c =>
    ⟨c.id, c.params, c.ports, c.signals, c.reactions.imp weaker⟩
  instantiates := like.instantiates

theorem DdlDoc.Like.everyReaction (like : doc.Like Q gone doc') :
    List.Forall₂ Q doc.everyReaction doc'.everyReaction := by
  refine List.rel_append like.reactions ?_
  refine List.rel_flatMap like.components ?_
  exact fun c c' alike => alike.reactions

end

/-! ## Resolution -/

/-- The resolution of the reactions of a component. -/
def resolveComponent (guardMap : HashMap String) (raw : ComponentDeclRaw) :
    Except String ComponentDecl := do
  let reactions ← raw.rawReactions.mapM (resolveReaction guardMap)
  return { id := raw.id, params := raw.params, ports := raw.ports, signals := raw.signals,
           reactions }

theorem finishDoc_iff {doc : DocState} {out : DdlDoc} : finishDoc doc = .ok out ↔
    checkJoinRefs doc.forkGroups doc.joinGroupRefs = .ok () ∧
    doc.rawReactions.mapM (resolveReaction (guardTable doc.guards)) = .ok out.reactions ∧
    doc.rawComponents.mapM (resolveComponent (guardTable doc.guards)) = .ok out.components ∧
    out.signals = doc.signals ∧ out.guards = doc.guards ∧ out.instantiates = doc.instantiates := by
  constructor
  · intro h
    obtain ⟨⟨⟩, joins, h⟩ := bind_ok h
    obtain ⟨reactions, resolved, h⟩ := bind_ok h
    obtain ⟨components, built, h⟩ := bind_ok h
    cases h
    exact ⟨joins, resolved, built, rfl, rfl, rfl⟩
  · rintro ⟨joins, resolved, built, signals, guards, instantiates⟩
    obtain ⟨_, _, _, _, _⟩ := out
    subst signals guards instantiates
    exact bind_ok_iff.mpr
      ⟨(), joins, bind_ok_iff.mpr ⟨_, resolved, bind_ok_iff.mpr ⟨_, built, rfl⟩⟩⟩

/-- A guard that a reaction refers to is declared. -/
theorem resolveReaction_ref {guardMap : HashMap String} {raw : RawReaction} {r : ReactionDecl}
    {id : String} (h : resolveReaction guardMap raw = .ok r) (refers : r.guardRef = some id) :
    raw.guard = some (.ref id) ∧ ∃ expr, guardMap.lookup id = some expr ∧ r.guard = some expr := by
  obtain ⟨_, _, _, _, guard, _, _, _, _⟩ := raw
  cases guard with
  | none =>
      cases h
      cases refers
  | some guard =>
      cases guard with
      | lit text =>
          cases h
          cases refers
      | ref name =>
          rw [resolveReaction] at h
          dsimp only at h
          cases found : guardMap.lookup name with
          | none =>
              rw [found] at h
              cases h
          | some expr =>
              rw [found] at h
              cases h
              cases refers
              exact ⟨rfl, expr, found, rfl⟩

/-- Only the text of the guard that a reaction refers to matters. -/
theorem resolveReaction_congr {map map' : HashMap String} {raw : RawReaction} {r : ReactionDecl}
    (h : resolveReaction map raw = .ok r)
    (same : ∀ id, r.guardRef = some id → map'.lookup id = map.lookup id) :
    resolveReaction map' raw = .ok r := by
  obtain ⟨_, _, _, _, guard, _, _, _, _⟩ := raw
  cases guard with
  | none => exact h
  | some guard =>
      cases guard with
      | lit text => exact h
      | ref id =>
          rw [resolveReaction] at h ⊢
          dsimp only at h ⊢
          cases found : map.lookup id with
          | none =>
              rw [found] at h
              cases h
          | some expr =>
              rw [found] at h
              cases h
              rw [same id rfl, found]
              rfl

theorem finishDoc_ref {doc : DocState} {out : DdlDoc} (h : finishDoc doc = .ok out)
    {r : ReactionDecl} (member : r ∈ out.everyReaction) {id : String}
    (refers : r.guardRef = some id) :
    ∃ g ∈ out.guards, g.id = id := by
  obtain ⟨_, resolved, built, _, guards, _⟩ := finishDoc_iff.mp h
  have from_raw : ∃ raw, resolveReaction (guardTable doc.guards) raw = .ok r := by
    rcases List.mem_append.mp member with top | inside
    · obtain ⟨raw, _, same⟩ := mapM_result resolved r top
      exact ⟨raw, same⟩
    · obtain ⟨c, declared, inside⟩ := List.mem_flatMap.mp inside
      obtain ⟨raw, _, made⟩ := mapM_result built c declared
      obtain ⟨reactions, resolved, made⟩ := bind_ok made
      cases made
      obtain ⟨raw, _, same⟩ := mapM_result resolved r inside
      exact ⟨raw, same⟩
  obtain ⟨raw, same⟩ := from_raw
  obtain ⟨_, expr, found, _⟩ := resolveReaction_ref same refers
  rw [guards]
  exact guardTable_declared found

/-- Documents that are alike are resolved to documents that are alike, if their reactions
are. -/
theorem finishDoc_like {R : RawReaction → RawReaction → Prop}
    {Q : ReactionDecl → ReactionDecl → Prop}
    {gone : List GuardDecl} {doc doc' : DocState} {out : DdlDoc} (like : doc.Like R gone doc')
    (h : finishDoc doc = .ok out)
    (each : ∀ raw raw' r, R raw raw' → r ∈ out.everyReaction →
      resolveReaction (guardTable doc.guards) raw = .ok r →
      ∃ r', resolveReaction (guardTable doc'.guards) raw' = .ok r' ∧ Q r r') :
    ∃ out', finishDoc doc' = .ok out' ∧ out.Like Q gone out' := by
  obtain ⟨joins, resolved, built, signals, guards, instantiates⟩ := finishDoc_iff.mp h
  obtain ⟨reactions', resolved', related⟩ := mapM_related like.reactions resolved
    fun raw raw' r same member => each raw raw' r same (List.mem_append_left _ member)
  obtain ⟨components', built', alike⟩ := @mapM_related _ _ _ _ _ _ _ (ComponentDecl.Like Q) _
      (resolveComponent (guardTable doc'.guards)) _ _ _ like.components built (by
    intro raw raw' c same member made
    obtain ⟨reactions, inside, made⟩ := bind_ok made
    cases made
    obtain ⟨reactions', inside', related⟩ := mapM_related same.reactions inside
      fun raw raw' r same own => each raw raw' r same
        (List.mem_append_right _ (List.mem_flatMap.mpr ⟨_, member, own⟩))
    refine ⟨_, bind_ok_iff.mpr ⟨reactions', inside', rfl⟩, ?_⟩
    exact ⟨same.id, same.params, same.ports, same.signals, related⟩)
  refine ⟨{ signals := doc'.signals, reactions := reactions', guards := doc'.guards
            components := components', instantiates := doc'.instantiates }, ?_, ?_⟩
  · refine finishDoc_iff.mpr ⟨?_, resolved', built', rfl, rfl, rfl⟩
    rw [like.forkGroups, like.joinGroupRefs]
    exact joins
  · refine ⟨like.signals.trans signals.symm, related, ?_, alike,
      like.instantiates.trans instantiates.symm⟩
    rw [guards]
    exact like.guards

/-! ## Lowering -/

section

variable [SerdeJson]

theorem mapM_emit_agrees {rs rs' : List ReactionDecl}
    (related : List.Forall₂ ReactionDecl.Agrees rs rs') :
    rs'.mapM emitReaction = rs.mapM emitReaction := by
  induction related with
  | nil => rfl
  | cons first _ ih =>
      rw [List.mapM_cons, List.mapM_cons, ih, first]
      rfl

theorem emitComponent_like {c c' : ComponentDecl} (like : c.Like ReactionDecl.Agrees c') :
    emitComponent c' = emitComponent c := by
  rw [emitComponent, emitComponent, like.params, like.ports, like.signals,
    mapM_emit_agrees like.reactions]

/-- The lowering sees neither the declarations of guards nor the references to them. -/
theorem emit_like {gone : List GuardDecl} {doc doc' : DdlDoc}
    (like : doc.Like ReactionDecl.Agrees gone doc') : emit doc' = emit doc := by
  have components : ∀ map : HashMap ComponentDef,
      doc'.components.foldlM (fun map comp =>
        do return map.insert comp.id (← emitComponent comp)) map =
        doc.components.foldlM
          (fun map comp => do return map.insert comp.id (← emitComponent comp)) map := by
    have related := like.components
    revert related
    generalize doc.components = cs
    generalize doc'.components = cs'
    intro related
    induction related with
    | nil => exact fun _ => rfl
    | cons first _ ih =>
        intro map
        rw [List.foldlM_cons, List.foldlM_cons, emitComponent_like first, first.id]
        exact bind_congr ih
  rw [emit, emit, like.signals, like.instantiates, mapM_emit_agrees like.reactions, components]

end

end SignalTopology.Ddl
