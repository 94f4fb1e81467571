import SignalTopology.Ddl.GuardTemplates

/-!
# Guard templates equal inlining

Every reference to a guard in a reaction block of its own stands in the document that is
read, and every such reaction of the document stands in the source. So references can be
replaced by the texts of their guards one by one, until none is left, and each document
on the way is compiled to the same schema.
-/

namespace SignalTopology.Ddl

open TokenParser Relation Fallible

section

variable [RustStd] {src : List Char} {ts us : Tokens Token}

/-! ## The reactions with a block of their own -/

/-- The reaction is no member of a `fork` or `join` block. -/
def RawReaction.Alone (r : RawReaction) : Prop := r.joinGroup = none ∧ r.requires = []

omit [RustStd] in
theorem rawReaction_alone (head : String × String × String × String) (guard : Option RawGuard)
    (back : Option String × Option String) : (rawReaction head guard back).Alone :=
  ⟨rfl, rfl⟩

theorem parseMembers_marked {mark : RawReaction → RawReaction} {members : List RawReaction}
    (h : Yields (parseMembers src mark) ts members us) : ∀ r ∈ members, ∃ r', r = mark r' := by
  refine (yields_many.mp h).1.forall fun ts r us read => ?_
  obtain ⟨r', _, rfl⟩ := yields_map.mp read
  exact ⟨r', rfl⟩

theorem parseForkBlock_marked {n m : Nat} {members : List RawReaction}
    (h : Yields (parseForkBlock src n) ts (members, m) us) : ∀ r ∈ members, ¬ r.Alone := by
  obtain ⟨_, _, _, h⟩ := yields_bind.mp h
  obtain ⟨_, _, _, h⟩ := yields_bind.mp h
  obtain ⟨_, _, read, h⟩ := yields_bind.mp h
  obtain ⟨_, _, _, h⟩ := yields_bind.mp h
  obtain ⟨same, _⟩ := yields_pure.mp h
  cases same
  intro r member alone
  obtain ⟨r', rfl⟩ := parseMembers_marked read r member
  cases alone.1

theorem parseJoinBlock_marked {group : String} {members : List RawReaction}
    (h : Yields (parseJoinBlock src) ts (members, group) us) : ∀ r ∈ members, ¬ r.Alone := by
  obtain ⟨_, _, _, h⟩ := yields_bind.mp h
  obtain ⟨_, _, _, h⟩ := yields_bind.mp h
  obtain ⟨_, _, _, h⟩ := yields_bind.mp h
  obtain ⟨_, _, read, h⟩ := yields_bind.mp h
  obtain ⟨_, _, _, h⟩ := yields_bind.mp h
  obtain ⟨same, _⟩ := yields_pure.mp h
  cases same
  intro r member alone
  obtain ⟨r', rfl⟩ := parseMembers_marked read r member
  cases alone.2

/-- Such a reaction of the document is read from a block on the way. -/
theorem Sweep.reaction {x y : DocState × Tokens Token} (h : Sweep src x y) {r : RawReaction}
    (alone : r.Alone) (member : r ∈ y.1.rawReactions) : r ∈ x.1.rawReactions ∨
      ∃ doc ts us, Sweep src x (doc, ts) ∧ Yields (parseReactionRaw src) ts r us := by
  induction h with
  | refl => exact .inl member
  | @tail y z earlier turn ih =>
      obtain ⟨doc, ts⟩ := y
      obtain ⟨doc', us⟩ := z
      have block := parseBlock_inl.mp turn
      cases block with
      | reaction read =>
          rcases List.mem_append.mp member with before | here
          · exact ih before
          · obtain rfl := List.mem_singleton.mp here
            exact .inr ⟨doc, ts, us, earlier, read⟩
      | fork read =>
          rcases List.mem_append.mp member with before | here
          · exact ih before
          · exact absurd alone (parseForkBlock_marked read r here)
      | join read =>
          rcases List.mem_append.mp member with before | here
          · exact ih before
          · exact absurd alone (parseJoinBlock_marked read r here)
      | signal | guard | component | instantiate => exact ih member

/-- So is a component. -/
theorem Sweep.componentOf {x y : DocState × Tokens Token} (h : Sweep src x y) {c : ComponentDeclRaw}
    (member : c ∈ y.1.rawComponents) : c ∈ x.1.rawComponents ∨ ∃ doc ts us,
      Sweep src x (doc, ts) ∧ Yields (parseComponent src doc.seenComponentIds) ts c us := by
  induction h with
  | refl => exact .inl member
  | @tail y z earlier turn ih =>
      obtain ⟨doc, ts⟩ := y
      obtain ⟨doc', us⟩ := z
      have block := parseBlock_inl.mp turn
      cases block with
      | component read =>
          rcases List.mem_append.mp member with before | here
          · exact ih before
          · obtain rfl := List.mem_singleton.mp here
            exact .inr ⟨doc, ts, us, earlier, read⟩
      | signal | reaction | guard | fork | join | instantiate => exact ih member

/-- And a reaction of a component. -/
theorem BodySweep.reaction {id : String} {x y : BodyState × Tokens Token} (h : BodySweep src id x y)
    {r : RawReaction} (member : r ∈ y.1.rawReactions) : r ∈ x.1.rawReactions ∨
      ∃ body ts us, BodySweep src id x (body, ts) ∧ Yields (parseReactionRaw src) ts r us := by
  induction h with
  | refl => exact .inl member
  | @tail y z earlier turn ih =>
      obtain ⟨body, ts⟩ := y
      obtain ⟨body', us⟩ := z
      have declared := componentStep_inl.mp turn
      cases declared with
      | reaction read =>
          rcases List.mem_append.mp member with before | here
          · exact ih before
          · obtain rfl := List.mem_singleton.mp here
            exact .inr ⟨body, ts, us, earlier, read⟩
      | port | signal => exact ih member

/-! ## References in the document and in the source -/

omit [RustStd] in
/-- The reactions read at the top level and in the components. -/
def DocState.everyReaction (doc : DocState) : List RawReaction :=
  doc.rawReactions ++ doc.rawComponents.flatMap ComponentDeclRaw.rawReactions

variable {t : Token} {tl : List Token} {final : DocState} {stop ws : Tokens Token} {id : String}
variable {r : RawReaction}

theorem RefersAt.read (h : RefersAt src id ts ws) : ∃ r us, r.Alone ∧ r.guard = some (.ref id) ∧
    Yields (parseReactionRaw src) ts r us := by
  obtain ⟨head, tail, vs, us, opening, captured, closing⟩ := h
  exact ⟨_, us, rawReaction_alone head (some (.ref id)) tail, rfl,
    yields_parseReactionRaw.mpr ⟨head, _, tail, ws, vs, opening, captured, closing, rfl⟩⟩

theorem refersAt_of_read (read : Yields (parseReactionRaw src) ts r us)
    (named : r.guard = some (.ref id)) :
    ∃ ws, RefersAt src id ts ws := by
  obtain ⟨head, guard, tail, ws, vs, opening, captured, closing, rfl⟩ :=
    yields_parseReactionRaw.mp read
  obtain rfl : guard = some (.ref id) := named
  exact ⟨ws, head, tail, vs, us, opening, captured, closing⟩

/-- A component holds what its body has read up to some place. -/
theorem component_holds {name : String} {params : List String} {seen : Finset String}
    {ts₁ ts₂ vs : Tokens Token} {body body' : BodyState} {c : ComponentDeclRaw} (ends : Ends ts)
    (opening : Yields (componentHead seen) ts (name, params) ts₁)
    (passed : BodySweep src name ({}, ts₁) (body, ts₂)) (read : BodyRead src body ts₂ vs body')
    (whole : Yields (parseComponent src seen) ts c us) : body'.rawReactions <+: c.rawReactions := by
  obtain ⟨final, _, rest, _, _, rfl⟩ := component_rest ends opening
    (passed.tail (b := (body, ts₂)) (componentStep_inl.mpr read)) whole
  exact BodySweep.grows rest

/-- A reference of the source is one of the document. -/
theorem ReferenceAt.declared (h : ReferenceAt src id ws)
    (lexed : tokenizeChars .start src = .ok (t :: tl))
    (whole : Sweep src ({}, ⟨t, tl⟩) (final, stop)) (finish : stop.current.kind = .eof) :
    ∃ r ∈ final.everyReaction, r.Alone ∧ r.guard = some (.ref id) := by
  cases h with
  | top lexed₀ swept refers =>
      cases lexed.symm.trans lexed₀
      obtain ⟨r, us, alone, named, read⟩ := refers.read
      have grown := (Sweep.grows ((swept.block (.reaction read)).rest whole finish)).1
      exact ⟨r, List.mem_append_left _ (grown.subset (by simp)), alone, named⟩
  | inside lexed₀ swept opening passed refers =>
      cases lexed.symm.trans lexed₀
      obtain ⟨r, us, alone, named, read⟩ := refers.read
      have ends := ends_inside lexed (Sweep.suffix swept)
      obtain ⟨c, vs, block⟩ :=
        Sweep.component (swept.rest whole finish) finish (expect_first opening)
      have held := component_holds ends opening passed (.reaction read) block
      have grown := (Sweep.grows ((swept.block (.component block)).rest whole finish)).2
      refine ⟨r, List.mem_append_right _
        (List.mem_flatMap.mpr ⟨c, grown.subset ?_, held.subset ?_⟩), alone, named⟩
      · simp
      · simp

/-- A reference of the document is one of the source. -/
theorem exists_reference (lexed : tokenizeChars .start src = .ok (t :: tl))
    (whole : Sweep src ({}, ⟨t, tl⟩) (final, stop)) (member : r ∈ final.everyReaction)
    (alone : r.Alone) (named : r.guard = some (.ref id)) : ∃ ws, ReferenceAt src id ws := by
  rcases List.mem_append.mp member with top | inside
  · obtain absent | ⟨doc, ts, us, swept, read⟩ := Sweep.reaction whole alone top
    · cases absent
    · obtain ⟨ws, refers⟩ := refersAt_of_read read named
      exact ⟨ws, .top lexed swept refers⟩
  · obtain ⟨c, declared, inside⟩ := List.mem_flatMap.mp inside
    obtain absent | ⟨doc, ts, us, swept, block⟩ := Sweep.componentOf whole declared
    · cases absent
    · have ends := ends_inside lexed (Sweep.suffix swept)
      obtain ⟨ts₁, last, ts₃, opening, passed, _, _, shape⟩ := (yields_parseComponent ends).mp block
      rw [shape] at inside
      obtain absent | ⟨body, ts₂, vs, passed', read⟩ := BodySweep.reaction passed inside
      · cases absent
      · obtain ⟨ws, refers⟩ := refersAt_of_read read named
        exact ⟨ws, .inside lexed swept opening passed' refers⟩

end

/-! ## The number of references -/

theorem references_eq (doc : DocState) :
    doc.references = (doc.everyReaction.map RawReaction.references).sum := by
  rw [DocState.references, DocState.everyReaction, List.map_append, List.sum_append,
    List.map_flatMap]
  congr 1
  induction doc.rawComponents with
  | nil => rfl
  | cons c cs ih =>
      rw [List.map_cons, List.sum_cons, ih, List.flatMap_cons, List.sum_append]
      rfl

theorem references_pos {r : RawReaction} : 0 < r.references ↔ r.Alone ∧
    ∃ id, r.guard = some (.ref id) := by
  obtain ⟨_, _, _, _, guard, _, group, waits, _⟩ := r
  cases guard with
  | none => simp [RawReaction.references]
  | some guard =>
      cases guard with
      | lit text => simp [RawReaction.references]
      | ref id =>
          by_cases alone : group = none ∧ waits = []
          · simp [RawReaction.references, RawReaction.Alone, alone]
          · simp [RawReaction.references, RawReaction.Alone, alone]

theorem refers_iff {doc : DocState} : 0 < doc.references ↔
    ∃ r ∈ doc.everyReaction, r.Alone ∧ ∃ id, r.guard = some (.ref id) := by
  rw [references_eq, List.sum_pos_iff_exists_pos_nat]
  constructor
  · rintro ⟨n, counted, some⟩
    obtain ⟨r, member, rfl⟩ := List.mem_map.mp counted
    exact ⟨r, member, references_pos.mp some⟩
  · rintro ⟨r, member, refers⟩
    exact ⟨_, List.mem_map_of_mem member, references_pos.mpr refers⟩

/-! ## Documents with fewer references -/

/-- The reaction, or the same one with its guard written out. -/
def Expanded (r r' : ReactionDecl) : Prop := r' = r ∨ r' = { r with guardRef := none }

theorem Expanded.agrees {r r' : ReactionDecl} (h : Expanded r r') : r.Agrees r' := by
  rcases h with rfl | rfl <;> exact rfl

/-- The guards that reactions with a block of their own refer to are expressions that can be
written out. -/
def DdlDoc.Templates [RustStd] (doc : DdlDoc) : Prop :=
  ∀ r ∈ doc.everyReaction, r.joinGroup = none → r.requires = [] →
    ∀ g ∈ doc.guards, r.guardRef = some g.id → Template g.expr.toList

theorem mem_expanded {rs rs' : List ReactionDecl} (related : List.Forall₂ Expanded rs rs')
    {r' : ReactionDecl} (member : r' ∈ rs') : ∃ r ∈ rs, Expanded r r' := by
  induction related with
  | nil => cases member
  | cons first _ ih =>
      rcases List.mem_cons.mp member with rfl | later
      · exact ⟨_, List.mem_cons_self, first⟩
      · obtain ⟨r, earlier, same⟩ := ih later
        exact ⟨r, List.mem_cons_of_mem _ earlier, same⟩

/-- What is written out refers to nothing new. -/
theorem DdlDoc.Templates.expanded [RustStd] {doc out : DdlDoc} (h : doc.Templates)
    (guards : out.guards = doc.guards)
    (related : List.Forall₂ Expanded doc.everyReaction out.everyReaction) : out.Templates := by
  intro r' member group waits g declared refers
  rw [guards] at declared
  obtain ⟨r, listed, rfl | rfl⟩ := mem_expanded related member
  · exact h _ listed group waits g declared refers
  · cases refers

theorem guardTable_lookup {guards : List GuardDecl} {g : GuardDecl}
    (distinct : (guards.map GuardDecl.id).Nodup) (member : g ∈ guards) :
    (guardTable guards).lookup g.id = some g.expr := by
  obtain ⟨before, after, rfl⟩ := List.append_of_mem member
  have apart : ∀ g' ∈ after, g'.id ≠ g.id := by
    rw [List.map_append, List.map_cons] at distinct
    have own := (List.nodup_cons.mp distinct.of_append_right).1
    exact fun g' later same => own (List.mem_map.mpr ⟨g', later, same⟩)
  simp only [guardTable, List.foldl_append, List.foldl_cons]
  rw [lookup_append _ apart]
  exact AList.lookup_insert _

section

variable {map : HashMap String} {raw raw' : RawReaction} {r : ReactionDecl}

theorem resolveReaction_alone (h : resolveReaction map raw = .ok r) :
    r.joinGroup = raw.joinGroup ∧ r.requires = raw.requires := by
  obtain ⟨_, _, h⟩ := bind_ok h
  cases h
  exact ⟨rfl, rfl⟩

theorem resolveReaction_named {id : String} (h : resolveReaction map raw = .ok r)
    (named : raw.guard = some (.ref id)) : ∃ expr, map.lookup id = some expr ∧
      r.guardRef = some id ∧ resolveReaction map { raw with guard := some (.lit expr) } =
        .ok { r with guardRef := none } := by
  rw [resolveReaction, named] at h
  dsimp only at h
  cases found : map.lookup id with
  | none =>
      rw [found] at h
      cases h
  | some expr =>
      rw [found] at h
      cases h
      exact ⟨expr, rfl, rfl, rfl⟩

theorem resolveReaction_replaced {guards : List GuardDecl} {g : GuardDecl}
    (distinct : (guards.map GuardDecl.id).Nodup) (member : g ∈ guards)
    (replaced : Replaced g.id g.expr.toList raw raw')
    (h : resolveReaction (guardTable guards) raw = .ok r) :
    ∃ r', resolveReaction (guardTable guards) raw' = .ok r' ∧ Expanded r r' := by
  obtain rfl | ⟨named, rfl⟩ := replaced
  · exact ⟨r, h, .inl rfl⟩
  · obtain ⟨expr, found, _, resolved⟩ := resolveReaction_named h named
    rw [guardTable_lookup distinct member] at found
    cases found
    rw [String.ofList_toList]
    exact ⟨_, resolved, .inr rfl⟩

theorem finishDoc_mem {final : DocState} {out : DdlDoc} (h : finishDoc final = .ok out)
    (member : raw ∈ final.everyReaction) :
    ∃ r ∈ out.everyReaction, resolveReaction (guardTable final.guards) raw = .ok r := by
  obtain ⟨_, resolved, built, _⟩ := finishDoc_iff.mp h
  rcases List.mem_append.mp member with top | inside
  · obtain ⟨r, listed, same⟩ := mapM_mem resolved raw top
    exact ⟨r, List.mem_append_left _ listed, same⟩
  · obtain ⟨c, declared, inside⟩ := List.mem_flatMap.mp inside
    obtain ⟨c', listed, made⟩ := mapM_mem built c declared
    obtain ⟨reactions, resolved, made⟩ := bind_ok made
    cases made
    obtain ⟨r, own, same⟩ := mapM_mem resolved raw inside
    exact ⟨r, List.mem_append_right _ (List.mem_flatMap.mpr ⟨_, listed, own⟩), same⟩

end

/-! ## One step -/

section

variable [RustStd] {src src' : List Char} {all : List Token} {ts ws : Tokens Token} {id : String}

/-- A token stands in the source. -/
theorem token_stands (lexed : tokenizeChars .start src = .ok all) (inside : ts.toList <:+ all)
    (visible : ts.current.kind ≠ .eof) : ts.toList = ts.current :: ts.advance.toList ∧
      ∃ front text back, src = front ++ (text ++ back) ∧ ts.current.Stands front text back := by
  have next : ts.toList = ts.current :: ts.advance.toList :=
    congrArg (ts.current :: ·) (Tokens.rest_eq ((ends_inside lexed inside).more visible))
  obtain ⟨whole, stop, lexes, rfl⟩ := lexes_of_tokenize lexed
  obtain ⟨passed, split⟩ := inside
  have around : whole ++ [stop.eof] = (passed ++ [ts.current]) ++ ts.advance.toList := by
    rw [← split, next, List.append_assoc]
    rfl
  obtain ⟨more, rfl⟩ := Tokens.split_last around
  rw [List.append_assoc, List.singleton_append] at lexes
  obtain ⟨front, text, back, rfl, stands, _⟩ := (lexes.placed (Cursor.behind_start src)).split
  exact ⟨next, front, text, back, rfl, stands⟩

/-- The name of a reference is a text of the source. -/
theorem RefersAt.occupies (lexed : tokenizeChars .start src = .ok all) (inside : ts.toList <:+ all)
    (h : RefersAt src id ts ws) : ∃ front back, src = front ++ (id.toList ++ back) ∧
      Occupies front id.toList ws.advance ws.advance.advance := by
  have within := h.suffix
  obtain ⟨_, _, vs, _, _, captured, _⟩ := h
  obtain ⟨_, _, ⟨_, ident⟩, _, cut, sliced, rfl⟩ := yields_reference captured
  obtain ⟨next, front, text, back, rfl, stands⟩ :=
    token_stands lexed (ws.advance_suffix.trans (within.trans inside)) (by simp [ident])
  obtain ⟨_, _, _, read⟩ := stands.read
  have solid : Solid text := (nextLexeme_solid read).1
  rw [stands.start, stands.len, slice_append] at sliced
  cases sliced
  rw [trim_solid solid, String.toList_ofList]
  refine ⟨front, back, rfl, [], ws.advance.current, next, stands.start.symm, ?_⟩
  rw [byteLen_append, stands.start, stands.len]

theorem ReferenceAt.occupies (h : ReferenceAt src id ws) : ∃ front back,
    src = front ++ (id.toList ++ back) ∧
      Occupies front id.toList ws.advance ws.advance.advance := by
  cases h with
  | top lexed swept refers => exact refers.occupies lexed (Sweep.suffix swept)
  | @inside _ _ _ ts ts₁ ts₂ _ _ _ lexed swept opening passed refers =>
      have inner : ts₂.toList <:+ ts₁.toList := Runs.suffix passed (componentStep_advances _)
      exact refers.occupies lexed
        ((inner.trans (componentHead_consumes _ opening)).trans (Sweep.suffix swept))

/-- The number of references in a source that is read. -/
def Counts (src : List Char) (n : Nat) : Prop :=
  ∃ t tl final stop, tokenizeChars .start src = .ok (t :: tl) ∧
    Sweep src ({}, ⟨t, tl⟩) (final, stop) ∧ stop.current.kind = .eof ∧ final.references = n

theorem Counts.unique {n m : Nat} (h : Counts src n) (h' : Counts src m) : n = m := by
  obtain ⟨t, tl, final, stop, lexed, whole, finish, rfl⟩ := h
  obtain ⟨_, _, final', stop', lexed', whole', finish', rfl⟩ := h'
  cases lexed.symm.trans lexed'
  obtain same | ⟨_, turn, _⟩ := (Sweep.rest whole whole' finish').cases_head
  · cases same
    rfl
  · exact absurd finish (parseBlock_inl.mp turn).first

/-- Where none is left, there is nothing to replace. -/
theorem not_inlined {guards : List GuardDecl} (counts : Counts src 0) :
    ¬ Inlined guards src src' := by
  rintro ⟨front, back, ws, g, member, rfl, _, reference, _⟩
  obtain ⟨t, tl, final, stop, lexed, whole, finish, total⟩ := counts
  obtain ⟨raw, listed, alone, named⟩ := reference.declared lexed whole finish
  have positive := refers_iff.mpr ⟨raw, listed, alone, _, named⟩
  omega

variable [SerdeJson] {schema : TopologySchema} {doc : DdlDoc}

/-- A document with one reference less compiles to the same schema. -/
theorem Inlined.compileFull (compiled : Ddl.compileFull (String.ofList src) = .ok (schema, doc))
    (templates : doc.Templates) {n : Nat} (counts : Counts src n)
    (inlined : Inlined doc.guards src src') :
    ∃ doc', Ddl.compileFull (String.ofList src') = .ok (schema, doc') ∧ doc'.guards = doc.guards ∧
      doc'.Templates ∧ ∃ m < n, Counts src' m := by
  obtain ⟨tokens, lowered, lexed, parsed, emitted, expanded⟩ := compileFull_ok_iff.mp compiled
  obtain ⟨t, tl, final, stop, rfl, whole, finish, finished⟩ := (parse_iff_sweep lexed).mp parsed
  rw [tokenize, String.toList_ofList] at lexed
  rw [String.toList_ofList] at whole
  obtain rfl := counts.unique ⟨t, tl, final, stop, lexed, whole, finish, rfl⟩
  obtain ⟨front, back, ws, g, member, rfl, rfl, reference, place⟩ := inlined
  have guards : doc.guards = final.guards := (finishDoc_iff.mp finished).2.2.2.2.1
  rw [guards] at member
  -- the text of the guard
  obtain ⟨raw, listed, alone, named⟩ := reference.declared lexed whole finish
  obtain ⟨r, listed, resolved⟩ := finishDoc_mem finished listed
  obtain ⟨_, _, refers, _⟩ := resolveReaction_named resolved named
  obtain ⟨group, waits⟩ := resolveReaction_alone resolved
  have template := templates r listed (group.trans alone.1) (waits.trans alone.2) g
    (guards ▸ member) refers
  obtain ⟨kinds, legible⟩ : ∃ kinds, Legible g.expr.toList kinds := by
    obtain absent | ⟨_, ts, us, swept, read⟩ := Sweep.guard whole member
    · cases absent
    · have accepted := template.accepted
      rw [String.ofList_toList] at accepted
      exact legible_guard lexed (Sweep.suffix swept) read accepted
  obtain ⟨t', tl', final', stop', lexed', whole', finish', like, fewer⟩ :=
    sweep_inlined lexed whole finish reference place template legible
  -- the documents
  have same : final'.guards = final.guards := by
    obtain ⟨before, after, split, split'⟩ := like.guards
    rw [split, split', List.nil_append]
  have distinct : (final.guards.map GuardDecl.id).Nodup := Sweep.guards_nodup whole rfl
  obtain ⟨out, finished', alike⟩ := @finishDoc_like _ Expanded _ _ _ _ like finished (by
    intro raw raw' r replaced _ resolved
    rw [same]
    exact resolveReaction_replaced distinct member replaced resolved)
  have guards' : out.guards = doc.guards := by
    obtain ⟨before, after, split, split'⟩ := alike.guards
    rw [split, split', List.nil_append]
  refine ⟨out, compileFull_ok_iff.mpr ⟨t' :: tl', lowered, ?_, ?_, ?_, expanded⟩, guards', ?_,
    final'.references, fewer, t', tl', final', stop', lexed', whole', finish', rfl⟩
  · rwa [tokenize, String.toList_ofList]
  · refine (parse_iff_sweep ?_).mpr ⟨t', tl', final', stop', rfl, ?_, finish', finished'⟩
    · rwa [tokenize, String.toList_ofList]
    · rwa [String.toList_ofList]
  · rw [← emitted]
    exact emit_like (alike.mono fun _ _ same => same.agrees)
  · exact templates.expanded guards' alike.everyReaction

/-! ## All steps -/

/-- Where references are left, one can be replaced. -/
theorem exists_inlined (compiled : Ddl.compileFull (String.ofList src) =
    .ok (schema, doc)) {n : Nat}
    (counts : Counts src n) (some : 0 < n) : ∃ src', Inlined doc.guards src src' := by
  obtain ⟨tokens, lowered, lexed, parsed, _⟩ := compileFull_ok_iff.mp compiled
  obtain ⟨t, tl, final, stop, rfl, whole, finish, finished⟩ := (parse_iff_sweep lexed).mp parsed
  rw [tokenize, String.toList_ofList] at lexed
  rw [String.toList_ofList] at whole
  obtain rfl := counts.unique ⟨t, tl, final, stop, lexed, whole, finish, rfl⟩
  obtain ⟨raw, listed, alone, id, named⟩ := refers_iff.mp some
  obtain ⟨ws, reference⟩ := exists_reference lexed whole listed alone named
  obtain ⟨r, _, resolved⟩ := finishDoc_mem finished listed
  obtain ⟨_, found, _, _⟩ := resolveReaction_named resolved named
  obtain ⟨g, member, rfl⟩ := guardTable_declared found
  have guards : doc.guards = final.guards := (finishDoc_iff.mp finished).2.2.2.2.1
  obtain ⟨front, back, rfl, place⟩ := reference.occupies
  exact ⟨front ++ (g.expr.toList ++ back), front, back, ws, g, guards ▸
    member, rfl, rfl, reference, place⟩

/-- What holds of a document while its references are replaced. -/
structure Inlining (guards : List GuardDecl) (schema : TopologySchema)
    (src : List Char) : Prop where
  compiled : ∃ doc, Ddl.compileFull (String.ofList src) = .ok (schema, doc) ∧
    doc.guards = guards ∧ doc.Templates
  counts : ∃ n, Counts src n

theorem Inlining.start (compiled : Ddl.compileFull (String.ofList src) = .ok (schema, doc))
    (templates : doc.Templates) : Inlining doc.guards schema src := by
  obtain ⟨tokens, lowered, lexed, parsed, _⟩ := compileFull_ok_iff.mp compiled
  obtain ⟨t, tl, final, stop, rfl, whole, finish, _⟩ := (parse_iff_sweep lexed).mp parsed
  rw [tokenize, String.toList_ofList] at lexed
  rw [String.toList_ofList] at whole
  exact ⟨⟨doc, compiled, rfl, templates⟩, _, t, tl, final, stop, lexed, whole, finish, rfl⟩

variable {guards : List GuardDecl}

/-- One step keeps it, and leaves fewer references. -/
theorem Inlining.step (h : Inlining guards schema src) (inlined : Inlined guards src src') :
    Inlining guards schema src' ∧ ∀ n, Counts src n → ∃ m < n, Counts src' m := by
  obtain ⟨⟨doc, compiled, rfl, templates⟩, n, counts⟩ := h
  obtain ⟨doc', compiled', guards', templates', m, fewer, counts'⟩ :=
    inlined.compileFull compiled templates counts
  refine ⟨⟨⟨doc', compiled', guards', templates'⟩, m, counts'⟩, fun k counted => ?_⟩
  rw [← counts.unique counted]
  exact ⟨m, fewer, counts'⟩

/-- So do any number of them. -/
theorem Inlining.steps (h : Inlining guards schema src)
    (inlined : ReflTransGen (Inlined guards) src src') :
    Inlining guards schema src' := by
  induction inlined with
  | refl => exact h
  | tail _ last ih => exact (ih.step last).1

/-- They end in a document that has no reference left. -/
theorem Inlining.finish (h : Inlining guards schema src) :
    ∃ src', ReflTransGen (Inlined guards) src src' ∧ ∀ more, ¬ Inlined guards src' more := by
  obtain ⟨n, counts⟩ := h.counts
  induction n using Nat.strong_induction_on generalizing src with
  | h n ih =>
      obtain rfl | some := Nat.eq_zero_or_pos n
      · exact ⟨src, .refl, fun _ => not_inlined counts⟩
      · obtain ⟨⟨doc, compiled, rfl, _⟩, _⟩ := id h
        obtain ⟨src₁, first⟩ := exists_inlined compiled counts some
        obtain ⟨next, falls⟩ := h.step first
        obtain ⟨m, fewer, counts₁⟩ := falls n counts
        obtain ⟨src', later, done⟩ := ih m fewer next counts₁
        exact ⟨src', .head first later, done⟩

/-- The document with every reference replaced: any number of them can be, up to all, and it
compiles to the same schema. -/
structure InliningExact (src : List Char) (schema : TopologySchema) (doc : DdlDoc) : Prop where
  replaceable : ∃ src', ReflTransGen (Inlined doc.guards) src src' ∧
    ∀ more, ¬ Inlined doc.guards src' more
  same : ∀ src', ReflTransGen (Inlined doc.guards) src src' →
    compile (String.ofList src') = .ok schema

/-- References to guards are the texts of the guards. -/
theorem references_inlined (compiled : Ddl.compileFull (String.ofList src) = .ok (schema, doc))
    (templates : doc.Templates) : InliningExact src schema doc := by
  have start := Inlining.start compiled templates
  refine ⟨start.finish, fun src' inlined => ?_⟩
  obtain ⟨⟨doc', compiled', _⟩, _⟩ := start.steps inlined
  rw [compile, compiled']
  rfl

end

/-! ## A tray in a box -/

theorem template_of_kinds [RustStd] {text : String} {cs : List Char} {kinds : List TokenKind}
    (chars : String.ofList cs = text) (accepted : Guard.Accepts (String.ofList cs))
    (read : kindsOf cs = some kinds)
    (whole : ∀ kind ∈ kinds, kind.endsGuard = false) (compound : kinds.length ≠ 1) :
    Template text.toList := by
  rw [← chars, String.toList_ofList]
  refine ⟨accepted, fun kinds' read' => ?_, fun ⟨name, single⟩ => ?_⟩
  · cases read.symm.trans read'
    exact whole
  · cases read.symm.trans single
    exact compound rfl

/-- A guard declared before its uses and one declared behind them, used at the top level and
in a component. -/
def boxSource : String :=
  "guard hot \x7b payload > 1 \x7d " ++
    ("reaction \x7b when heat enters low -> heat go when hot \x7d " ++
      ("reaction \x7b when heat enters low -> heat go when cold \x7d " ++
        ("component tray \x7b signal heat \x7b states: [low] initial: low \x7d " ++
          ("reaction \x7b when heat enters low -> heat go when cold \x7d \x7d " ++
            "guard cold \x7b payload == 0 \x7d"))))

/-- The outcome of `compileFull` is a document with these guards and these references to them. -/
def declares (guards : List (String × String)) (references : List (Option String)) :
    Except (Failure EngineError) (TopologySchema × DdlDoc) → Bool
  | .ok (_, doc) => doc.guards.map (fun g => (g.id, g.expr)) == guards &&
      doc.everyReaction.map (·.guardRef) == references
  | .error _ => false

theorem declares_ok {guards : List (String × String)} {references : List (Option String)}
    {outcome : Except (Failure EngineError) (TopologySchema × DdlDoc)}
    (checked : declares guards references outcome = true) :
    ∃ schema doc, outcome = .ok (schema, doc) ∧ doc.guards.map (fun g => (g.id, g.expr)) = guards ∧
      doc.everyReaction.map (·.guardRef) = references := by
  cases outcome with
  | error e => cases checked
  | ok result =>
      obtain ⟨schema, doc⟩ := result
      simp only [declares, Bool.and_eq_true, beq_iff_eq] at checked
      exact ⟨schema, doc, rfl, checked⟩

theorem boxSource_inlined : ∃ schema doc,
    @Ddl.compileFull .keywords .ascii boxSource = .ok (schema, doc) ∧
      doc.everyReaction.map (·.guardRef) = [some "hot", some "cold", some "cold"] ∧
      @InliningExact .ascii .keywords boxSource.toList schema doc := by
  obtain ⟨schema, doc, compiled, guards, references⟩ :=
    @declares_ok [("hot", "payload > 1"), ("cold", "payload == 0")] [some "hot",
      some "cold", some "cold"] _
      (@compileFull_check .keywords .ascii boxSource _ _
        (chars_append rfl
          (chars_append rfl (chars_append rfl (chars_append rfl (chars_append rfl rfl)))))
        (by decide +kernel))
  refine ⟨schema, doc, compiled, references,
    @references_inlined .ascii boxSource.toList .keywords schema doc ?_ ?_⟩
  · rwa [String.ofList_toList]
  · intro r _ _ _ g declared _
    have listed : (g.id, g.expr) ∈ doc.guards.map (fun g => (g.id, g.expr)) :=
      List.mem_map_of_mem declared
    rw [guards] at listed
    rcases List.mem_cons.mp listed with hot | listed
    · have expr : g.expr = "payload > 1" := congrArg Prod.snd hot
      rw [expr]
      exact @template_of_kinds .ascii _ _ [.identifier "payload", .gt, .integer 1] rfl
        (by decide +kernel)
        (by decide +kernel) (by decide) (by decide)
    · have expr : g.expr = "payload == 0" := congrArg Prod.snd (List.mem_singleton.mp listed)
      rw [expr]
      exact @template_of_kinds .ascii _ _ [.identifier "payload", .eq, .integer 0] rfl
        (by decide +kernel)
        (by decide +kernel) (by decide) (by decide)

end SignalTopology.Ddl
