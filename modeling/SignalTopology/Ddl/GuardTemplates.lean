import Mathlib.Algebra.GroupWithZero.Nat
import SignalTopology.Ddl.Inlining

/-!
# Guard templates

A reaction in a block of its own may refer to a guard of the document. Whether the block
stands at the top level or in a component, the text of the guard can be written in the
place of its name: the parser reads the same blocks, and one reaction has a text for its
guard instead of a name.
-/

namespace SignalTopology.Ddl

open TokenParser

section

/-! ## In front of the edit -/

variable {before rest rest' : List Token} {ts ts' us us' : Tokens Token}

/-- The same place in two streams, in front of where they part. -/
def InFront (before rest rest' : List Token) (ts ts' : Tokens Token) : Prop :=
  ∃ passed left, before = passed ++ left ∧ left ≠ [] ∧ ts.toList = left ++ rest ∧
    ts'.toList = left ++ rest'

theorem InFront.current (h : InFront before rest rest' ts ts') : ts'.current = ts.current := by
  obtain ⟨passed, left, _, some_left, here, there⟩ := h
  obtain ⟨t, left, rfl⟩ := List.exists_cons_of_ne_nil some_left
  exact (List.cons.inj there).1.trans (List.cons.inj here).1.symm

theorem InFront.more (h : InFront before rest rest' ts ts') (behind : rest ≠ []) :
    ts.rest ≠ [] := by
  obtain ⟨passed, left, _, some_left, here, _⟩ := h
  obtain ⟨t, left, rfl⟩ := List.exists_cons_of_ne_nil some_left
  rw [show ts.rest = left ++ rest from (List.cons.inj here).2]
  exact List.append_ne_nil_of_right_ne_nil left behind

theorem InFront.length (h : InFront before rest rest' ts ts') : rest.length < ts.toList.length := by
  obtain ⟨passed, left, _, some_left, here, _⟩ := h
  have positive := List.length_pos_of_ne_nil some_left
  rw [here, List.length_append]
  omega

/-- A later place of one stream is found in the other. -/
theorem InFront.later (h : InFront before rest rest' ts ts') (inside : us.toList <:+ ts.toList)
    (length : rest.length < us.toList.length) : ∃ us', InFront before rest rest' us us' := by
  obtain ⟨passed, left, rfl, _, here, _⟩ := h
  obtain ⟨taken, split⟩ := inside
  rw [here] at split
  obtain ⟨more, rfl, same⟩ | ⟨more, _, same⟩ := List.append_eq_append_iff.mp split
  · have nonempty : more ≠ [] := by
      rintro rfl
      rw [same] at length
      exact absurd length (Nat.lt_irrefl _)
    obtain ⟨us', there⟩ : ∃ us' : Tokens Token, us'.toList = more ++ rest' :=
      Tokens.exists_toList (List.append_ne_nil_of_left_ne_nil nonempty rest')
    exact ⟨us', passed ++ taken, more, by simp, nonempty, same, there⟩
  · rw [same, List.length_append] at length
    omega

/-- The streams part behind the current token, if that leaves one token less in front of the
rest. -/
theorem InFront.single {named : Token} {rest : List Token}
    (h : InFront before (named :: rest) rest' ts ts')
    (split : ts.advance.advance.toList = rest) (some_there : rest' ≠ []) :
    ts'.advance.toList = rest' := by
  have more := Tokens.advance_length (h.more (List.cons_ne_nil named rest))
  have length : ts.advance.toList.length ≤ rest.length + 1 := by
    by_cases last : ts.advance.rest = []
    · rw [← split, Tokens.advance_of_last last]
      omega
    · rw [← split, Tokens.advance_length last]
  obtain ⟨passed, left, _, some_left, here, there⟩ := h
  obtain ⟨t, left, rfl⟩ := List.exists_cons_of_ne_nil some_left
  rw [here] at more
  simp only [List.length_append, List.length_cons] at more
  obtain rfl : left = [] := List.eq_nil_of_length_eq_zero (by omega)
  have behind : ts'.rest = rest' := (List.cons.inj there).2
  rw [← behind, Tokens.rest_eq (behind ▸ some_there)]

/-- Of two places, the later one is a border in front of which the tokens are the same. -/
theorem InFront.border {front : List Char} (h : InFront before rest rest' ts ts')
    (h' : InFront before rest rest' us us') (inside : us.toList <:+ ts.toList)
    (within : ∀ t ∈ before, t.start + t.len ≤ byteLen front) (more : us.rest ≠ []) :
    (frontBorder front us us' more).Before ts ts' := by
  obtain ⟨passed, left, rfl, _, here, there⟩ := h
  obtain ⟨_, left', _, _, here', there'⟩ := h'
  obtain ⟨taken, split⟩ := inside
  have whole : left = taken ++ left' := by
    apply @List.append_cancel_right _ _ rest _
    rw [← here, ← split, here', List.append_assoc]
  refine ⟨taken, taken, split.symm, ?_, List.forall₂_same.mpr fun t member => ⟨rfl, within t ?_⟩⟩
  · show ts'.toList = taken ++ us'.toList
    rw [there, there', whole, List.append_assoc]
  · rw [whole]
    exact List.mem_append_right _ (List.mem_append_left _ member)

end

/-- What was read up to some place of a document. -/
def DocState.InFrontOf (doc final : DocState) : Prop :=
  doc.rawReactions <+: final.rawReactions ∧ doc.rawComponents <+: final.rawComponents

/-! ## Counting references -/

/-- A reaction with a block of its own counts if it refers to a guard. -/
def RawReaction.references (r : RawReaction) : Nat :=
  match r.guard with
  | some (.ref _) => if r.joinGroup = none ∧ r.requires = [] then 1 else 0
  | _ => 0

def ComponentDeclRaw.references (c : ComponentDeclRaw) : Nat :=
  (c.rawReactions.map RawReaction.references).sum

def DocState.references (doc : DocState) : Nat :=
  (doc.rawReactions.map RawReaction.references).sum +
    (doc.rawComponents.map ComponentDeclRaw.references).sum

section

variable {α : Type} {R : α → α → Prop} {w : α → Nat} {xs xs' ys ys' : List α}

theorem sum_le (light : ∀ a a', R a a' → w a' ≤ w a) (related : List.Forall₂ R xs xs') :
    (xs'.map w).sum ≤ (xs.map w).sum := by
  induction related with
  | nil => exact Nat.le_refl _
  | cons first _ ih =>
      have less := light _ _ first
      simp only [List.map_cons, List.sum_cons]
      omega

/-- Behind parts of one length the related list does not gain. -/
theorem sum_behind (light : ∀ a a', R a a' → w a' ≤ w a) (related : List.Forall₂ R ys ys')
    (front : xs <+: ys) (front' : xs' <+: ys') (length : xs.length = xs'.length) :
    (ys'.map w).sum + (xs.map w).sum ≤ (ys.map w).sum + (xs'.map w).sum := by
  obtain ⟨zs, rfl⟩ := front
  obtain ⟨zs', rfl⟩ := front'
  have rest := List.forall₂_drop_append _ _ _ related
  rw [← length, List.drop_left] at rest
  have less := sum_le light rest
  simp only [List.map_append, List.sum_append]
  omega

end

section

variable [RustStd]

theorem componentHead_consumes (seen : Finset String) : Consumes (componentHead seen) :=
  ((Apart.self []).componentHead (Finset.Subset.refl seen)).consumes

theorem reactionFront_consumes : Consumes reactionFront := (Apart.self []).reactionFront.consumes

/-- The rest of a component behind some of its declarations. -/
theorem component_rest {src : List Char} {id : String} {params : List String} {seen : Finset String}
    {ts ts₁ ts₂ us : Tokens Token} {body : BodyState} {c : ComponentDeclRaw} (ends : Ends ts)
    (opening : Yields (componentHead seen) ts (id, params) ts₁)
    (passed : BodySweep src id ({}, ts₁) (body, ts₂))
    (whole : Yields (parseComponent src seen) ts c us) :
    ∃ final ts₃, BodySweep src id (body, ts₂) (final, ts₃) ∧ ts₃.current.kind = .rBrace ∧
      us = ts₃.advance ∧ c = { id, params, ports := final.ports, signals := final.signals
                               rawReactions := final.rawReactions } := by
  obtain ⟨_, final, ts₃, opening', swept, closing, taken, shape⟩ :=
    (yields_parseComponent ends).mp whole
  obtain ⟨same, rfl⟩ := Yields.unique opening opening'
  obtain ⟨rfl, rfl⟩ := Prod.mk.inj same
  refine ⟨final, ts₃, Runs.rest passed swept fun _ _ other => ?_, closing, taken, shape⟩
  have declared := componentStep_inl.mp other
  cases declared with
  | port read | signal read | reaction read =>
      have first := expect_first read
      rw [closing] at first
      cases first

variable {front mid mid' back : List Char} {before toks toks' after after' : List Token}
variable {last last' : Token} {ts ts' us us' : Tokens Token}

/-- The same place of both sources, in front of the edit. -/
abbrev Edit.InFront (_ : Edit front mid mid' back before toks toks' after after' last last')
    (ts ts' : Tokens Token) : Prop :=
  Ddl.InFront before (toks ++ (after ++ [last])) (toks' ++ (after' ++ [last'])) ts ts'

omit [RustStd] in
theorem tail_ne_nil : toks ++ (after ++ [last]) ≠ [] := by simp

/-- What is read in front of the edit is read in the other source. -/
theorem Edit.along {α : Type}
    (e : Edit front mid mid' back before toks toks' after after' last last')
    (h : e.InFront ts ts') (h' : e.InFront us us') {p p' : Parse α} {a : α}
    (follows : ∀ more, Follows (frontBorder front us us' more) Eq p p') (read : Yields p ts a us) :
    Yields p' ts' a us' := by
  have more := h'.more tail_ne_nil
  have inside := (follows more).consumes read
  obtain ⟨a', us'', read', rfl, reached⟩ :=
    (follows more).along (h.border h' inside e.within more) read (List.suffix_refl _)
  obtain rfl := reached.at_border
  exact read'

theorem Edit.parallel_front (_ : Edit front mid mid' back before toks toks' after after' last last')
    (h : Ddl.InFront before (toks ++ (after ++ [last])) (toks' ++ (after' ++ [last'])) us us')
    (more : us.rest ≠ []) :
    Parallel (front ++ (mid ++ back)) (front ++ (mid' ++ back)) (frontBorder front us us' more) :=
  frontBorder_parallel more (by rw [h.current]; exact .refl _)

/-- In front of a token that starts no clause the sources are apart. -/
theorem Edit.apart_front (e : Edit front mid mid' back before toks toks' after after' last last')
    (h : e.InFront us us') (head : us.current.kind.isHead = false ∧ us.current.kind ≠ .when)
    (more : us.rest ≠ []) :
    Apart (front ++ (mid ++ back)) (front ++ (mid' ++ back)) (frontBorder front us us' more) :=
  { e.parallel_front h more with head }

/-! ## The reaction at the edit -/

theorem Edit.border_kind (e : Edit front mid mid' back before toks toks' after after' last last')
    (h : e.border.Before ts ts') : ts'.current.kind = ts.current.kind := by
  obtain related | ⟨here, there⟩ := h.peeked
  · exact related.1
  · rw [here, there]
    exact e.ends

/-- The border at the end is never passed. -/
theorem Edit.kept (_ : Edit front mid mid' back before toks toks' after after' last last')
    (inside : us.toList <:+ after ++ [last]) :
    (⟨last, []⟩ : Tokens Token).toList <:+ us.toList := by
  obtain ⟨taken, split⟩ := inside
  obtain ⟨rest, rfl⟩ := Tokens.split_last split.symm
  exact ⟨rest, (List.append_cancel_left (split.trans (List.append_assoc _ _ _))).symm⟩

/-- The reaction that refers to a guard holds the text in the other source. -/
theorem Edit.reaction {name text : List Char} {named : Token} {kinds : List TokenKind}
    {ws ws' : Tokens Token}
    {head : String × String × String × String} {tail : Option String × Option String}
    (e : Edit front name text back before [named] toks after after' last last')
    (h : e.InFront ts ts') (place : e.InFront ws ws') (opening : Yields reactionFront ts head ws)
    (keyword : ws.current.kind = .when) (split : ws.advance.advance.toList = after ++ [last])
    (finish : ws.advance.advance.current.kind.endsGuard = true)
    (closing : Yields (reactionBack (front ++ (name ++ back))) ws.advance.advance tail us)
    (template : Template text) (legible : Legible text kinds) (same : toks.map Token.kind = kinds)
    (covers : Covers toks (byteLen front) (byteLen (front ++ text))) :
    ∃ us', Yields (parseReactionRaw (front ++ (text ++ back))) ts'
        (rawReaction head (some (.lit (String.ofList text))) tail) us' ∧
          e.border.Before us us' := by
  have opening' : Yields reactionFront ts' head ws' :=
    e.along h place (fun more => (e.parallel_front place more).reactionFront.toFollows) opening
  obtain ⟨vs', behind⟩ : ∃ vs' : Tokens Token, vs'.toList = after' ++ [last'] :=
    Tokens.exists_toList (by simp)
  have along : e.border.Before ws.advance.advance vs' := ⟨after, after', split, behind, e.behind⟩
  have split' : ws'.advance.toList = toks ++ vs'.toList := by
    rw [behind]
    exact place.single split tail_ne_nil
  have keyword' : ws'.current.kind = .when := by rw [place.current, keyword]
  have stream : Ends ws'.advance := by
    refine ends_inside e.lexed' ⟨before, ?_⟩
    rw [split', behind]
  have captured : Yields (parseReactionGuard (front ++ (text ++ back))) ws' _ vs' :=
    template.yields legible keyword' split' same covers (by rw [e.border_kind along, finish]) stream
  have inside := e.apart.reactionBack.consumes closing
  rw [split] at inside
  obtain ⟨_, us', closing', rfl, reached⟩ :=
    e.apart.reactionBack.along along closing (e.kept inside)
  exact ⟨us', yields_parseReactionRaw.mpr ⟨head, _, _, ws', vs', opening',
    captured, closing', rfl⟩, reached⟩

/-! ## The blocks around the edit -/

variable {R : RawReaction → RawReaction → Prop} (refl : ∀ r, R r r)

section

omit [RustStd] refl

variable (light : ∀ r r', R r r' → r'.references ≤ r.references)

include light

theorem ComponentDeclRaw.Like.references {c c' : ComponentDeclRaw} (like : c.Like R c') :
    c'.references ≤ c.references :=
  sum_le light like.reactions

/-- A component with a reference less. -/
theorem ComponentDeclRaw.Like.fewer {c c' : ComponentDeclRaw} {rs rs' : List RawReaction}
    {raw raw' : RawReaction} (like : c.Like R c') (related : List.Forall₂ R rs rs')
    (here : rs ++ [raw] <+: c.rawReactions) (there : rs' ++ [raw'] <+: c'.rawReactions)
    (fewer : raw'.references < raw.references) : c'.references < c.references := by
  have length : (rs ++ [raw]).length = (rs' ++ [raw']).length := by
    rw [List.length_append, List.length_append, related.length_eq]
    rfl
  have less := sum_le light related
  have held := sum_behind light like.reactions here there length
  simp only [List.map_append, List.sum_append, List.map_singleton, List.sum_singleton] at held
  simp only [ComponentDeclRaw.references]
  omega

/-- A document that has a reference less from some place on. -/
theorem DocState.Like.fewer {next next' final final' : DocState} {gone gone' : List GuardDecl}
    (like : next.Like R gone next') (alike : final.Like R gone' final')
    (here : next.InFrontOf final)
    (there : next'.InFrontOf final') (fewer : next'.references < next.references) :
    final'.references < final.references := by
  have reactions := sum_behind light alike.reactions here.1 there.1 like.reactions.length_eq
  have components :=
    sum_behind (w := ComponentDeclRaw.references) (fun _ _ same => same.references light)
    alike.components here.2 there.2 like.components.length_eq
  simp only [DocState.references] at reactions components fewer ⊢
  omega

end

include refl

/-- The blocks in front of the edit are read alike. -/
theorem Edit.sweep_to (e : Edit front mid mid' back before toks toks' after after' last last')
    (h : e.InFront ts ts') (h' : e.InFront us us')
    (head : us.current.kind.isHead = false ∧ us.current.kind ≠ .when) {doc : DocState}
    (swept : Sweep (front ++ (mid ++ back)) ({}, ts) (doc, us)) :
    ∃ doc', Sweep (front ++ (mid' ++ back)) ({}, ts') (doc', us') ∧ doc.Like R [] doc' := by
  have more := h'.more tail_ne_nil
  obtain ⟨doc', vs, swept', like, reached⟩ :=
    Sweep.along refl (e.apart_front h' head more) (.refl refl _)
    swept (h.border h' (Sweep.suffix swept) e.within more) (List.suffix_refl _)
  obtain rfl := reached.at_border
  exact ⟨doc', swept', like⟩

/-- A component is read alike, if the reaction at the edit is. -/
theorem Edit.component (e : Edit front mid mid' back before toks toks' after after' last last')
    {id : String} {params : List String} {seen : Finset String} {ts₁ ts₂ ts₂' vs vs' : Tokens Token}
    {body : BodyState} {raw raw' : RawReaction} {c : ComponentDeclRaw}
    (h : e.InFront ts ts') (h' : e.InFront ts₂ ts₂') (ends : Ends ts) (ends' : Ends ts')
    (opening : Yields (componentHead seen) ts (id, params) ts₁)
    (passed : BodySweep (front ++ (mid ++ back)) id ({}, ts₁) (body, ts₂))
    (read : Yields (parseReactionRaw (front ++ (mid ++ back))) ts₂ raw vs)
    (read' : Yields (parseReactionRaw (front ++ (mid' ++ back))) ts₂' raw' vs')
    (related : R raw raw') (along : e.border.Before vs vs') (inside : vs.toList <:+ after ++ [last])
    (whole : Yields (parseComponent (front ++ (mid ++ back)) seen) ts c us) :
    ∃ c' us', Yields (parseComponent (front ++ (mid' ++ back)) seen) ts' c' us' ∧ c.Like R c' ∧
      (∃ rs rs', List.Forall₂ R rs rs' ∧ rs ++ [raw] <+: c.rawReactions ∧
        rs' ++ [raw'] <+: c'.rawReactions) ∧
      e.border.Before us us' ∧ us.toList <:+ after ++ [last] := by
  have more := h'.more tail_ne_nil
  have keyword : ts₂.current.kind = .reaction := expect_first read
  have apart := e.apart_front h' (by simp [keyword, TokenKind.isHead]) more
  -- the declarations behind the reaction
  obtain ⟨final, ts₃, rest, closing, rfl, rfl⟩ := component_rest ends opening
    (passed.tail (b := (body, ts₂)) (componentStep_inl.mpr (.reaction read))) whole
  have opened := componentHead_consumes seen opening
  have within : ts₂.toList <:+ ts₁.toList := Runs.suffix passed (componentStep_advances id)
  obtain ⟨ts₁', h₁⟩ := h.later opened (Nat.lt_of_lt_of_le h'.length within.length_le)
  have opening' : Yields (componentHead seen) ts' (id, params) ts₁' :=
    e.along h h₁ (fun more =>
      ((e.parallel_front h₁ more).componentHead (Finset.Subset.refl seen)).toFollows) opening
  obtain ⟨body', us₂, passed', like, reached⟩ := BodySweep.along refl apart
    ⟨rfl, rfl, List.forall₂_same.mpr fun r _ => refl r, rfl⟩ passed
    (h₁.border h' within e.within more) (List.suffix_refl _)
  obtain rfl := reached.at_border
  have turn' : BodySweep _ id ({}, ts₁')
      ({ body' with rawReactions := body'.rawReactions ++ [raw'] }, vs') :=
    passed'.tail (b := (body', _)) (componentStep_inl.mpr (.reaction read'))
  have longer : BodyState.Like R { body with rawReactions := body.rawReactions ++ [raw] }
      { body' with rawReactions := body'.rawReactions ++ [raw'] } :=
    { like with reactions := List.rel_append like.reactions (.cons related .nil) }
  have left := (Runs.suffix rest (componentStep_advances id)).trans inside
  obtain ⟨final', ts₃', rest', like', reached⟩ :=
    BodySweep.along refl e.apart longer rest along (e.kept left)
  have taken := ts₃.advance_suffix.trans left
  have behind := (reached.advance (e.kept taken)).2
  refine ⟨{ id := id, params := params, ports := final'.ports, signals := final'.signals
            rawReactions := final'.rawReactions }, ts₃'.advance, ?_, ?_, ?_, behind, taken⟩
  · refine (yields_parseComponent ends').mpr ⟨ts₁', final', ts₃', opening',
      turn'.trans rest', ?_, rfl, rfl⟩
    rw [e.border_kind reached, closing]
  · exact ⟨rfl, rfl, like'.ports, like'.signals, like'.reactions⟩
  · exact ⟨_, _, like.reactions, BodySweep.grows rest, BodySweep.grows rest'⟩

/-- The documents are alike, if the blocks at the edit are. -/
theorem Edit.document (e : Edit front mid mid' back before toks toks' after after' last last')
    {t t' stop : Tokens Token} {doc final : DocState} {P : DocState → DocState → Prop}
    (start : e.InFront t t') (h : e.InFront ts ts')
    (head : ts.current.kind.isHead = false ∧ ts.current.kind ≠ .when)
    (swept : Sweep (front ++ (mid ++ back)) ({}, t) (doc, ts))
    (whole : Sweep (front ++ (mid ++ back)) ({}, t) (final, stop))
    (finish : stop.current.kind = .eof) (block : ∀ doc', doc.Like R [] doc' → ∃ next next' us us',
      BlockRead (front ++ (mid ++ back)) doc ts us next ∧
      BlockRead (front ++ (mid' ++ back)) doc' ts' us' next' ∧ next.Like R [] next' ∧ P next next' ∧
      e.border.Before us us' ∧ us.toList <:+ after ++ [last]) :
    ∃ final' stop', Sweep (front ++ (mid' ++ back)) ({}, t') (final', stop') ∧
      stop'.current.kind = .eof ∧ final.Like R [] final' ∧
      ∃ next next', P next next' ∧ next.Like R [] next' ∧ next.InFrontOf final ∧
        next'.InFrontOf final' := by
  obtain ⟨doc', swept', like⟩ := e.sweep_to refl start h head swept
  obtain ⟨next, next', us, us', read, read', like', own, along, inside⟩ := block doc' like
  have rest := Sweep.rest (swept.block read) whole finish
  obtain ⟨final', stop', rest', finish', alike⟩ := e.sweep_back refl like' along inside rest finish
  exact ⟨final', stop', (swept'.block read').trans rest', finish', alike, next, next', own, like',
    Sweep.grows rest, Sweep.grows rest'⟩

end

/-! ## References -/

section

variable [RustStd] {src : List Char} {id : String} {ts ws : Tokens Token}

/-- The reaction block at `ts` refers to the guard `id`, by a name behind the `when` at `ws`. -/
def RefersAt (src : List Char) (id : String) (ts ws : Tokens Token) : Prop :=
  ∃ head tail vs us, Yields reactionFront ts head ws ∧
    Yields (parseReactionGuard src) ws (some (.ref id)) vs ∧ Yields (reactionBack src) vs tail us

/-- The parser comes to such a block, at the top level or in a component. -/
inductive ReferenceAt (src : List Char) (id : String) (ws : Tokens Token) : Prop
  | top {t : Token} {tl : List Token} {doc : DocState} {ts : Tokens Token}
      (lexed : tokenizeChars .start src = .ok (t :: tl)) (swept : Sweep src ({}, ⟨t, tl⟩) (doc, ts))
      (refers : RefersAt src id ts ws)
  | inside {t : Token} {tl : List Token} {doc : DocState} {ts ts₁ ts₂ : Tokens Token}
      {name : String}
      {params : List String} {body : BodyState}
      (lexed : tokenizeChars .start src = .ok (t :: tl)) (swept : Sweep src ({}, ⟨t, tl⟩) (doc, ts))
      (opening : Yields (componentHead doc.seenComponentIds) ts (name, params) ts₁)
      (passed : BodySweep src name ({}, ts₁) (body, ts₂)) (refers : RefersAt src id ts₂ ws)

/-- One reference is replaced by the text of its guard. -/
def Inlined (guards : List GuardDecl) (src src' : List Char) : Prop :=
  ∃ front back ws, ∃ g ∈ guards, src = front ++ (g.id.toList ++ back) ∧
    src' = front ++ (g.expr.toList ++ back) ∧ ReferenceAt src g.id ws ∧
      Occupies front g.id.toList ws.advance ws.advance.advance

/-- The reaction, or the one with the text of the guard it refers to. -/
def Replaced (id : String) (text : List Char) (r r' : RawReaction) : Prop :=
  r' = r ∨ (r.guard = some (.ref id) ∧ r' = { r with guard := some (.lit (String.ofList text)) })

theorem RefersAt.suffix (h : RefersAt src id ts ws) : ws.toList <:+ ts.toList := by
  obtain ⟨_, _, _, _, opening, _⟩ := h
  exact reactionFront_consumes opening

variable {front name text back : List Char} {t : Token} {tl : List Token} {kinds : List TokenKind}

/-- The edit at a reference, and what it makes of the reaction. -/
theorem RefersAt.edit (lexed : tokenizeChars .start (front ++ (name ++ back)) = .ok (t :: tl))
    (inside : ts.toList <:+ t :: tl) (refers : RefersAt (front ++ (name ++ back)) id ts ws)
    (place : Occupies front name ws.advance ws.advance.advance) (template : Template text)
    (legible : Legible text kinds) :
    ∃ (before toks toks' after after' : List Token) (last last' t' : Token) (tl' : List Token)
      (e : Edit front name text back before toks toks' after after' last last'),
      tokenizeChars .start (front ++ (text ++ back)) = .ok (t' :: tl') ∧
      e.InFront ⟨t, tl⟩ ⟨t', tl'⟩ ∧ (toks ++ (after ++ [last])).length < ws.toList.length ∧
      ∀ ts', e.InFront ts ts' → ∃ raw us us', raw.guard = some (.ref id) ∧ raw.references = 1 ∧
        Yields (parseReactionRaw (front ++ (name ++ back))) ts raw us ∧
        Yields (parseReactionRaw (front ++ (text ++ back))) ts'
          { raw with guard := some (.lit (String.ofList text)) } us' ∧
        e.border.Before us us' ∧ us.toList <:+ after ++ [last] := by
  have within := refers.suffix
  obtain ⟨head, tail, vs, us, opening, captured, closing⟩ := refers
  obtain ⟨keyword, rfl, ⟨_, ident⟩, finish, _⟩ := yields_reference captured
  obtain ⟨passed, toks, after, after', last, last', e, whole, split, same, covers⟩ :=
    exists_edit lexed (within.trans inside) keyword ident finish place
      (tame_of_accepts template.accepted) legible
  have stream : t :: tl = (passed ++ [ws.current]) ++ ([ws.advance.current] ++ (after ++ [last])) :=
    Except.ok.inj (lexed.symm.trans e.lexed)
  have here : ws.toList = [ws.current] ++ ([ws.advance.current] ++ (after ++ [last])) := by
    apply @List.append_cancel_left _ passed
    rw [← whole, stream, List.append_assoc]
  obtain ⟨⟨t', tl'⟩, stream'⟩ : ∃ x : Tokens Token,
      x.toList = (passed ++ [ws.current]) ++ (toks ++ (after' ++ [last'])) :=
    Tokens.exists_toList (by simp)
  have start : e.InFront ⟨t, tl⟩ ⟨t', tl'⟩ := ⟨[], _, rfl, by simp, stream, stream'⟩
  have length : ([ws.advance.current] ++ (after ++ [last])).length < ws.toList.length := by
    rw [here]
    simp
  refine ⟨_, _, _, _, _, _, _, t', tl', e, e.lexed'.trans (congrArg Except.ok stream'.symm),
    start, length, ?_⟩
  intro ts' h
  obtain ⟨ws', h'⟩ := start.later (within.trans inside) length
  obtain ⟨us', read', along⟩ :=
    e.reaction h h' opening keyword split finish closing template legible same covers
  have left := (Apart.self _).reactionBack.consumes closing
  rw [split] at left
  refine ⟨rawReaction head (some (.ref id)) tail, us, us', rfl, rfl, ?_, read', along, left⟩
  exact yields_parseReactionRaw.mpr ⟨head, _, tail, ws, _, opening, captured, closing, rfl⟩

/-- In front of a component a sweep reads it. -/
theorem Sweep.component {doc : DocState} {final : DocState × Tokens Token}
    (rest : Sweep src (doc, ts) final) (finish : final.2.current.kind = .eof)
    (keyword : ts.current.kind = .component) :
    ∃ c us, Yields (parseComponent src doc.seenComponentIds) ts c us := by
  obtain same | ⟨⟨next, us⟩, turn, _⟩ := rest.cases_head
  · rw [← same] at finish
    exact absurd (finish.symm.trans keyword) (by simp)
  · have read := parseBlock_inl.mp turn
    cases read with
    | component read => exact ⟨_, _, read⟩
    | signal read | reaction read | guard read | fork read | join read | instantiate read =>
        have first := expect_first read
        dsimp only at first
        rw [keyword] at first
        cases first

variable {final : DocState} {stop : Tokens Token}

/-- The document with the text in the place of the name. -/
theorem sweep_inlined (lexed : tokenizeChars .start (front ++ (name ++ back)) = .ok (t :: tl))
    (whole : Sweep (front ++ (name ++ back)) ({}, ⟨t, tl⟩) (final, stop))
    (finish : stop.current.kind = .eof) (reference : ReferenceAt (front ++ (name ++ back)) id ws)
    (place : Occupies front name ws.advance ws.advance.advance) (template : Template text)
    (legible : Legible text kinds) :
    ∃ t' tl' final' stop', tokenizeChars .start (front ++ (text ++ back)) = .ok (t' :: tl') ∧
      Sweep (front ++ (text ++ back)) ({}, ⟨t', tl'⟩) (final', stop') ∧ stop'.current.kind = .eof ∧
      final.Like (Replaced id text) [] final' ∧ final'.references < final.references := by
  have refl : ∀ r, Replaced id text r r := fun r => .inl rfl
  have light : ∀ r r', Replaced id text r r' → r'.references ≤ r.references := by
    rintro r r' (rfl | ⟨_, rfl⟩)
    · exact Nat.le_refl _
    · exact Nat.zero_le _
  have more : ∀ {rs rs' : List RawReaction} {raw raw' : RawReaction}, Replaced id text raw raw' →
      List.Forall₂ (Replaced id text) rs rs' →
      List.Forall₂ (Replaced id text) (rs ++ [raw]) (rs' ++ [raw']) := fun same related =>
    List.rel_append related (.cons same .nil)
  cases reference with
  | @top _ _ doc ts lexed₀ swept refers =>
      cases lexed.symm.trans lexed₀
      have inside : ts.toList <:+ t :: tl := Sweep.suffix swept
      obtain ⟨_, _, _, _, _, _, _, t', tl', e, lexed', start, length, edit⟩ :=
        refers.edit lexed inside place template legible
      obtain ⟨ts', h⟩ := start.later inside (Nat.lt_of_lt_of_le length refers.suffix.length_le)
      obtain ⟨raw, us, us', named, counted, read, read', along, left⟩ := edit ts' h
      have keyword : ts.current.kind = .reaction := expect_first read
      obtain ⟨final', stop', swept', finish', like, _, _, less, like₁, here, there⟩ := e.document
        (P := fun next next' => next'.references < next.references) refl start h
        (by simp [keyword, TokenKind.isHead]) swept whole finish fun doc' like => by
          refine ⟨_, _, us, us', .reaction read, .reaction read',
            { like with reactions := more (.inr ⟨named, rfl⟩) like.reactions }, ?_, along, left⟩
          have reactions := sum_le light like.reactions
          have components :=
            sum_le (w := ComponentDeclRaw.references) (fun _ _ same =>
              same.references light) like.components
          simp only [DocState.references, List.map_append, List.sum_append, List.map_singleton,
            List.sum_singleton, counted]
          have none_left : ({ raw with guard := some (.lit (String.ofList text)) } :
            RawReaction).references = 0 := rfl
          omega
      exact ⟨t', tl', final', stop', lexed', swept', finish', like,
        like₁.fewer light like here there less⟩
  | @inside _ _ doc ts ts₁ ts₂ name params body lexed₀ swept opening passed refers =>
      cases lexed.symm.trans lexed₀
      have outer : ts.toList <:+ t :: tl := Sweep.suffix swept
      have opened := componentHead_consumes _ opening
      have inner : ts₂.toList <:+ ts.toList :=
        (Runs.suffix passed (componentStep_advances _)).trans opened
      obtain ⟨_, _, _, _, _, _, _, t', tl', e, lexed', start, length, edit⟩ :=
        refers.edit lexed (inner.trans outer) place template legible
      have deep := Nat.lt_of_lt_of_le length refers.suffix.length_le
      obtain ⟨ts', h⟩ := start.later outer (Nat.lt_of_lt_of_le deep inner.length_le)
      obtain ⟨ts₂', h₂⟩ := start.later (inner.trans outer) deep
      obtain ⟨raw, us, us', named, counted, read, read', along, left⟩ := edit ts₂' h₂
      have keyword : ts.current.kind = .component := expect_first opening
      obtain ⟨c, vs, block⟩ := Sweep.component (swept.rest whole finish) finish keyword
      have ends : Ends ts := ends_inside lexed outer
      have ends' : Ends ts' := by
        obtain ⟨passed', left', split, _, _, there⟩ := h
        refine ends_inside e.lexed' ⟨passed', ?_⟩
        rw [there, split, List.append_assoc]
      obtain ⟨c', vs', block', alike, ⟨_, _, related, in_c, in_c'⟩, along', left'⟩ :=
        e.component refl h h₂
        ends ends' opening passed read read' (.inr ⟨named, rfl⟩) along left block
      have fewer : c'.references < c.references :=
        alike.fewer light related in_c in_c' (counted ▸ Nat.zero_lt_one)
      obtain ⟨final', stop', swept', finish', like, _, _, less, like₁, here, there⟩ := e.document
        (P := fun next next' => next'.references < next.references) refl start h
        (by simp [keyword, TokenKind.isHead]) swept whole finish fun doc' like => by
          rw [← like.seenComponentIds] at block'
          refine ⟨_, _, vs, vs', .component block, .component block',
            { like with components := ?_, seenComponentIds := ?_ }, ?_, along', left'⟩
          · exact List.rel_append like.components (.cons alike .nil)
          · rw [like.seenComponentIds, alike.id]
          · have reactions := sum_le light like.reactions
            have components :=
              sum_le (w := ComponentDeclRaw.references) (fun _ _ same =>
                same.references light) like.components
            simp only [DocState.references, List.map_append, List.sum_append, List.map_singleton,
              List.sum_singleton]
            omega
      exact ⟨t', tl', final', stop', lexed', swept', finish', like,
        like₁.fewer light like here there less⟩

end

end SignalTopology.Ddl
