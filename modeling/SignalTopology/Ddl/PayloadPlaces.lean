import SignalTopology.Ddl.Expansion

/-!
# Places of payloads

A payload stands behind the `with` of a clause, in a reaction block at the top level or in
a component, or among the members of a `fork` or `join` block. In front of the `with` two
sources with different payloads are read alike. So the parser comes to the payload in both
of them, and where both payloads are blocks it goes on alike behind them.
-/

namespace SignalTopology.Ddl

open TokenParser

section

variable [RustStd] {src src' : List Char} {b : Border Token}

/-! ## Clauses -/

/-- A clause up to its payload. -/
def clauseFront (src : List Char) :
    Parse ((String × String × String × String) × Option RawGuard) := do
  let head ← reactionHead
  let guard ← parseReactionGuard src
  return (head, guard)

/-- The keyword and the opening brace of a reaction block. -/
def reactionOpening : Parse Unit := do
  let _ ← expect .reaction
  let _ ← expect .lBrace
  return ()

/-- The keyword and the opening brace of a `fork` block. -/
def forkOpening : Parse Unit := do
  let _ ← expect .fork
  let _ ← expect .lBrace
  return ()

/-- A `join` block up to its opening brace, with the group it waits for. -/
def joinOpening : Parse String := do
  let _ ← expect .join
  let (group, _) ← expectAnyIdent
  let _ ← expect .lBrace
  return group

theorem Parallel.reactionOpening (par : Parallel src src' b) :
    Follows b Eq Ddl.reactionOpening Ddl.reactionOpening :=
  (par.expect fun _ _ => (par.expect fun _ _ => .pure rfl).toFollows).toFollows

theorem Parallel.forkOpening (par : Parallel src src' b) :
    Follows b Eq Ddl.forkOpening Ddl.forkOpening :=
  (par.expect fun _ _ => (par.expect fun _ _ => .pure rfl).toFollows).toFollows

theorem Parallel.joinOpening (par : Parallel src src' b) :
    Follows b Eq Ddl.joinOpening Ddl.joinOpening := by
  refine (par.expect fun _ _ => (par.ident fun group _ _ => ?_).toFollows).toFollows
  exact (par.expect fun _ _ => .pure rfl).toFollows

theorem Apart.clauseFront (par : Apart src src' b) :
    Follows b Eq (Ddl.clauseFront src) (Ddl.clauseFront src') :=
  par.reactionHead.toFollows.bind_eq fun _ => par.parseReactionGuard.bind_eq fun _ => .pure rfl

variable {ts ts' us us' ws ws' vs : Tokens Token} {raw : RawReaction}
  {mark : RawReaction → RawReaction}

theorem yields_parseReactionBody : Yields (parseReactionBody src) ts raw us ↔
    ∃ head payload onFail ws vs,
    Yields (clauseFront src) ts head ws ∧ Yields (parseReactionPayload src) ws payload vs ∧
      Yields parseOnFail vs onFail us ∧ raw = rawReaction head.1 head.2 (payload, onFail) := by
  have split : parseReactionBody src = do
      let head ← clauseFront src
      let payload ← parseReactionPayload src
      let onFail ← parseOnFail
      return rawReaction head.1 head.2 (payload, onFail) := by
    rw [parseReactionBody_eq, clauseFront]
    simp only [bind_assoc, pure_bind]
    rfl
  rw [split, yields_bind]
  constructor
  · rintro ⟨head, ws, front, rest⟩
    obtain ⟨payload, vs, middle, rest⟩ := yields_bind.mp rest
    obtain ⟨onFail, us', behind, rest⟩ := yields_bind.mp rest
    obtain ⟨rfl, rfl⟩ := yields_pure.mp rest
    exact ⟨head, payload, onFail, ws, vs, front, middle, behind, rfl⟩
  · rintro ⟨head, payload, onFail, ws, vs, front, middle, behind, rfl⟩
    exact ⟨head, ws, front, middle.bind (behind.bind (yields_pure.mpr ⟨rfl, rfl⟩))⟩

theorem yields_payload {payload : Option String} (keyword : ws.current.kind = .with) :
    Yields (parseReactionPayload src) ws payload vs ↔
      ∃ text, Yields (parseRawBraceBlock src) ws.advance text vs ∧
        payload = some (String.ofList text) := by
  rw [parseReactionPayload, peek_bind, if_pos keyword, advance_bind, yields_bind]
  constructor
  · rintro ⟨text, us, block, rest⟩
    obtain ⟨rfl, rfl⟩ := yields_pure.mp rest
    exact ⟨text, block, rfl⟩
  · rintro ⟨text, block, rfl⟩
    exact ⟨text, vs, block, yields_pure.mpr ⟨rfl, rfl⟩⟩

theorem clauseFront_first {head : (String × String × String × String) × Option RawGuard}
    (front : Yields (clauseFront src) ts head ws) : ts.current.kind = .when := by
  obtain ⟨_, _, first, _⟩ := yields_bind.mp front
  exact expect_first first

/-- The clause from `ts` up to `us` has its payload behind the `with` at `ws` and up to `vs`. -/
def ClauseAt (src : List Char) (ts ws vs us : Tokens Token) (raw : RawReaction) : Prop :=
  ∃ head text onFail, Yields (clauseFront src) ts head ws ∧ ws.current.kind = .with ∧
    Yields (parseRawBraceBlock src) ws.advance text vs ∧ Yields parseOnFail vs onFail us ∧
    raw = rawReaction head.1 head.2 (some (String.ofList text), onFail)

theorem ClauseAt.read (h : ClauseAt src ts ws vs us raw) :
    Yields (parseReactionBody src) ts raw us := by
  obtain ⟨head, text, onFail, front, keyword, block, behind, rfl⟩ := h
  exact yields_parseReactionBody.mpr
    ⟨head, _, onFail, ws, vs, front, (yields_payload keyword).mpr ⟨text, block, rfl⟩, behind, rfl⟩

theorem ClauseAt.suffix (h : ClauseAt src ts ws vs us raw) : ws.toList <:+ ts.toList := by
  obtain ⟨_, _, _, front, _⟩ := h
  exact (Apart.self src).clauseFront.consumes front

/-- A clause that is read whole and has a `with` at `ws` has a block there. -/
theorem block_of_read {head : (String × String × String × String) × Option RawGuard}
    (front : Yields (clauseFront src) ts head ws) (keyword : ws.current.kind = .with)
    (read : Yields (parseReactionBody src) ts raw us) :
    ∃ text vs, Yields (parseRawBraceBlock src) ws.advance text vs ∧
      raw.payload = some (String.ofList text) := by
  obtain ⟨_, payload, onFail, _, vs, front', middle, _, rfl⟩ := yields_parseReactionBody.mp read
  obtain ⟨_, rfl⟩ := front.unique front'
  obtain ⟨text, block, rfl⟩ := (yields_payload keyword).mp middle
  exact ⟨text, vs, block, rfl⟩

/-! ## Blocks of clauses -/

theorem yields_reactionOpening : Yields reactionOpening ts () us ↔
    ts.current.kind = .reaction ∧ ts.advance.current.kind = .lBrace ∧ us = ts.advance.advance := by
  rw [reactionOpening, yields_bind]
  constructor
  · rintro ⟨_, _, first, rest⟩
    obtain ⟨keyword, _, rfl⟩ := yields_expect.mp first
    obtain ⟨_, _, second, rest⟩ := yields_bind.mp rest
    obtain ⟨brace, _, rfl⟩ := yields_expect.mp second
    exact ⟨keyword, brace, (yields_pure.mp rest).2⟩
  · rintro ⟨keyword, brace, rfl⟩
    exact ⟨_, _, yields_expect.mpr ⟨keyword, rfl, rfl⟩,
      (expect_bind brace).mpr (yields_pure.mpr ⟨rfl, rfl⟩)⟩

theorem yields_reactionBlock : Yields (parseReactionRaw src) ts raw us ↔ ∃ ts₁ us₁,
    Yields reactionOpening ts () ts₁ ∧ Yields (parseReactionBody src) ts₁ raw us₁ ∧
      us₁.current.kind = .rBrace ∧ us = us₁.advance := by
  have split : parseReactionRaw src = do
      let _ ← reactionOpening
      let reaction ← parseReactionBody src
      let _ ← expect .rBrace
      return reaction := by
    rw [parseReactionRaw, reactionOpening]
    simp only [bind_assoc, pure_bind]
  rw [split, yields_bind]
  constructor
  · rintro ⟨_, ts₁, opening, rest⟩
    obtain ⟨reaction, us₁, body, rest⟩ := yields_bind.mp rest
    obtain ⟨_, _, last, rest⟩ := yields_bind.mp rest
    obtain ⟨closing, _, rfl⟩ := yields_expect.mp last
    obtain ⟨rfl, rfl⟩ := yields_pure.mp rest
    exact ⟨ts₁, us₁, opening, body, closing, rfl⟩
  · rintro ⟨ts₁, us₁, opening, body, closing, rfl⟩
    exact ⟨_, ts₁, opening, body.bind ((expect_bind closing).mpr (yields_pure.mpr ⟨rfl, rfl⟩))⟩

/-- One more member of a `fork` or `join` block. -/
abbrev memberStep (src : List Char) (mark : RawReaction → RawReaction) :
    List RawReaction → Parse (List RawReaction ⊕ List RawReaction) :=
  manyStep (fun tok : Token => tok.kind = .when) (mark <$> parseReactionBody src)

theorem memberStep_inl {members next : List RawReaction} :
    Yields (memberStep src mark members) ts (.inl next) us ↔
      ∃ raw, Yields (parseReactionBody src) ts raw us ∧ next = members ++ [mark raw] := by
  rw [yields_manyStep]
  constructor
  · rintro (⟨_, x, item, same⟩ | ⟨_, other, _⟩)
    · obtain ⟨raw, read, rfl⟩ := yields_map.mp item
      cases same
      exact ⟨raw, read, rfl⟩
    · cases other
  · rintro ⟨raw, read, rfl⟩
    refine .inl ⟨?_, mark raw, yields_map.mpr ⟨raw, read, rfl⟩, rfl⟩
    exact decide_eq_true (expect_first read)

theorem memberStep_advances : Advances (fun t : Token => t.kind = .eof) (memberStep src mark) := by
  intro members ts next us turn
  obtain ⟨raw, read, _⟩ := memberStep_inl.mp turn
  refine ⟨(Apart.self src).parseReactionBody.takes read, fun finish : ts.current.kind = .eof => ?_⟩
  have first : ts.current.kind = .when := expect_first read
  rw [finish] at first
  cases first

/-- The same was added to both lists. -/
def Added (start start' all all' : List RawReaction) : Prop :=
  ∃ added, all = start ++ added ∧ all' = start' ++ added

/-- Members before a border are read alike. -/
theorem Members.along (par : Apart src src' b) {members all : List RawReaction}
    (run : Runs (memberStep src mark) (members, ts) (all, us)) (before : b.Before ts ts')
    (kept : b.here.toList <:+ us.toList) (members' : List RawReaction) :
    ∃ added us', all = members ++ added ∧
      Runs (memberStep src' mark) (members', ts') (members' ++ added, us') ∧ b.Before us us' := by
  have step : ∀ {all next all' : List RawReaction} {ts us ts' : Tokens Token},
      Added members members' all all' → Yields (memberStep src mark all) ts (.inl next) us →
      b.Before ts ts' → b.here.toList <:+ us.toList → ∃ next' us',
        Yields (memberStep src' mark all') ts' (.inl next') us' ∧
          Added members members' next next' ∧
          b.Before us us' := by
    rintro _ next _ ts us ts' ⟨added, rfl, rfl⟩ turn before kept
    obtain ⟨raw, read, rfl⟩ := memberStep_inl.mp turn
    obtain ⟨_, us', read', rfl, after⟩ := par.parseReactionBody.along before read kept
    refine ⟨_, us', memberStep_inl.mpr ⟨_, read', rfl⟩, ⟨added ++ [mark raw], ?_, ?_⟩, after⟩
    · exact List.append_assoc _ _ _
    · exact List.append_assoc _ _ _
  have none_added : Added members members' members members' := ⟨[], by simp, by simp⟩
  obtain ⟨all', us', run', ⟨added, rfl, rfl⟩, after⟩ :=
    @Runs.along _ _ _ _ _ _ b (Added members members') _ _
      (memberStep src' mark) step _ _ _ _ _ _ run
      memberStep_advances none_added before kept
  exact ⟨added, us', rfl, run', after⟩

/-- Members are a run that no further one continues. -/
theorem yields_members {members : List RawReaction} (ends : Ends ts) :
    Yields (parseMembers src mark) ts members us ↔
      Runs (memberStep src mark) ([], ts) (members, us) ∧ us.current.kind ≠ .when := by
  rw [parseMembers, many, yields_iterate_runs memberStep_advances ends]
  constructor
  · rintro ⟨members', ts', run, last⟩
    obtain ⟨_, _, _, other⟩ | ⟨past, same, rfl⟩ := yields_manyStep.mp last
    · cases other
    · cases same
      exact ⟨run, of_decide_eq_false past⟩
  · rintro ⟨run, past⟩
    exact ⟨members, us, run, yields_manyStep.mpr (.inr ⟨decide_eq_false past, rfl, rfl⟩)⟩

theorem members_grow {members all : List RawReaction} {us : Tokens Token}
    (run : Runs (memberStep src mark) (members, ts) (all, us)) : members <+: all := by
  refine Runs.keeps (fun all _ => members <+: all) run (List.prefix_refl _) ?_
  intro all next ts us before turn
  obtain ⟨_, _, rfl⟩ := memberStep_inl.mp turn
  exact before.trans (List.prefix_append _ _)

theorem yields_forkBlock {n m : Nat} {members : List RawReaction} :
    Yields (parseForkBlock src n) ts (members, m) us ↔ m = n + 1 ∧ ∃ ts₁ us₁,
      Yields forkOpening ts () ts₁ ∧
        Yields (parseMembers src fun r => { r with joinGroup := some (forkName n) })
          ts₁ members us₁ ∧
        us₁.current.kind = .rBrace ∧ us = us₁.advance := by
  have split : parseForkBlock src n = do
      let _ ← forkOpening
      let reactions ← parseMembers src fun r => { r with joinGroup := some (forkName n) }
      let _ ← expect .rBrace
      return (reactions, n + 1) := by
    rw [parseForkBlock, forkOpening]
    simp only [bind_assoc, pure_bind]
  rw [split, yields_bind]
  constructor
  · rintro ⟨_, ts₁, opening, rest⟩
    obtain ⟨reactions, us₁, body, rest⟩ := yields_bind.mp rest
    obtain ⟨_, _, last, rest⟩ := yields_bind.mp rest
    obtain ⟨closing, _, rfl⟩ := yields_expect.mp last
    obtain ⟨same, rfl⟩ := yields_pure.mp rest
    cases same
    exact ⟨rfl, ts₁, us₁, opening, body, closing, rfl⟩
  · rintro ⟨rfl, ts₁, us₁, opening, body, closing, rfl⟩
    exact ⟨_, ts₁, opening, body.bind ((expect_bind closing).mpr (yields_pure.mpr ⟨rfl, rfl⟩))⟩

theorem yields_joinBlock {group : String} {members : List RawReaction} :
    Yields (parseJoinBlock src) ts (members, group) us ↔
      ∃ ts₁ us₁, Yields joinOpening ts group ts₁ ∧
      Yields (parseMembers src fun r => { r with requires := [group] }) ts₁ members us₁ ∧
      us₁.current.kind = .rBrace ∧ us = us₁.advance := by
  have split : parseJoinBlock src = do
      let group ← joinOpening
      let reactions ← parseMembers src fun r => { r with requires := [group] }
      let _ ← expect .rBrace
      return (reactions, group) := by
    rw [parseJoinBlock, joinOpening]
    simp only [bind_assoc, pure_bind]
  rw [split, yields_bind]
  constructor
  · rintro ⟨_, ts₁, opening, rest⟩
    obtain ⟨reactions, us₁, body, rest⟩ := yields_bind.mp rest
    obtain ⟨_, _, last, rest⟩ := yields_bind.mp rest
    obtain ⟨closing, _, rfl⟩ := yields_expect.mp last
    obtain ⟨same, rfl⟩ := yields_pure.mp rest
    cases same
    exact ⟨ts₁, us₁, opening, body, closing, rfl⟩
  · rintro ⟨ts₁, us₁, opening, body, closing, rfl⟩
    exact ⟨_, ts₁, opening, body.bind ((expect_bind closing).mpr (yields_pure.mpr ⟨rfl, rfl⟩))⟩

/-! ## Places in a block -/

/-- One of the members from `ts` on has its payload behind the `with` at `ws`. -/
def MembersAt (src : List Char) (mark : RawReaction → RawReaction) (ts ws vs : Tokens Token)
    (raw : RawReaction) : Prop :=
  ∃ members ts₁ us, Runs (memberStep src mark) ([], ts) (members, ts₁) ∧
    ClauseAt src ts₁ ws vs us raw

/-- The block at `ts` has a payload behind the `with` at `ws` and up to `vs`, in the reaction
that is the last argument. -/
inductive BlockAt (src : List Char) (ws vs : Tokens Token) (doc : DocState) (ts : Tokens Token) :
    RawReaction → Prop
  | own {ts₁ us : Tokens Token} {raw : RawReaction} (opening : Yields reactionOpening ts () ts₁)
      (clause : ClauseAt src ts₁ ws vs us raw) (closing : us.current.kind = .rBrace) :
      BlockAt src ws vs doc ts raw
  | fork {ts₁ : Tokens Token} {raw : RawReaction} (opening : Yields forkOpening ts () ts₁)
      (members : MembersAt src (fun r => { r with joinGroup := some (forkName doc.forkCounter) })
        ts₁ ws vs raw) :
      BlockAt src ws vs doc ts { raw with joinGroup := some (forkName doc.forkCounter) }
  | join {ts₁ : Tokens Token} {group : String} {raw : RawReaction}
      (opening : Yields joinOpening ts group ts₁)
      (members : MembersAt src (fun r => { r with requires := [group] }) ts₁ ws vs raw) :
      BlockAt src ws vs doc ts { raw with requires := [group] }
  | inside {ts₁ ts₂ ts₃ us : Tokens Token} {name : String} {params : List String} {body : BodyState}
      {raw : RawReaction} (head : Yields (componentHead doc.seenComponentIds) ts (name, params) ts₁)
      (passed : BodySweep src name ({}, ts₁) (body, ts₂))
        (opening : Yields reactionOpening ts₂ () ts₃)
      (clause : ClauseAt src ts₃ ws vs us raw) (closing : us.current.kind = .rBrace) :
      BlockAt src ws vs doc ts raw

theorem reactionOpening_consumes : Consumes reactionOpening :=
  (Apart.self []).reactionOpening.consumes

theorem forkOpening_consumes : Consumes forkOpening := (Apart.self []).forkOpening.consumes

theorem joinOpening_consumes : Consumes joinOpening := (Apart.self []).joinOpening.consumes

theorem MembersAt.suffix (h : MembersAt src mark ts ws vs raw) : ws.toList <:+ ts.toList := by
  obtain ⟨_, _, _, run, clause⟩ := h
  exact clause.suffix.trans (Runs.suffix run memberStep_advances)

theorem BlockAt.suffix {doc : DocState} (h : BlockAt src ws vs doc ts raw) :
    ws.toList <:+ ts.toList := by
  cases h with
  | own opening clause _ => exact clause.suffix.trans (reactionOpening_consumes opening)
  | fork opening members => exact members.suffix.trans (forkOpening_consumes opening)
  | join opening members => exact members.suffix.trans (joinOpening_consumes opening)
  | inside head passed opening clause _ =>
      have inner := clause.suffix.trans (reactionOpening_consumes opening)
      exact (inner.trans (Runs.suffix passed (componentStep_advances _))).trans
        (componentHead_consumes _ head)

theorem BlockAt.keyword {doc : DocState} (h : BlockAt src ws vs doc ts raw) :
    ws.current.kind = .with := by
  cases h with
  | own _ clause _ | inside _ _ _ clause _ =>
      obtain ⟨_, _, _, _, keyword, _⟩ := clause
      exact keyword
  | fork _ members | join _ members =>
      obtain ⟨_, _, _, _, _, _, _, _, keyword, _⟩ := members
      exact keyword

/-! ## Blocks by their keywords -/

variable {doc doc' next : DocState}

theorem BlockRead.of_reaction (read : BlockRead src doc ts us next)
    (keyword : ts.current.kind = .reaction) :
    ∃ raw, Yields (parseReactionRaw src) ts raw us ∧
      next = { doc with rawReactions := doc.rawReactions ++ [raw] } := by
  cases read with
  | reaction read => exact ⟨_, read, rfl⟩
  | signal read | guard read | fork read | join read | component read | instantiate read =>
      have first := expect_first read
      rw [keyword] at first
      cases first

theorem BlockRead.of_fork (read : BlockRead src doc ts us next)
    (keyword : ts.current.kind = .fork) :
    ∃ members, Yields (parseForkBlock src doc.forkCounter) ts (members, doc.forkCounter + 1) us ∧
      next = { doc with
        forkCounter := doc.forkCounter + 1, forkGroups :=
          doc.forkGroups ++ [forkName doc.forkCounter]
        rawReactions := doc.rawReactions ++ members } := by
  cases read with
  | fork read =>
      have counted := (yields_forkBlock.mp read).1
      cases counted
      exact ⟨_, read, rfl⟩
  | signal read | guard read | reaction read | join read | component read | instantiate read =>
      have first := expect_first read
      rw [keyword] at first
      cases first

theorem BlockRead.of_join (read : BlockRead src doc ts us next)
    (keyword : ts.current.kind = .join) :
    ∃ members group, Yields (parseJoinBlock src) ts (members, group) us ∧
      next = { doc with
        joinGroupRefs := doc.joinGroupRefs ++ [group], rawReactions :=
          doc.rawReactions ++ members } := by
  cases read with
  | join read => exact ⟨_, _, read, rfl⟩
  | signal read | guard read | reaction read | fork read | component read | instantiate read =>
      have first := expect_first read
      rw [keyword] at first
      cases first

theorem BlockRead.of_component (read : BlockRead src doc ts us next)
    (keyword : ts.current.kind = .component) :
    ∃ c, Yields (parseComponent src doc.seenComponentIds) ts c us ∧
      next = { doc with
        rawComponents := doc.rawComponents ++ [c], seenComponentIds :=
          insert c.id doc.seenComponentIds } := by
  cases read with
  | component read => exact ⟨_, read, rfl⟩
  | signal read | guard read | reaction read | fork read | join read | instantiate read =>
      have first := expect_first read
      rw [keyword] at first
      cases first

/-! ## The payload of another source -/

/-- The other source reads a block as its payload. -/
theorem ClauseAt.reached (par : Apart src src' b) (clause : ClauseAt src ts b.here vs us raw)
    (before : b.Before ts ts') {raw' : RawReaction}
    (read : Yields (parseReactionBody src') ts' raw' us') :
    ∃ text vs', Yields (parseRawBraceBlock src') b.there.advance text vs' ∧
      raw'.payload = some (String.ofList text) := by
  obtain ⟨head, _, _, front, keyword, _⟩ := clause
  obtain ⟨_, _, front', rfl, after⟩ := par.clauseFront.along before front (List.suffix_refl _)
  obtain rfl := after.at_border
  exact block_of_read front' ((par.border.test rfl).mp keyword) read

theorem MembersAt.reached (par : Apart src src' b) (here : MembersAt src mark ts b.here vs raw)
    (before : b.Before ts ts') (ends : Ends ts') {all : List RawReaction}
    (read : Yields (parseMembers src' mark) ts' all us') :
    ∃ text vs' raw', Yields (parseRawBraceBlock src') b.there.advance text vs' ∧
      raw'.payload = some (String.ofList text) ∧ mark raw' ∈ all := by
  obtain ⟨members, ts₁, us, run, clause⟩ := here
  obtain ⟨added, ts₁', _, run', after⟩ := Members.along par run before clause.suffix []
  obtain ⟨whole, past⟩ := (yields_members ends).mp read
  have rest := Runs.rest run' whole fun _ _ turn => by
    obtain ⟨_, item, _⟩ := memberStep_inl.mp turn
    exact past (expect_first item)
  obtain same | ⟨⟨next, us₁⟩, turn, later⟩ := rest.cases_head
  · -- the clause would start where the members end
    cases same
    obtain ⟨_, _, _, front, _⟩ := clause
    obtain ⟨_, _, front', _, _⟩ := par.clauseFront.along after front (List.suffix_refl _)
    exact absurd (clauseFront_first front') past
  · obtain ⟨raw', item, rfl⟩ := memberStep_inl.mp turn
    obtain ⟨text, vs', block, payload⟩ := clause.reached par after item
    exact ⟨text, vs', raw', block, payload, (members_grow later).subset (by simp)⟩

/-- The other source reads a block in the place of the payload. -/
theorem BlockAt.reached (par : Apart src src' b) (here : BlockAt src b.here vs doc ts raw)
    (seen : doc'.seenComponentIds = doc.seenComponentIds)
    (forks : doc'.forkCounter = doc.forkCounter)
    (before : b.Before ts ts') (ends : Ends ts') (read : BlockRead src' doc' ts' us' next) :
    ∃ text vs' raw', Yields (parseRawBraceBlock src') b.there.advance text vs' ∧
      raw'.payload = some (String.ofList text) ∧ raw' ∈ next.everyReaction := by
  cases here with
  | own opening clause _ =>
      obtain ⟨_, ts₁', opening', _, after⟩ := par.reactionOpening.along before opening clause.suffix
      obtain ⟨raw', read', rfl⟩ := read.of_reaction (yields_reactionOpening.mp opening').1
      obtain ⟨_, _, opened, body, _⟩ := yields_reactionBlock.mp read'
      obtain ⟨_, rfl⟩ := opening'.unique opened
      obtain ⟨text, vs', block, payload⟩ := clause.reached par after body
      exact ⟨text, vs', raw', block, payload, List.mem_append_left _ (by simp)⟩
  | fork opening members =>
      obtain ⟨_, ts₁', opening', _, after⟩ := par.forkOpening.along before opening members.suffix
      obtain ⟨all, read', rfl⟩ := read.of_fork (expect_first opening')
      obtain ⟨_, _, _, opened, body, _⟩ := yields_forkBlock.mp read'
      obtain ⟨_, rfl⟩ := opening'.unique opened
      rw [forks] at body
      obtain ⟨text, vs', raw', block, payload, member⟩ :=
        members.reached par after (ends.suffix (forkOpening_consumes opened)) body
      exact ⟨text, vs', { raw' with joinGroup := some (forkName doc.forkCounter) }, block, payload,
        List.mem_append_left _ (List.mem_append_right _ member)⟩
  | join opening members =>
      obtain ⟨_, ts₁', opening', rfl, after⟩ := par.joinOpening.along before opening members.suffix
      obtain ⟨all, group, read', rfl⟩ := read.of_join (expect_first opening')
      obtain ⟨_, _, opened, body, _⟩ := yields_joinBlock.mp read'
      obtain ⟨rfl, rfl⟩ := opening'.unique opened
      obtain ⟨text, vs', raw', block, payload, member⟩ :=
        members.reached par after (ends.suffix (joinOpening_consumes opened)) body
      exact ⟨text, vs', { raw' with requires := [_] }, block, payload,
        List.mem_append_left _ (List.mem_append_right _ member)⟩
  | @inside ts₁ ts₂ ts₃ _ name params body _ head passed opening clause _ =>
      have inner := clause.suffix.trans (reactionOpening_consumes opening)
      obtain ⟨_, ts₁', head', rfl, after₁⟩ :=
        (par.componentHead (Finset.Subset.refl _)).along before head
        (inner.trans (Runs.suffix passed (componentStep_advances _)))
      have refl : ∀ r : RawReaction, Eq r r := fun _ => rfl
      obtain ⟨body', ts₂', passed', _, after₂⟩ := BodySweep.along refl par
        ⟨rfl, rfl, List.forall₂_same.mpr fun r _ => rfl, rfl⟩ passed after₁ inner
      obtain ⟨_, ts₃', opening', _, after₃⟩ :=
        par.reactionOpening.along after₂ opening clause.suffix
      obtain ⟨c, read', rfl⟩ := read.of_component (expect_first head')
      obtain ⟨_, final, ts₄, opened, whole, closing, _, shape⟩ :=
        (yields_parseComponent ends).mp read'
      rw [seen] at opened
      obtain ⟨same, rfl⟩ := Yields.unique head' opened
      obtain ⟨rfl, rfl⟩ := Prod.mk.inj same
      have keyword : ts₂'.current.kind = .reaction := (yields_reactionOpening.mp opening').1
      have rest := Runs.rest passed' whole fun _ _ turn => by
        have declared := componentStep_inl.mp turn
        cases declared with
        | port read | signal read | reaction read =>
            have first := expect_first read
            dsimp only at first
            rw [closing] at first
            cases first
      obtain stopped | ⟨⟨next, us₁⟩, turn, later⟩ := rest.cases_head
      · cases stopped
        exact absurd (closing.symm.trans keyword) (by simp)
      · have declared := componentStep_inl.mp turn
        cases declared with
        | @reaction raw' read' =>
            obtain ⟨_, _, opened, item, _⟩ := yields_reactionBlock.mp read'
            obtain ⟨_, rfl⟩ := opening'.unique opened
            obtain ⟨text, vs', block, payload⟩ := clause.reached par after₃ item
            refine ⟨text, vs', raw', block, payload,
              List.mem_append_right _ (List.mem_flatMap.mpr ⟨c, by simp, ?_⟩)⟩
            rw [shape]
            exact (BodySweep.grows later).subset (by simp)
        | port read | signal read =>
            have first := expect_first read
            dsimp only at first
            rw [keyword] at first
            cases first

/-! ## Behind the payload -/

/-- The reaction, or the one with another payload. -/
def Paid (raw : RawReaction) (text : List Char) (r r' : RawReaction) : Prop :=
  r' = r ∨ (r = raw ∧ r' = { raw with payload := some (String.ofList text) })

variable {front mid mid' back text : List Char} {before toks toks' after after' : List Token}
variable {last last' : Token} {vs' : Tokens Token}

/-- Both sources have a block behind the border in front, and go on behind it. -/
structure Edit.Crossing (e : Edit front mid mid' back before toks toks' after after' last last')
    (b : Border Token) (vs vs' : Tokens Token) (text : List Char) : Prop where
  apart : Apart (front ++ (mid ++ back)) (front ++ (mid' ++ back)) b
  block : Yields (parseRawBraceBlock (front ++ (mid' ++ back))) b.there.advance text vs'
  along : e.border.Before vs vs'
  inside : vs.toList <:+ after ++ [last]

variable {e : Edit front mid mid' back before toks toks' after after' last last'}

theorem Edit.Crossing.clause (x : e.Crossing b vs vs' text) (along : b.Before ts ts')
    (clause : ClauseAt (front ++ (mid ++ back)) ts b.here vs us raw) :
    ∃ us', Yields (parseReactionBody (front ++ (mid' ++ back))) ts'
        { raw with payload := some (String.ofList text) } us' ∧
      e.border.Before us us' ∧ us.toList <:+ after ++ [last] := by
  obtain ⟨head, _, onFail, opened, keyword, _, behind, rfl⟩ := clause
  obtain ⟨_, _, opened', rfl, reached⟩ :=
    x.apart.clauseFront.along along opened (List.suffix_refl _)
  obtain rfl := reached.at_border
  have inside := (e.apart.parseOnFail.consumes behind).trans x.inside
  obtain ⟨_, us', behind', rfl, later⟩ := e.apart.parseOnFail.along x.along behind (e.kept inside)
  have payload := (yields_payload ((x.apart.border.test rfl).mp keyword)).mpr ⟨text, x.block, rfl⟩
  exact ⟨us', yields_parseReactionBody.mpr ⟨head, _, onFail, _, vs', opened',
    payload, behind', rfl⟩, later, inside⟩

/-- A closing brace behind the payload is one of the other source. -/
theorem Edit.closing (e : Edit front mid mid' back before toks toks' after after' last last')
    (along : e.border.Before us us') (inside : us.toList <:+ after ++ [last])
    (closing : us.current.kind = .rBrace) : us'.current.kind = .rBrace ∧
      e.border.Before us.advance us'.advance ∧ us.advance.toList <:+ after ++ [last] := by
  have taken := us.advance_suffix.trans inside
  exact ⟨(e.border_kind along).trans closing, (along.advance (e.kept taken)).2, taken⟩

theorem Edit.Crossing.own (x : e.Crossing b vs vs' text) (along : b.Before ts ts')
    {ts₁ us₁ : Tokens Token} (opening : Yields reactionOpening ts () ts₁)
    (clause : ClauseAt (front ++ (mid ++ back)) ts₁ b.here vs us₁ raw)
    (closing : us₁.current.kind = .rBrace) :
    Yields (parseReactionRaw (front ++ (mid ++ back))) ts raw us₁.advance ∧
    ∃ us', Yields (parseReactionRaw (front ++ (mid' ++ back))) ts'
        { raw with payload := some (String.ofList text) } us' ∧
      e.border.Before us₁.advance us' ∧ us₁.advance.toList <:+ after ++ [last] := by
  obtain ⟨_, ts₁', opening', _, between⟩ :=
    x.apart.reactionOpening.along along opening clause.suffix
  obtain ⟨us₁', body', reached, inside⟩ := x.clause between clause
  obtain ⟨closing', later, taken⟩ := e.closing reached inside closing
  refine ⟨yields_reactionBlock.mpr ⟨ts₁, us₁, opening, clause.read, closing, rfl⟩,
    us₁'.advance, ?_, later, taken⟩
  exact yields_reactionBlock.mpr ⟨ts₁', us₁', opening', body', closing', rfl⟩

theorem Edit.Crossing.members (x : e.Crossing b vs vs' text) (along : b.Before ts ts')
    (here : MembersAt (front ++ (mid ++ back)) mark ts b.here vs raw) (ends : Ends ts)
    (ends' : Ends ts')
    {all : List RawReaction}
    (read : Yields (parseMembers (front ++ (mid ++ back)) mark) ts all us) :
    ∃ us' rs more, all = rs ++ mark raw :: more ∧
      Yields (parseMembers (front ++ (mid' ++ back)) mark) ts'
        (rs ++ mark { raw with payload := some (String.ofList text) } :: more) us' ∧
      e.border.Before us us' ∧ us.toList <:+ after ++ [last] := by
  obtain ⟨members, ts₁, us₁, run, clause⟩ := here
  obtain ⟨_, ts₁', rfl, run', between⟩ := Members.along x.apart run along clause.suffix []
  obtain ⟨us₁', body', reached, inside⟩ := x.clause between clause
  obtain ⟨whole, past⟩ := (yields_members ends).mp read
  have turn : Runs (memberStep (front ++ (mid ++ back)) mark) ([], ts)
      (members ++ [mark raw], us₁) :=
    run.tail (memberStep_inl.mpr ⟨raw, clause.read, rfl⟩)
  have turn' : Runs (memberStep (front ++ (mid' ++ back)) mark) ([], ts') (members ++
      [mark { raw with payload := some (String.ofList text) }], us₁') :=
    run'.tail (memberStep_inl.mpr ⟨_, body', rfl⟩)
  have rest := Runs.rest turn whole fun _ _ again => by
    obtain ⟨_, item, _⟩ := memberStep_inl.mp again
    exact past (expect_first item)
  have left := (Runs.suffix rest memberStep_advances).trans inside
  obtain ⟨more, us', rfl, rest', later⟩ := Members.along e.apart rest reached (e.kept left) _
  refine ⟨us', members, more, by simp, (yields_members ends').mpr ⟨?_, ?_⟩, later, left⟩
  · have joined := turn'.trans rest'
    rwa [List.append_assoc, List.singleton_append] at joined
  · rw [e.border_kind later]
    exact past

omit [RustStd] in
theorem Paid.refl (r : RawReaction) : Paid raw text r r := .inl rfl

omit [RustStd] in
theorem paid_between (rs more : List RawReaction) : List.Forall₂ (Paid raw text) (rs ++ raw :: more)
    (rs ++ { raw with payload := some (String.ofList text) } :: more) := by
  have same : ∀ rs : List RawReaction, List.Forall₂ (Paid raw text) rs rs := fun rs =>
    List.forall₂_same.mpr fun r _ => .refl r
  exact List.rel_append (same rs) (.cons (.inr ⟨rfl, rfl⟩) (same more))

/-- The block around the payload is read in both sources. -/
theorem Edit.paid_block (place : e.InFront ws ws')
    (x : e.Crossing (frontBorder front ws ws' (place.more tail_ne_nil)) vs vs' text)
    (h : e.InFront ts ts')
    (ends : Ends ts) (ends' : Ends ts') (here : BlockAt (front ++ (mid ++ back)) ws vs doc ts raw)
    (like : doc.Like (Paid raw text) [] doc')
    (read : BlockRead (front ++ (mid ++ back)) doc ts us next) :
    ∃ next' us', BlockRead (front ++ (mid' ++ back)) doc' ts' us' next' ∧
      next.Like (Paid raw text) [] next' ∧ (raw ∈ next.everyReaction ∧
        { raw with payload := some (String.ofList text) } ∈ next'.everyReaction) ∧
      e.border.Before us us' ∧ us.toList <:+ after ++ [last] := by
  have along := h.border place here.suffix e.within (place.more tail_ne_nil)
  cases here with
  | own opening clause closing =>
      obtain ⟨_, read₀, rfl⟩ := read.of_reaction (yields_reactionOpening.mp opening).1
      obtain ⟨read₁, us', read', later, inside⟩ := x.own along opening clause closing
      obtain ⟨rfl, rfl⟩ := read₁.unique read₀
      refine ⟨_, us', .reaction read', { like with reactions := ?_ }, ⟨?_, ?_⟩, later, inside⟩
      · exact List.rel_append like.reactions (paid_between [] [])
      · exact List.mem_append_left _ (by simp)
      · exact List.mem_append_left _ (by simp)
  | @fork ts₁ _ opening members =>
      obtain ⟨_, ts₁', opening', _, between⟩ :=
        x.apart.forkOpening.along along opening members.suffix
      obtain ⟨all, read₀, rfl⟩ := read.of_fork (expect_first opening)
      obtain ⟨_, _, _, opened, body, closing, rfl⟩ := yields_forkBlock.mp read₀
      obtain ⟨_, rfl⟩ := opening.unique opened
      obtain ⟨us', rs, more, rfl, body', reached, inside⟩ := x.members between members
        (ends.suffix (forkOpening_consumes opening))
          (ends'.suffix (forkOpening_consumes opening')) body
      obtain ⟨closing', later, taken⟩ := e.closing reached inside closing
      rw [← like.forkCounter] at body'
      have read' := (yields_forkBlock (m := doc'.forkCounter + 1)).mpr
        ⟨rfl, ts₁', us', opening', body', closing', rfl⟩
      refine ⟨_, us'.advance, .fork read',
        { like with reactions := ?_, forkCounter := ?_, forkGroups := ?_ }, ⟨?_, ?_⟩, later, taken⟩
      · rw [like.forkCounter]
        exact List.rel_append like.reactions (paid_between rs more)
      · exact congrArg (· + 1) like.forkCounter
      · rw [like.forkGroups, like.forkCounter]
      · exact List.mem_append_left _ (by simp)
      · rw [like.forkCounter]
        exact List.mem_append_left _ (by simp)
  | @join ts₁ group _ opening members =>
      obtain ⟨_, ts₁', opening', rfl, between⟩ :=
        x.apart.joinOpening.along along opening members.suffix
      obtain ⟨all, group, read₀, rfl⟩ := read.of_join (expect_first opening)
      obtain ⟨_, _, opened, body, closing, rfl⟩ := yields_joinBlock.mp read₀
      obtain ⟨rfl, rfl⟩ := opening.unique opened
      obtain ⟨us', rs, more, rfl, body', reached, inside⟩ := x.members between members
        (ends.suffix (joinOpening_consumes opening))
          (ends'.suffix (joinOpening_consumes opening')) body
      obtain ⟨closing', later, taken⟩ := e.closing reached inside closing
      have read' := yields_joinBlock.mpr ⟨ts₁', us', opening', body', closing', rfl⟩
      refine ⟨_, us'.advance, .join read',
        { like with reactions := ?_, joinGroupRefs := ?_ }, ⟨?_, ?_⟩, later, taken⟩
      · exact List.rel_append like.reactions (paid_between rs more)
      · exact congrArg (· ++ _) like.joinGroupRefs
      · exact List.mem_append_left _ (by simp)
      · exact List.mem_append_left _ (by simp)
  | @inside ts₁ ts₂ ts₃ us₁ name params body _ head passed opening clause closing =>
      have deep := clause.suffix.trans (reactionOpening_consumes opening)
      have inner : ts₂.toList <:+ ts.toList :=
        (Runs.suffix passed (componentStep_advances _)).trans (componentHead_consumes _ head)
      obtain ⟨ts₂', h₂⟩ := h.later inner (Nat.lt_of_lt_of_le place.length deep.length_le)
      have along₂ := h₂.border place deep e.within (place.more tail_ne_nil)
      obtain ⟨c, read₀, rfl⟩ := read.of_component (expect_first head)
      obtain ⟨read₁, us₁', read₁', later, taken⟩ := x.own along₂ opening clause closing
      obtain ⟨c', us', read', alike, ⟨_, _, _, held, held'⟩, reached, inside⟩ :=
        e.component Paid.refl h h₂ ends ends' head passed read₁ read₁'
          (.inr ⟨rfl, rfl⟩) later taken read₀
      rw [← like.seenComponentIds] at read'
      refine ⟨_, us', .component read',
        { like with components := ?_, seenComponentIds := ?_ }, ⟨?_, ?_⟩, reached, inside⟩
      · exact List.rel_append like.components (.cons alike .nil)
      · rw [like.seenComponentIds, alike.id]
      · refine List.mem_append_right _ (List.mem_flatMap.mpr ⟨c, by simp, held.subset (by simp)⟩)
      · refine List.mem_append_right _ (List.mem_flatMap.mpr ⟨c', by simp, held'.subset (by simp)⟩)

end

end SignalTopology.Ddl
