import SignalTopology.Ddl.Clauses

/-!
# Parsing the blocks

The loops over the clauses of a block and over the blocks of a document. A loop
that returns what the grammar says has met whole guards only: the first guard that
is not whole shows in the declaration of its clause, and later declarations only
come after it.
-/

namespace SignalTopology.Ddl

open TokenParser

variable [RustStd]

section

variable {src : List Char} {ps : List Piece} {ts : Tokens Token}

/-! ## Clauses -/

/-- The loop over the clauses of a block returns their declarations if every clause
is intact. A list that agrees with the declarations as far as both go is returned
only then. -/
theorem At.clauses {γ δ : Type} {pieces : γ → List Piece} {decl : γ → δ}
    {intact : γ → Bool → Prop} {item : Parse δ} {starts : Token → Bool} {clauses : List γ}
    (h : At src (clauses.flatMap pieces ++ .rBrace :: ps) ts)
    (each : ∀ c ∈ clauses, ∀ next, (∀ c', next = some c' → c' ∈ clauses) → ∀ ps ts,
      At src (pieces c ++ (following pieces next ++ ps)) ts →
      ∃ us, At src (following pieces next ++ ps) us ∧ starts ts.current = true ∧
        us.rest.length < ts.rest.length ∧
        ∀ vs, Yields item ts (decl c) vs ↔ vs = us ∧ intact c next.isNone)
    (stop : ∀ tok : Token, tok.kind = .rBrace → starts tok = false) :
    ∃ us, At src (.rBrace :: ps) us ∧ us.rest.length + clauses.length ≤ ts.rest.length ∧
      (Clauses intact clauses → Many starts item ts (clauses.map decl) us) ∧
      ∀ xs vs more more', Many starts item ts xs vs → xs ++ more = clauses.map decl ++ more' →
        Clauses intact clauses ∧ xs = clauses.map decl ∧ vs = us := by
  induction clauses generalizing ts with
  | nil =>
      have closing := stop ts.current (At.rBrace h).1
      refine ⟨ts, h, Nat.le_refl _, fun _ => .nil closing, fun xs vs more more' run _ => ?_⟩
      cases run with
      | nil => exact ⟨trivial, rfl, rfl⟩
      | cons start =>
          rw [closing] at start
          cases start
  | cons c clauses ih =>
      obtain ⟨qs, split⟩ : ∃ qs, clauses.flatMap pieces ++ .rBrace :: ps =
          following pieces clauses.head? ++ qs := by
        cases clauses with
        | nil => exact ⟨ps, rfl⟩
        | cons c' clauses =>
            exact ⟨clauses.flatMap pieces ++ .rBrace :: ps, by
              rw [List.flatMap_cons, List.append_assoc]
              rfl⟩
      rw [List.flatMap_cons, List.append_assoc, split] at h
      obtain ⟨us₁, at₁, start, shorter, exact⟩ := each c List.mem_cons_self clauses.head?
        (fun c' head => List.mem_cons_of_mem _ (List.mem_of_head? head)) qs ts h
      rw [← split] at at₁
      obtain ⟨us, after, length, all, only⟩ := ih at₁ fun c' member next inside =>
        each c' (List.mem_cons_of_mem _ member) next fun d same =>
          List.mem_cons_of_mem _ (inside d same)
      have last : clauses.head?.isNone = clauses.isEmpty := by cases clauses <;> rfl
      rw [last] at exact
      refine ⟨us, after, ?_, ?_, fun xs vs more more' run same => ?_⟩
      · simp only [List.length_cons]
        omega
      · rintro ⟨whole, rest⟩
        exact .cons start ((exact us₁).mpr ⟨rfl, whole⟩) (all rest)
      · cases run with
        | nil stopped =>
            rw [start] at stopped
            cases stopped
        | cons _ first later =>
            obtain ⟨head, tail⟩ := List.cons.inj same
            subst head
            obtain ⟨rfl, whole⟩ := (exact _).mp first
            obtain ⟨rest, rfl, rfl⟩ := only _ vs more more' later tail
            exact ⟨⟨whole, rest⟩, rfl, rfl⟩

/-! ## Lists -/

/-- Items separated by commas. The last one may be followed by a comma too. -/
def listPieces {γ : Type} (pieces : γ → List Piece) : List γ → Bool → List Piece
  | [], _ => []
  | x :: xs, trailing =>
      pieces x ++ (xs.flatMap (fun x => .comma :: pieces x) ++ if trailing then [.comma] else [])

/-- The items after the first in a list, up to its closing bracket. -/
theorem At.moreItems {γ δ : Type} {pieces : γ → List Piece} {decl : γ → δ} {item : Parse δ}
    {xs : List γ} {read : List δ} {trailing : Bool} {closing : Char} {kind : TokenKind}
    (h : At src (xs.flatMap (fun x => .comma :: pieces x) ++ ((if trailing then [.comma] else []) ++
      .symbol closing kind :: ps)) ts)
    (bracket : closing.toNat < 128 ∧ singleKind closing = .ok kind ∧ closing ≠ '/')
    (other : kind ≠ .comma)
    (each : ∀ x ∈ xs, ∀ ps ts, At src (pieces x ++ ps) ts → ∃ us, At src ps us ∧
      us.rest.length < ts.rest.length ∧ ts.current.kind ≠ kind ∧ Yields item ts (decl x) us) :
    ∃ us, At src (.symbol closing kind :: ps) us ∧ us.rest.length + xs.length ≤ ts.rest.length ∧
      Iterates (commaItem kind item) xs.length read ts (read ++ xs.map decl) us := by
  obtain ⟨ascii, single, visible⟩ := bracket
  induction xs generalizing ts read with
  | nil =>
      rw [List.map_nil, List.append_nil]
      cases trailing with
      | false =>
          obtain ⟨close, _, _⟩ := At.symbol h ascii single visible
          refine ⟨ts, h, Nat.le_refl _, .done ?_⟩
          rw [commaItem, peek_bind, if_neg (by rw [close]; exact other)]
          exact yields_pure.mpr ⟨rfl, rfl⟩
      | true =>
          obtain ⟨comma, at₁, length⟩ := At.comma h
          obtain ⟨close, _, _⟩ := At.symbol at₁ ascii single visible
          refine ⟨ts.advance, at₁, by simp only [List.length_nil]; omega, .done ?_⟩
          rw [commaItem, peek_bind, if_pos comma, advance_bind, peek_bind, if_pos close]
          exact yields_pure.mpr ⟨rfl, rfl⟩
  | cons x xs ih =>
      rw [List.flatMap_cons, List.append_assoc] at h
      obtain ⟨comma, at₁, length₁⟩ := At.comma h
      obtain ⟨us₁, at₂, length₂, inside, first⟩ := each x List.mem_cons_self _ _ at₁
      obtain ⟨us, after, length, later⟩ := @ih _ (read ++ [decl x]) at₂ fun y member =>
        each y (List.mem_cons_of_mem _ member)
      rw [List.append_assoc] at later
      refine ⟨us, after, ?_, .step ?_ later⟩
      · simp only [List.length_cons]
        omega
      · rw [commaItem, peek_bind, if_pos comma, advance_bind, peek_bind, if_neg inside]
        exact first.bind (yields_pure.mpr ⟨rfl, rfl⟩)

/-- A list between brackets is read as its items. -/
theorem At.commaList {γ δ : Type} {pieces : γ → List Piece} {decl : γ → δ} {item : Parse δ}
    {xs : List γ} {trailing : Bool} {opening closing : Char} {kind kind' : TokenKind}
    (h : At src (.symbol opening kind :: (listPieces pieces xs trailing ++
      .symbol closing kind' :: ps)) ts)
    (bracket : opening.toNat < 128 ∧ singleKind opening = .ok kind ∧ opening ≠ '/')
    (bracket' : closing.toNat < 128 ∧ singleKind closing = .ok kind' ∧ closing ≠ '/')
    (other : kind' ≠ .comma)
    (each : ∀ x ∈ xs, ∀ ps ts, At src (pieces x ++ ps) ts → ∃ us, At src ps us ∧
      us.rest.length < ts.rest.length ∧ ts.current.kind ≠ kind' ∧ Yields item ts (decl x) us) :
    ∃ us, At src ps us ∧ us.rest.length < ts.rest.length ∧
      Yields (Ddl.commaList kind kind' item) ts (xs.map decl) us := by
  obtain ⟨start, at₁, length₁⟩ := At.symbol h bracket.1 bracket.2.1 bracket.2.2
  cases xs with
  | nil =>
      obtain ⟨close, after, length₂⟩ := At.symbol at₁ bracket'.1 bracket'.2.1 bracket'.2.2
      refine ⟨_, after, by omega, ?_⟩
      rw [Ddl.commaList, expect_bind start, peek_bind, if_pos close]
      refine Yields.bind (yields_pure.mpr ⟨rfl, rfl⟩) ?_
      rw [expect_bind close]
      exact yields_pure.mpr ⟨rfl, rfl⟩
  | cons x xs =>
      rw [listPieces, List.append_assoc, List.append_assoc] at at₁
      obtain ⟨us₁, at₂, length₂, inside, first⟩ := each x List.mem_cons_self _ _ at₁
      obtain ⟨us, at₃, length₃, run⟩ :=
        @At.moreItems _ _ _ _ _ _ _ _ _ _ [decl x] _ _ _ at₂ bracket'
        other fun y member => each y (List.mem_cons_of_mem _ member)
      obtain ⟨close, after, length₄⟩ := at₃.symbol bracket'.1 bracket'.2.1 bracket'.2.2
      refine ⟨us.advance, after, by omega, ?_⟩
      rw [Ddl.commaList, expect_bind start, peek_bind, if_neg inside]
      refine first.bind ((yields_iterate.mpr ⟨_, by omega, run⟩).bind ?_)
      dsimp only
      rw [expect_bind close]
      exact yields_pure.mpr ⟨rfl, rfl⟩

/-! ## Signals -/

theorem At.stateList {states : List String} {trailing : Bool}
    (h : At src (.symbol '[' .lBracket :: (statePieces states trailing ++
      .symbol ']' .rBracket :: ps)) ts) (names : ∀ s ∈ states, IsName s) :
    ∃ us, At src ps us ∧ us.rest.length < ts.rest.length ∧ Yields parseStateList ts states us := by
  have same : statePieces states trailing =
      listPieces (fun s => [Piece.word s]) states trailing := by
    cases states <;> rfl
  rw [same] at h
  have read := @At.commaList _ _ _ _ _ _ _ id (do return (← expectAnyIdent).1) _ _ _ _ _ _ h
    ⟨by decide, rfl, by decide⟩ ⟨by decide, rfl, by decide⟩
      (by decide) fun s member ps ts front => by
      obtain ⟨ident, after, length⟩ := At.name front (names s member)
      refine ⟨_, after, by omega, by simp [ident], ?_⟩
      rw [ident_bind ident]
      exact yields_pure.mpr ⟨rfl, rfl⟩
  rw [List.map_id] at read
  exact read

/-- A signal up to its clauses. -/
theorem At.signalHead {id initial : String} {states : List String} {trailing : Bool}
    {clauses : List OnClause} {seen : Finset String}
    (h : At src ((Block.signal id states trailing initial clauses).pieces ++ ps) ts)
    (name : IsName id) (names : ∀ s ∈ states, IsName s) (first : IsName initial)
    (declared : initial ∈ states) (fresh : id ∉ seen) :
    ∃ us, At src (clauses.flatMap OnClause.pieces ++ .rBrace :: ps) us ∧
      ts.current.kind = .signal ∧ us.rest.length < ts.rest.length ∧
      ∀ sig vs, Yields (parseSignal src seen) ts sig vs ↔ ∃ transitions us',
        Yields (many (fun tok => tok.kind = .on) (parseTransition src id states)) us
          transitions us' ∧
        us'.current.kind = .rBrace ∧ vs = us'.advance ∧
          sig = { id, states, initial, transitions } := by
  simp only [Block.pieces, List.append_assoc, List.cons_append, List.nil_append] at h
  obtain ⟨opening, at₁, length₁⟩ := At.keyword .signal h rfl (by decide)
  obtain ⟨ident, at₂, length₂⟩ := at₁.name name
  obtain ⟨brace, at₃, length₃⟩ := at₂.lBrace
  obtain ⟨word, at₄, length₄⟩ := At.keyword .states at₃ rfl (by decide)
  obtain ⟨colon, at₅, length₅⟩ := at₄.colon
  obtain ⟨us₁, at₆, length₆, list⟩ := at₅.stateList names
  obtain ⟨word', at₇, length₇⟩ := At.keyword .initial at₆ rfl (by decide)
  obtain ⟨colon', at₈, length₈⟩ := at₇.colon
  obtain ⟨start, at₉, length₉⟩ := at₈.name first
  refine ⟨_, at₉, opening, by omega, fun sig vs => ?_⟩
  rw [parseSignal, expect_bind opening, ident_bind ident]
  refine (ensure_bind (by simpa using fresh)).trans ?_
  rw [expect_bind brace, expect_bind word, expect_bind colon, list.bind_iff, expect_bind word',
    expect_bind colon', ident_bind start]
  refine (ensure_bind (by simpa using declared)).trans ?_
  rw [yields_bind]
  constructor
  · rintro ⟨transitions, us', run, rest⟩
    obtain ⟨tok, us'', taken, rest⟩ := yields_bind.mp rest
    obtain ⟨rfl, rfl⟩ := yields_pure.mp rest
    obtain ⟨close, _, rfl⟩ := yields_expect.mp taken
    exact ⟨transitions, us', run, close, rfl, rfl⟩
  · rintro ⟨transitions, us', run, close, rfl, rfl⟩
    refine ⟨transitions, us', run, ?_⟩
    rw [expect_bind close]
    exact yields_pure.mpr ⟨rfl, rfl⟩

/-- In front of a signal, the parser returns its declaration exactly if its guards
stay whole. -/
theorem At.signal {id initial : String} {states : List String} {trailing : Bool}
    {clauses : List OnClause} {seen : Finset String}
    (h : At src ((Block.signal id states trailing initial clauses).pieces ++ ps) ts)
    (name : IsName id) (names : ∀ s ∈ states, IsName s) (first : IsName initial)
    (declared : initial ∈ states) (formed : ∀ c ∈ clauses, c.Formed states) (fresh : id ∉ seen) :
    ∃ us, At src ps us ∧ ts.current.kind = .signal ∧ us.rest.length < ts.rest.length ∧
      ∀ vs, Yields (parseSignal src seen) ts
          { id, states, initial, transitions := clauses.map OnClause.decl } vs ↔
        vs = us ∧ Clauses OnClause.Intact clauses := by
  obtain ⟨us₁, at₁, opening, shorter, exact⟩ := h.signalHead name names first declared fresh
  obtain ⟨us₂, at₂, length, all, only⟩ :=
    @At.clauses _ _ _ _ _ _ OnClause.pieces OnClause.decl OnClause.Intact
      (parseTransition src id states) (fun tok => tok.kind = .on) _ at₁
      (fun c member next _ ps ts inside => by
        obtain ⟨us, after, on, shorter, exact⟩ := inside.transition (formed c member)
        exact ⟨us, after, by simp [on], shorter, exact⟩)
      (fun tok close => by simp [close])
  obtain ⟨close, after, length'⟩ := at₂.rBrace
  refine ⟨us₂.advance, after, opening, by omega, fun vs => ?_⟩
  rw [exact]
  constructor
  · rintro ⟨transitions, us', run, _, rfl, same⟩
    cases same
    obtain ⟨whole, _, rfl⟩ := only _ us' [] [] (yields_many.mp run).1 rfl
    exact ⟨rfl, whole⟩
  · rintro ⟨rfl, whole⟩
    refine ⟨_, us₂, yields_many.mpr ⟨all whole, ?_⟩, close, rfl, rfl⟩
    rw [List.length_map]
    omega

/-! ## Forks and joins -/

/-- A reaction body belongs to no group yet. -/
theorem body_unmarked {r : RawReaction} {us : Tokens Token}
    (h : Yields (parseReactionBody src) ts r us) : r.joinGroup = none ∧ r.requires = [] := by
  obtain ⟨_, _, _, h⟩ := yields_bind.mp h
  obtain ⟨_, _, _, h⟩ := yields_bind.mp h
  obtain ⟨_, _, _, h⟩ := yields_bind.mp h
  obtain ⟨_, _, _, h⟩ := yields_bind.mp h
  obtain ⟨_, _, _, h⟩ := yields_bind.mp h
  obtain ⟨_, _, _, h⟩ := yields_bind.mp h
  obtain ⟨_, _, _, h⟩ := yields_bind.mp h
  obtain ⟨_, _, _, h⟩ := yields_bind.mp h
  obtain ⟨_, _, _, h⟩ := yields_bind.mp h
  obtain ⟨_, _, _, h⟩ := yields_bind.mp h
  obtain ⟨rfl, _⟩ := yields_pure.mp h
  exact ⟨rfl, rfl⟩

/-- The members of a fork or a join, in front of its closing brace. -/
theorem At.members [SerdeJson] {clauses : List WhenClause} {mark : RawReaction → RawReaction}
    (h : At src (clauses.flatMap WhenClause.pieces ++ .rBrace :: ps) ts)
    (formed : ∀ c ∈ clauses, c.Formed)
    (faithful : ∀ r r' : RawReaction, r.joinGroup = r'.joinGroup → r.requires = r'.requires →
      mark r = mark r' → r = r') :
    ∃ us, At src (.rBrace :: ps) us ∧ us.rest.length ≤ ts.rest.length ∧
      (Clauses WhenClause.Intact clauses → Yields (parseMembers src mark) ts
        (clauses.map fun c => mark (c.decl none []).raw) us) ∧
      ∀ xs vs more more', Yields (parseMembers src mark) ts xs vs →
        xs ++ more = (clauses.map fun c => mark (c.decl none []).raw) ++ more' →
        Clauses WhenClause.Intact clauses ∧
          xs = (clauses.map fun c => mark (c.decl none []).raw) ∧ vs = us := by
  obtain ⟨us, after, length, all, only⟩ :=
    @At.clauses _ _ _ _ _ _ WhenClause.pieces (fun c => mark (c.decl none []).raw)
      WhenClause.Intact (mark <$> parseReactionBody src) (fun tok => tok.kind = .when) _ h
      (fun c member next inside ps ts front => by
        obtain ⟨us, after, when, shorter, exact⟩ := front.reaction (formed c member)
          fun c' same => formed c' (inside c' same)
        refine ⟨us, after, by simp [when], shorter, fun vs => ?_⟩
        rw [yields_map, ← exact vs]
        constructor
        · rintro ⟨r, read, same⟩
          obtain ⟨group, waits⟩ := body_unmarked read
          have whole : (c.decl none []).raw = r := faithful _ _ group.symm waits.symm same
          rw [whole]
          exact read
        · intro read
          exact ⟨_, read, rfl⟩)
      (fun tok close => by simp [close])
  refine ⟨us, after, by omega, fun whole => ?_, fun xs vs more more' read same => ?_⟩
  · refine yields_many.mpr ⟨all whole, ?_⟩
    rw [List.length_map]
    omega
  · exact only xs vs more more' (yields_many.mp read).1 same

/-- In front of a fork, the parser returns its members if their guards stay whole. A
list that agrees with them as far as both go is returned only then. -/
theorem At.fork [SerdeJson] {clauses : List WhenClause} {n : Nat}
    (h : At src ((Block.fork clauses).pieces ++ ps) ts) (formed : ∀ c ∈ clauses, c.Formed) :
    ∃ us, At src ps us ∧ ts.current.kind = .fork ∧ us.rest.length < ts.rest.length ∧
      (Clauses WhenClause.Intact clauses → Yields (parseForkBlock src n) ts
        (clauses.map fun c => (c.decl (some (forkName n)) []).raw, n + 1) us) ∧
      ∀ xs k vs, Yields (parseForkBlock src n) ts (xs, k) vs → k = n + 1 ∧
        ∀ more more', xs ++ more =
            (clauses.map fun c => (c.decl (some (forkName n)) []).raw) ++ more' →
          Clauses WhenClause.Intact clauses ∧
            xs = (clauses.map fun c => (c.decl (some (forkName n)) []).raw) ∧ vs = us := by
  simp only [Block.pieces, List.append_assoc, List.cons_append, List.nil_append] at h
  obtain ⟨opening, at₁, length₁⟩ := At.keyword .fork h rfl (by decide)
  obtain ⟨brace, at₂, length₂⟩ := at₁.lBrace
  obtain ⟨us, at₃, length₃, all, only⟩ :=
    @At.members _ _ _ _ _ _ (fun r => { r with joinGroup := some (forkName n) }) at₂ formed (by
      intro r r' group waits same
      cases r
      cases r'
      simp_all)
  obtain ⟨close, after, length₄⟩ := at₃.rBrace
  refine ⟨us.advance, after, opening, by omega, fun whole => ?_, fun xs k vs read => ?_⟩
  · rw [parseForkBlock, expect_bind opening, expect_bind brace]
    refine (all whole).bind ?_
    rw [expect_bind close]
    exact yields_pure.mpr ⟨rfl, rfl⟩
  · rw [parseForkBlock, expect_bind opening, expect_bind brace] at read
    obtain ⟨members, us', run, rest⟩ := yields_bind.mp read
    obtain ⟨tok, us'', taken, rest⟩ := yields_bind.mp rest
    obtain ⟨pair, rfl⟩ := yields_pure.mp rest
    cases pair
    refine ⟨rfl, fun more more' same => ?_⟩
    obtain ⟨whole, rfl, rfl⟩ := only xs us' more more' run same
    exact ⟨whole, rfl, (yields_expect.mp taken).2.2⟩

theorem At.join [SerdeJson] {group : String} {clauses : List WhenClause}
    (h : At src ((Block.join group clauses).pieces ++ ps) ts) (name : IsName group)
    (formed : ∀ c ∈ clauses, c.Formed) :
    ∃ us, At src ps us ∧ ts.current.kind = .join ∧ us.rest.length < ts.rest.length ∧
      (Clauses WhenClause.Intact clauses → Yields (parseJoinBlock src) ts
        (clauses.map fun c => (c.decl none [group]).raw, group) us) ∧
      ∀ xs g vs more more', Yields (parseJoinBlock src) ts (xs, g) vs →
        xs ++ more = (clauses.map fun c => (c.decl none [group]).raw) ++ more' →
        Clauses WhenClause.Intact clauses ∧
          xs = (clauses.map fun c => (c.decl none [group]).raw) ∧ g = group ∧ vs = us := by
  simp only [Block.pieces, List.append_assoc, List.cons_append, List.nil_append] at h
  obtain ⟨opening, at₁, length₁⟩ := At.keyword .join h rfl (by decide)
  obtain ⟨ident, at₂, length₂⟩ := at₁.name name
  obtain ⟨brace, at₃, length₃⟩ := at₂.lBrace
  obtain ⟨us, at₄, length₄, all, only⟩ :=
    @At.members _ _ _ _ _ _ (fun r => { r with requires := [group] }) at₃ formed (by
      intro r r' group waits same
      cases r
      cases r'
      simp_all)
  obtain ⟨close, after, length₅⟩ := at₄.rBrace
  refine ⟨us.advance, after,
    opening, by omega, fun whole => ?_, fun xs g vs more more' read same => ?_⟩
  · rw [parseJoinBlock, expect_bind opening, ident_bind ident, expect_bind brace]
    refine (all whole).bind ?_
    rw [expect_bind close]
    exact yields_pure.mpr ⟨rfl, rfl⟩
  · rw [parseJoinBlock, expect_bind opening, ident_bind ident, expect_bind brace] at read
    obtain ⟨members, us', run, rest⟩ := yields_bind.mp read
    obtain ⟨tok, us'', taken, rest⟩ := yields_bind.mp rest
    obtain ⟨pair, rfl⟩ := yields_pure.mp rest
    cases pair
    obtain ⟨whole, rfl, rfl⟩ := only xs us' more more' run same
    exact ⟨whole, rfl, rfl, (yields_expect.mp taken).2.2⟩

/-! ## Documents -/

omit [RustStd] in
/-- The declarations read so far with those of one more block. -/
def DocState.add (doc : DocState) : Block → DocState
  | .signal id states _ initial clauses => { doc with
      signals := doc.signals ++
        [{ id, states, initial, transitions := clauses.map OnClause.decl }]
      seenSignals := insert id doc.seenSignals }
  | .fork clauses => { doc with
      forkCounter := doc.forkCounter + 1
      forkGroups := doc.forkGroups ++ [forkName doc.forkCounter]
      rawReactions := doc.rawReactions ++
        clauses.map fun c => (c.decl (some (forkName doc.forkCounter)) []).raw }
  | .join group clauses => { doc with
      joinGroupRefs := doc.joinGroupRefs ++ [group]
      rawReactions := doc.rawReactions ++ clauses.map fun c => (c.decl none [group]).raw }

omit [RustStd] in
theorem checkJoinRefs_ok {forkGroups refs : List String} (h : ∀ g ∈ refs, g ∈ forkGroups) :
    checkJoinRefs forkGroups refs = .ok () := by
  have none_missing : refs.find? (· ∉ forkGroups) = none := by
    rw [List.find?_eq_none]
    intro g member
    simpa using h g member
  rw [checkJoinRefs, none_missing]

/-- Later blocks only add declarations. -/
theorem parseBlock_grows {doc : DocState} {next : DocState ⊕ DocState} {us : Tokens Token}
    (h : Yields (parseBlock src doc) ts next us) :
    doc.signals <+: (next.elim id id).signals ∧
      doc.rawReactions <+: (next.elim id id).rawReactions := by
  obtain rfl | ⟨doc', rfl, read⟩ := parseBlock_cases h
  · exact ⟨List.prefix_refl _, List.prefix_refl _⟩
  · cases read with
    | signal => exact ⟨List.prefix_append _ _, List.prefix_refl _⟩
    | reaction | fork | join => exact ⟨List.prefix_refl _, List.prefix_append _ _⟩
    | guard | component | instantiate => exact ⟨List.prefix_refl _, List.prefix_refl _⟩

theorem blocks_grow {doc final : DocState} {us : Tokens Token} {n : Nat}
    (run : Iterates (parseBlock src) n doc ts final us) :
    doc.signals <+: final.signals ∧ doc.rawReactions <+: final.rawReactions := by
  induction run with
  | done last => exact parseBlock_grows last
  | step first _ ih =>
      have grown := parseBlock_grows first
      exact ⟨grown.1.trans ih.1, grown.2.trans ih.2⟩

/-- One block: its declarations are added if it is intact. If what is added agrees
with them as far as both go, then it is. -/
theorem At.block [SerdeJson] {block : Block} {doc : DocState} (h : At src (block.pieces ++ ps) ts)
    (formed : block.Formed)
    (fresh : ∀ sig ∈ signalsOf [block], sig.id ∉ doc.seenSignals) :
    ∃ us, At src ps us ∧ us.rest.length < ts.rest.length ∧
      (block.Intact → Yields (parseBlock src doc) ts (.inl (doc.add block)) us) ∧
      ∀ next vs, Yields (parseBlock src doc) ts next vs → ∃ doc', next = .inl doc' ∧
        ∀ more₁ more₁' more₂ more₂', doc'.signals ++ more₁ = (doc.add block).signals ++ more₁' →
          doc'.rawReactions ++ more₂ = (doc.add block).rawReactions ++ more₂' →
          block.Intact ∧ doc' = doc.add block ∧ vs = us := by
  cases block with
  | signal id states trailing initial clauses =>
      obtain ⟨name, names, first, declared, formed⟩ := formed
      obtain ⟨us, after, opening, shorter, exact⟩ := h.signal name names first declared formed
        (fresh _ (List.mem_singleton.mpr rfl))
      refine ⟨us, after, shorter, fun whole => ?_, fun next vs read => ?_⟩
      · rw [parseBlock, peek_bind, opening]
        exact ((exact us).mpr ⟨rfl, whole⟩).bind (yields_pure.mpr ⟨rfl, rfl⟩)
      · rw [parseBlock, peek_bind, opening] at read
        obtain ⟨signal, us', parsed, rest⟩ := yields_bind.mp read
        obtain ⟨rfl, rfl⟩ := yields_pure.mp rest
        refine ⟨_, rfl, fun more₁ more₁' more₂ more₂' signals _ => ?_⟩
        simp only [DocState.add, List.append_assoc, List.append_cancel_left_eq] at signals
        obtain ⟨rfl, _⟩ := List.cons.inj signals
        obtain ⟨rfl, whole⟩ := (exact vs).mp parsed
        exact ⟨whole, rfl, rfl⟩
  | fork clauses =>
      obtain ⟨us, after, opening, shorter, all, only⟩ :=
        @At.fork _ _ _ _ _ _ doc.forkCounter h formed
      refine ⟨us, after, shorter, fun whole => ?_, fun next vs read => ?_⟩
      · rw [parseBlock, peek_bind, opening]
        exact (all whole).bind (yields_pure.mpr ⟨rfl, rfl⟩)
      · rw [parseBlock, peek_bind, opening] at read
        obtain ⟨⟨members, n⟩, us', parsed, rest⟩ := yields_bind.mp read
        obtain ⟨rfl, agree⟩ := only members n us' parsed
        obtain ⟨rfl, rfl⟩ := yields_pure.mp rest
        refine ⟨_, rfl, fun more₁ more₁' more₂ more₂' _ reactions => ?_⟩
        simp only [DocState.add, List.append_assoc, List.append_cancel_left_eq] at reactions
        obtain ⟨whole, rfl, rfl⟩ := agree more₂ more₂' reactions
        exact ⟨whole, rfl, rfl⟩
  | join group clauses =>
      obtain ⟨name, formed⟩ := formed
      obtain ⟨us, after, opening, shorter, all, only⟩ := h.join name formed
      refine ⟨us, after, shorter, fun whole => ?_, fun next vs read => ?_⟩
      · rw [parseBlock, peek_bind, opening]
        exact (all whole).bind (yields_pure.mpr ⟨rfl, rfl⟩)
      · rw [parseBlock, peek_bind, opening] at read
        obtain ⟨⟨members, g⟩, us', parsed, rest⟩ := yields_bind.mp read
        obtain ⟨rfl, rfl⟩ := yields_pure.mp rest
        refine ⟨_, rfl, fun more₁ more₁' more₂ more₂' _ reactions => ?_⟩
        simp only [DocState.add, List.append_assoc, List.append_cancel_left_eq] at reactions
        obtain ⟨whole, rfl, rfl, rfl⟩ := only members g vs more₂ more₂' parsed reactions
        exact ⟨whole, rfl, rfl⟩

section

omit [RustStd]

variable (doc : DocState) (block : Block) (blocks : List Block)

theorem signalsOf_cons : signalsOf (block :: blocks) = signalsOf [block] ++ signalsOf blocks := by
  rw [signalsOf, signalsOf, signalsOf, ← List.filterMap_append]
  rfl

theorem reactionsOf_cons (n : Nat) : reactionsOf n (block :: blocks) =
    reactionsOf n [block] ++ reactionsOf (n + forkCount [block]) blocks := by
  cases block <;> simp [reactionsOf, forkCount]

namespace DocState

theorem signals_add : (doc.add block).signals = doc.signals ++ signalsOf [block] := by
  cases block <;> simp [add, signalsOf]

theorem rawReactions_add : (doc.add block).rawReactions =
    doc.rawReactions ++ (reactionsOf doc.forkCounter [block]).map ReactionDecl.raw := by
  cases block <;> simp [add, reactionsOf]

theorem forkCounter_add : (doc.add block).forkCounter = doc.forkCounter + forkCount [block] := by
  cases block <;> simp [add, forkCount]

theorem mem_seenSignals_add (s : String) : s ∈ (doc.add block).seenSignals ↔
    s ∈ doc.seenSignals ∨ s ∈ (signalsOf [block]).map SignalDecl.id := by
  cases block <;> simp [add, signalsOf, or_comm]

theorem mem_seenSignals_foldl (s : String) : s ∈ (blocks.foldl add doc).seenSignals ↔
    s ∈ doc.seenSignals ∨ s ∈ (signalsOf blocks).map SignalDecl.id := by
  induction blocks generalizing doc with
  | nil => simp [signalsOf]
  | cons block blocks ih =>
      rw [List.foldl_cons, ih, mem_seenSignals_add, signalsOf_cons block blocks, List.map_append,
        List.mem_append, or_assoc]

theorem signals_foldl : (blocks.foldl add doc).signals = doc.signals ++ signalsOf blocks := by
  induction blocks generalizing doc with
  | nil => exact (List.append_nil _).symm
  | cons block blocks ih =>
      rw [List.foldl_cons, ih, signals_add, signalsOf_cons block blocks, List.append_assoc]

theorem rawReactions_foldl : (blocks.foldl add doc).rawReactions =
    doc.rawReactions ++ (reactionsOf doc.forkCounter blocks).map ReactionDecl.raw := by
  induction blocks generalizing doc with
  | nil => exact (List.append_nil _).symm
  | cons block blocks ih =>
      rw [List.foldl_cons, ih, rawReactions_add, forkCounter_add, reactionsOf_cons block blocks,
        List.map_append, List.append_assoc]

end DocState

end

/-- The loop over the blocks reads them all if they are intact. It ends with their
declarations only then. -/
theorem At.blocks [SerdeJson] {blocks : List Block} {doc : DocState}
    (h : At src (blocks.flatMap Block.pieces) ts) (formed : ∀ block ∈ blocks, block.Formed)
    (distinct : ((signalsOf blocks).map SignalDecl.id).Nodup)
    (fresh : ∀ sig ∈ signalsOf blocks, sig.id ∉ doc.seenSignals) :
    blocks.length ≤ ts.rest.length ∧
      ((∀ block ∈ blocks, block.Intact) →
        ∃ us, Iterates (parseBlock src) blocks.length doc ts (blocks.foldl DocState.add doc) us) ∧
      ∀ n final us, Iterates (parseBlock src) n doc ts final us →
        final.signals = (blocks.foldl DocState.add doc).signals →
        final.rawReactions = (blocks.foldl DocState.add doc).rawReactions →
        ∀ block ∈ blocks, block.Intact := by
  induction blocks generalizing ts doc with
  | nil =>
      refine ⟨Nat.zero_le _, fun _ => ⟨ts, .done ?_⟩, by simp⟩
      rw [parseBlock, peek_bind, h.finish]
      exact yields_pure.mpr ⟨rfl, rfl⟩
  | cons block blocks ih =>
      rw [List.flatMap_cons] at h
      rw [signalsOf_cons] at distinct fresh
      obtain ⟨us₁, after, shorter, reads, only⟩ := At.block h (formed block List.mem_cons_self)
        (fun sig member => fresh sig (List.mem_append_left _ member))
      rw [List.map_append, List.nodup_append] at distinct
      obtain ⟨_, later, apart⟩ := distinct
      have unseen : ∀ sig ∈ signalsOf blocks, sig.id ∉ (doc.add block).seenSignals := by
        intro sig member seen
        rcases (doc.mem_seenSignals_add block sig.id).mp seen with seen | own
        · exact fresh sig (List.mem_append_right _ member) seen
        · exact apart _ own _ (List.mem_map_of_mem member) rfl
      obtain ⟨length, all, intact⟩ := ih after
        (fun b member => formed b (List.mem_cons_of_mem _ member)) later unseen
      refine ⟨by simp only [List.length_cons]; omega, fun whole => ?_, fun n final us run signals
        reactions => ?_⟩
      · obtain ⟨us, run⟩ := all fun b member => whole b (List.mem_cons_of_mem _ member)
        exact ⟨us, .step (reads (whole block List.mem_cons_self)) run⟩
      · rw [List.foldl_cons] at signals reactions
        cases run with
        | done last =>
            obtain ⟨_, other, _⟩ := only _ _ last
            cases other
        | step first run =>
            obtain ⟨doc', same, agree⟩ := only _ _ first
            cases same
            obtain ⟨⟨more₁, grown₁⟩, ⟨more₂, grown₂⟩⟩ := blocks_grow run
            obtain ⟨whole, rfl, rfl⟩ := agree more₁ (signalsOf blocks) more₂ _
              (by rw [grown₁, signals, DocState.signals_foldl])
              (by rw [grown₂, reactions, DocState.rawReactions_foldl])
            have rest := intact _ final us run signals reactions
            intro b member
            rcases List.mem_cons.mp member with rfl | member
            · exact whole
            · exact rest b member

end

end SignalTopology.Ddl
