import SignalTopology.Ddl.Blocks
import SignalTopology.Ddl.Documents

/-!
# Parsing what was written

In front of the pieces of a block the parser returns what the block declares and
stands behind it. The guards here are any tokens that cannot end a guard, not only
those that the guard language accepts.
-/

namespace SignalTopology.Ddl

open TokenParser

variable [RustStd]

section

variable {src : List Char} {ps : List Piece} {ts us : Tokens Token}

/-! ## Clauses of signals -/

theorem GuardSpan.unbroken {text : List Char} (h : GuardSpan text) : Unbroken text := by
  obtain ⟨kinds, spans, all⟩ := h
  exact ⟨kinds, spans.kindsOf, all⟩

theorem GuardSpan.legible {text : List Char} (h : GuardSpan text) :
    ∃ kinds, Legible text kinds := by
  obtain ⟨kinds, spans, _⟩ := h
  exact ⟨kinds, spans.legible⟩

/-- A clause is read as its declaration. -/
theorem At.printedTransition {c : OnClause} {states : List String} {id : String}
    (h : At src (c.pieces ++ ps) ts) (printed : c.Printed states)
    (other : ∀ us, At src ps us → us.current.kind ≠ .when ∧ us.current.kind ≠ .lBrace) :
    ∃ us, At src ps us ∧ ts.current.kind = .on ∧ us.rest.length < ts.rest.length ∧
      Yields (parseTransition src id states) ts c.decl us := by
  obtain ⟨us₁, at₁, opening, length₁, whole⟩ := @At.transitionHead _ _ _ _ _ _ id h printed.named
  obtain ⟨us₂, at₂, length₂, guard⟩ := at₁.transitionGuard
    (fun g same => (printed.guard g same).1.legible) (by
      intro none
      rw [none] at at₁
      cases block : c.block with
      | none =>
          rw [block] at at₁
          exact (other _ at₁).1
      | some hooks =>
          rw [block] at at₁
          rw [(At.lBrace at₁).1]
          simp)
  obtain ⟨us₃, after, length₃, block⟩ := at₂.actionBlock printed.named.hooks (by
    intro none
    rw [none] at at₂
    exact (other _ at₂).2)
  refine ⟨us₃, after, opening, by omega, (whole _ _).mpr ⟨_, us₂, (guard us₂).mpr ⟨rfl, ?_⟩, _,
    block, rfl⟩⟩
  intro g same
  obtain ⟨span, explicit⟩ := printed.guard g same
  obtain ⟨hooks, block⟩ := Option.isSome_iff_exists.mp explicit
  rw [block] at at₂
  exact ⟨span.unbroken, by rw [(At.lBrace at₂).1]; rfl⟩

/-- Clauses that are read one by one are read up to the closing brace. -/
theorem At.readClauses {γ δ : Type} {pieces : γ → List Piece} {decl : γ → δ} {item : Parse δ}
    {starts : Token → Bool} {clauses : List γ}
    (h : At src (clauses.flatMap pieces ++ .rBrace :: ps) ts)
    (each : ∀ c ∈ clauses, ∀ next, (∀ c', next = some c' → c' ∈ clauses) → ∀ ps ts,
      At src (pieces c ++ (following pieces next ++ ps)) ts →
      ∃ us, At src (following pieces next ++ ps) us ∧ starts ts.current = true ∧
        us.rest.length < ts.rest.length ∧ Yields item ts (decl c) us)
    (stop : ∀ tok : Token, tok.kind = .rBrace → starts tok = false) :
    ∃ us, At src (.rBrace :: ps) us ∧ us.rest.length ≤ ts.rest.length ∧
      Yields (many starts item) ts (clauses.map decl) us := by
  obtain ⟨us, after, length, all, _⟩ :=
    @At.clauses _ _ _ _ _ _ pieces decl (fun _ _ => True) item starts _ h
      (fun c member next inside ps ts front => by
        obtain ⟨us, after, begins, shorter, read⟩ := each c member next inside ps ts front
        refine ⟨us, after, begins, shorter, fun vs => ⟨fun again => ?_, ?_⟩⟩
        · exact ⟨(read.unique again).2.symm, trivial⟩
        · rintro ⟨rfl, _⟩
          exact read)
      stop
  have every : ∀ {clauses : List γ}, Clauses (fun _ _ => True) clauses := by
    intro clauses
    induction clauses with
    | nil => trivial
    | cons c clauses ih => exact ⟨trivial, ih⟩
  refine ⟨us, after, by omega, yields_many.mpr ⟨all every, ?_⟩⟩
  rw [List.length_map]
  omega

/-- A signal is read as its declaration. -/
theorem At.printedSignal {s : SignalBlock} {seen : Finset String} (h : At src (s.pieces ++ ps) ts)
    (printed : s.Printed) (fresh : s.id ∉ seen) :
    ∃ us, At src ps us ∧ ts.current.kind = .signal ∧ us.rest.length < ts.rest.length ∧
      Yields (parseSignal src seen) ts s.decl us := by
  obtain ⟨us₁, at₁, opening, length₁, whole⟩ :=
    At.signalHead h printed.id printed.states printed.initial printed.declared fresh
  obtain ⟨us₂, at₂, length₂, read⟩ :=
    @At.readClauses _ _ _ _ _ _ OnClause.pieces OnClause.decl
      (parseTransition src s.id s.states) (fun tok => tok.kind = .on) _ at₁
      (fun c member next _ ps ts inside => by
        obtain ⟨us, after, on, shorter, read⟩ :=
          @At.printedTransition _ _ _ _ _ _ s.id inside (printed.clauses c member) (by
            intro us after
            rw [At.nextOn after]
            cases next <;> simp)
        exact ⟨us, after, by simp [on], shorter, read⟩)
      (fun tok close => by simp [close])
  obtain ⟨close, after, length₃⟩ := at₂.rBrace
  exact ⟨us₂.advance, after, opening, by omega, (whole _ _).mpr ⟨_, us₂, read, close, rfl, rfl⟩⟩

/-! ## Reactions -/

/-- The guard of a reaction before it is resolved. -/
def rawGuard (guard : List Char) : RawGuard :=
  if isReference guard then .ref (String.ofList guard) else .lit (String.ofList guard)

/-- The reaction of a clause before its guard is resolved. -/
def WhenClause.raw (joinGroup : Option String) (requires : List String) (c : WhenClause) :
    RawReaction :=
  { (c.decl joinGroup requires).raw with guard := c.guard.map rawGuard }

theorem At.guardSpec {guard : List Char} (h : At src (.word "when" :: .span guard :: ps) ts)
    (span : GuardSpan guard) (finish : ∀ us, At src ps us → us.current.kind.endsGuard = true) :
    ∃ us, At src ps us ∧ us.rest.length < ts.rest.length ∧
      Yields (Ddl.parseGuardSpec src) ts (rawGuard guard) us := by
  obtain ⟨kinds, spans, all⟩ := span
  obtain ⟨toks, us, nonempty, read, split, after, exact⟩ := h.capture spans.legible
  obtain ⟨_, _, shorter⟩ := h.word isWord_when
  have inside : ∀ tok ∈ toks, tok.kind.endsGuard = false := by
    intro tok member
    rw [spans.kindsOf] at read
    cases read
    exact all tok.kind (List.mem_map_of_mem member)
  have captured := (exact toks us).mpr ⟨rfl, rfl, inside, finish us after⟩
  refine ⟨us, after, ?_, ?_⟩
  · have lengths := congrArg List.length split
    simp only [Tokens.toList, List.length_cons, List.length_append] at lengths
    omega
  · rw [Ddl.parseGuardSpec, captured.bind_iff, rawGuard, isReference, read]
    dsimp only
    split
    · next name single =>
        rw [single]
        exact yields_pure.mpr ⟨rfl, rfl⟩
    · next other =>
        split
        · next name found => exact absurd (Option.some.inj found) (other name)
        · exact yields_pure.mpr ⟨rfl, rfl⟩

/-- The optional guard of a reaction, a reference included. -/
theorem At.printedGuard {guard : Option (List Char)} (h : At src (guardPieces guard ++ ps) ts)
    (span : ∀ g, guard = some g → GuardSpan g ∧
      ∀ name kinds, kindsOf g ≠ some (.identifier name :: .enters :: kinds))
    (head : guard = none → ts.current.kind = .when → isReactionHead ts = true)
    (finish : guard ≠ none → ∀ us, At src ps us → us.current.kind.endsGuard = true) :
    ∃ us, At src ps us ∧ us.rest.length ≤ ts.rest.length ∧
      Yields (parseReactionGuard src) ts (guard.map rawGuard) us := by
  rw [parseReactionGuard]
  cases guard with
  | none =>
      refine ⟨ts, h, Nat.le_refl _, ?_⟩
      have stop : ¬ (ts.current.kind = .when && !isReactionHead ts) = true := by
        simp only [Bool.and_eq_true, decide_eq_true_eq, Bool.not_eq_true', not_and,
          Bool.not_eq_false]
        exact head rfl
      rw [peek_bind, Yields.bind_iff (yields_atReactionHead.mpr ⟨rfl, rfl⟩), if_neg stop]
      exact yields_pure.mpr ⟨rfl, rfl⟩
  | some g =>
      obtain ⟨opening, _, _⟩ := At.keyword .when h rfl (by decide)
      obtain ⟨guarded, plain⟩ := span g rfl
      obtain ⟨kinds, legible⟩ := guarded.legible
      have ends := finish (by simp)
      have shape := At.not_head h legible (fun name more same => plain name more (by
        rw [legible.read, same])) fun us after same => by
          have stop := ends us after
          rw [same] at stop
          cases stop
      obtain ⟨us, after, shorter, read⟩ := At.guardSpec h guarded ends
      refine ⟨us, after, Nat.le_of_lt shorter, ?_⟩
      rw [peek_bind, Yields.bind_iff (yields_atReactionHead.mpr ⟨rfl, rfl⟩),
        if_pos (by simp [opening, shape])]
      exact yields_map.mpr ⟨_, read, rfl⟩

theorem BraceSpan.legible {text : List Char} (h : BraceSpan text) :
    ∃ kinds, Legible text (.lBrace :: kinds) ∧ closes 1 kinds = true := by
  obtain ⟨kinds, spans, balanced⟩ := h
  exact ⟨kinds, spans.legible, balanced⟩

/-- A clause of a reaction, a fork or a join is read as its reaction. -/
theorem At.printedReaction {c : WhenClause} {next : Option WhenClause}
    (h : At src (c.pieces ++ (following WhenClause.pieces next ++ ps)) ts) (printed : c.Printed)
    (plain : c.Plain) (later : ∀ c', next = some c' → c'.Printed) :
    ∃ us, At src (following WhenClause.pieces next ++ ps) us ∧ ts.current.kind = .when ∧
      us.rest.length < ts.rest.length ∧
      Yields (parseReactionBody src) ts (c.raw none []) us := by
  obtain ⟨ts₁, at₁, opening, length₁, body⟩ := h.reactionStart printed.named
  obtain ⟨us₁, at₂, length₂, guard⟩ := At.printedGuard at₁
    (fun g same => ⟨(printed.guard g same).1, plain g same⟩) (by
      intro unguarded when
      rw [unguarded] at at₁
      have front := At.reactionFront at₁
      rw [when] at front
      cases block : c.block <;> cases hook : c.onFail <;> cases same : next <;>
        simp only [block, hook, same, frontKind, Option.isNone_none, Option.isNone_some,
          reduceCtorEq] at front
      next c' =>
        rw [block, hook, same] at at₁
        exact At.whenHead at₁ (later c' same).named.fromSignal) (by
      intro guarded us after
      obtain ⟨g, same⟩ := Option.ne_none_iff_exists'.mp guarded
      rw [At.reactionFront after, frontKind_endsGuard]
      exact .inl (printed.guard g same).2)
  obtain ⟨us₂, at₃, length₃, payload⟩ := at₂.reactionPayload
    (fun text same => (printed.payload text same).legible) (by
      intro none
      rw [At.reactionFront at₂, none]
      cases c.onFail <;> cases next <;> simp [frontKind])
  obtain ⟨us₃, after, length₄, onFail⟩ := at₃.onFail printed.named.onFail (by
    intro none
    rw [none] at at₃
    have front : us₂.current.kind = frontKind .none Option.none next.isNone := At.reactionFront at₃
    rw [front]
    cases next <;> simp [frontKind])
  exact ⟨us₃, after, opening, by omega, (body _ _).mpr
    ⟨_, us₁, guard, _, us₂, payload, _, onFail, rfl⟩⟩

/-- The members of a fork or a join. -/
theorem At.printedMembers {clauses : List WhenClause} {mark : RawReaction → RawReaction}
    (h : At src (clauses.flatMap WhenClause.pieces ++ .rBrace :: ps) ts)
    (printed : ∀ c ∈ clauses, c.Printed) (plain : ∀ c ∈ clauses, c.Plain) :
    ∃ us, At src (.rBrace :: ps) us ∧ us.rest.length ≤ ts.rest.length ∧
      Yields (parseMembers src mark) ts (clauses.map fun c => mark (c.raw none [])) us :=
  @At.readClauses _ _ _ _ _ _ WhenClause.pieces (fun c => mark (c.raw none []))
    (mark <$> parseReactionBody src) (fun tok => tok.kind = .when) _ h
    (fun c member next inside ps ts front => by
      obtain ⟨us, after, when, shorter, read⟩ :=
        front.printedReaction (printed c member) (plain c member) fun c' same =>
          printed c' (inside c' same)
      exact ⟨us, after, by simp [when], shorter, yields_map.mpr ⟨_, read, rfl⟩⟩)
    (fun tok close => by simp [close])

theorem At.printedFork {clauses : List WhenClause} {n : Nat}
    (h : At src ((Item.fork clauses).pieces ++ ps) ts) (printed : ∀ c ∈ clauses, c.Printed)
    (plain : ∀ c ∈ clauses, c.Plain) :
    ∃ us, At src ps us ∧ ts.current.kind = .fork ∧ us.rest.length < ts.rest.length ∧
      Yields (parseForkBlock src n) ts
        (clauses.map (WhenClause.raw (some (forkName n)) []), n + 1) us := by
  simp only [Item.pieces, Block.pieces, List.append_assoc, List.cons_append, List.nil_append] at h
  obtain ⟨opening, at₁, length₁⟩ := At.keyword .fork h rfl (by decide)
  obtain ⟨brace, at₂, length₂⟩ := at₁.lBrace
  obtain ⟨us, at₃, length₃, members⟩ := @At.printedMembers _ _ _ _ _
    (fun r => { r with joinGroup := some (forkName n) }) at₂ printed plain
  obtain ⟨close, after, length₄⟩ := at₃.rBrace
  refine ⟨us.advance, after, opening, by omega, ?_⟩
  rw [parseForkBlock, expect_bind opening, expect_bind brace, members.bind_iff, expect_bind close]
  exact yields_pure.mpr ⟨rfl, rfl⟩

theorem At.printedJoin {group : String} {clauses : List WhenClause}
    (h : At src ((Item.join group clauses).pieces ++ ps) ts) (name : IsName group)
    (printed : ∀ c ∈ clauses, c.Printed) (plain : ∀ c ∈ clauses, c.Plain) :
    ∃ us, At src ps us ∧ ts.current.kind = .join ∧ us.rest.length < ts.rest.length ∧
      Yields (parseJoinBlock src) ts (clauses.map (WhenClause.raw none [group]), group) us := by
  simp only [Item.pieces, Block.pieces, List.append_assoc, List.cons_append, List.nil_append] at h
  obtain ⟨opening, at₁, length₁⟩ := At.keyword .join h rfl (by decide)
  obtain ⟨ident, at₂, length₂⟩ := at₁.name name
  obtain ⟨brace, at₃, length₃⟩ := at₂.lBrace
  obtain ⟨us, at₄, length₄, members⟩ := @At.printedMembers _ _ _ _ _
    (fun r => { r with requires := [group] }) at₃ printed plain
  obtain ⟨close, after, length₅⟩ := at₄.rBrace
  refine ⟨us.advance, after, opening, by omega, ?_⟩
  rw [parseJoinBlock, expect_bind opening, ident_bind ident, expect_bind brace, members.bind_iff,
    expect_bind close]
  exact yields_pure.mpr ⟨rfl, rfl⟩

/-- A reaction block holds one clause. -/
theorem At.reactionBlock {c : WhenClause} (h : At src (reactionPieces c ++ ps) ts)
    (printed : c.Printed) (plain : c.Plain) :
    ∃ us, At src ps us ∧ ts.current.kind = .reaction ∧ us.rest.length < ts.rest.length ∧
      Yields (parseReactionRaw src) ts (c.raw none []) us := by
  simp only [reactionPieces, List.append_assoc, List.cons_append, List.nil_append] at h
  obtain ⟨opening, at₁, length₁⟩ := At.keyword .reaction h rfl (by decide)
  obtain ⟨brace, at₂, length₂⟩ := at₁.lBrace
  obtain ⟨us, at₃, _, length₃, read⟩ :=
    @At.printedReaction _ _ ps _ _ none at₂ printed plain (by simp)
  obtain ⟨close, after, length₄⟩ := At.rBrace at₃
  refine ⟨us.advance, after, opening, by omega, ?_⟩
  rw [parseReactionRaw, expect_bind opening, expect_bind brace, read.bind_iff, expect_bind close]
  exact yields_pure.mpr ⟨rfl, rfl⟩

/-! ## Guard declarations -/

omit [RustStd] in
theorem stripBraces_guardBody {front expr back : List Char} (before : Guard.AllBlank front)
    (after : Guard.AllBlank back) (solid : Solid expr) :
    stripBraces (guardBody front expr back) = expr := by
  have body : front ++ (expr ++ (back ++ ['}'])) = (front ++ (expr ++ back)) ++ ['}'] := by simp
  rw [guardBody, body, stripBraces, if_pos List.getLast?_concat, List.dropLast_concat]
  exact trim_between before after solid

theorem stops_rBrace (text : List Char) : Stops text '}' := by
  refine ⟨fun _ _ _ => ?_, by decide, by decide, fun _ => by decide⟩
  rw [isWordChar_ascii (by decide)]
  decide

omit [RustStd] in
/-- Tokens that cannot end a guard stand between two braces. -/
theorem closes_of_unbroken {kinds : List TokenKind} (all : ∀ kind ∈ kinds, kind.endsGuard = false) :
    closes 1 (kinds ++ [.rBrace]) = true := by
  induction kinds with
  | nil => rfl
  | cons kind kinds ih =>
      have inside := all kind List.mem_cons_self
      have later := ih fun k member => all k (List.mem_cons_of_mem _ member)
      cases kind
      case lBrace | rBrace | eof => cases inside
      all_goals exact later

/-- The body of a guard declaration is a block of tokens. -/
theorem braceSpan_guardBody {front expr back : List Char} (span : GuardSpan expr)
    (before : Gap front) (after : Gap back) (blank : Guard.AllBlank back) :
    BraceSpan (guardBody front expr back) := by
  obtain ⟨kinds, spans, all⟩ := span
  obtain ⟨cur₁, skipped⟩ := before.lexes (Cursor.start.past ['{']) (expr ++ (back ++ ['}']))
  obtain ⟨toks, cur₂, inner, same, _⟩ := spans.reads cur₁ (back ++ ['}']) fun d first => by
    cases back with
    | nil =>
        cases first
        exact stops_rBrace expr
    | cons c back =>
        cases first
        exact stops_whitespace (blank _ List.mem_cons_self)
  obtain ⟨cur₃, skipped'⟩ := after.lexes cur₂ ['}']
  have opening := @lexes_symbol _ '{' .lBrace .start (front ++ (expr ++ (back ++ ['}'])))
    (by decide) rfl (by decide) fun _ _ => rfl
  have closing := @lexes_symbol _ '}' .rBrace cur₃ [] (by decide) rfl (by decide) fun _ _ => rfl
  have whole := opening.trans (skipped.trans (inner.trans (skipped'.trans closing)))
  refine ⟨kinds ++ [.rBrace], ⟨_, _, whole, ?_, ⟨_, rfl, rfl⟩,
    ⟨cur₃.token .rBrace ['}'], ?_, rfl⟩⟩, closes_of_unbroken all⟩
  · simp [Cursor.token, same]
  · rw [List.nil_append, List.nil_append, ← List.append_assoc, List.getLast?_concat]

/-- A guard declaration is read as its name and its expression. -/
theorem At.printedGuardDecl {id : String} {front expr back : List Char} {seen : Finset String}
    (h : At src ((Item.guard id front expr back).pieces ++ ps) ts)
    (printed : (Item.guard id front expr back).Printed) (fresh : id ∉ seen) :
    ∃ us, At src ps us ∧ ts.current.kind = .guard ∧ us.rest.length < ts.rest.length ∧
      Yields (parseGuardDecl src seen) ts { id, expr := String.ofList expr } us := by
  obtain ⟨name, span, gap, gap', before, after⟩ := printed
  obtain ⟨kinds, legible, balanced⟩ := (braceSpan_guardBody span gap gap' after).legible
  obtain ⟨_, solid⟩ := span.legible
  obtain ⟨opening, at₁, length₁⟩ := At.keyword .guard h rfl (by decide)
  obtain ⟨ident, at₂, length₂⟩ := at₁.name name
  obtain ⟨us, at₃, length₃, body⟩ := at₂.payload legible balanced
  refine ⟨us, at₃, opening, by omega, ?_⟩
  rw [parseGuardDecl, expect_bind opening, ident_bind ident]
  refine (ensure_bind (by simpa using fresh)).mpr (body.bind ?_)
  rw [stripBraces_guardBody before after solid.solid]
  exact yields_pure.mpr ⟨rfl, rfl⟩

end

end SignalTopology.Ddl
