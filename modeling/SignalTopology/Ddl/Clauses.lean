import SignalTopology.Ddl.Capture

/-!
# Parsing the clauses

One lemma for each part of a clause: in front of the pieces of the part the parser
returns what the grammar says and stands in front of what follows. For the parts
with a guard the lemma is an equivalence: the parser returns the declaration of
the clause exactly if the guard stays whole.
-/

namespace SignalTopology.Ddl

open TokenParser

variable [RustStd]

section

variable {src : List Char} {ps : List Piece} {ts us : Tokens Token}

/-! ## Keywords and symbols -/

theorem At.keyword {s : String} (kind : TokenKind) (h : At src (.word s :: ps) ts)
    (same : wordKind s.toList = kind) (ascii : isAsciiWord s = true) :
    ts.current.kind = kind ∧ At src ps ts.advance ∧
      ts.rest.length = ts.advance.rest.length + 1 := by
  have read := h.word (isWord_ascii ascii)
  rw [same] at read
  exact read

theorem At.lBrace (h : At src (.lBrace :: ps) ts) : ts.current.kind = .lBrace ∧
    At src ps ts.advance ∧ ts.rest.length = ts.advance.rest.length + 1 :=
  h.symbol (by decide) rfl (by decide)

theorem At.rBrace (h : At src (.rBrace :: ps) ts) : ts.current.kind = .rBrace ∧
    At src ps ts.advance ∧ ts.rest.length = ts.advance.rest.length + 1 :=
  h.symbol (by decide) rfl (by decide)

theorem At.colon (h : At src (.colon :: ps) ts) : ts.current.kind = .colon ∧
    At src ps ts.advance ∧ ts.rest.length = ts.advance.rest.length + 1 :=
  h.symbol (by decide) rfl (by decide)

theorem At.comma (h : At src (.comma :: ps) ts) : ts.current.kind = .comma ∧
    At src ps ts.advance ∧ ts.rest.length = ts.advance.rest.length + 1 :=
  h.symbol (by decide) rfl (by decide)

/-! ## Action blocks -/

/-- One more action id. -/
def actionItem : Parse String := do
  let _ ← advance
  return (← expectAnyIdent).1

/-- Names after commas, up to something else. -/
theorem At.moreIds {ids : List String} (h : At src (namePieces ids ++ ps) ts)
    (names : ∀ id ∈ ids, IsName id) (other : ∀ us, At src ps us → us.current.kind ≠ .comma) :
    ∃ us, At src ps us ∧ us.rest.length + ids.length ≤ ts.rest.length ∧
      Many (fun tok => tok.kind = .comma) actionItem ts ids us := by
  induction ids generalizing ts with
  | nil => exact ⟨ts, h, Nat.le_refl _, .nil (by simpa using other ts h)⟩
  | cons id ids ih =>
      obtain ⟨comma, at₁, length₁⟩ := At.comma h
      obtain ⟨ident, at₂, length₂⟩ := at₁.name (names id List.mem_cons_self)
      obtain ⟨us, after, length, more⟩ := ih at₂ fun s member =>
        names s (List.mem_cons_of_mem _ member)
      refine ⟨us, after, ?_, .cons (by simp [comma]) ?_ more⟩
      · simp only [List.length_cons]
        omega
      · rw [actionItem, advance_bind, ident_bind ident, yields_pure]
        exact ⟨rfl, rfl⟩

theorem At.actionIds {first : String} {ids : List String}
    (h : At src (.word first :: (namePieces ids ++ ps)) ts) (names : ∀ id ∈ first :: ids, IsName id)
    (other : ∀ us, At src ps us → us.current.kind ≠ .comma) :
    ∃ us, At src ps us ∧ us.rest.length < ts.rest.length ∧
      Yields parseActionIds ts (first :: ids) us := by
  obtain ⟨ident, at₁, length₁⟩ := h.name (names first List.mem_cons_self)
  obtain ⟨us, after, length, more⟩ :=
    at₁.moreIds (fun id member => names id (List.mem_cons_of_mem _ member)) other
  refine ⟨us, after, by omega, ?_⟩
  rw [parseActionIds, ident_bind ident]
  exact (yields_many.mpr ⟨more, by omega⟩).bind (yields_pure.mpr ⟨rfl, rfl⟩)

omit [RustStd] in
/-- The token of a phase. -/
def Phase.kind : Phase → TokenKind
  | exit => .onExit
  | transition => .onTransition
  | enter => .onEnter

theorem Phase.isWord (phase : Phase) : IsWord phase.keyword := by
  cases phase <;> exact isWord_ascii (by decide)

omit [RustStd] in
theorem Phase.wordKind (phase : Phase) : Ddl.wordKind phase.keyword.toList = phase.kind := by
  cases phase <;> rfl

omit [RustStd] in
/-- The phase was seen. -/
def HookState.seen (hooks : HookState) : Phase → Bool
  | .exit => hooks.seenExit
  | .transition => hooks.seenTransition
  | .enter => hooks.seenEnter

omit [RustStd] in
/-- The hooks with one more. -/
def HookState.add (hooks : HookState) (hook : Hook) : HookState where
  actions := hook.bind hooks.actions
  seenExit := hooks.seenExit || hook.phase = .exit
  seenTransition := hooks.seenTransition || hook.phase = .transition
  seenEnter := hooks.seenEnter || hook.phase = .enter

omit [RustStd] in
theorem HookState.seen_add (hooks : HookState) (hook : Hook) (phase : Phase) :
    (hooks.add hook).seen phase = (hooks.seen phase || hook.phase = phase) := by
  cases phase <;> rfl

theorem At.hook {hook : Hook} {hooks : HookState} (h : At src (hook.pieces ++ ps) ts)
    (names : ∀ id ∈ hook.ids, IsName id) (fresh : hooks.seen hook.phase = false)
    (other : ∀ us, At src ps us → us.current.kind ≠ .comma) :
    ∃ us, At src ps us ∧ us.rest.length < ts.rest.length ∧
      Yields (parseHook hooks) ts (.inl (hooks.add hook)) us := by
  obtain ⟨phase, at₁, length₁⟩ := h.word hook.phase.isWord
  rw [hook.phase.wordKind] at phase
  obtain ⟨colon, at₂, length₂⟩ := at₁.colon
  obtain ⟨us, after, length₃, ids⟩ := at₂.actionIds names other
  refine ⟨us, after, by omega, ?_⟩
  obtain ⟨name, first, more⟩ := hook
  cases name <;>
    (simp only [Phase.kind] at phase
     rw [parseHook, peek_bind, if_pos (by simp [phase]), advance_bind, expect_bind colon,
       ids.bind_iff, phase]
     refine (ensure_bind (by simpa [HookState.seen] using fresh)).mpr (yields_pure.mpr ⟨?_, rfl⟩)
     simp [HookState.add, Hook.bind, Hook.ids])

/-- The hooks of a block, up to its closing brace. -/
theorem At.hooks {list : List Hook} {hooks : HookState}
    (h : At src (list.flatMap Hook.pieces ++ .rBrace :: ps) ts)
    (names : ∀ hook ∈ list, ∀ id ∈ hook.ids, IsName id) (distinct : (list.map Hook.phase).Nodup)
    (fresh : ∀ hook ∈ list, hooks.seen hook.phase = false) :
    ∃ us, At src (.rBrace :: ps) us ∧ us.rest.length + list.length ≤ ts.rest.length ∧
      Iterates parseHook list.length hooks ts (list.foldl Hook.bind hooks.actions) us := by
  induction list generalizing ts hooks with
  | nil =>
      obtain ⟨brace, _, _⟩ := At.rBrace h
      refine ⟨ts, h, Nat.le_refl _, .done ?_⟩
      rw [parseHook, peek_bind, if_neg (by simp [brace])]
      exact yields_pure.mpr ⟨rfl, rfl⟩
  | cons hook list ih =>
      obtain ⟨other, distinct⟩ := List.nodup_cons.mp distinct
      have follows : ∀ us, At src (list.flatMap Hook.pieces ++ .rBrace :: ps) us →
          us.current.kind ≠ .comma := by
        intro us after
        cases list with
        | nil =>
            rw [(At.rBrace after).1]
            simp
        | cons next list =>
            rw [(At.word after next.phase.isWord).1, next.phase.wordKind]
            cases next.phase <;> simp [Phase.kind]
      rw [List.flatMap_cons, List.append_assoc] at h
      obtain ⟨ts', at₁, shorter, first⟩ := h.hook (names hook List.mem_cons_self)
        (fresh hook List.mem_cons_self) follows
      have unseen : ∀ next ∈ list, (hooks.add hook).seen next.phase = false := by
        intro next member
        rw [HookState.seen_add, fresh next (List.mem_cons_of_mem _ member), Bool.false_or,
          decide_eq_false_iff_not]
        exact fun same => other (same ▸ List.mem_map_of_mem member)
      obtain ⟨us, after, length, later⟩ := ih at₁
        (fun next member => names next (List.mem_cons_of_mem _ member)) distinct unseen
      refine ⟨us, after, ?_, .step first later⟩
      simp only [List.length_cons]
      omega

/-- The optional action block of a transition. -/
theorem At.actionBlock {block : Option (List Hook)} (h : At src (hookPieces block ++ ps) ts)
    (formed : ∀ hooks, block = some hooks →
      (∀ hook ∈ hooks, ∀ id ∈ hook.ids, IsName id) ∧ (hooks.map Hook.phase).Nodup)
    (other : block = none → ts.current.kind ≠ .lBrace) :
    ∃ us, At src ps us ∧ us.rest.length ≤ ts.rest.length ∧
      Yields parseActionBlock ts ((block.getD []).foldl Hook.bind {}) us := by
  cases block with
  | none =>
      refine ⟨ts, h, Nat.le_refl _, ?_⟩
      rw [parseActionBlock, peek_bind, if_neg (other rfl)]
      exact yields_pure.mpr ⟨rfl, rfl⟩
  | some hooks =>
      obtain ⟨names, distinct⟩ := formed hooks rfl
      rw [hookPieces, List.cons_append, List.append_assoc] at h
      obtain ⟨brace, at₁, length₁⟩ := h.lBrace
      obtain ⟨us, at₂, length₂, run⟩ := at₁.hooks names distinct (by
        intro hook _
        cases hook.phase <;> rfl : ∀ hook ∈ hooks, ({} : HookState).seen hook.phase = false)
      obtain ⟨close, after, length₃⟩ := at₂.rBrace
      refine ⟨us.advance, after, by omega, ?_⟩
      rw [parseActionBlock, peek_bind, if_pos brace, advance_bind]
      refine (yields_iterate.mpr ⟨_, by omega, run⟩).bind ?_
      rw [expect_bind close]
      exact yields_pure.mpr ⟨rfl, rfl⟩

/-! ## Transitions -/

/-- The names and hooks of a clause fit its signal, whatever its guard is. -/
structure OnClause.Named (states : List String) (c : OnClause) : Prop where
  event : IsName c.event
  source : ∀ s, c.source = some s → IsName s ∧ s ∈ states
  target : IsName c.target
  declared : c.target ∈ states
  hooks : ∀ hooks, c.block = some hooks →
    (∀ hook ∈ hooks, ∀ id ∈ hook.ids, IsName id) ∧ (hooks.map Hook.phase).Nodup

theorem OnClause.Formed.named {c : OnClause} {states : List String} (h : c.Formed states) :
    c.Named states :=
  { h with }

/-- What stands after a clause: the next one, or the closing brace. -/
def following {γ : Type} (pieces : γ → List Piece) : Option γ → List Piece
  | some c => pieces c
  | none => [.rBrace]

/-- The guard of a clause that the guard language accepts. -/
theorem At.accepted {guard : Option (List Char)} (h : At src (guardPieces guard ++ ps) ts)
    (text : ∀ g, guard = some g → GuardText g) :
    ∀ g, guard = some g → ∃ kinds, Legible g kinds := by
  rintro g rfl
  obtain ⟨_, inside, _⟩ := At.word h isWord_when
  exact inside.legible (text g rfl)

/-- The optional guard of a transition. -/
theorem At.transitionGuard {guard : Option (List Char)} (h : At src (guardPieces guard ++ ps) ts)
    (text : ∀ g, guard = some g → ∃ kinds, Legible g kinds)
    (other : guard = none → ts.current.kind ≠ .when) :
    ∃ us, At src ps us ∧ us.rest.length ≤ ts.rest.length ∧
      ∀ vs, Yields (parseTransitionGuard src) ts (guard.map String.ofList) vs ↔
        vs = us ∧ ∀ g, guard = some g → Unbroken g ∧ us.current.kind.endsGuard = true := by
  cases guard with
  | none =>
      refine ⟨ts, h, Nat.le_refl _, fun vs => ?_⟩
      rw [parseTransitionGuard, peek_bind, if_neg (other rfl)]
      simp
  | some g =>
      obtain ⟨opening, _, _⟩ := At.keyword .when h rfl (by decide)
      obtain ⟨kinds, legible⟩ := text g rfl
      obtain ⟨us, after, shorter, exact⟩ := At.parseGuard h legible
      refine ⟨us, after, Nat.le_of_lt shorter, fun vs => ?_⟩
      rw [parseTransitionGuard, peek_bind, if_pos opening, yields_map]
      constructor
      · rintro ⟨text, read, same⟩
        cases same
        obtain ⟨rfl, whole⟩ := (exact vs).mp read
        refine ⟨rfl, fun g' same => ?_⟩
        cases same
        exact whole
      · rintro ⟨rfl, whole⟩
        exact ⟨_, (exact vs).mpr ⟨rfl, whole g rfl⟩, rfl⟩

theorem At.nextOn {next : Option OnClause} (h : At src (following OnClause.pieces next ++ ps) ts) :
    ts.current.kind = if next.isNone then .rBrace else .on := by
  cases next with
  | none => exact (At.rBrace h).1
  | some c => exact (At.keyword .on h rfl (by decide)).1

theorem At.source {source : Option String} {states : List String} {id : String}
    (h : At src (sourcePiece source :: ps) ts)
    (declared : ∀ s, source = some s → IsName s ∧ s ∈ states) :
    At src ps ts.advance ∧ ts.rest.length = ts.advance.rest.length + 1 ∧
      Yields (parseFromState id states) ts (source.getD "*") ts.advance := by
  cases source with
  | none =>
      obtain ⟨star, after, length⟩ := At.symbol h (by decide) rfl (by decide)
      refine ⟨after, length, ?_⟩
      rw [parseFromState, peek_bind, if_pos star, advance_bind]
      exact yields_pure.mpr ⟨rfl, rfl⟩
  | some s =>
      obtain ⟨name, listed⟩ := declared s rfl
      obtain ⟨ident, after, length⟩ := At.name h name
      refine ⟨after, length, ?_⟩
      rw [parseFromState, peek_bind, if_neg (by simp [ident]), ident_bind ident]
      refine (ensure_bind (by simpa using listed)).mpr (yields_pure.mpr ⟨rfl, rfl⟩)

/-- A clause up to its guard. -/
theorem At.transitionHead {c : OnClause} {states : List String} {id : String}
    (h : At src (c.pieces ++ ps) ts) (formed : c.Named states) :
    ∃ us, At src (guardPieces c.guard ++ (hookPieces c.block ++ ps)) us ∧ ts.current.kind = .on ∧
      us.rest.length < ts.rest.length ∧
      ∀ tr vs, Yields (parseTransition src id states) ts tr vs ↔ ∃ guard us',
        Yields (parseTransitionGuard src) us guard us' ∧ ∃ actions,
          Yields parseActionBlock us' actions vs ∧
            tr = { event := c.event, fromState := c.source.getD "*", toState := c.target
                   guard, actions } := by
  rw [OnClause.pieces, List.append_assoc] at h
  obtain ⟨opening, at₁, length₁⟩ := At.keyword .on h rfl (by decide)
  obtain ⟨event, at₂, length₂⟩ := at₁.name formed.event
  obtain ⟨«from», at₃, length₃⟩ := At.keyword .from at₂ rfl (by decide)
  obtain ⟨at₄, length₄, source⟩ := at₃.source formed.source
  obtain ⟨arrow, at₅, length₅⟩ := at₄.arrow
  obtain ⟨target, at₆, length₆⟩ := at₅.name formed.target
  rw [List.append_assoc] at at₆
  refine ⟨_, at₆, opening, by omega, fun tr vs => ?_⟩
  rw [parseTransition, expect_bind opening, ident_bind event, expect_bind «from», source.bind_iff,
    expect_bind arrow, ident_bind target]
  refine (ensure_bind (by simpa using formed.declared)).trans ?_
  rw [yields_bind]
  constructor
  · rintro ⟨guard, us', read, rest⟩
    obtain ⟨actions, us'', taken, rest⟩ := yields_bind.mp rest
    obtain ⟨rfl, rfl⟩ := yields_pure.mp rest
    exact ⟨guard, us', read, actions, taken, rfl⟩
  · rintro ⟨guard, us', read, actions, taken, rfl⟩
    exact ⟨guard, us', read, taken.bind (yields_pure.mpr ⟨rfl, rfl⟩)⟩

/-- In front of a clause, the parser returns its declaration exactly if its guard
stays whole. -/
theorem At.transition {c : OnClause} {states : List String} {id : String}
    {next : Option OnClause} (h : At src (c.pieces ++ (following OnClause.pieces next ++ ps)) ts)
    (formed : c.Formed states) :
    ∃ us, At src (following OnClause.pieces next ++ ps) us ∧ ts.current.kind = .on ∧
      us.rest.length < ts.rest.length ∧ ∀ vs, Yields (parseTransition src id states) ts c.decl vs ↔
        vs = us ∧ c.Intact next.isNone := by
  obtain ⟨us, at₆, opening, shorter, whole⟩ := @At.transitionHead _ _ _ _ _ _ id h formed.named
  -- what may stand after the guard
  have front : ∀ {us}, At src (hookPieces c.block ++ (following OnClause.pieces next ++ ps)) us →
      us.current.kind =
        if c.block.isSome then .lBrace else if next.isNone then .rBrace else .on := by
    intro us after
    cases block : c.block with
    | none =>
        rw [block] at after
        exact At.nextOn after
    | some hooks =>
        rw [block] at after
        exact (At.lBrace after).1
  obtain ⟨us₁, at₇, length₇, guard⟩ := At.transitionGuard at₆ (at₆.accepted formed.guard) (by
    intro none
    rw [none] at at₆
    rw [front at₆]
    split
    · simp
    · split <;> simp)
  obtain ⟨us₂, after, length₈, block⟩ := at₇.actionBlock formed.hooks (by
    intro none
    rw [front at₇, none]
    split
    · contradiction
    · split <;> simp)
  refine ⟨us₂, after, opening, by omega, fun vs => ?_⟩
  rw [whole]
  have ends : us₁.current.kind.endsGuard = true ↔
      c.block.isSome = true ∨ next.isNone = true := by
    rw [front at₇]
    cases c.block <;> cases next <;> simp [TokenKind.endsGuard]
  constructor
  · rintro ⟨g, us', read, actions, taken, same⟩
    obtain rfl : c.guard.map String.ofList = g := congrArg TransDecl.guard same
    obtain ⟨rfl, whole⟩ := (guard us').mp read
    obtain ⟨_, rfl⟩ := block.unique taken
    refine ⟨rfl, fun g same => ?_⟩
    obtain ⟨unbroken, finish⟩ := whole g same
    exact ⟨unbroken, ends.mp finish⟩
  · rintro ⟨rfl, intact⟩
    refine ⟨_, us₁, (guard us₁).mpr ⟨rfl, fun g same => ?_⟩, _, block, rfl⟩
    obtain ⟨unbroken, last⟩ := intact g same
    exact ⟨unbroken, ends.mpr last⟩

/-! ## Reactions -/

/-- The optional guard of a reaction. -/
theorem At.reactionGuard {guard : Option (List Char)} (h : At src (guardPieces guard ++ ps) ts)
    (text : ∀ g, guard = some g → ∃ kinds, Legible g kinds ∧
      ∀ name more, kinds ≠ .identifier name :: .enters :: more)
    (head : guard = none → ts.current.kind = .when → isReactionHead ts = true)
    (other : ∀ us, At src ps us → us.current.kind ≠ .enters) :
    ∃ us, At src ps us ∧ us.rest.length ≤ ts.rest.length ∧
      ∀ vs, Yields (parseReactionGuard src) ts (guard.map (RawGuard.lit ∘ String.ofList)) vs ↔
        vs = us ∧ ∀ g, guard = some g →
          Unbroken g ∧ ¬ Reference g ∧ us.current.kind.endsGuard = true := by
  have step : ∀ {b : Option RawGuard} {vs : Tokens Token}, Yields (parseReactionGuard src) ts b vs ↔
      Yields (if (ts.current.kind = .when && !isReactionHead ts) = true then
        some <$> Ddl.parseGuardSpec src else pure none) ts b vs := by
    intro b vs
    rw [parseReactionGuard, peek_bind,
      Yields.bind_iff (yields_atReactionHead.mpr ⟨rfl, rfl⟩)]
  cases guard with
  | none =>
      refine ⟨ts, h, Nat.le_refl _, fun vs => ?_⟩
      have stop : ¬ (ts.current.kind = .when && !isReactionHead ts) = true := by
        simp only [Bool.and_eq_true, decide_eq_true_eq, Bool.not_eq_true', not_and,
          Bool.not_eq_false]
        exact head rfl
      rw [step, if_neg stop]
      simp
  | some g =>
      obtain ⟨opening, _, _⟩ := At.keyword .when h rfl (by decide)
      obtain ⟨kinds, legible, plain⟩ := text g rfl
      have shape := At.not_head h legible plain other
      obtain ⟨us, after, shorter, exact⟩ := At.parseGuardSpec h legible
      refine ⟨us, after, Nat.le_of_lt shorter, fun vs => ?_⟩
      rw [step, if_pos (by simp [opening, shape]), yields_map]
      constructor
      · rintro ⟨raw, read, same⟩
        cases same
        obtain ⟨rfl, whole⟩ := (exact vs).mp read
        refine ⟨rfl, fun g' same => ?_⟩
        cases same
        exact whole
      · rintro ⟨rfl, whole⟩
        exact ⟨_, (exact vs).mpr ⟨rfl, whole g rfl⟩, rfl⟩

omit [RustStd] in
/-- A balanced block is read up to its last brace. -/
theorem braces {text : List Char} {start depth : Nat} {toks : List Token}
    (split : ts.toList = toks ++ us.toList) (balanced : closes depth (toks.map Token.kind) = true)
    (cut : ∀ last, toks.getLast? = some last →
      slice src start (last.start + last.len) = some text) :
    ∃ n ≤ ts.rest.length, Iterates (braceStep src start) n depth ts text us := by
  induction toks generalizing ts depth with
  | nil => cases balanced
  | cons tok toks ih =>
      obtain ⟨current, rest⟩ := ts
      obtain ⟨rfl, rfl⟩ := List.cons.inj split
      -- one more token within the block
      have inside : ∀ deeper, Yields (braceStep src start depth) ⟨current, toks ++ us.toList⟩
          (.inl deeper) (Tokens.advance ⟨current, toks ++ us.toList⟩) →
          closes deeper (toks.map Token.kind) = true →
          ∃ n ≤ (toks ++ us.toList).length,
            Iterates (braceStep src start) n depth ⟨current, toks ++ us.toList⟩ text us := by
        intro deeper step more
        cases toks with
        | nil => cases more
        | cons next toks =>
            have split : (Tokens.mk next (toks ++ us.toList)).toList =
              next :: toks ++ us.toList := rfl
            obtain ⟨n, bound, later⟩ := ih split more fun last final => cut last (by
              rw [List.getLast?_cons_cons]
              exact final)
            exact ⟨n + 1, Nat.succ_le_succ bound, .step step later⟩
      rw [List.map_cons, closes.eq_def] at balanced
      split at balanced
      · next same => cases same
      · next kinds same =>
          obtain ⟨brace, rfl⟩ := List.cons.inj same
          refine inside (depth + 1) ?_ balanced
          rw [braceStep, peek_bind, if_pos brace, advance_bind]
          exact yields_pure.mpr ⟨rfl, rfl⟩
      · next kinds same =>
          obtain ⟨brace, rfl⟩ := List.cons.inj same
          replace brace : current.kind = .rBrace := brace
          by_cases last : depth = 1
          · rw [if_pos last, List.isEmpty_iff, List.map_eq_nil_iff] at balanced
            subst last balanced
            refine ⟨0, Nat.zero_le _, .done ?_⟩
            rw [braceStep, peek_bind, if_neg (by simp [brace]), if_pos brace, advance_bind]
            dsimp only
            rw [cut current rfl]
            exact yields_pure.mpr ⟨rfl, rfl⟩
          · rw [if_neg last, Bool.and_eq_true, decide_eq_true_eq] at balanced
            obtain ⟨outer, rfl⟩ : ∃ n, depth = n + 2 := ⟨depth - 2, by omega⟩
            refine inside (outer + 1) ?_ balanced.2
            rw [braceStep, peek_bind, if_neg (by simp [brace]), if_pos brace, advance_bind]
            exact yields_pure.mpr ⟨rfl, rfl⟩
      · cases balanced
      · next kind kinds notOpen notClose notEnd same =>
          obtain ⟨rfl, rfl⟩ := List.cons.inj same
          refine inside depth ?_ balanced
          rw [braceStep, peek_bind, if_neg notOpen, if_neg notClose, if_neg notEnd, advance_bind]
          exact yields_pure.mpr ⟨rfl, rfl⟩

/-- The payload of a reaction. -/
theorem At.payload {text : List Char} {kinds : List TokenKind} (h : At src (.span text :: ps) ts)
    (legible : Legible text (.lBrace :: kinds)) (balanced : closes 1 kinds = true) :
    ∃ us, At src ps us ∧ us.rest.length < ts.rest.length ∧
      Yields (parseRawBraceBlock src) ts text us := by
  have same : (Piece.span text).kinds = .lBrace :: kinds := by simp [Piece.span, legible.read]
  obtain ⟨toks, us, split, kinds', after, lo, covers, cut⟩ := h.piece (same ▸ legible.reads)
  rw [same] at kinds'
  obtain ⟨opening, toks, rfl, brace, rfl⟩ := List.map_eq_cons_iff.mp kinds'
  obtain ⟨first, head, start⟩ := covers.first
  cases head
  obtain ⟨current, rest⟩ := ts
  obtain ⟨rfl, rfl⟩ := List.cons.inj split
  cases toks with
  | nil => cases balanced
  | cons next toks =>
      have inner : (Tokens.mk next (toks ++ us.toList)).toList = next :: toks ++ us.toList := rfl
      obtain ⟨n, bound, run⟩ := braces inner balanced
        fun last final => by
          obtain ⟨tok, tail, length⟩ := covers.last
          rw [List.getLast?_cons_cons, final] at tail
          cases tail
          rw [length]
          exact cut
      refine ⟨us, after, ?_, ?_⟩
      · show us.rest.length < (next :: (toks ++ us.toList)).length
        simp only [List.length_cons, List.length_append, Tokens.toList]
        omega
      · rw [parseRawBraceBlock, expect_bind brace]
        refine yields_iterate.mpr ⟨n, bound, ?_⟩
        rw [start]
        exact run

omit [RustStd] in
/-- The token after the event and the guard of a reaction. -/
def frontKind (block : WhenBlock) (onFail : Option String) (last : Bool) : TokenKind :=
  match block, onFail, last with
  | .empty, _, _ => .lBrace
  | .payload _, _, _ => .with
  | .none, some _, _ => .onFail
  | .none, none, false => .when
  | .none, none, true => .rBrace

omit [RustStd] in
theorem frontKind_endsGuard (block : WhenBlock) (onFail : Option String) (last : Bool) :
    (frontKind block onFail last).endsGuard = true ↔
      block ≠ .none ∨ onFail.isSome = true ∨ last = true := by
  cases block <;> cases onFail <;> cases last <;> simp [frontKind, TokenKind.endsGuard]

theorem At.reactionFront {block : WhenBlock} {onFail : Option String} {next : Option WhenClause}
    (h : At src
      (block.pieces ++ (onFailPieces onFail ++ (following WhenClause.pieces next ++ ps))) ts) :
    ts.current.kind = frontKind block onFail next.isNone := by
  cases block with
  | empty => exact (At.lBrace h).1
  | payload text => exact (At.keyword .with h rfl (by decide)).1
  | none =>
      cases onFail with
      | some hook => exact (At.keyword .onFail h rfl (by decide)).1
      | none =>
          cases next with
          | some c => exact (At.keyword .when h rfl (by decide)).1
          | none => exact (At.rBrace h).1

theorem PayloadText.legible [SerdeJson] {text : List Char} (h : PayloadText text) :
    ∃ kinds, Legible text (.lBrace :: kinds) ∧ closes 1 kinds = true := by
  obtain ⟨kinds, read, balanced⟩ := h.balanced
  exact ⟨kinds, ⟨read, h.tame.reads h.solid read, h.solid⟩, balanced⟩

theorem At.reactionPayload {block : WhenBlock} (h : At src (block.pieces ++ ps) ts)
    (formed : ∀ text, block = .payload text →
      ∃ kinds, Legible text (.lBrace :: kinds) ∧ closes 1 kinds = true)
    (other : block = .none → ts.current.kind ≠ .with ∧ ts.current.kind ≠ .lBrace) :
    ∃ us, At src ps us ∧ us.rest.length ≤ ts.rest.length ∧
      Yields (parseReactionPayload src) ts (block.text.map String.ofList) us := by
  cases block with
  | none =>
      obtain ⟨without, bare⟩ := other rfl
      refine ⟨ts, h, Nat.le_refl _, ?_⟩
      rw [parseReactionPayload, peek_bind, if_neg without, if_neg bare]
      exact yields_pure.mpr ⟨rfl, rfl⟩
  | empty =>
      obtain ⟨opening, at₁, length₁⟩ := At.lBrace h
      obtain ⟨close, after, length₂⟩ := At.rBrace at₁
      refine ⟨_, after, by omega, ?_⟩
      rw [parseReactionPayload, peek_bind, if_neg (by simp [opening]), if_pos opening, advance_bind,
        expect_bind close]
      exact yields_pure.mpr ⟨rfl, rfl⟩
  | payload text =>
      obtain ⟨opening, at₁, length₁⟩ := At.keyword .with h rfl (by decide)
      obtain ⟨kinds, legible, balanced⟩ := formed text rfl
      obtain ⟨us, after, length₂, read⟩ := At.payload at₁ legible balanced
      refine ⟨us, after, by omega, ?_⟩
      rw [parseReactionPayload, peek_bind, if_pos opening, advance_bind]
      exact read.bind (yields_pure.mpr ⟨rfl, rfl⟩)

theorem At.onFail {onFail : Option String} (h : At src (onFailPieces onFail ++ ps) ts)
    (formed : ∀ hook, onFail = some hook → IsName hook)
    (other : onFail = none → ts.current.kind ≠ .onFail) :
    ∃ us, At src ps us ∧ us.rest.length ≤ ts.rest.length ∧ Yields parseOnFail ts onFail us := by
  cases onFail with
  | none =>
      refine ⟨ts, h, Nat.le_refl _, ?_⟩
      rw [parseOnFail, peek_bind, if_neg (other rfl)]
      exact yields_pure.mpr ⟨rfl, rfl⟩
  | some hook =>
      obtain ⟨opening, at₁, length₁⟩ := At.keyword .onFail h rfl (by decide)
      obtain ⟨colon, at₂, length₂⟩ := At.colon at₁
      obtain ⟨ident, after, length₃⟩ := at₂.name (formed hook rfl)
      refine ⟨_, after, by omega, ?_⟩
      rw [parseOnFail, peek_bind, if_pos opening, advance_bind, expect_bind colon, ident_bind ident]
      exact yields_pure.mpr ⟨rfl, rfl⟩

/-- The three first tokens of a clause. -/
theorem At.whenHead {c : WhenClause} (h : At src (c.pieces ++ ps) ts) (name : IsName c.fromSignal) :
    isReactionHead ts = true := by
  obtain ⟨opening, at₁, length₁⟩ := At.keyword .when h rfl (by decide)
  obtain ⟨ident, at₂, length₂⟩ := at₁.name name
  obtain ⟨enters, at₃, length₃⟩ := At.keyword .enters at₂ rfl (by decide)
  have second := Tokens.rest_eq (List.ne_nil_of_length_eq_add_one length₁)
  have third := Tokens.rest_eq (List.ne_nil_of_length_eq_add_one length₂)
  have whole : ts.toList = ts.current :: ts.advance.current :: ts.advance.advance.toList := by
    rw [← third]
    exact congrArg (ts.current :: ·) second
  rw [isReactionHead, whole]
  simp [opening, ident, enters, Tokens.toList]

/-- The names of a clause, whatever its guard and its payload are. -/
structure WhenClause.Named (c : WhenClause) : Prop where
  fromSignal : IsName c.fromSignal
  fromState : IsName c.fromState
  toSignal : IsName c.toSignal
  event : IsName c.event
  onFail : ∀ hook, c.onFail = some hook → IsName hook

theorem WhenClause.Formed.named [SerdeJson] {c : WhenClause} (h : c.Formed) : c.Named :=
  { h with }

/-- A clause up to its guard. -/
theorem At.reactionStart {c : WhenClause} (h : At src (c.pieces ++ ps) ts) (named : c.Named) :
    ∃ us, At src (guardPieces c.guard ++ (c.block.pieces ++ (onFailPieces c.onFail ++ ps))) us ∧
      ts.current.kind = .when ∧ us.rest.length < ts.rest.length ∧
      ∀ r vs, Yields (parseReactionBody src) ts r vs ↔ ∃ guard us',
        Yields (parseReactionGuard src) us guard us' ∧ ∃ payload us'',
          Yields (parseReactionPayload src) us' payload us'' ∧ ∃ onFail,
            Yields parseOnFail us'' onFail vs ∧
              r = { fromSignal := c.fromSignal, fromState := c.fromState, toSignal := c.toSignal
                    event := c.event, guard, payload, joinGroup := none, requires := [],
                    onFail } := by
  rw [WhenClause.pieces, List.append_assoc] at h
  obtain ⟨opening, at₁, length₁⟩ := At.keyword .when h rfl (by decide)
  obtain ⟨fromSignal, at₂, length₂⟩ := at₁.name named.fromSignal
  obtain ⟨enters, at₃, length₃⟩ := At.keyword .enters at₂ rfl (by decide)
  obtain ⟨fromState, at₄, length₄⟩ := at₃.name named.fromState
  obtain ⟨arrow, at₅, length₅⟩ := at₄.arrow
  obtain ⟨toSignal, at₆, length₆⟩ := at₅.name named.toSignal
  obtain ⟨event, at₇, length₇⟩ := at₆.name named.event
  rw [List.append_assoc, List.append_assoc] at at₇
  refine ⟨_, at₇, opening, by omega, fun r vs => ?_⟩
  rw [parseReactionBody, expect_bind opening, ident_bind fromSignal, expect_bind enters,
    ident_bind fromState, expect_bind arrow, ident_bind toSignal, ident_bind event, yields_bind]
  constructor
  · rintro ⟨guard, us', read, rest⟩
    obtain ⟨payload, us'', taken, rest⟩ := yields_bind.mp rest
    obtain ⟨onFail, _, failing, rest⟩ := yields_bind.mp rest
    obtain ⟨rfl, rfl⟩ := yields_pure.mp rest
    exact ⟨guard, us', read, payload, us'', taken, onFail, failing, rfl⟩
  · rintro ⟨guard, us', read, payload, us'', taken, onFail, failing, rfl⟩
    exact ⟨guard, us', read, taken.bind (failing.bind (yields_pure.mpr ⟨rfl, rfl⟩))⟩

/-- In front of a clause, the parser returns its reaction exactly if its guard stays
whole. -/
theorem At.reaction [SerdeJson] {c : WhenClause} {next : Option WhenClause}
    (h : At src (c.pieces ++ (following WhenClause.pieces next ++ ps)) ts) (formed : c.Formed)
    (later : ∀ c', next = some c' → c'.Formed) :
    ∃ us, At src (following WhenClause.pieces next ++ ps) us ∧ ts.current.kind = .when ∧
      us.rest.length < ts.rest.length ∧
      ∀ vs, Yields (parseReactionBody src) ts (c.decl none []).raw vs ↔
        vs = us ∧ c.Intact next.isNone := by
  obtain ⟨ts₁, at₇, opening, shorter, body⟩ := h.reactionStart formed.named
  have texts : ∀ g, c.guard = some g → ∃ kinds, Legible g kinds ∧
      ∀ name more, kinds ≠ .identifier name :: .enters :: more := by
    intro g guarded
    obtain ⟨kinds, legible⟩ := at₇.accepted formed.guard g guarded
    refine ⟨kinds, legible, fun name more same => ?_⟩
    apply not_head_of_accepts (formed.guard g guarded).accepted
    rw [legible.read, same]
  obtain ⟨us₁, at₈, length₈, guard⟩ := At.reactionGuard at₇ texts (by
    intro unguarded when
    rw [unguarded] at at₇
    have front := At.reactionFront at₇
    rw [when] at front
    -- only the next clause starts with `when`
    cases block : c.block <;> cases hook : c.onFail <;> cases same : next <;>
      simp only [block, hook, same, frontKind, Option.isNone_none, Option.isNone_some,
        reduceCtorEq] at front
    next c' =>
      rw [block, hook, same] at at₇
      exact At.whenHead at₇ (later c' same).fromSignal) (by
    intro us after
    rw [At.reactionFront after]
    cases c.block <;> cases c.onFail <;> cases next <;> simp [frontKind])
  obtain ⟨us₂, at₉, length₉, payload⟩ :=
    at₈.reactionPayload (fun text same => (formed.payload text same).legible) (by
    intro none
    rw [At.reactionFront at₈, none]
    cases c.onFail <;> cases next <;> simp [frontKind])
  obtain ⟨us₃, after, length, onFail⟩ := at₉.onFail formed.onFail (by
    intro none
    rw [none] at at₉
    have front : us₂.current.kind = frontKind .none Option.none next.isNone := At.reactionFront at₉
    rw [front]
    cases next <;> simp [frontKind])
  refine ⟨us₃, after, opening, by omega, fun vs => ?_⟩
  rw [body]
  have ends : us₁.current.kind.endsGuard = true ↔
      c.block ≠ .none ∨ c.onFail.isSome = true ∨ next.isNone = true := by
    rw [At.reactionFront at₈, frontKind_endsGuard]
  constructor
  · rintro ⟨g, us', read, text, us'', taken, hook, failing, same⟩
    obtain rfl : c.guard.map (RawGuard.lit ∘ String.ofList) = g := by
      have guards := congrArg RawReaction.guard same
      simpa [ReactionDecl.raw, WhenClause.decl] using guards
    obtain ⟨rfl, whole⟩ := (guard us').mp read
    obtain ⟨_, rfl⟩ := payload.unique taken
    obtain ⟨_, rfl⟩ := onFail.unique failing
    refine ⟨rfl, fun g same => ?_⟩
    obtain ⟨unbroken, literal, finish⟩ := whole g same
    exact ⟨unbroken, literal, ends.mp finish⟩
  · rintro ⟨rfl, intact⟩
    refine ⟨_, us₁, (guard us₁).mpr ⟨rfl, fun g same => ?_⟩, _, us₂, payload, _, onFail, ?_⟩
    · obtain ⟨unbroken, literal, last⟩ := intact g same
      exact ⟨unbroken, literal, ends.mpr last⟩
    · simp [ReactionDecl.raw, WhenClause.decl]

end

end SignalTopology.Ddl
