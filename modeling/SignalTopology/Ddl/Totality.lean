import SignalTopology.Compose.Slices
import SignalTopology.Ddl.Codegen
import SignalTopology.Ddl.Sweep
import SignalTopology.Library.Totality

/-!
# No source makes the compiler panic

Every parser function is total on the tokens of its source. A cut runs from the start of one
token to the end of another, so it falls between characters; the loops take a token in every
repetition and stop at `eof`.
-/

namespace SignalTopology.Ddl

open TokenParser

variable [RustStd]

/-- The stream is what the lexer makes of the source. -/
structure Own (src : List Char) (whole : Tokens Token) : Prop where
  lexed : tokenizeChars .start src = .ok whole.toList

section

variable {src : List Char} {whole ts vs : Tokens Token}

theorem Own.ends (h : Own src whole) : Ends whole := by
  obtain ⟨body, stop, _, split⟩ := lexes_of_tokenize h.lexed
  exact ⟨body, stop.eof, split, rfl⟩

/-- From a token to one that is not before it, the source is cut between characters. -/
theorem Own.sliced (h : Own src whole) (inside : ts.toList <:+ whole.toList)
    (later : vs.toList <:+ ts.toList) (visible : vs.current.kind ≠ .eof) :
    ∃ text, slice src ts.current.start (vs.current.start + vs.current.len) = some text := by
  have more := (h.ends.suffix (later.trans inside)).more visible
  obtain ⟨body, stop, lexes, split⟩ := lexes_of_tokenize h.lexed
  obtain ⟨spanned, _⟩ := @Lexes.spanned _ _ _ _ _ _ lexes src [] rfl rfl
  obtain ⟨before, first⟩ := inside
  obtain ⟨front, second⟩ := later
  have place : body ++ [stop.eof] = (before ++ (front ++ [vs.current])) ++ vs.advance.toList := by
    rw [← split, ← first, ← second, ← Tokens.rest_eq more]
    simp [Tokens.toList]
  obtain ⟨rest, rfl⟩ := Tokens.split_last place
  obtain ⟨_, spanned, _⟩ := spanned.split
  obtain ⟨_, _, spanned⟩ := spanned.split
  have head : (front ++ [vs.current]).head? = some ts.current := by
    have heads := congrArg List.head? second
    cases front with
    | nil => exact heads
    | cons t front => exact heads
  have last : (front ++ [vs.current]).getLast? = some vs.current := List.getLast?_concat
  obtain ⟨text, sliced, _⟩ := spanned.cut head last
  exact ⟨text, sliced⟩

end

/-! ## One token -/

section

variable {whole : Tokens Token} {α : Type}

theorem total_expect (kind : TokenKind) : Total whole (expect kind) :=
  .bind .peek fun _ => .ite (fun _ => .advance) fun _ => .fail _

theorem total_ident : Total whole expectAnyIdent := by
  refine .bind .peek fun tok => ?_
  split
  · exact .bind .advance fun tok => .pure _
  · exact .fail _

theorem total_name : Total whole (do return (← expectAnyIdent).1 : Parse String) :=
  total_ident.bind fun _ => .pure _

/-! ## Lists -/

omit [RustStd] in
/-- Items while the current token is of one kind. -/
theorem total_while {kind : TokenKind} {item : Parse α} (ends : Ends whole) (visible : kind ≠ .eof)
    (takes : Takes item) (each : Total whole item) :
    Total whole (many (fun tok => tok.kind = kind) item) := by
  refine .many ends ?_ takes each
  intro t start stop
  simp only [decide_eq_true_eq] at start
  exact visible (start.symm.trans stop)

omit [RustStd] in
theorem commaItem_advances {closing : TokenKind} {item : Parse α} (consumes : Consumes item) :
    Advances (fun t : Token => t.kind = .eof) (commaItem closing item) := by
  intro items ts next us read
  rw [commaItem, peek_bind] at read
  split at read
  · next comma =>
      refine ⟨?_, fun stop : ts.current.kind = .eof => ?_⟩
      · rw [advance_bind, peek_bind] at read
        split at read
        · cases (yields_pure.mp read).1
        · obtain ⟨_, _, inner, rest⟩ := yields_bind.mp read
          obtain ⟨_, rfl⟩ := yields_pure.mp rest
          exact consumes inner
      · rw [comma] at stop
        cases stop
  · cases (yields_pure.mp read).1

theorem total_commaList {opening closing : TokenKind} {item : Parse α} (ends : Ends whole)
    (consumes : Consumes item) (each : Total whole item) :
    Total whole (commaList opening closing item) := by
  have items : ∀ items, Total whole (commaItem closing item items) := by
    intro items
    refine .bind .peek fun tok => .ite (fun _ => ?_) fun _ => .pure _
    refine .bind .advance fun _ => .bind .peek fun tok => .ite (fun _ => .pure _) fun _ => ?_
    exact each.bind fun next => .pure _
  refine (total_expect _).bind fun _ => .bind .peek fun tok => ?_
  split
  · exact .bind (.pure _) fun items => (total_expect _).bind fun _ => .pure _
  · refine each.bind fun first => .bind (.iterate ends (commaItem_advances consumes) items _) ?_
    exact fun items => (total_expect _).bind fun _ => .pure _

theorem total_parseStateList (ends : Ends whole) : Total whole parseStateList :=
  total_commaList ends (Apart.self []).name.consumes total_name

end

namespace Own

variable {src : List Char} {whole : Tokens Token}

/-! ## Guards -/

theorem captureGuard (own : Own src whole) : Total whole (captureGuard src) := by
  intro ts inside
  refine (total_expect .when inside).bind fun tok us _ deeper => ?_
  replace inside := deeper.trans inside
  refine (Total.peek inside).bind fun first here peeked _ => ?_
  obtain ⟨first_eq, here_eq⟩ := yields_peek.mp peeked
  subst first_eq here_eq
  refine (Total.ensure _ _ inside).bind fun _ here ensured _ => ?_
  obtain ⟨visible, here_eq⟩ := yields_ensure.mp ensured
  subst here_eq
  have going : ∀ t : Token, (!t.kind.endsGuard) = true → t.kind ≠ .eof := by
    intro t start stop
    rw [stop] at start
    cases start
  refine (Total.many own.ends going takes_advance .advance inside).bind fun tokens vs run _ => ?_
  obtain ⟨items, _⟩ := yields_many.mp run
  obtain ⟨front, last, split, stop⟩ := own.ends.suffix inside
  have ends : (!last.kind.endsGuard) = false := by
    rw [stop]
    rfl
  obtain ⟨taken, all, _⟩ := (many_advance split ends).mp items
  -- the cut ends with the last token that was taken
  obtain ⟨text, sliced⟩ : ∃ text, slice src here.current.start
      ((tokens.getLastD here.current).start + (tokens.getLastD here.current).len) = some text := by
    obtain rfl | ⟨front, last, rfl⟩ := List.eq_nil_or_concat tokens
    · exact own.sliced inside (List.suffix_refl _) (going _ visible)
    · have member : last ∈ front.concat last := by simp
      have place : (⟨last, vs.toList⟩ : Tokens Token).toList <:+ here.toList :=
        ⟨front, by rw [taken]; simp [Tokens.toList]⟩
      have cut := own.sliced inside place (going _ (all _ member))
      simpa using cut
  dsimp only
  rw [sliced]
  exact Total.pure _ (List.suffix_refl _)

theorem parseGuard (own : Own src whole) : Total whole (parseGuard src) :=
  own.captureGuard.bind fun _ => .pure _

theorem parseGuardSpec (own : Own src whole) : Total whole (parseGuardSpec src) := by
  refine own.captureGuard.bind fun captured => ?_
  dsimp only
  split
  · exact .pure _
  · exact .pure _

/-! ## Signals -/

theorem parseActionIds (own : Own src whole) : Total whole parseActionIds := by
  have takes : Takes (do let _ ← advance; return (← expectAnyIdent).1 : Parse String) :=
    takes_advance.bind fun _ => (Apart.self []).name.consumes
  refine total_ident.bind fun first => .bind ?_ fun actions => .pure _
  exact total_while own.ends (by simp) takes (.bind .advance fun _ => total_name)

theorem parseHook_advances : Advances (fun t : Token => t.kind = .eof) parseHook := by
  intro hooks ts hooks' us read
  refine ⟨((Apart.self []).parseHook hooks).steady read, fun stop : ts.current.kind = .eof => ?_⟩
  rw [Ddl.parseHook, peek_bind, stop] at read
  cases (yields_pure.mp read).1

theorem parseHook (own : Own src whole) (hooks : HookState) : Total whole (parseHook hooks) := by
  refine .bind .peek fun hook => .ite (fun known => ?_) fun _ => .pure _
  refine .bind .advance fun _ => (total_expect _).bind fun _ =>
    own.parseActionIds.bind fun ids => ?_
  obtain kind | kind | kind := known
  · rw [kind]
    exact (Total.ensure _ _).bind fun _ => .pure _
  · rw [kind]
    exact (Total.ensure _ _).bind fun _ => .pure _
  · rw [kind]
    exact (Total.ensure _ _).bind fun _ => .pure _

theorem parseLifecycleActions (own : Own src whole) : Total whole parseLifecycleActions :=
  .iterate own.ends parseHook_advances own.parseHook {}

theorem parseFromState (id : String) (states : List String) :
    Total whole (parseFromState id states) := by
  refine .bind .peek fun tok => .ite (fun _ => ?_) fun _ => ?_
  · exact .bind .advance fun _ => .pure _
  · exact total_ident.bind fun _ => (Total.ensure _ _).bind fun _ => .pure _

theorem parseActionBlock (own : Own src whole) : Total whole parseActionBlock := by
  refine .bind .peek fun tok => .ite (fun _ => ?_) fun _ => .pure _
  refine .bind .advance fun _ => own.parseLifecycleActions.bind fun actions => ?_
  exact (total_expect _).bind fun _ => .pure _

theorem parseTransitionGuard (own : Own src whole) : Total whole (parseTransitionGuard src) :=
  .bind .peek fun _ => .ite (fun _ => own.parseGuard.map) fun _ => .pure _

theorem parseTransition (own : Own src whole) (id : String) (states : List String) :
    Total whole (parseTransition src id states) := by
  refine (total_expect _).bind fun _ => total_ident.bind fun event =>
    (total_expect _).bind fun _ => ?_
  refine (parseFromState _ _).bind fun source => (total_expect _).bind fun _ => ?_
  refine total_ident.bind fun target => (Total.ensure _ _).bind fun _ => ?_
  exact own.parseTransitionGuard.bind fun guard => own.parseActionBlock.bind fun actions => .pure _

theorem parseSignal (own : Own src whole) (seen : Finset String) :
    Total whole (parseSignal src seen) := by
  have takes : ∀ id states, Takes (Ddl.parseTransition src id states) :=
    fun id states => ((Apart.self src).parseTransition id states).takes
  refine (total_expect _).bind fun _ => total_ident.bind fun id =>
    (Total.ensure _ _).bind fun _ => ?_
  refine (total_expect _).bind fun _ => (total_expect _).bind fun _ =>
    (total_expect _).bind fun _ => ?_
  refine (total_parseStateList own.ends).bind fun states => (total_expect _).bind fun _ => ?_
  refine (total_expect _).bind fun _ => total_ident.bind fun initial => ?_
  refine (Total.ensure _ _).bind fun _ => .bind ?_ fun transitions => ?_
  · exact total_while own.ends (by simp) (takes _ _) (own.parseTransition _ _)
  · exact (total_expect _).bind fun _ => .pure _

/-! ## Reactions -/

/-- Inside a block at least its own brace is open, and a cut starts at that brace. -/
theorem braceStep (own : Own src whole) {ts : Tokens Token} (inside : ts.toList <:+ whole.toList)
    {depth : Nat} (deep : 0 < depth) : Total ts (braceStep src ts.current.start depth) := by
  intro vs later
  refine (Total.peek later).bind fun tok here peeked _ => ?_
  obtain ⟨tok_eq, here_eq⟩ := yields_peek.mp peeked
  subst tok_eq here_eq
  by_cases opens : here.current.kind = .lBrace
  · rw [if_pos opens]
    exact Total.bind .advance (fun _ => .pure _) (List.suffix_refl _)
  rw [if_neg opens]
  by_cases closes : here.current.kind = .rBrace
  · rw [if_pos closes]
    refine Total.bind .advance (fun _ => ?_) (List.suffix_refl _)
    obtain ⟨text, cut⟩ := own.sliced inside later (by simp [closes])
    match depth with
    | 1 =>
        dsimp only
        rw [cut]
        exact .pure _
    | outer + 2 => exact .pure _
  rw [if_neg closes]
  by_cases ends : here.current.kind = .eof
  · rw [if_pos ends]
    exact Total.fail _ (List.suffix_refl here.toList)
  · rw [if_neg ends]
    exact Total.bind .advance (fun _ => .pure _) (List.suffix_refl _)

theorem parseRawBraceBlock (own : Own src whole) : Total whole (parseRawBraceBlock src) := by
  intro ts inside
  refine (total_expect .lBrace inside).bind fun opening us read deeper => ?_
  obtain ⟨_, rfl, rfl⟩ := yields_expect.mp read
  refine Total.iterate_inv (own.ends.suffix inside) braceStep_advances
    (fun depth deep => own.braceStep inside deep) ?_ Nat.one_pos deeper
  intro depth vs depth' us deep turn
  obtain ⟨_, kinds⟩ := Parallel.yields_braceStep.mp turn
  obtain ⟨_, same⟩ | ⟨_, ⟨outer, _, same⟩ | ⟨_, _, _, other⟩⟩ | ⟨_, same⟩ := kinds
  · cases same
    omega
  · cases same
    omega
  · cases other
  · cases same
    exact deep

omit [RustStd] in
theorem atReactionHead : Total whole atReactionHead :=
  .bind .peek fun _ => .bind (.lookahead 1) fun _ => .bind (.lookahead 2) fun _ => .pure _

theorem parseReactionGuard (own : Own src whole) : Total whole (parseReactionGuard src) := by
  refine .bind .peek fun tok => atReactionHead.bind fun head => ?_
  exact .ite (fun _ => own.parseGuardSpec.map) fun _ => .pure _

theorem parseReactionPayload (own : Own src whole) : Total whole (parseReactionPayload src) := by
  refine .bind .peek fun tok => .ite (fun _ => ?_) fun _ => .ite (fun _ => ?_) fun _ => .pure _
  · exact .bind .advance fun _ => own.parseRawBraceBlock.bind fun block => .pure _
  · exact .bind .advance fun _ => (total_expect _).bind fun _ => .pure _

theorem parseOnFail : Total whole parseOnFail := by
  refine .bind .peek fun tok => .ite (fun _ => ?_) fun _ => .pure _
  exact .bind .advance fun _ => (total_expect _).bind fun _ => total_ident.bind fun id => .pure _

theorem parseReactionBody (own : Own src whole) : Total whole (parseReactionBody src) := by
  refine (total_expect _).bind fun _ => total_ident.bind fun fromSignal =>
    (total_expect _).bind fun _ => ?_
  refine total_ident.bind fun fromState => (total_expect _).bind fun _ =>
    total_ident.bind fun toSignal => ?_
  refine total_ident.bind fun event => own.parseReactionGuard.bind fun guard => ?_
  exact own.parseReactionPayload.bind fun payload => parseOnFail.bind fun onFail => .pure _

theorem parseReactionRaw (own : Own src whole) : Total whole (parseReactionRaw src) := by
  refine (total_expect _).bind fun _ => (total_expect _).bind fun _ => ?_
  exact own.parseReactionBody.bind fun reaction => (total_expect _).bind fun _ => .pure _

theorem parseMembers (own : Own src whole) (mark : RawReaction → RawReaction) :
    Total whole (parseMembers src mark) := by
  have takes : Takes (mark <$> Ddl.parseReactionBody src) :=
    (Apart.self src).parseReactionBody.takes.map
  exact total_while own.ends (by simp) takes own.parseReactionBody.map

theorem parseForkBlock (own : Own src whole) (forkCounter : Nat) :
    Total whole (parseForkBlock src forkCounter) := by
  refine (total_expect _).bind fun _ => (total_expect _).bind fun _ => ?_
  exact (own.parseMembers _).bind fun reactions => (total_expect _).bind fun _ => .pure _

theorem parseJoinBlock (own : Own src whole) : Total whole (parseJoinBlock src) := by
  refine (total_expect _).bind fun _ => total_ident.bind fun group =>
    (total_expect _).bind fun _ => ?_
  exact (own.parseMembers _).bind fun reactions => (total_expect _).bind fun _ => .pure _

/-! ## Declarations -/

theorem parseGuardDecl (own : Own src whole) (seen : Finset String) :
    Total whole (parseGuardDecl src seen) := by
  refine (total_expect _).bind fun _ => total_ident.bind fun id =>
    (Total.ensure _ _).bind fun _ => ?_
  exact own.parseRawBraceBlock.bind fun raw => .pure _

theorem parsePort : Total whole parsePort := by
  refine (total_expect _).bind fun _ => total_ident.bind fun dir => .bind ?_ fun direction => ?_
  · split <;> first | exact .pure _ | exact .fail _
  refine total_ident.bind fun signal => (total_expect _).bind fun _ =>
    total_ident.bind fun state => ?_
  refine .bind .peek fun tok => .ite (fun _ => ?_) fun _ => .bind (.pure _) fun _ => .pure _
  exact .bind .advance fun _ => total_ident.bind fun name => .bind (.pure _) fun _ => .pure _

theorem componentStep (own : Own src whole) (id : String) (body : BodyState) :
    Total whole (componentStep src id body) := by
  refine .bind .peek fun tok => ?_
  split
  · exact parsePort.bind fun port => .pure _
  · exact (own.parseSignal _).bind fun signal => .pure _
  · exact own.parseReactionRaw.bind fun reaction => .pure _
  · exact .bind .advance fun _ => .pure _
  · exact .fail _
  · exact .fail _
  · exact .fail _
  · exact .fail _

theorem componentHead (own : Own src whole) (seen : Finset String) :
    Total whole (componentHead seen) := by
  refine (total_expect _).bind fun _ => total_ident.bind fun id =>
    (Total.ensure _ _).bind fun _ => ?_
  refine (total_expect _).bind fun _ => .bind .peek fun tok => .ite (fun _ => ?_) fun _ => .pure _
  refine .bind .advance fun _ => (total_expect _).bind fun _ => ?_
  exact (total_parseStateList own.ends).bind fun params => .pure _

theorem parseComponent (own : Own src whole) (seen : Finset String) :
    Total whole (parseComponent src seen) := by
  rw [parseComponent_eq]
  refine (own.componentHead seen).bind fun head => .bind ?_ fun body => .pure _
  exact .iterate own.ends (componentStep_advances _) (own.componentStep _) {}

theorem parseArrowPair : Total whole parseArrowPair := by
  refine total_ident.bind fun left => (total_expect _).bind fun _ => ?_
  exact total_ident.bind fun right => .pure _

theorem arrowPairs (own : Own src whole) :
    Total whole (commaList .lBrace .rBrace Ddl.parseArrowPair) :=
  total_commaList own.ends (Apart.self []).parseArrowPair.consumes parseArrowPair

theorem parseInstantiate (own : Own src whole) : Total whole parseInstantiate := by
  refine (total_expect _).bind fun _ => total_ident.bind fun component =>
    (total_expect _).bind fun _ => ?_
  refine total_ident.bind fun _ => (total_expect _).bind fun _ => .bind ?_ fun bindings => ?_
  · exact own.arrowPairs.bind fun pairs => .pure _
  refine .bind .peek fun tok => .ite (fun _ => ?_) fun _ => .bind (.pure _) fun _ => .pure _
  refine .bind .advance fun _ => .bind ?_ fun connections => .pure _
  exact own.arrowPairs.bind fun pairs => .pure _

/-! ## Documents -/

theorem counted {forkCounter n : Nat} {members : List RawReaction} {ts us : Tokens Token}
    (read : Yields (Ddl.parseForkBlock src forkCounter) ts (members, n) us) :
    n = forkCounter + 1 := by
  obtain ⟨_, _, _, read⟩ := yields_bind.mp read
  obtain ⟨_, _, _, read⟩ := yields_bind.mp read
  obtain ⟨_, _, _, read⟩ := yields_bind.mp read
  obtain ⟨_, _, _, read⟩ := yields_bind.mp read
  exact congrArg Prod.snd (yields_pure.mp read).1

theorem parseBlock (own : Own src whole) (doc : DocState) : Total whole (parseBlock src doc) := by
  refine .bind .peek fun tok => ?_
  split
  · exact .pure _
  · exact (own.parseSignal _).bind fun signal => .pure _
  · exact own.parseReactionRaw.bind fun reaction => .pure _
  · exact (own.parseGuardDecl _).bind fun guard => .pure _
  · refine (own.parseForkBlock _).bind_of ?_
    rintro ts ⟨members, forkCounter⟩ us read
    -- the block has counted itself
    cases counted read
    exact .pure _
  · exact own.parseJoinBlock.bind fun x => .pure _
  · exact (own.parseComponent _).bind fun component => .pure _
  · exact own.parseInstantiate.bind fun instantiate => .pure _
  · exact .fail _

theorem parseDoc (own : Own src whole) : Total whole (parseDoc src) := by
  refine .bind (.iterate own.ends parseBlock_advances own.parseBlock {}) fun doc => ?_
  split
  · exact .pure _
  · exact .fail _

end Own

/-! ## Compilation -/

/-- The parser returns a document or a message for the tokens of every source. -/
theorem parse_returns {src : String} {tokens : List Token} (lexed : tokenize src = .ok tokens) :
    (∃ doc, parse tokens src = .ok doc) ∨ ∃ e, parse tokens src = .error (.error e) := by
  cases tokens with
  | nil =>
      obtain ⟨body, stop, _, whole⟩ := lexes_of_tokenize lexed
      exact absurd whole.symm (List.append_ne_nil_of_right_ne_nil _ (List.cons_ne_nil _ _))
  | cons t ts =>
      have own : Own src.toList ⟨t, ts⟩ := ⟨lexed⟩
      unfold parse
      dsimp only
      obtain ⟨doc, us, read, _⟩ | ⟨e, failed⟩ := own.parseDoc (List.suffix_refl _)
      · rw [show parseDoc src.toList ⟨t, ts⟩ = .ok (doc, us) from read]
        exact .inl ⟨doc, rfl⟩
      · rw [failed]
        exact .inr ⟨e, rfl⟩

/-- Every source compiles or fails with a message: no cut of a guard, a payload or a placeholder
falls inside a character, no counter runs below zero, and every loop ends. -/
theorem compile_returns [SerdeJson] (src : String) :
    ((∃ schema, compile src = .ok schema) ∨ ∃ e, compile src = .error (.error e)) ∧
      (∀ bound text, substBytes bound text = some (substChars bound text)) ∧
      ∀ text : String, findUnresolvedBytes text.toList = some (findUnresolved text) := by
  refine ⟨?_, substBytes_eq, findUnresolvedBytes_eq⟩
  unfold compile compileFull
  cases lexed : tokenize src with
  | error e => exact .inr ⟨_, rfl⟩
  | ok tokens =>
      obtain ⟨doc, parsed⟩ | ⟨e, failed⟩ := parse_returns lexed
      · dsimp only
        rw [parsed]
        dsimp only
        cases emit doc with
        | error e => exact .inr ⟨e, rfl⟩
        | ok lowered =>
            dsimp only
            cases expand lowered with
            | error e => exact .inr ⟨e, rfl⟩
            | ok schema => exact .inl ⟨schema, rfl⟩
      · dsimp only
        rw [failed]
        exact .inr ⟨_, rfl⟩

end SignalTopology.Ddl
