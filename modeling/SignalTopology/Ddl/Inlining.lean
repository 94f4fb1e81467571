import SignalTopology.Ddl.Blanks
import SignalTopology.Ddl.Positions
import SignalTopology.Ddl.Resolving

/-!
# A guard in the place of its name

A reaction in a block of its own may name a guard. The name stands behind a blank and in
front of a token that ends a guard, so the text of a guard can stand there as well: every
other token stays what it is, and the reaction captures the text instead of the name.
-/

namespace SignalTopology.Ddl

open TokenParser

/-! ## The text around a name -/

/-- Names, and the keywords at both ends of a guard. -/
def TokenKind.isRun : TokenKind → Bool
  | identifier _ | when | «with» | onFail => true
  | _ => false

theorem isRun_number {run : List Char} {kind : TokenKind} (read : numberKind run = .ok kind) :
    kind.isRun = false := by
  unfold numberKind at read
  split at read
  · cases read
  · split at read
    · cases read
      rfl
    · split at read
      · cases read
        rfl
      · cases read

theorem isRun_symbol {c : Char} {cs : List Char} {lexeme : Lexeme}
    (read : symbol c cs = .ok lexeme) : lexeme.kind.isRun = false := by
  unfold symbol at read
  split at read
  · next pair =>
      cases read
      cases cs with
      | nil => cases pair
      | cons d ds =>
          simp only [List.head?_cons, Option.bind_some] at pair
          unfold pairKind at pair
          split at pair <;> cases pair <;> rfl
  · split at read
    · next single =>
        cases read
        unfold singleKind at single
        split at single <;> cases single <;> rfl
    · cases read

theorem Gap.first {gap : List Char} {d : Char} (h : Gap gap) (head : gap.head? = some d) :
    isWhitespace d = true ∨ d = '/' := by
  cases h with
  | nil => cases head
  | blank blank =>
      cases head
      refine .inl ?_
      simp only [isBlank, Bool.or_eq_true, decide_eq_true_eq] at blank
      rcases blank with (rfl | rfl) | rfl <;> decide
  | newline =>
      cases head
      exact .inl (by decide)
  | comment =>
      cases head
      exact .inr rfl

theorem Gap.last {gap : List Char} {d : Char} (h : Gap gap) (tail : gap.getLast? = some d) :
    isWhitespace d = true := by
  induction h with
  | nil => cases tail
  | @blank c cs blank later ih =>
      cases cs with
      | nil =>
          obtain whitespace | slash := (Gap.blank blank .nil).first tail
          · exact whitespace
          · subst slash
            cases tail
            cases blank
      | cons e es => exact ih (List.getLast?_cons_cons ▸ tail)
  | @newline cs later ih =>
      cases cs with
      | nil =>
          cases tail
          decide
      | cons e es => exact ih (List.getLast?_cons_cons ▸ tail)
  | @comment text cs line later ih =>
      rw [show '/' :: '/' :: (text ++ '\n' :: cs) = ('/' :: '/' :: text) ++ ('\n' :: cs) from rfl,
        List.getLast?_append_of_ne_nil _ (List.cons_ne_nil _ _)] at tail
      cases cs with
      | nil =>
          cases tail
          decide
      | cons e es => exact ih (List.getLast?_cons_cons ▸ tail)

/-- A tame text does not end with a slash. -/
theorem Tame.last {text : List Char} (h : Tame text) : text.getLast? ≠ some '/' := by
  induction h with
  | nil => simp
  | @quoted q cs rest quote closed later ih =>
      have whole : q :: cs = (q :: cs.takeWhile (· ≠ q)) ++ (q :: rest) := by
        rw [← closed, List.cons_append, List.takeWhile_append_dropWhile]
      rw [whole, List.getLast?_append_of_ne_nil _ (List.cons_ne_nil _ _)]
      cases rest with
      | nil =>
          intro same
          cases same
          cases quote
      | cons d ds => exact ih
  | @plain c cs other slash later ih =>
      cases cs with
      | nil =>
          intro same
          cases same
          obtain ⟨_, head, _⟩ := slash rfl
          cases head
      | cons d ds => exact ih

section

variable [RustStd] {before front text rest : List Char} {t tok : Token} {toks more : List Token}

/-- A word starts with a word character and is followed by something else. -/
theorem Token.Stands.run (h : tok.Stands before text rest) (word : tok.kind.isRun = true) :
    (∃ c, text.head? = some c ∧ Guard.isWordChar c = true) ∧
      ∀ d, rest.head? = some d → Guard.isWordChar d = false := by
  obtain ⟨c, cs, _, read⟩ := h.read
  obtain ⟨_, _, _, _, kind⟩ | ⟨_, _, _, _, number⟩ | ⟨_, _, alphabetic, run, behind, _⟩ |
    ⟨_, _, _, other⟩ := nextLexeme_cases read
  · dsimp only at kind
    rw [kind] at word
    cases word
  · have plain := isRun_number number
    rw [word] at plain
    cases plain
  · dsimp only at run behind
    have first := isWordChar_of_alphabetic alphabetic
    refine ⟨⟨c, ?_, first⟩, fun d head => ?_⟩
    · rw [run, List.takeWhile_cons_of_pos first]
      rfl
    · have stopped := List.head?_dropWhile_not Guard.isWordChar (c :: cs)
      rw [← behind, head] at stopped
      simpa using stopped
  · have plain := isRun_symbol other
    rw [word] at plain
    cases plain

/-- The source around one of its tokens. -/
theorem Placed.split (h : Placed before (toks ++ t :: more) rest) :
    ∃ front text behind, rest = front ++ (text ++ behind) ∧ t.Stands (before ++ front) text behind ∧
      Placed (before ++ (front ++ text)) more behind := by
  induction toks generalizing before rest with
  | nil =>
      cases h with
      | token _ stands later => exact ⟨_, _, _, rfl, stands, later⟩
  | cons s toks ih =>
      cases h with
      | @token _ gap text rest _ _ skipped stands later =>
          obtain ⟨front, text', behind, rfl, stands', later'⟩ := ih later
          refine ⟨gap ++ (text ++ front), text', behind, by simp, ?_, ?_⟩
          · simpa using stands'
          · simpa using later'

/-- Between two words stands a gap, and a blank at its end. -/
theorem Placed.blank_between (h : Placed [] (toks ++ t :: tok :: more) (front ++ rest))
    (word : t.kind.isRun = true) (word' : tok.kind.isRun = true)
    (start : byteLen front = tok.start) :
    (∃ d, front.getLast? = some d ∧ isWhitespace d = true) ∧ ∃ text behind, rest = text ++ behind ∧
      tok.Stands front text behind ∧ Placed (front ++ text) more behind := by
  obtain ⟨front', text', behind', whole, stands, later⟩ := h.split
  cases later with
  | @token _ gap text behind _ _ skipped stands' later =>
      rw [List.nil_append] at stands stands' later
      have split : front ++ rest = (front' ++ text' ++ gap) ++ (text ++ behind) := by
        rw [whole]
        simp
      obtain ⟨rfl, rfl⟩ := front_unique split (start.trans stands'.start)
      refine ⟨?_, text, behind, rfl, stands', by simpa using later⟩
      obtain ⟨⟨c, head, inside⟩, _⟩ := stands'.run word'
      have apart := (stands.run word).2
      have nonempty : gap ≠ [] := by
        rintro rfl
        have outside := apart c (by rw [List.nil_append, List.head?_append, head]; rfl)
        rw [inside] at outside
        cases outside
      refine ⟨gap.getLast nonempty, ?_, skipped.last (List.getLast?_eq_getLast_of_ne_nil nonempty)⟩
      rw [List.getLast?_append_of_ne_nil _ nonempty, List.getLast?_eq_getLast_of_ne_nil nonempty]

theorem stops_slash (tame : Tame text) : Stops text '/' := by
  refine ⟨fun _ _ _ => ?_, by decide, by decide, fun last => absurd last tame.last⟩
  rw [isWordChar_ascii (by decide)]
  decide

theorem Gap.stops {gap : List Char} (h : Gap gap) (tame : Tame text) (d : Char)
    (head : gap.head? = some d) : Stops text d := by
  obtain whitespace | rfl := h.first head
  · exact stops_whitespace whitespace
  · exact stops_slash tame

theorem stops_brace {c : Char} (brace : c = '{' ∨ c = '}') : Stops text c := by
  rcases brace with rfl | rfl
  all_goals
    refine ⟨fun _ _ _ => ?_, by decide, by decide, fun _ => by decide⟩
    rw [isWordChar_ascii (by decide)]
    decide

theorem stops_edge {c : Char} {cs : List Char} {lexeme : Lexeme}
    (read : nextLexeme c cs = .ok lexeme) (edge : lexeme.kind.isEdge = true) : Stops text c := by
  apply stops_brace
  by_contra bare
  rw [not_or] at bare
  obtain ⟨_, _, _, _, kind⟩ | ⟨_, _, _, _, number⟩ | ⟨_, _, _, _, _, word⟩ | ⟨_, _, _, other⟩ :=
    nextLexeme_cases read
  · rw [kind] at edge
    cases edge
  · rw [isEdge_number number] at edge
    cases edge
  · rw [word, isEdge_word] at edge
    cases edge
  · rw [isEdge_symbol other bare] at edge
    cases edge

/-- Behind a word, in front of a token that ends a guard, a tame text can stand. -/
theorem Placed.stops (h : Placed before toks rest) (tame : Tame text)
    (apart : ∀ d, rest.head? = some d → Guard.isWordChar d = false)
    (ends : ∀ t, toks.head? = some t → t.kind.endsGuard = true) (d : Char)
    (head : rest.head? = some d) : Stops text d := by
  cases h with
  | last skipped =>
      obtain skipped | ⟨gap, comment, rfl, skipped, _⟩ := skipped
      · exact skipped.stops tame d head
      · cases gap with
        | nil =>
            cases head
            exact stops_slash tame
        | cons e gap => exact skipped.stops tame d head
  | @token _ gap own behind tok toks skipped stands later =>
      cases gap with
      | cons e gap => exact skipped.stops tame d head
      | nil =>
          obtain edge | other := edge_or_word (ends tok rfl)
          · obtain ⟨c, cs, whole, read⟩ := stands.read
            rw [List.nil_append, whole] at head
            cases head
            exact stops_edge read edge
          · have word : tok.kind.isRun = true := by
              rcases other with same | same <;> rw [same] <;> rfl
            obtain ⟨⟨c, first, inside⟩, _⟩ := stands.run word
            have outside := apart c (by rw [List.nil_append, List.head?_append, first]; rfl)
            rw [inside] at outside
            cases outside

/-- Behind a blank the run over the front is the same in front of another text. -/
theorem Lexes.swap_blank {cur cur' : Cursor} (lexes : Lexes cur (front ++ rest) toks cur' rest)
    (first : ∃ d, rest.head? = some d ∧ d ≠ '\n')
    (blank : ∃ d, front.getLast? = some d ∧ isWhitespace d = true) (behind : List Char) :
    Lexes cur (front ++ behind) toks cur' behind := by
  refine lexes.swap first ?_
  rintro passed own token split _ ⟨c, cs, rfl, read⟩
  obtain ⟨d, last, whitespace⟩ := blank
  rw [split, List.getLast?_append_of_ne_nil _ (List.cons_ne_nil c cs)] at last
  have visible := (nextLexeme_solid read).1.last d last
  rw [whitespace] at visible
  cases visible

end

/-! ## The edit -/

section

variable [RustStd] {front name text back : List Char} {all : List Token} {ws : Tokens Token}
variable {kinds : List TokenKind}

theorem ends_inside {src : List Char} (lexed : tokenizeChars .start src = .ok all)
    (inside : ws.toList <:+ all) : Ends ws := by
  obtain ⟨body, cur, _, rfl⟩ := lexes_of_tokenize lexed
  obtain ⟨passed, split⟩ := inside
  obtain ⟨rest, rfl⟩ := Tokens.split_last split.symm
  exact ⟨rest, cur.eof, List.append_cancel_left (split.trans (List.append_assoc _ _ _)), rfl⟩

/-- The name behind a `when` is replaced by a text. -/
theorem exists_edit (lexed : tokenizeChars .start (front ++ (name ++ back)) = .ok all)
    (inside : ws.toList <:+ all) (keyword : ws.current.kind = .when) {id : String}
    (ident : ws.advance.current.kind = .identifier id)
    (ends : ws.advance.advance.current.kind.endsGuard = true)
    (place : Occupies front name ws.advance ws.advance.advance) (tame : Tame text)
    (legible : Legible text kinds) :
    ∃ passed toks after after' last last',
      Edit front name text back (passed ++ [ws.current]) [ws.advance.current]
        toks after after' last last' ∧
      all = passed ++ ws.toList ∧ ws.advance.advance.toList = after ++ [last] ∧
      toks.map Token.kind = kinds ∧ Covers toks (byteLen front) (byteLen (front ++ text)) := by
  have stream : Ends ws := ends_inside lexed inside
  have here : ws.toList = ws.current :: ws.advance.toList :=
    congrArg (ws.current :: ·) (Tokens.rest_eq (stream.more (by simp [keyword])))
  have there : ws.advance.toList = ws.advance.current :: ws.advance.advance.toList :=
    congrArg (ws.advance.current :: ·)
      (Tokens.rest_eq ((stream.suffix ws.advance_suffix).more (by simp [ident])))
  obtain ⟨before, toks, after, cur, cur', stop, whole, split, split', run, within, later, c, head,
    visible⟩ := place.cut lexed (ws.advance_suffix.trans inside)
  obtain rfl : toks = [ws.advance.current] := List.append_cancel_right (split.symm.trans there)
  obtain ⟨passed, prefixed⟩ := inside
  obtain rfl : before = passed ++ [ws.current] := by
    apply @List.append_cancel_right _ _ ws.advance.toList _
    rw [← whole, ← prefixed, here, List.append_assoc]
    rfl
  -- the name stands behind a blank and in front of a token that ends a guard
  have places : Placed [] (passed ++ ws.current :: ws.advance.current :: after)
      (front ++ (name ++ back)) := by
    have lexes := (run.trans (within.trans later)).placed (Cursor.behind_start _)
    rwa [List.append_assoc] at lexes
  obtain ⟨toks₀, last, single, start, stop_⟩ := place
  have only : toks₀ ++ [last] = [] ++ [ws.advance.current] := by
    apply @List.append_cancel_right _ _ ws.advance.advance.toList _
    rw [List.append_assoc]
    exact single.symm.trans there
  obtain ⟨rfl, same⟩ := List.append_inj' only rfl
  obtain rfl := List.singleton_inj.mp same
  obtain ⟨blank, own, behind, cut, stands, rest⟩ :=
    places.blank_between (by rw [keyword]; rfl) (by rw [ident]; rfl) start
  obtain ⟨rfl, rfl⟩ := front_unique cut (by
    have length := stands.len
    rw [byteLen_append] at stop_
    omega)
  have stops : ∀ d, back.head? = some d → Stops text d := by
    refine rest.stops tame (stands.run (by rw [ident]; rfl)).2 fun t first => ?_
    have same : ws.advance.advance.toList.head? = some t := by
      rw [split', List.head?_append, first]
      rfl
    cases same
    exact ends
  have line : c ≠ '\n' := by
    rintro rfl
    cases visible
  obtain ⟨toks, cur'', inside', same, covers⟩ := legible.reads cur back stops
  have run' := run.swap_blank ⟨c, head, line⟩ blank (text ++ back)
  obtain ⟨after', last', e⟩ := Edit.of_cut run within later run' inside'
  refine ⟨passed, toks, after, after', stop.eof, last', e, prefixed.symm, split', same, ?_⟩
  have at_front : cur.pos = byteLen front := by
    obtain ⟨taken, whole, moved⟩ := run'.text
    obtain rfl := List.append_cancel_right whole
    exact moved.trans (Nat.zero_add _)
  have at_back : cur''.pos = byteLen (front ++ text) := by
    obtain ⟨taken, whole, moved⟩ := inside'.text
    obtain rfl := List.append_cancel_right whole
    rw [moved, at_front, byteLen_append]
  rw [at_front, at_back] at covers
  exact covers

end

/-! ## The text of a declared guard -/

section

variable [RustStd] {src text behind before raw : List Char} {all : List Token} {t : Token}
variable {ts us : Tokens Token}

/-- A brace is its own text. -/
theorem Token.Stands.brace (h : t.Stands before text behind) : (t.kind = .lBrace → text = ['{']) ∧
    (t.kind = .rBrace → text = ['}']) := by
  obtain ⟨c, cs, _, read⟩ := h.read
  have edge : ∀ {kind : TokenKind}, kind.isEdge = true → t.kind = kind →
      symbol c cs = .ok ⟨kind, text, behind⟩ := by
    rintro kind brace rfl
    obtain ⟨_, _, _, _, kind⟩ | ⟨_, _, _, _, number⟩ | ⟨_, _, _, _, _, word⟩ | ⟨_, _, _, other⟩ :=
      nextLexeme_cases read
    · dsimp only at kind
      rw [kind] at brace
      cases brace
    · rw [isEdge_number number] at brace
      cases brace
    · dsimp only at word
      rw [word, isEdge_word] at brace
      cases brace
    · exact other
  have single : ∀ {kind : TokenKind}, kind.isEdge = true → t.kind = kind →
      text = [c] ∧ singleKind c = .ok kind := by
    intro kind brace same
    have read := edge brace same
    unfold symbol at read
    split at read
    · next pair =>
        cases read
        cases cs with
        | nil => cases pair
        | cons d ds =>
            simp only [List.head?_cons, Option.bind_some] at pair
            unfold pairKind at pair
            split at pair <;> cases pair <;> cases brace
    · split at read
      · next found =>
          cases read
          exact ⟨rfl, found⟩
      · cases read
  refine ⟨fun same => ?_, fun same => ?_⟩
  all_goals
    obtain ⟨rfl, found⟩ := single (by rfl) same
    unfold singleKind at found
    split at found <;> first | rfl | cases found

/-- A block is cut out from its opening brace to a closing one. -/
theorem yields_block (h : Yields (parseRawBraceBlock src) ts raw us) : ts.current.kind = .lBrace ∧
    ∃ close ∈ ts.advance.toList, close.kind = .rBrace ∧
      slice src ts.current.start (close.start + close.len) = some raw := by
  rw [parseRawBraceBlock, yields_bind] at h
  obtain ⟨_, _, opening, loop⟩ := h
  obtain ⟨brace, rfl, rfl⟩ := yields_expect.mp opening
  obtain ⟨_, _, run⟩ := yields_iterate.mp loop
  obtain ⟨depth, ts', runs, last⟩ := run.runs
  obtain ⟨_, ⟨_, other⟩ | ⟨closing, ⟨_, _, other⟩ | ⟨_, text, sliced, same⟩⟩ | ⟨_, other⟩⟩ :=
    Parallel.yields_braceStep.mp last
  · cases other
  · cases other
  · cases same
    exact ⟨brace, ts'.current,
      (Runs.suffix runs braceStep_advances).subset List.mem_cons_self, closing, sliced⟩
  · cases other

/-- The text of a block, with what the lexer reads behind its opening brace. -/
theorem block_text (lexed : tokenizeChars .start src = .ok all) (inside : ts.toList <:+ all)
    (h : Yields (parseRawBraceBlock src) ts raw us) :
    ∃ body behind cur toks, raw = '{' :: (body ++ ['}']) ∧
      tokenizeChars cur (body ++ '}' :: behind) = .ok toks := by
  obtain ⟨opens, close, member, closes, sliced⟩ := yields_block h
  have stream : Ends ts := ends_inside lexed inside
  obtain ⟨whole, stop, lexes, rfl⟩ := lexes_of_tokenize lexed
  obtain ⟨passed, split⟩ := inside
  have next : ts.toList = ts.current :: ts.advance.toList :=
    congrArg (ts.current :: ·) (Tokens.rest_eq (stream.more (by simp [opens])))
  have around : whole ++ [stop.eof] = (passed ++ [ts.current]) ++ ts.advance.toList := by
    rw [← split, next, List.append_assoc]
    rfl
  obtain ⟨more, rfl⟩ := Tokens.split_last around
  have rest : more ++ [stop.eof] = ts.advance.toList :=
    List.append_cancel_left ((List.append_assoc _ _ _).symm.trans around)
  rw [List.append_assoc, List.singleton_append] at lexes
  have closing : close ∈ more := by
    rw [← rest, List.mem_append, List.mem_singleton] at member
    rcases member with own | rfl
    · exact own
    · cases closes
  obtain ⟨inner, outer, rfl⟩ := List.append_of_mem closing
  -- the places of the two braces
  obtain ⟨front, _, later, rfl, stands, places⟩ :=
    (lexes.placed (Cursor.behind_start src)).split
  obtain rfl := stands.brace.1 opens
  obtain ⟨body, _, behind, rfl, stands', _⟩ := places.split
  obtain rfl := stands'.brace.2 closes
  obtain ⟨x, y, same, start, finish⟩ := slice_iff.mp sliced
  rw [List.nil_append] at stands stands'
  obtain ⟨rfl, text⟩ := front_unique same (stands.start.symm.trans start.symm)
  have cut : raw = '{' :: (body ++ ['}']) := by
    have place : ('{' :: (body ++ ['}'])) ++ behind = raw ++ y := by
      rw [← text]
      simp
    refine (front_unique place ?_).1.symm
    have start' := stands'.start
    have length := stands'.len
    simp only [byteLen_append, byteLen_cons, byteLen_nil] at start' length finish ⊢
    omega
  -- what the lexer reads behind the opening brace
  obtain ⟨cur, left, run, tail, place⟩ := lexes.past_token
  obtain ⟨taken, whole, moved⟩ := run.text
  have ends := stands.start
  have length := stands.len
  obtain ⟨_, rfl⟩ : taken = front ++ ['{'] ∧ left = body ++ (['}'] ++ behind) := by
    refine front_unique (whole.symm.trans (by simp)) ?_
    rw [byteLen_append]
    have origin : Cursor.start.pos = 0 := rfl
    omega
  refine ⟨body, behind, cur, (inner ++ close :: outer) ++ [stop.eof], cut, ?_⟩
  exact tail.tokenize.trans (by rw [tokenizeChars]; rfl)

/-- An expression is more than nothing. -/
theorem accepted_ne_nil (accepted : Guard.Accepts (String.ofList text)) : text ≠ [] := by
  rintro rfl
  obtain ⟨tokens, expr, lexed, parsed⟩ := accepted
  obtain rfl : tokens = [.eof] := by
    rw [Guard.tokenize, String.toList_ofList, Guard.tokenizeChars] at lexed
    exact (Except.ok.inj lexed).symm
  rw [Guard.tokenize, String.toList_ofList] at lexed
  obtain ⟨_, t, first, starts⟩ := Guard.accepted_chain lexed parsed
  cases first
  cases starts

/-- The lexer has read the text of a declared guard with the declaration. -/
theorem legible_guard {seen : Finset String} {g : GuardDecl}
    (lexed : tokenizeChars .start src = .ok all) (inside : ts.toList <:+ all)
    (read : Yields (parseGuardDecl src seen) ts g us) (accepted : Guard.Accepts g.expr) :
    ∃ kinds, Legible g.expr.toList kinds := by
  obtain ⟨_, ts₁, opening, read⟩ := yields_bind.mp read
  obtain ⟨⟨id, tok⟩, ts₂, name, read⟩ := yields_bind.mp read
  obtain ⟨_, ts₃, fresh, read⟩ := yields_bind.mp read
  obtain ⟨raw, ts₄, block, read⟩ := yields_bind.mp read
  obtain ⟨rfl, rfl⟩ := yields_pure.mp read
  obtain ⟨_, rfl, rfl⟩ := yields_expect.mp opening
  obtain ⟨_, rfl, rfl⟩ := yields_expectAnyIdent.mp name
  obtain ⟨_, rfl⟩ := yields_ensure.mp fresh
  have within := (Tokens.advance_suffix _).trans (ts.advance_suffix.trans inside)
  obtain ⟨body, behind, cur, toks, rfl, lexed'⟩ := block_text lexed within block
  rw [stripBraces, if_pos List.getLast?_concat, List.dropLast_concat] at accepted ⊢
  dsimp only at accepted ⊢
  rw [String.toList_ofList]
  have tame := tame_of_accepts accepted
  have solid := solid_trim (accepted_ne_nil accepted)
  obtain ⟨front, back, split, before, after⟩ := split_trim body
  rw [split, List.append_assoc, List.append_assoc] at lexed'
  have stops : ∀ d, (back ++ '}' :: behind).head? = some d → Stops (trim body) d := by
    intro d head
    cases back with
    | nil =>
        cases head
        exact stops_brace (.inr rfl)
    | cons e back =>
        cases head
        exact stops_whitespace (after _ List.mem_cons_self)
  obtain ⟨cur', skipped⟩ :=
    (gap_of_tokenize before lexed').lexes cur (trim body ++ (back ++ '}' :: behind))
  cases own : kindsOf (trim body) with
  | some kinds => exact ⟨kinds, own, tame.reads solid own, solid⟩
  | none =>
      obtain ⟨e, failed⟩ := unreadable tame own cur' stops
      have whole := skipped.tokenize
      rw [lexed', failed] at whole
      cases whole

end

/-! ## A reaction around its guard -/

section

variable [RustStd]

/-- A reaction in a block of its own, up to its guard. -/
def reactionFront : Parse (String × String × String × String) := do
  let _ ← expect .reaction
  let _ ← expect .lBrace
  reactionHead

/-- The payload and the compensation hook behind the guard, and the end of the block. -/
def reactionBack (src : List Char) : Parse (Option String × Option String) := do
  let payload ← parseReactionPayload src
  let onFail ← parseOnFail
  let _ ← expect .rBrace
  return (payload, onFail)

omit [RustStd] in
def rawReaction (head : String × String × String × String) (guard : Option RawGuard)
    (back : Option String × Option String) : RawReaction where
  fromSignal := head.1
  fromState := head.2.1
  toSignal := head.2.2.1
  event := head.2.2.2
  guard := guard
  payload := back.1
  joinGroup := none
  requires := []
  onFail := back.2

theorem parseReactionRaw_eq (src : List Char) : parseReactionRaw src = do
    let head ← reactionFront
    let guard ← parseReactionGuard src
    let back ← reactionBack src
    return rawReaction head guard back := by
  rw [parseReactionRaw, parseReactionBody_eq, reactionFront, reactionBack]
  simp only [bind_assoc, pure_bind]
  rfl

variable {src src' : List Char} {b : Border Token}

theorem Parallel.reactionFront (par : Parallel src src' b) :
    Leads b Eq Ddl.reactionFront Ddl.reactionFront :=
  par.expect fun _ _ => (par.expect fun _ _ => par.reactionHead.toFollows).toFollows

theorem Apart.reactionBack (par : Apart src src' b) :
    Follows b Eq (Ddl.reactionBack src) (Ddl.reactionBack src') := by
  refine par.parseReactionPayload.bind_eq fun payload => par.parseOnFail.bind_eq fun onFail => ?_
  exact (par.expect fun _ _ => .pure rfl).toFollows

variable {ts ws us vs : Tokens Token} {raw : RawReaction}

theorem yields_parseReactionRaw : Yields (parseReactionRaw src) ts raw us ↔ ∃ head guard back ws vs,
    Yields reactionFront ts head ws ∧ Yields (parseReactionGuard src) ws guard vs ∧
      Yields (reactionBack src) vs back us ∧ raw = rawReaction head guard back := by
  rw [parseReactionRaw_eq, yields_bind]
  constructor
  · rintro ⟨head, ws, front, rest⟩
    obtain ⟨guard, vs, middle, rest⟩ := yields_bind.mp rest
    obtain ⟨back, us', behind, rest⟩ := yields_bind.mp rest
    obtain ⟨rfl, rfl⟩ := yields_pure.mp rest
    exact ⟨head, guard, back, ws, vs, front, middle, behind, rfl⟩
  · rintro ⟨head, guard, back, ws, vs, front, middle, behind, rfl⟩
    exact ⟨head, ws, front, middle.bind (behind.bind (yields_pure.mpr ⟨rfl, rfl⟩))⟩

/-- A reference is one name behind `when`. -/
theorem yields_reference {id : String}
    (h : Yields (parseReactionGuard src) ws (some (.ref id)) vs) :
    ws.current.kind = .when ∧ vs = ws.advance.advance ∧
      (∃ name, ws.advance.current.kind = .identifier name) ∧ vs.current.kind.endsGuard = true ∧
      ∃ text, slice src ws.advance.current.start (ws.advance.current.start +
        ws.advance.current.len) =
        some text ∧ id = String.ofList (trim text) := by
  rw [parseReactionGuard, peek_bind, yields_bind] at h
  obtain ⟨head, _, looked, h⟩ := h
  obtain ⟨_, rfl⟩ := yields_atReactionHead.mp looked
  split at h
  · next opens =>
      simp only [Bool.and_eq_true, decide_eq_true_eq] at opens
      obtain ⟨spec, h, same⟩ := yields_map.mp h
      cases same
      obtain ⟨⟨taken, cut⟩, _, captured, h⟩ := yields_bind.mp h
      dsimp only at h
      split at h
      · next name single =>
          obtain ⟨same, rfl⟩ := yields_pure.mp h
          cases same
          obtain ⟨_, run, _, text, sliced, rfl⟩ := (yields_captureGuard opens.1).mp captured
          obtain ⟨tok, rfl, kind⟩ := List.map_eq_singleton_iff.mp single
          cases run with
          | cons start first later =>
              obtain ⟨rfl, rfl⟩ := yields_advance.mp first
              cases later with
              | nil stop =>
                  exact ⟨opens.1, rfl, ⟨name, kind⟩, by simpa using stop, text, sliced, rfl⟩
      · obtain ⟨same, _⟩ := yields_pure.mp h
        cases same
  · obtain ⟨same, _⟩ := yields_pure.mp h
    cases same

/-- The text of a guard that a reaction can hold in the place of a reference: an expression
that is not a name alone, none of whose tokens ends a guard. -/
structure Template (text : List Char) : Prop where
  accepted : Guard.Accepts (String.ofList text)
  whole : ∀ kinds, kindsOf text = some kinds → ∀ kind ∈ kinds, kind.endsGuard = false
  compound : ¬ Reference text

variable {front text back : List Char} {kinds : List TokenKind} {toks : List Token}

/-- A reaction takes such a text whole, for a guard and not for the next reaction. -/
theorem Template.yields (template : Template text) (legible : Legible text kinds)
    (keyword : ws.current.kind = .when) (split : ws.advance.toList = toks ++ us.toList)
    (same : toks.map Token.kind = kinds)
    (covers : Covers toks (byteLen front) (byteLen (front ++ text)))
    (finish : us.current.kind.endsGuard = true) (stream : Ends ws.advance) :
    Yields (parseReactionGuard (front ++ (text ++ back))) ws
      (some (.lit (String.ofList text))) us := by
  obtain ⟨⟨first, head, start⟩, ⟨final, tail, stop⟩⟩ := covers
  obtain ⟨rest, rfl⟩ := List.head?_eq_some_iff.mp head
  have current : ws.advance.current = first := (List.cons.inj split).1
  have whole : ∀ tok ∈ first :: rest, tok.kind.endsGuard = false := fun tok member =>
    template.whole kinds legible.read tok.kind (same ▸ List.mem_map_of_mem member)
  have not_head : isReactionHead ws = false := by
    rw [Bool.eq_false_iff]
    intro looks
    obtain ⟨_, ⟨second, name, at₁, ident⟩, third, at₂, enters⟩ := isReactionHead_iff.mp looks
    obtain ⟨current', behind⟩ := ws
    cases behind with
    | nil => cases at₁
    | cons next behind =>
        cases at₁
        have own : second = first := current
        subst own
        have left : behind = rest ++ us.toList := (List.cons.inj split).2
        have at₂ : behind[0]? = some third := at₂
        rw [List.map_cons, ident] at same
        cases rest with
        | nil => exact template.compound ⟨name, by rw [legible.read, ← same]; rfl⟩
        | cons tok rest =>
            obtain rfl : tok = third := by
              rw [left] at at₂
              exact Option.some.inj at₂
            rw [List.map_cons, enters] at same
            exact not_head_of_accepts template.accepted (by rw [legible.read, ← same])
  rw [parseReactionGuard, peek_bind, yields_bind]
  refine ⟨false, ws, yields_atReactionHead.mpr ⟨not_head.symm, rfl⟩, ?_⟩
  rw [if_pos (by simp [keyword]), yields_map]
  refine ⟨.lit (String.ofList text), ?_, rfl⟩
  rw [parseGuardSpec, yields_bind]
  refine ⟨(first :: rest, text), us, ?_, ?_⟩
  · obtain ⟨body, last, ends, finish'⟩ := stream
    rw [yields_captureGuard keyword,
      many_advance ends (by simp [finish', TokenKind.endsGuard]), current]
    refine ⟨whole first List.mem_cons_self,
      ⟨split, by simpa using whole, by simp [finish]⟩, ?_, text,
      ?_, (trim_solid legible.solid).symm⟩
    · have lengths := congrArg List.length split
      simp only [Tokens.toList, List.length_cons, List.length_append] at lengths
      simp only [List.length_cons]
      omega
    · rw [List.getLastD_eq_getLast?, tail, Option.getD_some, start, stop]
      exact slice_iff.mpr ⟨front, back, rfl, rfl, rfl⟩
  · dsimp only
    split
    · next name single =>
        exact absurd ⟨name, by rw [legible.read, ← same, single]⟩ template.compound
    · exact yields_pure.mpr ⟨rfl, rfl⟩

end

end SignalTopology.Ddl
