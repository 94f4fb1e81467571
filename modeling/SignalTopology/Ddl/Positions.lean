import SignalTopology.Ddl.Surgery

/-!
# Places of tokens

The lexer counts characters, bytes, lines and columns as it goes. In front of a visible
character the four counts agree with the text read so far; a comment leaves the column
behind, and the newline after it sets it right again. So every token stands where it says.
-/

namespace SignalTopology.Ddl

/-! ## Lines and columns -/

/-- The line, counted from 1, of what stands behind a text. -/
def lineAfter (before : List Char) : Nat := before.count '\n' + 1

/-- The column, counted from 1 in characters, of what stands behind a text. -/
def colAfter (before : List Char) : Nat := (before.reverse.takeWhile (· ≠ '\n')).length + 1

section

variable {before text : List Char}

theorem lineAfter_append (line : '\n' ∉ text) : lineAfter (before ++ text) = lineAfter before := by
  rw [lineAfter, List.count_append, List.count_eq_zero_of_not_mem line]
  rfl

theorem colAfter_append (line : '\n' ∉ text) :
    colAfter (before ++ text) = colAfter before + text.length := by
  have all : ∀ c ∈ text.reverse, decide (c ≠ '\n') = true := by
    intro c member
    rw [List.mem_reverse] at member
    simp only [decide_eq_true_eq]
    rintro rfl
    exact line member
  rw [colAfter, List.reverse_append, List.takeWhile_append_of_pos all, List.length_append,
    List.length_reverse, colAfter]
  omega

theorem lineAfter_newline : lineAfter (before ++ ['\n']) = lineAfter before + 1 := by
  rw [lineAfter, List.count_append]
  rfl

theorem colAfter_newline : colAfter (before ++ ['\n']) = 1 := by
  rw [colAfter, List.reverse_append]
  rfl

end

variable [RustStd]

/-! ## Lexemes stay on their line -/

theorem nextLexeme_line {c : Char} {cs : List Char} {lexeme : Lexeme}
    (h : nextLexeme c cs = .ok lexeme) : '\n' ∉ lexeme.text := by
  obtain ⟨quote, inside, _, text, _⟩ | ⟨_, _, text, _, _⟩ | ⟨_, _, _, text,
      _, _⟩ | ⟨_, _, _, read⟩ :=
    nextLexeme_cases h
  · have other : '\n' ≠ c := by
      rintro rfl
      exact absurd quote (by decide)
    rw [text]
    simp only [List.mem_cons, List.mem_append, List.not_mem_nil, or_false, not_or]
    exact ⟨other, inside, other⟩
  · rw [text]
    intro member
    exact absurd (numberChar_not_whitespace (List.mem_takeWhile_imp member)) (by decide)
  · rw [text]
    intro member
    exact absurd (wordChar_not_whitespace (List.mem_takeWhile_imp member)) (by decide)
  · intro member
    exact absurd ((symbol_visible read).1 _ member) (by decide)

/-! ## The counts of the lexer -/

/-- The lexer stands behind `before`, in front of `rest`. Behind a comment the column is not
that of the text. -/
structure Cursor.Behind (cur : Cursor) (before rest : List Char) : Prop where
  pos : cur.pos = byteLen before
  line : cur.line = lineAfter before
  col : cur.col = colAfter before ∨ rest = [] ∨ rest.head? = some '\n'

omit [RustStd] in
theorem Cursor.behind_start (cs : List Char) : Cursor.start.Behind [] cs := ⟨rfl, rfl, .inl rfl⟩

/-- A token with its text, the text in front of it and the text the lexer left behind it. -/
structure Token.Stands (tok : Token) (before text after : List Char) : Prop where
  read : ∃ c cs, text ++ after = c :: cs ∧ nextLexeme c cs = .ok ⟨tok.kind, text, after⟩
  nonempty : text ≠ []
  kind : tok.kind ≠ .eof
  start : tok.start = byteLen before
  len : tok.len = byteLen text
  line : tok.line = lineAfter before
  col : tok.col = colAfter before

/-- One turn of the loop reads a token, a blank, a newline or a comment. -/
theorem lexStep_behind {cur : Cursor} {c : Char} {cs before : List Char} {turn : Step}
    (h : lexStep cur c cs = .ok turn) (behind : cur.Behind before (c :: cs)) :
    ∃ text, c :: cs = text ++ turn.rest ∧ turn.cur.Behind (before ++ text) turn.rest ∧
      ((∃ tok, turn.token = some tok ∧ tok.Stands before text turn.rest) ∨
        (turn.token = none ∧ ((∃ d, text = [d] ∧ (isBlank d = true ∨ d = '\n')) ∨
          ∃ comment, text = '/' :: '/' :: comment ∧ '\n' ∉ comment ∧
            (turn.rest = [] ∨ turn.rest.head? = some '\n')))) := by
  obtain ⟨pos, line, col⟩ := behind
  unfold lexStep at h
  split at h
  · next comment =>
      cases h
      obtain ⟨rfl, second⟩ := comment
      obtain ⟨more, rfl⟩ := List.head?_eq_some_iff.mp second
      have taken : ('/' :: '/' :: more).takeWhile (· ≠ '\n') =
        '/' :: '/' :: more.takeWhile (· ≠ '\n') := rfl
      have dropped : ('/' :: '/' :: more).dropWhile (· ≠ '\n') = more.dropWhile (· ≠ '\n') := rfl
      have inside : '\n' ∉ more.takeWhile (· ≠ '\n') := by
        intro member
        simpa using List.mem_takeWhile_imp member
      have stop : more.dropWhile (· ≠ '\n') = [] ∨ (more.dropWhile (· ≠ '\n')).head? =
          some '\n' := by
        cases rest : more.dropWhile (· ≠ '\n') with
        | nil => exact .inl rfl
        | cons d ds =>
            have stopped := List.head?_dropWhile_not (fun d => decide (d ≠ '\n')) more
            rw [rest] at stopped
            exact .inr (congrArg some (by simpa using stopped))
      refine ⟨'/' :: '/' :: more.takeWhile (· ≠ '\n'), ?_, ⟨?_, ?_, .inr ?_⟩,
        .inr ⟨rfl, .inr ⟨_, rfl, inside, ?_⟩⟩⟩
      · simp [List.takeWhile_append_dropWhile]
      · rw [Cursor.comment, taken, byteLen_append, pos]
      · rw [Cursor.comment, line, lineAfter_append]
        simp only [List.mem_cons, not_or]
        exact ⟨by decide, by decide, inside⟩
      · rw [dropped]
        exact stop
      · rw [dropped]
        exact stop
  · next comment =>
      split at h
      · next blank =>
          cases h
          have other : c ≠ '\n' := by
            rintro rfl
            cases blank
          have inside : '\n' ∉ [c] := by simpa using Ne.symm other
          refine ⟨[c], rfl, ⟨?_, ?_, ?_⟩, .inr ⟨rfl, .inl ⟨c, rfl, .inl blank⟩⟩⟩
          · rw [Cursor.past, byteLen_append, pos]
          · rw [Cursor.past, line, lineAfter_append inside]
          · refine .inl ?_
            obtain same | none_left | head := col
            · rw [Cursor.past, colAfter_append inside, same]
            · cases none_left
            · cases head
              exact absurd rfl other
      · next blank =>
          split at h
          · next newline =>
              cases h
              subst newline
              refine ⟨['\n'], rfl, ⟨?_, ?_, .inl ?_⟩, .inr ⟨rfl, .inl ⟨'\n', rfl, .inr rfl⟩⟩⟩
              · rw [Cursor.newline, byteLen_append, pos]
                rfl
              · rw [Cursor.newline, line, lineAfter_newline]
              · rw [colAfter_newline]
                rfl
          · next newline =>
              split at h
              · cases h
              · next lexeme read =>
                  cases h
                  obtain ⟨whole, nonempty⟩ := nextLexeme_text read
                  have inside := nextLexeme_line read
                  have same : cur.col = colAfter before := by
                    obtain same | none_left | head := col
                    · exact same
                    · cases none_left
                    · exact absurd (Option.some.inj head) newline
                  refine ⟨lexeme.text, whole, ⟨?_, ?_, .inl ?_⟩, .inl ⟨_, rfl, ?_⟩⟩
                  · rw [Cursor.past, byteLen_append, pos]
                  · rw [Cursor.past, line, lineAfter_append inside]
                  · rw [Cursor.past, colAfter_append inside, same]
                  · exact ⟨⟨c, cs, whole.symm, read⟩, nonempty, (nextLexeme_solid read).2,
                      pos, rfl, line, same⟩

/-! ## Gaps and tokens in turn -/

/-- Blanks, newlines and comments up to the end of the source. The last comment needs no
newline. -/
def EndGap (text : List Char) : Prop :=
  Gap text ∨ ∃ gap comment, text = gap ++ '/' :: '/' :: comment ∧ Gap gap ∧ '\n' ∉ comment

/-- Behind `before` the source goes on with gaps and the texts of the tokens in turn. -/
inductive Placed : List Char → List Token → List Char → Prop where
  | last {before gap : List Char} (skipped : EndGap gap) : Placed before [] gap
  | token {before gap text rest : List Char} {tok : Token} {toks : List Token} (skipped : Gap gap)
      (stands : tok.Stands (before ++ gap) text rest)
        (later : Placed (before ++ (gap ++ text)) toks rest) :
      Placed before (tok :: toks) (gap ++ (text ++ rest))

omit [RustStd] in
/-- A comment belongs to the gap that its newline starts. -/
theorem Gap.comment_line {gap comment : List Char} (h : Gap gap) (head : gap.head? = some '\n')
    (line : '\n' ∉ comment) : Gap ('/' :: '/' :: (comment ++ gap)) := by
  cases h with
  | nil => cases head
  | blank blank later =>
      cases head
      cases blank
  | newline later => exact .comment line later
  | comment => exact absurd (Option.some.inj head) (by decide)

section

variable {before rest : List Char} {d : Char} {toks : List Token}

/-- A blank or a newline in front belongs to the first gap. -/
theorem Placed.blank (h : Placed (before ++ [d]) toks rest) (blank : isBlank d = true ∨ d = '\n') :
    Placed before toks (d :: rest) := by
  have front : ∀ {gap : List Char}, Gap gap → Gap (d :: gap) := by
    intro gap later
    obtain blank | rfl := blank
    · exact .blank blank later
    · exact .newline later
  cases h with
  | last skipped =>
      obtain skipped | ⟨gap, comment, rfl, skipped, line⟩ := skipped
      · exact .last (.inl (front skipped))
      · exact .last (.inr ⟨d :: gap, comment, rfl, front skipped, line⟩)
  | token skipped stands later =>
      rw [List.append_assoc] at stands later
      exact .token (front skipped) stands later

/-- So does a comment. -/
theorem Placed.comment {comment : List Char}
    (h : Placed (before ++ '/' :: '/' :: comment) toks rest)
    (line : '\n' ∉ comment) (stop : rest = [] ∨ rest.head? = some '\n') :
    Placed before toks ('/' :: '/' :: (comment ++ rest)) := by
  cases h with
  | last skipped =>
      obtain rfl | head := stop
      · rw [List.append_nil]
        exact .last (.inr ⟨[], comment, rfl, .nil, line⟩)
      · obtain skipped | ⟨gap, last, rfl, skipped, last_line⟩ := skipped
        · exact .last (.inl (skipped.comment_line head line))
        · cases gap with
          | nil => exact absurd (Option.some.inj head) (by decide)
          | cons c gap =>
              refine .last (.inr ⟨'/' :: '/' :: (comment ++ c :: gap), last, ?_, ?_, last_line⟩)
              · simp
              · exact skipped.comment_line head line
  | @token _ gap text rest tok toks skipped stands later =>
      cases gap with
      | nil =>
          -- A token never starts with a newline.
          obtain ⟨c, cs, rfl⟩ := List.exists_cons_of_ne_nil stands.nonempty
          obtain empty | head := stop
          · cases empty
          · cases head
            obtain ⟨_, _, _, read⟩ := stands.read
            exact absurd (List.mem_cons_self ..) (nextLexeme_line read)
      | cons c gap =>
          obtain empty | head := stop
          · cases empty
          · have joined := skipped.comment_line head line
            have moved : tok.Stands (before ++ '/' :: '/' :: (comment ++ c :: gap)) text rest := by
              simpa using stands
            have placed := Placed.token joined moved (by simpa using later)
            simpa using placed

end

theorem Lexes.placed {cur cur' : Cursor} {cs before : List Char} {toks : List Token}
    (lexes : Lexes cur cs toks cur' []) (behind : cur.Behind before cs) :
    Placed before toks cs := by
  generalize done : ([] : List Char) = rest at lexes
  induction lexes generalizing before with
  | refl =>
      subst done
      exact .last (.inl .nil)
  | @step cur cur' c cs rest turn toks first _ ih =>
      obtain ⟨text, whole, moved, ⟨tok, token, stands⟩ | ⟨token, ⟨d, rfl, blank⟩ |
        ⟨comment, rfl, line, stop⟩⟩⟩ := lexStep_behind first behind
      · have later := ih moved done
        rw [whole, token]
        rw [← List.append_nil before] at stands
        exact .token .nil stands later
      · rw [whole, token]
        exact (ih moved done).blank blank
      · rw [whole, token]
        exact (ih moved done).comment line stop

/-! ## Spans of tokens -/

/-- A token is what the lexer read at its place in the source: its span is cut out exactly. -/
structure Token.Exact (tok : Token) (src before text after : List Char) : Prop
    extends tok.Stands before text after where
  place : src = before ++ (text ++ after)
  span : slice src tok.start (tok.start + tok.len) = some text
  positive : 0 < tok.len

theorem Token.Stands.exact {tok : Token} {src before text after : List Char}
    (h : tok.Stands before text after) (place : src = before ++ (text ++ after)) :
    tok.Exact src before text after := by
  refine ⟨h, place, ?_, ?_⟩
  · rw [place, h.start, h.len]
    exact slice_append before text after
  · obtain ⟨c, cs, rfl⟩ := List.exists_cons_of_ne_nil h.nonempty
    have size := c.utf8Size_pos
    rw [h.len, byteLen_cons]
    omega

section

variable {src before rest : List Char} {toks : List Token}

/-- Every token stands behind the text in front, at its place. -/
theorem Placed.exact (h : Placed before toks rest) (place : src = before ++ rest) :
    ∀ tok ∈ toks, byteLen before ≤ tok.start ∧
      ∃ front text after, tok.Exact src front text after := by
  induction h with
  | last => simp
  | @token before gap text rest tok toks skipped stands later ih =>
      have here : src = (before ++ gap) ++ (text ++ rest) := by rw [place, List.append_assoc]
      intro tok' member
      obtain rfl | member := List.mem_cons.mp member
      · refine ⟨?_, before ++ gap, text, rest, stands.exact here⟩
        rw [stands.start, byteLen_append]
        omega
      · obtain ⟨behind, found⟩ := ih (by simpa using place) tok' member
        rw [byteLen_append, byteLen_append] at behind
        exact ⟨by omega, found⟩

/-- Tokens follow each other without overlap. -/
theorem Placed.disjoint (h : Placed before toks rest) :
    toks.Pairwise fun t u => t.start + t.len ≤ u.start := by
  induction h with
  | last => exact .nil
  | @token before gap text rest tok toks skipped stands later ih =>
      refine .cons ?_ ih
      intro tok' member
      obtain ⟨behind, _⟩ := later.exact rfl tok' member
      rw [byteLen_append, byteLen_append] at behind
      rw [stands.start, stands.len, byteLen_append]
      omega

end

/-- Spans and places of tokens are exact: the source is gaps and the texts of the tokens in
turn, no token overlaps the next, and each one was read from the characters of its span, at its
line and column. The token at the end is no part of the text. -/
theorem tokenize_exact {src : String} {toks : List Token} (read : tokenize src = .ok toks) :
    ∃ body eof, toks = body ++ [eof] ∧ eof.kind = .eof ∧ Placed [] body src.toList ∧
      (body.Pairwise fun t u => t.start + t.len ≤ u.start) ∧
      ∀ tok ∈ body, ∃ before text after, tok.Exact src.toList before text after := by
  obtain ⟨body, stop, lexes, rfl⟩ := lexes_of_tokenize read
  have placed := lexes.placed (Cursor.behind_start _)
  refine ⟨body, stop.eof, rfl, rfl, placed, placed.disjoint, ?_⟩
  intro tok member
  exact (placed.exact rfl tok member).2

/-- Characters of two bytes in a string and in a comment, and a line that ends with `\r\n`. -/
def mixedSource : String := "on 'é' // ü\r\n\t-> x"

def mixedTokens : List Token :=
  [⟨.on, 1, 1, 0, 2⟩, ⟨.string "é", 1, 4, 3, 4⟩, ⟨.arrow, 2, 2, 16, 2⟩,
    ⟨.identifier "x", 2, 5, 19, 1⟩, ⟨.eof, 2, 6, 18, 0⟩]

omit [RustStd] in
theorem mixedSource_exact :
    ∃ body eof, mixedTokens = body ++ [eof] ∧ eof.kind = .eof ∧
      @Placed .ascii [] body mixedSource.toList ∧
      (body.Pairwise fun t u => t.start + t.len ≤ u.start) ∧
      ∀ tok ∈ body, ∃ before text after,
        @Token.Exact .ascii tok mixedSource.toList before text after :=
  @tokenize_exact .ascii mixedSource mixedTokens (by decide +kernel)

end SignalTopology.Ddl
