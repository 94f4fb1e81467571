import SignalTopology.Ddl.Lexing
import SignalTopology.Guard.Adjacency

/-!
# Guards as the DDL lexer sees them

A guard is written in the guard language but cut out of the source along DDL
tokens. In an accepted guard every quote is closed and no two slashes meet
outside of quotes, so the DDL lexer reads the guard the same way whatever
follows it: either as the same tokens or with the same error.
-/

namespace SignalTopology.Ddl

def isQuote (c : Char) : Bool := c = '\'' || c = '"'

/-- Every quote is closed. Outside of quotes, a slash stands in front of something
other than a slash. -/
inductive Tame : List Char → Prop where
  | nil : Tame []
  | quoted {q : Char} {cs rest : List Char} (quote : isQuote q = true)
      (closed : cs.dropWhile (· ≠ q) = q :: rest) (later : Tame rest) : Tame (q :: cs)
  | plain {c : Char} {cs : List Char} (other : isQuote c = false)
      (slash : c = '/' → ∃ d, cs.head? = some d ∧ d ≠ '/') (later : Tame cs) : Tame (c :: cs)

namespace Tame

variable {c : Char} {cs : List Char} {p : Char → Bool}

theorem tail (tame : Tame (c :: cs)) (other : isQuote c = false) : Tame cs := by
  cases tame with
  | quoted quote _ _ =>
      rw [quote] at other
      cases other
  | plain _ _ later => exact later

theorem closed (tame : Tame (c :: cs)) (quote : isQuote c = true) :
    ∃ rest, cs.dropWhile (· ≠ c) = c :: rest ∧ Tame rest := by
  cases tame with
  | quoted _ closed later => exact ⟨_, closed, later⟩
  | plain other _ _ =>
      rw [quote] at other
      cases other

/-- A tame text does not start with a comment. -/
theorem slash (tame : Tame (c :: cs)) : ¬ (c = '/' ∧ cs.head? = some '/') := by
  rintro ⟨rfl, head⟩
  cases tame with
  | quoted quote _ _ => cases quote
  | plain _ slash _ =>
      obtain ⟨d, first, other⟩ := slash rfl
      rw [first] at head
      cases head
      exact other rfl

/-- Characters other than quotes and slashes may stand in front. -/
theorem of_dropWhile (harmless : ∀ c, p c = true → isQuote c = false ∧ c ≠ '/')
    (later : Tame (cs.dropWhile p)) : Tame cs := by
  induction cs with
  | nil => exact .nil
  | cons c cs ih =>
      cases holds : p c with
      | false =>
          rw [List.dropWhile_cons_of_neg (by simp [holds])] at later
          exact later
      | true =>
          rw [List.dropWhile_cons_of_pos holds] at later
          obtain ⟨other, different⟩ := harmless c holds
          exact .plain other (fun same => absurd same different) (ih later)

theorem dropWhile (tame : Tame cs) (harmless : ∀ c, p c = true → isQuote c = false) :
    Tame (cs.dropWhile p) := by
  induction cs with
  | nil => exact .nil
  | cons c cs ih =>
      cases holds : p c with
      | false =>
          rw [List.dropWhile_cons_of_neg (by simp [holds])]
          exact tame
      | true =>
          rw [List.dropWhile_cons_of_pos holds]
          exact ih (tame.tail (harmless c holds))

end Tame

theorem isQuote_whitespace {c : Char} (blank : isWhitespace c = true) :
    isQuote c = false ∧ c ≠ '/' := by
  constructor
  · cases quote : isQuote c with
    | false => rfl
    | true =>
        simp only [isQuote, Bool.or_eq_true, decide_eq_true_eq] at quote
        rcases quote with rfl | rfl <;> exact absurd blank (by decide)
  · rintro rfl
    exact absurd blank (by decide)

theorem isQuote_numberChar (c : Char) (number : Guard.isNumberChar c = true) :
    isQuote c = false ∧ c ≠ '/' := by
  constructor
  · cases quote : isQuote c with
    | false => rfl
    | true =>
        simp only [isQuote, Bool.or_eq_true, decide_eq_true_eq] at quote
        rcases quote with rfl | rfl <;> exact absurd number (by decide)
  · rintro rfl
    exact absurd number (by decide)

variable [RustStd]

theorem isWordChar_ascii {c : Char} (ascii : c.toNat < 128) :
    Guard.isWordChar c = (c.isAlpha || c.isDigit || c = '_') := by
  rw [Guard.isWordChar, isAlphanumeric, RustStd.isAlphabetic_ascii c ascii,
    RustStd.isNumeric_ascii c ascii]

theorem isQuote_wordChar (c : Char) (word : Guard.isWordChar c = true) :
    isQuote c = false ∧ c ≠ '/' := by
  constructor
  · cases quote : isQuote c with
    | false => rfl
    | true =>
        simp only [isQuote, Bool.or_eq_true, decide_eq_true_eq] at quote
        rcases quote with rfl | rfl <;>
          (rw [isWordChar_ascii (by decide)] at word; exact absurd word (by decide))
  · rintro rfl
    rw [isWordChar_ascii (by decide)] at word
    exact absurd word (by decide)

/-! ## Accepted guards are tame -/

/-- A slash is read as the division. -/
theorem tokenizeChars_slash {cs : List Char} {tokens : List Guard.Token}
    (h : Guard.tokenizeChars ('/' :: cs) = .ok tokens) : tokens.head? = some .div := by
  have letter : RustStd.isAlphabetic '/' = false :=
    (RustStd.isAlphabetic_ascii '/' (by decide)).trans (by decide)
  have read : Guard.nextToken '/' cs = .ok (.div, cs) := by
    rw [Guard.nextToken, if_neg (by decide), if_neg (by simp), if_neg (by simp [letter])]
    rfl
  rw [Guard.tokenizeChars, if_neg (by decide)] at h
  split at h
  · cases h
  · next token rest same =>
      rw [read] at same
      cases same
      split at h
      · cases h
        rfl
      · cases h

theorem tame_of_chain {cs : List Char} {tokens : List Guard.Token}
    (h : Guard.tokenizeChars cs = .ok tokens) (chain : tokens.IsChain Guard.Token.Precedes) :
    Tame cs := by
  fun_induction Guard.tokenizeChars cs generalizing tokens with
  | case1 => exact .nil
  | case2 c cs blank ih =>
      obtain ⟨other, different⟩ := isQuote_whitespace blank
      exact .plain other (fun same => absurd same different) (ih h chain)
  | case3 => cases h
  | case4 c cs visible token rest read tokens later ih =>
      cases h
      obtain ⟨joins, chain⟩ := List.isChain_cons.mp chain
      have tame := ih later chain
      unfold Guard.nextToken at read
      split at read
      · next quote =>
          subst quote
          split at read
          · cases read
          · next q tail dropped =>
              cases read
              have same : q = '\'' := by
                have stopped := List.head?_dropWhile_not (fun d => decide (d ≠ '\'')) cs
                rw [dropped] at stopped
                simpa using stopped
              subst same
              exact .quoted rfl dropped tame
      · split at read
        · split at read
          · cases read
            exact Tame.of_dropWhile isQuote_numberChar tame
          · cases read
        · split at read
          · cases read
            exact Tame.of_dropWhile isQuote_wordChar tame
          · have symbol : ∀ {c : Char} {cs : List Char}, isQuote c = false → c ≠ '/' → Tame cs →
                Tame (c :: cs) :=
              fun other different => .plain other fun same => absurd same different
            unfold Guard.symbol at read
            split at read <;> cases read
            case h_7 =>
              refine .plain rfl (fun _ => ?_) tame
              cases cs with
              | nil =>
                  rw [Guard.tokenizeChars] at later
                  cases later
                  cases joins .eof rfl
              | cons d ds =>
                  refine ⟨d, rfl, ?_⟩
                  rintro rfl
                  cases joins .div (tokenizeChars_slash later)
            all_goals first
              | exact symbol (by decide) (by decide) tame
              | exact symbol (by decide) (by decide) (symbol (by decide) (by decide) tame)
  | case5 => cases h

/-! ## Reading a tame text in front of another -/

/-- The character `d` goes on with no word, number or operator at the end of
`text`, and starts no comment there. -/
structure Stops (text : List Char) (d : Char) : Prop where
  word : ∀ c, text.getLast? = some c → Guard.isWordChar c = true → Guard.isWordChar d = false
  digit : d.isDigit = false
  symbol : d ≠ '.' ∧ d ≠ '>' ∧ d ≠ '='
  slash : text.getLast? = some '/' → d ≠ '/'

omit [RustStd] in
theorem pairKind_second {c d : Char} (other : d ≠ '>' ∧ d ≠ '=') : pairKind c d = none := by
  unfold pairKind
  split <;> simp_all

theorem Stops.suffix {front text : List Char} {d : Char} (h : Stops (front ++ text) d) :
    Stops text d := by
  refine ⟨fun c last => h.word c ?_, h.digit, h.symbol, fun last => h.slash ?_⟩ <;>
    · rw [List.getLast?_append, last]
      rfl

theorem continues_of_stops {c d : Char} {cs : List Char} {lexeme : Lexeme}
    (read : nextLexeme c cs = .ok lexeme) (whole : lexeme.rest = []) (stops : Stops (c :: cs) d) :
    continues lexeme.text d = false := by
  have text : c :: cs = lexeme.text := by
    have split := (nextLexeme_text read).1
    rwa [whole, List.append_nil] at split
  rw [← text]
  obtain ⟨quote, _⟩ | ⟨quote, digit, _⟩ | ⟨quote, digit, alphabetic, run, _⟩ |
    ⟨quote, digit, alphabetic, _⟩ := nextLexeme_cases read
  · simp only [continues, if_pos quote]
  · simp only [continues, if_neg quote, if_pos digit, Guard.isNumberChar, stops.digit,
      Bool.false_or, decide_eq_false_iff_not]
    exact stops.symbol.1
  · simp only [continues, if_neg quote, if_neg digit, if_pos alphabetic]
    refine stops.word _ (List.getLast?_eq_getLast_of_ne_nil (List.cons_ne_nil c cs)) ?_
    -- every character of the run is a word character
    rw [← text] at run
    refine List.mem_takeWhile_imp (l := c :: cs) ?_
    rw [← run]
    exact List.getLast_mem _
  · simp only [continues, if_neg quote, if_neg digit, if_neg alphabetic,
      pairKind_second stops.symbol.2, Option.isSome_none, Bool.false_or]
    cases cs with
    | cons => rfl
    | nil =>
        simp only [List.isEmpty_nil, Bool.true_and, Bool.and_eq_false_iff, decide_eq_false_iff_not]
        by_cases slash : c = '/'
        · subst slash
          exact .inr (stops.slash rfl)
        · exact .inl slash

/-- A lexeme of a tame text is read, or fails to be read, the same way in front of
another text. -/
theorem nextLexeme_tame {c : Char} {cs more : List Char} (tame : Tame (c :: cs))
    (stops : ∀ d, more.head? = some d → Stops (c :: cs) d) :
    nextLexeme c (cs ++ more) =
      (nextLexeme c cs).map fun lexeme => { lexeme with rest := lexeme.rest ++ more } := by
  cases read : nextLexeme c cs with
  | ok lexeme =>
      exact nextLexeme_append read fun whole d first =>
        continues_of_stops read whole (stops d first)
  | error e =>
      show nextLexeme c (cs ++ more) = .error e
      unfold nextLexeme at read ⊢
      split at read
      · next quote =>
          rw [if_pos quote]
          obtain ⟨rest, closed, _⟩ := tame.closed quote
          obtain ⟨taken, _⟩ := span_append (fun d => decide (d ≠ c)) cs more
            fun none_left => by
              rw [closed] at none_left
              cases none_left
          dsimp only at read ⊢
          rw [taken]
          split at read
          · next line =>
              rw [if_pos line]
              exact read
          · rw [closed] at read
            cases read
      · next quote =>
          rw [if_neg quote]
          split at read
          · next digit =>
              rw [if_pos digit]
              obtain ⟨taken, _⟩ := span_append Guard.isNumberChar (c :: cs) more
                fun _ d first => by
                  have stop := stops d first
                  simp [Guard.isNumberChar, stop.digit, stop.symbol.1]
              dsimp only at read ⊢
              rw [← List.cons_append, taken]
              split at read
              · cases read
              · cases read
                rfl
          · next digit =>
              rw [if_neg digit]
              split at read
              · cases read
              · next alphabetic =>
                  rw [if_neg alphabetic]
                  unfold symbol at read ⊢
                  have pair : (cs ++ more).head?.bind (pairKind c) = none := by
                    cases cs with
                    | nil =>
                        refine Option.bind_eq_none_iff.mpr fun d first => ?_
                        exact pairKind_second (stops d first).symbol.2
                    | cons d ds =>
                        split at read
                        · cases read
                        · next none_read => exact none_read
                  rw [pair]
                  split at read
                  · cases read
                  · split at read
                    · cases read
                    · exact read

theorem lexStep_tame {cur : Cursor} {c : Char} {cs more : List Char} (tame : Tame (c :: cs))
    (stops : ∀ d, more.head? = some d → Stops (c :: cs) d) :
    lexStep cur c (cs ++ more) =
      (lexStep cur c cs).map fun turn => { turn with rest := turn.rest ++ more } := by
  have apart : ¬ (c = '/' ∧ (cs ++ more).head? = some '/') := by
    rintro ⟨slash, head⟩
    cases cs with
    | nil =>
        subst slash
        exact (stops '/' head).slash rfl rfl
    | cons d ds => exact tame.slash ⟨slash, head⟩
  rw [lexStep, lexStep, if_neg apart, if_neg tame.slash]
  split
  · rfl
  · split
    · rfl
    · rw [nextLexeme_tame tame stops]
      cases nextLexeme c cs <;> rfl

/-- What is left of a tame text after one turn of the lexer is tame. -/
theorem Tame.step {cur : Cursor} {c : Char} {cs : List Char} {turn : Step} (tame : Tame (c :: cs))
    (h : lexStep cur c cs = .ok turn) : Tame turn.rest := by
  rw [lexStep, if_neg tame.slash] at h
  split at h
  · next blank =>
      cases h
      refine tame.tail ?_
      simp only [isBlank, Bool.or_eq_true, decide_eq_true_eq] at blank
      rcases blank with (rfl | rfl) | rfl <;> decide
  · split at h
    · next line =>
        cases h
        subst line
        exact tame.tail (by decide)
    · split at h
      · cases h
      · next lexeme read =>
          cases h
          obtain ⟨quote, _, dropped, _⟩ | ⟨_, _, _, rest, _⟩ | ⟨_, _, _, _, rest, _⟩ |
            ⟨quote, _, _, read⟩ := nextLexeme_cases read
          · obtain ⟨rest, closed, later⟩ := tame.closed quote
            rw [dropped] at closed
            cases closed
            exact later
          · rw [rest]
            exact tame.dropWhile fun d number => (isQuote_numberChar d number).1
          · rw [rest]
            exact tame.dropWhile fun d word => (isQuote_wordChar d word).1
          · have other : isQuote c = false := Bool.eq_false_iff.mpr quote
            unfold symbol at read
            split at read
            · next kind pair =>
                cases read
                cases cs with
                | nil => cases pair
                | cons d ds =>
                    refine (tame.tail other).tail ?_
                    unfold pairKind at pair
                    simp only [List.head?_cons, Option.bind_some] at pair
                    split at pair <;> first | rfl | cases pair
            · split at read
              · cases read
                exact tame.tail other
              · cases read

/-- What is left after one turn is a tail of the text. -/
theorem lexStep_suffix {cur : Cursor} {c : Char} {cs : List Char} {turn : Step}
    (h : lexStep cur c cs = .ok turn) : ∃ front, c :: cs = front ++ turn.rest := by
  obtain ⟨front, taken, _⟩ := lexStep_text h
  exact ⟨front, taken⟩

/-- A turn that ends on a visible character reads a token up to that character. -/
theorem lexStep_last {cur : Cursor} {c : Char} {cs : List Char} {turn : Step}
    (h : lexStep cur c cs = .ok turn) (tame : Tame (c :: cs)) (whole : turn.rest = [])
    (visible : ∀ d, (c :: cs).getLast? = some d → isWhitespace d = false) :
    ∃ tok, turn.token = some tok ∧ tok.start + tok.len = turn.cur.pos := by
  rw [lexStep, if_neg tame.slash] at h
  split at h
  · next blank =>
      cases h
      cases whole
      have hidden := visible c rfl
      simp only [isBlank, Bool.or_eq_true, decide_eq_true_eq] at blank
      rcases blank with (rfl | rfl) | rfl <;> exact absurd hidden (by decide)
  · split at h
    · next line =>
        cases h
        cases whole
        subst line
        exact absurd (visible '\n' rfl) (by decide)
    · split at h
      · cases h
      · cases h
        exact ⟨_, rfl, rfl⟩

/-- A turn at a visible character that starts no comment reads a token there. -/
theorem lexStep_first {cur : Cursor} {c : Char} {cs : List Char} {turn : Step}
    (h : lexStep cur c cs = .ok turn) (tame : Tame (c :: cs)) (visible : isWhitespace c = false) :
    ∃ tok, turn.token = some tok ∧ tok.start = cur.pos := by
  rw [lexStep, if_neg tame.slash] at h
  split at h
  · next blank =>
      simp only [isBlank, Bool.or_eq_true, decide_eq_true_eq] at blank
      rcases blank with (rfl | rfl) | rfl <;> exact absurd visible (by decide)
  · split at h
    · next line =>
        subst line
        exact absurd visible (by decide)
    · split at h
      · cases h
      · cases h
        exact ⟨_, rfl, rfl⟩

/-- A tame text is read as it is alone. A visible first character starts a token and
a visible last one ends one. -/
theorem Tame.lexes {cur : Cursor} {cs more : List Char} {toks : List Token} (tame : Tame cs)
    (h : tokenizeChars cur cs = .ok toks) (stops : ∀ d, more.head? = some d → Stops cs d) :
    ∃ body cur', toks = body ++ [cur'.eof] ∧ Lexes cur (cs ++ more) body cur' more ∧
      (cs = [] → body = [] ∧ cur' = cur) ∧
      (∀ d, cs.head? = some d → isWhitespace d = false →
        ∃ tok, body.head? = some tok ∧ tok.start = cur.pos) ∧
      ((∀ d, cs.getLast? = some d → isWhitespace d = false) → cs ≠ [] →
        ∃ tok, body.getLast? = some tok ∧ tok.start + tok.len = cur'.pos) := by
  fun_induction tokenizeChars cur cs generalizing toks with
  | case1 cur =>
      cases h
      exact ⟨[], cur, rfl, .refl cur more, fun _ => ⟨rfl, rfl⟩, by simp,
        fun _ nonempty => absurd rfl nonempty⟩
  | case2 => cases h
  | case3 cur c cs turn read tokens rest ih =>
      cases h
      obtain ⟨front, taken⟩ := lexStep_suffix read
      obtain ⟨body, cur', rfl, later, empty, _, ends⟩ := ih (tame.step read) rest fun d first =>
        (taken ▸ stops d first : Stops (front ++ turn.rest) d).suffix
      have longer : lexStep cur c (cs ++ more) = .ok { turn with rest := turn.rest ++ more } := by
        rw [lexStep_tame tame stops, read]
        rfl
      have run := Lexes.step longer later
      refine ⟨_, cur', (List.append_assoc _ _ _).symm, run, by simp, ?_, fun visible _ => ?_⟩
      · intro d first visible
        cases first
        obtain ⟨tok, token, start⟩ := lexStep_first read tame visible
        exact ⟨tok, by rw [token]; rfl, start⟩
      · rw [List.getLast?_append]
        by_cases whole : turn.rest = []
        · obtain ⟨tok, token, stop⟩ := lexStep_last read tame whole visible
          obtain ⟨rfl, rfl⟩ := empty whole
          exact ⟨tok, by rw [token]; rfl, stop⟩
        · obtain ⟨tok, last, stop⟩ := ends (fun d last => visible d (by
            rw [taken, List.getLast?_append, last]
            rfl)) whole
          exact ⟨tok, by rw [last]; rfl, stop⟩
  | case4 => cases h

/-- A tame text that cannot be read alone cannot be read in front of another. -/
theorem Tame.fails {cur : Cursor} {cs more : List Char} {e : String} (tame : Tame cs)
    (h : tokenizeChars cur cs = .error e) (stops : ∀ d, more.head? = some d → Stops cs d) :
    tokenizeChars cur (cs ++ more) = .error e := by
  fun_induction tokenizeChars cur cs with
  | case1 cur => cases h
  | case2 cur c cs message read =>
      cases h
      have longer : lexStep cur c (cs ++ more) = .error e := by
        rw [lexStep_tame tame stops, read]
        rfl
      rw [List.cons_append, tokenizeChars]
      split
      · next same =>
          rw [longer] at same
          cases same
          rfl
      · next same =>
          rw [longer] at same
          cases same
  | case3 cur c cs turn read tokens rest ih => cases h
  | case4 cur c cs turn read e' rest ih =>
      cases h
      obtain ⟨front, taken⟩ := lexStep_suffix read
      have later := ih (tame.step read) rest fun d first =>
        (taken ▸ stops d first : Stops (front ++ turn.rest) d).suffix
      have longer : lexStep cur c (cs ++ more) = .ok { turn with rest := turn.rest ++ more } := by
        rw [lexStep_tame tame stops, read]
        rfl
      rw [List.cons_append, tokenizeChars]
      split
      · next same =>
          rw [longer] at same
          cases same
      · next same =>
          rw [longer] at same
          cases same
          rw [later]

/-! ## Readable texts -/

/-- The tokens lie between two places and reach both. -/
structure Covers (toks : List Token) (lo hi : Nat) : Prop where
  first : ∃ tok, toks.head? = some tok ∧ tok.start = lo
  last : ∃ tok, toks.getLast? = some tok ∧ tok.start + tok.len = hi

/-- `text` is read as tokens of the given kinds, from its first character to its
last, in front of whatever does not go on with it. -/
def Reads (text : List Char) (kinds : List TokenKind) : Prop :=
  ∀ cur more, (∀ d, more.head? = some d → Stops text d) →
    ∃ toks cur', Lexes cur (text ++ more) toks cur' more ∧ toks.map Token.kind = kinds ∧
      Covers toks cur.pos cur'.pos

/-- The kinds of the tokens in a text, if it can be read. -/
def kindsOf (text : List Char) : Option (List TokenKind) :=
  match tokenizeChars .start text with
  | .ok toks => some (toks.dropLast.map Token.kind)
  | .error _ => none

/-- Whether a text can be read does not depend on the place. -/
theorem tokenizeChars_shift {cur : Cursor} {cs : List Char} {toks : List Token}
    (h : tokenizeChars cur cs = .ok toks) (start : Cursor) :
    ∃ toks', tokenizeChars start cs = .ok toks' ∧
      toks'.dropLast.map Token.kind = toks.dropLast.map Token.kind := by
  obtain ⟨body, cur', lexes, rfl⟩ := lexes_of_tokenize h
  obtain ⟨body', stop, shifted, _, moved⟩ := lexes.shift start
  refine ⟨body' ++ [stop.eof], ?_, ?_⟩
  · rw [shifted.tokenize, tokenizeChars]
    rfl
  · rw [List.dropLast_concat, List.dropLast_concat]
    exact moved_kinds moved

/-- A tame text between visible characters is read whole. -/
theorem Tame.reads {text : List Char} {kinds : List TokenKind} (tame : Tame text)
    (solid : Solid text) (h : kindsOf text = some kinds) : Reads text kinds := by
  intro cur more stops
  unfold kindsOf at h
  split at h
  · next toks alone =>
      cases h
      obtain ⟨toks', read, same⟩ := tokenizeChars_shift alone cur
      obtain ⟨body, cur', rfl, lexes, _, begins, ends⟩ := tame.lexes read stops
      rw [List.dropLast_concat] at same
      obtain ⟨c, cs, rfl⟩ := List.exists_cons_of_ne_nil solid.nonempty
      exact ⟨body, cur', lexes, same, begins c rfl (solid.first c rfl),
        ends solid.last solid.nonempty⟩
  · cases h

/-- A lexeme at the end of a text is read in front of what does not go on with it. -/
theorem lexStep_final {cur : Cursor} {c : Char} {cs more : List Char} {turn : Step} {tok : Token}
    (h : lexStep cur c cs = .ok turn) (token : turn.token = some tok) (whole : turn.rest = [])
    (stops : ∀ d, more.head? = some d → Stops (c :: cs) d) :
    lexStep cur c (cs ++ more) = .ok { turn with rest := turn.rest ++ more } := by
  unfold lexStep at h ⊢
  split at h
  · cases h
    cases token
  · next comment =>
      have apart : ¬ (c = '/' ∧ (cs ++ more).head? = some '/') := by
        rintro ⟨slash, head⟩
        cases cs with
        | nil =>
            subst slash
            exact (stops '/' head).slash rfl rfl
        | cons d ds => exact comment ⟨slash, head⟩
      rw [if_neg apart]
      split at h
      · cases h
        cases token
      · next blank =>
          rw [if_neg blank]
          split at h
          · cases h
            cases token
          · next newline =>
              rw [if_neg newline]
              split at h
              · cases h
              · next lexeme read =>
                  cases h
                  rw [nextLexeme_append read fun none_left d first =>
                    continues_of_stops read none_left (stops d first)]

/-- A text whose last token ends it is read in front of what does not go on with it. -/
theorem Lexes.before {cur cur' : Cursor} {cs rest more : List Char} {toks : List Token}
    (lexes : Lexes cur cs toks cur' rest) (whole : rest = [])
    (ends : cs ≠ [] → ∃ tok, toks.getLast? = some tok ∧ tok.start + tok.len = cur'.pos)
    (stops : ∀ d, more.head? = some d → Stops cs d) : Lexes cur (cs ++ more) toks cur' more := by
  induction lexes with
  | refl cur cs =>
      subst whole
      exact .refl cur more
  | @step cur cur' c cs rest turn toks first later ih =>
      obtain ⟨tok, last, stop⟩ := ends (List.cons_ne_nil c cs)
      obtain ⟨text, taken, moved, token⟩ := lexStep_text first
      by_cases left : turn.rest = []
      · rw [left] at later
        cases later
        rw [List.append_nil] at last ⊢
        cases own : turn.token with
        | none =>
            rw [own] at last
            cases last
        | some tok =>
            have longer := Lexes.step (lexStep_final first own left stops) (.refl turn.cur _)
            rw [left, own, List.append_nil] at longer
            exact longer
      · have tail : ∃ tok, toks.getLast? = some tok ∧ tok.start + tok.len = cur'.pos := by
          rw [List.getLast?_append] at last
          cases final : toks.getLast? with
          | some tok' =>
              rw [final] at last
              cases last
              exact ⟨_, rfl, stop⟩
          | none =>
              -- a text that is left over moves the end away from the token
              rw [final] at last
              obtain ⟨more, split, further⟩ := later.text
              obtain ⟨d, ds, same⟩ := List.exists_cons_of_ne_nil left
              have positive := d.utf8Size_pos
              rw [whole, List.append_nil] at split
              rw [← split, same, byteLen_cons] at further
              have own : turn.token = some tok := by
                cases token : turn.token with
                | none =>
                    rw [token] at last
                    cases last
                | some t =>
                    rw [token] at last
                    exact last
              obtain ⟨start, length, _⟩ := token tok own
              omega
        have longer := Lexes.step (lexStep_append first left more) (ih whole (fun _ => tail)
          fun d head => (taken ▸ stops d head : Stops (text ++ turn.rest) d).suffix)
        exact longer

/-- The text is tokens of the given kinds, from its first character to its last. -/
def Spans (text : List Char) (kinds : List TokenKind) : Prop :=
  ∃ toks cur, Lexes .start text toks cur [] ∧ toks.map Token.kind = kinds ∧ Covers toks 0 cur.pos

omit [RustStd] in
theorem Covers.moved {lo lo' hi hi' : Nat} {toks toks' : List Token} (h : Covers toks lo hi)
    (moved : List.Forall₂ (Token.Moved lo lo') toks toks') (same : hi' + lo = hi + lo') :
    Covers toks' lo' hi' := by
  have front : ∀ {toks toks' : List Token} {tok : Token},
      List.Forall₂ (Token.Moved lo lo') toks toks' → toks.head? = some tok →
      ∃ tok', toks'.head? = some tok' ∧ tok.Moved lo lo' tok' := by
    intro toks toks' tok moved head
    cases moved with
    | nil => cases head
    | cons first _ =>
        cases head
        exact ⟨_, rfl, first⟩
  obtain ⟨⟨first, head, start⟩, ⟨final, tail, stop⟩⟩ := h
  obtain ⟨first', head', own⟩ := front moved head
  obtain ⟨final', tail', own'⟩ := front (List.rel_reverse moved) (by rwa [List.head?_reverse])
  rw [List.head?_reverse] at tail'
  have place := own.start
  have place' := own'.start
  have length := own'.len
  exact ⟨⟨first', head', by omega⟩, ⟨final', tail', by omega⟩⟩

namespace Spans

variable {text : List Char} {kinds : List TokenKind}

theorem reads (h : Spans text kinds) : Reads text kinds := by
  obtain ⟨toks, cur', lexes, rfl, covers⟩ := h
  intro cur more stops
  obtain ⟨toks', stop, shifted, place, moved⟩ := lexes.shift cur
  have covers' := covers.moved moved place
  exact ⟨toks', stop, shifted.before rfl (fun _ => covers'.last) stops, moved_kinds moved, covers'⟩

theorem kindsOf (h : Spans text kinds) : kindsOf text = some kinds := by
  obtain ⟨toks, cur, lexes, rfl, _⟩ := h
  rw [Ddl.kindsOf, lexes.tokenize, tokenizeChars]
  show some ((toks ++ [cur.eof]).dropLast.map Token.kind) = _
  rw [List.dropLast_concat]

end Spans

theorem unreadable {text more : List Char} (tame : Tame text) (h : kindsOf text = none)
    (cur : Cursor) (stops : ∀ d, more.head? = some d → Stops text d) :
    ∃ e, tokenizeChars cur (text ++ more) = .error e := by
  unfold kindsOf at h
  split at h
  · cases h
  · next e alone =>
      cases read : tokenizeChars cur text with
      | ok toks =>
          obtain ⟨toks', again, _⟩ := tokenizeChars_shift read .start
          rw [alone] at again
          cases again
      | error e' => exact ⟨e', tame.fails read stops⟩

/-! ## Guards that look like clauses -/

/-- A name, or the word that follows the name of a signal in a clause. -/
def TokenKind.isHead : TokenKind → Bool
  | identifier _ | enters => true
  | _ => false

omit [RustStd] in
theorem word_of_isHead {run : List Char} (head : (wordKind run).isHead = true) :
    ∃ name, Guard.word run = .identifier name := by
  unfold Guard.word
  split
  case h_6 => exact ⟨_, rfl⟩
  all_goals
    next same =>
      rw [wordKind, same] at head
      cases head

omit [RustStd] in
theorem isHead_number {run : List Char} {kind : TokenKind} (read : numberKind run = .ok kind) :
    kind.isHead = false := by
  unfold numberKind at read
  split at read
  · cases read
  · split at read
    · cases read
      rfl
    · split at read
      · cases read
        rfl
      · cases read

omit [RustStd] in
theorem isHead_symbol {c : Char} {cs : List Char} {lexeme : Lexeme}
    (read : symbol c cs = .ok lexeme) : lexeme.kind.isHead = false := by
  unfold symbol at read
  split at read
  · next pair =>
      cases read
      cases cs with
      | nil => cases pair
      | cons d ds =>
          simp only [List.head?_cons, Option.bind_some] at pair
          unfold pairKind at pair
          split at pair <;> cases pair <;> rfl
  · split at read
    · next single =>
        cases read
        unfold singleKind at single
        split at single <;> cases single <;> rfl
    · cases read

theorem isHead_word {c : Char} {cs : List Char} {lexeme : Lexeme}
    (read : nextLexeme c cs = .ok lexeme) (head : lexeme.kind.isHead = true) :
    ∃ name, Guard.nextToken c cs = .ok (.identifier name, lexeme.rest) := by
  obtain ⟨_, _, _, _, kind⟩ | ⟨_, _, _, _, number⟩ | ⟨quote, digit, alphabetic, text, rest, kind⟩ |
    ⟨_, _, _, found⟩ := nextLexeme_cases read
  · rw [kind] at head
    cases head
  · rw [isHead_number number] at head
    cases head
  · rw [kind, text] at head
    obtain ⟨name, word⟩ := word_of_isHead head
    refine ⟨name, ?_⟩
    have dot : c ≠ '.' := by
      rintro rfl
      rw [RustStd.isAlphabetic_ascii '.' (by decide)] at alphabetic
      exact absurd alphabetic (by decide)
    have single : c ≠ '\'' := fun same => quote (by simp [same])
    rw [Guard.nextToken, if_neg single, if_neg (by simp [digit, dot]),
      if_pos alphabetic, word, rest]
  · rw [isHead_symbol found] at head
    cases head

/-- A name that the DDL lexer reads is a name to the guard lexer. -/
theorem isHead_first {cur : Cursor} {cs : List Char} {toks : List Token} {tokens : List Guard.Token}
    {kind : TokenKind} {kinds : List TokenKind} (tame : Tame cs)
    (h : tokenizeChars cur cs = .ok toks) (same : toks.map Token.kind = kind :: kinds)
    (head : kind.isHead = true) (lexed : Guard.tokenizeChars cs = .ok tokens) :
    ∃ name more cur' toks' tokens', tokens = .identifier name :: tokens' ∧ Tame more ∧
      tokenizeChars cur' more = .ok toks' ∧ toks'.map Token.kind = kinds ∧
      Guard.tokenizeChars more = .ok tokens' := by
  fun_induction tokenizeChars cur cs generalizing toks with
  | case1 cur =>
      cases h
      cases same
      cases head
  | case2 => cases h
  | case3 cur c cs turn read later rest ih =>
      cases h
      have tail := tame.step read
      rw [lexStep, if_neg tame.slash] at read
      split at read
      · next blank =>
          cases read
          have space : isWhitespace c = true := by
            simp only [isBlank, Bool.or_eq_true, decide_eq_true_eq] at blank
            rcases blank with (rfl | rfl) | rfl <;> decide
          rw [Guard.tokenizeChars, if_pos space] at lexed
          exact ih tail rest same lexed
      · split at read
        · next line =>
            cases read
            subst line
            rw [Guard.tokenizeChars, if_pos (by decide)] at lexed
            exact ih tail rest same lexed
        · split at read
          · cases read
          · next lexeme found =>
              cases read
              cases same
              obtain ⟨name, token⟩ := isHead_word found head
              rw [Guard.tokenizeChars, if_neg (by simp [nextLexeme_first found])] at lexed
              split at lexed
              · cases lexed
              · next again =>
                  rw [token] at again
                  cases again
                  split at lexed
                  · next tokens' more =>
                      cases lexed
                      exact ⟨name, _, _, _, _, rfl, tail, rest, rfl, more⟩
                  · cases lexed
  | case4 => cases h

theorem tame_of_accepts {text : List Char} (accepted : Guard.Accepts (String.ofList text)) :
    Tame text := by
  obtain ⟨tokens, expr, lexed, parsed⟩ := accepted
  rw [Guard.tokenize, String.toList_ofList] at lexed
  exact tame_of_chain lexed (Guard.accepted_chain lexed parsed).1

/-- No accepted guard starts like a clause. -/
theorem not_head_of_accepts {text : List Char} {name : String} {kinds : List TokenKind}
    (accepted : Guard.Accepts (String.ofList text)) :
    kindsOf text ≠ some (.identifier name :: .enters :: kinds) := by
  intro same
  have tame := tame_of_accepts accepted
  obtain ⟨tokens, expr, lexed, parsed⟩ := accepted
  rw [Guard.tokenize, String.toList_ofList] at lexed
  unfold kindsOf at same
  split at same
  · next toks read =>
      obtain ⟨body, cur', _, rfl⟩ := lexes_of_tokenize read
      rw [List.dropLast_concat, Option.some.injEq] at same
      have whole : (body ++ [cur'.eof]).map Token.kind =
          .identifier name :: .enters :: (kinds ++ [.eof]) := by
        rw [List.map_append, same]
        rfl
      obtain ⟨first, more, _, _, tokens', rfl, tame', read', same', lexed'⟩ :=
        isHead_first tame read whole rfl lexed
      obtain ⟨second, _, _, _, tokens'', rfl, _⟩ := isHead_first tame' read' same' rfl lexed'
      -- two names cannot stand next to each other
      have joins := (List.isChain_cons.mp (Guard.accepted_chain lexed parsed).1).1 _ rfl
      have ends : (Guard.Token.identifier first).ends = true := rfl
      rw [Guard.Token.Precedes, if_pos ends] at joins
      rcases joins with operator | other | other | other
      · cases operator
      all_goals cases other
  · cases same

end SignalTopology.Ddl
