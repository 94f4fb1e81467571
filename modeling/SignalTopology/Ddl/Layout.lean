import SignalTopology.Ddl.GuardText
import SignalTopology.Ddl.Reading

/-!
# Sources as pieces of text

The grammar describes a source as a sequence of pieces: keywords, names, symbols,
and the guards and payloads that are several tokens long. Between pieces stand
blanks, newlines and comments. `At` places the parser in such a source; the rules
below move it on by one piece.
-/

namespace SignalTopology.Ddl

open TokenParser

/-- A stretch of a source that belongs together, with the kinds of its tokens. -/
structure Piece where
  text : List Char
  kinds : List TokenKind

/-- Blanks, newlines and whole comments. -/
inductive Gap : List Char → Prop where
  | nil : Gap []
  | blank {c : Char} {cs : List Char} (blank : isBlank c = true) (later : Gap cs) : Gap (c :: cs)
  | newline {cs : List Char} (later : Gap cs) : Gap ('\n' :: cs)
  | comment {text cs : List Char} (line : '\n' ∉ text) (later : Gap cs) :
      Gap ('/' :: '/' :: (text ++ '\n' :: cs))

variable [RustStd]

/-- The source consists of the pieces, with gaps before, between and after them. A
gap may be empty where the text after it does not go on with the piece. -/
inductive Spelled : List Piece → List Char → Prop where
  | nil {gap : List Char} (skipped : Gap gap) : Spelled [] gap
  /-- The last comment needs no newline. -/
  | comment {gap text : List Char} (skipped : Gap gap) (line : '\n' ∉ text) :
      Spelled [] (gap ++ '/' :: '/' :: text)
  | cons {p : Piece} {ps : List Piece} {gap rest : List Char} (skipped : Gap gap)
      (stops : ∀ d, rest.head? = some d → Stops p.text d) (later : Spelled ps rest) :
      Spelled (p :: ps) (gap ++ (p.text ++ rest))

/-- The pieces with one blank in front of each. -/
def spaced : List Piece → List Char
  | [] => []
  | p :: ps => ' ' :: (p.text ++ spaced ps)

theorem stops_space (text : List Char) : Stops text ' ' := by
  refine ⟨fun _ _ _ => ?_, by decide, by decide, fun _ => by decide⟩
  rw [isWordChar_ascii (by decide)]
  decide

theorem spelled_spaced (ps : List Piece) : Spelled ps (spaced ps) := by
  induction ps with
  | nil => exact .nil .nil
  | cons p ps ih =>
      refine @Spelled.cons _ p ps [' '] _ (.blank rfl .nil) (fun d first => ?_) ih
      cases ps with
      | nil => cases first
      | cons =>
          cases first
          exact stops_space p.text

/-- A gap is skipped. -/
theorem Gap.lexes {gap : List Char} (h : Gap gap) (cur : Cursor) (more : List Char) :
    ∃ cur', Lexes cur (gap ++ more) [] cur' more := by
  induction h generalizing cur with
  | nil => exact ⟨cur, .refl cur more⟩
  | @blank c cs blank later ih =>
      have other : c ≠ '/' := by
        rintro rfl
        cases blank
      have turn : lexStep cur c (cs ++ more) = .ok ⟨none, cur.past [c], cs ++ more⟩ := by
        rw [lexStep, if_neg (fun both => other both.1), if_pos blank]
      obtain ⟨cur', run⟩ := ih (cur.past [c])
      exact ⟨cur', .step turn run⟩
  | @newline cs later ih =>
      have turn : lexStep cur '\n' (cs ++ more) = .ok ⟨none, cur.newline, cs ++ more⟩ := by
        rw [lexStep, if_neg (by simp), if_neg (by decide), if_pos rfl]
      obtain ⟨cur', run⟩ := ih cur.newline
      exact ⟨cur', .step turn run⟩
  | @comment text cs line later ih =>
      have skipped : ('/' :: '/' :: (text ++ '\n' :: (cs ++ more))).takeWhile (· ≠ '\n') =
            '/' :: '/' :: text ∧
          ('/' :: '/' :: (text ++ '\n' :: (cs ++ more))).dropWhile (· ≠ '\n') =
            '\n' :: (cs ++ more) := by
        have inside : ∀ d ∈ '/' :: '/' :: text, decide (d ≠ '\n') = true := by
          intro d member
          rw [decide_eq_true_eq]
          rintro rfl
          simp [line] at member
        have taken := @List.takeWhile_append_of_pos _ _ _ ('\n' :: (cs ++ more)) inside
        have dropped := @List.dropWhile_append_of_pos _ _ _ ('\n' :: (cs ++ more)) inside
        rw [List.takeWhile_cons_of_neg (by simp), List.append_nil] at taken
        rw [List.dropWhile_cons_of_neg (by simp)] at dropped
        exact ⟨taken, dropped⟩
      have turn : lexStep cur '/' ('/' :: (text ++ '\n' :: (cs ++ more))) =
          .ok ⟨none, cur.comment ('/' :: '/' :: text), '\n' :: (cs ++ more)⟩ := by
        rw [lexStep, if_pos ⟨rfl, rfl⟩, skipped.1, skipped.2]
      obtain ⟨cur', run⟩ := ih (cur.comment ('/' :: '/' :: text)).newline
      have line : lexStep (cur.comment ('/' :: '/' :: text)) '\n' (cs ++ more) =
          .ok ⟨none, (cur.comment ('/' :: '/' :: text)).newline, cs ++ more⟩ := by
        rw [lexStep, if_neg (by simp), if_neg (by decide), if_pos rfl]
      refine ⟨cur', ?_⟩
      have whole := Lexes.step turn (.step line run)
      simpa using whole

/-- The end of a source holds no token. -/
theorem Spelled.finish {rest : List Char} (h : Spelled [] rest) (cur : Cursor) :
    ∃ cur' : Cursor, tokenizeChars cur rest = .ok [cur'.eof] := by
  cases h with
  | nil skipped =>
      obtain ⟨cur', run⟩ := skipped.lexes cur []
      rw [List.append_nil] at run
      exact ⟨cur', by rw [run.tokenize, tokenizeChars]; rfl⟩
  | @comment gap text skipped line =>
      obtain ⟨cur', run⟩ := skipped.lexes cur ('/' :: '/' :: text)
      have inside : ∀ d ∈ '/' :: '/' :: text, decide (d ≠ '\n') = true := by
        intro d member
        rw [decide_eq_true_eq]
        rintro rfl
        simp [line] at member
      have turn : lexStep cur' '/' ('/' :: text) =
          .ok ⟨none, cur'.comment ('/' :: '/' :: text), []⟩ := by
        rw [lexStep, if_pos ⟨rfl, rfl⟩, List.takeWhile_eq_self_iff.mpr inside,
          List.dropWhile_eq_nil_iff.mpr inside]
      have last := run.trans (.step turn (.refl (cur'.comment ('/' :: '/' :: text)) []))
      exact ⟨cur'.comment ('/' :: '/' :: text), by rw [last.tokenize, tokenizeChars]; rfl⟩

/-- A source of readable pieces can be read. -/
theorem Spelled.tokenize {ps : List Piece} {rest : List Char} (h : Spelled ps rest)
    (readable : ∀ p ∈ ps, Reads p.text p.kinds) (cur : Cursor) :
    ∃ toks, tokenizeChars cur rest = .ok toks := by
  induction h generalizing cur with
  | nil skipped =>
      obtain ⟨cur', read⟩ := (Spelled.nil skipped).finish cur
      exact ⟨_, read⟩
  | comment skipped line =>
      obtain ⟨cur', read⟩ := (Spelled.comment skipped line).finish cur
      exact ⟨_, read⟩
  | @cons p ps gap rest skipped stops later ih =>
      obtain ⟨cur₁, run⟩ := skipped.lexes cur (p.text ++ rest)
      obtain ⟨toks, cur₂, read, _⟩ := readable p List.mem_cons_self cur₁ rest stops
      obtain ⟨more, tail⟩ := ih (fun q member => readable q (List.mem_cons_of_mem p member)) cur₂
      exact ⟨toks ++ more, by rw [(run.trans read).tokenize, tail]; rfl⟩

/-! ## Words and symbols -/

/-- A text that is one lexeme, and goes on with nothing a gap could be left out
before, is readable. -/
theorem reads_lexeme {c : Char} {cs : List Char} {kind : TokenKind}
    (h : nextLexeme c cs = .ok ⟨kind, c :: cs, []⟩)
    (apart : ∀ d, Stops (c :: cs) d → continues (c :: cs) d = false) : Reads (c :: cs) [kind] := by
  intro cur more stops
  have turn := lexStep_lexeme cur h fun d first => apart d (stops d first)
  refine ⟨[cur.token kind (c :: cs)], cur.past (c :: cs), .step turn (.refl _ more), rfl, ?_, ?_⟩
  · exact ⟨_, rfl, rfl⟩
  · exact ⟨_, rfl, rfl⟩

/-- A letter or `_`, then letters, digits and `_`. -/
structure IsWord (s : String) : Prop where
  first : ∃ c, s.toList.head? = some c ∧ (RustStd.isAlphabetic c || c = '_') = true
  all : ∀ c ∈ s.toList, Guard.isWordChar c = true

/-- A word that is no keyword. -/
structure IsName (s : String) : Prop extends IsWord s where
  kind : wordKind s.toList = .identifier s

/-- A keyword or a name. -/
def Piece.word (s : String) : Piece := ⟨s.toList, [wordKind s.toList]⟩

/-- A word is read up to a character that is none of a word. -/
theorem IsWord.lexes {s : String} (h : IsWord s) (cur : Cursor) {more : List Char}
    (apart : ∀ d, more.head? = some d → Guard.isWordChar d = false) :
    Lexes cur (s.toList ++ more) [cur.token (wordKind s.toList) s.toList]
    (cur.past s.toList) more := by
  obtain ⟨c, first, alphabetic⟩ := h.first
  obtain ⟨cs, same⟩ : ∃ cs, s.toList = c :: cs := by
    cases whole : s.toList with
    | nil =>
        rw [whole] at first
        cases first
    | cons d ds =>
        rw [whole] at first
        cases first
        exact ⟨ds, rfl⟩
  have all := h.all
  rw [same] at all ⊢
  have word := isWordChar_of_alphabetic alphabetic
  have quote : ¬ (c = '\'' || c = '"') = true := by
    rw [show (c = '\'' || c = '"') = isQuote c from rfl, (isQuote_wordChar c word).1]
    simp
  have digit : ¬ c.isDigit = true := by
    intro digit
    rw [isDigit_iff] at digit
    rw [RustStd.isAlphabetic_ascii c (by omega)] at alphabetic
    rcases Bool.or_eq_true_iff.mp alphabetic with letter | underscore
    · rw [isAlpha_iff] at letter
      omega
    · obtain rfl := of_decide_eq_true underscore
      exact absurd digit.2 (by decide)
  have lexeme : nextLexeme c cs = .ok ⟨wordKind (c :: cs), c :: cs, []⟩ := by
    rw [nextLexeme, if_neg quote, if_neg digit, if_pos alphabetic,
      List.takeWhile_eq_self_iff.mpr all, List.dropWhile_eq_nil_iff.mpr all]
  refine Lexes.step (lexStep_lexeme cur lexeme fun d head => ?_) (.refl _ more)
  simp only [continues, if_neg quote, if_neg digit, if_pos alphabetic]
  exact apart d head

theorem IsWord.reads {s : String} (h : IsWord s) : Reads s.toList [wordKind s.toList] := by
  intro cur more stops
  have nonempty : s.toList ≠ [] := by
    rintro empty
    obtain ⟨c, first, _⟩ := h.first
    rw [empty] at first
    cases first
  have run := h.lexes cur fun d first => (stops d first).word _
    (List.getLast?_eq_getLast_of_ne_nil nonempty) (h.all _ (List.getLast_mem nonempty))
  exact ⟨_, _, run, rfl, ⟨_, rfl, rfl⟩, ⟨_, rfl, rfl⟩⟩

/-- A word of ASCII letters and `_`. -/
def isAsciiWord (s : String) : Bool :=
  !s.toList.isEmpty && s.toList.all fun c => (c.isAlpha || c = '_') && decide (c.toNat < 128)

theorem isWord_ascii {s : String} (h : isAsciiWord s = true) : IsWord s := by
  simp only [isAsciiWord, Bool.and_eq_true, Bool.not_eq_true', List.isEmpty_eq_false_iff,
    List.all_eq_true, decide_eq_true_eq] at h
  obtain ⟨nonempty, all⟩ := h
  obtain ⟨c, cs, same⟩ := List.exists_cons_of_ne_nil nonempty
  refine ⟨⟨c, by rw [same]; rfl, ?_⟩, fun d member => ?_⟩
  · obtain ⟨letter, ascii⟩ := all c (by rw [same]; exact List.mem_cons_self)
    rw [RustStd.isAlphabetic_ascii c ascii]
    exact letter
  · obtain ⟨letter, ascii⟩ := all d member
    rw [isWordChar_ascii ascii]
    simp only [Bool.or_eq_true] at letter ⊢
    exact letter.imp_left Or.inl

theorem isName_ascii {s : String} (h : isAsciiWord s = true)
    (kind : wordKind s.toList = .identifier s) : IsName s :=
  { isWord_ascii h with kind }

/-- A symbol of one character. -/
def Piece.symbol (c : Char) (kind : TokenKind) : Piece := ⟨[c], [kind]⟩

theorem lexes_symbol {c : Char} {kind : TokenKind} (cur : Cursor) {more : List Char}
    (ascii : c.toNat < 128) (single : singleKind c = .ok kind) (other : c ≠ '/')
    (apart : ∀ d, more.head? = some d → pairKind c d = none) :
    Lexes cur (c :: more) [cur.token kind [c]] (cur.past [c]) more := by
  have quote : ¬ (c = '\'' || c = '"') = true := by
    intro quote
    simp only [Bool.or_eq_true, decide_eq_true_eq] at quote
    rcases quote with rfl | rfl <;> cases single
  have digit : ¬ c.isDigit = true := by
    unfold singleKind at single
    split at single <;> cases single <;> decide
  have letter : ¬ (RustStd.isAlphabetic c || c = '_') = true := by
    rw [RustStd.isAlphabetic_ascii c ascii]
    unfold singleKind at single
    split at single <;> cases single <;> decide
  have lexeme : nextLexeme c [] = .ok ⟨kind, [c], []⟩ := by
    rw [nextLexeme, if_neg quote, if_neg digit, if_neg letter, symbol, single]
    rfl
  refine Lexes.step (@lexStep_lexeme _ cur c [] more kind lexeme fun d first => ?_) (.refl _ more)
  simp only [continues, if_neg quote, if_neg digit, if_neg letter, apart d first,
    Option.isSome_none, Bool.false_or, List.isEmpty_nil, Bool.true_and]
  simp [other]

theorem reads_symbol {c : Char} {kind : TokenKind} (ascii : c.toNat < 128)
    (single : singleKind c = .ok kind) (other : c ≠ '/') : Reads [c] [kind] := by
  intro cur more stops
  have run := lexes_symbol cur ascii single other fun d first =>
    pairKind_second (stops d first).symbol.2
  exact ⟨_, _, run, rfl, ⟨_, rfl, rfl⟩, ⟨_, rfl, rfl⟩⟩

def Piece.arrow : Piece := ⟨['-', '>'], [.arrow]⟩

theorem reads_arrow : Reads ['-', '>'] [.arrow] := by
  have letter : ¬ (RustStd.isAlphabetic '-' || decide ('-' = '_')) = true := by
    rw [RustStd.isAlphabetic_ascii '-' (by decide)]
    decide
  refine reads_lexeme ?_ fun d stops => ?_
  · rw [nextLexeme, if_neg (by decide), if_neg (by decide), if_neg letter]
    rfl
  · simp only [continues, if_neg letter, List.isEmpty_cons, Bool.false_and]
    simp

/-! ## The parser in a source -/

/-- The parser stands in front of the pieces `ps` of `src`. -/
def At (src : List Char) (ps : List Piece) (ts : Tokens Token) : Prop :=
  ∃ before rest cur, src = before ++ rest ∧ cur.pos = byteLen before ∧ Spelled ps rest ∧
    tokenizeChars cur rest = .ok ts.toList

/-- The parser stands in front of a source that was read. -/
theorem at_start {ps : List Piece} {src : String} {t : Token} {ts : List Token}
    (spelled : Spelled ps src.toList) (lexed : tokenize src = .ok (t :: ts)) :
    At src.toList ps ⟨t, ts⟩ :=
  ⟨[], src.toList, .start, rfl, rfl, spelled, lexed⟩

/-- The tokens lie on the text. -/
def On (src : List Char) (toks : List Token) (text : List Char) : Prop :=
  ∃ lo, Covers toks lo (lo + byteLen text) ∧ slice src lo (lo + byteLen text) = some text

section

variable {src : List Char} {p : Piece} {ps : List Piece} {ts : Tokens Token} {kind : TokenKind}

/-- The tokens of the source from here on, the last one aside. -/
theorem At.spanned (h : At src ps ts) :
    ∃ body last lo hi, ts.toList = body ++ [last] ∧ last.kind = .eof ∧ Spanned src lo body hi := by
  obtain ⟨before, rest, cur, place, start, _, read⟩ := h
  obtain ⟨body, cur', lexes, same⟩ := lexes_of_tokenize read
  exact ⟨body, cur'.eof, cur.pos, cur'.pos, same, rfl, (lexes.spanned place start).1⟩

/-- The tokens of a readable piece come first, on its text. -/
theorem At.piece (h : At src (p :: ps) ts) (readable : Reads p.text p.kinds) :
    ∃ toks us, ts.toList = toks ++ us.toList ∧ toks.map Token.kind = p.kinds ∧ At src ps us ∧
      On src toks p.text := by
  obtain ⟨before, rest, cur, place, start, spelled, read⟩ := h
  cases spelled with
  | @cons _ _ gap more skipped stops later =>
      obtain ⟨cur₁, run⟩ := skipped.lexes cur (p.text ++ more)
      obtain ⟨toks, cur₂, piece, kinds, covers⟩ := readable cur₁ more stops
      rw [(run.trans piece).tokenize] at read
      cases tail : tokenizeChars cur₂ more with
      | error e =>
          rw [tail] at read
          cases read
      | ok us =>
          rw [tail] at read
          replace read : toks ++ us = ts.toList := Except.ok.inj read
          have moved₁ : cur₁.pos = byteLen (before ++ gap) := by
            obtain ⟨_, text, split, moved⟩ := run.spanned place start
            rw [List.append_cancel_right_eq] at split
            rw [moved, start, ← split, byteLen_append]
          have place₁ : src = (before ++ gap) ++ (p.text ++ more) := by
            rw [place, List.append_assoc]
          have moved₂ : cur₂.pos = byteLen (before ++ gap) + byteLen p.text := by
            obtain ⟨_, text, split, moved⟩ := piece.spanned place₁ moved₁
            rw [List.append_cancel_right_eq] at split
            rw [moved, moved₁, ← split]
          obtain ⟨body, last, lexes, rfl⟩ := lexes_of_tokenize tail
          obtain ⟨t, us, same⟩ : ∃ t us, body ++ [last.eof] = t :: us :=
            List.exists_cons_of_ne_nil (by simp)
          refine ⟨toks, ⟨t, us⟩, ?_, kinds, ?_, byteLen (before ++ gap), ?_, ?_⟩
          · rw [← read, same]
            rfl
          · refine ⟨before ++ gap ++ p.text, more, cur₂, ?_, ?_, later, ?_⟩
            · rw [place₁, List.append_assoc (before ++ gap)]
            · rw [moved₂, byteLen_append (before ++ gap)]
            · rw [tail, same]
              rfl
          · rw [moved₂, moved₁] at covers
            exact covers
          · rw [place₁]
            exact slice_append _ _ _

/-- A piece of one token. -/
theorem At.token (h : At src (p :: ps) ts) (readable : Reads p.text [kind])
    (single : p.kinds = [kind]) : ts.current.kind = kind ∧ At src ps ts.advance ∧
      ts.rest.length = ts.advance.rest.length + 1 := by
  obtain ⟨toks, us, split, kinds, after, _⟩ := h.piece (single ▸ readable)
  rw [single] at kinds
  obtain ⟨t, rfl, rfl⟩ := List.map_eq_singleton_iff.mp kinds
  obtain ⟨current, rest⟩ := ts
  cases split
  exact ⟨rfl, after, rfl⟩

/-- After the last piece only `eof` is left. -/
theorem At.finish (h : At src [] ts) : ts.current.kind = .eof := by
  obtain ⟨before, rest, cur, _, _, spelled, read⟩ := h
  obtain ⟨cur', last⟩ := spelled.finish cur
  rw [last] at read
  exact congrArg Token.kind (List.cons.inj (Except.ok.inj read)).1.symm

theorem At.word {s : String} (h : At src (.word s :: ps) ts) (word : IsWord s) :
    ts.current.kind = wordKind s.toList ∧ At src ps ts.advance ∧
      ts.rest.length = ts.advance.rest.length + 1 :=
  h.token word.reads rfl

theorem At.name {s : String} (h : At src (.word s :: ps) ts) (name : IsName s) :
    ts.current.kind = .identifier s ∧ At src ps ts.advance ∧
      ts.rest.length = ts.advance.rest.length + 1 := by
  have read := h.word name.toIsWord
  rw [name.kind] at read
  exact read

theorem At.symbol {c : Char} (h : At src (.symbol c kind :: ps) ts) (ascii : c.toNat < 128)
    (single : singleKind c = .ok kind) (other : c ≠ '/') : ts.current.kind = kind ∧
      At src ps ts.advance ∧ ts.rest.length = ts.advance.rest.length + 1 :=
  h.token (reads_symbol ascii single other) rfl

theorem At.arrow (h : At src (.arrow :: ps) ts) : ts.current.kind = .arrow ∧
    At src ps ts.advance ∧ ts.rest.length = ts.advance.rest.length + 1 :=
  h.token reads_arrow rfl

end

end SignalTopology.Ddl
