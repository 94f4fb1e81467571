import Mathlib.Data.List.TakeWhile
import SignalTopology.Ddl.Parser

/-!
# What the lexer reads

`Lexes` is a stretch of the lexer's run: from one place in a text to another. A
text that is read as a whole is read the same way in front of any other text
that does not continue its last lexeme. The tokens of a source lie one after the
other in it, each on the characters it was read from.
-/

namespace SignalTopology.Ddl

variable [RustStd]

/-- The lexer reads `toks` on its way from `cs` to `rest`. -/
inductive Lexes : Cursor → List Char → List Token → Cursor → List Char → Prop where
  | refl (cur : Cursor) (cs : List Char) : Lexes cur cs [] cur cs
  | step {cur cur' : Cursor} {c : Char} {cs rest : List Char} {turn : Step} {toks : List Token}
      (first : lexStep cur c cs = .ok turn) (later : Lexes turn.cur turn.rest toks cur' rest) :
      Lexes cur (c :: cs) (turn.token.toList ++ toks) cur' rest

namespace Lexes

variable {cur cur' cur'' : Cursor} {cs rest rest' : List Char} {toks toks' : List Token}

theorem trans (first : Lexes cur cs toks cur' rest) (second : Lexes cur' rest toks' cur'' rest') :
    Lexes cur cs (toks ++ toks') cur'' rest' := by
  induction first with
  | refl => exact second
  | step first _ ih =>
      rw [List.append_assoc]
      exact .step first (ih second)

/-- The rest of the run goes on from where a stretch ends. -/
theorem tokenize (lexes : Lexes cur cs toks cur' rest) :
    tokenizeChars cur cs = (tokenizeChars cur' rest).map (toks ++ ·) := by
  induction lexes with
  | refl =>
      cases tokenizeChars _ _ <;> rfl
  | @step cur cur' c cs rest turn toks first later ih =>
      rw [tokenizeChars]
      split
      · next e failed =>
          rw [failed] at first
          cases first
      · next turn' same =>
          rw [same] at first
          cases first
          rw [ih]
          cases tokenizeChars cur' rest with
          | ok tokens => simp [Except.map]
          | error e => rfl

end Lexes

/-! ## Maximal lexemes -/

omit [RustStd] in
/-- A run that stops within `cs`, or before what follows `cs`, stays the same. -/
theorem span_append (p : Char → Bool) (cs rest : List Char)
    (stop : cs.dropWhile p = [] → ∀ d, rest.head? = some d → p d = false) :
    (cs ++ rest).takeWhile p = cs.takeWhile p ∧
      (cs ++ rest).dropWhile p = cs.dropWhile p ++ rest := by
  induction cs with
  | nil =>
      cases rest with
      | nil => exact ⟨rfl, rfl⟩
      | cons d ds =>
          have stopped := stop rfl d rfl
          simp [stopped]
  | cons c cs ih =>
      cases holds : p c with
      | false => simp [holds]
      | true =>
          rw [List.dropWhile_cons_of_pos holds] at stop
          obtain ⟨taken, dropped⟩ := ih stop
          simp [holds, taken, dropped]

/-- A lexeme `text` would go on with the character `d`. Two slashes start a
comment. -/
def continues (text : List Char) (d : Char) : Bool :=
  match text with
  | [] => false
  | c :: more =>
      if c = '\'' || c = '"' then false
      else if c.isDigit then Guard.isNumberChar d
      else if RustStd.isAlphabetic c || c = '_' then Guard.isWordChar d
      else more.isEmpty && ((pairKind c d).isSome || (c = '/' && d = '/'))

omit [RustStd] in
theorem symbol_append {c : Char} {cs rest : List Char} {lexeme : Lexeme}
    (h : symbol c cs = .ok lexeme)
    (apart : lexeme.rest = [] → lexeme.text = [c] →
      ∀ d, rest.head? = some d → pairKind c d = none) :
    symbol c (cs ++ rest) = .ok { lexeme with rest := lexeme.rest ++ rest } := by
  unfold symbol at h ⊢
  cases cs with
  | nil =>
      simp only [List.head?_nil, Option.bind_none] at h
      split at h
      · next kind single =>
          cases h
          have alone : rest.head?.bind (pairKind c) = none :=
            Option.bind_eq_none_iff.mpr (apart rfl rfl)
          simp [alone]
      · cases h
  | cons d ds =>
      simp only [List.cons_append, List.head?_cons, Option.bind_some] at h ⊢
      split at h
      · cases h
        simp
      · split at h
        · cases h
          simp
        · cases h

/-- A lexeme is read the same way in front of a text that does not continue it. -/
theorem nextLexeme_append {c : Char} {cs rest : List Char} {lexeme : Lexeme}
    (h : nextLexeme c cs = .ok lexeme)
    (apart : lexeme.rest = [] → ∀ d, rest.head? = some d → continues lexeme.text d = false) :
    nextLexeme c (cs ++ rest) = .ok { lexeme with rest := lexeme.rest ++ rest } := by
  obtain ⟨kind, text, left⟩ := lexeme
  obtain ⟨quote, inside, dropped, rfl, rfl⟩ | ⟨quote, digit, rfl, rfl, read⟩ |
    ⟨quote, digit, alphabetic, rfl, rfl, same⟩ | ⟨quote, digit, alphabetic, read⟩ :=
    nextLexeme_cases h
  · obtain ⟨taken, dropped'⟩ := span_append (fun d => decide (d ≠ c)) cs rest
      fun none_left => by
        rw [dropped] at none_left
        cases none_left
    rw [nextLexeme, if_pos quote]
    simp only [taken, if_neg inside, dropped', dropped, List.cons_append]
  · obtain ⟨taken, dropped⟩ := span_append Guard.isNumberChar (c :: cs) rest
      fun none_left d first => by
        have stopped := apart none_left d first
        rw [List.takeWhile_cons_of_pos (isNumberChar_of_digit digit)] at stopped
        simpa only [continues, if_neg quote, if_pos digit] using stopped
    rw [nextLexeme, if_neg quote, if_pos digit, ← List.cons_append, taken, dropped]
    dsimp only at read ⊢
    rw [read]
  · obtain ⟨taken, dropped⟩ := span_append Guard.isWordChar (c :: cs) rest
      fun none_left d first => by
        have stopped := apart none_left d first
        rw [List.takeWhile_cons_of_pos (isWordChar_of_alphabetic alphabetic)] at stopped
        simpa only [continues, if_neg quote, if_neg digit, if_pos alphabetic] using stopped
    dsimp only at same
    rw [nextLexeme, if_neg quote, if_neg digit, if_pos alphabetic, ← List.cons_append, taken,
      dropped, same]
  · rw [nextLexeme, if_neg quote, if_neg digit, if_neg alphabetic]
    refine symbol_append read fun none_left single d first => ?_
    have stopped := apart none_left d first
    rw [show text = [c] from single] at stopped
    simp only [continues, if_neg quote, if_neg digit, if_neg alphabetic, List.isEmpty_nil,
      Bool.true_and, Bool.or_eq_false_iff] at stopped
    simpa using stopped.1

/-- One turn of the loop is the same in front of more text, unless it came to the
end. -/
theorem lexStep_append {cur : Cursor} {c : Char} {cs : List Char} {turn : Step}
    (h : lexStep cur c cs = .ok turn) (inside : turn.rest ≠ []) (more : List Char) :
    lexStep cur c (cs ++ more) = .ok { turn with rest := turn.rest ++ more } := by
  have shorter := lexStep_length h
  unfold lexStep at h ⊢
  split at h
  · next comment =>
      cases h
      obtain ⟨taken, dropped⟩ := span_append (fun d => decide (d ≠ '\n')) (c :: cs) more
        fun none_left => absurd none_left inside
      have head : (cs ++ more).head? = some '/' := by
        rw [List.head?_append, comment.2]
        rfl
      rw [if_pos ⟨comment.1, head⟩, ← List.cons_append, taken, dropped]
  · next comment =>
      have other : ¬ (c = '/' ∧ (cs ++ more).head? = some '/') := by
        rintro ⟨slash, head⟩
        cases cs with
        | nil =>
            -- the last character of the text leaves nothing behind it
            exact inside (List.length_eq_zero_iff.mp (Nat.le_zero.mp shorter))
        | cons d ds => exact comment ⟨slash, head⟩
      rw [if_neg other]
      split at h
      · next blank =>
          cases h
          rw [if_pos blank]
      · next blank =>
          rw [if_neg blank]
          split at h
          · next newline =>
              cases h
              rw [if_pos newline]
          · next newline =>
              rw [if_neg newline]
              split at h
              · cases h
              · next lexeme read =>
                  cases h
                  rw [nextLexeme_append read fun none_left => absurd none_left inside]

/-! ## Places -/

omit [RustStd] in
theorem digit_not_whitespace {c : Char} (digit : c.isDigit = true) : isWhitespace c = false := by
  cases blank : isWhitespace c with
  | false => rfl
  | true =>
      have numeric : c.isDigit = false := RustStd.ascii.isNumeric_whitespace c blank
      rw [digit] at numeric
      cases numeric

theorem wordChar_not_whitespace {c : Char} (word : Guard.isWordChar c = true) :
    isWhitespace c = false := by
  cases blank : isWhitespace c with
  | false => rfl
  | true =>
      have letter := RustStd.isAlphabetic_whitespace c blank
      have numeral := RustStd.isNumeric_whitespace c blank
      simp only [Guard.isWordChar, isAlphanumeric, letter, numeral, Bool.or_self, Bool.false_or,
        decide_eq_true_eq] at word
      subst word
      revert blank
      decide

omit [RustStd] in
theorem numberChar_not_whitespace {c : Char} (number : Guard.isNumberChar c = true) :
    isWhitespace c = false := by
  simp only [Guard.isNumberChar, Bool.or_eq_true, decide_eq_true_eq] at number
  rcases number with digit | rfl
  · exact digit_not_whitespace digit
  · decide

omit [RustStd] in
theorem singleKind_ok {c : Char} {kind : TokenKind} (h : singleKind c = .ok kind) :
    isWhitespace c = false ∧ kind ≠ .eof := by
  unfold singleKind at h
  split at h <;> cases h <;> decide

omit [RustStd] in
theorem pairKind_some {c d : Char} {kind : TokenKind} (h : pairKind c d = some kind) :
    isWhitespace c = false ∧ isWhitespace d = false ∧ kind ≠ .eof := by
  unfold pairKind at h
  split at h <;> cases h <;> decide

omit [RustStd] in
theorem wordKind_ne_eof (run : List Char) : wordKind run ≠ .eof := by
  unfold wordKind
  split <;> simp

omit [RustStd] in
theorem numberKind_ne_eof {run : List Char} {kind : TokenKind} (h : numberKind run = .ok kind) :
    kind ≠ .eof := by
  unfold numberKind at h
  split at h
  · cases h
  · split at h
    · cases h
      simp
    · split at h
      · cases h
        simp
      · cases h

/-- A text that neither starts nor ends with whitespace. -/
structure Solid (text : List Char) : Prop where
  nonempty : text ≠ []
  first : ∀ c, text.head? = some c → isWhitespace c = false
  last : ∀ c, text.getLast? = some c → isWhitespace c = false

omit [RustStd] in
theorem Solid.of_all {text : List Char} (nonempty : text ≠ [])
    (all : ∀ c ∈ text, isWhitespace c = false) : Solid text :=
  ⟨nonempty, fun c h => all c (List.mem_of_head? h), fun c h => all c (List.mem_of_getLast? h)⟩

omit [RustStd] in
theorem symbol_visible {c : Char} {cs : List Char} {lexeme : Lexeme}
    (h : symbol c cs = .ok lexeme) :
    (∀ d ∈ lexeme.text, isWhitespace d = false) ∧ lexeme.kind ≠ .eof := by
  unfold symbol at h
  split at h
  · next kind pair =>
      cases h
      cases cs with
      | nil => cases pair
      | cons d ds =>
          obtain ⟨first, second, other⟩ := pairKind_some pair
          refine ⟨fun e member => ?_, other⟩
          have two : e = c ∨ e = d := by simpa using member
          rcases two with rfl | rfl
          · exact first
          · exact second
  · split at h
    · next kind single =>
        cases h
        obtain ⟨first, other⟩ := singleKind_ok single
        refine ⟨fun e member => ?_, other⟩
        rw [List.mem_singleton.mp member]
        exact first
    · cases h

theorem nextLexeme_solid {c : Char} {cs : List Char} {lexeme : Lexeme}
    (h : nextLexeme c cs = .ok lexeme) : Solid lexeme.text ∧ lexeme.kind ≠ .eof := by
  have nonempty := (nextLexeme_text h).2
  obtain ⟨quote, _, _, text, kind⟩ | ⟨_, _, text, _, read⟩ | ⟨_, _, _, text, _, kind⟩ |
    ⟨_, _, _, read⟩ := nextLexeme_cases h
  · have solid : isWhitespace c = false := by
      simp only [Bool.or_eq_true, decide_eq_true_eq] at quote
      rcases quote with rfl | rfl <;> decide
    refine ⟨⟨nonempty, ?_, ?_⟩, by rw [kind]; simp⟩
    · intro d first
      rw [text] at first
      cases first
      exact solid
    · intro d last
      rw [text, List.getLast?_cons, List.getLast?_append] at last
      cases last
      exact solid
  · refine ⟨.of_all nonempty fun d member => ?_, numberKind_ne_eof read⟩
    rw [text] at member
    exact numberChar_not_whitespace (List.mem_takeWhile_imp member)
  · refine ⟨.of_all nonempty fun d member => ?_, by rw [kind]; exact wordKind_ne_eof _⟩
    rw [text] at member
    exact wordChar_not_whitespace (List.mem_takeWhile_imp member)
  · obtain ⟨all, kind⟩ := symbol_visible read
    exact ⟨.of_all nonempty all, kind⟩

/-- A lexeme starts with a visible character. -/
theorem nextLexeme_first {c : Char} {cs : List Char} {lexeme : Lexeme}
    (h : nextLexeme c cs = .ok lexeme) : isWhitespace c = false := by
  obtain ⟨whole, nonempty⟩ := nextLexeme_text h
  refine (nextLexeme_solid h).1.first c ?_
  have first := congrArg List.head? whole
  rw [List.head?_append_of_ne_nil _ nonempty] at first
  exact first.symm

theorem nextLexeme_visible {c : Char} {cs : List Char} {lexeme : Lexeme}
    (h : nextLexeme c cs = .ok lexeme) : isBlank c = false ∧ c ≠ '\n' := by
  have visible := nextLexeme_first h
  constructor
  · cases blank : isBlank c with
    | false => rfl
    | true =>
        simp only [isBlank, Bool.or_eq_true, decide_eq_true_eq] at blank
        rcases blank with (rfl | rfl) | rfl <;> exact absurd visible (by decide)
  · rintro rfl
    exact absurd visible (by decide)

/-- A text that is one lexeme is read in front of any text that does not continue
it. -/
theorem lexStep_lexeme (cur : Cursor) {c : Char} {cs more : List Char} {kind : TokenKind}
    (h : nextLexeme c cs = .ok ⟨kind, c :: cs, []⟩)
    (apart : ∀ d, more.head? = some d → continues (c :: cs) d = false) :
    lexStep cur c (cs ++ more) =
      .ok ⟨some (cur.token kind (c :: cs)), cur.past (c :: cs), more⟩ := by
  obtain ⟨visible, line⟩ := nextLexeme_visible h
  have other : ¬ (c = '/' ∧ (cs ++ more).head? = some '/') := by
    rintro ⟨rfl, head⟩
    have letter : RustStd.isAlphabetic '/' = false :=
      (RustStd.isAlphabetic_ascii '/' (by decide)).trans (by decide)
    cases cs with
    | nil =>
        have stopped := apart '/' head
        simp [continues, letter] at stopped
    | cons d ds =>
        -- a slash is a lexeme of its own
        cases head
        rw [nextLexeme, if_neg (by decide), if_neg (by decide), if_neg (by simp [letter])] at h
        cases h
  have read := nextLexeme_append h fun _ => apart
  rw [lexStep, if_neg other, if_neg (by simp [visible]), if_neg line, read]
  rfl

/-- What one turn of the loop takes from the text. -/
theorem lexStep_text {cur : Cursor} {c : Char} {cs : List Char} {turn : Step}
    (h : lexStep cur c cs = .ok turn) :
    ∃ text, c :: cs = text ++ turn.rest ∧ turn.cur.pos = cur.pos + byteLen text ∧
      ∀ tok, turn.token = some tok → tok.start = cur.pos ∧ tok.len = byteLen text ∧
        Solid text ∧ tok.kind ≠ .eof := by
  unfold lexStep at h
  split at h
  · cases h
    exact ⟨_, List.takeWhile_append_dropWhile.symm, rfl, by simp⟩
  · split at h
    · cases h
      exact ⟨[c], rfl, rfl, by simp⟩
    · split at h
      · next newline =>
          cases h
          subst newline
          exact ⟨['\n'], rfl, rfl, by simp⟩
      · split at h
        · cases h
        · next lexeme read =>
            cases h
            obtain ⟨solid, kind⟩ := nextLexeme_solid read
            refine ⟨lexeme.text, (nextLexeme_text read).1, rfl, fun tok same => ?_⟩
            cases same
            exact ⟨rfl, rfl, solid, kind⟩

/-- A turn that reads a token reads one lexeme. -/
theorem lexStep_token {cur : Cursor} {c : Char} {cs : List Char} {turn : Step} {tok : Token}
    (h : lexStep cur c cs = .ok turn) (token : turn.token = some tok) :
    ∃ lexeme, nextLexeme c cs = .ok lexeme ∧
      turn = ⟨some (cur.token lexeme.kind lexeme.text), cur.past lexeme.text, lexeme.rest⟩ := by
  unfold lexStep at h
  split at h
  · cases h
    cases token
  · split at h
    · cases h
      cases token
    · split at h
      · cases h
        cases token
      · split at h
        · cases h
        · next lexeme read =>
            cases h
            exact ⟨lexeme, read, rfl⟩

theorem Lexes.text {cur cur' : Cursor} {cs rest : List Char} {toks : List Token}
    (lexes : Lexes cur cs toks cur' rest) :
    ∃ text, cs = text ++ rest ∧ cur'.pos = cur.pos + byteLen text := by
  induction lexes with
  | refl cur cs => exact ⟨[], rfl, rfl⟩
  | @step cur cur' c cs rest turn toks first _ ih =>
      obtain ⟨text, taken, moved, _⟩ := lexStep_text first
      obtain ⟨more, split, stop⟩ := ih
      refine ⟨text ++ more, by rw [taken, split, List.append_assoc], ?_⟩
      rw [stop, moved, byteLen_append, Nat.add_assoc]

/-- The same token, read in texts that start at the bytes `lo` and `lo'`. -/
structure Token.Moved (lo lo' : Nat) (tok tok' : Token) : Prop where
  kind : tok'.kind = tok.kind
  len : tok'.len = tok.len
  start : tok'.start + lo = tok.start + lo'

section

omit [RustStd]

variable {lo lo' mid mid' : Nat} {tok tok' : Token} {toks toks' : List Token}

theorem Token.Moved.trans (h : tok.Moved mid mid' tok') (same : mid' + lo = mid + lo') :
    tok.Moved lo lo' tok' := by
  have start := h.start
  exact ⟨h.kind, h.len, by omega⟩

theorem moved_kinds (h : List.Forall₂ (Token.Moved lo lo') toks toks') :
    toks'.map Token.kind = toks.map Token.kind := by
  induction h with
  | nil => rfl
  | cons first _ ih => rw [List.map_cons, List.map_cons, first.kind, ih]

end

/-- Where a token is read depends on the place, what is read does not. -/
theorem lexStep_shift {cur : Cursor} {c : Char} {cs : List Char} {turn : Step}
    (h : lexStep cur c cs = .ok turn) (cur' : Cursor) :
    ∃ turn', lexStep cur' c cs = .ok turn' ∧ turn'.rest = turn.rest ∧
      turn'.cur.pos + cur.pos = turn.cur.pos + cur'.pos ∧
      List.Forall₂ (Token.Moved cur.pos cur'.pos) turn.token.toList turn'.token.toList := by
  unfold lexStep at h ⊢
  split at h
  · next comment =>
      cases h
      refine ⟨_, if_pos comment, rfl, ?_, .nil⟩
      simp only [Cursor.comment]
      omega
  · next comment =>
      rw [if_neg comment]
      split at h
      · next blank =>
          cases h
          refine ⟨_, if_pos blank, rfl, ?_, .nil⟩
          simp only [Cursor.past]
          omega
      · next blank =>
          rw [if_neg blank]
          split at h
          · next newline =>
              cases h
              refine ⟨_, if_pos newline, rfl, ?_, .nil⟩
              simp only [Cursor.newline]
              omega
          · next newline =>
              rw [if_neg newline]
              split at h
              · cases h
              · cases h
                refine ⟨_, rfl, rfl, ?_, .cons ⟨rfl, rfl, Nat.add_comm _ _⟩ .nil⟩
                simp only [Cursor.past]
                omega

theorem Lexes.shift {cur cur' : Cursor} {cs rest : List Char} {toks : List Token}
    (lexes : Lexes cur cs toks cur' rest) (start : Cursor) :
    ∃ toks' stop, Lexes start cs toks' stop rest ∧ stop.pos + cur.pos = cur'.pos + start.pos ∧
      List.Forall₂ (Token.Moved cur.pos start.pos) toks toks' := by
  induction lexes generalizing start with
  | refl cur cs => exact ⟨[], start, .refl start cs, Nat.add_comm _ _, .nil⟩
  | @step cur cur' c cs rest turn toks first _ ih =>
      obtain ⟨turn', first', same, moved, token⟩ := lexStep_shift first start
      obtain ⟨toks', stop, later, place, rest⟩ := ih turn'.cur
      rw [← same] at later
      refine ⟨_, stop, .step first' later, by omega, List.rel_append token ?_⟩
      exact rest.imp fun _ _ h => h.trans moved

/-- The tokens `toks` lie in `src` between the bytes `lo` and `hi`, in order, each
on a text of its own. -/
inductive Spanned (src : List Char) : Nat → List Token → Nat → Prop where
  | nil {lo hi : Nat} (ordered : lo ≤ hi) : Spanned src lo [] hi
  | cons {lo hi : Nat} {tok : Token} {toks : List Token} {before text after : List Char}
      (place : src = before ++ (text ++ after)) (start : tok.start = byteLen before)
      (len : tok.len = byteLen text) (solid : Solid text) (kind : tok.kind ≠ .eof)
      (ordered : lo ≤ tok.start) (later : Spanned src (tok.start + tok.len) toks hi) :
      Spanned src lo (tok :: toks) hi

namespace Spanned

variable {src : List Char} {lo mid hi : Nat} {toks toks' : List Token}

omit [RustStd]

theorem le (h : Spanned src lo toks hi) : lo ≤ hi := by
  induction h with
  | nil ordered => exact ordered
  | cons _ _ _ _ _ ordered _ ih => omega

theorem lower (h : Spanned src mid toks hi) (ordered : lo ≤ mid) : Spanned src lo toks hi := by
  cases h with
  | nil ordered' => exact .nil (ordered.trans ordered')
  | cons place start len solid kind ordered' later =>
      exact .cons place start len solid kind (ordered.trans ordered') later

theorem split (h : Spanned src lo (toks ++ toks') hi) :
    ∃ mid, Spanned src lo toks mid ∧ Spanned src mid toks' hi := by
  induction toks generalizing lo with
  | nil => exact ⟨lo, .nil (Nat.le_refl lo), h⟩
  | cons tok toks ih =>
      cases h with
      | cons place start len solid kind ordered later =>
          obtain ⟨mid, first, second⟩ := ih later
          exact ⟨mid, .cons place start len solid kind ordered first, second⟩

end Spanned

theorem Lexes.spanned {cur cur' : Cursor} {cs rest : List Char} {toks : List Token}
    (lexes : Lexes cur cs toks cur' rest) {src before : List Char} (place : src = before ++ cs)
    (start : cur.pos = byteLen before) :
    Spanned src cur.pos toks cur'.pos ∧
      ∃ text, cs = text ++ rest ∧ cur'.pos = cur.pos + byteLen text := by
  induction lexes generalizing before with
  | refl cur cs => exact ⟨.nil (Nat.le_refl _), [], rfl, rfl⟩
  | @step cur cur' c cs rest turn toks first later ih =>
      obtain ⟨text, taken, moved, token⟩ := lexStep_text first
      have place' : src = (before ++ text) ++ turn.rest := by
        rw [place, taken, List.append_assoc]
      obtain ⟨spanned, more, split, stop⟩ := ih place' (by rw [moved, start, byteLen_append])
      refine ⟨?_, text ++ more, by rw [taken, split, List.append_assoc], ?_⟩
      · cases read : turn.token with
        | none =>
            refine spanned.lower ?_
            omega
        | some tok =>
            obtain ⟨begins, length, solid, kind⟩ := token tok read
            refine .cons (place.trans (congrArg (before ++ ·) taken)) (begins.trans start) length
              solid kind (Nat.le_of_eq begins.symm) ?_
            rw [begins, length, ← moved]
            exact spanned
      · rw [stop, moved, byteLen_append, Nat.add_assoc]

/-- A run that ends well reads the whole text. -/
theorem lexes_of_tokenize {cur : Cursor} {cs : List Char} {toks : List Token}
    (h : tokenizeChars cur cs = .ok toks) :
    ∃ body cur', Lexes cur cs body cur' [] ∧ toks = body ++ [cur'.eof] := by
  fun_induction tokenizeChars cur cs generalizing toks with
  | case1 cur =>
      cases h
      exact ⟨[], cur, .refl cur [], rfl⟩
  | case2 => cases h
  | case3 cur c cs turn read tokens rest ih =>
      cases h
      obtain ⟨body, cur', lexes, rfl⟩ := ih rest
      exact ⟨_, cur', .step read lexes, (List.append_assoc _ _ _).symm⟩
  | case4 => cases h

end SignalTopology.Ddl
