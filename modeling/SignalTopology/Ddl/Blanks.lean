import SignalTopology.Ddl.Capture

/-!
# Guards with blanks around them

Both lexers pass over the blanks around a guard, the DDL lexer only over its own
kinds of blanks. What is left of an accepted guard without them is accepted too,
with the same meaning, and holds no brace outside of quotes.
-/

namespace SignalTopology.Guard

variable [RustStd]

/-- The guard language reads the text as the expression. -/
def Means (text : String) (expr : Expr) : Prop :=
  ∃ tokens, tokenize text = .ok tokens ∧ parse tokens = .ok expr

theorem Means.accepts {text : String} {expr : Expr} (means : Means text expr) : Accepts text := by
  obtain ⟨tokens, lexed, parsed⟩ := means
  exact ⟨tokens, expr, lexed, parsed⟩

section

variable {front back cs : List Char} {c : Char}

/-- A text of blanks. -/
def AllBlank (text : List Char) : Prop := ∀ c ∈ text, isWhitespace c = true

theorem tokenizeChars_front (blank : AllBlank front) :
    tokenizeChars (front ++ cs) = tokenizeChars cs := by
  induction front with
  | nil => rfl
  | cons c front ih =>
      rw [List.cons_append, tokenizeChars, if_pos (blank c List.mem_cons_self)]
      exact ih fun d member => blank d (List.mem_cons_of_mem c member)

omit [RustStd] in
theorem symbol_append (apart : ∀ d, back.head? = some d → d ≠ '=') :
    symbol c (cs ++ back) = (symbol c cs).map fun read => (read.1, read.2 ++ back) := by
  cases cs with
  | cons d ds =>
      rw [List.cons_append]
      unfold symbol
      split <;> simp_all [Except.map]
  | nil =>
      cases back with
      | nil =>
          rw [List.append_nil]
          cases symbol c [] <;> simp [Except.map]
      | cons d ds =>
          have other := apart d rfl
          unfold symbol
          split <;> simp_all [Except.map]

omit [RustStd] in
/-- The first of the blanks is in no class of visible characters. -/
theorem AllBlank.apart {p : Char → Bool} (blank : AllBlank back)
    (visible : ∀ d, p d = true → isWhitespace d = false) :
    ∀ d, back.head? = some d → p d = false := by
  intro d first
  rw [Bool.eq_false_iff]
  intro holds
  have space := blank d (List.mem_of_head? first)
  rw [visible d holds] at space
  cases space

/-- A token is read the same way in front of blanks. -/
theorem nextToken_back (blank : AllBlank back) :
    nextToken c (cs ++ back) = (nextToken c cs).map fun read => (read.1, read.2 ++ back) := by
  have digit : ((cs ++ back).head?.map Char.isDigit).getD false =
      (cs.head?.map Char.isDigit).getD false := by
    cases cs with
    | cons d ds => rfl
    | nil =>
        cases back with
        | nil => rfl
        | cons d ds => exact blank.apart (fun _ => Ddl.digit_not_whitespace) d rfl
  unfold nextToken
  rw [digit]
  split
  · -- a quote is closed in front of the blanks or not at all
    cases closed : cs.dropWhile (· ≠ '\'') with
    | nil =>
        have none_left : (cs ++ back).dropWhile (· ≠ '\'') = [] := by
          refine List.dropWhile_eq_nil_iff.mpr fun d member => ?_
          rcases List.mem_append.mp member with inside | behind
          · exact List.dropWhile_eq_nil_iff.mp closed d inside
          · rw [decide_eq_true_eq]
            rintro rfl
            exact absurd (blank _ behind) (by decide)
        rw [none_left]
        rfl
    | cons quote rest =>
        obtain ⟨taken, dropped⟩ := Ddl.span_append (fun d => decide (d ≠ '\'')) cs back
          fun none_left => by
            rw [closed] at none_left
            cases none_left
        rw [taken, dropped, closed]
        rfl
  · split
    · obtain ⟨taken, dropped⟩ := Ddl.span_append isNumberChar (c :: cs) back
        fun _ => blank.apart fun _ => Ddl.numberChar_not_whitespace
      rw [← List.cons_append, taken, dropped]
      cases number ((c :: cs).takeWhile isNumberChar) <;> rfl
    · split
      · obtain ⟨taken, dropped⟩ := Ddl.span_append isWordChar (c :: cs) back
          fun _ => blank.apart fun _ => Ddl.wordChar_not_whitespace
        rw [← List.cons_append, taken, dropped]
        rfl
      · refine symbol_append fun d first => ?_
        rintro rfl
        exact absurd (blank _ (List.mem_of_head? first)) (by decide)

theorem tokenizeChars_visible (visible : ¬ isWhitespace c = true) :
    tokenizeChars (c :: cs) =
      (nextToken c cs).bind fun read => (tokenizeChars read.2).map (read.1 :: ·) := by
  rw [tokenizeChars, if_neg visible]
  split
  · next e read =>
      rw [read]
      rfl
  · next token rest read =>
      rw [read]
      show _ = (tokenizeChars rest).map (token :: ·)
      cases tokenizeChars rest <;> rfl

/-- Blanks behind a text are passed over. -/
theorem tokenizeChars_back (blank : AllBlank back) :
    tokenizeChars (cs ++ back) = tokenizeChars cs := by
  fun_induction tokenizeChars cs with
  | case1 =>
      have whole := @tokenizeChars_front _ back [] blank
      rw [List.append_nil] at whole
      rw [List.nil_append, whole, tokenizeChars]
  | case2 c cs space ih =>
      rw [List.cons_append, tokenizeChars, if_pos space]
      exact ih
  | case3 c cs visible e read =>
      rw [List.cons_append, tokenizeChars_visible visible, nextToken_back blank, read]
      rfl
  | case4 c cs visible token rest read tokens later ih =>
      rw [List.cons_append, tokenizeChars_visible visible, nextToken_back blank, read]
      show (tokenizeChars (rest ++ back)).map (token :: ·) = _
      rw [ih, later]
      rfl
  | case5 c cs visible token rest read e later ih =>
      rw [List.cons_append, tokenizeChars_visible visible, nextToken_back blank, read]
      show (tokenizeChars (rest ++ back)).map (token :: ·) = _
      rw [ih, later]
      rfl

/-- The blanks around a guard do not change what it means. -/
theorem Means.inner {text : List Char} {expr : Expr}
    (means : Means (String.ofList (front ++ (text ++ back))) expr) (before : AllBlank front)
    (after : AllBlank back) : Means (String.ofList text) expr := by
  obtain ⟨tokens, lexed, parsed⟩ := means
  rw [tokenize, String.toList_ofList, tokenizeChars_front before, tokenizeChars_back after] at lexed
  exact ⟨tokens, by rw [tokenize, String.toList_ofList, lexed], parsed⟩

end

end SignalTopology.Guard

namespace SignalTopology.Ddl

open Guard (AllBlank)

/-! ## The text without its blanks -/

theorem allBlank_takeWhile (text : List Char) : AllBlank (text.takeWhile isWhitespace) := by
  intro c member
  exact List.mem_takeWhile_imp member

theorem dropWhile_trim (text : List Char) :
    ∃ back, text.dropWhile isWhitespace = trim text ++ back ∧ AllBlank back := by
  refine ⟨((text.dropWhile isWhitespace).reverse.takeWhile isWhitespace).reverse, ?_, ?_⟩
  · rw [trim, ← List.reverse_append, List.takeWhile_append_dropWhile, List.reverse_reverse]
  · intro c member
    exact allBlank_takeWhile _ c (List.mem_reverse.mp member)

/-- A text is what `trim` leaves, between blanks. -/
theorem split_trim (text : List Char) :
    ∃ front back, text = front ++ (trim text ++ back) ∧ AllBlank front ∧ AllBlank back := by
  obtain ⟨back, rest, blank⟩ := dropWhile_trim text
  refine ⟨text.takeWhile isWhitespace, back, ?_, allBlank_takeWhile text, blank⟩
  rw [← rest, List.takeWhile_append_dropWhile]

theorem solid_trim {text : List Char} (nonempty : trim text ≠ []) : Solid (trim text) := by
  have stopped : ∀ {cs : List Char} {c : Char}, (cs.dropWhile isWhitespace).head? = some c →
      isWhitespace c = false := by
    intro cs c head
    have visible := List.head?_dropWhile_not isWhitespace cs
    rw [head] at visible
    simpa using visible
  refine ⟨nonempty, fun c head => ?_, fun c tail => ?_⟩
  · obtain ⟨back, rest, _⟩ := dropWhile_trim text
    apply @stopped text
    rw [rest, List.head?_append_of_ne_nil _ nonempty, head]
  · rw [trim, List.getLast?_reverse] at tail
    exact stopped tail

theorem dropWhile_blanks {blanks text : List Char} (blank : AllBlank blanks)
    (visible : ∀ c, text.head? = some c → isWhitespace c = false) :
    (blanks ++ text).dropWhile isWhitespace = text := by
  rw [List.dropWhile_append_of_pos blank]
  cases text with
  | nil => rfl
  | cons c text => exact List.dropWhile_cons_of_neg (by simp [visible c rfl])

theorem trim_between {front text back : List Char} (before : AllBlank front)
    (after : AllBlank back) (solid : Solid text) : trim (front ++ (text ++ back)) = text := by
  have first : ∀ c, (text ++ back).head? = some c → isWhitespace c = false := by
    intro c head
    rw [List.head?_append_of_ne_nil _ solid.nonempty] at head
    exact solid.first c head
  have last : ∀ c, text.reverse.head? = some c → isWhitespace c = false := by
    intro c head
    rw [List.head?_reverse] at head
    exact solid.last c head
  have behind : AllBlank back.reverse := fun c member => after c (List.mem_reverse.mp member)
  rw [trim, dropWhile_blanks before first, List.reverse_append, dropWhile_blanks behind last,
    List.reverse_reverse]

variable [RustStd]

theorem stops_whitespace {text : List Char} {d : Char} (space : isWhitespace d = true) :
    Stops text d := by
  have apart : ∀ e, isWhitespace e = false → d ≠ e := by
    rintro e visible rfl
    rw [space] at visible
    cases visible
  have blank : AllBlank [d] := List.forall_mem_singleton.mpr space
  refine ⟨fun _ _ _ => ?_, ?_, ⟨apart _ (by decide), apart _ (by decide), apart _ (by decide)⟩,
    fun _ => apart _ (by decide)⟩
  · exact blank.apart (fun _ => wordChar_not_whitespace) d rfl
  · exact blank.apart (fun _ => digit_not_whitespace) d rfl

/-- Blanks do not go on with the text in front of them. -/
theorem stops_blanks {text blanks more : List Char} (blank : AllBlank blanks)
    (next : ∀ d, more.head? = some d → isWhitespace d = true) :
    ∀ d, (blanks ++ more).head? = some d → Stops text d := by
  intro d first
  apply stops_whitespace
  cases blanks with
  | nil => exact next d first
  | cons c blanks =>
      cases first
      exact blank _ List.mem_cons_self

/-- Blanks that the DDL lexer passes over are blanks of its own. -/
theorem gap_of_tokenize {blanks cs : List Char} {cur : Cursor} {toks : List Token}
    (blank : AllBlank blanks) (h : tokenizeChars cur (blanks ++ cs) = .ok toks) : Gap blanks := by
  induction blanks generalizing cur toks with
  | nil => exact .nil
  | cons c blanks ih =>
      have later : AllBlank blanks := fun d member => blank d (List.mem_cons_of_mem c member)
      have space := blank c List.mem_cons_self
      have slash : ¬ (c = '/' ∧ (blanks ++ cs).head? = some '/') := by
        rintro ⟨rfl, _⟩
        cases space
      rw [List.cons_append, tokenizeChars] at h
      split at h
      · cases h
      · next turn read =>
          rw [lexStep, if_neg slash] at read
          by_cases own : isBlank c = true
          · rw [if_pos own] at read
            cases read
            split at h
            · next rest => exact .blank own (ih later rest)
            · cases h
          · rw [if_neg own] at read
            by_cases line : c = '\n'
            · subst line
              rw [if_pos rfl] at read
              cases read
              split at h
              · next rest => exact .newline (ih later rest)
              · cases h
            · rw [if_neg line] at read
              split at read
              · cases read
              · next lexeme found =>
                  have visible := nextLexeme_first found
                  rw [space] at visible
                  cases visible

/-- A tame text between blanks is read if the blanks are skipped and it is read. -/
theorem kindsOf_inner {front text back : List Char} {kinds : List TokenKind} (tame : Tame text)
    (solid : Solid text) (before : AllBlank front) (after : AllBlank back)
    (read : kindsOf (front ++ (text ++ back)) = some kinds) :
    Gap front ∧ Gap back ∧ kindsOf text = some kinds := by
  unfold kindsOf at read
  split at read
  · next toks whole =>
      cases read
      have gap := gap_of_tokenize before whole
      obtain ⟨cur, skipped⟩ := gap.lexes .start (text ++ back)
      have inside := skipped.tokenize
      rw [whole] at inside
      have stops : ∀ d, back.head? = some d → Stops text d := by
        intro d first
        exact stops_whitespace (after d (List.mem_of_head? first))
      cases own : kindsOf text with
      | none =>
          obtain ⟨e, failed⟩ := unreadable tame own cur stops
          rw [failed] at inside
          cases inside
      | some kinds =>
          obtain ⟨body, cur', piece, same, _⟩ := tame.reads solid own cur back stops
          rw [piece.tokenize] at inside
          cases rest : tokenizeChars cur' back with
          | error e =>
              rw [rest] at inside
              cases inside
          | ok more =>
              rw [rest] at inside
              cases inside
              rw [← List.append_nil back] at rest
              have gap' := gap_of_tokenize after rest
              obtain ⟨cur'', behind⟩ := gap'.lexes cur' []
              rw [behind.tokenize, tokenizeChars] at rest
              cases rest
              refine ⟨gap, gap', congrArg some ?_⟩
              show kinds = ([] ++ (body ++ ([] ++ [cur''.eof]))).dropLast.map Token.kind
              rw [List.nil_append, List.nil_append, List.dropLast_concat, same]
  · cases read

/-! ## Braces -/

/-- Outside of quotes stands no brace. -/
inductive Braceless : List Char → Prop where
  | nil : Braceless []
  | quoted {q : Char} {cs rest : List Char} (quote : isQuote q = true)
      (closed : cs.dropWhile (· ≠ q) = q :: rest) (later : Braceless rest) : Braceless (q :: cs)
  | plain {c : Char} {cs : List Char} (other : isQuote c = false) (bare : c ≠ '{' ∧ c ≠ '}')
      (later : Braceless cs) : Braceless (c :: cs)

/-- The braces and the end of a file. -/
def TokenKind.isEdge : TokenKind → Bool
  | lBrace | rBrace | eof => true
  | _ => false

namespace Braceless

variable {c : Char} {cs : List Char} {p : Char → Bool}

omit [RustStd]

theorem tail (h : Braceless (c :: cs)) (other : isQuote c = false) :
    (c ≠ '{' ∧ c ≠ '}') ∧ Braceless cs := by
  cases h with
  | quoted quote _ _ =>
      rw [quote] at other
      cases other
  | plain _ bare later => exact ⟨bare, later⟩

theorem closed (h : Braceless (c :: cs)) (quote : isQuote c = true) :
    ∃ rest, cs.dropWhile (· ≠ c) = c :: rest ∧ Braceless rest := by
  cases h with
  | quoted _ closed later => exact ⟨_, closed, later⟩
  | plain other _ _ =>
      rw [quote] at other
      cases other

theorem of_dropWhile (harmless : ∀ c, p c = true → isQuote c = false ∧ c ≠ '{' ∧ c ≠ '}')
    (later : Braceless (cs.dropWhile p)) : Braceless cs := by
  induction cs with
  | nil => exact .nil
  | cons c cs ih =>
      by_cases holds : p c = true
      · rw [List.dropWhile_cons_of_pos holds] at later
        obtain ⟨other, bare⟩ := harmless c holds
        exact .plain other bare (ih later)
      · rw [List.dropWhile_cons_of_neg holds] at later
        exact later

theorem dropWhile (h : Braceless cs) (harmless : ∀ c, p c = true → isQuote c = false) :
    Braceless (cs.dropWhile p) := by
  induction cs with
  | nil => exact .nil
  | cons c cs ih =>
      by_cases holds : p c = true
      · rw [List.dropWhile_cons_of_pos holds]
        exact ih (h.tail (harmless c holds)).2
      · rw [List.dropWhile_cons_of_neg holds]
        exact h

end Braceless

theorem wordChar_bare (c : Char) (word : Guard.isWordChar c = true) : c ≠ '{' ∧ c ≠ '}' := by
  constructor <;>
    · rintro rfl
      rw [isWordChar_ascii (by decide)] at word
      exact absurd word (by decide)

/-- The guard lexer reads braces in quotes only. -/
theorem braceless_of_lexed {cs : List Char} {tokens : List Guard.Token}
    (h : Guard.tokenizeChars cs = .ok tokens) : Braceless cs := by
  fun_induction Guard.tokenizeChars cs generalizing tokens with
  | case1 => exact .nil
  | case2 c cs space ih =>
      refine .plain (isQuote_whitespace space).1 ?_ (ih h)
      constructor <;>
        · rintro rfl
          exact absurd space (by decide)
  | case3 => cases h
  | case4 c cs visible token rest read tokens later ih =>
      cases h
      have bare := ih later
      unfold Guard.nextToken at read
      split at read
      · next quote =>
          subst quote
          split at read
          · cases read
          · next q tail dropped =>
              cases read
              have same : q = '\'' := by
                have stopped := List.head?_dropWhile_not (fun d => decide (d ≠ '\'')) cs
                rw [dropped] at stopped
                simpa using stopped
              subst same
              exact .quoted rfl dropped bare
      · split at read
        · split at read
          · cases read
            refine .of_dropWhile (fun d number => ⟨(isQuote_numberChar d number).1, ?_⟩) bare
            constructor <;>
              · rintro rfl
                exact absurd number (by decide)
          · cases read
        · split at read
          · cases read
            exact .of_dropWhile (fun d word => ⟨(isQuote_wordChar d word).1, wordChar_bare d word⟩)
              bare
          · unfold Guard.symbol at read
            split at read <;> cases read <;> first
              | exact .plain (by decide) (by decide) bare
              | exact .plain (by decide) (by decide) (.plain (by decide) (by decide) bare)
  | case5 => cases h

omit [RustStd] in
theorem isEdge_number {run : List Char} {kind : TokenKind} (read : numberKind run = .ok kind) :
    kind.isEdge = false := by
  unfold numberKind at read
  split at read
  · cases read
  · split at read
    · cases read
      rfl
    · split at read
      · cases read
        rfl
      · cases read

omit [RustStd] in
theorem isEdge_word (run : List Char) : (wordKind run).isEdge = false := by
  unfold wordKind
  split <;> rfl

omit [RustStd] in
theorem isEdge_symbol {c : Char} {cs : List Char} {lexeme : Lexeme}
    (read : symbol c cs = .ok lexeme) (bare : c ≠ '{' ∧ c ≠ '}') : lexeme.kind.isEdge = false := by
  unfold symbol at read
  split at read
  · next pair =>
      cases read
      cases cs with
      | nil => cases pair
      | cons d ds =>
          simp only [List.head?_cons, Option.bind_some] at pair
          unfold pairKind at pair
          split at pair <;> cases pair <;> rfl
  · split at read
    · next single =>
        cases read
        unfold singleKind at single
        split at single <;> cases single <;> first
          | rfl
          | exact absurd rfl bare.1
          | exact absurd rfl bare.2
    · cases read

/-- A token of a text without braces is no brace. -/
theorem Braceless.step {cur : Cursor} {c : Char} {cs : List Char} {turn : Step}
    (h : Braceless (c :: cs)) (tame : Tame (c :: cs)) (read : lexStep cur c cs = .ok turn) :
    Braceless turn.rest ∧ ∀ tok ∈ turn.token.toList, tok.kind.isEdge = false := by
  rw [lexStep, if_neg tame.slash] at read
  split at read
  · next blank =>
      cases read
      refine ⟨(h.tail ?_).2, by simp⟩
      simp only [isBlank, Bool.or_eq_true, decide_eq_true_eq] at blank
      rcases blank with (rfl | rfl) | rfl <;> decide
  · split at read
    · next line =>
        cases read
        subst line
        exact ⟨(h.tail (by decide)).2, by simp⟩
    · split at read
      · cases read
      · next lexeme found =>
          cases read
          have only : ∀ {kind : TokenKind}, lexeme.kind = kind → kind.isEdge = false →
              ∀ tok ∈ (some (cur.token lexeme.kind lexeme.text)).toList,
                tok.kind.isEdge = false := by
            intro kind same plain tok member
            obtain rfl := List.mem_singleton.mp member
            show lexeme.kind.isEdge = false
            rw [same]
            exact plain
          obtain ⟨quote, _, dropped, _, kind⟩ | ⟨_, _, _, rest, number⟩ | ⟨_, _, _, _, rest, kind⟩ |
            ⟨quote, _, _, symbol⟩ := nextLexeme_cases found
          · obtain ⟨rest, closed, later⟩ := h.closed quote
            rw [dropped] at closed
            cases closed
            exact ⟨later, only kind rfl⟩
          · refine ⟨?_, only rfl (isEdge_number number)⟩
            rw [rest]
            exact h.dropWhile fun d number => (isQuote_numberChar d number).1
          · refine ⟨?_, only kind (isEdge_word _)⟩
            rw [rest]
            exact h.dropWhile fun d word => (isQuote_wordChar d word).1
          · obtain ⟨bare, later⟩ := h.tail (Bool.eq_false_iff.mpr quote)
            refine ⟨?_, only rfl (isEdge_symbol symbol bare)⟩
            unfold Ddl.symbol at symbol
            split at symbol
            · next pair =>
                cases symbol
                cases cs with
                | nil => cases pair
                | cons d ds =>
                    refine (later.tail ?_).2
                    unfold pairKind at pair
                    simp only [List.head?_cons, Option.bind_some] at pair
                    split at pair <;> first | rfl | cases pair
            · split at symbol
              · cases symbol
                exact later
              · cases symbol

theorem Braceless.lexes {cur cur' : Cursor} {cs rest : List Char} {toks : List Token}
    (h : Braceless cs) (tame : Tame cs) (lexes : Lexes cur cs toks cur' rest) :
    ∀ tok ∈ toks, tok.kind.isEdge = false := by
  induction lexes with
  | refl =>
      intro tok member
      cases member
  | step first later ih =>
      obtain ⟨bare, own⟩ := h.step tame first
      exact List.forall_mem_append.mpr ⟨own, ih bare (tame.step first)⟩

omit [RustStd] in
theorem edge_or_word {kind : TokenKind} (ends : kind.endsGuard = true) :
    kind.isEdge = true ∨ kind = .with ∨ kind = .onFail := by
  revert ends
  cases kind <;> simp [TokenKind.endsGuard, TokenKind.isEdge]

/-- Only a word ends an accepted guard. -/
theorem word_of_endsGuard {text : List Char} {kinds : List TokenKind} {kind : TokenKind}
    (accepted : Guard.Accepts (String.ofList text)) (read : kindsOf text = some kinds)
    (member : kind ∈ kinds) (ends : kind.endsGuard = true) : kind = .with ∨ kind = .onFail := by
  have tame := tame_of_accepts accepted
  obtain ⟨tokens, expr, lexed, parsed⟩ := accepted
  rw [Guard.tokenize, String.toList_ofList] at lexed
  unfold kindsOf at read
  split at read
  · next toks whole =>
      obtain ⟨body, cur', lexes, rfl⟩ := lexes_of_tokenize whole
      rw [List.dropLast_concat] at read
      cases read
      obtain ⟨tok, inside, rfl⟩ := List.mem_map.mp member
      have plain := (braceless_of_lexed lexed).lexes tame lexes tok inside
      exact (edge_or_word ends).resolve_left (by simp [plain])
  · cases read

end SignalTopology.Ddl
