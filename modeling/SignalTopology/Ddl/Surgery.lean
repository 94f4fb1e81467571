import SignalTopology.Ddl.Capture

/-!
# Cutting a source in two

A text before a place is read in the same way whatever follows it, as long as no lexeme
goes on across the place. So a part of a source can be taken out or replaced, and the
tokens around it stay what they are.
-/

namespace SignalTopology.Ddl

/-! ## The front of a text -/

/-- A run that stops behind `rest`'s first character is a run of the text in front of it. -/
theorem span_front {p : Char → Bool} {cs rest left : List Char}
    (h : (cs ++ rest).dropWhile p = left ++ rest) :
    (cs ++ rest).takeWhile p = cs.takeWhile p ∧ cs.dropWhile p = left := by
  induction cs with
  | nil =>
      have short := (List.dropWhile_suffix (l := rest) p).length_le
      have whole := congrArg List.length h
      rw [List.nil_append, List.length_append] at whole
      obtain rfl : left = [] := List.eq_nil_of_length_eq_zero (by omega)
      have split := List.takeWhile_append_dropWhile (p := p) (l := rest)
      rw [show rest.dropWhile p = rest from h] at split
      exact ⟨List.append_cancel_right  split, rfl⟩
  | cons c cs ih =>
      cases holds : p c with
      | true =>
          rw [List.cons_append, List.dropWhile_cons_of_pos holds] at h
          obtain ⟨taken, dropped⟩ := ih h
          rw [List.cons_append, List.takeWhile_cons_of_pos holds, List.takeWhile_cons_of_pos holds,
            List.dropWhile_cons_of_pos holds, taken]
          exact ⟨rfl, dropped⟩
      | false =>
          have stopped : ¬ p c = true := by simp [holds]
          rw [List.cons_append, List.dropWhile_cons_of_neg stopped] at h
          rw [List.cons_append, List.takeWhile_cons_of_neg stopped,
            List.takeWhile_cons_of_neg stopped, List.dropWhile_cons_of_neg stopped]
          exact ⟨rfl, List.append_cancel_right h⟩

theorem symbol_front {c : Char} {cs rest left text : List Char} {kind : TokenKind}
    (h : symbol c (cs ++ rest) = .ok ⟨kind, text, left ++ rest⟩) :
    symbol c cs = .ok ⟨kind, text, left⟩ := by
  have whole := (symbol_text h).1
  dsimp only at whole
  rw [← List.append_assoc, ← List.cons_append] at whole
  replace whole := List.append_cancel_right whole
  unfold symbol at h ⊢
  cases cs with
  | nil =>
      split at h
      · next pair =>
          cases rest with
          | nil => cases pair
          | cons d ds =>
              obtain ⟨_, rfl, _⟩ := Lexeme.mk.inj (Except.ok.inj h)
              cases whole
      · split at h
        · next single =>
            obtain ⟨rfl, rfl, same⟩ := Lexeme.mk.inj (Except.ok.inj h)
            obtain rfl : left = [] := (List.self_eq_append_left.mp same)
            simp only [List.head?_nil, Option.bind_none]
        · cases h
  | cons d ds =>
      simp only [List.cons_append, List.head?_cons, Option.bind_some] at h ⊢
      split at h
      · obtain ⟨rfl, rfl, same⟩ := Lexeme.mk.inj (Except.ok.inj h)
        obtain rfl := List.append_cancel_right same
        rfl
      · split at h
        · obtain ⟨rfl, rfl, same⟩ := Lexeme.mk.inj (Except.ok.inj h)
          obtain rfl := List.append_cancel_right ((List.cons_append).trans same)
          rfl
        · cases h

variable [RustStd]

theorem nextLexeme_front {c : Char} {cs rest left text : List Char} {kind : TokenKind}
    (h : nextLexeme c (cs ++ rest) = .ok ⟨kind, text, left ++ rest⟩) :
    nextLexeme c cs = .ok ⟨kind, text, left⟩ := by
  obtain ⟨quote, inside, dropped, rfl, rfl⟩ | ⟨quote, digit, rfl, dropped, read⟩ |
    ⟨quote, digit, alphabetic, rfl, dropped, same⟩ | ⟨quote, digit, alphabetic, read⟩ :=
    nextLexeme_cases h
  · rw [← List.cons_append] at dropped
    obtain ⟨taken, front⟩ := span_front dropped
    rw [taken] at inside ⊢
    rw [nextLexeme, if_pos quote]
    simp only [if_neg inside, front, List.cons_append]
  · rw [← List.cons_append] at dropped
    obtain ⟨taken, front⟩ := span_front dropped.symm
    dsimp only at read ⊢
    rw [← List.cons_append, taken] at read ⊢
    rw [nextLexeme, if_neg quote, if_pos digit]
    simp only [read, front]
  · rw [← List.cons_append] at dropped
    obtain ⟨taken, front⟩ := span_front dropped.symm
    dsimp only at same
    rw [← List.cons_append, taken] at same ⊢
    rw [nextLexeme, if_neg quote, if_neg digit, if_pos alphabetic]
    simp only [same, front]
  · rw [nextLexeme, if_neg quote, if_neg digit, if_neg alphabetic]
    exact symbol_front read

theorem lexStep_front {cur : Cursor} {c : Char} {cs rest left : List Char} {turn : Step}
    (h : lexStep cur c (cs ++ rest) = .ok turn) (split : turn.rest = left ++ rest) :
    lexStep cur c cs = .ok { turn with rest := left } := by
  unfold lexStep at h ⊢
  split at h
  · next comment =>
      cases h
      dsimp only at split
      rw [← List.cons_append] at split ⊢
      obtain ⟨taken, front⟩ := span_front split
      have head : cs.head? = some '/' := by
        cases cs with
        | nil =>
            -- the second slash is not left over
            obtain ⟨slash, second⟩ := comment
            obtain ⟨r, rfl⟩ := List.head?_eq_some_iff.mp second
            rw [slash] at taken
            simp at taken
        | cons d ds => exact comment.2
      rw [if_pos ⟨comment.1, head⟩, taken, front]
  · next comment =>
      have other : ¬ (c = '/' ∧ cs.head? = some '/') := by
        rintro ⟨slash, head⟩
        cases cs with
        | nil => cases head
        | cons d ds => exact comment ⟨slash, head⟩
      rw [if_neg other]
      split at h
      · next blank =>
          cases h
          rw [if_pos blank, List.append_cancel_right split]
      · next blank =>
          rw [if_neg blank]
          split at h
          · next newline =>
              cases h
              rw [if_pos newline, List.append_cancel_right split]
          · next newline =>
              rw [if_neg newline]
              split at h
              · cases h
              · next lexeme read =>
                  cases h
                  obtain ⟨kind, text, rest'⟩ := lexeme
                  dsimp only at split
                  subst split
                  rw [nextLexeme_front read]

/-! ## Another text behind -/

/-- The text is one lexeme. -/
def IsLexeme (text : List Char) (kind : TokenKind) : Prop :=
  ∃ c cs, text = c :: cs ∧ nextLexeme c cs = .ok ⟨kind, text, []⟩

/-- A closing brace never goes on. -/
theorem IsLexeme.closing {text : List Char} (h : IsLexeme text .rBrace) (d : Char) :
    continues text d = false := by
  obtain ⟨c, cs, rfl, read⟩ := h
  obtain ⟨_, _, _, _, kind⟩ | ⟨_, _, _, _, number⟩ | ⟨_, _, _, _, _, word⟩ |
    ⟨quote, digit, alphabetic, other⟩ := nextLexeme_cases read
  · cases kind
  · unfold numberKind at number
    split at number
    · cases number
    · split at number
      · cases number
      · split at number <;> cases number
  · unfold wordKind at word
    split at word <;> cases word
  · unfold symbol at other
    split at other
    · next pair =>
        obtain ⟨rfl, _⟩ := Lexeme.mk.inj (Except.ok.inj other)
        cases cs with
        | nil => cases pair
        | cons e es =>
            simp only [List.head?_cons, Option.bind_some, pairKind] at pair
            split at pair <;> cases pair
    · split at other
      · next single =>
          obtain ⟨rfl, same, _⟩ := Lexeme.mk.inj (Except.ok.inj other)
          obtain rfl := (List.cons.inj same).2
          unfold singleKind at single
          split at single <;> cases single
          rw [continues, if_neg quote, if_neg digit, if_neg alphabetic]
          rfl
      · cases other

/-- The turn that comes to the end of a text does the same in front of another text that
does not go on with its lexeme. -/
theorem lexStep_last_swap {cur : Cursor} {c : Char} {cs rest more : List Char} {turn : Step}
    (h : lexStep cur c (cs ++ rest) = .ok turn) (ends : turn.rest = rest)
    (first : ∃ d, rest.head? = some d ∧ d ≠ '\n')
    (apart : ∀ tok, turn.token = some tok → IsLexeme (c :: cs) tok.kind →
      ∀ d, more.head? = some d → continues (c :: cs) d = false) :
    lexStep cur c (cs ++ more) = .ok { turn with rest := more } := by
  have alone : lexStep cur c cs = .ok { turn with rest := [] } := lexStep_front h ends
  obtain ⟨e, head, line⟩ := first
  obtain ⟨token, cur', rest'⟩ := turn
  dsimp only at ends apart alone ⊢
  unfold lexStep at alone
  split at alone
  · next comment =>
      -- a comment would not end before the next line
      rw [lexStep, if_pos ⟨comment.1, by rw [List.head?_append, comment.2]; rfl⟩] at h
      cases h
      have stopped := List.head?_dropWhile_not (fun d => decide (d ≠ '\n')) (c :: (cs ++ rest))
      rw [ends, head] at stopped
      simp [line] at stopped
  · split at alone
    · next blank =>
        obtain ⟨rfl, rfl, rfl⟩ := Step.mk.inj (Except.ok.inj alone)
        have other : ¬ (c = '/' ∧ more.head? = some '/') := by
          rintro ⟨rfl, _⟩
          cases blank
        rw [List.nil_append, lexStep, if_neg other, if_pos blank]
    · split at alone
      · next blank newline =>
          obtain ⟨rfl, rfl, rfl⟩ := Step.mk.inj (Except.ok.inj alone)
          subst newline
          rw [List.nil_append, lexStep, if_neg (by simp), if_neg blank, if_pos rfl]
      · split at alone
        · cases alone
        · next lexeme read =>
            obtain ⟨kind, text, left⟩ := lexeme
            obtain ⟨rfl, rfl, rfl⟩ := Step.mk.inj (Except.ok.inj alone)
            have whole := (nextLexeme_text read).1
            rw [List.append_nil] at whole
            obtain rfl : c :: cs = text := whole
            exact lexStep_lexeme cur read (apart _ rfl ⟨c, cs, rfl, read⟩)

theorem Lexes.swap {cur cur' : Cursor} {front rest more : List Char} {toks : List Token}
    (lexes : Lexes cur (front ++ rest) toks cur' rest)
    (first : ∃ d, rest.head? = some d ∧ d ≠ '\n')
    (apart : ∀ before text tok, front = before ++ text → toks.getLast? = some tok →
      IsLexeme text tok.kind → ∀ d, more.head? = some d → continues text d = false) :
    Lexes cur (front ++ more) toks cur' more := by
  generalize whole : front ++ rest = cs at lexes
  induction lexes generalizing front with
  | refl cur cs =>
      obtain rfl := List.self_eq_append_left.mp whole.symm
      exact .refl cur more
  | @step cur cur' c cs rest turn toks turned later ih =>
      obtain ⟨mid, left, _⟩ := later.text
      have shorter := lexStep_length turned
      cases front with
      | nil =>
          have length := congrArg List.length whole
          have length' := congrArg List.length left
          simp only [List.nil_append, List.length_cons, List.length_append] at length length'
          omega
      | cons c' front =>
          obtain ⟨rfl, rfl⟩ := List.cons.inj whole
          by_cases whole' : mid = []
          · subst whole'
            rw [List.nil_append] at left
            -- a turn from `rest` on would leave less than `rest`
            have none_left : Lexes turn.cur rest toks cur' rest → toks = [] ∧ turn.cur = cur' := by
              intro run
              cases run with
              | refl => exact ⟨rfl, rfl⟩
              | step again after =>
                  obtain ⟨text, split, _⟩ := after.text
                  have short := lexStep_length again
                  rw [split, List.length_append] at short
                  simp only [List.length_cons] at short
                  omega
            rw [left] at later
            obtain ⟨rfl, rfl⟩ := none_left later
            have longer := Lexes.step (lexStep_last_swap turned left first fun tok token lexeme =>
              apart [] _ tok rfl (by rw [token]; rfl) lexeme) (.refl turn.cur more)
            exact longer
          · obtain ⟨text, taken, _⟩ := lexStep_text turned
            have split : c' :: front = text ++ mid := by
              rw [left, ← List.append_assoc] at taken
              exact List.append_cancel_right ((List.cons_append).trans taken)
            have longer := Lexes.step (lexStep_append (lexStep_front turned left) whole' more)
              (@ih mid first (fun before text' tok inside last lexeme =>
                apart (text ++ before) text' tok (by rw [split, inside, List.append_assoc])
                  (by rw [List.getLast?_append, last]; rfl) lexeme) left.symm)
            exact longer

/-! ## Between two tokens -/

/-- The turn that reads a token, and the runs before and behind it. -/
theorem Lexes.at_token {cur cur' : Cursor} {cs rest : List Char}
    {toks more : List Token} {t : Token} (lexes : Lexes cur cs (toks ++ t :: more) cur' rest) :
    ∃ mid c cs' turn, Lexes cur cs toks mid (c :: cs') ∧ lexStep mid c cs' = .ok turn ∧
      turn.token = some t ∧ Lexes turn.cur turn.rest more cur' rest := by
  generalize whole : toks ++ t :: more = all at lexes
  induction lexes generalizing toks with
  | refl => exact absurd whole (by simp)
  | @step cur cur' c cs rest turn later_toks turned later ih =>
      cases token : turn.token with
      | none =>
          rw [token] at whole
          obtain ⟨mid, c', cs', turn', front, read, own, back⟩ := ih whole
          have longer := Lexes.step turned front
          rw [token] at longer
          exact ⟨mid, c', cs', turn', longer, read, own, back⟩
      | some tok =>
          rw [token] at whole
          cases toks with
          | nil =>
              obtain ⟨rfl, rfl⟩ := List.cons.inj whole
              exact ⟨cur, c, cs, turn, .refl cur _, turned, token, later⟩
          | cons t' toks =>
              obtain ⟨rfl, same⟩ := List.cons.inj whole
              obtain ⟨mid, c', cs', turn', front, read, own, back⟩ := ih same
              have longer := Lexes.step turned front
              rw [token] at longer
              exact ⟨mid, c', cs', turn', longer, read, own, back⟩

/-- The run up to a token starts it at a visible character. -/
theorem Lexes.until_token {cur cur' : Cursor} {cs rest : List Char}
    {toks more : List Token} {t : Token} (lexes : Lexes cur cs (toks ++ t :: more) cur' rest) :
    ∃ mid cs', Lexes cur cs toks mid cs' ∧ Lexes mid cs' (t :: more) cur' rest ∧
      t.start = mid.pos ∧ ∃ c, cs'.head? = some c ∧ isWhitespace c = false := by
  obtain ⟨mid, c, cs', turn, front, read, own, back⟩ := lexes.at_token
  obtain ⟨text, taken, _, shown⟩ := lexStep_text read
  obtain ⟨start, _, solid, _⟩ := shown t own
  have longer := Lexes.step read back
  rw [own] at longer
  refine ⟨mid, c :: cs', front, longer, start, c, rfl, solid.first c ?_⟩
  have first := congrArg List.head? taken
  rw [List.head?_append_of_ne_nil _ solid.nonempty] at first
  exact first.symm

/-- The run past a token ends where the token does. -/
theorem Lexes.past_token {cur cur' : Cursor} {cs rest : List Char}
    {toks more : List Token} {t : Token} (lexes : Lexes cur cs (toks ++ t :: more) cur' rest) :
    ∃ mid cs', Lexes cur cs (toks ++ [t]) mid cs' ∧ Lexes mid cs' more cur' rest ∧
      t.start + t.len = mid.pos := by
  obtain ⟨mid, c, cs', turn, front, read, own, back⟩ := lexes.at_token
  obtain ⟨text, taken, moved, shown⟩ := lexStep_text read
  obtain ⟨start, length, _⟩ := shown t own
  have last := Lexes.step read (.refl turn.cur turn.rest)
  rw [own] at last
  exact ⟨turn.cur, turn.rest, front.trans last, back, by rw [start, length, moved]⟩

omit [RustStd] in
/-- Two fronts of a text that take the same bytes are one. -/
theorem front_unique {front front' back back' : List Char} (same : front ++ back = front' ++ back')
    (length : byteLen front = byteLen front') : front = front' ∧ back = back' := by
  obtain ⟨mid, rfl, tail⟩ := front_within same (Nat.le_of_eq length)
  have none_left : mid = [] := by
    by_contra some_left
    have positive := byteLen_pos some_left
    rw [byteLen_append] at length
    omega
  rw [none_left, List.nil_append] at tail
  rw [none_left, List.append_nil]
  exact ⟨rfl, tail⟩

/-- A source is cut around some of its tokens, from the start of the first to the end of
the last. -/
theorem Lexes.cut {stop : Cursor} {front mid back : List Char} {before toks after : List Token}
    {first last : Token}
    (lexes : Lexes .start (front ++ (mid ++ back)) (before ++ (toks ++ after)) stop [])
    (head : toks.head? = some first) (start : byteLen front = first.start)
    (tail : toks.getLast? = some last) (ends : byteLen (front ++ mid) = last.start + last.len) :
    ∃ cur cur', Lexes .start (front ++ (mid ++ back)) before cur (mid ++ back) ∧
      Lexes cur (mid ++ back) toks cur' back ∧ Lexes cur' back after stop [] ∧
      cur.pos = byteLen front ∧ cur'.pos = byteLen (front ++ mid) ∧
      ∃ c, (mid ++ back).head? = some c ∧ isWhitespace c = false := by
  obtain ⟨more, rfl⟩ := List.head?_eq_some_iff.mp head
  obtain ⟨cur, rest, run, later, place, visible⟩ := lexes.until_token
  obtain ⟨text, split, moved⟩ := run.text
  have here : cur.pos = byteLen front := by rw [← place, start]
  obtain ⟨rfl, rfl⟩ := front_unique split (by
    rw [← here, moved]
    exact Nat.zero_add _)
  obtain ⟨body, same⟩ := List.getLast?_eq_some_iff.mp tail
  have later : Lexes cur (mid ++ back) (body ++ last :: after) stop [] := by
    have whole : first :: more ++ after = body ++ last :: after := by
      rw [same, List.append_assoc, List.singleton_append]
    exact whole ▸ later
  obtain ⟨cur', rest', run', later', place'⟩ := later.past_token
  obtain ⟨text', split', moved'⟩ := run'.text
  have there : cur'.pos = byteLen (front ++ mid) := by rw [← place', ends]
  obtain ⟨rfl, rfl⟩ := front_unique split' (by
    rw [byteLen_append] at there
    omega)
  rw [← same] at run'
  exact ⟨cur, cur', run, run', later', here, there, visible⟩

/-! ## Slices -/

section

omit [RustStd]

theorem dropBytes_some {cs rest : List Char} {n : Nat} (h : dropBytes cs n = some rest) :
    ∃ front, cs = front ++ rest ∧ byteLen front = n := by
  fun_induction dropBytes cs n with
  | case1 cs =>
      cases h
      exact ⟨[], rfl, rfl⟩
  | case2 => cases h
  | case3 c cs n fits ih =>
      obtain ⟨front, rfl, length⟩ := ih h
      exact ⟨c :: front, rfl, by rw [byteLen_cons]; omega⟩
  | case4 => cases h

theorem takeBytes_some {cs text : List Char} {n : Nat} (h : takeBytes cs n = some text) :
    ∃ rest, cs = text ++ rest ∧ byteLen text = n := by
  fun_induction takeBytes cs n generalizing text with
  | case1 cs =>
      cases h
      exact ⟨cs, rfl, rfl⟩
  | case2 => cases h
  | case3 c cs n fits ih =>
      obtain ⟨text', taken, rfl⟩ := Option.map_eq_some_iff.mp h
      obtain ⟨rest, rfl, length⟩ := ih taken
      exact ⟨rest, rfl, by rw [byteLen_cons]; omega⟩
  | case4 => cases h

/-- A slice is a part of the source between two places. -/
theorem slice_iff {src text : List Char} {start stop : Nat} : slice src start stop = some text ↔
    ∃ before after, src = before ++ (text ++ after) ∧ byteLen before = start ∧
      byteLen (before ++ text) = stop := by
  constructor
  · intro h
    unfold slice at h
    split at h
    · obtain ⟨rest, dropped, taken⟩ := Option.bind_eq_some_iff.mp h
      obtain ⟨before, rfl, start⟩ := dropBytes_some dropped
      obtain ⟨after, rfl, length⟩ := takeBytes_some taken
      exact ⟨before, after, rfl, start, by rw [byteLen_append]; omega⟩
    · cases h
  · rintro ⟨before, after, rfl, rfl, rfl⟩
    rw [byteLen_append]
    exact slice_append before text after

/-- What lies in a front of the source does not depend on what follows. -/
theorem slice_front {front rest more text : List Char} {start stop : Nat}
    (h : slice (front ++ rest) start stop = some text) (inside : stop ≤ byteLen front) :
    slice (front ++ more) start stop = some text := by
  obtain ⟨before, after, split, rfl, rfl⟩ := slice_iff.mp h
  rw [← List.append_assoc] at split
  obtain ⟨mid, rfl, _⟩ := front_within split.symm inside
  exact slice_iff.mpr ⟨before, mid ++ more, by simp, rfl, rfl⟩

/-- What lies behind a front of the source moves along with it. -/
theorem slice_back {front front' rest text : List Char} {start stop start' stop' : Nat}
    (h : slice (front ++ rest) start stop = some text) (inside : byteLen front ≤ start)
    (moved : start' + byteLen front = start + byteLen front')
    (moved' : stop' + byteLen front = stop + byteLen front') :
    slice (front' ++ rest) start' stop' = some text := by
  obtain ⟨before, after, split, rfl, rfl⟩ := slice_iff.mp h
  obtain ⟨mid, rfl, rfl⟩ := front_within split inside
  refine slice_iff.mpr ⟨front' ++ mid, after, (List.append_assoc _ _ _).symm, ?_, ?_⟩
  all_goals
    simp only [byteLen_append] at moved moved' ⊢
    omega

end

end SignalTopology.Ddl
