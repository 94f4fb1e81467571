import SignalTopology.Compact
import SignalTopology.Ddl.Blanks
import SignalTopology.Ddl.Grammar

/-!
# JSON in front of the lexer

The payload of a reaction is read by the lexer of the language before it is cut out and
read as JSON. The lexer knows no escapes: behind an escaped quote it takes the texts of
strings for code and the code between them for strings, and it never finds back. Apart from
that and from large integers it reads the compact text of every value, with balanced braces.
-/

namespace SignalTopology.Ddl

variable [RustStd]

/-! ## Out of step -/

/-- Lexemes other than strings hold neither quotes nor backslashes. -/
theorem nextLexeme_plain {c : Char} {cs : List Char} {lexeme : Lexeme}
    (h : nextLexeme c cs = .ok lexeme)
    (other : isQuote c = false) : ∀ d ∈ lexeme.text, d ≠ '"' ∧ d ≠ '\\' := by
  have quote : ¬ (c = '\'' || c = '"') = true := by
    rw [show (c = '\'' || c = '"') = isQuote c from rfl, other]
    simp
  obtain ⟨quoted, _⟩ | ⟨_, _, text, _⟩ | ⟨_, _, _, text, _⟩ | ⟨_, _, _, read⟩ := nextLexeme_cases h
  · exact absurd quoted quote
  · intro d member
    rw [text] at member
    have number := List.mem_takeWhile_imp member
    constructor <;> rintro rfl <;> exact absurd number (by decide)
  · intro d member
    rw [text] at member
    have word := List.mem_takeWhile_imp member
    constructor <;>
      · rintro rfl
        rw [isWordChar_ascii (by decide)] at word
        exact absurd word (by decide)
  · unfold symbol at read
    split at read
    · next kind pair =>
        cases read
        obtain ⟨d, head, found⟩ := Option.bind_eq_some_iff.mp pair
        obtain ⟨rest, rfl⟩ := List.head?_eq_some_iff.mp head
        unfold pairKind at found
        split at found <;> first | cases found; done | skip
        all_goals
          intro e member
          simp only [List.take_succ_cons, List.take_zero, List.mem_cons,
            List.not_mem_nil, or_false] at member
          rcases member with rfl | rfl <;> decide
    · split at read
      · next kind single =>
          cases read
          intro d member
          obtain rfl := List.mem_singleton.mp member
          constructor <;> rintro rfl <;> cases single
      · cases read

/-- From a place inside of a string a turn comes to another such place or passes the end. -/
theorem stray_step {cs back tail : List Char} {c : Char} {cur : Cursor} {turn : Step} (h : Stray cs)
    (whole : cs ++ '}' :: back = c :: tail) (turned : lexStep cur c tail = .ok turn) :
    (∃ cs', Stray cs' ∧ turn.rest = cs' ++ '}' :: back) ∨ turn.rest.length ≤ back.length := by
  obtain ⟨body, rest, inside, outside, rfl⟩ := h
  have passes : ∀ {q : Char} {text : List Char}, '}' ≠ q →
    ('}' :: back).dropWhile (· ≠ q) = q :: text →
      text.length ≤ back.length := by
    intro q text other dropped
    rw [List.dropWhile_cons_of_pos (by simpa using other)] at dropped
    have shorter := (List.dropWhile_suffix (l := back) (fun d => decide (d ≠ q))).length_le
    rw [dropped, List.length_cons] at shorter
    omega
  unfold lexStep at turned
  split at turned
  · next comment =>
      cases turned
      right
      have line : ∀ d ∈ (body ++ '"' :: rest) ++ ['}'], decide (d ≠ '\n') = true := by
        intro d member
        rw [decide_eq_true_eq]
        rintro rfl
        simp [inside.line, outside.line] at member
      have around : c :: tail = ((body ++ '"' :: rest) ++ ['}']) ++ back := by
        rw [← whole]
        simp
      dsimp only
      rw [around, List.dropWhile_append_of_pos line]
      exact (List.dropWhile_suffix _).length_le
  split at turned
  · next blank =>
      cases turned
      left
      cases inside with
      | nil =>
          obtain ⟨rfl, _⟩ := List.cons.inj whole
          cases blank
      | @plain d body _ later =>
          obtain ⟨rfl, rfl⟩ := List.cons.inj whole
          exact ⟨body ++ '"' :: rest, ⟨body, rest, later, outside, rfl⟩, rfl⟩
      | escape =>
          obtain ⟨rfl, _⟩ := List.cons.inj whole
          cases blank
  split at turned
  · next line =>
      subst line
      have member : '\n' ∈ (body ++ '"' :: rest) ++ '}' :: back := whole ▸ List.mem_cons_self
      exfalso
      cases inside with
      | nil => cases (List.cons.inj whole).1
      | plain visible _ => exact visible.2.2 (List.cons.inj whole).1
      | escape => cases (List.cons.inj whole).1
  split at turned
  · cases turned
  next lexeme read =>
    cases turned
    dsimp only
    by_cases quote : isQuote c = true
    · obtain ⟨_, _, dropped, _⟩ | ⟨other, _⟩ | ⟨other, _⟩ | ⟨other, _⟩ := nextLexeme_cases read
      · cases inside with
        | nil =>
            obtain ⟨rfl, rfl⟩ := List.cons.inj whole
            obtain passed | ⟨post, stray, found⟩ := outside.double ('}' :: back)
            · exact .inr (passes (by decide) (passed.symm.trans dropped))
            · exact .inl ⟨post, stray, (List.cons.inj (dropped.symm.trans found)).2⟩
        | @plain d body visible later =>
            obtain ⟨rfl, place⟩ := List.cons.inj whole
            obtain rfl : d = '\'' := by simpa [isQuote, visible.1] using quote
            have around : tail = body ++ '"' :: (rest ++ '}' :: back) := by
              rw [← place]
              exact List.append_assoc body ('"' :: rest) ('}' :: back)
            rw [around] at dropped
            obtain passed | ⟨post, after, found⟩ := later.single ('"' :: (rest ++ '}' :: back))
            · rw [passed, List.dropWhile_cons_of_pos (by decide)] at dropped
              obtain passed | ⟨post, stray, found⟩ := outside.single ('}' :: back)
              · exact .inr (passes (by decide) (passed.symm.trans dropped))
              · exact .inl ⟨post, stray, (List.cons.inj (dropped.symm.trans found)).2⟩
            · refine .inl ⟨post ++ '"' :: rest, ⟨post, rest, after, outside, rfl⟩, ?_⟩
              rw [(List.cons.inj (dropped.symm.trans found)).2, List.append_assoc, List.cons_append]
        | escape =>
            obtain ⟨rfl, _⟩ := List.cons.inj whole
            cases quote
      all_goals exact absurd quote other
    · rw [Bool.not_eq_true] at quote
      left
      have text := (nextLexeme_text read).1
      have split : body ++ '"' :: (rest ++ '}' :: back) = lexeme.text ++ lexeme.rest := by
        rw [← text, ← whole, List.append_assoc, List.cons_append]
      obtain ⟨body', later, left⟩ := inside.behind split (nextLexeme_plain read quote)
      exact ⟨body' ++ '"' :: rest, ⟨body', rest, later, outside, rfl⟩, by rw [left]; simp⟩

/-- From a place inside of a string the lexer never comes to the last brace. -/
theorem stray_lost {cs back : List Char} {cur cur' : Cursor} {toks : List Token} (h : Stray cs) :
    ¬ Lexes cur (cs ++ '}' :: back) toks cur' ('}' :: back) := by
  generalize whole : cs ++ '}' :: back = all
  generalize stop : '}' :: back = rest
  intro run
  induction run generalizing cs with
  | refl =>
      obtain ⟨body, later, _, _, rfl⟩ := h
      have length := congrArg List.length (whole.trans stop.symm)
      simp only [List.length_append, List.length_cons] at length
      omega
  | @step cur cur' c tail rest turn toks turned later ih =>
      subst stop
      obtain ⟨cs', stray, split⟩ | passed := stray_step h whole turned
      · exact ih stray split.symm rfl
      · obtain ⟨text, split, _⟩ := later.text
        rw [split, List.length_append, List.length_cons] at passed
        omega

/-- Two runs from one place go the same way. -/
theorem Lexes.rest {cur mid stop : Cursor} {cs left rest : List Char} {toks all : List Token}
    (h : Lexes cur cs toks mid left) (whole : Lexes cur cs all stop rest)
    (short : rest.length ≤ left.length) : ∃ more, Lexes mid left more stop rest := by
  induction h generalizing all with
  | refl => exact ⟨all, whole⟩
  | step first later ih =>
      cases whole with
      | refl =>
          obtain ⟨text, split, _⟩ := later.text
          have shorter := lexStep_length first
          rw [split, List.length_append] at shorter
          simp only [List.length_cons] at short
          omega
      | step first' later' =>
          cases first.symm.trans first'
          exact ih later' short

/-! ## Texts in front of the lexer -/

/-- The kinds of both texts, one after the other. -/
def Both (K₁ K₂ : List TokenKind → Prop) (kinds : List TokenKind) : Prop :=
  ∃ kinds₁ kinds₂, kinds = kinds₁ ++ kinds₂ ∧ K₁ kinds₁ ∧ K₂ kinds₂

/-- The lexer reads the text up to its end, in front of a rest that suits it. -/
def RunsOver (suits : List Char → Prop) (text : List Char) (K : List TokenKind → Prop) : Prop :=
  ∃ kinds, K kinds ∧ ∀ cur more, suits more →
    ∃ toks cur', Lexes cur (text ++ more) toks cur' more ∧ toks.map Token.kind = kinds

/-- It does so if the text is in order, and otherwise never comes to a last brace behind it. -/
structure ReadsIff (suits : List Char → Prop) (text : List Char) (ok : Prop)
    (K : List TokenKind → Prop) : Prop where
  runs : ok → RunsOver suits text K
  only : ∀ {cur cur' : Cursor} {q back : List Char} {toks : List Token}, suits (q ++ '}' :: back) →
    Outside q → Lexes cur (text ++ (q ++ '}' :: back)) toks cur' ('}' :: back) → ok

section

variable {F F₁ F₂ : List Char → Prop} {text text₁ text₂ : List Char} {ok ok' ok₁ ok₂ : Prop}
variable {K K' K₁ K₂ : List TokenKind → Prop}

theorem RunsOver.append (first : RunsOver F₁ text₁ K₁) (second : RunsOver F₂ text₂ K₂)
    (suits : ∀ more, F₂ more → F₁ (text₂ ++ more)) : RunsOver F₂ (text₁ ++ text₂) (Both K₁ K₂) := by
  obtain ⟨kinds₁, own₁, runs₁⟩ := first
  obtain ⟨kinds₂, own₂, runs₂⟩ := second
  refine ⟨kinds₁ ++ kinds₂, ⟨kinds₁, kinds₂, rfl, own₁, own₂⟩, fun cur more fits => ?_⟩
  obtain ⟨toks₁, mid, run₁, rfl⟩ := runs₁ cur (text₂ ++ more) (suits more fits)
  obtain ⟨toks₂, stop, run₂, rfl⟩ := runs₂ mid more fits
  refine ⟨toks₁ ++ toks₂, stop, ?_, List.map_append⟩
  rw [List.append_assoc]
  exact run₁.trans run₂

theorem RunsOver.mono (h : RunsOver F text K) (weaker : ∀ kinds, K kinds → K' kinds)
    (suits : ∀ more, F₂ more → F more) : RunsOver F₂ text K' := by
  obtain ⟨kinds, own, runs⟩ := h
  exact ⟨kinds, weaker kinds own, fun cur more fits => runs cur more (suits more fits)⟩

theorem RunsOver.readsIff (h : RunsOver F text K) : ReadsIff F text True K :=
  ⟨fun _ => h, fun _ _ _ => trivial⟩

theorem ReadsIff.mono (h : ReadsIff F text ok K) (same : ok ↔ ok')
    (weaker : ∀ kinds, K kinds → K' kinds)
    (suits : ∀ more, F₂ more → F more) : ReadsIff F₂ text ok' K' :=
  ⟨fun fine => (h.runs (same.mpr fine)).mono weaker suits,
    fun fits outside run => same.mp (h.only (suits _ fits) outside run)⟩

/-- Of two texts the second is only reached if the first is in order. -/
theorem ReadsIff.append (first : ReadsIff F₁ text₁ ok₁ K₁) (second : ReadsIff F₂ text₂ ok₂ K₂)
    (suits : ∀ more, F₂ more → F₁ (text₂ ++ more)) (outside : Outside text₂) :
    ReadsIff F₂ (text₁ ++ text₂) (ok₁ ∧ ok₂) (Both K₁ K₂) := by
  constructor
  · rintro ⟨fine₁, fine₂⟩
    exact (first.runs fine₁).append (second.runs fine₂) suits
  · intro cur cur' q back toks fits between run
    have apart : (text₁ ++ text₂) ++ (q ++ '}' :: back) =
      text₁ ++ ((text₂ ++ q) ++ '}' :: back) := by simp
    have behind : (text₂ ++ q) ++ '}' :: back = text₂ ++ (q ++ '}' :: back) :=
      List.append_assoc _ _ _
    rw [apart] at run
    have fits₁ : F₁ ((text₂ ++ q) ++ '}' :: back) := by
      rw [behind]
      exact suits _ fits
    have fine₁ := first.only fits₁ (outside.append between) run
    obtain ⟨_, _, runs⟩ := first.runs fine₁
    obtain ⟨_, mid, passed, _⟩ := runs cur _ fits₁
    have length : ('}' :: back).length ≤ ((text₂ ++ q) ++ '}' :: back).length := by
      rw [List.length_append]
      exact Nat.le_add_left _ _
    obtain ⟨_, rest⟩ := passed.rest run length
    rw [behind] at rest
    exact ⟨fine₁, second.only fits between rest⟩

end

/-! ## Braces -/

/-- The braces of the kinds close each other. -/
def Balanced (kinds : List TokenKind) : Prop :=
  ∀ depth rest, 1 ≤ depth → closes depth (kinds ++ rest) = closes depth rest

omit [RustStd] in
theorem Balanced.nil : Balanced [] := fun _ _ _ => rfl

omit [RustStd] in
theorem Balanced.append {kinds kinds' : List TokenKind} (h : Balanced kinds)
    (later : Balanced kinds') :
    Balanced (kinds ++ kinds') := by
  intro depth rest some_open
  rw [List.append_assoc, h depth _ some_open, later depth rest some_open]

omit [RustStd] in
theorem Balanced.both {kinds : List TokenKind} (h : Both Balanced Balanced kinds) :
    Balanced kinds := by
  obtain ⟨_, _, rfl, first, second⟩ := h
  exact first.append second

omit [RustStd] in
theorem balanced_single {kind : TokenKind} (plain : kind.isEdge = false) : Balanced [kind] := by
  intro depth rest _
  rw [List.singleton_append, closes.eq_def]
  split
  · next same => cases same
  · next same =>
      obtain ⟨rfl, _⟩ := List.cons.inj same
      cases plain
  · next same =>
      obtain ⟨rfl, _⟩ := List.cons.inj same
      cases plain
  · next same =>
      obtain ⟨rfl, _⟩ := List.cons.inj same
      cases plain
  · next same =>
      obtain ⟨_, rfl⟩ := List.cons.inj same
      rfl

omit [RustStd] in
/-- A block of balanced braces is balanced. -/
theorem Balanced.block {kinds : List TokenKind} (h : Balanced kinds) :
    Balanced (.lBrace :: (kinds ++ [.rBrace])) := by
  intro depth rest some_open
  have inner : closes depth (.lBrace :: (kinds ++ [.rBrace]) ++ rest) =
      closes (depth + 1) (kinds ++ .rBrace :: rest) := by
    rw [List.cons_append, List.append_assoc, List.singleton_append, closes]
  rw [inner, h (depth + 1) _ (by omega), closes, if_neg (by omega), Nat.add_sub_cancel]
  simp [Nat.lt_of_lt_of_le Nat.zero_lt_one some_open]

/-! ## Numbers -/

/-- The text starts with such a character or is empty. -/
def Heads (p : Char → Prop) (more : List Char) : Prop := ∀ d, more.head? = some d → p d

/-- What stands behind a value: a comma or the end of an array or object. -/
def Delimited : List Char → Prop := Heads fun d => d = ',' ∨ d = ']' ∨ d = '}'

theorem Delimited.apart {more : List Char} (h : Delimited more) :
    Heads (fun d => Guard.isNumberChar d = false ∧ Guard.isWordChar d = false) more := by
  intro d head
  obtain rfl | rfl | rfl : d = ',' ∨ d = ']' ∨ d = '}' := h d head
  all_goals exact ⟨by decide, (isWordChar_ascii (by decide)).trans (by decide)⟩

/-- A run of number characters is one lexeme, if it is a number. -/
theorem nextLexeme_number {c : Char} {cs more : List Char} (digit : c.isDigit = true)
    (all : ∀ d ∈ c :: cs, Guard.isNumberChar d = true)
    (apart : Heads (fun d => Guard.isNumberChar d = false) more) :
    nextLexeme c (cs ++ more) = (numberKind (c :: cs)).map fun kind => ⟨kind, c :: cs, more⟩ := by
  have quote : ¬ (c = '\'' || c = '"') = true := by
    intro quote
    simp only [Bool.or_eq_true, decide_eq_true_eq] at quote
    rcases quote with rfl | rfl <;> cases digit
  obtain ⟨taken, dropped⟩ : (c :: (cs ++ more)).takeWhile Guard.isNumberChar = c :: cs ∧
      (c :: (cs ++ more)).dropWhile Guard.isNumberChar = more := by
    rw [← List.cons_append, List.takeWhile_append_of_pos all, List.dropWhile_append_of_pos all]
    cases more with
    | nil => simp
    | cons d more =>
        have stops : ¬ Guard.isNumberChar d = true := by simp [apart d rfl]
        rw [List.takeWhile_cons_of_neg stops, List.dropWhile_cons_of_neg stops, List.append_nil]
        exact ⟨rfl, rfl⟩
  rw [nextLexeme, if_neg quote, if_pos digit, taken, dropped]
  dsimp only
  cases numberKind (c :: cs) with
  | ok kind => rfl
  | error e => rfl

theorem lexStep_number {cur : Cursor} {c : Char} {cs more : List Char} (digit : c.isDigit = true)
    (all : ∀ d ∈ c :: cs, Guard.isNumberChar d = true)
    (apart : Heads (fun d => Guard.isNumberChar d = false) more) :
    (∀ kind, numberKind (c :: cs) = .ok kind → lexStep cur c (cs ++ more) =
      .ok ⟨some (cur.token kind (c :: cs)), cur.past (c :: cs), more⟩) ∧
    ∀ turn, lexStep cur c (cs ++ more) = .ok turn → ∃ kind, numberKind (c :: cs) = .ok kind := by
  have slash : ¬ (c = '/' ∧ (cs ++ more).head? = some '/') := by
    rintro ⟨rfl, _⟩
    cases digit
  have blank : ¬ isBlank c = true := by
    intro blank
    simp only [isBlank, Bool.or_eq_true, decide_eq_true_eq] at blank
    rcases blank with (rfl | rfl) | rfl <;> cases digit
  have line : c ≠ '\n' := by
    rintro rfl
    cases digit
  rw [lexStep, if_neg slash, if_neg blank, if_neg line, nextLexeme_number digit all apart]
  cases numberKind (c :: cs) with
  | ok kind =>
      refine ⟨fun kind' same => ?_, fun _ _ => ⟨kind, rfl⟩⟩
      cases same
      rfl
  | error e =>
      refine ⟨fun _ same => ?_, fun _ same => ?_⟩
      · cases same
      · cases same

/-- A run of number characters, as far as it is a number. -/
theorem number_readsIff {run : List Char} {ok : Prop}
    (first : ∃ c, run.head? = some c ∧ c.isDigit = true)
    (all : ∀ d ∈ run, Guard.isNumberChar d = true) (fine : ok ↔ ∃ kind, numberKind run = .ok kind) :
    ReadsIff (Heads fun d => Guard.isNumberChar d = false) run ok Balanced := by
  obtain ⟨c, head, digit⟩ := first
  obtain ⟨cs, rfl⟩ := List.head?_eq_some_iff.mp head
  constructor
  · intro holds
    obtain ⟨kind, read⟩ := fine.mp holds
    refine ⟨[kind], balanced_single (isEdge_number read), fun cur more apart => ?_⟩
    exact ⟨_, _, .step ((lexStep_number digit all apart).1 kind read) (.refl _ more), rfl⟩
  · intro cur cur' q back toks apart _ run
    rw [List.cons_append] at run
    generalize stop : '}' :: back = rest at run apart
    generalize whole : c :: (cs ++ (q ++ rest)) = text at run
    cases run with
    | refl =>
        rw [← stop] at whole
        obtain ⟨rfl, _⟩ := List.cons.inj whole
        cases digit
    | step turned _ =>
        obtain ⟨rfl, rfl⟩ := List.cons.inj whole
        exact fine.mpr ((lexStep_number digit all apart).2 _ turned)

section

omit [RustStd]

theorem digits_number {ds : List Char} (h : Digits ds) : ∀ d ∈ ds, Guard.isNumberChar d = true :=
  fun d member => isNumberChar_of_digit (h.all d member)

/-- Digits are a number if their value fits. -/
theorem numberKind_digits {ds : List Char} (h : Digits ds) :
    digitsToNat ds ≤ Int64.maxValue.toInt.toNat ↔ ∃ kind, numberKind ds = .ok kind := by
  have points : ¬ 1 < ds.count '.' := by
    rw [List.count_eq_zero_of_not_mem h.point]
    exact Nat.not_lt_zero 1
  rw [numberKind, if_neg points, if_neg h.point, parseI64]
  by_cases fits : digitsToNat ds ≤ Int64.maxValue.toInt.toNat
  · rw [if_pos fits]
    exact iff_of_true fits ⟨_, rfl⟩
  · rw [if_neg fits]
    refine iff_of_false fits ?_
    rintro ⟨_, other⟩
    cases other

/-- Up to three digits fit. -/
theorem digits_short {ds : List Char} (h : Digits ds) (short : ds.length ≤ 3) :
    ∃ kind, numberKind ds = .ok kind := by
  refine (numberKind_digits h).mp ?_
  have bound : digitsToNat ds < 10 ^ 3 :=
    Nat.lt_of_lt_of_le (digitsToNat_lt h.all) (Nat.pow_le_pow_right (by decide) short)
  have large : 10 ^ 3 ≤ Int64.maxValue.toInt.toNat := by decide
  omega

/-- A decimal fraction is a number. -/
theorem numberKind_point {ds es : List Char} (whole : Digits ds) (fraction : Digits es) :
    ∃ kind, numberKind (ds ++ '.' :: es) = .ok kind := by
  have count : (ds ++ '.' :: es).count '.' = 1 := by
    rw [List.count_append, List.count_cons_self, List.count_eq_zero_of_not_mem whole.point,
      List.count_eq_zero_of_not_mem fraction.point]
  refine ⟨.float (parseF64 (ds ++ '.' :: es)), ?_⟩
  rw [numberKind, count, if_neg (Nat.lt_irrefl 1),
    if_pos (List.mem_append_right _ List.mem_cons_self)]

end

/-- Digits, as far as their value fits. -/
theorem digits_readsIff {ds : List Char} (h : Digits ds) :
    ReadsIff Delimited ds (digitsToNat ds ≤ Int64.maxValue.toInt.toNat) Balanced := by
  obtain ⟨c, head, digit⟩ := h.first []
  rw [List.append_nil] at head
  refine (number_readsIff ⟨c, head, digit⟩ (digits_number h) (numberKind_digits h)).mono Iff.rfl
    (fun _ own => own) ?_
  exact fun more delimited d first => (delimited.apart d first).1

/-! ## Symbols and words -/

theorem runs_symbol {c : Char} {kind : TokenKind} (ascii : c.toNat < 128)
    (single : singleKind c = .ok kind)
    (other : c ≠ '/') : RunsOver (Heads fun d => pairKind c d = none) [c] (· = [kind]) :=
  ⟨[kind], rfl, fun cur _ apart => ⟨_, _, lexes_symbol cur ascii single other apart, rfl⟩⟩

/-- A symbol in front of a digit is a token of its own. -/
theorem runs_before_digit {c : Char} {kind : TokenKind} (ascii : c.toNat < 128)
    (single : singleKind c = .ok kind) (other : c ≠ '/') (flat : kind.isEdge = false) :
    RunsOver (fun more => ∃ d, more.head? = some d ∧ d.isDigit = true) [c] Balanced := by
  refine (runs_symbol ascii single other).mono ?_ ?_
  · rintro kinds rfl
    exact balanced_single flat
  · rintro more ⟨d, head, digit⟩ d' first
    cases head.symm.trans first
    unfold pairKind
    split <;> first | rfl | cases digit

theorem runs_sign {sign : List Char} (signed : IsSign sign) :
    RunsOver (fun more => ∃ c, more.head? = some c ∧ c.isDigit = true) sign Balanced := by
  obtain rfl | rfl := signed
  · exact ⟨[], .nil, fun cur more _ => ⟨[], cur, .refl cur more, rfl⟩⟩
  · exact runs_before_digit (by decide) rfl (by decide) rfl

theorem runs_word {word : List Char} (h : IsWord (String.ofList word)) :
    RunsOver (Heads fun d => Guard.isWordChar d = false) word Balanced := by
  refine ⟨[wordKind word], balanced_single (isEdge_word word), fun cur more apart => ?_⟩
  have run := h.lexes cur apart
  rw [String.toList_ofList] at run
  exact ⟨_, _, run, rfl⟩

theorem runs_letters {word : List Char} (h : isAsciiWord (String.ofList word) = true) :
    RunsOver Delimited word Balanced :=
  (runs_word (isWord_ascii h)).mono (fun _ own => own) fun _ delimited d first =>
    (delimited.apart d first).2

/-- Number characters that are a number, in front of another character. -/
theorem runs_number {run : List Char} (first : ∃ c, run.head? = some c ∧ c.isDigit = true)
    (all : ∀ d ∈ run, Guard.isNumberChar d = true) (fine : ∃ kind, numberKind run = .ok kind) :
    RunsOver (Heads fun d => Guard.isNumberChar d = false) run Balanced :=
  (number_readsIff first all (iff_of_true trivial fine)).runs trivial

theorem runs_exponent {exp : List Char} (h : exp = [] ∨ ∃ sign ds, exp = 'e' :: (sign ++ ds) ∧
    IsExponentSign sign ∧ Digits ds ∧ ds.length ≤ 3) : RunsOver Delimited exp Balanced := by
  obtain rfl | ⟨sign, ds, rfl, signed, digits, short⟩ := h
  · exact ⟨[], .nil, fun cur more _ => ⟨[], cur, .refl cur more, rfl⟩⟩
  -- a letter that a sign follows is a word of its own
  have apart : ∀ {sign : Char}, Guard.isWordChar sign = false →
      RunsOver (fun more => ∃ c, more.head? = some c ∧ c.isDigit = true) [sign] Balanced →
      RunsOver Delimited ('e' :: ([sign] ++ ds)) Balanced := by
    intro sign other symbol
    have behind := symbol.append
      (runs_number (digits.first [] |>.imp fun c h => by rwa [List.append_nil] at h)
        (digits_number digits) (digits_short digits short)) fun more _ => digits.first more
    have whole := (@runs_word _ ['e'] (isWord_ascii (by decide))).append behind
      fun more _ d head => by
        cases head
        exact other
    refine whole.mono ?_ fun _ delimited d first => (delimited.apart d first).1
    rintro kinds ⟨_, _, rfl, first, second⟩
    exact first.append (Balanced.both second)
  obtain rfl | rfl | rfl := signed
  · exact apart ((isWordChar_ascii (by decide)).trans (by decide))
      (runs_before_digit (by decide) rfl (by decide) rfl)
  · -- the letter and the digits are one word
    have ascii : ∀ d ∈ 'e' :: ds, (d.isAlpha || d.isDigit) = true ∧ d.toNat < 128 := by
      intro d member
      rcases List.mem_cons.mp member with rfl | member
      · decide
      · have digit := digits.all d member
        have bounds := isDigit_iff.mp digit
        exact ⟨by rw [digit, Bool.or_true], by omega⟩
    have word : IsWord (String.ofList ('e' :: ds)) := by
      refine ⟨⟨'e', by rw [String.toList_ofList]; rfl, ?_⟩, ?_⟩
      · rw [RustStd.isAlphabetic_ascii 'e' (by decide)]
        decide
      · rw [String.toList_ofList]
        intro d member
        obtain ⟨letter, small⟩ := ascii d member
        rw [isWordChar_ascii small]
        simp only [Bool.or_eq_true] at letter ⊢
        exact .inl letter
    exact (runs_word word).mono (fun _ own => own) fun _ delimited d first =>
      (delimited.apart d first).2
  · exact apart ((isWordChar_ascii (by decide)).trans (by decide)) (runs_sign (.inr rfl))

/-- The lexer reads a decimal fraction. -/
theorem runs_decimal {text : List Char} (h : IsDecimal text) :
    RunsOver Delimited text Balanced := by
  obtain ⟨sign, whole, frac, exp, rfl, signed, digits, fraction, exponent⟩ := h
  have number : RunsOver (Heads fun d => Guard.isNumberChar d = false)
      (whole ++ frac) Balanced := by
    obtain ⟨rfl, single⟩ | ⟨ds, rfl, more⟩ := fraction
    · rw [List.append_nil]
      refine runs_number (digits.first [] |>.imp fun c h => by rwa [List.append_nil] at h)
        (digits_number digits) (digits_short digits (by omega))
    · refine runs_number (digits.first _) ?_ (numberKind_point digits more)
      intro d member
      rcases List.mem_append.mp member with member | member
      · exact digits_number digits d member
      · rcases List.mem_cons.mp member with rfl | member
        · decide
        · exact digits_number more d member
  have ends : ∀ more, Delimited more →
      Heads (fun d => Guard.isNumberChar d = false) (exp ++ more) := by
    intro more delimited d head
    obtain rfl | ⟨_, _, rfl, _⟩ := exponent
    · exact (delimited.apart d head).1
    · cases head
      decide
  have front :=
      (runs_sign signed).append (number.append (runs_exponent exponent) ends) fun more _ => by
    rw [List.append_assoc, List.append_assoc]
    exact digits.first _
  rw [List.append_assoc] at front
  refine front.mono ?_ fun _ delimited => delimited
  rintro kinds ⟨_, _, rfl, first, second⟩
  exact first.append (Balanced.both second)

section

variable [FloatText]

/-- The lexer reads a number, if it is a float or fits. -/
theorem number_text_readsIff (n : JsonNumber) : ReadsIff Delimited n.text n.Fits Balanced := by
  cases n with
  | posInt n =>
      have whole := digits_readsIff (digits_decimalDigits n.toNat)
      rw [digitsToNat_decimalDigits] at whole
      exact whole
  | negInt n =>
      have digits := digits_decimalDigits n.toInt.natAbs
      have whole := digits_readsIff digits
      rw [digitsToNat_decimalDigits] at whole
      rw [JsonNumber.text]
      split
      · refine ((runs_sign (.inr rfl)).readsIff.append whole (fun more _ => digits.first more)
          digits.outside).mono (and_iff_right trivial) (fun _ own =>
            Balanced.both own) fun _ fits => fits
      · exact whole
  | float f =>
      rw [JsonNumber.text]
      split
      · next finite => exact (runs_decimal (FloatText.decimal f finite)).readsIff
      · exact (runs_letters (by decide)).readsIff

/-! ## Strings -/

omit [FloatText] in
/-- A string ends at the next quote, escaped or not. -/
theorem lexStep_string {cur : Cursor} {body more : List Char} (none_in : '"' ∉ body)
    (line : '\n' ∉ body) :
    lexStep cur '"' (body ++ '"' :: more) = .ok ⟨some (cur.token (.string (String.ofList body))
      ('"' :: body ++ ['"'])), cur.past ('"' :: body ++ ['"']), more⟩ := by
  have inside : ∀ d ∈ body, decide (d ≠ '"') = true := by
    intro d member
    rw [decide_eq_true_eq]
    rintro rfl
    exact none_in member
  have taken : (body ++ '"' :: more).takeWhile (· ≠ '"') = body := by
    rw [List.takeWhile_append_of_pos inside, List.takeWhile_cons_of_neg (by decide),
      List.append_nil]
  have dropped : (body ++ '"' :: more).dropWhile (· ≠ '"') = '"' :: more := by
    rw [List.dropWhile_append_of_pos inside, List.dropWhile_cons_of_neg (by decide)]
  have read : nextLexeme '"' (body ++ '"' :: more) =
      .ok ⟨.string (String.ofList body), '"' :: body ++ ['"'], more⟩ := by
    rw [nextLexeme, if_pos (by decide)]
    simp only [taken, if_neg line, dropped]
  rw [lexStep, if_neg (by simp), if_neg (by decide), if_neg (by decide), read]

omit [FloatText] in
/-- The lexer reads a string without quotes; of another one it takes the front, and is lost. -/
theorem jsonString_readsIff (s : String) :
    ReadsIff (fun _ => True) (jsonString s) ('"' ∉ s.toList) Balanced := by
  have text : ∀ more, jsonString s ++ more = '"' :: (s.toList.flatMap escape ++ '"' :: more) := by
    intro more
    rw [jsonString, List.cons_append, List.append_assoc, List.singleton_append]
  constructor
  · intro none_in
    refine ⟨[.string (String.ofList (s.toList.flatMap escape))],
      balanced_single rfl, fun cur more _ => ?_⟩
    rw [text]
    have turned := @lexStep_string _ cur _ more (not_mem_escaped none_in)
      (content_escaped s.toList).line
    exact ⟨_, _, .step turned (.refl _ more), rfl⟩
  · intro cur cur' q back toks _ outside run member
    obtain ⟨front, rest, split, none_in⟩ := List.eq_append_cons_of_mem member
    have body : s.toList.flatMap escape ++ '"' :: (q ++ '}' :: back) =
        (front.flatMap escape ++ ['\\']) ++ '"' ::
          ((rest.flatMap escape ++ '"' :: q) ++ '}' :: back) := by
      rw [split, List.flatMap_append, List.flatMap_cons]
      simp [escape]
    have quotes : '"' ∉ front.flatMap escape ++ ['\\'] := by simpa using not_mem_escaped none_in
    have lines : '\n' ∉ front.flatMap escape ++ ['\\'] := by
      simpa using (content_escaped front).line
    rw [text, body] at run
    generalize whole : '"' :: ((front.flatMap escape ++ ['\\']) ++ '"' ::
      ((rest.flatMap escape ++ '"' :: q) ++ '}' :: back)) = input at run
    generalize stop : '}' :: back = last at run
    cases run with
    | refl =>
        rw [← stop] at whole
        cases (List.cons.inj whole).1
    | step turned later =>
        obtain ⟨rfl, rfl⟩ := List.cons.inj whole
        cases (lexStep_string quotes lines).symm.trans turned
        rw [← stop] at later
        exact stray_lost ⟨_, q, content_escaped rest, outside, rfl⟩ later

/-! ## Values -/

omit [FloatText] in
theorem runs_bracket {c : Char} {kind : TokenKind} (ascii : c.toNat < 128)
    (single : singleKind c = .ok kind)
    (other : c ≠ '/') (alone : ∀ d, pairKind c d = none) :
    RunsOver (fun _ => True) [c] (· = [kind]) :=
  (runs_symbol ascii single other).mono (fun _ own => own) fun _ _ d _ => alone d

omit [FloatText] in
theorem runs_punctuation {c : Char} {kind : TokenKind} (ascii : c.toNat < 128)
    (single : singleKind c = .ok kind) (other : c ≠ '/') (alone : ∀ d, pairKind c d = none)
    (plain : kind.isEdge = false) : RunsOver (fun _ => True) [c] Balanced := by
  refine (runs_bracket ascii single other alone).mono ?_ fun _ fits => fits
  rintro kinds rfl
  exact balanced_single plain

omit [FloatText] in
theorem runs_separator (first : Bool) : RunsOver (fun _ => True) (separator first) Balanced := by
  cases first with
  | true => exact ⟨[], .nil, fun cur more _ => ⟨[], cur, .refl cur more, rfl⟩⟩
  | false => exact runs_punctuation (by decide) rfl (by decide) (fun _ => rfl) rfl

omit [RustStd] in
theorem delimited_items (xs : List JsonValue) {more : List Char} (h : Delimited more) :
    Delimited (compactItems false xs ++ more) := by
  cases xs with
  | nil => exact h
  | cons x xs =>
      intro d head
      cases head
      exact .inl rfl

omit [RustStd] in
theorem delimited_entries (es : List (String × JsonValue)) {more : List Char} (h : Delimited more) :
    Delimited (compactEntries false es ++ more) := by
  cases es with
  | nil => exact h
  | cons e es =>
      intro d head
      cases head
      exact .inl rfl

omit [RustStd] [FloatText] in
theorem delimited_bracket {c : Char} (bracket : c = ']' ∨ c = '}') (more : List Char) :
    Delimited ([c] ++ more) := by
  intro d head
  cases head
  exact .inr bracket

omit [FloatText] in
theorem runs_nothing {F : List Char → Prop} : RunsOver F [] Balanced :=
  ⟨[], .nil, fun cur more _ => ⟨[], cur, .refl cur more, rfl⟩⟩

theorem items_readsIff {xs : List JsonValue}
    (h : ∀ x ∈ xs, ReadsIff Delimited (compact x) x.Portable Balanced)
    (first : Bool) : ReadsIff Delimited (compactItems first xs)
    (JsonValue.PortableItems xs) Balanced := by
  induction xs generalizing first with
  | nil => exact runs_nothing.readsIff
  | cons x xs ih =>
      have tail := ih (fun y member => h y (List.mem_cons_of_mem x member)) false
      have outside := outside_items (fun y (_ : y ∈ xs) => outside_compact y) false
      have rest := (h x List.mem_cons_self).append tail (fun _ own =>
        delimited_items xs own) outside
      refine ((runs_separator first).readsIff.append rest (fun _ _ => trivial)
        ((outside_compact x).append outside)).mono (and_iff_right trivial) ?_ fun _ own => own
      rintro kinds ⟨_, _, rfl, own, second⟩
      exact own.append (Balanced.both second)

theorem entries_readsIff {map : List (String × JsonValue)}
    (h : ∀ e ∈ map, ReadsIff Delimited (compact e.2) e.2.Portable Balanced) (first : Bool) :
    ReadsIff Delimited (compactEntries first map) (JsonValue.PortableEntries map) Balanced := by
  induction map generalizing first with
  | nil => exact runs_nothing.readsIff
  | cons e map ih =>
      obtain ⟨key, x⟩ := e
      have tail := ih (fun y member => h y (List.mem_cons_of_mem _ member)) false
      have outside := outside_entries (fun y (_ : y ∈ map) => outside_compact y.2) false
      have colon := @runs_punctuation _ ':' .colon (by decide) rfl (by decide) (fun _ => rfl) rfl
      have value := (colon.readsIff.append (h (key, x) List.mem_cons_self) (fun _ _ => trivial)
        (outside_compact x)).mono (and_iff_right trivial) (fun _ own =>
          Balanced.both own) fun _ own => own
      have entry := ((jsonString_readsIff key).append value (fun _ _ => trivial)
        (.bare (by decide) (outside_compact x))).mono Iff.rfl (fun _ own =>
          Balanced.both own) fun _ own => own
      have rest := entry.append tail (fun _ own => delimited_entries map own) outside
      refine ((runs_separator first).readsIff.append rest (fun _ _ => trivial) ?_).mono
        (and_iff_right trivial) ?_ fun _ own => own
      · exact ((outside_jsonString key).append (.bare (by decide) (outside_compact x))).append
          outside
      · rintro kinds ⟨_, _, rfl, own, second⟩
        exact own.append (Balanced.both second)

/-- An object up to its last brace. -/
theorem object_readsIff {map : List (String × JsonValue)}
    (h : ∀ e ∈ map, ReadsIff Delimited (compact e.2) e.2.Portable Balanced) :
    ReadsIff Delimited ('{' :: compactEntries true map) (JsonValue.PortableEntries map)
      (Both (· = [.lBrace]) Balanced) := by
  have opening := @runs_bracket _ '{' .lBrace (by decide) rfl (by decide) fun _ => rfl
  have outside := outside_entries (fun y (_ : y ∈ map) => outside_compact y.2) true
  exact (opening.readsIff.append (entries_readsIff h true) (fun _ _ => trivial) outside).mono
    (and_iff_right trivial) (fun _ own => own) fun _ own => own

/-- The lexer reads the text of a value, as far as the value is portable. -/
theorem compact_readsIff (v : JsonValue) : ReadsIff Delimited (compact v) v.Portable Balanced := by
  induction v using JsonValue.induct with
  | null => exact (@runs_letters _ ['n', 'u', 'l', 'l'] (by decide)).readsIff
  | bool b =>
      cases b with
      | true => exact (@runs_letters _ ['t', 'r', 'u', 'e'] (by decide)).readsIff
      | false => exact (@runs_letters _ ['f', 'a', 'l', 's', 'e'] (by decide)).readsIff
  | number n => exact number_text_readsIff n
  | string s => exact (jsonString_readsIff s).mono Iff.rfl (fun _ own => own) fun _ _ => trivial
  | array xs inside =>
      have opening :=
        @runs_punctuation _ '[' .lBracket (by decide) rfl (by decide) (fun _ => rfl) rfl
      have closing :=
        @runs_punctuation _ ']' .rBracket (by decide) rfl (by decide) (fun _ => rfl) rfl
      have outside := outside_items (fun y (_ : y ∈ xs) => outside_compact y) true
      have rest := (items_readsIff inside true).append closing.readsIff
        (fun more _ => delimited_bracket (.inl rfl) more) (.bare (by decide) .nil)
      refine (opening.readsIff.append rest (fun _ _ => trivial)
        (outside.append (.bare (by decide) .nil))).mono
        ((and_iff_right trivial).trans (and_iff_left trivial)) ?_ fun _ _ => trivial
      rintro kinds ⟨_, _, rfl, first, second⟩
      exact first.append (Balanced.both second)
  | object map inside =>
      have closing := @runs_bracket _ '}' .rBrace (by decide) rfl (by decide) fun _ => rfl
      refine ((object_readsIff inside).append closing.readsIff
        (fun more _ => delimited_bracket (.inr rfl) more) (.bare (by decide) .nil)).mono
        (and_iff_left trivial) ?_ fun _ _ => trivial
      rintro kinds ⟨_, _, rfl, ⟨_, inner, rfl, rfl, balanced⟩, rfl⟩
      exact balanced.block

end

end SignalTopology.Ddl
