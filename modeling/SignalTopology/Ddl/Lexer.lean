import SignalTopology.Guard.Lexer

/-!
# DDL lexer

`tokenize` walks the characters of a source once. Each step skips a comment or a
blank or reads one lexeme with `nextLexeme`. A token keeps the byte span it was
read from, by which the parser later cuts guards and payloads out of the source.
-/

namespace SignalTopology.Ddl

/-- Token kinds: literals, keywords, symbols, and the operators of guards. -/
inductive TokenKind where
  | identifier (s : String)
  | string (s : String)
  | integer (v : Int64)
  | float (v : Float)
  | bool (b : Bool)
  | signal | states | initial | «on» | «from» | «to» | params | «when» | reaction | enters | «with»
  | onExit | onTransition | onEnter | onFail | guard | fork | join
  | component | port | instantiate | connect | «as»
  | and | or | not
  | lBracket | rBracket | lBrace | rBrace | lParen | rParen | arrow | colon | comma | dot
  | plus | minus | mul | div | eq | neq | lt | lte | gt | gte
  | eof
  deriving DecidableEq

/-- A token with its place: line and column of its first character, and its span
in bytes. -/
structure Token where
  kind : TokenKind
  line : Nat
  col : Nat
  start : Nat
  len : Nat
  deriving DecidableEq

/-- The number of bytes of a text. -/
def byteLen : List Char → Nat
  | [] => 0
  | c :: cs => c.utf8Size + byteLen cs

@[simp] theorem byteLen_nil : byteLen [] = 0 := rfl

@[simp] theorem byteLen_cons (c : Char) (cs : List Char) :
    byteLen (c :: cs) = c.utf8Size + byteLen cs := rfl

@[simp] theorem byteLen_append (cs ds : List Char) :
    byteLen (cs ++ ds) = byteLen cs + byteLen ds := by
  induction cs with
  | nil => simp
  | cons c cs ih =>
      rw [List.cons_append, byteLen_cons, byteLen_cons, ih]
      omega

/-- Where the lexer is: characters and bytes read, and the place in the text. -/
structure Cursor where
  index : Nat
  pos : Nat
  line : Nat
  col : Nat

namespace Cursor

def start : Cursor := ⟨0, 0, 1, 1⟩

/-- After the characters of a lexeme or after a blank. -/
def past (cur : Cursor) (text : List Char) : Cursor :=
  { cur with index := cur.index + text.length, pos := cur.pos + byteLen text
             col := cur.col + text.length }

/-- After a newline. -/
def newline (cur : Cursor) : Cursor :=
  { index := cur.index + 1, pos := cur.pos + 1, line := cur.line + 1, col := 1 }

/-- After the text of a comment, which leaves the column where it was. -/
def comment (cur : Cursor) (text : List Char) : Cursor :=
  { cur with index := cur.index + text.length, pos := cur.pos + byteLen text }

/-- A message with the place it is about. -/
def error (cur : Cursor) (message : String) : String :=
  "line " ++ toString cur.line ++ " col " ++ toString cur.col ++ ": " ++ message

/-- The token of a lexeme that starts here. -/
def token (cur : Cursor) (kind : TokenKind) (text : List Char) : Token :=
  ⟨kind, cur.line, cur.col, cur.pos, byteLen text⟩

/-- The last token. Its start counts characters, not bytes. -/
def eof (cur : Cursor) : Token := ⟨.eof, cur.line, cur.col, cur.index, 0⟩

end Cursor

/-- A lexeme, its characters, and the text after it. -/
structure Lexeme where
  kind : TokenKind
  text : List Char
  rest : List Char

/-- The characters between tokens, newlines aside. -/
def isBlank (c : Char) : Bool := c = ' ' || c = '\t' || c = '\r'

/-- The kind of a maximal run of word characters. -/
def wordKind (run : List Char) : TokenKind :=
  match String.ofList run with
  | "signal" => .signal
  | "states" => .states
  | "initial" => .initial
  | "on" => .on
  | "from" => .from
  | "to" => .to
  | "params" => .params
  | "when" => .when
  | "reaction" => .reaction
  | "enters" => .enters
  | "with" => .with
  | "on_exit" => .onExit
  | "on_transition" => .onTransition
  | "on_enter" => .onEnter
  | "on_fail" => .onFail
  | "guard" => .guard
  | "fork" => .fork
  | "join" => .join
  | "component" => .component
  | "port" => .port
  | "instantiate" => .instantiate
  | "connect" => .connect
  | "as" => .as
  | "and" => .and
  | "or" => .or
  | "not" => .not
  | "true" => .bool true
  | "false" => .bool false
  | s => .identifier s

/-- The kind of a maximal run of digits and decimal points. -/
def numberKind (run : List Char) : Except String TokenKind :=
  if 1 < run.count '.' then .error "number with multiple decimal points"
  else if '.' ∈ run then .ok (.float (parseF64 run))
  else
    match parseI64 run with
    | some v => .ok (.integer v)
    | none => .error "invalid integer literal"

def unterminated : String := "unterminated string literal"

def unexpected (c : Char) : String := "unexpected character '" ++ c.toString ++ "'"

/-- The operators of two characters. -/
def pairKind : Char → Char → Option TokenKind
  | '-', '>' => some .arrow
  | '>', '=' => some .gte
  | '<', '=' => some .lte
  | '!', '=' => some .neq
  | '=', '=' => some .eq
  | _, _ => none

/-- The symbols of one character. -/
def singleKind : Char → Except String TokenKind
  | '[' => .ok .lBracket
  | ']' => .ok .rBracket
  | '{' => .ok .lBrace
  | '}' => .ok .rBrace
  | '(' => .ok .lParen
  | ')' => .ok .rParen
  | ':' => .ok .colon
  | ',' => .ok .comma
  | '.' => .ok .dot
  | '+' => .ok .plus
  | '*' => .ok .mul
  | '/' => .ok .div
  | '-' => .ok .minus
  | '>' => .ok .gt
  | '<' => .ok .lt
  | '=' => .error "unexpected character '=' (did you mean '=='?)"
  | c => .error (unexpected c)

/-- A symbol or operator, of two characters where both fit. -/
def symbol (c : Char) (cs : List Char) : Except String Lexeme :=
  match cs.head?.bind (pairKind c) with
  | some kind => .ok ⟨kind, c :: cs.take 1, cs.drop 1⟩
  | none =>
      match singleKind c with
      | .ok kind => .ok ⟨kind, [c], cs⟩
      | .error e => .error e

theorem symbol_text {c : Char} {cs : List Char} {lexeme : Lexeme}
    (h : symbol c cs = .ok lexeme) :
    c :: cs = lexeme.text ++ lexeme.rest ∧ lexeme.text ≠ [] := by
  unfold symbol at h
  split at h
  · cases h
    exact ⟨congrArg (c :: ·) (List.take_append_drop 1 cs).symm, List.cons_ne_nil _ _⟩
  · split at h
    · cases h
      exact ⟨rfl, List.cons_ne_nil _ _⟩
    · cases h

section

variable [RustStd]

/-- The derived `{:?}` text of a kind. -/
def TokenKind.debug : TokenKind → String
  | identifier s => "Identifier(" ++ RustStd.debugStr s ++ ")"
  | string s => "String(" ++ RustStd.debugStr s ++ ")"
  | integer v => "Integer(" ++ toString v.toInt ++ ")"
  | float v => "Float(" ++ RustStd.debugF64 v ++ ")"
  | bool b => "Bool(" ++ (if b then "true" else "false") ++ ")"
  | signal => "Signal" | states => "States" | initial => "Initial" | «on» => "On"
  | «from» => "From" | «to» => "To" | params => "Params" | «when» => "When"
  | reaction => "Reaction" | enters => "Enters" | «with» => "With"
  | onExit => "OnExit" | onTransition => "OnTransition" | onEnter => "OnEnter"
  | onFail => "OnFail" | guard => "Guard" | fork => "Fork" | join => "Join"
  | component => "Component" | port => "Port" | instantiate => "Instantiate"
  | connect => "Connect" | «as» => "As" | and => "And" | or => "Or" | not => "Not"
  | lBracket => "LBracket" | rBracket => "RBracket" | lBrace => "LBrace" | rBrace => "RBrace"
  | lParen => "LParen" | rParen => "RParen" | arrow => "Arrow" | colon => "Colon"
  | comma => "Comma" | dot => "Dot" | plus => "Plus" | minus => "Minus" | mul => "Mul"
  | div => "Div" | eq => "Eq" | neq => "Neq" | lt => "Lt" | lte => "Lte" | gt => "Gt"
  | gte => "Gte" | eof => "Eof"

/-- The lexeme at the character `c`, which is neither blank nor the start of a
comment. A string may not span lines. -/
def nextLexeme (c : Char) (cs : List Char) : Except String Lexeme :=
  if c = '\'' || c = '"' then
    let text := cs.takeWhile (· ≠ c)
    if '\n' ∈ text then .error unterminated
    else
      match cs.dropWhile (· ≠ c) with
      | [] => .error unterminated
      | quote :: rest => .ok ⟨.string (String.ofList text), c :: text ++ [quote], rest⟩
  else if c.isDigit then
    let run := (c :: cs).takeWhile Guard.isNumberChar
    match numberKind run with
    | .ok kind => .ok ⟨kind, run, (c :: cs).dropWhile Guard.isNumberChar⟩
    | .error e => .error e
  else if RustStd.isAlphabetic c || c = '_' then
    let run := (c :: cs).takeWhile Guard.isWordChar
    .ok ⟨wordKind run, run, (c :: cs).dropWhile Guard.isWordChar⟩
  else symbol c cs

/-- The four forms of a lexeme. -/
theorem nextLexeme_cases {c : Char} {cs : List Char} {lexeme : Lexeme}
    (h : nextLexeme c cs = .ok lexeme) :
    ((c = '\'' || c = '"') = true ∧ '\n' ∉ cs.takeWhile (· ≠ c) ∧
      cs.dropWhile (· ≠ c) = c :: lexeme.rest ∧
      lexeme.text = c :: (cs.takeWhile (· ≠ c) ++ [c]) ∧
      lexeme.kind = .string (String.ofList (cs.takeWhile (· ≠ c)))) ∨
    (¬ (c = '\'' || c = '"') = true ∧ c.isDigit = true ∧
      lexeme.text = (c :: cs).takeWhile Guard.isNumberChar ∧
      lexeme.rest = (c :: cs).dropWhile Guard.isNumberChar ∧
      numberKind lexeme.text = .ok lexeme.kind) ∨
    (¬ (c = '\'' || c = '"') = true ∧ ¬ c.isDigit = true ∧
      (RustStd.isAlphabetic c || c = '_') = true ∧
      lexeme.text = (c :: cs).takeWhile Guard.isWordChar ∧
      lexeme.rest = (c :: cs).dropWhile Guard.isWordChar ∧
      lexeme.kind = wordKind lexeme.text) ∨
    (¬ (c = '\'' || c = '"') = true ∧ ¬ c.isDigit = true ∧
      ¬ (RustStd.isAlphabetic c || c = '_') = true ∧ symbol c cs = .ok lexeme) := by
  unfold nextLexeme at h
  split at h
  · next quote =>
      dsimp only at h
      split at h
      · cases h
      · next inside =>
          split at h
          · cases h
          · next q rest dropped =>
              cases h
              have same : q = c := by
                have stopped := List.head?_dropWhile_not (fun d => decide (d ≠ c)) cs
                rw [dropped] at stopped
                simpa using stopped
              subst same
              exact .inl ⟨quote, inside, dropped, rfl, rfl⟩
  · next quote =>
      split at h
      · next digit =>
          dsimp only at h
          split at h
          · next kind read =>
              cases h
              exact .inr (.inl ⟨quote, digit, rfl, rfl, read⟩)
          · cases h
      · next digit =>
          split at h
          · next alphabetic =>
              cases h
              exact .inr (.inr (.inl ⟨quote, digit, alphabetic, rfl, rfl, rfl⟩))
          · next alphabetic => exact .inr (.inr (.inr ⟨quote, digit, alphabetic, h⟩))

omit [RustStd] in
theorem isNumberChar_of_digit {c : Char} (digit : c.isDigit = true) :
    Guard.isNumberChar c = true := by
  simp [Guard.isNumberChar, digit]

theorem isWordChar_of_alphabetic {c : Char}
    (alphabetic : (RustStd.isAlphabetic c || c = '_') = true) : Guard.isWordChar c = true := by
  simp only [Bool.or_eq_true, decide_eq_true_eq] at alphabetic
  simp only [Guard.isWordChar, isAlphanumeric, Bool.or_eq_true, decide_eq_true_eq]
  exact alphabetic.imp_left Or.inl

/-- A lexeme takes its characters from the front of the text, at least one. -/
theorem nextLexeme_text {c : Char} {cs : List Char} {lexeme : Lexeme}
    (h : nextLexeme c cs = .ok lexeme) :
    c :: cs = lexeme.text ++ lexeme.rest ∧ lexeme.text ≠ [] := by
  obtain ⟨_, _, dropped, text, _⟩ | ⟨_, digit, text, rest, _⟩ | ⟨_, _, alphabetic, text, rest, _⟩ |
    ⟨_, _, _, read⟩ := nextLexeme_cases h
  · have whole := List.takeWhile_append_dropWhile (p := fun d => decide (d ≠ c)) (l := cs)
    rw [dropped] at whole
    refine ⟨?_, text ▸ List.cons_ne_nil _ _⟩
    rw [text, List.cons_append, List.append_assoc, List.singleton_append, whole]
  · rw [text, rest]
    refine ⟨List.takeWhile_append_dropWhile.symm, ?_⟩
    rw [List.takeWhile_cons_of_pos (isNumberChar_of_digit digit)]
    exact List.cons_ne_nil _ _
  · rw [text, rest]
    refine ⟨List.takeWhile_append_dropWhile.symm, ?_⟩
    rw [List.takeWhile_cons_of_pos (isWordChar_of_alphabetic alphabetic)]
    exact List.cons_ne_nil _ _
  · exact symbol_text read

theorem nextLexeme_length {c : Char} {cs : List Char} {lexeme : Lexeme}
    (h : nextLexeme c cs = .ok lexeme) : lexeme.rest.length ≤ cs.length := by
  obtain ⟨whole, nonempty⟩ := nextLexeme_text h
  have length := congrArg List.length whole
  have positive := List.length_pos_of_ne_nil nonempty
  simp only [List.length_cons, List.length_append] at length
  omega

/-- What one turn of the loop reads: at most one token. -/
structure Step where
  token : Option Token
  cur : Cursor
  rest : List Char

/-- One turn of the loop at the character `c`. -/
def lexStep (cur : Cursor) (c : Char) (cs : List Char) : Except String Step :=
  if c = '/' ∧ cs.head? = some '/' then
    .ok ⟨none, cur.comment ((c :: cs).takeWhile (· ≠ '\n')), (c :: cs).dropWhile (· ≠ '\n')⟩
  else if isBlank c then .ok ⟨none, cur.past [c], cs⟩
  else if c = '\n' then .ok ⟨none, cur.newline, cs⟩
  else
    match nextLexeme c cs with
    | .error e => .error (cur.error e)
    | .ok lexeme =>
        .ok ⟨some (cur.token lexeme.kind lexeme.text), cur.past lexeme.text, lexeme.rest⟩

theorem lexStep_length {cur : Cursor} {c : Char} {cs : List Char} {step : Step}
    (h : lexStep cur c cs = .ok step) : step.rest.length ≤ cs.length := by
  unfold lexStep at h
  split at h
  · next comment =>
      cases h
      rw [List.dropWhile_cons_of_pos (by simp [comment.1])]
      exact (List.dropWhile_suffix _).length_le
  · split at h
    · cases h
      exact Nat.le_refl _
    · split at h
      · cases h
        exact Nat.le_refl _
      · split at h
        · cases h
        · next read =>
            cases h
            exact nextLexeme_length read

/-- The tokens of `chars`, read from `cur` on and ended by `eof`. -/
def tokenizeChars (cur : Cursor) (chars : List Char) : Except String (List Token) :=
  match chars with
  | [] => .ok [cur.eof]
  | c :: cs =>
      match _ : lexStep cur c cs with
      | .error e => .error e
      | .ok step =>
          match tokenizeChars step.cur step.rest with
          | .ok tokens => .ok (step.token.toList ++ tokens)
          | .error e => .error e
termination_by chars.length
decreasing_by
  next h => exact Nat.lt_succ_of_le (lexStep_length h)

/-- `ddl::lexer::tokenize`. -/
def tokenize (src : String) : Except String (List Token) := tokenizeChars .start src.toList

end

end SignalTopology.Ddl
