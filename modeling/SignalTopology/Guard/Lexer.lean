import SignalTopology.Platform

/-!
# Guard lexer

`tokenize` walks the characters of a guard once. Each step either skips a blank
or reads one token with `nextToken`, which returns what is left of the text.
-/

namespace SignalTopology.Guard

/-- The tokens of the guard language. -/
inductive Token where
  | integer (v : Int64)
  | float (v : Float)
  | string (s : String)
  | bool (b : Bool)
  | identifier (s : String)
  | and | or | not
  | eq | neq | lt | lte | gt | gte
  | plus | minus | mul | div
  | lParen | rParen | dot
  | eof
  deriving DecidableEq

/-- A character of a number literal. -/
def isNumberChar (c : Char) : Bool := c.isDigit || c = '.'

/-- The token of a maximal run of digits and decimal points. -/
def number (run : List Char) : Except String Token :=
  if 1 < run.count '.' then .error "Invalid number with multiple decimal points"
  else if '.' ∈ run then .ok (.float (parseF64 run))
  else
    match parseI64 run with
    | some v => .ok (.integer v)
    | none => .error "Invalid integer: number too large to fit in target type"

/-- The token of a maximal run of word characters. -/
def word (run : List Char) : Token :=
  match String.ofList run with
  | "and" => .and
  | "or" => .or
  | "not" => .not
  | "true" => .bool true
  | "false" => .bool false
  | s => .identifier s

def unexpected (c : Char) : String := "Unexpected character: " ++ c.toString

/-- The operator or bracket that starts with `c`, and the text after it. -/
def symbol (c : Char) (cs : List Char) : Except String (Token × List Char) :=
  match c, cs with
  | '(', _ => .ok (.lParen, cs)
  | ')', _ => .ok (.rParen, cs)
  | '.', _ => .ok (.dot, cs)
  | '+', _ => .ok (.plus, cs)
  | '-', _ => .ok (.minus, cs)
  | '*', _ => .ok (.mul, cs)
  | '/', _ => .ok (.div, cs)
  | '<', '=' :: rest => .ok (.lte, rest)
  | '<', _ => .ok (.lt, cs)
  | '>', '=' :: rest => .ok (.gte, rest)
  | '>', _ => .ok (.gt, cs)
  | '!', '=' :: rest => .ok (.neq, rest)
  | '=', '=' :: rest => .ok (.eq, rest)
  | c, _ => .error (unexpected c)

private theorem length_dropWhile_cons_le {p : Char → Bool} {c : Char} {cs : List Char}
    (first : p c = true) : ((c :: cs).dropWhile p).length ≤ cs.length := by
  rw [List.dropWhile_cons_of_pos first]
  exact (List.dropWhile_suffix p).length_le

theorem symbol_length_le {c : Char} {cs rest : List Char} {token : Token}
    (h : symbol c cs = .ok (token, rest)) : rest.length ≤ cs.length := by
  unfold symbol at h
  split at h <;> simp only [Except.ok.injEq, Prod.mk.injEq, reduceCtorEq] at h <;>
    (obtain ⟨_, rfl⟩ := h; simp)

variable [RustStd]

/-- The derived `{:?}` text of a token. -/
def Token.debug : Token → String
  | integer v => "Integer(" ++ toString v.toInt ++ ")"
  | float v => "Float(" ++ RustStd.debugF64 v ++ ")"
  | string s => "String(" ++ RustStd.debugStr s ++ ")"
  | bool b => "Bool(" ++ (if b then "true" else "false") ++ ")"
  | identifier s => "Identifier(" ++ RustStd.debugStr s ++ ")"
  | and => "And" | or => "Or" | not => "Not"
  | eq => "Eq" | neq => "Neq" | lt => "Lt" | lte => "Lte" | gt => "Gt" | gte => "Gte"
  | plus => "Plus" | minus => "Minus" | mul => "Mul" | div => "Div"
  | lParen => "LParen" | rParen => "RParen" | dot => "Dot"
  | eof => "Eof"

/-- A character of an identifier after its first. -/
def isWordChar (c : Char) : Bool := isAlphanumeric c || c = '_'

/-- The token at the non-blank character `c`, and the text after it. -/
def nextToken (c : Char) (cs : List Char) : Except String (Token × List Char) :=
  if c = '\'' then
    match cs.dropWhile (· ≠ '\'') with
    | [] => .error "Unterminated string literal"
    | _ :: rest => .ok (.string (String.ofList (cs.takeWhile (· ≠ '\''))), rest)
  else if c.isDigit || (c = '.' && (cs.head?.map Char.isDigit).getD false) then
    match number ((c :: cs).takeWhile isNumberChar) with
    | .ok token => .ok (token, (c :: cs).dropWhile isNumberChar)
    | .error e => .error e
  else if RustStd.isAlphabetic c || c = '_' then
    .ok (word ((c :: cs).takeWhile isWordChar), (c :: cs).dropWhile isWordChar)
  else symbol c cs

/-- Reading a token uses up its first character. -/
theorem nextToken_length_le {c : Char} {cs rest : List Char} {token : Token}
    (h : nextToken c cs = .ok (token, rest)) : rest.length ≤ cs.length := by
  unfold nextToken at h
  split at h
  · split at h
    · cases h
    · next quote tail dropped =>
        cases h
        have shorter := (List.dropWhile_suffix (l := cs) (· ≠ '\'')).length_le
        rw [dropped, List.length_cons] at shorter
        omega
  · split at h
    · next numeric =>
        split at h
        · cases h
          apply length_dropWhile_cons_le
          simp only [isNumberChar, Bool.or_eq_true, decide_eq_true_eq]
          simp only [Bool.or_eq_true, Bool.and_eq_true, decide_eq_true_eq] at numeric
          exact numeric.imp_right And.left
        · cases h
    · split at h
      · next alphabetic =>
          cases h
          apply length_dropWhile_cons_le
          simp only [isWordChar, isAlphanumeric, Bool.or_eq_true, decide_eq_true_eq]
          simp only [Bool.or_eq_true, decide_eq_true_eq] at alphabetic
          exact alphabetic.imp_left Or.inl
      · exact symbol_length_le h

/-- The tokens of `chars`, ending in `eof`. -/
def tokenizeChars (chars : List Char) : Except String (List Token) :=
  match chars with
  | [] => .ok [.eof]
  | c :: cs =>
      if isWhitespace c then tokenizeChars cs
      else
        match _ : nextToken c cs with
        | .error e => .error e
        | .ok (token, rest) =>
            match tokenizeChars rest with
            | .ok tokens => .ok (token :: tokens)
            | .error e => .error e
termination_by chars.length
decreasing_by
  · simp
  · next h => exact Nat.lt_succ_of_le (nextToken_length_le h)

/-- `guard::lexer::tokenize`. -/
def tokenize (input : String) : Except String (List Token) := tokenizeChars input.toList

end SignalTopology.Guard
