import SignalTopology.Guard.Lexer

/-!
# Guard parser

The parser state is the list of tokens from the current position on. As in the
source, `advance` never moves past the last token, so the list stays non-empty.
The recursion of the source is bounded only by the text; here a fuel argument
bounds its depth, and `parse` supplies more than any derivation uses.
-/

namespace SignalTopology.Guard

inductive BinaryOp where
  | add | sub | mul | div | eq | neq | lt | lte | gt | gte | and | or
  deriving DecidableEq

inductive UnaryOp where
  | not | neg
  deriving DecidableEq

inductive Literal where
  | integer (v : Int64)
  | float (v : Float)
  | string (s : String)
  | bool (b : Bool)
  deriving DecidableEq

inductive Expr where
  | binary (left : Expr) (op : BinaryOp) (right : Expr)
  | unary (op : UnaryOp) (expr : Expr)
  | literal (lit : Literal)
  | payloadAccess (path : List String)
  | identifier (name : String)
  deriving DecidableEq

/-- The token at the current position. -/
def peek (ts : List Token) : Token := ts.headD .eof

/-- Move to the next token, except at the last one. -/
def advance : List Token → List Token
  | _ :: t :: ts => t :: ts
  | ts => ts

/-- The failure of a run that a larger fuel would continue. -/
def outOfFuel : String := "guard parser out of fuel"

variable [RustStd]

/-- Consume one given token. -/
def expect (token : Token) (ts : List Token) : Except String (List Token) :=
  if peek ts = token then .ok (advance ts)
  else .error ("Expected " ++ token.debug ++ ", found " ++ (peek ts).debug)

/-- The segments after the first of a dotted path: every `.` needs a name. -/
def parsePath (ts : List Token) : Except String (List String × List Token) :=
  match ts with
  | .dot :: .identifier part :: rest =>
      match rest with
      | [] => .ok ([part], [.identifier part])
      | _ :: _ =>
          match parsePath rest with
          | .ok (parts, rest) => .ok (part :: parts, rest)
          | .error e => .error e
  | .dot :: rest =>
      .error ("Expected identifier after '.', found " ++ (peek (advance (.dot :: rest))).debug)
  | ts => .ok ([], ts)

mutual

def parseOr : Nat → List Token → Except String (Expr × List Token)
  | 0, _ => .error outOfFuel
  | fuel + 1, ts => do
      let (left, ts) ← parseAnd fuel ts
      parseOrLoop fuel left ts

def parseOrLoop : Nat → Expr → List Token → Except String (Expr × List Token)
  | 0, _, _ => .error outOfFuel
  | fuel + 1, left, ts =>
      if peek ts = .or then do
        let (right, ts) ← parseAnd fuel (advance ts)
        parseOrLoop fuel (.binary left .or right) ts
      else .ok (left, ts)

def parseAnd : Nat → List Token → Except String (Expr × List Token)
  | 0, _ => .error outOfFuel
  | fuel + 1, ts => do
      let (left, ts) ← parseComparison fuel ts
      parseAndLoop fuel left ts

def parseAndLoop : Nat → Expr → List Token → Except String (Expr × List Token)
  | 0, _, _ => .error outOfFuel
  | fuel + 1, left, ts =>
      if peek ts = .and then do
        let (right, ts) ← parseComparison fuel (advance ts)
        parseAndLoop fuel (.binary left .and right) ts
      else .ok (left, ts)

def parseComparison : Nat → List Token → Except String (Expr × List Token)
  | 0, _ => .error outOfFuel
  | fuel + 1, ts => do
      let (left, ts) ← parseAddition fuel ts
      let comparison (op : BinaryOp) : Except String (Expr × List Token) := do
        let (right, ts) ← parseAddition fuel (advance ts)
        .ok (.binary left op right, ts)
      match peek ts with
      | .eq => comparison .eq
      | .neq => comparison .neq
      | .lt => comparison .lt
      | .lte => comparison .lte
      | .gt => comparison .gt
      | .gte => comparison .gte
      | _ => .ok (left, ts)

def parseAddition : Nat → List Token → Except String (Expr × List Token)
  | 0, _ => .error outOfFuel
  | fuel + 1, ts => do
      let (left, ts) ← parseMultiplication fuel ts
      parseAdditionLoop fuel left ts

def parseAdditionLoop : Nat → Expr → List Token → Except String (Expr × List Token)
  | 0, _, _ => .error outOfFuel
  | fuel + 1, left, ts =>
      let operand (op : BinaryOp) : Except String (Expr × List Token) := do
        let (right, ts) ← parseMultiplication fuel (advance ts)
        parseAdditionLoop fuel (.binary left op right) ts
      match peek ts with
      | .plus => operand .add
      | .minus => operand .sub
      | _ => .ok (left, ts)

def parseMultiplication : Nat → List Token → Except String (Expr × List Token)
  | 0, _ => .error outOfFuel
  | fuel + 1, ts => do
      let (left, ts) ← parseUnary fuel ts
      parseMultiplicationLoop fuel left ts

def parseMultiplicationLoop : Nat → Expr → List Token → Except String (Expr × List Token)
  | 0, _, _ => .error outOfFuel
  | fuel + 1, left, ts =>
      let operand (op : BinaryOp) : Except String (Expr × List Token) := do
        let (right, ts) ← parseUnary fuel (advance ts)
        parseMultiplicationLoop fuel (.binary left op right) ts
      match peek ts with
      | .mul => operand .mul
      | .div => operand .div
      | _ => .ok (left, ts)

def parseUnary : Nat → List Token → Except String (Expr × List Token)
  | 0, _ => .error outOfFuel
  | fuel + 1, ts =>
      match peek ts with
      | .not => do
          let (expr, ts) ← parseUnary fuel (advance ts)
          .ok (.unary .not expr, ts)
      | .minus => do
          let (expr, ts) ← parseUnary fuel (advance ts)
          .ok (.unary .neg expr, ts)
      | _ => parsePrimary fuel ts

def parsePrimary : Nat → List Token → Except String (Expr × List Token)
  | 0, _ => .error outOfFuel
  | fuel + 1, ts =>
      match peek ts with
      | .integer v => .ok (.literal (.integer v), advance ts)
      | .float v => .ok (.literal (.float v), advance ts)
      | .string s => .ok (.literal (.string s), advance ts)
      | .bool b => .ok (.literal (.bool b), advance ts)
      | .lParen => do
          let (expr, ts) ← parseOr fuel (advance ts)
          let ts ← expect .rParen ts
          .ok (expr, ts)
      | .identifier name =>
          if peek (advance ts) = .dot then do
            let (parts, ts) ← parsePath (advance ts)
            if name = "payload" then .ok (.payloadAccess parts, ts)
            else .ok (.identifier (String.intercalate "." (name :: parts)), ts)
          else .ok (.identifier name, advance ts)
      | other => .error ("Unexpected token: " ++ other.debug)

end

/-- `guard::parser::parse`. One token is read at most by a chain of eight calls. -/
def parse (tokens : List Token) : Except String Expr := do
  let (expr, ts) ← parseOr (8 * tokens.length + 8) tokens
  if peek ts = .eof then .ok expr
  else .error ("Unexpected token after expression: " ++ (peek ts).debug)

end SignalTopology.Guard
