import Mathlib.Data.List.TakeWhile
import SignalTopology.Guard.Parser
import SignalTopology.Library.Fallible

/-!
# The guard grammar

The documented grammar of guards, in levels of precedence, and that the parser
accepts nothing else. The six functions of the parser with a loop or an operator
of their own are brought to one form, `goOn`, so that each argument about them is
made once for every level.
-/

namespace SignalTopology.Guard

open Fallible

/-! ## The grammar -/

/-- The levels of precedence, from the loosest. -/
inductive Level where
  | or | and | comparison | addition | multiplication | unary | primary
  deriving DecidableEq

namespace Level

/-- The level of a right operand. -/
def tighter : Level → Level
  | or => and
  | and => comparison
  | comparison => addition
  | addition => multiplication
  | multiplication => unary
  | unary | primary => primary

/-- The level of a left operand: only a comparison does not take another one. -/
def left : Level → Level
  | comparison => addition
  | level => level

end Level

/-- A binary operator, with its level. -/
def Token.operator : Token → Option (Level × BinaryOp)
  | or => some (.or, .or)
  | and => some (.and, .and)
  | eq => some (.comparison, .eq)
  | neq => some (.comparison, .neq)
  | lt => some (.comparison, .lt)
  | lte => some (.comparison, .lte)
  | gt => some (.comparison, .gt)
  | gte => some (.comparison, .gte)
  | plus => some (.addition, .add)
  | minus => some (.addition, .sub)
  | mul => some (.multiplication, .mul)
  | div => some (.multiplication, .div)
  | _ => none

/-- An operator in front of one operand. -/
def Token.sign : Token → Option UnaryOp
  | not => some .not
  | minus => some .neg
  | _ => none

def Token.literal : Token → Option Literal
  | integer v => some (.integer v)
  | float v => some (.float v)
  | string s => some (.string s)
  | bool b => some (.bool b)
  | _ => none

/-- The segments of a path after its root. -/
def dotted (parts : List String) : List Token :=
  parts.flatMap fun part => [.dot, .identifier part]

/-- The tree of a dotted path. -/
def dottedExpr (root : String) (parts : List String) : Expr :=
  if root = "payload" then .payloadAccess parts
  else .identifier (String.intercalate "." (root :: parts))

/-- The tokens derive the tree at a level of the grammar. -/
inductive Derives : Level → List Token → Expr → Prop where
  | tighter {level : Level} {ts : List Token} {e : Expr} (inner : level ≠ .primary)
      (h : Derives level.tighter ts e) : Derives level ts e
  | binary {level : Level} {t : Token} {op : BinaryOp} {ls rs : List Token} {l r : Expr}
      (operator : t.operator = some (level, op)) (left : Derives level.left ls l)
      (right : Derives level.tighter rs r) : Derives level (ls ++ t :: rs) (.binary l op r)
  | unary {t : Token} {op : UnaryOp} {ts : List Token} {e : Expr} (sign : t.sign = some op)
      (h : Derives .unary ts e) : Derives .unary (t :: ts) (.unary op e)
  | literal {t : Token} {lit : Literal} (literal : t.literal = some lit) :
      Derives .primary [t] (.literal lit)
  | paren {ts : List Token} {e : Expr} (h : Derives .or ts e) :
      Derives .primary (.lParen :: (ts ++ [.rParen])) e
  | name (name : String) : Derives .primary [.identifier name] (.identifier name)
  | path (root : String) {parts : List String} (long : parts ≠ []) :
      Derives .primary (.identifier root :: dotted parts) (dottedExpr root parts)

/-! ## Tokens -/

/-- The last token is `eof`. -/
def Ended (ts : List Token) : Prop := ts.getLast? = some .eof

/-- A token other than the last one is left behind. -/
theorem Ended.advance {ts : List Token} (ended : Ended ts) (other : peek ts ≠ .eof) :
    ts = peek ts :: advance ts ∧ Ended (advance ts) := by
  match ts with
  | [] => cases ended
  | [t] =>
      cases ended
      exact absurd rfl other
  | t :: u :: us =>
      refine ⟨rfl, ?_⟩
      have last : (u :: us).getLast? = (t :: u :: us).getLast? := by
        rw [List.getLast?_cons_cons]
      exact last.trans ended

/-- The tokens before the first `eof`. -/
def beforeEof (ts : List Token) : List Token := ts.takeWhile (· ≠ .eof)

theorem eof_notMem_beforeEof (ts : List Token) : .eof ∉ beforeEof ts := by
  intro member
  simpa using List.mem_takeWhile_imp member

theorem beforeEof_append {body : List Token} (inside : .eof ∉ body) (rest : List Token) :
    beforeEof (body ++ .eof :: rest) = body := by
  have visible : ∀ t ∈ body, decide (t ≠ .eof) = true := by
    intro t member
    exact decide_eq_true fun same => inside (same ▸ member)
  rw [beforeEof, List.takeWhile_append_of_pos visible]
  simp

theorem Ended.split {ts : List Token} (ended : Ended ts) :
    ∃ rest, ts = beforeEof ts ++ .eof :: rest := by
  have member : Token.eof ∈ ts := List.mem_of_getLast? ended
  obtain ⟨body, rest, rfl, inside⟩ := List.eq_append_cons_of_mem member
  exact ⟨rest, by rw [beforeEof_append inside]⟩

theorem Token.ne_eof_of_operator {t : Token} {found : Level × BinaryOp}
    (operator : t.operator = some found) : t ≠ .eof := by
  rintro rfl
  cases operator

theorem Token.ne_eof_of_sign {t : Token} {op : UnaryOp} (sign : t.sign = some op) : t ≠ .eof := by
  rintro rfl
  cases sign

theorem Token.ne_eof_of_literal {t : Token} {lit : Literal} (literal : t.literal = some lit) :
    t ≠ .eof := by
  rintro rfl
  cases literal

theorem eof_notMem_dotted (parts : List String) : .eof ∉ dotted parts := by
  intro member
  obtain ⟨part, _, inside⟩ := List.mem_flatMap.mp member
  simp at inside

/-- A derivation is about the tokens before `eof`. -/
theorem Derives.eof_notMem {level : Level} {ts : List Token} {e : Expr} (h : Derives level ts e) :
    .eof ∉ ts := by
  induction h with
  | tighter _ _ ih => exact ih
  | binary operator _ _ left right =>
      rw [List.mem_append, List.mem_cons]
      rintro (member | same | member)
      · exact left member
      · exact Token.ne_eof_of_operator operator same.symm
      · exact right member
  | unary sign _ ih =>
      rw [List.mem_cons]
      rintro (same | member)
      · exact Token.ne_eof_of_sign sign same.symm
      · exact ih member
  | literal literal =>
      rw [List.mem_singleton]
      exact fun same => Token.ne_eof_of_literal literal same.symm
  | paren _ ih => simpa using ih
  | name => simp
  | path root => simpa using eof_notMem_dotted _

/-! ## One form for the levels -/

abbrev Run := Except String (Expr × List Token)

/-- One round of a loop: an operator of the level, its right operand, and `again`. -/
def goOn (level : Level) (operand : List Token → Run) (again : Expr → List Token → Run)
    (left : Expr) (ts : List Token) : Run :=
  match (peek ts).operator with
  | some (other, op) =>
      if other = level then do
        let (right, ts) ← operand (advance ts)
        again (.binary left op right) ts
      else .ok (left, ts)
  | none => .ok (left, ts)

/-- The levels whose operators associate to the left. -/
def Level.Chains (level : Level) : Prop :=
  level = .or ∨ level = .and ∨ level = .addition ∨ level = .multiplication

namespace Level

theorem kinds (level : Level) :
    level.Chains ∨ level = .comparison ∨ level = .unary ∨ level = .primary := by
  cases level <;> simp [Chains]

variable {level : Level}

theorem Chains.ne_primary (chains : level.Chains) : level ≠ .primary := by
  obtain rfl | rfl | rfl | rfl := chains <;> simp

theorem Chains.left_eq (chains : level.Chains) : level.left = level := by
  obtain rfl | rfl | rfl | rfl := chains <;> rfl

end Level

/-- What an operand may open with. -/
theorem Token.opens (t : Token) : (∃ lit, t.literal = some lit) ∨ t = .lParen ∨
    (∃ name, t = .identifier name) ∨
    (t.literal = none ∧ t ≠ .lParen ∧ ∀ name, t ≠ .identifier name) := by
  cases t with
  | integer v => exact .inl ⟨.integer v, rfl⟩
  | float v => exact .inl ⟨.float v, rfl⟩
  | string s => exact .inl ⟨.string s, rfl⟩
  | bool b => exact .inl ⟨.bool b, rfl⟩
  | lParen => exact .inr (.inl rfl)
  | identifier name => exact .inr (.inr (.inl ⟨name, rfl⟩))
  | _ => exact .inr (.inr (.inr ⟨rfl, by simp, by simp⟩))

/-- The tokens of `ts` before `us` satisfy `P`. -/
def Leaves (P : List Token → Prop) (ts us : List Token) : Prop :=
  ∃ used, ts = used ++ us ∧ P used ∧ Ended us

theorem Leaves.length_le {P : List Token → Prop} {ts us : List Token} (h : Leaves P ts us) :
    us.length ≤ ts.length := by
  obtain ⟨used, rfl, _, _⟩ := h
  rw [List.length_append]
  omega

/-- The tokens a run takes are in relation to the tree it returns. -/
def Takes (P : List Token → Expr → Prop) (f : List Token → Run) : Prop :=
  ∀ ts e us, Ended ts → f ts = .ok (e, us) → Leaves (P · e) ts us

namespace Takes

variable {P Q : List Token → Expr → Prop} {f : List Token → Run} {next : Expr → List Token → Run}

/-- A loop that ends. -/
theorem stop {left : Expr} (h : P [] left) : Takes P fun ts => .ok (left, ts) := by
  intro ts e us ended same
  cases same
  exact ⟨[], rfl, h, ended⟩

/-- An operand and what goes on with it. -/
theorem bind (first : Takes P f)
    (rest : ∀ front left, P front left → Takes (fun used => Q (front ++ used)) (next left)) :
    Takes Q fun ts => f ts >>= fun p => next p.1 p.2 := by
  intro ts e us ended read
  obtain ⟨⟨left, ts'⟩, operand, later⟩ := bind_ok read
  obtain ⟨used, rfl, holds, ended'⟩ := first ts left ts' ended operand
  obtain ⟨goes, rfl, holds', endedMore⟩ := rest used left holds ts' e us ended' later
  exact ⟨used ++ goes, (List.append_assoc _ _ _).symm, holds', endedMore⟩

end Takes

/-- The left operand of a level is of the level. -/
theorem Derives.of_left {level : Level} {ts : List Token} {e : Expr}
    (h : Derives level.left ts e) : Derives level ts e := by
  cases level with
  | comparison => exact .tighter (by simp) h
  | _ => exact h

/-- The loop goes on with what it has read so far as a left operand. -/
theorem goOn_takes {level : Level} {operand : List Token → Run} {again : Expr → List Token → Run}
    {front : List Token} {left : Expr} (operands : Takes (Derives level.tighter) operand)
    (rest : ∀ front left, Derives level front left →
      Takes (fun used => Derives level (front ++ used)) (again left))
    (first : Derives level.left front left) :
    Takes (fun used => Derives level (front ++ used)) (goOn level operand again left) := by
  have last : Derives level (front ++ []) left := by
    rw [List.append_nil]
    exact first.of_left
  intro ts e us ended read
  unfold goOn at read
  split at read
  · next other op operator =>
      split at read
      · next same =>
          subst same
          obtain ⟨whole, ended'⟩ := ended.advance (Token.ne_eof_of_operator operator)
          obtain ⟨⟨right, ts'⟩, inner, later⟩ := bind_ok read
          obtain ⟨used, split, derived, endedRight⟩ := operands _ right ts' ended' inner
          obtain ⟨goes, rfl, derived', endedMore⟩ :=
            rest _ _ (.binary operator first derived) ts' e us endedRight later
          refine ⟨peek ts :: used ++ goes, ?_, ?_, endedMore⟩
          · rw [List.append_assoc, List.cons_append, ← split]
            exact whole
          · simpa using derived'
      · exact Takes.stop last ts e us ended read
  · exact Takes.stop last ts e us ended read

variable [RustStd]

/-! ## The parser, level by level -/

/-- The function of the parser for a level. -/
def run : Level → Nat → List Token → Run
  | .or => parseOr
  | .and => parseAnd
  | .comparison => parseComparison
  | .addition => parseAddition
  | .multiplication => parseMultiplication
  | .unary => parseUnary
  | .primary => parsePrimary

/-- The loop of a level; a comparison is made once. -/
def more : Level → Nat → Expr → List Token → Run
  | .or => parseOrLoop
  | .and => parseAndLoop
  | .addition => parseAdditionLoop
  | .multiplication => parseMultiplicationLoop
  | _ => fun _ left ts => .ok (left, ts)

section

variable {level : Level} {fuel : Nat} {ts : List Token} {left : Expr}

theorem run_chain (chains : level.Chains) :
    run level (fuel + 1) ts = run level.tighter fuel ts >>= fun p => more level fuel p.1 p.2 := by
  obtain rfl | rfl | rfl | rfl := chains <;> rfl

theorem more_succ (chains : level.Chains) :
    more level (fuel + 1) left ts =
      goOn level (run level.tighter fuel) (more level fuel) left ts := by
  obtain rfl | rfl | rfl | rfl := chains
  · rw [more, parseOrLoop]
    cases first : peek ts <;> simp [goOn, first, Token.operator, run, Level.tighter]
  · rw [more, parseAndLoop]
    cases first : peek ts <;> simp [goOn, first, Token.operator, run, Level.tighter]
  · rw [more, parseAdditionLoop]
    cases first : peek ts <;> simp [goOn, first, Token.operator, run, Level.tighter]
  · rw [more, parseMultiplicationLoop]
    cases first : peek ts <;> simp [goOn, first, Token.operator, run, Level.tighter]

theorem run_comparison : run .comparison (fuel + 1) ts = run .addition fuel ts >>= fun p =>
    goOn .comparison (run .addition fuel) (more .comparison fuel) p.1 p.2 := by
  rw [run, parseComparison, run]
  refine congrArg _ (funext fun p => ?_)
  cases first : peek p.2 <;> simp [goOn, first, Token.operator, more]

theorem run_sign {op : UnaryOp} (sign : (peek ts).sign = some op) :
    run .unary (fuel + 1) ts = run .unary fuel (advance ts) >>= fun p =>
      .ok (.unary op p.1, p.2) := by
  rw [run, parseUnary]
  cases first : peek ts <;> rw [first] at sign <;> cases sign <;> rfl

theorem run_unary (plain : (peek ts).sign = none) :
    run .unary (fuel + 1) ts = run .primary fuel ts := by
  rw [run, parseUnary]
  cases first : peek ts <;> rw [first] at plain <;> first | rfl | cases plain

theorem parsePrimary_succ (fuel : Nat) (ts : List Token) : parsePrimary (fuel + 1) ts =
    match peek ts with
    | .integer v => .ok (.literal (.integer v), advance ts)
    | .float v => .ok (.literal (.float v), advance ts)
    | .string s => .ok (.literal (.string s), advance ts)
    | .bool b => .ok (.literal (.bool b), advance ts)
    | .lParen => do
        let (expr, ts) ← parseOr fuel (advance ts)
        let ts ← expect .rParen ts
        .ok (expr, ts)
    | .identifier name =>
        if peek (advance ts) = .dot then do
          let (parts, ts) ← parsePath (advance ts)
          if name = "payload" then .ok (.payloadAccess parts, ts)
          else .ok (.identifier (String.intercalate "." (name :: parts)), ts)
        else .ok (.identifier name, advance ts)
    | other => .error ("Unexpected token: " ++ other.debug) := rfl

theorem run_literal {lit : Literal} (literal : (peek ts).literal = some lit) :
    run .primary (fuel + 1) ts = .ok (.literal lit, advance ts) := by
  rw [run, parsePrimary_succ]
  cases first : peek ts <;> rw [first] at literal <;> cases literal <;> rfl

theorem run_paren (first : peek ts = .lParen) :
    run .primary (fuel + 1) ts = run .or fuel (advance ts) >>= fun p =>
      expect .rParen p.2 >>= fun us => .ok (p.1, us) := by
  change parsePrimary (fuel + 1) ts = _
  rw [parsePrimary_succ, first]
  rfl

theorem run_name {name : String} (first : peek ts = .identifier name) :
    run .primary (fuel + 1) ts =
      if peek (advance ts) = .dot then
        parsePath (advance ts) >>= fun p => .ok (dottedExpr name p.1, p.2)
      else .ok (.identifier name, advance ts) := by
  rw [run, parsePrimary_succ, first]
  refine if_congr Iff.rfl (congrArg _ (funext fun p => ?_)) rfl
  rw [dottedExpr]
  dsimp only
  split <;> rfl

theorem run_other (literal : (peek ts).literal = none) (paren : peek ts ≠ .lParen)
    (name : ∀ name, peek ts ≠ .identifier name) :
    run .primary (fuel + 1) ts = .error ("Unexpected token: " ++ (peek ts).debug) := by
  rw [run, parsePrimary_succ]
  cases first : peek ts <;> rw [first] at literal paren name <;>
    first | exact absurd rfl paren | exact absurd rfl (name _) | rfl | cases literal

end

/-! ## Soundness -/

theorem expect_takes {token : Token} {ts us : List Token} (ended : Ended ts) (other : token ≠ .eof)
    (h : expect token ts = .ok us) : ts = token :: us ∧ Ended us := by
  unfold expect at h
  split at h
  · next same =>
      cases h
      subst same
      exact ended.advance other
  · cases h

theorem parsePath_takes {ts us : List Token} {parts : List String} (ended : Ended ts)
    (h : parsePath ts = .ok (parts, us)) : ts = dotted parts ++ us ∧ Ended us := by
  induction ts using parsePath.induct generalizing parts with
  | case1 part => cases ended
  | case2 part t ts more rest read ih =>
      rw [parsePath, read] at h
      cases h
      obtain ⟨same, endedRest⟩ := ih ended read
      refine ⟨?_, endedRest⟩
      rw [same]
      rfl
  | case3 part t ts message read ih =>
      rw [parsePath, read] at h
      cases h
  | case4 ts other =>
      rw [parsePath] at h
      · cases h
      · exact other
  | case5 ts other different =>
      rw [parsePath] at h
      · cases h
        exact ⟨rfl, ended⟩
      · exact other
      · exact different

/-- The dot that opens a path is followed by a name. -/
theorem parsePath_ne_nil {ts us : List Token} {parts : List String} (first : peek ts = .dot)
    (h : parsePath ts = .ok (parts, us)) : parts ≠ [] := by
  rintro rfl
  unfold parsePath at h
  split at h
  · split at h
    · cases h
    · split at h <;> cases h
  · cases h
  · next different =>
      cases ts with
      | nil => cases first
      | cons t rest =>
          obtain rfl : t = .dot := first
          exact different rest rfl

/-- A primary is a literal, a parenthesised tree or a dotted path. -/
theorem primary_takes {fuel : Nat} (inner : Takes (Derives .or) (run .or fuel)) :
    Takes (Derives .primary) (run .primary (fuel + 1)) := by
  intro ts e us ended read
  obtain ⟨lit, literal⟩ | first | ⟨name, first⟩ | ⟨literal, paren, name⟩ := (peek ts).opens
  · rw [run_literal literal] at read
    cases read
    obtain ⟨whole, ended'⟩ := ended.advance (Token.ne_eof_of_literal literal)
    exact ⟨[peek ts], whole, .literal literal, ended'⟩
  · rw [run_paren first] at read
    obtain ⟨whole, ended'⟩ := ended.advance (by rw [first]; simp)
    obtain ⟨⟨expr, ts'⟩, within, closing⟩ := bind_ok read
    obtain ⟨used, split, derived, endedClose⟩ := inner _ expr ts' ended' within
    obtain ⟨us', close, last⟩ := bind_ok closing
    cases last
    obtain ⟨rfl, endedRest⟩ := expect_takes endedClose (by simp) close
    refine ⟨.lParen :: (used ++ [.rParen]), ?_, .paren derived, endedRest⟩
    rw [whole, first, split]
    simp
  · rw [run_name first] at read
    obtain ⟨whole, ended'⟩ := ended.advance (by rw [first]; simp)
    split at read
    · next dot =>
        obtain ⟨⟨parts, ts'⟩, path, last⟩ := bind_ok read
        cases last
        obtain ⟨split, endedRest⟩ := parsePath_takes ended' path
        refine ⟨.identifier name :: dotted parts, ?_, .path name ?_, endedRest⟩
        · rw [whole, first, split]
          rfl
        · exact parsePath_ne_nil dot path
    · cases read
      refine ⟨[.identifier name], ?_, .name name, ended'⟩
      rw [List.singleton_append, ← first]
      exact whole
  · rw [run_other literal paren name] at read
    cases read

/-- At every fuel, each function of the parser takes what derives the tree it
returns, and each loop what continues a derivation. -/
theorem run_takes (fuel : Nat) : (∀ level, Takes (Derives level) (run level fuel)) ∧
    ∀ level, level.Chains → ∀ front left, Derives level front left →
      Takes (fun used => Derives level (front ++ used)) (more level fuel left) := by
  induction fuel with
  | zero =>
      constructor
      · intro level ts e us _ read
        cases level <;> cases read
      · rintro level (rfl | rfl | rfl | rfl) front left _ ts e us _ read <;> cases read
  | succ fuel ih =>
      obtain ⟨operands, loops⟩ := ih
      constructor
      · intro level ts e us ended read
        obtain chains | rfl | rfl | rfl := level.kinds
        · rw [run_chain chains] at read
          exact (operands level.tighter).bind
            (fun front left h => loops level chains front left (.tighter chains.ne_primary h))
            ts e us ended read
        · rw [run_comparison] at read
          have once : ∀ front left, Derives .comparison front left →
              Takes (fun used => Derives .comparison (front ++ used))
                (more .comparison fuel left) :=
            fun front left h => .stop (by simpa using h)
          have operand : Takes (Derives Level.comparison.tighter) (run .addition fuel) :=
            operands .addition
          exact operand.bind (fun front left h => goOn_takes operand once h) ts e us ended read
        · cases sign : (peek ts).sign with
          | none =>
              rw [run_unary sign] at read
              obtain ⟨used, split, derived, endedRest⟩ := operands .primary ts e us ended read
              exact ⟨used, split, .tighter (by simp) derived, endedRest⟩
          | some op =>
              rw [run_sign sign] at read
              obtain ⟨whole, ended'⟩ := ended.advance (Token.ne_eof_of_sign sign)
              obtain ⟨⟨expr, ts'⟩, inner, last⟩ := bind_ok read
              obtain ⟨used, split, derived, endedRest⟩ :=
                operands .unary _ expr ts' ended' inner
              cases last
              refine ⟨peek ts :: used, ?_, .unary sign derived, endedRest⟩
              rw [List.cons_append, ← split]
              exact whole
        · exact primary_takes (operands .or) ts e us ended read
      · intro level chains front left derived ts e us ended read
        rw [more_succ chains] at read
        rw [← chains.left_eq] at derived
        exact goOn_takes (operands level.tighter) (loops level chains) derived ts e us ended read

/-- `parse` reads at the loosest level, and requires `eof` there. -/
theorem parse_eq (tokens : List Token) : parse tokens =
    run .or (8 * tokens.length + 8) tokens >>= fun p =>
      if peek p.2 = .eof then .ok p.1
      else .error ("Unexpected token after expression: " ++ (peek p.2).debug) := rfl

theorem parse_ok_iff {tokens : List Token} {e : Expr} : parse tokens = .ok e ↔
    ∃ us, run .or (8 * tokens.length + 8) tokens = .ok (e, us) ∧ peek us = .eof := by
  rw [parse_eq, bind_ok_iff]
  constructor
  · rintro ⟨⟨e', us⟩, read, last⟩
    split at last
    · next stop =>
        cases last
        exact ⟨us, read, stop⟩
    · cases last
  · rintro ⟨us, read, stop⟩
    exact ⟨(e, us), read, if_pos stop⟩

/-- The parser accepts nothing but the grammar. -/
theorem parse_derives {tokens : List Token} {e : Expr} (ended : Ended tokens)
    (h : parse tokens = .ok e) : Derives .or (beforeEof tokens) e := by
  obtain ⟨us, read, stop⟩ := parse_ok_iff.mp h
  obtain ⟨used, rfl, derived, ended'⟩ := (run_takes _).1 .or tokens e us ended read
  cases us with
  | nil => cases ended'
  | cons t us =>
      obtain rfl : t = .eof := stop
      rw [beforeEof_append derived.eof_notMem]
      exact derived

end SignalTopology.Guard
