import Mathlib.Data.List.Induction
import SignalTopology.Guard.Grammar
import SignalTopology.Library.Fuel

/-!
# The guard parser and its grammar

The parser accepts every derivation of the grammar. A left operand leaves the loop
of its level with what was read so far; this is what the induction over a
derivation carries, for any fuel that is large enough. The fuel of `parse` is:
each function has as much as it can use, so a run with more of it ends alike.
-/

namespace SignalTopology.Guard

open Fallible Fuel

/-! ## What may follow a derivation -/

/-- Tighter levels are lower. -/
def Level.height : Level → Nat
  | or => 7
  | and => 6
  | comparison => 5
  | addition => 4
  | multiplication => 3
  | unary => 2
  | primary => 1

theorem Level.height_tighter {level : Level} (inner : level ≠ .primary) :
    level.height = level.tighter.height + 1 := by
  cases level <;> first | rfl | exact absurd rfl inner

/-- Nothing at the front of `ts` continues an operand of the level. -/
def Closed (level : Level) (ts : List Token) : Prop :=
  peek ts ≠ .dot ∧ ∀ other op, (peek ts).operator = some (other, op) → level.height < other.height

namespace Closed

variable {level : Level} {ts : List Token}

theorem tighter (h : Closed level ts) : Closed level.tighter ts := by
  refine ⟨h.1, fun other op operator => ?_⟩
  have looser := h.2 other op operator
  by_cases inner : level = .primary
  · subst inner
    exact looser
  · have := Level.height_tighter inner
    omega

/-- An operator ends its left operand. -/
theorem of_operator {t : Token} {op : BinaryOp} (operator : t.operator = some (level, op))
    (inner : level ≠ .primary) : Closed level.tighter (t :: ts) := by
  refine ⟨?_, fun other op' same => ?_⟩
  · rintro rfl
    cases operator
  · have found : some (level, op) = some (other, op') := operator.symm.trans same
    cases found
    have := Level.height_tighter inner
    omega

/-- A token that is neither an operator nor a dot closes every level. -/
theorem of_none (plain : (peek ts).operator = none) (other : peek ts ≠ .dot) : Closed level ts := by
  refine ⟨other, fun found op operator => ?_⟩
  rw [plain] at operator
  cases operator

end Closed

/-- An operator is of a level with operands. -/
theorem Token.operator_kinds {t : Token} {level : Level} {op : BinaryOp}
    (operator : t.operator = some (level, op)) : level.Chains ∨ level = .comparison := by
  cases t <;> cases operator <;> simp [Level.Chains]

/-! ## Completeness -/

theorem advance_cons {t : Token} {ts : List Token} (long : ts ≠ []) : advance (t :: ts) = ts := by
  cases ts with
  | nil => exact absurd rfl long
  | cons => rfl

section

variable {level : Level} {operand : List Token → Run} {again : Expr → List Token → Run}
variable {left right : Expr} {ts : List Token}

theorem goOn_stop (closed : Closed level ts) : goOn level operand again left ts =
    .ok (left, ts) := by
  unfold goOn
  split
  · next other op operator =>
      have looser := closed.2 other op operator
      refine if_neg ?_
      rintro rfl
      omega
  · rfl

theorem goOn_operator {t : Token} {op : BinaryOp} {rs us : List Token}
    (operator : t.operator = some (level, op)) (long : rs ++ us ≠ [])
    (read : operand (rs ++ us) = .ok (right, us)) :
    goOn level operand again left (t :: (rs ++ us)) = again (.binary left op right) us := by
  have first : (peek (t :: (rs ++ us))).operator = some (level, op) := operator
  unfold goOn
  rw [first]
  dsimp only
  rw [if_pos rfl, advance_cons long, read]
  rfl

end

variable [RustStd]

theorem parsePath_stop {ts : List Token} (stop : peek ts ≠ .dot) : parsePath ts = .ok ([], ts) := by
  rw [parsePath]
  · rintro part rest rfl
    exact stop rfl
  · rintro rest rfl
    exact stop rfl

theorem parsePath_segment {part : String} {ts : List Token} (long : ts ≠ []) :
    parsePath (.dot :: .identifier part :: ts) =
      parsePath ts >>= fun p => .ok (part :: p.1, p.2) := by
  cases ts with
  | nil => exact absurd rfl long
  | cons t ts =>
      rw [parsePath]
      split
      · next read =>
          rw [read]
          rfl
      · next read =>
          rw [read]
          rfl

theorem parsePath_broken {ts : List Token} (long : ts ≠ [])
    (other : ∀ part, peek ts ≠ .identifier part) : parsePath (.dot :: ts) =
      .error ("Expected identifier after '.', found " ++ (peek ts).debug) := by
  rw [parsePath, advance_cons long]
  rintro part rest rfl
  exact other part rfl

theorem parsePath_dotted {parts : List String} {us : List Token} (long : us ≠ [])
    (stop : peek us ≠ .dot) : parsePath (dotted parts ++ us) = .ok (parts, us) := by
  induction parts with
  | nil => exact parsePath_stop stop
  | cons part parts ih =>
      change parsePath (.dot :: .identifier part :: (dotted parts ++ us)) = _
      rw [parsePath_segment (by simp [long]), ih]
      rfl

/-- With enough fuel the level reads the tokens, and leaves what follows them. -/
def Reads (level : Level) (ts : List Token) (e : Expr) : Prop :=
  ∀ us, us ≠ [] → Closed level us → ∃ n, ∀ fuel, n ≤ fuel → run level fuel (ts ++ us) = .ok (e, us)

/-- The level reads the tokens as a left operand, and its loop goes on from there. -/
def Resumes (level : Level) (ts : List Token) (e : Expr) : Prop :=
  ∀ us, us ≠ [] → Closed level.tighter us → ∃ n k, ∀ fuel, n ≤ fuel →
    run level (fuel + k) (ts ++ us) = more level fuel e us

section

variable {level : Level} {ts ls rs : List Token} {e l r : Expr} {t : Token} {op : BinaryOp}

/-- A loop that is left with nothing to do returns what it has. -/
theorem Resumes.reads (chains : level.Chains) (h : Resumes level ts e) : Reads level ts e := by
  intro us long closed
  obtain ⟨n, k, goes⟩ := h us long closed.tighter
  refine ⟨n + k + 1, fun fuel enough => ?_⟩
  obtain ⟨m, rfl⟩ : ∃ m, fuel = m + 1 + k := ⟨fuel - 1 - k, by omega⟩
  rw [goes (m + 1) (by omega), more_succ chains]
  exact goOn_stop closed

/-- An operand of the next level opens the loop. -/
theorem Reads.resumes (chains : level.Chains) (h : Reads level.tighter ts e) :
    Resumes level ts e := by
  intro us long closed
  obtain ⟨n, reads⟩ := h us long closed
  refine ⟨n, 1, fun fuel enough => ?_⟩
  rw [run_chain chains, reads fuel enough]
  rfl

/-- One more round of the loop. -/
theorem Resumes.operator (chains : level.Chains) (operator : t.operator = some (level, op))
    (left : Resumes level ls l) (right : Reads level.tighter rs r) :
    Resumes level (ls ++ t :: rs) (.binary l op r) := by
  intro us long closed
  obtain ⟨n, k, goes⟩ :=
    left (t :: (rs ++ us)) (by simp) (Closed.of_operator operator chains.ne_primary)
  obtain ⟨m, reads⟩ := right us long closed
  refine ⟨max n m, k + 1, fun fuel enough => ?_⟩
  have follows : rs ++ us ≠ [] := by simp [long]
  calc run level (fuel + (k + 1)) (ls ++ t :: rs ++ us)
      = run level (fuel + 1 + k) (ls ++ t :: (rs ++ us)) := by
        rw [List.append_assoc, List.cons_append, Nat.add_right_comm, Nat.add_assoc]
    _ = more level (fuel + 1) l (t :: (rs ++ us)) := goes (fuel + 1) (by omega)
    _ = more level fuel (.binary l op r) us := by
        rw [more_succ chains]
        exact goOn_operator operator follows (reads fuel (by omega))

/-- One comparison. -/
theorem Reads.comparison (operator : t.operator = some (.comparison, op))
    (left : Reads .addition ls l) (right : Reads .addition rs r) :
    Reads .comparison (ls ++ t :: rs) (.binary l op r) := by
  intro us long closed
  obtain ⟨n, readsLeft⟩ :=
    left (t :: (rs ++ us)) (by simp) (Closed.of_operator operator (by simp))
  obtain ⟨m, readsRight⟩ := right us long closed.tighter
  refine ⟨max n m + 1, fun fuel enough => ?_⟩
  obtain ⟨fuel, rfl⟩ : ∃ m, fuel = m + 1 := ⟨fuel - 1, by omega⟩
  have follows : rs ++ us ≠ [] := by simp [long]
  rw [run_comparison, List.append_assoc, List.cons_append, readsLeft fuel (by omega)]
  exact goOn_operator operator follows (readsRight fuel (by omega))

omit [RustStd] in
/-- A derivation of a primary does not open with an operator. -/
theorem Derives.plain (h : Derives level ts e) (bottom : level = .primary) (us : List Token) :
    (peek (ts ++ us)).sign = none := by
  cases h with
  | tighter inner => exact absurd bottom inner
  | binary operator =>
      obtain chains | rfl := Token.operator_kinds operator
      · exact absurd bottom chains.ne_primary
      · cases bottom
  | unary => cases bottom
  | @literal t _ literal => cases t <;> cases literal <;> rfl
  | paren | name | path => rfl

/-- One step with the fuel of the next level. -/
theorem Reads.of_succ (h : ∀ us, us ≠ [] → Closed level us → ∃ n, ∀ fuel, n ≤ fuel →
    run level (fuel + 1) (ts ++ us) = .ok (e, us)) : Reads level ts e := by
  intro us long closed
  obtain ⟨n, reads⟩ := h us long closed
  refine ⟨n + 1, fun fuel enough => ?_⟩
  obtain ⟨m, rfl⟩ : ∃ m, fuel = m + 1 := ⟨fuel - 1, by omega⟩
  exact reads m (by omega)

theorem Reads.plain_comparison (h : Reads .addition ts e) : Reads .comparison ts e := by
  refine .of_succ fun us long closed => ?_
  obtain ⟨n, reads⟩ := h us long closed.tighter
  refine ⟨n, fun fuel enough => ?_⟩
  rw [run_comparison, reads fuel enough]
  exact goOn_stop closed

theorem Reads.plain_unary (derived : Derives .primary ts e) (h : Reads .primary ts e) :
    Reads .unary ts e := by
  refine .of_succ fun us long closed => ?_
  obtain ⟨n, reads⟩ := h us long closed.tighter
  refine ⟨n, fun fuel enough => ?_⟩
  rw [run_unary (derived.plain rfl us)]
  exact reads fuel enough

theorem Reads.unary {sign : UnaryOp} (first : t.sign = some sign) (h : Reads .unary ts e) :
    Reads .unary (t :: ts) (.unary sign e) := by
  refine .of_succ fun us long closed => ?_
  obtain ⟨n, reads⟩ := h us long closed
  refine ⟨n, fun fuel enough => ?_⟩
  have opens : (peek (t :: ts ++ us)).sign = some sign := first
  rw [run_sign opens, List.cons_append, advance_cons (by simp [long]), reads fuel enough]
  rfl

theorem Reads.paren (h : Reads .or ts e) : Reads .primary (.lParen :: (ts ++ [.rParen])) e := by
  refine .of_succ fun us long closed => ?_
  obtain ⟨n, reads⟩ := h (.rParen :: us) (by simp) (.of_none rfl (by simp [peek]))
  refine ⟨n, fun fuel enough => ?_⟩
  have opens : peek (.lParen :: (ts ++ [.rParen]) ++ us) = .lParen := rfl
  have inside : advance (.lParen :: (ts ++ [.rParen]) ++ us) = ts ++ .rParen :: us := by
    rw [List.cons_append, advance_cons (by simp), List.append_assoc]
    rfl
  have close : expect .rParen (.rParen :: us) = .ok us := by
    have first : peek (.rParen :: us) = .rParen := rfl
    rw [expect, if_pos first, advance_cons long]
  rw [run_paren opens, inside, reads fuel enough]
  change (expect .rParen (.rParen :: us) >>= fun us => .ok (e, us)) = _
  rw [close]
  rfl

theorem Reads.literal {lit : Literal} (literal : t.literal = some lit) :
    Reads .primary [t] (.literal lit) := by
  refine .of_succ fun us long _ => ⟨0, fun fuel _ => ?_⟩
  have opens : (peek ([t] ++ us)).literal = some lit := literal
  rw [run_literal opens, List.singleton_append, advance_cons long]

theorem Reads.name (name : String) : Reads .primary [.identifier name] (.identifier name) := by
  refine .of_succ fun us long closed => ⟨0, fun fuel _ => ?_⟩
  have opens : peek ([.identifier name] ++ us) = .identifier name := rfl
  rw [run_name opens, List.singleton_append, advance_cons long, if_neg closed.1]

theorem Reads.path (root : String) {parts : List String} (segments : parts ≠ []) :
    Reads .primary (.identifier root :: dotted parts) (dottedExpr root parts) := by
  refine .of_succ fun us long closed => ⟨0, fun fuel _ => ?_⟩
  have opens : peek (.identifier root :: dotted parts ++ us) = .identifier root := rfl
  have dot : peek (dotted parts ++ us) = .dot := by
    cases parts with
    | nil => exact absurd rfl segments
    | cons => rfl
  rw [run_name opens, List.cons_append, advance_cons (by simp [long]), if_pos dot,
    parsePath_dotted long closed.1]
  rfl

/-- The parser follows every derivation: it reads it, and a left operand leaves
the loop of its level with what was read so far. -/
theorem Derives.reads (h : Derives level ts e) :
    Reads level ts e ∧ (level.Chains → Resumes level ts e) := by
  have loose : ¬ Level.Chains .comparison ∧ ¬ Level.Chains .unary ∧ ¬ Level.Chains .primary := by
    simp [Level.Chains]
  induction h with
  | @tighter level ts e inner derived ih =>
      obtain chains | rfl | rfl | rfl := level.kinds
      · exact ⟨(ih.1.resumes chains).reads chains, ih.1.resumes⟩
      · exact ⟨ih.1.plain_comparison, fun chains => absurd chains loose.1⟩
      · exact ⟨ih.1.plain_unary derived, fun chains => absurd chains loose.2.1⟩
      · exact absurd rfl inner
  | @binary level t op ls rs l r operator _ _ left right =>
      obtain chains | rfl := Token.operator_kinds operator
      · rw [chains.left_eq] at left
        have resumes := (left.2 chains).operator chains operator right.1
        exact ⟨resumes.reads chains, fun _ => resumes⟩
      · exact ⟨left.1.comparison operator right.1, fun chains => absurd chains loose.1⟩
  | unary sign _ ih => exact ⟨ih.1.unary sign, fun chains => absurd chains loose.2.1⟩
  | literal literal => exact ⟨.literal literal, fun chains => absurd chains loose.2.2⟩
  | paren _ ih => exact ⟨ih.1.paren, fun chains => absurd chains loose.2.2⟩
  | name name => exact ⟨.name name, fun chains => absurd chains loose.2.2⟩
  | path root segments => exact ⟨.path root segments, fun chains => absurd chains loose.2.2⟩

end

/-! ## Enough fuel -/

/-- A failure of the source, and not of the fuel. -/
def Honest (e : String) : Prop := e ≠ outOfFuel

omit [RustStd] in
theorem honest_of_head {e : String} (first : e.toList.head? ≠ some 'g') : Honest e := by
  rintro rfl
  exact first rfl

theorem expect_honest (token : Token) (ts : List Token) : Fails Honest (expect token ts) := by
  unfold expect
  split
  · exact .ok
  · exact .error (honest_of_head (by simp))

theorem parsePath_honest (ts : List Token) : Fails Honest (parsePath ts) := by
  induction ts using parsePath.induct with
  | case1 part =>
      rw [parsePath]
      exact .ok
  | case2 part t ts parts rest read ih =>
      rw [parsePath, read]
      exact .ok
  | case3 part t ts message read ih =>
      rw [parsePath, read]
      rw [read] at ih
      exact .error (ih message rfl)
  | case4 ts other =>
      rw [parsePath]
      · intro e same
        cases same
        exact honest_of_head (by simp)
      · exact other
  | case5 ts other different =>
      rw [parsePath]
      · exact .ok
      · exact other
      · exact different

omit [RustStd] in
theorem Ended.advance_length {ts : List Token} (ended : Ended ts) (other : peek ts ≠ .eof) :
    (Guard.advance ts).length < ts.length := by
  have whole := congrArg List.length (ended.advance other).1
  rw [List.length_cons] at whole
  omega

section

variable {P : List Token → Expr → Prop} {f operand : List Token → Run}
variable {again : Expr → List Token → Run} {ts : List Token}

omit [RustStd] in
/-- What goes on after an operand starts with no more tokens. -/
theorem Takes.honest_bind (takes : Takes P f) (ended : Ended ts) (first : Fails Honest (f ts))
    (rest : ∀ e us, Ended us → us.length ≤ ts.length → Fails Honest (again e us)) :
    Fails Honest (f ts >>= fun p => again p.1 p.2) := by
  refine first.bind_of_ok ?_
  rintro ⟨e, us⟩ read
  have leaves := takes ts e us ended read
  obtain ⟨_, _, _, ended'⟩ := id leaves
  exact rest e us ended' leaves.length_le

omit [RustStd] in
/-- An operator leaves fewer tokens to its operand and to the loop. -/
theorem goOn_honest {level : Level} {left : Expr} (takes : Takes P operand) (ended : Ended ts)
    (operands : ∀ us, Ended us → us.length < ts.length → Fails Honest (operand us))
    (rest : ∀ e us, Ended us → us.length < ts.length → Fails Honest (again e us)) :
    Fails Honest (goOn level operand again left ts) := by
  unfold goOn
  split
  · next other op operator =>
      obtain ⟨whole, ended'⟩ := ended.advance (Token.ne_eof_of_operator operator)
      have fewer := ended.advance_length (Token.ne_eof_of_operator operator)
      split
      · refine @Takes.honest_bind P operand (fun right => again (.binary left op right)) _ takes
          ended' (operands _ ended' fewer) fun right us ended shorter => ?_
        exact rest _ us ended (by omega)
      · exact .ok
  · exact .ok

end

/-- A parenthesis leaves fewer tokens to what it holds. -/
theorem primary_honest {fuel : Nat} {ts : List Token} (ended : Ended ts)
    (inner : ∀ us, Ended us → us.length < ts.length → Fails Honest (run .or fuel us)) :
    Fails Honest (run .primary (fuel + 1) ts) := by
  obtain ⟨lit, literal⟩ | first | ⟨name, first⟩ | ⟨literal, paren, name⟩ := (peek ts).opens
  · rw [run_literal literal]
    exact .ok
  · have other : peek ts ≠ .eof := by
      rw [first]
      simp
    rw [run_paren first]
    refine (inner _ (ended.advance other).2 (ended.advance_length other)).bind fun p => ?_
    exact (expect_honest _ _).bind fun us => .ok
  · rw [run_name first]
    split
    · exact (parsePath_honest _).bind fun p => .ok
    · exact .ok
  · rw [run_other literal paren name]
    exact .error (honest_of_head (by simp))

omit [RustStd] in
theorem Level.height_pos (level : Level) : 0 < level.height := by
  cases level <;> exact Nat.succ_pos _

/-- Eight calls for each token, and one for each level, are enough. -/
theorem run_honest (fuel : Nat) :
    (∀ level ts, Ended ts → 8 * ts.length + level.height ≤ fuel →
      Fails Honest (run level fuel ts)) ∧
    ∀ level, level.Chains → ∀ left ts, Ended ts → 8 * ts.length + 1 ≤ fuel →
      Fails Honest (more level fuel left ts) := by
  induction fuel with
  | zero =>
      constructor
      · intro level ts _ enough
        have := level.height_pos
        omega
      · intro level _ left ts _ enough
        omega
  | succ fuel ih =>
      obtain ⟨operands, loops⟩ := ih
      have takes := (run_takes fuel).1
      constructor
      · intro level ts ended enough
        obtain chains | rfl | rfl | rfl := level.kinds
        · have lower := Level.height_tighter chains.ne_primary
          have := level.tighter.height_pos
          rw [run_chain chains]
          refine (takes level.tighter).honest_bind ended (operands _ ts ended (by omega))
            fun e us ended' fewer => ?_
          exact loops level chains e us ended' (by omega)
        · rw [Level.height] at enough
          have addition : Level.addition.height = 4 := rfl
          rw [run_comparison]
          refine (takes .addition).honest_bind ended (operands .addition ts ended (by omega))
            fun e us ended' fewer => ?_
          refine goOn_honest (takes .addition) ended' (fun us ended'' shorter => ?_)
            fun e us _ _ => .ok
          exact operands .addition us ended'' (by omega)
        · rw [Level.height] at enough
          have unary : Level.unary.height = 2 := rfl
          have primary : Level.primary.height = 1 := rfl
          cases sign : (peek ts).sign with
          | none =>
              rw [run_unary sign]
              exact operands .primary ts ended (by omega)
          | some op =>
              have other := Token.ne_eof_of_sign sign
              have fewer := ended.advance_length other
              rw [run_sign sign]
              refine Fails.bind (operands .unary _ (ended.advance other).2 (by omega)) fun p => .ok
        · have or : Level.or.height = 7 := rfl
          exact primary_honest ended fun us ended' fewer => operands .or us ended' (by omega)
      · intro level chains left ts ended enough
        have tall : level.tighter.height ≤ 7 := by
          cases level <;> decide
        rw [more_succ chains]
        refine goOn_honest (takes level.tighter) ended (fun us ended' fewer => ?_)
          fun e us ended' fewer => ?_
        · exact operands level.tighter us ended' (by omega)
        · exact loops level chains e us ended' (by omega)

/-! ## More fuel, and other tokens after `eof` -/

/-- The same tokens up to `eof`, and then `rest` and `rest'`. -/
def UpToEof (rest rest' ts ts' : List Token) : Prop :=
  ∃ body, .eof ∉ body ∧ ts = body ++ .eof :: rest ∧ ts' = body ++ .eof :: rest'

/-- The same tree, and the same tokens left up to `eof`. -/
def SameResult (rest rest' : List Token) (p q : Expr × List Token) : Prop :=
  p.1 = q.1 ∧ UpToEof rest rest' p.2 q.2

section

variable {rest rest' ts ts' : List Token}

omit [RustStd] in
theorem UpToEof.peek (h : UpToEof rest rest' ts ts') : Guard.peek ts' = Guard.peek ts := by
  obtain ⟨body, _, rfl, rfl⟩ := h
  cases body <;> rfl

omit [RustStd] in
theorem UpToEof.long (h : UpToEof rest rest' ts ts') : ts ≠ [] ∧ ts' ≠ [] := by
  obtain ⟨body, _, rfl, rfl⟩ := h
  simp

omit [RustStd] in
theorem UpToEof.advance (h : UpToEof rest rest' ts ts') (other : Guard.peek ts ≠ .eof) :
    UpToEof rest rest' (Guard.advance ts) (Guard.advance ts') := by
  obtain ⟨body, inside, rfl, rfl⟩ := h
  cases body with
  | nil => exact absurd rfl other
  | cons t body =>
      refine ⟨body, fun member => inside (List.mem_cons_of_mem t member), ?_, ?_⟩
      · rw [List.cons_append, advance_cons (by simp)]
      · rw [List.cons_append, advance_cons (by simp)]

/-- The second run does what the first one does, as long as that has fuel. -/
abbrev SameRun (rest rest' : List Token) (x y : Run) : Prop :=
  Fuel.Continues outOfFuel (SameResult rest rest') x y

omit [RustStd] in
theorem goOn_agrees {level : Level} {operand operand' : List Token → Run}
    {again again' : Expr → List Token → Run} {left : Expr} (same : UpToEof rest rest' ts ts')
    (operands : ∀ us us', UpToEof rest rest' us us' →
      SameRun rest rest' (operand us) (operand' us'))
    (next : ∀ e us us', UpToEof rest rest' us us' →
      SameRun rest rest' (again e us) (again' e us')) :
    SameRun rest rest' (goOn level operand again left ts)
    (goOn level operand' again' left ts') := by
  unfold goOn
  rw [same.peek]
  split
  · next other op operator =>
      split
      · refine (operands _ _ (same.advance (Token.ne_eof_of_operator operator))).bind ?_
        rintro ⟨right, us⟩ ⟨right', us'⟩ ⟨tree, left⟩
        cases tree
        exact next _ us us' left
      · exact .returns ⟨rfl, same⟩
  · exact .returns ⟨rfl, same⟩

theorem expect_agrees {token : Token} (other : token ≠ .eof) (same : UpToEof rest rest' ts ts') :
    Fuel.Continues outOfFuel (UpToEof rest rest') (expect token ts) (expect token ts') := by
  unfold expect
  rw [same.peek]
  split
  · next first =>
      refine .returns (same.advance ?_)
      rw [first]
      exact other
  · exact .fails _

theorem parsePath_agrees (same : UpToEof rest rest' ts ts') :
    Fuel.Continues outOfFuel (fun p q => p.1 = q.1 ∧ UpToEof rest rest' p.2 q.2)
      (parsePath ts) (parsePath ts') := by
  have stop : ∀ {us us'}, UpToEof rest rest' us us' → peek us ≠ .dot →
      Fuel.Continues outOfFuel (fun p q => p.1 = q.1 ∧ UpToEof rest rest' p.2 q.2)
        (parsePath us) (parsePath us') := by
    intro us us' same other
    rw [parsePath_stop other, parsePath_stop (same.peek ▸ other)]
    exact .returns ⟨rfl, same⟩
  have broken : ∀ {us us'}, UpToEof rest rest' us us' → (∀ part, peek us ≠ .identifier part) →
      Fuel.Continues outOfFuel (fun p q => p.1 = q.1 ∧ UpToEof rest rest' p.2 q.2)
        (parsePath (.dot :: us)) (parsePath (.dot :: us')) := by
    intro us us' same other
    rw [parsePath_broken same.long.1 other, parsePath_broken same.long.2 (same.peek ▸ other),
      same.peek]
    exact .fails _
  obtain ⟨body, inside, rfl, rfl⟩ := same
  -- a segment of the path is two tokens of the body
  induction body using List.twoStepInduction with
  | nil => exact stop ⟨[], inside, rfl, rfl⟩ (by simp [peek])
  | singleton t =>
      by_cases dot : t = .dot
      · subst dot
        exact broken ⟨[], List.not_mem_nil, rfl, rfl⟩ (by simp [peek])
      · exact stop ⟨[t], inside, rfl, rfl⟩ dot
  | cons_cons t u body ih _ =>
      rw [List.mem_cons, List.mem_cons, not_or, not_or] at inside
      by_cases dot : t = .dot
      · subst dot
        by_cases named : ∃ part, u = .identifier part
        · obtain ⟨part, rfl⟩ := named
          have later : UpToEof rest rest' (body ++ .eof :: rest) (body ++ .eof :: rest') :=
            ⟨body, inside.2.2, rfl, rfl⟩
          simp only [List.cons_append]
          rw [parsePath_segment later.long.1, parsePath_segment later.long.2]
          refine (ih inside.2.2).bind ?_
          rintro ⟨parts, us⟩ ⟨parts', us'⟩ ⟨path, left⟩
          cases path
          exact .returns ⟨rfl, left⟩
        · refine broken ⟨u :: body, ?_, rfl, rfl⟩ fun part same => named ⟨part, same⟩
          rw [List.mem_cons, not_or]
          exact inside.2
      · refine stop ⟨t :: u :: body, ?_, rfl, rfl⟩ dot
        rw [List.mem_cons, List.mem_cons, not_or, not_or]
        exact inside

theorem primary_agrees {fuel fuel' : Nat} (same : UpToEof rest rest' ts ts')
    (inner : ∀ us us', UpToEof rest rest' us us' →
      SameRun rest rest' (run .or fuel us) (run .or fuel' us')) :
    SameRun rest rest' (run .primary (fuel + 1) ts) (run .primary (fuel' + 1) ts') := by
  have peek := same.peek
  obtain ⟨lit, literal⟩ | first | ⟨name, first⟩ | ⟨literal, paren, name⟩ := (Guard.peek ts).opens
  · rw [run_literal literal, run_literal (peek ▸ literal)]
    exact .returns ⟨rfl, same.advance (Token.ne_eof_of_literal literal)⟩
  · have later := same.advance (by rw [first]; simp)
    rw [run_paren first, run_paren (peek.trans first)]
    refine (inner _ _ later).bind ?_
    rintro ⟨e, us⟩ ⟨e', us'⟩ ⟨tree, left⟩
    cases tree
    exact (expect_agrees (by simp) left).bind fun _ _ left => .returns ⟨rfl, left⟩
  · have later := same.advance (by rw [first]; simp)
    rw [run_name first, run_name (peek.trans first), later.peek]
    split
    · refine (parsePath_agrees later).bind ?_
      rintro ⟨parts, us⟩ ⟨parts', us'⟩ ⟨path, left⟩
      cases path
      exact .returns ⟨rfl, left⟩
    · exact .returns ⟨rfl, later⟩
  · rw [run_other literal paren name, run_other (peek ▸ literal) (peek ▸ paren) (peek ▸ name), peek]
    exact .fails _

/-- A run with more fuel, on the same tokens up to `eof`. -/
theorem run_agrees (fuel : Nat) : ∀ fuel', fuel ≤ fuel' →
    (∀ level ts ts', UpToEof rest rest' ts ts' →
      SameRun rest rest' (run level fuel ts) (run level fuel' ts')) ∧
    ∀ level, level.Chains → ∀ left ts ts', UpToEof rest rest' ts ts' →
      SameRun rest rest' (more level fuel left ts) (more level fuel' left ts') := by
  induction fuel with
  | zero =>
      intro fuel' _
      constructor
      · intro level ts ts' _
        cases level <;> exact .cutOff _
      · rintro level (rfl | rfl | rfl | rfl) left ts ts' _ <;> exact .cutOff _
  | succ fuel ih =>
      intro fuel' enough
      obtain ⟨fuel', rfl⟩ : ∃ m, fuel' = m + 1 := ⟨fuel' - 1, by omega⟩
      obtain ⟨operands, loops⟩ := ih fuel' (by omega)
      constructor
      · intro level ts ts' same
        obtain chains | rfl | rfl | rfl := level.kinds
        · rw [run_chain chains, run_chain chains]
          refine (operands level.tighter ts ts' same).bind ?_
          rintro ⟨e, us⟩ ⟨e', us'⟩ ⟨tree, left⟩
          cases tree
          exact loops level chains e us us' left
        · rw [run_comparison, run_comparison]
          refine (operands .addition ts ts' same).bind ?_
          rintro ⟨e, us⟩ ⟨e', us'⟩ ⟨tree, left⟩
          cases tree
          exact goOn_agrees left (operands .addition) fun e us us' left => .returns ⟨rfl, left⟩
        · cases sign : (peek ts).sign with
          | none =>
              rw [run_unary sign, run_unary (same.peek ▸ sign)]
              exact operands .primary ts ts' same
          | some op =>
              rw [run_sign sign, run_sign (same.peek ▸ sign)]
              refine (operands .unary _ _ (same.advance (Token.ne_eof_of_sign sign))).bind ?_
              rintro ⟨e, us⟩ ⟨e', us'⟩ ⟨tree, left⟩
              cases tree
              exact .returns ⟨rfl, left⟩
        · exact primary_agrees same (operands .or)
      · intro level chains left ts ts' same
        rw [more_succ chains, more_succ chains]
        exact goOn_agrees same (operands level.tighter) (loops level chains)

end

/-! ## The parser -/

variable {tokens : List Token}

theorem parse_honest (ended : Ended tokens) : Fails Honest (parse tokens) := by
  rw [parse_eq]
  refine Fails.bind ((run_honest _).1 .or tokens ended (Nat.le_succ _)) fun p => ?_
  split
  · exact .ok
  · exact .error (honest_of_head (by simp))

/-- The parser accepts every derivation of the grammar. -/
theorem Derives.parse {e : Expr} (ended : Ended tokens) (h : Derives .or (beforeEof tokens) e) :
    Guard.parse tokens = .ok e := by
  obtain ⟨rest, whole⟩ := ended.split
  obtain ⟨n, reads⟩ := h.reads.1 (.eof :: rest) (by simp) (.of_none rfl (by simp [peek]))
  rw [← whole] at reads
  have same : UpToEof rest rest tokens tokens :=
    ⟨beforeEof tokens, eof_notMem_beforeEof tokens, whole, whole⟩
  have agrees : SameRun rest rest (run .or (8 * tokens.length + 8) tokens)
      (run .or (max n (8 * tokens.length + 8)) tokens) :=
    (run_agrees _ _ (Nat.le_max_right _ _)).1 .or tokens tokens same
  rw [reads _ (Nat.le_max_left _ _)] at agrees
  have honest := (run_honest (8 * tokens.length + 8)).1 .or tokens ended (Nat.le_succ _)
  obtain ⟨⟨e', us⟩, read, tree, left⟩ := agrees.of_ok fun gone => honest _ gone rfl
  cases tree
  exact parse_ok_iff.mpr ⟨us, read, left.peek.symm.trans rfl⟩

/-- What comes after the first `eof` is not looked at. -/
theorem parse_beforeEof (ended : Ended tokens) :
    parse tokens = parse (beforeEof tokens ++ [.eof]) := by
  obtain ⟨rest, whole⟩ := ended.split
  have short : Ended (beforeEof tokens ++ [Token.eof]) := List.getLast?_concat
  have same : UpToEof [] rest (beforeEof tokens ++ [.eof]) tokens :=
    ⟨beforeEof tokens, eof_notMem_beforeEof tokens, rfl, whole⟩
  have fewer : (beforeEof tokens ++ [Token.eof]).length ≤ tokens.length := by
    have := congrArg List.length whole
    simp only [List.length_append, List.length_cons, List.length_nil] at this ⊢
    omega
  have agrees : Fuel.Continues outOfFuel Eq (parse (beforeEof tokens ++ [.eof]))
      (parse tokens) := by
    rw [parse_eq, parse_eq]
    refine ((run_agrees _ _ (by omega)).1 .or _ _ same).bind ?_
    rintro ⟨e, us⟩ ⟨e', us'⟩ ⟨tree, left⟩
    cases tree
    dsimp only
    rw [left.peek]
    split
    · exact .returns rfl
    · exact .fails _
  exact agrees.eq fun gone => parse_honest short _ gone rfl

/-- The guard parser accepts exactly the documented grammar: on a token list that
ends in `eof` it returns the one tree that the tokens before `eof` derive, and
fails with an error of its own when there is none; it never looks past `eof`. -/
theorem parse_exact (ended : Ended tokens) :
    (∀ e, parse tokens = .ok e ↔ Derives .or (beforeEof tokens) e) ∧
    (∀ e e', Derives .or (beforeEof tokens) e → Derives .or (beforeEof tokens) e' → e = e') ∧
    ((∀ e, ¬ Derives .or (beforeEof tokens) e) →
      ∃ message, message ≠ outOfFuel ∧ parse tokens = .error message) ∧
    parse tokens = parse (beforeEof tokens ++ [.eof]) := by
  refine ⟨fun e => ⟨parse_derives ended, fun h => h.parse ended⟩, fun e e' left right => ?_,
    fun none => ?_, parse_beforeEof ended⟩
  · have same := (left.parse ended).symm.trans (right.parse ended)
    cases same
    rfl
  · cases result : parse tokens with
    | ok e => exact absurd (parse_derives ended result) (none e)
    | error message => exact ⟨message, parse_honest ended message result, rfl⟩

/-- `payload.debit <= 9 - 4 - 2 or not vip`. -/
def debitTokens : List Token :=
  [.identifier "payload", .dot, .identifier "debit", .lte, .integer 9, .minus, .integer 4, .minus,
    .integer 2, .or, .not, .identifier "vip", .eof]

def debitExpr : Expr :=
  .binary
    (.binary (.payloadAccess ["debit"]) .lte
      (.binary (.binary (.literal (.integer 9)) .sub (.literal (.integer 4))) .sub
        (.literal (.integer 2))))
    .or (.unary .not (.identifier "vip"))

omit [RustStd] in
theorem debitTokens_derive : Derives .or (beforeEof debitTokens) debitExpr :=
  ((@parse_exact .ascii debitTokens rfl).1 debitExpr).mp rfl

end SignalTopology.Guard
