import Mathlib.Data.List.Chain
import SignalTopology.Guard.Grammar

/-!
# Neighbours in a guard

Which tokens may stand next to each other in a guard the parser accepts. An
operand starts and ends with a token of its own kind; operators stand between two
operands or in front of one. Whatever the grammar derives is an operand.
-/

namespace SignalTopology.Guard

open Fallible

/-- A token an operand may start with. -/
def Token.starts : Token → Bool
  | integer _ | float _ | string _ | bool _ | identifier _ | not | minus | lParen => true
  | _ => false

/-- A token an operand may end with. -/
def Token.ends : Token → Bool
  | integer _ | float _ | string _ | bool _ | identifier _ | rParen => true
  | _ => false

/-- An operator between two operands. -/
def Token.binary : Token → Bool
  | and | or | eq | neq | lt | lte | gt | gte | plus | minus | mul | div => true
  | _ => false

def Token.isName : Token → Bool
  | identifier _ => true
  | _ => false

/-- The token `u` may stand right after `t`. -/
def Token.Precedes (t u : Token) : Prop :=
  if t.ends then u.binary ∨ u = dot ∨ u = rParen ∨ u = eof
  else if t = dot then u.isName
  else u.starts

/-- The tokens of an operand. -/
structure Operand (used : List Token) : Prop where
  chain : used.IsChain Token.Precedes
  first : ∃ t, used.head? = some t ∧ t.starts
  last : ∃ t, used.getLast? = some t ∧ t.ends

/-- What may follow an operand, as a part of a larger one. -/
def Continuation (used : List Token) : Prop := ∀ front, Operand front → Operand (front ++ used)

namespace Operand

variable {used more : List Token} {t : Token}

theorem single (start : t.starts) (stop : t.ends) : Operand [t] :=
  ⟨List.isChain_singleton t, ⟨t, rfl, start⟩, ⟨t, rfl, stop⟩⟩

/-- An operator in front of an operand. -/
theorem under (h : Operand used) (start : t.starts) (opens : ¬ t.ends) (other : t ≠ .dot) :
    Operand (t :: used) := by
  obtain ⟨u, first, begins⟩ := h.first
  obtain ⟨v, last, finishes⟩ := h.last
  refine ⟨?_, ⟨t, rfl, start⟩, ⟨v, ?_, finishes⟩⟩
  · refine List.isChain_cons.mpr ⟨fun w head => ?_, h.chain⟩
    rw [first] at head
    cases head
    rw [Token.Precedes, if_neg opens, if_neg other]
    exact begins
  · rw [List.getLast?_cons, last]
    rfl

/-- An operand goes on with tokens that may follow it and end one. -/
theorem append (h : Operand used) (chain : more.IsChain Token.Precedes)
    (joins : ∀ u, more.head? = some u → u.binary ∨ u = .dot ∨ u = .rParen)
    (last : ∃ t, more.getLast? = some t ∧ t.ends) : Operand (used ++ more) := by
  obtain ⟨u, first, begins⟩ := h.first
  obtain ⟨v, stop, finishes⟩ := h.last
  obtain ⟨w, last, closes⟩ := last
  refine ⟨?_, ⟨u, ?_, begins⟩, ⟨w, ?_, closes⟩⟩
  · refine List.isChain_append.mpr ⟨h.chain, chain, fun x hx y hy => ?_⟩
    rw [stop] at hx
    cases hx
    rw [Token.Precedes, if_pos finishes]
    rcases joins y hy with operator | rfl | rfl
    · exact .inl operator
    · exact .inr (.inl rfl)
    · exact .inr (.inr (.inl rfl))
  · rw [List.head?_append, first]
    rfl
  · rw [List.getLast?_append, last]
    rfl

end Operand

namespace Continuation

variable {used more : List Token} {t : Token}

theorem nil : Continuation [] := by
  intro front h
  rw [List.append_nil]
  exact h

theorem append (first : Continuation used) (second : Continuation more) :
    Continuation (used ++ more) := by
  intro front h
  rw [← List.append_assoc]
  exact second _ (first front h)

/-- A binary operator and its right operand. -/
theorem operator (operator : t.binary) (h : Operand used) : Continuation (t :: used) := by
  have opens : ¬ t.ends = true := by
    cases t <;> first | exact Bool.false_ne_true | cases operator
  have other : t ≠ .dot := by
    rintro rfl
    cases operator
  intro front left
  obtain ⟨u, first, begins⟩ := h.first
  obtain ⟨v, last, finishes⟩ := h.last
  refine left.append (List.isChain_cons.mpr ⟨fun w head => ?_, h.chain⟩) ?_ ⟨v, ?_, finishes⟩
  · rw [first] at head
    cases head
    rw [Token.Precedes, if_neg opens, if_neg other]
    exact begins
  · intro u head
    cases head
    exact .inl operator
  · rw [List.getLast?_cons, last]
    rfl

/-- A segment of a dotted path. -/
theorem segment (name : String) : Continuation [.dot, .identifier name] := by
  intro front left
  refine left.append ?_ ?_ ⟨.identifier name, rfl, rfl⟩
  · refine List.isChain_cons.mpr ⟨fun w head => ?_, List.isChain_singleton _⟩
    cases head
    rfl
  · intro u head
    cases head
    exact .inr (.inl rfl)

/-- A closing bracket. -/
theorem close : Continuation [.rParen] := by
  intro front left
  refine left.append (List.isChain_singleton _) ?_ ⟨.rParen, rfl, rfl⟩
  intro u head
  cases head
  exact .inr (.inr rfl)

end Continuation

/-! ## What the grammar derives -/

/-- A dotted path goes on with any number of segments. -/
theorem Continuation.dotted (parts : List String) : Continuation (dotted parts) := by
  induction parts with
  | nil => exact nil
  | cons part parts ih => exact (segment part).append ih

theorem Derives.operand {level : Level} {ts : List Token} {e : Expr} (h : Derives level ts e) :
    Operand ts := by
  induction h with
  | tighter _ _ ih => exact ih
  | @binary _ t _ ls rs _ _ operator _ _ left right =>
      have binary : t.binary = true := by
        cases t <;> first | rfl | cases operator
      exact Continuation.operator binary right ls left
  | @unary t _ _ _ sign _ ih =>
      cases t <;> cases sign <;> exact ih.under rfl Bool.false_ne_true (by simp)
  | @literal t _ literal =>
      cases t <;> cases literal <;> exact .single rfl rfl
  | paren _ ih =>
      rw [← List.cons_append]
      exact Continuation.close _ (ih.under rfl Bool.false_ne_true (by simp))
  | name => exact .single rfl rfl
  | path root => exact Continuation.dotted _ _ (.single rfl rfl)

variable [RustStd]

/-! ## Accepted guards -/

/-- The guard language accepts the text. -/
def Accepts (text : String) : Prop :=
  ∃ tokens expr, tokenize text = .ok tokens ∧ parse tokens = .ok expr

instance (text : String) : Decidable (Accepts text) :=
  match read : tokenize text with
  | .error _ => isFalse fun ⟨_, _, lexed, _⟩ => by
      rw [read] at lexed
      cases lexed
  | .ok tokens =>
      match parsed : parse tokens with
      | .error _ => isFalse fun ⟨_, _, lexed, other⟩ => by
          rw [read] at lexed
          cases lexed
          rw [parsed] at other
          cases other
      | .ok expr => isTrue ⟨tokens, expr, read, parsed⟩

theorem nextToken_ne_eof {c : Char} {cs rest : List Char} {token : Token}
    (h : nextToken c cs = .ok (token, rest)) : token ≠ .eof := by
  unfold nextToken at h
  split at h
  · split at h
    · cases h
    · cases h
      simp
  · split at h
    · split at h
      · next read =>
          cases h
          unfold number at read
          split at read
          · cases read
          · split at read
            · cases read
              simp
            · split at read
              · cases read
                simp
              · cases read
      · cases h
    · split at h
      · cases h
        unfold word
        split <;> simp
      · unfold symbol at h
        split at h <;> cases h <;> simp

/-- Only the last token is `eof`. -/
theorem tokenizeChars_body {chars : List Char} {tokens : List Token}
    (h : tokenizeChars chars = .ok tokens) : ∃ body, tokens = body ++ [.eof] ∧ .eof ∉ body := by
  fun_induction tokenizeChars chars generalizing tokens with
  | case1 =>
      cases h
      exact ⟨[], rfl, List.not_mem_nil⟩
  | case2 c cs blank ih => exact ih h
  | case3 => cases h
  | case4 c cs visible token rest read tokens later ih =>
      cases h
      obtain ⟨body, rfl, inside⟩ := ih later
      refine ⟨token :: body, rfl, fun member => ?_⟩
      rcases List.mem_cons.mp member with same | member
      · exact nextToken_ne_eof read same.symm
      · exact inside member
  | case5 => cases h

/-- The neighbours in an accepted guard, `eof` included. -/
theorem accepted_chain {chars : List Char} {tokens : List Token} {expr : Expr}
    (lexed : tokenizeChars chars = .ok tokens) (parsed : parse tokens = .ok expr) :
    tokens.IsChain Token.Precedes ∧ ∃ t, tokens.head? = some t ∧ t.starts := by
  obtain ⟨body, rfl, inside⟩ := tokenizeChars_body lexed
  have derived := parse_derives List.getLast?_concat parsed
  rw [beforeEof_append inside] at derived
  have operand := derived.operand
  obtain ⟨t, first, starts⟩ := operand.first
  obtain ⟨u, stop, ends⟩ := operand.last
  refine ⟨List.isChain_append.mpr ⟨operand.chain, List.isChain_singleton _, ?_⟩, t, ?_, starts⟩
  · intro x hx y hy
    rw [stop] at hx
    cases hx
    cases hy
    rw [Token.Precedes, if_pos ends]
    exact .inr (.inr (.inr rfl))
  · rw [List.head?_append, first]
    rfl

end SignalTopology.Guard
