import Mathlib.Logic.Relation
import SignalTopology.Library.SideBySide

/-!
# A loop by its repetitions

A run of a loop is a chain of repetitions and a last one. The chain can be cut at any
place and carried over to another stream. A loop that takes a token in every repetition
does not run out of fuel, so the chain can also be put together again.
-/

namespace TokenParser

open Relation

variable {τ ε α β σ σ' ρ ρ' : Type}

/-- The last token of the stream is one at which the loop stops. -/
def Tokens.EndsIn (stop : τ → Prop) (ts : Tokens τ) : Prop :=
  ∃ front last, ts.toList = front ++ [last] ∧ stop last

section

variable {stop : τ → Prop} {ts us : Tokens τ}

theorem Tokens.EndsIn.suffix (h : ts.EndsIn stop) (inside : us.toList <:+ ts.toList) :
    us.EndsIn stop := by
  obtain ⟨front, last, whole, stops⟩ := h
  obtain ⟨before, split⟩ := inside
  obtain ⟨more, longer⟩ := Tokens.split_last (whole.symm.trans split.symm)
  rw [whole, longer, List.append_assoc] at split
  exact ⟨more, last, List.append_cancel_left split, stops⟩

theorem Tokens.exists_toList {l : List τ} (some_left : l ≠ []) :
    ∃ ts : Tokens τ, ts.toList = l := by
  cases l with
  | nil => exact absurd rfl some_left
  | cons t l => exact ⟨⟨t, l⟩, rfl⟩

/-- A stream whose current token stands nowhere but at the end is at the end. -/
theorem Tokens.eq_last {body : List τ} {last : τ} (inside : us.toList <:+ body ++ [last])
    (outside : us.current ∉ body) : us = ⟨last, []⟩ := by
  obtain ⟨before, split⟩ := inside
  obtain ⟨more, rfl⟩ := Tokens.split_last split.symm
  rw [List.append_assoc] at split
  have whole := List.append_cancel_left split
  cases more with
  | nil => exact Tokens.toList_inj whole
  | cons t more =>
      obtain ⟨rfl, _⟩ := List.cons.inj whole
      exact absurd (List.mem_append_right _ List.mem_cons_self) outside

theorem Tokens.EndsIn.more (h : ts.EndsIn stop) (going : ¬ stop ts.current) : ts.rest ≠ [] := by
  intro none_left
  obtain ⟨front, last, whole, stops⟩ := h
  rw [Tokens.toList, none_left] at whole
  have same : [ts.current].getLast? = (front ++ [last]).getLast? := congrArg List.getLast? whole
  rw [List.getLast?_concat] at same
  cases same
  exact going stops

end

/-- The last token that the parser takes is a `closing` one, if the stream ends in no such
token. -/
def Closes (closing : τ → Prop) (p : Parser τ ε α) : Prop :=
  ∀ ⦃ts a us⦄, ts.EndsIn (fun t => ¬ closing t) → Yields p ts a us →
    ∃ front t, ts.toList = front ++ t :: us.toList ∧ closing t

section

variable {closing : τ → Prop} {p : Parser τ ε α} {f : α → Parser τ ε β}

theorem Closes.bind (first : Consumes p) (second : ∀ a, Closes closing (f a)) :
    Closes closing (p >>= f) := by
  intro ts b us ends h
  obtain ⟨a, mid, left, right⟩ := yields_bind.mp h
  obtain ⟨before, split⟩ := first left
  obtain ⟨front, t, rest, closes⟩ := second a (ends.suffix ⟨before, split⟩) right
  exact ⟨before ++ front, t, by rw [← split, rest, List.append_assoc], closes⟩

theorem Closes.pure {g : α → β} (h : Closes closing p) :
    Closes closing (do let a ← p; return g a) := by
  intro ts b us ends read
  obtain ⟨a, mid, inner, rest⟩ := yields_bind.mp read
  obtain ⟨_, rfl⟩ := yields_pure.mp rest
  exact h ends inner

/-- The token of the closing is the current one. -/
theorem closes_of_current {ts us : Tokens τ} (ends : ts.EndsIn fun t => ¬ closing t)
    (closes : closing ts.current) (taken : us = ts.advance) :
    ∃ front t, ts.toList = front ++ t :: us.toList ∧ closing t := by
  refine ⟨[], ts.current, ?_, closes⟩
  rw [taken, ← Tokens.rest_eq (ends.more fun other => other closes)]
  rfl

end

/-- Some repetitions of a loop, and none of them the last. -/
abbrev Runs (body : σ → Parser τ ε (σ ⊕ ρ)) : σ × Tokens τ → σ × Tokens τ → Prop :=
  ReflTransGen fun x y => Yields (body x.1) x.2 (.inl y.1) y.2

/-- Every repetition but the last takes a token, and not the one that ends the stream. -/
def Advances (stop : τ → Prop) (body : σ → Parser τ ε (σ ⊕ ρ)) : Prop :=
  ∀ ⦃s ts s' us⦄, Yields (body s) ts (.inl s') us →
    us.toList <:+ ts.advance.toList ∧ ¬ stop ts.current

section

variable {stop : τ → Prop} {body : σ → Parser τ ε (σ ⊕ ρ)}
variable {s s' : σ} {ts ts' us : Tokens τ} {r : ρ}

theorem Runs.suffix {x y : σ × Tokens τ} (h : Runs body x y) (advances : Advances stop body) :
    y.2.toList <:+ x.2.toList := by
  induction h with
  | refl => exact List.suffix_refl _
  | tail _ turn ih => exact ((advances turn).1.trans (Tokens.advance_suffix _)).trans ih

/-- Two chains from one place go the same way, and one that cannot go on is the longer one. -/
theorem Runs.rest {x y z : σ × Tokens τ} (h : Runs body x y) (whole : Runs body x z)
    (stopped : ∀ s us, ¬ Yields (body z.1) z.2 (.inl s) us) : Runs body y z := by
  have unique : Relator.RightUnique fun x y : σ × Tokens τ =>
      Yields (body x.1) x.2 (.inl y.1) y.2 := by
    rintro x ⟨s, ts⟩ ⟨s', ts'⟩ turn turn'
    obtain ⟨same, rfl⟩ := Yields.unique turn turn'
    cases same
    rfl
  obtain rest | back := ReflTransGen.total_of_right_unique unique h whole
  · exact rest
  · obtain same | ⟨_, turn, _⟩ := back.cases_head
    · rw [same]
    · exact absurd turn (stopped _ _)

/-- What every repetition keeps, of the state and of the stream. -/
theorem Runs.keeps (inv : σ → Tokens τ → Prop) {x y : σ × Tokens τ} (h : Runs body x y)
    (start : inv x.1 x.2)
    (step : ∀ s s' ts us, inv s ts → Yields (body s) ts (.inl s') us → inv s' us) :
    inv y.1 y.2 := by
  induction h with
  | refl => exact start
  | tail _ turn ih => exact step _ _ _ _ ih turn

theorem Iterates.runs {n : Nat} (h : Iterates body n s ts r us) :
    ∃ s' ts', Runs body (s, ts) (s', ts') ∧ Yields (body s') ts' (.inr r) us := by
  induction h with
  | done last => exact ⟨_, _, .refl, last⟩
  | @step _ s s' ts ts' _ _ first _ ih =>
      obtain ⟨s'', ts'', later, last⟩ := ih
      exact ⟨s'', ts'', .head (b := (s', ts')) first later, last⟩

/-- Each repetition takes a token, so there are no more of them than tokens. -/
theorem Runs.iterates (h : Runs body (s, ts) (s', ts')) (advances : Advances stop body)
    (ends : ts.EndsIn stop) (last : Yields (body s') ts' (.inr r) us) :
    ∃ n, n + ts'.toList.length ≤ ts.toList.length ∧ Iterates body n s ts r us := by
  generalize from_ : (s, ts) = x at h
  generalize to_ : (s', ts') = y at h
  induction h using ReflTransGen.head_induction_on generalizing s ts with
  | refl =>
      cases to_
      cases from_
      exact ⟨0, by omega, .done last⟩
  | @head x z turn later ih =>
      cases from_
      obtain ⟨taken, going⟩ : z.2.toList <:+ ts.advance.toList ∧ ¬ stop ts.current := advances turn
      have left := Tokens.advance_length (ends.more going)
      obtain ⟨n, bound, run⟩ := ih (ends.suffix (taken.trans ts.advance_suffix)) rfl
      have length := taken.length_le
      exact ⟨n + 1, by omega, .step turn run⟩

/-- A loop is a chain of repetitions and a last one. -/
theorem yields_iterate_runs (advances : Advances stop body) (ends : ts.EndsIn stop) :
    Yields (iterate body s) ts r us ↔
      ∃ s' ts', Runs body (s, ts) (s', ts') ∧ Yields (body s') ts' (.inr r) us := by
  rw [yields_iterate]
  constructor
  · rintro ⟨n, _, run⟩
    exact run.runs
  · rintro ⟨s', ts', run, last⟩
    obtain ⟨n, bound, whole⟩ := run.iterates advances ends last
    simp only [Tokens.toList_length] at bound
    exact ⟨n, by omega, whole⟩

end

/-- A chain of repetitions before a border is carried over, if each one is. -/
theorem Runs.along {b : Border τ} {V : σ → σ' → Prop} {stop : τ → Prop}
    {body : σ → Parser τ ε (σ ⊕ ρ)} {body' : σ' → Parser τ ε (σ' ⊕ ρ')}
    (step : ∀ {s t s' ts us ts'}, V s s' → Yields (body s) ts (.inl t) us → b.Before ts ts' →
      b.here.toList <:+ us.toList →
      ∃ t' us', Yields (body' s') ts' (.inl t') us' ∧ V t t' ∧ b.Before us us')
    {s t : σ} {s' : σ'} {ts ts' us : Tokens τ} (h : Runs body (s, ts) (t, us))
    (advances : Advances stop body) (start : V s s') (before : b.Before ts ts')
    (kept : b.here.toList <:+ us.toList) :
    ∃ t' us', Runs body' (s', ts') (t', us') ∧ V t t' ∧ b.Before us us' := by
  generalize to_ : (t, us) = y at h
  induction h generalizing t us with
  | refl =>
      cases to_
      exact ⟨s', ts', .refl, start, before⟩
  | @tail y z earlier turn ih =>
      cases to_
      have inside := (advances turn).1.trans (Tokens.advance_suffix _)
      obtain ⟨u, vs, run, related, between⟩ := ih (kept.trans inside) rfl
      obtain ⟨t', us', turn', same, after⟩ := step related turn between kept
      exact ⟨t', us', run.tail (b := (u, vs)) turn', same, after⟩

/-- A loop whose last repetition takes a closing token. -/
theorem Closes.iterate {closing stop : τ → Prop} {body : σ → Parser τ ε (σ ⊕ ρ)}
    (advances : Advances stop body)
    (last : ∀ ⦃s ts r us⦄, Yields (body s) ts (.inr r) us → closing ts.current ∧ us = ts.advance)
    (s : σ) : Closes closing (iterate body s) := by
  intro ts r us ends h
  obtain ⟨n, _, run⟩ := yields_iterate.mp h
  obtain ⟨s', ts', runs, final⟩ := run.runs
  obtain ⟨before, split⟩ := runs.suffix advances
  obtain ⟨closes, taken⟩ := last final
  obtain ⟨front, t, rest, closes⟩ := closes_of_current (ends.suffix ⟨before, split⟩) closes taken
  exact ⟨before ++ front, t, by rw [← split, rest, List.append_assoc], closes⟩

end TokenParser
