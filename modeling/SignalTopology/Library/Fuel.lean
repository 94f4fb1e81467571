import SignalTopology.Library.Fallible

/-!
# Fuel

A computation whose recursion is bounded by a fuel argument fails with an error
of its own when the fuel is gone. Two runs of it are compared: the second has at
least the fuel of the first, and its inputs correspond to those of the first.
-/

namespace Fuel

variable {ε α β γ δ : Type} {gone : ε} {R : α → β → Prop} {S : γ → δ → Prop}

/-- The second run ends as the first does, with a corresponding value or the same
error, unless the first has run out of fuel. -/
inductive Continues (gone : ε) (R : α → β → Prop) : Except ε α → Except ε β → Prop
  | cutOff (y : Except ε β) : Continues gone R (.error gone) y
  | fails (e : ε) : Continues gone R (.error e) (.error e)
  | returns {a : α} {b : β} (related : R a b) : Continues gone R (.ok a) (.ok b)

namespace Continues

variable {x : Except ε α} {y : Except ε β} {f : α → Except ε γ} {g : β → Except ε δ}

theorem bind (first : Continues gone R x y)
    (second : ∀ a b, R a b → Continues gone S (f a) (g b)) :
    Continues gone S (x >>= f) (y >>= g) := by
  cases first with
  | cutOff => exact cutOff _
  | fails e => exact fails e
  | returns related => exact second _ _ related

/-- A value of the longer run is a value of the shorter one, when it has enough. -/
theorem of_ok {b : β} (h : Continues gone R x (.ok b)) (enough : x ≠ .error gone) :
    ∃ a, x = .ok a ∧ R a b := by
  cases h with
  | cutOff => exact absurd rfl enough
  | returns related => exact ⟨_, rfl, related⟩

theorem refl (x : Except ε α) : Continues gone Eq x x := by
  cases x with
  | error e => exact fails e
  | ok a => exact returns rfl

/-- A loop continues as its body does. -/
theorem foldlM {f g : β → α → Except ε β} (each : ∀ b a, Continues gone Eq (f b a) (g b a))
    (b : β) (xs : List α) : Continues gone Eq (xs.foldlM f b) (xs.foldlM g b) := by
  induction xs generalizing b with
  | nil => exact returns rfl
  | cons x xs ih =>
      rw [List.foldlM_cons, List.foldlM_cons]
      refine (each b x).bind ?_
      rintro c _ rfl
      exact ih c

/-- Runs that return the same values are the same, when the first has enough. -/
theorem eq {x y : Except ε α} (h : Continues gone Eq x y) (enough : x ≠ .error gone) : y = x := by
  cases h with
  | cutOff => exact absurd rfl enough
  | fails => rfl
  | returns related => rw [related]

end Continues

end Fuel
