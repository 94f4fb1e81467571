import Mathlib.Data.List.Basic

/-!
# Walks

A walk is a list of steps, each with a source and a target, in which every step
starts where the one before it ended. A log of steps that is a walk is an exact
history: it determines the current place from the initial one.
-/

/-- The steps lead from `a` to `c` without a gap. -/
inductive Walk {α : Type} : α → List (α × α) → α → Prop where
  | nil (a : α) : Walk a [] a
  | cons {a b c : α} {steps : List (α × α)} (rest : Walk b steps c) : Walk a ((a, b) :: steps) c

namespace Walk

variable {α : Type} {a b c : α} {steps steps' : List (α × α)}

theorem single (a b : α) : Walk a [(a, b)] b := .cons (.nil b)

theorem append (first : Walk a steps b) (second : Walk b steps' c) :
    Walk a (steps ++ steps') c := by
  induction first with
  | nil => exact second
  | cons _ ih => exact .cons (ih second)

/-- A walk without steps stays where it is. -/
theorem eq_of_nil (walk : Walk a [] b) : b = a := by
  cases walk
  rfl

/-- The steps and the place where they start determine the place where they end. -/
theorem unique (walk : Walk a steps b) (walk' : Walk a steps c) : b = c := by
  induction walk with
  | nil => exact walk'.eq_of_nil.symm
  | cons _ ih =>
      cases walk' with
      | cons rest => exact ih rest

/-- A walk ends at the target of its last step. -/
theorem last {f t : α} (walk : Walk a (steps ++ [(f, t)]) b) : b = t := by
  induction steps generalizing a with
  | nil =>
      cases walk with
      | cons rest => exact rest.eq_of_nil
  | cons step steps ih =>
      cases walk with
      | cons rest => exact ih rest

end Walk
