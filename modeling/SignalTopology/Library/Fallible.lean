import Mathlib.Data.List.Forall2

/-!
# Computations that can fail

What a computation in `Except` has done when it succeeded: each step of a
sequence, and each call of a loop over a list.
-/

namespace Fallible

variable {ε α β : Type}

/-- A sequence succeeds when both steps do. -/
theorem bind_ok_iff {x : Except ε α} {f : α → Except ε β} {b : β} :
    x >>= f = .ok b ↔ ∃ a, x = .ok a ∧ f a = .ok b := by
  constructor
  · intro h
    cases x with
    | error e => cases h
    | ok a => exact ⟨a, rfl, h⟩
  · rintro ⟨a, rfl, h⟩
    exact h

theorem bind_ok {x : Except ε α} {f : α → Except ε β} {b : β} (h : x >>= f = .ok b) :
    ∃ a, x = .ok a ∧ f a = .ok b :=
  bind_ok_iff.mp h

theorem mapError_ok {ε' : Type} {x : Except ε α} {f : ε → ε'} {a : α}
    (h : x.mapError f = .ok a) : x = .ok a := by
  cases x with
  | error e => cases h
  | ok a' =>
      cases h
      rfl

/-- A sequence succeeds when its first step does, and then `Q` holds. -/
theorem bind_succeeds_iff {x : Except ε α} {f : α → Except ε β} {Q : Prop}
    (later : ∀ a, (∃ b, f a = .ok b) ↔ Q) : (∃ b, x >>= f = .ok b) ↔ (∃ a, x = .ok a) ∧ Q := by
  simp only [bind_ok_iff]
  constructor
  · rintro ⟨b, a, first, second⟩
    exact ⟨⟨a, first⟩, (later a).mp ⟨b, second⟩⟩
  · rintro ⟨⟨a, first⟩, holds⟩
    obtain ⟨b, second⟩ := (later a).mpr holds
    exact ⟨b, a, first, second⟩

theorem map_succeeds_iff {x : Except ε α} {f : α → β} :
    (∃ b, (x >>= fun a => .ok (f a)) = .ok b) ↔ ∃ a, x = .ok a :=
  (bind_succeeds_iff fun a => iff_true_intro ⟨f a, rfl⟩).trans (and_iff_left trivial)

/-- A loop succeeds when every call does. -/
theorem forM_ok_iff {f : α → Except ε Unit} {xs : List α} :
    xs.forM f = .ok () ↔ ∀ x ∈ xs, f x = .ok () := by
  induction xs with
  | nil =>
      constructor
      · intro _ x member
        cases member
      · intro _
        rfl
  | cons x xs ih =>
      rw [List.forM_eq_forM, List.forM_cons, bind_ok_iff, List.forall_mem_cons]
      constructor
      · rintro ⟨⟨⟩, first, rest⟩
        exact ⟨first, ih.mp rest⟩
      · rintro ⟨first, rest⟩
        exact ⟨(), first, ih.mpr rest⟩

/-- The results of a loop are those of its calls, in order. -/
theorem mapM_ok_iff {f : α → Except ε β} {xs : List α} {ys : List β} :
    xs.mapM f = .ok ys ↔ List.Forall₂ (fun x y => f x = .ok y) xs ys := by
  induction xs generalizing ys with
  | nil =>
      rw [List.mapM_nil]
      constructor
      · intro h
        cases h
        exact .nil
      · intro h
        cases h
        rfl
  | cons x xs ih =>
      rw [List.mapM_cons, bind_ok_iff]
      constructor
      · rintro ⟨y, first, h⟩
        obtain ⟨rest, others, same⟩ := bind_ok h
        cases same
        exact .cons first (ih.mp others)
      · intro h
        cases h with
        | cons first others =>
            refine ⟨_, first, bind_ok_iff.mpr ⟨_, ih.mpr others, rfl⟩⟩

/-- A loop whose calls can only return the values of `g`. -/
theorem mapM_eq_map {f : α → Except ε β} {g : α → β} {xs : List α} {ys : List β}
    (h : xs.mapM f = .ok ys) (value : ∀ x y, f x = .ok y → y = g x) : ys = xs.map g := by
  rw [mapM_ok_iff] at h
  induction h with
  | nil => rfl
  | cons first _ ih => rw [value _ _ first, ih, List.map_cons]

/-- Every call of a loop that succeeds, succeeds. -/
theorem mapM_mem {f : α → Except ε β} {xs : List α} {ys : List β} (h : xs.mapM f = .ok ys) :
    ∀ x ∈ xs, ∃ y ∈ ys, f x = .ok y := by
  rw [mapM_ok_iff] at h
  induction h with
  | nil =>
      intro x member
      cases member
  | cons first _ ih =>
      rw [List.forall_mem_cons]
      refine ⟨⟨_, List.mem_cons_self, first⟩, fun x member => ?_⟩
      obtain ⟨y, inside, same⟩ := ih x member
      exact ⟨y, List.mem_cons_of_mem _ inside, same⟩

theorem mapM_succeeds_iff {f : α → Except ε β} {xs : List α} :
    (∃ ys, xs.mapM f = .ok ys) ↔ ∀ x ∈ xs, ∃ y, f x = .ok y := by
  induction xs with
  | nil => simp [List.mapM_nil, pure, Except.pure]
  | cons x xs ih =>
      rw [List.mapM_cons, List.forall_mem_cons, ← ih]
      exact bind_succeeds_iff fun y => map_succeeds_iff

/-- Every result of a loop is the result of a call. -/
theorem mapM_result {f : α → Except ε β} {xs : List α} {ys : List β} (h : xs.mapM f = .ok ys) :
    ∀ y ∈ ys, ∃ x ∈ xs, f x = .ok y := by
  rw [mapM_ok_iff] at h
  induction h with
  | nil =>
      intro y member
      cases member
  | cons first _ ih =>
      rw [List.forall_mem_cons]
      refine ⟨⟨_, List.mem_cons_self, first⟩, fun y member => ?_⟩
      obtain ⟨x, inside, same⟩ := ih y member
      exact ⟨x, List.mem_cons_of_mem _ inside, same⟩

/-- Two loops over related items have related results, if their calls do. -/
theorem mapM_related {α' β' ε' : Type} {R : α → α' → Prop} {Q : β → β' → Prop} {f : α → Except ε β}
    {g : α' → Except ε' β'} {xs : List α} {xs' : List α'} {ys : List β}
    (related : List.Forall₂ R xs xs') (h : xs.mapM f = .ok ys)
    (each : ∀ x x' y, R x x' → y ∈ ys → f x = .ok y → ∃ y', g x' = .ok y' ∧ Q y y') :
    ∃ ys', xs'.mapM g = .ok ys' ∧ List.Forall₂ Q ys ys' := by
  rw [mapM_ok_iff] at h
  induction related generalizing ys with
  | nil =>
      cases h
      exact ⟨[], rfl, .nil⟩
  | cons first _ ih =>
      cases h with
      | cons made others =>
          obtain ⟨y', made', same⟩ := each _ _ _ first List.mem_cons_self made
          obtain ⟨ys', later, rest⟩ :=
            ih others fun x x' y related member =>
              each x x' y related (List.mem_cons_of_mem _ member)
          refine ⟨y' :: ys', ?_, .cons same rest⟩
          rw [mapM_ok_iff] at later ⊢
          exact .cons made' later

/-- An accumulator keeps what every step keeps. -/
theorem foldlM_ok (inv : β → Prop) {f : β → α → Except ε β} {xs : List α} {b b' : β}
    (h : xs.foldlM f b = .ok b') (start : inv b)
    (step : ∀ x ∈ xs, ∀ b b', inv b → f b x = .ok b' → inv b') : inv b' := by
  induction xs generalizing b with
  | nil =>
      cases h
      exact start
  | cons x xs ih =>
      rw [List.foldlM_cons] at h
      obtain ⟨c, first, rest⟩ := bind_ok h
      refine ih rest (step x List.mem_cons_self b c start first) ?_
      exact fun y member => step y (List.mem_cons_of_mem x member)

/-- A fold that succeeds has gone through every element. -/
theorem foldlM_mem {f : β → α → Except ε β} {xs : List α} {b b' : β} (h : xs.foldlM f b = .ok b') :
    ∀ x ∈ xs, ∃ b₁ b₂, f b₁ x = .ok b₂ := by
  induction xs generalizing b with
  | nil =>
      intro x member
      cases member
  | cons y xs ih =>
      rw [List.foldlM_cons] at h
      obtain ⟨next, turn, later⟩ := bind_ok h
      exact List.forall_mem_cons.mpr ⟨⟨b, next, turn⟩, ih later⟩

/-! ## Errors -/

/-- Every error of the computation satisfies `P`. -/
def Fails (P : ε → Prop) (x : Except ε α) : Prop := ∀ e, x = .error e → P e

namespace Fails

variable {P : ε → Prop}

theorem ok {a : α} : Fails P (.ok a : Except ε α) := by
  intro e h
  cases h

theorem error {e : ε} (holds : P e) : Fails P (.error e : Except ε α) := by
  intro e' h
  cases h
  exact holds

theorem mono {Q : ε → Prop} {x : Except ε α} (h : Fails P x) (weaker : ∀ e, P e → Q e) :
    Fails Q x :=
  fun e failed => weaker e (h e failed)

/-- The second step runs only on what the first one returned. -/
theorem bind_of_ok {x : Except ε α} {f : α → Except ε β} (first : Fails P x)
    (second : ∀ a, x = .ok a → Fails P (f a)) : Fails P (x >>= f) := by
  intro e h
  cases x with
  | error e' =>
      cases h
      exact first e rfl
  | ok a => exact second a rfl e h

theorem bind {x : Except ε α} {f : α → Except ε β} (first : Fails P x)
    (second : ∀ a, Fails P (f a)) : Fails P (x >>= f) :=
  first.bind_of_ok fun a _ => second a

theorem mapError {ε' : Type} {x : Except ε' α} {f : ε' → ε} (holds : ∀ e, P (f e)) :
    Fails P (x.mapError f) := by
  cases x with
  | error e => exact error (holds e)
  | ok a => exact ok

theorem mapM {f : α → Except ε β} {xs : List α} (each : ∀ x, Fails P (f x)) :
    Fails P (xs.mapM f) := by
  induction xs with
  | nil => exact ok
  | cons x xs ih =>
      rw [List.mapM_cons]
      exact (each x).bind fun y => ih.bind fun ys => ok

theorem foldlM {f : β → α → Except ε β} {xs : List α} {b : β} (each : ∀ b x, Fails P (f b x)) :
    Fails P (xs.foldlM f b) := by
  induction xs generalizing b with
  | nil => exact ok
  | cons x xs ih =>
      rw [List.foldlM_cons]
      exact (each b x).bind fun _ => ih

end Fails

end Fallible
