import Mathlib.Data.List.Nodup
import Mathlib.Logic.Relation
import Mathlib.Order.Bounds.Basic

/-!
# Fork/join schedules

Tasks carry an optional group and a list of groups they wait for. A group is
complete when it has a member and every member has run. A `Schedule` of the
tasks `xs` is an order that runs nothing twice, runs a task only after the
groups it waits for, and leaves no runnable task out. Whatever the order is,
the tasks it runs are the least set closed under being runnable.
-/

namespace ForkJoin

variable {ι κ : Type} (group : ι → Option κ) (requires : ι → List κ) (xs : List ι)

/-- Every group that `r` waits for has a member, and all its members are done. -/
def Satisfied (done : Set ι) (r : ι) : Prop :=
  ∀ g ∈ requires r, (∃ m ∈ xs, group m = some g) ∧ ∀ m ∈ xs, group m = some g → m ∈ done

/-- A set of tasks from which no further task is runnable. -/
def Closed (done : Set ι) : Prop :=
  ∀ r ∈ xs, Satisfied group requires xs done r → r ∈ done

/-- `m` belongs to a group that `r` waits for. -/
def Awaits (r m : ι) : Prop :=
  m ∈ xs ∧ ∃ g ∈ requires r, group m = some g

structure Schedule (order : List ι) : Prop where
  nodup : order.Nodup
  subset : ∀ r ∈ order, r ∈ xs
  respects : ∀ front r back, order = front ++ r :: back →
    Satisfied group requires xs {m | m ∈ front} r
  complete : Closed group requires xs {r | r ∈ order}

variable {group requires xs}

theorem Satisfied.mono {done done' : Set ι} {r : ι} (h : Satisfied group requires xs done r)
    (more : done ⊆ done') : Satisfied group requires xs done' r :=
  fun g required => ⟨(h g required).1, fun m member same => more ((h g required).2 m member same)⟩

namespace Schedule

variable {order : List ι}

/-- The tasks of a schedule are the least set closed under being runnable. -/
theorem isLeast (h : Schedule group requires xs order) :
    IsLeast {done | Closed group requires xs done} {r | r ∈ order} := by
  refine ⟨h.complete, fun done closed => ?_⟩
  -- by induction on the length of a prefix: a task follows from the ones before it
  have prefixes : ∀ n front back, front.length = n → order = front ++ back →
      ∀ r ∈ front, r ∈ done := by
    intro n
    induction n with
    | zero =>
        intro front back empty _ r member
        rw [List.length_eq_zero_iff.mp empty] at member
        cases member
    | succ n ih =>
        intro front back size split r member
        obtain ⟨init, last, rfl⟩ : ∃ init last, front = init ++ [last] :=
          ⟨_, _, (List.dropLast_append_getLast (List.ne_nil_of_length_eq_add_one size)).symm⟩
        have before := ih init (last :: back) (by simpa using size) (by simpa using split)
        rcases List.mem_append.mp member with earlier | latest
        · exact before r earlier
        · rw [List.mem_singleton.mp latest]
          refine closed last (h.subset last (by simp [split])) ?_
          exact (h.respects init last back (by simpa using split)).mono before
  exact fun r member => prefixes order.length order [] rfl (by simp) r member

/-- A task runs only after everything it awaits, directly or through others. -/
theorem awaited_before (h : Schedule group requires xs order) {front back : List ι} {r m : ι}
    (split : order = front ++ r :: back)
    (awaited : Relation.TransGen (Awaits group requires xs) r m) : m ∈ front := by
  induction awaited with
  | single direct =>
      obtain ⟨member, g, required, same⟩ := direct
      exact (h.respects front r back split g required).2 _ member same
  | tail _ direct ih =>
      obtain ⟨member, g, required, same⟩ := direct
      obtain ⟨early, late, rfl⟩ := List.append_of_mem ih
      have earlier := (h.respects early _ (late ++ r :: back) (by simp [split]) g required).2 _
        member same
      exact List.mem_append_left _ earlier

end Schedule

end ForkJoin
