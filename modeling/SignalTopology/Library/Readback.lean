import Mathlib.Data.List.Forall2
import Mathlib.Data.Set.Basic

/-!
# Texts that tell what was written

A text that is put together from pieces can be taken apart again if each piece shows where it
ends, whatever follows it. Such pieces may be put one after the other, may be ended by a sign
that does not occur in them, or by one that is escaped where it does.
-/

namespace Readback

variable {α β : Type} {S : Set α} {R R' : α → α → Prop} {write write' : α → List β}

/-- What is written for a value of `S` tells the value up to `R`, and where it ends. -/
def Delimits (S : Set α) (R : α → α → Prop) (write : α → List β) : Prop :=
  ∀ ⦃a⦄, a ∈ S → ∀ ⦃b⦄, b ∈ S → ∀ rest rest',
    write a ++ rest = write b ++ rest' → R a b ∧ rest = rest'

theorem delimits_const (text : List β) : Delimits S (fun _ _ => True) fun _ => text :=
  fun _ _ _ _ _ _ same => ⟨trivial, List.append_cancel_left same⟩

/-- A sign that is in neither of two texts ends them. -/
theorem ends_unique {stop : β} {text text' rest rest' : List β} (absent : stop ∉ text)
    (absent' : stop ∉ text') (same : text ++ stop :: rest = text' ++ stop :: rest') :
    text = text' ∧ rest = rest' := by
  induction text generalizing text' with
  | nil =>
      cases text' with
      | nil => exact ⟨rfl, (List.cons.inj same).2⟩
      | cons d ds => exact absurd ((List.cons.inj same).1 ▸ List.mem_cons_self) absent'
  | cons c cs ih =>
      cases text' with
      | nil => exact absurd ((List.cons.inj same).1 ▸ List.mem_cons_self) absent
      | cons d ds =>
          obtain ⟨equal, after⟩ := List.cons.inj same
          obtain ⟨more, last⟩ := ih (fun member => absent (List.mem_cons_of_mem c member))
            (fun member => absent' (List.mem_cons_of_mem d member)) after
          exact ⟨by rw [equal, more], last⟩

/-- A sign that is in none of the texts ends them. -/
theorem delimits_upTo (text : α → List β) (stop : β) (absent : ∀ a ∈ S, stop ∉ text a) :
    Delimits S (fun a b => text a = text b) fun a => text a ++ [stop] := by
  intro a first b second rest rest' same
  rw [List.append_assoc, List.append_assoc] at same
  exact ends_unique (absent a first) (absent b second) same

namespace Delimits

/-- Less is told of what is written in these pieces. -/
theorem mono (h : Delimits S R write) (pieces : ∀ a, write' a = write a)
    (weaker : ∀ a b, R a b → R' a b) : Delimits S R' write' := by
  intro a first b second rest rest' same
  rw [pieces, pieces] at same
  obtain ⟨related, after⟩ := h first second rest rest' same
  exact ⟨weaker a b related, after⟩

/-- What is written tells the part of a value that it is written for. -/
theorem comap {γ : Type} (h : Delimits S R write) (part : γ → α) {T : Set γ}
    (into : ∀ c ∈ T, part c ∈ S) :
    Delimits T (fun c d => R (part c) (part d)) fun c => write (part c) :=
  fun c first d second rest rest' same => h (into c first) (into d second) rest rest' same

/-- One piece after the other. -/
theorem append (h : Delimits S R write) (h' : Delimits S R' write') :
    Delimits S (fun a b => R a b ∧ R' a b) fun a => write a ++ write' a := by
  intro a first b second rest rest' same
  rw [List.append_assoc, List.append_assoc] at same
  obtain ⟨front, after⟩ := h first second _ _ same
  obtain ⟨back, last⟩ := h' first second _ _ after
  exact ⟨⟨front, back⟩, last⟩

/-- The pieces of a text are told by the text. -/
theorem flatMap (h : Delimits S R write) (visible : ∀ a ∈ S, write a ≠ []) {as bs : List α}
    (first : ∀ a ∈ as, a ∈ S) (second : ∀ b ∈ bs, b ∈ S)
    (same : as.flatMap write = bs.flatMap write) : List.Forall₂ R as bs := by
  induction as generalizing bs with
  | nil =>
      cases bs with
      | nil => exact .nil
      | cons b bs =>
          rw [List.flatMap_cons, List.flatMap_nil] at same
          exact absurd (List.append_eq_nil_iff.mp same.symm).1
            (visible b (second b List.mem_cons_self))
  | cons a as ih =>
      cases bs with
      | nil =>
          rw [List.flatMap_cons, List.flatMap_nil] at same
          exact absurd (List.append_eq_nil_iff.mp same).1 (visible a (first a List.mem_cons_self))
      | cons b bs =>
          rw [List.flatMap_cons, List.flatMap_cons] at same
          obtain ⟨related, after⟩ :=
            h (first a List.mem_cons_self) (second b List.mem_cons_self) _ _ same
          exact .cons related (ih (fun a' member => first a' (List.mem_cons_of_mem a member))
            (fun b' member => second b' (List.mem_cons_of_mem b member)) after)

end Delimits

/-! ## Escaping -/

/-- Some signs are written behind a mark. -/
def behindMark (mark : β) (special : β → Bool) (text : List β) : List β :=
  text.flatMap fun c => if special c then [mark, c] else [c]

section

variable {mark stop : β} {special : β → Bool}

theorem behindMark_cons (c : β) (cs : List β) : behindMark mark special (c :: cs) =
    (if special c then [mark, c] else [c]) ++ behindMark mark special cs := rfl

/-- A text that goes on does not show a sign that is escaped. -/
theorem behindMark_goes_on (other : stop ≠ mark) (escaped : special stop = true) (c : β)
    (cs more : List β) {rest : List β} : stop :: rest ≠ behindMark mark special
      (c :: cs) ++ more := by
  intro same
  rw [behindMark_cons] at same
  split at same
  · exact other (List.cons.inj same).1
  · next plain => exact plain ((List.cons.inj same).1 ▸ escaped)

/-- A sign that is escaped, as the mark is, ends every text. -/
theorem delimits_behindMark (other : stop ≠ mark) (marked : special mark = true)
    (escaped : special stop = true) :
    Delimits Set.univ Eq fun text => behindMark mark special text ++ [stop] := by
  intro text _ text' _ rest rest' same
  rw [List.append_assoc, List.append_assoc] at same
  change behindMark mark special text ++ stop :: rest =
    behindMark mark special text' ++ stop :: rest' at same
  induction text generalizing text' with
  | nil =>
      cases text' with
      | nil => exact ⟨rfl, (List.cons.inj same).2⟩
      | cons d ds => exact absurd same (behindMark_goes_on other escaped d ds _)
  | cons c cs ih =>
      cases text' with
      | nil => exact absurd same.symm (behindMark_goes_on other escaped c cs _)
      | cons d ds =>
          have split : c = d ∧ behindMark mark special cs ++ stop :: rest =
              behindMark mark special ds ++ stop :: rest' := by
            rw [behindMark_cons, behindMark_cons] at same
            split at same <;> split at same
            · exact List.cons.inj (List.cons.inj same).2
            · next plain => exact absurd ((List.cons.inj same).1 ▸ marked) plain
            · next plain _ => exact absurd ((List.cons.inj same).1 ▸ marked) plain
            · exact List.cons.inj same
          obtain ⟨more, last⟩ := ih trivial trivial split.2
          exact ⟨by rw [split.1, more], last⟩

end

end Readback
