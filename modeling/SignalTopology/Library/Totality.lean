import SignalTopology.Library.Repetitions

/-!
# Parsers that always end

A parser is total on a stream if on every end of it the run comes to a result or to a message:
it neither panics nor runs out of fuel. Total parsers are put together like parsers. A loop
is total if its body is and takes a token in every repetition.
-/

namespace TokenParser

variable {τ ε α β σ ρ : Type}

/-- The run ends with a result, at an end of the stream, or with a message. -/
def Finishes (p : Parser τ ε α) (ts : Tokens τ) : Prop :=
  (∃ a us, Yields p ts a us ∧ us.toList <:+ ts.toList) ∨ ∃ e, p ts = .error (.error e)

/-- The parser finishes on every end of the stream. -/
def Total (whole : Tokens τ) (p : Parser τ ε α) : Prop :=
  ∀ ⦃ts : Tokens τ⦄, ts.toList <:+ whole.toList → Finishes p ts

section

variable {p : Parser τ ε α} {f : α → Parser τ ε β} {ts : Tokens τ}

theorem Yields.finishes {a : α} {us : Tokens τ} (h : Yields p ts a us)
    (inside : us.toList <:+ ts.toList) : Finishes p ts := .inl ⟨a, us, h, inside⟩

theorem Finishes.bind (first : Finishes p ts)
    (second : ∀ a us, Yields p ts a us → us.toList <:+ ts.toList → Finishes (f a) us) :
    Finishes (p >>= f) ts := by
  obtain ⟨a, us, read, inside⟩ | ⟨e, failed⟩ := first
  · obtain ⟨b, vs, rest, inside'⟩ | ⟨e, failed⟩ := second a us read inside
    · exact (read.bind rest).finishes (inside'.trans inside)
    · refine .inr ⟨e, ?_⟩
      show (p ts >>= fun (a, us) => f a us) = _
      rw [show p ts = .ok (a, us) from read]
      exact failed
  · refine .inr ⟨e, ?_⟩
    show (p ts >>= fun (a, us) => f a us) = _
    rw [failed]
    rfl

end

namespace Total

variable {whole us : Tokens τ} {p q : Parser τ ε α} {f : α → Parser τ ε β}

theorem pure (a : α) : Total whole (pure a : Parser τ ε α) :=
  fun ts _ => (yields_pure.mpr ⟨rfl, rfl⟩).finishes (List.suffix_refl ts.toList)

theorem fail (e : ε) : Total whole (TokenParser.fail e : Parser τ ε α) := fun _ _ => .inr ⟨e, rfl⟩

theorem peek : Total whole (peek : Parser τ ε τ) :=
  fun ts _ => (yields_peek.mpr ⟨rfl, rfl⟩).finishes (List.suffix_refl ts.toList)

theorem lookahead (n : Nat) : Total whole (lookahead n : Parser τ ε (Option τ)) :=
  fun ts _ => (yields_lookahead.mpr ⟨rfl, rfl⟩).finishes (List.suffix_refl ts.toList)

theorem advance : Total whole (advance : Parser τ ε τ) :=
  fun ts _ => (yields_advance.mpr ⟨rfl, rfl⟩).finishes ts.advance_suffix

theorem ensure (condition : Bool) (e : ε) : Total whole (ensure condition e : Parser τ ε Unit) := by
  unfold TokenParser.ensure
  split
  · exact pure ()
  · exact fail e

theorem ite {c : Prop} [Decidable c] (yes : c → Total whole p) (no : ¬ c → Total whole q) :
    Total whole (if c then p else q) := by
  split
  · next holds => exact yes holds
  · next fails => exact no fails

theorem bind (first : Total whole p) (second : ∀ a, Total whole (f a)) : Total whole (p >>= f) :=
  fun _ inside => (first inside).bind fun a _ _ deeper => second a (deeper.trans inside)

/-- Only the results of the first parser matter. -/
theorem bind_of (first : Total whole p) (second : ∀ ts a us, Yields p ts a us → Total whole (f a)) :
    Total whole (p >>= f) :=
  fun ts inside => (first inside).bind fun a us read deeper =>
    second ts a us read (deeper.trans inside)

theorem map {g : α → β} (h : Total whole p) : Total whole (g <$> p) := h.bind fun _ => pure _

/-! ## Loops -/

/-- The fuel of a loop is enough if there is some for every token left. -/
theorem loop {stop : τ → Prop} {inv : σ → Prop} {body : σ → Parser τ ε (σ ⊕ ρ)}
    (ends : whole.EndsIn stop) (advances : Advances stop body)
    (turn : ∀ s, inv s → Total whole (body s))
    (keeps : ∀ s ts s' us, inv s → Yields (body s) ts (.inl s') us → inv s') {fuel : Nat} {s : σ}
    {ts : Tokens τ} (start : inv s) (inside : ts.toList <:+ whole.toList)
    (enough : ts.toList.length ≤ fuel) : Finishes (loop body fuel s) ts := by
  induction fuel generalizing s ts with
  | zero =>
      rw [Tokens.toList_length] at enough
      omega
  | succ fuel ih =>
      refine (turn s start inside).bind ?_
      rintro (s' | r) us read deeper
      · obtain ⟨taken, going⟩ := advances read
        have left := Tokens.advance_length ((ends.suffix inside).more going)
        have length := taken.length_le
        exact ih (keeps s ts s' us start read) (deeper.trans inside) (by omega)
      · exact (yields_pure.mpr ⟨rfl, rfl⟩).finishes (List.suffix_refl us.toList)

theorem iterate_inv {stop : τ → Prop} {inv : σ → Prop} {body : σ → Parser τ ε (σ ⊕ ρ)}
    (ends : whole.EndsIn stop) (advances : Advances stop body)
    (turn : ∀ s, inv s → Total whole (body s))
    (keeps : ∀ s ts s' us, inv s → Yields (body s) ts (.inl s') us → inv s')
    {s : σ} (start : inv s) :
    Total whole (iterate body s) :=
  fun _ inside => loop ends advances turn keeps start inside (Nat.le_refl _)

theorem iterate {stop : τ → Prop} {body : σ → Parser τ ε (σ ⊕ ρ)} (ends : whole.EndsIn stop)
    (advances : Advances stop body) (turn : ∀ s, Total whole (body s)) (s : σ) :
    Total whole (iterate body s) :=
  @iterate_inv _ _ _ _ whole stop (fun _ => True) body ends advances (fun s _ => turn s)
    (fun _ _ _ _ _ _ => trivial) s trivial

/-- Items that each take a token, none of them the one that ends the stream. -/
theorem many {stop : τ → Prop} {starts : τ → Bool} (ends : whole.EndsIn stop)
    (going : ∀ t, starts t = true → ¬ stop t) (takes : Takes p) (item : Total whole p) :
    Total whole (many starts p) := by
  refine iterate ends ?_ (fun items => ?_) []
  · intro items ts next us read
    obtain ⟨start, _, inner, _⟩ | ⟨_, other, _⟩ := yields_manyStep.mp read
    · exact ⟨takes inner, going _ start⟩
    · cases other
  · refine peek.bind fun tok => .ite (fun _ => ?_) fun _ => pure _
    exact item.bind fun next => pure _

end Total

end TokenParser
