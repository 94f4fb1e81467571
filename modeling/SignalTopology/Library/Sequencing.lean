import Mathlib.Data.List.Basic

/-!
# Sequences of fallible steps

`runAll fire rs s` performs the steps `rs` in order on the state `s` and stops
at the first one that fails. The state reached is kept in either case. The
lemmas below say which steps were performed and what they preserve; `attempts`
observes the performed steps with their outcomes.
-/

namespace Sequencing

variable {ρ τ σ ε : Type}

/-- Perform the steps in order, stopping at the first error. -/
def runAll (fire : ρ → σ → Except ε Unit × σ) : List ρ → σ → Except ε Unit × σ
  | [], s => (.ok (), s)
  | r :: rs, s =>
      match fire r s with
      | (.ok (), s) => runAll fire rs s
      | (.error e, s) => (.error e, s)

section

variable {fire : ρ → σ → Except ε Unit × σ}

@[simp] theorem runAll_nil (s : σ) : runAll fire [] s = (.ok (), s) := rfl

theorem runAll_cons_ok {r : ρ} {rs : List ρ} {s t : σ} (first : fire r s = (.ok (), t)) :
    runAll fire (r :: rs) s = runAll fire rs t := by
  simp only [runAll, first]

theorem runAll_cons_error {r : ρ} {rs : List ρ} {s t : σ} {e : ε}
    (first : fire r s = (.error e, t)) : runAll fire (r :: rs) s = (.error e, t) := by
  simp only [runAll, first]

/-- A step either succeeds or stops the sequence. -/
theorem step_cases (fire : ρ → σ → Except ε Unit × σ) (r : ρ) (s : σ) :
    (∃ t, fire r s = (.ok (), t)) ∨ ∃ e t, fire r s = (.error e, t) := by
  obtain ⟨outcome, t⟩ := fire r s
  cases outcome with
  | ok => exact .inl ⟨t, rfl⟩
  | error e => exact .inr ⟨e, t, rfl⟩

theorem runAll_append_ok {front back : List ρ} {s t : σ}
    (first : runAll fire front s = (.ok (), t)) :
    runAll fire (front ++ back) s = runAll fire back t := by
  induction front generalizing s with
  | nil =>
      cases first
      rfl
  | cons r rs ih =>
      obtain ⟨u, step⟩ | ⟨e, u, step⟩ := step_cases fire r s
      · rw [runAll_cons_ok step] at first
        rw [List.cons_append, runAll_cons_ok step, ih first]
      · rw [runAll_cons_error step] at first
        cases first

/-- A failing sequence is a successful prefix and one failing step; the steps
after it are not performed. -/
theorem runAll_error_iff {rs : List ρ} {s t : σ} {e : ε} :
    runAll fire rs s = (.error e, t) ↔
      ∃ front r back u, rs = front ++ r :: back ∧ runAll fire front s = (.ok (), u) ∧
        fire r u = (.error e, t) := by
  constructor
  · intro failed
    induction rs generalizing s with
    | nil => cases failed
    | cons r rs ih =>
        obtain ⟨u, step⟩ | ⟨e', u, step⟩ := step_cases fire r s
        · rw [runAll_cons_ok step] at failed
          obtain ⟨front, r', back, v, rfl, reached, last⟩ := ih failed
          exact ⟨r :: front, r', back, v, rfl, by rw [runAll_cons_ok step, reached], last⟩
        · rw [runAll_cons_error step] at failed
          exact ⟨[], r, rs, s, rfl, rfl, by rw [step, failed]⟩
  · rintro ⟨front, r, back, u, rfl, reached, last⟩
    rw [runAll_append_ok reached, runAll_cons_error last]

/-- A relation between states that composes and holds across every step that is
performed holds across the sequence, whether or not it stops early. -/
theorem runAll_along {R : σ → σ → Prop} (refl : ∀ s, R s s)
    (trans : ∀ {s t u}, R s t → R t u → R s u) {rs : List ρ} {s : σ}
    (step : ∀ front r back t, rs = front ++ r :: back → runAll fire front s = (.ok (), t) →
      R t (fire r t).2) : R s (runAll fire rs s).2 := by
  induction rs generalizing s with
  | nil => exact refl s
  | cons r rs ih =>
      have first := step [] r rs s rfl rfl
      obtain ⟨t, done⟩ | ⟨e, t, failed⟩ := step_cases fire r s
      · rw [runAll_cons_ok done]
        rw [done] at first
        refine trans first (ih fun front r' back u split reached => ?_)
        exact step (r :: front) r' back u (by rw [split]; rfl)
          (by rw [runAll_cons_ok done, reached])
      · rw [runAll_cons_error failed]
        rwa [failed] at first

/-- The same when the relation holds across every step from any state. -/
theorem runAll_rel {R : σ → σ → Prop} (refl : ∀ s, R s s)
    (trans : ∀ {s t u}, R s t → R t u → R s u) {rs : List ρ}
    (step : ∀ r ∈ rs, ∀ s, R s (fire r s).2) (s : σ) : R s (runAll fire rs s).2 :=
  runAll_along refl trans fun _ r _ t split _ => step r (by simp [split]) t

/-- The same for a relation that is only required of successful steps. -/
theorem runAll_rel_ok {R : σ → σ → Prop} (refl : ∀ s, R s s)
    (trans : ∀ {s t u}, R s t → R t u → R s u) {rs : List ρ}
    (step : ∀ r ∈ rs, ∀ s t, fire r s = (.ok (), t) → R s t) {s t : σ}
    (done : runAll fire rs s = (.ok (), t)) : R s t := by
  induction rs generalizing s with
  | nil =>
      cases done
      exact refl _
  | cons r rs ih =>
      obtain ⟨u, first⟩ | ⟨e, u, first⟩ := step_cases fire r s
      · rw [runAll_cons_ok first] at done
        exact trans (step r List.mem_cons_self s u first)
          (ih (fun r' member => step r' (List.mem_cons_of_mem r member)) done)
      · rw [runAll_cons_error first] at done
        cases done

end

/-- Steps that each cost at most `n` cost at most `n` for each of them. -/
theorem runAll_costs {P : σ → Prop} {fire : ρ → σ → Except ε Unit × σ}
    {C : Nat → σ → σ → Prop} (free : ∀ k s, C k s s)
    (trans : ∀ {k l s t u}, C k s t → C l t u → C (k + l) s u) {n : Nat} {rs : List ρ}
    (step : ∀ r ∈ rs, ∀ s, P s → P (fire r s).2 ∧ C n s (fire r s).2) {s : σ} (holds : P s) :
    C (rs.length * n) s (runAll fire rs s).2 := by
  induction rs generalizing s with
  | nil => exact free _ s
  | cons r rs ih =>
      obtain ⟨after, first⟩ := step r List.mem_cons_self s holds
      rw [List.length_cons, Nat.succ_mul, Nat.add_comm]
      obtain ⟨t, done⟩ | ⟨e, t, failed⟩ := step_cases fire r s
      · rw [done] at after first
        rw [runAll_cons_ok done]
        exact trans first (ih (fun r' member => step r' (List.mem_cons_of_mem r member)) after)
      · rw [failed] at first
        rw [runAll_cons_error failed]
        exact trans first (free _ t)

/-- Steps that each raise a count by at most `n` raise it by at most `n` for each of them. -/
theorem runAll_adds {P : σ → Prop} {fire : ρ → σ → Except ε Unit × σ} (count : σ → Nat) {n : Nat}
    {rs : List ρ} (step : ∀ r ∈ rs, ∀ s, P s → P (fire r s).2 ∧ count (fire r s).2 ≤ count s + n)
    {s : σ} (holds : P s) : count (runAll fire rs s).2 ≤ count s + rs.length * n :=
  runAll_costs (C := fun k s t => count t ≤ count s + k) (fun k s => Nat.le_add_right _ k)
    (fun first second => by omega) step holds

/-- A map between states that commutes with every step, as long as an invariant
holds that the steps keep, commutes with the sequence. -/
theorem runAll_commutes {σ' : Type} {fire : ρ → σ → Except ε Unit × σ}
    {fire' : ρ → σ' → Except ε Unit × σ'} (f : σ → σ') (inv : σ → Prop) {rs : List ρ}
    (step : ∀ r ∈ rs, ∀ s, inv s →
      fire' r (f s) = ((fire r s).1, f (fire r s).2) ∧ inv (fire r s).2) {s : σ} (holds : inv s) :
    runAll fire' rs (f s) = ((runAll fire rs s).1, f (runAll fire rs s).2) := by
  induction rs generalizing s with
  | nil => rfl
  | cons r rs ih =>
      obtain ⟨same, kept⟩ := step r List.mem_cons_self s holds
      obtain ⟨t, done⟩ | ⟨e, t, failed⟩ := step_cases fire r s
      · rw [done] at same kept
        rw [runAll_cons_ok same, runAll_cons_ok done]
        exact ih (fun r' member => step r' (List.mem_cons_of_mem r member)) kept
      · rw [failed] at same
        rw [runAll_cons_error same, runAll_cons_error failed]

theorem runAll_map (fire : τ → σ → Except ε Unit × σ) (f : ρ → τ) (rs : List ρ) (s : σ) :
    runAll fire (rs.map f) s = runAll (fun r => fire (f r)) rs s := by
  induction rs generalizing s with
  | nil => rfl
  | cons r rs ih =>
      obtain ⟨t, step⟩ | ⟨e, t, step⟩ := step_cases fire (f r) s
      · simp only [List.map_cons, runAll, step, ih]
      · simp only [List.map_cons, runAll, step]

/-- Perform a step and append it to a log together with its outcome. -/
def logged (fire : ρ → σ → Except ε Unit × σ) (r : ρ)
    (s : σ × List (ρ × Except ε Unit)) : Except ε Unit × (σ × List (ρ × Except ε Unit)) :=
  ((fire r s.1).1, ((fire r s.1).2, s.2 ++ [(r, (fire r s.1).1)]))

/-- The performed steps with their outcomes, in order. -/
def attempts (fire : ρ → σ → Except ε Unit × σ) (rs : List ρ) (s : σ) :
    List (ρ × Except ε Unit) :=
  (runAll (logged fire) rs (s, [])).2.2

section

variable {fire : ρ → σ → Except ε Unit × σ}

/-- Logging changes neither the outcome nor the state, and a successful
sequence performs every step once. -/
theorem runAll_logged_ok {rs : List ρ} {s t : σ} (done : runAll fire rs s = (.ok (), t))
    (log : List (ρ × Except ε Unit)) :
    runAll (logged fire) rs (s, log) = (.ok (), (t, log ++ rs.map (·, .ok ()))) := by
  induction rs generalizing s log with
  | nil =>
      cases done
      simp
  | cons r rs ih =>
      obtain ⟨u, step⟩ | ⟨e, u, step⟩ := step_cases fire r s
      · rw [runAll_cons_ok step] at done
        have first : logged fire r (s, log) = (.ok (), (u, log ++ [(r, .ok ())])) := by
          simp [logged, step]
        rw [runAll_cons_ok first, ih done]
        simp
      · rw [runAll_cons_error step] at done
        cases done

theorem runAll_logged_error {front back : List ρ} {r : ρ} {s t u : σ} {e : ε}
    (reached : runAll fire front s = (.ok (), u)) (last : fire r u = (.error e, t))
    (log : List (ρ × Except ε Unit)) :
    runAll (logged fire) (front ++ r :: back) (s, log) =
      (.error e, (t, log ++ front.map (·, .ok ()) ++ [(r, .error e)])) := by
  rw [runAll_append_ok (runAll_logged_ok reached log)]
  have final : logged fire r (u, log ++ front.map (·, .ok ())) =
      (.error e, (t, log ++ front.map (·, .ok ()) ++ [(r, .error e)])) := by
    simp [logged, last]
  rw [runAll_cons_error final]

theorem attempts_ok {rs : List ρ} {s t : σ} (done : runAll fire rs s = (.ok (), t)) :
    attempts fire rs s = rs.map (·, .ok ()) := by
  simp [attempts, runAll_logged_ok done]

theorem attempts_error {front back : List ρ} {r : ρ} {s t u : σ} {e : ε}
    (reached : runAll fire front s = (.ok (), u)) (last : fire r u = (.error e, t)) :
    attempts fire (front ++ r :: back) s = front.map (·, .ok ()) ++ [(r, .error e)] := by
  simp [attempts, runAll_logged_error reached last]

/-- A sequence fails at one step only. -/
theorem failure_unique {front front' back back' : List ρ} {r r' : ρ} {s t t' u u' : σ} {e e' : ε}
    (same : front ++ r :: back = front' ++ r' :: back')
    (reached : runAll fire front s = (.ok (), u)) (last : fire r u = (.error e, t))
    (reached' : runAll fire front' s = (.ok (), u')) (last' : fire r' u' = (.error e', t')) :
    front = front' ∧ r = r' := by
  have log : attempts fire (front ++ r :: back) s = _ := attempts_error reached last
  rw [same, attempts_error reached' last'] at log
  obtain ⟨fronts, lasts⟩ := List.append_inj' log rfl
  have injective : Function.Injective fun r : ρ => (r, (.ok () : Except ε Unit)) :=
    fun _ _ equal => (Prod.mk.inj equal).1
  exact ⟨(List.map_injective_iff.mpr injective fronts).symm,
    (Prod.mk.inj (List.singleton_inj.mp lasts)).1.symm⟩

/-- The performed steps are a prefix of the sequence; all but the last one
succeeded, and the last one failed exactly when the sequence did. -/
theorem attempts_cases (fire : ρ → σ → Except ε Unit × σ) (rs : List ρ) (s : σ) :
    (∃ t, runAll fire rs s = (.ok (), t) ∧ attempts fire rs s = rs.map (·, .ok ())) ∨
      ∃ front r back e t, rs = front ++ r :: back ∧ runAll fire rs s = (.error e, t) ∧
        attempts fire rs s = front.map (·, .ok ()) ++ [(r, .error e)] := by
  rcases h : runAll fire rs s with ⟨outcome, t⟩
  cases outcome with
  | ok => exact .inl ⟨t, rfl, attempts_ok h⟩
  | error e =>
      obtain ⟨front, r, back, u, rfl, reached, last⟩ := runAll_error_iff.mp h
      exact .inr ⟨front, r, back, e, t, rfl, rfl, attempts_error reached last⟩

/-- Everything logged before an entry succeeded, in the order of the sequence. -/
theorem attempts_split {rs : List ρ} {s : σ} {front back : List (ρ × Except ε Unit)} {r : ρ}
    {outcome : Except ε Unit} (log : attempts fire rs s = front ++ (r, outcome) :: back) :
    ∃ before after, rs = before ++ r :: after ∧ front = before.map (·, .ok ()) := by
  have prefix_ok : ∀ (done : List ρ) (front back : List (ρ × Except ε Unit)) outcome,
      done.map (·, .ok ()) = front ++ (r, outcome) :: back →
      ∃ before after, done = before ++ r :: after ∧ front = before.map (·, .ok ()) := by
    intro done front back outcome same
    obtain ⟨before, rest, rfl, rfl, tail⟩ := List.map_eq_append_iff.mp same
    obtain ⟨r', after, rfl, entry, _⟩ := List.map_eq_cons_iff.mp tail
    obtain ⟨rfl, _⟩ := Prod.mk.inj entry
    exact ⟨before, after, rfl, rfl⟩
  obtain ⟨t, _, all⟩ | ⟨init, last, rest, e, t, rfl, _, performed⟩ := attempts_cases fire rs s
  · exact prefix_ok rs front back outcome (all.symm.trans log)
  · rw [performed] at log
    rcases List.eq_nil_or_concat back with rfl | ⟨entries, final, rfl⟩
    · obtain ⟨rfl, same⟩ := List.append_inj' log rfl
      obtain ⟨rfl, _⟩ := Prod.mk.inj (List.singleton_inj.mp same)
      exact ⟨init, rest, rfl, rfl⟩
    · have shorter : init.map (·, .ok ()) ++ [(last, .error e)] =
          (front ++ (r, outcome) :: entries) ++ [final] := by simpa using log
      obtain ⟨before, after, rfl, same⟩ :=
        prefix_ok init front entries outcome (List.append_inj' shorter rfl).1
      exact ⟨before, after ++ last :: rest, by simp, same⟩

/-- Nothing is logged after an error. -/
theorem attempts_failed {rs : List ρ} {s : σ} {m : ρ} {e : ε}
    (failed : (m, .error e) ∈ attempts fire rs s) :
    ∃ before after, rs = before ++ m :: after ∧
      attempts fire rs s = before.map (·, .ok ()) ++ [(m, .error e)] := by
  obtain ⟨t, _, all⟩ | ⟨init, last, rest, e', t, rfl, _, performed⟩ := attempts_cases fire rs s
  · rw [all] at failed
    simp at failed
  · rw [performed] at failed
    obtain ⟨rfl, rfl⟩ : m = last ∧ e = e' := by simpa using failed
    exact ⟨init, rest, rfl, performed⟩

/-- Logging does not change what a sequence does. -/
theorem runAll_logged (fire : ρ → σ → Except ε Unit × σ) (rs : List ρ) (s : σ) :
    runAll (logged fire) rs (s, []) =
      ((runAll fire rs s).1, ((runAll fire rs s).2, attempts fire rs s)) := by
  obtain ⟨t, done, all⟩ | ⟨front, r, back, e, t, rfl, failed, performed⟩ :=
    attempts_cases fire rs s
  · rw [runAll_logged_ok done, all, done]
    simp
  · obtain ⟨front', r', back', u, same, reached, last⟩ := runAll_error_iff.mp failed
    rw [failed, same, runAll_logged_error reached last, attempts_error reached last]
    simp

end

end Sequencing
