import Mathlib.Data.List.Forall2
import SignalTopology.Library.TwoRuns

/-!
# Sessions

A session answers requests one after the other; each of them may change the state the next one
finds. Two sessions correspond when every request of the one is repeated by the other or does
not show there: the repeated requests then get the same answers.
-/

namespace Sequencing

variable {σ σ' ι κ β : Type}

/-- The answers to a list of requests, and the state they leave. -/
def session (step : ι → σ → β × σ) : List ι → σ → List β × σ
  | [], s => ([], s)
  | request :: requests, s =>
      ((step request s).1 :: (session step requests (step request s).2).1,
        (session step requests (step request s).2).2)

section

variable {step : ι → σ → β × σ} {step' : κ → σ' → β × σ'}

@[simp] theorem session_nil (s : σ) : session step [] s = ([], s) := rfl

@[simp] theorem session_cons_answers (request : ι) (requests : List ι) (s : σ) :
    (session step (request :: requests) s).1 =
      (step request s).1 :: (session step requests (step request s).2).1 := rfl

@[simp] theorem session_cons_state (request : ι) (requests : List ι) (s : σ) :
    (session step (request :: requests) s).2 = (session step requests (step request s).2).2 := rfl

theorem session_append (requests requests' : List ι) (s : σ) :
    session step (requests ++ requests') s =
      ((session step requests s).1 ++ (session step requests' (session step requests s).2).1,
        (session step requests' (session step requests s).2).2) := by
  induction requests generalizing s with
  | nil => rfl
  | cons request requests ih =>
      rw [List.cons_append, session, ih]
      rfl

/-- What every step keeps holds after a session. -/
theorem session_keeps {P : σ → Prop} {requests : List ι}
    (keeps : ∀ request ∈ requests, ∀ s, P s → P (step request s).2) {s : σ} (holds : P s) :
    P (session step requests s).2 := by
  induction requests generalizing s with
  | nil => exact holds
  | cons request requests ih =>
      exact ih (fun later member => keeps later (List.mem_cons_of_mem request member))
        (keeps request List.mem_cons_self s holds)

/-- Answers that every step gives are the only ones of a session. -/
theorem session_answers {P : σ → Prop} {Q : β → Prop} {requests : List ι}
    (answers : ∀ request ∈ requests, ∀ s, P s → Q (step request s).1 ∧ P (step request s).2) {s : σ}
    (holds : P s) : ∀ answer ∈ (session step requests s).1, Q answer := by
  induction requests generalizing s with
  | nil => simp
  | cons request requests ih =>
      obtain ⟨first, after⟩ := answers request List.mem_cons_self s holds
      exact List.forall_mem_cons.mpr ⟨first,
        ih (fun later member => answers later (List.mem_cons_of_mem request member)) after⟩

/-- The answers to the requests that `repeats` translates. -/
def answersTo (repeats : ι → Option κ) (requests : List ι) (answers : List β) : List β :=
  (requests.zip answers).filterMap fun exchange => (repeats exchange.1).map fun _ => exchange.2

/-- A session that repeats some requests of another and lacks the rest corresponds to it. -/
theorem session_repeats {R : σ → σ' → Prop} (repeats : ι → Option κ) {requests : List ι}
    (kept : ∀ request ∈ requests, ∀ request', repeats request = some request' →
      ∀ s t, R s t → Agree R (step request s) (step' request' t))
    (lacked : ∀ request ∈ requests, repeats request = none → ∀ s t, R s t → R (step request s).2 t)
    {s : σ} {t : σ'} (related : R s t) :
    answersTo repeats requests (session step requests s).1 =
        (session step' (requests.filterMap repeats) t).1 ∧
      R (session step requests s).2 (session step' (requests.filterMap repeats) t).2 := by
  induction requests generalizing s t with
  | nil => exact ⟨rfl, related⟩
  | cons request requests ih =>
      have later := fun other member => kept other (List.mem_cons_of_mem request member)
      have later' := fun other member => lacked other (List.mem_cons_of_mem request member)
      cases found : repeats request with
      | none =>
          have after := lacked request List.mem_cons_self found s t related
          obtain ⟨same, last⟩ := ih later later' after
          rw [List.filterMap_cons_none found]
          refine ⟨?_, last⟩
          rw [← same]
          simp [answersTo, found]
      | some request' =>
          obtain ⟨answer, after⟩ := kept request List.mem_cons_self request' found s t related
          obtain ⟨same, last⟩ := ih later later' after
          rw [List.filterMap_cons_some found]
          refine ⟨?_, last⟩
          rw [session_cons_answers, session_cons_answers, ← same, ← answer]
          simp [answersTo, found]

/-- Two sessions whose requests correspond one by one: so do their answers. -/
theorem session_corresponds {γ : Type} {step' : κ → σ' → γ × σ'} {P : ι → κ → Prop}
    {A : β → γ → Prop} {R : σ → σ' → Prop} {requests : List ι} {requests' : List κ}
    (pairs : List.Forall₂ P requests requests')
    (kept : ∀ request request', P request request' → ∀ s t, R s t →
      A (step request s).1 (step' request' t).1 ∧ R (step request s).2 (step' request' t).2)
    {s : σ} {t : σ'} (related : R s t) :
    List.Forall₂ A (session step requests s).1 (session step' requests' t).1 ∧
      R (session step requests s).2 (session step' requests' t).2 := by
  induction pairs generalizing s t with
  | nil => exact ⟨.nil, related⟩
  | cons pair _ ih =>
      obtain ⟨answer, after⟩ := kept _ _ pair s t related
      obtain ⟨same, last⟩ := ih after
      exact ⟨.cons answer same, last⟩

/-- Where the corresponding requests get the same answers, so do the sessions. -/
theorem session_pairs {P : ι → κ → Prop} {R : σ → σ' → Prop} {requests : List ι}
    {requests' : List κ}
    (pairs : List.Forall₂ P requests requests')
    (kept : ∀ request request', P request request' → ∀ s t, R s t →
      Agree R (step request s) (step' request' t)) {s : σ} {t : σ'} (related : R s t) :
    Agree R (session step requests s) (session step' requests' t) := by
  obtain ⟨same, last⟩ := session_corresponds (A := Eq) pairs kept related
  exact ⟨List.forall₂_eq_eq_eq ▸ same, last⟩

/-- Requests that get the same answers from related states keep the states related. -/
theorem session_agree {step' : ι → σ' → β × σ'} {R : σ → σ' → Prop} {requests : List ι}
    (kept : ∀ request, ∀ s t, R s t → Agree R (step request s) (step' request t))
    {s : σ} {t : σ'} (related : R s t) :
    Agree R (session step requests s) (session step' requests t) :=
  session_pairs (List.forall₂_same.mpr fun _ _ => rfl)
    (fun request _ (same : request = _) s t related => same ▸ kept request s t related) related

/-- The requests that `keeps` chooses when their turn comes. -/
def selected (step : ι → σ → β × σ) (keeps : ι → σ → Bool) : List ι → σ → List ι
  | [], _ => []
  | request :: requests, s =>
      if keeps request s then request :: selected step keeps requests (step request s).2
      else selected step keeps requests (step request s).2

section

variable {step' : ι → σ' → β × σ'} {keeps : ι → σ → Bool} {R : σ → σ' → Prop}
variable {request : ι} {requests : List ι} {s : σ} {t : σ'}

theorem selected_kept (chosen : keeps request s = true) :
    selected step keeps (request :: requests) s =
      request :: selected step keeps requests (step request s).2 :=
  if_pos chosen

theorem selected_omitted (left : keeps request s = false) :
    selected step keeps (request :: requests) s = selected step keeps requests (step request s).2 :=
  if_neg (Bool.not_eq_true _ ▸ left)

/-- A session without the requests that do not show: the others get the same answers. -/
theorem session_selected
    (kept : ∀ request ∈ requests, ∀ s t, R s t → keeps request s = true →
      Agree R (step request s) (step' request t))
    (omitted : ∀ request ∈ requests, ∀ s t, R s t → keeps request s = false →
      R (step request s).2 t) (related : R s t) :
    List.Sublist (session step' (selected step keeps requests s) t).1 (session step requests s).1 ∧
      R (session step requests s).2 (session step' (selected step keeps requests s) t).2 := by
  induction requests generalizing s t with
  | nil => exact ⟨.slnil, related⟩
  | cons request requests ih =>
      have later := fun s t (related : R s t) =>
        ih (fun other member => kept other (List.mem_cons_of_mem request member))
          (fun other member => omitted other (List.mem_cons_of_mem request member)) related
      cases chosen : keeps request s with
      | true =>
          obtain ⟨answer, after⟩ := kept request List.mem_cons_self s t related chosen
          obtain ⟨same, last⟩ := later _ _ after
          rw [selected_kept chosen, session_cons_answers, session_cons_answers, answer]
          exact ⟨same.cons_cons _, last⟩
      | false =>
          obtain ⟨same, last⟩ := later _ _ (omitted request List.mem_cons_self s t related chosen)
          rw [selected_omitted chosen]
          exact ⟨same.cons _, last⟩

/-- Where the choice is the same in the second session, it leaves nothing more out. -/
theorem selected_selected {keeps' : ι → σ' → Bool}
    (kept : ∀ request ∈ requests, ∀ s t, R s t → keeps request s = true →
      R (step request s).2 (step' request t).2 ∧ keeps' request t = true)
    (omitted : ∀ request ∈ requests, ∀ s t, R s t → keeps request s = false →
      R (step request s).2 t) (related : R s t) :
    selected step' keeps' (selected step keeps requests s) t = selected step keeps requests s := by
  induction requests generalizing s t with
  | nil => rfl
  | cons request requests ih =>
      have later := fun s t (related : R s t) =>
        ih (fun other member => kept other (List.mem_cons_of_mem request member))
          (fun other member => omitted other (List.mem_cons_of_mem request member)) related
      cases chosen : keeps request s with
      | true =>
          obtain ⟨after, again⟩ := kept request List.mem_cons_self s t related chosen
          rw [selected_kept chosen, selected_kept again, later _ _ after]
      | false =>
          rw [selected_omitted chosen]
          exact later _ _ (omitted request List.mem_cons_self s t related chosen)

end

end

end Sequencing
