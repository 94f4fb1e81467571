import Mathlib.Data.Set.Function
import SignalTopology.Library.Sequencing

/-!
# Two runs side by side

Two runs of fallible steps from related states. `Agree` compares outcomes and
states; `Follows` only asks the second run to repeat a success of the first.
Steps that do not show can be left out, and steps that are confined to disjoint
parts of the state can be performed in any order.
-/

namespace Sequencing

variable {ρ σ σ' ε α β : Type}

/-- Both runs end alike, in related states. -/
def Agree (R : σ → σ' → Prop) (x : β × σ) (y : β × σ') : Prop :=
  x.1 = y.1 ∧ R x.2 y.2

/-- When the first run succeeds, so does the second, with the same result and in
a related state. -/
def Follows (R : σ → σ' → Prop) (x : Except ε α × σ) (y : Except ε α × σ') : Prop :=
  ∀ a s, x = (.ok a, s) → ∃ t, y = (.ok a, t) ∧ R s t

section

variable {R : σ → σ' → Prop}

theorem Agree.follows {x : Except ε α × σ} {y : Except ε α × σ'} (h : Agree R x y) :
    Follows R x y := by
  rintro a s rfl
  obtain ⟨outcome, t⟩ := y
  obtain ⟨rfl, related⟩ := h
  exact ⟨t, rfl, related⟩

/-- An outcome that the second run shares. -/
theorem Agree.eq {x : β × σ} {y : β × σ'} (h : Agree R x y) {outcome : β} {s : σ}
    (ended : x = (outcome, s)) : ∃ t, y = (outcome, t) ∧ R s t := by
  obtain ⟨outcome', t⟩ := y
  subst ended
  obtain ⟨rfl, related⟩ := h
  exact ⟨t, rfl, related⟩

end

/-! ## Lists with elements left out -/

/-- The second list is the first without some elements that satisfy `P`. -/
inductive Trimmed (P : ρ → Prop) : List ρ → List ρ → Prop where
  | nil : Trimmed P [] []
  | keep (x : ρ) {xs ys : List ρ} (rest : Trimmed P xs ys) : Trimmed P (x :: xs) (x :: ys)
  | drop {x : ρ} {xs ys : List ρ} (dropped : P x) (rest : Trimmed P xs ys) :
      Trimmed P (x :: xs) ys

namespace Trimmed

variable {P : ρ → Prop} {xs ys xs' ys' : List ρ}

theorem refl (xs : List ρ) : Trimmed P xs xs := by
  induction xs with
  | nil => exact .nil
  | cons x xs ih => exact .keep x ih

theorem append (h : Trimmed P xs ys) (h' : Trimmed P xs' ys') :
    Trimmed P (xs ++ xs') (ys ++ ys') := by
  induction h with
  | nil => exact h'
  | keep x _ ih => exact .keep x ih
  | drop dropped _ ih => exact .drop dropped ih

/-- Leaving out one element. -/
theorem middle {x : ρ} (dropped : P x) (front back : List ρ) :
    Trimmed P (front ++ x :: back) (front ++ back) :=
  (refl front).append (.drop dropped (refl back))

theorem filter (h : Trimmed P xs ys) (f : ρ → Bool) : Trimmed P (xs.filter f) (ys.filter f) := by
  induction h with
  | nil => exact .nil
  | keep x _ ih =>
      rw [List.filter_cons, List.filter_cons]
      split
      · exact .keep x ih
      · exact ih
  | drop dropped _ ih =>
      rw [List.filter_cons]
      split
      · exact .drop dropped ih
      · exact ih

end Trimmed

section

variable {R : σ → σ' → Prop} {fire : ρ → σ → Except ε Unit × σ}
variable {fire' : ρ → σ' → Except ε Unit × σ'} {rs : List ρ}

/-- A sequence agrees with one that leaves out steps that succeed and do not
show. The steps need only behave so where the first sequence comes to them. -/
theorem runAll_trimmed {P : ρ → Prop} {xs ys : List ρ} (trimmed : Trimmed P xs ys) {s : σ} {t : σ'}
    (keep : ∀ front x back u, xs = front ++ x :: back → runAll fire front s = (.ok (), u) →
      ∀ v, R u v → Agree R (fire x u) (fire' x v))
    (drop : ∀ front x back u, xs = front ++ x :: back → runAll fire front s = (.ok (), u) →
      P x → ∃ u', fire x u = (.ok (), u') ∧ ∀ v, R u v → R u' v)
    (related : R s t) : Agree R (runAll fire xs s) (runAll fire' ys t) := by
  induction trimmed generalizing s t with
  | nil => exact ⟨rfl, related⟩
  | @keep x xs ys _ ih =>
      have first := keep [] x xs s rfl rfl t related
      obtain ⟨u, done⟩ | ⟨e, u, failed⟩ := step_cases fire x s
      · obtain ⟨v, done', after⟩ := first.eq done
        rw [runAll_cons_ok done, runAll_cons_ok done']
        refine ih (fun front y back w split reached => ?_) (fun front y back w split reached => ?_)
          after
        · exact keep (x :: front) y back w (by rw [split]; rfl)
            (by rw [runAll_cons_ok done, reached])
        · exact drop (x :: front) y back w (by rw [split]; rfl)
            (by rw [runAll_cons_ok done, reached])
      · obtain ⟨v, failed', after⟩ := first.eq failed
        rw [runAll_cons_error failed, runAll_cons_error failed']
        exact ⟨rfl, after⟩
  | @drop x xs ys dropped _ ih =>
      obtain ⟨u, done, after⟩ := drop [] x xs s rfl rfl dropped
      rw [runAll_cons_ok done]
      refine ih (fun front y back w split reached => ?_) (fun front y back w split reached => ?_)
        (after t related)
      · exact keep (x :: front) y back w (by rw [split]; rfl) (by rw [runAll_cons_ok done, reached])
      · exact drop (x :: front) y back w (by rw [split]; rfl) (by rw [runAll_cons_ok done, reached])

/-- Steps that agree on related states make sequences that agree. -/
theorem runAll_agree (step : ∀ r ∈ rs, ∀ s t, R s t → Agree R (fire r s) (fire' r t)) {s : σ}
    {t : σ'} (related : R s t) : Agree R (runAll fire rs s) (runAll fire' rs t) :=
  runAll_trimmed (Trimmed.refl (P := fun _ => False) rs)
    (fun _ r _ u split _ v between => step r (by simp [split]) u v between)
    (fun _ _ _ _ _ _ never => never.elim) related

/-- Steps whose successes can be repeated make a sequence whose success can. -/
theorem runAll_follows (step : ∀ r ∈ rs, ∀ s t, R s t → Follows R (fire r s) (fire' r t)) {s : σ}
    {t : σ'} (related : R s t) : Follows R (runAll fire rs s) (runAll fire' rs t) := by
  induction rs generalizing s t with
  | nil =>
      rintro ⟨⟩ u ended
      cases ended
      exact ⟨t, rfl, related⟩
  | cons r rs ih =>
      intro a last ended
      obtain ⟨u, done⟩ | ⟨e, u, failed⟩ := step_cases fire r s
      · obtain ⟨v, done', after⟩ := step r List.mem_cons_self s t related () u done
        rw [runAll_cons_ok done] at ended
        rw [runAll_cons_ok done']
        exact ih (fun r' member => step r' (List.mem_cons_of_mem r member)) after a last ended
      · rw [runAll_cons_error failed] at ended
        cases ended

end

/-- A sequence that does not fail with `bad` goes alike with steps that agree unless they fail
with `bad`. -/
theorem runAll_unless {fire fire' : ρ → σ → Except ε Unit × σ} {rs : List ρ} {bad : ε}
    (step : ∀ r ∈ rs, ∀ s, (fire r s).1 ≠ .error bad → fire' r s = fire r s) {s : σ}
    (good : (runAll fire rs s).1 ≠ .error bad) : runAll fire' rs s = runAll fire rs s := by
  induction rs generalizing s with
  | nil => rfl
  | cons r rs ih =>
      obtain ⟨t, done⟩ | ⟨e, t, failed⟩ := step_cases fire r s
      · have again := step r List.mem_cons_self s (by rw [done]; simp)
        rw [done] at again
        rw [runAll_cons_ok done] at good ⊢
        rw [runAll_cons_ok again]
        exact ih (fun r' member => step r' (List.mem_cons_of_mem r member)) good
      · rw [runAll_cons_error failed] at good ⊢
        have again := step r List.mem_cons_self s (by rw [failed]; exact good)
        rw [failed] at again
        rw [runAll_cons_error again]

/-! ## Independent steps -/

section

variable {κ ν : Type} (view : σ → κ → ν) (inv : σ → Prop)

/-- A step confined to the keys of `F`: it changes the view nowhere else, and
what it does inside `F`, success included, is decided by the view inside `F`. -/
structure Confined (F : Set κ) (step : σ → Except ε Unit × σ) : Prop where
  frame : ∀ {s t}, inv s → step s = (.ok (), t) → inv t ∧ Set.EqOn (view t) (view s) Fᶜ
  decided : ∀ {s s' t}, inv s → inv s' → Set.EqOn (view s) (view s') F →
    step s = (.ok (), t) → ∃ t', step s' = (.ok (), t') ∧ Set.EqOn (view t) (view t') F

/-- Two states with the same view. -/
structure Alike (s t : σ) : Prop where
  left : inv s
  right : inv t
  same : view s = view t

variable {view inv} {F G : Set κ} {step step' : σ → Except ε Unit × σ}

/-- A confined step repeats its success from any state with the same view. -/
theorem Confined.follows (h : Confined view inv F step) {s t : σ} (alike : Alike view inv s t) :
    Follows (Alike view inv) (step s) (step t) := by
  rintro ⟨⟩ u done
  obtain ⟨v, done', inside⟩ := h.decided alike.left alike.right (fun _ _ => by rw [alike.same]) done
  obtain ⟨kept, outside⟩ := h.frame alike.left done
  obtain ⟨kept', outside'⟩ := h.frame alike.right done'
  refine ⟨v, done', kept, kept', funext fun k => ?_⟩
  by_cases own : k ∈ F
  · exact inside own
  · rw [outside own, outside' own, alike.same]

/-- Two steps confined to disjoint parts can be swapped. -/
theorem Confined.swap (first : Confined view inv F step) (second : Confined view inv G step')
    (apart : ∀ k ∈ F, k ∉ G) {s s' t u : σ} (alike : Alike view inv s s')
    (done : step s = (.ok (), t)) (done' : step' t = (.ok (), u)) :
    ∃ t' u', step' s' = (.ok (), t') ∧ step t' = (.ok (), u') ∧ Alike view inv u u' := by
  have inF : ∀ {k}, k ∈ F → k ∈ Gᶜ := fun own other => apart _ own other
  have inG : ∀ {k}, k ∈ G → k ∈ Fᶜ := fun own other => apart _ other own
  obtain ⟨keptT, outsideT⟩ := first.frame alike.left done
  obtain ⟨keptU, outsideU⟩ := second.frame keptT done'
  obtain ⟨t', ran, insideG⟩ := second.decided keptT alike.right
    (fun k own => by rw [outsideT (inG own), alike.same]) done'
  obtain ⟨keptT', outsideT'⟩ := second.frame alike.right ran
  obtain ⟨u', ran', insideF⟩ := first.decided alike.left keptT'
    (fun k own => by rw [outsideT' (inF own), alike.same]) done
  obtain ⟨keptU', outsideU'⟩ := first.frame keptT' ran'
  refine ⟨t', u', ran, ran', keptU, keptU', funext fun k => ?_⟩
  by_cases ownF : k ∈ F
  · rw [outsideU (inF ownF), insideF ownF]
  · by_cases ownG : k ∈ G
    · rw [insideG ownG, outsideU' ownF]
    · rw [outsideU ownG, outsideT ownF, outsideU' ownF, outsideT' ownG, alike.same]

variable {fire : ρ → σ → Except ε Unit × σ} {footprint : ρ → Set κ}

/-- Steps confined to pairwise disjoint parts succeed in any order, and every
order leaves the same view. -/
theorem runAll_perm {rs rs' : List ρ} (perm : rs.Perm rs')
    (confined : ∀ r ∈ rs, Confined view inv (footprint r) (fire r))
    (apart : rs.Pairwise fun r r' => ∀ k ∈ footprint r, k ∉ footprint r') {s s' : σ}
    (alike : Alike view inv s s') :
    Follows (Alike view inv) (runAll fire rs s) (runAll fire rs' s') := by
  induction perm generalizing s s' with
  | nil => exact Agree.follows ⟨rfl, alike⟩
  | @cons r rs rs' _ ih =>
      rintro ⟨⟩ last ended
      obtain ⟨u, done⟩ | ⟨e, u, failed⟩ := step_cases fire r s
      · obtain ⟨v, done', after⟩ := (confined r List.mem_cons_self).follows alike () u done
        rw [runAll_cons_ok done] at ended
        rw [runAll_cons_ok done']
        exact ih (fun r' member => confined r' (List.mem_cons_of_mem r member))
          (List.pairwise_cons.mp apart).2 after () last ended
      · rw [runAll_cons_error failed] at ended
        cases ended
  | swap b a rs =>
      rintro ⟨⟩ last ended
      obtain ⟨t, first⟩ | ⟨e, t, failed⟩ := step_cases fire a s
      · rw [runAll_cons_ok first] at ended
        obtain ⟨u, second⟩ | ⟨e, u, failed⟩ := step_cases fire b t
        · rw [runAll_cons_ok second] at ended
          obtain ⟨t', u', ran, ran', after⟩ := (confined a (by simp)).swap (confined b (by simp))
            ((List.pairwise_cons.mp apart).1 b List.mem_cons_self) alike first second
          rw [runAll_cons_ok ran, runAll_cons_ok ran']
          exact runAll_follows (fun r member _ _ => (confined r (by simp [member])).follows) after
            () last ended
        · rw [runAll_cons_error failed] at ended
          cases ended
      · rw [runAll_cons_error failed] at ended
        cases ended
  | @trans rs₁ rs₂ rs₃ first _ ih ih' =>
      rintro ⟨⟩ last ended
      obtain ⟨t, done, after⟩ := ih confined apart ⟨alike.left, alike.left, rfl⟩ () last ended
      have apart' := (first.pairwise_iff fun h k own other => h k other own).mp apart
      obtain ⟨t', done', after'⟩ := ih' (fun r member => confined r (first.mem_iff.mpr member))
        apart' alike () t done
      exact ⟨t', done', after.left, after'.right, after.same.trans after'.same⟩

end

end Sequencing
