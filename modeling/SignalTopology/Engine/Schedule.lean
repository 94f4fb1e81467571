import SignalTopology.Engine.Dispatch

/-!
# The dispatch order is a fork/join schedule

`Dispatched` relates the variables of the loop to the list of reactions fired so
far. It holds at the start, every iteration preserves it, and with an empty
ready queue it says that the fired reactions are a schedule.
-/

namespace SignalTopology

open ForkJoin

variable {ρ : Type} (joinGroup : ρ → Option String) (requires : ρ → List String)

/-- How many of the reactions are members of a group. -/
def members (rs : List ρ) (g : String) : Nat := rs.countP (joinGroup · = some g)

/-- The table holds a count for exactly the groups that occur. -/
def Counts (total : HashMap Nat) (count : String → Nat) : Prop :=
  ∀ g, total.lookup g = if count g = 0 then none else some (count g)

variable {joinGroup requires}

@[simp] theorem members_nil (g : String) : members joinGroup [] g = 0 := rfl

theorem members_append (rs rs' : List ρ) (g : String) :
    members joinGroup (rs ++ rs') g = members joinGroup rs g + members joinGroup rs' g :=
  List.countP_append

theorem members_single (r : ρ) (g : String) :
    members joinGroup [r] g = if joinGroup r = some g then 1 else 0 := by
  simp [members, List.countP_cons]

variable (joinGroup) in
theorem members_perm {rs rs' : List ρ} (same : rs.Perm rs') (g : String) :
    members joinGroup rs g = members joinGroup rs' g :=
  same.countP_eq _

theorem members_pos {rs : List ρ} {g : String} :
    0 < members joinGroup rs g ↔ ∃ m ∈ rs, joinGroup m = some g := by
  simp [members, List.countP_pos_iff]

theorem members_eq_zero {rs : List ρ} {g : String} :
    members joinGroup rs g = 0 ↔ ∀ m ∈ rs, joinGroup m ≠ some g := by
  simp [members, List.countP_eq_zero]

theorem Counts.getD {total : HashMap Nat} {count : String → Nat} (h : Counts total count)
    (g : String) : (total.lookup g).getD 0 = count g := by
  rw [h g]
  split
  · next zero => simp [zero]
  · rfl

theorem Counts.lookup_iff {total : HashMap Nat} {count : String → Nat} (h : Counts total count)
    (g : String) (n : Nat) : total.lookup g = some n ↔ 0 < n ∧ n = count g := by
  rw [h g]
  split
  · simp only [reduceCtorEq, false_iff, not_and]
    omega
  · simp only [Option.some.injEq]
    omega

theorem Counts.countMember {total : HashMap Nat} {rs : List ρ}
    (h : Counts total (members joinGroup rs)) (r : ρ) :
    Counts (countMember joinGroup total r) (members joinGroup (rs ++ [r])) := by
  intro g
  rw [members_append, members_single, SignalTopology.countMember]
  split
  · next g' group =>
      by_cases same : g = g'
      · subst same
        simp [nextCount, h.getD, group]
      · rw [AList.lookup_insert_ne same, h g]
        simp [group, Ne.symm same]
  · next group =>
      rw [h g]
      simp [group]

variable (joinGroup) in
theorem groupTotal_counts (matched : List ρ) :
    Counts (groupTotal joinGroup matched) (members joinGroup matched) := by
  have loop : ∀ (rest seen : List ρ) (total : HashMap Nat),
      Counts total (members joinGroup seen) →
      Counts (rest.foldl (SignalTopology.countMember joinGroup) total)
        (members joinGroup (seen ++ rest)) := by
    intro rest
    induction rest with
    | nil => simp
    | cons r rest ih =>
        intro seen total counted
        simpa using ih (seen ++ [r]) _ (counted.countMember r)
  have empty : Counts ∅ (members joinGroup []) := fun g => by simp
  simpa [groupTotal] using loop matched [] ∅ empty

variable (joinGroup requires) in
/-- The variables of the loop after the reactions `fired`. -/
structure Dispatched (xs fired : List ρ) (p : Progress ρ) : Prop where
  perm : (fired ++ (p.ready ++ p.waiting)).Perm xs
  counted : Counts p.groupDoneCount (members joinGroup fired)
  done : ∀ g, g ∈ p.groupsDone ↔
    0 < members joinGroup fired g ∧ members joinGroup fired g = members joinGroup xs g
  ready : ∀ r ∈ p.ready, allDone requires p.groupsDone r = true
  held : ∀ r ∈ p.waiting, allDone requires p.groupsDone r = false
  respects : ∀ front r back, fired = front ++ r :: back →
    Satisfied joinGroup requires xs {m | m ∈ front} r

namespace Dispatched

variable {xs fired : List ρ} {p : Progress ρ}

theorem initial (xs : List ρ) :
    Dispatched joinGroup requires xs [] (Progress.initial requires xs) where
  perm := List.filter_append_perm _ xs
  counted _ := by simp [Progress.initial]
  done g := by simp [Progress.initial]
  ready r member := by
    have free : requires r = [] := by simpa [Progress.initial] using (List.mem_filter.mp member).2
    simp [allDone, free]
  held r member := by
    have waits : requires r ≠ [] := by simpa [Progress.initial] using (List.mem_filter.mp member).2
    obtain ⟨g, gs, split⟩ := List.exists_cons_of_ne_nil waits
    simp [allDone, split, Progress.initial]
  respects front r back split := by simp at split

/-- A group that is done has a member, and every member has fired. -/
theorem satisfied (h : Dispatched joinGroup requires xs fired p) {r : ρ}
    (released : allDone requires p.groupsDone r = true) :
    Satisfied joinGroup requires xs {m | m ∈ fired} r := by
  intro g required
  have groupDone : g ∈ p.groupsDone := by
    simp only [allDone, List.all_eq_true, decide_eq_true_eq] at released
    exact released g required
  obtain ⟨positive, full⟩ := (h.done g).mp groupDone
  obtain ⟨m, fires, group⟩ := members_pos.mp positive
  refine ⟨⟨m, h.perm.subset (List.mem_append_left _ fires), group⟩, ?_⟩
  intro m' member group'
  -- the reactions not fired yet hold no member of the group
  have rest := members_perm joinGroup h.perm g
  rw [members_append, full, Nat.add_eq_left, members_eq_zero] at rest
  rcases List.mem_append.mp (h.perm.symm.subset member) with early | late
  · exact early
  · exact absurd group' (rest m' late)

/-- One iteration of the loop. -/
theorem settle (h : Dispatched joinGroup requires xs fired p) {reaction : ρ} {ready : List ρ}
    (queue : p.ready = reaction :: ready) :
    Dispatched joinGroup requires xs (fired ++ [reaction])
      (Progress.settle joinGroup requires (groupTotal joinGroup xs) { p with ready } reaction) := by
  have released : allDone requires p.groupsDone reaction = true :=
    h.ready reaction (by simp [queue])
  have perm : (fired ++ [reaction] ++ (ready ++ p.waiting)).Perm xs := by
    simpa [queue] using h.perm
  have still : ∀ r ∈ ready, allDone requires p.groupsDone r = true :=
    fun r member => h.ready r (by simp [queue, member])
  have respects : ∀ front r back, fired ++ [reaction] = front ++ r :: back →
      Satisfied joinGroup requires xs {m | m ∈ front} r := by
    intro front r back split
    rcases List.eq_nil_or_concat back with rfl | ⟨init, last, rfl⟩
    · obtain ⟨rfl, same⟩ := List.append_inj' split rfl
      obtain rfl : reaction = r := by simpa using same
      exact h.satisfied released
    · have shorter : fired ++ [reaction] = (front ++ r :: init) ++ [last] := by
        simpa using split
      exact h.respects front r init (List.append_inj' shorter rfl).1
  cases group : joinGroup reaction with
  | none =>
      simp only [Progress.settle, group]
      have counted := h.counted.countMember reaction
      rw [countMember, group] at counted
      refine ⟨perm, counted, fun g => ?_, still, h.held, respects⟩
      rw [h.done g, members_append, members_single, group]
      simp
  | some g =>
      have counted := h.counted.countMember reaction
      rw [countMember, group] at counted
      have count : nextCount p.groupDoneCount g = members joinGroup (fired ++ [reaction]) g := by
        rw [members_append, members_single, group, nextCount, h.counted.getD]
        simp
      have others : ∀ g', g' ≠ g →
          members joinGroup (fired ++ [reaction]) g' = members joinGroup fired g' := by
        intro g' other
        rw [members_append, members_single, group]
        simp [Ne.symm other]
      have full := (groupTotal_counts joinGroup xs).lookup_iff g
        (nextCount p.groupDoneCount g)
      simp only [Progress.settle, group]
      split
      · next last =>
          have whole := full.mp last
          refine ⟨?_, counted, ?_, ?_, ?_, respects⟩
          · refine List.Perm.trans ?_ perm
            refine List.Perm.append_left _ ?_
            rw [List.append_assoc]
            exact List.Perm.append_left _ (List.filter_append_perm _ _)
          · intro g'
            rw [Finset.mem_insert]
            by_cases same : g' = g
            · subst same
              rw [count] at whole
              simpa using whole
            · simpa [same, others g' same] using h.done g'
          · intro r member
            rcases List.mem_append.mp member with earlier | moved
            · have before := still r earlier
              simp only [allDone, List.all_eq_true, decide_eq_true_eq] at before ⊢
              exact fun g' required => Finset.mem_insert_of_mem (before g' required)
            · exact (List.mem_filter.mp moved).2
          · intro r member
            simpa using (List.mem_filter.mp member).2
      · next more =>
          refine ⟨perm, counted, fun g' => ?_, still, h.held, respects⟩
          by_cases same : g' = g
          · subst same
            have open_ : ¬ g' ∈ p.groupsDone := by
              intro done
              have := (h.done g').mp done
              have total := members_perm joinGroup perm g'
              rw [members_append, members_append, members_single, group] at total
              simp at total
              omega
            rw [full, count] at more
            simpa [open_] using more
          · rw [h.done g', others g' same]

/-- An empty ready queue leaves nothing runnable. -/
theorem finished (h : Dispatched joinGroup requires xs fired p) (distinct : xs.Nodup)
    (queue : p.ready = []) : Schedule joinGroup requires xs fired := by
  have all : (fired ++ p.waiting).Nodup := by
    have whole := h.perm.nodup_iff.mpr distinct
    simpa [queue] using whole
  refine ⟨(List.nodup_append.mp all).1,
    fun r member => h.perm.subset (List.mem_append_left _ member), h.respects, ?_⟩
  intro r member satisfied
  have place := h.perm.symm.subset member
  rw [queue, List.nil_append, List.mem_append] at place
  refine place.resolve_right fun waits => ?_
  -- a held reaction requires a group that is not done
  obtain ⟨g, required, missing⟩ : ∃ g ∈ requires r, g ∉ p.groupsDone := by
    simpa [allDone] using h.held r waits
  obtain ⟨⟨m, belongs, group⟩, every⟩ := satisfied g required
  refine missing ((h.done g).mpr ⟨members_pos.mpr ⟨m, every m belongs group, group⟩, ?_⟩)
  have total := members_perm joinGroup h.perm g
  rw [queue, List.nil_append, members_append] at total
  have outside : members joinGroup p.waiting g = 0 := by
    refine members_eq_zero.mpr fun m' late group' => ?_
    have fires : m' ∈ fired := every m' (h.perm.subset (by simp [late])) group'
    exact (List.nodup_append.mp all).2.2 m' fires m' late rfl
  omega

end Dispatched

theorem orderLoop_schedule {xs fired : List ρ} {p : Progress ρ} (distinct : xs.Nodup)
    (h : Dispatched joinGroup requires xs fired p) :
    Schedule joinGroup requires xs
      (fired ++ orderLoop joinGroup requires (groupTotal joinGroup xs) p) := by
  generalize totals : groupTotal joinGroup xs = total
  fun_induction orderLoop joinGroup requires total p generalizing fired with
  | case1 p empty => simpa using h.finished distinct empty
  | case2 p reaction ready queue ih =>
      subst totals
      have rest := ih (h.settle queue)
      simpa using rest

/-- A dispatch fires a fork/join schedule of its matched reactions. -/
theorem order_schedule {xs : List ρ} (distinct : xs.Nodup) :
    Schedule joinGroup requires xs (order joinGroup requires xs) := by
  simpa [order] using orderLoop_schedule distinct (Dispatched.initial xs)

/-- Only matched reactions are fired. -/
theorem order_subset {xs : List ρ} {r : ρ} (fired : r ∈ order joinGroup requires xs) : r ∈ xs := by
  rw [← List.map_get_finRange xs, order_map] at fired
  obtain ⟨i, _, rfl⟩ := List.mem_map.mp fired
  exact List.get_mem xs i

end SignalTopology
