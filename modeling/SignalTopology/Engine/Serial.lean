import SignalTopology.Engine.Occurrences

/-!
# Dispatch and the serial cascade

The queue of a dispatch starts with the reactions that wait for nothing, and every
reaction it releases later joins at the back. So these reactions are fired first, in
definition order, and a list of nothing else is fired as the plain loop over it would.
-/

namespace SignalTopology

open Sequencing

section

variable {ρ : Type} (joinGroup : ρ → Option String) (requires : ρ → List String)

/-- Whatever settling does, the queue keeps its order and grows by waiting reactions. -/
theorem Progress.settle_queue (total : HashMap Nat) (p : Progress ρ) (reaction : ρ) :
    ∃ released, (p.settle joinGroup requires total reaction).ready = p.ready ++ released ∧
      (∀ r ∈ released, r ∈ p.waiting) ∧
      ∀ r ∈ (p.settle joinGroup requires total reaction).waiting, r ∈ p.waiting := by
  have same : ∃ released, p.ready = p.ready ++ released ∧ (∀ r ∈ released, r ∈ p.waiting) ∧
      ∀ r ∈ p.waiting, r ∈ p.waiting :=
    ⟨[], (List.append_nil _).symm, by simp, fun _ waits => waits⟩
  unfold settle
  split
  · exact same
  · next g _ =>
      dsimp only
      split
      · exact ⟨_, rfl, fun r moved => (List.mem_filter.mp moved).1,
          fun r held => (List.mem_filter.mp held).1⟩
      · exact same

/-- The loop fires its queue before anything that waits. -/
theorem orderLoop_queue (total : HashMap Nat) (p : Progress ρ) :
    ∃ later, orderLoop joinGroup requires total p = p.ready ++ later ∧
      ∀ r ∈ later, r ∈ p.waiting := by
  fun_induction orderLoop joinGroup requires total p with
  | case1 p empty => exact ⟨[], by rw [empty, List.append_nil], by simp⟩
  | case2 p reaction ready queue ih =>
      obtain ⟨later, rest, waits⟩ := ih
      obtain ⟨released, grown, moved, held⟩ :=
        Progress.settle_queue joinGroup requires total { p with ready } reaction
      refine ⟨released ++ later, ?_, fun r member => ?_⟩
      · rw [rest, grown, queue, List.append_assoc, List.cons_append]
      · rcases List.mem_append.mp member with early | late
        · exact moved r early
        · exact held r (waits r late)

/-- The reactions that wait for nothing come first, in definition order. -/
theorem order_free (matched : List ρ) :
    ∃ later, order joinGroup requires matched =
        matched.filter (fun r => (requires r).isEmpty) ++ later ∧
      ∀ r ∈ later, requires r ≠ [] := by
  obtain ⟨later, split, waits⟩ :=
    orderLoop_queue joinGroup requires (groupTotal joinGroup matched) (.initial requires matched)
  refine ⟨later, split, fun r member => ?_⟩
  have held := (List.mem_filter.mp (waits r member)).2
  simpa using held

/-- Without dependencies the order is the definition order. -/
theorem order_serial {matched : List ρ} (free : ∀ r ∈ matched, requires r = []) :
    order joinGroup requires matched = matched := by
  obtain ⟨later, split, waits⟩ := order_free joinGroup requires matched
  have all : matched.filter (fun r => (requires r).isEmpty) = matched :=
    List.filter_eq_self.mpr fun r member => by rw [free r member, List.isEmpty_nil]
  rw [all] at split
  obtain rfl : later = [] := by
    refine List.eq_nil_iff_forall_not_mem.mpr fun r member => waits r member (free r ?_)
    -- nothing is fired that was not matched
    refine @order_subset ρ joinGroup requires matched r ?_
    rw [split]
    exact List.mem_append_right matched member
  rw [split, List.append_nil]

end

/-- The occurrences that wait for nothing, in definition order. -/
def freeOccurrences (matched : List ReactionDef) : List (Occurrence matched) :=
  (List.finRange matched.length).filter fun r => r.requires.isEmpty

namespace TopologyEngine

variable {W : Type} [RustStd] [SerdeJson] (limit : Nat) (matched : List ReactionDef)
  (parentPayload : Option JsonValue) (depth : Nat) (transitionSignal : String)
  (engine : TopologyEngine W)

/-- Fork/join dispatch refines the serial cascade. Reactions that wait for nothing are fired
one by one in definition order up to the first error, and they alone give the same result,
state and trace as that loop. Among other reactions each of them is fired after the ones
before it and before any reaction that waits, and none is left out by a dispatch that
returns `Ok`. -/
theorem dispatch_serial :
    ((∀ r ∈ matched, r.requires = []) →
      dispatchReactions limit matched parentPayload depth transitionSignal engine =
        runAll (fireOneReaction (fun reaction => sendEventInternal limit reaction.toSignal
          reaction.event reaction.payload reaction.payload (depth + 1)) parentPayload
          transitionSignal) matched engine) ∧
    (∀ front r outcome back,
      (dispatchOccurrences limit matched parentPayload depth transitionSignal engine).2.2 =
        front ++ (r, outcome) :: back →
      (r.requires = [] → ∃ rest, freeOccurrences matched = front.map Prod.fst ++ r :: rest) ∧
      (r.requires ≠ [] → ∃ rest, front = (freeOccurrences matched).map (·, .ok ()) ++ rest)) ∧
    ((dispatchReactions limit matched parentPayload depth transitionSignal engine).1 = .ok () →
      ∃ rest, (dispatchOccurrences limit matched parentPayload depth transitionSignal
        engine).2.2 = (freeOccurrences matched).map (·, .ok ()) ++ rest) := by
  obtain ⟨later, split, waits⟩ := order_free Occurrence.joinGroup Occurrence.requires
    (List.finRange matched.length)
  replace split : occurrenceOrder matched = freeOccurrences matched ++ later := split
  rw [dispatchOccurrences_eq]
  refine ⟨fun free => ?_, fun front r outcome back log => ?_, fun done => ?_⟩
  · rw [dispatchReactions, dispatch_eq, order_serial _ _ free]
  · obtain ⟨before, after, place, rfl⟩ := attempts_split log
    have parts := List.append_eq_append_iff.mp (place.symm.trans split)
    constructor
    · intro free
      obtain ⟨more, longer, rest⟩ | ⟨more, shorter, rest⟩ := parts
      · cases more with
        | nil =>
            -- then `r` would be the first of the waiting ones
            refine absurd free (waits r ?_)
            rw [← List.nil_append later, ← rest]
            exact List.mem_cons_self
        | cons r' more =>
            obtain ⟨rfl, _⟩ := List.cons.inj rest
            refine ⟨more, longer.trans ?_⟩
            rw [List.map_map]
            exact congrArg (· ++ r :: more) (List.map_id before).symm
      · refine absurd free (waits r ?_)
        rw [rest]
        exact List.mem_append_right more List.mem_cons_self
    · intro bound
      obtain ⟨more, longer, rest⟩ | ⟨more, shorter, rest⟩ := parts
      · cases more with
        | nil => exact ⟨[], by rw [longer, List.append_nil, List.append_nil]⟩
        | cons r' more =>
            obtain ⟨rfl, _⟩ := List.cons.inj rest
            have member : r ∈ freeOccurrences matched := by
              rw [longer]
              exact List.mem_append_right before List.mem_cons_self
            have empty := (List.mem_filter.mp member).2
            exact absurd (List.isEmpty_iff.mp empty) bound
      · exact ⟨more.map (·, .ok ()), by rw [shorter, List.map_append]⟩
  · rw [dispatchReactions_eq] at done
    refine ⟨later.map (·, .ok ()), ?_⟩
    rw [attempts_ok (Prod.ext done rfl), split, List.map_append]

end TopologyEngine

end SignalTopology
