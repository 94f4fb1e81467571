import Mathlib.Data.Finset.Insert
import SignalTopology.Schema
import SignalTopology.Library.Sequencing
import SignalTopology.Library.ForkJoin

/-!
# Fork/join dispatch

The scheduling loop of `dispatch_reactions`. It reads only `join_group` and
`requires` of a reaction, so it is written over any type `ρ` of reactions with
these two fields; the engine uses it at `ReactionDef`, and its positions in the
matched list at `Fin matched.length`.

The order in which reactions are fired does not depend on what firing does:
`dispatch` is `runAll` over `order`, and `order` is a fork/join schedule.
-/

namespace SignalTopology

open Sequencing

variable {ρ σ ε : Type} (joinGroup : ρ → Option String) (requires : ρ → List String)

/-- `*counts.entry(group).or_insert(0) + 1`. -/
def nextCount (counts : HashMap Nat) (group : String) : Nat :=
  (counts.lookup group).getD 0 + 1

/-- Count one reaction in its fork group. -/
def countMember (total : HashMap Nat) (r : ρ) : HashMap Nat :=
  match joinGroup r with
  | some g => total.insert g (nextCount total g)
  | none => total

/-- How many matched reactions belong to each fork group. -/
def groupTotal (matched : List ρ) : HashMap Nat :=
  matched.foldl (countMember joinGroup) ∅

/-- The variables of the loop. -/
structure Progress (ρ : Type) where
  ready : List ρ
  waiting : List ρ
  groupDoneCount : HashMap Nat
  groupsDone : Finset String

/-- The split into reactions without dependencies and reactions that wait. -/
def Progress.initial (matched : List ρ) : Progress ρ where
  ready := matched.filter fun r => (requires r).isEmpty
  waiting := matched.filter fun r => !(requires r).isEmpty
  groupDoneCount := ∅
  groupsDone := ∅

/-- Every group the reaction waits for is done. -/
def allDone (groupsDone : Finset String) (r : ρ) : Bool :=
  (requires r).all (· ∈ groupsDone)

/-- The bookkeeping after `reaction` has fired: count it in its group and, when
that completes the group, move the reactions it unblocks to the ready queue. -/
def Progress.settle (total : HashMap Nat) (p : Progress ρ) (reaction : ρ) : Progress ρ :=
  match joinGroup reaction with
  | none => p
  | some g =>
      let done := nextCount p.groupDoneCount g
      let groupDoneCount := p.groupDoneCount.insert g done
      if total.lookup g = some done then
        let groupsDone := insert g p.groupsDone
        { ready := p.ready ++ p.waiting.filter (allDone requires groupsDone)
          waiting := p.waiting.filter fun w => !allDone requires groupsDone w
          groupDoneCount, groupsDone }
      else { p with groupDoneCount }

/-- Each reaction moves at most once from waiting to ready. -/
theorem Progress.settle_size (total : HashMap Nat) (p : Progress ρ) (reaction : ρ) :
    (p.settle joinGroup requires total reaction).ready.length +
      (p.settle joinGroup requires total reaction).waiting.length =
    p.ready.length + p.waiting.length := by
  unfold settle
  split
  · rfl
  · next g _ =>
      dsimp only
      split
      · have parts := @List.length_eq_length_filter_add _ p.waiting
          (allDone requires (insert g p.groupsDone))
        simp only [List.length_append]
        omega
      · rfl

/-- The loop of `dispatch_reactions`. -/
def dispatchLoop (fire : ρ → σ → Except ε Unit × σ) (total : HashMap Nat) (p : Progress ρ)
    (s : σ) : Except ε Unit × σ :=
  match _ready : p.ready with
  | [] => (.ok (), s)
  | reaction :: ready =>
      match fire reaction s with
      | (.error e, s) => (.error e, s)
      | (.ok (), s) =>
          dispatchLoop fire total
            (Progress.settle joinGroup requires total { p with ready } reaction) s
termination_by p.ready.length + p.waiting.length
decreasing_by
  rw [Progress.settle_size, _ready]
  simp

/-- `dispatch_reactions`, for any way to fire one reaction. -/
def dispatch (fire : ρ → σ → Except ε Unit × σ) (matched : List ρ) (s : σ) :
    Except ε Unit × σ :=
  dispatchLoop joinGroup requires fire (groupTotal joinGroup matched)
    (Progress.initial requires matched) s

/-- The reactions of the loop in the order they are popped from the queue. -/
def orderLoop (total : HashMap Nat) (p : Progress ρ) : List ρ :=
  match _ready : p.ready with
  | [] => []
  | reaction :: ready =>
      reaction ::
        orderLoop total (Progress.settle joinGroup requires total { p with ready } reaction)
termination_by p.ready.length + p.waiting.length
decreasing_by
  rw [Progress.settle_size, _ready]
  simp

theorem orderLoop_nil (total : HashMap Nat) {p : Progress ρ} (empty : p.ready = []) :
    orderLoop joinGroup requires total p = [] := by
  rw [orderLoop]
  split
  · rfl
  · next queue =>
      rw [empty] at queue
      cases queue

theorem orderLoop_cons (total : HashMap Nat) {p : Progress ρ} {reaction : ρ} {ready : List ρ}
    (queue : p.ready = reaction :: ready) :
    orderLoop joinGroup requires total p =
      reaction ::
        orderLoop joinGroup requires total
          (Progress.settle joinGroup requires total { p with ready } reaction) := by
  rw [orderLoop]
  split
  · next empty =>
      rw [empty] at queue
      cases queue
  · next queue' =>
      rw [queue] at queue'
      cases queue'
      rfl

/-- The order in which a dispatch fires, when nothing fails. -/
def order (matched : List ρ) : List ρ :=
  orderLoop joinGroup requires (groupTotal joinGroup matched) (Progress.initial requires matched)

theorem dispatchLoop_eq (fire : ρ → σ → Except ε Unit × σ) (total : HashMap Nat)
    (p : Progress ρ) (s : σ) :
    dispatchLoop joinGroup requires fire total p s =
      runAll fire (orderLoop joinGroup requires total p) s := by
  fun_induction orderLoop joinGroup requires total p generalizing s with
  | case1 p empty =>
      rw [dispatchLoop]
      split <;> simp_all
  | case2 p reaction ready queue ih =>
      rw [dispatchLoop]
      split
      · simp_all
      · next first rest same =>
          obtain ⟨rfl, rfl⟩ : reaction = first ∧ ready = rest := by simpa [queue] using same
          obtain ⟨t, done⟩ | ⟨e, t, failed⟩ := step_cases fire reaction s
          · simp only [runAll_cons_ok done, done, ih]
          · simp only [runAll_cons_error failed, failed]

/-- Dispatching is firing the reactions of `order` one by one up to the first
error. -/
theorem dispatch_eq (fire : ρ → σ → Except ε Unit × σ) (matched : List ρ) (s : σ) :
    dispatch joinGroup requires fire matched s =
      runAll fire (order joinGroup requires matched) s :=
  dispatchLoop_eq joinGroup requires fire _ _ s

/-! ## Renaming

The loop looks at a reaction only through its two fields, so it commutes with
any map that keeps them.
-/

section Renaming

variable {ι : Type} (f : ι → ρ)

def Progress.map (p : Progress ι) : Progress ρ :=
  { p with ready := p.ready.map f, waiting := p.waiting.map f }

theorem groupTotal_map (xs : List ι) :
    groupTotal joinGroup (xs.map f) = groupTotal (fun i => joinGroup (f i)) xs := by
  rw [groupTotal, List.foldl_map]
  rfl

theorem initial_map (xs : List ι) :
    Progress.initial requires (xs.map f) =
      (Progress.initial (fun i => requires (f i)) xs).map f := by
  simp only [Progress.initial, Progress.map, List.filter_map]
  rfl

theorem settle_map (total : HashMap Nat) (p : Progress ι) (i : ι) :
    (p.map f).settle joinGroup requires total (f i) =
      (p.settle (fun i => joinGroup (f i)) (fun i => requires (f i)) total i).map f := by
  have same : (p.map f).groupDoneCount = p.groupDoneCount := rfl
  unfold Progress.settle
  dsimp only
  cases joinGroup (f i) with
  | none => rfl
  | some g =>
      dsimp only
      rw [same]
      by_cases last : total.lookup g = some (nextCount p.groupDoneCount g)
      · rw [if_pos last, if_pos last]
        simp only [Progress.map, List.filter_map, List.map_append]
        rfl
      · rw [if_neg last, if_neg last]
        rfl

theorem orderLoop_map (total : HashMap Nat) (p : Progress ι) :
    orderLoop joinGroup requires total (p.map f) =
      (orderLoop (fun i => joinGroup (f i)) (fun i => requires (f i)) total p).map f := by
  fun_induction orderLoop (fun i => joinGroup (f i)) (fun i => requires (f i)) total p with
  | case1 p empty =>
      exact orderLoop_nil joinGroup requires total (by rw [Progress.map, empty, List.map_nil])
  | case2 p i ready queue ih =>
      have queue' : (p.map f).ready = f i :: ready.map f := by
        rw [Progress.map, queue, List.map_cons]
      rw [orderLoop_cons joinGroup requires total queue', List.map_cons, ← ih, ← settle_map]
      rfl

theorem order_map (xs : List ι) :
    order joinGroup requires (xs.map f) =
      (order (fun i => joinGroup (f i)) (fun i => requires (f i)) xs).map f := by
  rw [order, groupTotal_map, initial_map, orderLoop_map]
  rfl

/-- Dispatching a renamed list is dispatching the names. -/
theorem dispatch_map (fire : ρ → σ → Except ε Unit × σ) (xs : List ι) (s : σ) :
    dispatch joinGroup requires fire (xs.map f) s =
      dispatch (fun i => joinGroup (f i)) (fun i => requires (f i)) (fun i => fire (f i)) xs s := by
  rw [dispatch_eq, dispatch_eq, order_map, runAll_map]

end Renaming

end SignalTopology
