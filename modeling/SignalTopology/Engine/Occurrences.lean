import SignalTopology.Engine.Cascade
import SignalTopology.Engine.Schedule

/-!
# Fork/join guarantees of a dispatch

The same reaction may be matched more than once, so the guarantees are about
the positions in the matched list. `dispatchOccurrences` runs the loop of
`dispatch_reactions` over these positions and logs each `fire_one_reaction`
with its outcome when it returns; forgetting the log gives `dispatchReactions`.
-/

namespace SignalTopology

open Sequencing ForkJoin

/-- A position in the matched list: one occurrence of a reaction. -/
abbrev Occurrence (matched : List ReactionDef) := Fin matched.length

namespace Occurrence

variable {matched : List ReactionDef}

def joinGroup (r : Occurrence matched) : Option String := (matched.get r).joinGroup

def requires (r : Occurrence matched) : List String := (matched.get r).requires

end Occurrence

/-- The fork/join schedule of the occurrences. -/
def occurrenceOrder (matched : List ReactionDef) : List (Occurrence matched) :=
  order Occurrence.joinGroup Occurrence.requires (List.finRange matched.length)

theorem occurrenceOrder_schedule (matched : List ReactionDef) :
    Schedule Occurrence.joinGroup Occurrence.requires (List.finRange matched.length)
      (occurrenceOrder matched) :=
  order_schedule (List.nodup_finRange matched.length)

namespace TopologyEngine

variable {W : Type}

section

variable [RustStd] [SerdeJson]

/-- `fire_one_reaction` on one occurrence. -/
def fireOccurrence (limit : Nat) (matched : List ReactionDef) (parentPayload : Option JsonValue)
    (depth : Nat) (transitionSignal : String) (r : Occurrence matched)
    (engine : TopologyEngine W) : Except EngineError Unit × TopologyEngine W :=
  fireOneReaction
    (fun reaction => sendEventInternal limit reaction.toSignal reaction.event reaction.payload
      reaction.payload (depth + 1)) parentPayload transitionSignal (matched.get r) engine

/-- `dispatch_reactions` over occurrences, with a log of what was fired. -/
def dispatchOccurrences (limit : Nat) (matched : List ReactionDef)
    (parentPayload : Option JsonValue) (depth : Nat) (transitionSignal : String)
    (engine : TopologyEngine W) :
    Except EngineError Unit ×
      (TopologyEngine W × List (Occurrence matched × Except EngineError Unit)) :=
  dispatch Occurrence.joinGroup Occurrence.requires
    (logged (fireOccurrence limit matched parentPayload depth transitionSignal))
    (List.finRange matched.length) (engine, [])

variable (limit : Nat) (matched : List ReactionDef) (parentPayload : Option JsonValue)
  (depth : Nat) (transitionSignal : String) (engine : TopologyEngine W)

theorem dispatchReactions_eq :
    dispatchReactions limit matched parentPayload depth transitionSignal engine =
      runAll (fireOccurrence limit matched parentPayload depth transitionSignal)
        (occurrenceOrder matched) engine := by
  conv_lhs => rw [dispatchReactions, ← List.map_get_finRange matched, dispatch_map, dispatch_eq]
  rfl

theorem dispatchOccurrences_eq :
    dispatchOccurrences limit matched parentPayload depth transitionSignal engine =
      ((dispatchReactions limit matched parentPayload depth transitionSignal engine).1,
        ((dispatchReactions limit matched parentPayload depth transitionSignal engine).2,
          attempts (fireOccurrence limit matched parentPayload depth transitionSignal)
            (occurrenceOrder matched) engine)) := by
  rw [dispatchOccurrences, dispatch_eq, dispatchReactions_eq]
  exact runAll_logged _ _ _

/-- Fork/join dispatch loses and duplicates nothing: a dispatch that returns
`Ok` has fired no occurrence twice, and the occurrences it has fired are the
least set that contains `r` whenever every group `r` requires has a matched
member and all its matched members are in the set. -/
theorem dispatch_fires_least
    (done : (dispatchReactions limit matched parentPayload depth transitionSignal engine).1 =
      .ok ()) :
    ∃ fired : List (Occurrence matched),
      dispatchOccurrences limit matched parentPayload depth transitionSignal engine =
        (.ok (), ((dispatchReactions limit matched parentPayload depth transitionSignal engine).2,
          fired.map (·, .ok ()))) ∧
      fired.Nodup ∧
      IsLeast {F : Set (Occurrence matched) | ∀ r : Occurrence matched,
          (∀ g ∈ r.requires, (∃ m : Occurrence matched, m.joinGroup = some g) ∧
            ∀ m : Occurrence matched, m.joinGroup = some g → m ∈ F) → r ∈ F}
        {r | r ∈ fired} := by
  have scheduled := occurrenceOrder_schedule matched
  refine ⟨occurrenceOrder matched, ?_, scheduled.nodup, ?_⟩
  · rw [dispatchOccurrences_eq, done]
    rw [dispatchReactions_eq] at done ⊢
    rw [attempts_ok (Prod.ext done rfl)]
  · have least := scheduled.isLeast
    simpa only [Closed, Satisfied, List.mem_finRange, true_and, true_implies] using least

end

/-- A join, the two members of its fork, and a reaction that waits for itself. -/
def orderPaid : List ReactionDef := [
  { fromSignal := "order", fromState := "paid", toSignal := "invoice", event := "go"
    requires := ["shipping"] },
  { fromSignal := "order", fromState := "paid", toSignal := "stock", event := "go"
    joinGroup := some "shipping" },
  { fromSignal := "order", fromState := "*", toSignal := "courier", event := "go"
    joinGroup := some "shipping" },
  { fromSignal := "order", fromState := "paid", toSignal := "order", event := "go"
    joinGroup := some "loop", requires := ["loop"] }]

/-- The engine these reactions belong to. -/
def orderEngine : TopologyEngine Unit where
  signals := signalTable (·.initialState)
    (["order", "invoice", "stock", "courier"].map fun id => ⟨id, "idle", ["idle", "paid"]⟩)
  transitions := ["order", "invoice", "stock", "courier"].map fun id =>
    { signalId := id, fromState := "idle", event := "go", toState := "paid" }
  reactions := orderPaid
  actions := ∅
  trace := []
  maxCascadeDepth := 8
  world := ()

theorem orderPaid_fires_least :
    ∃ fired : List (Occurrence orderPaid),
      @dispatchOccurrences Unit .ascii .keywords 8 orderPaid none 0 "order" orderEngine =
        (.ok (), ((@dispatchReactions Unit .ascii .keywords 8 orderPaid none 0 "order"
          orderEngine).2, fired.map (·, .ok ()))) ∧
      fired.Nodup ∧
      IsLeast {F : Set (Occurrence orderPaid) | ∀ r : Occurrence orderPaid,
          (∀ g ∈ r.requires, (∃ m : Occurrence orderPaid, m.joinGroup = some g) ∧
            ∀ m : Occurrence orderPaid, m.joinGroup = some g → m ∈ F) → r ∈ F}
        {r | r ∈ fired} :=
  @dispatch_fires_least Unit .ascii .keywords 8 orderPaid none 0 "order" orderEngine
    (by decide +kernel)

section

variable [RustStd] [SerdeJson] (limit : Nat) (matched : List ReactionDef)
  (parentPayload : Option JsonValue) (depth : Nat) (transitionSignal : String)
  (engine : TopologyEngine W)

/-- A join never fires early: whatever the dispatch returns, when an occurrence
was fired, every group it requires has a matched member and all its matched
members had returned without error before. Nothing that awaits a failed
occurrence, directly or through other groups, is fired. -/
theorem dispatch_join_waits :
    (∀ front r outcome back,
      (dispatchOccurrences limit matched parentPayload depth transitionSignal engine).2.2 =
        front ++ (r, outcome) :: back →
      ∀ g ∈ r.requires, (∃ m : Occurrence matched, m.joinGroup = some g) ∧
        ∀ m : Occurrence matched, m.joinGroup = some g → (m, .ok ()) ∈ front) ∧
    (∀ m e,
      (m, .error e) ∈
        (dispatchOccurrences limit matched parentPayload depth transitionSignal engine).2.2 →
      ∀ r, Relation.TransGen
          (fun r m : Occurrence matched => ∃ g ∈ r.requires, m.joinGroup = some g) r m →
        ∀ outcome, (r, outcome) ∉
          (dispatchOccurrences limit matched parentPayload depth transitionSignal engine).2.2) := by
  have scheduled := occurrenceOrder_schedule matched
  rw [dispatchOccurrences_eq]
  constructor
  · intro front r outcome back log g required
    obtain ⟨before, after, split, rfl⟩ := attempts_split log
    obtain ⟨⟨m, _, group⟩, every⟩ := scheduled.respects before r after split g required
    refine ⟨⟨m, group⟩, fun m' group' => ?_⟩
    exact List.mem_map_of_mem (every m' (List.mem_finRange m') group')
  · intro m e failed r awaited outcome fired
    obtain ⟨early, late, split, log⟩ := attempts_failed failed
    rw [log] at fired
    have awaits : Relation.TransGen
        (Awaits Occurrence.joinGroup Occurrence.requires (List.finRange matched.length)) r m :=
      Relation.TransGen.mono (fun _ m' direct => ⟨List.mem_finRange m', direct⟩) r m awaited
    -- `r` was fired no later than `m`, but everything it awaits comes before it
    have distinct := scheduled.nodup
    rw [split] at distinct
    rcases List.mem_append.mp fired with earlier | last
    · obtain ⟨r', member, entry⟩ := List.mem_map.mp earlier
      obtain ⟨rfl, _⟩ := Prod.mk.inj entry
      obtain ⟨before, after, rfl⟩ := List.append_of_mem member
      have placed : m ∈ before :=
        scheduled.awaited_before (split.trans (List.append_assoc ..)) awaits
      have apart := (List.nodup_append.mp distinct).2.2 m (by simp [placed]) m List.mem_cons_self
      exact apart rfl
    · obtain ⟨rfl, _⟩ := Prod.mk.inj (List.mem_singleton.mp last)
      have placed : r ∈ early := scheduled.awaited_before split awaits
      exact (List.nodup_append.mp distinct).2.2 r placed r List.mem_cons_self rfl

end

end TopologyEngine

end SignalTopology
