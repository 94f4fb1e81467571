import SignalTopology.Engine.Invocations
import SignalTopology.Engine.Validation

/-!
# Automatic registration of actions

The tools register a handler for every id that `collect_action_ids` returns.
These are the ids bound by transitions. The hooks of reactions are looked up in
the same table, so they are found only when a transition binds their id too.
-/

namespace SignalTopology

open Sequencing TopologyEngine

variable {W : Type}

/-- `register_action` for each pair. -/
def registerAll (engine : TopologyEngine W) (handlers : List (String × ActionFn W)) :
    TopologyEngine W :=
  handlers.foldl (fun engine handler => engine.registerAction handler.1 handler.2) engine

theorem mem_collectActionIds {schema : TopologySchema} {id : String} :
    id ∈ collectActionIds schema ↔ ∃ t ∈ schema.transitions, id ∈ t.actions.allActions := by
  have loop : ∀ (transitions : List TransitionDef) (ids : Finset String),
      id ∈ transitions.foldl (fun ids t => ids ∪ t.actions.allActions.toFinset) ids ↔
        id ∈ ids ∨ ∃ t ∈ transitions, id ∈ t.actions.allActions := by
    intro transitions
    induction transitions with
    | nil => simp
    | cons t transitions ih =>
        intro ids
        rw [List.foldl_cons, ih]
        simp [or_assoc]
  simp [collectActionIds, loop]

/-- `dedup` drops repetitions only. -/
theorem mem_destutter {ids : List String} {id : String} :
    id ∈ ids.destutter (· ≠ ·) ↔ id ∈ ids := by
  have loop : ∀ (ids : List String) (last : String),
      id ∈ ids.destutter' (· ≠ ·) last ↔ id ∈ last :: ids := by
    intro ids
    induction ids with
    | nil => simp
    | cons next ids ih =>
        intro last
        rw [List.destutter'_cons]
        by_cases same : last = next
        · rw [if_neg (not_not.mpr same), ih, same]
          simp
        · rw [if_pos same, List.mem_cons, ih]
          exact List.mem_cons.symm
  cases ids with
  | nil => simp
  | cons first ids => exact loop ids first

/-- The id lists of the runner, of the engine and of the bindings agree. -/
theorem mem_actionIds {engine : TopologyEngine W} {id : String} :
    id ∈ engine.actionIds ↔ ∃ t ∈ engine.transitions, id ∈ t.actions.allActions := by
  rw [actionIds, mem_destutter, List.mem_mergeSort, List.mem_flatMap]

theorem registerAll_transitions (engine : TopologyEngine W)
    (handlers : List (String × ActionFn W)) :
    (registerAll engine handlers).transitions = engine.transitions ∧
      (registerAll engine handlers).reactions = engine.reactions := by
  induction handlers generalizing engine with
  | nil => exact ⟨rfl, rfl⟩
  | cons handler handlers ih => exact ih (engine.registerAction handler.1 handler.2)

/-- Registering changes the table of callbacks and nothing else. -/
theorem registerAll_frame (engine : TopologyEngine W) (handlers : List (String × ActionFn W)) :
    registerAll engine handlers =
      { engine with actions := (registerAll engine handlers).actions } := by
  induction handlers generalizing engine with
  | nil => rfl
  | cons handler handlers ih => exact ih (engine.registerAction handler.1 handler.2)

/-- Handlers that go by their ids, registered in whatever order and however often. -/
theorem registerAll_lookup (engine : TopologyEngine W) (ids : List String)
    (handler : String → ActionFn W) (id : String) :
    (registerAll engine (ids.map fun id => (id, handler id))).actions.lookup id =
      if id ∈ ids then some (handler id) else engine.actions.lookup id := by
  induction ids generalizing engine with
  | nil => rw [if_neg List.not_mem_nil]; rfl
  | cons actionId ids ih =>
      refine (ih (engine.registerAction actionId (handler actionId))).trans ?_
      unfold registerAction
      dsimp only
      by_cases later : id ∈ ids
      · rw [if_pos later, if_pos (List.mem_cons_of_mem _ later)]
      · by_cases same : id = actionId
        · rw [if_neg later, same, AList.lookup_insert, if_pos List.mem_cons_self]
        · rw [if_neg later, AList.lookup_insert_ne same, if_neg (by simp [same, later])]

theorem registered_registerAction {engine : TopologyEngine W} {id actionId : String}
    {f : ActionFn W} (h : id = actionId ∨ engine.Registered id) :
    (engine.registerAction actionId f).Registered id := by
  unfold Registered registerAction
  by_cases same : id = actionId
  · subst same
    simp
  · rw [AList.lookup_insert_ne same]
    exact h.resolve_left same

theorem registerAll_registered {engine : TopologyEngine W} {handlers : List (String × ActionFn W)}
    {id : String} (h : engine.Registered id ∨ ∃ f, (id, f) ∈ handlers) :
    (registerAll engine handlers).Registered id := by
  induction handlers generalizing engine with
  | nil => exact h.resolve_right (by simp)
  | cons handler handlers ih =>
      refine @ih (engine.registerAction handler.1 handler.2) ?_
      rcases h with before | ⟨f, member⟩
      · exact .inl (registered_registerAction (.inr before))
      · rcases List.mem_cons.mp member with rfl | later
        · exact .inl (registered_registerAction (.inl rfl))
        · exact .inr ⟨f, later⟩

section

variable [RustStd] [SerdeJson]

/-- With a handler for every collected id, no action of a run fails with
`ActionNotFound` exactly if every hook that runs has a handler. The id lists of
the runner and of the engine agree, and a topology whose hooks are all bound by
transitions satisfies the condition. -/
theorem collected_actions_found {world : W} {schema : TopologySchema} {built : TopologyEngine W}
    (flat : schema.Flat) (loaded : TopologyEngine.fromSchema world schema = .ok built)
    (handlers : List (String × ActionFn W))
    (registered : ∀ id ∈ collectActionIds schema, ∃ f, (id, f) ∈ handlers)
    (events : List Event) :
    (∀ id, id ∈ built.actionIds ↔ id ∈ collectActionIds schema) ∧
    ((∀ i, InvokedIn (registerAll built handlers) events i →
        ∀ id, i.run.1 ≠ .error (.actionNotFound id)) ↔
      ∀ reaction, CompensatedIn (registerAll built handlers) events reaction →
        ∀ id, reaction.onFail = some id → (registerAll built handlers).Registered id) ∧
    ((∀ reaction ∈ schema.reactions, ∀ id, reaction.onFail = some id →
        id ∈ collectActionIds schema) →
      ∀ i, InvokedIn (registerAll built handlers) events i →
        ∀ id, i.run.1 ≠ .error (.actionNotFound id)) := by
  obtain ⟨flat', flattened, _, _, transitions, reactions, _⟩ := fromSchema_spec loaded
  rw [expand_of_flat flat] at flattened
  cases flattened
  obtain ⟨sameTransitions, sameReactions⟩ := registerAll_transitions built handlers
  have collected : ∀ id ∈ collectActionIds schema, (registerAll built handlers).Registered id :=
    fun id member => registerAll_registered (.inr (registered id member))
  have found : ∀ {i}, InvokedIn (registerAll built handlers) events i →
      (registerAll built handlers).Registered i.actionId →
      ∀ id, i.run.1 ≠ .error (.actionNotFound id) := by
    intro i invoked known
    refine i.found_iff.mp ?_
    rw [Invocation.Found, Registered, invoked.actions]
    exact known
  have bound : ∀ {i}, InvokedIn (registerAll built handlers) events i →
      i.actionId ∈ collectActionIds schema ∨
      ∃ reaction ∈ schema.reactions, CompensatedIn (registerAll built handlers) events reaction ∧
        reaction.onFail = some i.actionId := by
    intro i invoked
    rcases invoked.bound with ⟨t, declared, member⟩ | ⟨reaction, declared, failed⟩
    · rw [sameTransitions, transitions] at declared
      exact .inl (mem_collectActionIds.mpr ⟨t, declared, member⟩)
    · rw [sameReactions, reactions] at declared
      exact .inr ⟨reaction, declared, failed⟩
  refine ⟨fun id => ?_, ⟨fun never reaction compensated id named => ?_, fun hooks i invoked => ?_⟩,
    fun covered i invoked => ?_⟩
  · rw [mem_actionIds, mem_collectActionIds, transitions]
  · obtain ⟨before, ev, after, split, c', c'', e, x, reached, delivers, failed⟩ := compensated
    have invoked : InvokedIn (registerAll built handlers) events
        ⟨reaction.toSignal, id, hookContext reaction c'.parentPayload e x, x⟩ :=
      ⟨before, ev, after, split, c', reached, .hook delivers failed named⟩
    have known := (Invocation.found_iff _).mpr (never _ invoked)
    rw [Invocation.Found, Registered, invoked.actions] at known
    exact known
  · rcases bound invoked with member | ⟨reaction, _, compensated, named⟩
    · exact found invoked (collected _ member)
    · exact found invoked (hooks reaction compensated _ named)
  · rcases bound invoked with member | ⟨reaction, declared, _, named⟩
    · exact found invoked (collected _ member)
    · exact found invoked (collected _ (covered reaction declared _ named))

end

/-- An order whose payment is refunded when its archive entry fails. -/
def refundSchema : TopologySchema where
  version := "1.0"
  signals := [⟨"order", "open", ["open", "paid"]⟩, ⟨"archive", "idle", ["idle"]⟩]
  transitions := [
    { signalId := "order", fromState := "open", event := "pay", toState := "paid"
      actions := { onEnter := ["charge"] } }]
  reactions := [
    { fromSignal := "order", fromState := "paid", toSignal := "archive", event := "file"
      onFail := some "refund" }]

/-- The engine `from_schema` builds for it. -/
def refundEngine : TopologyEngine Unit where
  signals := signalTable (·.initialState) refundSchema.signals
  transitions := refundSchema.transitions
  reactions := refundSchema.reactions
  actions := ∅
  trace := []
  maxCascadeDepth := 8
  world := ()

/-- A handler for every collected id. -/
def refundHandlers : List (String × ActionFn Unit) := [("charge", fun _ world => (.ok (), world))]

theorem refundEngine_loaded : TopologyEngine.fromSchema () refundSchema = .ok refundEngine := rfl

theorem refundHandlers_complete :
    ∀ id ∈ collectActionIds refundSchema, ∃ f, (id, f) ∈ refundHandlers := by
  intro id member
  have only : id = "charge" := by
    simpa [collectActionIds, refundSchema, ActionBinding.allActions] using member
  subst only
  exact ⟨_, List.mem_singleton.mpr rfl⟩

theorem refund_found_iff :
    (∀ i, @InvokedIn Unit .ascii .keywords (registerAll refundEngine refundHandlers)
        [⟨"order", "pay", none⟩] i → ∀ id, i.run.1 ≠ .error (.actionNotFound id)) ↔
      ∀ reaction, @CompensatedIn Unit .ascii .keywords
          (registerAll refundEngine refundHandlers) [⟨"order", "pay", none⟩] reaction →
        ∀ id, reaction.onFail = some id →
          (registerAll refundEngine refundHandlers).Registered id :=
  (@collected_actions_found Unit .ascii .keywords () refundSchema refundEngine rfl
    refundEngine_loaded refundHandlers refundHandlers_complete [⟨"order", "pay", none⟩]).2.1

/-- Paying the order runs the hook, which no collected id covers. -/
theorem refund_not_found :
    refundSchema.Flat ∧ TopologyEngine.fromSchema () refundSchema = .ok refundEngine ∧
    (∀ id ∈ collectActionIds refundSchema, ∃ f, (id, f) ∈ refundHandlers) ∧
    ∃ i, @InvokedIn Unit .ascii .keywords (registerAll refundEngine refundHandlers)
        [⟨"order", "pay", none⟩] i ∧ i.run.1 = .error (.actionNotFound "refund") := by
  refine ⟨rfl, refundEngine_loaded, refundHandlers_complete, ?_⟩
  obtain ⟨events, log, started⟩ := @Call.run_startedBy Unit .ascii .keywords 8
    (.top (registerAll refundEngine refundHandlers) "order" "pay" none)
  have recorded : TraceEvent.actionStarted "archive" "refund" ∈ events := by
    have trace : TraceEvent.actionStarted "archive" "refund" ∈ (@Call.run Unit .ascii .keywords 8
        (.top (registerAll refundEngine refundHandlers) "order" "pay" none)).2.trace := by
      decide +kernel
    rw [log] at trace
    exact (List.mem_append.mp trace).resolve_left (by decide)
  obtain ⟨i, ⟨c', reached, invoked⟩, _, named⟩ := started _ _ recorded
  have sent : @InvokedIn Unit .ascii .keywords (registerAll refundEngine refundHandlers)
      [⟨"order", "pay", none⟩] i := ⟨[], _, [], rfl, c', reached, invoked⟩
  refine ⟨i, sent, ?_⟩
  have missing : ¬ i.Found := by
    rw [Invocation.Found, Registered, @InvokedIn.actions Unit .ascii .keywords _ _ i sent, named]
    decide
  rw [Invocation.run_missing missing, named]

end SignalTopology
