import Mathlib.Data.Finset.Card
import SignalTopology.Engine.Compensation
import SignalTopology.Engine.Parallel

/-!
# Topologies without cycles of reactions

A delivery at depth `n` stands at the end of a walk of `n` reactions. Without cycles a walk
visits no signal twice, so a limit as large as the number of signals is never reached; and a
limit that is not reached might as well be any higher one.
-/

namespace SignalTopology

open Sequencing TopologyEngine

variable {W : Type}

/-- No chain of reactions leads back to where it started. -/
def Acyclic (reactions : List ReactionDef) : Prop :=
  ∀ id, ¬ Relation.TransGen (Edge reactions) id id

/-- A walk in an acyclic graph visits no signal twice. -/
theorem Acyclic.nodup {reactions : List ReactionDef} (acyclic : Acyclic reactions)
    {walk : List String} (chain : walk.IsChain (Edge reactions)) : walk.Nodup := by
  have onwards : walk.Pairwise (Relation.TransGen (Edge reactions)) :=
    (chain.imp fun _ _ => Relation.TransGen.single).pairwise
  refine onwards.imp ?_
  rintro id _ leads rfl
  exact acyclic id leads

/-- The signals that reactions connect. -/
def endpoints (reactions : List ReactionDef) : Finset String :=
  (reactions.flatMap fun r => [r.fromSignal, r.toSignal]).toFinset

theorem Edge.endpoints {reactions : List ReactionDef} {id id' : String}
    (edge : Edge reactions id id') :
    id ∈ endpoints reactions ∧ id' ∈ endpoints reactions := by
  obtain ⟨r, declared, rfl, rfl⟩ := edge
  simp only [SignalTopology.endpoints, List.mem_toFinset, List.mem_flatMap]
  exact ⟨⟨r, declared, by simp⟩, ⟨r, declared, by simp⟩⟩

theorem walk_endpoints {reactions : List ReactionDef} {id : String} {walk : List String}
    (chain : (id :: walk).IsChain (Edge reactions)) :
    ∀ visited ∈ walk, visited ∈ endpoints reactions := by
  induction walk generalizing id with
  | nil => simp
  | cons next walk ih =>
      obtain ⟨edge, rest⟩ := List.isChain_cons_cons.mp chain
      exact List.forall_mem_cons.mpr ⟨edge.endpoints.2, ih rest⟩

/-- A walk makes fewer steps than there are signals to visit. -/
theorem Acyclic.walk_length {reactions : List ReactionDef} (acyclic : Acyclic reactions)
    {id : String} {walk : List String} (chain : (id :: walk).IsChain (Edge reactions)) :
    walk.length ≤ (endpoints reactions).card - 1 := by
  cases walk with
  | nil => exact Nat.zero_le _
  | cons next walk =>
      have first := (List.isChain_cons_cons.mp chain).1.endpoints.1
      have inside : (id :: next :: walk).toFinset ⊆ endpoints reactions := by
        intro visited member
        rcases List.mem_cons.mp (List.mem_toFinset.mp member) with rfl | later
        · exact first
        · exact walk_endpoints chain visited later
      have bound := Finset.card_le_card inside
      rw [List.toFinset_card_of_nodup (acyclic.nodup chain)] at bound
      simp only [List.length_cons] at bound ⊢
      omega

section

variable [RustStd] [SerdeJson]

namespace Call

variable {limit : Nat} {c c' : Call W}

/-- The depth of a reached call is the length of a walk to its signal. -/
theorem Reached.walk (h : c.Reached limit c') : ∃ walk : List String,
    (c.signalId :: walk).IsChain (Edge c.engine.reactions) ∧ c.depth + walk.length = c'.depth := by
  induction h using Relation.ReflTransGen.head_induction_on with
  | refl => exact ⟨[], .singleton _, rfl⟩
  | @head c c₁ first below ih =>
      obtain ⟨reaction, delivers⟩ := first
      obtain ⟨walk, chain, length⟩ := ih
      have kept := (Reached.sameTopology (.single ⟨reaction, delivers⟩)).reactions
      have deeper := delivers.depth.2
      rw [kept] at chain
      refine ⟨c₁.signalId :: walk, List.isChain_cons_cons.mpr ⟨delivers.edge, chain⟩, ?_⟩
      rw [List.length_cons]
      omega

omit [RustStd] [SerdeJson] in
/-- Whatever a callback answers, its failure is told as an execution error. -/
theorem runActions_shallow (ctx : ActionContext) (ids : List String) (engine : TopologyEngine W) :
    (runActions ctx ids engine).1 ≠ .error .cascadeDepthExceeded := by
  intro exceeded
  rcases ran : runActions ctx ids engine with ⟨outcome, x⟩
  rw [ran] at exceeded
  obtain rfl : outcome = .error .cascadeDepthExceeded := exceeded
  obtain ⟨_, actionId, _, u, _, _, failed⟩ := runAll_error_iff.mp ran
  obtain ⟨_, same⟩ | ⟨_, t, same, _⟩ | ⟨_, error, t, same, _⟩ :=
    runAction_cases ctx.signalId actionId ctx u <;> rw [failed] at same <;> cases same

omit [RustStd] [SerdeJson] in
theorem runTransition_shallow (ctx : ActionContext) (actions : ActionBinding)
    (engine : TopologyEngine W) :
    (runTransition ctx actions engine).1 ≠ .error .cascadeDepthExceeded := by
  obtain ⟨e, u, exits, ran⟩ | ⟨e, u, v, exits, enters, ran⟩ | ⟨u, v, _, _, ran⟩ :=
    runTransition_cases ctx actions engine
  · have told := runActions_shallow ctx actions.onExit engine
    rw [exits] at told
    rw [ran]
    simpa using told
  · have told := runActions_shallow ctx (actions.onTransition ++ actions.onEnter)
      (u.setCurrent ctx.signalId ctx.toState)
    rw [enters] at told
    rw [ran]
    simpa using told
  · rw [ran]
    simp

theorem checkGuard_shallow (transition : TransitionDef) (ctx : ActionContext) :
    checkGuard transition ctx ≠ .error .cascadeDepthExceeded := by
  unfold checkGuard
  split
  · simp
  · split <;> simp

/-- An attempt does not fail on the depth. -/
theorem attempt_shallow (c : Call W) : c.attempt.1 ≠ .error .cascadeDepthExceeded := by
  unfold attempt TopologyEngine.attemptTransition
  dsimp only
  split
  · simp
  · split
    · simp
    · split
      · next e rejected =>
          intro told
          cases told
          exact checkGuard_shallow _ _ rejected
      · exact runTransition_shallow _ _ _

/-- A call that fails on the depth stands at the start of a walk beyond the limit. -/
theorem run_walk (exceeded : (c.run limit).1 = .error .cascadeDepthExceeded) :
    ∃ walk : List String, (c.signalId :: walk).IsChain (Edge c.engine.reactions) ∧
      limit < c.depth + walk.length := by
  rcases ran : c.run limit with ⟨outcome, x⟩
  rw [ran] at exceeded
  obtain rfl : outcome = .error .cascadeDepthExceeded := exceeded
  obtain ⟨chain, inner, along⟩ := exists_chain c ran
  obtain ⟨walk, isChain, length⟩ := along.reached.walk
  refine ⟨walk, isChain, ?_⟩
  obtain ⟨deep, _⟩ | ⟨_, u, rejected⟩ := along.raises
  · omega
  · exact absurd (congrArg Prod.fst rejected) inner.attempt_shallow

/-- A call that does not fail on the depth goes alike under every higher limit. -/
theorem run_raised {limit' : Nat} (higher : limit ≤ limit') (c : Call W)
    (shallow : (c.run limit).1 ≠ .error .cascadeDepthExceeded) : c.run limit' = c.run limit := by
  induction c using nested_induction limit with
  | step c nested =>
      have fires : c.depth ≤ limit → ∀ reaction u,
          (c.fire limit reaction u).1 ≠ .error .cascadeDepthExceeded →
          c.fire limit' reaction u = c.fire limit reaction u := by
        intro within reaction u shallow
        obtain ⟨w, skipped, same⟩ | ⟨w, result, x, passed, ran, same⟩ |
          ⟨w, e, x, passed, ran, same⟩ :=
          c.fire_cases limit reaction u
        · rw [same, fire_skipped skipped]
        · have again := nested within reaction w (by rw [ran]; simp)
          rw [ran] at again
          rw [same, fire_delivered passed again]
        · rw [same] at shallow
          have again := nested within reaction w (by rw [ran]; simp_all)
          rw [ran] at again
          rw [same, fire_failed passed again]
      obtain ⟨deep, ran⟩ | ⟨within, e, u, rejected, ran⟩ |
        ⟨within, result, u, v, committed, all, ran⟩ |
        ⟨within, result, u, e, v, committed, all, ran⟩ := c.run_cases limit
      · rw [ran] at shallow
        exact absurd rfl shallow
      · rw [ran, run_rejected limit' c (le_trans within higher) rejected]
      all_goals
        have good : (runAll (c.fire limit) (c.agenda result u) u).1 ≠
            .error .cascadeDepthExceeded := by
          rw [ran] at shallow
          rw [all]
          simp_all
        have again := runAll_unless (fun reaction _ => fires within reaction) good
        rw [ran, run_committed limit' c (le_trans within higher) committed, again, all]

end Call

omit [RustStd] [SerdeJson] in
/-- No call looks at the limit of the engine it runs on. -/
theorem mirrors_limit (depth : Nat) :
    Mirrors Set.univ fun s t : TopologyEngine W => t = s.setMaxCascadeDepth depth where
  current := by
    rintro s _ rfl _ _
    rfl
  findTransition := by
    rintro s _ rfl _ _ _ _
    rfl
  matchingReactions := by
    rintro s _ rfl _ _ _
    rfl
  closed _ _ _ _ _ := Set.mem_univ _
  push := by
    rintro s _ rfl _ _
    rfl
  setCurrent := by
    rintro s _ rfl id _ state
    unfold TopologyEngine.setCurrent setMaxCascadeDepth
    dsimp only
    split <;> rfl
  call := by
    rintro s _ rfl actionId ctx _
    show Option.Rel _ (s.actions.lookup actionId) (s.actions.lookup actionId)
    cases s.actions.lookup actionId with
    | none => exact .none
    | some f => exact .some ⟨rfl, rfl⟩

/-- A send that does not fail on the depth goes alike under every higher limit. -/
theorem sendEvent_raise {engine : TopologyEngine W} {signalId event : String}
    {payload : Option JsonValue}
    (shallow : (engine.sendEvent signalId event payload).1 ≠ .error .cascadeDepthExceeded)
    {depth : Nat} (higher : engine.maxCascadeDepth ≤ depth) :
    Agree (fun s t => t = s.setMaxCascadeDepth depth) (engine.sendEvent signalId event payload)
      ((engine.setMaxCascadeDepth depth).sendEvent signalId event payload) := by
  have alike := Call.run_mirrors (mirrors_limit depth) depth (.top engine signalId event payload)
    (Set.mem_univ signalId) rfl
  rw [Call.sendEvent_eq] at shallow
  rwa [Call.run_raised higher (.top engine signalId event payload) shallow] at alike

/-- Where reactions form no cycle, a limit of one less than the signals they connect is never
reached: no send fails on the depth, and under every higher limit all sends of a run give the
same results and lead to the same states and log. -/
theorem acyclic_shallow {engine : TopologyEngine W} (acyclic : Acyclic engine.reactions)
    (enough : (endpoints engine.reactions).card ≤ engine.maxCascadeDepth + 1)
    (events : List Event) :
    (∀ answer ∈ (session Event.send events engine).1, answer ≠ .error .cascadeDepthExceeded) ∧
    ∀ depth, engine.maxCascadeDepth ≤ depth →
      Agree (fun s t => t = s.setMaxCascadeDepth depth) (session Event.send events engine)
        (session Event.send events (engine.setMaxCascadeDepth depth)) := by
  have shallow : ∀ s : TopologyEngine W, SameTopology engine s → ∀ signalId event payload,
      (s.sendEvent signalId event payload).1 ≠ .error .cascadeDepthExceeded := by
    intro s same signalId event payload exceeded
    obtain ⟨walk, chain, beyond⟩ := Call.run_walk (c := .top s signalId event payload) exceeded
    rw [show (Call.top s signalId event payload).engine = s from rfl, same.reactions] at chain
    have length := acyclic.walk_length chain
    rw [show (Call.top s signalId event payload).depth = 0 from rfl, same.maxCascadeDepth] at beyond
    omega
  have kept : ∀ s : TopologyEngine W, SameTopology engine s → ∀ ev : Event,
      SameTopology engine (ev.send s).2 := fun s same ev =>
    sameTopology_elementary.trans same
      (sameTopology_elementary.run s.maxCascadeDepth (.top s ev.signalId ev.event ev.payload))
  have same := sameTopology_elementary.refl engine
  constructor
  · exact session_answers (fun ev _ s same =>
      ⟨shallow s same ev.signalId ev.event ev.payload, kept s same ev⟩) same
  · intro depth higher
    have raised : ∀ ev : Event, ∀ s t : TopologyEngine W,
        SameTopology engine s ∧ t = s.setMaxCascadeDepth depth →
        Agree (fun s t => SameTopology engine s ∧ t = s.setMaxCascadeDepth depth)
          (ev.send s) (ev.send t) := by
      rintro ev s _ ⟨same, rfl⟩
      obtain ⟨answer, after⟩ := sendEvent_raise (shallow s same ev.signalId ev.event ev.payload)
        (same.maxCascadeDepth ▸ higher)
      exact ⟨answer, kept s same ev, after⟩
    obtain ⟨answers, after⟩ := session_agree raised ⟨same, rfl⟩
    exact ⟨answers, after.2⟩

end

/-- An order is packed, then shipped, then billed. -/
def orderEngine : TopologyEngine Unit where
  signals := signalTable (·.initialState)
    (["order", "parcel", "bill"].map fun id => ⟨id, "idle", ["idle", "done"]⟩)
  transitions := ["order", "parcel", "bill"].map fun id =>
    { signalId := id, fromState := "idle", event := "go", toState := "done" }
  reactions := [
    { fromSignal := "order", fromState := "done", toSignal := "parcel", event := "go" },
    { fromSignal := "parcel", fromState := "done", toSignal := "bill", event := "go" }]
  actions := ∅
  trace := []
  maxCascadeDepth := 2
  world := ()

theorem orderEngine_acyclic : Acyclic orderEngine.reactions := by
  -- each reaction leads further down the list
  have later : ∀ id id', Relation.TransGen (Edge orderEngine.reactions) id id' →
      ["order", "parcel", "bill"].idxOf id < ["order", "parcel", "bill"].idxOf id' := by
    intro id id' leads
    have step : ∀ {id id'}, Edge orderEngine.reactions id id' →
        ["order", "parcel", "bill"].idxOf id < ["order", "parcel", "bill"].idxOf id' := by
      rintro _ _ ⟨r, declared, rfl, rfl⟩
      rcases List.mem_cons.mp declared with rfl | last
      · decide
      · obtain rfl := List.mem_singleton.mp last
        decide
    induction leads with
    | single edge => exact step edge
    | tail _ edge ih => exact ih.trans (step edge)
  exact fun id leads => Nat.lt_irrefl _ (later id id leads)

/-- The limit of two suffices for the three of them. -/
theorem orderEngine_shallow :
    (session (@Event.send Unit .ascii .keywords) [⟨"order", "go", none⟩] orderEngine).1 =
      (session (@Event.send Unit .ascii .keywords) [⟨"order", "go", none⟩]
        (orderEngine.setMaxCascadeDepth 9)).1 :=
  ((@acyclic_shallow Unit .ascii .keywords orderEngine orderEngine_acyclic (by decide)
    [⟨"order", "go", none⟩]).2 9 (by decide)).1

end SignalTopology
