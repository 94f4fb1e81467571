import Mathlib.Algebra.Ring.GeomSum
import Mathlib.Tactic.Ring
import SignalTopology.Engine.Occurrences
import SignalTopology.Engine.Run

/-!
# What one event can cost

The limit on the depth bounds a cascade, but not by a number of steps that is linear in it: a
commit that matches `R` reactions starts `R` calls one level deeper. The log of a call is
counted level by level, so it is bounded by a geometric sum over the levels that are left.
-/

namespace SignalTopology

open Sequencing TopologyEngine

variable {W : Type}

/-- No transition binds more than `A` actions, and no commit matches more than `R` reactions. -/
structure Sized (A R : Nat) (engine : TopologyEngine W) : Prop where
  actions : ∀ t ∈ engine.transitions, t.actions.allActions.length ≤ A
  reactions : ∀ signalId state, (engine.matchingReactions signalId state).length ≤ R

theorem Sized.sameTopology {A R : Nat} {s t : TopologyEngine W} (h : Sized A R s)
    (same : SameTopology s t) : Sized A R t where
  actions := by
    rw [same.transitions]
    exact h.actions
  reactions signalId state := by
    unfold matchingReactions
    rw [same.reactions]
    exact h.reactions signalId state

/-- A commit of a signal matches no more reactions than there are to the signal. -/
theorem matchingReactions_length (engine : TopologyEngine W) (signalId state : String) :
    (engine.matchingReactions signalId state).length ≤
      engine.reactions.countP fun r => r.fromSignal = signalId := by
  rw [matchingReactions, ← List.countP_eq_length_filter]
  refine List.countP_mono_left fun r _ matched => ?_
  exact (Bool.and_eq_true_iff.mp matched).1

/-- A dispatch fires no more reactions than it has matched. -/
theorem order_length (matched : List ReactionDef) :
    (order ReactionDef.joinGroup ReactionDef.requires matched).length ≤ matched.length := by
  have fired := order_map ReactionDef.joinGroup ReactionDef.requires matched.get
    (List.finRange matched.length)
  rw [List.map_get_finRange] at fired
  rw [fired, List.length_map]
  have distinct := (occurrenceOrder_schedule matched).nodup
  exact distinct.length_le_card.trans_eq (Fintype.card_fin matched.length)

/-! ## Counting over a cascade -/

section

variable [RustStd] [SerdeJson]

/-- A count that an attempt raises by at most `attempted`, the guard of a reaction by at most
`gated` and its hook by at most `settled`. -/
structure Metered (A attempted gated settled : Nat) (count : TopologyEngine W → Nat) : Prop where
  attempt : ∀ c : Call W, (∀ t ∈ c.engine.transitions, t.actions.allActions.length ≤ A) →
    count c.attempt.2 ≤ count c.engine + attempted
  gate : ∀ (c : Call W) reaction engine,
    count (c.gate reaction engine).2 ≤ count engine + gated
  compensate : ∀ (c : Call W) reaction e engine,
    count (c.compensate reaction e engine) ≤ count engine + settled

namespace Metered

variable {A R attempted gated settled : Nat} {count : TopologyEngine W → Nat}

/-- One reaction costs its guard, its hook and what the call costs that it delivers. -/
theorem fire (h : Metered A attempted gated settled count) {limit nested : Nat} {c : Call W}
    {reaction : ReactionDef} {engine : TopologyEngine W} (sized : Sized A R engine)
    (below : ∀ u, Sized A R u → count ((c.deliver reaction u).run limit).2 ≤ count u + nested) :
    count (c.fire limit reaction engine).2 ≤ count engine + (gated + nested + settled) := by
  have entered := h.gate c reaction engine
  have kept : Sized A R (c.gate reaction engine).2 :=
    sized.sameTopology (sameTopology_elementary.gate reaction c.parentPayload c.signalId engine)
  obtain ⟨u, skipped, fired⟩ | ⟨u, result, v, passed, ran, fired⟩ | ⟨u, e, v, passed, ran, fired⟩ :=
    c.fire_cases limit reaction engine
  · rw [skipped] at entered
    rw [fired]
    dsimp only at entered ⊢
    omega
  all_goals
    rw [passed] at entered kept
    have delivered := below u kept
    rw [ran] at delivered
    rw [fired]
    dsimp only at entered delivered ⊢
  · omega
  · have hook := h.compensate c reaction e v
    omega

/-- What a call costs, by the levels that are left to it. -/
theorem run (h : Metered A attempted gated settled count) (limit : Nat) (c : Call W)
    (sized : Sized A R c.engine) :
    count (c.run limit).2 ≤ count c.engine +
      (attempted + R * (gated + settled)) * ∑ i ∈ Finset.range (limit + 1 - c.depth), R ^ i := by
  induction c using Call.nested_induction limit with
  | step c nested =>
      have attempt := h.attempt c sized.actions
      have reached : Sized A R c.attempt.2 := sized.sameTopology
        (sameTopology_elementary.attemptTransition c.engine c.signalId c.event c.payload)
      have levels : ∀ S, (attempted + R * (gated + settled)) * (R * S + 1) = attempted +
          R * (gated + (attempted + R * (gated + settled)) * S + settled) := by
        intro S
        ring
      -- the reactions of a commit, each with the cost of one level less
      have dispatched : c.depth ≤ limit → ∀ result,
          count (runAll (c.fire limit) (c.agenda result c.attempt.2) c.attempt.2).2 ≤
            count c.attempt.2 + R * (gated + (attempted + R * (gated + settled)) *
              (∑ i ∈ Finset.range (limit - c.depth), R ^ i) + settled) := by
        intro within result
        have below : ∀ reaction u, Sized A R u → count ((c.deliver reaction u).run limit).2 ≤
            count u + (attempted + R * (gated + settled)) *
              ∑ i ∈ Finset.range (limit - c.depth), R ^ i := by
          intro reaction u sized
          have delivered := nested within reaction u sized
          rwa [Call.deliver_depth, Nat.add_sub_add_right] at delivered
        have added := runAll_adds (P := Sized A R) count
          (fun reaction (_ : reaction ∈ c.agenda result c.attempt.2) u sized =>
            ⟨sized.sameTopology (sameTopology_elementary.fire limit c reaction u),
              h.fire sized (below reaction)⟩) reached
        have fan : (c.agenda result c.attempt.2).length ≤ R :=
          (order_length _).trans (reached.reactions c.signalId result.toState)
        exact added.trans (Nat.add_le_add_left (Nat.mul_le_mul_right _ fan) _)
      obtain ⟨deep, ran⟩ | ⟨within, e, u, rejected, ran⟩ |
        ⟨within, result, u, v, committed, all, ran⟩ |
        ⟨within, result, u, e, v, committed, all, ran⟩ := c.run_cases limit
      · rw [ran]
        exact Nat.le_add_right _ _
      all_goals
        rw [ran, show limit + 1 - c.depth = (limit - c.depth) + 1 by omega, geom_sum_succ, levels]
      · rw [rejected] at attempt
        dsimp only at attempt ⊢
        omega
      all_goals
        have rest := dispatched within result
        rw [committed] at attempt rest
        dsimp only at attempt rest
        rw [all] at rest
        dsimp only at rest ⊢
        omega

end Metered

/-! ## What is counted -/

/-- The events that a call records when it starts. -/
def TraceEvent.isReceived : TraceEvent → Bool
  | eventReceived .. => true
  | _ => false

omit [RustStd] [SerdeJson] in
theorem TraceEvent.not_isReceived {ev : TraceEvent} (lifecycle : ev.isLifecycle = true) :
    ¬ ev.isReceived = true := by
  cases ev <;> simp_all [isAction, isLifecycle, isReceived]

omit [RustStd] [SerdeJson] in
/-- An action is recorded when it starts and when it ends. -/
theorem runAction_length (signalId actionId : String) (ctx : ActionContext)
    (engine : TopologyEngine W) :
    (runAction signalId actionId ctx engine).2.trace.length ≤ engine.trace.length + 2 := by
  obtain ⟨_, ran⟩ | ⟨_, engine', ran, acted⟩ | ⟨_, error, engine', ran, acted⟩ :=
    runAction_cases signalId actionId ctx engine
  · rw [ran]
    simp
  all_goals
    rw [ran]
    dsimp only
    rw [acted.trace]
    simp

omit [RustStd] [SerdeJson] in
theorem runActions_length (ctx : ActionContext) (ids : List String) (engine : TopologyEngine W) :
    (runActions ctx ids engine).2.trace.length ≤ engine.trace.length + ids.length * 2 :=
  runAll_adds (fun engine : TopologyEngine W => engine.trace.length) (P := fun _ => True)
    (fun id _ engine _ => ⟨trivial, runAction_length ctx.signalId id ctx engine⟩) trivial

omit [RustStd] [SerdeJson] in
theorem runTransition_length (ctx : ActionContext) (actions : ActionBinding)
    (engine : TopologyEngine W) : (runTransition ctx actions engine).2.trace.length ≤
      engine.trace.length + actions.allActions.length * 2 + 1 := by
  have exit := runActions_length ctx actions.onExit engine
  have bound : actions.allActions.length =
      actions.onExit.length + (actions.onTransition ++ actions.onEnter).length := by
    rw [ActionBinding.allActions, List.append_assoc, List.length_append]
  obtain ⟨e, u, exits, ran⟩ | ⟨e, u, v, exits, enters, ran⟩ | ⟨u, v, exits, enters, ran⟩ :=
    runTransition_cases ctx actions engine
  · rw [exits] at exit
    rw [ran]
    dsimp only at exit ⊢
    omega
  all_goals
    have enter := runActions_length ctx (actions.onTransition ++ actions.onEnter)
      (u.setCurrent ctx.signalId ctx.toState)
    rw [exits] at exit
    rw [enters, setCurrent_trace] at enter
    rw [ran]
    simp only [push_trace, setCurrent_trace, List.length_append, List.length_singleton] at *
    omega

/-- Entries of the log. -/
theorem entries_metered (A : Nat) :
    Metered A (2 * A + 2) 1 3 fun engine : TopologyEngine W => engine.trace.length where
  attempt c sized := by
    have received : (c.engine.receive c.signalId c.event c.payload).trace.length =
        c.engine.trace.length + 1 := by
      simp [receive]
    obtain ⟨e, rejected⟩ | ⟨signal, transition, ctx, _, found, _, _, attempted⟩ :=
      c.engine.attemptTransition_cases c.signalId c.event c.payload
    · rw [Call.attempt, rejected]
      dsimp only
      omega
    · have ran := runTransition_length ctx transition.actions
        (c.engine.receive c.signalId c.event c.payload)
      have declared := sized transition (List.mem_of_find?_eq_some found)
      rw [Call.attempt, attempted]
      omega
  gate c reaction engine := by
    obtain ⟨_, same⟩ | ⟨_, _, _, _, same⟩ := gate_cases reaction c.parentPayload c.signalId engine
    · rw [Call.gate, same]
      exact Nat.le_succ _
    · rw [Call.gate, same]
      simp
  compensate c reaction e engine := by
    obtain ⟨_, same⟩ | ⟨actionId, ctx, _, _, same⟩ :=
      compensate_cases reaction c.parentPayload c.signalId e engine
    · rw [Call.compensate, same]
      exact Nat.le_add_right _ _
    · have ran := runAction_length reaction.toSignal actionId ctx engine
      rw [Call.compensate, same, push_trace, List.length_append, List.length_singleton]
      omega

/-- Transitions that are attempted. -/
theorem received_metered (A : Nat) :
    Metered A 1 0 0 fun engine : TopologyEngine W => engine.trace.countP TraceEvent.isReceived where
  attempt c _ := by
    obtain ⟨events, log, lifecycle⟩ :=
      c.engine.attemptTransition_lifecycle c.signalId c.event c.payload
    have silent : events.countP TraceEvent.isReceived = 0 :=
      List.countP_eq_zero.mpr fun ev member => TraceEvent.not_isReceived (lifecycle ev member)
    rw [Call.attempt, log, List.countP_append, List.countP_cons, silent]
    rfl
  gate c reaction engine := by
    obtain ⟨_, same⟩ | ⟨_, _, _, _, same⟩ := gate_cases reaction c.parentPayload c.signalId engine
    · rw [Call.gate, same]
      exact Nat.le_refl _
    · rw [Call.gate, same, push_trace, List.countP_append]
      exact Nat.le_refl _
  compensate c reaction e engine := by
    obtain ⟨_, same⟩ | ⟨actionId, ctx, _, _, same⟩ :=
      compensate_cases reaction c.parentPayload c.signalId e engine
    · rw [Call.compensate, same]
      exact Nat.le_refl _
    · obtain ⟨events, acted, actions⟩ := runAction_acted reaction.toSignal actionId ctx engine
      have silent : events.countP TraceEvent.isReceived = 0 :=
        List.countP_eq_zero.mpr fun ev member =>
          TraceEvent.not_isReceived (TraceEvent.isLifecycle_of_isAction (actions ev member))
      rw [Call.compensate, same, push_trace, acted.trace, List.countP_append, List.countP_append,
        silent]
      exact Nat.le_refl _

/-! ## Entries for each attempt -/

/-- The log has grown by at most `K` entries for each attempt it records, and by `k` more. -/
def Charged (K k : Nat) (s t : TopologyEngine W) : Prop :=
  t.trace.length + K * s.trace.countP TraceEvent.isReceived ≤
    s.trace.length + K * t.trace.countP TraceEvent.isReceived + k

namespace Charged

variable {A R K k l limit : Nat} {s t u : TopologyEngine W}

omit [RustStd] [SerdeJson] in
theorem free (k : Nat) (s : TopologyEngine W) : Charged K k s s := Nat.le_add_right _ k

omit [RustStd] [SerdeJson] in
theorem trans (first : Charged K k s t) (second : Charged K l t u) : Charged K (k + l) s u := by
  unfold Charged at *
  omega

omit [RustStd] [SerdeJson] in
/-- What is recorded is charged as such, whether it holds attempts or not. -/
theorem of_length (grown : s.trace <+: t.trace) (length : t.trace.length ≤ s.trace.length + k) :
    Charged K k s t := by
  have more := Nat.mul_le_mul_left K (grown.sublist.countP_le (p := TraceEvent.isReceived))
  unfold Charged
  omega

/-- An attempt pays for what a commit can record: its own entries, and for each reaction those
of its guard and its hook. -/
theorem attempt (c : Call W) (sized : Sized A R c.engine) (paid : 2 * A + 2 + k ≤ K) :
    c.attempt.2.trace.length + k + K * c.engine.trace.countP TraceEvent.isReceived ≤
      c.engine.trace.length + K * c.attempt.2.trace.countP TraceEvent.isReceived := by
  have length := (entries_metered A).attempt c sized.actions
  obtain ⟨events, log, _⟩ := c.engine.attemptTransition_lifecycle c.signalId c.event c.payload
  have more : c.engine.trace.countP TraceEvent.isReceived + 1 ≤
      c.attempt.2.trace.countP TraceEvent.isReceived := by
    rw [Call.attempt, log, List.countP_append, List.countP_cons_of_pos rfl]
    omega
  have paid' := Nat.mul_le_mul_left K more
  rw [Nat.mul_succ] at paid'
  omega

theorem fire {c : Call W} {reaction : ReactionDef} (sized : Sized A R s)
    (below : ∀ u, Sized A R u → Charged K 0 u ((c.deliver reaction u).run limit).2) :
    Charged K 4 s (c.fire limit reaction s).2 := by
  have entered : Charged K 1 s (c.gate reaction s).2 :=
    of_length (trace_elementary.gate _ _ _ _) ((entries_metered A).gate c reaction s)
  have kept : Sized A R (c.gate reaction s).2 :=
    sized.sameTopology (sameTopology_elementary.gate reaction c.parentPayload c.signalId s)
  obtain ⟨u, skipped, fired⟩ | ⟨u, result, v, passed, ran, fired⟩ | ⟨u, e, v, passed, ran, fired⟩ :=
    c.fire_cases limit reaction s
  · rw [skipped] at entered
    rw [fired]
    exact entered.trans (free 3 _)
  all_goals
    rw [passed] at entered kept
    have delivered := below u kept
    rw [ran] at delivered
    rw [fired]
  · exact (entered.trans delivered).trans (free 3 _)
  · have hook : Charged K 3 v (c.compensate reaction e v) :=
      of_length (trace_elementary.compensate _ _ _ _ _)
        ((entries_metered A).compensate c reaction e v)
    exact (entered.trans delivered).trans hook

theorem run (limit : Nat) (c : Call W) (sized : Sized A R c.engine) :
    Charged (2 * A + 4 * R + 2) 0 c.engine (c.run limit).2 := by
  induction c using Call.nested_induction limit with
  | step c nested =>
      have attempt := Charged.attempt (k := R * 4) c sized
        (show 2 * A + 2 + R * 4 ≤ 2 * A + 4 * R + 2 by omega)
      have reached : Sized A R c.attempt.2 := sized.sameTopology
        (sameTopology_elementary.attemptTransition c.engine c.signalId c.event c.payload)
      have dispatched : c.depth ≤ limit → ∀ result, Charged (2 * A + 4 * R + 2) (R * 4)
          c.attempt.2 (runAll (c.fire limit) (c.agenda result c.attempt.2) c.attempt.2).2 := by
        intro within result
        have cost := runAll_costs (P := Sized A R) (C := Charged (2 * A + 4 * R + 2)) free trans
          (fun reaction (_ : reaction ∈ c.agenda result c.attempt.2) u sized =>
            ⟨sized.sameTopology (sameTopology_elementary.fire limit c reaction u),
              fire sized (nested within reaction)⟩) reached
        have fan : (c.agenda result c.attempt.2).length * 4 ≤ R * 4 := Nat.mul_le_mul_right 4
          ((order_length _).trans (reached.reactions c.signalId result.toState))
        exact Nat.le_trans cost (Nat.add_le_add_left fan _)
      obtain ⟨deep, ran⟩ | ⟨within, e, u, rejected, ran⟩ |
        ⟨within, result, u, v, committed, all, ran⟩ |
        ⟨within, result, u, e, v, committed, all, ran⟩ := c.run_cases limit
      · rw [ran]
        exact free 0 c.engine
      · rw [rejected] at attempt
        rw [ran]
        unfold Charged
        omega
      all_goals
        have rest := dispatched within result
        rw [committed] at attempt rest
        rw [all] at rest
        rw [ran]
        unfold Charged at rest ⊢
        dsimp only at attempt rest ⊢
        omega

end Charged

/-- Where no commit matches more than `R` reactions and no transition binds more than `A` actions,
an event attempts at most `1 + R + R ^ 2 + …` transitions, with a summand for every level up to
the limit, and the log grows by at most `2 * A + 4 * R + 2` entries for each of the transitions
that it records as attempted. This is so for every event of a sequence, whatever the calls
return. -/
theorem sendAll_growth {A R : Nat} {engine : TopologyEngine W} (sized : Sized A R engine)
    (events : List Event) : ∃ log, (sendAll engine events).trace = engine.trace ++ log ∧
      log.countP TraceEvent.isReceived ≤
        events.length * ∑ i ∈ Finset.range (engine.maxCascadeDepth + 1), R ^ i ∧
      log.length ≤ (2 * A + 4 * R + 2) * log.countP TraceEvent.isReceived ∧
      log.length ≤ events.length *
        ((2 * A + 4 * R + 2) * ∑ i ∈ Finset.range (engine.maxCascadeDepth + 1), R ^ i) := by
  obtain ⟨log, split⟩ := sendAll_elementary trace_elementary engine events
  have attempts : (sendAll engine events).trace.countP TraceEvent.isReceived ≤
      engine.trace.countP TraceEvent.isReceived +
        events.length * ∑ i ∈ Finset.range (engine.maxCascadeDepth + 1), R ^ i := by
    clear split
    induction events using List.reverseRecOn with
    | nil => exact Nat.le_add_right _ _
    | append_singleton events ev ih =>
        have same := sendAll_sameTopology engine events
        have sent := (received_metered A).run (sendAll engine events).maxCascadeDepth
          (ev.call (sendAll engine events)) (sized.sameTopology same)
        rw [sendAll_append, List.length_append, List.length_singleton, Nat.succ_mul]
        rw [same.maxCascadeDepth, Nat.mul_zero, Nat.one_mul] at sent
        rw [same.maxCascadeDepth]
        exact (sent.trans (Nat.add_le_add_right ih _)).trans_eq (Nat.add_assoc _ _ _)
  have entries : Charged (2 * A + 4 * R + 2) 0 engine (sendAll engine events) := by
    clear split attempts
    induction events using List.reverseRecOn with
    | nil => exact .free 0 engine
    | append_singleton events ev ih =>
        rw [sendAll_append]
        exact ih.trans (.run _ (ev.call (sendAll engine events))
          (sized.sameTopology (sendAll_sameTopology engine events)))
  unfold Charged at entries
  rw [← split, List.countP_append] at attempts entries
  rw [List.length_append, Nat.mul_add] at entries
  have received := Nat.add_le_add_iff_left.mp attempts
  have each : log.length ≤ (2 * A + 4 * R + 2) * log.countP TraceEvent.isReceived := by omega
  refine ⟨log, split.symm, received, each, each.trans ?_⟩
  calc (2 * A + 4 * R + 2) * log.countP TraceEvent.isReceived
      ≤ (2 * A + 4 * R + 2) *
          (events.length * ∑ i ∈ Finset.range (engine.maxCascadeDepth + 1), R ^ i) :=
        Nat.mul_le_mul_left _ received
    _ = _ := Nat.mul_left_comm _ _ _

end

/-- Two reactions from each of three signals in a row to the next one. -/
def fanEngine : TopologyEngine Unit where
  signals := signalTable (·.initialState) (["a", "b", "c"].map fun id => ⟨id, "off", ["off", "on"]⟩)
  transitions := ["a", "b", "c"].map fun id =>
    { signalId := id, fromState := "*", event := "go", toState := "on" }
  reactions := ([("a", "b"), ("a", "b"), ("b", "c"), ("b", "c")]).map fun link =>
    { fromSignal := link.1, fromState := "on", toSignal := link.2, event := "go" }
  actions := ∅
  trace := []
  maxCascadeDepth := 2
  world := ()

theorem fanEngine_growth : ∃ log,
    (@sendAll Unit .ascii .keywords fanEngine [⟨"a", "go", none⟩]).trace = [] ++ log ∧
      log.countP TraceEvent.isReceived ≤ 1 * ∑ i ∈ Finset.range 3, 2 ^ i ∧
      log.length ≤ (2 * 0 + 4 * 2 + 2) * log.countP TraceEvent.isReceived ∧
      log.length ≤ 1 * ((2 * 0 + 4 * 2 + 2) * ∑ i ∈ Finset.range 3, 2 ^ i) := by
  refine @sendAll_growth Unit .ascii .keywords 0 2 fanEngine ⟨by decide, fun signalId state => ?_⟩
    [⟨"a", "go", none⟩]
  refine (matchingReactions_length fanEngine signalId state).trans ?_
  by_cases first : signalId = "a"
  · subst first
    decide
  · by_cases second : signalId = "b"
    · subst second
      decide
    · simp [fanEngine, Ne.symm first, Ne.symm second]

-- the bound on the transitions is met
example : (@sendAll Unit .ascii .keywords fanEngine [⟨"a", "go", none⟩]).trace.countP
    TraceEvent.isReceived = ∑ i ∈ Finset.range 3, 2 ^ i := by decide +kernel

end SignalTopology
