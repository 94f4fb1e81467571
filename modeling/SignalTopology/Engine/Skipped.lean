import SignalTopology.Compose.Instances
import SignalTopology.Engine.Lockstep
import SignalTopology.Guard.Missing

/-!
# Skipped reactions

A reaction outside every fork group whose guard never passes is as good as
absent. It is matched and popped from the queue like the others, but it counts
in no group, so the rest is scheduled as before; and all it leaves behind is the
record of its guard.
-/

namespace SignalTopology

open Sequencing TopologyEngine

/-! ## The schedule without some reactions -/

section Order

variable {ρ : Type} {joinGroup : ρ → Option String} {requires : ρ → List String}
variable {P : ρ → Prop} (alone : ∀ r, P r → joinGroup r = none)

include alone

theorem groupTotal_trimmed {xs ys : List ρ} (trimmed : Trimmed P xs ys) :
    groupTotal joinGroup ys = groupTotal joinGroup xs := by
  unfold groupTotal
  generalize (∅ : HashMap Nat) = total
  induction trimmed generalizing total with
  | nil => rfl
  | keep x _ ih => exact ih _
  | @drop x _ _ dropped _ ih =>
      have uncounted : countMember joinGroup total x = total := by
        rw [countMember, alone x dropped]
      rw [List.foldl_cons, uncounted]
      exact ih total

/-- `q` is `p` without some reactions. -/
structure Progress.Trimmed (P : ρ → Prop) (p q : Progress ρ) : Prop where
  ready : Sequencing.Trimmed P p.ready q.ready
  waiting : Sequencing.Trimmed P p.waiting q.waiting
  counts : q.groupDoneCount = p.groupDoneCount
  groups : q.groupsDone = p.groupsDone

omit alone in
theorem Progress.Trimmed.settle {p q : Progress ρ} (h : p.Trimmed P q) (total : HashMap Nat)
    (r : ρ) : (p.settle joinGroup requires total r).Trimmed P
      (q.settle joinGroup requires total r) := by
  unfold Progress.settle
  cases joinGroup r with
  | none => exact h
  | some g =>
      dsimp only
      rw [h.counts, h.groups]
      split
      · exact ⟨h.ready.append (h.waiting.filter _), h.waiting.filter _, rfl, rfl⟩
      · exact ⟨h.ready, h.waiting, rfl, rfl⟩

theorem orderLoop_trimmed (total : HashMap Nat) {p q : Progress ρ} (h : p.Trimmed P q) :
    Trimmed P (orderLoop joinGroup requires total p) (orderLoop joinGroup requires total q) := by
  fun_induction orderLoop joinGroup requires total p generalizing q with
  | case1 p empty =>
      have ready := h.ready
      rw [empty] at ready
      generalize none : q.ready = rest at ready
      cases ready
      rw [orderLoop_nil _ _ total none]
      exact .nil
  | case2 p r ready queue ih =>
      have front := h.ready
      rw [queue] at front
      generalize queue' : q.ready = rest at front
      cases front with
      | keep _ rest =>
          have later : Progress.Trimmed P { p with ready } { q with ready := _ } :=
            ⟨rest, h.waiting, h.counts, h.groups⟩
          rw [orderLoop_cons _ _ total queue']
          exact .keep r (ih (later.settle total r))
      | drop dropped rest =>
          have settled : Progress.settle joinGroup requires total { p with ready } r =
              { p with ready } := by
            rw [Progress.settle, alone r dropped]
          refine .drop dropped (ih ?_)
          rw [settled]
          exact ⟨queue' ▸ rest, h.waiting, h.counts, h.groups⟩

theorem order_trimmed {xs ys : List ρ} (trimmed : Trimmed P xs ys) :
    Trimmed P (order joinGroup requires xs) (order joinGroup requires ys) := by
  rw [order, order, groupTotal_trimmed alone trimmed]
  exact orderLoop_trimmed alone _ ⟨trimmed.filter _, trimmed.filter _, rfl, rfl⟩

end Order

variable {W : Type}

/-- The record of the guard of one reaction. -/
def ReactionDef.GuardRecord (reaction : ReactionDef) (ev : TraceEvent) : Prop :=
  ∃ guard result, reaction.guard = some guard ∧
    ev = .reactionGuardEvaluated reaction.fromSignal reaction.fromSignal reaction.fromState
      reaction.toSignal reaction.event guard result

/-- `t` is `s` without `reaction` among its reactions and without records of its
guard. -/
structure Without (reaction : ReactionDef) (s t : TopologyEngine W) : Prop where
  same : t = { s with reactions := t.reactions, trace := t.trace }
  reactions : Trimmed (· = reaction) s.reactions t.reactions
  trace : Trimmed reaction.GuardRecord s.trace t.trace

namespace Without

variable {reaction : ReactionDef} {s t : TopologyEngine W}

theorem signals (h : Without reaction s t) : t.signals = s.signals := by rw [h.same]

theorem transitions (h : Without reaction s t) : t.transitions = s.transitions := by rw [h.same]

theorem maxCascadeDepth (h : Without reaction s t) : t.maxCascadeDepth = s.maxCascadeDepth := by
  rw [h.same]

theorem push (h : Without reaction s t) (ev : TraceEvent) :
    Without reaction (s.push ev) (t.push ev) where
  same := by
    rw [h.same]
    rfl
  reactions := h.reactions
  trace := h.trace.append (.refl [ev])

theorem setCurrent (h : Without reaction s t) (signalId state : String) :
    Without reaction (s.setCurrent signalId state) (t.setCurrent signalId state) where
  same := by
    rw [h.same]
    unfold TopologyEngine.setCurrent
    dsimp only
    cases s.signals.lookup signalId <;> rfl
  reactions := by
    rw [setCurrent_reactions, setCurrent_reactions]
    exact h.reactions
  trace := by
    rw [setCurrent_trace, setCurrent_trace]
    exact h.trace

theorem call (h : Without reaction s t) (world : W) :
    Without reaction { s with world } { t with world } where
  same := by
    rw [h.same]
  reactions := h.reactions
  trace := h.trace

theorem lockstep (reaction : ReactionDef) :
    Lockstep Set.univ (Without (W := W) reaction) where
  current h id _ := by rw [TopologyEngine.current, h.signals, TopologyEngine.current]
  push := push
  setCurrent := setCurrent
  runAction h signalId actionId ctx :=
    agree_runAction push call h (by rw [h.same]) (by rw [h.same]) signalId actionId ctx

/-- Without the reaction, the same reactions match otherwise. -/
theorem matching (h : Without reaction s t) (signalId state : String) :
    Trimmed (· = reaction) (s.matchingReactions signalId state)
      (t.matchingReactions signalId state) :=
  h.reactions.filter _

end Without

section

variable [RustStd] [SerdeJson]

namespace Call

/-- Wherever the run of `c` comes to the reaction, its guard does not pass. -/
def NeverPasses (limit : Nat) (c : Call W) (reaction : ReactionDef) : Prop :=
  ∀ c', c.Reached limit c' → ∀ v, c'.Fires limit reaction v → (c'.gate reaction v).1 = false

theorem NeverPasses.delivers {limit : Nat} {c c' : Call W} {reaction x : ReactionDef}
    (never : c.NeverPasses limit reaction) (delivers : c.Delivers limit x c') :
    c'.NeverPasses limit reaction :=
  fun c'' reached => never c'' (.head ⟨x, delivers⟩ reached)

/-- A skipped reaction leaves the record of its guard behind, and nothing else. -/
theorem fire_without {limit : Nat} {c : Call W} {reaction : ReactionDef} {guard : String}
    (guarded : reaction.guard = some guard) (source : reaction.fromSignal = c.signalId)
    {s : TopologyEngine W} (skipped : (c.gate reaction s).1 = false) :
    ∃ s', c.fire limit reaction s = (.ok (), s') ∧
      ∀ t, Without reaction s t → Without reaction s' t := by
  obtain ⟨unguarded, _⟩ | ⟨guard', passed, result, given, same⟩ :=
    gate_cases reaction c.parentPayload c.signalId s
  · rw [guarded] at unguarded
    cases unguarded
  · rw [Call.gate, same] at skipped
    dsimp only at skipped
    subst skipped
    refine ⟨_, fire_skipped same, fun t h => ⟨h.same, h.reactions, ?_⟩⟩
    have own : reaction.GuardRecord (.reactionGuardEvaluated c.signalId reaction.fromSignal
        reaction.fromState reaction.toSignal reaction.event guard' result) :=
      ⟨guard', result, given, by rw [source]⟩
    have trimmed := h.trace.append (.drop own .nil)
    rwa [List.append_nil] at trimmed

/-- A call does the same without a reaction whose guard never passes. -/
theorem run_without {limit : Nat} {reaction : ReactionDef} {guard : String}
    (guarded : reaction.guard = some guard) (alone : reaction.joinGroup = none) (c : Call W)
    {t : TopologyEngine W} (never : c.NeverPasses limit reaction)
    (related : Without reaction c.engine t) :
    Agree (Without reaction) (c.run limit) ((c.on t).run limit) := by
  have lockstep := Without.lockstep (W := W) reaction
  induction c using nested_induction limit generalizing t with
  | step c nested =>
      rcases Nat.lt_or_ge limit c.depth with deep | within
      · rw [c.run_deep limit deep, (c.on t).run_deep limit deep]
        exact ⟨rfl, related⟩
      · have attempted : Agree (Without reaction) c.attempt (c.on t).attempt :=
          lockstep.attemptTransition related.transitions trivial c.event c.payload related
        rcases outcome : c.attempt with ⟨e | result, u⟩
        · obtain ⟨u', outcome', after⟩ := attempted.eq outcome
          rw [c.run_rejected limit within outcome, (c.on t).run_rejected limit within outcome']
          exact ⟨rfl, after⟩
        · obtain ⟨u', outcome', after⟩ := attempted.eq outcome
          have agendas : Trimmed (· = reaction) (c.agenda result u)
              ((c.on t).agenda result u') :=
            order_trimmed (by rintro _ rfl; exact alone) (after.matching c.signalId result.toState)
          have comes : ∀ front x back v, c.agenda result u = front ++ x :: back →
              runAll (c.fire limit) front u = (.ok (), v) → c.Fires limit x v :=
            fun front x back v split reached =>
              ⟨within, result, u, front, back, outcome, split, reached⟩
          have dispatched : Agree (Without reaction)
              (runAll (c.fire limit) (c.agenda result u) u)
              (runAll ((c.on t).fire limit) ((c.on t).agenda result u') u') := by
            refine runAll_trimmed agendas (fun front x back v split reached v' between => ?_)
              (fun front x back v split reached dropped => ?_) after
            · refine c.fire_agree lockstep trivial (fun w w' passed related => ?_) between
              exact nested within x w
                (never.delivers ⟨v, w, comes front x back v split reached, passed, rfl⟩) related
            · subst dropped
              have member : x ∈ c.agenda result u := by simp [split]
              exact fire_without guarded (mem_agenda member).2
                (never c .refl v (comes front x back v split reached))
          rw [c.run_committed limit within outcome, (c.on t).run_committed limit within outcome']
          rcases fired : runAll (c.fire limit) (c.agenda result u) u with ⟨e | _, v⟩
          · obtain ⟨v', fired', done⟩ := dispatched.eq fired
            rw [fired']
            exact ⟨rfl, done⟩
          · obtain ⟨v', fired', done⟩ := dispatched.eq fired
            rw [fired']
            exact ⟨rfl, done⟩

end Call

/-- Sending events without the reaction, as long as its guard never passes. -/
theorem sendAll_without {reaction : ReactionDef} {guard : String}
    (guarded : reaction.guard = some guard) (alone : reaction.joinGroup = none)
    {s t : TopologyEngine W} (related : Without reaction s t) {events : List Event}
    (never : ∀ before ev after, events = before ++ ev :: after →
      (ev.call (sendAll s before)).NeverPasses (sendAll s before).maxCascadeDepth reaction) :
    Without reaction (sendAll s events) (sendAll t events) := by
  induction events using List.reverseRecOn with
  | nil => exact related
  | append_singleton events ev ih =>
      have before := ih fun front ev' back split =>
        never front ev' (back ++ [ev]) (by rw [split]; simp)
      have agree := Call.run_without guarded alone (ev.call (sendAll s events))
        (never events ev [] rfl) before
      rw [sendAll_append, sendAll_append, before.maxCascadeDepth]
      exact agree.2

/-- A guard-skipped reaction is as good as absent. Take a reaction with a guard
and without a join group, and a sequence of `send_event` calls in which its guard
never passes. Without the reaction, every call returns the same result and
leaves every signal in the same state, and the trace lacks nothing but records of
that guard. -/
theorem skipped_absent {engine : TopologyEngine W} {reaction : ReactionDef}
    {front back : List ReactionDef} (declared : engine.reactions = front ++ reaction :: back)
    {guard : String} (guarded : reaction.guard = some guard) (alone : reaction.joinGroup = none)
    {events : List Event}
    (never : ∀ before ev after, events = before ++ ev :: after →
      (ev.call (sendAll engine before)).NeverPasses (sendAll engine before).maxCascadeDepth
        reaction)
    {before after : List Event} {ev : Event} (split : events = before ++ ev :: after) :
    ((sendAll { engine with reactions := front ++ back } before).sendEvent ev.signalId ev.event
        ev.payload).1 =
      ((sendAll engine before).sendEvent ev.signalId ev.event ev.payload).1 ∧
    (sendAll { engine with reactions := front ++ back } (before ++ [ev])).signals =
      (sendAll engine (before ++ [ev])).signals ∧
    Trimmed reaction.GuardRecord (sendAll engine (before ++ [ev])).trace
      (sendAll { engine with reactions := front ++ back } (before ++ [ev])).trace := by
  have start : Without reaction engine { engine with reactions := front ++ back } :=
    ⟨rfl, by rw [declared]; exact Trimmed.middle (P := (· = reaction)) rfl front back,
      .refl engine.trace⟩
  have reached : Without reaction (sendAll engine before)
      (sendAll { engine with reactions := front ++ back } before) :=
    sendAll_without guarded alone start fun front' ev' back' split' =>
      never front' ev' (back' ++ ev :: after) (by rw [split, split']; simp)
  have agree := Call.run_without guarded alone (ev.call (sendAll engine before))
    (never before ev after split) reached
  have result : ((sendAll { engine with reactions := front ++ back } before).sendEvent ev.signalId
      ev.event ev.payload).1 =
      ((sendAll engine before).sendEvent ev.signalId ev.event ev.payload).1 := by
    rw [Call.sendEvent_eq, Call.sendEvent_eq, reached.maxCascadeDepth]
    exact agree.1.symm
  have after : Without reaction (sendAll engine (before ++ [ev]))
      (sendAll { engine with reactions := front ++ back } (before ++ [ev])) := by
    rw [sendAll_append, sendAll_append, reached.maxCascadeDepth]
    exact agree.2
  exact ⟨result, after.signals, after.trace⟩

omit [RustStd] [SerdeJson] in
/-- Removing a reaction from a topology removes it from the engine built from
that topology. -/
theorem fromSchema_without {world : W} {schema flat : TopologySchema} {engine : TopologyEngine W}
    (expanded : expand schema = .ok flat)
    (built : TopologyEngine.fromSchema world schema = .ok engine) {reaction : ReactionDef}
    {front back : List ReactionDef} (declared : flat.reactions = front ++ reaction :: back) :
    engine.reactions = front ++ reaction :: back ∧
      TopologyEngine.fromSchema world { flat with reactions := front ++ back } =
        .ok { engine with reactions := front ++ back } := by
  obtain ⟨flat', expanded', valid, rfl⟩ := fromSchema_iff.mp built
  obtain rfl := Except.ok.inj (expanded.symm.trans expanded')
  have isFlat : ({ flat with reactions := front ++ back } : TopologySchema).Flat := by
    obtain ⟨isFlat, rfl⟩ | ⟨expansions, _, rfl, _⟩ := expand_ok expanded
    · exact isFlat
    · rfl
  refine ⟨declared, fromSchema_flat isFlat ?_ world⟩
  obtain ⟨checked, ends⟩ := validate_iff.mp valid
  refine validate_iff.mpr
    ⟨⟨checked.distinct, checked.initial, checked.transition⟩, fun r member => ends r ?_⟩
  rw [declared]
  obtain inFront | inBack := List.mem_append.mp member
  · simp [inFront]
  · simp [inBack]

end

/-- The guard is a bare name, which fails to evaluate on every payload. -/
def blindReaction : ReactionDef where
  fromSignal := "door"
  fromState := "moved"
  toSignal := "blind"
  event := "move"
  guard := some "maybe"

/-- A door that moves a lamp, and a blind if the guard ever passed. -/
def blindEngine : TopologyEngine Unit where
  signals := signalTable (·.initialState)
    (["door", "blind", "lamp"].map fun id => ⟨id, "rest", ["rest", "moved"]⟩)
  transitions := ["door", "blind", "lamp"].map fun id =>
    { signalId := id, fromState := "rest", event := "move", toState := "moved" }
  reactions := [blindReaction,
    { fromSignal := "door", fromState := "moved", toSignal := "lamp", event := "move" }]
  actions := ∅
  trace := []
  maxCascadeDepth := 8
  world := ()

theorem blindReaction_skipped (limit : Nat) (c : Call Unit) :
    @Call.NeverPasses Unit .ascii .keywords limit c blindReaction := by
  intro c' _ v _
  have read : @Guard.tokenize .ascii "maybe" = .ok [.identifier "maybe", .eof] := by
    decide +kernel
  have parsed : @Guard.parse .ascii [.identifier "maybe", .eof] = .ok (.identifier "maybe") := by
    decide +kernel
  have failed : ∀ ctx, @Guard.evalGuard .ascii .keywords "maybe" ctx =
      .error "Unknown identifier: maybe" := by
    intro ctx
    rw [@Guard.evalGuard_parsed .ascii .keywords ctx _ _ _ read parsed]
    rfl
  simp only [Call.gate, gate, blindReaction, failed]

theorem blindReaction_absent :
    (@TopologyEngine.sendEvent Unit .ascii .keywords
        { blindEngine with reactions := blindEngine.reactions.tail } "door" "move" none).1 =
      (@TopologyEngine.sendEvent Unit .ascii .keywords blindEngine "door" "move" none).1 :=
  (@skipped_absent Unit .ascii .keywords blindEngine blindReaction [] _ rfl "maybe" rfl rfl
    [⟨"door", "move", none⟩] (fun _ _ _ _ => blindReaction_skipped _ _) [] []
    ⟨"door", "move", none⟩ rfl).1

end SignalTopology
