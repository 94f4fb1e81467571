import SignalTopology.Check
import SignalTopology.Ddl.Names
import SignalTopology.Engine.Run
import SignalTopology.Engine.Validation

/-!
# Unreachable states

The states that `check_schema` counts as reachable cover every state a signal can come
to: the initial state is one of them, and a transition leads into one of them or back
to the state it starts in. So a warning about a state is never wrong.
-/

namespace SignalTopology

open Ddl TopologyEngine

/-- A state of the signal `id` that counts as reachable. -/
def TopologySchema.Admits (schema : TopologySchema) (id state : String) : Prop :=
  ∃ sig ∈ schema.signals, sig.id = id ∧ state ∈ sig.states ∧ state ∈ reachable schema sig

/-- No state has the name of the wildcard. -/
def TopologySchema.Plain (schema : TopologySchema) : Prop :=
  ∀ sig ∈ schema.signals, "*" ∉ sig.states

section

variable {schema : TopologySchema}

theorem TopologySchema.Admits.initial (valid : schema.Valid) {sig : SignalDef}
    (member : sig ∈ schema.signals) :
    schema.Admits sig.id sig.initialState :=
  ⟨sig, member, rfl, valid.initial sig member, mem_reachable.mpr (.inl rfl)⟩

/-- A transition from an admitted state leads to an admitted one. -/
theorem TopologySchema.Admits.step (valid : schema.Valid) (plain : schema.Plain)
    {id current : String}
    (h : schema.Admits id current) {t : TransitionDef} (declared : t ∈ schema.transitions)
    (owner : t.signalId = id) (source : t.fromState = current ∨ t.fromState = "*") :
    schema.Admits id t.toState := by
  obtain ⟨sig, member, own, listed, counted⟩ := h
  have target := valid.target t declared sig member (own.trans owner.symm)
  by_cases loop : t.fromState = t.toState
  · -- a wildcard that leads to itself would make it a state
    rcases source with same | wildcard
    · rw [← loop, same]
      exact ⟨sig, member, own, listed, counted⟩
    · rw [← loop, wildcard] at target
      exact absurd target (plain sig member)
  · refine ⟨sig, member, own, target, mem_reachable.mpr (.inr ⟨t, declared, ?_, loop, rfl⟩)⟩
    exact owner.trans own.symm

end

/-! ## Runs -/

section

variable {W : Type}

/-- The engine of a schema, with no signal outside the admitted states now or before. -/
structure Admitted (schema : TopologySchema) (engine : TopologyEngine W) : Prop where
  transitions : engine.transitions = schema.transitions
  current : ∀ id state, engine.current id = some state → schema.Admits id state
  changes : ∀ id, ∀ change ∈ stateChanges id engine.trace, schema.Admits id change.2

namespace Admitted

variable {schema : TopologySchema} {engine engine' : TopologyEngine W}

/-- What leaves the signals alone and records no change keeps the invariant. -/
theorem quiet (h : Admitted schema engine) {events : List TraceEvent}
    (transitions : engine'.transitions = engine.transitions)
    (same : ∀ id, engine'.signals.lookup id = engine.signals.lookup id)
    (log : engine'.trace = engine.trace ++ events) (silent : Silent events) :
    Admitted schema engine' := by
  refine ⟨transitions.trans h.transitions, fun id state found => h.current id state ?_, ?_⟩
  · rw [TopologyEngine.current, same] at found
    exact found
  · intro id change member
    rw [log, stateChanges_append, silent, List.append_nil] at member
    exact h.changes id change member

theorem built {world : W} (valid : schema.Valid) (flat : schema.Flat)
    (built : fromSchema world schema = .ok engine) : Admitted schema engine := by
  obtain ⟨flattened, expanded, _, signals, transitions, _, _, fresh⟩ := fromSchema_spec built
  rw [expand_of_flat flat] at expanded
  cases expanded
  refine ⟨transitions, fun id state found => ?_, fun id change member => ?_⟩
  · obtain ⟨signal, known, rfl⟩ := Option.map_eq_some_iff.mp found
    rw [signals] at known
    obtain ⟨sig, member, rfl, rfl⟩ := signalTable_some valid.distinct known
    exact TopologySchema.Admits.initial valid member
  · rw [fresh] at member
    cases member

variable [RustStd] [SerdeJson]

theorem attempt (valid : schema.Valid) (plain : schema.Plain) {c : Call W}
    (h : Admitted schema c.engine) : Admitted schema c.attempt.2 := by
  have kept := (sameTopology_elementary.attemptTransition c.engine c.signalId c.event
    c.payload).transitions
  obtain ⟨e, u, events, attempted, log, silent, same⟩ |
      ⟨result, u, events, signal, attempted, known, ⟨t, declared, owner, target, source⟩, log,
        silent, moved⟩ := c.engine.attemptTransition_spec c.signalId c.event c.payload
  · rw [attempted] at kept
    rw [Call.attempt, attempted]
    exact h.quiet kept same log silent
  · rw [attempted] at kept
    rw [Call.attempt, attempted]
    have before := h.current c.signalId signal.current (by rw [TopologyEngine.current, known]; rfl)
    have after : schema.Admits c.signalId result.toState := by
      rw [← target]
      exact before.step valid plain (h.transitions ▸ declared) owner source
    refine ⟨kept.trans h.transitions, fun id state found => ?_, fun id change member => ?_⟩
    · rw [TopologyEngine.current, moved] at found
      by_cases own : id = c.signalId
      · rw [if_pos own] at found
        cases found
        exact own ▸ after
      · rw [if_neg own] at found
        exact h.current id state found
    · rw [log, stateChanges_append, stateChanges_append, silent, List.nil_append] at member
      rcases List.mem_append.mp member with earlier | last
      · exact h.changes id change earlier
      · by_cases own : c.signalId = id
        · have recorded : change = (signal.current, result.toState) := by
            simpa [stateChanges, own] using last
          rw [recorded, ← own]
          exact after
        · simp [stateChanges, own] at last

theorem gate (h : Admitted schema engine) (c : Call W) (reaction : ReactionDef) :
    Admitted schema (c.gate reaction engine).2 := by
  obtain ⟨_, gated⟩ | ⟨guard, passed, result, _, gated⟩ :=
    gate_cases reaction c.parentPayload c.signalId engine
  · rw [Call.gate, gated]
    exact h
  · rw [Call.gate, gated]
    exact h.quiet rfl (fun _ => rfl) (push_trace _ _) fun _ => rfl

omit [RustStd] [SerdeJson] in
theorem compensate (h : Admitted schema engine) (c : Call W) (reaction : ReactionDef)
    (e : EngineError) : Admitted schema (c.compensate reaction e engine) := by
  have kept := (sameTopology_elementary.compensate reaction c.parentPayload c.signalId e
    engine).transitions
  obtain ⟨_, hooked⟩ | ⟨actionId, ctx, _, _, hooked⟩ :=
    compensate_cases reaction c.parentPayload c.signalId e engine
  · rw [Call.compensate, hooked]
    exact h
  · obtain ⟨events, acted, actions⟩ := runAction_acted reaction.toSignal actionId ctx engine
    rw [hooked] at kept
    rw [Call.compensate, hooked]
    have closing : Silent [compensated reaction c.signalId actionId e] := fun _ => rfl
    refine h.quiet kept (fun id => ?_) ?_ ((silent_actions actions).append closing)
    · rw [push_signals, acted.signals]
    · rw [push_trace, acted.trace, List.append_assoc]

/-- A call keeps the invariant, whatever its callbacks and reactions do. -/
theorem run (valid : schema.Valid) (plain : schema.Plain) {limit : Nat} {c : Call W}
    (h : Admitted schema c.engine) : Admitted schema (c.run limit).2 :=
  Call.run_rel (R := fun engine engine' => Admitted schema engine → Admitted schema engine')
    (fun _ confined => confined) (fun first second confined => second (first confined))
    (fun _ confined => confined.attempt valid plain)
    (fun c reaction _ confined => confined.gate c reaction)
    (fun c reaction e _ confined => confined.compensate c reaction e) limit c h

theorem hostRun (valid : schema.Valid) (plain : schema.Plain) (h : Admitted schema engine)
    (run : HostRun engine engine') : Admitted schema engine' := by
  induction run with
  | refl => exact h
  | tail _ last ih =>
      cases last with
      | sendEvent signalId event payload =>
          exact Admitted.run (c := .top _ signalId event payload) valid plain ih
      | registerAction | setMaxCascadeDepth | environment =>
          exact ⟨ih.transitions, ih.current, ih.changes⟩

end Admitted

end

/-! ## Warnings -/

/-- What stands behind the last colon of a text. -/
theorem last_colon {a b x y : List Char} (same : a ++ ':' :: x = b ++ ':' :: y) (left : ':' ∉ x)
    (right : ':' ∉ y) : a = b ∧ x = y := by
  obtain ⟨mid, rfl, tail⟩ | ⟨mid, rfl, tail⟩ := List.append_eq_append_iff.mp same
  all_goals
    cases mid with
    | nil =>
        rw [List.nil_append] at tail
        exact ⟨by rw [List.append_nil], by simpa [eq_comm] using tail⟩
    | cons c mid =>
        have inside := (List.cons.inj tail).2
        simp [inside] at left right

theorem message_inj {s s' x x' : String} (same : s ++ ": " ++ x = s' ++ ": " ++ x')
    (left : ':' ∉ x.toList) (right : ':' ∉ x'.toList) : s = s' ∧ x = x' := by
  have texts := congrArg String.toList same
  simp only [String.toList_append, List.append_assoc] at texts
  obtain ⟨owner, state⟩ := @last_colon s.toList s'.toList (' ' :: x.toList) (' ' :: x'.toList) texts
    (by simpa using left) (by simpa using right)
  exact ⟨String.toList_inj.mp owner, String.toList_inj.mp (List.cons.inj state).2⟩

section

variable [RustStd] [SerdeJson]

theorem compile_plain {src : String} {schema : TopologySchema}
    (compiled : compile src = .ok schema) :
    schema.Plain := by
  intro sig member listed
  have word := compile_worded compiled sig member "*" listed
  exact word.not_mem (c := '*') ⟨by decide, by decide⟩ (by decide)

/-- A state that `check_schema` reports as unreachable is never entered, whatever is sent to
the engine and whatever its guards and actions do. -/
theorem unreachableState_sound {W : Type} {src : String} {schema : TopologySchema} {world : W}
    {engine engine' : TopologyEngine W} {signalId state : String}
    (compiled : compile src = .ok schema) (built : fromSchema world schema = .ok engine)
    (reported : unreachableState signalId state ∈ checkSchema schema)
    (run : HostRun engine engine') :
    engine'.getState signalId ≠ .ok state ∧
      ∀ fromState, .stateChanged signalId fromState state ∉ engine'.trace := by
  obtain ⟨tokens, doc, lowered, _, _, _, expanded⟩ := compile_ok compiled
  have flat := expand_flat expanded
  obtain ⟨flattened, again, valid, _⟩ := fromSchema_spec built
  rw [expand_of_flat flat] at again
  cases again
  have confined := (Admitted.built valid flat built).hostRun valid (compile_plain compiled) run
  have excluded : ¬ schema.Admits signalId state := by
    rintro ⟨sig, member, own, listed, counted⟩
    obtain ⟨sig', member', state', listed', outside, message⟩ := unreachableState_mem.mp reported
    have plain : ∀ {sig}, sig ∈ schema.signals → ∀ {s}, s ∈ sig.states → ':' ∉ s.toList :=
      fun member _ listed => (compile_worded compiled _ member _ listed).not_mem
        ⟨by decide, by decide⟩
    obtain ⟨owner, rfl⟩ := message_inj message (plain member' listed') (plain member listed)
    have one := List.inj_on_of_nodup_map valid.distinct member' member (owner.trans own.symm)
    exact outside (one ▸ counted)
  constructor
  · intro now
    refine excluded (confined.current signalId state ?_)
    rw [getState] at now
    rw [TopologyEngine.current]
    split at now
    · next signal known =>
        cases now
        rw [known]
        rfl
    · cases now
  · intro fromState recorded
    refine excluded (confined.changes signalId (fromState, state) ?_)
    exact List.mem_filterMap.mpr ⟨_, recorded, if_pos rfl⟩

end

/-- A task that is never done. -/
def taskSource : String :=
  "signal task \x7b states: [idle, running, done] initial: idle " ++
  "on start from idle -> running on start from running -> running \x7d"

theorem taskSource_unreachable : ∃ (schema : TopologySchema) (engine : TopologyEngine Unit),
    @compile .keywords .ascii taskSource = .ok schema ∧ fromSchema () schema = .ok engine ∧
      unreachableState "task" "done" ∈ checkSchema schema ∧
      (@sendEvent Unit .ascii .keywords engine "task" "start" none).2.getState "task" ≠ .ok "done" ∧
      ∀ fromState, .stateChanged "task" fromState "done" ∉
        (@sendEvent Unit .ascii .keywords engine "task" "start" none).2.trace := by
  have checked : (@compile .keywords .ascii taskSource).toOption.any (fun schema =>
      (fromSchema () schema).isOk && (checkSchema schema).contains
        (unreachableState "task" "done")) =
      true :=
    @compileFull_check .keywords .ascii taskSource _
      (fun outcome => (outcome.map Prod.fst).toOption.any fun schema =>
        (fromSchema () schema).isOk && (checkSchema schema).contains
          (unreachableState "task" "done"))
      (chars_append rfl rfl) (by decide +kernel)
  cases compiled : @compile .keywords .ascii taskSource with
  | error e =>
      rw [compiled] at checked
      cases checked
  | ok schema =>
      rw [compiled] at checked
      obtain ⟨accepted, reported⟩ := Bool.and_eq_true_iff.mp checked
      cases built : fromSchema () schema with
      | error e =>
          rw [built] at accepted
          cases accepted
      | ok engine =>
          have warned := List.contains_iff_mem.mp reported
          exact ⟨schema, engine, rfl, built, warned,
            @unreachableState_sound .ascii .keywords Unit taskSource schema
              () engine _ "task" "done"
              compiled built warned
              (.single (@HostStep.sendEvent Unit .ascii .keywords engine "task" "start" none))⟩

end SignalTopology
