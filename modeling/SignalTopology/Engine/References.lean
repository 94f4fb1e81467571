import SignalTopology.Engine.Compensation
import SignalTopology.Engine.Snapshots

/-!
# References

Both entry points of a topology validate it: every reaction leads to a declared
signal, and every transition to a state of its signal. A run changes neither the
signals, nor their states, nor the rules, so no lookup of a cascade fails, and
every recorded move ends in a state its signal has.
-/

namespace SignalTopology

open Sequencing TopologyEngine

variable {W : Type}

/-! ## What an attempt can fail with -/

/-- The errors that `run_action` turns every failure of a callback into. -/
def EngineError.FromAction (e : EngineError) : Prop :=
  (∃ actionId, e = .actionNotFound actionId) ∨ ∃ message, e = .actionExecutionError message

namespace TopologyEngine

variable {engine u : TopologyEngine W} {e : EngineError}

theorem runAction_error {signalId actionId : String} {ctx : ActionContext}
    (failed : runAction signalId actionId ctx engine = (.error e, u)) : e.FromAction := by
  obtain ⟨_, same⟩ | ⟨_, _, same, _⟩ | ⟨_, error, _, same, _⟩ :=
    runAction_cases signalId actionId ctx engine
  all_goals
    rw [failed] at same
    cases same
  · exact .inl ⟨actionId, rfl⟩
  · exact .inr ⟨error, rfl⟩

theorem runActions_error {ctx : ActionContext} {ids : List String}
    (failed : runActions ctx ids engine = (.error e, u)) : e.FromAction := by
  obtain ⟨_, _, _, _, _, _, last⟩ := runAll_error_iff.mp failed
  exact runAction_error last

theorem runTransition_error {ctx : ActionContext} {actions : ActionBinding}
    (failed : runTransition ctx actions engine = (.error e, u)) : e.FromAction := by
  obtain ⟨_, _, exits, same⟩ | ⟨_, _, _, _, enters, same⟩ | ⟨_, _, _, _, same⟩ :=
    runTransition_cases ctx actions engine
  all_goals
    rw [failed] at same
    cases same
  · exact runActions_error exits
  · exact runActions_error enters

variable [RustStd] [SerdeJson]

/-- A guard rejects a transition with one of its own two errors. -/
theorem checkGuard_error {transition : TransitionDef} {ctx : ActionContext}
    (rejected : checkGuard transition ctx = .error e) (id : String) : e ≠ .signalNotFound id := by
  unfold checkGuard at rejected
  split at rejected
  · cases rejected
  · split at rejected <;> cases rejected <;> rintro ⟨⟩

/-- An attempt on a known signal finds it. -/
theorem attemptTransition_finds {signalId event : String} {payload : Option JsonValue}
    (known : (engine.space signalId).isSome)
    (failed : engine.attemptTransition signalId event payload = (.error e, u)) (id : String) :
    e ≠ .signalNotFound id := by
  obtain ⟨states, inSpace⟩ := Option.isSome_iff_exists.mp known
  obtain ⟨signal, present, _⟩ := Option.map_eq_some_iff.mp inSpace
  have chosen : (engine.receive signalId event payload).findTransition signalId event
      signal.current = engine.findTransition signalId event signal.current := rfl
  cases found : engine.findTransition signalId event signal.current with
  | none =>
      simp only [attemptTransition, receive_signals, present, chosen, found] at failed
      cases failed
      rintro ⟨⟩
  | some transition =>
      cases checked : checkGuard transition
          ⟨signalId, signal.current, transition.toState, event, payload, none⟩ with
      | error e' =>
          simp only [attemptTransition, receive_signals, present, chosen, found, checked] at failed
          cases failed
          exact checkGuard_error checked id
      | ok =>
          simp only [attemptTransition, receive_signals, present, chosen, found, checked] at failed
          obtain ⟨_, rfl⟩ | ⟨_, rfl⟩ := runTransition_error failed <;> rintro ⟨⟩

end TopologyEngine

/-! ## The invariant -/

/-- Every reaction leads to a signal of the engine, and every transition to a
state of its signal. -/
structure TopologyEngine.Linked (engine : TopologyEngine W) : Prop where
  reaction : ∀ r ∈ engine.reactions, (engine.space r.toSignal).isSome
  transition : ∀ t ∈ engine.transitions, ∀ states, engine.space t.signalId = some states →
    t.toState ∈ states

namespace TopologyEngine.Linked

variable {engine engine' : TopologyEngine W}

/-- Validation establishes the invariant, whatever states the signals start in. -/
theorem of_valid {schema : TopologySchema} (valid : validate schema = .ok ())
    {current : SignalDef → String} (signals : engine.signals = signalTable current schema.signals)
    (transitions : engine.transitions = schema.transitions)
    (reactions : engine.reactions = schema.reactions) : engine.Linked := by
  obtain ⟨checked, ends⟩ := validate_iff.mp valid
  constructor
  · intro r member
    rw [reactions] at member
    obtain ⟨sig, declared, same⟩ := List.mem_map.mp (ends r member).2
    have found := signalTable_member checked.distinct current declared
    rw [← signals, same] at found
    rw [space, found]
    rfl
  · intro t member states found
    rw [transitions] at member
    obtain ⟨signal, known, rfl⟩ := Option.map_eq_some_iff.mp found
    rw [signals] at known
    obtain ⟨sig, declared, owner, rfl⟩ := signalTable_some checked.distinct known
    obtain ⟨sig', declared', owner', _, target⟩ := checked.transition t member
    obtain rfl : sig' = sig :=
      eq_of_id checked.distinct declared' declared (owner'.trans owner.symm)
    exact target

theorem congr (h : engine.Linked) (space : engine'.space = engine.space)
    (same : SameTopology engine engine') : engine'.Linked := by
  constructor
  · intro r member
    rw [same.reactions] at member
    rw [space]
    exact h.reaction r member
  · intro t member states found
    rw [same.transitions] at member
    rw [space] at found
    exact h.transition t member states found

theorem reload [SerdeJson] (h : engine.Linked) (json : String) :
    (engine.reloadTopology json).2.Linked := by
  unfold reloadTopology
  split
  · exact h
  · split
    · exact h
    · next valid => exact of_valid valid rfl rfl rfl

end TopologyEngine.Linked

/-! ## Runs -/

/-- From `s` to `t` the topology stays, and every recorded move ends in a state
its signal has. -/
structure MovesWithin (s t : TopologyEngine W) : Prop where
  space : t.space = s.space
  same : SameTopology s t
  log : ∃ events, t.trace = s.trace ++ events ∧
    ∀ id, ∀ step ∈ stateChanges id events, ∃ states, s.space id = some states ∧ step.2 ∈ states

namespace MovesWithin

theorem refl (s : TopologyEngine W) : MovesWithin s s :=
  ⟨rfl, sameTopology_elementary.refl s, [], (List.append_nil _).symm, by simp⟩

theorem trans {s t u : TopologyEngine W} (first : MovesWithin s t) (second : MovesWithin t u) :
    MovesWithin s u := by
  obtain ⟨events, log, moves⟩ := first.log
  obtain ⟨events', log', moves'⟩ := second.log
  refine ⟨second.space.trans first.space, sameTopology_elementary.trans first.same second.same,
    events ++ events', by rw [log', log, List.append_assoc], fun id step member => ?_⟩
  rw [stateChanges_append, List.mem_append] at member
  obtain earlier | later := member
  · exact moves id step earlier
  · rw [← first.space]
    exact moves' id step later

theorem of_silent {s t : TopologyEngine W} (space : t.space = s.space) (same : SameTopology s t)
    {events : List TraceEvent} (log : t.trace = s.trace ++ events) (silent : Silent events) :
    MovesWithin s t :=
  ⟨space, same, events, log, fun id step member => by
    rw [silent id] at member
    cases member⟩

variable [RustStd] [SerdeJson]

/-- A committed attempt takes a declared transition. -/
theorem attempt {c : Call W} (linked : c.engine.Linked) : MovesWithin c.engine c.attempt.2 := by
  have space := space_elementary.attemptTransition c.engine c.signalId c.event c.payload
  have same := sameTopology_elementary.attemptTransition c.engine c.signalId c.event c.payload
  obtain ⟨e, u, events, attempted, log, silent, _⟩ |
      ⟨result, u, events, signal, attempted, known, ⟨t, declared, owner, target, _⟩, log, silent,
        _⟩ :=
    c.engine.attemptTransition_spec c.signalId c.event c.payload
  · rw [attempted] at space same
    rw [Call.attempt, attempted]
    exact of_silent space same log silent
  · rw [attempted] at space same
    rw [Call.attempt, attempted]
    refine ⟨space, same, _, log, fun id step member => ?_⟩
    rw [stateChanges_append, silent id, List.nil_append] at member
    by_cases own : c.signalId = id
    · subst own
      have moved : step = (signal.current, result.toState) := by
        simpa [stateChanges] using member
      have found : c.engine.space c.signalId = some signal.states := by
        rw [TopologyEngine.space, known]
        rfl
      have inside := linked.transition t declared signal.states (by rw [owner, found])
      rw [moved, ← target]
      exact ⟨signal.states, found, inside⟩
    · simp [stateChanges, own] at member

theorem gate (c : Call W) (reaction : ReactionDef) (engine : TopologyEngine W) :
    MovesWithin engine (c.gate reaction engine).2 := by
  obtain ⟨_, same⟩ | ⟨guard, passed, result, _, same⟩ :=
    gate_cases reaction c.parentPayload c.signalId engine
  · rw [Call.gate, same]
    exact refl engine
  · rw [Call.gate, same]
    exact of_silent rfl (sameTopology_elementary.push engine _) (push_trace _ _) fun _ => rfl

omit [RustStd] [SerdeJson] in
theorem compensate (c : Call W) (reaction : ReactionDef) (e : EngineError)
    (engine : TopologyEngine W) : MovesWithin engine (c.compensate reaction e engine) := by
  obtain ⟨signals, events, log, silent⟩ :=
    compensate_settled reaction c.parentPayload c.signalId e engine
  exact of_silent
    (space_elementary.compensate reaction c.parentPayload c.signalId e engine)
    (sameTopology_elementary.compensate reaction c.parentPayload c.signalId e engine) log silent

theorem run (limit : Nat) {c : Call W} (linked : c.engine.Linked) :
    MovesWithin c.engine (c.run limit).2 := by
  refine Call.run_rel (R := fun s t => s.Linked → MovesWithin s t) (fun s _ => refl s)
    (fun first second linked => ?_) (fun _ => attempt)
    (fun c reaction engine _ => gate c reaction engine)
    (fun c reaction e engine _ => compensate c reaction e engine) limit c linked
  have before := first linked
  exact before.trans (second (linked.congr before.space before.same))

end MovesWithin

section

variable [RustStd] [SerdeJson]

/-- Every call that a run reaches is about a signal of the engine. -/
theorem Call.Reached.known {limit : Nat} {c c' : Call W} (h : c.Reached limit c')
    (linked : c.engine.Linked) (known : (c.engine.space c.signalId).isSome) :
    (c'.engine.space c'.signalId).isSome := by
  induction h with
  | refl => exact known
  | tail reached last _ =>
      obtain ⟨reaction, delivers⟩ := last
      have declared := delivers.declared
      rw [(Call.Reached.sameTopology reached).reactions] at declared
      have space := (Call.Reached.on_path (reached.tail ⟨reaction, delivers⟩)).1.rel
        space_elementary
      rw [space, delivers.eq]
      exact linked.reaction reaction declared

/-- A call on a known signal never fails with `SignalNotFound`, at any level. -/
theorem Call.run_finds {limit : Nat} {c : Call W} (linked : c.engine.Linked)
    (known : (c.engine.space c.signalId).isSome) {e : EngineError} {u : TopologyEngine W}
    (failed : c.run limit = (.error e, u)) (id : String) : e ≠ .signalNotFound id := by
  obtain ⟨chain, inner, along⟩ := c.exists_chain failed
  obtain ⟨_, rfl⟩ | ⟨_, v, rejected⟩ := along.raises
  · rintro ⟨⟩
  · exact attemptTransition_finds (along.reached.known linked known) rejected id

/-- Every operation keeps the invariant, reloads included. -/
theorem execute_linked {engine : TopologyEngine W} (h : engine.Linked) (ops : List (Operation W)) :
    (execute engine ops).Linked := by
  induction ops using List.reverseRecOn with
  | nil => exact h
  | append_singleton ops op ih =>
      rw [execute_append]
      cases op with
      | sendEvent signalId event payload =>
          exact ih.congr (space_elementary.run _ (.top _ signalId event payload))
            (sameTopology_elementary.run _ (.top _ signalId event payload))
      | loadState file =>
          exact ih.congr (loadState_elementary space_elementary _ file)
            (loadState_elementary sameTopology_elementary _ file)
      | reloadTopology json => exact ih.reload json
      | registerAction | setMaxCascadeDepth | environment => exact ⟨ih.reaction, ih.transition⟩

/-- Validated references never dangle. In every engine reached from `from_schema`,
a `send_event` on an existing signal never returns `SignalNotFound`, and every
`StateChanged` that a `send_event` records moves a signal of the topology to one of
its states. -/
theorem references_resolve {world : W} {schema : TopologySchema} {built : TopologyEngine W}
    (loaded : TopologyEngine.fromSchema world schema = .ok built) (ops : List (Operation W))
    (signalId event : String) (payload : Option JsonValue) :
    (((execute built ops).signals.lookup signalId).isSome → ∀ id,
      ((execute built ops).sendEvent signalId event payload).1 ≠ .error (.signalNotFound id)) ∧
    ∃ events, ((execute built ops).sendEvent signalId event payload).2.trace =
        (execute built ops).trace ++ events ∧
      ∀ id fromState toState, .stateChanged id fromState toState ∈ events →
        ∃ signal, ((execute built ops).sendEvent signalId event payload).2.signals.lookup id =
          some signal ∧ toState ∈ signal.states := by
  have linked : (execute built ops).Linked := by
    obtain ⟨flat, _, valid, rfl⟩ := fromSchema_iff.mp loaded
    exact execute_linked (.of_valid valid rfl rfl rfl) ops
  generalize execute built ops = engine at linked ⊢
  constructor
  · intro known id missing
    have found : (engine.space signalId).isSome := by
      rw [TopologyEngine.space, Option.isSome_map]
      exact known
    exact Call.run_finds (c := .top engine signalId event payload) linked found
      (Prod.ext missing rfl) id rfl
  · have moves := MovesWithin.run engine.maxCascadeDepth (c := .top engine signalId event payload)
      linked
    obtain ⟨events, log, inside⟩ := moves.log
    refine ⟨events, log, fun id fromState toState member => ?_⟩
    have step : (fromState, toState) ∈ stateChanges id events :=
      List.mem_filterMap.mpr ⟨_, member, by simp⟩
    obtain ⟨states, found, target⟩ := inside id _ step
    have after := (congrFun moves.space id).trans found
    obtain ⟨signal, known, rfl⟩ := Option.map_eq_some_iff.mp after
    exact ⟨signal, known, target⟩

end

/-- The topology of the bell and its chime. -/
def bellSchema : TopologySchema where
  version := "1.0"
  signals := ["bell", "chime"].map fun id => ⟨id, "quiet", ["quiet", "loud"]⟩
  transitions := bellEngine.transitions
  reactions := bellEngine.reactions

/-- Ringing twice: the second event finds its signal, and no transition. -/
theorem bellSchema_references :
    (@TopologyEngine.sendEvent Unit .ascii .keywords
      (@execute Unit .ascii .keywords bellEngine [.sendEvent "bell" "ring" none]) "bell" "ring"
      none).1 ≠ .error (.signalNotFound "chime") :=
  (@references_resolve Unit .ascii .keywords () bellSchema bellEngine rfl
    [.sendEvent "bell" "ring" none] "bell" "ring" none).1 (by decide +kernel) "chime"

end SignalTopology
