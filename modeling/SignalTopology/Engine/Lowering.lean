import SignalTopology.Engine.Snapshots

/-!
# Lowering wildcards

A transition from `*` can be replaced, in its place, by one arm for each state of its
signal. The engine uses a transition it has picked without looking at the source
state again, and in a legal engine the current state is one of the arms. So the two
engines pick transitions with the same effect and go through the same states.
-/

namespace SignalTopology

open Sequencing TopologyEngine

variable {W : Type}

/-- The arms of a transition: one per state of its signal for a wildcard. -/
def arms (signals : List SignalDef) (t : TransitionDef) : List TransitionDef :=
  if t.fromState = "*" then
    match signals.find? (·.id = t.signalId) with
    | some sig => sig.states.map fun state => { t with fromState := state }
    | none => [t]
  else [t]

/-- The schema with every wildcard replaced by its arms. -/
def TopologySchema.lowered (schema : TopologySchema) : TopologySchema :=
  { schema with transitions := schema.transitions.flatMap (arms schema.signals) }

/-- What the engine uses of a transition once it is picked. -/
def TransitionDef.effect (t : TransitionDef) : TransitionDef := { t with fromState := "*" }

/-! ## Other transitions with the same effects -/

namespace TopologyEngine

def withTransitions (engine : TopologyEngine W) (ts : List TransitionDef) : TopologyEngine W :=
  { engine with transitions := ts }

/-- In every state of every signal, `ts` and the transitions of the engine offer the
same effect. -/
def SameEffects (ts : List TransitionDef) (engine : TopologyEngine W) : Prop :=
  ∀ id event states state, engine.space id = some states → state ∈ states →
    ((engine.withTransitions ts).findTransition id event state).map TransitionDef.effect =
      (engine.findTransition id event state).map TransitionDef.effect

theorem SameEffects.congr {ts : List TransitionDef} {engine engine' : TopologyEngine W}
    (h : SameEffects ts engine) (transitions : engine'.transitions = engine.transitions)
    (space : engine'.space = engine.space) : SameEffects ts engine' := by
  intro id event states state found member
  rw [space] at found
  have same := h id event states state found member
  unfold findTransition at same ⊢
  rw [transitions]
  exact same

section

variable (ts : List TransitionDef) (engine : TopologyEngine W)

theorem push_withTransitions (ev : TraceEvent) :
    (engine.withTransitions ts).push ev = (engine.push ev).withTransitions ts := rfl

theorem setCurrent_withTransitions (signalId state : String) :
    (engine.withTransitions ts).setCurrent signalId state =
      (engine.setCurrent signalId state).withTransitions ts := by
  unfold setCurrent withTransitions
  dsimp only
  cases engine.signals.lookup signalId with
  | none => rfl
  | some signal => rfl

theorem runAction_withTransitions (signalId actionId : String) (ctx : ActionContext) :
    runAction signalId actionId ctx (engine.withTransitions ts) =
      ((runAction signalId actionId ctx engine).1,
        (runAction signalId actionId ctx engine).2.withTransitions ts) := by
  have table : ((engine.withTransitions ts).push (.actionStarted signalId actionId)).actions =
      engine.actions := rfl
  have world : ((engine.withTransitions ts).push (.actionStarted signalId actionId)).world =
      engine.world := rfl
  unfold runAction
  dsimp only
  rw [table, world, push_actions, push_world]
  cases engine.actions.lookup actionId with
  | none => rfl
  | some action =>
      dsimp only
      rcases action ctx engine.world with ⟨e | _, world⟩ <;> rfl

theorem loadState_withTransitions (file : Except String StateSnapshot) :
    ((engine.withTransitions ts).loadState file).2 =
      (engine.loadState file).2.withTransitions ts := by
  have written : ∀ (entries : List (Sigma fun _ : String => String)) (engine : TopologyEngine W),
      entries.foldl (fun engine entry => engine.setCurrent entry.1 entry.2)
          (engine.withTransitions ts) =
        (entries.foldl (fun engine entry => engine.setCurrent entry.1 entry.2)
          engine).withTransitions ts := by
    intro entries
    induction entries with
    | nil => exact fun _ => rfl
    | cons entry entries ih =>
        intro engine
        rw [List.foldl_cons, List.foldl_cons, setCurrent_withTransitions, ih]
  cases file with
  | error message => rfl
  | ok snapshot =>
      have checks : (fun entry : Sigma fun _ : String => String =>
          (engine.withTransitions ts).checkEntry entry.1 entry.2) =
          fun entry => engine.checkEntry entry.1 entry.2 := rfl
      unfold loadState
      dsimp only
      rw [checks]
      cases snapshot.states.entries.forM fun entry => engine.checkEntry entry.1 entry.2 with
      | error e => rfl
      | ok => exact written snapshot.states.entries engine

theorem runActions_withTransitions (ctx : ActionContext) (ids : List String) :
    runActions ctx ids (engine.withTransitions ts) =
      ((runActions ctx ids engine).1, (runActions ctx ids engine).2.withTransitions ts) :=
  runAll_commutes (TopologyEngine.withTransitions · ts) (fun _ => True)
    (fun id _ engine _ =>
      ⟨runAction_withTransitions ts engine ctx.signalId id ctx, trivial⟩) trivial

theorem runTransition_withTransitions (ctx : ActionContext) (actions : ActionBinding) :
    runTransition ctx actions (engine.withTransitions ts) =
      ((runTransition ctx actions engine).1,
        (runTransition ctx actions engine).2.withTransitions ts) := by
  have exit := runActions_withTransitions ts engine ctx actions.onExit
  unfold runTransition
  rw [exit]
  rcases runActions ctx actions.onExit engine with ⟨e | _, u⟩
  · rfl
  · have enter := runActions_withTransitions ts (u.setCurrent ctx.signalId ctx.toState) ctx
      (actions.onTransition ++ actions.onEnter)
    dsimp only
    rw [setCurrent_withTransitions, runEnterPhases_eq, runEnterPhases_eq, enter]
    rcases runActions ctx (actions.onTransition ++ actions.onEnter)
      (u.setCurrent ctx.signalId ctx.toState) with ⟨e | _, v⟩
    · dsimp only
      rw [setCurrent_withTransitions, push_withTransitions]
    · rfl

theorem compensate_withTransitions (reaction : ReactionDef) (parentPayload : Option JsonValue)
    (transitionSignal : String) (e : EngineError) :
    compensate reaction parentPayload transitionSignal e (engine.withTransitions ts) =
      (compensate reaction parentPayload transitionSignal e engine).withTransitions ts := by
  unfold compensate
  cases reaction.onFail with
  | none => rfl
  | some actionId =>
      have same : hookContext reaction parentPayload e (engine.withTransitions ts) =
        hookContext reaction parentPayload e engine := rfl
      dsimp only
      rw [same, runAction_withTransitions]
      rfl

variable [RustStd] [SerdeJson]

theorem gate_withTransitions (reaction : ReactionDef) (parentPayload : Option JsonValue)
    (transitionSignal : String) :
    gate reaction parentPayload transitionSignal (engine.withTransitions ts) =
      ((gate reaction parentPayload transitionSignal engine).1,
        (gate reaction parentPayload transitionSignal engine).2.withTransitions ts) := by
  unfold gate
  cases reaction.guard with
  | none => rfl
  | some guard => rfl

variable {ts engine}

/-- Transitions with the same effect have the same guard. -/
theorem checkGuard_effect {t t' : TransitionDef} (same : t'.effect = t.effect)
    (ctx : ActionContext) : checkGuard t' ctx = checkGuard t ctx := by
  have guards : t'.guard = t.guard := (congrArg TransitionDef.guard same :)
  rw [checkGuard, guards, checkGuard]

theorem attemptTransition_withTransitions (legal : engine.Legal) (same : SameEffects ts engine)
    (signalId event : String) (payload : Option JsonValue) :
    (engine.withTransitions ts).attemptTransition signalId event payload =
      ((engine.attemptTransition signalId event payload).1,
        (engine.attemptTransition signalId event payload).2.withTransitions ts) := by
  have received : (engine.withTransitions ts).receive signalId event payload =
      (engine.receive signalId event payload).withTransitions ts := rfl
  have table : ((engine.receive signalId event payload).withTransitions ts).signals =
      engine.signals := rfl
  unfold attemptTransition
  dsimp only
  rw [received, table, receive_signals]
  cases known : engine.signals.lookup signalId with
  | none => rfl
  | some signal =>
      have states : engine.space signalId = some signal.states := by
        rw [space, known]
        rfl
      have effects := same signalId event signal.states signal.current states
        (legal signalId signal known)
      have chosen : (engine.receive signalId event payload).findTransition signalId event
          signal.current = engine.findTransition signalId event signal.current := rfl
      have chosen' : ((engine.receive signalId event payload).withTransitions ts).findTransition
          signalId event signal.current =
          (engine.withTransitions ts).findTransition signalId event signal.current := rfl
      dsimp only
      rw [chosen, chosen']
      cases found : engine.findTransition signalId event signal.current with
      | none =>
          rw [found, Option.map_none, Option.map_eq_none_iff] at effects
          rw [effects]
      | some t =>
          rw [found] at effects
          obtain ⟨t', found', effect⟩ := Option.map_eq_some_iff.mp effects
          have target : t'.toState = t.toState := (congrArg TransitionDef.toState effect :)
          have actions : t'.actions = t.actions := (congrArg TransitionDef.actions effect :)
          rw [found']
          dsimp only
          rw [target, actions, checkGuard_effect effect]
          cases checkGuard t ⟨signalId, signal.current, t.toState, event, payload, none⟩ with
          | error e => rfl
          | ok => exact runTransition_withTransitions ts _ _ _

end

end TopologyEngine

namespace Call

variable [RustStd] [SerdeJson]

def withTransitions (c : Call W) (ts : List TransitionDef) : Call W :=
  { c with engine := c.engine.withTransitions ts }

/-- The engine of the call is sound, and `ts` has the effects of its transitions. -/
def Alike (ts : List TransitionDef) (engine : TopologyEngine W) : Prop :=
  engine.Sound ∧ SameEffects ts engine

omit [RustStd] [SerdeJson] in
theorem Alike.across {ts : List TransitionDef} {engine engine' : TopologyEngine W}
    (h : Alike ts engine) (sound : engine'.Sound) (same : SameTopology engine engine')
    (space : engine'.space = engine.space) : Alike ts engine' :=
  ⟨sound, h.2.congr same.transitions space⟩

/-- A call does the same with transitions of the same effects. -/
theorem run_withTransitions {ts : List TransitionDef} (limit : Nat) {c : Call W}
    (alike : Alike ts c.engine) :
    (c.withTransitions ts).run limit =
      ((c.run limit).1, (c.run limit).2.withTransitions ts) := by
  induction c using nested_induction limit with
  | step c nested =>
      have attempted : (c.withTransitions ts).attempt =
          (c.attempt.1, c.attempt.2.withTransitions ts) :=
        attemptTransition_withTransitions alike.1.legal alike.2 c.signalId c.event c.payload
      have fires : c.depth ≤ limit → ∀ reaction engine, Alike ts engine →
          (c.withTransitions ts).fire limit reaction (engine.withTransitions ts) =
            ((c.fire limit reaction engine).1,
              (c.fire limit reaction engine).2.withTransitions ts) ∧
          Alike ts (c.fire limit reaction engine).2 := by
        intro within reaction engine alike
        have gated := gate_withTransitions ts engine reaction c.parentPayload c.signalId
        have gateAlike : Alike ts (c.gate reaction engine).2 :=
          alike.across (alike.1.gate c reaction)
            (sameTopology_elementary.gate reaction c.parentPayload c.signalId engine)
            (space_elementary.gate reaction c.parentPayload c.signalId engine)
        unfold fire fireOneReaction
        rw [Call.gate] at gateAlike
        have here : TopologyEngine.gate reaction (c.withTransitions ts).parentPayload
            (c.withTransitions ts).signalId (engine.withTransitions ts) = _ := gated
        rw [here]
        rcases passed : TopologyEngine.gate reaction c.parentPayload c.signalId engine with
          ⟨_ | _, u⟩
        · rw [passed] at gateAlike
          exact ⟨rfl, gateAlike⟩
        · rw [passed] at gateAlike
          have below := nested within reaction u gateAlike
          have belowAlike : Alike ts ((c.deliver reaction u).run limit).2 :=
            gateAlike.across (Sound.run gateAlike.1)
              (sameTopology_elementary.run limit (c.deliver reaction u))
              (space_elementary.run limit (c.deliver reaction u))
          have same : ((c.withTransitions ts).deliver reaction (u.withTransitions ts)) =
              (c.deliver reaction u).withTransitions ts := rfl
          dsimp only
          rw [same, below]
          rcases ran : (c.deliver reaction u).run limit with
            ⟨e | result, v⟩ <;> rw [ran] at belowAlike
          · refine ⟨?_, belowAlike.across (belowAlike.1.compensate c reaction e)
              (sameTopology_elementary.compensate reaction c.parentPayload c.signalId e v)
              (space_elementary.compensate reaction c.parentPayload c.signalId e v)⟩
            have hooked := compensate_withTransitions ts v reaction c.parentPayload c.signalId e
            dsimp only
            rw [← hooked]
            rfl
          · exact ⟨rfl, belowAlike⟩
      rcases Nat.lt_or_ge limit c.depth with deep | within
      · rw [c.run_deep limit deep, (c.withTransitions ts).run_deep limit deep]
        rfl
      · rcases outcome : c.attempt with ⟨e | result, u⟩
        · rw [outcome] at attempted
          rw [c.run_rejected limit within outcome,
            (c.withTransitions ts).run_rejected limit within attempted]
        · have attemptAlike : Alike ts c.attempt.2 :=
            alike.across alike.1.attempt
              (sameTopology_elementary.attemptTransition c.engine c.signalId c.event c.payload)
              (space_elementary.attemptTransition c.engine c.signalId c.event c.payload)
          rw [outcome] at attempted attemptAlike
          have same : (c.withTransitions ts).agenda result (u.withTransitions ts) =
              c.agenda result u := rfl
          have dispatched := runAll_commutes (TopologyEngine.withTransitions · ts) (Alike ts)
            (fun reaction (_ : reaction ∈ c.agenda result u) => fires within reaction) attemptAlike
          rw [c.run_committed limit within outcome,
            (c.withTransitions ts).run_committed limit within attempted, same, dispatched]
          rcases runAll (c.fire limit) (c.agenda result u) u with ⟨e | _, v⟩ <;> rfl

end Call

theorem TopologyEngine.sendEvent_withTransitions [RustStd] [SerdeJson] {ts : List TransitionDef}
    {engine : TopologyEngine W} (alike : Call.Alike ts engine) (signalId event : String)
    (payload : Option JsonValue) :
    (engine.withTransitions ts).sendEvent signalId event payload =
      ((engine.sendEvent signalId event payload).1,
        (engine.sendEvent signalId event payload).2.withTransitions ts) :=
  Call.run_withTransitions engine.maxCascadeDepth (c := .top engine signalId event payload) alike

/-- A run does the same with transitions of the same effects. -/
theorem execute_withTransitions [RustStd] [SerdeJson] {ts : List TransitionDef}
    {engine : TopologyEngine W} (alike : Call.Alike ts engine) {ops : List (Operation W)}
    (keeps : ∀ op ∈ ops, ∀ json, op ≠ .reloadTopology json) :
    execute (engine.withTransitions ts) ops = (execute engine ops).withTransitions ts ∧
      Call.Alike ts (execute engine ops) := by
  induction ops using List.reverseRecOn with
  | nil => exact ⟨rfl, alike⟩
  | append_singleton ops op ih =>
      obtain ⟨same, alike⟩ := ih fun op member => keeps op (by simp [member])
      have kept := keeps op (by simp)
      rw [execute_append, execute_append, same]
      refine ⟨?_, Operation.sound alike.1 op fun json reload => absurd reload (kept json),
        alike.2.congr ?_ (op.space kept _)⟩
      · cases op with
        | sendEvent signalId event payload =>
            exact congrArg Prod.snd (sendEvent_withTransitions alike signalId event payload)
        | loadState file => exact loadState_withTransitions ts _ file
        | reloadTopology json => exact absurd rfl (kept json)
        | registerAction | setMaxCascadeDepth | environment => rfl
      · cases op with
        | sendEvent signalId event payload =>
            exact (sameTopology_elementary.run _
              (.top (execute engine ops) signalId event payload)).transitions
        | loadState file => exact (loadState_elementary sameTopology_elementary _ file).transitions
        | reloadTopology json => exact absurd rfl (kept json)
        | registerAction | setMaxCascadeDepth | environment => rfl

/-! ## Wildcards and their arms -/

/-- The transition is declared for the event in the given state. -/
def TransitionDef.picked (signalId event current : String) (t : TransitionDef) : Bool :=
  t.signalId = signalId && t.event = event && (t.fromState = current || t.fromState = "*")

/-- An arm differs from its transition in the source state only. -/
theorem mem_arms {signals : List SignalDef} {t arm : TransitionDef}
    (member : arm ∈ arms signals t) : arm.effect = t.effect := by
  rw [arms] at member
  by_cases wildcard : t.fromState = "*"
  · rw [if_pos wildcard] at member
    cases found : signals.find? (·.id = t.signalId) with
    | none =>
        rw [found] at member
        rw [List.mem_singleton.mp member]
    | some sig =>
        rw [found] at member
        obtain ⟨state, _, rfl⟩ := List.mem_map.mp member
        rfl
  · rw [if_neg wildcard] at member
    rw [List.mem_singleton.mp member]

/-- The arms of a wildcard of a declared signal. -/
theorem arms_wildcard {signals : List SignalDef} (distinct : (signals.map (·.id)).Nodup)
    {sig : SignalDef} (declared : sig ∈ signals) {t : TransitionDef} (owner : t.signalId = sig.id)
    (wildcard : t.fromState = "*") :
    arms signals t = sig.states.map fun state => { t with fromState := state } := by
  have found : signals.find? (·.id = t.signalId) = some sig := by
    cases found : signals.find? (·.id = t.signalId) with
    | none =>
        have absent := List.find?_eq_none.mp found sig declared
        simp [owner] at absent
    | some other =>
        have same : other.id = t.signalId := by simpa using List.find?_some found
        rw [eq_of_id distinct (List.mem_of_find?_eq_some found) declared (same.trans owner)]
  rw [arms, if_pos wildcard, found]

theorem find_lowered {signals : List SignalDef} (distinct : (signals.map (·.id)).Nodup)
    {sig : SignalDef} (declared : sig ∈ signals) {state : String} (member : state ∈ sig.states)
    (event : String) (ts : List TransitionDef) :
    ((ts.flatMap (arms signals)).find? (TransitionDef.picked sig.id event state)).map
        TransitionDef.effect =
      (ts.find? (TransitionDef.picked sig.id event state)).map TransitionDef.effect := by
  induction ts with
  | nil => rfl
  | cons t ts ih =>
      rw [List.flatMap_cons, List.find?_append]
      by_cases own : t.signalId = sig.id ∧ t.event = event
      · obtain ⟨owner, named⟩ := own
        by_cases wildcard : t.fromState = "*"
        · -- one of the arms starts in the given state
          have picked : TransitionDef.picked sig.id event state t = true := by
            simp [TransitionDef.picked, owner, named, wildcard]
          have arm : ((arms signals t).find?
              (TransitionDef.picked sig.id event state)).isSome := by
            rw [arms_wildcard distinct declared owner wildcard, List.find?_isSome]
            exact ⟨{ t with fromState := state }, List.mem_map_of_mem member,
              by simp [TransitionDef.picked, owner, named]⟩
          obtain ⟨arm, first⟩ := Option.isSome_iff_exists.mp arm
          rw [first, Option.some_or, List.find?_cons_of_pos picked, Option.map_some,
            Option.map_some, mem_arms (List.mem_of_find?_eq_some first)]
        · rw [arms, if_neg wildcard]
          by_cases picked : TransitionDef.picked sig.id event state t = true
          · rw [List.find?_cons_of_pos picked, List.find?_cons_of_pos picked, Option.some_or]
          · rw [List.find?_cons_of_neg picked, List.find?_cons_of_neg picked]
            exact ih
      · have others : ∀ arm : TransitionDef, arm.effect = t.effect →
            ¬ TransitionDef.picked sig.id event state arm = true := by
          intro arm same picked
          have owner : arm.signalId = t.signalId := (congrArg TransitionDef.signalId same :)
          have named : arm.event = t.event := (congrArg TransitionDef.event same :)
          simp only [TransitionDef.picked, Bool.and_eq_true, decide_eq_true_eq] at picked
          exact own ⟨owner ▸ picked.1.1, named ▸ picked.1.2⟩
        have absent : (arms signals t).find? (TransitionDef.picked sig.id event state) = none :=
          List.find?_eq_none.mpr fun arm inside => others arm (mem_arms inside)
        rw [absent, Option.none_or, List.find?_cons_of_neg (others t rfl)]
        exact ih

theorem TopologySchema.Checked.lowered {schema : TopologySchema} (h : schema.Checked) :
    schema.lowered.Checked := by
  refine ⟨h.distinct, h.initial, fun arm member => ?_⟩
  obtain ⟨t, declared, inside⟩ := List.mem_flatMap.mp member
  obtain ⟨sig, known, owner, source, target⟩ := h.transition t declared
  by_cases wildcard : t.fromState = "*"
  · rw [arms_wildcard h.distinct known owner.symm wildcard] at inside
    obtain ⟨state, listed, rfl⟩ := List.mem_map.mp inside
    exact ⟨sig, known, owner, .inr listed, target⟩
  · rw [arms, if_neg wildcard, List.mem_singleton] at inside
    subst inside
    exact ⟨sig, known, owner, source, target⟩

/-- The engine of the schema without wildcards is the engine of the schema with the
transitions replaced. -/
theorem fromSchema_lowered {schema : TopologySchema} (flat : schema.Flat)
    (valid : validate schema = .ok ()) (world : W) :
    ∃ engine, fromSchema world schema = .ok engine ∧
      fromSchema world schema.lowered =
        .ok (engine.withTransitions schema.lowered.transitions) ∧
      Call.Alike schema.lowered.transitions engine := by
  obtain ⟨checked, ends⟩ := validate_iff.mp valid
  have built := fromSchema_flat flat valid world
  have built' := @fromSchema_flat W schema.lowered flat
    (validate_iff.mpr ⟨checked.lowered, ends⟩) world
  refine ⟨_, built, built', fromSchema_sound built, ?_⟩
  intro id event states state found member
  obtain ⟨signal, known, rfl⟩ := Option.map_eq_some_iff.mp found
  obtain ⟨sig, declared, rfl, rfl⟩ := signalTable_some checked.distinct known
  exact find_lowered checked.distinct declared member event schema.transitions

/-- Engines of a valid flat topology and of the same topology without wildcards, put
through the same operations, hold equal states and equal traces, and return equal
results. -/
theorem lowered_behaves [RustStd] [SerdeJson] {schema : TopologySchema} (flat : schema.Flat)
    (valid : validate schema = .ok ()) (world : W) :
    ∃ engine engine', fromSchema world schema = .ok engine ∧
      fromSchema world schema.lowered = .ok engine' ∧
      ∀ ops : List (Operation W), (∀ op ∈ ops, ∀ json, op ≠ .reloadTopology json) →
        (execute engine' ops).current = (execute engine ops).current ∧
        (execute engine' ops).trace = (execute engine ops).trace ∧
        (execute engine' ops).world = (execute engine ops).world ∧
        ∀ signalId event payload, ((execute engine' ops).sendEvent signalId event payload).1 =
          ((execute engine ops).sendEvent signalId event payload).1 := by
  obtain ⟨engine, built, built', alike⟩ := fromSchema_lowered flat valid world
  refine ⟨engine, _, built, built', fun ops keeps => ?_⟩
  obtain ⟨same, alike⟩ := execute_withTransitions alike keeps
  rw [same]
  refine ⟨rfl, rfl, rfl, fun signalId event payload => ?_⟩
  rw [sendEvent_withTransitions alike signalId event payload]

/-- A valve that is reset from every state; opening it twice is a fault. -/
def valveSchema : TopologySchema where
  version := "1.0"
  signals := [⟨"valve", "shut", ["shut", "open", "fault"]⟩]
  transitions := [
    ⟨"valve", "shut", "turn", "open", {}, none⟩,
    ⟨"valve", "*", "turn", "fault", {}, none⟩,
    ⟨"valve", "*", "reset", "shut", {}, none⟩]

theorem valveSchema_lowered : ∃ engine engine' : TopologyEngine Unit,
    fromSchema () valveSchema = .ok engine ∧ fromSchema () valveSchema.lowered = .ok engine' ∧
    ∀ ops : List (Operation Unit), (∀ op ∈ ops, ∀ json, op ≠ .reloadTopology json) →
      (@execute Unit .ascii renamedSerde engine' ops).current =
        (@execute Unit .ascii renamedSerde engine ops).current ∧
      (@execute Unit .ascii renamedSerde engine' ops).trace =
        (@execute Unit .ascii renamedSerde engine ops).trace ∧
      (@execute Unit .ascii renamedSerde engine' ops).world =
        (@execute Unit .ascii renamedSerde engine ops).world ∧
      ∀ signalId event payload,
        (@sendEvent Unit .ascii renamedSerde
            (@execute Unit .ascii renamedSerde engine' ops) signalId event payload).1 =
          (@sendEvent Unit .ascii renamedSerde
            (@execute Unit .ascii renamedSerde engine ops) signalId event payload).1 :=
  @lowered_behaves Unit .ascii renamedSerde valveSchema rfl (by decide +kernel) ()

end SignalTopology
