import SignalTopology.Engine.Dispatch
import SignalTopology.Engine.Transition

/-!
# Cascades

A committed transition fires its matching reactions, and each of them sends an
event one level deeper. `sendEventInternal` recurses through these levels; the
limit on the depth bounds the recursion. `Call` bundles the arguments of one
`send_event_internal` with the engine it starts on, so that the calls nested
below it can be spoken of.
-/

namespace SignalTopology

open Sequencing

namespace TopologyEngine

variable {W : Type}

/-- The reactions to a signal that enters a state, in declaration order. -/
def matchingReactions (engine : TopologyEngine W) (signalId state : String) : List ReactionDef :=
  engine.reactions.filter fun r =>
    r.fromSignal = signalId && (r.fromState = state || r.fromState = "*")

/-- `unwrap_or_default` of a current state. -/
def currentOrDefault (engine : TopologyEngine W) (signalId : String) : String :=
  (engine.current signalId).getD ""

/-- The `result` text of `ReactionGuardEvaluated`. -/
def guardResult : Except String Bool → String
  | .ok true => "true"
  | .ok false => "false"
  | .error msg => "error: " ++ msg

/-- The event that records a compensation. -/
def compensated (reaction : ReactionDef) (transitionSignal actionId : String) (e : EngineError) :
    TraceEvent :=
  .reactionCompensated transitionSignal reaction.fromSignal reaction.fromState reaction.toSignal
    reaction.event actionId e.toString

/-- What a compensation hook is told. -/
def hookContext (reaction : ReactionDef) (parentPayload : Option JsonValue) (e : EngineError)
    (engine : TopologyEngine W) : ActionContext where
  signalId := reaction.toSignal
  fromState := reaction.fromState
  toState := engine.currentOrDefault reaction.toSignal
  event := reaction.event
  payload := parentPayload
  failure := some e.toString

/-- The compensation hook of a reaction whose cascade failed with `e`. The
outcome of the hook is ignored. -/
def compensate (reaction : ReactionDef) (parentPayload : Option JsonValue)
    (transitionSignal : String) (e : EngineError) (engine : TopologyEngine W) :
    TopologyEngine W :=
  match reaction.onFail with
  | none => engine
  | some actionId =>
      (runAction reaction.toSignal actionId (hookContext reaction parentPayload e engine)
        engine).2.push (compensated reaction transitionSignal actionId e)

theorem compensate_cases (reaction : ReactionDef) (parentPayload : Option JsonValue)
    (transitionSignal : String) (e : EngineError) (engine : TopologyEngine W) :
    (reaction.onFail = none ∧
      compensate reaction parentPayload transitionSignal e engine = engine) ∨
    ∃ actionId ctx, reaction.onFail = some actionId ∧
      ctx = hookContext reaction parentPayload e engine ∧
      compensate reaction parentPayload transitionSignal e engine =
        (runAction reaction.toSignal actionId ctx engine).2.push
          (compensated reaction transitionSignal actionId e) := by
  unfold compensate
  cases reaction.onFail with
  | none => exact .inl ⟨rfl, rfl⟩
  | some actionId => exact .inr ⟨actionId, _, rfl, rfl, rfl⟩

variable [RustStd] [SerdeJson]

/-- The guard of a reaction against the payload of the event it reacts to.
False and failing guards both skip the reaction. -/
def gate (reaction : ReactionDef) (parentPayload : Option JsonValue) (transitionSignal : String)
    (engine : TopologyEngine W) : Bool × TopologyEngine W :=
  match reaction.guard with
  | none => (true, engine)
  | some guard =>
      let ctx : ActionContext := {
        signalId := reaction.toSignal
        fromState := reaction.fromState
        toState := engine.currentOrDefault reaction.toSignal
        event := reaction.event
        payload := parentPayload
        failure := none }
      let result := Guard.evalGuard guard ctx
      let passed := match result with
        | .ok passed => passed
        | .error _ => false
      (passed, engine.push
        (.reactionGuardEvaluated transitionSignal reaction.fromSignal reaction.fromState
          reaction.toSignal reaction.event guard (guardResult result)))

theorem gate_cases (reaction : ReactionDef) (parentPayload : Option JsonValue)
    (transitionSignal : String) (engine : TopologyEngine W) :
    (reaction.guard = none ∧
      gate reaction parentPayload transitionSignal engine = (true, engine)) ∨
    ∃ guard passed result, reaction.guard = some guard ∧
      gate reaction parentPayload transitionSignal engine = (passed, engine.push
        (.reactionGuardEvaluated transitionSignal reaction.fromSignal reaction.fromState
          reaction.toSignal reaction.event guard result)) := by
  unfold gate
  cases reaction.guard with
  | none => exact .inl ⟨rfl, rfl⟩
  | some guard => exact .inr ⟨guard, _, _, rfl, rfl⟩

/-- `fire_one_reaction`, given the `send_event_internal` of the next level. -/
def fireOneReaction
    (send : ReactionDef → TopologyEngine W → Except EngineError TransitionResult × TopologyEngine W)
    (parentPayload : Option JsonValue) (transitionSignal : String) (reaction : ReactionDef)
    (engine : TopologyEngine W) : Except EngineError Unit × TopologyEngine W :=
  match gate reaction parentPayload transitionSignal engine with
  | (false, engine) => (.ok (), engine)
  | (true, engine) =>
      match send reaction engine with
      | (.ok _, engine) => (.ok (), engine)
      | (.error e, engine) =>
          (.error e, compensate reaction parentPayload transitionSignal e engine)

/-- `send_event_internal`. `limit` is the `max_cascade_depth` of the engine,
which no step of a call changes. -/
def sendEventInternal (limit : Nat) (signalId event : String)
    (payload parentPayload : Option JsonValue) (depth : Nat) (engine : TopologyEngine W) :
    Except EngineError TransitionResult × TopologyEngine W :=
  if _h : limit < depth then (.error .cascadeDepthExceeded, engine)
  else
    match engine.attemptTransition signalId event payload with
    | (.error e, engine) => (.error e, engine)
    | (.ok result, engine) =>
        let send reaction engine := sendEventInternal limit reaction.toSignal reaction.event
          reaction.payload reaction.payload (depth + 1) engine
        match dispatch ReactionDef.joinGroup ReactionDef.requires
            (fireOneReaction send parentPayload signalId)
            (engine.matchingReactions signalId result.toState) engine with
        | (.error e, engine) => (.error e, engine)
        | (.ok (), engine) => (.ok result, engine)
termination_by limit + 1 - depth

/-- `send_event`: the event is its own parent. -/
def sendEvent (engine : TopologyEngine W) (signalId event : String) (payload : Option JsonValue) :
    Except EngineError TransitionResult × TopologyEngine W :=
  sendEventInternal engine.maxCascadeDepth signalId event payload payload 0 engine

/-- `dispatch_reactions` of a call at `depth`. -/
def dispatchReactions (limit : Nat) (matched : List ReactionDef)
    (parentPayload : Option JsonValue) (depth : Nat) (transitionSignal : String)
    (engine : TopologyEngine W) : Except EngineError Unit × TopologyEngine W :=
  dispatch ReactionDef.joinGroup ReactionDef.requires
    (fireOneReaction
      (fun reaction => sendEventInternal limit reaction.toSignal reaction.event reaction.payload
        reaction.payload (depth + 1)) parentPayload transitionSignal) matched engine

end TopologyEngine

/-- The arguments of one `send_event_internal`. -/
structure Call (W : Type) where
  signalId : String
  event : String
  payload : Option JsonValue
  parentPayload : Option JsonValue
  depth : Nat
  engine : TopologyEngine W

namespace Call

variable {W : Type}

/-- The call that `send_event` makes. -/
def top (engine : TopologyEngine W) (signalId event : String) (payload : Option JsonValue) :
    Call W :=
  { signalId, event, payload, parentPayload := payload, depth := 0, engine }

/-- The call by which a reaction delivers its event, one level deeper. -/
def deliver (c : Call W) (reaction : ReactionDef) (engine : TopologyEngine W) : Call W where
  signalId := reaction.toSignal
  event := reaction.event
  payload := reaction.payload
  parentPayload := reaction.payload
  depth := c.depth + 1
  engine := engine

@[simp] theorem deliver_depth (c : Call W) (reaction : ReactionDef) (engine : TopologyEngine W) :
    (c.deliver reaction engine).depth = c.depth + 1 := rfl

@[simp] theorem deliver_engine (c : Call W) (reaction : ReactionDef) (engine : TopologyEngine W) :
    (c.deliver reaction engine).engine = engine := rfl

/-- Calls are nested at most one level below the limit, so a property that
passes from the deliveries of a call to the call holds of every call. -/
theorem nested_induction {P : Call W → Prop} (limit : Nat)
    (step : ∀ c : Call W, (c.depth ≤ limit → ∀ reaction engine, P (c.deliver reaction engine)) →
      P c) (c : Call W) : P c := by
  induction remaining : limit + 1 - c.depth generalizing c with
  | zero =>
      refine step c fun within => ?_
      omega
  | succ n ih =>
      refine step c fun within reaction engine => ih _ ?_
      rw [deliver_depth]
      omega

/-- The reactions a commit of the call fires, in the order of the dispatch. -/
def agenda (c : Call W) (result : TransitionResult) (engine : TopologyEngine W) :
    List ReactionDef :=
  order ReactionDef.joinGroup ReactionDef.requires
    (engine.matchingReactions c.signalId result.toState)

variable [RustStd] [SerdeJson]

/-- The transition the call attempts. -/
def attempt (c : Call W) : Except EngineError TransitionResult × TopologyEngine W :=
  c.engine.attemptTransition c.signalId c.event c.payload

def run (limit : Nat) (c : Call W) : Except EngineError TransitionResult × TopologyEngine W :=
  TopologyEngine.sendEventInternal limit c.signalId c.event c.payload c.parentPayload c.depth
    c.engine

/-- The guard of a reaction to the call. -/
def gate (c : Call W) (reaction : ReactionDef) (engine : TopologyEngine W) :
    Bool × TopologyEngine W :=
  TopologyEngine.gate reaction c.parentPayload c.signalId engine

/-- The hook of a reaction to the call. -/
def compensate (c : Call W) (reaction : ReactionDef) (e : EngineError)
    (engine : TopologyEngine W) : TopologyEngine W :=
  TopologyEngine.compensate reaction c.parentPayload c.signalId e engine

/-- One reaction of the call: `fire_one_reaction` with the nested call. -/
def fire (limit : Nat) (c : Call W) (reaction : ReactionDef) (engine : TopologyEngine W) :
    Except EngineError Unit × TopologyEngine W :=
  TopologyEngine.fireOneReaction (fun reaction engine => (c.deliver reaction engine).run limit)
    c.parentPayload c.signalId reaction engine

theorem sendEvent_eq (engine : TopologyEngine W) (signalId event : String)
    (payload : Option JsonValue) :
    engine.sendEvent signalId event payload =
      (top engine signalId event payload).run engine.maxCascadeDepth := rfl

section

variable (limit : Nat) (c : Call W)

section

variable {limit c} {reaction : ReactionDef} {engine u v : TopologyEngine W}

theorem fire_skipped (gated : c.gate reaction engine = (false, u)) :
    c.fire limit reaction engine = (.ok (), u) := by
  rw [gate] at gated
  simp only [fire, TopologyEngine.fireOneReaction, gated]

theorem fire_delivered (gated : c.gate reaction engine = (true, u)) {result : TransitionResult}
    (ran : (c.deliver reaction u).run limit = (.ok result, v)) :
    c.fire limit reaction engine = (.ok (), v) := by
  rw [gate] at gated
  simp only [fire, TopologyEngine.fireOneReaction, gated, ran]

theorem fire_failed (gated : c.gate reaction engine = (true, u)) {e : EngineError}
    (ran : (c.deliver reaction u).run limit = (.error e, v)) :
    c.fire limit reaction engine = (.error e, c.compensate reaction e v) := by
  rw [gate] at gated
  simp only [fire, TopologyEngine.fireOneReaction, gated, ran]
  rfl

end

/-- A skipped reaction only records its guard; a fired one runs the nested call
and compensates its failure. -/
theorem fire_cases (reaction : ReactionDef) (engine : TopologyEngine W) :
    (∃ u, c.gate reaction engine = (false, u) ∧ c.fire limit reaction engine = (.ok (), u)) ∨
    (∃ u result v, c.gate reaction engine = (true, u) ∧
      (c.deliver reaction u).run limit = (.ok result, v) ∧
      c.fire limit reaction engine = (.ok (), v)) ∨
    (∃ u e v, c.gate reaction engine = (true, u) ∧
      (c.deliver reaction u).run limit = (.error e, v) ∧
      c.fire limit reaction engine = (.error e, c.compensate reaction e v)) := by
  rcases gated : c.gate reaction engine with ⟨_ | _, u⟩
  · exact .inl ⟨u, rfl, fire_skipped gated⟩
  · rcases ran : (c.deliver reaction u).run limit with ⟨e | result, v⟩
    · exact .inr (.inr ⟨u, e, v, rfl, ran, fire_failed gated ran⟩)
    · exact .inr (.inl ⟨u, result, v, rfl, ran, fire_delivered gated ran⟩)

theorem run_deep (deep : limit < c.depth) :
    c.run limit = (.error .cascadeDepthExceeded, c.engine) := by
  rw [run, TopologyEngine.sendEventInternal, dif_pos deep]

theorem run_rejected (within : c.depth ≤ limit) {e : EngineError} {u : TopologyEngine W}
    (attempted : c.attempt = (.error e, u)) : c.run limit = (.error e, u) := by
  rw [attempt] at attempted
  rw [run, TopologyEngine.sendEventInternal, dif_neg (Nat.not_lt.mpr within), attempted]

theorem run_committed (within : c.depth ≤ limit) {result : TransitionResult}
    {u : TopologyEngine W} (attempted : c.attempt = (.ok result, u)) :
    c.run limit = match runAll (c.fire limit) (c.agenda result u) u with
      | (.error e, v) => (.error e, v)
      | (.ok (), v) => (.ok result, v) := by
  rw [attempt] at attempted
  rw [run, TopologyEngine.sendEventInternal, dif_neg (Nat.not_lt.mpr within), attempted]
  simp only [dispatch_eq]
  rfl

/-- The four ways a call can go. -/
theorem run_cases :
    (limit < c.depth ∧ c.run limit = (.error .cascadeDepthExceeded, c.engine)) ∨
    (c.depth ≤ limit ∧ ∃ e u, c.attempt = (.error e, u) ∧ c.run limit = (.error e, u)) ∨
    (c.depth ≤ limit ∧ ∃ result u v, c.attempt = (.ok result, u) ∧
      runAll (c.fire limit) (c.agenda result u) u = (.ok (), v) ∧
      c.run limit = (.ok result, v)) ∨
    (c.depth ≤ limit ∧ ∃ result u e v, c.attempt = (.ok result, u) ∧
      runAll (c.fire limit) (c.agenda result u) u = (.error e, v) ∧
      c.run limit = (.error e, v)) := by
  rcases Nat.lt_or_ge limit c.depth with deep | within
  · exact .inl ⟨deep, c.run_deep limit deep⟩
  · rcases attempted : c.attempt with ⟨e | result, u⟩
    · exact .inr (.inl ⟨within, e, u, rfl, c.run_rejected limit within attempted⟩)
    · have committed := c.run_committed limit within attempted
      rcases fired : runAll (c.fire limit) (c.agenda result u) u with ⟨e | _, v⟩
      · rw [fired] at committed
        exact .inr (.inr (.inr ⟨within, result, u, e, v, rfl, fired, committed⟩))
      · rw [fired] at committed
        exact .inr (.inr (.inl ⟨within, result, u, v, rfl, fired, committed⟩))

end

/-- A relation between engines that composes and holds across every attempt,
every guard of a reaction and every hook holds across every call. -/
theorem run_rel {R : TopologyEngine W → TopologyEngine W → Prop} (refl : ∀ s, R s s)
    (trans : ∀ {s t u}, R s t → R t u → R s u)
    (attempt : ∀ c : Call W, R c.engine c.attempt.2)
    (gate : ∀ (c : Call W) reaction engine, R engine (c.gate reaction engine).2)
    (compensate : ∀ (c : Call W) reaction e engine, R engine (c.compensate reaction e engine))
    (limit : Nat) (c : Call W) : R c.engine (c.run limit).2 := by
  induction c using nested_induction limit with
  | step c nested =>
      have fires : c.depth ≤ limit → ∀ reaction engine,
          R engine (c.fire limit reaction engine).2 := by
        intro within reaction engine
        have gated := gate c reaction engine
        obtain ⟨u, passed, fired⟩ | ⟨u, result, v, passed, ran, fired⟩ |
          ⟨u, e, v, passed, ran, fired⟩ := c.fire_cases limit reaction engine
        · rwa [fired, ← show (c.gate reaction engine).2 = u by rw [passed]]
        · rw [passed] at gated
          have delivered := nested within reaction u
          rw [ran] at delivered
          rw [fired]
          exact trans gated delivered
        · rw [passed] at gated
          have delivered := nested within reaction u
          rw [ran] at delivered
          rw [fired]
          exact trans gated (trans delivered (compensate c reaction e v))
      have attempted := attempt c
      obtain ⟨_, ran⟩ | ⟨_, e, u, rejected, ran⟩ | ⟨within, result, u, v, committed, all, ran⟩ |
        ⟨within, result, u, e, v, committed, all, ran⟩ := c.run_cases limit
      · rw [ran]
        exact refl c.engine
      · rwa [ran, ← show c.attempt.2 = u by rw [rejected]]
      · rw [committed] at attempted
        have dispatched : R u (runAll (c.fire limit) (c.agenda result u) u).2 :=
          runAll_rel refl trans (fun reaction _ engine => fires within reaction engine) u
        rw [all] at dispatched
        rw [ran]
        exact trans attempted dispatched
      · rw [committed] at attempted
        have dispatched : R u (runAll (c.fire limit) (c.agenda result u) u).2 :=
          runAll_rel refl trans (fun reaction _ engine => fires within reaction engine) u
        rw [all] at dispatched
        rw [ran]
        exact trans attempted dispatched

end Call

end SignalTopology
