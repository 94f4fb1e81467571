import SignalTopology.Engine.Equivalent
import SignalTopology.Engine.Parallel
import SignalTopology.Guard.Reads

/-!
# What of a payload an engine looks at

Apart from the callbacks, only guards look into a payload, and only along their paths. Where
no callback does, as with the handlers of the tools and of the bindings, two payloads with the
same content along the paths of the guards that may be consulted cannot be told apart.
-/

namespace SignalTopology

open Guard Sequencing TopologyEngine

variable {W : Type}

/-- No callback looks at the payload. -/
def PayloadBlind (engine : TopologyEngine W) : Prop :=
  ∀ id f, engine.actions.lookup id = some f →
    ∀ (ctx : ActionContext) payload world, f { ctx with payload } world = f ctx world

theorem PayloadBlind.sameBehaviour {Q : List TraceEvent → List TraceEvent → Prop}
    {s t : TopologyEngine W} (h : PayloadBlind s) (same : SameBehaviour Q s t) :
    PayloadBlind t := by
  intro id f found
  rw [same.actions] at found
  exact h id f found

theorem PayloadBlind.sameTopology {s t : TopologyEngine W} (h : PayloadBlind s)
    (same : SameTopology s t) : PayloadBlind t := by
  intro id f found
  rw [same.actions] at found
  exact h id f found

section

variable {engine : TopologyEngine W} (blind : PayloadBlind engine) (ctx : ActionContext)
  (payload : Option JsonValue)

include blind

theorem runAction_blind (signalId actionId : String) :
    runAction signalId actionId { ctx with payload } engine =
      runAction signalId actionId ctx engine := by
  unfold runAction
  dsimp only
  rw [push_actions]
  cases found : engine.actions.lookup actionId with
  | none => rfl
  | some f =>
      dsimp only
      rw [blind actionId f found]

theorem runActions_blind (ids : List String) :
    runActions { ctx with payload } ids engine = runActions ctx ids engine :=
  runAll_commutes id PayloadBlind (fun actionId _ engine blind =>
    ⟨runAction_blind blind ctx payload ctx.signalId actionId,
      blind.sameTopology (sameTopology_elementary.runAction ctx.signalId actionId ctx engine)⟩)
        blind

theorem runTransition_blind (actions : ActionBinding) :
    runTransition { ctx with payload } actions engine = runTransition ctx actions engine := by
  have exit := runActions_blind blind ctx payload actions.onExit
  obtain ⟨e, u, exits, ran⟩ | ⟨e, u, v, exits, enters, ran⟩ | ⟨u, v, exits, enters, ran⟩ :=
    runTransition_cases ctx actions engine
  · rw [ran, runTransition_exit (exit.trans exits)]
  all_goals
    have entered : SameTopology engine (u.setCurrent ctx.signalId ctx.toState) := by
      have exited := sameTopology_elementary.runActions ctx actions.onExit engine
      rw [exits] at exited
      exact sameTopology_elementary.trans exited (sameTopology_elementary.setCurrent _ _ _)
    have enter := runActions_blind (blind.sameTopology entered) ctx payload
      (actions.onTransition ++ actions.onEnter)
  · rw [ran, runTransition_rollback (exit.trans exits) (enter.trans enters)]
  · rw [ran, runTransition_commit (exit.trans exits) (enter.trans enters)]

end

/-! ## What no guard reads -/

/-- The entry without the payload of the event. -/
def TraceEvent.blinded : TraceEvent → TraceEvent
  | eventReceived signalId event _ => eventReceived signalId event none
  | ev => ev

/-- Logs that differ in the payloads of the events they record, and in nothing else. -/
def SameButPayloads (log log' : List TraceEvent) : Prop :=
  log'.map TraceEvent.blinded = log.map TraceEvent.blinded

theorem sameButPayloads_grows : Grows SameButPayloads := by
  intro log log' ev same
  unfold SameButPayloads at *
  rw [List.map_append, List.map_append, same]

namespace TopologyEngine

/-- The guards that may be consulted when an event is sent: those of its transitions, and those of
the reactions to its signal. -/
def guardsOf (engine : TopologyEngine W) (signalId event : String) : List String :=
  (engine.transitions.filter fun t => t.signalId = signalId && t.event =
    event).filterMap (·.guard) ++
    (engine.reactions.filter fun r => r.fromSignal = signalId).filterMap (·.guard)

end TopologyEngine

section

variable [RustStd] [SerdeJson]

/-- The payloads have the same content along every path that the guards of the event read. -/
structure Unread (engine : TopologyEngine W) (ev ev' : Event) : Prop where
  signalId : ev'.signalId = ev.signalId
  event : ev'.event = ev.event
  payload : ∀ guard ∈ engine.guardsOf ev.signalId ev.event, ∀ path ∈ guardReads guard,
    readPayload ev'.payload path = readPayload ev.payload path

variable {s t u : TopologyEngine W} {signalId event : String} {p q : Option JsonValue}

/-- The engines agree apart from payloads in their logs, and no callback looks at one. -/
def Blinded (s t : TopologyEngine W) : Prop :=
  SameBehaviour SameButPayloads s t ∧ PayloadBlind t

/-- The transition is guarded alike for both payloads, and its actions do not look at them. -/
theorem attempt_blinded (blind : PayloadBlind s) (related : SameBehaviour SameButPayloads s t)
    (unread : Unread s ⟨signalId, event, p⟩ ⟨signalId, event, q⟩) :
    Agree (SameBehaviour SameButPayloads) (s.attemptTransition signalId event p)
      (t.attemptTransition signalId event q) := by
  have mirrors : Mirrors Set.univ (SameBehaviour (W := W) SameButPayloads) :=
    SameBehaviour.mirrors sameButPayloads_grows
  have received : SameBehaviour SameButPayloads (s.receive signalId event p)
      (t.receive signalId event q) := by
    refine ⟨related.signals, related.transitions, related.reactions, related.actions,
      related.maxCascadeDepth, related.world, ?_⟩
    have logs := related.trace
    unfold SameButPayloads at *
    simp only [receive, push_trace, List.map_append, logs]
    rfl
  unfold attemptTransition
  dsimp only
  rw [received.signals]
  cases (s.receive signalId event p).signals.lookup signalId with
  | none => exact ⟨rfl, received⟩
  | some signal =>
      dsimp only
      rw [mirrors.findTransition received signalId (Set.mem_univ _)]
      cases found : (s.receive signalId event p).findTransition signalId event signal.current with
      | none => exact ⟨rfl, received⟩
      | some transition =>
          dsimp only
          have picked := List.find?_some found
          simp only [Bool.and_eq_true, decide_eq_true_eq] at picked
          have checked : checkGuard transition
              ⟨signalId, signal.current, transition.toState, event, q, none⟩ = checkGuard transition
              ⟨signalId, signal.current, transition.toState, event, p, none⟩ := by
            unfold checkGuard
            cases guarded : transition.guard with
            | none => rfl
            | some guard =>
                have consulted : guard ∈ s.guardsOf signalId event :=
                  List.mem_append_left _ (List.mem_filterMap.mpr ⟨transition,
                    List.mem_filter.mpr ⟨List.mem_of_find?_eq_some found, by simp [picked.1]⟩,
                    guarded⟩)
                have outcome : evalGuard guard
                    ⟨signalId, signal.current, transition.toState, event, q, none⟩ = evalGuard guard
                    ⟨signalId, signal.current, transition.toState, event, p, none⟩ :=
                  evalGuard_reads (unread.payload guard consulted)
                dsimp only
                rw [outcome]
          rw [checked]
          cases checkGuard transition
              ⟨signalId, signal.current, transition.toState, event, p, none⟩ with
          | error e => exact ⟨rfl, received⟩
          | ok =>
              have ran : ∀ ctx : ActionContext, Agree (SameBehaviour SameButPayloads)
                  (runTransition ctx transition.actions (s.receive signalId event p))
                  (runTransition ctx transition.actions (t.receive signalId event q)) :=
                fun ctx => mirrors.runTransition (Set.mem_univ ctx.signalId) transition.actions
                  received
              have unmoved : PayloadBlind (s.receive signalId event p) := blind
              have blinded := runTransition_blind (unmoved.sameBehaviour received) ⟨signalId,
                signal.current, transition.toState, event, p, none⟩ q transition.actions
              dsimp only at blinded ⊢
              rw [blinded]
              exact ran _

/-- The guard of a reaction has the same outcome. -/
theorem gate_blinded {reaction : ReactionDef} (related : SameBehaviour SameButPayloads s t)
    (same : ∀ guard, reaction.guard = some guard → ∀ path ∈ guardReads guard,
      readPayload q path = readPayload p path) (transitionSignal : String) :
    Agree (SameBehaviour SameButPayloads) (gate reaction p transitionSignal s)
      (gate reaction q transitionSignal t) := by
  unfold TopologyEngine.gate
  cases guarded : reaction.guard with
  | none => exact ⟨rfl, related⟩
  | some guard =>
      dsimp only
      rw [show t.currentOrDefault reaction.toSignal = s.currentOrDefault reaction.toSignal from
        congrArg (·.getD "") (related.current reaction.toSignal)]
      have outcome : evalGuard guard ⟨reaction.toSignal, reaction.fromState,
          s.currentOrDefault reaction.toSignal, reaction.event, q, none⟩ = evalGuard guard
          ⟨reaction.toSignal, reaction.fromState, s.currentOrDefault reaction.toSignal,
            reaction.event, p, none⟩ :=
        evalGuard_reads (same guard guarded)
      rw [outcome]
      exact ⟨rfl, related.push sameButPayloads_grows _⟩

omit [RustStd] [SerdeJson] in
/-- The hook of a reaction does not look at the payload. -/
theorem compensate_blinded (blind : PayloadBlind t) {reaction : ReactionDef}
    (related : SameBehaviour SameButPayloads s t) (transitionSignal : String) (e : EngineError) :
    SameBehaviour SameButPayloads (compensate reaction p transitionSignal e s)
      (compensate reaction q transitionSignal e t) := by
  have mirrors : Mirrors Set.univ (SameBehaviour (W := W) SameButPayloads) :=
    SameBehaviour.mirrors sameButPayloads_grows
  have hook : compensate reaction q transitionSignal e t =
      compensate reaction p transitionSignal e t := by
    unfold TopologyEngine.compensate
    cases reaction.onFail with
    | none => rfl
    | some actionId =>
        have ran : runAction reaction.toSignal actionId (hookContext reaction q e t) t =
            runAction reaction.toSignal actionId (hookContext reaction p e t) t :=
          runAction_blind blind (hookContext reaction p e t) q reaction.toSignal actionId
        dsimp only
        rw [ran]
  rw [hook]
  exact mirrors.compensate (Set.mem_univ _) p (Set.mem_univ _) e related

/-- An event with a payload that looks the same to all guards goes alike. -/
theorem Unread.send {ev ev' : Event} (unread : Unread s ev ev') (related : Blinded s t) :
    Agree Blinded (ev.send s) (ev'.send t) := by
  obtain ⟨signalId, event, p⟩ := ev
  obtain ⟨signalId', event', q⟩ := ev'
  obtain rfl : signalId' = signalId := unread.signalId
  obtain rfl : event' = event := unread.event
  obtain ⟨same, blind⟩ := related
  have mirrors : Mirrors Set.univ (SameBehaviour (W := W) SameButPayloads) :=
    SameBehaviour.mirrors sameButPayloads_grows
  have before : PayloadBlind s := fun id f found => blind id f (by rw [same.actions, found])
  have attempted := attempt_blinded before same unread
  have kept := sameTopology_elementary.attemptTransition s signalId' event' p
  unfold Event.send
  rw [Call.sendEvent_eq, Call.sendEvent_eq, same.maxCascadeDepth]
  refine Call.run_alike ⟨same, blind⟩ Iff.rfl ⟨attempted.1, attempted.2, blind.sameTopology
      (sameTopology_elementary.attemptTransition t signalId' event' q)⟩
        (fun result u u' after => ?_)
    (fun within result u committed reaction fired v v' between => ?_)
  · exact congrArg (order ReactionDef.joinGroup ReactionDef.requires)
      (mirrors.matchingReactions after.1 signalId' (Set.mem_univ _) result.toState)
  · have committed : s.attemptTransition signalId' event' p = (.ok result, u) := committed
    rw [committed] at kept
    obtain ⟨declared, source⟩ := Call.mem_agenda fired
    rw [kept.reactions] at declared
    have unseen : ∀ guard, reaction.guard = some guard → ∀ path ∈ guardReads guard,
        readPayload q path = readPayload p path := by
      intro guard guarded
      exact unread.payload guard (List.mem_append_right _ (List.mem_filterMap.mpr ⟨reaction,
        List.mem_filter.mpr ⟨declared, decide_eq_true source⟩, guarded⟩))
    refine Call.fire_alike ?_ (fun w w' after => ?_) (fun e w w' after => ?_)
    · obtain ⟨passed, after⟩ := gate_blinded between.1 unseen signalId'
      exact ⟨passed, after, between.2.sameTopology
        (sameTopology_elementary.gate reaction q signalId' v')⟩
    · -- what a reaction delivers is its own payload
      obtain ⟨outcome, done⟩ := Call.run_mirrors mirrors s.maxCascadeDepth
        ((Call.top s signalId' event' p).deliver reaction w) (Set.mem_univ _) after.1
      exact ⟨outcome, done, after.2.sameTopology (sameTopology_elementary.run s.maxCascadeDepth
        ((Call.top t signalId' event' q).deliver reaction w'))⟩
    · exact ⟨compensate_blinded after.2 after.1 signalId' e, after.2.sameTopology
        (sameTopology_elementary.compensate reaction q signalId' e w')⟩

/-- Only what the guards read of a payload counts. Where no callback looks at payloads, two
sequences of events that differ in the rest of their payloads get the same results, leave every
signal in the same state, and record the same but for the payloads of the events. -/
theorem session_unread {engine : TopologyEngine W} (blind : PayloadBlind engine)
    {events events' : List Event} (pairs : List.Forall₂ (Unread engine) events events') :
    Agree (SameBehaviour SameButPayloads) (session Event.send events engine)
      (session Event.send events' engine) := by
  have start : Blinded engine engine ∧ SameTopology engine engine :=
    ⟨⟨⟨fun _ => rfl, rfl, rfl, fun _ => rfl, rfl, rfl, rfl⟩, blind⟩,
      sameTopology_elementary.refl engine⟩
  obtain ⟨answers, after⟩ := session_pairs
    (R := fun s t => Blinded s t ∧ SameTopology engine s) pairs
    (fun ev ev' unread s t related => by
      obtain ⟨related, topology⟩ := related
      have unread : Unread s ev ev' := by
        refine ⟨unread.signalId, unread.event, ?_⟩
        unfold guardsOf
        rw [topology.transitions, topology.reactions]
        exact unread.payload
      obtain ⟨answer, after⟩ := unread.send related
      exact ⟨answer, after, sameTopology_elementary.trans topology
        (sameTopology_elementary.run s.maxCascadeDepth
          (.top s ev.signalId ev.event ev.payload))⟩) start
  exact ⟨answers, after.1.1⟩

end

/-- A lock that is opened by a payload that says so. -/
def lockEngine : TopologyEngine Unit where
  signals := signalTable (·.initialState) [⟨"lock", "shut", ["shut", "open"]⟩]
  transitions := [{ signalId := "lock", fromState := "shut", event := "turn", toState := "open"
                    guard := some "payload.key" }]
  reactions := []
  actions := ∅
  trace := []
  maxCascadeDepth := 8
  world := ()

def turnedBy (who : String) : Event :=
  ⟨"lock", "turn", some (.object [("key", .bool true), ("who", .string who)])⟩

/-- The lock does not look at who turns the key. -/
theorem lockEngine_unread :
    (session (@Event.send Unit .ascii .keywords) [turnedBy "a"] lockEngine).1 =
      (session (@Event.send Unit .ascii .keywords) [turnedBy "b"] lockEngine).1 := by
  let _ : RustStd := .ascii
  let _ : SerdeJson := .keywords
  have unread : Unread lockEngine (turnedBy "a") (turnedBy "b") := by
    refine ⟨rfl, rfl, fun guard consulted path member => ?_⟩
    obtain rfl : guard = "payload.key" := by
      simpa [guardsOf, lockEngine, turnedBy] using consulted
    have reads : guardReads "payload.key" = [["key"]] := by decide +kernel
    rw [reads] at member
    obtain rfl := List.mem_singleton.mp member
    rfl
  have blind : PayloadBlind lockEngine := fun id f found => absurd found (by simp [lockEngine])
  exact (session_unread blind (.cons unread .nil)).1

end SignalTopology
