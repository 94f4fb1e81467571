import SignalTopology.Export.Dot
import SignalTopology.Engine.Payloads
import SignalTopology.Engine.Snapshots

/-!
# The diagram of a running engine

`snapshot_dot_extended` colors each reaction by a guard result it looks up in the trace.
The lookup goes by the ends and the event of the reaction, so it finds the last evaluation
of any reaction that shares them.
-/

namespace SignalTopology

open Sequencing TopologyEngine Export

variable {W : Type}

/-! ## The source's definitions -/

/-- One event of the loop of `guard_info_from_traces`. -/
def recordGuard (guardInfo : GuardInfo) : TraceEvent → GuardInfo
  | .reactionGuardEvaluated _ fromSignal fromState toSignal event _ result =>
      guardInfo.insert (fromSignal, fromState, toSignal, event) result
  | _ => guardInfo

def guardInfoFromTraces (traces : List TraceEvent) : GuardInfo := traces.foldl recordGuard ∅

namespace TopologyEngine

variable (engine : TopologyEngine W)

/-- The state each signal is in. -/
def currentStates : HashMap String :=
  engine.signals.foldl (fun states id signal => states.insert id signal.current) ∅

/-- The schema that a snapshot draws. -/
def snapshotSchema : TopologySchema where
  version := "snapshot"
  signals := engine.signals.entries.map fun entry => ⟨entry.1, entry.2.initialState, entry.2.states⟩
  transitions := engine.transitions
  reactions := engine.reactions

def snapshotDot : String := toDotWithState engine.snapshotSchema engine.currentStates

def snapshotDotExtended : String :=
  toDotExtended engine.snapshotSchema engine.currentStates (guardInfoFromTraces engine.trace)

/-- The edge that `snapshot_dot_extended` draws for a reaction. -/
def drawnEdge (reaction : ReactionDef) : Option Line :=
  reactionLine engine.snapshotSchema engine.currentStates
    (guardInfoFromTraces engine.trace) reaction

theorem snapshotDotExtended_eq : engine.snapshotDotExtended =
    render (skeleton engine.snapshotSchema engine.currentStates ++
      (engine.reactions.filterMap engine.drawnEdge ++ [.footer])) := rfl

end TopologyEngine

/-! ## The last record of a key -/

/-- The key and the result that an event records. -/
def TraceEvent.guardRecord : TraceEvent → Option (ReactionKey × String)
  | .reactionGuardEvaluated _ fromSignal fromState toSignal event _ result =>
      some ((fromSignal, fromState, toSignal, event), result)
  | _ => none

/-- The log holds a result for the key at a position. -/
def RecordedAt (log : List TraceEvent) (key : ReactionKey) (k : Nat) (result : String) : Prop :=
  log[k]?.bind TraceEvent.guardRecord = some (key, result)

theorem RecordedAt.bound {log : List TraceEvent} {key : ReactionKey} {k : Nat} {result : String}
    (h : RecordedAt log key k result) : k < log.length := by
  obtain ⟨ev, entry, _⟩ := Option.bind_eq_some_iff.mp h
  exact (List.getElem?_eq_some_iff.mp entry).1

theorem recordedAt_append {log log' : List TraceEvent} {key : ReactionKey} {k : Nat}
    {result : String} (inside : k < log.length) :
    RecordedAt (log ++ log') key k result ↔ RecordedAt log key k result := by
  rw [RecordedAt, RecordedAt, List.getElem?_append_left inside]

/-- The last record of a key decides. -/
theorem guardInfo_cases (log : List TraceEvent) (key : ReactionKey) :
    ((guardInfoFromTraces log).lookup key = none ∧ ∀ k result, ¬ RecordedAt log key k result) ∨
    ∃ k result, (guardInfoFromTraces log).lookup key = some result ∧ RecordedAt log key k result ∧
      ∀ k' result', RecordedAt log key k' result' → k' ≤ k := by
  induction log using List.reverseRecOn with
  | nil => exact .inl ⟨rfl, fun k result h => absurd h.bound (Nat.not_lt_zero k)⟩
  | append_singleton log ev ih =>
      have folded : guardInfoFromTraces (log ++ [ev]) =
          recordGuard (guardInfoFromTraces log) ev := by
        simp [guardInfoFromTraces]
      have last : (log ++ [ev])[log.length]? = some ev := by simp
      have split : ∀ {k result}, RecordedAt (log ++ [ev]) key k result →
          RecordedAt log key k result ∨ k = log.length ∧ ev.guardRecord = some (key, result) := by
        intro k result recorded
        have bound := recorded.bound
        rw [List.length_append, List.length_singleton] at bound
        rcases Nat.lt_or_ge k log.length with earlier | final
        · exact .inl ((recordedAt_append earlier).mp recorded)
        · obtain rfl : k = log.length := by omega
          rw [RecordedAt, last] at recorded
          exact .inr ⟨rfl, recorded⟩
      by_cases own : ∃ result, ev.guardRecord = some (key, result)
      · obtain ⟨result, record⟩ := own
        refine .inr ⟨log.length, result, ?_, by rw [RecordedAt, last]; exact record, ?_⟩
        · cases ev with
          | reactionGuardEvaluated =>
              cases record
              rw [folded, recordGuard, AList.lookup_insert]
          | _ => cases record
        · intro k' result' recorded
          have bound := recorded.bound
          rw [List.length_append, List.length_singleton] at bound
          omega
      · have kept : (guardInfoFromTraces (log ++ [ev])).lookup key =
            (guardInfoFromTraces log).lookup key := by
          rw [folded]
          cases ev with
          | reactionGuardEvaluated _ fromSignal fromState toSignal event _ result =>
              refine AList.lookup_insert_ne fun same => own ⟨result, ?_⟩
              rw [same]
              rfl
          | _ => rfl
        have before : ∀ {k result}, RecordedAt (log ++ [ev]) key k result →
            RecordedAt log key k result := fun recorded =>
          (split recorded).resolve_right fun final => own ⟨_, final.2⟩
        rw [kept]
        obtain ⟨missing, none_⟩ | ⟨k, result, found, recorded, latest⟩ := ih
        · exact .inl ⟨missing, fun k result recorded => none_ k result (before recorded)⟩
        · exact .inr ⟨k, result, found, (recordedAt_append recorded.bound).mpr recorded,
            fun k' result' recorded' => latest k' result' (before recorded')⟩

/-! ## Evaluations -/

section

variable [RustStd] [SerdeJson]

namespace Call

/-- The agenda of a call, each reaction with its place in the topology. -/
def agendaPlaces (c : Call W) (result : TransitionResult) (engine : TopologyEngine W) :
    List (ReactionDef × Nat) :=
  order (fun entry => entry.1.joinGroup) (fun entry => entry.1.requires)
    (engine.reactions.zipIdx.filter fun entry =>
      entry.1.fromSignal = c.signalId &&
        (entry.1.fromState = result.toState || entry.1.fromState = "*"))

omit [RustStd] [SerdeJson] in
theorem agendaPlaces_map (c : Call W) (result : TransitionResult) (engine : TopologyEngine W) :
    (c.agendaPlaces result engine).map Prod.fst = c.agenda result engine := by
  have matched : engine.matchingReactions c.signalId result.toState =
      (engine.reactions.zipIdx.filter fun entry => entry.1.fromSignal = c.signalId &&
        (entry.1.fromState = result.toState || entry.1.fromState = "*")).map Prod.fst := by
    have whole : engine.reactions.zipIdx.map Prod.fst = engine.reactions := List.zipIdx_map_fst 0 _
    exact (congrArg (List.filter _) whole.symm).trans List.filter_map
  rw [agendaPlaces, agenda, matched, order_map]

/-- The dispatch of `c` comes to the reaction in the place `i` with the engine `v`. -/
def FiresAt (limit : Nat) (c : Call W) (i : Nat) (reaction : ReactionDef)
    (v : TopologyEngine W) : Prop :=
  c.depth ≤ limit ∧ ∃ result u front back, c.attempt = (.ok result, u) ∧
    c.agendaPlaces result u = front ++ (reaction, i) :: back ∧
    runAll (c.fire limit) (front.map Prod.fst) u = (.ok (), v)

variable {limit : Nat} {c : Call W} {i : Nat} {reaction : ReactionDef} {v : TopologyEngine W}

theorem FiresAt.fires (h : c.FiresAt limit i reaction v) : c.Fires limit reaction v := by
  obtain ⟨within, result, u, front, back, committed, split, reached⟩ := h
  refine ⟨within, result, u, front.map Prod.fst, back.map Prod.fst, committed, ?_, reached⟩
  rw [← agendaPlaces_map, split, List.map_append, List.map_cons]

theorem FiresAt.place (h : c.FiresAt limit i reaction v) :
    c.engine.reactions[i]? = some reaction := by
  obtain ⟨_, result, u, front, back, committed, split, _⟩ := h
  have kept := (sameTopology_elementary.attemptTransition c.engine c.signalId c.event
    c.payload).reactions
  rw [attempt] at committed
  rw [committed] at kept
  have member : (reaction, i) ∈ c.agendaPlaces result u := by
    rw [split]
    exact List.mem_append_right front List.mem_cons_self
  rw [← kept]
  exact List.mem_zipIdx_iff_getElem?.mp (List.mem_of_mem_filter (order_subset member))

theorem Fires.exists_place (h : c.Fires limit reaction v) : ∃ i, c.FiresAt limit i reaction v := by
  obtain ⟨within, result, u, front, back, committed, split, reached⟩ := h
  rw [← agendaPlaces_map] at split
  obtain ⟨front', rest, same, rfl, tail⟩ := List.map_eq_append_iff.mp split
  obtain ⟨⟨_, i⟩, back', rfl, rfl, _⟩ := List.map_eq_cons_iff.mp tail
  exact ⟨i, within, result, u, front', back', committed, same, reached⟩

end Call

/-- In a sequence of operations the guard of the reaction in the place `i` was evaluated with
this outcome, when the log had `k` entries. -/
def EvaluatedAt (engine : TopologyEngine W) (ops : List (Operation W)) (i k : Nat)
    (outcome : Except String Bool) : Prop :=
  ∃ before signalId event payload after c reaction guard v,
    ops = before ++ .sendEvent signalId event payload :: after ∧
    (Call.top (execute engine before) signalId event payload).Reached
      (execute engine before).maxCascadeDepth c ∧
    c.FiresAt (execute engine before).maxCascadeDepth i reaction v ∧ v.trace.length = k ∧
    reaction.guard = some guard ∧
    ∀ ctx : ActionContext, ctx.payload = c.parentPayload → Guard.evalGuard guard ctx = outcome

theorem execute_kept (engine : TopologyEngine W) (before after : List (Operation W)) :
    (execute engine before).trace <+: (execute engine (before ++ after)).trace := by
  induction after using List.reverseRecOn with
  | nil => rw [List.append_nil]
  | append_singleton ops op ih =>
      rw [← List.append_assoc, execute_append]
      refine ih.trans ?_
      by_cases sends : ∃ signalId event payload, op = .sendEvent signalId event payload
      · obtain ⟨signalId, event, payload, rfl⟩ := sends
        exact trace_elementary.run _ (.top _ signalId event payload)
      · rw [op.trace_kept _ fun signalId event payload same => sends ⟨_, _, _, same⟩]

omit [RustStd] [SerdeJson] in
theorem loadState_reactions (engine : TopologyEngine W) (file : Except String StateSnapshot) :
    (engine.loadState file).2.reactions = engine.reactions :=
  (loadState_elementary sameTopology_elementary engine file).reactions

/-- Everything but a reload keeps the reactions. -/
theorem execute_reactions {ops : List (Operation W)}
    (keeps : ∀ op ∈ ops, ∀ json, op ≠ .reloadTopology json) (engine : TopologyEngine W) :
    (execute engine ops).reactions = engine.reactions := by
  induction ops using List.reverseRecOn with
  | nil => rfl
  | append_singleton ops op ih =>
      rw [execute_append, ← ih fun op member => keeps op (by simp [member])]
      cases op with
      | sendEvent signalId event payload =>
          exact (sameTopology_elementary.run _ (.top _ signalId event payload)).reactions
      | loadState file => exact loadState_reactions _ file
      | reloadTopology json => exact absurd rfl (keeps _ (by simp) json)
      | registerAction | setMaxCascadeDepth | environment => rfl

/-- An evaluation is recorded where it was made. -/
theorem EvaluatedAt.recorded {engine : TopologyEngine W} {ops : List (Operation W)}
    (keeps : ∀ op ∈ ops, ∀ json, op ≠ .reloadTopology json) {i k : Nat}
    {outcome : Except String Bool} (h : EvaluatedAt engine ops i k outcome) :
    ∃ reaction guard signalId, engine.reactions[i]? = some reaction ∧
      reaction.guard = some guard ∧
      (execute engine ops).trace[k]? = some (.reactionGuardEvaluated signalId reaction.fromSignal
        reaction.fromState reaction.toSignal reaction.event guard (guardResult outcome)) := by
  obtain ⟨before, signalId, event, payload, after, c, reaction, guard, v, rfl, reached, fires, rfl,
    guarded, reads⟩ := h
  have place := fires.place
  rw [reached.sameTopology.reactions] at place
  have unchanged : (execute engine before).reactions = engine.reactions :=
    execute_reactions (fun op member => keeps op (List.mem_append_left _ member)) engine
  refine ⟨reaction, guard, c.signalId, unchanged ▸ place, guarded, ?_⟩
  -- the gate of the call records it, and the log only grows
  have inside := (Call.OwnSegment.gate fires.fires).segment.on_path.2.rel trace_elementary
  have grown := reached.on_path.2.rel trace_elementary
  have later : (((Call.top (execute engine before) signalId event payload).run
      (execute engine before).maxCascadeDepth).2).trace <+:
      (execute engine (before ++ .sendEvent signalId event payload :: after)).trace := by
    have kept := execute_kept engine (before ++ [.sendEvent signalId event payload]) after
    rwa [execute_append, ← List.append_cons] at kept
  obtain ⟨rest, whole⟩ := (inside.trans grown).trans later
  rw [← whole, Call.gate, gate_records guarded c.parentPayload c.signalId v
    ⟨"", "", "", "", c.parentPayload, none⟩ rfl, push_trace, reads _ rfl, List.append_assoc,
    List.getElem?_append_right (Nat.le_refl _), Nat.sub_self]
  rfl

/-- Every record of a fresh log was made by an evaluation. -/
theorem RecordedAt.evaluated {engine : TopologyEngine W} (fresh : engine.trace = [])
    {ops : List (Operation W)} (keeps : ∀ op ∈ ops, ∀ json, op ≠ .reloadTopology json)
    {key : ReactionKey} {k : Nat} {result : String}
    (h : RecordedAt (execute engine ops).trace key k result) :
    ∃ i reaction outcome, EvaluatedAt engine ops i k outcome ∧
      engine.reactions[i]? = some reaction ∧ reaction.guard.isSome ∧ reactionKey reaction = key ∧
      result = guardResult outcome := by
  obtain ⟨ev, entry, record⟩ := Option.bind_eq_some_iff.mp h
  cases ev with
  | reactionGuardEvaluated transitionSignal fromSignal fromState toSignal event guard result' =>
      cases record
      obtain ⟨before, signalId, sent, payload, after, rfl, start, found, _⟩ :=
        execute_entry (by rw [fresh]; exact Nat.zero_le k) entry
      obtain ⟨s, t, ⟨c, reached, own⟩, new, recorded⟩ :=
        (Call.run_path (execute engine before).maxCascadeDepth
          (.top (execute engine before) signalId sent payload)).entry start found
      obtain ⟨reaction, fires, position, guarded, _, rfl, rfl, rfl, rfl, outcome⟩ :=
        own.guarded new recorded
      obtain ⟨i, firesAt⟩ := fires.exists_place
      have reads := outcome ⟨"", "", "", "", c.parentPayload, none⟩ rfl
      have place := firesAt.place
      rw [reached.sameTopology.reactions] at place
      have unchanged : (execute engine before).reactions = engine.reactions :=
        execute_reactions (fun op member => keeps op (List.mem_append_left _ member)) engine
      refine ⟨i, reaction, _, ⟨before, signalId, sent, payload, after, c, reaction, guard, s, rfl,
        reached, firesAt, position, guarded, fun ctx same => Guard.evalGuard_congr same guard⟩,
        unchanged ▸ place, by rw [guarded]; rfl, rfl, reads⟩
  | _ => cases record

end

/-! ## What an edge shows -/

/-- The verdict on a reaction in the words of the diagram. -/
def verdictText : Option (Except String Bool) → String
  | none => "not evaluated"
  | some outcome => guardResult outcome

def verdictColor : Option (Except String Bool) → String
  | none => "black"
  | some (.ok true) => "green"
  | some (.ok false) => "gray"
  | some (.error _) => "red"

/-- The line is an edge in the color and with the text of the verdict. -/
def Shows (line : Line) (reaction : ReactionDef) (verdict : Option (Except String Bool)) : Prop :=
  ∃ tail head style, line = .reaction tail head
    (reaction.event ++ " [guard: " ++ verdictText verdict ++ "]") (verdictColor verdict) style

theorem guardResult_inj {outcome outcome' : Except String Bool}
    (same : guardResult outcome = guardResult outcome') : outcome = outcome' := by
  have apart : ∀ (passed : Bool) (msg : String), guardResult (.ok passed) ≠
      guardResult (.error msg) := by
    intro passed msg equal
    have letters := congrArg String.toList equal
    cases passed
    · simp [guardResult] at letters
    · simp [guardResult] at letters
  cases outcome with
  | ok passed =>
      cases outcome' with
      | ok passed' =>
          cases passed <;> cases passed' <;> first | rfl | exact absurd same (by decide)
      | error msg => exact absurd same (apart passed msg)
  | error msg =>
      cases outcome' with
      | ok passed => exact absurd same.symm (apart passed msg)
      | error msg' =>
          have letters : ("error: " ++ msg) = ("error: " ++ msg') := same
          rw [String.append_right_inj] at letters
          rw [letters]

/-- A recorded result has the color of its outcome. -/
theorem guardStyle_result (outcome : Except String Bool) :
    (guardStyle (some (guardResult outcome))).1 = verdictColor (some outcome) := by
  cases outcome with
  | ok passed => cases passed <;> decide
  | error msg =>
      have front : ∀ text : String, startsWith text ("error: " ++ msg) =
          text.toList.isPrefixOf ("error: ".toList ++ msg.toList) := by
        intro text
        rw [startsWith, String.toList_append]
      simp only [guardStyle, guardResult, front]
      rfl

theorem verdictColor_some (outcome : Except String Bool) :
    verdictColor (some outcome) ≠ "black" := by
  cases outcome with
  | ok passed => cases passed <;> decide
  | error msg =>
      show "red" ≠ "black"
      decide

/-- Every signal with a state has an anchor. -/
theorem anchorNode_some {engine : TopologyEngine W} {signalId : String} {states : List String}
    (known : engine.space signalId = some states) (nonempty : states ≠ []) :
    ∃ n, anchorNode engine.snapshotSchema signalId = some n := by
  obtain ⟨signal, found, rfl⟩ := Option.map_eq_some_iff.mp known
  have entry := AList.mem_lookup_iff.mp (Option.mem_def.mpr found)
  obtain ⟨drawn, first⟩ : ∃ drawn, engine.snapshotSchema.signals.find? (·.id = signalId) =
      some drawn := Option.isSome_iff_exists.mp (List.find?_isSome.mpr
    ⟨⟨signalId, signal.initialState, signal.states⟩, List.mem_map.mpr ⟨_, entry, rfl⟩,
      decide_eq_true rfl⟩)
  obtain ⟨⟨id, other⟩, member, rfl⟩ := List.mem_map.mp (List.mem_of_find?_eq_some first)
  obtain rfl : id = signalId := by simpa using List.find?_some first
  have again := AList.mem_lookup_iff.mpr member
  rw [Option.mem_def, found] at again
  cases again
  obtain ⟨state, rest, states_eq⟩ := List.exists_cons_of_ne_nil nonempty
  refine ⟨⟨id, state⟩, ?_⟩
  rw [anchorNode, first, Option.bind_some, states_eq]
  rfl

/-- The edge of a reaction shows what the lookup finds. -/
theorem drawnEdge_eq {engine : TopologyEngine W} {reaction : ReactionDef} {n : Node}
    (anchor : anchorNode engine.snapshotSchema reaction.toSignal = some n) :
    engine.drawnEdge reaction =
      let result := (guardInfoFromTraces engine.trace).lookup (reactionKey reaction)
      some (.reaction (reactionFromNode engine.snapshotSchema engine.currentStates reaction) n
        (reactionLabel reaction result) (guardStyle result).1 (guardStyle result).2) := by
  rw [drawnEdge, reactionLine, anchor]
  rfl

section

variable [RustStd] [SerdeJson]

/-- The outcome of the most recent evaluation of the guard in the place `i`, if there was
one. -/
inductive LatestVerdict (engine : TopologyEngine W) (ops : List (Operation W)) (i : Nat) :
    Option (Except String Bool) → Prop where
  | never (unevaluated : ∀ k outcome, ¬ EvaluatedAt engine ops i k outcome) :
      LatestVerdict engine ops i none
  | latest {k outcome} (evaluated : EvaluatedAt engine ops i k outcome)
      (last : ∀ k' outcome', EvaluatedAt engine ops i k' outcome' → k' ≤ k) :
      LatestVerdict engine ops i (some outcome)

/-- The edge of the reaction in the place `i` shows its own guard. -/
def ColoredByOwn (engine : TopologyEngine W) (ops : List (Operation W)) (i : Nat)
    (reaction : ReactionDef) : Prop :=
  ∃ line verdict, (execute engine ops).drawnEdge reaction = some line ∧
    LatestVerdict engine ops i verdict ∧ Shows line reaction verdict

/-- Some reaction with this key was evaluated. -/
def KeyEvaluatedAt (engine : TopologyEngine W) (ops : List (Operation W)) (key : ReactionKey)
    (k : Nat) (outcome : Except String Bool) : Prop :=
  ∃ j other, engine.reactions[j]? = some other ∧ reactionKey other = key ∧
    EvaluatedAt engine ops j k outcome

/-- The most recent evaluation among the reactions that share the key of `reaction` had the
outcome of its own most recent one. -/
def LastIsOwn (engine : TopologyEngine W) (ops : List (Operation W)) (i : Nat)
    (reaction : ReactionDef) : Prop :=
  ∀ k outcome, KeyEvaluatedAt engine ops (reactionKey reaction) k outcome →
    (∀ k' outcome', KeyEvaluatedAt engine ops (reactionKey reaction) k' outcome' → k' ≤ k) →
    LatestVerdict engine ops i (some outcome)

section

variable {engine : TopologyEngine W} {ops : List (Operation W)}

theorem KeyEvaluatedAt.recorded (keeps : ∀ op ∈ ops, ∀ json, op ≠ .reloadTopology json)
    {key : ReactionKey} {k : Nat} {outcome : Except String Bool}
    (h : KeyEvaluatedAt engine ops key k outcome) :
    RecordedAt (execute engine ops).trace key k (guardResult outcome) := by
  obtain ⟨j, other, place, rfl, evaluated⟩ := h
  obtain ⟨reaction, guard, signalId, place', _, entry⟩ := evaluated.recorded keeps
  rw [place] at place'
  cases place'
  rw [RecordedAt, entry]
  rfl

theorem RecordedAt.keyEvaluated (fresh : engine.trace = [])
    (keeps : ∀ op ∈ ops, ∀ json, op ≠ .reloadTopology json) {key : ReactionKey} {k : Nat}
    {result : String} (h : RecordedAt (execute engine ops).trace key k result) :
    ∃ outcome, KeyEvaluatedAt engine ops key k outcome ∧ result = guardResult outcome := by
  obtain ⟨j, other, outcome, evaluated, place, _, named, same⟩ := h.evaluated fresh keeps
  exact ⟨outcome, ⟨j, other, place, named, evaluated⟩, same⟩

/-- The edge of a reaction shows its own guard exactly if the last evaluation under its key
tells the same. -/
theorem coloredByOwn_iff (fresh : engine.trace = [])
    (keeps : ∀ op ∈ ops, ∀ json, op ≠ .reloadTopology json) {i : Nat} {reaction : ReactionDef}
    (place : engine.reactions[i]? = some reaction) {n : Node}
    (anchor : anchorNode (execute engine ops).snapshotSchema reaction.toSignal = some n) :
    ColoredByOwn engine ops i reaction ↔ LastIsOwn engine ops i reaction := by
  have own : ∀ {k outcome}, EvaluatedAt engine ops i k outcome →
      KeyEvaluatedAt engine ops (reactionKey reaction) k outcome := fun evaluated =>
    ⟨i, reaction, place, rfl, evaluated⟩
  rw [ColoredByOwn, drawnEdge_eq anchor]
  obtain ⟨missing, unrecorded⟩ | ⟨k, result, found, recorded, latest⟩ :=
    guardInfo_cases (execute engine ops).trace (reactionKey reaction)
  · refine iff_of_true ⟨_, none, rfl, .never fun k outcome evaluated => ?_, ?_⟩ ?_
    · exact unrecorded _ _ ((own evaluated).recorded keeps)
    · exact ⟨_, _, _, by rw [missing]; rfl⟩
    · exact fun k outcome evaluated _ => absurd (evaluated.recorded keeps) (unrecorded _ _)
  · obtain ⟨outcome, evaluated, rfl⟩ := recorded.keyEvaluated fresh keeps
    have last : ∀ k' outcome', KeyEvaluatedAt engine ops (reactionKey reaction) k' outcome' →
        k' ≤ k := fun k' outcome' evaluated' => latest k' _ (evaluated'.recorded keeps)
    dsimp only
    rw [found]
    constructor
    · rintro ⟨line, verdict, drawn, ownLatest, tail, head, style, rfl⟩ k' outcome' evaluated' last'
      have same := Line.reaction.inj (Option.some.inj drawn)
      rw [guardStyle_result] at same
      obtain ⟨_, _, label, color, _⟩ := same
      obtain rfl : k' = k := Nat.le_antisymm (last k' outcome' evaluated')
        (last' k outcome evaluated)
      have again := evaluated'.recorded keeps
      rw [RecordedAt, recorded, Option.some.injEq, Prod.mk.injEq] at again
      obtain rfl := guardResult_inj again.2
      cases verdict with
      | none => exact absurd color (verdictColor_some outcome)
      | some shown =>
          rw [reactionLabel, String.append_left_inj, String.append_right_inj] at label
          obtain rfl : outcome = shown := guardResult_inj label
          exact ownLatest
    · intro agrees
      refine ⟨_, some outcome, rfl, agrees k outcome evaluated last, ?_⟩
      rw [guardStyle_result]
      exact ⟨_, _, _, rfl⟩

/-- A key that no other guarded reaction has is the reaction's own. -/
theorem lastIsOwn_of_unique (keeps : ∀ op ∈ ops, ∀ json, op ≠ .reloadTopology json) {i : Nat}
    {reaction : ReactionDef} (place : engine.reactions[i]? = some reaction)
    (unique : ∀ j other, engine.reactions[j]? = some other → other.guard.isSome →
      reactionKey other = reactionKey reaction → j = i) : LastIsOwn engine ops i reaction := by
  rintro k outcome ⟨j, other, place', same, evaluated⟩ last
  obtain ⟨reaction', guard, _, again, guarded, _⟩ := evaluated.recorded keeps
  rw [place'] at again
  cases again
  obtain rfl := unique j other place' (by rw [guarded]; rfl) same
  exact .latest evaluated fun k' outcome' evaluated' =>
    last k' outcome' ⟨j, reaction, place, rfl, evaluated'⟩

/-- In every state that an engine built from a schema reaches, the edge of a reaction shows
the most recent evaluation of its own guard exactly if the most recent evaluation among the
reactions with the same ends and event had that outcome. So it does in every state if no
other guarded reaction of the topology has the same ends and event. -/
theorem dotExt_colored_iff {world : W} {schema : TopologySchema}
    (built : fromSchema world schema = .ok engine)
    (keeps : ∀ op ∈ ops, ∀ json, op ≠ .reloadTopology json) {i : Nat} {reaction : ReactionDef}
    (place : engine.reactions[i]? = some reaction) :
    (ColoredByOwn engine ops i reaction ↔ LastIsOwn engine ops i reaction) ∧
    ((∀ j other, engine.reactions[j]? = some other → other.guard.isSome →
      reactionKey other = reactionKey reaction → j = i) → ColoredByOwn engine ops i reaction) := by
  obtain ⟨flat, _, validated, same⟩ := fromSchema_iff.mp built
  obtain ⟨checked, ends⟩ := validate_iff.mp validated
  have fresh : engine.trace = [] := by rw [same]
  have known : reaction.toSignal ∈ flat.signals.map (·.id) := by
    rw [same] at place
    exact (ends reaction (List.mem_of_getElem? place)).2
  obtain ⟨signal, declared, target⟩ := List.mem_map.mp known
  have space : (execute engine ops).space reaction.toSignal = some signal.states := by
    rw [execute_space keeps, TopologyEngine.space, same, ← target,
      signalTable_member checked.distinct (·.initialState) declared]
    rfl
  obtain ⟨n, anchor⟩ := anchorNode_some space (List.ne_nil_of_mem (checked.initial signal declared))
  have settled := coloredByOwn_iff fresh keeps place anchor
  exact ⟨settled, fun unique => settled.mpr (lastIsOwn_of_unique keeps place unique)⟩

end

end

/-- A door that wakes one lamp by night and another way by day, with one event. -/
def nightSchema : TopologySchema where
  version := "0.1"
  signals := ["door", "lamp"].map fun id => ⟨id, "rest", ["rest", "active"]⟩
  transitions := ["door", "lamp"].map fun id =>
    { signalId := id, fromState := "*", event := "move", toState := "active" }
  reactions := ["payload.night == true", "payload.night == false"].map fun guard =>
    { fromSignal := "door", fromState := "active", toSignal := "lamp", event := "move"
      guard := some guard }

def nightEngine : TopologyEngine Unit where
  signals := signalTable (·.initialState) nightSchema.signals
  transitions := nightSchema.transitions
  reactions := nightSchema.reactions
  actions := ∅
  trace := []
  maxCascadeDepth := 8
  world := ()

theorem nightEngine_built : fromSchema () nightSchema = .ok nightEngine := rfl

/-- JSON text with the one payload of the run. -/
@[reducible] def nightSerde : SerdeJson where
  valueFromStr := SerdeJson.keywords.valueFromStr
  schemaFromStr := SerdeJson.keywords.schemaFromStr
  valueToString
    | .object [("night", .bool true)] => "\x7b\"night\":true\x7d"
    | value => SerdeJson.keywords.valueToString value

/-- The door moves at night. -/
def nightRun : List (Operation Unit) :=
  [.sendEvent "door" "move" (some (.object [("night", .bool true)]))]

/-- The first guard was true, and its edge is gray. -/
theorem nightEngine_miscolored : fromSchema () nightSchema = .ok nightEngine ∧
    ∃ reaction, nightEngine.reactions[0]? = some reaction ∧ reaction.guard.isSome ∧
      ¬ @ColoredByOwn Unit .ascii nightSerde nightEngine nightRun 0 reaction := by
  refine ⟨nightEngine_built, _, rfl, rfl, ?_⟩
  rintro ⟨line, verdict, drawn, latest, tail, head, style, rfl⟩
  have gray : @drawnEdge Unit (@execute Unit .ascii nightSerde nightEngine nightRun)
      { fromSignal := "door", fromState := "active", toSignal := "lamp", event := "move"
        guard := some "payload.night == true" } =
      some (.reaction ⟨"door", "active"⟩ ⟨"lamp", "rest"⟩ "move [guard: false]"
        "gray" "dashed") := by
    decide +kernel
  rw [gray] at drawn
  obtain ⟨_, _, _, color, _⟩ := Line.reaction.inj (Option.some.inj drawn)
  cases latest with
  | never => exact absurd color (by decide)
  | @latest k outcome evaluated _ =>
      obtain ⟨reaction, guard, signalId, place, guarded, entry⟩ :=
        @EvaluatedAt.recorded Unit .ascii nightSerde _ _ (by simp [nightRun]) _ _ _ evaluated
      cases place
      cases guarded
      have recorded : ∀ ev ∈ (@execute Unit .ascii nightSerde nightEngine nightRun).trace,
          ev ≠ .reactionGuardEvaluated signalId "door" "active" "lamp" "move"
            "payload.night == true" "false" := by
        have log : (@execute Unit .ascii nightSerde nightEngine nightRun).trace = [
            .eventReceived "door" "move" (some "\x7b\"night\":true\x7d"),
            .stateChanged "door" "rest" "active",
            .reactionGuardEvaluated "door" "door" "active" "lamp" "move" "payload.night == true"
              "true",
            .eventReceived "lamp" "move" none, .stateChanged "lamp" "rest" "active",
            .reactionGuardEvaluated "door" "door" "active" "lamp" "move" "payload.night == false"
              "false"] := by
          decide +kernel
        rw [log]
        simp
      have failed : guardResult outcome = "false" := by
        cases outcome with
        | ok passed => cases passed <;> first | rfl | exact absurd color (by decide)
        | error msg => exact absurd color (show ¬ "gray" = "red" by decide)
      rw [failed] at entry
      exact recorded _ (List.mem_of_getElem? entry) rfl

theorem nightEngine_colored_iff : ∃ reaction, nightEngine.reactions[0]? = some reaction ∧
    (@ColoredByOwn Unit .ascii nightSerde nightEngine nightRun 0 reaction ↔
      @LastIsOwn Unit .ascii nightSerde nightEngine nightRun 0 reaction) := by
  refine ⟨_, rfl, ?_⟩
  exact (@dotExt_colored_iff Unit .ascii nightSerde nightEngine nightRun () nightSchema
    nightEngine_built (by simp [nightRun]) 0 _ rfl).1

end SignalTopology
