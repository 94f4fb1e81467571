import SignalTopology.Engine.Lockstep
import SignalTopology.Engine.Serial

/-!
# Independent reactions

Two reactions whose targets influence no common signal do not see each other:
each cascade reads and writes the signals its own target influences, and the
callbacks answer by their context alone. So a fork of such reactions can be
fired in any order.
-/

namespace SignalTopology

open Sequencing TopologyEngine

variable {W : Type}

/-- The outcome of a callback depends on its context only. -/
def TopologyEngine.Oblivious (engine : TopologyEngine W) : Prop :=
  ∀ actionId action, engine.actions.lookup actionId = some action →
    ∀ ctx world world', (action ctx world).1 = (action ctx world').1

/-- Two engines with the topology of `base` that agree on the signals of `S`. -/
structure AgreeOn (base : TopologyEngine W) (S : Set String) (s t : TopologyEngine W) : Prop where
  left : SameTopology base s
  right : SameTopology base t
  current : ∀ id ∈ S, t.current id = s.current id

namespace AgreeOn

variable {base s t : TopologyEngine W} {S : Set String}

theorem push (h : AgreeOn base S s t) (ev ev' : TraceEvent) :
    AgreeOn base S (s.push ev) (t.push ev') :=
  ⟨⟨h.left.transitions, h.left.reactions, h.left.actions, h.left.maxCascadeDepth⟩,
    ⟨h.right.transitions, h.right.reactions, h.right.actions, h.right.maxCascadeDepth⟩,
    h.current⟩

theorem call (h : AgreeOn base S s t) (world world' : W) :
    AgreeOn base S { s with world } { t with world := world' } :=
  ⟨⟨h.left.transitions, h.left.reactions, h.left.actions, h.left.maxCascadeDepth⟩,
    ⟨h.right.transitions, h.right.reactions, h.right.actions, h.right.maxCascadeDepth⟩,
    h.current⟩

/-- Callbacks that answer by their context answer alike in both worlds. -/
theorem runAction (oblivious : base.Oblivious) (h : AgreeOn base S s t)
    (signalId actionId : String) (ctx : ActionContext) :
    Agree (AgreeOn base S) (runAction signalId actionId ctx s)
      (runAction signalId actionId ctx t) := by
  have started := h.push (.actionStarted signalId actionId) (.actionStarted signalId actionId)
  cases found : base.actions.lookup actionId with
  | none =>
      have inS : s.actions.lookup actionId = none := by rw [h.left.actions, found]
      have inT : t.actions.lookup actionId = none := by rw [h.right.actions, found]
      simp only [TopologyEngine.runAction, push_actions, inS, inT]
      exact ⟨rfl, started⟩
  | some action =>
      have inS : s.actions.lookup actionId = some action := by rw [h.left.actions, found]
      have inT : t.actions.lookup actionId = some action := by rw [h.right.actions, found]
      have answer := oblivious actionId action found ctx s.world t.world
      rcases first : action ctx s.world with ⟨outcome, world⟩
      rcases second : action ctx t.world with ⟨outcome', world'⟩
      rw [first, second] at answer
      dsimp only at answer
      subst answer
      cases outcome <;>
        simp only [TopologyEngine.runAction, push_actions, push_world, inS, inT, first, second]
      · exact ⟨rfl, (started.call world world').push _ _⟩
      · exact ⟨rfl, (started.call world world').push _ _⟩

/-- No step of a cascade inside `S` tells such engines apart. -/
theorem lockstep (oblivious : base.Oblivious) (S : Set String) :
    Lockstep S (AgreeOn base S) where
  current h := h.current
  push h ev := h.push ev ev
  setCurrent h signalId state := by
    refine ⟨sameTopology_elementary.trans h.left (sameTopology_elementary.setCurrent _ _ _),
      sameTopology_elementary.trans h.right (sameTopology_elementary.setCurrent _ _ _),
      fun id own => ?_⟩
    rw [current_setCurrent, current_setCurrent, h.current id own]
  runAction h signalId actionId ctx := h.runAction oblivious signalId actionId ctx

end AgreeOn

/-- What the cascade of a reaction can read and write. -/
def ReactionDef.footprint (reactions : List ReactionDef) (reaction : ReactionDef) : Set String :=
  {id | Influences reactions reaction.toSignal id}

section

variable [RustStd] [SerdeJson]

namespace Call

/-- A successful firing moves signals of the footprint only. -/
theorem fire_frame (limit : Nat) (c : Call W) {reaction : ReactionDef} {s t : TopologyEngine W}
    (done : c.fire limit reaction s = (.ok (), t)) :
    SameTopology s t ∧ ∀ id, id ∉ reaction.footprint s.reactions → t.current id = s.current id := by
  have gated := sameTopology_elementary.gate reaction c.parentPayload c.signalId s
  have quiet : (c.gate reaction s).2.current = s.current := by
    obtain ⟨_, same⟩ | ⟨guard, passed, result, _, same⟩ :=
      gate_cases reaction c.parentPayload c.signalId s <;> rw [Call.gate, same]
    rfl
  obtain ⟨u, skipped, same⟩ | ⟨u, result, v, passed, ran, same⟩ | ⟨_, _, _, _, _, same⟩ :=
    c.fire_cases limit reaction s <;> rw [same] at done <;> cases done
  · rw [Call.gate] at skipped quiet
    rw [skipped] at gated quiet
    exact ⟨gated, fun id _ => congrFun quiet id⟩
  · rw [Call.gate] at passed quiet
    rw [passed] at gated quiet
    have below := sameTopology_elementary.run limit (c.deliver reaction u)
    have touched := run_touches limit (c.deliver reaction u)
    rw [ran] at below touched
    rw [deliver_engine] at below touched
    rw [gated.reactions] at touched
    exact ⟨sameTopology_elementary.trans gated below,
      fun id outside => (touched.current id outside).trans (congrFun quiet id)⟩

/-- Firing a reaction is confined to its footprint. -/
theorem fire_confined {base : TopologyEngine W} (oblivious : base.Oblivious) (limit : Nat)
    (c : Call W) (reaction : ReactionDef) :
    Confined TopologyEngine.current (SameTopology base) (reaction.footprint base.reactions)
      (c.fire limit reaction) where
  frame := by
    intro s t same done
    obtain ⟨kept, outside⟩ := c.fire_frame limit done
    rw [same.reactions] at outside
    exact ⟨sameTopology_elementary.trans same kept, outside⟩
  decided := by
    intro s s' t same same' inside done
    have lockstep := AgreeOn.lockstep oblivious (reaction.footprint base.reactions)
    have nested : ∀ u u', AgreeOn base (reaction.footprint base.reactions) u u' →
        Follows (AgreeOn base (reaction.footprint base.reactions))
          ((c.deliver reaction u).run limit) ((c.deliver reaction u').run limit) := by
      intro u u' related
      refine run_follows lockstep ?_ ?_ le_rfl (c.deliver reaction u) .refl related
      · intro s t h
        exact ⟨h.right.transitions.trans h.left.transitions.symm,
          h.right.reactions.trans h.left.reactions.symm⟩
      · intro s t h id own id' edge
        rw [h.left.reactions] at edge
        exact own.tail edge
    obtain ⟨t', done', after⟩ := c.fire_follows lockstep .refl nested
      ⟨same, same', fun id own => (inside own).symm⟩ () t done
    exact ⟨t', done', fun id own => (after.current id own).symm⟩

end Call

/-- Independent members of a fork commute. Where callbacks answer by their
context, a list of reactions that wait for nothing, and whose targets influence
no common signal, can be dispatched in any order: if one order succeeds, so does
every other, and it leaves every signal in the same state. -/
theorem dispatch_permuted (engine : TopologyEngine W) (oblivious : engine.Oblivious)
    {matched matched' : List ReactionDef} (limit : Nat) (parentPayload : Option JsonValue)
    (depth : Nat) (transitionSignal : String) (ready : ∀ r ∈ matched, r.requires = [])
    (apart : matched.Pairwise fun r r' => ∀ id, Influences engine.reactions r.toSignal id →
      ¬ Influences engine.reactions r'.toSignal id)
    (perm : matched.Perm matched') {reached : TopologyEngine W}
    (done : dispatchReactions limit matched parentPayload depth transitionSignal engine =
      (.ok (), reached)) :
    ∃ reached', dispatchReactions limit matched' parentPayload depth transitionSignal engine =
        (.ok (), reached') ∧ ∀ id, reached'.current id = reached.current id := by
  let c : Call W := ⟨transitionSignal, "", none, parentPayload, depth, engine⟩
  have dispatched : ∀ rs : List ReactionDef, (∀ r ∈ rs, r.requires = []) →
      dispatchReactions limit rs parentPayload depth transitionSignal engine =
        runAll (c.fire limit) rs engine := by
    intro rs ready
    rw [dispatchReactions, dispatch_eq, order_serial _ _ ready]
    rfl
  rw [dispatched matched ready] at done
  rw [dispatched matched' fun r member => ready r (perm.mem_iff.mpr member)]
  have same : SameTopology engine engine := sameTopology_elementary.refl engine
  obtain ⟨reached', done', alike⟩ := runAll_perm perm
    (fun r _ => c.fire_confined oblivious limit r) apart ⟨same, same, rfl⟩ () reached done
  exact ⟨reached', done', fun id => (congrFun alike.same id).symm⟩

end

/-- Stock and invoice follow an order; every move is counted by a callback. -/
def countedEngine : TopologyEngine Nat where
  signals := signalTable (·.initialState)
    (["stock", "invoice"].map fun id => ⟨id, "idle", ["idle", "done"]⟩)
  transitions := ["stock", "invoice"].map fun id =>
    { signalId := id, fromState := "idle", event := "go", toState := "done"
      actions := { onEnter := ["count"] } }
  reactions := ["stock", "invoice"].map fun id =>
    { fromSignal := "order", fromState := "paid", toSignal := id, event := "go" }
  actions := (∅ : HashMap (ActionFn Nat)).insert "count" fun _ count => (.ok (), count + 1)
  trace := []
  maxCascadeDepth := 8
  world := 0

theorem countedEngine_oblivious : countedEngine.Oblivious := by
  intro actionId action found ctx world world'
  by_cases same : actionId = "count"
  · subst same
    rw [countedEngine, AList.lookup_insert] at found
    obtain rfl := Option.some.inj found
    rfl
  · rw [countedEngine, AList.lookup_insert_ne same] at found
    cases found

/-- No reaction leads on from stock or invoice. -/
theorem countedEngine_influences {id id' : String} (member : id ∈ ["stock", "invoice"])
    (influences : Influences countedEngine.reactions id id') : id' = id := by
  induction influences with
  | refl => rfl
  | tail _ edge ih =>
      subst ih
      obtain ⟨r, declared, source, _⟩ := edge
      simp only [countedEngine, List.map_cons, List.map_nil, List.mem_cons, List.not_mem_nil,
        or_false] at declared
      obtain rfl | rfl := declared <;> subst source <;> simp at member

theorem countedEngine_permuted : ∃ reached reached',
    @dispatchReactions Nat .ascii .keywords 8 countedEngine.reactions none 0 "order"
      countedEngine = (.ok (), reached) ∧
    @dispatchReactions Nat .ascii .keywords 8 countedEngine.reactions.reverse none 0 "order"
      countedEngine = (.ok (), reached') ∧
    ∀ id, reached'.current id = reached.current id := by
  have succeeds : (@dispatchReactions Nat .ascii .keywords 8 countedEngine.reactions none 0
      "order" countedEngine).1 = .ok () := by decide +kernel
  have done : @dispatchReactions Nat .ascii .keywords 8 countedEngine.reactions none 0 "order"
      countedEngine = (.ok (), _) := Prod.ext succeeds rfl
  have apart : countedEngine.reactions.Pairwise fun r r' => ∀ id,
      Influences countedEngine.reactions r.toSignal id →
        ¬ Influences countedEngine.reactions r'.toSignal id := by
    refine List.pairwise_pair.mpr fun id first second => ?_
    have stock := countedEngine_influences (by simp) first
    have invoice := countedEngine_influences (by simp) second
    rw [stock] at invoice
    exact absurd invoice (by decide)
  obtain ⟨reached', done', same⟩ := @dispatch_permuted Nat .ascii .keywords countedEngine
    countedEngine_oblivious _ _ 8 none 0 "order" (by decide) apart
    (List.reverse_perm countedEngine.reactions).symm _ done
  exact ⟨_, reached', done, done', same⟩

end SignalTopology
