import SignalTopology.Engine.Depth

/-!
# Compensation along the failing chain

A failing call raises its error itself or takes it over from the call of one
reaction. Following the second case leads down to the innermost failing call;
the calls and reactions on the way are the failing chain. Up to the failure no
hook runs. From there on nothing runs but the hooks of the chain, from the inside
out.
-/

namespace SignalTopology

open Sequencing TopologyEngine

variable {W : Type}

/-- A hook is told of a failure; what an action of a transition is told has none. -/
def Invocation.IsHook (i : Invocation W) : Prop := i.ctx.failure.isSome = true

section

variable [RustStd] [SerdeJson]

namespace Call

/-- The call itself raises `e`, before it commits anything. -/
def Raises (limit : Nat) (c : Call W) (e : EngineError) : Prop :=
  (limit < c.depth ∧ e = .cascadeDepthExceeded) ∨
    (c.depth ≤ limit ∧ ∃ u, c.attempt = (.error e, u))

/-- The chain of reactions from a failing call down to the call that raises the
error; each reaction comes with the call whose dispatch fired it. -/
inductive FailsAlong (limit : Nat) (e : EngineError) :
    Call W → List (Call W × ReactionDef) → Call W → Prop where
  | raise {c} (raises : c.Raises limit e) : FailsAlong limit e c [] c
  | deliver {c c' reaction chain inner} (delivers : c.Delivers limit reaction c')
      (below : FailsAlong limit e c' chain inner) :
      FailsAlong limit e c ((c, reaction) :: chain) inner

/-- The event that records the hook of one reaction on the chain, if it has one. -/
def hookEvent (e : EngineError) (link : Call W × ReactionDef) : Option TraceEvent :=
  link.2.onFail.map fun actionId => compensated link.2 link.1.signalId actionId e

omit [RustStd] [SerdeJson] in
/-- The engine after the compensations of the chain, innermost first. -/
def unwind (e : EngineError) (chain : List (Call W × ReactionDef)) (engine : TopologyEngine W) :
    TopologyEngine W :=
  chain.foldr (fun link x => link.1.compensate link.2 e x) engine

/-- The call of `run_action` for the hook of one reaction on the chain. -/
def hookInvocation (e : EngineError) (link : Call W × ReactionDef) (engine : TopologyEngine W) :
    Option (Invocation W) :=
  link.2.onFail.map fun actionId =>
    ⟨link.2.toSignal, actionId, hookContext link.2 link.1.parentPayload e engine, engine⟩

/-- The hooks that run while the chain unwinds from `engine`, in their order. Each of them
starts on the engine that the deeper ones left. -/
def hooks (e : EngineError) (engine : TopologyEngine W) :
    List (Call W × ReactionDef) → List (Invocation W)
  | [] => []
  | link :: deeper =>
      hooks e engine deeper ++ (hookInvocation e link (unwind e deeper engine)).toList

variable {limit : Nat} {e : EngineError} {c c' inner : Call W} {chain : List (Call W × ReactionDef)}

theorem Raises.run (h : c.Raises limit e) : ∃ x, c.run limit = (.error e, x) := by
  obtain ⟨deep, rfl⟩ | ⟨within, u, rejected⟩ := h
  · exact ⟨c.engine, c.run_deep limit deep⟩
  · exact ⟨u, c.run_rejected limit within rejected⟩

/-- A call that raises an error itself makes no call. -/
theorem Raises.delivers_none (h : c.Raises limit e) (reaction : ReactionDef) :
    ¬ c.Delivers limit reaction c' := by
  rintro ⟨v, w, ⟨within, result, u, _, _, committed, _⟩, _⟩
  obtain ⟨deep, _⟩ | ⟨_, u', rejected⟩ := h
  · omega
  · rw [committed] at rejected
    cases rejected

/-- After the innermost call has failed, the run compensates along the chain and ends. -/
theorem FailsAlong.unwinds (h : FailsAlong limit e c chain inner) :
    c.run limit = (.error e, unwind e chain (inner.run limit).2) := by
  induction h with
  | raise raises =>
      obtain ⟨x, failed⟩ := raises.run
      rw [failed]
      rfl
  | deliver delivers _ ih => exact delivers.fails ih

theorem FailsAlong.raises (h : FailsAlong limit e c chain inner) : inner.Raises limit e := by
  induction h with
  | raise raises => exact raises
  | deliver _ _ ih => exact ih

theorem FailsAlong.reached (h : FailsAlong limit e c chain inner) : c.Reached limit inner := by
  induction h with
  | raise => exact .refl
  | deliver delivers _ ih => exact .head ⟨_, delivers⟩ ih

/-- Every failing call has a failing chain. -/
theorem exists_chain (c : Call W) {x : TopologyEngine W} (failed : c.run limit = (.error e, x)) :
    ∃ chain inner, FailsAlong limit e c chain inner := by
  induction c using nested_induction limit generalizing x with
  | step c nested =>
      obtain ⟨deep, ran⟩ | ⟨within, e', u, rejected, ran⟩ | ⟨_, result, u, v, _, _, ran⟩ |
        ⟨within, result, u, e', v, committed, all, ran⟩ := c.run_cases limit
      all_goals
        rw [failed] at ran
        cases ran
      · exact ⟨[], c, .raise (.inl ⟨deep, rfl⟩)⟩
      · exact ⟨[], c, .raise (.inr ⟨within, _, rejected⟩)⟩
      · obtain ⟨front, reaction, back, w, split, reached, last⟩ := runAll_error_iff.mp all
        have fires : c.Fires limit reaction w :=
          ⟨within, result, u, front, back, committed, split, reached⟩
        obtain ⟨y, _, fired⟩ | ⟨y, _, z, _, _, fired⟩ | ⟨y, e', z, passed, ran, fired⟩ :=
          c.fire_cases limit reaction w
        all_goals
          rw [last] at fired
          cases fired
        obtain ⟨chain, inner, below⟩ := nested within reaction y ran
        exact ⟨_, inner, .deliver ⟨w, y, fires, passed, rfl⟩ below⟩

/-! ## The chain is unique -/

/-- Two reactions of one call cannot both fail: the first failure ends the
dispatch. -/
theorem Delivers.unique {reaction reaction' : ReactionDef} {c₁ c₂ : Call W}
    {e₁ e₂ : EngineError} {x₁ x₂ : TopologyEngine W}
    (h₁ : c.Delivers limit reaction c₁) (failed₁ : c₁.run limit = (.error e₁, x₁))
    (h₂ : c.Delivers limit reaction' c₂) (failed₂ : c₂.run limit = (.error e₂, x₂)) :
    reaction = reaction' ∧ c₁ = c₂ := by
  have stops {r : ReactionDef} {c₁ : Call W} {e x v} (failed : c₁.run limit = (.error e, x))
      (ended : (∃ result y, c₁.run limit = (.ok result, y) ∧ c.fire limit r v = (.ok (), y)) ∨
        ∃ e y, c₁.run limit = (.error e, y) ∧ c.fire limit r v = (.error e, c.compensate r e y)) :
      ∃ t, c.fire limit r v = (.error e, t) := by
    obtain ⟨result, y, ran, _⟩ | ⟨e', y, ran, fired⟩ := ended
    all_goals
      rw [failed] at ran
      cases ran
    exact ⟨_, fired⟩
  obtain ⟨v₁, ⟨_, result, u, front₁, back₁, committed, split₁, reached₁⟩, passed₁, ended₁⟩ :=
    h₁.fired
  obtain ⟨v₂, ⟨_, result', u', front₂, back₂, committed', split₂, reached₂⟩, passed₂, ended₂⟩ :=
    h₂.fired
  rw [committed] at committed'
  cases committed'
  obtain ⟨t₁, last₁⟩ := stops failed₁ ended₁
  obtain ⟨t₂, last₂⟩ := stops failed₂ ended₂
  obtain ⟨rfl, rfl⟩ :=
    failure_unique (split₁.symm.trans split₂) reached₁ last₁ reached₂ last₂
  rw [reached₁] at reached₂
  cases reached₂
  rw [passed₁] at passed₂
  have engines : c₁.engine = c₂.engine := (Prod.mk.inj passed₂).2
  exact ⟨rfl, by rw [h₁.eq, h₂.eq, engines]⟩

/-- A reaction whose hook runs is on the chain. -/
theorem FailsAlong.mem_chain (h : FailsAlong limit e c chain inner) {reaction : ReactionDef}
    {c'' : Call W} (reached : c.Reached limit c') (delivers : c'.Delivers limit reaction c'')
    {e' : EngineError} {x : TopologyEngine W} (failed : c''.run limit = (.error e', x)) :
    (c', reaction) ∈ chain := by
  induction h with
  | raise raises =>
      rcases Relation.ReflTransGen.cases_head reached with rfl | ⟨_, ⟨_, first⟩, _⟩
      · exact absurd delivers (raises.delivers_none reaction)
      · exact absurd first (raises.delivers_none _)
  | @deliver c c₁ reaction₁ chain inner first below ih =>
      have failed₁ := below.unwinds
      rcases Relation.ReflTransGen.cases_head reached with rfl | ⟨c₂, ⟨reaction₂, second⟩, rest⟩
      · obtain ⟨rfl, _⟩ := delivers.unique failed first failed₁
        exact List.mem_cons_self
      · -- the call on the way to the failure fails too, so it is the one on the chain
        have onward : c₂.Reached limit c'' := rest.tail ⟨reaction, delivers⟩
        obtain ⟨z, failed₂, _⟩ := onward.fails failed
        obtain ⟨_, rfl⟩ := second.unique failed₂ first failed₁
        exact List.mem_cons_of_mem _ (ih rest)

/-- The chain below one of its reactions. -/
theorem FailsAlong.inside {outer deeper : List (Call W × ReactionDef)} {reaction : ReactionDef}
    (h : FailsAlong limit e c (outer ++ (c', reaction) :: deeper) inner) :
    c.Reached limit c' ∧
      ∃ c'', c'.Delivers limit reaction c'' ∧ FailsAlong limit e c'' deeper inner := by
  induction outer generalizing c with
  | nil =>
      cases h with
      | deliver delivers below => exact ⟨.refl, _, delivers, below⟩
  | cons link outer ih =>
      cases h with
      | deliver delivers below =>
          obtain ⟨reached, rest⟩ := ih below
          exact ⟨.head ⟨_, delivers⟩ reached, rest⟩

/-- Nothing is fired after a reaction of the chain. -/
theorem FailsAlong.stops (h : FailsAlong limit e c chain inner) {reaction : ReactionDef}
    (member : (c', reaction) ∈ chain) :
    ∃ result u front back, c'.attempt = (.ok result, u) ∧
      c'.agenda result u = front ++ reaction :: back ∧
      attempts (c'.fire limit) (c'.agenda result u) u =
        front.map (·, .ok ()) ++ [(reaction, .error e)] := by
  obtain ⟨outer, deeper, rfl⟩ := List.append_of_mem member
  obtain ⟨_, c'', delivers, below⟩ := h.inside
  have failed := below.unwinds
  obtain ⟨v, ⟨_, result, u, front, back, committed, split, reached⟩, _, ended⟩ := delivers.fired
  obtain ⟨_, _, ran, _⟩ | ⟨e', y, ran, fired⟩ := ended
  all_goals
    rw [failed] at ran
    cases ran
  refine ⟨result, u, front, back, committed, split, ?_⟩
  rw [split, attempts_error reached fired]

/-! ## Up to the failure -/

/-- One stretch of the run of `c` that is an attempt or a guard, not a hook. -/
inductive Unhooked (limit : Nat) (c : Call W) : TopologyEngine W → TopologyEngine W → Prop where
  | attempt {c' : Call W} (reached : c.Reached limit c') (within : c'.depth ≤ limit) :
      Unhooked limit c c'.engine c'.attempt.2
  | gate {c' : Call W} {reaction v} (reached : c.Reached limit c')
      (fires : c'.Fires limit reaction v) : Unhooked limit c v (c'.gate reaction v).2

/-- Stretches of the run of `c` without a hook, one after the other. -/
abbrev Onward (limit : Nat) (c : Call W) : TopologyEngine W → TopologyEngine W → Prop :=
  Relation.ReflTransGen (c.Unhooked limit)

section

variable {s t v : TopologyEngine W}

theorem Onward.of_delivers {reaction : ReactionDef} (h : c.Delivers limit reaction c')
    (onward : c'.Onward limit s t) : c.Onward limit s t := by
  refine Relation.ReflTransGen.mono (fun s t stretch => ?_) s t onward
  cases stretch with
  | attempt reached within => exact .attempt (.head ⟨_, h⟩ reached) within
  | gate reached fires => exact .gate (.head ⟨_, h⟩ reached) fires

/-- Where no delivery fails there is no hook. -/
theorem Path.onward (path : c.Path limit s t)
    (succeed : ∀ c' reaction c'', c.Reached limit c' → c'.Delivers limit reaction c'' →
      ∀ e x, c''.run limit ≠ (.error e, x)) : c.Onward limit s t := by
  refine Relation.ReflTransGen.mono (fun s t segment => ?_) s t path
  obtain ⟨c', reached, own⟩ := segment
  cases own with
  | attempt within => exact .attempt reached within
  | gate fires => exact .gate reached fires
  | hook delivers failed => exact absurd failed (succeed _ _ _ reached delivers _ _)

/-- A call that succeeds has run no hook. -/
theorem onward_ok {result : TransitionResult} (done : c.run limit = (.ok result, t)) :
    c.Onward limit c.engine t := by
  have path := run_path limit c
  rw [done] at path
  refine path.onward fun c' reaction c'' reached delivers e x failed => ?_
  have onward : c.Reached limit c'' := reached.tail ⟨reaction, delivers⟩
  obtain ⟨y, other, _⟩ := onward.fails failed
  rw [done] at other
  cases other

theorem Raises.onward (h : c.Raises limit e) : c.Onward limit c.engine (c.run limit).2 := by
  refine (run_path limit c).onward fun c' reaction c'' reached delivers => ?_
  rcases Relation.ReflTransGen.cases_head reached with rfl | ⟨_, ⟨_, first⟩, _⟩
  · exact absurd delivers (h.delivers_none reaction)
  · exact absurd first (h.delivers_none _)

/-- A reaction that succeeds is skipped or delivers a call that succeeds. -/
theorem Fires.onward {reaction : ReactionDef} (h : c.Fires limit reaction v)
    (fired : c.fire limit reaction v = (.ok (), t)) : c.Onward limit v t := by
  have gated : c.Onward limit v (c.gate reaction v).2 := .single (.gate .refl h)
  obtain ⟨u, skipped, same⟩ | ⟨u, result, w, passed, ran, same⟩ | ⟨u, e, w, _, _, same⟩ :=
    c.fire_cases limit reaction v
  all_goals
    rw [fired] at same
    cases same
  · rwa [skipped] at gated
  · rw [passed] at gated
    have delivers : c.Delivers limit reaction (c.deliver reaction u) := ⟨v, u, h, passed, rfl⟩
    exact gated.trans (Onward.of_delivers delivers (onward_ok ran))

/-- Before a reaction is fired, the reactions in front of it have succeeded. -/
theorem Delivers.onward {reaction : ReactionDef} (h : c.Delivers limit reaction c') :
    c.Onward limit c.engine c'.engine := by
  obtain ⟨v, fires, passed, _⟩ := h.fired
  obtain ⟨within, result, u, front, back, committed, split, reached⟩ := id fires
  have attempted : c.Onward limit c.engine c.attempt.2 := .single (.attempt .refl within)
  rw [committed] at attempted
  have before : c.Onward limit u (runAll (c.fire limit) front u).2 := by
    refine runAll_along (fun _ => .refl) Relation.ReflTransGen.trans ?_
    intro front' reaction' back' w split' reached'
    have fires' : c.Fires limit reaction' w :=
      ⟨within, result, u, front', back' ++ reaction :: back, committed,
        by simp [split, split'], reached'⟩
    obtain ⟨w', done⟩ | ⟨e, w', failed⟩ := step_cases (c.fire limit) reaction' w
    · rw [done]
      exact fires'.onward done
    · rw [split', runAll_append_ok reached', runAll_cons_error failed] at reached
      cases reached
  rw [reached] at before
  have gated : c.Onward limit v (c.gate reaction v).2 := .single (.gate .refl fires)
  rw [passed] at gated
  exact (attempted.trans before).trans gated

end

/-- No hook runs up to the failure of the innermost call. -/
theorem FailsAlong.onward (h : FailsAlong limit e c chain inner) :
    c.Onward limit c.engine (inner.run limit).2 := by
  induction h with
  | raise raises => exact raises.onward
  | deliver delivers _ ih => exact delivers.onward.trans (Onward.of_delivers delivers ih)

/-! ## The hooks of the chain -/

omit [RustStd] [SerdeJson] in
theorem mem_hooks {engine : TopologyEngine W} {i : Invocation W} :
    i ∈ hooks e engine chain ↔ ∃ outer link deeper, chain = outer ++ link :: deeper ∧
      hookInvocation e link (unwind e deeper engine) = some i := by
  induction chain with
  | nil =>
      refine iff_of_false List.not_mem_nil ?_
      rintro ⟨outer, link, deeper, none, _⟩
      exact absurd none.symm (List.append_ne_nil_of_right_ne_nil _ (List.cons_ne_nil _ _))
  | cons first chain ih =>
      rw [hooks, List.mem_append, ih, Option.mem_toList]
      constructor
      · rintro (⟨outer, link, deeper, rfl, named⟩ | named)
        · exact ⟨first :: outer, link, deeper, rfl, named⟩
        · exact ⟨[], first, chain, rfl, named⟩
      · rintro ⟨outer, link, deeper, split, named⟩
        cases outer with
        | nil =>
            obtain ⟨rfl, rfl⟩ := List.cons.inj split
            exact .inr named
        | cons _ outer => exact .inl ⟨outer, link, deeper, (List.cons.inj split).2, named⟩

/-- The hooks that a failing call runs are the ones of its chain. -/
theorem FailsAlong.invokes_iff (h : FailsAlong limit e c chain inner) {i : Invocation W} :
    (∃ c', c.Reached limit c' ∧ c'.Invokes limit i ∧ i.IsHook) ↔
      i ∈ hooks e (inner.run limit).2 chain := by
  rw [mem_hooks]
  constructor
  · rintro ⟨c', reached, invoked, failure⟩
    have silent : ∀ {transition ctx ids engine}, c'.Picks transition ctx →
        ¬ Comes ctx ids engine i := by
      rintro transition ctx ids engine ⟨_, _, _, rfl, _⟩ comes
      rw [Invocation.IsHook, comes.context] at failure
      cases failure
    cases invoked with
    | exit _ picks comes => exact absurd comes (silent picks)
    | enter _ picks _ comes => exact absurd comes (silent picks)
    | @hook reaction c'' e' x actionId delivers failed named =>
        obtain ⟨outer, deeper, rfl⟩ := List.append_of_mem (h.mem_chain reached delivers failed)
        obtain ⟨_, c₂, delivers', below⟩ := h.inside
        obtain ⟨_, rfl⟩ := delivers.unique failed delivers' below.unwinds
        cases failed.symm.trans below.unwinds
        exact ⟨outer, (c', reaction), deeper, rfl, by rw [hookInvocation, named]; rfl⟩
  · rintro ⟨outer, ⟨c', reaction⟩, deeper, rfl, found⟩
    obtain ⟨actionId, named, rfl⟩ := Option.map_eq_some_iff.mp found
    obtain ⟨reached, c'', delivers, below⟩ := h.inside
    exact ⟨c', reached, .hook delivers below.unwinds named, rfl⟩

/-! ## The recorded compensations -/

/-- The events appended between two engines record the given compensations. -/
def Compensated (hooks : List TraceEvent) (s t : TopologyEngine W) : Prop :=
  ∃ events, t.trace = s.trace ++ events ∧ events.filter (·.isCompensation) = hooks

namespace Compensated

variable {hooks hooks' : List TraceEvent} {s t u : TopologyEngine W}

omit [RustStd] [SerdeJson] in
theorem refl (s : TopologyEngine W) : Compensated [] s s :=
  ⟨[], (List.append_nil _).symm, rfl⟩

omit [RustStd] [SerdeJson] in
theorem trans (first : Compensated hooks s t) (second : Compensated hooks' t u) :
    Compensated (hooks ++ hooks') s u := by
  obtain ⟨events, log, recorded⟩ := first
  obtain ⟨events', log', recorded'⟩ := second
  refine ⟨events ++ events', by rw [log', log, List.append_assoc], ?_⟩
  rw [List.filter_append, recorded, recorded']

omit [RustStd] [SerdeJson] in
theorem quiet {events : List TraceEvent} (log : t.trace = s.trace ++ events)
    (lifecycle : ∀ ev ∈ events, ev.isCompensation = false) : Compensated [] s t := by
  refine ⟨events, log, List.filter_eq_nil_iff.mpr fun ev member => ?_⟩
  rw [lifecycle ev member]
  exact Bool.false_ne_true

theorem attempt (c : Call W) : Compensated [] c.engine c.attempt.2 := by
  obtain ⟨events, log, lifecycle⟩ :=
    attemptTransition_lifecycle c.engine c.signalId c.event c.payload
  refine quiet log fun ev member => ?_
  rcases List.mem_cons.mp member with rfl | later
  · rfl
  · exact TraceEvent.not_isCompensation (lifecycle ev later)

theorem gate (c : Call W) (reaction : ReactionDef) (engine : TopologyEngine W) :
    Compensated [] engine (c.gate reaction engine).2 := by
  obtain ⟨_, same⟩ | ⟨guard, passed, result, _, same⟩ :=
    gate_cases reaction c.parentPayload c.signalId engine
  · rw [Call.gate, same]
    exact refl engine
  · rw [Call.gate, same]
    exact quiet (push_trace _ _) fun ev member => by rw [List.mem_singleton.mp member]; rfl

omit [RustStd] [SerdeJson] in
theorem compensate (c : Call W) (reaction : ReactionDef) (e : EngineError)
    (engine : TopologyEngine W) :
    Compensated (hookEvent e (c, reaction)).toList engine (c.compensate reaction e engine) := by
  obtain ⟨unnamed, same⟩ | ⟨actionId, ctx, named, _, same⟩ :=
    compensate_cases reaction c.parentPayload c.signalId e engine
  · rw [Call.compensate, same, hookEvent, unnamed]
    exact refl engine
  · obtain ⟨events, acted, actions⟩ := runAction_acted reaction.toSignal actionId ctx engine
    have ran : Compensated [] engine (runAction reaction.toSignal actionId ctx engine).2 :=
      quiet acted.trace fun ev member =>
        TraceEvent.not_isCompensation (TraceEvent.isLifecycle_of_isAction (actions ev member))
    rw [Call.compensate, same, hookEvent, named]
    exact ran.trans ⟨_, push_trace _ _, rfl⟩

theorem onward {s t : TopologyEngine W} (path : c.Onward limit s t) : Compensated [] s t := by
  induction path with
  | refl => exact refl s
  | tail _ last ih =>
      cases last with
      | attempt => exact ih.trans (attempt _)
      | gate => exact ih.trans (gate _ _ _)

omit [RustStd] [SerdeJson] in
/-- The compensations are recorded in the order in which they run. -/
theorem unwind (e : EngineError) (chain : List (Call W × ReactionDef))
    (engine : TopologyEngine W) :
    Compensated (chain.reverse.filterMap (hookEvent e)) engine (unwind e chain engine) := by
  induction chain with
  | nil => exact refl engine
  | cons link chain ih =>
      have hooks : (link :: chain).reverse.filterMap (hookEvent e) =
          chain.reverse.filterMap (hookEvent e) ++ (hookEvent e link).toList := by
        rw [List.reverse_cons, List.filterMap_append]
        cases named : hookEvent e link <;> simp [named]
      rw [hooks]
      exact ih.trans (compensate link.1 link.2 e _)

end Compensated

/-- The run of a failing call, up to its innermost failure and back. -/
structure CompensatesAlong (limit : Nat) (e : EngineError) (c : Call W)
    (chain : List (Call W × ReactionDef)) (inner : Call W) : Prop where
  /-- A reaction has failed, and below it the innermost call raises the error itself. -/
  fired : chain ≠ []
  raises : inner.Raises limit e
  along : FailsAlong limit e c chain inner
  /-- Attempts and guards lead to the failure, and no hook. -/
  onward : c.Onward limit c.engine (inner.run limit).2
  /-- From there on only the hooks of the chain run, innermost first. -/
  unwinds : c.run limit = (.error e, unwind e chain (inner.run limit).2)
  /-- The hooks that are run are the ones of the chain. -/
  invoked : ∀ i, (∃ c', c.Reached limit c' ∧ c'.Invokes limit i ∧ i.IsHook) ↔
    i ∈ hooks e (inner.run limit).2 chain
  /-- One event for each of these hooks, in their order. -/
  recorded : Compensated (chain.reverse.filterMap (hookEvent e)) c.engine (c.run limit).2
  /-- Every delivery that fails belongs to the chain. -/
  failing : ∀ c' reaction c'', c.Reached limit c' → c'.Delivers limit reaction c'' →
    (∃ e', (c''.run limit).1 = .error e') → (c', reaction) ∈ chain
  /-- At every level, nothing is fired after the reaction that failed. -/
  stops : ∀ c' reaction, (c', reaction) ∈ chain → ∃ result u front back,
    c'.attempt = (.ok result, u) ∧ c'.agenda result u = front ++ reaction :: back ∧
    attempts (c'.fire limit) (c'.agenda result u) u =
      front.map (·, .ok ()) ++ [(reaction, .error e)]

theorem FailsAlong.compensates (h : FailsAlong limit e c chain inner) (fired : chain ≠ []) :
    c.CompensatesAlong limit e chain inner where
  fired := fired
  raises := h.raises
  along := h
  onward := h.onward
  unwinds := h.unwinds
  invoked _ := h.invokes_iff
  recorded := by
    rw [h.unwinds]
    exact (Compensated.onward h.onward).trans (.unwind e chain _)
  failing := by
    rintro c' reaction c'' reached delivers ⟨e', failed⟩
    exact h.mem_chain reached delivers (x := (c''.run limit).2) (Prod.ext failed rfl)
  stops _ _ member := h.stops member

end Call

/-- Compensation follows the failing path and never masks the error. When a
`send_event` fails after its transition has committed, there is a chain of
reactions from that transition down to a call that itself raises the returned
error. No hook runs up to there, and from there on the hooks of the chain run and
nothing else, innermost first. Each records one `ReactionCompensated` with the
message of that error; and on every level of the chain nothing is fired after the
reaction that failed. -/
theorem sendEvent_compensates (engine : TopologyEngine W) (signalId event : String)
    (payload : Option JsonValue) {result : TransitionResult} {e : EngineError}
    (committed : (Call.top engine signalId event payload).attempt.1 = .ok result)
    (failed : (engine.sendEvent signalId event payload).1 = .error e) :
    ∃ chain inner, (Call.top engine signalId event payload).CompensatesAlong
      engine.maxCascadeDepth e chain inner := by
  obtain ⟨chain, inner, along⟩ := Call.exists_chain (.top engine signalId event payload)
    (x := (engine.sendEvent signalId event payload).2) (Prod.ext failed rfl)
  refine ⟨chain, inner, along.compensates ?_⟩
  -- the call has committed, so it does not raise the error itself
  rintro rfl
  cases along with
  | raise raises =>
      obtain ⟨deep, _⟩ | ⟨_, u, rejected⟩ := raises
      · exact absurd deep (Nat.not_lt_zero _)
      · rw [rejected] at committed
        cases committed

end

/-- Paying an order books it, and booking informs an archive that has no such
event; both reactions have a hook. -/
def paymentEngine : TopologyEngine Unit where
  signals := signalTable (·.initialState)
    (["order", "ledger", "archive"].map fun id => ⟨id, "open", ["open", "done"]⟩)
  transitions := ["order", "ledger"].map fun id =>
    { signalId := id, fromState := "open", event := "book", toState := "done" }
  reactions := [
    { fromSignal := "order", fromState := "done", toSignal := "ledger", event := "book"
      onFail := some "refund" },
    { fromSignal := "ledger", fromState := "done", toSignal := "archive", event := "file"
      onFail := some "alert" }]
  actions := ∅
  trace := []
  maxCascadeDepth := 8
  world := ()

theorem paymentEngine_compensates : ∃ chain inner,
    @Call.CompensatesAlong Unit .ascii .keywords 8 (.transitionNotFound "archive" "file")
      (.top paymentEngine "order" "book" none) chain inner :=
  @sendEvent_compensates Unit .ascii .keywords paymentEngine "order" "book" none
    ⟨"order", "open", "done", []⟩ (.transitionNotFound "archive" "file")
    (by decide +kernel) (by decide +kernel)

end SignalTopology
