import SignalTopology.Engine.Frame

/-!
# The calls below a call

`Delivers` relates a call to the calls its reactions make, and `Reached` is any
number of such steps. The run of a call is a path of segments: the attempts, the
guards and the hooks of the calls it reaches. `run_path` and `Segment.on_path`
say that the path consists of these segments and of nothing else.
-/

namespace SignalTopology

open Sequencing

variable {W : Type} [RustStd] [SerdeJson]

namespace Call

/-- The dispatch of `c` comes to `reaction` with the engine `v`. -/
def Fires (limit : Nat) (c : Call W) (reaction : ReactionDef) (v : TopologyEngine W) : Prop :=
  c.depth ≤ limit ∧ ∃ result u front back, c.attempt = (.ok result, u) ∧
    c.agenda result u = front ++ reaction :: back ∧ runAll (c.fire limit) front u = (.ok (), v)

/-- `c'` is the call by which `reaction` delivers its event in the run of `c`. -/
def Delivers (limit : Nat) (c : Call W) (reaction : ReactionDef) (c' : Call W) : Prop :=
  ∃ v w, c.Fires limit reaction v ∧ c.gate reaction v = (true, w) ∧ c' = c.deliver reaction w

/-- `c'` is made in the run of `c`, at any level. -/
def Reached (limit : Nat) : Call W → Call W → Prop :=
  Relation.ReflTransGen fun c c' => ∃ reaction, c.Delivers limit reaction c'

/-- One stretch of the run of `c` outside the calls it makes. -/
inductive OwnSegment (limit : Nat) (c : Call W) : TopologyEngine W → TopologyEngine W → Prop where
  | attempt (within : c.depth ≤ limit) : OwnSegment limit c c.engine c.attempt.2
  | gate {reaction v} (fires : c.Fires limit reaction v) :
      OwnSegment limit c v (c.gate reaction v).2
  | hook {reaction c' e x} (delivers : c.Delivers limit reaction c')
      (failed : c'.run limit = (.error e, x)) : OwnSegment limit c x (c.compensate reaction e x)

/-- A stretch of the run of a call that `c` reaches. -/
def Segment (limit : Nat) (c : Call W) (s t : TopologyEngine W) : Prop :=
  ∃ c', c.Reached limit c' ∧ c'.OwnSegment limit s t

abbrev Path (limit : Nat) (c : Call W) : TopologyEngine W → TopologyEngine W → Prop :=
  Relation.ReflTransGen (c.Segment limit)

variable {limit : Nat} {c c' c'' : Call W}

theorem Delivers.depth {reaction : ReactionDef} (h : c.Delivers limit reaction c') :
    c.depth ≤ limit ∧ c'.depth = c.depth + 1 := by
  obtain ⟨v, w, fires, _, rfl⟩ := h
  exact ⟨fires.1, rfl⟩

theorem OwnSegment.segment {s t : TopologyEngine W} (h : c.OwnSegment limit s t) :
    c.Segment limit s t :=
  ⟨c, .refl, h⟩

theorem Path.of_reached (h : c.Reached limit c') {s t : TopologyEngine W}
    (path : c'.Path limit s t) : c.Path limit s t :=
  Relation.ReflTransGen.mono
    (fun _ _ ⟨inner, reached, own⟩ => ⟨inner, h.trans reached, own⟩) s t path

theorem Path.of_delivers {reaction : ReactionDef} (h : c.Delivers limit reaction c')
    {s t : TopologyEngine W} (path : c'.Path limit s t) : c.Path limit s t :=
  Path.of_reached (.single ⟨reaction, h⟩) path

/-- What firing one reaction adds, given the path of the call it makes. -/
theorem fire_path {reaction : ReactionDef} {v : TopologyEngine W}
    (fires : c.Fires limit reaction v)
    (nested : ∀ c', c.Delivers limit reaction c' → c'.Path limit c'.engine (c'.run limit).2) :
    c.Path limit v (c.fire limit reaction v).2 := by
  have gated : c.Path limit v (c.gate reaction v).2 :=
    .single (OwnSegment.gate fires).segment
  obtain ⟨u, skipped, fired⟩ | ⟨u, result, w, passed, ran, fired⟩ |
    ⟨u, e, w, passed, ran, fired⟩ := c.fire_cases limit reaction v
  · rw [skipped] at gated
    rwa [fired]
  all_goals
    rw [passed] at gated
    have delivers : c.Delivers limit reaction (c.deliver reaction u) := ⟨v, u, fires, passed, rfl⟩
    have below := Path.of_delivers delivers (nested _ delivers)
    rw [ran] at below
    rw [fired]
  · exact gated.trans below
  · exact (gated.trans below).tail (OwnSegment.hook delivers ran).segment

/-- The run of a call is a path of segments of the calls it reaches. -/
theorem run_path (limit : Nat) (c : Call W) : c.Path limit c.engine (c.run limit).2 := by
  induction c using nested_induction limit with
  | step c nested =>
      have below : ∀ reaction c', c.Delivers limit reaction c' →
          c'.Path limit c'.engine (c'.run limit).2 := by
        rintro reaction _ ⟨v, w, fires, _, rfl⟩
        exact nested fires.1 reaction w
      have dispatched : c.depth ≤ limit → ∀ result u, c.attempt = (.ok result, u) →
          c.Path limit u (runAll (c.fire limit) (c.agenda result u) u).2 := by
        intro within result u committed
        refine runAll_along (fun _ => .refl) Relation.ReflTransGen.trans ?_
        intro front reaction back v split reached
        exact fire_path ⟨within, result, u, front, back, committed, split, reached⟩
          (below reaction)
      obtain ⟨_, ran⟩ | ⟨within, e, u, rejected, ran⟩ | ⟨within, result,
        u, v, committed, all, ran⟩ |
        ⟨within, result, u, e, v, committed, all, ran⟩ := c.run_cases limit
      · rw [ran]
      · have attempted := (OwnSegment.attempt within).segment
        rw [rejected] at attempted
        rw [ran]
        exact .single attempted
      all_goals
        have attempted := (OwnSegment.attempt within).segment
        have rest := dispatched within result u committed
        rw [committed] at attempted
        rw [all] at rest
        rw [ran]
        exact .head attempted rest

theorem dispatch_path {result : TransitionResult} {u : TopologyEngine W}
    (within : c.depth ≤ limit) (committed : c.attempt = (.ok result, u)) :
    c.Path limit u (runAll (c.fire limit) (c.agenda result u) u).2 := by
  refine runAll_along (fun _ => .refl) Relation.ReflTransGen.trans ?_
  intro front reaction back v split reached
  exact fire_path ⟨within, result, u, front, back, committed, split, reached⟩
    fun c' _ => run_path limit c'

/-- A reaction that is fired lies on the path of the call. -/
theorem Fires.on_path {reaction : ReactionDef} {v : TopologyEngine W}
    (h : c.Fires limit reaction v) :
    c.Path limit c.engine v ∧ c.Path limit (c.fire limit reaction v).2 (c.run limit).2 := by
  obtain ⟨within, result, u, front, back, committed, split, reached⟩ := h
  have attempted := (OwnSegment.attempt within).segment
  rw [committed] at attempted
  have fired : ∀ front' reaction' back' t, c.agenda result u = front' ++ reaction' :: back' →
      runAll (c.fire limit) front' u = (.ok (), t) →
      c.Path limit t (c.fire limit reaction' t).2 := by
    intro front' reaction' back' t split' reached'
    exact fire_path ⟨within, result, u, front', back', committed, split', reached'⟩
      fun c' _ => run_path limit c'
  have before : c.Path limit u v := by
    have along : c.Path limit u (runAll (c.fire limit) front u).2 := by
      refine runAll_along (fun _ => .refl) Relation.ReflTransGen.trans ?_
      intro front' reaction' back' t split' reached'
      exact fired front' reaction' (back' ++ reaction :: back) t (by simp [split, split']) reached'
    rwa [reached] at along
  have after : c.Path limit (c.fire limit reaction v).2
      (runAll (c.fire limit) (c.agenda result u) u).2 := by
    rw [split, runAll_append_ok reached]
    obtain ⟨t, done⟩ | ⟨e, t, failed⟩ := step_cases (c.fire limit) reaction v
    · rw [runAll_cons_ok done, done]
      refine runAll_along (fun _ => .refl) Relation.ReflTransGen.trans ?_
      intro front' reaction' back' t' split' reached'
      refine fired (front ++ reaction :: front') reaction' back' t' (by simp [split, split']) ?_
      rw [runAll_append_ok reached, runAll_cons_ok done, reached']
    · rw [runAll_cons_error failed, failed]
  refine ⟨.head attempted before, ?_⟩
  have ran := c.run_committed limit within committed
  have same : (c.run limit).2 = (runAll (c.fire limit) (c.agenda result u) u).2 := by
    rw [ran]
    split <;> simp_all
  rwa [same]

theorem Delivers.eq {reaction : ReactionDef} (h : c.Delivers limit reaction c') :
    c' = c.deliver reaction c'.engine := by
  obtain ⟨v, w, _, _, rfl⟩ := h
  rfl

/-- How a reaction that delivers `c'` ends. -/
theorem Delivers.fired {reaction : ReactionDef} (h : c.Delivers limit reaction c') :
    ∃ v, c.Fires limit reaction v ∧ c.gate reaction v = (true, c'.engine) ∧
      ((∃ result x, c'.run limit = (.ok result, x) ∧ c.fire limit reaction v = (.ok (), x)) ∨
        ∃ e x, c'.run limit = (.error e, x) ∧
          c.fire limit reaction v = (.error e, c.compensate reaction e x)) := by
  obtain ⟨v, w, fires, passed, rfl⟩ := h
  refine ⟨v, fires, passed, ?_⟩
  obtain ⟨u, skipped, _⟩ | ⟨u, result, x, passed', ran, fired⟩ |
    ⟨u, e, x, passed', ran, fired⟩ := c.fire_cases limit reaction v
  · rw [passed] at skipped
    cases skipped
  all_goals
    rw [passed] at passed'
    cases passed'
  · exact .inl ⟨result, x, ran, fired⟩
  · exact .inr ⟨e, x, ran, fired⟩

/-- A call that is made lies on the path of the call that makes it. -/
theorem Delivers.on_path {reaction : ReactionDef} (h : c.Delivers limit reaction c') :
    c.Path limit c.engine c'.engine ∧ c.Path limit (c'.run limit).2 (c.run limit).2 := by
  obtain ⟨v, fires, passed, ended⟩ := h.fired
  obtain ⟨before, after⟩ := fires.on_path
  have gated := (OwnSegment.gate fires).segment
  rw [passed] at gated
  refine ⟨before.tail gated, ?_⟩
  obtain ⟨result, x, ran, fired⟩ | ⟨e, x, ran, fired⟩ := ended
  · rw [fired] at after
    rwa [ran]
  · rw [fired] at after
    rw [ran]
    exact .head (OwnSegment.hook h ran).segment after

theorem Reached.on_path (h : c.Reached limit c') :
    c.Path limit c.engine c'.engine ∧ c.Path limit (c'.run limit).2 (c.run limit).2 := by
  induction h using Relation.ReflTransGen.head_induction_on with
  | refl => exact ⟨.refl, .refl⟩
  | head first _ ih =>
      obtain ⟨reaction, delivers⟩ := first
      obtain ⟨before, after⟩ := delivers.on_path
      exact ⟨before.trans (Path.of_delivers delivers ih.1),
        (Path.of_delivers delivers ih.2).trans after⟩

/-- The segments of a call are pieces of its run. -/
theorem OwnSegment.on_path {s t : TopologyEngine W} (h : c.OwnSegment limit s t) :
    c.Path limit c.engine s ∧ c.Path limit t (c.run limit).2 := by
  cases h with
  | attempt within =>
      refine ⟨.refl, ?_⟩
      obtain ⟨deep, _⟩ | ⟨_, e, u, rejected, ran⟩ | ⟨_, result, u, v, committed, all, ran⟩ |
        ⟨_, result, u, e, v, committed, all, ran⟩ := c.run_cases limit
      · omega
      · rw [ran, rejected]
      all_goals
        have dispatched := dispatch_path within committed
        rw [all] at dispatched
        rw [ran, committed]
        exact dispatched
  | @gate reaction _ fires =>
      obtain ⟨before, after⟩ := fires.on_path
      refine ⟨before, ?_⟩
      obtain ⟨u, skipped, fired⟩ | ⟨u, result, x, passed, _, _⟩ | ⟨u, e, x, passed, _, _⟩ :=
        c.fire_cases limit reaction s
      · rw [fired] at after
        rwa [skipped]
      all_goals
        have delivers : c.Delivers limit reaction (c.deliver reaction u) :=
          ⟨s, u, fires, passed, rfl⟩
        rw [passed]
        exact (Path.of_delivers delivers (run_path limit _)).trans delivers.on_path.2
  | @hook reaction c' e _ delivers failed =>
      have below := Path.of_delivers delivers (run_path limit c')
      rw [failed] at below
      refine ⟨delivers.on_path.1.trans below, ?_⟩
      obtain ⟨v, fires, _, ended⟩ := delivers.fired
      obtain ⟨result, x, ran, _⟩ | ⟨e', x, ran, fired⟩ := ended
      · rw [failed] at ran
        cases ran
      · rw [failed] at ran
        cases ran
        have after := fires.on_path.2
        rwa [fired] at after

/-- Every segment of a reached call is a piece of the run. -/
theorem Segment.on_path {s t : TopologyEngine W} (h : c.Segment limit s t) :
    c.Path limit c.engine s ∧ c.Path limit t (c.run limit).2 := by
  obtain ⟨c', reached, own⟩ := h
  obtain ⟨before, after⟩ := reached.on_path
  obtain ⟨first, last⟩ := own.on_path
  exact ⟨before.trans (Path.of_reached reached first), (Path.of_reached reached last).trans after⟩

/-- A segment is made of elementary updates. -/
theorem Segment.rel {R : TopologyEngine W → TopologyEngine W → Prop} (h : Elementary R)
    {s t : TopologyEngine W} (segment : c.Segment limit s t) : R s t := by
  obtain ⟨c', _, own⟩ := segment
  cases own with
  | attempt => exact h.attemptTransition _ _ _ _
  | gate => exact h.gate _ _ _ _
  | hook => exact h.compensate _ _ _ _ _

theorem Path.rel {R : TopologyEngine W → TopologyEngine W → Prop} (h : Elementary R)
    {s t : TopologyEngine W} (path : c.Path limit s t) : R s t := by
  induction path with
  | refl => exact h.refl s
  | tail _ last ih => exact h.trans ih (last.rel h)

/-- Every entry that a path adds to the trace is added by one of its segments,
at the same position. -/
theorem Path.entry {s t : TopologyEngine W} (path : c.Path limit s t) {i : Nat} {ev : TraceEvent}
    (fresh : s.trace.length ≤ i) (entry : t.trace[i]? = some ev) :
    ∃ s' t', c.Segment limit s' t' ∧ s'.trace.length ≤ i ∧ t'.trace[i]? = some ev := by
  induction path with
  | refl =>
      rw [List.getElem?_eq_none fresh] at entry
      cases entry
  | @tail m t _ last ih =>
      rcases Nat.lt_or_ge i m.trace.length with earlier | new
      · obtain ⟨rest, grown⟩ := last.rel trace_elementary
        rw [← grown, List.getElem?_append_left earlier] at entry
        exact ih entry
      · exact ⟨m, t, last, new, entry⟩

end Call

end SignalTopology
