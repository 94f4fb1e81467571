import SignalTopology.Compose.Instances

/-!
# Expansion and payloads

Expansion copies the payloads of reactions and looks at none of them. So schemas that are
the same but for payloads expand to such schemas.
-/

namespace SignalTopology

open Fallible

/-- The same reaction, maybe with another payload. -/
def ReactionDef.SamePlan (r r' : ReactionDef) : Prop := ∃ payload, r' = { r with payload }

def ComponentDef.SamePlan (c c' : ComponentDef) : Prop :=
  ∃ reactions, c' = { c with reactions } ∧ List.Forall₂ ReactionDef.SamePlan c.reactions reactions

/-- The same schema but for the payloads of its reactions. -/
structure TopologySchema.SamePlan (s s' : TopologySchema) : Prop where
  version : s'.version = s.version
  signals : s'.signals = s.signals
  transitions : s'.transitions = s.transitions
  instances : s'.instances = s.instances
  reactions : List.Forall₂ ReactionDef.SamePlan s.reactions s'.reactions
  components : ∀ name c, (s.components.getD ∅).lookup name = some c →
    ∃ c', (s'.components.getD ∅).lookup name = some c' ∧ c.SamePlan c'

structure Expansion.SamePlan (e e' : Expansion) : Prop where
  signals : e'.signals = e.signals
  transitions : e'.transitions = e.transitions
  reactions : List.Forall₂ ReactionDef.SamePlan e.reactions e'.reactions

section

variable {name : String} {component : ComponentDef} {bound remap : HashMap String}

theorem expandReaction_samePlan {r r' out : ReactionDef} (same : r.SamePlan r')
    (h : (do
      let expanded ← expandReaction r name component bound
      .ok { expanded with
        fromSignal := renamed remap expanded.fromSignal
        toSignal := renamed remap expanded.toSignal }) = Except.ok out) :
    ∃ out', (do
      let expanded ← expandReaction r' name component bound
      .ok { expanded with
        fromSignal := renamed remap expanded.fromSignal
        toSignal := renamed remap expanded.toSignal }) = Except.ok out' ∧ out.SamePlan out' := by
  obtain ⟨payload, rfl⟩ := same
  obtain ⟨expanded, filled, same⟩ := bind_ok h
  obtain ⟨fromSignal, ownFrom, filled⟩ := bind_ok filled
  obtain ⟨fromState, ownState, filled⟩ := bind_ok filled
  obtain ⟨toSignal, ownTo, filled⟩ := bind_ok filled
  obtain ⟨event, ownEvent, filled⟩ := bind_ok filled
  cases filled
  cases same
  have filled' : expandReaction { r with payload } name component bound =
      .ok { r with fromSignal, fromState, toSignal, event, payload } :=
    bind_ok_iff.mpr ⟨_, ownFrom, bind_ok_iff.mpr ⟨_, ownState,
      bind_ok_iff.mpr ⟨_, ownTo, bind_ok_iff.mpr ⟨_, ownEvent, rfl⟩⟩⟩⟩
  exact ⟨_, bind_ok_iff.mpr ⟨_, filled', rfl⟩, payload, rfl⟩

theorem declare_samePlan {component' : ComponentDef} (same : component.SamePlan component')
    {e : Expansion} (h : component.declare name bound remap = .ok e) :
    ∃ e', component'.declare name bound remap = .ok e' ∧ e.SamePlan e' := by
  obtain ⟨reactions, rfl, related⟩ := same
  obtain ⟨signals, filledSignals, h⟩ := bind_ok h
  obtain ⟨transitions, filledTransitions, h⟩ := bind_ok h
  obtain ⟨filled, filledReactions, h⟩ := bind_ok h
  cases h
  obtain ⟨filled', filledReactions', related'⟩ := mapM_related related filledReactions
    fun _ _ _ same _ => expandReaction_samePlan same
  refine ⟨⟨signals, transitions, filled'⟩, ?_, rfl, rfl, related'⟩
  exact bind_ok_iff.mpr ⟨signals, filledSignals, bind_ok_iff.mpr ⟨transitions, filledTransitions,
    bind_ok_iff.mpr ⟨filled', filledReactions', rfl⟩⟩⟩

end

variable {s s' flat : TopologySchema}

theorem expandInstance_samePlan (same : s.SamePlan s') {inst : InstanceDef} {e : Expansion}
    (h : expandInstance (s.components.getD ∅) inst = .ok e) :
    ∃ e', expandInstance (s'.components.getD ∅) inst = .ok e' ∧ e.SamePlan e' := by
  obtain ⟨component, _, _, resolves, _⟩ := expandInstance_ok h
  obtain ⟨component', found', alike⟩ := same.components _ _ resolves.found
  rw [expandInstance_found resolves.found] at h
  rw [expandInstance_found found']
  obtain ⟨bound, bindings, h⟩ := bind_ok h
  obtain ⟨remap, connections, h⟩ := bind_ok h
  obtain ⟨e', declared, related⟩ := declare_samePlan alike h
  obtain ⟨_, rfl, _⟩ := alike
  exact ⟨e', bind_ok_iff.mpr ⟨bound, bindings, bind_ok_iff.mpr ⟨remap, connections, declared⟩⟩,
    related⟩

theorem expansions_samePlan {es es' : List Expansion}
    (related : List.Forall₂ Expansion.SamePlan es es') :
    es'.flatMap (·.signals) = es.flatMap (·.signals) ∧
      es'.flatMap (·.transitions) = es.flatMap (·.transitions) ∧
      List.Forall₂ ReactionDef.SamePlan (es.flatMap (·.reactions)) (es'.flatMap (·.reactions)) := by
  induction related with
  | nil => exact ⟨rfl, rfl, .nil⟩
  | cons first _ ih =>
      obtain ⟨signals, transitions, reactions⟩ := ih
      refine ⟨?_, ?_, List.rel_append first.reactions reactions⟩
      · rw [List.flatMap_cons, List.flatMap_cons, first.signals, signals]
      · rw [List.flatMap_cons, List.flatMap_cons, first.transitions, transitions]

/-- Expansion does not look at payloads. -/
theorem expand_samePlan (same : s.SamePlan s') (h : expand s = .ok flat) :
    ∃ flat', expand s' = .ok flat' ∧ flat.SamePlan flat' ∧ s'.reactions <+: flat'.reactions := by
  obtain ⟨none_left, rfl⟩ | ⟨expansions, expanded, rfl, unique⟩ := expand_ok h
  · have none_left' : s'.Flat := same.instances.trans none_left
    exact ⟨s', expand_of_flat none_left', same, List.prefix_refl _⟩
  · by_cases none_left : s.instances = []
    · have none_left' : s'.instances = [] := same.instances.trans none_left
      rw [none_left] at expanded
      cases expanded
      refine ⟨s', expand_of_flat none_left', ?_, List.prefix_refl _⟩
      rw [expand_of_flat none_left] at h
      rw [← Except.ok.inj h]
      exact same
    · have some_left' : s'.instances ≠ [] := same.instances ▸ none_left
      have instances := List.forall₂_same.mpr fun (inst : InstanceDef) (_ : inst ∈ s.instances) =>
        (Eq.refl inst)
      obtain ⟨expansions', expanded', related⟩ := mapM_related instances expanded (by
        rintro inst _ e rfl _ own
        exact expandInstance_samePlan same own)
      obtain ⟨signals, transitions, reactions⟩ := expansions_samePlan related
      have signals' : (s'.withExpansions expansions').signals =
          (s.withExpansions expansions).signals := by
        simp only [TopologySchema.withExpansions, same.signals, signals]
      refine ⟨s'.withExpansions expansions', ?_, ⟨same.version, signals', ?_, rfl, ?_, ?_⟩,
        List.prefix_append _ _⟩
      · rw [expand_of_instances some_left', same.instances]
        refine bind_ok_iff.mpr ⟨expansions', expanded', bind_ok_iff.mpr ⟨(), ?_, rfl⟩⟩
        rw [signals']
        exact enforceUnique_iff.mpr unique
      · simp only [TopologySchema.withExpansions, same.transitions, transitions]
      · exact List.rel_append same.reactions reactions
      · intro name c found
        cases found

end SignalTopology
