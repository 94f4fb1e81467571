import SignalTopology.Compose.Instances
import SignalTopology.Ddl.Codegen
import SignalTopology.Ddl.Reading

/-!
# What a document declares

The parser checks the states of a signal against its list and the ids of top-level
signals against each other. Codegen and expansion keep this, so a compiled schema
can be invalid only in the endpoints of its reactions.
-/

namespace SignalTopology.Ddl

open Fallible TokenParser

/-- The clause fits a signal with the given states. -/
structure TransDecl.Legal (states : List String) (tr : TransDecl) : Prop where
  source : tr.fromState = "*" ∨ tr.fromState ∈ states
  target : tr.toState ∈ states

structure SignalDecl.Legal (sig : SignalDecl) : Prop where
  initial : sig.initial ∈ sig.states
  transitions : ∀ tr ∈ sig.transitions, tr.Legal sig.states

/-! ## Parsing -/

section

variable [RustStd] {src : List Char} {ts us : Tokens Token}

theorem parseFromState_legal {id source : String} {states : List String}
    (h : Yields (parseFromState id states) ts source us) : source = "*" ∨ source ∈ states := by
  rw [parseFromState, peek_bind] at h
  by_cases wildcard : ts.current.kind = .mul
  · rw [if_pos wildcard, advance_bind] at h
    exact .inl (yields_pure.mp h).1
  · rw [if_neg wildcard] at h
    obtain ⟨⟨s, tok⟩, _, _, h⟩ := yields_bind.mp h
    obtain ⟨_, _, checked, h⟩ := yields_bind.mp h
    obtain ⟨rfl, _⟩ := yields_pure.mp h
    exact .inr (by simpa using (yields_ensure.mp checked).1)

theorem parseTransition_legal {id : String} {states : List String} {tr : TransDecl}
    (h : Yields (parseTransition src id states) ts tr us) : tr.Legal states := by
  obtain ⟨_, _, _, h⟩ := yields_bind.mp h
  obtain ⟨⟨event, _⟩, _, _, h⟩ := yields_bind.mp h
  obtain ⟨_, _, _, h⟩ := yields_bind.mp h
  obtain ⟨fromState, _, source, h⟩ := yields_bind.mp h
  obtain ⟨_, _, _, h⟩ := yields_bind.mp h
  obtain ⟨⟨toState, _⟩, _, _, h⟩ := yields_bind.mp h
  obtain ⟨_, _, target, h⟩ := yields_bind.mp h
  obtain ⟨guard, _, _, h⟩ := yields_bind.mp h
  obtain ⟨actions, _, _, h⟩ := yields_bind.mp h
  obtain ⟨rfl, _⟩ := yields_pure.mp h
  exact ⟨parseFromState_legal source, by simpa using (yields_ensure.mp target).1⟩

theorem parseSignal_legal {seen : Finset String} {sig : SignalDecl}
    (h : Yields (parseSignal src seen) ts sig us) : sig.id ∉ seen ∧ sig.Legal := by
  obtain ⟨_, _, _, h⟩ := yields_bind.mp h
  obtain ⟨⟨id, _⟩, _, _, h⟩ := yields_bind.mp h
  obtain ⟨_, _, fresh, h⟩ := yields_bind.mp h
  obtain ⟨_, _, _, h⟩ := yields_bind.mp h
  obtain ⟨_, _, _, h⟩ := yields_bind.mp h
  obtain ⟨_, _, _, h⟩ := yields_bind.mp h
  obtain ⟨states, _, _, h⟩ := yields_bind.mp h
  obtain ⟨_, _, _, h⟩ := yields_bind.mp h
  obtain ⟨_, _, _, h⟩ := yields_bind.mp h
  obtain ⟨⟨initial, _⟩, _, _, h⟩ := yields_bind.mp h
  obtain ⟨_, _, listed, h⟩ := yields_bind.mp h
  obtain ⟨transitions, _, clauses, h⟩ := yields_bind.mp h
  obtain ⟨_, _, _, h⟩ := yields_bind.mp h
  obtain ⟨rfl, _⟩ := yields_pure.mp h
  refine ⟨by simpa using (yields_ensure.mp fresh).1, by simpa using (yields_ensure.mp listed).1, ?_⟩
  exact (yields_many.mp clauses).1.forall fun _ _ _ => parseTransition_legal

theorem parseComponent_legal {seen : Finset String} {component : ComponentDeclRaw}
    (h : Yields (parseComponent src seen) ts component us) :
    ∀ sig ∈ component.signals, sig.Legal := by
  obtain ⟨n, body, _, run, _, same, _⟩ := parseComponent_run h
  rw [same]
  refine @Iterates.keeps _ _ _ _ _ _ _ _ _
    (fun body : BodyState => ∀ sig ∈ body.signals, sig.Legal)
    (fun body : BodyState => ∀ sig ∈ body.signals, sig.Legal) _ run ?_ ?_ ?_
  · intro sig member
    cases member
  · intro body body' ts us legal step
    obtain ⟨other, _⟩ | ⟨_, same, read⟩ := componentStep_cases step
    · cases other
    · cases same
      cases read with
      | port | reaction => exact legal
      | signal read =>
          intro sig member
          rcases List.mem_append.mp member with earlier | last
          · exact legal sig earlier
          · rw [List.mem_singleton.mp last]
            exact (parseSignal_legal read).2
  · intro body body' ts us legal step
    obtain ⟨same, _⟩ | ⟨_, other, _⟩ := componentStep_cases step
    · cases same
      exact legal
    · cases other

/-- What holds of the declarations read so far. -/
structure DocState.Legal (doc : DocState) : Prop where
  signals : ∀ sig ∈ doc.signals, sig.Legal
  distinct : (doc.signals.map (·.id)).Nodup
  seen : ∀ sig ∈ doc.signals, sig.id ∈ doc.seenSignals
  components : ∀ c ∈ doc.rawComponents, ∀ sig ∈ c.signals, sig.Legal

theorem DocState.Legal.read {doc doc' : DocState} (h : doc.Legal)
    (read : BlockRead src doc ts us doc') : doc'.Legal := by
  cases read with
  | reaction | guard | fork | join | instantiate =>
      exact ⟨h.signals, h.distinct, h.seen, h.components⟩
  | @signal signal read =>
      obtain ⟨fresh, legal⟩ := parseSignal_legal read
      refine ⟨?_, ?_, ?_, h.components⟩
      · intro sig member
        rcases List.mem_append.mp member with earlier | last
        · exact h.signals sig earlier
        · rw [List.mem_singleton.mp last]
          exact legal
      · rw [List.map_append, List.nodup_append]
        refine ⟨h.distinct, List.nodup_singleton _, ?_⟩
        intro id earlier id' last same
        obtain ⟨sig, member, rfl⟩ := List.mem_map.mp earlier
        rw [List.map_singleton, List.mem_singleton] at last
        exact fresh (same.trans last ▸ h.seen sig member)
      · intro sig member
        rw [Finset.mem_insert]
        rcases List.mem_append.mp member with earlier | last
        · exact .inr (h.seen sig earlier)
        · rw [List.mem_singleton.mp last]
          exact .inl rfl
  | @component component read =>
      refine ⟨h.signals, h.distinct, h.seen, ?_⟩
      intro c member
      rcases List.mem_append.mp member with earlier | last
      · exact h.components c earlier
      · rw [List.mem_singleton.mp last]
        exact parseComponent_legal read

/-- The declarations of a document that was read. -/
structure DdlDoc.Legal (doc : DdlDoc) : Prop where
  signals : ∀ sig ∈ doc.signals, sig.Legal
  distinct : (doc.signals.map (·.id)).Nodup
  components : ∀ c ∈ doc.components, ∀ sig ∈ c.signals, sig.Legal

theorem parse_legal {tokens : List Token} {text : String} {doc : DdlDoc}
    (h : parse tokens text = .ok doc) : doc.Legal := by
  obtain ⟨t, ts, us, rfl, parsed⟩ := parse_ok_iff.mp h
  obtain ⟨n, _, final, run, finished⟩ := yields_parseDoc.mp parsed
  have legal : final.Legal := by
    refine blocks_invariant run ⟨?_, List.nodup_nil, ?_, ?_⟩ fun _ _ _ _ legal => legal.read
    all_goals
      intro x member
      cases member
  obtain ⟨_, _, h⟩ := bind_ok finished
  obtain ⟨reactions, _, h⟩ := bind_ok h
  obtain ⟨components, resolved, h⟩ := bind_ok h
  cases h
  refine ⟨legal.signals, legal.distinct, fun c member => ?_⟩
  obtain ⟨raw, inside, made⟩ := mapM_result resolved c member
  obtain ⟨_, _, made⟩ := bind_ok made
  cases made
  exact legal.components raw inside

end

/-! ## Codegen -/

theorem emitTransition_legal {id : String} {states : List String} {tr : TransDecl}
    (legal : tr.Legal states) : ∀ t ∈ emitTransition id states tr,
      t.signalId = id ∧ t.fromState ∈ states ∧ t.toState ∈ states := by
  intro t member
  rw [emitTransition] at member
  by_cases wildcard : tr.fromState = "*"
  · rw [if_pos wildcard] at member
    obtain ⟨state, listed, rfl⟩ := List.mem_map.mp member
    exact ⟨rfl, listed, legal.target⟩
  · rw [if_neg wildcard, List.mem_singleton] at member
    cases member
    exact ⟨rfl, legal.source.resolve_left wildcard, legal.target⟩

/-- The transitions of a body fit its signals. -/
theorem emitSignals_legal {decls : List SignalDecl} (legal : ∀ sig ∈ decls, sig.Legal) :
    (∀ sig ∈ (emitSignals decls).1, sig.initialState ∈ sig.states) ∧
    ∀ t ∈ (emitSignals decls).2, ∃ sig ∈ (emitSignals decls).1, sig.id = t.signalId ∧
      (t.fromState = "*" ∨ t.fromState ∈ sig.states) ∧ t.toState ∈ sig.states := by
  constructor
  · intro out member
    obtain ⟨sig, declared, rfl⟩ := List.mem_map.mp member
    exact (legal sig declared).initial
  · intro t member
    obtain ⟨sig, declared, inside⟩ := List.mem_flatMap.mp member
    obtain ⟨tr, clause, arm⟩ := List.mem_flatMap.mp inside
    obtain ⟨owner, source, target⟩ :=
      emitTransition_legal ((legal sig declared).transitions tr clause) t arm
    exact ⟨_, List.mem_map_of_mem declared, owner.symm, .inr source, target⟩

section

variable [SerdeJson]

theorem emitComponent_wellFormed {comp : ComponentDecl} {component : ComponentDef}
    (h : emitComponent comp = .ok component) (legal : ∀ sig ∈ comp.signals, sig.Legal) :
    component.WellFormed := by
  obtain ⟨reactions, _, h⟩ := bind_ok h
  cases h
  obtain ⟨initial, transition⟩ := emitSignals_legal legal
  exact ⟨initial, transition⟩

/-- Every component of the schema is one of the document. -/
theorem emit_components {doc : DdlDoc} {schema : TopologySchema} {name : String}
    {component : ComponentDef} (h : emit doc = .ok schema)
    (found : (schema.components.getD ∅).lookup name = some component) :
    ∃ comp ∈ doc.components, emitComponent comp = .ok component := by
  obtain ⟨reactions, _, h⟩ := bind_ok h
  obtain ⟨components, built, h⟩ := bind_ok h
  cases h
  have made : ∀ name component, components.lookup name = some component →
      ∃ comp ∈ doc.components, emitComponent comp = .ok component := by
    refine foldlM_ok (fun map : HashMap ComponentDef => ∀ name component,
      map.lookup name = some component → ∃ comp ∈ doc.components, emitComponent comp =
        .ok component)
      built ?_ ?_
    · intro name component absent
      cases absent
    · intro comp member map map' made step
      obtain ⟨component, emitted, step⟩ := bind_ok step
      cases step
      intro name other found
      by_cases own : name = comp.id
      · rw [own, AList.lookup_insert] at found
        cases found
        exact ⟨comp, member, emitted⟩
      · rw [AList.lookup_insert_ne own] at found
        exact made name other found
  by_cases empty : components.keys.isEmpty
  · rw [if_pos empty] at found
    cases found
  · rw [if_neg empty] at found
    exact made name component found

theorem emit_legal {doc : DdlDoc} {schema : TopologySchema} (h : emit doc = .ok schema)
    (legal : doc.Legal) : schema.Checked ∧
      ∀ name component, (schema.components.getD ∅).lookup name = some component →
        component.WellFormed := by
  obtain ⟨initial, transition⟩ := emitSignals_legal legal.signals
  refine ⟨?_, ?_⟩
  · obtain ⟨reactions, _, h⟩ := bind_ok h
    obtain ⟨components, built, h⟩ := bind_ok h
    cases h
    refine ⟨?_, initial, transition⟩
    have ids : (emitSignals doc.signals).1.map (·.id) = doc.signals.map (·.id) := by
      rw [emitSignals, List.map_map]
      rfl
    show ((emitSignals doc.signals).1.map (·.id)).Nodup
    rw [ids]
    exact legal.distinct
  · intro name component found
    obtain ⟨comp, member, emitted⟩ := emit_components h found
    exact emitComponent_wellFormed emitted (legal.components comp member)

/-! ## Compiled schemas -/

variable [RustStd]

theorem compile_ok {src : String} {schema : TopologySchema} (h : compile src = .ok schema) :
    ∃ tokens doc lowered, tokenize src = .ok tokens ∧ parse tokens src = .ok doc ∧
      emit doc = .ok lowered ∧ expand lowered = .ok schema := by
  rw [compile] at h
  cases full : compileFull src with
  | error e =>
      rw [full] at h
      cases h
  | ok result =>
      rw [full] at h
      cases h
      obtain ⟨tokens, lowered, lexed, parsed, emitted, expanded⟩ := compileFull_ok_iff.mp full
      exact ⟨tokens, result.2, lowered, lexed, parsed, emitted, expanded⟩

/-- A compiled schema is valid, or a reaction names a signal that is not declared. -/
theorem compile_valid {src : String} {schema : TopologySchema} (h : compile src = .ok schema) :
    validate schema = .ok () ∨
      ∃ id, validate schema = .error (.reactionSignalNotFound id) ∧
        id ∉ schema.signals.map (·.id) ∧
        ∃ r ∈ schema.reactions, r.fromSignal = id ∨ r.toSignal = id := by
  obtain ⟨tokens, doc, lowered, _, parsed, emitted, expanded⟩ := compile_ok h
  obtain ⟨checked, formed⟩ := emit_legal emitted (parse_legal parsed)
  exact (expand_checked checked formed expanded).validate_cases

end

/-- A component with a wildcard, and its instance. -/
def latchSource : String :=
  "component c \x7b signal s \x7b states: [a, b] initial: a on e from * -> b \x7d \x7d " ++
  "instantiate c as x with \x7b \x7d"

theorem latchSource_valid : ∃ schema, @compile .keywords .ascii latchSource = .ok schema ∧
    (validate schema = .ok () ∨
      ∃ id, validate schema = .error (.reactionSignalNotFound id) ∧
        id ∉ schema.signals.map (·.id) ∧
        ∃ r ∈ schema.reactions, r.fromSignal = id ∨ r.toSignal = id) := by
  have compiles : (@compile .keywords .ascii latchSource).isOk = true :=
    @compileFull_check .keywords .ascii latchSource _ (fun outcome => (outcome.map Prod.fst).isOk)
      (chars_append rfl rfl) (by decide +kernel)
  cases compiled : @compile .keywords .ascii latchSource with
  | error e =>
      rw [compiled] at compiles
      cases compiles
  | ok schema => exact ⟨schema, rfl, @compile_valid .keywords .ascii latchSource schema compiled⟩

end SignalTopology.Ddl
