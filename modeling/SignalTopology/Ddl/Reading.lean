import SignalTopology.Ddl.Parser

/-!
# Runs of the parser

The rules for taking one token, and what one block of a document does to the
declarations read so far.
-/

namespace SignalTopology.Ddl

open TokenParser

variable [RustStd]

/-! ## Taking one token -/

section

variable {α β : Type} {ts us : Tokens Token} {tok : Token} {kind : TokenKind} {s : String}
variable {f : Token → Parse β} {g : String × Token → Parse β} {b : β}

theorem yields_expect : Yields (expect kind) ts tok us ↔
    ts.current.kind = kind ∧ tok = ts.current ∧ us = ts.advance := by
  rw [expect, Yields.bind_iff (yields_peek.mpr ⟨rfl, rfl⟩)]
  by_cases same : ts.current.kind = kind
  · rw [if_pos same, yields_advance]
    simp [same]
  · rw [if_neg same]
    simp [same]

theorem yields_expectAnyIdent : Yields expectAnyIdent ts (s, tok) us ↔
    ts.current.kind = .identifier s ∧ tok = ts.current ∧ us = ts.advance := by
  rw [expectAnyIdent, Yields.bind_iff (yields_peek.mpr ⟨rfl, rfl⟩)]
  split
  · next same =>
      rw [Yields.bind_iff (yields_advance.mpr ⟨rfl, rfl⟩), yields_pure, same]
      constructor
      · rintro ⟨pair, rfl⟩
        cases pair
        exact ⟨rfl, rfl, rfl⟩
      · rintro ⟨name, rfl, rfl⟩
        cases name
        exact ⟨rfl, rfl⟩
  · next other =>
      constructor
      · intro h
        exact absurd h not_yields_fail
      · rintro ⟨same, _⟩
        exact absurd same (other s)

theorem expect_bind (same : ts.current.kind = kind) :
    Yields (expect kind >>= f) ts b us ↔ Yields (f ts.current) ts.advance b us :=
  Yields.bind_iff (yields_expect.mpr ⟨same, rfl, rfl⟩)

/-- A parser that starts with a keyword stands in front of it. -/
theorem expect_first (read : Yields (expect kind >>= f) ts b us) : ts.current.kind = kind := by
  obtain ⟨_, _, first, _⟩ := yields_bind.mp read
  exact (yields_expect.mp first).1

theorem ident_bind (same : ts.current.kind = .identifier s) :
    Yields (expectAnyIdent >>= g) ts b us ↔ Yields (g (s, ts.current)) ts.advance b us :=
  Yields.bind_iff (yields_expectAnyIdent.mpr ⟨same, rfl, rfl⟩)

omit [RustStd] in
theorem peek_bind : Yields (peek >>= f) ts b us ↔ Yields (f ts.current) ts b us :=
  Yields.bind_iff (yields_peek.mpr ⟨rfl, rfl⟩)

omit [RustStd] in
theorem advance_bind : Yields (advance >>= f) ts b us ↔ Yields (f ts.current) ts.advance b us :=
  Yields.bind_iff (yields_advance.mpr ⟨rfl, rfl⟩)

omit [RustStd] in
theorem ensure_bind {condition : Bool} {e : String} {g : Unit → Parse β}
    (holds : condition = true) :
    Yields (ensure condition e >>= g) ts b us ↔ Yields (g ()) ts b us :=
  Yields.bind_iff (yields_ensure.mpr ⟨holds, rfl⟩)

end

/-! ## One block -/

/-- A top-level block, read on `ts` up to `us`, makes `doc` the given state. -/
inductive BlockRead (src : List Char) (doc : DocState) (ts us : Tokens Token) :
    DocState → Prop where
  | signal {signal : SignalDecl} (read : Yields (parseSignal src doc.seenSignals) ts signal us) :
      BlockRead src doc ts us { doc with
        signals := doc.signals ++ [signal]
        seenSignals := insert signal.id doc.seenSignals }
  | reaction {reaction : RawReaction} (read : Yields (parseReactionRaw src) ts reaction us) :
      BlockRead src doc ts us { doc with rawReactions := doc.rawReactions ++ [reaction] }
  | guard {guard : GuardDecl} (read : Yields (parseGuardDecl src doc.seenGuardIds) ts guard us) :
      BlockRead src doc ts us { doc with
        guards := doc.guards ++ [guard]
        seenGuardIds := insert guard.id doc.seenGuardIds }
  | fork {members : List RawReaction} {n : Nat}
      (read : Yields (parseForkBlock src doc.forkCounter) ts (members, n + 1) us) :
      BlockRead src doc ts us { doc with
        forkCounter := n + 1
        forkGroups := doc.forkGroups ++ [forkName n]
        rawReactions := doc.rawReactions ++ members }
  | join {members : List RawReaction} {group : String}
      (read : Yields (parseJoinBlock src) ts (members, group) us) :
      BlockRead src doc ts us { doc with
        joinGroupRefs := doc.joinGroupRefs ++ [group]
        rawReactions := doc.rawReactions ++ members }
  | component {component : ComponentDeclRaw}
      (read : Yields (parseComponent src doc.seenComponentIds) ts component us) :
      BlockRead src doc ts us { doc with
        rawComponents := doc.rawComponents ++ [component]
        seenComponentIds := insert component.id doc.seenComponentIds }
  | instantiate {instantiate : InstantiateDecl} (read : Yields parseInstantiate ts instantiate us) :
      BlockRead src doc ts us { doc with instantiates := doc.instantiates ++ [instantiate] }

/-- The loop over the blocks ends with what was read, or reads one block. -/
theorem parseBlock_cases {src : List Char} {doc : DocState} {ts us : Tokens Token}
    {next : DocState ⊕ DocState} (h : Yields (parseBlock src doc) ts next us) :
    next = .inr doc ∨ ∃ doc', next = .inl doc' ∧ BlockRead src doc ts us doc' := by
  rw [parseBlock, peek_bind] at h
  split at h
  case h_1 => exact .inl (yields_pure.mp h).1
  case h_2 =>
    obtain ⟨signal, _, read, h⟩ := yields_bind.mp h
    obtain ⟨rfl, rfl⟩ := yields_pure.mp h
    exact .inr ⟨_, rfl, .signal read⟩
  case h_3 =>
    obtain ⟨reaction, _, read, h⟩ := yields_bind.mp h
    obtain ⟨rfl, rfl⟩ := yields_pure.mp h
    exact .inr ⟨_, rfl, .reaction read⟩
  case h_4 =>
    obtain ⟨guard, _, read, h⟩ := yields_bind.mp h
    obtain ⟨rfl, rfl⟩ := yields_pure.mp h
    exact .inr ⟨_, rfl, .guard read⟩
  case h_5 =>
    obtain ⟨⟨members, n⟩, _, read, h⟩ := yields_bind.mp h
    cases n with
    | zero => exact absurd h not_yields_panic
    | succ n =>
        obtain ⟨rfl, rfl⟩ := yields_pure.mp h
        exact .inr ⟨_, rfl, .fork read⟩
  case h_6 =>
    obtain ⟨⟨members, group⟩, _, read, h⟩ := yields_bind.mp h
    obtain ⟨rfl, rfl⟩ := yields_pure.mp h
    exact .inr ⟨_, rfl, .join read⟩
  case h_7 =>
    obtain ⟨component, _, read, h⟩ := yields_bind.mp h
    obtain ⟨rfl, rfl⟩ := yields_pure.mp h
    exact .inr ⟨_, rfl, .component read⟩
  case h_8 =>
    obtain ⟨instantiate, _, read, h⟩ := yields_bind.mp h
    obtain ⟨rfl, rfl⟩ := yields_pure.mp h
    exact .inr ⟨_, rfl, .instantiate read⟩
  case h_9 => exact absurd h not_yields_fail

/-- The loop goes on exactly over a block. -/
theorem parseBlock_inl {src : List Char} {ts us : Tokens Token} {doc doc' : DocState} :
    Yields (parseBlock src doc) ts (.inl doc') us ↔ BlockRead src doc ts us doc' := by
  constructor
  · intro h
    obtain other | ⟨_, same, read⟩ := parseBlock_cases h
    · cases other
    · cases same
      exact read
  · intro h
    cases h with
    | signal read | reaction read | guard read | fork read | join read | component read
    | instantiate read =>
        rw [parseBlock, peek_bind, expect_first read]
        exact read.bind (yields_pure.mpr ⟨rfl, rfl⟩)

/-- The loop ends exactly at `eof`. -/
theorem parseBlock_inr {src : List Char} {ts us : Tokens Token} {doc doc' : DocState} :
    Yields (parseBlock src doc) ts (.inr doc') us ↔ ts.current.kind = .eof ∧
      doc' = doc ∧ us = ts := by
  rw [parseBlock, peek_bind]
  constructor
  · intro h
    split at h
    case h_1 finish =>
      obtain ⟨same, rfl⟩ := yields_pure.mp h
      cases same
      exact ⟨finish, rfl, rfl⟩
    case h_9 => exact absurd h not_yields_fail
    case h_5 =>
      obtain ⟨⟨members, n⟩, _, _, h⟩ := yields_bind.mp h
      cases n with
      | zero => exact absurd h not_yields_panic
      | succ n => cases (yields_pure.mp h).1
    all_goals
      obtain ⟨_, _, _, h⟩ := yields_bind.mp h
      cases (yields_pure.mp h).1
  · rintro ⟨finish, rfl, rfl⟩
    rw [finish]
    exact yields_pure.mpr ⟨rfl, rfl⟩

/-- A run over blocks keeps what every block keeps. -/
theorem blocks_invariant {src : List Char} {inv : DocState → Prop} {doc final : DocState}
    {ts us : Tokens Token} {n : Nat} (run : Iterates (parseBlock src) n doc ts final us)
    (start : inv doc)
    (step : ∀ doc doc' ts us, inv doc → BlockRead src doc ts us doc' → inv doc') : inv final := by
  refine run.keeps start ?_ ?_
  · intro doc doc' ts us holds read
    obtain other | ⟨_, same, read⟩ := parseBlock_cases read
    · cases other
    · cases same
      exact step doc doc' ts us holds read
  · intro doc doc' ts us holds read
    obtain same | ⟨_, other, _⟩ := parseBlock_cases read
    · cases same
      exact holds
    · cases other

/-! ## The document -/

theorem yields_parseDoc {src : List Char} {ts us : Tokens Token} {doc : DdlDoc} :
    Yields (parseDoc src) ts doc us ↔ ∃ n ≤ ts.rest.length, ∃ final,
      Iterates (parseBlock src) n {} ts final us ∧ finishDoc final = .ok doc := by
  rw [parseDoc, yields_bind]
  constructor
  · rintro ⟨final, us', run, rest⟩
    obtain ⟨n, bound, run⟩ := yields_iterate.mp run
    split at rest
    · next out finished =>
        obtain ⟨rfl, rfl⟩ := yields_pure.mp rest
        exact ⟨n, bound, final, run, finished⟩
    · exact absurd rest not_yields_fail
  · rintro ⟨n, bound, final, run, finished⟩
    refine ⟨final, us, yields_iterate.mpr ⟨n, bound, run⟩, ?_⟩
    rw [finished]
    exact yields_pure.mpr ⟨rfl, rfl⟩

theorem parse_ok_iff {src : String} {tokens : List Token} {doc : DdlDoc} :
    parse tokens src = .ok doc ↔ ∃ t ts us, tokens = t :: ts ∧
      Yields (parseDoc src.toList) ⟨t, ts⟩ doc us := by
  cases tokens with
  | nil => simp [parse]
  | cons t ts =>
      rw [parse]
      constructor
      · intro parsed
        cases result : parseDoc src.toList ⟨t, ts⟩ with
        | error e =>
            rw [result] at parsed
            cases parsed
        | ok pair =>
            rw [result] at parsed
            cases parsed
            exact ⟨t, ts, pair.2, rfl, result⟩
      · rintro ⟨_, _, us, same, parsed⟩
        cases same
        rw [show parseDoc src.toList ⟨t, ts⟩ = .ok (doc, us) from parsed]
        rfl

/-! ## One component -/

/-- One repetition of the loop over the body of the component `id`. -/
def componentStep (src : List Char) (id : String) (body : BodyState) :
    Parse (BodyState ⊕ BodyState) := do
  let tok ← peek
  match tok.kind with
  | .port => do
      let port ← parsePort
      pure (.inl { body with ports := body.ports ++ [port] })
  | .signal => do
      let signal ← parseSignal src body.seenSignals
      pure (.inl { body with
        signals := body.signals ++ [signal]
        seenSignals := insert signal.id body.seenSignals })
  | .reaction => do
      let reaction ← parseReactionRaw src
      pure (.inl { body with rawReactions := body.rawReactions ++ [reaction] })
  | .rBrace => do
      let _ ← advance
      pure (.inr body)
  | .fork | .join => fail (tok.error
      "fork/join blocks are top-level only and cannot appear inside a component")
  | .eof => fail (tok.error ("unterminated component '" ++ id ++ "'"))
  | _ => fail (tok.error
      ("expected 'port', 'signal', 'reaction' or '\x7d' in component, found " ++
        tok.kind.debug))

/-- A declaration in a component, read on `ts` up to `us`. -/
inductive BodyRead (src : List Char) (body : BodyState) (ts us : Tokens Token) :
    BodyState → Prop where
  | port {port : PortDef} (read : Yields parsePort ts port us) :
      BodyRead src body ts us { body with ports := body.ports ++ [port] }
  | signal {signal : SignalDecl} (read : Yields (parseSignal src body.seenSignals) ts signal us) :
      BodyRead src body ts us { body with
        signals := body.signals ++ [signal]
        seenSignals := insert signal.id body.seenSignals }
  | reaction {reaction : RawReaction} (read : Yields (parseReactionRaw src) ts reaction us) :
      BodyRead src body ts us { body with rawReactions := body.rawReactions ++ [reaction] }

theorem componentStep_cases {src : List Char} {id : String} {body : BodyState}
    {ts us : Tokens Token} {next : BodyState ⊕ BodyState}
    (h : Yields (componentStep src id body) ts next us) :
    (next = .inr body ∧ ts.current.kind = .rBrace ∧ us = ts.advance) ∨
      ∃ body', next = .inl body' ∧ BodyRead src body ts us body' := by
  rw [componentStep, peek_bind] at h
  split at h
  case h_1 =>
    obtain ⟨port, _, read, h⟩ := yields_bind.mp h
    obtain ⟨rfl, rfl⟩ := yields_pure.mp h
    exact .inr ⟨_, rfl, .port read⟩
  case h_2 =>
    obtain ⟨signal, _, read, h⟩ := yields_bind.mp h
    obtain ⟨rfl, rfl⟩ := yields_pure.mp h
    exact .inr ⟨_, rfl, .signal read⟩
  case h_3 =>
    obtain ⟨reaction, _, read, h⟩ := yields_bind.mp h
    obtain ⟨rfl, rfl⟩ := yields_pure.mp h
    exact .inr ⟨_, rfl, .reaction read⟩
  case h_4 closing =>
    rw [advance_bind] at h
    obtain ⟨rfl, rfl⟩ := yields_pure.mp h
    exact .inl ⟨rfl, closing, rfl⟩
  all_goals exact absurd h not_yields_fail

/-- The loop over a body goes on exactly over a declaration. -/
theorem componentStep_inl {src : List Char} {ts us : Tokens Token} {id : String}
    {body body' : BodyState} :
    Yields (componentStep src id body) ts (.inl body') us ↔ BodyRead src body ts us body' := by
  constructor
  · intro h
    obtain ⟨other, _⟩ | ⟨_, same, read⟩ := componentStep_cases h
    · cases other
    · cases same
      exact read
  · intro h
    cases h with
    | port read | signal read | reaction read =>
        rw [componentStep, peek_bind, expect_first read]
        exact read.bind (yields_pure.mpr ⟨rfl, rfl⟩)

/-- The loop over a body ends exactly at its closing brace. -/
theorem componentStep_inr {src : List Char} {ts us : Tokens Token} {id : String}
    {body body' : BodyState} :
    Yields (componentStep src id body) ts (.inr body') us ↔
      ts.current.kind = .rBrace ∧ body' = body ∧ us = ts.advance := by
  constructor
  · intro h
    obtain ⟨same, closing, rfl⟩ | ⟨_, other, _⟩ := componentStep_cases h
    · cases same
      exact ⟨closing, rfl, rfl⟩
    · cases other
  · rintro ⟨closing, rfl, rfl⟩
    rw [componentStep, peek_bind, closing]
    exact advance_bind.mpr (yields_pure.mpr ⟨rfl, rfl⟩)

/-- A component is a run over its body. -/
theorem parseComponent_run {src : List Char} {seen : Finset String} {component : ComponentDeclRaw}
    {ts us : Tokens Token} (h : Yields (parseComponent src seen) ts component us) :
    ∃ n body ts', Iterates (componentStep src component.id) n {} ts' body us ∧
      component.ports = body.ports ∧ component.signals = body.signals ∧
      component.rawReactions = body.rawReactions := by
  obtain ⟨_, _, _, h⟩ := yields_bind.mp h
  obtain ⟨⟨id, _⟩, _, _, h⟩ := yields_bind.mp h
  obtain ⟨_, _, _, h⟩ := yields_bind.mp h
  obtain ⟨_, _, _, h⟩ := yields_bind.mp h
  rw [peek_bind] at h
  have body : ∀ (params : List String) (ts : Tokens Token),
      Yields (do
        let body ← iterate (componentStep src id) {}
        return { id, params, ports := body.ports, signals := body.signals
                 rawReactions := body.rawReactions }) ts component us →
      ∃ n body ts', Iterates (componentStep src component.id) n {} ts' body us ∧
        component.ports = body.ports ∧ component.signals = body.signals ∧
        component.rawReactions = body.rawReactions := by
    intro params ts h
    obtain ⟨body, _, looped, h⟩ := yields_bind.mp h
    obtain ⟨rfl, rfl⟩ := yields_pure.mp h
    obtain ⟨n, _, run⟩ := yields_iterate.mp looped
    exact ⟨n, body, ts, run, rfl, rfl, rfl⟩
  split at h
  · rw [advance_bind] at h
    obtain ⟨_, _, _, h⟩ := yields_bind.mp h
    obtain ⟨params, ts', _, h⟩ := yields_bind.mp h
    exact body params ts' h
  · exact body [] _ h

end SignalTopology.Ddl
