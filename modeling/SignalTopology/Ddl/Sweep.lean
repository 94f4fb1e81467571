import SignalTopology.Ddl.SideBySide
import SignalTopology.Library.Repetitions

/-!
# The sweep over the blocks

The loop of the parser as a relation: a sweep reads one block after the other, and a
document is read when a sweep comes to `eof` and the checks behind it succeed. What a
block adds to the document does not depend on what was read before, so a sweep can be
carried over to another document and another source.
-/

namespace SignalTopology.Ddl

open TokenParser

variable [RustStd]

section

variable {src : List Char} {ts us : Tokens Token}

/-! ## One source -/

omit [RustStd] in
/-- A border at the end, where nothing differs before it. -/
def wholeBorder : Border Token where
  rel := Eq
  here := ⟨Cursor.start.eof, []⟩
  there := ⟨Cursor.start.eof, []⟩
  last _ := ⟨rfl, rfl⟩

omit [RustStd] in
theorem Apart.self (src : List Char) : Apart src src wholeBorder where
  kind same := by rw [same]
  cut same same' _ _ sliced := by
    rw [← same, ← same']
    exact sliced
  border := .refl _
  head := ⟨rfl, by simp [wholeBorder, Cursor.eof]⟩

/-! ## Blocks -/

theorem BlockRead.takes {doc doc' : DocState} (h : BlockRead src doc ts us doc') :
    us.toList <:+ ts.advance.toList := by
  have own := Apart.self src
  have seen : ∀ ids : Finset String, ids ⊆ ids := fun ids => Finset.Subset.refl ids
  cases h with
  | signal read => exact (own.parseSignal (seen _)).takes read
  | reaction read => exact own.parseReactionRaw.takes read
  | guard read => exact (own.parseGuardDecl (seen _)).takes read
  | fork read => exact (own.parseForkBlock _).takes read
  | join read => exact own.parseJoinBlock.takes read
  | component read => exact (own.parseComponent (seen _)).takes read
  | instantiate read => exact own.parseInstantiate.takes read

theorem BlockRead.first {doc doc' : DocState} (h : BlockRead src doc ts us doc') :
    ts.current.kind ≠ .eof := by
  cases h with
  | signal read | reaction read | guard read | fork read | join read | component read
  | instantiate read =>
      rw [expect_first read]
      simp

theorem BlockRead.opens {doc doc' : DocState} (h : BlockRead src doc ts us doc') :
    ts.current.kind.opensBlock = true := by
  cases h with
  | signal read | reaction read | guard read | fork read | join read | component read
  | instantiate read =>
      rw [expect_first read]
      rfl

/-! ## Sweeps -/

theorem parseBlock_advances : Advances (fun t : Token => t.kind = .eof) (parseBlock src) := by
  intro doc ts doc' us h
  have read := parseBlock_inl.mp h
  exact ⟨read.takes, read.first⟩

/-- From the declarations read up to one place to those read up to another. -/
abbrev Sweep (src : List Char) : DocState × Tokens Token → DocState × Tokens Token → Prop :=
  Runs (parseBlock src)

/-- The stream ends with `eof`. -/
abbrev Ends (ts : Tokens Token) : Prop := ts.EndsIn fun t => t.kind = .eof

theorem Sweep.suffix {x y : DocState × Tokens Token} (h : Sweep src x y) :
    y.2.toList <:+ x.2.toList :=
  Runs.suffix h parseBlock_advances

/-- A sweep that comes to the end of the document is in front of a block before. -/
theorem Sweep.opens {x y : DocState × Tokens Token} (h : Sweep src x y)
    (finish : y.2.current.kind = .eof) :
    x.2.current.kind.opensBlock = true := by
  obtain same | ⟨_, turn, _⟩ := h.cases_head
  · rw [same, finish]
    rfl
  · exact (parseBlock_inl.mp turn).opens

theorem Sweep.block {x : DocState × Tokens Token} {doc doc' : DocState} (h : Sweep src x (doc, ts))
    (read : BlockRead src doc ts us doc') : Sweep src x (doc', us) :=
  h.tail (b := (doc, ts)) (parseBlock_inl.mpr read)

/-- Two sweeps from one place go the same way. -/
theorem Sweep.rest {x y z : DocState × Tokens Token} (h : Sweep src x y) (whole : Sweep src x z)
    (finish : z.2.current.kind = .eof) : Sweep src y z :=
  Runs.rest h whole fun _ _ turn => (parseBlock_inl.mp turn).first finish

/-- What every block keeps. -/
theorem Sweep.keeps (inv : DocState → Tokens Token → Prop) {x y : DocState × Tokens Token}
    (h : Sweep src x y) (start : inv x.1 x.2)
    (step : ∀ doc doc' ts us, inv doc ts → BlockRead src doc ts us doc' → inv doc' us) :
    inv y.1 y.2 :=
  Runs.keeps inv h start fun _ _ _ _ holds turn => step _ _ _ _ holds (parseBlock_inl.mp turn)

/-- A guard of the document is read on the way. -/
theorem Sweep.guard {x y : DocState × Tokens Token} (h : Sweep src x y) {g : GuardDecl}
    (member : g ∈ y.1.guards) : g ∈ x.1.guards ∨ ∃ doc ts us, Sweep src x (doc, ts) ∧
      Yields (parseGuardDecl src doc.seenGuardIds) ts g us := by
  induction h with
  | refl => exact .inl member
  | @tail y z earlier turn ih =>
      obtain ⟨doc, ts⟩ := y
      obtain ⟨doc', us⟩ := z
      have block := parseBlock_inl.mp turn
      cases block with
      | guard read =>
          rcases List.mem_append.mp member with before | here
          · exact ih before
          · obtain rfl := List.mem_singleton.mp here
            exact .inr ⟨doc, ts, us, earlier, read⟩
      | signal | reaction | fork | join | component | instantiate => exact ih member

/-- No guard is declared twice. -/
theorem Sweep.guards_nodup {x y : DocState × Tokens Token} (h : Sweep src x y)
    (fresh : x.1.guards = []) : (y.1.guards.map GuardDecl.id).Nodup := by
  refine (Sweep.keeps (fun doc _ => (doc.guards.map GuardDecl.id).Nodup ∧
    ∀ g ∈ doc.guards, g.id ∈ doc.seenGuardIds) h ?_ ?_).1
  · rw [fresh]
    exact ⟨List.nodup_nil, by simp⟩
  · rintro doc doc' ts us ⟨distinct, seen⟩ read
    cases read with
    | guard read =>
        obtain ⟨_, _, _, read⟩ := yields_bind.mp read
        obtain ⟨⟨id, tok⟩, _, _, read⟩ := yields_bind.mp read
        obtain ⟨_, _, unseen, read⟩ := yields_bind.mp read
        obtain ⟨_, _, _, read⟩ := yields_bind.mp read
        obtain ⟨rfl, _⟩ := yields_pure.mp read
        have new : id ∉ doc.seenGuardIds := by simpa using (yields_ensure.mp unseen).1
        refine ⟨?_, ?_⟩
        · rw [List.map_append, List.nodup_append]
          refine ⟨distinct, List.nodup_singleton _, ?_⟩
          intro a declared b own
          obtain rfl := List.mem_singleton.mp own
          obtain ⟨g, member, rfl⟩ := List.mem_map.mp declared
          rintro same
          exact new (same ▸ seen g member)
        · intro g member
          rcases List.mem_append.mp member with before | here
          · exact Finset.mem_insert_of_mem (seen g before)
          · obtain rfl := List.mem_singleton.mp here
            exact Finset.mem_insert_self _ _
    | signal | reaction | fork | join | component | instantiate => exact ⟨distinct, seen⟩

/-- What is read stays read. -/
theorem Sweep.grows {x y : DocState × Tokens Token} (h : Sweep src x y) :
    x.1.rawReactions <+: y.1.rawReactions ∧ x.1.rawComponents <+: y.1.rawComponents := by
  refine Sweep.keeps (fun doc _ => x.1.rawReactions <+: doc.rawReactions ∧
    x.1.rawComponents <+: doc.rawComponents) h ⟨List.prefix_refl _, List.prefix_refl _⟩ ?_
  rintro doc doc' ts us ⟨reactions, components⟩ read
  cases read with
  | reaction | fork | join => exact ⟨reactions.trans (List.prefix_append _ _), components⟩
  | component => exact ⟨reactions, components.trans (List.prefix_append _ _)⟩
  | signal | guard | instantiate => exact ⟨reactions, components⟩

/-- A document is read by a sweep over its blocks and the checks behind it. -/
theorem yields_parseDoc_iff {doc : DdlDoc} (ends : Ends ts) : Yields (parseDoc src) ts doc us ↔
    ∃ final, Sweep src ({}, ts) (final, us) ∧ us.current.kind = .eof ∧
      finishDoc final = .ok doc := by
  rw [parseDoc, yields_bind]
  constructor
  · rintro ⟨final, us', loop, rest⟩
    obtain ⟨doc', ts', swept, last⟩ := (yields_iterate_runs parseBlock_advances ends).mp loop
    obtain ⟨finish, rfl, rfl⟩ := parseBlock_inr.mp last
    split at rest
    · next finished =>
        obtain ⟨rfl, rfl⟩ := yields_pure.mp rest
        exact ⟨final, swept, finish, finished⟩
    · exact absurd rest not_yields_fail
  · rintro ⟨final, swept, finish, finished⟩
    refine ⟨final, us, (yields_iterate_runs parseBlock_advances ends).mpr
      ⟨final, us, swept, ?_⟩, ?_⟩
    · exact parseBlock_inr.mpr ⟨finish, rfl, rfl⟩
    · rw [finished]
      exact yields_pure.mpr ⟨rfl, rfl⟩

theorem ends_of_tokenize {src : String} {t : Token} {ts : List Token}
    (lexed : tokenize src = .ok (t :: ts)) : Ends ⟨t, ts⟩ := by
  obtain ⟨body, cur, _, whole⟩ := lexes_of_tokenize lexed
  exact ⟨body, cur.eof, whole, rfl⟩

/-- A text is read by a sweep over its tokens. -/
theorem parse_iff_sweep {src : String} {tokens : List Token} {doc : DdlDoc}
    (lexed : tokenize src = .ok tokens) : parse tokens src = .ok doc ↔ ∃ t ts final us,
      tokens = t :: ts ∧ Sweep src.toList ({}, ⟨t, ts⟩) (final, us) ∧ us.current.kind = .eof ∧
        finishDoc final = .ok doc := by
  rw [parse_ok_iff]
  constructor
  · rintro ⟨t, ts, us, rfl, parsed⟩
    obtain ⟨final, swept, finish, finished⟩ :=
      (yields_parseDoc_iff (ends_of_tokenize lexed)).mp parsed
    exact ⟨t, ts, final, us, rfl, swept, finish, finished⟩
  · rintro ⟨t, ts, final, us, rfl, swept, finish, finished⟩
    exact ⟨t, ts, us, rfl,
      (yields_parseDoc_iff (ends_of_tokenize lexed)).mpr ⟨final, swept, finish, finished⟩⟩

/-! ## Components -/

theorem BodyRead.takes {body body' : BodyState} (h : BodyRead src body ts us body') :
    us.toList <:+ ts.advance.toList := by
  have own := Apart.self src
  cases h with
  | port read => exact own.parsePort.takes read
  | signal read => exact (own.parseSignal (Finset.Subset.refl _)).takes read
  | reaction read => exact own.parseReactionRaw.takes read

omit [RustStd] in
theorem braceStep_advances {start : Nat} :
    Advances (fun t : Token => t.kind = .eof) (braceStep src start) := by
  intro depth ts depth' us turn
  obtain ⟨rfl, kinds⟩ := Parallel.yields_braceStep.mp turn
  refine ⟨List.suffix_refl _, fun finish : ts.current.kind = .eof => ?_⟩
  rw [finish] at kinds
  obtain ⟨other, _⟩ | ⟨other, _⟩ | ⟨⟨_, _, other⟩, _⟩ := kinds
  · cases other
  · cases other
  · exact other rfl

theorem componentStep_advances (id : String) :
    Advances (fun t : Token => t.kind = .eof) (componentStep src id) := by
  intro body ts body' us h
  have read := componentStep_inl.mp h
  refine ⟨read.takes, ?_⟩
  show ts.current.kind ≠ .eof
  cases read with
  | port read | signal read | reaction read =>
      rw [expect_first read]
      simp

/-- From the declarations of a body up to one place to those up to another. -/
abbrev BodySweep (src : List Char) (id : String) :
    BodyState × Tokens Token → BodyState × Tokens Token → Prop :=
  Runs (componentStep src id)

theorem BodySweep.grows {id : String} {x y : BodyState × Tokens Token} (h : BodySweep src id x y) :
    x.1.rawReactions <+: y.1.rawReactions := by
  refine Runs.keeps (fun body _ => x.1.rawReactions <+: body.rawReactions) h (List.prefix_refl _) ?_
  intro body body' ts us before turn
  have read := componentStep_inl.mp turn
  cases read with
  | reaction => exact before.trans (List.prefix_append _ _)
  | port | signal => exact before

/-- A component is its head, a sweep over its body and the closing brace. -/
theorem yields_parseComponent {seen : Finset String} {component : ComponentDeclRaw}
    (ends : Ends ts) :
    Yields (parseComponent src seen) ts component us ↔
      ∃ ts₀ body ts₁, Yields (componentHead seen) ts (component.id, component.params) ts₀ ∧
        BodySweep src component.id ({}, ts₀) (body, ts₁) ∧ ts₁.current.kind = .rBrace ∧
        us = ts₁.advance ∧ component = {
          id := component.id, params := component.params, ports := body.ports
          signals := body.signals, rawReactions := body.rawReactions } := by
  have inside : ∀ {head ts₀}, Yields (componentHead seen) ts head ts₀ → Ends ts₀ := fun read =>
    ends.suffix (((Apart.self src).componentHead (Finset.Subset.refl _)).consumes read)
  rw [parseComponent_eq, yields_bind]
  constructor
  · rintro ⟨⟨id, params⟩, ts₀, head, rest⟩
    obtain ⟨body, _, loop, rest⟩ := yields_bind.mp rest
    obtain ⟨rfl, rfl⟩ := yields_pure.mp rest
    obtain ⟨body', ts₁, swept, last⟩ :=
      (yields_iterate_runs (componentStep_advances _) (inside head)).mp loop
    obtain ⟨closing, rfl, rfl⟩ := componentStep_inr.mp last
    exact ⟨ts₀, body, ts₁, head, swept, closing, rfl, rfl⟩
  · rintro ⟨ts₀, body, ts₁, head, swept, closing, rfl, whole⟩
    refine ⟨_, ts₀, head, yields_bind.mpr ⟨body, ts₁.advance, ?_, yields_pure.mpr ⟨whole, rfl⟩⟩⟩
    refine (yields_iterate_runs (componentStep_advances _) (inside head)).mpr ⟨body, ts₁, swept, ?_⟩
    exact componentStep_inr.mpr ⟨closing, rfl, rfl⟩

end

end SignalTopology.Ddl
