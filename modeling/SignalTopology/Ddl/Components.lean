import SignalTopology.Ddl.Entries

/-!
# Parsing components

Ports, parameters, the members of a component, and the instantiation of one.
-/

namespace SignalTopology.Ddl

open TokenParser

variable [RustStd]

section

variable {src : List Char} {ps : List Piece} {ts us : Tokens Token}

/-! ## Ports -/

theorem IsWord.nonempty {s : String} (h : IsWord s) : s.toList ≠ [] := by
  rintro empty
  obtain ⟨c, first, _⟩ := h.first
  rw [empty] at first
  cases first

theorem access_reads {signal state : String} (left : IsWord signal) (right : IsWord state) :
    Reads (Piece.access signal state).text (Piece.access signal state).kinds := by
  intro cur more stops
  have front := @IsWord.lexes _ _ left cur ('.' :: (state.toList ++ more)) fun d first => by
    cases first
    rw [isWordChar_ascii (by decide)]
    decide
  have dot := @lexes_symbol _ '.' .dot (cur.past signal.toList) (state.toList ++ more) (by decide)
    rfl (by decide) fun _ _ => rfl
  have back := right.lexes ((cur.past signal.toList).past ['.']) fun d first => by
    have inside : Stops ((signal.toList ++ ['.']) ++ state.toList) d := by
      rw [List.append_assoc]
      exact stops d first
    exact inside.suffix.word _ (List.getLast?_eq_getLast_of_ne_nil right.nonempty)
      (right.all _ (List.getLast_mem right.nonempty))
  have whole := front.trans (dot.trans back)
  have text : (Piece.access signal state).text ++ more =
      signal.toList ++ '.' :: (state.toList ++ more) := by
    simp [Piece.access]
  rw [text]
  exact ⟨_, _, whole, rfl, ⟨_, rfl, rfl⟩, ⟨_, rfl, rfl⟩⟩

/-- The three tokens of `signal.state`. -/
theorem At.access {signal state : String} (h : At src (.access signal state :: ps) ts)
    (left : IsName signal) (right : IsName state) :
    ts.current.kind = .identifier signal ∧ ts.advance.current.kind = .dot ∧
      ts.advance.advance.current.kind = .identifier state ∧
      At src ps ts.advance.advance.advance ∧
      ts.rest.length = ts.advance.advance.advance.rest.length + 3 := by
  obtain ⟨toks, us, split, kinds, after, _⟩ := h.piece (access_reads left.toIsWord right.toIsWord)
  obtain ⟨t₁, toks, rfl, first, kinds⟩ := List.map_eq_cons_iff.mp kinds
  obtain ⟨t₂, toks, rfl, second, kinds⟩ := List.map_eq_cons_iff.mp kinds
  obtain ⟨t₃, toks, rfl, third, kinds⟩ := List.map_eq_cons_iff.mp kinds
  rw [List.map_eq_nil_iff] at kinds
  subst kinds
  obtain ⟨current, rest⟩ := ts
  cases split
  rw [left.kind] at first
  rw [right.kind] at third
  exact ⟨first, second, third, after, rfl⟩

theorem isName_direction (direction : PortDirection) : IsName (directionWord direction) := by
  cases direction <;> exact isName_ascii (by decide) (by decide)

/-- A port is read as written. -/
theorem At.printedPort {port : PortDef} (h : At src (portPieces port ++ ps) ts)
    (printed : PortPrinted port) (other : ∀ us, At src ps us → us.current.kind ≠ .as) :
    ∃ us, At src ps us ∧ ts.current.kind = .port ∧ us.rest.length < ts.rest.length ∧
      Yields parsePort ts port us := by
  rw [portPieces, List.append_assoc] at h
  obtain ⟨opening, at₁, length₁⟩ := At.keyword .port h rfl (by decide)
  obtain ⟨word, at₂, length₂⟩ := at₁.name (isName_direction port.direction)
  obtain ⟨left, dot, right, at₃, length₃⟩ := At.access at₂ printed.signal printed.state
  obtain ⟨direction, signal, state, «alias»⟩ := port
  cases «alias» with
  | none =>
      refine ⟨_, at₃, opening, by omega, ?_⟩
      rw [parsePort, expect_bind opening, ident_bind word]
      refine @Yields.bind _ _ _ _ _ _ _ ts.advance.advance _ direction _ ?_ ?_
      · cases direction <;> exact yields_pure.mpr ⟨rfl, rfl⟩
      dsimp only
      rw [ident_bind left, expect_bind dot, ident_bind right, peek_bind, if_neg (other _ at₃)]
      exact yields_pure.mpr ⟨rfl, rfl⟩
  | some name =>
      obtain ⟨as, at₄, length₄⟩ := At.keyword .as at₃ rfl (by decide)
      obtain ⟨ident, after, length₅⟩ := at₄.name (printed.alias name rfl)
      refine ⟨_, after, opening, by omega, ?_⟩
      rw [parsePort, expect_bind opening, ident_bind word]
      refine @Yields.bind _ _ _ _ _ _ _ ts.advance.advance _ direction _ ?_ ?_
      · cases direction <;> exact yields_pure.mpr ⟨rfl, rfl⟩
      dsimp only
      rw [ident_bind left, expect_bind dot, ident_bind right, peek_bind, if_pos as, advance_bind,
        ident_bind ident]
      exact yields_pure.mpr ⟨rfl, rfl⟩

/-! ## Instantiation -/

theorem At.arrowPair {pair : String × String} (h : At src (arrowPieces pair ++ ps) ts)
    (left : IsName pair.1) (right : IsName pair.2) :
    ∃ us, At src ps us ∧ us.rest.length < ts.rest.length ∧ ts.current.kind ≠ .rBrace ∧
      Yields parseArrowPair ts pair us := by
  obtain ⟨first, at₁, length₁⟩ := At.name h left
  obtain ⟨arrow, at₂, length₂⟩ := at₁.arrow
  obtain ⟨second, after, length₃⟩ := at₂.name right
  refine ⟨_, after, by omega, by simp [first], ?_⟩
  rw [parseArrowPair, ident_bind first, expect_bind arrow, ident_bind second]
  exact yields_pure.mpr ⟨rfl, rfl⟩

theorem At.printedArrows {arrows : Arrows} (h : At src (arrows.pieces ++ ps) ts)
    (printed : arrows.Printed) :
    ∃ us, At src ps us ∧ us.rest.length < ts.rest.length ∧
      Yields (Ddl.commaList .lBrace .rBrace parseArrowPair) ts arrows.pairs us := by
  have same : arrows.pieces ++ ps = .symbol '{' .lBrace ::
      (listPieces arrowPieces arrows.pairs arrows.trailing ++ .symbol '}' .rBrace :: ps) := by
    obtain ⟨pairs, trailing⟩ := arrows
    cases pairs <;> simp [Arrows.pieces, listPieces, Piece.lBrace, Piece.rBrace]
  rw [same] at h
  have read := @At.commaList _ _ _ _ _ _ _ id parseArrowPair _ _ _ _ _ _ h
    ⟨by decide, rfl, by decide⟩ ⟨by decide, rfl, by decide⟩
      (by decide) fun pair member ps ts front =>
      At.arrowPair front (printed pair member).1 (printed pair member).2
  rw [List.map_id] at read
  exact read

/-- An instantiation is read as written, but for the name of the instance. -/
theorem At.printedInstantiate {comp name : String} {bindings : Arrows} {connections : Option Arrows}
    (h : At src ((Item.instantiate comp name bindings connections).pieces ++ ps) ts)
    (printed : (Item.instantiate comp name bindings connections).Printed)
    (other : ∀ us, At src ps us → us.current.kind ≠ .connect) :
    ∃ us, At src ps us ∧ ts.current.kind = .instantiate ∧ us.rest.length < ts.rest.length ∧
      Yields parseInstantiate ts
        { component := comp, bindings := bindings.map
          connections := (connections.map Arrows.connections).getD [] } us := by
  obtain ⟨component, own, bound, connected⟩ := printed
  simp only [Item.pieces, List.append_assoc, List.cons_append, List.nil_append] at h
  obtain ⟨opening, at₁, length₁⟩ := At.keyword .instantiate h rfl (by decide)
  obtain ⟨ident, at₂, length₂⟩ := at₁.name component
  obtain ⟨as, at₃, length₃⟩ := At.keyword .as at₂ rfl (by decide)
  obtain ⟨ident', at₄, length₄⟩ := at₃.name own
  obtain ⟨within, at₅, length₅⟩ := At.keyword .with at₄ rfl (by decide)
  obtain ⟨us₁, at₆, length₆, pairs⟩ := At.printedArrows at₅ bound
  have map : Yields parseBindingMap ts.advance.advance.advance.advance.advance bindings.map us₁ :=
    pairs.bind (yields_pure.mpr ⟨rfl, rfl⟩)
  cases connections with
  | none =>
      refine ⟨us₁, at₆, opening, by omega, ?_⟩
      rw [parseInstantiate, expect_bind opening, ident_bind ident, expect_bind as,
        ident_bind ident', expect_bind within, map.bind_iff, peek_bind, if_neg (other _ at₆)]
      exact yields_pure.mpr ⟨rfl, rfl⟩
  | some arrows =>
      obtain ⟨connect, at₇, length₇⟩ := At.keyword .connect at₆ rfl (by decide)
      obtain ⟨us₂, after, length₈, pairs'⟩ := At.printedArrows at₇ (connected arrows rfl)
      have list : Yields parseConnectionMap us₁.advance arrows.connections us₂ :=
        pairs'.bind (yields_pure.mpr ⟨rfl, rfl⟩)
      refine ⟨us₂, after, opening, by omega, ?_⟩
      rw [parseInstantiate, expect_bind opening, ident_bind ident, expect_bind as,
        ident_bind ident',
        expect_bind within, map.bind_iff, peek_bind, if_pos connect, advance_bind, list.bind_iff]
      exact yields_pure.mpr ⟨rfl, rfl⟩

/-! ## Components -/

/-- Names that are new, each of them given once. -/
structure Unseen (names : List String) (seen : Finset String) : Prop where
  distinct : names.Nodup
  fresh : ∀ name ∈ names, name ∉ seen

omit [RustStd] in
/-- Once the first names are given, the others are still new. -/
theorem Unseen.later {own names : List String} {seen seen' : Finset String}
    (h : Unseen (own ++ names) seen) (only : ∀ name ∈ seen', name ∈ seen ∨ name ∈ own) :
    Unseen names seen' := by
  obtain ⟨_, distinct, apart⟩ := List.nodup_append.mp h.distinct
  refine ⟨distinct, fun name member given => ?_⟩
  rcases only name given with before | first
  · exact h.fresh name (List.mem_append_right _ member) before
  · exact apart name first name member rfl

/-- The declarations of a component read so far with one more. -/
def BodyState.take (body : BodyState) : Member → BodyState
  | .port p => { body with ports := body.ports ++ [p] }
  | .signal s => { body with
      signals := body.signals ++ [s.decl]
      seenSignals := insert s.id body.seenSignals }
  | .reaction c => { body with rawReactions := body.rawReactions ++ [c.raw none []] }

/-- Where the next member or the end of the component stands. -/
theorem At.memberFront {members : List Member}
    (h : At src (members.flatMap Member.pieces ++ .rBrace :: ps) ts) :
    ts.current.kind ≠ .as ∧ ts.current.kind ≠ .params := by
  cases members with
  | nil => simp [(At.rBrace h).1]
  | cons member members =>
      rw [List.flatMap_cons, List.append_assoc] at h
      cases member with
      | port port => simp [(At.keyword .port h rfl (by decide)).1]
      | signal s => simp [(At.keyword .signal h rfl (by decide)).1]
      | reaction c => simp [(At.keyword .reaction h rfl (by decide)).1]

/-- One member is read. -/
theorem At.printedMember {member : Member} {members : List Member} {id : String} {body : BodyState}
    (h : At src (member.pieces ++ (members.flatMap Member.pieces ++ .rBrace :: ps)) ts)
    (printed : member.Printed) (plain : ∀ c ∈ member.clauses, c.Plain)
    (fresh : ∀ sig ∈ member.signals, sig.id ∉ body.seenSignals) :
    ∃ us, At src (members.flatMap Member.pieces ++ .rBrace :: ps) us ∧
      us.rest.length < ts.rest.length ∧
      Yields (componentStep src id body) ts (.inl (body.take member)) us := by
  cases member with
  | port port =>
      obtain ⟨us, after, opening, shorter, read⟩ := At.printedPort h printed fun _ front =>
        (At.memberFront front).1
      refine ⟨us, after, shorter, ?_⟩
      rw [componentStep, peek_bind, opening]
      exact read.bind (yields_pure.mpr ⟨rfl, rfl⟩)
  | signal s =>
      obtain ⟨us, after, opening, shorter, read⟩ := At.printedSignal h printed
        (fresh _ (List.mem_singleton.mpr rfl))
      refine ⟨us, after, shorter, ?_⟩
      rw [componentStep, peek_bind, opening]
      exact read.bind (yields_pure.mpr ⟨rfl, rfl⟩)
  | reaction c =>
      obtain ⟨us, after, opening, shorter, read⟩ := At.reactionBlock h printed
        (plain c (List.mem_singleton.mpr rfl))
      refine ⟨us, after, shorter, ?_⟩
      rw [componentStep, peek_bind, opening]
      exact read.bind (yields_pure.mpr ⟨rfl, rfl⟩)

/-- The loop over the members of a component. -/
theorem At.printedBody {members : List Member} {id : String} {body : BodyState}
    (h : At src (members.flatMap Member.pieces ++ .rBrace :: ps) ts)
    (printed : ∀ member ∈ members, member.Printed)
    (plain : ∀ c ∈ members.flatMap Member.clauses, c.Plain)
    (names : Unseen ((members.flatMap Member.signals).map SignalDecl.id) body.seenSignals) :
    ∃ us, At src ps us ∧ us.rest.length < ts.rest.length ∧ members.length ≤ ts.rest.length ∧
      Iterates (componentStep src id) members.length body ts (members.foldl BodyState.take body)
        us := by
  induction members generalizing ts body with
  | nil =>
      obtain ⟨close, after, length⟩ := At.rBrace h
      refine ⟨_, after, by omega, Nat.zero_le _, .done ?_⟩
      rw [componentStep, peek_bind, close, advance_bind]
      exact yields_pure.mpr ⟨rfl, rfl⟩
  | cons member members ih =>
      rw [List.flatMap_cons, List.append_assoc] at h
      rw [List.flatMap_cons] at plain
      rw [List.flatMap_cons, List.map_append] at names
      obtain ⟨us₁, at₁, shorter, read⟩ := @At.printedMember _ _ _ _ _ _ id body h
        (printed member List.mem_cons_self) (fun c own => plain c (List.mem_append_left _ own))
        fun sig own => names.fresh _ (List.mem_append_left _ (List.mem_map_of_mem own))
      have unseen : Unseen ((members.flatMap Member.signals).map SignalDecl.id)
          (body.take member).seenSignals := by
        refine names.later fun name given => ?_
        cases member with
        | port _ | reaction _ => exact .inl given
        | signal s =>
            rcases Finset.mem_insert.mp given with rfl | given
            · exact .inr List.mem_cons_self
            · exact .inl given
      obtain ⟨us, after, shorter', length, run⟩ := ih at₁
        (fun m inside => printed m (List.mem_cons_of_mem _ inside))
        (fun c inside => plain c (List.mem_append_right _ inside)) unseen
      refine ⟨us, after, by omega, ?_, .step read run⟩
      rw [List.length_cons]
      omega

/-- What the members of a component add up to. -/
theorem BodyState.foldl_take (members : List Member) (body : BodyState) :
    (members.foldl BodyState.take body).ports = body.ports ++ members.flatMap Member.ports ∧
      (members.foldl BodyState.take body).signals =
        body.signals ++ members.flatMap Member.signals ∧
      (members.foldl BodyState.take body).rawReactions = body.rawReactions ++
        (members.flatMap Member.clauses).map (WhenClause.raw none []) := by
  induction members generalizing body with
  | nil => simp
  | cons member members ih =>
      obtain ⟨ports, signals, rawReactions⟩ := ih (body.take member)
      rw [List.foldl_cons, ports, signals, rawReactions]
      cases member <;> simp [take, Member.ports, Member.signals, Member.clauses]

/-- A component before its guards are resolved. -/
def memberRaw (id : String) (params : Option (List String × Bool)) (members : List Member) :
    ComponentDeclRaw where
  id := id
  params := (params.map Prod.fst).getD []
  ports := members.flatMap Member.ports
  signals := members.flatMap Member.signals
  rawReactions := (members.flatMap Member.clauses).map (WhenClause.raw none [])

/-- A component is read with its members in order. -/
theorem At.printedComponent {id : String} {params : Option (List String × Bool)}
    {members : List Member} {seen : Finset String}
    (h : At src ((Item.component id params members).pieces ++ ps) ts)
    (printed : (Item.component id params members).Printed) (fresh : id ∉ seen)
    (plain : ∀ c ∈ members.flatMap Member.clauses, c.Plain)
    (distinct : ((members.flatMap Member.signals).map SignalDecl.id).Nodup) :
    ∃ us, At src ps us ∧ ts.current.kind = .component ∧ us.rest.length < ts.rest.length ∧
      Yields (parseComponent src seen) ts (memberRaw id params members) us := by
  obtain ⟨name, names, inside⟩ := printed
  simp only [Item.pieces, List.append_assoc, List.cons_append, List.nil_append] at h
  obtain ⟨opening, at₁, length₁⟩ := At.keyword .component h rfl (by decide)
  obtain ⟨ident, at₂, length₂⟩ := at₁.name name
  obtain ⟨brace, at₃, length₃⟩ := at₂.lBrace
  -- the body, once the parameters are read
  have body : ∀ {ts : Tokens Token} (list : List String),
      At src (members.flatMap Member.pieces ++ .rBrace :: ps) ts →
      ∃ us, At src ps us ∧ us.rest.length < ts.rest.length ∧
        Yields (do
          let body ← iterate (componentStep src id) {}
          return { id, params := list, ports := body.ports, signals := body.signals
                   rawReactions := body.rawReactions }) ts
          { memberRaw id params members with params := list } us := by
    intro ts list front
    obtain ⟨us, after, shorter, length, run⟩ := @At.printedBody _ _ _ _ _ id {} front inside plain
      ⟨distinct, fun _ _ given => Finset.notMem_empty _ given⟩
    obtain ⟨ports, signals, rawReactions⟩ := BodyState.foldl_take members {}
    refine ⟨us, after, shorter, (yields_iterate.mpr ⟨_, length, run⟩).bind ?_⟩
    rw [ports, signals, rawReactions]
    exact yields_pure.mpr ⟨rfl, rfl⟩
  cases params with
  | none =>
      obtain ⟨us, after, shorter, read⟩ := body [] at₃
      refine ⟨us, after, opening, by omega, ?_⟩
      rw [parseComponent, expect_bind opening, ident_bind ident]
      refine (ensure_bind (by simpa using fresh)).mpr ?_
      rw [expect_bind brace, peek_bind, if_neg (At.memberFront at₃).2]
      exact read
  | some list =>
      simp only [paramPieces, List.append_assoc, List.cons_append, List.nil_append] at at₃
      obtain ⟨word, at₄, length₄⟩ := At.keyword .params at₃ rfl (by decide)
      obtain ⟨colon, at₅, length₅⟩ := At.colon at₄
      obtain ⟨us₁, at₆, length₆, read⟩ := At.stateList at₅ (names list.1 list.2 rfl)
      obtain ⟨us, after, shorter, rest⟩ := body list.1 at₆
      refine ⟨us, after, opening, by omega, ?_⟩
      rw [parseComponent, expect_bind opening, ident_bind ident]
      refine (ensure_bind (by simpa using fresh)).mpr ?_
      rw [expect_bind brace, peek_bind, if_pos word, advance_bind, expect_bind colon, read.bind_iff]
      exact rest

end

end SignalTopology.Ddl
