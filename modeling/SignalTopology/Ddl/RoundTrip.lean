import SignalTopology.Ddl.Components
import SignalTopology.Ddl.Readable

/-!
# Parsing undoes writing

The loop over the blocks of a document, the pieces of every block as text that the
lexer reads, and the resolution of the guards. Together they return the document
that was written.
-/

namespace SignalTopology.Ddl

open Fallible TokenParser

variable [RustStd]

section

variable {src : List Char} {ps : List Piece} {ts us : Tokens Token}

/-! ## Blocks -/

/-- The reactions of a block before their guards are resolved. -/
def Item.raws (n : Nat) : Item → List RawReaction
  | reaction c => [c.raw none []]
  | fork clauses => clauses.map (WhenClause.raw (some (forkName n)) [])
  | join group clauses => clauses.map (WhenClause.raw none [group])
  | _ => []

/-- The declarations read so far with those of one more block. -/
def DocState.take (doc : DocState) : Item → DocState
  | .signal s => { doc with
      signals := doc.signals ++ [s.decl]
      seenSignals := insert s.id doc.seenSignals }
  | .reaction c => { doc with rawReactions := doc.rawReactions ++ [c.raw none []] }
  | .guard id _ expr _ => { doc with
      guards := doc.guards ++ [{ id, expr := String.ofList expr }]
      seenGuardIds := insert id doc.seenGuardIds }
  | .fork clauses => { doc with
      forkCounter := doc.forkCounter + 1
      forkGroups := doc.forkGroups ++ [forkName doc.forkCounter]
      rawReactions := doc.rawReactions ++
        clauses.map (WhenClause.raw (some (forkName doc.forkCounter)) []) }
  | .join group clauses => { doc with
      joinGroupRefs := doc.joinGroupRefs ++ [group]
      rawReactions := doc.rawReactions ++ clauses.map (WhenClause.raw none [group]) }
  | .component id params members => { doc with
      rawComponents := doc.rawComponents ++ [memberRaw id params members]
      seenComponentIds := insert id doc.seenComponentIds }
  | .instantiate comp name bindings connections => { doc with
      instantiates := doc.instantiates ++
        (Item.instantiate comp name bindings connections).instantiates }

/-- The names that a block declares are new, and its guards are no clauses. -/
structure DocState.Admits (doc : DocState) (item : Item) : Prop where
  signals : ∀ sig ∈ item.signals, sig.id ∉ doc.seenSignals
  guards : ∀ guard ∈ item.guards, guard.id ∉ doc.seenGuardIds
  components : ∀ component ∈ item.components [], component.id ∉ doc.seenComponentIds
  inside : ∀ id params members, item = .component id params members →
    ((members.flatMap Member.signals).map SignalDecl.id).Nodup
  plain : ∀ c ∈ item.clauses, c.Plain

/-- Where the next block or the end stands. -/
theorem At.itemFront {items : List Item} (h : At src (items.flatMap Item.pieces) ts) :
    ts.current.kind ≠ .connect := by
  cases items with
  | nil => simp [h.finish]
  | cons item items =>
      rw [List.flatMap_cons] at h
      cases item with
      | signal s => simp [(At.keyword .signal h rfl (by decide)).1]
      | reaction c => simp [(At.keyword .reaction h rfl (by decide)).1]
      | guard id front expr back => simp [(At.keyword .guard h rfl (by decide)).1]
      | fork clauses => simp [(At.keyword .fork h rfl (by decide)).1]
      | join group clauses => simp [(At.keyword .join h rfl (by decide)).1]
      | component id params members => simp [(At.keyword .component h rfl (by decide)).1]
      | instantiate comp name bindings connections =>
          simp [(At.keyword .instantiate h rfl (by decide)).1]

/-- One block is read. -/
theorem At.printedItem {item : Item} {items : List Item} {doc : DocState}
    (h : At src (item.pieces ++ items.flatMap Item.pieces) ts) (printed : item.Printed)
    (admitted : doc.Admits item) :
    ∃ us, At src (items.flatMap Item.pieces) us ∧ us.rest.length < ts.rest.length ∧
      Yields (parseBlock src doc) ts (.inl (doc.take item)) us := by
  have plain := admitted.plain
  cases item with
  | signal s =>
      obtain ⟨us, after, opening, shorter, read⟩ := At.printedSignal h printed
        (admitted.signals _ (List.mem_singleton.mpr rfl))
      refine ⟨us, after, shorter, ?_⟩
      rw [parseBlock, peek_bind, opening]
      exact read.bind (yields_pure.mpr ⟨rfl, rfl⟩)
  | reaction c =>
      obtain ⟨us, after, opening, shorter, read⟩ := At.reactionBlock h printed
        (plain c (List.mem_singleton.mpr rfl))
      refine ⟨us, after, shorter, ?_⟩
      rw [parseBlock, peek_bind, opening]
      exact read.bind (yields_pure.mpr ⟨rfl, rfl⟩)
  | guard id front expr back =>
      obtain ⟨us, after, opening, shorter, read⟩ := At.printedGuardDecl h printed
        (admitted.guards _ (List.mem_singleton.mpr rfl))
      refine ⟨us, after, shorter, ?_⟩
      rw [parseBlock, peek_bind, opening]
      exact read.bind (yields_pure.mpr ⟨rfl, rfl⟩)
  | fork clauses =>
      obtain ⟨us, after, opening, shorter, read⟩ :=
        @At.printedFork _ _ _ _ _ doc.forkCounter h printed plain
      refine ⟨us, after, shorter, ?_⟩
      rw [parseBlock, peek_bind, opening]
      exact read.bind (yields_pure.mpr ⟨rfl, rfl⟩)
  | join group clauses =>
      obtain ⟨us, after, opening, shorter, read⟩ := At.printedJoin h printed.1 printed.2 plain
      refine ⟨us, after, shorter, ?_⟩
      rw [parseBlock, peek_bind, opening]
      exact read.bind (yields_pure.mpr ⟨rfl, rfl⟩)
  | component id params members =>
      obtain ⟨us, after, opening, shorter, read⟩ := At.printedComponent h printed
        (admitted.components _ (List.mem_singleton.mpr rfl)) plain
        (admitted.inside id params members rfl)
      refine ⟨us, after, shorter, ?_⟩
      rw [parseBlock, peek_bind, opening]
      exact read.bind (yields_pure.mpr ⟨rfl, rfl⟩)
  | instantiate comp name bindings connections =>
      obtain ⟨us, after, opening, shorter, read⟩ := At.printedInstantiate h printed fun _ front =>
        At.itemFront front
      refine ⟨us, after, shorter, ?_⟩
      rw [parseBlock, peek_bind, opening]
      exact read.bind (yields_pure.mpr ⟨rfl, rfl⟩)

/-- The names that blocks declare are new, each of them given once. -/
structure DocState.Open (doc : DocState) (items : List Item) : Prop where
  signals : Unseen ((items.flatMap Item.signals).map SignalDecl.id) doc.seenSignals
  guards : Unseen ((items.flatMap Item.guards).map GuardDecl.id) doc.seenGuardIds
  components :
    Unseen ((items.flatMap (Item.components [])).map ComponentDecl.id) doc.seenComponentIds
  inside : ∀ id params members, .component id params members ∈ items →
    ((members.flatMap Member.signals).map SignalDecl.id).Nodup
  plain : ∀ item ∈ items, ∀ c ∈ item.clauses, c.Plain

variable {doc : DocState} {item : Item} {items : List Item}

theorem DocState.Open.admits (h : doc.Open (item :: items)) : doc.Admits item where
  signals _ own := h.signals.fresh _ (List.mem_map_of_mem (List.mem_flatMap_of_mem
    List.mem_cons_self own))
  guards _ own := h.guards.fresh _ (List.mem_map_of_mem (List.mem_flatMap_of_mem
    List.mem_cons_self own))
  components _ own := h.components.fresh _ (List.mem_map_of_mem (List.mem_flatMap_of_mem
    List.mem_cons_self own))
  inside id params members same := h.inside id params members (same ▸ List.mem_cons_self)
  plain := h.plain item List.mem_cons_self

theorem DocState.Open.later (h : doc.Open (item :: items)) : (doc.take item).Open items := by
  have signals := h.signals
  have guards := h.guards
  have components := h.components
  rw [List.flatMap_cons, List.map_append] at signals guards components
  refine ⟨signals.later ?_, guards.later ?_, components.later ?_,
    fun id params members inside => h.inside id params members (List.mem_cons_of_mem _ inside),
    fun i inside => h.plain i (List.mem_cons_of_mem _ inside)⟩
  all_goals
    intro name given
    cases item
    case signal | guard | component =>
      first
        | exact .inl given
        | exact (Finset.mem_insert.mp given).symm.imp_right fun same => List.mem_singleton.mpr same
    all_goals exact .inl given

/-- The loop over the blocks reads them all. -/
theorem At.printedItems (h : At src (items.flatMap Item.pieces) ts)
    (printed : ∀ item ∈ items, item.Printed) (admitted : doc.Open items) :
    items.length ≤ ts.rest.length ∧
      ∃ us, Iterates (parseBlock src) items.length doc ts (items.foldl DocState.take doc) us := by
  induction items generalizing ts doc with
  | nil =>
      refine ⟨Nat.zero_le _, ts, .done ?_⟩
      rw [parseBlock, peek_bind, h.finish]
      exact yields_pure.mpr ⟨rfl, rfl⟩
  | cons item items ih =>
      rw [List.flatMap_cons] at h
      obtain ⟨us₁, at₁, shorter, read⟩ := At.printedItem h (printed item List.mem_cons_self)
        admitted.admits
      obtain ⟨length, us, run⟩ := ih at₁ (fun i inside => printed i (List.mem_cons_of_mem _ inside))
        admitted.later
      refine ⟨?_, us, .step read run⟩
      rw [List.length_cons]
      omega

/-! ## The source as tokens -/

namespace Readable

theorem printedOn {c : OnClause} {states : List String} (printed : c.Printed states) :
    Readable c.pieces :=
  onClause printed.named fun g same => (printed.guard g same).1.legible

theorem printedWhen {c : WhenClause} (printed : c.Printed) : Readable c.pieces := by
  refine whenClause printed.named (fun g same => (printed.guard g same).1.legible) fun raw same =>
    ?_
  obtain ⟨kinds, legible, _⟩ := (printed.payload raw same).legible
  exact ⟨_, legible⟩

theorem signalBlock {s : SignalBlock} (printed : s.Printed) : Readable s.pieces := by
  refine append (keyword (by decide) (name printed.id (lBrace (keyword (by decide) (colon
    (symbol ⟨by decide, rfl, by decide⟩ nil)))))) (append (states printed.states) (append
    (symbol ⟨by decide, rfl, by decide⟩ (keyword (by decide) (colon (name printed.initial nil))))
    (append (flatMap fun c member => ?_) (rBrace nil))))
  exact printedOn (printed.clauses c member)

theorem reactionBlock {c : WhenClause} (printed : c.Printed) : Readable (reactionPieces c) :=
  keyword (by decide) (lBrace (append (printedWhen printed) (rBrace nil)))

theorem port {port : PortDef} (printed : PortPrinted port) : Readable (portPieces port) := by
  refine append (keyword (by decide) (name (isName_direction port.direction) (cons
    (access_reads printed.signal.toIsWord printed.state.toIsWord) nil))) ?_
  cases same : port.alias with
  | none => exact nil
  | some own => exact keyword (by decide) (name (printed.alias own same) nil)

theorem member {member : Member} (printed : member.Printed) : Readable member.pieces := by
  cases member with
  | port p => exact port printed
  | signal s => exact signalBlock printed
  | reaction c => exact reactionBlock printed

theorem arrows {arrows : Arrows} (printed : arrows.Printed) : Readable arrows.pieces := by
  have one : ∀ pair ∈ arrows.pairs, Readable (arrowPieces pair) := fun pair inside =>
    name (printed pair inside).1 (arrow (name (printed pair inside).2 nil))
  obtain ⟨pairs, trailing⟩ := arrows
  refine lBrace (append ?_ (rBrace nil))
  cases pairs with
  | nil => exact nil
  | cons pair pairs =>
      refine append (one pair List.mem_cons_self) (append (flatMap fun pair inside => ?_) ?_)
      · exact symbol ⟨by decide, rfl, by decide⟩ (one pair (List.mem_cons_of_mem _ inside))
      · cases trailing with
        | false => exact nil
        | true => exact symbol ⟨by decide, rfl, by decide⟩ nil

theorem printedItem {item : Item} (printed : item.Printed) : Readable item.pieces := by
  have clauses : ∀ {clauses : List WhenClause}, (∀ c ∈ clauses, c.Printed) →
      Readable (clauses.flatMap WhenClause.pieces ++ [.rBrace]) := fun all =>
    append (flatMap fun c inside => printedWhen (all c inside)) (rBrace nil)
  cases item with
  | signal s => exact signalBlock printed
  | reaction c => exact reactionBlock printed
  | guard id front expr back =>
      obtain ⟨own, body, gap, gap', _, after⟩ := printed
      obtain ⟨kinds, legible, _⟩ := (braceSpan_guardBody body gap gap' after).legible
      exact keyword (by decide) (name own (span legible nil))
  | fork all => exact keyword (by decide) (lBrace (clauses printed))
  | join group all => exact keyword (by decide) (name printed.1 (lBrace (clauses printed.2)))
  | component id params members =>
      obtain ⟨own, names, inside⟩ := printed
      refine keyword (by decide) (name own (lBrace (append ?_ (append (flatMap fun m present =>
        member (inside m present)) (rBrace nil)))))
      cases params with
      | none => exact nil
      | some list =>
          exact append (keyword (by decide) (colon (symbol ⟨by decide, rfl, by decide⟩ nil)))
            (append (states (names list.1 list.2 rfl)) (symbol ⟨by decide, rfl, by decide⟩ nil))
  | instantiate comp own bindings connections =>
      obtain ⟨component, instance_, bound, connected⟩ := printed
      refine append (keyword (by decide) (name component (keyword (by decide) (name instance_
        (keyword (by decide) nil))))) (append (arrows bound) ?_)
      cases connections with
      | none => exact nil
      | some list => exact keyword (by decide) (arrows (connected list rfl))

end Readable

/-! ## The end of the document -/

/-- The reactions of the blocks before their guards are resolved, where `n` is the
number of forks before them. -/
def itemRaws : Nat → List Item → List RawReaction
  | _, [] => []
  | n, item :: items => item.raws n ++ itemRaws (n + item.forks) items

def Item.rawComponents : Item → List ComponentDeclRaw
  | component id params members => [memberRaw id params members]
  | _ => []

def Item.groups : Item → List String
  | join group _ => [group]
  | _ => []

/-- What the blocks of a document add up to. -/
theorem DocState.foldl_take (items : List Item) (doc : DocState) :
    (items.foldl take doc).signals = doc.signals ++ items.flatMap Item.signals ∧
      (items.foldl take doc).rawReactions = doc.rawReactions ++ itemRaws doc.forkCounter items ∧
      (items.foldl take doc).guards = doc.guards ++ items.flatMap Item.guards ∧
      (items.foldl take doc).rawComponents =
        doc.rawComponents ++ items.flatMap Item.rawComponents ∧
      (items.foldl take doc).instantiates = doc.instantiates ++ items.flatMap Item.instantiates ∧
      (items.foldl take doc).forkGroups = doc.forkGroups ++
        (List.range' doc.forkCounter (itemForks items)).map forkName ∧
      (items.foldl take doc).joinGroupRefs = doc.joinGroupRefs ++ items.flatMap Item.groups := by
  induction items generalizing doc with
  | nil => simp [itemRaws, itemForks]
  | cons item items ih =>
      obtain ⟨signals, rawReactions, guards, rawComponents, instantiates, forkGroups, refs⟩ :=
        ih (doc.take item)
      rw [List.foldl_cons, signals, rawReactions, guards, rawComponents,
        instantiates, forkGroups, refs]
      cases item <;> simp [take, itemRaws, itemForks, Item.signals, Item.raws,
        Item.guards, Item.rawComponents,
        Item.instantiates, Item.forks, Item.groups, Nat.add_comm 1, List.range'_succ]

omit [RustStd] in
/-- Where no name is declared twice, the table of guards finds the first. -/
theorem lookup_guards {guards : List GuardDecl} (map : HashMap String) (id : String)
    (distinct : (guards.map GuardDecl.id).Nodup) :
    (guards.foldl (fun map g => map.insert g.id g.expr) map).lookup id =
      ((guards.find? (·.id = id)).map GuardDecl.expr).or (map.lookup id) := by
  induction guards generalizing map with
  | nil => rfl
  | cons guard guards ih =>
      rw [List.map_cons, List.nodup_cons] at distinct
      rw [List.foldl_cons, ih _ distinct.2]
      by_cases same : guard.id = id
      · have absent : guards.find? (·.id = id) = none := by
          rw [List.find?_eq_none]
          intro g member found
          exact distinct.1 (List.mem_map.mpr ⟨g, member, by simpa [same] using found⟩)
        rw [absent, List.find?_cons_of_pos (by simpa using same), ← same]
        exact AList.lookup_insert map
      · rw [List.find?_cons_of_neg (by simpa using same), AList.lookup_insert_ne (Ne.symm same)]

/-- A reaction is resolved as its clause says if the guard it refers to is declared. -/
theorem resolve_clause {guards : List GuardDecl} {map : HashMap String} {c : WhenClause}
    (table : ∀ id, map.lookup id = (guards.find? (·.id = id)).map GuardDecl.expr)
    (declared : ∀ text, c.guard = some text → isReference text = true →
      ∃ guard ∈ guards, guard.id = String.ofList text)
    (joinGroup : Option String) (requires : List String) :
    resolveReaction map (c.raw joinGroup requires) = .ok
      (c.resolved guards joinGroup requires) := by
  rw [resolveReaction, WhenClause.raw, WhenClause.resolved]
  cases same : c.guard with
  | none => rfl
  | some text =>
      cases reference : isReference text with
      | false => simp [rawGuard, reference, ReactionDecl.raw, WhenClause.decl]
      | true =>
          obtain ⟨guard, member, own⟩ := declared text same reference
          obtain ⟨found, head⟩ : ∃ found, guards.find? (·.id = String.ofList text) =
              some found := by
            rw [← Option.isSome_iff_exists, List.find?_isSome]
            exact ⟨guard, member, by simpa using own⟩
          simp [rawGuard, reference, ReactionDecl.raw, WhenClause.decl, table, head]

theorem resolve_item {guards : List GuardDecl} {map : HashMap String} {item : Item} (n : Nat)
    (each : ∀ c ∈ item.clauses, ∀ joinGroup requires,
      resolveReaction map (c.raw joinGroup requires) = .ok (c.resolved guards joinGroup requires)) :
    (item.raws n).mapM (resolveReaction map) = .ok (item.reactions guards n) := by
  rw [mapM_ok_iff]
  cases item with
  | reaction c => exact .cons (each c (List.mem_singleton.mpr rfl) none []) .nil
  | fork clauses =>
      rw [Item.raws, Item.reactions, List.forall₂_map_left_iff, List.forall₂_map_right_iff,
        List.forall₂_same]
      exact fun c member => each c member _ _
  | join group clauses =>
      rw [Item.raws, Item.reactions, List.forall₂_map_left_iff, List.forall₂_map_right_iff,
        List.forall₂_same]
      exact fun c member => each c member _ _
  | signal | guard | component | instantiate => exact .nil

/-- Every reaction of the document is resolved. -/
theorem resolve_items {guards : List GuardDecl} {map : HashMap String} {items : List Item} (n : Nat)
    (each : ∀ item ∈ items, ∀ c ∈ item.clauses, ∀ joinGroup requires,
      resolveReaction map (c.raw joinGroup requires) = .ok (c.resolved guards joinGroup requires)) :
    (itemRaws n items).mapM (resolveReaction map) = .ok (itemReactions guards n items) := by
  rw [mapM_ok_iff]
  induction items generalizing n with
  | nil => exact .nil
  | cons item items ih =>
      refine List.rel_append ?_ (ih _ fun i inside => each i (List.mem_cons_of_mem _ inside))
      exact mapM_ok_iff.mp (resolve_item n (each item List.mem_cons_self))

/-- So are the reactions inside the components. -/
theorem resolve_components {guards : List GuardDecl} {map : HashMap String} {items : List Item}
    (each : ∀ item ∈ items, ∀ c ∈ item.clauses, ∀ joinGroup requires,
      resolveReaction map (c.raw joinGroup requires) = .ok (c.resolved guards joinGroup requires)) :
    ((items.flatMap Item.rawComponents).mapM fun raw => do
      let reactions ← raw.rawReactions.mapM (resolveReaction map)
      return ({ id := raw.id, params := raw.params, ports := raw.ports, signals := raw.signals
                reactions } : ComponentDecl)) =
      .ok (items.flatMap (Item.components guards)) := by
  rw [mapM_ok_iff]
  induction items with
  | nil => exact .nil
  | cons item items ih =>
      refine List.rel_append ?_ (ih fun i inside => each i (List.mem_cons_of_mem _ inside))
      cases item with
      | component id params members =>
          have own : ((members.flatMap Member.clauses).map (WhenClause.raw none [])).mapM
              (resolveReaction map) =
              .ok ((members.flatMap Member.clauses).map (WhenClause.resolved guards none [])) := by
            rw [mapM_ok_iff, List.forall₂_map_left_iff, List.forall₂_map_right_iff,
              List.forall₂_same]
            exact fun c member => each _ List.mem_cons_self c member none []
          exact .cons (bind_ok_iff.mpr ⟨_, own, rfl⟩) .nil
      | _ => exact .nil

/-- The checks after the last block pass, and what is left is the document. -/
theorem finishDoc_items {items : List Item} (consistent : Consistent items) :
    finishDoc (items.foldl DocState.take {}) = .ok (documentOf items) := by
  obtain ⟨signals, rawReactions, guards, rawComponents, instantiates, forkGroups, refs⟩ :=
    DocState.foldl_take items {}
  have joins : checkJoinRefs (items.foldl DocState.take {}).forkGroups
      (items.foldl DocState.take {}).joinGroupRefs = .ok () := by
    apply checkJoinRefs_ok
    intro group member
    rw [refs] at member
    obtain ⟨item, inside, own⟩ := List.mem_flatMap.mp member
    cases item with
    | join name clauses =>
        obtain rfl := List.mem_singleton.mp own
        obtain ⟨n, bound, rfl⟩ := consistent.joins _ clauses inside
        rw [forkGroups]
        refine List.mem_map.mpr ⟨n, List.mem_range'_1.mpr ⟨Nat.zero_le n, ?_⟩, rfl⟩
        show n < 0 + itemForks items
        omega
    | _ => cases own
  generalize tabled : (items.flatMap Item.guards).foldl (fun map g => map.insert g.id g.expr)
    (∅ : HashMap String) = table
  have resolved : ∀ item ∈ items, ∀ c ∈ item.clauses, ∀ joinGroup requires,
      resolveReaction table (c.raw joinGroup requires) =
        .ok (c.resolved (items.flatMap Item.guards) joinGroup requires) := by
    intro item inside c own joinGroup requires
    refine resolve_clause (fun id => ?_) (consistent.references item inside c own) _ _
    rw [← tabled, lookup_guards _ _ consistent.guards, AList.lookup_empty, Option.or_none]
  have components := resolve_components resolved
  rw [finishDoc, joins]
  simp only [signals, rawReactions, guards, rawComponents, instantiates, List.nil_append, tabled]
  show ((itemRaws 0 items).mapM (resolveReaction table)) >>= _ = _
  rw [resolve_items 0 resolved]
  show _ >>= _ = _
  rw [components]
  rfl

/-! ## The round trip -/

/-- A document written in the syntax of the language is read back: the same
declarations in source order, with the same texts, groups and resolved guards. No guard
of a reaction may start like the next clause. -/
theorem parse_spelled {items : List Item} {src : String} (printed : ∀ item ∈ items, item.Printed)
    (consistent : Consistent items) (plain : ∀ item ∈ items, ∀ c ∈ item.clauses, c.Plain)
    (spelled : Spelled (items.flatMap Item.pieces) src.toList) :
    ∃ tokens, tokenize src = .ok tokens ∧ parse tokens src = .ok (documentOf items) := by
  obtain ⟨t, ts, lexed, front⟩ := Readable.start
    (.flatMap fun item inside => .printedItem (printed item inside)) spelled
  have fresh : DocState.Open {} items :=
    { signals := ⟨consistent.signals, fun _ _ given => Finset.notMem_empty _ given⟩
      guards := ⟨consistent.guards, fun _ _ given => Finset.notMem_empty _ given⟩
      components := ⟨consistent.components, fun _ _ given => Finset.notMem_empty _ given⟩
      inside := consistent.inside
      plain }
  obtain ⟨length, us, run⟩ := At.printedItems front printed fresh
  exact ⟨t :: ts, lexed, parse_ok_iff.mpr ⟨t, ts, us, rfl, yields_parseDoc.mpr
    ⟨_, length, _, run, finishDoc_items consistent⟩⟩⟩

end

/-! ## A document with every kind of block -/

section

/-- The tokens of the text reach both of its ends. -/
def isSpan (text : List Char) : Bool :=
  match tokenizeChars .start text with
  | .ok toks => decide (toks.head?.map Token.start = some 0 ∧
      toks.dropLast.getLast?.map (fun tok => tok.start + tok.len) = some (byteLen text))
  | .error _ => false

theorem spans_of_isSpan {text : List Char} {kinds : List TokenKind} (h : isSpan text = true)
    (read : kindsOf text = some kinds) : Spans text kinds := by
  rw [isSpan] at h
  cases lexed : tokenizeChars .start text with
  | error e =>
      rw [lexed] at h
      cases h
  | ok toks =>
      rw [lexed] at h
      obtain ⟨body, last, lexes, rfl⟩ := lexes_of_tokenize lexed
      rw [kindsOf, lexed] at read
      simp only [List.dropLast_concat, decide_eq_true_eq] at h read
      obtain ⟨front, back⟩ := h
      cases read
      obtain ⟨tok, final, stop⟩ := Option.map_eq_some_iff.mp back
      have reach : last.pos = byteLen text := by
        obtain ⟨whole, same, stop⟩ := lexes.text
        rw [List.append_nil] at same
        rw [stop, ← same]
        exact Nat.zero_add _
      rw [← reach] at stop
      cases body with
      | nil => cases final
      | cons first body =>
          exact ⟨first :: body, last, lexes, rfl, ⟨first, rfl, Option.some.inj front⟩,
            ⟨tok, final, stop⟩⟩

omit [RustStd]

def gateItems : List Item := [
  .signal {
    id := "door", states := ["ajar"], trailing := true, initial := "ajar"
    clauses := [⟨"pull", none, "ajar", some "payload.ok == true".toList,
      some [⟨.enter, "pull", ["log"]⟩]⟩] },
  .guard "ready" [' '] "payload.ok".toList [' '],
  .reaction ⟨"door", "ajar", "door", "pull", some "ready".toList, .empty, none⟩,
  .fork [⟨"door", "ajar", "door", "pull", none, .payload "\x7b \"speed\" : 3 \x7d".toList, none⟩],
  .join "fork0" [⟨"door", "ajar", "door", "pull", none, .none, some "log"⟩],
  .component "gate" (some (["p"], false)) [
    .port { direction := .in, signal := "door", state := "ajar", «alias» := some "p" },
    .signal { id := "g", states := ["ajar"], trailing := false, initial := "ajar", clauses := [] }],
  .instantiate "gate" "g" ⟨[("p", "door")], false⟩ (some ⟨[("p", "door")], false⟩)]

/-- The text of each block. -/
def gateLines : List String := [
  " signal door \x7b states : [ ajar , ] initial : ajar on pull from * -> ajar" ++
    " when payload.ok == true \x7b on_enter : pull , log \x7d \x7d",
  " guard ready \x7b payload.ok \x7d",
  " reaction \x7b when door enters ajar -> door pull when ready \x7b \x7d \x7d",
  " fork \x7b when door enters ajar -> door pull with \x7b \"speed\" : 3 \x7d \x7d",
  " join fork0 \x7b when door enters ajar -> door pull on_fail : log \x7d",
  " component gate \x7b params : [ p ] port in door.ajar as p signal g" ++
    " \x7b states : [ ajar ] initial : ajar \x7d \x7d",
  " instantiate gate as g with \x7b p -> door \x7d connect \x7b p -> door \x7d"]

def gateSource : String := String.ofList (gateLines.flatMap String.toList)

theorem spaced_append [RustStd] (ps qs : List Piece) :
    spaced (ps ++ qs) = spaced ps ++ spaced qs := by
  induction ps with
  | nil => rfl
  | cons p ps ih => simp [spaced, ih]

theorem spaced_flatMap [RustStd] {lines : List String} {items : List Item}
    (each : List.Forall₂ (fun line item => line.toList = spaced (Item.pieces item)) lines items) :
    lines.flatMap String.toList = spaced (items.flatMap Item.pieces) := by
  induction each with
  | nil => rfl
  | cons first _ ih => rw [List.flatMap_cons, List.flatMap_cons, spaced_append, first, ih]

/-- What evaluating the texts of the document gives: its words, its guards and its
payload as tokens, and its blocks as lines. -/
theorem gateSource_texts :
    (∀ s ∈ ["door", "ajar", "pull", "log", "ready", "gate", "p", "g", "fork0"],
      wordKind s.toList = .identifier s) ∧
    "fork0".toList.all (@Guard.isWordChar .ascii) = true ∧
    (@isSpan .ascii "payload.ok == true".toList = true ∧
      @kindsOf .ascii "payload.ok == true".toList =
        some [.identifier "payload", .dot, .identifier "ok", .eq, .bool true]) ∧
    (@isSpan .ascii "payload.ok".toList = true ∧
      @kindsOf .ascii "payload.ok".toList = some [.identifier "payload", .dot, .identifier "ok"]) ∧
    (@isSpan .ascii "ready".toList = true ∧
      @kindsOf .ascii "ready".toList = some [.identifier "ready"]) ∧
    (@isSpan .ascii "\x7b \"speed\" : 3 \x7d".toList = true ∧
      @kindsOf .ascii "\x7b \"speed\" : 3 \x7d".toList =
        some [.lBrace, .string "speed", .colon, .integer 3, .rBrace]) ∧
    List.Forall₂ (fun line item => line.toList = @spaced (@Item.pieces .ascii item))
      gateLines gateItems := by
  refine ⟨?_, ?_, ⟨?_, ?_⟩, ⟨?_, ?_⟩, ⟨?_, ?_⟩, ⟨?_, ?_⟩,
    .cons ?_ (.cons ?_ (.cons ?_ (.cons ?_ (.cons ?_ (.cons ?_ (.cons ?_ .nil))))))⟩
  -- the texts are spelled out before they are evaluated
  all_goals
    try rw [String.toList_append]
    repeat rw [String.toList_ofList]
    decide +kernel

theorem gateItems_printed : ∀ item ∈ gateItems, @Item.Printed .ascii item := by
  let std : RustStd := .ascii
  obtain ⟨words, digits, ⟨span₁, kinds₁⟩, ⟨span₂, kinds₂⟩, ⟨span₃, kinds₃⟩, ⟨span₄, kinds₄⟩, _⟩ :=
    gateSource_texts
  have check : GuardSpan "payload.ok == true".toList := ⟨_, spans_of_isSpan span₁ kinds₁, by decide⟩
  have expr : GuardSpan "payload.ok".toList := ⟨_, spans_of_isSpan span₂ kinds₂, by decide⟩
  have reference : GuardSpan "ready".toList := ⟨_, spans_of_isSpan span₃ kinds₃, by decide⟩
  have payload : BraceSpan "\x7b \"speed\" : 3 \x7d".toList :=
    ⟨_, spans_of_isSpan span₄ kinds₄, rfl⟩
  have name : ∀ s ∈ ["door", "ajar", "pull", "log", "ready", "gate", "p", "g"], IsName s := by
    intro s member
    refine isName_ascii ?_ (words s (List.mem_append_left ["fork0"] member))
    revert s
    decide
  have group : IsName "fork0" :=
    ⟨⟨⟨'f', rfl, by decide⟩, List.all_eq_true.mp digits⟩, words "fork0" (by decide)⟩
  have gap : Gap [' '] := .blank rfl .nil
  have blank : Guard.AllBlank [' '] := by
    intro c member
    cases List.mem_singleton.mp member
    rfl
  have pull : OnClause.Printed ["ajar"] ⟨"pull", none, "ajar",
      some "payload.ok == true".toList, some [⟨.enter, "pull", ["log"]⟩]⟩ := by
    refine ⟨⟨name _ (by decide), by simp, name _ (by decide), by decide, ?_⟩, ?_⟩
    · rintro hooks ⟨⟩
      refine ⟨?_, List.nodup_singleton _⟩
      rintro hook member id own
      cases List.mem_singleton.mp member
      apply name
      revert id
      decide
    · rintro text ⟨⟩
      exact ⟨check, rfl⟩
  have lit : WhenClause.Printed
      ⟨"door", "ajar", "door", "pull", some "ready".toList, .empty, none⟩ := by
    refine ⟨⟨name _ (by decide), name _ (by decide), name _ (by decide), name _ (by decide),
      by simp⟩, ?_, by simp⟩
    rintro text ⟨⟩
    exact ⟨reference, by simp⟩
  have start : WhenClause.Printed ⟨"door", "ajar", "door", "pull", none,
      .payload "\x7b \"speed\" : 3 \x7d".toList, none⟩ := by
    refine ⟨⟨name _ (by decide), name _ (by decide), name _ (by decide), name _ (by decide),
      by simp⟩, by simp, ?_⟩
    rintro text ⟨⟩
    exact payload
  have push : WhenClause.Printed ⟨"door", "ajar", "door", "pull", none, .none, some "log"⟩ := by
    refine ⟨⟨name _ (by decide), name _ (by decide), name _ (by decide), name _ (by decide), ?_⟩,
      by simp, by simp⟩
    rintro hook ⟨⟩
    exact name _ (by decide)
  rw [gateItems]
  simp only [List.forall_mem_cons, List.not_mem_nil, false_implies, implies_true, and_true]
  refine ⟨?_, ?_, lit, ?_, ?_, ?_, ?_⟩
  · refine ⟨name _ (by decide), fun s member => name s (by revert s; decide), name _ (by decide),
      by decide, ?_⟩
    exact List.forall_mem_singleton.mpr pull
  · exact ⟨name _ (by decide), expr, gap, gap, blank, blank⟩
  · exact List.forall_mem_singleton.mpr start
  · exact ⟨group, List.forall_mem_singleton.mpr push⟩
  · refine ⟨name _ (by decide), ?_, ?_⟩
    · rintro list trailing ⟨⟩
      exact List.forall_mem_singleton.mpr (name _ (by decide))
    · refine List.forall_mem_cons.mpr ⟨⟨name _ (by decide), name _ (by decide), ?_⟩,
        List.forall_mem_singleton.mpr ?_⟩
      · rintro own ⟨⟩
        exact name _ (by decide)
      · exact ⟨name _ (by decide), List.forall_mem_singleton.mpr (name _ (by decide)),
          name _ (by decide), by decide, by simp⟩
  · refine ⟨name _ (by decide), name _ (by decide), ?_, ?_⟩
    · exact List.forall_mem_singleton.mpr ⟨name _ (by decide), name _ (by decide)⟩
    · rintro arrows ⟨⟩
      exact List.forall_mem_singleton.mpr ⟨name _ (by decide), name _ (by decide)⟩

theorem gateItems_consistent : @Consistent .ascii gateItems := by
  let std : RustStd := .ascii
  refine ⟨by decide, by decide, by decide, ?_, ?_, ?_⟩
  · intro id params members inside
    simp only [gateItems, List.mem_cons, List.not_mem_nil, reduceCtorEq, false_or, or_false,
      Item.component.injEq] at inside
    obtain ⟨_, _, rfl⟩ := inside
    exact List.nodup_singleton _
  · intro group clauses inside
    simp only [gateItems, List.mem_cons, List.not_mem_nil, reduceCtorEq, false_or, or_false,
      Item.join.injEq] at inside
    exact ⟨0, by decide, inside.1⟩
  · rw [gateItems]
    simp only [List.forall_mem_cons, List.not_mem_nil, false_implies, implies_true, Item.clauses,
      List.flatMap_cons, List.flatMap_nil, Member.clauses, Option.some.injEq, List.append_nil,
      forall_eq', reduceCtorEq, true_and, and_true]
    intro _
    exact ⟨_, List.mem_singleton.mpr rfl, rfl⟩

theorem gateItems_plain : ∀ item ∈ gateItems, ∀ c ∈ item.clauses, @WhenClause.Plain .ascii c := by
  let std : RustStd := .ascii
  obtain ⟨_, _, _, _, ⟨_, kinds⟩, _⟩ := gateSource_texts
  rw [gateItems]
  simp only [List.forall_mem_cons, List.not_mem_nil, false_implies, implies_true, Item.clauses,
    List.flatMap_cons, List.flatMap_nil, Member.clauses, List.append_nil, WhenClause.Plain,
    Option.some.injEq, forall_eq', reduceCtorEq, true_and, and_true]
  intro name more same
  rw [kinds] at same
  cases same

/-- The document is read back. -/
theorem gateSource_parse : ∃ tokens, @tokenize .ascii gateSource = .ok tokens ∧
    @parse .ascii tokens gateSource = .ok (@documentOf .ascii gateItems) := by
  have spelled : @Spelled .ascii (gateItems.flatMap (@Item.pieces .ascii)) gateSource.toList := by
    rw [gateSource, String.toList_ofList, @spaced_flatMap .ascii _ _ gateSource_texts.2.2.2.2.2.2]
    exact @spelled_spaced .ascii _
  exact @parse_spelled .ascii gateItems gateSource gateItems_printed gateItems_consistent
    gateItems_plain spelled

/-- The guard of this reaction reads like the start of another one. -/
def entersItems : List Item :=
  [.reaction ⟨"door", "ajar", "lamp", "light", some "lamp enters lit".toList, .empty, none⟩]

def entersSource : String :=
  " reaction \x7b when door enters ajar -> lamp light when lamp enters lit \x7b \x7d \x7d"

/-- Such a reaction is written as the others, and is not read back. -/
theorem entersSource_fails : (∀ item ∈ entersItems, @Item.Printed .ascii item) ∧
    @Consistent .ascii entersItems ∧
    @Spelled .ascii (entersItems.flatMap (@Item.pieces .ascii)) entersSource.toList ∧
    ¬ ∃ tokens, @tokenize .ascii entersSource = .ok tokens ∧
      @parse .ascii tokens entersSource = .ok (@documentOf .ascii entersItems) := by
  let std : RustStd := .ascii
  have kinds : kindsOf "lamp enters lit".toList =
      some [.identifier "lamp", .enters, .identifier "lit"] := by decide +kernel
  have span : GuardSpan "lamp enters lit".toList :=
    ⟨_, spans_of_isSpan (by decide +kernel) kinds, by decide⟩
  have name : ∀ s ∈ ["door", "ajar", "lamp", "light"], IsName s := by
    intro s member
    refine isName_ascii ?_ ?_
    · revert s
      decide
    · revert s
      decide +kernel
  refine ⟨List.forall_mem_singleton.mpr ⟨⟨name _ (by decide), name _ (by decide),
    name _ (by decide), name _ (by decide), by simp⟩, ?_, by simp⟩, ?_, ?_, ?_⟩
  · rintro text ⟨⟩
    exact ⟨span, by simp⟩
  · refine ⟨List.nodup_nil, List.nodup_nil, List.nodup_nil, by simp [entersItems],
      by simp [entersItems], List.forall_mem_singleton.mpr (List.forall_mem_singleton.mpr ?_)⟩
    rintro text ⟨⟩ single
    rw [isReference, kinds] at single
    cases single
  · have text : entersSource.toList = spaced (entersItems.flatMap Item.pieces) := by
      rw [entersSource, String.toList_ofList]
      decide +kernel
    rw [text]
    exact spelled_spaced _
  · rintro ⟨tokens, lexed, parsed⟩
    have fails : ((tokenize entersSource).toOption.map fun tokens =>
        (parse tokens entersSource).isOk) = some false := by
      unfold tokenize parse
      rw [entersSource, String.toList_ofList]
      decide +kernel
    rw [lexed, Except.toOption, Option.map_some, parsed] at fails
    cases fails

end

end SignalTopology.Ddl
