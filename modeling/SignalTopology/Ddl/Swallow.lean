import SignalTopology.Ddl.Blocks
import SignalTopology.Ddl.Codegen
import SignalTopology.Ddl.Readable

/-!
# Guards and the clauses after them

A guard ends where its text meets a brace, `with`, `on_fail` or the end of the file,
and not where the next clause starts. The declarations of a document are those of
its clauses exactly if every guard stays whole. A guarded clause without a block
that another clause follows takes that clause into its guard.
-/

namespace SignalTopology.Ddl

open Fallible TokenParser

variable [RustStd]

/-! ## Reading a whole source -/

namespace Readable

/-- A guard that stays whole can be read. -/
theorem legible {guard : Option (List Char)} (text : ∀ g, guard = some g → GuardText g)
    (unbroken : ∀ g, guard = some g → Unbroken g) :
    ∀ g, guard = some g → ∃ kinds, Legible g kinds := by
  intro g same
  obtain ⟨kinds, read, _⟩ := unbroken g same
  exact ⟨kinds, read, (text g same).tame.reads (text g same).solid read, (text g same).solid⟩

omit [RustStd] in
/-- What holds of the clauses in their places holds of each in some place. -/
theorem of_clauses {γ : Type} {property : γ → Bool → Prop} {clauses : List γ}
    (h : Clauses property clauses) : ∀ c ∈ clauses, ∃ last, property c last := by
  induction clauses with
  | nil =>
      intro c member
      cases member
  | cons c clauses ih =>
      intro d member
      rcases List.mem_cons.mp member with rfl | member
      · exact ⟨_, h.1⟩
      · exact ih h.2 d member

theorem block [SerdeJson] {block : Block} (formed : block.Formed) (intact : block.Intact) :
    Readable block.pieces := by
  have members : ∀ {clauses : List WhenClause}, (∀ c ∈ clauses, c.Formed) →
      Clauses WhenClause.Intact clauses →
        Readable (clauses.flatMap WhenClause.pieces ++ [.rBrace]) := by
    intro clauses formed intact
    refine append (flatMap fun c member => ?_) (rBrace nil)
    obtain ⟨last, whole⟩ := of_clauses intact c member
    have own := formed c member
    exact whenClause own.named (legible own.guard fun g same => (whole g same).1) fun raw same => by
      obtain ⟨kinds, read, _⟩ := (own.payload raw same).legible
      exact ⟨_, read⟩
  cases block with
  | signal id list trailing initial clauses =>
      obtain ⟨own, names, first, _, formed⟩ := formed
      refine append (keyword (by decide) (name own (lBrace (keyword (by decide) (colon
        (symbol ⟨by decide, rfl, by decide⟩ nil)))))) (append (states names) (append
        (symbol ⟨by decide, rfl, by decide⟩ (keyword (by decide) (colon (name first nil))))
        (append (flatMap fun c member => ?_) (rBrace nil))))
      obtain ⟨last, whole⟩ := of_clauses intact c member
      exact onClause (formed c member).named
        (legible (formed c member).guard fun g same => (whole g same).1)
  | fork clauses => exact keyword (by decide) (lBrace (members formed intact))
  | join group clauses =>
      exact keyword (by decide) (name formed.1 (lBrace (members formed.2 intact)))

end Readable

/-! ## The document after the last block -/

section

omit [RustStd]

variable {doc : DocState} {blocks : List Block} {group : String}

/-- Signals, forks and joins leave the other declarations alone. -/
theorem add_others (block : Block) : (doc.add block).guards = doc.guards ∧
    (doc.add block).rawComponents = doc.rawComponents ∧
    (doc.add block).instantiates = doc.instantiates := by
  cases block <;> exact ⟨rfl, rfl, rfl⟩

theorem foldl_others : (blocks.foldl DocState.add doc).guards = doc.guards ∧
    (blocks.foldl DocState.add doc).rawComponents = doc.rawComponents ∧
    (blocks.foldl DocState.add doc).instantiates = doc.instantiates := by
  induction blocks generalizing doc with
  | nil => exact ⟨rfl, rfl, rfl⟩
  | cons block blocks ih =>
      obtain ⟨guards, components, instantiates⟩ := @add_others doc block
      have rest := @ih (doc.add block)
      rw [guards, components, instantiates] at rest
      exact rest

theorem mem_joinGroupRefs (h : group ∈ (blocks.foldl DocState.add doc).joinGroupRefs) :
    group ∈ doc.joinGroupRefs ∨ ∃ clauses, .join group clauses ∈ blocks := by
  induction blocks generalizing doc with
  | nil => exact .inl h
  | cons block blocks ih =>
      rcases ih h with own | ⟨clauses, member⟩
      · cases block with
        | signal | fork => exact .inl own
        | join other clauses =>
            rcases List.mem_append.mp own with earlier | same
            · exact .inl earlier
            · cases List.mem_singleton.mp same
              exact .inr ⟨clauses, List.mem_cons_self⟩
      · exact .inr ⟨clauses, List.mem_cons_of_mem _ member⟩

theorem forkGroups_subset (h : group ∈ doc.forkGroups) :
    group ∈ (blocks.foldl DocState.add doc).forkGroups := by
  induction blocks generalizing doc with
  | nil => exact h
  | cons block blocks ih =>
      apply ih
      cases block with
      | signal | join => exact h
      | fork => exact List.mem_append_left _ h

/-- The name of every fork of the document is known. -/
theorem mem_forkGroups {n : Nat} (bound : n < forkCount blocks) :
    forkName (doc.forkCounter + n) ∈ (blocks.foldl DocState.add doc).forkGroups := by
  induction blocks generalizing doc n with
  | nil => exact absurd bound (Nat.not_lt_zero n)
  | cons block blocks ih =>
      cases block with
      | signal | join => exact ih bound
      | fork clauses =>
          cases n with
          | zero =>
              have own : forkName doc.forkCounter ∈ (doc.add (.fork clauses)).forkGroups :=
                List.mem_append_right _ List.mem_cons_self
              exact @forkGroups_subset _ blocks _ own
          | succ n =>
              have shorter : n < forkCount blocks := by
                simp only [forkCount, List.countP_cons] at bound ⊢
                simpa using bound
              have found := @ih (doc.add (.fork clauses)) n shorter
              have same : (doc.add (.fork clauses)).forkCounter + n =
                  doc.forkCounter + (n + 1) := by
                show doc.forkCounter + 1 + n = _
                omega
              rwa [same] at found

/-- No reaction of a fork or a join refers to a guard declaration, and its payload is
that of its clause. -/
theorem reactionsOf_spec {n : Nat} {r : ReactionDecl} (h : r ∈ reactionsOf n blocks) :
    r.guardRef = none ∧ ∃ c joinGroup requires, r = WhenClause.decl joinGroup requires c ∧
      ((∃ clauses, .fork clauses ∈ blocks ∧ c ∈ clauses) ∨
        ∃ group clauses, .join group clauses ∈ blocks ∧ c ∈ clauses) := by
  induction blocks generalizing n with
  | nil => cases h
  | cons block blocks ih =>
      have later : ∀ {n}, r ∈ reactionsOf n blocks → r.guardRef = none ∧
          ∃ c joinGroup requires, r = WhenClause.decl joinGroup requires c ∧
            ((∃ clauses, .fork clauses ∈ block :: blocks ∧ c ∈ clauses) ∨
              ∃ group clauses, .join group clauses ∈ block :: blocks ∧ c ∈ clauses) := by
        intro n h
        obtain ⟨literal, c, joinGroup, requires, same, inside⟩ := ih h
        refine ⟨literal, c, joinGroup, requires, same, ?_⟩
        rcases inside with ⟨clauses, member, own⟩ | ⟨group, clauses, member, own⟩
        · exact .inl ⟨clauses, List.mem_cons_of_mem _ member, own⟩
        · exact .inr ⟨group, clauses, List.mem_cons_of_mem _ member, own⟩
      cases block with
      | signal => exact later h
      | fork clauses =>
          rcases List.mem_append.mp h with own | h
          · obtain ⟨c, member, rfl⟩ := List.mem_map.mp own
            exact ⟨rfl, c, _, _, rfl, .inl ⟨clauses, List.mem_cons_self, member⟩⟩
          · exact later h
      | join group clauses =>
          rcases List.mem_append.mp h with own | h
          · obtain ⟨c, member, rfl⟩ := List.mem_map.mp own
            exact ⟨rfl, c, _, _, rfl, .inr ⟨group, clauses, List.mem_cons_self, member⟩⟩
          · exact later h

theorem resolve_raw {guards : HashMap String} {r : ReactionDecl} (literal : r.guardRef = none) :
    resolveReaction guards r.raw = .ok r := by
  obtain ⟨_, _, _, _, guard, _, _, _, _, _⟩ := r
  cases literal
  cases guard <;> rfl

theorem raw_of_resolve {guards : HashMap String} {raw : RawReaction} {r : ReactionDecl}
    (h : resolveReaction guards raw = .ok r) (literal : r.guardRef = none) : raw = r.raw := by
  obtain ⟨_, _, _, _, guard, _, _, _, _⟩ := raw
  cases guard with
  | none =>
      cases h
      rfl
  | some guard =>
      cases guard with
      | lit text =>
          cases h
          rfl
      | ref id =>
          rw [resolveReaction] at h
          dsimp only at h
          cases found : guards.lookup id with
          | none =>
              rw [found] at h
              cases h
          | some expr =>
              rw [found] at h
              cases h
              cases literal

theorem mapM_resolve {guards : HashMap String} {rs : List ReactionDecl}
    (literal : ∀ r ∈ rs, r.guardRef = none) :
    (rs.map ReactionDecl.raw).mapM (resolveReaction guards) = .ok rs := by
  induction rs with
  | nil => rfl
  | cons r rs ih =>
      have rest := ih fun r' member => literal r' (List.mem_cons_of_mem _ member)
      rw [List.map_cons, List.mapM_cons, resolve_raw (literal r List.mem_cons_self), rest]
      rfl

theorem raw_of_mapM {guards : HashMap String} {raws : List RawReaction} {rs : List ReactionDecl}
    (h : raws.mapM (resolveReaction guards) = .ok rs) (literal : ∀ r ∈ rs, r.guardRef = none) :
    raws = rs.map ReactionDecl.raw := by
  induction raws generalizing rs with
  | nil =>
      cases h
      rfl
  | cons raw raws ih =>
      rw [List.mapM_cons] at h
      obtain ⟨r, first, h⟩ := bind_ok h
      obtain ⟨rest, later, h⟩ := bind_ok h
      cases h
      rw [List.map_cons, raw_of_resolve first (literal r List.mem_cons_self),
        ih later fun r' member => literal r' (List.mem_cons_of_mem _ member)]

theorem finishDoc_ok {out : DdlDoc} (h : finishDoc doc = .ok out) : out.signals = doc.signals ∧
    ∃ guards : HashMap String,
      doc.rawReactions.mapM (resolveReaction guards) = .ok out.reactions := by
  obtain ⟨_, _, h⟩ := bind_ok h
  obtain ⟨reactions, resolved, h⟩ := bind_ok h
  obtain ⟨components, _, h⟩ := bind_ok h
  cases h
  exact ⟨rfl, _, resolved⟩

end

section

variable [SerdeJson] {blocks : List Block} {src : String}

/-- The declarations of a document without guard declarations, components and
instances. -/
def plainDoc (blocks : List Block) : DdlDoc where
  signals := signalsOf blocks
  reactions := reactionsOf 0 blocks
  guards := []
  components := []
  instantiates := []

theorem finishDoc_blocks (formed : WellFormed blocks) :
    finishDoc (blocks.foldl DocState.add {}) = .ok (plainDoc blocks) := by
  have joins : checkJoinRefs (blocks.foldl DocState.add {}).forkGroups
      (blocks.foldl DocState.add {}).joinGroupRefs = .ok () := by
    refine checkJoinRefs_ok fun group member => ?_
    rcases mem_joinGroupRefs member with none_yet | ⟨clauses, inside⟩
    · cases none_yet
    · obtain ⟨n, bound, rfl⟩ := formed.joins group clauses inside
      have known := @mem_forkGroups {} blocks n bound
      rwa [Nat.zero_add] at known
  obtain ⟨guards, components, instantiates⟩ := @foldl_others {} blocks
  have signals := DocState.signals_foldl {} blocks
  have reactions := DocState.rawReactions_foldl {} blocks
  rw [List.nil_append] at signals reactions
  have resolved := @mapM_resolve ∅ (reactionsOf 0 blocks) fun r member =>
    (reactionsOf_spec member).1
  rw [finishDoc, joins]
  simp only [guards, components, instantiates, signals, reactions]
  rw [show (([] : List GuardDecl).foldl (fun map g => map.insert g.id g.expr)
    (∅ : HashMap String)) = ∅ from rfl]
  show ((((reactionsOf 0 blocks).map ReactionDecl.raw).mapM (resolveReaction ∅)) >>= _) = _
  rw [resolved]
  rfl

omit [RustStd] in
theorem emitReaction_ok {r : ReactionDecl}
    (valid : ∀ raw, r.payload = some raw → ∃ value, SerdeJson.valueFromStr raw = .ok value) :
    ∃ d, emitReaction r = .ok d := by
  rw [emitReaction]
  cases payload : r.payload with
  | none => exact ⟨_, rfl⟩
  | some raw =>
      obtain ⟨value, read⟩ := valid raw payload
      simp only [read]
      exact ⟨_, rfl⟩

omit [RustStd] in
theorem mapM_emit {rs : List ReactionDecl} (each : ∀ r ∈ rs, ∃ d, emitReaction r = .ok d) :
    ∃ ds, rs.mapM emitReaction = .ok ds := by
  induction rs with
  | nil => exact ⟨[], rfl⟩
  | cons r rs ih =>
      obtain ⟨d, first⟩ := each r List.mem_cons_self
      obtain ⟨ds, rest⟩ := ih fun r' member => each r' (List.mem_cons_of_mem _ member)
      refine ⟨d :: ds, ?_⟩
      rw [List.mapM_cons, first, rest]
      rfl

/-- A document with valid payloads is lowered. -/
theorem emit_blocks (formed : WellFormed blocks) :
    ∃ lowered, emit (plainDoc blocks) = .ok lowered ∧ lowered.Flat ∧
      lowered.transitions = (emitSignals (signalsOf blocks)).2 := by
  obtain ⟨ds, reactions⟩ := @mapM_emit _ (reactionsOf 0 blocks) fun r member => by
    obtain ⟨_, c, joinGroup, requires, rfl, inside⟩ := reactionsOf_spec member
    have clause : c.Formed := by
      rcases inside with ⟨clauses, member, own⟩ | ⟨group, clauses, member, own⟩
      · exact formed.formed _ member c own
      · exact (formed.formed _ member).2 c own
    apply emitReaction_ok
    intro raw same
    cases block : c.block with
    | payload text =>
        simp only [WhenClause.decl, block, WhenBlock.text, Option.map_some,
          Option.some.injEq] at same
        rw [← same]
        exact (clause.payload text block).value
    | none | empty => simp [WhenClause.decl, block, WhenBlock.text] at same
  refine ⟨{ version := "0.1", signals := (emitSignals (signalsOf blocks)).1
            transitions := (emitSignals (signalsOf blocks)).2, reactions := ds }, ?_, rfl, rfl⟩
  show ((reactionsOf 0 blocks).mapM emitReaction >>= _) = _
  rw [reactions]
  rfl

omit [RustStd] [SerdeJson] in
theorem fresh_start : ∀ sig ∈ signalsOf blocks, sig.id ∉ ({} : DocState).seenSignals := by
  intro sig _ seen
  cases seen

/-- A document whose guards stay whole compiles to its declarations. -/
theorem compileFull_blocks (formed : WellFormed blocks)
    (spelled : Spelled (blocks.flatMap Block.pieces) src.toList)
    (intact : ∀ block ∈ blocks, block.Intact) :
    ∃ schema, compileFull src = .ok (schema, plainDoc blocks) ∧
      schema.transitions = (emitSignals (signalsOf blocks)).2 := by
  have readable : Readable (blocks.flatMap Block.pieces) :=
    .flatMap fun block member => .block (formed.formed block member) (intact block member)
  obtain ⟨t, ts, lexed, front⟩ := readable.start spelled
  obtain ⟨bound, all, _⟩ := front.blocks formed.formed formed.distinct fresh_start
  obtain ⟨us, run⟩ := all intact
  have parsed : parse (t :: ts) src = .ok (plainDoc blocks) :=
    parse_ok_iff.mpr ⟨t, ts, us, rfl, yields_parseDoc.mpr
      ⟨_, bound, _, run, finishDoc_blocks formed⟩⟩
  obtain ⟨lowered, emitted, flat, transitions⟩ := emit_blocks formed
  exact ⟨lowered, compileFull_ok_iff.mpr
    ⟨t :: ts, lowered, lexed, parsed, emitted, expand_of_flat flat⟩, transitions⟩

/-- The declarations of a document written as the reference says are those of its
clauses, each with its own guard, exactly if every guard stays whole. -/
theorem guards_intact_iff (formed : WellFormed blocks)
    (spelled : Spelled (blocks.flatMap Block.pieces) src.toList) :
    (∃ schema doc, compileFull src = .ok (schema, doc) ∧ doc.signals = signalsOf blocks ∧
      doc.reactions = reactionsOf 0 blocks) ↔ ∀ block ∈ blocks, block.Intact := by
  constructor
  · rintro ⟨schema, doc, compiled, signals, reactions⟩
    obtain ⟨tokens, lowered, lexed, parsed, _⟩ := compileFull_ok_iff.mp compiled
    obtain ⟨t, ts, us, rfl, read⟩ := parse_ok_iff.mp parsed
    obtain ⟨n, _, final, run, finished⟩ := yields_parseDoc.mp read
    obtain ⟨same, guards, resolved⟩ := finishDoc_ok finished
    obtain ⟨_, _, only⟩ :=
      (at_start spelled lexed).blocks formed.formed formed.distinct fresh_start
    refine only n final us run ?_ ?_
    · rw [DocState.signals_foldl, ← same, signals]
      rfl
    · rw [reactions] at resolved
      rw [DocState.rawReactions_foldl,
        raw_of_mapM resolved fun r member => (reactionsOf_spec member).1]
      rfl
  · intro intact
    obtain ⟨schema, compiled, _⟩ := compileFull_blocks formed spelled intact
    exact ⟨schema, plainDoc blocks, compiled, rfl, rfl⟩

end

/-! ## A door -/

section

omit [RustStd]

def doorGuard : List Char := "payload.ok == true".toList

/-- `block` is the block of the first clause, which has a guard. -/
def doorBlocks (block : Option (List Hook)) : List Block :=
  [.signal "door" ["shut", "ajar"] false "shut"
    [⟨"pull", some "shut", "ajar", some doorGuard, block⟩,
      ⟨"push", some "ajar", "shut", none, none⟩]]

/-- The door with the text of that block. -/
def doorSource (block : String) : String :=
  " signal door \x7b states : [ shut , ajar ] initial : shut" ++
  " on pull from shut -> ajar when payload.ok == true" ++ block ++
  " on push from ajar -> shut \x7d"

theorem doorSource_chars {block : String} {cs : List Char}
    (chars : String.ofList cs = doorSource block) :
    (doorSource block).toList = cs := by
  rw [← chars, String.toList_ofList]

theorem doorBlocks_formed {block : Option (List Hook)}
    (bare : ∀ hooks, block = some hooks → hooks = []) :
    @WellFormed .ascii .keywords (doorBlocks block) := by
  let std : RustStd := .ascii
  let json : SerdeJson := .keywords
  have name : ∀ s ∈ ["door", "shut", "ajar", "pull", "push"], IsName s := by
    intro s member
    refine isName_ascii ?_ ?_
    · revert s
      decide
    · revert s
      decide +kernel
  have pull : OnClause.Formed ["shut", "ajar"] ⟨"pull", some "shut", "ajar",
      some doorGuard, block⟩ := by
    refine ⟨name "pull" (by decide), ?_, name "ajar" (by decide), .tail _ (.head _), ?_, ?_⟩
    · intro s same
      obtain rfl := Option.some.inj same
      exact ⟨name _ (by decide), by decide⟩
    · intro text same
      obtain rfl := Option.some.inj same
      refine ⟨by decide +kernel, by decide, ?_, ?_⟩ <;>
        · intro c h
          cases h
          decide
    · intro hooks same
      obtain rfl := bare hooks same
      exact ⟨by simp, .nil⟩
  have push : OnClause.Formed ["shut", "ajar"] ⟨"push", some "ajar", "shut", none, none⟩ := by
    refine ⟨name _ (by decide), ?_, name _ (by decide), by decide, by simp, by simp⟩
    intro s same
    obtain rfl := Option.some.inj same
    exact ⟨name _ (by decide), by decide⟩
  have states : ∀ s ∈ ["shut", "ajar"], IsName s := fun s member => name s (by revert s; decide)
  refine ⟨List.forall_mem_singleton.mpr ?_, List.nodup_singleton _, by simp [doorBlocks]⟩
  exact ⟨name _ (by decide), states, name _ (by decide), by decide,
    List.forall_mem_cons.mpr ⟨pull, List.forall_mem_singleton.mpr push⟩⟩

/-- With the block the guard stays whole. -/
theorem door_guard_intact : ∃ schema doc,
    @compileFull .keywords .ascii (doorSource " \x7b \x7d") = .ok (schema, doc) ∧
      doc.signals = signalsOf (doorBlocks (some [])) ∧
      doc.reactions = reactionsOf 0 (doorBlocks (some [])) := by
  let std : RustStd := .ascii
  have kinds : kindsOf doorGuard =
      some [.identifier "payload", .dot, .identifier "ok", .eq, .bool true] := by decide +kernel
  have spelled := spelled_spaced ((doorBlocks (some [])).flatMap Block.pieces)
  rw [show spaced _ = (doorSource " \x7b \x7d").toList by
    rw [doorSource_chars (chars_append (chars_append (chars_append rfl rfl) rfl) rfl)]
    decide +kernel] at spelled
  refine (@guards_intact_iff .ascii .keywords _ _ (doorBlocks_formed (by simp)) spelled).mpr ?_
  refine List.forall_mem_singleton.mpr ⟨fun text same => ?_, fun text absent => ?_, trivial⟩
  · obtain rfl := Option.some.inj same
    exact ⟨⟨_, kinds, by decide⟩, .inl rfl⟩
  · cases absent

/-- Compiling the door gives transitions with these events and guards. -/
def doorDeclares (block : String) (transitions : List (String × Option String)) : Bool :=
  match @compileFull .keywords .ascii (doorSource block) with
  | .ok (_, doc) =>
      doc.signals.flatMap (fun sig => sig.transitions.map fun t =>
        (t.event, t.guard)) == transitions
  | .error _ => false

/-- The check is evaluated on the characters of the source. -/
theorem doorDeclares_chars {block : String} {transitions : List (String × Option String)}
    {cs : List Char} (chars : String.ofList cs = doorSource block)
    (checked : (@compileChars .keywords .ascii cs).toOption.any (fun result =>
      result.2.signals.flatMap (fun sig => sig.transitions.map fun t => (t.event, t.guard)) ==
        transitions) = true) : doorDeclares block transitions = true := by
  have whole := @compileFull_check .keywords .ascii (doorSource block) cs (fun outcome =>
    outcome.toOption.any fun result =>
      result.2.signals.flatMap (fun sig => sig.transitions.map fun t => (t.event, t.guard)) ==
        transitions) chars checked
  unfold doorDeclares
  split
  · next compiled =>
      rw [compiled] at whole
      exact whole
  · next failed =>
      rw [failed] at whole
      cases whole

/-- Without the block the guard takes the next clause. -/
theorem door_guard_swallows : @WellFormed .ascii .keywords (doorBlocks none) ∧
    @Spelled .ascii ((doorBlocks none).flatMap (@Block.pieces .ascii)) (doorSource "").toList ∧
    doorDeclares "" [("pull", some "payload.ok == true on push from ajar -> shut")] = true ∧
    ¬ ∃ schema doc, @compileFull .keywords .ascii (doorSource "") = .ok (schema, doc) ∧
      doc.signals = signalsOf (doorBlocks none) ∧
      doc.reactions = reactionsOf 0 (doorBlocks none) := by
  let std : RustStd := .ascii
  have taken : doorDeclares "" [("pull", some "payload.ok == true on push from ajar -> shut")] =
      true :=
    doorDeclares_chars (chars_append (chars_append (chars_append rfl rfl) rfl) rfl)
      (by decide +kernel)
  have spelled := spelled_spaced ((doorBlocks none).flatMap Block.pieces)
  rw [show spaced _ = (doorSource "").toList by
    rw [doorSource_chars (chars_append (chars_append (chars_append rfl rfl) rfl) rfl)]
    decide +kernel] at spelled
  refine ⟨doorBlocks_formed (by simp), spelled, taken, ?_⟩
  rintro ⟨schema, doc, compiled, signals, _⟩
  rw [doorDeclares, compiled] at taken
  dsimp only at taken
  rw [signals] at taken
  exact absurd taken (by decide)

end

end SignalTopology.Ddl
