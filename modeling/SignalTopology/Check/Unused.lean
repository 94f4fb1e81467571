import SignalTopology.Check
import SignalTopology.Ddl.Braces
import SignalTopology.Ddl.Resolving

/-!
# Unused guards

A guard that no reaction refers to can be deleted from a source: the tokens around its
declaration stay what they are, every other block is read as before, and the lowering
does not look at guards. So a warning about an unused guard can be followed as long as
`check_ddl` sees every reference, and it looks for them at the top level only.
-/

namespace SignalTopology

open Ddl TokenParser Relation

/-! ## Deleting a declaration -/

section

variable [RustStd]

/-- The parser comes to a declaration of the guard `id`, and reads it from `ts` to `us`. -/
def DeclaredAt (src : List Char) (id : String) (ts us : Tokens Token) : Prop :=
  ∃ t tl doc guard, tokenizeChars .start src = .ok (t :: tl) ∧ Sweep src ({}, ⟨t, tl⟩) (doc, ts) ∧
    Yields (parseGuardDecl src doc.seenGuardIds) ts guard us ∧ guard.id = id

/-- The source without the text of a declaration of the guard `id`, from `guard` to the
closing brace. -/
def Deleted (id : String) (src src' : List Char) : Prop :=
  ∃ front decl back ts us, src = front ++ (decl ++ back) ∧ src' = front ++ back ∧
    DeclaredAt src id ts us ∧ Occupies front decl ts us

/-- The source without the declarations of some guards. -/
def DeletedAll : List String → List Char → List Char → Prop
  | [], src, src' => src' = src
  | id :: ids, src, src' => ∃ mid, Deleted id src mid ∧ DeletedAll ids mid src'

variable {front decl back : List Char} {t : Token} {tl : List Token} {ts us last : Tokens Token}
variable {doc final : DocState} {guard : GuardDecl}

/-- Every other block is read from the source without the declaration. -/
theorem sweep_without (lexed : tokenizeChars .start (front ++ (decl ++ back)) = .ok (t :: tl))
    (swept : Sweep (front ++ (decl ++ back)) ({}, ⟨t, tl⟩) (doc, ts))
    (read : Yields (parseGuardDecl (front ++ (decl ++ back)) doc.seenGuardIds) ts guard us)
    (text : Occupies front decl ts us)
    (rest : Sweep (front ++ (decl ++ back)) ({ doc with
      guards := doc.guards ++ [guard]
      seenGuardIds := insert guard.id doc.seenGuardIds }, us) (final, last))
    (finish : last.current.kind = .eof) :
    ∃ t' tl' final' last', tokenizeChars .start (front ++ back) = .ok (t' :: tl') ∧
      Sweep (front ++ back) ({}, ⟨t', tl'⟩) (final', last') ∧ last'.current.kind = .eof ∧
      final.Like Eq [guard] final' := by
  have ends : Ends ⟨t, tl⟩ := by
    obtain ⟨body, cur, _, whole⟩ := lexes_of_tokenize lexed
    exact ⟨body, cur.eof, whole, rfl⟩
  obtain ⟨before, toks, after, cur, cur', stop, whole, split, split', run, inside, later, c, head,
    visible⟩ := text.cut lexed (Sweep.suffix swept)
  -- the front ends in a brace, so it does not go on with the text behind the declaration
  have run' : Lexes .start (front ++ back) before cur back := by
    refine run.swap ⟨c, head, ?_⟩ ?_
    · rintro rfl
      cases visible
    · intro front' text tok _ tail lexeme d _
      have brace : tok.kind = .rBrace := by
        obtain same | ⟨passed, tok', split, brace⟩ := Sweep.braced swept ends
        · dsimp only at same
          obtain rfl : before = [] := by
            rw [same] at whole
            exact List.self_eq_append_left.mp whole
          cases tail
        · have front : before = passed ++ [tok'] :=
            @List.append_cancel_right _ before ts.toList _
              (whole.symm.trans (split.trans (List.append_assoc passed [tok'] ts.toList).symm))
          rw [front, List.getLast?_concat] at tail
          cases tail
          exact brace
      rw [brace] at lexeme
      exact lexeme.closing d
  have behind : Lexes cur ([] ++ back) [] cur back := .refl cur back
  obtain ⟨after', last', e⟩ :=
    @Edit.of_cut _ front decl [] back _ _ _ _ _ _ _ _ run inside later run' behind
  -- the streams behind the declaration
  obtain ⟨ts', stream⟩ : ∃ ts' : Tokens Token, ts'.toList = after' ++ [last'] :=
    Tokens.exists_toList (by simp)
  obtain ⟨⟨t', tl'⟩, stream'⟩ : ∃ t₀ : Tokens Token, t₀.toList = before ++ ts'.toList :=
    Tokens.exists_toList (List.append_ne_nil_of_right_ne_nil _ ts'.toList_ne_nil)
  have along : e.border.Before us ts' := ⟨after, after', split', stream, e.behind⟩
  have keyword : ts.current.kind = .guard := expect_first read
  have alike : Alike ts.current ts'.current := by
    have opens : us.current.kind.opensBlock = true := Sweep.opens rest finish
    refine .inr ⟨keyword, ?_⟩
    obtain related | ⟨_, there⟩ := along.peeked
    · rw [related.1]
      exact opens
    · rw [there]
      exact congrArg TokenKind.opensBlock (e.ends.trans e.finish)
  have whole : (⟨t, tl⟩ : Tokens Token).toList = before ++ (toks ++ (after ++ [stop.eof])) := by
    rw [← split', ← split]
    exact whole
  have whole' : (⟨t', tl'⟩ : Tokens Token).toList = before ++ ([] ++ (after' ++ [last'])) := by
    rw [stream', stream]
    rfl
  have here : ts.toList = [] ++ (toks ++ (after ++ [stop.eof])) := by
    rw [split, split', List.nil_append]
  have more : ts.rest ≠ [] := (ends.suffix (Sweep.suffix swept)).more (by simp [keyword])
  obtain ⟨doc', swept', like⟩ :=
    e.sweep_front (List.append_nil before).symm whole whole' here stream
    more alike (by simp [keyword, TokenKind.isHead]) swept
  obtain ⟨final', last'', swept'', finish', like'⟩ :=
    e.sweep_back (fun _ => rfl) (like.guard guard) along ⟨[], split'⟩ rest finish
  refine ⟨t', tl', final', last'', ?_, ReflTransGen.trans swept' swept'', finish', like'⟩
  exact e.lexed'.trans (congrArg Except.ok whole'.symm)

omit [RustStd] in
/-- The document without a guard that no reaction refers to. -/
theorem finishDoc_without {final final' : DocState} {out : DdlDoc}
    (like : final.Like Eq [guard] final')
    (h : finishDoc final = .ok out)
    (unreferenced : ∀ r ∈ out.everyReaction, r.guardRef ≠ some guard.id) :
    ∃ out', finishDoc final' = .ok out' ∧ out.Like Eq [guard] out' := by
  refine finishDoc_like like h ?_
  rintro raw _ r rfl member resolved
  refine ⟨r, resolveReaction_congr resolved fun id refers => ?_, rfl⟩
  obtain ⟨before, after, split, split'⟩ := like.guards
  rw [split, split']
  refine (guardTable_without fun g own => ?_).symm
  obtain rfl := List.mem_singleton.mp own
  rintro rfl
  exact unreferenced r member refers

variable [SerdeJson]

/-- A document without a guard that no reaction refers to compiles to the same schema. -/
theorem Deleted.compileFull {src src' : List Char} {schema : TopologySchema}
    {doc : DdlDoc} {id : String} (compiled : compileFull (String.ofList src) = .ok (schema, doc))
    (unreferenced : ∀ r ∈ doc.everyReaction, r.guardRef ≠ some id) (deleted : Deleted id src src') :
    ∃ doc' guard, Ddl.compileFull (String.ofList src') = .ok (schema, doc') ∧ guard.id = id ∧
      doc.Like Eq [guard] doc' := by
  obtain ⟨tokens, lowered, lexed, parsed, emitted, expanded⟩ := compileFull_ok_iff.mp compiled
  obtain ⟨t, tl, final, last, rfl, whole, finish, finished⟩ := (parse_iff_sweep lexed).mp parsed
  obtain ⟨front, decl, back, ts, us, rfl, rfl,
      ⟨_, _, before, guard, lexed', swept, read, rfl⟩, text⟩ :=
    deleted
  rw [tokenize, String.toList_ofList] at lexed
  rw [String.toList_ofList] at whole
  cases lexed.symm.trans lexed'
  have rest := Sweep.rest (Sweep.block swept (.guard read)) whole finish
  obtain ⟨t', tl', final', last', lexed', swept', finish', like⟩ :=
    sweep_without lexed swept read text rest finish
  obtain ⟨out', finished', same⟩ := finishDoc_without like finished unreferenced
  refine ⟨out', guard, compileFull_ok_iff.mpr ⟨t' :: tl', lowered, ?_, ?_, ?_, expanded⟩, rfl, same⟩
  · rwa [tokenize, String.toList_ofList]
  · refine (parse_iff_sweep ?_).mpr ⟨t', tl', final', last', rfl, ?_, finish', finished'⟩
    · rwa [tokenize, String.toList_ofList]
    · rwa [String.toList_ofList]
  · rw [← emitted]
    exact emit_like (same.mono fun r r' agree => by rw [← agree]; exact rfl)

/-- The guards that `check_ddl` reports as unused. -/
def reportedGuards (doc : DdlDoc) (schema : TopologySchema) : List String :=
  (doc.guards.map GuardDecl.id).filter fun id => unusedGuard id ∈ checkDdl doc schema

/-- A reaction of the document refers to the guard. -/
def Ddl.DdlDoc.Refers (doc : DdlDoc) (id : String) : Prop :=
  ∃ r ∈ doc.everyReaction, r.guardRef = some id

/-- Exactly the guards that no reaction refers to are reported, and the source without the
reported ones compiles to the same schema. -/
structure UnusedExact (src : List Char) (schema : TopologySchema) (doc : DdlDoc) : Prop where
  reported : ∀ g ∈ doc.guards, unusedGuard g.id ∈ checkDdl doc schema ↔ ¬ doc.Refers g.id
  deletable : ∃ src', DeletedAll (reportedGuards doc schema) src src'
  deleted : ∀ src', DeletedAll (reportedGuards doc schema) src src' →
    compile (String.ofList src') = .ok schema

variable {src src' : List Char} {schema : TopologySchema} {out out' : DdlDoc} {ids : List String}

omit [RustStd] [SerdeJson] in
/-- Deletions do not touch the reactions. -/
theorem refers_like (like : out.Like Eq [guard] out') {id : String} :
    out'.Refers id ↔ out.Refers id := by
  have same := like.everyReaction
  rw [List.forall₂_eq_eq_eq] at same
  rw [DdlDoc.Refers, DdlDoc.Refers, same]

theorem DeletedAll.compileFull (compiled : Ddl.compileFull (String.ofList src) = .ok (schema, out))
    (unreferenced : ∀ id ∈ ids, ¬ out.Refers id) (deleted : DeletedAll ids src src') :
    ∃ out', Ddl.compileFull (String.ofList src') = .ok (schema, out') := by
  induction ids generalizing src out with
  | nil =>
      obtain rfl := deleted
      exact ⟨out, compiled⟩
  | cons id ids ih =>
      obtain ⟨mid, first, later⟩ := deleted
      obtain ⟨out', guard, compiled', _, like⟩ := first.compileFull compiled fun r member refers =>
        unreferenced id List.mem_cons_self ⟨r, member, refers⟩
      refine ih compiled' (fun id' member => ?_) later
      rw [refers_like like]
      exact unreferenced id' (List.mem_cons_of_mem _ member)

/-- A declared guard has a declaration in the source. -/
theorem exists_deleted (compiled : Ddl.compileFull (String.ofList src) = .ok (schema, out))
    (declared : guard ∈ out.guards) : ∃ src', Deleted guard.id src src' := by
  obtain ⟨tokens, lowered, lexed, parsed, _⟩ := compileFull_ok_iff.mp compiled
  obtain ⟨t, tl, final, last, rfl, whole, _, finished⟩ := (parse_iff_sweep lexed).mp parsed
  rw [String.toList_ofList] at whole
  have guards : out.guards = final.guards := (finishDoc_iff.mp finished).2.2.2.2.1
  obtain absent | ⟨doc, ts, us, swept, read⟩ := Sweep.guard whole (guards ▸ declared)
  · cases absent
  have inside := Sweep.suffix swept
  obtain ⟨toks, last', split, _⟩ :=
    braced_parseGuardDecl _ (Ends.open_ ((ends_of_tokenize lexed).suffix inside)) read
  rw [tokenize, String.toList_ofList] at lexed
  obtain ⟨front, decl, back, rfl, text⟩ := exists_occupies lexed inside split
  exact ⟨front ++ back, front, decl, back, ts, us, rfl, rfl,
    ⟨t, tl, doc, guard, lexed, swept, read, rfl⟩, text⟩

theorem exists_deletedAll (compiled : Ddl.compileFull (String.ofList src) = .ok (schema, out))
    (declared : ∀ id ∈ ids, ∃ g ∈ out.guards, g.id = id) (distinct : ids.Nodup)
    (unreferenced : ∀ id ∈ ids, ¬ out.Refers id) : ∃ src', DeletedAll ids src src' := by
  induction ids generalizing src out with
  | nil => exact ⟨src, rfl⟩
  | cons id ids ih =>
      obtain ⟨g, member, rfl⟩ := declared id List.mem_cons_self
      obtain ⟨mid, first⟩ := exists_deleted compiled member
      obtain ⟨out', guard, compiled', own, like⟩ :=
        first.compileFull compiled fun r member refers =>
        unreferenced g.id List.mem_cons_self ⟨r, member, refers⟩
      rw [List.nodup_cons] at distinct
      have still : ∀ id' ∈ ids, ∃ g' ∈ out'.guards, g'.id = id' := by
        intro id' member
        obtain ⟨g', declared', rfl⟩ := declared id' (List.mem_cons_of_mem _ member)
        obtain ⟨before, after, split, split'⟩ := like.guards
        rw [split, List.mem_append, List.mem_append, List.mem_singleton] at declared'
        refine ⟨g', ?_, rfl⟩
        rw [split', List.mem_append]
        rcases declared' with front | same | back
        · exact .inl front
        · rw [same, own] at member
          exact absurd member distinct.1
        · exact .inr back
      obtain ⟨src', later⟩ := ih compiled' still distinct.2 fun id' member => by
        rw [refers_like like]
        exact unreferenced id' (List.mem_cons_of_mem _ member)
      exact ⟨src', mid, first, later⟩

/-- The reports on unused guards can be followed exactly if every guard that a reaction
inside a component refers to is referred to at the top level too. -/
theorem checkDdl_unused_iff (compiled : Ddl.compileFull (String.ofList src) = .ok (schema, out)) :
    UnusedExact src schema out ↔ ∀ c ∈ out.components, ∀ r ∈ c.reactions, ∀ id,
      r.guardRef = some id → ∃ r' ∈ out.reactions, r'.guardRef = some id := by
  obtain ⟨tokens, lowered, lexed, parsed, _⟩ := compileFull_ok_iff.mp compiled
  obtain ⟨t, tl, final, last, rfl, whole, _, finished⟩ := (parse_iff_sweep lexed).mp parsed
  constructor
  · intro exact_ c member r inside id refers
    have every : r ∈ out.everyReaction :=
      List.mem_append_right _ (List.mem_flatMap.mpr ⟨c, member, inside⟩)
    obtain ⟨g, declared, rfl⟩ := finishDoc_ref finished every refers
    by_contra unseen
    have report : unusedGuard g.id ∈ checkDdl out schema :=
      unusedGuard_mem.mpr ⟨⟨g, declared, rfl⟩, fun r' top same => unseen ⟨r', top, same⟩⟩
    exact (exact_.reported g declared).mp report ⟨r, every, refers⟩
  · intro covered
    have reported : ∀ id, unusedGuard id ∈ checkDdl out schema ↔
        (∃ g ∈ out.guards, g.id = id) ∧ ¬ out.Refers id := by
      intro id
      rw [unusedGuard_mem]
      refine and_congr_right fun _ => ⟨?_, ?_⟩
      · rintro unseen ⟨r, member, refers⟩
        rcases List.mem_append.mp member with top | inside
        · exact unseen r top refers
        · obtain ⟨c, declared, inside⟩ := List.mem_flatMap.mp inside
          obtain ⟨r', top, refers'⟩ := covered c declared r inside id refers
          exact unseen r' top refers'
      · exact fun unseen r top refers => unseen ⟨r, List.mem_append_left _ top, refers⟩
    have listed : ∀ id ∈ reportedGuards out schema, (∃ g ∈ out.guards, g.id = id) ∧
        ¬ out.Refers id := by
      intro id member
      have report := (List.mem_filter.mp member).2
      exact (reported id).mp (by simpa using report)
    have guards : out.guards = final.guards := (finishDoc_iff.mp finished).2.2.2.2.1
    have distinct : (reportedGuards out schema).Nodup := by
      apply List.Nodup.filter
      rw [guards]
      exact Sweep.guards_nodup whole rfl
    refine ⟨?_, ?_, ?_⟩
    · intro g declared
      rw [reported]
      exact and_iff_right ⟨g, declared, rfl⟩
    · exact exists_deletedAll compiled (fun id member => (listed id member).1) distinct
        fun id member => (listed id member).2
    · intro src' deleted
      obtain ⟨out', compiled'⟩ :=
        DeletedAll.compileFull compiled (fun id member => (listed id member).2) deleted
      rw [compile, compiled']
      rfl

end

/-! ## A component that refers to a guard -/

/-- A tray that goes on heating if the guard `hot` holds, behind some other blocks. -/
def traySource (blocks : String) : String :=
  blocks ++ "component tray \x7b signal heat \x7b states: [low] initial: low \x7d " ++
    "reaction \x7b when heat enters low -> heat go when hot \x7d \x7d"

/-- The outcome of `compileFull` is a document with these guards, and these are the references
to them. -/
def refersTo (guards : List String) (top inside : List (Option String)) :
    Except (Failure EngineError) (TopologySchema × DdlDoc) → Bool
  | .ok (_, doc) => doc.guards.map (·.id) == guards && doc.reactions.map (·.guardRef) == top &&
      (doc.components.flatMap (·.reactions)).map (·.guardRef) == inside
  | .error _ => false

theorem refersTo_ok {guards : List String} {top inside : List (Option String)}
    {outcome : Except (Failure EngineError) (TopologySchema × DdlDoc)}
    (checked : refersTo guards top inside outcome = true) :
    ∃ schema doc, outcome = .ok (schema, doc) ∧ doc.guards.map (·.id) = guards ∧
      doc.reactions.map (·.guardRef) = top ∧
      (doc.components.flatMap (·.reactions)).map (·.guardRef) = inside := by
  cases outcome with
  | error e => cases checked
  | ok result =>
      obtain ⟨schema, doc⟩ := result
      simp only [refersTo, Bool.and_eq_true, beq_iff_eq] at checked
      exact ⟨schema, doc, rfl, checked.1.1, checked.1.2, checked.2⟩

/-- A guard that a reaction at the top level refers to as well, and one that none does. -/
def heatedBlocks : String :=
  "guard hot \x7b payload > 1 \x7d guard cold \x7b not hot \x7d " ++
    "reaction \x7b when heat enters low -> heat go when hot \x7d "

theorem heatedBlocks_unused : ∃ schema doc,
    @compileFull .keywords .ascii (traySource heatedBlocks) = .ok (schema, doc) ∧
      @UnusedExact .ascii .keywords (traySource heatedBlocks).toList schema doc ∧
      unusedGuard "cold" ∈ checkDdl doc schema ∧ unusedGuard "hot" ∉ checkDdl doc schema := by
  obtain ⟨schema, doc, compiled, guards, top, inside⟩ :=
    @refersTo_ok ["hot", "cold"] [some "hot"] [some "hot"] _
      (@compileFull_check .keywords .ascii (traySource heatedBlocks) _ _
        (chars_append (chars_append (chars_append rfl rfl) rfl) rfl) (by decide +kernel))
  have refers : ∃ r ∈ doc.reactions, r.guardRef = some "hot" :=
    List.mem_map.mp (top ▸ List.mem_singleton.mpr rfl)
  refine ⟨schema, doc, compiled,
    (@checkDdl_unused_iff .ascii .keywords _ schema doc ?_).mpr ?_, ?_, ?_⟩
  · rwa [String.ofList_toList]
  · intro c member r own id same
    have listed : r.guardRef ∈ (doc.components.flatMap (·.reactions)).map (·.guardRef) :=
      List.mem_map.mpr ⟨r, List.mem_flatMap.mpr ⟨c, member, own⟩, rfl⟩
    rw [inside, List.mem_singleton, same] at listed
    cases listed
    exact refers
  · refine unusedGuard_mem.mpr ⟨List.mem_map.mp (guards ▸ by simp), fun r member same => ?_⟩
    have listed : r.guardRef ∈ doc.reactions.map (·.guardRef) := List.mem_map_of_mem member
    rw [top, same] at listed
    exact absurd listed (by decide)
  · intro report
    obtain ⟨r, member, same⟩ := refers
    exact (unusedGuard_mem.mp report).2 r member same

/-- The outcome is an error with this message. -/
def failsWith (message : String) : Except (Failure EngineError) (TopologySchema × DdlDoc) → Bool
  | .error (.error (.parseError e)) => e == message
  | _ => false

theorem failsWith_error {message : String}
    {outcome : Except (Failure EngineError) (TopologySchema × DdlDoc)}
    (checked : failsWith message outcome = true) :
    outcome = .error (.error (.parseError message)) := by
  unfold failsWith at checked
  split at checked
  · next e => rw [eq_of_beq checked]
  · cases checked

/-- The guard of the tray is reported, and the source does not compile without it. -/
theorem traySource_unused_wrong : ∃ schema doc,
    @compileFull .keywords .ascii (traySource "guard hot \x7b payload > 1 \x7d ") =
      .ok (schema, doc) ∧
      unusedGuard "hot" ∈ checkDdl doc schema ∧
      @compileFull .keywords .ascii (traySource " ") = .error (.error (.parseError
        "undefined guard 'hot' referenced in reaction (heat enters low)")) ∧
      ¬ @UnusedExact .ascii .keywords
        (traySource "guard hot \x7b payload > 1 \x7d ").toList schema doc := by
  obtain ⟨schema, doc, compiled, guards, top, inside⟩ := @refersTo_ok ["hot"] [] [some "hot"] _
    (@compileFull_check .keywords .ascii (traySource "guard hot \x7b payload > 1 \x7d ") _ _
      (chars_append (chars_append rfl rfl) rfl) (by decide +kernel))
  have none_top : doc.reactions = [] := List.map_eq_nil_iff.mp top
  obtain ⟨g, declared, own⟩ := List.mem_map.mp (guards ▸ List.mem_singleton.mpr rfl :
    "hot" ∈ doc.guards.map (·.id))
  have report : unusedGuard "hot" ∈ checkDdl doc schema :=
    unusedGuard_mem.mpr ⟨⟨g, declared, own⟩, by simp [none_top]⟩
  refine ⟨schema, doc, compiled, report, failsWith_error ?_, ?_⟩
  · exact @compileFull_check .keywords .ascii (traySource " ") _ _
      (chars_append (chars_append rfl rfl) rfl)
      (by decide +kernel)
  intro exact_
  obtain ⟨r, member, refers⟩ := List.mem_map.mp (inside ▸ List.mem_singleton.mpr rfl :
    some "hot" ∈ (doc.components.flatMap (·.reactions)).map (·.guardRef))
  have every : r ∈ doc.everyReaction := List.mem_append_right _ member
  refine (@UnusedExact.reported .ascii .keywords _ _ _ exact_ g declared).mp ?_
    ⟨r, every, refers.trans (congrArg some own.symm)⟩
  rwa [own]

end SignalTopology
