import SignalTopology.Compose.Payloads
import SignalTopology.Ddl.Clauses
import SignalTopology.Ddl.PayloadPlaces
import SignalTopology.Ddl.PayloadText

/-!
# JSON values as payloads

The compact text of an object is written in the place of a payload of a source that
compiles. Where the object is portable the lexer reads the text as one block, everything
else stays what it is, and the reaction has the object for its payload. Otherwise no source
with the text in this place compiles.
-/

namespace SignalTopology.Ddl

open TokenParser Fallible

section

variable [RustStd] {front mid body back : List Char} {all : List Token} {ws vs ts us : Tokens Token}

/-! ## The edit -/

/-- In front of an opening brace the run is the same in front of another one. -/
theorem Lexes.swap_brace {cur cur' : Cursor} {toks : List Token} {rest more : List Char}
    (lexes : Lexes cur (front ++ '{' :: rest) toks cur' ('{' :: rest)) :
    Lexes cur (front ++ '{' :: more) toks cur' ('{' :: more) := by
  refine lexes.swap ⟨'{', rfl, by decide⟩ ?_
  rintro _ _ _ _ _ ⟨c, cs, rfl, read⟩ d head
  cases head
  exact continues_of_stops read rfl (stops_brace (.inl rfl))

/-- A block of balanced braces is read as a payload. -/
theorem yields_balanced {opening close : Token} {inner : List Token}
    (split : ts.toList = opening :: (inner ++ close :: us.toList))
    (opens : opening.kind = .lBrace) (balanced : Balanced (inner.map Token.kind))
    (closes_ : close.kind = .rBrace) (start : opening.start = byteLen front)
    (stop : close.start + close.len = byteLen (front ++ '{' :: (body ++ ['}']))) :
    Yields (parseRawBraceBlock (front ++ ('{' :: (body ++ ['}']) ++ back))) ts
      ('{' :: (body ++ ['}'])) us := by
  obtain ⟨current, rest⟩ := ts
  obtain ⟨rfl, behind⟩ := List.cons.inj split
  have next : (Tokens.mk current rest).advance.toList = (inner ++ [close]) ++ us.toList := by
    rw [← Tokens.rest_eq (by rw [show (Tokens.mk current rest).rest = _ from behind]; simp)]
    rw [show (Tokens.mk current rest).rest = _ from behind, List.append_assoc]
    rfl
  have closed : closes 1 ((inner ++ [close]).map Token.kind) = true := by
    rw [List.map_append, balanced 1 _ (Nat.le_refl 1), List.map_singleton, closes_]
    rfl
  have cut : ∀ last, (inner ++ [close]).getLast? = some last →
      slice (front ++ ('{' :: (body ++ ['}']) ++ back)) current.start (last.start + last.len) =
        some ('{' :: (body ++ ['}'])) := by
    intro last final
    rw [List.getLast?_concat] at final
    cases final
    rw [start, stop]
    exact slice_iff.mpr ⟨front, back, rfl, rfl, rfl⟩
  obtain ⟨n, bound, run⟩ := braces next closed cut
  rw [parseRawBraceBlock, expect_bind opens]
  exact yields_iterate.mpr ⟨n, bound, run⟩

/-- Another block in the place of a payload. -/
theorem exists_paid_edit (lexed : tokenizeChars .start (front ++ ('{' :: mid ++ back)) = .ok all)
    (inside : ws.toList <:+ all) (keyword : ws.current.kind = .with)
    (place : Occupies front ('{' :: mid) ws.advance vs) (runs : RunsOver Delimited body Balanced) :
    ∃ passed toks toks' after after' last last',
      Edit front ('{' :: mid)
        ('{' :: (body ++ ['}'])) back (passed ++ [ws.current]) toks toks' after after'
        last last' ∧
      all = passed ++ ws.toList ∧ ws.toList = ws.current :: (toks ++ (after ++ [last])) ∧
      vs.toList = after ++ [last] ∧ ∀ ts us : Tokens Token, ts.toList = toks' ++ us.toList →
        Yields (parseRawBraceBlock (front ++ ('{' :: (body ++ ['}']) ++ back))) ts
          ('{' :: (body ++ ['}'])) us := by
  have stream : Ends ws := ends_inside lexed inside
  have here : ws.toList = ws.current :: ws.advance.toList :=
    congrArg (ws.current :: ·) (Tokens.rest_eq (stream.more (by simp [keyword])))
  obtain ⟨before, toks, after, cur, cur', stop, whole, split, split', run, within, later, _⟩ :=
    place.cut lexed (ws.advance_suffix.trans inside)
  obtain ⟨passed, prefixed⟩ := inside
  obtain rfl : before = passed ++ [ws.current] := by
    apply @List.append_cancel_right _ _ ws.advance.toList _
    rw [← whole, ← prefixed, here, List.append_assoc]
    rfl
  -- the run over the other block
  have run' : Lexes .start (front ++ ('{' :: (body ++ ['}']) ++ back)) (passed ++ [ws.current]) cur
      ('{' :: (body ++ ['}']) ++ back) := run.swap_brace
  obtain ⟨kinds, balanced, reads⟩ := runs
  obtain ⟨inner, cur₂, passes, rfl⟩ :=
    reads (cur.past ['{']) ('}' :: back) (delimited_bracket (.inr rfl) back)
  have opens := @lexes_symbol _ '{' .lBrace cur (body ++ '}' :: back) (by decide) rfl
    (by decide) fun _ _ => rfl
  have closing := @lexes_symbol _ '}' .rBrace cur₂ back (by decide) rfl (by decide) fun _ _ => rfl
  have inside' : Lexes cur ('{' :: (body ++ ['}']) ++ back)
      (cur.token .lBrace ['{'] :: (inner ++ [cur₂.token .rBrace ['}']]))
        (cur₂.past ['}']) back := by
    have joined := opens.trans (passes.trans closing)
    rwa [show '{' :: (body ++ '}' :: back) = '{' :: (body ++ ['}']) ++ back by simp] at joined
  obtain ⟨after', last', e⟩ := Edit.of_cut run within later run' inside'
  refine ⟨passed, toks, _, after, after', stop.eof, last', e, prefixed.symm, ?_, split', ?_⟩
  · rw [here, split, split']
  · have at_front : cur.pos = byteLen front := by
      obtain ⟨taken, whole, moved⟩ := run'.text
      obtain rfl := List.append_cancel_right whole
      exact moved.trans (Nat.zero_add _)
    have at_close : cur₂.pos + byteLen ['}'] = byteLen (front ++ '{' :: (body ++ ['}'])) := by
      obtain ⟨taken, whole, moved⟩ := passes.text
      obtain rfl := List.append_cancel_right whole
      have opened : (cur.past ['{']).pos = cur.pos + byteLen ['{'] := rfl
      simp only [byteLen_append, byteLen_cons, byteLen_nil] at opened ⊢
      omega
    intro ts us split
    have whole : ts.toList =
        cur.token .lBrace ['{'] :: (inner ++ cur₂.token .rBrace ['}'] :: us.toList) := by
      rw [split]
      simp
    exact yields_balanced whole rfl balanced rfl at_front at_close

/-! ## The document around a payload -/

/-- The parser comes to a payload behind the `with` at `ws` and up to `vs`, in the reaction
`raw`. -/
def PayloadAt (src : List Char) (ws vs : Tokens Token) (raw : RawReaction) : Prop :=
  ∃ t tl doc ts, tokenizeChars .start src = .ok (t :: tl) ∧ Sweep src ({}, ⟨t, tl⟩) (doc, ts) ∧
    BlockAt src ws vs doc ts raw

omit [RustStd] in
theorem TokenKind.opensBlock_apart {kind : TokenKind} (h : kind.opensBlock = true) :
    kind.isHead = false ∧ kind ≠ .when := by
  cases kind <;> first | cases h; done | exact ⟨rfl, by simp⟩

omit [RustStd] in
theorem DocState.InFrontOf.subset {doc final : DocState} (h : doc.InFrontOf final) :
    doc.everyReaction ⊆ final.everyReaction := by
  intro r member
  rcases List.mem_append.mp member with top | inside
  · exact List.mem_append_left _ (h.1.subset top)
  · obtain ⟨c, declared, own⟩ := List.mem_flatMap.mp inside
    exact List.mem_append_right _ (List.mem_flatMap.mpr ⟨c, h.2.subset declared, own⟩)

/-- In front of a block a sweep reads it. -/
theorem Sweep.next {src : List Char} {doc : DocState} {final : DocState × Tokens Token}
    (rest : Sweep src (doc, ts) final) (finish : final.2.current.kind = .eof)
    (other : ts.current.kind ≠ .eof) :
    ∃ next us, BlockRead src doc ts us next ∧ Sweep src (next, us) final := by
  obtain same | ⟨⟨next, us⟩, turn, later⟩ := rest.cases_head
  · rw [← same] at finish
    exact absurd finish other
  · exact ⟨next, us, parseBlock_inl.mp turn, later⟩

theorem BlockAt.visible {src : List Char} {doc : DocState} {raw : RawReaction}
    (h : BlockAt src ws vs doc ts raw) : ts.current.kind ≠ .eof := by
  cases h with
  | own opening | fork opening | join opening | inside opening =>
      rw [expect_first opening]
      simp

variable {t : Token} {tl : List Token} {final : DocState} {stop : Tokens Token} {raw : RawReaction}

/-- The document with the other block in the place of the payload. -/
theorem sweep_paid (lexed : tokenizeChars .start (front ++ ('{' :: mid ++ back)) = .ok (t :: tl))
    (whole : Sweep (front ++ ('{' :: mid ++ back)) ({}, ⟨t, tl⟩) (final, stop))
    (finish : stop.current.kind = .eof) (here : PayloadAt (front ++ ('{' :: mid ++ back)) ws vs raw)
    (place : Occupies front ('{' :: mid) ws.advance vs) (runs : RunsOver Delimited body Balanced) :
    ∃ t' tl' final' stop', tokenizeChars .start (front ++ ('{' :: (body ++ ['}']) ++ back)) =
      .ok (t' :: tl') ∧
      Sweep (front ++ ('{' :: (body ++ ['}']) ++ back)) ({}, ⟨t', tl'⟩) (final', stop') ∧
      stop'.current.kind = .eof ∧ final.Like (Paid raw ('{' :: (body ++ ['}']))) [] final' ∧
      raw ∈ final.everyReaction ∧
      { raw with payload := some (String.ofList ('{' :: (body ++ ['}']))) } ∈
        final'.everyReaction := by
  obtain ⟨_, _, doc, ts, lexed₀, swept, block⟩ := here
  cases lexed.symm.trans lexed₀
  have outer : ts.toList <:+ t :: tl := Sweep.suffix swept
  have within := block.suffix
  obtain ⟨passed, toks, toks', after, after', last, last', e, split, next, behind, reads⟩ :=
    exists_paid_edit lexed (within.trans outer) block.keyword place runs
  have stream : t :: tl = (passed ++ [ws.current]) ++ (toks ++ (after ++ [last])) :=
    Except.ok.inj (lexed.symm.trans e.lexed)
  obtain ⟨⟨t', tl'⟩, stream'⟩ : ∃ x : Tokens Token,
      x.toList = (passed ++ [ws.current]) ++ (toks' ++ (after' ++ [last'])) :=
    Tokens.exists_toList (by simp)
  have start : e.InFront ⟨t, tl⟩ ⟨t', tl'⟩ := ⟨[], _, rfl, by simp, stream, stream'⟩
  have length : (toks ++ (after ++ [last])).length < ws.toList.length := by
    rw [next]
    simp
  obtain ⟨ws', at_with⟩ := start.later (within.trans outer) length
  obtain ⟨ts', at_block⟩ := start.later outer (Nat.lt_of_lt_of_le length within.length_le)
  -- the block in the other source
  obtain ⟨vs', behind'⟩ : ∃ vs' : Tokens Token, vs'.toList = after' ++ [last'] :=
    Tokens.exists_toList (by simp)
  have other : ws'.advance.toList = toks' ++ vs'.toList := by
    obtain ⟨_, left, _, _, here, there⟩ := at_with
    obtain rfl : left = [ws.current] := List.append_cancel_right (here.symm.trans next)
    have rest : ws'.rest = toks' ++ (after' ++ [last']) := (List.cons.inj there).2
    rw [← Tokens.rest_eq (by rw [rest]; simp), rest, behind']
  have apart := e.apart_front at_with (by simp [block.keyword, TokenKind.isHead])
    (at_with.more tail_ne_nil)
  have crossing : e.Crossing (frontBorder front ws ws' (at_with.more tail_ne_nil)) vs vs'
      ('{' :: (body ++ ['}'])) :=
    ⟨apart, reads _ _ other, ⟨after, after', behind, behind', e.behind⟩,
      behind ▸ List.suffix_refl _⟩
  have ends : Ends ts := ends_inside lexed outer
  have ends' : Ends ts' := by
    obtain ⟨passed', left', split, _, _, there⟩ := at_block
    refine ends_inside e.lexed' ⟨passed', ?_⟩
    rw [there, split, List.append_assoc]
  obtain ⟨next, us, read, _⟩ := Sweep.next (swept.rest whole finish) finish block.visible
  obtain ⟨final', stop', swept', finish', like, _, _, ⟨own, own'⟩, _, here, there⟩ := e.document
    (P := fun next next' => raw ∈ next.everyReaction ∧
      { raw with payload := some (String.ofList ('{' :: (body ++ ['}']))) } ∈ next'.everyReaction)
    Paid.refl start at_block
      (TokenKind.opensBlock_apart ((swept.rest whole finish).opens finish)) swept whole
    finish fun doc' like => by
      obtain ⟨next', us', read', like', own, along, inside⟩ :=
        Edit.paid_block at_with crossing at_block ends ends' block like read
      exact ⟨next, next', us, us', read, read', like', own, along, inside⟩
  exact ⟨t', tl', final', stop', e.lexed'.trans (congrArg Except.ok stream'.symm),
    swept', finish', like, here.subset own, there.subset own'⟩

/-- Whatever stands in the place of the payload, up to a source that is read: the block that
the parser takes for it starts with the same brace. -/
theorem payload_read {mid' : List Char} {t' : Token} {tl' : List Token}
    {final' : DocState} {stop' : Tokens Token}
    (here : PayloadAt (front ++ ('{' :: mid ++ back)) ws vs raw)
    (place : Occupies front ('{' :: mid) ws.advance vs)
    (lexed' : tokenizeChars .start (front ++ ('{' :: mid' ++ back)) = .ok (t' :: tl'))
    (whole' : Sweep (front ++ ('{' :: mid' ++ back)) ({}, ⟨t', tl'⟩) (final', stop'))
    (finish' : stop'.current.kind = .eof) : ∃ ts' vs' text, ∃ raw' ∈ final'.everyReaction,
      ts'.toList <:+ t' :: tl' ∧ ts'.current.start = byteLen front ∧
      Yields (parseRawBraceBlock (front ++ ('{' :: mid' ++ back))) ts' text vs' ∧
      raw'.payload = some (String.ofList text) := by
  obtain ⟨t, tl, doc, ts, lexed, swept, block⟩ := here
  have outer : ts.toList <:+ t :: tl := Sweep.suffix swept
  have within := block.suffix
  have stream : Ends ws := ends_inside lexed (within.trans outer)
  have next : ws.toList = ws.current :: ws.advance.toList :=
    congrArg (ws.current :: ·) (Tokens.rest_eq (stream.more (by simp [block.keyword])))
  obtain ⟨before, toks, after, cur, cur', stop, split, _, _, run, _, _, _⟩ :=
    place.cut lexed (ws.advance_suffix.trans (within.trans outer))
  obtain ⟨passed, prefixed⟩ := within.trans outer
  obtain rfl : before = passed ++ [ws.current] := by
    apply @List.append_cancel_right _ _ ws.advance.toList _
    rw [← split, ← prefixed, next, List.append_assoc]
    rfl
  have at_front : cur.pos = byteLen front := by
    obtain ⟨taken, whole, moved⟩ := run.text
    obtain rfl := List.append_cancel_right whole
    exact moved.trans (Nat.zero_add _)
  have inside : ∀ tok ∈ passed ++ [ws.current], tok.start + tok.len ≤ byteLen front :=
      fun tok member => by
    have bounds := (run.spanned (List.nil_append _).symm rfl).1.within tok member
    rw [at_front] at bounds
    exact bounds.2.1
  -- the tokens of the other source
  have run' : Lexes .start (front ++ ('{' :: mid' ++ back)) (passed ++ [ws.current]) cur
      ('{' :: mid' ++ back) := run.swap_brace
  have opens := @lexes_symbol _ '{' .lBrace cur (mid' ++ back) (by decide) rfl
    (by decide) fun _ _ => rfl
  have tokens := (run'.trans opens).tokenize.symm.trans lexed'
  obtain ⟨rest, _, same⟩ : ∃ rest, tokenizeChars (cur.past ['{']) (mid' ++ back) = .ok rest ∧
      (passed ++ [ws.current] ++ [cur.token .lBrace ['{']]) ++ rest = t' :: tl' := by
    cases left : tokenizeChars (cur.past ['{']) (mid' ++ back) with
    | error e =>
        rw [left] at tokens
        cases tokens
    | ok rest =>
        rw [left] at tokens
        exact ⟨rest, rfl, Except.ok.inj tokens⟩
  have start : InFront (passed ++ [ws.current]) ws.advance.toList (cur.token .lBrace ['{'] :: rest)
      ⟨t, tl⟩ ⟨t', tl'⟩ := by
    refine ⟨[], _, rfl, by simp, split, ?_⟩
    show t' :: tl' = _
    rw [← same, List.append_assoc]
    rfl
  have length : ws.advance.toList.length < ws.toList.length := by
    rw [next]
    simp
  obtain ⟨ws', at_with⟩ := start.later (within.trans outer) length
  have more := at_with.more ws.advance.toList_ne_nil
  have par : Apart (front ++ ('{' :: mid ++ back)) (front ++ ('{' :: mid' ++ back))
      (frontBorder front ws ws' more) :=
    { frontBorder_parallel more (by rw [at_with.current]; exact .refl _) with
      head := by simp [frontBorder, block.keyword, TokenKind.isHead] }
  -- the sweep up to the block
  have refl : ∀ r : RawReaction, Eq r r := fun _ => rfl
  obtain ⟨doc', ts', swept', like, along⟩ := Sweep.along refl par (.refl refl _) swept
    (start.border at_with (within.trans outer) inside more) within
  have current : ts'.current = ts.current := by
    obtain related | ⟨own, own'⟩ := along.peeked
    · exact related.1
    · rw [own, own']
      exact at_with.current
  obtain ⟨next', us', read', later⟩ := Sweep.next (swept'.rest whole' finish') finish' (by
    rw [current]
    exact block.visible)
  have ends' : Ends ts' := ends_inside lexed' (Sweep.suffix swept')
  obtain ⟨text, vs', raw', taken, payload, member⟩ :=
    block.reached par like.seenComponentIds like.forkCounter along ends' read'
  have other : ws'.advance.toList = cur.token .lBrace ['{'] :: rest := by
    obtain ⟨_, left, _, _, here, there⟩ := at_with
    obtain rfl : left = [ws.current] := List.append_cancel_right (here.symm.trans next)
    have rest_eq : ws'.rest = cur.token .lBrace ['{'] :: rest := (List.cons.inj there).2
    rw [← Tokens.rest_eq (by rw [rest_eq]; simp), rest_eq]
  refine ⟨ws'.advance, vs', text, raw',
    (show next'.InFrontOf final' from Sweep.grows later).subset member, ?_, ?_, taken, payload⟩
  · refine ⟨passed ++ [ws.current], ?_⟩
    rw [other, ← same, List.append_assoc (passed ++ [ws.current])]
    rfl
  · rw [(List.cons.inj other).1]
    exact at_front

/-! ## What the lexer has read of a payload -/

/-- The lexer comes from the opening brace of a block to its closing one. -/
theorem block_lexes {src text : List Char} (lexed : tokenizeChars .start src = .ok all)
    (inside : ts.toList <:+ all) (h : Yields (parseRawBraceBlock src) ts text us) :
    ∃ front body behind cur cur' toks, src = front ++ ('{' :: (body ++ '}' :: behind)) ∧
      byteLen front = ts.current.start ∧ text = '{' :: (body ++ ['}']) ∧
      Lexes cur ('{' :: (body ++ '}' :: behind)) toks cur' ('}' :: behind) := by
  obtain ⟨opens, close, member, closes, sliced⟩ := yields_block h
  have stream : Ends ts := ends_inside lexed inside
  obtain ⟨whole, stop, lexes, rfl⟩ := lexes_of_tokenize lexed
  obtain ⟨passed, split⟩ := inside
  have next : ts.toList = ts.current :: ts.advance.toList :=
    congrArg (ts.current :: ·) (Tokens.rest_eq (stream.more (by simp [opens])))
  have around : whole ++ [stop.eof] = (passed ++ [ts.current]) ++ ts.advance.toList := by
    rw [← split, next, List.append_assoc]
    rfl
  obtain ⟨more, rfl⟩ := Tokens.split_last around
  have rest : more ++ [stop.eof] = ts.advance.toList :=
    List.append_cancel_left ((List.append_assoc _ _ _).symm.trans around)
  rw [List.append_assoc, List.singleton_append] at lexes
  have closing : close ∈ more := by
    rw [← rest, List.mem_append, List.mem_singleton] at member
    rcases member with own | rfl
    · exact own
    · cases closes
  obtain ⟨inner, outer, rfl⟩ := List.append_of_mem closing
  obtain ⟨front, _, later, rfl, stands, places⟩ :=
    (lexes.placed (Cursor.behind_start src)).split
  obtain rfl := stands.brace.1 opens
  obtain ⟨body, _, behind, rfl, stands', _⟩ := places.split
  obtain rfl := stands'.brace.2 closes
  rw [List.nil_append] at stands stands'
  have start := stands.start
  have start' := stands'.start
  refine ⟨front, body, behind, ?_⟩
  -- the runs up to the two braces
  obtain ⟨cur, left, run, tail, place, _⟩ := lexes.until_token
  obtain ⟨taken, split, moved⟩ := run.text
  obtain ⟨rfl, rfl⟩ : taken = front ∧ left = '{' :: (body ++ '}' :: behind) := by
    refine front_unique (split.symm.trans rfl) ?_
    have origin : Cursor.start.pos = 0 := rfl
    omega
  have tail : Lexes cur ('{' :: (body ++ '}' :: behind))
    ((ts.current :: inner) ++ close :: outer) stop [] := tail
  obtain ⟨cur', left', run', _, place', _⟩ := tail.until_token
  obtain ⟨taken', split', moved'⟩ := run'.text
  obtain ⟨_, rfl⟩ : taken' = '{' :: body ∧ left' = '}' :: behind := by
    refine front_unique (split'.symm.trans rfl) ?_
    simp only [byteLen_append, byteLen_cons, byteLen_nil] at start' ⊢
    omega
  refine ⟨cur, cur', _, rfl, start.symm, ?_, run'⟩
  obtain ⟨x, y, same, begin_, finish⟩ := slice_iff.mp sliced
  obtain ⟨rfl, text_⟩ := front_unique same (start.symm.trans begin_.symm)
  have length := stands'.len
  have place : ('{' :: (body ++ ['}'])) ++ behind = text ++ y := by
    rw [← text_]
    simp
  refine (front_unique place ?_).1.symm
  simp only [byteLen_append, byteLen_cons, byteLen_nil] at start' length finish ⊢
  omega

section

variable [FloatText] {map : List (String × JsonValue)}

/-- A payload that is the compact text of an object is the text of a portable one. -/
theorem portable_of_block {src : List Char} (lexed : tokenizeChars .start src = .ok all)
    (inside : ts.toList <:+ all)
    (h : Yields (parseRawBraceBlock src) ts (compact (.object map)) us) :
    (JsonValue.object map).Portable := by
  obtain ⟨_, body, behind, cur, cur', toks, _, _, same, run⟩ := block_lexes lexed inside h
  obtain rfl : compactEntries true map = body := List.append_cancel_right (List.cons.inj same).2
  exact (object_readsIff fun e _ => compact_readsIff e.2).only (q := [])
    (fun d head => .inr (.inr (by
    cases head
    rfl))) .nil run

/-- The inside of the text of a portable object is read with balanced braces. -/
theorem runs_entries (portable : (JsonValue.object map).Portable) :
    RunsOver Delimited (compactEntries true map) Balanced :=
  (entries_readsIff (fun e _ => compact_readsIff e.2) true).runs portable

end

end

/-! ## Lowering -/

section

variable [SerdeJson] {Q : ReactionDecl → ReactionDecl →
  Prop} {gone : List GuardDecl} {doc doc' : DdlDoc}

omit [SerdeJson] in
theorem lookup_components (map : HashMap ComponentDef) (name : String) :
    ((if map.keys.isEmpty then none else some map).getD ∅).lookup name = map.lookup name := by
  by_cases none_left : map.keys = []
  · rw [if_pos (List.isEmpty_iff.mpr none_left)]
    symm
    rw [Option.getD_none, show (∅ : HashMap ComponentDef).lookup name =
      none from rfl, AList.lookup_eq_none, AList.mem_keys, none_left]
    simp
  · rw [if_neg (by rwa [List.isEmpty_iff]), Option.getD_some]

theorem emitComponent_samePlan
    (each : ∀ r r' d, Q r r' → emitReaction r = .ok d → ∃ d', emitReaction r' = .ok d' ∧
      d.SamePlan d')
    {c c' : ComponentDecl} (like : c.Like Q c') {made : ComponentDef}
    (h : emitComponent c = .ok made) :
    ∃ made', emitComponent c' = .ok made' ∧ made.SamePlan made' := by
  obtain ⟨reactions, emitted, h⟩ := bind_ok h
  cases h
  obtain ⟨reactions', emitted', related⟩ := mapM_related like.reactions emitted
    fun r r' d same _ => each r r' d same
  refine ⟨_, bind_ok_iff.mpr ⟨reactions', emitted', rfl⟩, reactions', ?_, related⟩
  rw [like.params, like.ports, like.signals]

/-- Documents that are the same but for payloads are lowered to such schemas. -/
theorem emit_samePlan
    (each : ∀ r r' d, Q r r' → emitReaction r = .ok d → ∃ d', emitReaction r' = .ok d' ∧
      d.SamePlan d')
    (like : doc.Like Q gone doc') {lowered : TopologySchema} (h : emit doc = .ok lowered) :
    ∃ lowered', emit doc' = .ok lowered' ∧ lowered.SamePlan lowered' ∧
      doc'.reactions.mapM emitReaction = .ok lowered'.reactions := by
  obtain ⟨reactions, emitted, h⟩ := bind_ok h
  obtain ⟨components, built, h⟩ := bind_ok h
  cases h
  obtain ⟨reactions', emitted', related⟩ := mapM_related like.reactions emitted
    fun r r' d same _ => each r r' d same
  have tables : ∀ {map map' made : HashMap ComponentDef},
      (∀ name c, map.lookup name = some c → ∃ c', map'.lookup name = some c' ∧ c.SamePlan c') →
      doc.components.foldlM (fun map comp =>
        do return map.insert comp.id (← emitComponent comp)) map =
        Except.ok made →
      ∃ made', doc'.components.foldlM
          (fun map comp => do return map.insert comp.id (← emitComponent comp)) map' =
            Except.ok made' ∧
        ∀ name c, made.lookup name = some c → ∃ c', made'.lookup name = some c' ∧
          c.SamePlan c' := by
    have alike := like.components
    revert alike
    generalize doc.components = cs
    generalize doc'.components = cs'
    intro alike
    induction alike with
    | nil =>
        intro map map' made same h
        cases h
        exact ⟨map', rfl, same⟩
    | @cons c c' cs cs' first _ ih =>
        intro map map' made same h
        rw [List.foldlM_cons] at h
        obtain ⟨next, turn, later⟩ := bind_ok h
        obtain ⟨own, emitted, turn⟩ := bind_ok turn
        cases turn
        obtain ⟨own', emitted', plan⟩ := emitComponent_samePlan each first emitted
        have longer : ∀ name x, (map.insert c.id own).lookup name = some x →
            ∃ x', (map'.insert c'.id own').lookup name = some x' ∧ x.SamePlan x' := by
          intro name x found
          rw [first.id]
          by_cases here : name = c.id
          · rw [here, AList.lookup_insert] at found
            cases found
            exact ⟨own', by rw [here, AList.lookup_insert], plan⟩
          · rw [AList.lookup_insert_ne here] at found ⊢
            exact same name x found
        obtain ⟨made', rest, related⟩ := ih longer later
        refine ⟨made', ?_, related⟩
        rw [List.foldlM_cons]
        exact bind_ok_iff.mpr ⟨_, bind_ok_iff.mpr ⟨own', emitted', rfl⟩, rest⟩
  obtain ⟨components', built', same⟩ := @tables ∅ ∅ _ (fun name c found => by cases found) built
  refine ⟨_, bind_ok_iff.mpr ⟨reactions', emitted', bind_ok_iff.mpr ⟨components', built', rfl⟩⟩,
    ?_, emitted'⟩
  refine ⟨rfl, ?_, ?_, ?_, related, ?_⟩
  · exact congrArg (fun decls => (emitSignals decls).1) like.signals
  · exact congrArg (fun decls => (emitSignals decls).2) like.signals
  · exact congrArg (List.map emitInstantiate) like.instantiates
  · intro name c found
    dsimp only at found ⊢
    rw [lookup_components] at found ⊢
    exact same name c found

theorem emitReaction_paid {r : ReactionDecl} {d : ReactionDef} {text : String} {v : JsonValue}
    (h : emitReaction r = .ok d) (read : SerdeJson.valueFromStr text = .ok v) :
    emitReaction { r with payload := some text } = .ok { d with payload := some v } := by
  have shape : d = { d with
      fromSignal := r.fromSignal, fromState := r.fromState, toSignal := r.toSignal, event := r.event
      guard := r.guard, joinGroup := r.joinGroup, requires := r.requires, onFail := r.onFail } := by
    rw [emitReaction] at h
    split at h
    · cases h
      rfl
    · split at h
      · cases h
        rfl
      · cases h
  rw [shape, emitReaction]
  dsimp only
  rw [read]
  rfl

/-- Every reaction of a document that is lowered is lowered. -/
theorem emit_each {lowered : TopologySchema} (h : emit doc = .ok lowered) {r : ReactionDecl}
    (member : r ∈ doc.everyReaction) : ∃ d, emitReaction r = .ok d := by
  obtain ⟨reactions, emitted, h⟩ := bind_ok h
  obtain ⟨components, built, _⟩ := bind_ok h
  rcases List.mem_append.mp member with top | inside
  · obtain ⟨d, _, own⟩ := mapM_mem emitted r top
    exact ⟨d, own⟩
  · obtain ⟨c, declared, own⟩ := List.mem_flatMap.mp inside
    obtain ⟨_, _, turn⟩ := foldlM_mem built c declared
    obtain ⟨_, made, _⟩ := bind_ok turn
    obtain ⟨_, each, _⟩ := bind_ok made
    obtain ⟨d, _, lowered⟩ := mapM_mem each r own
    exact ⟨d, lowered⟩

/-- A payload that is lowered is JSON. -/
theorem emitReaction_payload {r : ReactionDecl} {d : ReactionDef} {text : String}
    (h : emitReaction r = .ok d) (payload : r.payload = some text) :
    ∃ v, SerdeJson.valueFromStr text = .ok v := by
  rw [emitReaction, payload] at h
  cases read : SerdeJson.valueFromStr text with
  | ok v => exact ⟨v, rfl⟩
  | error e =>
      dsimp only at h
      rw [read] at h
      cases h

end

/-! ## Payloads that are carried -/

section

variable [FloatText]

/-- The reaction with the text of an object for its payload. -/
def ReactionDecl.paid (r : ReactionDecl) (map : List (String × JsonValue)) : ReactionDecl :=
  { r with payload := some (String.ofList (compact (.object map))) }

/-- What `serde_json` has read up to a brace it does not read with more behind it. -/
def RefusesTrailing [SerdeJson] : Prop :=
  ∀ (text more : List Char) (v w : JsonValue),
    SerdeJson.valueFromStr (String.ofList (text ++ ['}'])) = .ok v →
    SerdeJson.valueFromStr (String.ofList (text ++ '}' :: (more ++ ['}']))) ≠ .ok w

/-- The source compiles to the document with the object as the payload of `r`, and to nothing
else. -/
def Carries [RustStd] [SerdeJson] (doc : DdlDoc) (r : ReactionDecl)
    (map : List (String × JsonValue)) (src : List Char) : Prop :=
  ∃ schema doc' d, compileFull (String.ofList src) = .ok (schema, doc') ∧
    List.Forall₂ (fun s s' => s' = s ∨ (s = r ∧ s' = r.paid map)) doc.everyReaction
      doc'.everyReaction ∧
    r.paid map ∈ doc'.everyReaction ∧ emitReaction (r.paid map) = .ok d ∧
      d.payload = some (.object map) ∧
    (r.paid map ∈ doc'.reactions → d ∈ schema.reactions)

omit [FloatText] in
theorem resolveReaction_paid {map : HashMap String} {raw : RawReaction} {r : ReactionDecl}
    (h : resolveReaction map raw = .ok r) (payload : Option String) :
    resolveReaction map { raw with payload } = .ok { r with payload } := by
  obtain ⟨resolved, found, h⟩ := bind_ok h
  cases h
  exact bind_ok_iff.mpr ⟨resolved, found, rfl⟩

omit [FloatText] in
theorem resolveReaction_payload {map : HashMap String} {raw : RawReaction} {r : ReactionDecl}
    (h : resolveReaction map raw = .ok r) : r.payload = raw.payload := by
  obtain ⟨_, _, h⟩ := bind_ok h
  cases h
  rfl

variable [RustStd] [SerdeJson] {front back : List Char} {ws vs : Tokens Token} {raw : RawReaction}
variable {r : ReactionDecl} {schema : TopologySchema} {doc : DdlDoc}
  {map : List (String × JsonValue)}

/-- The text of a portable object is carried. -/
theorem carries_of_portable
    (compiled : compileFull (String.ofList (front ++ (['{', '}'] ++ back))) = .ok (schema, doc))
    (here : PayloadAt (front ++ (['{', '}'] ++ back)) ws vs raw)
    (place : Occupies front ['{', '}'] ws.advance vs)
    (resolved : resolveReaction (guardTable doc.guards) raw = .ok r)
    (own : SerdeJson.valueFromStr (String.ofList (compact (.object map))) = .ok (.object map))
    (portable : (JsonValue.object map).Portable) :
    Carries doc r map (front ++ (compact (.object map) ++ back)) := by
  obtain ⟨tokens, lowered, lexed, parsed, emitted, expanded⟩ := compileFull_ok_iff.mp compiled
  obtain ⟨t, tl, final, stop, rfl, whole, finish, finished⟩ := (parse_iff_sweep lexed).mp parsed
  rw [tokenize, String.toList_ofList] at lexed
  rw [String.toList_ofList] at whole
  obtain ⟨t', tl', final', stop', lexed', whole', finish', like, _, member⟩ :=
    sweep_paid lexed whole finish here place (runs_entries portable)
  have guards : doc.guards = final.guards := (finishDoc_iff.mp finished).2.2.2.2.1
  have same : final'.guards = final.guards := by
    obtain ⟨before, after, split, split'⟩ := like.guards
    rw [split, split', List.nil_append]
  rw [guards] at resolved
  -- the documents
  obtain ⟨out, finished', alike⟩ :=
    @finishDoc_like _ (fun s s' => s' = s ∨ (s = r ∧ s' = r.paid map)) _ _ _ _
      like finished (by
    rintro raw₁ raw₁' r₁ (rfl | ⟨rfl, rfl⟩) _ resolved₁
    · rw [same]
      exact ⟨r₁, resolved₁, .inl rfl⟩
    · cases resolved.symm.trans resolved₁
      rw [same]
      exact ⟨r.paid map, resolveReaction_paid resolved _, .inr ⟨rfl, rfl⟩⟩)
  obtain ⟨paid, listed, resolved'⟩ := finishDoc_mem finished' member
  rw [same] at resolved'
  obtain rfl : r.paid map = paid :=
    Except.ok.inj ((resolveReaction_paid resolved _).symm.trans resolved')
  -- the schemas
  obtain ⟨lowered', emitted', plan, tops⟩ := emit_samePlan (by
    rintro s s' d (rfl | ⟨rfl, rfl⟩) lowered
    · exact ⟨d, lowered, d.payload, rfl⟩
    · exact ⟨_, emitReaction_paid lowered own, _, rfl⟩) alike emitted
  obtain ⟨schema', expanded', _, kept⟩ := expand_samePlan plan expanded
  have compiled' : compileFull (String.ofList (front ++ (compact (.object map) ++ back))) =
      .ok (schema', out) := by
    refine compileFull_ok_iff.mpr ⟨t' :: tl', lowered', ?_, ?_, emitted', expanded'⟩
    · rwa [tokenize, String.toList_ofList]
    · refine (parse_iff_sweep ?_).mpr ⟨t', tl', final', stop', rfl, ?_, finish', finished'⟩
      · rwa [tokenize, String.toList_ofList]
      · rwa [String.toList_ofList]
  -- the reaction
  obtain ⟨d, lowers⟩ := emit_each emitted' listed
  have payload : d.payload = some (.object map) := by
    have again : emitReaction (r.paid map) = .ok { d with payload := some (.object map) } :=
      @emitReaction_paid _ (r.paid map) d _ _ lowers own
    exact congrArg ReactionDef.payload (Except.ok.inj (lowers.symm.trans again))
  refine ⟨schema', out, d, compiled', alike.everyReaction, listed, lowers, payload, fun top =>
    kept.subset ?_⟩
  obtain ⟨d', listed', lowers'⟩ := mapM_mem tops _ top
  cases lowers.symm.trans lowers'
  exact listed'

omit [RustStd] in
/-- Of two texts of objects that start at one place, both are the same. -/
theorem block_unique {body behind : List Char} (trailing : RefusesTrailing) {v w : JsonValue}
    (own : SerdeJson.valueFromStr (String.ofList (compact (.object map))) = .ok v)
    (read : SerdeJson.valueFromStr (String.ofList ('{' :: (body ++ ['}']))) = .ok w)
    (split : body ++ '}' :: behind = compactEntries true map ++ '}' :: back) :
    '{' :: (body ++ ['}']) = compact (.object map) := by
  obtain ⟨more, longer, tail⟩ | ⟨more, longer, tail⟩ := List.append_eq_append_iff.mp split
  · cases more with
    | nil =>
        rw [List.append_nil] at longer
        rw [← longer]
        rfl
    | cons c more =>
        obtain ⟨rfl, _⟩ := List.cons.inj tail
        have whole : compact (.object map) = ('{' :: body) ++ '}' :: (more ++ ['}']) := by
          rw [compact, longer]
          simp
        rw [whole] at own
        exact absurd own (trailing ('{' :: body) more w v read)
  · cases more with
    | nil =>
        rw [List.append_nil] at longer
        rw [longer]
        rfl
    | cons c more =>
        obtain ⟨rfl, _⟩ := List.cons.inj tail
        have whole : '{' :: (body ++ ['}']) =
            ('{' :: compactEntries true map) ++ '}' :: (more ++ ['}']) := by
          rw [longer]
          simp
        rw [whole] at read
        exact absurd read (trailing ('{' :: compactEntries true map) more v w own)

/-- Where the text of an object is carried, the object is portable. -/
theorem portable_of_compiled {schema' : TopologySchema} {doc' : DdlDoc}
    (trailing : RefusesTrailing)
    (here : PayloadAt (front ++ (['{', '}'] ++ back)) ws vs raw)
    (place : Occupies front ['{', '}'] ws.advance vs)
    (own : SerdeJson.valueFromStr (String.ofList (compact (.object map))) = .ok (.object map))
    (compiled : compileFull (String.ofList (front ++ (compact (.object map) ++ back))) =
      .ok (schema', doc')) :
    (JsonValue.object map).Portable := by
  obtain ⟨tokens, lowered, lexed, parsed, emitted, _⟩ := compileFull_ok_iff.mp compiled
  obtain ⟨t, tl, final, stop, rfl, whole, finish, finished⟩ := (parse_iff_sweep lexed).mp parsed
  rw [tokenize, String.toList_ofList] at lexed
  rw [String.toList_ofList] at whole
  obtain ⟨ts, us, text, raw', member, inside, start, block, payload⟩ :=
    @payload_read _ _ _ _ _ _ _ (compactEntries true map ++ ['}']) _ _
      _ _ here place lexed whole finish
  -- the block is JSON
  obtain ⟨r, listed, resolved⟩ := finishDoc_mem finished member
  obtain ⟨d, lowers⟩ := emit_each emitted listed
  obtain ⟨v, read⟩ := emitReaction_payload lowers ((resolveReaction_payload resolved).trans payload)
  obtain ⟨front', body, behind, _, _, _, split, start', rfl, _⟩ := block_lexes lexed inside block
  obtain ⟨rfl, same⟩ := front_unique split (start.symm.trans start'.symm)
  have same : body ++ '}' :: behind = compactEntries true map ++ '}' :: back := by
    rw [← (List.cons.inj same).2]
    simp
  rw [block_unique trailing own read same] at block
  exact portable_of_block lexed inside block

/-- A payload is carried exactly if it is portable. -/
theorem payload_carried_iff (trailing : RefusesTrailing)
    (compiled : compileFull (String.ofList (front ++ (['{', '}'] ++ back))) = .ok (schema, doc))
    (here : PayloadAt (front ++ (['{', '}'] ++ back)) ws vs raw)
    (place : Occupies front ['{', '}'] ws.advance vs) :
    ∃ r ∈ doc.everyReaction, resolveReaction (guardTable doc.guards) raw = .ok r ∧
      ∀ map, SerdeJson.valueFromStr (String.ofList (compact (.object map))) = .ok (.object map) →
        (Carries doc r map (front ++ (compact (.object map) ++ back)) ↔
          (JsonValue.object map).Portable) := by
  obtain ⟨tokens, lowered, lexed, parsed, _⟩ := compileFull_ok_iff.mp compiled
  obtain ⟨t, tl, final, stop, rfl, whole, finish, finished⟩ := (parse_iff_sweep lexed).mp parsed
  rw [tokenize, String.toList_ofList] at lexed
  rw [String.toList_ofList] at whole
  obtain ⟨_, _, _, _, _, _, _, _, member, _⟩ :=
    sweep_paid lexed whole finish here place (show RunsOver Delimited [] Balanced from runs_nothing)
  obtain ⟨r, listed, resolved⟩ := finishDoc_mem finished member
  rw [← (finishDoc_iff.mp finished).2.2.2.2.1] at resolved
  refine ⟨r, listed, resolved, fun map own =>
    ⟨?_, carries_of_portable compiled here place resolved own⟩⟩
  rintro ⟨_, _, _, compiled', _⟩
  exact portable_of_compiled trailing here place own compiled'

end

/-! ## A reaction with quotes in its payload -/

/-- The front of a source, up to a payload. -/
def goFront : String := "reaction \x7b when a enters x -> a go with "

/-- What follows the payload. -/
def goBack : String := " \x7d signal a \x7b states: [x] initial: x on go from x -> x \x7d"

/-- Two objects with a string each. -/
def plainMap : List (String × JsonValue) := [("a", .string "b")]

def quotedMap : List (String × JsonValue) := [("a", .string "\"")]

/-- JSON text cut down to three objects. -/
def goValue (text : String) : Except String JsonValue :=
  if text = "\x7b\x7d" then .ok (.object [])
  else if text = "\x7b\"a\":\"b\"\x7d" then .ok (.object plainMap)
  else if text = "\x7b\"a\":\"\\\"\"\x7d" then .ok (.object quotedMap)
  else .error "expected value at line 1 column 1"

@[reducible] def goSerde : SerdeJson where
  valueFromStr := goValue
  schemaFromStr _ := .error "expected value at line 1 column 1"
  valueToString _ := "null"

/-- Floats are all written alike. -/
@[reducible] def goFloats : FloatText where
  formatFinite _ := ['0', '.', '0']
  decimal _ _ := ⟨[], ['0'], ['.', '0'], [], rfl, .inl rfl, ⟨by simp, by simp⟩,
    .inr ⟨['0'], rfl, by simp, by simp⟩, .inl rfl⟩

theorem toList_of_chars {s : String} {cs : List Char} (chars : String.ofList cs = s) :
    s.toList = cs := by
  rw [← chars, String.toList_ofList]

theorem goSerde_one {text : String} {v : JsonValue} (read : goValue text = .ok v) :
    text.toList.count '\x7d' ≤ 1 := by
  unfold goValue at read
  split at read
  · next same =>
      rw [same, toList_of_chars rfl]
      decide
  · split at read
    · next same =>
        rw [same, toList_of_chars rfl]
        decide
    · split at read
      · next same =>
          rw [same, toList_of_chars rfl]
          decide
      · cases read

theorem goSerde_refuses : @RefusesTrailing goSerde := by
  intro text more v w _ read
  have once := goSerde_one read
  rw [String.toList_ofList] at once
  simp only [List.count_append, List.count_cons_self, List.count_nil] at once
  omega

/-- The place and the length of the tokens of a line. -/
def onLine (spans : List (TokenKind × Nat × Nat)) : List Token :=
  spans.map fun span =>
    { kind := span.1, line := 1, col := span.2.1 + 1, start := span.2.1, len := span.2.2 }

/-- From `with` up to the payload's end. -/
def goPayload : List Token := onLine [(.with, 35, 4), (.lBrace, 40, 1), (.rBrace, 41, 1)]

def goHead : List Token := onLine
  [(.reaction, 0, 8), (.lBrace, 9, 1), (.when, 11, 4), (.identifier "a", 16, 1),
    (.enters, 18, 6), (.identifier "x", 25, 1), (.arrow, 27, 2), (.identifier "a", 30, 1),
    (.identifier "go", 32, 2)]

def goTail : List Token := onLine
  [(.rBrace, 43, 1), (.signal, 45, 6), (.identifier "a", 52, 1), (.lBrace, 54, 1),
    (.states, 56, 6), (.colon, 62, 1), (.lBracket, 64, 1), (.identifier "x", 65, 1),
    (.rBracket, 66, 1), (.initial, 68, 7), (.colon, 75, 1), (.identifier "x", 77, 1),
    (.on, 79, 2), (.identifier "go", 82, 2), (.from, 85, 4), (.identifier "x", 90, 1),
    (.arrow, 92, 2), (.identifier "x", 95, 1), (.rBrace, 97, 1), (.eof, 98, 0)]

/-- The source with a text in the place of the payload. -/
def goSource (text : List Char) : List Char := goFront.toList ++ (text ++ goBack.toList)

theorem goSource_chars {text cs : List Char}
    (chars : String.ofList cs = goFront ++ (String.ofList text ++ goBack)) :
    goSource text = cs := by
  rw [goSource, ← toList_of_chars chars, String.toList_append, String.toList_append,
    String.toList_ofList]

theorem goTokens : @tokenizeChars .ascii .start (goSource ['\x7b', '\x7d']) =
    .ok (goHead ++ (goPayload ++ goTail)) := by
  rw [goSource_chars (chars_append rfl (chars_append rfl rfl))]
  decide +kernel

/-- The clause of the source. -/
def goRaw : RawReaction :=
  { fromSignal := "a", fromState := "x", toSignal := "a", event := "go",
    guard := none, payload := some "\x7b\x7d", joinGroup := none, requires := [],
    onFail := none }

/-- The stream from its `with` on, and behind the payload. -/
def goStream : Tokens Token := ⟨goPayload.headD ⟨.eof, 0, 0, 0, 0⟩, goPayload.tail ++ goTail⟩

def goRest : Tokens Token := ⟨goTail.headD ⟨.eof, 0, 0, 0, 0⟩, goTail.tail⟩

theorem goFront_bytes : byteLen goFront.toList = 40 := by
  rw [toList_of_chars (s := goFront) rfl]
  decide

theorem go_occupies : Occupies goFront.toList ['\x7b', '\x7d'] goStream.advance goRest := by
  refine ⟨[⟨.lBrace, 1, 41, 40, 1⟩], ⟨.rBrace, 1, 42, 41, 1⟩, rfl, goFront_bytes, ?_⟩
  rw [byteLen_append, goFront_bytes]
  rfl

theorem go_payloadAt : @PayloadAt .ascii (goSource ['\x7b', '\x7d']) goStream goRest goRaw := by
  let std : RustStd := .ascii
  let ts : Tokens Token := ⟨⟨.reaction, 1, 1, 0, 8⟩, goHead.tail ++ (goPayload ++ goTail)⟩
  have opening : Yields reactionOpening ts () ts.advance.advance :=
    yields_reactionOpening.mpr ⟨rfl, rfl, rfl⟩
  have block : Yields (parseRawBraceBlock (goSource ['\x7b', '\x7d']))
      goStream.advance ['\x7b', '\x7d'] goRest := by
    refine @yields_balanced _ goFront.toList [] goBack.toList goStream.advance goRest
      ⟨.lBrace, 1, 41, 40, 1⟩
      ⟨.rBrace, 1, 42, 41, 1⟩ [] rfl rfl .nil rfl goFront_bytes.symm ?_
    rw [byteLen_append, goFront_bytes]
    rfl
  have clause : ClauseAt (goSource ['\x7b', '\x7d']) ts.advance.advance
      goStream goRest goRest goRaw :=
    ⟨(("a", "x", "a", "go"), none), _, none, rfl, rfl, block, rfl, rfl⟩
  exact ⟨_, _, {}, _, goTokens, .refl, .own opening clause rfl⟩

theorem go_compiles : ∃ schema doc,
    @compileFull goSerde .ascii (String.ofList (goSource ['\x7b', '\x7d'])) =
      .ok (schema, doc) := by
  have checked : (@compileFull goSerde .ascii (String.ofList (goSource ['\x7b', '\x7d']))).isOk =
      true := by
    rw [goSource_chars (chars_append rfl (chars_append rfl rfl))]
    exact @compileFull_check goSerde .ascii _ _ Except.isOk rfl (by decide +kernel)
  cases compiled : @compileFull goSerde .ascii (String.ofList (goSource ['\x7b', '\x7d'])) with
  | error e =>
      rw [compiled] at checked
      cases checked
  | ok result => exact ⟨result.1, result.2, rfl⟩

theorem jsonString_chars {s : String} {cs : List Char} (chars : String.ofList cs = s) :
    jsonString s = '"' :: (cs.flatMap escape ++ ['"']) := by
  rw [jsonString, toList_of_chars chars]

theorem plainMap_text : @compact goFloats (.object plainMap) =
    ['\x7b', '"', 'a', '"', ':', '"', 'b', '"', '\x7d'] := by
  simp only [plainMap, compact, compactEntries]
  rw [jsonString_chars rfl, jsonString_chars rfl]
  decide

theorem quotedMap_text : @compact goFloats (.object quotedMap) =
    ['\x7b', '"', 'a', '"', ':', '"', '\\', '"', '"', '\x7d'] := by
  simp only [quotedMap, compact, compactEntries]
  rw [jsonString_chars rfl, jsonString_chars rfl]
  decide

theorem goValue_plain : goValue "\x7b\"a\":\"b\"\x7d" = .ok (.object plainMap) := by
  unfold goValue
  rw [if_neg (by decide +kernel), if_pos rfl]

theorem goValue_quoted : goValue "\x7b\"a\":\"\\\"\"\x7d" = .ok (.object quotedMap) := by
  unfold goValue
  rw [if_neg (by decide +kernel), if_neg (by decide +kernel), if_pos rfl]

/-- A string without quotes is carried. -/
theorem plainMap_carried : ∃ (doc : DdlDoc) (r : ReactionDecl), r ∈ doc.everyReaction ∧
    @Carries goFloats .ascii goSerde doc r plainMap
      (goSource (@compact goFloats (.object plainMap))) := by
  obtain ⟨schema, doc, compiled⟩ := go_compiles
  obtain ⟨r, listed, _, carried⟩ :=
    @payload_carried_iff goFloats .ascii goSerde goFront.toList goBack.toList goStream
    goRest goRaw schema doc goSerde_refuses compiled go_payloadAt go_occupies
  refine ⟨doc, r, listed, (carried plainMap ?_).mpr ?_⟩
  · rw [plainMap_text]
    exact goValue_plain
  · simp [plainMap, JsonValue.Portable, JsonValue.PortableEntries]

/-- A quote in a string ends it for the lexer. -/
theorem quotedMap_refused : @RefusesTrailing goSerde ∧
    (∃ schema doc, @compileFull goSerde .ascii (String.ofList (goSource ['\x7b', '\x7d'])) =
      .ok (schema, doc)) ∧
    @PayloadAt .ascii (goSource ['\x7b', '\x7d']) goStream goRest goRaw ∧
    Occupies goFront.toList ['\x7b', '\x7d'] goStream.advance goRest ∧
    goSerde.valueFromStr (String.ofList (@compact goFloats (.object quotedMap))) =
      .ok (.object quotedMap) ∧
    ∀ result, @compileFull goSerde .ascii
      (String.ofList (goSource (@compact goFloats (.object quotedMap)))) ≠ .ok result := by
  refine ⟨goSerde_refuses, go_compiles, go_payloadAt, go_occupies, ?_, fun result compiled => ?_⟩
  · rw [quotedMap_text]
    exact goValue_quoted
  · have fails : (!(@compileFull goSerde .ascii
        (String.ofList (goSource (@compact goFloats (.object quotedMap))))).isOk) = true := by
      rw [quotedMap_text, goSource_chars (chars_append rfl (chars_append rfl rfl))]
      exact @compileFull_check goSerde .ascii _ _ (fun outcome => !outcome.isOk) rfl
        (by decide +kernel)
    rw [compiled] at fails
    cases fails

end SignalTopology.Ddl
