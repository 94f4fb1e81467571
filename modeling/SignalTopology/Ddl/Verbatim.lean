import SignalTopology.Ddl.Blanks
import SignalTopology.Ddl.Declared
import SignalTopology.Ddl.Swallow

/-!
# A guard in its place

`Setting` is a document around one clause `on event from source -> target when ...
{ }`. Whatever guard is put there, the document compiles with that guard in its
place exactly if the DDL lexer reads the guard and none of its tokens ends it. A
field named `with` breaks the document, and so does a blank that only the guard
language knows.
-/

namespace SignalTopology.Ddl

open Guard (AllBlank)
open TokenParser

/-- A clause with a guard, and the document around it. -/
structure Setting where
  before : List Block
  id : String
  states : List String
  trailing : Bool
  initial : String
  earlier : List OnClause
  event : String
  source : String
  target : String
  later : List OnClause
  after : List Block

namespace Setting

variable (s : Setting)

/-- The clause with the given guard and an empty block. -/
def clause (guard : Option (List Char)) : OnClause :=
  ⟨s.event, some s.source, s.target, guard, some []⟩

def signal (guard : Option (List Char)) : Block :=
  .signal s.id s.states s.trailing s.initial (s.earlier ++ s.clause guard :: s.later)

/-- The document with the given guard. -/
def blocks (guard : Option (List Char)) : List Block := s.before ++ s.signal guard :: s.after

end Setting

variable [RustStd]

namespace Setting

variable (s : Setting)

/-- What is written in front of the guard. -/
def front : List Piece :=
  s.before.flatMap Block.pieces ++
    ([.word "signal", .word s.id, .lBrace, .word "states", .colon, .symbol '[' .lBracket] ++
      (statePieces s.states s.trailing ++ ([.symbol ']' .rBracket, .word "initial", .colon,
        .word s.initial] ++ (s.earlier.flatMap OnClause.pieces ++
          [.word "on", .word s.event, .word "from", .word s.source, .arrow, .word s.target]))))

/-- What is written behind the guard. -/
def back : List Piece :=
  [.lBrace, .rBrace] ++ (s.later.flatMap OnClause.pieces ++
    (.rBrace :: s.after.flatMap Block.pieces))

theorem pieces (guard : Option (List Char)) :
    (s.blocks guard).flatMap Block.pieces = s.front ++ (guardPieces guard ++ s.back) := by
  simp [blocks, signal, clause, front, back, Block.pieces, OnClause.pieces, sourcePiece, hookPieces]

end Setting

/-- The text spells the pieces and leaves no comment open behind them. -/
inductive Opens : List Piece → List Char → Prop where
  | nil {gap : List Char} (skipped : Gap gap) : Opens [] gap
  | cons {p : Piece} {ps : List Piece} {gap rest : List Char} (skipped : Gap gap)
      (stops : ∀ d, rest.head? = some d → Stops p.text d) (later : Opens ps rest) :
      Opens (p :: ps) (gap ++ (p.text ++ rest))

/-- The source has the guard, between two blanks, in its place. -/
def Setting.Written (s : Setting) (guard src : List Char) : Prop :=
  ∃ left right, src = left ++ ' ' :: (guard ++ ' ' :: right) ∧
    Opens (s.front ++ [.word "when"]) left ∧ Spelled s.back right

/-! ## Putting the guard in -/

section

omit [RustStd]

theorem Gap.append {gap gap' : List Char} (first : Gap gap) (second : Gap gap') :
    Gap (gap ++ gap') := by
  induction first with
  | nil => exact second
  | blank blank _ ih => exact .blank blank ih
  | newline _ ih => exact .newline ih
  | @comment text cs line _ ih =>
      have longer := Gap.comment line ih
      simpa using longer

end

theorem Spelled.skip {gap rest : List Char} {ps : List Piece} (skipped : Gap gap)
    (h : Spelled ps rest) : Spelled ps (gap ++ rest) := by
  cases h with
  | nil more => exact .nil (skipped.append more)
  | comment more line =>
      rw [← List.append_assoc]
      exact .comment (skipped.append more) line
  | cons more stops later =>
      rw [← List.append_assoc]
      exact .cons (skipped.append more) stops later

theorem Opens.append {left right : List Char} {ps qs : List Piece} (h : Opens ps left)
    (later : Spelled qs right) : Spelled (ps ++ qs) (left ++ ' ' :: right) := by
  induction h with
  | nil skipped => exact later.skip (.blank rfl .nil) |>.skip skipped
  | @cons p ps gap rest skipped stops _ ih =>
      rw [List.append_assoc, List.append_assoc]
      refine .cons skipped (fun d first => ?_) ih
      cases rest with
      | nil =>
          cases first
          exact stops_space p.text
      | cons c rest => exact stops d first

/-- The text in front of the guard is read, whatever comes after the blank. -/
theorem Opens.lexes {left : List Char} {ps : List Piece} (h : Opens ps left)
    (readable : Readable ps) (cur : Cursor) (more : List Char) :
    ∃ toks cur', Lexes cur (left ++ ' ' :: more) toks cur' more := by
  induction h generalizing cur with
  | nil skipped =>
      obtain ⟨cur₁, first⟩ := skipped.lexes cur (' ' :: more)
      obtain ⟨cur₂, second⟩ := (Gap.blank (c := ' ') rfl .nil).lexes cur₁ more
      exact ⟨_, cur₂, first.trans second⟩
  | @cons p ps gap rest skipped stops _ ih =>
      obtain ⟨own, rest_readable⟩ := List.forall_mem_cons.mp readable
      obtain ⟨cur₁, first⟩ := skipped.lexes cur (p.text ++ (rest ++ ' ' :: more))
      obtain ⟨toks, cur₂, second, _⟩ := own cur₁ (rest ++ ' ' :: more) fun d head => by
        cases rest with
        | nil =>
            cases head
            exact stops_space p.text
        | cons c rest => exact stops d head
      obtain ⟨toks', cur₃, third⟩ := ih rest_readable cur₂
      rw [List.append_assoc, List.append_assoc]
      exact ⟨_, cur₃, first.trans (second.trans third)⟩

/-! ## The document with the guard -/

section

omit [RustStd]

theorem clauses_middle {γ : Type} {property : γ → Bool → Prop} {earlier later : List γ} {c : γ} :
    Clauses property (earlier ++ c :: later) ↔
      (∀ d ∈ earlier, property d false) ∧ property c later.isEmpty ∧ Clauses property later := by
  induction earlier with
  | nil => simp [Clauses]
  | cons d earlier ih =>
      have inside : (earlier ++ c :: later).isEmpty = false := by cases earlier <;> rfl
      rw [List.cons_append, Clauses, ih, inside, List.forall_mem_cons, and_assoc]

theorem signalsOf_append (first second : List Block) :
    signalsOf (first ++ second) = signalsOf first ++ signalsOf second :=
  List.filterMap_append

end

namespace Setting

variable {s : Setting} {guard guard' : Option (List Char)}

omit [RustStd] in
theorem signals_ids :
    (signalsOf (s.blocks guard)).map SignalDecl.id =
      (signalsOf (s.blocks guard')).map SignalDecl.id := by
  rw [blocks, blocks, signalsOf_append, signalsOf_append, signalsOf_cons,
    signalsOf_cons (s.signal guard')]
  simp [signal, signalsOf]

omit [RustStd] in
theorem forkCount_blocks : forkCount (s.blocks guard) = forkCount (s.blocks guard') := by
  simp [blocks, signal, forkCount]

theorem formed [SerdeJson] (h : WellFormed (s.blocks none))
    (text : ∀ g, guard = some g → GuardText g) : WellFormed (s.blocks guard) := by
  obtain ⟨formed, distinct, joins⟩ := h
  refine ⟨fun block member => ?_, ?_, fun group clauses member => ?_⟩
  · rcases List.mem_append.mp member with inside | member
    · exact formed block (List.mem_append_left _ inside)
    rcases List.mem_cons.mp member with rfl | inside
    · obtain ⟨name, names, first, declared, clauses⟩ :=
        formed (s.signal none) (List.mem_append_right _ List.mem_cons_self)
      refine ⟨name, names, first, declared, fun c member => ?_⟩
      rcases List.mem_append.mp member with inside | member
      · exact clauses c (List.mem_append_left _ inside)
      rcases List.mem_cons.mp member with rfl | inside
      · have own := clauses (s.clause none) (List.mem_append_right _ List.mem_cons_self)
        exact { own with guard := text }
      · exact clauses c (List.mem_append_right _ (List.mem_cons_of_mem _ inside))
    · exact formed block (List.mem_append_right _ (List.mem_cons_of_mem _ inside))
  · rw [@signals_ids s guard none]
    exact distinct
  · rw [@forkCount_blocks s guard none]
    apply joins group clauses
    rcases List.mem_append.mp member with inside | member
    · exact List.mem_append_left _ inside
    rcases List.mem_cons.mp member with other | inside
    · cases other
    · exact List.mem_append_right _ (List.mem_cons_of_mem _ inside)

/-- The rest of the document is not touched by the guard. -/
theorem intact (h : ∀ block ∈ s.blocks none, block.Intact)
    (whole : ∀ g, guard = some g → Unbroken g) : ∀ block ∈ s.blocks guard, block.Intact := by
  intro block member
  rcases List.mem_append.mp member with inside | member
  · exact h block (List.mem_append_left _ inside)
  rcases List.mem_cons.mp member with rfl | inside
  · have own : (s.signal none).Intact := h _ (List.mem_append_right _ List.mem_cons_self)
    obtain ⟨earlier, _, later⟩ := clauses_middle.mp own
    exact clauses_middle.mpr ⟨earlier, fun g same => ⟨whole g same, .inl rfl⟩, later⟩
  · exact h block (List.mem_append_right _ (List.mem_cons_of_mem _ inside))

end Setting

/-! ## Parsing up to the guard -/

section

variable {src : List Char} {ps : List Piece} {ts us : Tokens Token}

/-- A guard with a token that ends it stops the parser in front of such a token. -/
theorem At.breaks {guard : List Char} {text : Option String} (text_ok : GuardText guard)
    (h : At src (guardPieces (some guard) ++ ps) ts) (broken : ¬ Unbroken guard)
    (read : Yields (parseTransitionGuard src) ts text us) :
    us.current.kind = .with ∨ us.current.kind = .onFail := by
  obtain ⟨opening, _, _⟩ := At.keyword .when h rfl (by decide)
  obtain ⟨_, legible⟩ := h.accepted (fun g same => Option.some.inj same ▸ text_ok) guard rfl
  obtain ⟨toks, vs, _, kinds, split, _, _⟩ := At.capture h legible
  rw [parseTransitionGuard, peek_bind, if_pos opening, yields_map] at read
  obtain ⟨text, read, rfl⟩ := read
  rw [Ddl.parseGuard, yields_bind] at read
  obtain ⟨⟨taken, cut⟩, us', captured, rest⟩ := read
  obtain ⟨_, rfl⟩ := yields_pure.mp rest
  obtain ⟨_, run, _⟩ := (yields_captureGuard opening).mp captured
  obtain ⟨_, inside, _⟩ := h.word isWord_when
  obtain ⟨body, last, _, _, whole, finish, _⟩ := inside.spanned
  obtain ⟨split', all, stop⟩ :=
    (many_advance whole (by simp [finish, TokenKind.endsGuard])).mp run
  have ends : us.current.kind.endsGuard = true := by simpa using stop
  have short : ∀ more, taken = toks ++ more → False := by
    rintro more rfl
    refine broken ((unbroken_iff kinds).mpr fun tok member => ?_)
    simpa using all tok (List.mem_append_left more member)
  obtain ⟨more, longer, tail⟩ | ⟨more, shorter, _⟩ := List.append_eq_append_iff.mp
    (split'.symm.trans split)
  · cases more with
    | nil => exact absurd (by rw [longer, List.append_nil, List.append_nil]) (short [])
    | cons tok more =>
        have own : us.current = tok := (List.cons.inj tail).1
        have member : us.current ∈ toks := by
          rw [longer, own]
          exact List.mem_append_right _ List.mem_cons_self
        exact word_of_endsGuard text_ok.accepted kinds (List.mem_map_of_mem member) ends
  · exact absurd shorter (short more)

/-- Such a clause is the last one the parser reads of its signal. -/
theorem At.breaksOff {c : OnClause} {guard : List Char} {states : List String} {id : String}
    {tr : TransDecl} (h : At src (c.pieces ++ ps) ts) (formed : c.Formed states)
    (guarded : c.guard = some guard) (broken : ¬ Unbroken guard)
    (read : Yields (parseTransition src id states) ts tr us) :
    us.current.kind = .with ∨ us.current.kind = .onFail := by
  obtain ⟨ts', after, _, _, whole⟩ := @At.transitionHead _ _ _ _ _ _ id h formed.named
  obtain ⟨text, us', captured, actions, block, _⟩ := (whole tr us).mp read
  rw [guarded] at after
  have stops := after.breaks (formed.guard guard guarded) broken captured
  rw [parseActionBlock, peek_bind, if_neg] at block
  · obtain ⟨_, rfl⟩ := yields_pure.mp block
    exact stops
  · intro brace
    rw [brace] at stops
    rcases stops with other | other <;> cases other

/-- The clauses in front of the guard are read. -/
theorem At.earlier {earlier : List OnClause} {c : OnClause} {states : List String} {id : String}
    {read : List TransDecl} (h : At src (earlier.flatMap OnClause.pieces ++ (c.pieces ++ ps)) ts)
    (formed : ∀ d ∈ earlier, d.Formed states) (intact : ∀ d ∈ earlier, d.Intact false)
    (run : Many (fun tok => tok.kind = .on) (parseTransition src id states) ts read us) :
    ∃ ts' read', At src (c.pieces ++ ps) ts' ∧
      Many (fun tok => tok.kind = .on) (parseTransition src id states) ts' read' us := by
  induction earlier generalizing ts read with
  | nil => exact ⟨ts, read, h, run⟩
  | cons d earlier ih =>
      obtain ⟨next, qs, split⟩ : ∃ next qs, earlier.flatMap OnClause.pieces ++ (c.pieces ++ ps) =
          following OnClause.pieces (some next) ++ qs := by
        cases earlier with
        | nil => exact ⟨c, ps, rfl⟩
        | cons e earlier => exact ⟨e, _, by rw [List.flatMap_cons, List.append_assoc]; rfl⟩
      rw [List.flatMap_cons, List.append_assoc, split] at h
      obtain ⟨ts₁, after, opening, _, exact⟩ :=
        @At.transition _ _ _ _ d states id (some next) h (formed d List.mem_cons_self)
      rw [← split] at after
      have own := (exact ts₁).mpr ⟨rfl, intact d List.mem_cons_self⟩
      cases run with
      | nil stop => simp [opening] at stop
      | cons _ first later =>
          obtain ⟨_, rfl⟩ := own.unique first
          exact ih after (fun e member => formed e (List.mem_cons_of_mem d member))
            (fun e member => intact e (List.mem_cons_of_mem d member)) later

/-- The blocks in front of the guard are read. -/
theorem At.before [SerdeJson] {before : List Block} {doc final : DocState} {n : Nat}
    (h : At src (before.flatMap Block.pieces ++ ps) ts) (formed : ∀ block ∈ before, block.Formed)
    (intact : ∀ block ∈ before, block.Intact)
    (distinct : ((signalsOf before).map SignalDecl.id).Nodup)
    (fresh : ∀ sig ∈ signalsOf before, sig.id ∉ doc.seenSignals)
    (run : Iterates (parseBlock src) n doc ts final us) :
    ∃ m ts', At src ps ts' ∧
      Iterates (parseBlock src) m (before.foldl DocState.add doc) ts' final us := by
  induction before generalizing ts doc n with
  | nil => exact ⟨n, ts, h, run⟩
  | cons block before ih =>
      rw [List.flatMap_cons, List.append_assoc] at h
      rw [signalsOf_cons] at distinct fresh
      obtain ⟨ts₁, after, _, reads, _⟩ := At.block h (formed block List.mem_cons_self)
        (fun sig member => fresh sig (List.mem_append_left _ member))
      rw [List.map_append, List.nodup_append] at distinct
      obtain ⟨_, later, apart⟩ := distinct
      have unseen : ∀ sig ∈ signalsOf before, sig.id ∉ (doc.add block).seenSignals := by
        intro sig member seen
        rcases (doc.mem_seenSignals_add block sig.id).mp seen with seen | own
        · exact fresh sig (List.mem_append_right _ member) seen
        · exact apart _ own _ (List.mem_map_of_mem member) rfl
      have own := reads (intact block List.mem_cons_self)
      cases run with
      | done last =>
          obtain ⟨other, _⟩ := own.unique last
          cases other
      | step first rest =>
          obtain ⟨same, rfl⟩ := own.unique first
          cases same
          exact ih after (fun b member => formed b (List.mem_cons_of_mem block member))
            (fun b member => intact b (List.mem_cons_of_mem block member)) later unseen rest

end

/-! ## The guard in the compiled document -/

variable [SerdeJson] {s : Setting} {guard core : List Char} {src : String}

omit [SerdeJson] in
/-- An accepted guard is more than blanks. -/
theorem trim_ne_nil {expr : Guard.Expr} (means : Guard.Means (String.ofList guard) expr) :
    trim guard ≠ [] := by
  intro empty
  obtain ⟨front, back, split, before, after⟩ := split_trim guard
  rw [split, empty] at means
  obtain ⟨tokens, lexed, parsed⟩ := means.inner before after
  have only : tokens = [.eof] := by
    rw [Guard.tokenize, String.toList_ofList, Guard.tokenizeChars] at lexed
    exact (Except.ok.inj lexed).symm
  subst only
  rw [Guard.tokenize, String.toList_ofList] at lexed
  obtain ⟨_, t, first, starts⟩ := Guard.accepted_chain lexed parsed
  cases first
  cases starts

omit [SerdeJson] in
theorem Setting.Written.spelled {front back : List Char} {src : List Char}
    (written : s.Written (front ++ (core ++ back)) src) (before : Gap front) (behind : Gap back)
    (blank : AllBlank back) : Spelled ((s.blocks (some core)).flatMap Block.pieces) src := by
  obtain ⟨left, right, rfl, opens, later⟩ := written
  have rest : Spelled s.back (back ++ ' ' :: right) :=
    Spelled.skip behind (Spelled.skip (.blank rfl .nil) later)
  have inside : Spelled (.span core :: s.back) (front ++ (core ++ (back ++ ' ' :: right))) := by
    refine .cons before (stops_blanks blank fun d first => ?_) rest
    cases first
    decide
  have whole := opens.append inside
  rw [List.append_assoc] at whole
  rw [Setting.pieces, guardPieces]
  simpa using whole

/-- A document with a guard that the lexer does not read cannot be read. -/
theorem Setting.unread {tokens : List Token} (formed : WellFormed (s.blocks none))
    (intact : ∀ block ∈ s.blocks none, block.Intact) (tame : Tame guard)
    (failed : kindsOf guard = none) (written : s.Written guard src.toList) :
    tokenize src ≠ .ok tokens := by
  intro lexed
  have readable : Readable ((s.blocks none).flatMap Block.pieces) :=
    .flatMap fun block member => .block (formed.formed block member) (intact block member)
  rw [Setting.pieces] at readable
  obtain ⟨left, right, source, opens, _⟩ := written
  have front : Readable (s.front ++ [.word "when"]) :=
    Readable.append (fun p member => readable p (List.mem_append_left _ member))
      (.keyword (by decide) .nil)
  obtain ⟨toks, cur, run⟩ := opens.lexes front .start (guard ++ ' ' :: right)
  obtain ⟨e, stopped⟩ := @unreadable _ guard (' ' :: right) tame failed cur fun d first => by
    cases first
    exact stops_space guard
  have whole := run.tokenize
  rw [stopped, ← source] at whole
  rw [tokenize, whole] at lexed
  cases lexed

/-- A document with a guard that breaks off does not parse. -/
theorem Setting.stuck {tokens : List Token} {doc : DdlDoc}
    (formed : WellFormed (s.blocks none)) (intact : ∀ block ∈ s.blocks none, block.Intact)
    (text : GuardText core) (broken : ¬ Unbroken core)
    (spelled : Spelled ((s.blocks (some core)).flatMap Block.pieces) src.toList)
    (lexed : tokenize src = .ok tokens) : parse tokens src ≠ .ok doc := by
  intro parsed
  have texts : ∀ g, some core = some g → GuardText g := fun g same => Option.some.inj same ▸ text
  obtain ⟨blocks_formed, distinct, _⟩ := Setting.formed formed texts
  obtain ⟨t, ts, us, rfl, read⟩ := parse_ok_iff.mp parsed
  obtain ⟨n, _, final, run, _⟩ := yields_parseDoc.mp read
  have start := at_start spelled lexed
  rw [Setting.blocks, List.flatMap_append] at start
  rw [Setting.blocks, signalsOf_append, List.map_append, List.nodup_append] at distinct
  obtain ⟨ts₁, at₁, m, later⟩ : ∃ ts₁,
      At src.toList ((s.signal (some core) :: s.after).flatMap Block.pieces) ts₁ ∧
      ∃ m, Iterates (parseBlock src.toList) m (s.before.foldl DocState.add {}) ts₁ final us := by
    obtain ⟨m, ts₁, at₁, later⟩ := At.before start
      (fun block member => blocks_formed block (List.mem_append_left _ member))
      (fun block member => intact block (List.mem_append_left _ member)) distinct.1 fresh_start run
    exact ⟨ts₁, at₁, m, later⟩
  rw [List.flatMap_cons] at at₁
  obtain ⟨name, names, first, declared, clauses⟩ :=
    blocks_formed (s.signal (some core)) (List.mem_append_right _ List.mem_cons_self)
  have fresh : s.id ∉ (s.before.foldl DocState.add {}).seenSignals := by
    intro seen
    rcases (DocState.mem_seenSignals_foldl {} s.before s.id).mp seen with none_yet | own
    · cases none_yet
    · refine distinct.2.2 _ own s.id ?_ rfl
      rw [signalsOf_cons]
      exact List.mem_map_of_mem (List.mem_append_left _ List.mem_cons_self)
  obtain ⟨ts₂, at₂, opening, _, whole⟩ := At.signalHead at₁ name names first declared fresh
  -- the block that starts here has no end
  have unread : ∀ next vs, ¬ Yields (parseBlock src.toList (s.before.foldl DocState.add {})) ts₁
      next vs := by
    intro next vs block
    rw [parseBlock, peek_bind, opening] at block
    obtain ⟨sig, vs', own, _⟩ := yields_bind.mp block
    obtain ⟨transitions, vs'', many, close, _⟩ := (whole sig vs').mp own
    rw [List.flatMap_append, List.flatMap_cons, List.append_assoc, List.append_assoc] at at₂
    have earlier := clauses_middle.mp
      (intact (s.signal none) (List.mem_append_right _ List.mem_cons_self))
    obtain ⟨ts₃, read', at₃, rest⟩ := At.earlier at₂
      (fun d member => clauses d (List.mem_append_left _ member)) earlier.1 (yields_many.mp many).1
    obtain ⟨_, _, on, _, _⟩ := @At.transitionHead _ _ _ _ _ _ s.id at₃
      (clauses _ (List.mem_append_right _ List.mem_cons_self)).named
    cases rest with
    | nil stop => simp [on] at stop
    | cons _ item more =>
        have stops := at₃.breaksOff (clauses _ (List.mem_append_right _ List.mem_cons_self)) rfl
          broken item
        cases more with
        | nil =>
            rw [close] at stops
            rcases stops with other | other <;> cases other
        | cons again =>
            have on := of_decide_eq_true again
            rw [on] at stops
            rcases stops with other | other <;> cases other
  cases later with
  | done last => exact unread _ _ last
  | step next => exact unread _ _ next

/-- A guard that the guard language accepts is compiled with its meaning in its place
exactly if the DDL lexer reads it and none of its tokens ends a guard. -/
theorem guard_verbatim_iff {expr : Guard.Expr} (formed : WellFormed (s.blocks none))
    (intact : ∀ block ∈ s.blocks none, block.Intact)
    (means : Guard.Means (String.ofList guard) expr) (written : s.Written guard src.toList) :
    (∃ schema text, compile src = .ok schema ∧
      schema.transitions = (emitSignals (signalsOf (s.blocks (some text)))).2 ∧
      Guard.Means (String.ofList text) expr) ↔ Unbroken guard := by
  have tame := tame_of_accepts means.accepts
  obtain ⟨front, back, split, before, after⟩ := split_trim guard
  have solid := solid_trim (trim_ne_nil means)
  have inner : Guard.Means (String.ofList (trim guard)) expr := by
    rw [split] at means
    exact means.inner before after
  have text : GuardText (trim guard) := ⟨inner.accepts, solid⟩
  cases read : kindsOf guard with
  | none =>
      refine iff_of_false ?_ ?_
      · rintro ⟨schema, _, compiled, _⟩
        obtain ⟨tokens, doc, _, lexed, _⟩ := compile_ok compiled
        exact s.unread formed intact tame read written lexed
      · rintro ⟨kinds, same, _⟩
        rw [read] at same
        cases same
  | some kinds =>
      have kept := read
      rw [split] at kept
      obtain ⟨before', after', read'⟩ := kindsOf_inner text.tame solid before after kept
      have same : Unbroken guard ↔ Unbroken (trim guard) := by
        rw [Unbroken, Unbroken, read, read']
      rw [same]
      rw [split] at written
      have spelled := written.spelled before' after' after
      constructor
      · rintro ⟨schema, _, compiled, _⟩
        obtain ⟨tokens, doc, _, lexed, parsed, _⟩ := compile_ok compiled
        by_contra broken
        exact s.stuck formed intact text broken spelled lexed parsed
      · intro whole
        have texts : ∀ g, some (trim guard) = some g → GuardText g :=
          fun g same => Option.some.inj same ▸ text
        obtain ⟨schema, compiled, transitions⟩ := compileFull_blocks
          (Setting.formed formed texts) spelled
          (Setting.intact intact fun g same => Option.some.inj same ▸ whole)
        exact ⟨schema, trim guard, by rw [compile, compiled]; rfl, transitions, inner⟩

/-! ## A door with a guard -/

omit [SerdeJson] in
theorem opens_spaced (ps : List Piece) : Opens ps (spaced ps) := by
  induction ps with
  | nil => exact .nil .nil
  | cons p ps ih =>
      refine @Opens.cons _ p ps [' '] _ (.blank rfl .nil) (fun d first => ?_) ih
      cases ps with
      | nil => cases first
      | cons =>
          cases first
          exact stops_space p.text

section

omit [RustStd] [SerdeJson]

/-- The door of two clauses; the first one takes the guard. -/
def guardedDoor : Setting where
  before := []
  id := "door"
  states := ["shut", "ajar"]
  trailing := false
  initial := "shut"
  earlier := []
  event := "pull"
  source := "shut"
  target := "ajar"
  later := [⟨"push", some "ajar", "shut", none, none⟩]
  after := []

def guardedDoorFront : String :=
  " signal door \x7b states : [ shut , ajar ] initial : shut on pull from shut -> ajar when "

def guardedDoorBack : String := "  \x7b \x7d on push from ajar -> shut \x7d"

def guardedDoorSource (guard : String) : String := guardedDoorFront ++ guard ++ guardedDoorBack

theorem guardedDoor_formed : @WellFormed .ascii .keywords (guardedDoor.blocks none) := by
  let std : RustStd := .ascii
  let json : SerdeJson := .keywords
  obtain ⟨formed, distinct, joins⟩ := @doorBlocks_formed (some []) (by simp)
  have own := formed _ List.mem_cons_self
  obtain ⟨name, names, first, declared, clauses⟩ := own
  refine ⟨List.forall_mem_singleton.mpr ⟨name, names, first, declared, ?_⟩, List.nodup_singleton _,
    by simp [guardedDoor, Setting.blocks, Setting.signal]⟩
  have pull := clauses _ List.mem_cons_self
  have push := clauses _ (List.mem_cons_of_mem _ List.mem_cons_self)
  exact List.forall_mem_cons.mpr ⟨{ pull with guard := by simp [Setting.clause] },
    List.forall_mem_singleton.mpr push⟩

theorem guardedDoor_intact : ∀ block ∈ guardedDoor.blocks none, @Block.Intact .ascii block := by
  let std : RustStd := .ascii
  refine List.forall_mem_singleton.mpr ⟨?_, ?_, trivial⟩ <;>
    · intro guard absent
      cases absent

theorem guardedDoor_written (guard : String) :
    @Setting.Written .ascii guardedDoor guard.toList (guardedDoorSource guard).toList := by
  let std : RustStd := .ascii
  have front : guardedDoorFront.toList =
      spaced (guardedDoor.front ++ [.word "when"]) ++ [' '] := by
    rw [guardedDoorFront, String.toList_ofList]
    decide +kernel
  have back : guardedDoorBack.toList = ' ' :: spaced guardedDoor.back := by
    rw [guardedDoorBack, String.toList_ofList]
    decide +kernel
  refine ⟨_, _, ?_, opens_spaced (guardedDoor.front ++ [.word "when"]),
    spelled_spaced guardedDoor.back⟩
  rw [guardedDoorSource, String.toList_append, String.toList_append, front, back,
    List.append_assoc, List.append_assoc, List.singleton_append]

/-- The guard of the door is compiled in its place. -/
theorem guardedDoor_verbatim : ∃ expr,
    @Guard.Means .ascii "payload.ok == true" expr ∧
    ∃ schema text, @compile .keywords .ascii (guardedDoorSource "payload.ok == true") = .ok schema ∧
      schema.transitions = (emitSignals (signalsOf (guardedDoor.blocks (some text)))).2 ∧
      @Guard.Means .ascii (String.ofList text) expr := by
  have accepted : @Guard.Accepts .ascii "payload.ok == true" := by decide +kernel
  obtain ⟨tokens, expr, means⟩ := accepted
  have kinds : @kindsOf .ascii "payload.ok == true".toList =
      some [.identifier "payload", .dot, .identifier "ok", .eq, .bool true] := by decide +kernel
  have same := @String.ofList_toList "payload.ok == true"
  refine ⟨expr, ⟨tokens, means⟩, ?_⟩
  exact (@guard_verbatim_iff .ascii .keywords guardedDoor "payload.ok == true".toList _ expr
    guardedDoor_formed guardedDoor_intact (same.symm ▸ ⟨tokens, means⟩)
    (guardedDoor_written "payload.ok == true")).mpr ⟨_, kinds, by decide⟩

/-- A field named `with` is part of a guard and ends it all the same. -/
theorem guardedDoor_breaks : ∃ expr,
    @Guard.Means .ascii "payload.with == true" expr ∧
    @WellFormed .ascii .keywords (guardedDoor.blocks none) ∧
    (∀ block ∈ guardedDoor.blocks none, @Block.Intact .ascii block) ∧
    @Setting.Written .ascii guardedDoor "payload.with == true".toList
      (guardedDoorSource "payload.with == true").toList ∧
    ¬ ∃ schema text,
      @compile .keywords .ascii (guardedDoorSource "payload.with == true") = .ok schema ∧
      schema.transitions = (emitSignals (signalsOf (guardedDoor.blocks (some text)))).2 ∧
      @Guard.Means .ascii (String.ofList text) expr := by
  have accepted : @Guard.Accepts .ascii "payload.with == true" := by decide +kernel
  obtain ⟨tokens, expr, means⟩ := accepted
  refine ⟨expr, ⟨tokens, means⟩, guardedDoor_formed, guardedDoor_intact,
    guardedDoor_written "payload.with == true", ?_⟩
  rintro ⟨schema, text, compiled, _⟩
  have fails : (!(@compile .keywords .ascii (guardedDoorSource "payload.with == true")).isOk) =
      true :=
    @compileFull_check .keywords .ascii (guardedDoorSource "payload.with == true") _
      (fun outcome => !(outcome.map Prod.fst).isOk) (chars_append (chars_append rfl rfl) rfl)
      (by decide +kernel)
  rw [compiled] at fails
  cases fails

end

end SignalTopology.Ddl
