import SignalTopology.Ddl.Surgery
import SignalTopology.Ddl.Sweep

/-!
# Two sources that differ in one place

Up to the place both sources have the same tokens, behind it the tokens are moved. The
sweep over the blocks of one source is carried over to the other on both sides, and the
declarations read on the way stay alike.
-/

namespace SignalTopology.Ddl

open TokenParser

/-! ## The two borders -/

section

variable [RustStd] {front rest rest' : List Char}

omit [RustStd] in
theorem Spanned.within {src : List Char} {lo hi : Nat} {toks : List Token}
    (h : Spanned src lo toks hi) :
    ∀ t ∈ toks, lo ≤ t.start ∧ t.start + t.len ≤ hi ∧ t.kind ≠ .eof := by
  induction h with
  | nil =>
      intro t member
      cases member
  | cons _ _ _ _ kind ordered later ih =>
      intro t member
      rcases List.mem_cons.mp member with rfl | member
      · exact ⟨ordered, later.le, kind⟩
      · obtain ⟨start, stop, kind⟩ := ih t member
        exact ⟨by omega, stop, kind⟩

/-- The place where the common front of two sources ends. -/
def frontBorder (front : List Char) (here there : Tokens Token) (more : here.rest ≠ []) :
    Border Token where
  rel t t' := t' = t ∧ t.start + t.len ≤ byteLen front
  here := here
  there := there
  last none_left := absurd none_left more

omit [RustStd] in
theorem frontBorder_parallel {here there : Tokens Token} (more : here.rest ≠ [])
    (alike : Alike here.current there.current) :
    Parallel (front ++ rest) (front ++ rest') (frontBorder front here there more) where
  kind same := congrArg Token.kind same.1
  cut := by
    rintro t _ u _ text ⟨rfl, _⟩ ⟨rfl, inside⟩ _ _ sliced
    exact slice_front sliced inside
  border := alike

/-- A token of a back that starts at the bytes `lo` and `lo'` of two sources. -/
def Token.Shifted (lo lo' : Nat) (t t' : Token) : Prop := t.Moved lo lo' t' ∧ lo ≤ t.start

/-- The end of two sources with a common back. -/
def backBorder (lo lo' : Nat) (last last' : Token) (kind : last'.kind = last.kind)
    (finish : last.kind = .eof) : Border Token where
  rel t t' := t'.kind = t.kind ∧ (t.kind ≠ .eof → t.Shifted lo lo' t')
  here := ⟨last, []⟩
  there := ⟨last', []⟩
  last _ := ⟨rfl, kind, fun other => absurd finish other⟩

omit [RustStd] in
theorem backBorder_apart {front' : List Char} {last last' : Token} (kind : last'.kind = last.kind)
    (finish : last.kind = .eof) :
    Apart (front ++ rest) (front' ++ rest)
      (backBorder (byteLen front) (byteLen front') last last' kind finish) where
  kind related := related.1
  cut := by
    rintro t t' u u' text ⟨_, placed⟩ ⟨_, placed'⟩ visible visible' sliced
    obtain ⟨same, behind⟩ := placed visible
    obtain ⟨same', _⟩ := placed' visible'
    have length := same'.len
    have start := same.start
    have start' := same'.start
    exact slice_back sliced behind start (by omega)
  border := .inl kind
  head := by
    rw [show (backBorder _ _ last last' kind finish).here.current.kind = .eof from finish]
    exact ⟨rfl, by simp⟩

end

/-! ## Declarations that are alike -/

section

variable (R : RawReaction → RawReaction → Prop)

structure BodyState.Like (body body' : BodyState) : Prop where
  ports : body'.ports = body.ports
  signals : body'.signals = body.signals
  reactions : List.Forall₂ R body.rawReactions body'.rawReactions
  seenSignals : body'.seenSignals = body.seenSignals

structure ComponentDeclRaw.Like (c c' : ComponentDeclRaw) : Prop where
  id : c'.id = c.id
  params : c'.params = c.params
  ports : c'.ports = c.ports
  signals : c'.signals = c.signals
  reactions : List.Forall₂ R c.rawReactions c'.rawReactions

/-- The same declarations but for related reactions, and without some guards. -/
structure DocState.Like (gone : List GuardDecl) (doc doc' : DocState) : Prop where
  signals : doc'.signals = doc.signals
  reactions : List.Forall₂ R doc.rawReactions doc'.rawReactions
  guards : ∃ before after, doc.guards = before ++ (gone ++ after) ∧ doc'.guards = before ++ after
  components : List.Forall₂ (ComponentDeclRaw.Like R) doc.rawComponents doc'.rawComponents
  instantiates : doc'.instantiates = doc.instantiates
  seenSignals : doc'.seenSignals = doc.seenSignals
  seenGuardIds : doc'.seenGuardIds ⊆ doc.seenGuardIds
  seenComponentIds : doc'.seenComponentIds = doc.seenComponentIds
  forkCounter : doc'.forkCounter = doc.forkCounter
  forkGroups : doc'.forkGroups = doc.forkGroups
  joinGroupRefs : doc'.joinGroupRefs = doc.joinGroupRefs

end

section

variable {R : RawReaction → RawReaction → Prop} (same : ∀ r, R r r)

include same

theorem ComponentDeclRaw.Like.refl (c : ComponentDeclRaw) : c.Like R c :=
  ⟨rfl, rfl, rfl, rfl, List.forall₂_same.mpr fun r _ => same r⟩

theorem DocState.Like.refl (doc : DocState) : doc.Like R [] doc where
  signals := rfl
  reactions := List.forall₂_same.mpr fun r _ => same r
  guards := ⟨doc.guards, [], by simp, by simp⟩
  components := List.forall₂_same.mpr fun c _ => .refl same c
  instantiates := rfl
  seenSignals := rfl
  seenGuardIds := Finset.Subset.refl _
  seenComponentIds := rfl
  forkCounter := rfl
  forkGroups := rfl
  joinGroupRefs := rfl

variable [RustStd] {src src' : List Char} {b : Border Token} {ts ts' us : Tokens Token}

omit same [RustStd] in
/-- A guard of one document only. -/
theorem DocState.Like.guard {doc doc' : DocState} (like : doc.Like R [] doc') (g : GuardDecl) :
    DocState.Like R [g]
      { doc with
        guards := doc.guards ++ [g], seenGuardIds := insert g.id doc.seenGuardIds } doc' := by
  obtain ⟨before, after, split, split'⟩ := like.guards
  refine { like with guards := ⟨doc.guards, [], rfl, ?_⟩, seenGuardIds := ?_ }
  · rw [split, split', List.nil_append, List.append_nil]
  · exact like.seenGuardIds.trans (Finset.subset_insert _ _)

/-- A block before the border adds the same to documents that are alike. -/
theorem BlockRead.along (par : Apart src src' b) {gone : List GuardDecl} {doc next doc' : DocState}
    (like : doc.Like R gone doc') (read : BlockRead src doc ts us next) (before : b.Before ts ts')
    (kept : b.here.toList <:+ us.toList) :
    ∃ next' us', BlockRead src' doc' ts' us' next' ∧ next.Like R gone next' ∧ b.Before us us' := by
  have more : ∀ {rs rs' : List RawReaction} (added : List RawReaction), List.Forall₂ R rs rs' →
      List.Forall₂ R (rs ++ added) (rs' ++ added) := fun added related =>
    List.rel_append related (List.forall₂_same.mpr fun r _ => same r)
  cases read with
  | signal read =>
      obtain ⟨_, us', read', rfl, after⟩ :=
        (par.parseSignal (Finset.Subset.refl _)).along before read kept
      rw [← like.seenSignals] at read'
      refine ⟨_, us', .signal read', { like with signals := ?_, seenSignals := ?_ }, after⟩
      · exact congrArg (· ++ _) like.signals
      · exact congrArg (insert _) like.seenSignals
  | reaction read =>
      obtain ⟨_, us', read', rfl, after⟩ := par.parseReactionRaw.along before read kept
      exact ⟨_, us', .reaction read', { like with reactions := more _ like.reactions }, after⟩
  | @guard declared read =>
      obtain ⟨_, us', read', rfl, after⟩ :=
        (par.parseGuardDecl like.seenGuardIds).along before read kept
      refine ⟨_, us', .guard read', { like with guards := ?_, seenGuardIds := ?_ }, after⟩
      · obtain ⟨front, back, split, split'⟩ := like.guards
        exact ⟨front, back ++ [declared], by simp [split], by simp [split']⟩
      · exact Finset.insert_subset_insert _ like.seenGuardIds
  | fork read =>
      obtain ⟨_, us', read', rfl, after⟩ := (par.parseForkBlock _).along before read kept
      rw [← like.forkCounter] at read'
      refine ⟨_, us', .fork read',
        { like with forkCounter := rfl, forkGroups := ?_, reactions := more _ like.reactions },
          after⟩
      exact congrArg (· ++ _) like.forkGroups
  | join read =>
      obtain ⟨_, us', read', rfl, after⟩ := par.parseJoinBlock.along before read kept
      refine ⟨_, us', .join read',
        { like with joinGroupRefs := ?_, reactions := more _ like.reactions }, after⟩
      exact congrArg (· ++ _) like.joinGroupRefs
  | component read =>
      obtain ⟨_, us', read', rfl, after⟩ :=
        (par.parseComponent (Finset.Subset.refl _)).along before read kept
      rw [← like.seenComponentIds] at read'
      refine ⟨_, us', .component read',
        { like with components := ?_, seenComponentIds := ?_ }, after⟩
      · exact List.rel_append like.components (.cons (.refl same _) .nil)
      · exact congrArg (insert _) like.seenComponentIds
  | instantiate read =>
      obtain ⟨_, us', read', rfl, after⟩ := par.parseInstantiate.along before read kept
      refine ⟨_, us', .instantiate read', { like with instantiates := ?_ }, after⟩
      exact congrArg (· ++ _) like.instantiates

/-- So does a declaration in a component. -/
theorem BodyRead.along (par : Apart src src' b) {body next body' : BodyState}
    (like : body.Like R body')
    (read : BodyRead src body ts us next) (before : b.Before ts ts')
    (kept : b.here.toList <:+ us.toList) :
    ∃ next' us', BodyRead src' body' ts' us' next' ∧ next.Like R next' ∧ b.Before us us' := by
  cases read with
  | port read =>
      obtain ⟨_, us', read', rfl, after⟩ := par.parsePort.along before read kept
      exact ⟨_, us', .port read', { like with ports := congrArg (· ++ _) like.ports }, after⟩
  | signal read =>
      obtain ⟨_, us', read', rfl, after⟩ :=
        (par.parseSignal (Finset.Subset.refl _)).along before read kept
      rw [← like.seenSignals] at read'
      refine ⟨_, us', .signal read', { like with signals := ?_, seenSignals := ?_ }, after⟩
      · exact congrArg (· ++ _) like.signals
      · exact congrArg (insert _) like.seenSignals
  | @reaction raw read =>
      obtain ⟨_, us', read', rfl, after⟩ := par.parseReactionRaw.along before read kept
      exact ⟨_, us', .reaction read',
        { like with reactions := List.rel_append like.reactions (.cons (same raw) .nil) }, after⟩

theorem BodySweep.along (par : Apart src src' b) {id : String} {body final body' : BodyState}
    (like : body.Like R body') (swept : BodySweep src id (body, ts) (final, us))
    (before : b.Before ts ts') (kept : b.here.toList <:+ us.toList) :
    ∃ final' us', BodySweep src' id (body', ts') (final', us') ∧ final.Like R final' ∧
      b.Before us us' := by
  refine Runs.along (V := BodyState.Like R) ?_ swept (componentStep_advances id) like before kept
  intro body next body' ts us ts' like turn before kept
  obtain ⟨next', us', read, related, after⟩ :=
    (componentStep_inl.mp turn).along same par like before kept
  exact ⟨next', us', componentStep_inl.mpr read, related, after⟩

theorem Sweep.along (par : Apart src src' b) {gone : List GuardDecl} {doc final doc' : DocState}
    (like : doc.Like R gone doc') (swept : Sweep src (doc, ts) (final, us))
    (before : b.Before ts ts') (kept : b.here.toList <:+ us.toList) :
    ∃ final' us', Sweep src' (doc', ts') (final', us') ∧ final.Like R gone final' ∧
      b.Before us us' := by
  refine Runs.along (V := DocState.Like R gone) ?_ swept parseBlock_advances like before kept
  intro doc next doc' ts us ts' like turn before kept
  obtain ⟨next', us', read, related, after⟩ :=
    (parseBlock_inl.mp turn).along same par like before kept
  exact ⟨next', us', parseBlock_inl.mpr read, related, after⟩

end

/-! ## The text of some tokens -/

section

variable [RustStd]

/-- The tokens from `ts` up to `us` have the text `mid` behind `front`. -/
def Occupies (front mid : List Char) (ts us : Tokens Token) : Prop :=
  ∃ toks last, ts.toList = toks ++ last :: us.toList ∧ byteLen front = ts.current.start ∧
    byteLen (front ++ mid) = last.start + last.len

variable {src : List Char} {all toks : List Token} {last : Token} {ts us : Tokens Token}

/-- The run over a source, cut before and behind some of its tokens. -/
theorem lexes_around (lexed : tokenizeChars .start src = .ok all) (inside : ts.toList <:+ all)
    (split : ts.toList = toks ++ last :: us.toList) :
    ∃ before after stop, all = before ++ ts.toList ∧ us.toList = after ++ [stop.eof] ∧
      Lexes .start src (before ++ (toks ++ [last] ++ after)) stop [] := by
  obtain ⟨body, stop, lexes, rfl⟩ := lexes_of_tokenize lexed
  obtain ⟨before, whole⟩ := inside
  have whole' : body ++ [stop.eof] = (before ++ (toks ++ [last])) ++ us.toList := by
    rw [← whole, split]
    simp
  obtain ⟨after, rfl⟩ := Tokens.split_last whole'
  rw [List.append_assoc] at whole'
  refine ⟨before, after, stop, whole.symm, (List.append_cancel_left whole').symm, ?_⟩
  rwa [List.append_assoc] at lexes

/-- Tokens of a source have a text. -/
theorem exists_occupies (lexed : tokenizeChars .start src = .ok all) (inside : ts.toList <:+ all)
    (split : ts.toList = toks ++ last :: us.toList) :
    ∃ front mid back, src = front ++ (mid ++ back) ∧ Occupies front mid ts us := by
  obtain ⟨before, after, stop, _, _, lexes⟩ := lexes_around lexed inside split
  obtain ⟨more, head⟩ : ∃ more, toks ++ [last] = ts.current :: more := by
    cases toks with
    | nil =>
        obtain ⟨same, _⟩ := List.cons.inj split
        exact ⟨[], by rw [same]; rfl⟩
    | cons t toks =>
        obtain ⟨same, _⟩ := List.cons.inj split
        exact ⟨toks ++ [last], by rw [same]; rfl⟩
  rw [head, List.cons_append] at lexes
  obtain ⟨cur, rest, run, later, start, _⟩ := lexes.until_token
  rw [← List.cons_append, ← head, List.append_assoc] at later
  obtain ⟨cur', rest', run', _, stop⟩ := later.past_token
  obtain ⟨front, rfl, moved⟩ := run.text
  obtain ⟨mid, rfl, moved'⟩ := run'.text
  have here : byteLen front = cur.pos := by rw [moved]; exact (Nat.zero_add _).symm
  refine ⟨front, mid, rest', rfl, toks, last, split, here.trans start.symm, ?_⟩
  rw [byteLen_append, here, stop, moved']

/-- The tokens are read from their text. -/
theorem Occupies.cut {front mid back : List Char} (h : Occupies front mid ts us)
    (lexed : tokenizeChars .start (front ++ (mid ++ back)) = .ok all) (inside : ts.toList <:+ all) :
    ∃ before toks after cur cur' stop, all = before ++ ts.toList ∧ ts.toList = toks ++ us.toList ∧
      us.toList = after ++ [stop.eof] ∧
        Lexes .start (front ++ (mid ++ back)) before cur (mid ++ back) ∧
      Lexes cur (mid ++ back) toks cur' back ∧ Lexes cur' back after stop [] ∧
      ∃ c, (mid ++ back).head? = some c ∧ isWhitespace c = false := by
  obtain ⟨toks, last, split, start, finish⟩ := h
  obtain ⟨before, after, stop, whole, rest, lexes⟩ := lexes_around lexed inside split
  have head : (toks ++ [last]).head? = some ts.current := by
    have first := congrArg List.head? split
    rw [← List.singleton_append, ← List.append_assoc,
      List.head?_append_of_ne_nil _ (by simp)] at first
    exact first.symm
  obtain ⟨cur, cur', run, run', later, _, _, visible⟩ :=
    lexes.cut head start List.getLast?_concat finish
  refine ⟨before, toks ++ [last], after, cur, cur', stop, whole, ?_, rest,
    run, run', later, visible⟩
  rw [split, List.append_assoc]
  rfl

end

/-! ## One edit -/

section

variable [RustStd]

/-- The tokens of a source and of another one in which `mid` is replaced by `mid'`. -/
structure Edit (front mid mid' back : List Char) (before toks toks' after after' : List Token)
    (last last' : Token) : Prop where
  lexed : tokenizeChars .start (front ++ (mid ++ back)) =
    .ok (before ++ (toks ++ (after ++ [last])))
  lexed' : tokenizeChars .start (front ++ (mid' ++ back)) =
    .ok (before ++ (toks' ++ (after' ++ [last'])))
  within : ∀ t ∈ before, t.start + t.len ≤ byteLen front
  shifted : List.Forall₂
    (Token.Shifted (byteLen (front ++ mid)) (byteLen (front ++ mid'))) after after'
  ends : last'.kind = last.kind
  finish : last.kind = .eof
  visible : ∀ t ∈ after, t.kind ≠ .eof

variable {front mid mid' back : List Char} {before toks toks' after after' : List Token}
variable {first last last' : Token}

/-- The edit of a source that is cut before and behind some tokens. -/
theorem Edit.of_cut {cur cur' cur'' stop : Cursor}
    (run : Lexes .start (front ++ (mid ++ back)) before cur (mid ++ back))
    (inside : Lexes cur (mid ++ back) toks cur' back) (rest : Lexes cur' back after stop [])
    (run' : Lexes .start (front ++ (mid' ++ back)) before cur (mid' ++ back))
    (inside' : Lexes cur (mid' ++ back) toks' cur'' back) :
    ∃ after' last', Edit front mid mid' back before toks toks' after after' stop.eof last' := by
  obtain ⟨after', stop', shifted, _, moved⟩ := rest.shift cur''
  -- the places of the cut in bytes
  have here : cur.pos = byteLen front := by
    obtain ⟨text, same, moved⟩ := run.text
    obtain rfl := List.append_cancel_right same
    exact moved.trans (Nat.zero_add _)
  have behind : ∀ {piece toks cur'}, Lexes cur (piece ++ back) toks cur' back →
      cur'.pos = byteLen (front ++ piece) := by
    intro piece toks cur' inside
    obtain ⟨text, same, moved⟩ := inside.text
    obtain rfl := List.append_cancel_right same
    rw [moved, here, byteLen_append]
  have lo := behind inside
  have lo' := behind inside'
  have inFront := (run.spanned (List.nil_append _).symm rfl).1.within
  have inBack := (rest.spanned (show front ++ (mid ++ back) = (front ++ mid) ++ back by simp) lo).1
  rw [here] at inFront
  rw [lo, lo'] at moved
  rw [lo] at inBack
  refine ⟨after', stop'.eof, ⟨?_, ?_, fun t member => (inFront t member).2.1, ?_, rfl, rfl, ?_⟩⟩
  · rw [(run.trans (inside.trans rest)).tokenize, tokenizeChars]
    simp [Except.map]
  · rw [(run'.trans (inside'.trans shifted)).tokenize, tokenizeChars]
    simp [Except.map]
  · have starts : ∀ t ∈ after, byteLen (front ++ mid) ≤ t.start := fun t member =>
      (inBack.within t member).1
    exact ((List.forall₂_and_left _ _).mpr ⟨starts, moved⟩).imp fun _ _ both => both.symm
  · exact fun t member => (inBack.within t member).2.2

/-- A sweep over the front is the same in the other source. -/
theorem Edit.sweep_front (e : Edit front mid mid' back before toks toks' after after' last last')
    {passed left : List Token} (split : before = passed ++ left) {t₀ t₀' ts ts' : Tokens Token}
    (whole : t₀.toList = before ++ (toks ++ (after ++ [last])))
    (whole' : t₀'.toList = before ++ (toks' ++ (after' ++ [last'])))
    (here : ts.toList = left ++ (toks ++ (after ++ [last])))
    (there : ts'.toList = left ++ (toks' ++ (after' ++ [last']))) (more : ts.rest ≠ [])
    (alike : Alike ts.current ts'.current)
    (head : ts.current.kind.isHead = false ∧ ts.current.kind ≠ .when) {doc : DocState}
    (swept : Sweep (front ++ (mid ++ back)) ({}, t₀) (doc, ts)) :
    ∃ doc', Sweep (front ++ (mid' ++ back)) ({}, t₀') (doc', ts') ∧ doc.Like Eq [] doc' := by
  have par : Apart (front ++ (mid ++ back)) (front ++ (mid' ++ back))
      (frontBorder front ts ts' more) :=
    { frontBorder_parallel more alike with head }
  have along : (frontBorder front ts ts' more).Before t₀ t₀' := by
    refine ⟨passed, passed, ?_, ?_, List.forall₂_same.mpr fun t member => ⟨rfl, e.within t ?_⟩⟩
    · rw [whole, split, List.append_assoc]
      exact congrArg (passed ++ ·) here.symm
    · rw [whole', split, List.append_assoc]
      exact congrArg (passed ++ ·) there.symm
    · rw [split]
      exact List.mem_append_left _ member
  obtain ⟨doc', us, swept', like, reached⟩ :=
    Sweep.along (fun _ => rfl) par (.refl (fun _ => rfl) _) swept along (List.suffix_refl _)
  obtain rfl := reached.at_border
  exact ⟨doc', swept', like⟩

/-- The two sources behind the edit. -/
abbrev Edit.border (e : Edit front mid mid' back before toks toks' after after' last last') :
    Border Token :=
  backBorder (byteLen (front ++ mid)) (byteLen (front ++ mid')) last last' e.ends e.finish

theorem Edit.apart (e : Edit front mid mid' back before toks toks' after after' last last') :
    Apart (front ++ (mid ++ back)) (front ++ (mid' ++ back)) e.border := by
  rw [← List.append_assoc, ← List.append_assoc]
  exact backBorder_apart e.ends e.finish

theorem Edit.behind (e : Edit front mid mid' back before toks toks' after after' last last') :
    List.Forall₂ e.border.rel after after' :=
  e.shifted.imp fun _ _ moved => ⟨moved.1.kind, fun _ => moved⟩

/-- A sweep behind the edit adds the same in the other source. -/
theorem Edit.sweep_back (e : Edit front mid mid' back before toks toks' after after' last last')
    {R : RawReaction → RawReaction → Prop} (same : ∀ r, R r r) {gone : List GuardDecl}
    {doc doc' final : DocState} (like : doc.Like R gone doc') {ts ts' us : Tokens Token}
    (along : e.border.Before ts ts')
    (inside : ts.toList <:+ after ++ [last])
    (swept : Sweep (front ++ (mid ++ back)) (doc, ts) (final, us))
    (finish : us.current.kind = .eof) :
    ∃ final' us', Sweep (front ++ (mid' ++ back)) (doc', ts') (final', us') ∧
      us'.current.kind = .eof ∧ final.Like R gone final' := by
  obtain rfl : us = ⟨last, []⟩ := Tokens.eq_last ((Sweep.suffix swept).trans inside) fun member =>
    e.visible _ member finish
  obtain ⟨final', us', swept', like', reached⟩ :=
    Sweep.along same e.apart like swept along (List.suffix_refl _)
  obtain rfl := reached.at_border
  exact ⟨final', _, swept', e.ends.trans e.finish, like'⟩

end

end SignalTopology.Ddl
