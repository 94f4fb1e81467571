import SignalTopology.Ddl.Grammar

/-!
# Cutting guards out of a source

`captureGuard` takes tokens up to the first one that can end a guard and cuts
their text out of the source. In front of a guard it returns that guard exactly
if it took the tokens of the guard, neither fewer nor more.
-/

namespace SignalTopology.Ddl

open TokenParser

/-! ## The text of neighbouring tokens -/

theorem trim_solid {text : List Char} (solid : Solid text) : trim text = text := by
  have front : text.dropWhile isWhitespace = text := by
    obtain ⟨c, cs, rfl⟩ := List.exists_cons_of_ne_nil solid.nonempty
    exact List.dropWhile_cons_of_neg (by simp [solid.first c rfl])
  have back : text.reverse.dropWhile isWhitespace = text.reverse := by
    obtain ⟨c, cs, same⟩ : ∃ c cs, text.reverse = c :: cs :=
      List.exists_cons_of_ne_nil (by simpa using solid.nonempty)
    have last : text.getLast? = some c := by
      rw [← List.head?_reverse, same]
      rfl
    rw [same]
    exact List.dropWhile_cons_of_neg (by simp [solid.last c last])
  rw [trim, front, back, List.reverse_reverse]

theorem byteLen_pos {text : List Char} (nonempty : text ≠ []) : 0 < byteLen text := by
  obtain ⟨c, cs, rfl⟩ := List.exists_cons_of_ne_nil nonempty
  have size := c.utf8Size_pos
  rw [byteLen_cons]
  omega

/-- Of two fronts of a text, the one of fewer bytes is a front of the other. -/
theorem front_within {front back front' back' : List Char} (same : front ++ back = front' ++ back')
    (ordered : byteLen front ≤ byteLen front') :
    ∃ mid, front' = front ++ mid ∧ back = mid ++ back' := by
  obtain ⟨mid, longer, tail⟩ | ⟨mid, shorter, tail⟩ := List.append_eq_append_iff.mp same
  · exact ⟨mid, longer, tail⟩
  · have empty : mid = [] := by
      by_contra nonempty
      have positive := byteLen_pos nonempty
      rw [shorter, byteLen_append] at ordered
      omega
    rw [empty, List.append_nil] at shorter
    rw [empty, List.nil_append] at tail
    exact ⟨[], by rw [shorter, List.append_nil], tail.symm⟩

/-- The text from the start of one token to the end of another is cut out whole. -/
theorem slice_between {src before text after before' text' after' : List Char}
    (first : src = before ++ (text ++ after)) (last : src = before' ++ (text' ++ after'))
    (ordered : byteLen before ≤ byteLen before') (solid : Solid text) (solid' : Solid text') :
    ∃ cut, slice src (byteLen before) (byteLen before' + byteLen text') = some cut ∧ Solid cut ∧
      byteLen before + byteLen cut = byteLen before' + byteLen text' := by
  obtain ⟨middle, rfl, _⟩ := front_within (first.symm.trans last) ordered
  have place : src = before ++ ((middle ++ text') ++ after') := by
    rw [last, List.append_assoc, List.append_assoc]
  have length : byteLen (before ++ middle) + byteLen text' =
      byteLen before + byteLen (middle ++ text') := by
    rw [byteLen_append, byteLen_append, Nat.add_assoc]
  refine ⟨middle ++ text', ?_, ⟨?_, ?_, ?_⟩, length.symm⟩
  · rw [length, place]
    exact slice_append _ _ _
  · simp [solid'.nonempty]
  · intro c head
    refine solid.first c ?_
    have same : text ++ after = (middle ++ text') ++ after' :=
      List.append_cancel_left (first.symm.trans place)
    have heads := congrArg List.head? same
    rw [List.head?_append_of_ne_nil _ solid.nonempty,
      List.head?_append_of_ne_nil _ (by simp [solid'.nonempty]), head] at heads
    exact heads
  · intro c tail
    refine solid'.last c ?_
    rw [List.getLast?_append] at tail
    rw [List.getLast?_eq_getLast_of_ne_nil solid'.nonempty] at tail ⊢
    exact tail

namespace Spanned

variable {src : List Char} {lo hi : Nat} {toks more : List Token} {s t : Token}

/-- The last of the tokens ends within the span, on a text of its own. -/
theorem last (h : Spanned src lo toks hi) (last : toks.getLast? = some t) :
    lo ≤ t.start ∧ t.start + t.len ≤ hi ∧ ∃ before text after, src = before ++ (text ++ after) ∧
      t.start = byteLen before ∧ t.len = byteLen text ∧ Solid text := by
  induction h with
  | nil => cases last
  | @cons lo hi tok toks before text after place start len solid kind ordered later ih =>
      cases toks with
      | nil =>
          cases last
          exact ⟨ordered, later.le, before, text, after, place, start, len, solid⟩
      | cons next toks =>
          rw [List.getLast?_cons_cons] at last
          obtain ⟨lower, upper, whole⟩ := ih last
          exact ⟨by omega, upper, whole⟩

/-- Tokens end later the more there are of them. -/
theorem last_lt (h : Spanned src lo (toks ++ more) hi) (first : toks.getLast? = some s)
    (last : more.getLast? = some t) : s.start + s.len < t.start + t.len := by
  obtain ⟨mid, front, back⟩ := h.split
  obtain ⟨_, upper, _⟩ := front.last first
  obtain ⟨lower, _, _, text, _, _, _, len, solid⟩ := back.last last
  have positive := byteLen_pos solid.nonempty
  omega

/-- Of the tokens from one place on, those up to a given end are determined. -/
theorem eq_of_last {rest rest' : List Token} (h : Spanned src lo (toks ++ rest) hi)
    (same : toks ++ rest = more ++ rest') (first : toks.getLast? = some s)
    (last : more.getLast? = some t) (ends : s.start + s.len = t.start + t.len) : toks = more := by
  obtain ⟨extra, longer, _⟩ | ⟨extra, longer, _⟩ := List.append_eq_append_iff.mp same
  · cases final : extra.getLast? with
    | none => rw [longer, List.getLast?_eq_none_iff.mp final, List.append_nil]
    | some u =>
        rw [same, longer] at h
        obtain ⟨_, front, _⟩ := h.split
        have later := front.last_lt first final
        rw [longer, List.getLast?_append, final] at last
        cases last
        omega
  · cases final : extra.getLast? with
    | none => rw [longer, List.getLast?_eq_none_iff.mp final, List.append_nil]
    | some u =>
        rw [longer] at h
        obtain ⟨_, front, _⟩ := h.split
        have later := front.last_lt last final
        rw [longer, List.getLast?_append, final] at first
        cases first
        omega

/-- The text from the first token to the last. -/
theorem cut (h : Spanned src lo toks hi) (first : toks.head? = some s)
    (last : toks.getLast? = some t) :
    ∃ text, slice src s.start (t.start + t.len) = some text ∧ Solid text ∧
      s.start + byteLen text = t.start + t.len := by
  cases h with
  | nil => cases first
  | @cons _ _ tok toks before text after place start len solid kind ordered later =>
      cases first
      have whole := Spanned.cons place start len solid kind (Nat.le_refl _) later
      obtain ⟨lower, _, before', text', after', place', start', len', solid'⟩ := whole.last last
      rw [start, start', len']
      exact slice_between place place' (by omega) solid solid'

end Spanned

/-! ## Guards -/

variable [RustStd]

theorem GuardText.tame {text : List Char} (h : GuardText text) : Tame text :=
  tame_of_accepts h.accepted

/-- The text is read as the given kinds, alone and in front of other texts. -/
structure Legible (text : List Char) (kinds : List TokenKind) : Prop where
  read : kindsOf text = some kinds
  reads : Reads text kinds
  solid : Solid text

theorem Spans.legible {text : List Char} {kinds : List TokenKind} (h : Spans text kinds) :
    Legible text kinds := by
  refine ⟨h.kindsOf, h.reads, ?_⟩
  obtain ⟨toks, cur, lexes, _, covers⟩ := h
  obtain ⟨spanned, whole, split, stop⟩ := @Lexes.spanned _ _ _ _ _ _ lexes text [] rfl rfl
  obtain ⟨first, head, start⟩ := covers.first
  obtain ⟨final, tail, length⟩ := covers.last
  obtain ⟨cut, sliced, solid, _⟩ := spanned.cut head tail
  rw [List.append_nil] at split
  have same := slice_append [] text []
  rw [List.append_nil, List.nil_append, byteLen_nil, Nat.zero_add] at same
  rw [start, length, stop, ← split] at sliced
  have zero : Cursor.start.pos = 0 := rfl
  rw [zero, Nat.zero_add, same] at sliced
  cases sliced
  exact solid

section

variable {src guard : List Char} {kinds : List TokenKind} {ps : List Piece} {ts us : Tokens Token}

/-- The source of a guard is legible, or the whole source is not. -/
theorem At.legible (h : At src (.span guard :: ps) ts) (text : GuardText guard) :
    ∃ kinds, Legible guard kinds := by
  cases read : kindsOf guard with
  | some kinds => exact ⟨kinds, read, text.tame.reads text.solid read, text.solid⟩
  | none =>
      obtain ⟨before, rest, cur, _, _, spelled, lexed⟩ := h
      cases spelled with
      | @cons _ _ gap more skipped stops later =>
          obtain ⟨cur', run⟩ := skipped.lexes cur (guard ++ more)
          obtain ⟨e, failed⟩ := unreadable text.tame read cur' stops
          have whole := run.tokenize
          rw [failed] at whole
          exact absurd (lexed.symm.trans whole) (by simp [Except.map])

/-- What `captureGuard` returns. -/
theorem yields_captureGuard {taken : List Token} {cut : List Char}
    (opening : ts.current.kind = .when) :
    Yields (captureGuard src) ts (taken, cut) us ↔
      ts.advance.current.kind.endsGuard = false ∧
      Many (fun tok => !tok.kind.endsGuard) (advance : Parse Token) ts.advance taken us ∧
      taken.length ≤ ts.advance.rest.length ∧
      ∃ text, slice src ts.advance.current.start ((taken.getLastD ts.advance.current).start +
        (taken.getLastD ts.advance.current).len) = some text ∧ cut = trim text := by
  rw [captureGuard, expect_bind opening, peek_bind, yields_bind]
  constructor
  · rintro ⟨_, ts', starts, rest⟩
    obtain ⟨inside, rfl⟩ := yields_ensure.mp starts
    obtain ⟨tokens, us', run, rest⟩ := yields_bind.mp rest
    obtain ⟨items, bound⟩ := yields_many.mp run
    dsimp only at rest
    split at rest
    · next text sliced =>
        obtain ⟨same, rfl⟩ := yields_pure.mp rest
        cases same
        exact ⟨by simpa using inside, items, bound, text, sliced, rfl⟩
    · exact absurd rest not_yields_panic
  · rintro ⟨inside, items, bound, text, sliced, rfl⟩
    refine ⟨(), _, yields_ensure.mpr ⟨by simpa using inside, rfl⟩, ?_⟩
    refine (yields_many.mpr ⟨items, bound⟩).bind ?_
    dsimp only
    rw [sliced]
    exact yields_pure.mpr ⟨rfl, rfl⟩

theorem isWord_when : IsWord "when" := isWord_ascii (by decide)

/-- In front of a guard, `captureGuard` returns the guard exactly if none of its
tokens ends a guard and the token after it does. -/
theorem At.capture (h : At src (.word "when" :: .span guard :: ps) ts)
    (legible : Legible guard kinds) :
    ∃ toks us, toks ≠ [] ∧ kindsOf guard = some (toks.map Token.kind) ∧
      ts.advance.toList = toks ++ us.toList ∧ At src ps us ∧
      ∀ taken vs, Yields (captureGuard src) ts (taken, guard) vs ↔
        taken = toks ∧ vs = us ∧ (∀ tok ∈ toks, tok.kind.endsGuard = false) ∧
          us.current.kind.endsGuard = true := by
  obtain ⟨opening, inside, _⟩ := h.word isWord_when
  obtain ⟨read, readable, solid⟩ := legible
  have same : (Piece.span guard).kinds = kinds := by simp [Piece.span, read]
  obtain ⟨toks, us, split, kinds', after, lo, covers, cut⟩ := inside.piece (same.symm ▸ readable)
  obtain ⟨body, last, lo', hi, whole, finish, spanned⟩ := inside.spanned
  have stop : (fun tok : Token => !tok.kind.endsGuard) last = false := by
    simp [finish, TokenKind.endsGuard]
  obtain ⟨first, head, start⟩ := covers.first
  obtain ⟨final, tail, length⟩ := covers.last
  replace length : final.start + final.len = lo + byteLen guard := length
  have current : ts.advance.current = first := by
    have heads := congrArg List.head? split
    rw [List.head?_append_of_ne_nil _ (by rintro rfl; cases head), head] at heads
    exact Option.some.inj heads
  refine ⟨toks, us, ?_, by rw [read, kinds', same], split, after, fun taken vs => ?_⟩
  · rintro rfl
    cases head
  rw [yields_captureGuard opening, many_advance whole stop, current]
  constructor
  · rintro ⟨inside, ⟨split', all, finish⟩, _, piece, sliced, trimmed⟩
    obtain ⟨t, tail'⟩ : ∃ t, taken.getLast? = some t := by
      cases taken with
      | nil =>
          have same : vs.current = first := by
            rw [← current]
            exact (List.cons.inj split').1.symm
          rw [same, inside] at finish
          cases finish
      | cons t taken => exact ⟨_, List.getLast?_eq_getLast_of_ne_nil (List.cons_ne_nil t taken)⟩
    have head' : taken.head? = some first := by
      have heads := congrArg List.head? split'
      rw [List.head?_append_of_ne_nil _ (by rintro rfl; cases tail')] at heads
      rw [← heads, ← current]
      rfl
    obtain ⟨rest, front⟩ := Tokens.split_last (whole.symm.trans split')
    obtain ⟨rest', front'⟩ := Tokens.split_last (whole.symm.trans split)
    rw [front] at spanned
    obtain ⟨_, own, _⟩ := spanned.split
    obtain ⟨piece', sliced', solid', length'⟩ := own.cut head' tail'
    have final' : taken.getLastD first = t := by
      rw [List.getLastD_eq_getLast?, tail']
      rfl
    rw [final', sliced'] at sliced
    cases sliced
    -- the text of the tokens taken is the guard, so both end at the same place
    rw [trim_solid solid'] at trimmed
    subst trimmed
    have same := spanned.eq_of_last (front.symm.trans front') tail' tail (by omega)
    subst same
    have left := List.append_cancel_left (split'.symm.trans split)
    cases Tokens.toList_inj left
    refine ⟨rfl, rfl, fun tok member => by simpa using all tok member, by simpa using finish⟩
  · rintro ⟨rfl, rfl, all, finish⟩
    refine ⟨all first (List.mem_of_head? head), ⟨split, by simpa using all, by simp [finish]⟩, ?_,
      guard, ?_, (trim_solid solid).symm⟩
    · have lengths := congrArg List.length split
      simp only [Tokens.toList, List.length_cons, List.length_append] at lengths
      omega
    · rw [List.getLastD_eq_getLast?, tail, start]
      show slice src lo (final.start + final.len) = some guard
      rw [length]
      exact cut

theorem unbroken_iff {toks : List Token} (read : kindsOf guard = some (toks.map Token.kind)) :
    Unbroken guard ↔ ∀ tok ∈ toks, tok.kind.endsGuard = false := by
  constructor
  · rintro ⟨kinds, same, all⟩ tok member
    rw [read] at same
    cases same
    exact all tok.kind (List.mem_map_of_mem member)
  · intro all
    refine ⟨_, read, fun kind listed => ?_⟩
    obtain ⟨tok, member, rfl⟩ := List.mem_map.mp listed
    exact all tok member

/-- What is left after the guard of a clause, and after its last token. -/
theorem At.parseGuard (h : At src (.word "when" :: .span guard :: ps) ts)
    (legible : Legible guard kinds) : ∃ us, At src ps us ∧ us.rest.length < ts.rest.length ∧
      ∀ vs, Yields (Ddl.parseGuard src) ts (String.ofList guard) vs ↔
        vs = us ∧ Unbroken guard ∧ us.current.kind.endsGuard = true := by
  obtain ⟨toks, us, nonempty, read, split, after, exact⟩ := h.capture legible
  refine ⟨us, after, ?_, fun vs => ?_⟩
  · obtain ⟨_, _, shorter⟩ := h.word isWord_when
    have lengths := congrArg List.length split
    simp only [Tokens.toList, List.length_cons, List.length_append] at lengths
    omega
  · rw [unbroken_iff read, Ddl.parseGuard, yields_bind]
    constructor
    · rintro ⟨⟨taken, cut⟩, us', captured, rest⟩
      obtain ⟨same, rfl⟩ := yields_pure.mp rest
      cases String.ofList_inj.mp same
      exact ((exact taken vs).mp captured).2
    · intro whole
      exact ⟨(toks, guard), vs, (exact toks vs).mpr ⟨rfl, whole⟩, yields_pure.mpr ⟨rfl, rfl⟩⟩

/-- The three tokens from here on start a clause of a fork or a join. -/
def isReactionHead (ts : Tokens Token) : Bool :=
  ts.current.kind = .when &&
    (match (ts.toList[1]?).map Token.kind with | some (.identifier _) => true | _ => false) &&
    (ts.toList[2]?).map Token.kind = some .enters

omit [RustStd] in
theorem yields_atReactionHead {head : Bool} :
    Yields atReactionHead ts head us ↔ head = isReactionHead ts ∧ us = ts := by
  rw [atReactionHead, peek_bind, Yields.bind_iff (yields_lookahead.mpr ⟨rfl, rfl⟩),
    Yields.bind_iff (yields_lookahead.mpr ⟨rfl, rfl⟩), yields_pure]
  rfl

/-- A guard that does not look like a clause is not taken for one. -/
theorem At.not_head (h : At src (.word "when" :: .span guard :: ps) ts)
    (legible : Legible guard kinds)
    (plain : ∀ name more, kinds ≠ .identifier name :: .enters :: more)
    (other : ∀ us, At src ps us → us.current.kind ≠ .enters) : isReactionHead ts = false := by
  obtain ⟨toks, us, nonempty, read, split, after, _⟩ := h.capture legible
  obtain ⟨_, _, shorter⟩ := h.word isWord_when
  rw [Bool.eq_false_iff]
  intro head
  have whole : ts.toList = ts.current :: (toks ++ us.toList) := by
    rw [← split, ← Tokens.rest_eq (List.ne_nil_of_length_eq_add_one shorter)]
    rfl
  rw [isReactionHead, whole] at head
  simp only [List.getElem?_cons_succ, Bool.and_eq_true, decide_eq_true_eq] at head
  obtain ⟨⟨_, name⟩, enters⟩ := head
  split at name
  · next s ident =>
      obtain ⟨t, toks, rfl⟩ := List.exists_cons_of_ne_nil nonempty
      by_cases single : toks = []
      · subst single
        have third : us.current.kind = .enters := by simpa [Tokens.toList] using enters
        exact other us after third
      · obtain ⟨u, toks, rfl⟩ := List.exists_cons_of_ne_nil single
        have first : t.kind = .identifier s := by simpa using ident
        have second : u.kind = .enters := by simpa using enters
        rw [List.map_cons, List.map_cons, first, second, legible.read] at read
        exact plain _ _ (Option.some.inj read)
  · cases name

/-- A reaction takes a lone name for a reference. -/
theorem At.parseGuardSpec (h : At src (.word "when" :: .span guard :: ps) ts)
    (legible : Legible guard kinds) :
    ∃ us, At src ps us ∧ us.rest.length < ts.rest.length ∧
      ∀ vs, Yields (Ddl.parseGuardSpec src) ts (.lit (String.ofList guard)) vs ↔
        vs = us ∧ Unbroken guard ∧ ¬ Reference guard ∧ us.current.kind.endsGuard = true := by
  obtain ⟨toks, us, nonempty, read, split, after, exact⟩ := h.capture legible
  obtain ⟨_, _, shorter⟩ := h.word isWord_when
  refine ⟨us, after, ?_, fun vs => ?_⟩
  · have lengths := congrArg List.length split
    simp only [Tokens.toList, List.length_cons, List.length_append] at lengths
    omega
  · rw [unbroken_iff read, Reference, read, Ddl.parseGuardSpec, yields_bind]
    constructor
    · rintro ⟨⟨taken, cut⟩, us', captured, rest⟩
      dsimp only at rest
      split at rest
      · obtain ⟨same, rfl⟩ := yields_pure.mp rest
        cases same
      · next other =>
          obtain ⟨same, rfl⟩ := yields_pure.mp rest
          cases String.ofList_inj.mp (RawGuard.lit.inj same)
          obtain ⟨rfl, rfl, all, finish⟩ := (exact taken vs).mp captured
          refine ⟨rfl, all, ?_, finish⟩
          rintro ⟨name, single⟩
          exact other name (Option.some.inj single)
    · rintro ⟨rfl, all, other, finish⟩
      refine ⟨(toks, guard), vs, (exact toks vs).mpr ⟨rfl, rfl, all, finish⟩, ?_⟩
      dsimp only
      split
      · next name single => exact absurd ⟨name, congrArg some single⟩ other
      · exact yields_pure.mpr ⟨rfl, rfl⟩

end

end SignalTopology.Ddl
