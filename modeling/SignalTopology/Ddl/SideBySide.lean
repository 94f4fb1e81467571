import SignalTopology.Ddl.Capture
import SignalTopology.Library.SideBySide

/-!
# The parser on two sources

No parser of the language looks back, and none looks far beyond the token at which its
construct ends. So two sources that agree up to a place, or from a place on, are read
alike there. `Parallel` collects what this asks of the border between the two parts;
given that, each parser of a construct follows itself.
-/

namespace SignalTopology.Ddl

open TokenParser

/-! ## Borders in a source -/

/-- The kinds at which a top-level block or the end of the document stands. -/
def TokenKind.opensBlock : TokenKind → Bool
  | signal | reaction | guard | fork | join | component | instantiate | eof => true
  | _ => false

/-- Tokens that no parser tells apart unless it takes the first of them. -/
def Alike (t t' : Token) : Prop :=
  t'.kind = t.kind ∨ (t.kind = .guard ∧ t'.kind.opensBlock = true)

theorem Alike.refl (t : Token) : Alike t t := .inl rfl

theorem Alike.test {t t' : Token} {kind : TokenKind} (h : Alike t t')
    (inside : kind.opensBlock = false) : t.kind = kind ↔ t'.kind = kind := by
  rcases h with same | ⟨guard, opens⟩
  · rw [same]
  · rw [guard]
    constructor
    · rintro rfl
      cases inside
    · rintro rfl
      rw [opens] at inside
      cases inside

theorem Alike.isHead {t t' : Token} (h : Alike t t') (other : t.kind.isHead = false) :
    t'.kind.isHead = false := by
  rcases h with same | ⟨_, opens⟩
  · rw [same]
    exact other
  · cases kind : t'.kind <;> rw [kind] at opens <;> first | rfl | cases opens

/-- The tokens before the border have the same kinds, and cut the same texts out of their
sources. -/
structure Parallel (src src' : List Char) (b : Border Token) : Prop where
  kind : ∀ {t t'}, b.rel t t' → t'.kind = t.kind
  cut : ∀ {t t' u u' text}, b.rel t t' → b.rel u u' → t.kind ≠ .eof → u.kind ≠ .eof →
    slice src t.start (u.start + u.len) = some text →
    slice src' t'.start (u'.start + u'.len) = some text
  border : Alike b.here.current b.there.current

/-- No head of a clause of a reaction lies across the border. -/
structure Apart (src src' : List Char) (b : Border Token) : Prop extends Parallel src src' b where
  head : b.here.current.kind.isHead = false ∧ b.here.current.kind ≠ .when

/-- The last of related tokens are related. -/
theorem forall₂_getLastD {R : Token → Token → Prop} {t t' : Token} {toks toks' : List Token}
    (first : R t t') (related : List.Forall₂ R toks toks') :
    R (toks.getLastD t) (toks'.getLastD t') := by
  induction related generalizing t t' with
  | nil => exact first
  | cons next _ ih =>
      rw [List.getLastD_cons, List.getLastD_cons]
      exact ih next

section

variable [RustStd]

/-! ## Constructs in two parts -/

section

variable (src : List Char)

/-- A component up to its declarations. -/
def componentHead (seen : Finset String) : Parse (String × List String) := do
  let _ ← expect .component
  let (id, idTok) ← expectAnyIdent
  ensure (id ∉ seen) (idTok.error ("duplicate component '" ++ id ++ "'"))
  let _ ← expect .lBrace
  let tok ← peek
  if tok.kind = .params then do
    let _ ← advance
    let _ ← expect .colon
    let params ← parseStateList
    return (id, params)
  else return (id, [])

theorem parseComponent_eq (seen : Finset String) : parseComponent src seen = do
    let head ← componentHead seen
    let body ← iterate (componentStep src head.1) {}
    return { id := head.1, params := head.2, ports := body.ports, signals := body.signals
             rawReactions := body.rawReactions } := by
  rw [parseComponent, componentHead]
  simp only [bind_assoc]
  refine bind_congr fun _ => bind_congr ?_
  rintro ⟨id, idTok⟩
  refine bind_congr fun _ => bind_congr fun _ => bind_congr fun tok => ?_
  split
  · simp only [bind_assoc, pure_bind]
    rfl
  · simp only [pure_bind]
    rfl

/-- A clause of a reaction up to its guard. -/
def reactionHead : Parse (String × String × String × String) := do
  let _ ← expect .when
  let (fromSignal, _) ← expectAnyIdent
  let _ ← expect .enters
  let (fromState, _) ← expectAnyIdent
  let _ ← expect .arrow
  let (toSignal, _) ← expectAnyIdent
  let (event, _) ← expectAnyIdent
  return (fromSignal, fromState, toSignal, event)

theorem parseReactionBody_eq : parseReactionBody src = do
    let head ← reactionHead
    let guard ← parseReactionGuard src
    let payload ← parseReactionPayload src
    let onFail ← parseOnFail
    return { fromSignal := head.1, fromState := head.2.1, toSignal := head.2.2.1
             event := head.2.2.2, guard, payload, joinGroup := none, requires := [], onFail } := by
  rw [parseReactionBody, reactionHead]
  simp only [bind_assoc, pure_bind]

end

end

namespace Parallel

variable {src src' : List Char} {b : Border Token} {α β : Type} {V : α → α → Prop}

theorem alike (par : Parallel src src' b) {t t' : Token} (h : b.Peeked t t') : Alike t t' := by
  rcases h with related | ⟨rfl, rfl⟩
  · exact .inl (par.kind related)
  · exact par.border

/-! ## Taking one token -/

theorem peek (par : Parallel src src' b) {f f' : Token → Parse α}
    (next : ∀ t t', Alike t t' → Follows b V (f t) (f' t')) :
    Follows b V (peek >>= f) (TokenParser.peek >>= f') :=
  (Follows.peek fun _ _ seen => par.alike seen).bind
    (fun t => (next t t (.refl t)).consumes) next

/-- A look for a token that opens no block. -/
theorem test (par : Parallel src src' b) {kind : TokenKind} {p p' q q' : Token → Parse α}
    (inside : kind.opensBlock = false) (yes : ∀ t t', Follows b V (p t) (p' t'))
    (no : ∀ t t', Follows b V (q t) (q' t')) :
    Follows b V (TokenParser.peek >>= fun tok => if tok.kind = kind then p tok else q tok)
      (TokenParser.peek >>= fun tok => if tok.kind = kind then p' tok else q' tok) :=
  par.peek fun t t' alike => .ite (alike.test inside) (yes t t') (no t t')

theorem glance (par : Parallel src src' b) {W : α ⊕ β → α ⊕ β → Prop} {f f' : Token → Parse (α ⊕ β)}
    (next : ∀ t t', Alike t t' → Repeats b W (f t) (f' t')) :
    Repeats b W (TokenParser.peek >>= f) (TokenParser.peek >>= f') :=
  .peek_bind (fun _ _ seen => par.alike seen) .refl next

theorem look (par : Parallel src src' b) {kind : TokenKind} {W : α ⊕ β → α ⊕ β → Prop}
    {p p' q q' : Token → Parse (α ⊕ β)} (inside : kind.opensBlock = false)
    (yes : ∀ t t', Repeats b W (p t) (p' t')) (no : ∀ t t', Repeats b W (q t) (q' t')) :
    Repeats b W (TokenParser.peek >>= fun tok => if tok.kind = kind then p tok else q tok)
      (TokenParser.peek >>= fun tok => if tok.kind = kind then p' tok else q' tok) :=
  par.glance fun t t' alike => .ite (alike.test inside) (yes t t') (no t t')

variable [RustStd]

omit [RustStd] in
theorem ensure {c c' : Bool} {e e' : String} {f f' : Unit → Parse α}
    (implied : c = true → c' = true) (next : Follows b V (f ()) (f' ())) :
    Follows b V (ensure c e >>= f) (TokenParser.ensure c' e' >>= f') :=
  (Follows.ensure implied).bind (fun _ => next.consumes) fun _ _ _ => next

theorem leads_expect (par : Parallel src src' b) (kind : TokenKind) :
    Leads b (fun t t' => b.rel t t' ∧ t.kind = kind) (expect kind) (expect kind) := by
  have takes : Takes (Ddl.expect kind) := by
    intro ts tok us read
    obtain ⟨_, _, rfl⟩ := yields_expect.mp read
    exact List.suffix_refl _
  refine ⟨⟨takes.consumes, ?_⟩, takes⟩
  intro ts ts' tok us before read kept
  obtain ⟨same, rfl, rfl⟩ := yields_expect.mp read
  obtain ⟨related, after⟩ := before.advance kept
  exact ⟨_, _, yields_expect.mpr ⟨(par.kind related).trans same, rfl, rfl⟩, ⟨related, same⟩, after⟩

theorem expect (par : Parallel src src' b) {kind : TokenKind} {f f' : Token → Parse α}
    (next : ∀ t t', Follows b V (f t) (f' t')) :
    Leads b V (Ddl.expect kind >>= f) (Ddl.expect kind >>= f') :=
  (par.leads_expect kind).bind (fun t => (next t t).consumes) fun t t' _ => next t t'

theorem leads_ident (par : Parallel src src' b) :
    Leads b (fun x x' => x'.1 = x.1) expectAnyIdent expectAnyIdent := by
  have takes : Takes expectAnyIdent := by
    rintro ts ⟨s, tok⟩ us read
    obtain ⟨_, _, rfl⟩ := yields_expectAnyIdent.mp read
    exact List.suffix_refl _
  refine ⟨⟨takes.consumes, ?_⟩, takes⟩
  rintro ts ts' ⟨s, tok⟩ us before read kept
  obtain ⟨same, rfl, rfl⟩ := yields_expectAnyIdent.mp read
  obtain ⟨related, after⟩ := before.advance kept
  exact ⟨(s, ts'.current), _, yields_expectAnyIdent.mpr ⟨(par.kind related).trans same, rfl, rfl⟩,
    rfl, after⟩

theorem ident (par : Parallel src src' b) {f f' : String × Token → Parse α}
    (next : ∀ s t t', Follows b V (f (s, t)) (f' (s, t'))) :
    Leads b V (expectAnyIdent >>= f) (expectAnyIdent >>= f') := by
  refine par.leads_ident.bind (fun x => (next x.1 x.2 x.2).consumes) ?_
  rintro ⟨s, t⟩ ⟨_, t'⟩ rfl
  exact next _ t t'

/-! ## Lists -/

omit [RustStd] in
/-- A repetition while the current token is of a kind that opens no block. -/
theorem while_eq (par : Parallel src src' b) {kind : TokenKind} {item item' : Parse α}
    (inside : kind.opensBlock = false) (each : Leads b Eq item item') :
    Follows b Eq (many (fun tok => tok.kind = kind) item)
    (many (fun tok => tok.kind = kind) item') := by
  refine .many_eq each (fun t t' related => by rw [par.kind related]) fun stop => ?_
  simp only [decide_eq_false_iff_not] at stop ⊢
  exact mt (par.border.test inside).mpr stop

omit [RustStd] in
/-- The items after the first one of a list. -/
theorem commaItems (par : Parallel src src' b) {closing : TokenKind} {item item' : Parse α}
    (inside : closing.opensBlock = false) (each : Leads b Eq item item') (items : List α) :
    Follows b Eq (iterate (commaItem closing item) items)
    (iterate (commaItem closing item') items) := by
  have comma : TokenKind.comma.opensBlock = false := rfl
  refine .iterate_eq (fun items => ?_) items
  refine par.look comma (fun _ _ => .again ?_) fun _ _ => .done rfl
  refine .advance_bind fun _ _ => par.test inside (fun _ _ => .pure rfl) fun _ _ => ?_
  exact each.toFollows.bind_eq fun x => .pure rfl

theorem commaList (par : Parallel src src' b) {opening closing : TokenKind} {item item' : Parse α}
    (inside : closing.opensBlock = false) (each : Leads b Eq item item') :
    Leads b Eq (Ddl.commaList opening closing item) (Ddl.commaList opening closing item') := by
  refine par.expect fun _ _ => par.test inside (fun _ _ => ?_) fun _ _ => ?_
  · exact (Follows.pure rfl).bind_eq fun items => (par.expect fun _ _ => .pure rfl).toFollows
  · refine each.toFollows.bind_eq fun first => (par.commaItems inside each [first]).bind_eq ?_
    exact fun items => (par.expect fun _ _ => .pure rfl).toFollows

theorem name (par : Parallel src src' b) :
    Leads b Eq (do return (← expectAnyIdent).1 : Parse String) (do return (← expectAnyIdent).1) :=
  par.ident fun _ _ _ => .pure rfl

theorem parseStateList (par : Parallel src src' b) :
    Leads b Eq Ddl.parseStateList Ddl.parseStateList :=
  par.commaList rfl par.name

/-! ## Guards -/

/-- The same tokens are captured, and the same text. -/
theorem captureGuard (par : Parallel src src' b) :
    Leads b (fun x x' => x'.1.map Token.kind = x.1.map Token.kind ∧ x'.2 = x.2)
      (Ddl.captureGuard src) (Ddl.captureGuard src') := by
  have opening : ∀ {ts taken cut us}, Yields (Ddl.captureGuard src) ts (taken, cut) us →
      ts.current.kind = .when := by
    intro ts taken cut us read
    obtain ⟨_, _, expected, _⟩ := yields_bind.mp read
    exact (yields_expect.mp expected).1
  have same : ∀ t t', b.rel t t' → (!t'.kind.endsGuard) = !t.kind.endsGuard := by
    intro t t' related
    rw [par.kind related]
  have stop : (!b.here.current.kind.endsGuard) = false →
      (!b.there.current.kind.endsGuard) = false := by
    intro ends
    rcases par.border with same | ⟨guard, _⟩
    · rw [same]
      exact ends
    · rw [guard] at ends
      cases ends
  have tokens : Follows b (List.Forall₂ b.rel)
    (many (fun tok => !tok.kind.endsGuard) TokenParser.advance)
      (many (fun tok => !tok.kind.endsGuard) TokenParser.advance : Parse (List Token)) :=
    .many Leads.advance same stop
  have takes : Takes (Ddl.captureGuard src) := by
    rintro ts ⟨taken, cut⟩ us read
    obtain ⟨_, run, bound, _⟩ := (yields_captureGuard (opening read)).mp read
    exact tokens.consumes (yields_many.mpr ⟨run, bound⟩)
  refine ⟨⟨takes.consumes, ?_⟩, takes⟩
  rintro ts ts' ⟨taken, cut⟩ us before read kept
  have begins := opening read
  obtain ⟨inside, run, bound, text, sliced, trimmed⟩ := (yields_captureGuard begins).mp read
  obtain ⟨related, between⟩ := before.advance (kept.trans (takes read))
  obtain ⟨taken', us', run', more, after⟩ :=
    tokens.along between (yields_many.mpr ⟨run, bound⟩) kept
  obtain ⟨items, bound'⟩ := yields_many.mp run'
  have visible : ∀ t ∈ taken, t.kind ≠ .eof := by
    intro t member kind
    have start := run.starts_all t member
    rw [kind] at start
    cases start
  have all := (List.forall₂_and_left _ _).mpr ⟨visible, more⟩
  cases run with
  | nil stop =>
      rw [inside] at stop
      cases stop
  | cons _ took _ =>
      cases items with
      | nil => cases more
      | cons _ took' _ =>
          obtain ⟨rfl, _⟩ := yields_advance.mp took
          obtain ⟨rfl, _⟩ := yields_advance.mp took'
          cases all with
          | cons first later =>
              obtain ⟨shown', place'⟩ := forall₂_getLastD first (.cons first later)
              obtain ⟨shown, place⟩ := first
              have kinds : ∀ {toks toks' : List Token}, List.Forall₂ b.rel toks toks' →
                  toks'.map Token.kind = toks.map Token.kind := by
                intro toks toks' related
                induction related with
                | nil => rfl
                | cons first _ ih => rw [List.map_cons, List.map_cons, par.kind first, ih]
              refine ⟨(_, trim text), us',
                (yields_captureGuard ((par.kind related).trans begins)).mpr
                ⟨?_, (yields_many.mp run').1, bound', text, ?_, rfl⟩,
                  ⟨kinds more, trimmed.symm⟩, after⟩
              · rw [par.kind place]
                exact inside
              · exact par.cut place place' shown shown' sliced

theorem parseGuard (par : Parallel src src' b) :
    Leads b Eq (Ddl.parseGuard src) (Ddl.parseGuard src') := by
  refine par.captureGuard.bind (fun _ => (Follows.pure (b := b) rfl).consumes) ?_
  rintro ⟨tokens, text⟩ ⟨tokens', _⟩ ⟨_, rfl⟩
  exact .pure rfl

theorem parseGuardSpec (par : Parallel src src' b) :
    Leads b Eq (Ddl.parseGuardSpec src) (Ddl.parseGuardSpec src') := by
  refine par.captureGuard.bind ?_ ?_
  · rintro ⟨tokens, text⟩
    dsimp only
    split <;> exact (Follows.pure (b := b) (V := Eq) rfl).consumes
  · rintro ⟨tokens, text⟩ ⟨tokens', text'⟩ ⟨same, rfl⟩
    dsimp only at same ⊢
    rw [same]
    split <;> exact .pure rfl

/-! ## Signals -/

theorem parseActionIds (par : Parallel src src' b) :
    Leads b Eq Ddl.parseActionIds Ddl.parseActionIds := by
  refine par.ident fun first _ _ => (par.while_eq rfl ?_).bind_eq fun actions => .pure rfl
  exact .advance_bind fun _ _ => par.name.toFollows

theorem parseHook (par : Parallel src src' b) (hooks : HookState) :
    Repeats b Eq (Ddl.parseHook hooks) (Ddl.parseHook hooks) := by
  refine par.glance fun t t' alike => .ite ?_ (.again ?_) (.done rfl)
  · rw [alike.test rfl, alike.test rfl, alike.test rfl]
  · refine .advance_bind fun _ _ => (par.expect fun _ _ => ?_).toFollows
    refine par.parseActionIds.toFollows.bind_eq fun ids => ?_
    rcases alike with same | ⟨guard, _⟩
    · rw [same]
      split
      · exact ensure (fun h => h) (.pure rfl)
      · exact ensure (fun h => h) (.pure rfl)
      · exact ensure (fun h => h) (.pure rfl)
      · exact .panic
    · rw [guard]
      exact .panic

theorem parseLifecycleActions (par : Parallel src src' b) :
    Follows b Eq Ddl.parseLifecycleActions Ddl.parseLifecycleActions :=
  .iterate_eq par.parseHook {}

theorem parseFromState (par : Parallel src src' b) (id : String) (states : List String) :
    Follows b Eq (Ddl.parseFromState id states) (Ddl.parseFromState id states) := by
  refine par.test rfl (fun _ _ => ?_) fun _ _ => ?_
  · exact (Leads.advance_bind fun _ _ => .pure rfl).toFollows
  · refine (par.ident fun s _ _ => ?_).toFollows
    refine ensure (fun h => h) ?_
    exact .pure rfl

theorem parseActionBlock (par : Parallel src src' b) :
    Follows b Eq Ddl.parseActionBlock Ddl.parseActionBlock := by
  refine par.test rfl (fun _ _ => ?_) fun _ _ => .pure rfl
  refine (Leads.advance_bind fun _ _ =>
    par.parseLifecycleActions.bind_eq fun actions => ?_).toFollows
  exact (par.expect fun _ _ => .pure rfl).toFollows

theorem parseTransitionGuard (par : Parallel src src' b) :
    Follows b Eq (Ddl.parseTransitionGuard src) (Ddl.parseTransitionGuard src') := by
  refine par.test rfl (fun _ _ => ?_) fun _ _ => .pure rfl
  exact par.parseGuard.toFollows.map fun _ _ same => congrArg some same

theorem parseTransition (par : Parallel src src' b) (id : String) (states : List String) :
    Leads b Eq (Ddl.parseTransition src id states) (Ddl.parseTransition src' id states) := by
  refine par.expect fun _ _ =>
    (par.ident fun event _ _ => (par.expect fun _ _ => ?_).toFollows).toFollows
  refine (par.parseFromState id states).bind_eq fun source => (par.expect fun _ _ => ?_).toFollows
  refine (par.ident fun target _ _ => ensure (fun h => h) ?_).toFollows
  exact par.parseTransitionGuard.bind_eq fun guard =>
    par.parseActionBlock.bind_eq fun actions => .pure rfl

theorem parseSignal (par : Parallel src src' b) {seen seen' : Finset String}
    (fewer : seen' ⊆ seen) :
    Leads b Eq (Ddl.parseSignal src seen) (Ddl.parseSignal src' seen') := by
  refine par.expect fun _ _ =>
    (par.ident fun id _ _ => ensure ?_ (par.expect fun _ _ => ?_).toFollows).toFollows
  · simp only [decide_eq_true_eq]
    exact mt (fun member => fewer member)
  refine (par.expect fun _ _ => (par.expect fun _ _ => ?_).toFollows).toFollows
  refine par.parseStateList.toFollows.bind_eq fun states => (par.expect fun _ _ => ?_).toFollows
  refine (par.expect fun _ _ =>
    (par.ident fun initial _ _ => ensure (fun h => h) ?_).toFollows).toFollows
  refine (par.while_eq rfl (par.parseTransition id states)).bind_eq fun transitions => ?_
  exact (par.expect fun _ _ => .pure rfl).toFollows

/-! ## Brace blocks -/

omit [RustStd] in
/-- A token of a block opens a deeper one, closes one, or lies inside. -/
theorem yields_braceStep {start depth : Nat} {ts us : Tokens Token} {next : Nat ⊕ List Char} :
    Yields (Ddl.braceStep src start depth) ts next us ↔ us = ts.advance ∧
      ((ts.current.kind = .lBrace ∧ next = .inl (depth + 1)) ∨
        (ts.current.kind = .rBrace ∧ ((∃ outer, depth = outer + 2 ∧ next = .inl (outer + 1)) ∨
          depth = 1 ∧ ∃ text, slice src start (ts.current.start + ts.current.len) = some text ∧
            next = .inr text)) ∨
        ((ts.current.kind ≠ .lBrace ∧ ts.current.kind ≠ .rBrace ∧ ts.current.kind ≠ .eof) ∧
          next = .inl depth)) := by
  rw [Ddl.braceStep, peek_bind]
  by_cases opens : ts.current.kind = .lBrace
  · rw [if_pos opens, advance_bind, yields_pure]
    simp [opens, and_comm]
  rw [if_neg opens]
  by_cases closes : ts.current.kind = .rBrace
  · rw [if_pos closes, advance_bind]
    match depth with
    | 0 => simp [closes]
    | 1 =>
        cases sliced : slice src start (ts.current.start + ts.current.len) with
        | none => simp [closes]
        | some text => simp [closes, and_comm]
    | outer + 2 => simp [closes, and_comm]
  rw [if_neg closes]
  by_cases ends : ts.current.kind = .eof
  · simp [ends]
  · rw [if_neg ends, advance_bind, yields_pure]
    simp [opens, closes, ends, and_comm]

omit [RustStd] in
theorem braceStep (par : Parallel src src' b) {t t' : Token} (opening : b.rel t t')
    (brace : t.kind = .lBrace) (depth : Nat) :
    Leads b Eq (Ddl.braceStep src t.start depth) (Ddl.braceStep src' t'.start depth) := by
  have takes : Takes (Ddl.braceStep src t.start depth) := by
    intro ts next us read
    rw [(yields_braceStep.mp read).1]
  refine ⟨⟨takes.consumes, ?_⟩, takes⟩
  intro ts ts' next us before read kept
  obtain ⟨related, after⟩ := before.advance (kept.trans (takes read))
  obtain ⟨rfl, turn⟩ := yields_braceStep.mp read
  refine ⟨next, _, yields_braceStep.mpr ⟨rfl, ?_⟩, rfl, after⟩
  rw [par.kind related]
  obtain opens | ⟨closes, deeper | ⟨last, text, sliced, same⟩⟩ | other := turn
  · exact .inl opens
  · exact .inr (.inl ⟨closes, .inl deeper⟩)
  · refine .inr (.inl ⟨closes, .inr ⟨last, text, ?_, same⟩⟩)
    exact par.cut opening related (by simp [brace]) (by simp [closes]) sliced
  · exact .inr (.inr other)

theorem parseRawBraceBlock (par : Parallel src src' b) :
    Leads b Eq (Ddl.parseRawBraceBlock src) (Ddl.parseRawBraceBlock src') := by
  refine (par.leads_expect .lBrace).bind (fun t => .iterate fun depth => ?_) ?_
  · intro ts next us read
    rw [(yields_braceStep.mp read).1]
    exact ts.advance_suffix
  · rintro t t' ⟨opening, brace⟩
    exact .iterate_eq (fun depth => .again (par.braceStep opening brace depth)) 1

theorem parseGuardDecl (par : Parallel src src' b) {seen seen' : Finset String}
    (fewer : seen' ⊆ seen) :
    Leads b Eq (Ddl.parseGuardDecl src seen) (Ddl.parseGuardDecl src' seen') := by
  refine par.expect fun _ _ => (par.ident fun id _ _ => ensure ?_ ?_).toFollows
  · simp only [decide_eq_true_eq]
    exact mt (fun member => fewer member)
  · exact par.parseRawBraceBlock.toFollows.bind_eq fun raw => .pure rfl

theorem reactionHead (par : Parallel src src' b) :
    Leads b Eq Ddl.reactionHead Ddl.reactionHead := by
  refine par.expect fun _ _ =>
    (par.ident fun fromSignal _ _ => (par.expect fun _ _ => ?_).toFollows).toFollows
  refine (par.ident fun fromState _ _ => (par.expect fun _ _ => ?_).toFollows).toFollows
  refine (par.ident fun toSignal _ _ => (par.ident fun event _ _ => ?_).toFollows).toFollows
  exact .pure rfl

theorem componentHead (par : Parallel src src' b)
    {seen seen' : Finset String} (fewer : seen' ⊆ seen) :
    Leads b Eq (Ddl.componentHead seen) (Ddl.componentHead seen') := by
  refine par.expect fun _ _ => (par.ident fun id _ _ => ?_).toFollows
  refine ensure ?_ (par.expect fun _ _ => ?_).toFollows
  · simp only [decide_eq_true_eq]
    exact mt (fun member => fewer member)
  refine par.test rfl (fun _ _ => (Leads.advance_bind fun _ _ => ?_).toFollows) fun _ _ => .pure rfl
  refine (par.expect fun _ _ => par.parseStateList.toFollows.bind_eq fun params => ?_).toFollows
  exact .pure rfl

end Parallel

/-! ## Reactions -/

theorem isReactionHead_iff {ts : Tokens Token} : isReactionHead ts = true ↔
    ts.current.kind = .when ∧
    (∃ t s, ts.toList[1]? = some t ∧ t.kind = .identifier s) ∧
      ∃ t, ts.toList[2]? = some t ∧ t.kind = .enters := by
  rw [isReactionHead, Bool.and_eq_true, Bool.and_eq_true, decide_eq_true_eq, decide_eq_true_eq,
    and_assoc, Option.map_eq_some_iff]
  refine and_congr_right fun _ => and_congr_left fun _ => ?_
  constructor
  · intro name
    split at name
    · next s kind =>
        obtain ⟨t, found, same⟩ := Option.map_eq_some_iff.mp kind
        exact ⟨t, s, found, same⟩
    · cases name
  · rintro ⟨t, s, found, same⟩
    rw [found, Option.map_some, same]

/-- The first three tokens decide, and a border among them stands in no clause. -/
theorem isReactionHead_along {front front' : List Token} {ts ts' us us' : Tokens Token}
    (split : ts.toList = front ++ us.toList) (split' : ts'.toList = front' ++ us'.toList)
    (related : List.Forall₂ (fun t t' => t'.kind = t.kind) front front')
    (border : us.current.kind.isHead = false ∧ us.current.kind ≠ .when)
    (head : isReactionHead ts = true) : isReactionHead ts' = true := by
  obtain ⟨opening, ⟨second, s, at₁, name⟩, third, at₂, enters⟩ := isReactionHead_iff.mp head
  obtain ⟨current, rest⟩ := ts
  obtain ⟨current', rest'⟩ := ts'
  cases related with
  | nil =>
      cases split
      exact absurd opening border.2
  | cons first related =>
      cases split
      cases split'
      cases related with
      | nil =>
          cases at₁
          rw [name] at border
          cases border.1
      | cons following related =>
          cases at₁
          cases related with
          | nil =>
              cases at₂
              rw [enters] at border
              cases border.1
          | cons last _ =>
              cases at₂
              exact isReactionHead_iff.mpr ⟨first.trans opening, ⟨_, s, rfl, following.trans name⟩,
                _, rfl, last.trans enters⟩

namespace Apart

variable {src src' : List Char} {b : Border Token}

theorem atReactionHead (par : Apart src src' b) :
    Follows b Eq Ddl.atReactionHead Ddl.atReactionHead := by
  constructor
  · intro ts head us read
    rw [(yields_atReactionHead.mp read).2]
  intro ts ts' head us before read _
  obtain ⟨rfl, rfl⟩ := yields_atReactionHead.mp read
  refine ⟨_, ts', yields_atReactionHead.mpr ⟨rfl, rfl⟩, ?_, before⟩
  have border' : b.there.current.kind.isHead = false ∧ b.there.current.kind ≠ .when :=
    ⟨par.border.isHead par.head.1, mt ((@Alike.test _ _ .when par.border rfl).mpr) par.head.2⟩
  obtain ⟨front, front', split, split', related⟩ := before
  rw [Bool.eq_iff_iff]
  constructor
  · exact isReactionHead_along split split' (related.imp fun _ _ => par.kind) par.head
  · exact isReactionHead_along split' split (related.flip.imp fun _ _ same =>
      (par.kind same).symm) border'

variable [RustStd]

theorem parseReactionGuard (par : Apart src src' b) :
    Follows b Eq (Ddl.parseReactionGuard src) (Ddl.parseReactionGuard src') := by
  refine par.peek fun t t' alike => par.atReactionHead.bind_eq fun head => .ite ?_ ?_ (.pure rfl)
  · simp only [Bool.and_eq_true, decide_eq_true_eq,
      alike.test (show TokenKind.when.opensBlock = false from rfl)]
  · exact par.parseGuardSpec.toFollows.map fun _ _ same => congrArg some same

theorem parseReactionPayload (par : Apart src src' b) :
    Follows b Eq (Ddl.parseReactionPayload src) (Ddl.parseReactionPayload src') := by
  refine par.peek fun t t' alike => .ite (alike.test rfl) ?_ (.ite (alike.test rfl) ?_ (.pure rfl))
  · refine (Leads.advance_bind fun _ _ => ?_).toFollows
    exact par.parseRawBraceBlock.toFollows.bind_eq fun block => .pure rfl
  · exact (Leads.advance_bind fun _ _ => (par.expect fun _ _ => .pure rfl).toFollows).toFollows

theorem parseOnFail (par : Apart src src' b) : Follows b Eq Ddl.parseOnFail Ddl.parseOnFail := by
  refine par.test rfl (fun _ _ => (Leads.advance_bind fun _ _ => ?_).toFollows) fun _ _ => .pure rfl
  refine (par.expect fun _ _ => (par.ident fun id _ _ => ?_).toFollows).toFollows
  exact .pure rfl

theorem parseReactionBody (par : Apart src src' b) :
    Leads b Eq (Ddl.parseReactionBody src) (Ddl.parseReactionBody src') := by
  rw [parseReactionBody_eq, parseReactionBody_eq]
  refine par.reactionHead.bind_eq fun head => par.parseReactionGuard.bind_eq fun guard => ?_
  exact par.parseReactionPayload.bind_eq fun payload =>
    par.parseOnFail.bind_eq fun onFail => .pure rfl

theorem parseReactionRaw (par : Apart src src' b) :
    Leads b Eq (Ddl.parseReactionRaw src) (Ddl.parseReactionRaw src') := by
  refine par.expect fun _ _ => (par.expect fun _ _ => ?_).toFollows
  refine par.parseReactionBody.toFollows.bind_eq fun reaction => ?_
  exact (par.expect fun _ _ => .pure rfl).toFollows

theorem parseMembers (par : Apart src src' b) (mark : RawReaction → RawReaction) :
    Follows b Eq (Ddl.parseMembers src mark) (Ddl.parseMembers src' mark) :=
  par.while_eq rfl (par.parseReactionBody.map fun _ _ same => congrArg mark same)

theorem parseForkBlock (par : Apart src src' b) (forkCounter : Nat) :
    Leads b Eq (Ddl.parseForkBlock src forkCounter) (Ddl.parseForkBlock src' forkCounter) := by
  refine par.expect fun _ _ => (par.expect fun _ _ => ?_).toFollows
  refine (par.parseMembers _).bind_eq fun reactions => ?_
  exact (par.expect fun _ _ => .pure rfl).toFollows

theorem parseJoinBlock (par : Apart src src' b) :
    Leads b Eq (Ddl.parseJoinBlock src) (Ddl.parseJoinBlock src') := by
  refine par.expect fun _ _ =>
    (par.ident fun group _ _ => (par.expect fun _ _ => ?_).toFollows).toFollows
  refine (par.parseMembers _).bind_eq fun reactions => ?_
  exact (par.expect fun _ _ => .pure rfl).toFollows

/-! ## Components and instances -/

theorem parsePort (par : Apart src src' b) : Leads b Eq Ddl.parsePort Ddl.parsePort := by
  refine par.expect fun _ _ => (par.ident fun dir _ _ => ?_).toFollows
  refine Follows.bind_eq ?_ fun direction => (par.ident fun signal _ _ => ?_).toFollows
  · split
    · exact .pure rfl
    · exact .pure rfl
    · exact .pure rfl
    · exact .fail
  · refine (par.expect fun _ _ => (par.ident fun state _ _ => ?_).toFollows).toFollows
    refine par.test rfl (fun _ _ => ?_) fun _ _ => .pure rfl
    refine (Leads.advance_bind fun _ _ => (par.ident fun name _ _ => ?_).toFollows).toFollows
    exact .pure rfl

theorem componentStep (par : Apart src src' b) (id : String) (body : BodyState) :
    Repeats b Eq (Ddl.componentStep src id body) (Ddl.componentStep src' id body) := by
  refine par.glance fun t t' alike => ?_
  rcases alike with same | ⟨guard, _⟩
  · rw [same]
    split
    · exact .again (par.parsePort.bind_eq fun port => .pure rfl)
    · exact .again ((par.parseSignal (Finset.Subset.refl _)).bind_eq fun signal => .pure rfl)
    · exact .again (par.parseReactionRaw.bind_eq fun reaction => .pure rfl)
    · exact .again (.advance_bind fun _ _ => .pure rfl)
    all_goals exact .fail
  · rw [guard]
    exact .fail

theorem parseComponent (par : Apart src src' b) {seen seen' : Finset String}
    (fewer : seen' ⊆ seen) :
    Leads b Eq (Ddl.parseComponent src seen) (Ddl.parseComponent src' seen') := by
  rw [parseComponent_eq, parseComponent_eq]
  refine (par.componentHead fewer).bind_eq fun head => ?_
  exact (Follows.iterate_eq (par.componentStep head.1) {}).bind_eq fun body => .pure rfl

theorem parseArrowPair (par : Apart src src' b) :
    Leads b Eq Ddl.parseArrowPair Ddl.parseArrowPair := by
  refine par.ident fun left _ _ =>
    (par.expect fun _ _ => (par.ident fun right _ _ => ?_).toFollows).toFollows
  exact .pure rfl

theorem parseBindingMap (par : Apart src src' b) :
    Leads b Eq Ddl.parseBindingMap Ddl.parseBindingMap :=
  (par.commaList rfl par.parseArrowPair).bind_eq fun _ => .pure rfl

theorem parseConnectionMap (par : Apart src src' b) :
    Leads b Eq Ddl.parseConnectionMap Ddl.parseConnectionMap :=
  (par.commaList rfl par.parseArrowPair).bind_eq fun _ => .pure rfl

theorem parseInstantiate (par : Apart src src' b) :
    Leads b Eq Ddl.parseInstantiate Ddl.parseInstantiate := by
  refine par.expect fun _ _ =>
    (par.ident fun component _ _ => (par.expect fun _ _ => ?_).toFollows).toFollows
  refine (par.ident fun name _ _ => (par.expect fun _ _ => ?_).toFollows).toFollows
  refine par.parseBindingMap.toFollows.bind_eq fun bindings =>
    par.test rfl (fun _ _ => ?_) fun _ _ => .pure rfl
  refine (Leads.advance_bind fun _ _ => ?_).toFollows
  exact par.parseConnectionMap.toFollows.bind_eq fun connections => .pure rfl

end Apart

end SignalTopology.Ddl
