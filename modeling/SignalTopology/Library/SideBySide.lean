import Mathlib.Data.List.Forall2
import SignalTopology.Library.TokenParser

/-!
# Two parsers side by side

A parser that takes tokens from the front of its stream sees nothing of what lies
behind them. `Follows` makes this precise for two parsers and two streams: the
streams hold related tokens up to a border, and as long as a run of the first parser
stays in front of the border, the second parser runs along with it. The rules follow
the way a parser is put together.
-/

namespace TokenParser

variable {τ ε α α' β β' σ σ' ρ ρ' : Type}

/-! ## Taking tokens from the front -/

/-- What the parser leaves is an end of what it was given. -/
def Consumes (p : Parser τ ε α) : Prop :=
  ∀ ⦃ts a us⦄, Yields p ts a us → us.toList <:+ ts.toList

/-- The parser takes the current token, if another one follows it. -/
def Takes (p : Parser τ ε α) : Prop :=
  ∀ ⦃ts a us⦄, Yields p ts a us → us.toList <:+ ts.advance.toList

namespace Tokens

variable {ts us : Tokens τ}

theorem toList_ne_nil (ts : Tokens τ) : ts.toList ≠ [] := List.cons_ne_nil _ _

theorem toList_length (ts : Tokens τ) : ts.toList.length = ts.rest.length + 1 := rfl

theorem advance_suffix (ts : Tokens τ) : ts.advance.toList <:+ ts.toList := by
  obtain ⟨current, _ | ⟨next, rest⟩⟩ := ts
  · exact List.suffix_refl _
  · exact List.suffix_cons current (next :: rest)

/-- A token is left for good, unless it is the last one. -/
theorem advance_length (more : ts.rest ≠ []) :
    ts.advance.toList.length + 1 = ts.toList.length := by
  rw [← rest_eq more]
  rfl

theorem advance_of_last (last : ts.rest = []) : ts.advance = ts := by
  obtain ⟨current, rest⟩ := ts
  cases last
  rfl

end Tokens

section

variable {p : Parser τ ε α} {f : α → Parser τ ε β}

theorem Consumes.bind (first : Consumes p) (second : ∀ a, Consumes (f a)) : Consumes (p >>= f) := by
  intro ts b vs h
  obtain ⟨a, us, left, right⟩ := yields_bind.mp h
  exact (second a right).trans (first left)

theorem Takes.consumes (h : Takes p) : Consumes p := by
  intro ts a us read
  exact (h read).trans ts.advance_suffix

theorem Takes.bind (first : Takes p) (second : ∀ a, Consumes (f a)) : Takes (p >>= f) := by
  intro ts b vs h
  obtain ⟨a, us, left, right⟩ := yields_bind.mp h
  exact (second a right).trans (first left)

theorem Takes.map {g : α → β} (first : Takes p) : Takes (g <$> p) := by
  intro ts b us h
  obtain ⟨a, read, _⟩ := yields_map.mp h
  exact first read

theorem takes_advance : Takes (advance : Parser τ ε τ) := by
  intro ts t us h
  obtain ⟨_, rfl⟩ := yields_advance.mp h
  exact List.suffix_refl _

variable {body : σ → Parser τ ε (σ ⊕ ρ)} {s : σ}

theorem Iterates.suffix {n : Nat} {ts us : Tokens τ} {r : ρ} (consumes : ∀ s, Consumes (body s))
    (run : Iterates body n s ts r us) : us.toList <:+ ts.toList := by
  induction run with
  | done last => exact consumes _ last
  | step first _ ih => exact ih.trans (consumes _ first)

theorem Consumes.iterate (consumes : ∀ s, Consumes (body s)) : Consumes (iterate body s) := by
  intro ts r us h
  obtain ⟨n, _, run⟩ := yields_iterate.mp h
  exact run.suffix consumes

theorem Consumes.manyStep {starts : τ → Bool} {items : List α} (consumes : Consumes p) :
    Consumes (manyStep starts p items) := by
  intro ts next us h
  obtain ⟨_, _, read, _⟩ | ⟨_, _, rfl⟩ := yields_manyStep.mp h
  · exact consumes read
  · exact List.suffix_refl _

/-- A loop that does not come to the last token repeats its body at most once for each
token it takes. -/
theorem Iterates.bound {n : Nat} {ts us : Tokens τ} {r : ρ} (consumes : ∀ s, Consumes (body s))
    (steady : ∀ ⦃s ts s' us⦄, Yields (body s) ts (.inl s') us → us.toList <:+ ts.advance.toList)
    (run : Iterates body n s ts r us) (more : us.rest ≠ []) :
    n + us.toList.length ≤ ts.toList.length := by
  induction run with
  | done last =>
      rw [Nat.zero_add]
      exact (consumes _ last).length_le
  | @step n s s' ts ts' us r first later ih =>
      have taken := (steady first).length_le
      have left : ts.rest ≠ [] := by
        intro none_left
        have short := ((later.suffix consumes).trans (consumes _ first)).length_le
        have some_left := List.length_pos_of_ne_nil more
        rw [Tokens.toList_length, Tokens.toList_length, none_left, List.length_nil] at short
        omega
      have length := Tokens.advance_length left
      have rest := ih more
      omega

end

/-! ## Borders -/

/-- A place in each of two streams, and how the tokens before them are related. At the
last token both streams end. -/
structure Border (τ : Type) where
  rel : τ → τ → Prop
  here : Tokens τ
  there : Tokens τ
  last : here.rest = [] → there.rest = [] ∧ rel here.current there.current

namespace Border

variable (b : Border τ)

/-- The streams hold related tokens up to the border. -/
def Before (ts ts' : Tokens τ) : Prop :=
  ∃ front front', ts.toList = front ++ b.here.toList ∧ ts'.toList = front' ++ b.there.toList ∧
    List.Forall₂ b.rel front front'

/-- The tokens that the two parsers can see at once. -/
def Peeked (t t' : τ) : Prop := b.rel t t' ∨ (t = b.here.current ∧ t' = b.there.current)

variable {b} {ts ts' us : Tokens τ}

theorem before_border : b.Before b.here b.there := ⟨[], [], rfl, rfl, .nil⟩

/-- At the border the other stream stands at its border. -/
theorem Before.at_border (h : b.Before b.here ts') : ts' = b.there := by
  obtain ⟨front, front', split, split', related⟩ := h
  obtain rfl : front = [] := List.self_eq_append_left.mp split
  cases related
  exact Tokens.toList_inj split'

/-- Either both streams stand at the border, or their current tokens are related and
the streams after them lie before the border. -/
theorem Before.cases (h : b.Before ts ts') : (ts = b.here ∧ ts' = b.there) ∨
    (b.rel ts.current ts'.current ∧ b.Before ts.advance ts'.advance ∧ ts.rest ≠ []) := by
  obtain ⟨front, front', split, split', related⟩ := h
  cases related with
  | nil => exact .inl ⟨Tokens.toList_inj split, Tokens.toList_inj split'⟩
  | @cons t t' front front' same related =>
      obtain ⟨current, rest⟩ := ts
      obtain ⟨current', rest'⟩ := ts'
      obtain ⟨rfl, tail⟩ := List.cons.inj split
      obtain ⟨rfl, tail'⟩ := List.cons.inj split'
      dsimp only at tail tail'
      have more : rest ≠ [] := by
        rw [tail]
        exact List.append_ne_nil_of_right_ne_nil _ b.here.toList_ne_nil
      have more' : rest' ≠ [] := by
        rw [tail']
        exact List.append_ne_nil_of_right_ne_nil _ b.there.toList_ne_nil
      refine .inr ⟨same, ⟨front, front', ?_, ?_, related⟩, more⟩
      · exact (@Tokens.rest_eq _ ⟨current, rest⟩ more).symm.trans tail
      · exact (@Tokens.rest_eq _ ⟨current', rest'⟩ more').symm.trans tail'

theorem Before.peeked (h : b.Before ts ts') : b.Peeked ts.current ts'.current := by
  obtain ⟨rfl, rfl⟩ | ⟨related, _⟩ := h.cases
  · exact .inr ⟨rfl, rfl⟩
  · exact .inl related

/-- A step that does not leave the border behind stays with the other stream. -/
theorem Before.advance (h : b.Before ts ts') (kept : b.here.toList <:+ ts.advance.toList) :
    b.rel ts.current ts'.current ∧ b.Before ts.advance ts'.advance := by
  obtain ⟨rfl, rfl⟩ | ⟨related, after, _⟩ := h.cases
  · have last : b.here.rest = [] := by
      by_contra more
      have length := Tokens.advance_length more
      have short := kept.length_le
      omega
    obtain ⟨last', related⟩ := b.last last
    rw [Tokens.advance_of_last last, Tokens.advance_of_last last']
    exact ⟨related, before_border⟩
  · exact ⟨related, after⟩

theorem Before.length (h : b.Before ts ts') :
    ts.toList.length + b.there.toList.length = ts'.toList.length + b.here.toList.length := by
  obtain ⟨front, front', split, split', related⟩ := h
  have same := related.length_eq
  rw [split, split', List.length_append, List.length_append]
  omega

end Border

/-! ## Runs side by side -/

/-- As long as a run of `p` stays before the border, `p'` runs along with it, to a
related result. -/
structure Follows (b : Border τ) (V : α → α' → Prop) (p : Parser τ ε α) (p' : Parser τ ε α') :
    Prop where
  consumes : Consumes p
  along : ∀ ⦃ts ts' a us⦄, b.Before ts ts' → Yields p ts a us → b.here.toList <:+ us.toList →
    ∃ a' us', Yields p' ts' a' us' ∧ V a a' ∧ b.Before us us'

/-- The same for a parser that takes the current token. -/
structure Leads (b : Border τ) (V : α → α' → Prop) (p : Parser τ ε α) (p' : Parser τ ε α') : Prop
    extends Follows b V p p' where
  takes : Takes p

/-- The same for one repetition of a loop: it takes the current token, or is the last. -/
structure Repeats (b : Border τ) (V : σ ⊕ ρ → σ' ⊕ ρ' → Prop) (p : Parser τ ε (σ ⊕ ρ))
    (p' : Parser τ ε (σ' ⊕ ρ')) : Prop extends Follows b V p p' where
  steady : ∀ ⦃ts s us⦄, Yields p ts (.inl s) us → us.toList <:+ ts.advance.toList

namespace Follows

variable {b : Border τ} {V V' : α → α' → Prop} {W : β → β' → Prop}
variable {p : Parser τ ε α} {p' : Parser τ ε α'}
variable {f : α → Parser τ ε β} {f' : α' → Parser τ ε β'}

theorem pure {a : α} {a' : α'} (related : V a a') :
    Follows b V (pure a : Parser τ ε α) (pure a' : Parser τ ε α') := by
  constructor
  · intro ts x us read
    obtain ⟨_, rfl⟩ := yields_pure.mp read
    exact List.suffix_refl _
  · intro ts ts' x us before read _
    obtain ⟨rfl, rfl⟩ := yields_pure.mp read
    exact ⟨a', ts', yields_pure.mpr ⟨rfl, rfl⟩, related, before⟩

theorem fail {e : ε} : Follows b V (TokenParser.fail e) p' where
  consumes _ _ _ read := absurd read not_yields_fail
  along _ _ _ _ _ read _ := absurd read not_yields_fail

theorem panic : Follows b V TokenParser.panic p' where
  consumes _ _ _ read := absurd read not_yields_panic
  along _ _ _ _ _ read _ := absurd read not_yields_panic

theorem ensure {condition condition' : Bool} {e e' : ε}
    (implied : condition = true → condition' = true) :
    Follows b (fun _ _ => True) (ensure condition e) (TokenParser.ensure condition' e') := by
  constructor
  · intro ts u us read
    obtain ⟨_, rfl⟩ := yields_ensure.mp read
    exact List.suffix_refl _
  · intro ts ts' u us before read _
    obtain ⟨holds, rfl⟩ := yields_ensure.mp read
    exact ⟨(), ts', yields_ensure.mpr ⟨implied holds, rfl⟩, trivial, before⟩

/-- A look at the current token, where `V` is all that the parsers see of it. -/
theorem peek {V : τ → τ → Prop} (seen : ∀ t t', b.Peeked t t' → V t t') :
    Follows b V (peek : Parser τ ε τ) TokenParser.peek := by
  constructor
  · intro ts t us read
    obtain ⟨_, rfl⟩ := yields_peek.mp read
    exact List.suffix_refl _
  · intro ts ts' t us before read _
    obtain ⟨rfl, rfl⟩ := yields_peek.mp read
    exact ⟨ts'.current, ts', yields_peek.mpr ⟨rfl, rfl⟩, seen _ _ before.peeked, before⟩

theorem mono (h : Follows b V p p') (weaker : ∀ a a', V a a' → V' a a') : Follows b V' p p' where
  consumes := h.consumes
  along := by
    intro ts ts' a us before read kept
    obtain ⟨a', us', read', related, after⟩ := h.along before read kept
    exact ⟨a', us', read', weaker a a' related, after⟩

theorem bind (first : Follows b V p p') (rest : ∀ a, Consumes (f a))
    (second : ∀ a a', V a a' → Follows b W (f a) (f' a')) : Follows b W (p >>= f) (p' >>= f') := by
  refine ⟨first.consumes.bind rest, ?_⟩
  intro ts ts' x vs before read kept
  obtain ⟨a, us, left, right⟩ := yields_bind.mp read
  obtain ⟨a', us', left', related, between⟩ := first.along before left (kept.trans (rest a right))
  obtain ⟨x', vs', right', related', after⟩ := (second a a' related).along between right kept
  exact ⟨x', vs', left'.bind right', related', after⟩

/-- Two parsers with the same result go on alike. -/
theorem bind_eq {p' : Parser τ ε α} {f' : α → Parser τ ε β'} (first : Follows b Eq p p')
    (second : ∀ a, Follows b W (f a) (f' a)) : Follows b W (p >>= f) (p' >>= f') := by
  refine first.bind (fun a => (second a).consumes) ?_
  rintro a _ rfl
  exact second a

theorem map {g : α → β} {g' : α' → β'} (h : Follows b V p p')
    (related : ∀ a a', V a a' → W (g a) (g' a')) : Follows b W (g <$> p) (g' <$> p') := by
  constructor
  · intro ts x us read
    obtain ⟨a, inner, _⟩ := yields_map.mp read
    exact h.consumes inner
  · intro ts ts' x us before read kept
    obtain ⟨a, inner, rfl⟩ := yields_map.mp read
    obtain ⟨a', us', inner', same, after⟩ := h.along before inner kept
    exact ⟨g' a', us', yields_map.mpr ⟨a', inner', rfl⟩, related a a' same, after⟩

theorem ite {c c' : Prop} [Decidable c] [Decidable c'] {q : Parser τ ε α} {q' : Parser τ ε α'}
    (same : c ↔ c') (yes : Follows b V p p') (no : Follows b V q q') :
    Follows b V (if c then p else q) (if c' then p' else q') := by
  by_cases holds : c
  · rw [if_pos holds, if_pos (same.mp holds)]
    exact yes
  · rw [if_neg holds, if_neg (mt same.mpr holds)]
    exact no

end Follows

namespace Leads

variable {b : Border τ} {V : α → α' → Prop} {W : β → β' → Prop}
variable {p : Parser τ ε α} {p' : Parser τ ε α'}
variable {f : α → Parser τ ε β} {f' : α' → Parser τ ε β'}

theorem advance : Leads b b.rel (advance : Parser τ ε τ) TokenParser.advance where
  consumes := takes_advance.consumes
  takes := takes_advance
  along := by
    intro ts ts' t us before read kept
    obtain ⟨rfl, rfl⟩ := yields_advance.mp read
    obtain ⟨related, after⟩ := before.advance kept
    exact ⟨_, _, yields_advance.mpr ⟨rfl, rfl⟩, related, after⟩

theorem bind (first : Leads b V p p') (rest : ∀ a, Consumes (f a))
    (second : ∀ a a', V a a' → Follows b W (f a) (f' a')) : Leads b W (p >>= f) (p' >>= f') :=
  ⟨first.toFollows.bind rest second, first.takes.bind rest⟩

theorem bind_eq {p' : Parser τ ε α} {f' : α → Parser τ ε β'} (first : Leads b Eq p p')
    (second : ∀ a, Follows b W (f a) (f' a)) : Leads b W (p >>= f) (p' >>= f') :=
  ⟨first.toFollows.bind_eq second, first.takes.bind fun a => (second a).consumes⟩

theorem advance_bind {g : τ → Parser τ ε β} {g' : τ → Parser τ ε β'}
    (next : ∀ t t', Follows b W (g t) (g' t')) :
    Leads b W (TokenParser.advance >>= g) (TokenParser.advance >>= g') :=
  advance.bind (fun t => (next t t).consumes) fun t t' _ => next t t'

theorem map {g : α → β} {g' : α' → β'} (h : Leads b V p p')
    (related : ∀ a a', V a a' → W (g a) (g' a')) : Leads b W (g <$> p) (g' <$> p') :=
  ⟨h.toFollows.map related, h.takes.map⟩

end Leads

/-! ## Loops side by side -/

namespace Repeats

variable {b : Border τ} {V V' : σ ⊕ ρ → σ' ⊕ ρ' → Prop}
variable {p q : Parser τ ε (σ ⊕ ρ)} {p' q' : Parser τ ε (σ' ⊕ ρ')}

theorem again (h : Leads b V p p') : Repeats b V p p' :=
  ⟨h.toFollows, fun _ _ _ read => h.takes read⟩

theorem done {r : ρ} {r' : ρ'} (related : V (.inr r) (.inr r')) :
    Repeats b V (pure (.inr r) : Parser τ ε (σ ⊕ ρ)) (pure (.inr r') : Parser τ ε (σ' ⊕ ρ')) := by
  refine ⟨.pure related, ?_⟩
  intro ts s us read
  cases (yields_pure.mp read).1

theorem fail {e : ε} : Repeats b V (TokenParser.fail e) p' :=
  ⟨.fail, fun _ _ _ read => absurd read not_yields_fail⟩

theorem ite {c c' : Prop} [Decidable c] [Decidable c'] (same : c ↔ c') (yes : Repeats b V p p')
    (no : Repeats b V q q') : Repeats b V (if c then p else q) (if c' then p' else q') := by
  by_cases holds : c
  · rw [if_pos holds, if_pos (same.mp holds)]
    exact yes
  · rw [if_neg holds, if_neg (mt same.mpr holds)]
    exact no

theorem peek_bind {W : τ → τ → Prop} {g : τ → Parser τ ε (σ ⊕ ρ)} {g' : τ → Parser τ ε (σ' ⊕ ρ')}
    (seen : ∀ t t', b.Peeked t t' → W t t') (refl : ∀ t, W t t)
    (next : ∀ t t', W t t' → Repeats b V (g t) (g' t')) :
    Repeats b V (peek >>= g) (peek >>= g') := by
  have follows := (Follows.peek (ε := ε) seen).bind (fun t => (next t t (refl t)).consumes)
    fun t t' related => (next t t' related).toFollows
  refine ⟨follows, ?_⟩
  intro ts s us read
  exact (next _ _ (refl _)).steady ((Yields.bind_iff (yields_peek.mpr ⟨rfl, rfl⟩)).mp read)

end Repeats

namespace Follows

section

variable {b : Border τ} {VS : σ → σ' → Prop} {VR : ρ → ρ' → Prop}
variable {body : σ → Parser τ ε (σ ⊕ ρ)} {body' : σ' → Parser τ ε (σ' ⊕ ρ')}

theorem iterates (rest : ∀ s, Consumes (body s))
    (step : ∀ s s', VS s s' → Follows b (Sum.LiftRel VS VR) (body s) (body' s')) {n : Nat} {s : σ}
    {s' : σ'} {ts ts' us : Tokens τ} {r : ρ} (run : Iterates body n s ts r us) (start : VS s s')
    (before : b.Before ts ts') (kept : b.here.toList <:+ us.toList) :
    ∃ r' us', Iterates body' n s' ts' r' us' ∧ VR r r' ∧ b.Before us us' := by
  induction run generalizing s' ts' with
  | done last =>
      obtain ⟨_, us', read, ⟨⟩ | related, after⟩ := (step _ _ start).along before last kept
      exact ⟨_, us', .done read, related, after⟩
  | step first later ih =>
      obtain ⟨_, _, read, related | ⟨⟩, between⟩ :=
        (step _ _ start).along before first (kept.trans (later.suffix rest))
      obtain ⟨r', us', run, same, after⟩ := ih related between kept
      exact ⟨r', us', .step read run, same, after⟩

/-- A loop that takes a token in every repetition has fuel for the run beside it. -/
theorem iterate (rest : ∀ s, Consumes (body s))
    (steady : ∀ ⦃s ts s' us⦄, Yields (body s) ts (.inl s') us → us.toList <:+ ts.advance.toList)
    (step : ∀ s s', VS s s' → Follows b (Sum.LiftRel VS VR) (body s) (body' s')) {s : σ} {s' : σ'}
    (start : VS s s') : Follows b VR (iterate body s) (TokenParser.iterate body' s') := by
  refine ⟨.iterate rest, ?_⟩
  intro ts ts' r us before read kept
  obtain ⟨n, bound, run⟩ := yields_iterate.mp read
  obtain ⟨r', us', run', same, after⟩ := iterates rest step run start before kept
  refine ⟨r', us', yields_iterate.mpr ⟨n, ?_, run'⟩, same, after⟩
  have length := before.length
  simp only [Tokens.toList_length] at length
  by_cases last : b.here.rest = []
  · rw [last, List.length_nil] at length
    omega
  · have some_left := List.length_pos_of_ne_nil last
    have left : us.rest ≠ [] := by
      intro none_left
      have short := kept.length_le
      simp only [Tokens.toList_length, none_left, List.length_nil] at short
      omega
    have steps := run.bound rest steady left
    have short := kept.length_le
    simp only [Tokens.toList_length] at steps short
    omega

/-- A loop whose repetitions have equal outcomes. -/
theorem iterate_eq {body' : σ → Parser τ ε (σ ⊕ ρ)} (step : ∀ s, Repeats b Eq (body s) (body' s))
    (s : σ) : Follows b Eq (TokenParser.iterate body s) (TokenParser.iterate body' s) := by
  refine iterate (fun s => (step s).consumes) (fun s _ _ _ read => (step s).steady read)
    (fun s s' same => ?_) (Eq.refl s)
  subst same
  refine (step s).toFollows.mono ?_
  rintro (s | r) _ rfl
  · exact .inl rfl
  · exact .inr rfl

end

section

variable {b : Border τ} {V : α → α' → Prop} {starts starts' : τ → Bool}
variable {item : Parser τ ε α} {item' : Parser τ ε α'}

/-- The first hypothesis on the tokens is about those before the border, the second
about a repetition that ends there. -/
theorem many (each : Leads b V item item') (same : ∀ t t', b.rel t t' → starts' t' = starts t)
    (stop : starts b.here.current = false → starts' b.there.current = false) :
    Follows b (List.Forall₂ V) (many starts item) (TokenParser.many starts' item') := by
  suffices step : ∀ items items', List.Forall₂ V items items' →
      Follows b (Sum.LiftRel (List.Forall₂ V) (List.Forall₂ V)) (manyStep starts item items)
        (manyStep starts' item' items') by
    refine iterate (fun _ => each.consumes.manyStep) ?_ step .nil
    intro items ts next us read
    obtain ⟨_, _, inner, _⟩ | ⟨_, other, _⟩ := yields_manyStep.mp read
    · exact each.takes inner
    · cases other
  intro items items' related
  refine ⟨each.consumes.manyStep, ?_⟩
  intro ts ts' next us before read kept
  obtain ⟨start, x, inner, rfl⟩ | ⟨past, rfl, rfl⟩ := yields_manyStep.mp read
  · obtain ⟨inside, _⟩ := before.advance (kept.trans (each.takes inner))
    obtain ⟨x', us', inner', same', after⟩ := each.along before inner kept
    refine ⟨.inl (items' ++ [x']), us', ?_,
      .inl (List.rel_append related (.cons same' .nil)), after⟩
    exact yields_manyStep.mpr (.inl ⟨(same _ _ inside).trans start, x', inner', rfl⟩)
  · refine ⟨.inr items', ts', yields_manyStep.mpr (.inr ⟨?_, rfl, rfl⟩), .inr related, before⟩
    obtain ⟨rfl, rfl⟩ | ⟨inside, _⟩ := before.cases
    · exact stop past
    · exact (same _ _ inside).trans past

theorem many_eq {item' : Parser τ ε α} (each : Leads b Eq item item')
    (same : ∀ t t', b.rel t t' → starts' t' = starts t)
    (stop : starts b.here.current = false → starts' b.there.current = false) :
    Follows b Eq (TokenParser.many starts item) (TokenParser.many starts' item') := by
  refine (many each same stop).mono fun xs xs' related => ?_
  rw [List.forall₂_eq_eq_eq] at related
  exact related

end

end Follows

end TokenParser
