import SignalTopology.Ddl.Declared
import SignalTopology.Ddl.Sweep

/-!
# Names in compiled schemas

A name of the language is one word of a source. So no state of a compiled schema is
the wildcard, and none holds a reference that the expansion of a component would
replace.
-/

namespace SignalTopology.Ddl

open Fallible TokenParser

/-! ## Texts without references -/

section

variable {cs : List Char}

theorem findOpen_plain (plain : '$' ∉ cs) : findOpen cs = none := by
  fun_induction findOpen cs with
  | case1 rest => simp at plain
  | case2 c rest _ ih =>
      rw [ih fun member => plain (List.mem_cons_of_mem c member)]
      rfl
  | case3 => rfl

/-- A text without a dollar sign is not changed. -/
theorem subst_plain {s : String} (plain : '$' ∉ s.toList) (bound : HashMap String) :
    subst s bound = s := by
  have opened := findOpen_plain plain
  rw [subst, substChars]
  split
  · rw [String.ofList_toList]
  · next found =>
      rw [opened] at found
      cases found

end

/-! ## Words of a source -/

variable [RustStd]

/-- A character that no word holds. -/
def Foreign (c : Char) : Prop :=
  c.toNat < 128 ∧ (c.isAlpha || c.isDigit || decide (c = '_')) = false

theorem IsWord.not_mem {s : String} {c : Char} (h : IsWord s) (foreign : Foreign c) :
    c ∉ s.toList := by
  intro member
  have word := h.all c member
  rw [isWordChar_ascii foreign.1, foreign.2] at word
  cases word

theorem IsWord.subst {s : String} (h : IsWord s) (bound : HashMap String) : subst s bound = s :=
  subst_plain (h.not_mem ⟨by decide, by decide⟩) bound

/-- Every identifier among the tokens is a word. -/
def Named (toks : List Token) : Prop := ∀ t ∈ toks, ∀ s, t.kind = .identifier s → IsWord s

omit [RustStd] in
/-- An identifier is its own text. -/
theorem wordKind_identifier {run : List Char} {s : String} (h : wordKind run = .identifier s) :
    s = String.ofList run := by
  unfold wordKind at h
  split at h <;> cases h
  rfl

omit [RustStd] in
theorem numberKind_identifier {run : List Char} {s : String} :
    numberKind run ≠ .ok (.identifier s) := by
  intro h
  unfold numberKind at h
  split at h
  · cases h
  · split at h
    · cases h
    · split at h <;> cases h

omit [RustStd] in
theorem symbol_identifier {c : Char} {cs rest text : List Char} {s : String} :
    symbol c cs ≠ .ok ⟨.identifier s, text, rest⟩ := by
  intro h
  unfold symbol at h
  split at h
  · next kind pair =>
      cases h
      cases cs with
      | nil => cases pair
      | cons d ds =>
          simp only [List.head?_cons, Option.bind_some, pairKind] at pair
          split at pair <;> cases pair
  · split at h
    · next kind single =>
        cases h
        unfold singleKind at single
        split at single <;> cases single
    · cases h

theorem nextLexeme_named {c : Char} {cs : List Char} {lexeme : Lexeme} {s : String}
    (h : nextLexeme c cs = .ok lexeme) (kind : lexeme.kind = .identifier s) : IsWord s := by
  obtain ⟨_, _, _, _, other⟩ | ⟨_, _, _, _, number⟩ | ⟨_, _, alphabetic, text, _, word⟩ |
    ⟨_, _, _, read⟩ := nextLexeme_cases h
  · rw [kind] at other
    cases other
  · rw [kind] at number
    exact absurd number numberKind_identifier
  · rw [kind] at word
    rw [wordKind_identifier word.symm, text]
    constructor
    · rw [String.toList_ofList, List.takeWhile_cons_of_pos (isWordChar_of_alphabetic alphabetic)]
      exact ⟨c, rfl, alphabetic⟩
    · intro d member
      rw [String.toList_ofList] at member
      exact List.mem_takeWhile_imp member
  · obtain ⟨_, _, _⟩ := lexeme
    dsimp only at kind
    subst kind
    exact absurd read symbol_identifier

theorem Named.suffix {toks toks' : List Token} (h : Named toks) (inside : toks' <:+ toks) :
    Named toks' :=
  fun t member => h t (inside.subset member)

theorem Lexes.named {cur cur' : Cursor} {cs rest : List Char} {toks : List Token}
    (lexes : Lexes cur cs toks cur' rest) : Named toks := by
  induction lexes with
  | refl =>
      intro t member
      cases member
  | @step cur _ c cs _ turn toks first _ ih =>
      intro t member s kind
      rcases List.mem_append.mp member with own | later
      · obtain ⟨lexeme, read, rfl⟩ := lexStep_token first (Option.mem_toList.mp own)
        obtain rfl := Option.some.inj (Option.mem_toList.mp own)
        exact nextLexeme_named read kind
      · exact ih t later s kind

theorem named_of_tokenize {src : String} {toks : List Token} (h : tokenize src = .ok toks) :
    Named toks := by
  obtain ⟨body, cur, lexes, rfl⟩ := lexes_of_tokenize h
  intro t member s kind
  rcases List.mem_append.mp member with inside | last
  · exact lexes.named t inside s kind
  · rw [List.mem_singleton.mp last] at kind
    cases kind

/-! ## States of a document -/

/-- Every state of the signal is a word. -/
def SignalDecl.Worded (sig : SignalDecl) : Prop := ∀ s ∈ sig.states, IsWord s

section

variable {src : List Char} {ts us : Tokens Token}

theorem Named.ident {s : String} {tok : Token} (h : Named ts.toList)
    (read : Yields expectAnyIdent ts (s, tok) us) : IsWord s :=
  h ts.current List.mem_cons_self s (yields_expectAnyIdent.mp read).1

/-- The items of a list, of which the first are already read. -/
theorem Named.commaItems {closing : TokenKind} {items all : List String} {n : Nat}
    (named : Named ts.toList) (words : ∀ s ∈ items, IsWord s)
    (run : Iterates (commaItem closing (do return (← expectAnyIdent).1)) n items ts all us) :
    ∀ s ∈ all, IsWord s := by
  induction run with
  | done last =>
      rw [commaItem, peek_bind] at last
      split at last
      · rw [advance_bind, peek_bind] at last
        split at last
        · cases (yields_pure.mp last).1
          exact words
        · obtain ⟨_, _, _, last⟩ := yields_bind.mp last
          cases (yields_pure.mp last).1
      · cases (yields_pure.mp last).1
        exact words
  | @step _ items items' ts ts' _ _ turn _ ih =>
      rw [commaItem, peek_bind] at turn
      split at turn
      · rw [advance_bind, peek_bind] at turn
        split at turn
        · cases (yields_pure.mp turn).1
        · obtain ⟨next, _, read, turn⟩ := yields_bind.mp turn
          obtain ⟨⟨s, tok⟩, _, name, read⟩ := yields_bind.mp read
          obtain ⟨rfl, rfl⟩ := yields_pure.mp read
          obtain ⟨same, rfl⟩ := yields_pure.mp turn
          cases same
          have behind := named.suffix ts.advance_suffix
          have taken : ts'.toList <:+ ts.advance.toList := by
            rw [(yields_expectAnyIdent.mp name).2.2]
            exact ts.advance.advance_suffix
          refine ih (behind.suffix taken) ?_
          intro state member
          rcases List.mem_append.mp member with earlier | last
          · exact words state earlier
          · rw [List.mem_singleton.mp last]
            exact behind.ident name
      · cases (yields_pure.mp turn).1

theorem Named.parseStateList {states : List String} (named : Named ts.toList)
    (read : Yields parseStateList ts states us) : ∀ s ∈ states, IsWord s := by
  obtain ⟨_, _, opening, read⟩ := yields_bind.mp read
  obtain ⟨_, _, rfl⟩ := yields_expect.mp opening
  have inside := named.suffix ts.advance_suffix
  rw [peek_bind] at read
  split at read
  · obtain ⟨_, _, empty, read⟩ := yields_bind.mp read
    obtain ⟨rfl, rfl⟩ := yields_pure.mp empty
    obtain ⟨_, _, _, read⟩ := yields_bind.mp read
    obtain ⟨rfl, _⟩ := yields_pure.mp read
    intro s member
    cases member
  · obtain ⟨_, _, first, read⟩ := yields_bind.mp read
    obtain ⟨items, _, more, read⟩ := yields_bind.mp read
    obtain ⟨_, _, _, read⟩ := yields_bind.mp read
    obtain ⟨rfl, _⟩ := yields_pure.mp read
    obtain ⟨⟨s, tok⟩, _, name, first⟩ := yields_bind.mp first
    obtain ⟨rfl, rfl⟩ := yields_pure.mp first
    obtain ⟨n, _, run⟩ := yields_iterate.mp more
    refine Named.commaItems (inside.suffix ?_) ?_ run
    · rw [(yields_expectAnyIdent.mp name).2.2]
      exact Tokens.advance_suffix _
    · intro state member
      rw [List.mem_singleton.mp member]
      exact inside.ident name

theorem Named.parseSignal {seen : Finset String} {sig : SignalDecl} (named : Named ts.toList)
    (read : Yields (parseSignal src seen) ts sig us) : sig.Worded := by
  obtain ⟨_, _, keyword, read⟩ := yields_bind.mp read
  obtain ⟨_, _, rfl⟩ := yields_expect.mp keyword
  obtain ⟨⟨id, _⟩, _, name, read⟩ := yields_bind.mp read
  obtain ⟨_, _, rfl⟩ := yields_expectAnyIdent.mp name
  obtain ⟨_, _, fresh, read⟩ := yields_bind.mp read
  obtain ⟨_, rfl⟩ := yields_ensure.mp fresh
  obtain ⟨_, _, opening, read⟩ := yields_bind.mp read
  obtain ⟨_, _, rfl⟩ := yields_expect.mp opening
  obtain ⟨_, _, label, read⟩ := yields_bind.mp read
  obtain ⟨_, _, rfl⟩ := yields_expect.mp label
  obtain ⟨_, _, colon, read⟩ := yields_bind.mp read
  obtain ⟨_, _, rfl⟩ := yields_expect.mp colon
  obtain ⟨states, _, listed, read⟩ := yields_bind.mp read
  obtain ⟨_, _, _, read⟩ := yields_bind.mp read
  obtain ⟨_, _, _, read⟩ := yields_bind.mp read
  obtain ⟨⟨first, _⟩, _, _, read⟩ := yields_bind.mp read
  obtain ⟨_, _, _, read⟩ := yields_bind.mp read
  obtain ⟨_, _, _, read⟩ := yields_bind.mp read
  obtain ⟨_, _, _, read⟩ := yields_bind.mp read
  obtain ⟨rfl, _⟩ := yields_pure.mp read
  have inside : ∀ {vs : Tokens Token}, Named vs.toList → Named vs.advance.toList :=
    fun h => h.suffix (Tokens.advance_suffix _)
  exact (inside (inside (inside (inside (inside named))))).parseStateList listed

theorem Named.parseComponent {seen : Finset String} {component : ComponentDeclRaw}
    (named : Named ts.toList) (ends : Ends ts)
    (read : Yields (parseComponent src seen) ts component us) :
    ∀ sig ∈ component.signals, sig.Worded := by
  obtain ⟨ts₀, body, ts₁, head, swept, _, _, whole⟩ := (yields_parseComponent ends).mp read
  have inside : Named ts₀.toList :=
    named.suffix (((Apart.self src).componentHead (Finset.Subset.refl _)).consumes head)
  rw [whole]
  refine (Runs.keeps (fun body vs => Named vs.toList ∧ ∀ sig ∈ body.signals, sig.Worded)
    swept ⟨inside, ?_⟩ ?_).2
  · intro sig member
    cases member
  · rintro body body' vs vs' ⟨named, words⟩ turn
    have turn := componentStep_inl.mp turn
    refine ⟨named.suffix (turn.takes.trans vs.advance_suffix), ?_⟩
    cases turn with
    | port | reaction => exact words
    | signal read =>
        intro sig member
        rcases List.mem_append.mp member with earlier | last
        · exact words sig earlier
        · rw [List.mem_singleton.mp last]
          exact named.parseSignal read

/-- Every state of the declarations is a word. -/
structure DocState.Worded (doc : DocState) : Prop where
  signals : ∀ sig ∈ doc.signals, sig.Worded
  components : ∀ c ∈ doc.rawComponents, ∀ sig ∈ c.signals, sig.Worded

theorem DocState.Worded.read {doc doc' : DocState} (h : doc.Worded) (named : Named ts.toList)
    (ends : Ends ts) (read : BlockRead src doc ts us doc') : doc'.Worded := by
  cases read with
  | reaction | guard | fork | join | instantiate => exact ⟨h.signals, h.components⟩
  | signal read =>
      refine ⟨fun sig member => ?_, h.components⟩
      rcases List.mem_append.mp member with earlier | last
      · exact h.signals sig earlier
      · rw [List.mem_singleton.mp last]
        exact named.parseSignal read
  | component read =>
      refine ⟨h.signals, fun c member => ?_⟩
      rcases List.mem_append.mp member with earlier | last
      · exact h.components c earlier
      · rw [List.mem_singleton.mp last]
        exact named.parseComponent ends read

end

/-- Every state of a document is a word. -/
theorem parse_worded {tokens : List Token} {src : String} {doc : DdlDoc}
    (lexed : tokenize src = .ok tokens) (parsed : parse tokens src = .ok doc) :
    (∀ sig ∈ doc.signals, sig.Worded) ∧ ∀ c ∈ doc.components, ∀ sig ∈ c.signals, sig.Worded := by
  obtain ⟨t, ts, final, us, rfl, swept, _, finished⟩ := (parse_iff_sweep lexed).mp parsed
  have words : final.Worded := by
    refine (swept.keeps (fun doc vs => Named vs.toList ∧ Ends vs ∧ doc.Worded)
      ⟨named_of_tokenize lexed, ends_of_tokenize lexed, ?_⟩ ?_).2.2
    · constructor
      all_goals
        intro x member
        cases member
    · rintro doc doc' vs vs' ⟨named, ends, words⟩ read
      have inside := read.takes.trans vs.advance_suffix
      exact ⟨named.suffix inside, ends.suffix inside, words.read named ends read⟩
  obtain ⟨_, _, finished⟩ := bind_ok finished
  obtain ⟨reactions, _, finished⟩ := bind_ok finished
  obtain ⟨components, resolved, finished⟩ := bind_ok finished
  cases finished
  refine ⟨words.signals, fun c member => ?_⟩
  obtain ⟨raw, inside, made⟩ := mapM_result resolved c member
  obtain ⟨_, _, made⟩ := bind_ok made
  cases made
  exact words.components raw inside

/-! ## States of a compiled schema -/

variable [SerdeJson]

theorem compile_worded {src : String} {schema : TopologySchema} (h : compile src = .ok schema) :
    ∀ sig ∈ schema.signals, ∀ s ∈ sig.states, IsWord s := by
  obtain ⟨tokens, doc, lowered, lexed, parsed, emitted, expanded⟩ := compile_ok h
  obtain ⟨top, inner⟩ := parse_worded lexed parsed
  have declared : ∀ sig ∈ lowered.signals, ∀ s ∈ sig.states, IsWord s := by
    obtain ⟨_, _, emitted⟩ := bind_ok emitted
    obtain ⟨_, _, emitted⟩ := bind_ok emitted
    cases emitted
    intro out member
    obtain ⟨sig, own, rfl⟩ := List.mem_map.mp member
    exact top sig own
  obtain ⟨_, rfl⟩ | ⟨expansions, expandedAll, same, _⟩ := expand_ok expanded
  · exact declared
  · rw [same]
    intro sig member s listed
    rcases List.mem_append.mp member with own | added
    · exact declared sig own s listed
    · obtain ⟨e, made, inside⟩ := List.mem_flatMap.mp added
      obtain ⟨inst, _, built⟩ := mapM_result expandedAll e made
      obtain ⟨component, bound, remap, resolves, rfl⟩ := expandInstance_ok built
      obtain ⟨comp, written, emittedComponent⟩ := emit_components emitted resolves.found
      obtain ⟨_, _, emittedComponent⟩ := bind_ok emittedComponent
      cases emittedComponent
      obtain ⟨decl, own, rfl⟩ := List.mem_map.mp inside
      obtain ⟨raw, declaredThere, rfl⟩ := List.mem_map.mp own
      obtain ⟨state, inStates, rfl⟩ := List.mem_map.mp listed
      have word := inner comp written raw declaredThere state inStates
      rw [word.subst]
      exact word

end SignalTopology.Ddl
