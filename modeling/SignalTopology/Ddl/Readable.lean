import SignalTopology.Ddl.Clauses

/-!
# Readable sources

A source can be read if each of its pieces can. The pieces of the clauses and the
lists are words, symbols, and the texts of guards and payloads.
-/

namespace SignalTopology.Ddl

variable [RustStd]

/-- Every piece can be read. -/
def Readable (ps : List Piece) : Prop := ∀ p ∈ ps, Reads p.text p.kinds

namespace Readable

variable {p : Piece} {ps qs : List Piece}

theorem nil : Readable [] := by
  intro p member
  cases member

theorem cons (first : Reads p.text p.kinds) (later : Readable ps) : Readable (p :: ps) :=
  List.forall_mem_cons.mpr ⟨first, later⟩

theorem append (first : Readable ps) (second : Readable qs) : Readable (ps ++ qs) :=
  List.forall_mem_append.mpr ⟨first, second⟩

theorem flatMap {γ : Type} {pieces : γ → List Piece} {cs : List γ}
    (each : ∀ c ∈ cs, Readable (pieces c)) : Readable (cs.flatMap pieces) := by
  intro p member
  obtain ⟨c, inside, own⟩ := List.mem_flatMap.mp member
  exact each c inside p own

theorem name {s : String} (h : IsName s) (later : Readable ps) : Readable (.word s :: ps) :=
  cons h.toIsWord.reads later

theorem keyword {s : String} (ascii : isAsciiWord s = true) (later : Readable ps) :
    Readable (.word s :: ps) :=
  cons (isWord_ascii ascii).reads later

theorem symbol {c : Char} {kind : TokenKind}
    (plain : c.toNat < 128 ∧ singleKind c = .ok kind ∧ c ≠ '/') (later : Readable ps) :
    Readable (.symbol c kind :: ps) :=
  cons (reads_symbol plain.1 plain.2.1 plain.2.2) later

theorem arrow (later : Readable ps) : Readable (.arrow :: ps) := cons reads_arrow later

theorem lBrace (later : Readable ps) : Readable (.lBrace :: ps) :=
  symbol ⟨by decide, rfl, by decide⟩ later

theorem rBrace (later : Readable ps) : Readable (.rBrace :: ps) :=
  symbol ⟨by decide, rfl, by decide⟩ later

theorem colon (later : Readable ps) : Readable (.colon :: ps) :=
  symbol ⟨by decide, rfl, by decide⟩ later

theorem names {list : List String} (h : ∀ s ∈ list, IsName s) : Readable (namePieces list) :=
  flatMap fun s member => symbol ⟨by decide, rfl, by decide⟩ (name (h s member) nil)

theorem span {text : List Char} {kinds : List TokenKind} (legible : Legible text kinds)
    (later : Readable ps) : Readable (.span text :: ps) := by
  refine cons ?_ later
  rw [Piece.span, legible.read]
  exact legible.reads

theorem guard {guard : Option (List Char)}
    (text : ∀ g, guard = some g → ∃ kinds, Legible g kinds) : Readable (guardPieces guard) := by
  cases guard with
  | none => exact nil
  | some g =>
      obtain ⟨kinds, legible⟩ := text g rfl
      exact keyword (by decide) (span legible nil)

theorem onClause {c : OnClause} {states : List String} (named : c.Named states)
    (text : ∀ g, c.guard = some g → ∃ kinds, Legible g kinds) : Readable c.pieces := by
  have source : Readable [sourcePiece c.source] := by
    cases same : c.source with
    | none => exact symbol ⟨by decide, rfl, by decide⟩ nil
    | some s => exact name (named.source s same).1 nil
  have block : Readable (hookPieces c.block) := by
    cases same : c.block with
    | none => exact nil
    | some hooks =>
        refine lBrace (append (flatMap fun hook member => ?_) (rBrace nil))
        have ids := (named.hooks hooks same).1 hook member
        exact cons hook.phase.isWord.reads (colon (name (ids _ List.mem_cons_self)
          (names fun id inside => ids id (List.mem_cons_of_mem _ inside))))
  exact append (keyword (by decide) (name named.event (keyword (by decide) (append source
    (arrow (name named.target nil)))))) (append (guard text) block)

theorem whenClause {c : WhenClause} (named : c.Named)
    (text : ∀ g, c.guard = some g → ∃ kinds, Legible g kinds)
    (payload : ∀ raw, c.block = .payload raw → ∃ kinds, Legible raw kinds) : Readable c.pieces := by
  have block : Readable c.block.pieces := by
    cases same : c.block with
    | none => exact nil
    | empty => exact lBrace (rBrace nil)
    | payload raw =>
        obtain ⟨kinds, legible⟩ := payload raw same
        exact keyword (by decide) (span legible nil)
  have hook : Readable (onFailPieces c.onFail) := by
    cases same : c.onFail with
    | none => exact nil
    | some hook => exact keyword (by decide) (colon (name (named.onFail hook same) nil))
  exact append (keyword (by decide) (name named.fromSignal (keyword (by decide)
    (name named.fromState (arrow (name named.toSignal (name named.event nil)))))))
    (append (guard text) (append block hook))

theorem states {list : List String} {trailing : Bool} (h : ∀ s ∈ list, IsName s) :
    Readable (statePieces list trailing) := by
  cases list with
  | nil => exact nil
  | cons s list =>
      refine name (h s List.mem_cons_self) (append
        (names fun t member => h t (List.mem_cons_of_mem _ member)) ?_)
      cases trailing with
      | false => exact nil
      | true => exact symbol ⟨by decide, rfl, by decide⟩ nil

/-- A source of readable pieces is tokens, and the parser starts in front of its pieces. -/
theorem start {src : String} (readable : Readable ps) (spelled : Spelled ps src.toList) :
    ∃ t ts, tokenize src = .ok (t :: ts) ∧ At src.toList ps ⟨t, ts⟩ := by
  obtain ⟨tokens, lexed⟩ := spelled.tokenize readable .start
  obtain ⟨body, last, _, rfl⟩ := lexes_of_tokenize lexed
  obtain ⟨t, ts, same⟩ : ∃ t ts, body ++ [last.eof] = t :: ts :=
    List.exists_cons_of_ne_nil (by simp)
  rw [same] at lexed
  exact ⟨t, ts, lexed, at_start spelled lexed⟩

end Readable

end SignalTopology.Ddl
