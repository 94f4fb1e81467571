import SignalTopology.Ddl.Sweep

/-!
# Blocks end in a brace

Every top-level block is closed by a brace, so no lexeme goes on from a block into the
text behind it.
-/

namespace SignalTopology.Ddl

open TokenParser

variable [RustStd] {src : List Char}

/-- The last token of a block is its closing brace. -/
abbrev Braced {α : Type} (p : Parse α) : Prop := Closes (fun t : Token => t.kind = .rBrace) p

theorem braced_expect {α : Type} (a : Token → α) :
    Braced (do let tok ← expect .rBrace; return a tok) := by
  intro ts x us ends h
  obtain ⟨_, _, first, h⟩ := yields_bind.mp h
  obtain ⟨closing, _, rfl⟩ := yields_expect.mp first
  obtain ⟨_, rfl⟩ := yields_pure.mp h
  exact closes_of_current ends closing rfl

omit [RustStd] in
theorem consumes_ensure {c : Bool} {e : String} : Consumes (ensure c e : Parse Unit) := by
  intro ts u us h
  obtain ⟨_, rfl⟩ := yields_ensure.mp h
  exact List.suffix_refl _

theorem braced_parseSignal (seen : Finset String) : Braced (parseSignal src seen) := by
  have own := Apart.self src
  have keyword : ∀ kind, Consumes (expect kind) := fun kind => (own.leads_expect kind).consumes
  have name := own.leads_ident.consumes
  refine .bind (keyword _) fun _ => .bind name fun x => .bind consumes_ensure fun _ => ?_
  refine .bind (keyword _) fun _ => .bind (keyword _) fun _ => .bind (keyword _) fun _ => ?_
  refine .bind own.parseStateList.consumes fun states => .bind (keyword _) fun _ => ?_
  refine .bind (keyword _) fun _ => .bind name fun y => .bind consumes_ensure fun _ => ?_
  refine .bind (own.while_eq rfl (own.parseTransition x.1 states)).consumes fun transitions => ?_
  exact braced_expect _

theorem braced_parseReactionRaw : Braced (parseReactionRaw src) := by
  have own := Apart.self src
  have keyword : ∀ kind, Consumes (expect kind) := fun kind => (own.leads_expect kind).consumes
  refine .bind (keyword _) fun _ => .bind (keyword _) fun _ => ?_
  exact .bind own.parseReactionBody.consumes fun reaction => braced_expect _

theorem braced_parseForkBlock (forkCounter : Nat) : Braced (parseForkBlock src forkCounter) := by
  have own := Apart.self src
  have keyword : ∀ kind, Consumes (expect kind) := fun kind => (own.leads_expect kind).consumes
  refine .bind (keyword _) fun _ => .bind (keyword _) fun _ => ?_
  exact .bind (own.parseMembers _).consumes fun members => braced_expect _

theorem braced_parseJoinBlock : Braced (parseJoinBlock src) := by
  have own := Apart.self src
  have keyword : ∀ kind, Consumes (expect kind) := fun kind => (own.leads_expect kind).consumes
  refine .bind (keyword _) fun _ => .bind own.leads_ident.consumes fun x =>
    .bind (keyword _) fun _ => ?_
  exact .bind (own.parseMembers _).consumes fun members => braced_expect _

theorem braced_parseRawBraceBlock : Braced (parseRawBraceBlock src) := by
  have own := Apart.self src
  refine .bind (own.leads_expect _).consumes fun opening => ?_
  refine .iterate braceStep_advances ?_ 1
  intro depth ts text us turn
  obtain ⟨taken, ⟨_, other⟩ | ⟨closing, _⟩ | ⟨_, other⟩⟩ := Parallel.yields_braceStep.mp turn
  · cases other
  · exact ⟨closing, taken⟩
  · cases other

theorem braced_parseGuardDecl (seen : Finset String) : Braced (parseGuardDecl src seen) := by
  have own := Apart.self src
  refine .bind (own.leads_expect _).consumes fun _ => .bind own.leads_ident.consumes fun x => ?_
  exact .bind consumes_ensure fun _ => braced_parseRawBraceBlock.pure

theorem braced_parseComponent (seen : Finset String) : Braced (parseComponent src seen) := by
  have own := Apart.self src
  rw [parseComponent_eq]
  refine .bind (own.componentHead (Finset.Subset.refl _)).consumes fun head => .pure ?_
  refine .iterate (componentStep_advances head.1) ?_ {}
  intro body ts body' us turn
  obtain ⟨closing, _, taken⟩ := componentStep_inr.mp turn
  exact ⟨closing, taken⟩

theorem braced_arrowPairs : Braced (commaList .lBrace .rBrace parseArrowPair) := by
  have own := Apart.self []
  refine .bind (own.leads_expect _).consumes fun _ => ?_
  intro ts pairs us ends h
  rw [peek_bind] at h
  split at h
  · have none_listed : Consumes (pure [] : Parse (List (String × String))) :=
      (Follows.pure (b := wholeBorder) (V := Eq) rfl).consumes
    exact Closes.bind none_listed (fun items => braced_expect fun _ => items) ends h
  · refine Closes.bind own.parseArrowPair.consumes (fun first => ?_) ends h
    refine .bind (own.commaItems rfl own.parseArrowPair [first]).consumes fun items => ?_
    exact braced_expect fun _ => items

theorem braced_parseInstantiate : Braced parseInstantiate := by
  have own := Apart.self []
  have keyword : ∀ kind, Consumes (expect kind) := fun kind => (own.leads_expect kind).consumes
  have name := own.leads_ident.consumes
  refine .bind (keyword _) fun _ => .bind name fun x => .bind (keyword _) fun _ => ?_
  refine .bind name fun y => .bind (keyword _) fun _ => ?_
  intro ts inst us ends h
  obtain ⟨bindings, mid, read, h⟩ := yields_bind.mp h
  rw [peek_bind] at h
  have bound : Braced parseBindingMap := braced_arrowPairs.pure
  have wired : Braced parseConnectionMap := braced_arrowPairs.pure
  split at h
  · have behind : Braced (do
        let _ ← advance
        let connections ← parseConnectionMap
        return ({ component := x.1, bindings, connections } : InstantiateDecl)) :=
      .bind takes_advance.consumes fun _ => wired.pure
    obtain ⟨before, split⟩ := own.parseBindingMap.consumes read
    obtain ⟨front, t, rest, closes⟩ := behind (ends.suffix ⟨before, split⟩) h
    exact ⟨before ++ front, t, by rw [← split, rest, List.append_assoc], closes⟩
  · obtain ⟨_, _, empty, h⟩ := yields_bind.mp h
    obtain ⟨_, rfl⟩ := yields_pure.mp empty
    obtain ⟨_, rfl⟩ := yields_pure.mp h
    exact bound ends read

/-! ## Blocks and sweeps -/

variable {ts us : Tokens Token}

omit [RustStd] in
theorem Ends.open_ (ends : Ends ts) : ts.EndsIn fun t => ¬ t.kind = .rBrace := by
  obtain ⟨front, last, whole, finish⟩ := ends
  exact ⟨front, last, whole, by simp [finish]⟩

theorem BlockRead.braced {doc doc' : DocState} (h : BlockRead src doc ts us doc') (ends : Ends ts) :
    ∃ front t, ts.toList = front ++ t :: us.toList ∧ t.kind = .rBrace := by
  have open_ := Ends.open_ ends
  cases h with
  | signal read => exact braced_parseSignal _ open_ read
  | reaction read => exact braced_parseReactionRaw open_ read
  | guard read => exact braced_parseGuardDecl _ open_ read
  | fork read => exact braced_parseForkBlock _ open_ read
  | join read => exact braced_parseJoinBlock open_ read
  | component read => exact braced_parseComponent _ open_ read
  | instantiate read => exact braced_parseInstantiate open_ read

/-- A sweep that is not at its start stands behind a closing brace. -/
theorem Sweep.braced {x y : DocState × Tokens Token} (h : Sweep src x y) (ends : Ends x.2) :
    y.2 = x.2 ∨ ∃ front t, x.2.toList = front ++ t :: y.2.toList ∧ t.kind = .rBrace := by
  cases h with
  | refl => exact .inl rfl
  | tail earlier turn =>
      obtain ⟨before, split⟩ := Sweep.suffix earlier
      obtain ⟨front, t, rest, closing⟩ :=
        (parseBlock_inl.mp turn).braced (ends.suffix ⟨before, split⟩)
      exact .inr ⟨before ++ front, t, by rw [← split, rest, List.append_assoc], closing⟩

end SignalTopology.Ddl
