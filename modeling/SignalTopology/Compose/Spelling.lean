import SignalTopology.Compose.Templates

/-!
# Spelling a placeholder

The first `${` of a text and the first brace behind it are what expansion looks at. Where the
text is put together from pieces, the placeholder is spelled by the pieces: the `${` stands in
one of them or its two characters meet at a seam, and the name goes on through the next ones.
-/

namespace SignalTopology

/-! ## The first placeholder of a text -/

section

variable {cs before after more : List Char}

theorem findClose_append (closed : findClose cs = some (before, after)) :
    findClose (cs ++ more) = some (before, after ++ more) := by
  fun_induction findClose cs generalizing before with
  | case1 rest =>
      cases closed
      rfl
  | case2 c rest other ih =>
      obtain ⟨⟨b, a⟩, found, same⟩ := Option.map_eq_some_iff.mp closed
      cases same
      rw [List.cons_append, findClose, ih found]
      · rfl
      · exact other
  | case3 => cases closed

theorem findClose_isSome (cs more : List Char) : (findClose (cs ++ '}' :: more)).isSome := by
  induction cs with
  | nil => rfl
  | cons c cs ih =>
      by_cases brace : c = '}'
      · subst brace
        rfl
      · rw [List.cons_append, findClose, Option.isSome_map]
        · exact ih
        · exact fun same => brace same

theorem findOpen_append (opened : findOpen cs = some (before, after)) :
    findOpen (cs ++ more) = some (before, after ++ more) := by
  fun_induction findOpen cs generalizing before with
  | case1 rest =>
      cases opened
      rfl
  | case2 c rest other ih =>
      obtain ⟨⟨b, a⟩, found, same⟩ := Option.map_eq_some_iff.mp opened
      cases same
      rw [List.cons_append, findOpen, ih found]
      · rfl
      · intro rest' dollar brace
        cases rest with
        | nil => cases found
        | cons d rest =>
            cases brace
            exact other rest dollar rfl
  | case3 => cases opened

/-- A `${` at the end is found, or one before it. -/
theorem findOpen_open (cs more : List Char) :
    ∃ before inner, findOpen (cs ++ '$' :: '{' :: more) = some (before, inner ++ more) := by
  induction cs with
  | nil => exact ⟨[], [], rfl⟩
  | cons c cs ih =>
      obtain ⟨before, inner, found⟩ := ih
      by_cases opens : ∃ rest, c = '$' ∧ cs ++ '$' :: '{' :: more = '{' :: rest
      · obtain ⟨rest, rfl, tail⟩ := opens
        cases cs with
        | nil => cases tail
        | cons d cs =>
            cases tail
            refine ⟨[], cs ++ ['$', '{'], ?_⟩
            simp [findOpen]
      · refine ⟨c :: before, inner, ?_⟩
        rw [List.cons_append, findOpen, found]
        · rfl
        · exact fun rest dollar brace => opens ⟨rest, dollar, brace⟩

theorem findUnresolved_ofList (cs : List Char) : findUnresolved (String.ofList cs) =
    (findOpen cs).bind fun p => (findClose p.2).map fun q => String.ofList q.1 := by
  rw [findUnresolved, String.toList_ofList]
  cases findOpen cs with
  | none => rfl
  | some p =>
      obtain ⟨before, after⟩ := p
      cases closed : findClose after <;> simp [closed]

/-- What follows the first placeholder does not matter. -/
theorem findUnresolved_append {name : String} (h : findUnresolved (String.ofList cs) = some name) :
    findUnresolved (String.ofList (cs ++ more)) = some name := by
  rw [findUnresolved_ofList] at h ⊢
  obtain ⟨⟨before, after⟩, opened, h⟩ := Option.bind_eq_some_iff.mp h
  obtain ⟨⟨inner, rest⟩, closed, same⟩ := Option.map_eq_some_iff.mp h
  rw [findOpen_append opened, Option.bind_some, findClose_append closed, Option.map_some, ← same]

/-- A text with a placeholder at its end has a first one. -/
theorem findUnresolved_isSome (cs name : List Char) :
    (findUnresolved (String.ofList (cs ++ '$' :: '{' :: (name ++ ['}'])))).isSome := by
  rw [findUnresolved_ofList]
  obtain ⟨before, inner, opened⟩ := findOpen_open cs (name ++ ['}'])
  rw [opened, Option.bind_some, Option.isSome_map, ← List.append_assoc]
  exact findClose_isSome _ _

/-! ## Texts that open or close nothing -/

theorem findClose_quiet (closed : findClose cs = some (before, after)) :
    findClose before = none := by
  fun_induction findClose cs generalizing before with
  | case1 rest =>
      cases closed
      rfl
  | case2 c rest other ih =>
      obtain ⟨⟨b, a⟩, found, same⟩ := Option.map_eq_some_iff.mp closed
      cases same
      rw [findClose, ih found]
      · rfl
      · exact other
  | case3 => cases closed

theorem findClose_skip (quiet : findClose cs = none) :
    findClose (cs ++ more) = (findClose more).map fun q => (cs ++ q.1, q.2) := by
  fun_induction findClose cs with
  | case1 rest => cases quiet
  | case2 c rest other ih =>
      rw [List.cons_append, findClose, ih (Option.map_eq_none_iff.mp quiet), Option.map_map]
      · rfl
      · exact other
  | case3 => simp

theorem findOpen_quiet (opened : findOpen cs = some (before, after)) : findOpen before = none := by
  fun_induction findOpen cs generalizing before with
  | case1 rest =>
      cases opened
      rfl
  | case2 c rest other ih =>
      obtain ⟨⟨b, a⟩, found, same⟩ := Option.map_eq_some_iff.mp opened
      cases same
      obtain ⟨split, _⟩ := parts_open found
      rw [findOpen, ih found]
      · rfl
      · intro rest' dollar brace
        rw [brace] at split
        exact other _ dollar split
  | case3 => cases opened

/-- A text without a `${` is skipped, if none begins at its end. -/
theorem findOpen_skip (quiet : findOpen cs = none)
    (apart : cs.getLast? = some '$' → more.head? ≠ some '{') :
    findOpen (cs ++ more) = (findOpen more).map fun p => (cs ++ p.1, p.2) := by
  fun_induction findOpen cs with
  | case1 rest => cases quiet
  | case2 c rest other ih =>
      have later : findOpen (rest ++ more) = (findOpen more).map fun p => (rest ++ p.1, p.2) := by
        refine ih (Option.map_eq_none_iff.mp quiet) fun last => apart ?_
        rw [List.getLast?_cons, last]
        rfl
      rw [List.cons_append, findOpen, later, Option.map_map]
      · rfl
      · intro rest' dollar brace
        cases rest with
        | nil => exact apart (by rw [dollar]; rfl) (by rw [← List.nil_append more, brace]; rfl)
        | cons d rest =>
            cases brace
            exact other rest dollar rfl
  | case3 => simp

theorem findOpen_seam (quiet : findOpen cs = none) (dollar : cs.getLast? = some '$') :
    ∃ before, findOpen (cs ++ '{' :: more) = some (before, more) := by
  obtain ⟨front, rfl⟩ := List.getLast?_eq_some_iff.mp dollar
  have first : findOpen front = none := by
    by_contra opened
    obtain ⟨p, opened⟩ := Option.ne_none_iff_exists'.mp opened
    rw [findOpen_append opened] at quiet
    cases quiet
  refine ⟨front, ?_⟩
  rw [List.append_assoc, findOpen_skip first fun _ => by simp]
  simp [findOpen]

end

/-! ## Pieces -/

/-- The texts without their first character. -/
def tailIn : List (List Char) → List (List Char)
  | [] => []
  | [] :: rest => tailIn rest
  | (_ :: cs) :: rest => cs :: rest

/-- What the texts have behind their first `${`: one of them has it, or one ends with `$` and
what comes next begins with a brace. -/
def openIn : List (List Char) → Option (List (List Char))
  | [] => none
  | text :: rest =>
      match findOpen text with
      | some (_, inner) => some (inner :: rest)
      | none =>
          if text.getLast? = some '$' ∧ rest.flatten.head? = some '{' then some (tailIn rest)
          else openIn rest

/-- What the texts have up to their first closing brace. -/
def closeIn : List (List Char) → Option (List Char)
  | [] => none
  | text :: rest =>
      match findClose text with
      | some (name, _) => some name
      | none => (closeIn rest).map (text ++ ·)

/-- The first placeholder that the texts spell, one after the other. -/
def spelled (texts : List (List Char)) : Option String :=
  ((openIn texts).bind closeIn).map String.ofList

theorem closeIn_eq (texts : List (List Char)) :
    closeIn texts = (findClose texts.flatten).map Prod.fst := by
  induction texts with
  | nil => rfl
  | cons text rest ih =>
      rw [closeIn, List.flatten_cons]
      cases closed : findClose text with
      | some q => rw [findClose_append closed, Option.map_some]
      | none =>
          rw [findClose_skip closed, ih, Option.map_map, Option.map_map]
          rfl

theorem tailIn_flatten (texts : List (List Char)) :
    (tailIn texts).flatten = texts.flatten.tail := by
  induction texts with
  | nil => rfl
  | cons text rest ih =>
      cases text with
      | nil => exact ih
      | cons c cs => rfl

theorem openIn_eq (texts : List (List Char)) :
    (openIn texts).map List.flatten = (findOpen texts.flatten).map Prod.snd := by
  induction texts with
  | nil => rfl
  | cons text rest ih =>
      rw [openIn, List.flatten_cons]
      cases opened : findOpen text with
      | some p => rw [findOpen_append opened, Option.map_some, Option.map_some, List.flatten_cons]
      | none =>
          dsimp only
          split
          · next seam =>
              obtain ⟨more, tail⟩ := List.head?_eq_some_iff.mp seam.2
              obtain ⟨before, found⟩ := @findOpen_seam _ more opened seam.1
              rw [tail, found, Option.map_some, Option.map_some, tailIn_flatten, tail,
                List.tail_cons]
          · next apart =>
              have skip := findOpen_skip opened fun last head => apart ⟨last, head⟩
              rw [skip, ih, Option.map_map]
              rfl

/-- The pieces spell what their text has. -/
theorem spelled_eq (texts : List (List Char)) :
    spelled texts = findUnresolved (String.ofList texts.flatten) := by
  have found := openIn_eq texts
  rw [findUnresolved_ofList, spelled]
  cases opened : findOpen texts.flatten with
  | none =>
      rw [opened, Option.map_none, Option.map_eq_none_iff] at found
      rw [found]
      rfl
  | some p =>
      rw [opened, Option.map_some] at found
      obtain ⟨inner, open_, same⟩ := Option.map_eq_some_iff.mp found
      rw [open_, Option.bind_some, Option.bind_some, closeIn_eq, same, Option.map_map]
      rfl

end SignalTopology
