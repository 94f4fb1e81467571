import SignalTopology.Compose.Templates
import SignalTopology.Ddl.Parser

/-!
# Placeholders by byte offsets

`subst` and `find_unresolved` find `${` and the closing brace by their byte offsets and cut the
text there. Both marks are ASCII, so every cut falls between characters, and the loop on offsets
computes what the one on characters does.
-/

namespace SignalTopology

open Ddl (byteLen dropBytes slice slice_append dropBytes_append)

/-- What is left of a text behind some of its bytes is shorter. -/
theorem dropBytes_length {cs ds : List Char} {n : Nat} (h : dropBytes cs n = some ds) :
    ds.length ≤ cs.length ∧ (0 < n → ds.length < cs.length) := by
  fun_induction dropBytes cs n with
  | case1 cs =>
      cases h
      exact ⟨Nat.le_refl _, fun positive => absurd positive (Nat.lt_irrefl 0)⟩
  | case2 => cases h
  | case3 c cs n fits ih =>
      obtain ⟨shorter, _⟩ := ih h
      simp only [List.length_cons]
      omega
  | case4 => cases h

/-- The loop of `subst` on byte offsets. A cut inside a character panics, which is `none`. -/
def substBytes (bound : HashMap String) (rest : List Char) : Option (List Char) :=
  match findOpen rest with
  | none => some rest
  | some (before, _) =>
      let start := byteLen before
      match slice rest 0 start, _open : dropBytes rest (start + 2) with
      | some literal, some afterOpen =>
          match findClose afterOpen with
          | none => some (literal ++ rest)
          | some (inner, _) =>
              let close := byteLen inner
              match slice afterOpen 0 close, _later : dropBytes afterOpen (close + 1) with
              | some name, some after =>
                  let value := match bound.lookup (String.ofList name) with
                    | some value => some value.toList
                    | none => slice rest start (start + 2 + close + 1)
                  match value, substBytes bound after with
                  | some value, some later => some (literal ++ value ++ later)
                  | _, _ => none
              | _, _ => none
      | _, _ => none
termination_by rest.length
decreasing_by
  have shorter := (dropBytes_length _open).2 (Nat.succ_pos _)
  have shorter' := (dropBytes_length _later).2 (Nat.succ_pos _)
  omega

/-- `find_unresolved` on byte offsets. -/
def findUnresolvedBytes (s : List Char) : Option (Option String) :=
  match findOpen s with
  | none => some none
  | some (before, _) =>
      let start := byteLen before + 2
      match dropBytes s start with
      | none => none
      | some rest =>
          match findClose rest with
          | none => some none
          | some (inner, _) => (slice s start (start + byteLen inner)).map fun name =>
              some (String.ofList name)

section

variable {cs before after : List Char}

theorem findClose_split (h : findClose cs = some (before, after)) :
    cs = before ++ '}' :: after := by
  fun_induction findClose cs generalizing before with
  | case1 rest =>
      cases h
      rfl
  | case2 c rest _ ih =>
      obtain ⟨⟨b, a⟩, found, same⟩ := Option.map_eq_some_iff.mp h
      cases same
      exact congrArg (c :: ·) (ih found)
  | case3 => cases h

/-- The two cuts at a `${`: the text before it and the text behind it. -/
theorem findOpen_cuts (h : findOpen cs = some (before, after)) :
    slice cs 0 (byteLen before) = some before ∧ dropBytes cs (byteLen before + 2) = some after := by
  obtain ⟨split, _⟩ := parts_open h
  constructor
  · have cut := slice_append [] before ('$' :: '{' :: after)
    rw [Ddl.byteLen_nil, Nat.zero_add] at cut
    rw [split]
    exact cut
  · have cut := dropBytes_append (before ++ ['$', '{']) after
    rw [Ddl.byteLen_append, show byteLen ['$', '{'] = 2 from rfl, List.append_assoc] at cut
    rw [split]
    exact cut

/-- The two cuts at the closing brace: the name and the text behind it. -/
theorem findClose_cuts (h : findClose cs = some (before, after)) :
    slice cs 0 (byteLen before) = some before ∧ dropBytes cs (byteLen before + 1) = some after := by
  have split := findClose_split h
  constructor
  · have cut := slice_append [] before ('}' :: after)
    rw [Ddl.byteLen_nil, Nat.zero_add] at cut
    rw [split]
    exact cut
  · have cut := dropBytes_append (before ++ ['}']) after
    rw [Ddl.byteLen_append, show byteLen ['}'] = 1 from rfl, List.append_assoc] at cut
    rw [split]
    exact cut

end

/-! ## The loop on offsets -/

/-- The cut of a whole placeholder, which is kept where its name is not bound. -/
theorem placeholder_cut {cs before afterOpen name after : List Char}
    (opened : findOpen cs = some (before, afterOpen))
    (closed : findClose afterOpen = some (name, after)) :
    slice cs (byteLen before) (byteLen before + 2 + byteLen name + 1) =
      some (['$', '{'] ++ name ++ ['}']) := by
  have split : cs = before ++ ((['$', '{'] ++ name ++ ['}']) ++ after) := by
    rw [(parts_open opened).1, findClose_split closed]
    simp
  have length : byteLen (['$', '{'] ++ name ++ ['}']) = 2 + byteLen name + 1 := by
    rw [Ddl.byteLen_append, Ddl.byteLen_append]
    rfl
  have cut := slice_append before (['$', '{'] ++ name ++ ['}']) after
  rw [length, ← split] at cut
  rw [← cut]
  congr 1
  omega

/-- No cut of the loop panics, and it computes what the loop on characters does. -/
theorem substBytes_eq (bound : HashMap String) (cs : List Char) :
    substBytes bound cs = some (substChars bound cs) := by
  fun_induction substChars bound cs with
  | case1 rest opened =>
      unfold substBytes
      rw [opened]
  | case2 rest before afterOpen opened name after closed value ih =>
      obtain ⟨front, back⟩ := findOpen_cuts opened
      obtain ⟨inner, later⟩ := findClose_cuts closed
      have whole := placeholder_cut opened closed
      unfold substBytes
      rw [opened]
      dsimp only
      split
      · next front' back' =>
          rw [front] at front'
          rw [back] at back'
          cases front'
          cases back'
          rw [closed]
          dsimp only
          split
          · next inner' later' =>
              rw [inner] at inner'
              rw [later] at later'
              cases inner'
              cases later'
              rw [whole, ih]
              cases found : bound.lookup (String.ofList name) with
              | none =>
                  have same : value = ['$', '{'] ++ name ++ ['}'] := by simp only [value, found]
                  rw [same]
              | some written =>
                  have same : value = written.toList := by simp only [value, found]
                  rw [same]
          · next failed => exact absurd later (failed _ _ inner)
      · next failed => exact absurd back (failed _ _ front)
  | case3 rest before afterOpen opened closed =>
      obtain ⟨front, back⟩ := findOpen_cuts opened
      unfold substBytes
      rw [opened]
      dsimp only
      split
      · next front' back' =>
          rw [front] at front'
          rw [back] at back'
          cases front'
          cases back'
          rw [closed]
      · next failed => exact absurd back (failed _ _ front)

theorem findUnresolvedBytes_eq (s : String) : findUnresolvedBytes s.toList =
    some (findUnresolved s) := by
  unfold findUnresolvedBytes findUnresolved
  cases opened : findOpen s.toList with
  | none => rfl
  | some p =>
      obtain ⟨before, afterOpen⟩ := p
      obtain ⟨front, back⟩ := findOpen_cuts opened
      dsimp only
      rw [back]
      cases closed : findClose afterOpen with
      | none => simp [closed]
      | some q =>
          obtain ⟨name, after⟩ := q
          have split : s.toList = (before ++ ['$', '{']) ++ (name ++ '}' :: after) := by
            rw [(parts_open opened).1, findClose_split closed]
            simp
          have cut := slice_append (before ++ ['$', '{']) name ('}' :: after)
          rw [Ddl.byteLen_append, show byteLen ['$', '{'] = 2 from rfl, ← split] at cut
          simp [closed, cut]

end SignalTopology
