import Mathlib.Algebra.Ring.Nat
import SignalTopology.Platform

/-!
# The compact text of a JSON value

What `serde_json` writes for a value: no blanks, a comma in front of every entry of an
array or object but the first, and strings with the escapes of the format. How a float is
written is left open up to its shape.
-/

namespace SignalTopology

/-! ## Numbers -/

/-- A minus sign or none. -/
def IsSign (text : List Char) : Prop := text = [] ∨ text = ['-']

/-- The sign of an exponent. Printers differ on whether a positive one is written. -/
def IsExponentSign (text : List Char) : Prop := text = ['+'] ∨ IsSign text

/-- One ASCII digit or more. -/
structure Digits (text : List Char) : Prop where
  nonempty : text ≠ []
  all : ∀ c ∈ text, c.isDigit = true

/-- A decimal fraction, or a single digit; an exponent of up to three digits may follow. -/
def IsDecimal (text : List Char) : Prop :=
  ∃ sign whole frac exp : List Char, text = sign ++ (whole ++ (frac ++ exp)) ∧ IsSign sign ∧
    Digits whole ∧ (frac = [] ∧ whole.length = 1 ∨ ∃ ds, frac = '.' :: ds ∧ Digits ds) ∧
    (exp = [] ∨
      ∃ sign ds, exp = 'e' :: (sign ++ ds) ∧ IsExponentSign sign ∧ Digits ds ∧ ds.length ≤ 3)

/-- The printing of finite floats. -/
class FloatText where
  formatFinite : Float → List Char
  decimal : ∀ f : Float, f.isFinite = true → IsDecimal (formatFinite f)

/-- The decimal digits of a natural number. -/
def decimalDigits (n : Nat) : List Char := Nat.toDigits 10 n

section

variable [FloatText]

/-- `Display` of a number. A float that is not finite is written as `null`. -/
def JsonNumber.text : JsonNumber → List Char
  | posInt n => decimalDigits n.toNat
  | negInt n => (if n.toInt < 0 then ['-'] else []) ++ decimalDigits n.toInt.natAbs
  | float f => if f.isFinite = true then FloatText.formatFinite f else ['n', 'u', 'l', 'l']

/-! ## Strings -/

omit [FloatText] in
/-- A character of a string as it is written. -/
def escape (c : Char) : List Char :=
  if c = '"' then ['\\', '"']
  else if c = '\\' then ['\\', '\\']
  else if c.toNat = 8 then ['\\', 'b']
  else if c = '\t' then ['\\', 't']
  else if c = '\n' then ['\\', 'n']
  else if c.toNat = 12 then ['\\', 'f']
  else if c = '\r' then ['\\', 'r']
  else if c.toNat < 32 then ['\\', 'u', '0', '0', (c.toNat / 16).digitChar,
    (c.toNat % 16).digitChar]
  else [c]

omit [FloatText] in
def jsonString (s : String) : List Char := '"' :: (s.toList.flatMap escape ++ ['"'])

/-! ## Values -/

omit [FloatText] in
/-- The comma in front of an entry that is not the first. -/
def separator (first : Bool) : List Char := if first then [] else [',']

mutual

def compact : JsonValue → List Char
  | .null => ['n', 'u', 'l', 'l']
  | .bool true => ['t', 'r', 'u', 'e']
  | .bool false => ['f', 'a', 'l', 's', 'e']
  | .number n => n.text
  | .string s => jsonString s
  | .array xs => '[' :: (compactItems true xs ++ [']'])
  | .object map => '{' :: (compactEntries true map ++ ['}'])

def compactItems (first : Bool) : List JsonValue → List Char
  | [] => []
  | x :: xs => separator first ++ (compact x ++ compactItems false xs)

def compactEntries (first : Bool) : List (String × JsonValue) → List Char
  | [] => []
  | (key, x) :: rest =>
      separator first ++ ((jsonString key ++ ':' :: compact x) ++ compactEntries false rest)

end

end

/-! ## Values without hazards -/

/-- The magnitude of an integer fits an `i64`. -/
def JsonNumber.Fits : JsonNumber → Prop
  | posInt n => n.toNat ≤ Int64.maxValue.toInt.toNat
  | negInt n => n.toInt.natAbs ≤ Int64.maxValue.toInt.toNat
  | float _ => True

mutual

/-- No string and no key holds a double quote, and every integer has a magnitude that fits. -/
def JsonValue.Portable : JsonValue → Prop
  | .null => True
  | .bool _ => True
  | .number n => n.Fits
  | .string s => '"' ∉ s.toList
  | .array xs => PortableItems xs
  | .object map => PortableEntries map

def JsonValue.PortableItems : List JsonValue → Prop
  | [] => True
  | x :: xs => x.Portable ∧ PortableItems xs

def JsonValue.PortableEntries : List (String × JsonValue) → Prop
  | [] => True
  | (key, x) :: rest => ('"' ∉ key.toList ∧ x.Portable) ∧ PortableEntries rest

end

/-! ## Inside and outside of strings -/

/-- What stands between the quotes of a string. -/
inductive Content : List Char → Prop where
  | nil : Content []
  | plain {c : Char} {cs : List Char} (visible : c ≠ '"' ∧ c ≠ '\\' ∧ c ≠ '\n')
      (later : Content cs) :
      Content (c :: cs)
  | escape {c : Char} {cs : List Char} (other : c ≠ '\'' ∧ c ≠ '\n') (later : Content cs) :
      Content ('\\' :: c :: cs)

/-- Strings, and between them characters that are neither quotes nor newlines. -/
inductive Outside : List Char → Prop where
  | nil : Outside []
  | bare {c : Char} {cs : List Char} (other : c ≠ '"' ∧ c ≠ '\'' ∧ c ≠ '\n') (later : Outside cs) :
      Outside (c :: cs)
  | string {body cs : List Char} (inside : Content body) (later : Outside cs) :
      Outside ('"' :: (body ++ '"' :: cs))

theorem Content.append {cs ds : List Char} (h : Content cs) (later : Content ds) :
    Content (cs ++ ds) := by
  induction h with
  | nil => exact later
  | plain visible _ ih => exact .plain visible ih
  | escape other _ ih => exact .escape other ih

theorem Outside.append {cs ds : List Char} (h : Outside cs) (later : Outside ds) :
    Outside (cs ++ ds) := by
  induction h with
  | nil => exact later
  | bare other _ ih => exact .bare other ih
  | string inside _ ih =>
      rw [List.cons_append, List.append_assoc, List.cons_append]
      exact .string inside ih

theorem outside_of_all {cs : List Char} (h : ∀ c ∈ cs, c ≠ '"' ∧ c ≠ '\'' ∧ c ≠ '\n') :
    Outside cs := by
  induction cs with
  | nil => exact .nil
  | cons c cs ih => exact .bare (h c List.mem_cons_self) (ih fun d member =>
      h d (List.mem_cons_of_mem c member))

theorem content_hex {n : Nat} (small : n < 16) {cs : List Char} (later : Content cs) :
    Content (n.digitChar :: cs) := by
  refine .plain ?_ later
  revert n
  decide

/-- An escaped character stands in a string. -/
theorem content_escape (c : Char) : Content (escape c) := by
  unfold escape
  split
  · exact .escape (by decide) .nil
  split
  · exact .escape (by decide) .nil
  split
  · exact .escape (by decide) .nil
  split
  · exact .escape (by decide) .nil
  split
  · exact .escape (by decide) .nil
  split
  · exact .escape (by decide) .nil
  split
  · exact .escape (by decide) .nil
  split
  · next control =>
      refine .escape (by decide) (.plain (by decide) (.plain (by decide) ?_))
      exact content_hex (by omega) (content_hex (by omega) .nil)
  · next quote slash _ _ newline _ _ _ => exact .plain ⟨quote, slash, newline⟩ .nil

theorem content_escaped (cs : List Char) : Content (cs.flatMap escape) := by
  induction cs with
  | nil => exact .nil
  | cons c cs ih => exact (content_escape c).append ih

theorem outside_jsonString (s : String) : Outside (jsonString s) := .string (content_escaped _) .nil

/-- An unescaped quote stays away. -/
theorem not_mem_escape {c : Char} (other : c ≠ '"') : '"' ∉ escape c := by
  unfold escape
  rw [if_neg other]
  split
  · decide
  split
  · decide
  split
  · decide
  split
  · decide
  split
  · decide
  split
  · decide
  split
  · next control =>
      have digit : ∀ n < 16, '"' ≠ n.digitChar := by decide
      have first := digit (c.toNat / 16) (by omega)
      have second := digit (c.toNat % 16) (by omega)
      simp [first, second]
  · simpa using Ne.symm other

theorem not_mem_escaped {cs : List Char} (none_in : '"' ∉ cs) : '"' ∉ cs.flatMap escape := by
  rw [List.mem_flatMap]
  rintro ⟨c, member, inside⟩
  exact not_mem_escape (fun same => none_in (same ▸ member)) inside

/-- No line ends in a string. -/
theorem Content.line {cs : List Char} (h : Content cs) : '\n' ∉ cs := by
  induction h with
  | nil => simp
  | plain visible _ ih => simp [Ne.symm visible.2.2, ih]
  | escape other _ ih => simp [Ne.symm other.2, ih]

theorem Outside.line {cs : List Char} (h : Outside cs) : '\n' ∉ cs := by
  induction h with
  | nil => simp
  | bare other _ ih => simp [Ne.symm other.2.2, ih]
  | string inside _ ih => simp [inside.line, ih]

/-! ## Places inside of a string -/

/-- The rest of a text from a place inside of a string on. -/
def Stray (cs : List Char) : Prop :=
  ∃ body rest, Content body ∧ Outside rest ∧ cs = body ++ '"' :: rest

/-- A single quote stands in a string or nowhere. -/
theorem Content.single {body : List Char} (h : Content body) (more : List Char) :
    (body ++ more).dropWhile (· ≠ '\'') = more.dropWhile (· ≠ '\'') ∨
      ∃ post, Content post ∧ (body ++ more).dropWhile (· ≠ '\'') = '\'' :: (post ++ more) := by
  induction h with
  | nil => exact .inl rfl
  | @plain c cs _ later ih =>
      by_cases quote : c = '\''
      · exact .inr ⟨cs, later, by rw [quote]; rfl⟩
      · rw [List.cons_append, List.dropWhile_cons_of_pos (by simpa using quote)]
        exact ih
  | @escape c cs other later ih =>
      rw [List.cons_append, List.cons_append, List.dropWhile_cons_of_pos (by decide),
        List.dropWhile_cons_of_pos (by simpa using other.1)]
      exact ih

theorem Outside.single {cs : List Char} (h : Outside cs) (more : List Char) :
    (cs ++ more).dropWhile (· ≠ '\'') = more.dropWhile (· ≠ '\'') ∨
      ∃ post, Stray post ∧ (cs ++ more).dropWhile (· ≠ '\'') = '\'' :: (post ++ more) := by
  induction h with
  | nil => exact .inl rfl
  | bare other _ ih =>
      rw [List.cons_append, List.dropWhile_cons_of_pos (by simpa using other.2.1)]
      exact ih
  | @string body cs inside later ih =>
      rw [List.cons_append, List.dropWhile_cons_of_pos (by decide), List.append_assoc,
        List.cons_append]
      obtain passed | ⟨post, rest, found⟩ := inside.single ('"' :: (cs ++ more))
      · rw [passed, List.dropWhile_cons_of_pos (by decide)]
        exact ih
      · refine .inr ⟨post ++ '"' :: cs, ⟨post, cs, rest, later, rfl⟩, ?_⟩
        rw [found, List.append_assoc, List.cons_append]

/-- The next double quote behind a string opens another one. -/
theorem Outside.double {cs : List Char} (h : Outside cs) (more : List Char) :
    (cs ++ more).dropWhile (· ≠ '"') = more.dropWhile (· ≠ '"') ∨
      ∃ post, Stray post ∧ (cs ++ more).dropWhile (· ≠ '"') = '"' :: (post ++ more) := by
  induction h with
  | nil => exact .inl rfl
  | bare other _ ih =>
      rw [List.cons_append, List.dropWhile_cons_of_pos (by simpa using other.1)]
      exact ih
  | @string body cs inside later _ =>
      refine .inr ⟨body ++ '"' :: cs, ⟨body, cs, inside, later, rfl⟩, ?_⟩
      rw [List.cons_append, List.dropWhile_cons_of_neg (by decide)]

/-- Behind characters that are neither quotes nor backslashes the string goes on. -/
theorem Content.behind {body rest text left : List Char} (h : Content body)
    (split : body ++ '"' :: rest = text ++ left) (plain : ∀ c ∈ text, c ≠ '"' ∧ c ≠ '\\') :
    ∃ body', Content body' ∧ left = body' ++ '"' :: rest := by
  induction text generalizing body with
  | nil => exact ⟨body, h, split.symm⟩
  | cons c text ih =>
      have own := plain c List.mem_cons_self
      have others : ∀ d ∈ text, d ≠ '"' ∧ d ≠ '\\' := fun d member =>
        plain d (List.mem_cons_of_mem c member)
      cases h with
      | nil => exact absurd (List.cons.inj split).1.symm own.1
      | plain _ later => exact ih later (List.cons.inj split).2 others
      | escape _ _ => exact absurd (List.cons.inj split).1.symm own.2

/-! ## The text of a value -/

theorem digits_decimalDigits (n : Nat) : Digits (decimalDigits n) :=
  ⟨Nat.toDigits_ne_nil, fun _ member => Nat.isDigit_of_mem_toDigits (by decide) (by decide) member⟩

theorem digitsToNat_decimalDigits (n : Nat) : digitsToNat (decimalDigits n) = n := by
  have read : Nat.ofDigitChars 10 (decimalDigits n) 0 = n := Nat.ofDigitChars_ten_toDigits
  rwa [Nat.ofDigitChars_eq_foldl] at read

theorem digitsToNat_lt {ds : List Char} (h : ∀ c ∈ ds, c.isDigit = true) :
    digitsToNat ds < 10 ^ ds.length := by
  have step : ∀ n : Nat, ds.foldl (fun n c => 10 * n + (c.toNat - '0'.toNat)) n <
      (n + 1) * 10 ^ ds.length := by
    induction ds with
    | nil =>
        intro n
        simp
    | cons c ds ih =>
        intro n
        have digit := isDigit_iff.mp (h c List.mem_cons_self)
        have zero : '0'.toNat = 48 := rfl
        have rest :=
          ih (fun d member => h d (List.mem_cons_of_mem c member)) (10 * n + (c.toNat - '0'.toNat))
        have small : 10 * n + (c.toNat - '0'.toNat) + 1 ≤ (n + 1) * 10 := by omega
        calc ds.foldl (fun n c => 10 * n + (c.toNat - '0'.toNat)) (10 * n + (c.toNat - '0'.toNat))
            < (10 * n + (c.toNat - '0'.toNat) + 1) * 10 ^ ds.length := rest
          _ ≤ ((n + 1) * 10) * 10 ^ ds.length := Nat.mul_le_mul_right _ small
          _ = (n + 1) * 10 ^ (c :: ds).length := by
              rw [List.length_cons, Nat.pow_succ, Nat.mul_assoc, Nat.mul_comm 10]
  have whole := step 0
  rwa [Nat.zero_add, Nat.one_mul] at whole

theorem Digits.point {ds : List Char} (h : Digits ds) : '.' ∉ ds := by
  intro member
  cases h.all '.' member

theorem Digits.first {ds : List Char} (h : Digits ds) (more : List Char) :
    ∃ c, (ds ++ more).head? = some c ∧ c.isDigit = true := by
  obtain ⟨c, rest, rfl⟩ := List.exists_cons_of_ne_nil h.nonempty
  exact ⟨c, rfl, h.all c List.mem_cons_self⟩

/-- A digit is no quote and no newline. -/
theorem Digits.outside {cs : List Char} (h : Digits cs) : Outside cs := by
  refine outside_of_all fun c member => ?_
  have digit := h.all c member
  refine ⟨?_, ?_, ?_⟩ <;> rintro rfl <;> cases digit

theorem IsSign.outside {cs : List Char} (h : IsSign cs) : Outside cs := by
  rcases h with rfl | rfl
  · exact .nil
  · exact .bare (by decide) .nil

theorem IsExponentSign.outside {cs : List Char} (h : IsExponentSign cs) : Outside cs := by
  rcases h with rfl | minus
  · exact .bare (by decide) .nil
  · exact minus.outside

theorem IsDecimal.outside {text : List Char} (h : IsDecimal text) : Outside text := by
  obtain ⟨sign, whole, frac, exp, rfl, signed, digits, fraction, exponent⟩ := h
  refine signed.outside.append (digits.outside.append (Outside.append ?_ ?_))
  · obtain ⟨rfl, _⟩ | ⟨ds, rfl, more⟩ := fraction
    · exact .nil
    · exact .bare (by decide) more.outside
  · obtain rfl | ⟨sign, ds, rfl, signed, more, _⟩ := exponent
    · exact .nil
    · exact .bare (by decide) (signed.outside.append more.outside)

theorem outside_separator (first : Bool) : Outside (separator first) := by
  cases first with
  | true => exact .nil
  | false => exact .bare (by decide) .nil

section

variable [FloatText]

theorem JsonNumber.outside (n : JsonNumber) : Outside n.text := by
  cases n with
  | posInt n => exact (digits_decimalDigits _).outside
  | negInt n =>
      refine Outside.append ?_ (digits_decimalDigits _).outside
      split
      · exact .bare (by decide) .nil
      · exact .nil
  | float f =>
      rw [text]
      split
      · next finite => exact (FloatText.decimal f finite).outside
      · exact outside_of_all (by simp)

omit [FloatText] in
/-- Induction over the entries of arrays and objects. -/
theorem JsonValue.induct {P : JsonValue → Prop} (null : P .null) (bool : ∀ b, P (.bool b))
    (number : ∀ n, P (.number n)) (string : ∀ s, P (.string s))
    (array : ∀ xs : List JsonValue, (∀ x ∈ xs, P x) → P (.array xs))
    (object : ∀ map : List (String × JsonValue), (∀ e ∈ map, P e.2) → P (.object map))
    (v : JsonValue) :
    P v := by
  refine @JsonValue.rec P (fun xs => ∀ x ∈ xs, P x) (fun map => ∀ e ∈ map, P e.2) (fun e => P e.2)
    null bool number string array object ?_ ?_ ?_ ?_ ?_ v
  · intro x member
    cases member
  · intro x xs head tail y member
    rcases List.mem_cons.mp member with rfl | later
    · exact head
    · exact tail y later
  · intro e member
    cases member
  · intro e map head tail y member
    rcases List.mem_cons.mp member with rfl | later
    · exact head
    · exact tail y later
  · exact fun key x own => own

theorem outside_items {xs : List JsonValue} (h : ∀ x ∈ xs, Outside (compact x)) (first : Bool) :
    Outside (compactItems first xs) := by
  induction xs generalizing first with
  | nil => exact .nil
  | cons x xs ih =>
      have rest := ih (fun y member => h y (List.mem_cons_of_mem x member)) false
      exact (outside_separator first).append ((h x List.mem_cons_self).append rest)

theorem outside_entries {map : List (String × JsonValue)} (h : ∀ e ∈ map, Outside (compact e.2))
    (first : Bool) : Outside (compactEntries first map) := by
  induction map generalizing first with
  | nil => exact .nil
  | cons e map ih =>
      obtain ⟨key, x⟩ := e
      have rest := ih (fun y member => h y (List.mem_cons_of_mem _ member)) false
      have entry := (outside_jsonString key).append
        (@Outside.bare ':' _ (by decide) (h (key, x) List.mem_cons_self))
      exact (outside_separator first).append (entry.append rest)

/-- The strings of a value are the only quotes in its text. -/
theorem outside_compact (v : JsonValue) : Outside (compact v) := by
  induction v using JsonValue.induct with
  | null => exact @outside_of_all ['n', 'u', 'l', 'l'] (by simp)
  | bool b =>
      cases b with
      | true => exact @outside_of_all ['t', 'r', 'u', 'e'] (by simp)
      | false => exact @outside_of_all ['f', 'a', 'l', 's', 'e'] (by simp)
  | number n => exact n.outside
  | string s => exact outside_jsonString s
  | array xs inside =>
      exact .bare (by decide) ((outside_items inside true).append (.bare (by decide) .nil))
  | object map inside =>
      exact .bare (by decide) ((outside_entries inside true).append (.bare (by decide) .nil))

end

end SignalTopology
