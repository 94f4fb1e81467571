import SignalTopology.Schema

/-!
# What the crate takes from outside

`RustStd` collects the parts of Rust's standard library that rest on tables the
repository does not hold: Unicode's alphabetic and numeric classes, and the
`{:?}` rendering of strings and floats. Its laws are the documented ones the
lexers rely on. `SerdeJson` stands for the third-party parser and printer of
JSON text. Everything below is stated for all of them.
-/

namespace SignalTopology

/-- `char::is_whitespace`, the Unicode property `White_Space`. -/
def isWhitespace (c : Char) : Bool :=
  (0x9 ≤ c.toNat && c.toNat ≤ 0xD) || c.toNat = 0x20 || c.toNat = 0x85 || c.toNat = 0xA0 ||
    c.toNat = 0x1680 || (0x2000 ≤ c.toNat && c.toNat ≤ 0x200A) || c.toNat = 0x2028 ||
    c.toNat = 0x2029 || c.toNat = 0x202F || c.toNat = 0x205F || c.toNat = 0x3000

/-- The table-driven parts of the standard library. -/
class RustStd where
  /-- `char::is_alphabetic` -/
  isAlphabetic : Char → Bool
  /-- `char::is_numeric` -/
  isNumeric : Char → Bool
  /-- `{:?}` of a string -/
  debugStr : String → String
  /-- `{:?}` of an `f64` -/
  debugF64 : Float → String
  isAlphabetic_ascii : ∀ c : Char, c.toNat < 128 → isAlphabetic c = c.isAlpha
  isNumeric_ascii : ∀ c : Char, c.toNat < 128 → isNumeric c = c.isDigit
  isAlphabetic_whitespace : ∀ c : Char, isWhitespace c = true → isAlphabetic c = false
  isNumeric_whitespace : ∀ c : Char, isWhitespace c = true → isNumeric c = false

theorem isAlpha_iff {c : Char} : c.isAlpha = true ↔
    (65 ≤ c.toNat ∧ c.toNat ≤ 90) ∨ (97 ≤ c.toNat ∧ c.toNat ≤ 122) := by
  have same : c.val.toNat = c.toNat := rfl
  have upper : 'A'.val.toNat = 65 ∧ 'Z'.val.toNat = 90 := by decide
  have lower : 'a'.val.toNat = 97 ∧ 'z'.val.toNat = 122 := by decide
  show (decide (c.val ≥ 'A'.val ∧ c.val ≤ 'Z'.val) ||
    (decide (c.val ≥ 'a'.val) && decide (c.val ≤ 'z'.val))) = true ↔ _
  simp only [Bool.or_eq_true, Bool.and_eq_true, decide_eq_true_eq, ge_iff_le,
    UInt32.le_iff_toNat_le]
  omega

theorem isDigit_iff {c : Char} : c.isDigit = true ↔ 48 ≤ c.toNat ∧ c.toNat ≤ 57 := by
  have same : c.val.toNat = c.toNat := rfl
  have digits : '0'.val.toNat = 48 ∧ '9'.val.toNat = 57 := by decide
  show (decide (c.val ≥ '0'.val) && decide (c.val ≤ '9'.val)) = true ↔ _
  simp only [Bool.and_eq_true, decide_eq_true_eq, ge_iff_le, UInt32.le_iff_toNat_le]
  omega

/-- The standard library cut down to ASCII, for concrete runs. -/
@[reducible] def RustStd.ascii : RustStd where
  isAlphabetic := Char.isAlpha
  isNumeric := Char.isDigit
  debugStr s := "\"" ++ s ++ "\""
  debugF64 f := toString f.toBits
  isAlphabetic_ascii _ _ := rfl
  isNumeric_ascii _ _ := rfl
  isAlphabetic_whitespace c blank := by
    simp only [isWhitespace, Bool.or_eq_true, Bool.and_eq_true, decide_eq_true_eq] at blank
    rw [Bool.eq_false_iff, ne_eq, isAlpha_iff]
    omega
  isNumeric_whitespace c blank := by
    simp only [isWhitespace, Bool.or_eq_true, Bool.and_eq_true, decide_eq_true_eq] at blank
    rw [Bool.eq_false_iff, ne_eq, isDigit_iff]
    omega

/-- `char::is_alphanumeric`. -/
def isAlphanumeric [RustStd] (c : Char) : Bool :=
  RustStd.isAlphabetic c || RustStd.isNumeric c

/-- Parsing and printing of JSON text. A failure carries the crate's message. -/
class SerdeJson where
  /-- `serde_json::from_str::<Value>` -/
  valueFromStr : String → Except String JsonValue
  /-- `serde_json::from_str::<TopologySchema>` -/
  schemaFromStr : String → Except String TopologySchema
  /-- the compact `Display` of a value -/
  valueToString : JsonValue → String

/-- JSON text cut down to the three keywords and one object, for concrete runs. -/
@[reducible] def SerdeJson.keywords : SerdeJson where
  valueFromStr text :=
    match text with
    | "null" => .ok .null
    | "true" => .ok (.bool true)
    | "false" => .ok (.bool false)
    | "\x7b \"auto\": true \x7d" => .ok (.object [("auto", .bool true)])
    | _ => .error "expected value at line 1 column 1"
  schemaFromStr _ := .error "expected value at line 1 column 1"
  valueToString
    | .bool true => "true"
    | .bool false => "false"
    | _ => "null"

/-- The value of a run of ASCII digits. -/
def digitsToNat (digits : List Char) : Nat :=
  digits.foldl (fun n c => 10 * n + (c.toNat - '0'.toNat)) 0

/-- `str::parse::<i64>` of a non-empty run of ASCII digits. -/
def parseI64 (digits : List Char) : Option Int64 :=
  if digitsToNat digits ≤ Int64.maxValue.toInt.toNat then
    some (Int64.ofNat (digitsToNat digits))
  else none

/-- `str::parse::<f64>` of ASCII digits around one decimal point, which never
fails. -/
def parseF64 (text : List Char) : Float :=
  Float.ofScientific (digitsToNat (text.filter Char.isDigit)) true
    (text.dropWhile (· ≠ '.')).tail.length

/-- `Result::map_err`. -/
def mapErr {ε δ α : Type} (f : ε → δ) : Except ε α → Except δ α
  | .ok a => .ok a
  | .error e => .error (f e)

end SignalTopology
