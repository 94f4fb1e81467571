import Mathlib.Data.List.AList

/-!
# JSON values

The tree `serde_json` hands to the engine as an event payload and to the DDL
tool as the compiled output. A number keeps the three cases of the crate's own
representation, so a read as `i64` or as `f64` is decided by the case and not
by the digits. An object is a `BTreeMap`: its keys are unique and ascending.
-/

namespace SignalTopology

/-- `serde_json::Number`: a non-negative integer, a negative one, or a float. -/
inductive JsonNumber where
  | posInt (n : UInt64)
  | negInt (n : Int64)
  | float (f : Float)
  deriving DecidableEq

namespace JsonNumber

/-- `Number::as_i64`. -/
def asI64 : JsonNumber → Option Int64
  | posInt n => if n.toNat ≤ Int64.maxValue.toInt.toNat then some (Int64.ofNat n.toNat) else none
  | negInt n => some n
  | float _ => none

/-- `Number::as_f64`. -/
def asF64 : JsonNumber → Option Float
  | posInt n => some (Float.ofNat n.toNat)
  | negInt n => some (Float.ofInt n.toInt)
  | float f => some f

end JsonNumber

/-- `serde_json::Value`. -/
inductive JsonValue where
  | null
  | bool (b : Bool)
  | number (n : JsonNumber)
  | string (s : String)
  | array (xs : List JsonValue)
  | object (map : List (String × JsonValue))

/-- `serde_json::Map` without the `preserve_order` feature, in key order. -/
abbrev JsonMap := List (String × JsonValue)

namespace JsonMap

/-- `Map::insert`: a present key takes the new value, an absent one its place. -/
def insert (map : JsonMap) (key : String) (value : JsonValue) : JsonMap :=
  match map with
  | [] => [(key, value)]
  | (k, v) :: rest =>
      if key < k then (key, value) :: (k, v) :: rest
      else if key = k then (key, value) :: rest
      else (k, v) :: insert rest key value

/-- `Map::get`. -/
def get (map : JsonMap) (key : String) : Option JsonValue :=
  match map with
  | [] => none
  | (k, v) :: rest => if k = key then some v else get rest key

@[simp] theorem get_nil (key : String) : get [] key = none := rfl

theorem get_insert_same (map : JsonMap) (key : String) (value : JsonValue) :
    get (insert map key value) key = some value := by
  induction map with
  | nil => simp [insert, get]
  | cons entry rest ih =>
      obtain ⟨k, v⟩ := entry
      simp only [insert]
      split
      · simp [get]
      · split
        · simp [get]
        · next different => simpa [get, Ne.symm different] using ih

theorem get_insert_ne (map : JsonMap) {key other : String} (value : JsonValue)
    (different : other ≠ key) : get (insert map key value) other = get map other := by
  induction map with
  | nil => simp [insert, get, Ne.symm different]
  | cons entry rest ih =>
      obtain ⟨k, v⟩ := entry
      simp only [insert]
      split
      · simp [get, Ne.symm different]
      · split
        · next same =>
            subst same
            simp [get, Ne.symm different]
        · simp only [get, ih]

/-- Reading a map after one insertion. -/
theorem get_insert (map : JsonMap) (key other : String) (value : JsonValue) :
    get (insert map key value) other = if other = key then some value else get map other := by
  by_cases same : other = key
  · rw [if_pos same, same, get_insert_same]
  · rw [if_neg same, get_insert_ne map value same]

end JsonMap

end SignalTopology
