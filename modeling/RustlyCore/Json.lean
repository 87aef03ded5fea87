import Mathlib.Data.List.Basic
import Mathlib.Data.String.Basic
import RustlyCore.Lib.Binary64

/-!
# JSON values (`serde_json`)

The document type of the parser library, with its default features: integers that fit are held as
`u64` or negative `i64`, every other number as `f64`, and an object is a map sorted by key.
-/

namespace RustlyCore

/-- `negInt` holds negative numbers only. -/
inductive JsonNumber where
  | posInt (n : UInt64)
  | negInt (i : Int64)
  | float (f : Float)

namespace JsonNumber

/-- `From<i64>`. -/
def ofI64 (i : Int64) : JsonNumber := if i < 0 then .negInt i else .posInt i.toUInt64

/-- `None` for infinities and `NaN`. -/
def ofF64 (f : Float) : Option JsonNumber := if f.isFinite then some (.float f) else none

def asI64 : JsonNumber → Option Int64
  | .posInt n => if n.toNat ≤ Int64.maxValue.toInt.toNat then some n.toInt64 else none
  | .negInt i => some i
  | .float _ => none

def asU64 : JsonNumber → Option UInt64
  | .posInt n => some n
  | _ => none

def asF64 : JsonNumber → Option Float
  | .posInt n => some n.toFloat
  | .negInt i => some (Binary64.ofI64 i)
  | .float f => some f

end JsonNumber

inductive JsonValue where
  | null
  | bool (b : Bool)
  | number (n : JsonNumber)
  | string (s : String)
  | array (items : List JsonValue)
  | object (map : List (String × JsonValue))

/-- Entries in key order. -/
abbrev JsonMap := List (String × JsonValue)

namespace JsonMap

def insert (map : JsonMap) (key : String) (value : JsonValue) : JsonMap :=
  match map with
  | [] => [(key, value)]
  | (k, v) :: rest =>
    if key < k then (key, value) :: (k, v) :: rest
    else if key = k then (key, value) :: rest
    else (k, v) :: insert rest key value

def get (map : JsonMap) (key : String) : Option JsonValue := List.lookup key map

/-- `Map::remove`: the value under the key, and the map without it. -/
def remove (map : JsonMap) (key : String) : Option JsonValue × JsonMap :=
  (map.get key, map.filter fun entry => entry.1 != key)

end JsonMap

namespace JsonValue

@[induction_eliminator]
theorem induct {motive : JsonValue → Prop}
    (null : motive .null) (bool : ∀ b, motive (.bool b)) (number : ∀ n, motive (.number n))
    (string : ∀ s, motive (.string s))
    (array : ∀ items, (∀ j ∈ items, motive j) → motive (.array items))
    (object : ∀ map : JsonMap, (∀ p ∈ map, motive p.2) → motive (.object map))
    (j : JsonValue) : motive j :=
  @JsonValue.rec motive (fun items => ∀ j ∈ items, motive j) (fun map => ∀ p ∈ map, motive p.2)
    (fun p => motive p.2) null bool number string array object
    (by simp) (fun _ _ h hs => List.forall_mem_cons.2 ⟨h, hs⟩)
    (by simp) (fun _ _ h hs => List.forall_mem_cons.2 ⟨h, hs⟩) (fun _ _ h => h) j

def ofI64 (i : Int64) : JsonValue := .number (.ofI64 i)

def asStr : JsonValue → Option String
  | .string s => some s
  | _ => none

def asArray : JsonValue → Option (List JsonValue)
  | .array items => some items
  | _ => none

def asObject : JsonValue → Option JsonMap
  | .object map => some map
  | _ => none

def asI64 : JsonValue → Option Int64
  | .number n => n.asI64
  | _ => none

def asU64 : JsonValue → Option UInt64
  | .number n => n.asU64
  | _ => none

def asF64 : JsonValue → Option Float
  | .number n => n.asF64
  | _ => none

end JsonValue
end RustlyCore
