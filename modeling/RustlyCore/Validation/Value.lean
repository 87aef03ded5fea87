import RustlyCore.Schema.Ir
import RustlyCore.Json

/-!
# Values and options of a validation (`validation/value.rs`, `validation/options.rs`)
-/

namespace RustlyCore

structure OwnedStruct (α : Type) where
  names : List String
  fields : List (Option α)
  extras : Option (List (String × α))

inductive OwnedValue where
  | null
  | bool (b : Bool)
  | int (i : Int64)
  | float (f : Float)
  | string (s : String)
  | symbol (s : String)
  | list (items : List OwnedValue)
  | dict (entries : List (String × OwnedValue))
  | struct (structure_ : OwnedStruct OwnedValue)

abbrev OwnedDict := List (String × OwnedValue)

namespace OwnedValue

@[induction_eliminator]
theorem induct {motive : OwnedValue → Prop}
    (null : motive .null) (bool : ∀ b, motive (.bool b)) (int : ∀ i, motive (.int i))
    (float : ∀ f, motive (.float f)) (string : ∀ s, motive (.string s))
    (symbol : ∀ s, motive (.symbol s))
    (list : ∀ items, (∀ v ∈ items, motive v) → motive (.list items))
    (dict : ∀ entries, (∀ p ∈ entries, motive p.2) → motive (.dict entries))
    (struct : ∀ names fields extras, (∀ v, some v ∈ fields → motive v) →
      (∀ es, extras = some es → ∀ p ∈ es, motive p.2) → motive (.struct ⟨names, fields, extras⟩))
    (v : OwnedValue) : motive v :=
  @OwnedValue.rec motive (fun items => ∀ v ∈ items, motive v)
    (fun entries => ∀ p ∈ entries, motive p.2) (fun s => motive (.struct s)) (fun p => motive p.2)
    (fun fields => ∀ v, some v ∈ fields → motive v)
    (fun extras => ∀ es, extras = some es → ∀ p ∈ es, motive p.2)
    (fun field => ∀ v, field = some v → motive v)
    null bool int float string symbol list dict (fun _ h => h)
    (by simp) (fun _ _ h hs => List.forall_mem_cons.2 ⟨h, hs⟩)
    (by simp) (fun _ _ h hs => List.forall_mem_cons.2 ⟨h, hs⟩)
    struct (fun _ _ h => h)
    (by simp) (fun _ _ h hs v hv => (List.mem_cons.1 hv).elim (fun heq => h v heq.symm) (hs v))
    (by simp) (fun _ h es heq => Option.some.inj heq ▸ h)
    (by simp) (fun _ h w heq => Option.some.inj heq ▸ h) v

def typeName : OwnedValue → String
  | .null => "null"
  | .bool _ => "bool"
  | .int _ => "int"
  | .float _ => "float"
  | .string _ => "str"
  | .symbol _ => "sym"
  | .list _ => "list"
  | .dict _ => "dict"
  | .struct _ => "struct"

mutual
/-- `OwnedValue::from_json`. Only numbers that fit `i64` become integers. -/
def fromJson : JsonValue → OwnedValue
  | .null => .null
  | .bool b => .bool b
  | .number num =>
    match num.asI64 with
    | some i => .int i
    | none => .float (num.asF64.getD 0.0)
  | .string s => .string s
  | .array items => .list (fromItems items)
  | .object map => .dict (fromEntries map)

def fromItems : List JsonValue → List OwnedValue
  | [] => []
  | item :: items => fromJson item :: fromItems items

def fromEntries : List (String × JsonValue) → OwnedDict
  | [] => []
  | (key, value) :: map => (key, fromJson value) :: fromEntries map
end

theorem fromItems_eq_map (items : List JsonValue) : fromItems items = items.map fromJson := by
  induction items with
  | nil => rfl
  | cons item items ih => rw [fromItems, ih, List.map_cons]

theorem fromEntries_eq_map (map : JsonMap) :
    fromEntries map = map.map fun p => (p.1, fromJson p.2) := by
  induction map with
  | nil => rfl
  | cons entry map ih => rw [fromEntries, ih, List.map_cons]

end OwnedValue

inductive InputMode where
  | auto
  | json
  | ruby
deriving DecidableEq

inductive FreezeMode where
  | deep
  | shallow
  | none
deriving DecidableEq

structure ValidationOptions where
  strict : Bool := false
  inputMode : InputMode := .auto
  extraBehavior : ExtraBehavior := .forbid
  freeze : FreezeMode := .none
  storeAttributes : Bool := false
deriving DecidableEq

end RustlyCore
