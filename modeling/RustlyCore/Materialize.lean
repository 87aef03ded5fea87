import RustlyCore.Schema.Compiled

/-!
# Materialising an output (`materialize.rs`)

A validated struct becomes an instance whose instance variables hold its fields. Everything below
the root becomes nil, booleans, numbers, Strings, Symbols, Arrays and Hashes.
-/

namespace RustlyCore

inductive MaterializeError where
  | unsupportedRoot (actual : String)
  | invalidSymbol (name : String)
  | invalidKey (name : String)

namespace RubyValue

/-- `rb_obj_freeze`. The other values are frozen from the start. -/
def freeze : RubyValue → RubyValue
  | .string basic bytes => .string { basic with frozen := true } bytes
  | .array basic items => .array { basic with frozen := true } items
  | .hash basic entries => .hash { basic with frozen := true } entries
  | .object basic ivars => .object { basic with frozen := true } ivars
  | value => value

mutual
/-- `deep_freeze_value`. The instance variables of an object are not visited. -/
def deepFreeze : RubyValue → RubyValue
  | .array basic items => .array { basic with frozen := true } (deepFreezeItems items)
  | .hash basic entries => .hash { basic with frozen := true } (deepFreezeEntries entries)
  | value => value.freeze

def deepFreezeItems : List RubyValue → List RubyValue
  | [] => []
  | item :: items => deepFreeze item :: deepFreezeItems items

def deepFreezeEntries : List (RubyValue × RubyValue) → List (RubyValue × RubyValue)
  | [] => []
  | (key, value) :: entries => (deepFreeze key, deepFreeze value) :: deepFreezeEntries entries
end

end RubyValue

/-- `rb_hash_aset`: a String key is stored as a frozen copy. -/
def hashAset (entries : List (RubyValue × RubyValue)) (key value : RubyValue) :
    List (RubyValue × RubyValue) :=
  match entries with
  | [] => [(key.freeze, value)]
  | (k, v) :: entries =>
    if k.sameKey key then (k, value) :: entries else (k, v) :: hashAset entries key value

theorem RubyValue.sameKey_freeze (a b : RubyValue) : a.freeze.sameKey b = a.sameKey b := by
  cases a <;> cases b <;> rfl

/-- `rb_hash_aset` changes what one key finds. -/
theorem hashLookup_hashAset (basic : RBasic) (entries : List (RubyValue × RubyValue))
    (key value key' : RubyValue) :
    (RubyValue.hash basic (hashAset entries key value)).hashLookup key' =
      if key.sameKey key' then some value else (RubyValue.hash basic entries).hashLookup key' := by
  induction entries with
  | nil => rw [hashAset, RubyValue.hashLookup_cons, RubyValue.sameKey_freeze]
  | cons p entries ih =>
    obtain ⟨k, v⟩ := p
    rw [hashAset]
    by_cases hk : k.sameKey key = true
    · rw [if_pos hk, RubyValue.hashLookup_cons, RubyValue.hashLookup_cons,
        RubyValue.sameKey_congr hk]
      split <;> rfl
    · rw [if_neg hk, RubyValue.hashLookup_cons, RubyValue.hashLookup_cons, ih]
      by_cases hk' : k.sameKey key' = true
      · have hne : ¬ key.sameKey key' = true := by
          intro h
          exact hk (RubyValue.sameKey_trans hk' (RubyValue.sameKey_symm h))
        rw [if_pos hk', if_neg hne, if_pos hk']
      · rw [if_neg hk', if_neg hk']

/-- What holds of the keys and the values still does if it holds of the entry that is set. -/
theorem forall_hashAset {P Q : RubyValue → Prop} {entries : List (RubyValue × RubyValue)}
    {key value : RubyValue} (h : ∀ p ∈ entries, P p.1 ∧ Q p.2) (hkey : P key.freeze)
    (hvalue : Q value) : ∀ p ∈ hashAset entries key value, P p.1 ∧ Q p.2 := by
  induction entries with
  | nil => exact List.forall_mem_singleton.2 ⟨hkey, hvalue⟩
  | cons entry entries ih =>
    obtain ⟨⟨hk, hv⟩, hentries⟩ := List.forall_mem_cons.1 h
    rw [hashAset]
    split
    · exact List.forall_mem_cons.2 ⟨⟨hk, hvalue⟩, hentries⟩
    · exact List.forall_mem_cons.2 ⟨⟨hk, hv⟩, ih hentries⟩

theorem hashAset_new {entries : List (RubyValue × RubyValue)} {key : RubyValue}
    (h : ∀ p ∈ entries, p.1.sameKey key = false) (value : RubyValue) :
    hashAset entries key value = entries ++ [(key.freeze, value)] := by
  induction entries with
  | nil => rfl
  | cons p entries ih =>
    obtain ⟨hp, hentries⟩ := List.forall_mem_cons.1 h
    rw [hashAset, if_neg (by simp [hp]), ih hentries, List.cons_append]

/-- `rb_ivar_set`. -/
def ivarSet {α : Type} (ivars : List (String × α)) (id : String) (value : α) :
    List (String × α) :=
  match ivars with
  | [] => [(id, value)]
  | (k, v) :: ivars => if k = id then (k, value) :: ivars else (k, v) :: ivarSet ivars id value

section
variable (x : Externals)

/-! ## Values -/

def symbolToValue (name : String) : Result MaterializeError RubyValue :=
  if Text.containsNul name then .fail (.invalidSymbol name)
  else return .id2sym (← intern x name)

def attributeKeyValue (name : String) : Result MaterializeError RubyValue :=
  if Text.containsNul name then .fail (.invalidKey name)
  else return .utf8Str name

variable {x} in
theorem symbolToValue_ok {key : String} {symbol : RubyValue}
    (h : symbolToValue x key = .ok symbol) : symbol = .id2sym key := by
  rw [symbolToValue] at h
  split at h
  next => cases h
  next =>
    obtain ⟨id, hid, h⟩ := Fallible.bind_eq_ok.1 h
    cases h
    rw [intern_ok hid]

theorem attributeKeyValue_ok {name : String} {key : RubyValue}
    (h : attributeKeyValue name = .ok key) : key = .utf8Str name := by
  rw [attributeKeyValue] at h
  split at h
  next => cases h
  next =>
    cases h
    rfl

mutual
def ownedValueToRuby : OwnedValue → Result MaterializeError RubyValue
  | .null => return .nil
  | .bool b => return .bool b
  | .int i => return .integer i.toInt
  | .float f => return .float f
  | .string s => return .utf8Str s
  | .symbol s => symbolToValue x s
  | .list items => return .array ⟨"Array", false⟩ (← itemsToRuby items)
  | .dict map => return .hash ⟨"Hash", false⟩ (← buildHash [] map)
  | .struct ⟨names, fields, extras⟩ => do
    let entries ← fieldsToRuby [] names fields
    let entries ← optionalExtrasToRuby entries extras
    return .hash ⟨"Hash", false⟩ entries

def itemsToRuby : List OwnedValue → Result MaterializeError (List RubyValue)
  | [] => return []
  | item :: items => do
    let rubyValue ← ownedValueToRuby item
    let items ← itemsToRuby items
    return rubyValue :: items

def buildHash (entries : List (RubyValue × RubyValue)) :
    List (String × OwnedValue) → Result MaterializeError (List (RubyValue × RubyValue))
  | [] => return entries
  | (key, value) :: map => do
    let symbol ← symbolToValue x key
    let rubyValue ← ownedValueToRuby value
    buildHash (hashAset entries symbol rubyValue) map

def fieldsToRuby (entries : List (RubyValue × RubyValue)) :
    List String → List (Option OwnedValue) →
      Result MaterializeError (List (RubyValue × RubyValue))
  | name :: names, some value :: fields => do
    let rubyValue ← ownedValueToRuby value
    let key ← symbolToValue x name
    fieldsToRuby (hashAset entries key rubyValue) names fields
  | _ :: names, none :: fields => fieldsToRuby entries names fields
  | _, _ => return entries

def optionalExtrasToRuby (entries : List (RubyValue × RubyValue)) :
    Option (List (String × OwnedValue)) →
      Result MaterializeError (List (RubyValue × RubyValue))
  | none => return entries
  | some extras => extrasToRuby entries extras

def extrasToRuby (entries : List (RubyValue × RubyValue)) :
    List (String × OwnedValue) → Result MaterializeError (List (RubyValue × RubyValue))
  | [] => return entries
  | (key, value) :: extras => do
    let rubyValue ← ownedValueToRuby value
    let keyValue ← attributeKeyValue key
    extrasToRuby (hashAset entries keyValue rubyValue) extras
end

/-! ## The instance -/

/-- The hash map from names to indices: a later field replaces an earlier one of its name. -/
def fieldLookup (names : List String) (name : String) : Option Nat :=
  (names.zipIdx.reverse.find? (·.1 == name)).map (·.2)

/-- The value that an entry of the plan finds, if its field is present. -/
def planned (names : List String) (fields : List (Option OwnedValue)) (entry : MaterializeEntry) :
    Option OwnedValue :=
  (fieldLookup names entry.name).bind fun idx => fields[idx]?.join

/-- The attributes hash, if one is kept, and the instance variables set so far. -/
structure Building where
  attributes : Option (List (RubyValue × RubyValue))
  ivars : List (String × RubyValue)

/-- The conversion of a value that is about to be stored. -/
def storedValue (freezeMode : FreezeMode) (value : OwnedValue) :
    Result MaterializeError RubyValue := do
  let rubyValue ← ownedValueToRuby x value
  return if freezeMode = .deep then rubyValue.deepFreeze else rubyValue

def storeFields (freezeMode : FreezeMode) (names : List String)
    (fields : List (Option OwnedValue)) :
    Building → List MaterializeEntry → Result MaterializeError Building
  | building, [] => return building
  | building, entry :: entries =>
    match planned names fields entry with
    | none => storeFields freezeMode names fields building entries
    | some value => do
      let rubyValue ← storedValue x freezeMode value
      storeFields freezeMode names fields
        ⟨building.attributes.map (hashAset · (.id2sym entry.symbolId) rubyValue),
          ivarSet building.ivars entry.ivarId rubyValue⟩ entries

/-- Extras are converted even when no attributes are kept; their keys are not. -/
def storeExtras (freezeMode : FreezeMode) :
    Building → OwnedDict → Result MaterializeError Building
  | building, [] => return building
  | building, (key, value) :: extras => do
    let rubyValue ← storedValue x freezeMode value
    match building.attributes with
    | none => storeExtras freezeMode building extras
    | some attributes => do
      let keyValue ← attributeKeyValue key
      storeExtras freezeMode ⟨some (hashAset attributes keyValue rubyValue), building.ivars⟩ extras

def frozenAs : FreezeMode → RubyValue → RubyValue
  | .none, value => value
  | .shallow, value => value.freeze
  | .deep, value => value.deepFreeze

/-- `klass` allocates an object without instance variables. The attributes are frozen after they
are stored, which is seen through the instance variable all the same. -/
def materializeInstance (klass : String) (attrIvar : Option String) (root : OwnedValue)
    (plan : MaterializePlan) (freezeMode : FreezeMode) (storeAttributes : Bool) :
    Result MaterializeError RubyValue :=
  match root with
  | .struct ⟨names, fields, extras⟩ => do
    let building ← storeFields x freezeMode names fields
      ⟨if storeAttributes then some [] else none, []⟩ plan.entries
    let building ← storeExtras x freezeMode building (extras.getD [])
    let ivars := match building.attributes, attrIvar with
      | some attributes, some name =>
        ivarSet building.ivars name (frozenAs freezeMode (.hash ⟨"Hash", false⟩ attributes))
      | _, _ => building.ivars
    return frozenAs freezeMode (.object ⟨klass, false⟩ ivars)
  | other => .fail (.unsupportedRoot other.typeName)

end
end RustlyCore
