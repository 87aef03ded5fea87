import RustlyCore.Json
import RustlyCore.Lib.Fallible
import RustlyCore.Lib.Text

/-!
# Ruby values and the C API (`ruby_helpers.rs`, `errors.rs`)

A Ruby value is a tree. Strings and Symbols hold bytes, which need not be valid UTF-8. An array, a
hash, a string or an object also has a class and can be frozen.
-/

namespace RustlyCore

structure RBasic where
  klass : String
  frozen : Bool := false
deriving DecidableEq

inductive RubyValue where
  | nil
  | bool (b : Bool)
  | integer (i : Int)
  | float (f : Float)
  | string (basic : RBasic) (bytes : ByteArray)
  | symbol (bytes : ByteArray)
  | array (basic : RBasic) (items : List RubyValue)
  | hash (basic : RBasic) (entries : List (RubyValue × RubyValue))
  | object (basic : RBasic) (ivars : List (String × RubyValue))

structure ErrorEntry where
  path : String
  code : String
  metaMap : JsonMap

structure ErrorSet where
  entries : List ErrorEntry

inductive RubyException where
  | rangeError
  | encodingError
  | argumentError (message : String)
  | frozenError
  | jsonError (message : String)
  | validationError (errors : ErrorSet)

/-- `Result<α, ε>`, or no return. -/
abbrev Result (ε α : Type) := Fallible RubyException ε α

/-- What the extension uses of Ruby and of other libraries. -/
structure Externals where
  /-- `serde_json::from_str`, with the text of its error. -/
  fromStr : String → Except String JsonValue
  /-- `Display` and `Debug` of `serde_json::Value`. -/
  display : JsonValue → String
  debug : JsonValue → String
  /-- `str::to_lowercase`. -/
  toLowercase : String → String
  /-- `JSON.generate`. -/
  generate : RubyValue → Except RubyException RubyValue
  /-- Whether `rb_intern2` can intern the text, as US-ASCII. Otherwise it raises. -/
  interns : String → Bool

/-- The other libraries, as they behave on one JSON text and on ASCII. -/
def Externals.reading (source : String) (json : JsonValue) : Externals where
  fromStr text := if text = source then .ok json else .error "expected value"
  display _ := source
  debug _ := source
  toLowercase s := .ofList (s.toList.map Char.toLower)
  generate value := .ok value
  interns := Text.isAscii

theorem Externals.reading_self (source : String) (json : JsonValue) :
    (Externals.reading source json).fromStr source = .ok json :=
  if_pos rfl

theorem Externals.reading_fromStr {source text : String} {json j : JsonValue}
    (h : (Externals.reading source json).fromStr text = .ok j) : text = source := by
  by_contra hne
  have herror : (Externals.reading source json).fromStr text = .error "expected value" := if_neg hne
  cases herror.symm.trans h

theorem Externals.reading_json {source text : String} {json j : JsonValue}
    (h : (Externals.reading source json).fromStr text = .ok j) : j = json := by
  rw [reading_fromStr h] at h
  exact Except.ok.inj (h.symm.trans (Externals.reading_self source json))

namespace RubyValue

@[induction_eliminator]
theorem induct {motive : RubyValue → Prop}
    (nil : motive .nil) (bool : ∀ b, motive (.bool b)) (integer : ∀ i, motive (.integer i))
    (float : ∀ f, motive (.float f)) (string : ∀ basic bytes, motive (.string basic bytes))
    (symbol : ∀ bytes, motive (.symbol bytes))
    (array : ∀ basic items, (∀ r ∈ items, motive r) → motive (.array basic items))
    (hash : ∀ basic entries, (∀ p ∈ entries, motive p.1 ∧ motive p.2) →
      motive (.hash basic entries))
    (object : ∀ basic ivars, (∀ p ∈ ivars, motive p.2) → motive (.object basic ivars))
    (r : RubyValue) : motive r :=
  @RubyValue.rec motive (fun items => ∀ r ∈ items, motive r)
    (fun entries => ∀ p ∈ entries, motive p.1 ∧ motive p.2) (fun ivars => ∀ p ∈ ivars, motive p.2)
    (fun p => motive p.1 ∧ motive p.2) (fun p => motive p.2)
    nil bool integer float string symbol array hash object
    (by simp) (fun _ _ h hs => List.forall_mem_cons.2 ⟨h, hs⟩)
    (by simp) (fun _ _ h hs => List.forall_mem_cons.2 ⟨h, hs⟩)
    (by simp) (fun _ _ h hs => List.forall_mem_cons.2 ⟨h, hs⟩)
    (fun _ _ h h' => ⟨h, h'⟩) (fun _ _ h => h) r

/-- `class_name`. -/
def className : RubyValue → String
  | .nil => "NilClass"
  | .bool true => "TrueClass"
  | .bool false => "FalseClass"
  | .integer _ => "Integer"
  | .float _ => "Float"
  | .symbol _ => "Symbol"
  | .string basic _ | .array basic _ | .hash basic _ | .object basic _ => basic.klass

/-- A new String with this text. -/
def utf8Str (s : String) : RubyValue := .string ⟨"String", false⟩ s.toUTF8

/-- `rb_id2sym`. -/
def id2sym (id : String) : RubyValue := .symbol id.toUTF8

/-- `Hash` keys are equal when `eql?` says so; the keys that are looked up or set here are Strings
and Symbols. -/
def sameKey : RubyValue → RubyValue → Bool
  | .string _ s, .string _ t => s == t
  | .symbol s, .symbol t => s == t
  | _, _ => false

/-- `rb_hash_lookup2`, after the class check. -/
def hashLookup (hash key : RubyValue) : Option RubyValue :=
  match hash with
  | .hash _ entries => (entries.find? (·.1.sameKey key)).map (·.2)
  | _ => none

theorem sameKey_iff {a b : RubyValue} : a.sameKey b = true ↔
    (∃ basic basic' bytes, a = .string basic bytes ∧ b = .string basic' bytes) ∨
      ∃ bytes, a = .symbol bytes ∧ b = .symbol bytes := by
  constructor
  · intro h
    cases a with
    | string basic s =>
      cases b with
      | string basic' t => exact .inl ⟨basic, basic', s, rfl, (ByteArray.ext (eq_of_beq h)) ▸ rfl⟩
      | _ => cases h
    | symbol s =>
      cases b with
      | symbol t => exact .inr ⟨s, rfl, (ByteArray.ext (eq_of_beq h)) ▸ rfl⟩
      | _ => cases h
    | _ => cases h
  · rintro (⟨_, _, s, rfl, rfl⟩ | ⟨s, rfl, rfl⟩) <;> exact beq_self_eq_true s.data

theorem sameKey_symm {a b : RubyValue} (h : a.sameKey b = true) : b.sameKey a = true := by
  obtain ⟨basic, basic', s, rfl, rfl⟩ | ⟨s, rfl, rfl⟩ := sameKey_iff.1 h
  · exact sameKey_iff.2 (.inl ⟨basic', basic, s, rfl, rfl⟩)
  · exact h

theorem sameKey_trans {a b c : RubyValue} (h : a.sameKey b = true) (h' : b.sameKey c = true) :
    a.sameKey c = true := by
  obtain ⟨basic, _, s, rfl, rfl⟩ | ⟨s, rfl, rfl⟩ := sameKey_iff.1 h
  · obtain ⟨_, basic', _, heq, rfl⟩ | ⟨_, heq, -⟩ := sameKey_iff.1 h'
    · cases heq
      exact sameKey_iff.2 (.inl ⟨basic, basic', s, rfl, rfl⟩)
    · cases heq
  · exact h'

theorem sameKey_congr {a b : RubyValue} (h : a.sameKey b = true) (c : RubyValue) :
    a.sameKey c = b.sameKey c :=
  Bool.eq_iff_iff.2 ⟨sameKey_trans (sameKey_symm h), sameKey_trans h⟩

theorem sameKey_id2sym {s t : String} :
    (id2sym s).sameKey (.id2sym t) = true ↔ s = t := by
  refine sameKey_iff.trans ⟨?_, ?_⟩
  · rintro (⟨_, _, _, h, -⟩ | ⟨_, hs, ht⟩)
    · cases h
    · exact String.toByteArray_inj.1 (symbol.inj (hs.trans ht.symm))
  · rintro rfl
    exact .inr ⟨_, rfl, rfl⟩

theorem sameKey_utf8Str {s t : String} : (utf8Str s).sameKey (utf8Str t) = true ↔ s = t := by
  refine sameKey_iff.trans ⟨?_, ?_⟩
  · rintro (⟨_, _, _, hs, ht⟩ | ⟨_, h, -⟩)
    · exact String.toByteArray_inj.1 ((string.inj hs).2.trans (string.inj ht).2.symm)
    · cases h
  · rintro rfl
    exact .inl ⟨_, _, _, rfl, rfl⟩

theorem hashLookup_cons (basic : RBasic) (k v : RubyValue) (entries : List (RubyValue × RubyValue))
    (key : RubyValue) : (hash basic ((k, v) :: entries)).hashLookup key =
      if k.sameKey key then some v else (hash basic entries).hashLookup key := by
  rw [hashLookup, List.find?_cons]
  cases hk : k.sameKey key with
  | true => rfl
  | false => rfl

def toBool? : RubyValue → Option Bool
  | .bool b => some b
  | _ => none

end RubyValue

variable {ε : Type}

/-- `rb_num2ll` of an Integer. -/
def num2ll (i : Int) : Result ε Int64 :=
  if Int64.minValue.toInt ≤ i ∧ i ≤ Int64.maxValue.toInt then return .ofInt i
  else .raise .rangeError

/-- `string_to_owned`. `rb_string_value_cstr` raises on a zero byte. -/
def stringToOwned : RubyValue → Result ε (Option String)
  | .string _ bytes =>
    if Text.hasNul bytes then .raise (.argumentError "string contains null byte")
    else return some (Text.fromUtf8Lossy bytes)
  | _ => return none

/-- `symbol_to_owned`, through `rb_sym2str`. -/
def symbolToOwned : RubyValue → Result ε (Option String)
  | .symbol bytes => stringToOwned (.string ⟨"String", false⟩ bytes)
  | _ => return none

theorem symbolToOwned_id2sym {s : String} (h : Text.containsNul s = false) :
    (symbolToOwned (.id2sym s) : Result ε (Option String)) = .ok (some s) := by
  rw [RubyValue.id2sym, symbolToOwned, stringToOwned, if_neg (by simpa [Text.containsNul] using h),
    Text.fromUtf8Lossy_toUTF8]
  rfl

/-- No other Symbol reads as such a name. -/
theorem symbolToOwned_plain {value : RubyValue} {name : String}
    (hnul : Text.containsNul name = false) (hplain : '\uFFFD' ∉ name.toList) :
    (symbolToOwned value : Result ε (Option String)) = .ok (some name) ↔ value = .id2sym name := by
  refine ⟨fun h => ?_, fun h => h ▸ symbolToOwned_id2sym hnul⟩
  cases value with
  | symbol bytes =>
    rw [symbolToOwned, stringToOwned] at h
    split at h
    · cases h
    · exact congrArg _ ((Text.fromUtf8Lossy_eq_iff hplain).1 (Option.some.inj (Except.ok.inj h)))
  | _ => cases h

/-- `rb_intern2`. An `ID` is given by its name. -/
def intern (x : Externals) (name : String) : Result ε String :=
  if x.interns name then return name else .raise .encodingError

def raiseArgumentError {α : Type} (message : String) : Result ε α :=
  .raise (.argumentError (message.replace "\x00" "\\0"))

end RustlyCore
