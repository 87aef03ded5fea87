import RustlyCore.Ruby
import RustlyCore.Validation.Engine

/-!
# Preparing an input (`validation/input.rs`)

Text is taken as a JSON document, any other Ruby value is converted. The conversion walks the value
with a path for its errors; that path is rendered as the validator renders its own.
-/

namespace RustlyCore

inductive PreparedInput where
  | owned (value : OwnedValue)
  | json (source : String)

inductive InputError where
  | expectedString (actual : String)
  | unsupportedType (path actual : String)
  | invalidHashKey (path actual : String)

def unsupported (path : List PathSegment) (value : RubyValue) : InputError :=
  .unsupportedType (formatPath path) value.className

/-- `Arena::alloc_str_from_bytes` makes a `str` of any bytes and goes on. What is done with one that
is not valid UTF-8 is undefined, and a run with it ends here; `Raw.convertRubyValue` goes on with
the bytes. -/
def allocStrFromBytes {ε : Type} (bytes : ByteArray) : Result ε String :=
  match String.fromUTF8? bytes with
  | some s => return s
  | none => .undefined

@[simp] theorem allocStrFromBytes_toByteArray {ε : Type} (s : String) :
    (allocStrFromBytes s.toByteArray : Result ε String) = .ok s := by
  have hvalid : String.fromUTF8? s.toByteArray = some s := Text.fromUTF8?_toUTF8 s
  rw [allocStrFromBytes, hvalid]
  rfl

def extractHashKey (path : List PathSegment) (value : RubyValue) : Result InputError String :=
  match value with
  | .string _ bytes | .symbol bytes => allocStrFromBytes bytes
  | _ => .fail (.invalidHashKey (formatPath path) value.className)

mutual
def convertRubyValue (path : List PathSegment) : RubyValue → Result InputError OwnedValue
  | .nil => return .null
  | .bool b => return .bool b
  | .integer i => return .int (← num2ll i)
  | .float f => return .float f
  | .string _ bytes => return .string (← allocStrFromBytes bytes)
  | .symbol bytes => return .symbol (← allocStrFromBytes bytes)
  | .array _ items => return .list (← convertArray path 0 items)
  | .hash _ entries => return .dict (← convertHash path entries)
  | .object basic ivars => .fail (unsupported path (.object basic ivars))

def convertArray (path : List PathSegment) (index : Nat) :
    List RubyValue → Result InputError (List OwnedValue)
  | [] => return []
  | element :: items => do
    let converted ← convertRubyValue (path ++ [.index index]) element
    let items ← convertArray path (index + 1) items
    return converted :: items

/-- `hash_foreach_convert` over the entries, which stops at the first error. -/
def convertHash (path : List PathSegment) :
    List (RubyValue × RubyValue) → Result InputError OwnedDict
  | [] => return []
  | (key, value) :: entries => do
    let keyRef ← extractHashKey path key
    let converted ← convertRubyValue (path ++ [.key keyRef]) value
    let entries ← convertHash path entries
    return (keyRef, converted) :: entries
end

def convertOwned (value : RubyValue) : Result InputError PreparedInput :=
  return .owned (← convertRubyValue [] value)

def prepareJson (value : RubyValue) : Result InputError PreparedInput := do
  match ← stringToOwned value with
  | some string => return .json string
  | none => .fail (.expectedString value.className)

def prepareInput (value : RubyValue) (mode : InputMode) : Result InputError PreparedInput :=
  match mode with
  | .json => prepareJson value
  | .ruby => convertOwned value
  | .auto =>
    match value with
    | .string _ _ => prepareJson value
    | _ => convertOwned value

/-- The value that is validated; `none` if the text is not JSON. -/
def PreparedInput.value (x : Externals) : PreparedInput → Option OwnedValue
  | .owned value => some value
  | .json source => (x.fromStr source).toOption.map OwnedValue.fromJson

/-- `validate_prepared_input`. -/
def validatePreparedInput (x : Externals) (schema : SchemaIr) (input : PreparedInput)
    (options : ValidationOptions) : Option ValidationResult :=
  match input with
  | .owned prepared => validateOwned schema prepared options
  | .json source => validateJson (fun text => (x.fromStr text).toOption) schema source options

end RustlyCore
