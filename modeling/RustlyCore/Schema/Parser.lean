import RustlyCore.Ruby
import RustlyCore.Schema.Compiler

/-!
# Parsing a schema (`schema/compiler.rs`)

A type expression is read from JSON. Next to it come the options of the field it stands in, and
every nested expression is found inside one of the two: that is what the parser recurses on.
-/

namespace RustlyCore

inductive CompileError where
  | jsonConversion (message : String)
  | invalidSchema (path message : String)
  | json (message : String)

def CompileError.display : CompileError → String
  | .jsonConversion message => s!"failed to convert schema AST to JSON: {message}"
  | .invalidSchema path message => s!"invalid schema at {path}: {message}"
  | .json message => message

namespace SchemaCompiler

def rootPath : String := "$"

abbrev Parse := Except CompileError

def invalid {α : Type} (path message : String) : Parse α := .error (.invalidSchema path message)

/-! ## Option maps -/

def insertAll (map entries : JsonMap) : JsonMap :=
  entries.foldl (fun map entry => map.insert entry.1 entry.2) map

def inlineMapWithout (map : JsonMap) (excluded : List String) : JsonMap :=
  insertAll [] (map.filter fun entry => !excluded.contains entry.1)

/-- Inline options replace outer ones. -/
def mergeOptions (inlineOptions outer : Option JsonMap) : JsonMap :=
  insertAll (insertAll [] (outer.getD [])) (inlineOptions.getD [])

/-- `items.get(i).and_then(|v| v.as_object())`, for the items from `i` on. -/
def inlineObject (items : List JsonValue) : Option JsonMap := items.head?.bind JsonValue.asObject

/-- The given value, else the first key of the options that is present, which is removed. -/
def removeFirst (given : Option JsonValue) (keys : List String) (options : JsonMap) :
    Option JsonValue × JsonMap :=
  match given, keys with
  | some value, _ => (some value, options)
  | none, [] => (none, options)
  | none, key :: keys =>
    match options.remove key with
    | (some value, options) => (some value, options)
    | (none, options) => removeFirst none keys options

/-! ## Constraints -/

def parseI64 (x : Externals) (value : JsonValue) (path : String) : Parse Int64 :=
  match value.asI64 with
  | some i => return i
  | none => invalid path s!"expected integer, got {x.debug value}"

def parseF64 (x : Externals) (value : JsonValue) (path : String) : Parse Float :=
  match value.asF64 with
  | some f => return f
  | none => invalid path s!"expected float-compatible number, got {x.debug value}"

def parseUsize (x : Externals) (value : JsonValue) (path : String) : Parse Nat :=
  match value.asU64 with
  | some n => return n.toNat
  | none => invalid path s!"expected positive integer, got {x.debug value}"

/-- `if let Some(value) = options.remove(key) { Some(parse(..)?) }`, and what is left of the
options. -/
def removeParsed {α : Type} (parse : JsonValue → String → Parse α) (options : JsonMap)
    (key path : String) : Parse (Option α × JsonMap) :=
  match options.remove key with
  | (some value, options) => do return (some (← parse value s!"{path}.{key}"), options)
  | (none, options) => return (none, options)

def applyIntConstraints (x : Externals) (options : JsonMap) (path : String) :
    Parse IntConstraints := do
  let (min, options) ← removeParsed (parseI64 x) options "min" path
  let (max, _) ← removeParsed (parseI64 x) options "max" path
  return ⟨min, max⟩

def applyFloatConstraints (x : Externals) (options : JsonMap) (path : String) :
    Parse FloatConstraints := do
  let (min, options) ← removeParsed (parseF64 x) options "min" path
  let (max, _) ← removeParsed (parseF64 x) options "max" path
  return ⟨min.map .mk, max.map .mk⟩

def parseFormat (value : JsonValue) (path : String) : Parse StringFormat :=
  match value.asStr with
  | none => invalid path "format must be specified as a string"
  | some "email" => return .email
  | some "uuid" => return .uuid
  | some "url" => return .url
  | some other => invalid path s!"unsupported string format `{other}`"

def applyStringConstraints (x : Externals) (options : JsonMap) (path : String) :
    Parse StringConstraints := do
  let (minSize, options) ← removeParsed (parseUsize x) options "min_size" path
  let (maxSize, options) ← removeParsed (parseUsize x) options "max_size" path
  let (format, _) ← removeParsed parseFormat options "format" path
  return ⟨minSize, maxSize, format⟩

def applyCollectionConstraints (x : Externals) (options : JsonMap) (path : String) :
    Parse CollectionConstraints := do
  let (minSize, options) ← removeParsed (parseUsize x) options "min_size" path
  let (maxSize, _) ← removeParsed (parseUsize x) options "max_size" path
  return ⟨minSize, maxSize⟩

/-! ## Leaves -/

/-- The loop over the variants: `seen` holds those already pushed. -/
def parseVariants (path : String) (index : Nat) (variants : List String) :
    List JsonValue → Parse (List String)
  | [] => return variants
  | variant :: rest =>
    match variant.asStr with
    | none => invalid s!"{path}.values[{index}]" "enum values must be strings"
    | some asStr =>
      parseVariants path (index + 1)
        (if variants.contains asStr then variants else variants ++ [asStr]) rest

def parseEnumType (inlineValues : Option JsonValue) (inlineOptions fieldOptions : Option JsonMap)
    (path : String) : Parse TypeExpr := do
  let options := mergeOptions inlineOptions fieldOptions
  let variantsSource := (inlineValues.or (options.get "values")).or (options.remove "in").1
  match variantsSource with
  | none => invalid path "enum type requires a `values` array"
  | some variantsValue =>
    match variantsValue.asArray with
    | none => invalid path "enum `values` must be specified as an array"
    | some variantsArray =>
      let variants ← parseVariants path 0 [] variantsArray
      if variants.isEmpty then invalid path "enum values cannot be empty"
      return .enum variants

def parseExtra (x : Externals) (value : Option JsonValue) (path : String) : Parse ExtraBehavior :=
  match value with
  | none => return .forbid
  | some (.string "forbid") => return .forbid
  | some (.string "ignore") => return .ignore
  | some (.string "allow") => return .allow
  | some (.string other) => invalid path s!"unknown struct extra behavior `{other}`"
  | some other => invalid path s!"struct `extra` must be a string, got {x.debug other}"

def parsePresence (value : JsonValue) (path : String) : Parse StructFieldPresence :=
  match value.asStr with
  | none => invalid path "field presence must be a string"
  | some "required" => return .required
  | some "optional" => return .optional
  | some other => invalid path s!"unsupported field presence `{other}`"

/-! ## Sizes

The parser recurses on values that it takes out of merged option maps. -/

noncomputable def sizeOfOptions : Option JsonMap → Nat
  | none => 0
  | some map => sizeOf map

noncomputable def sizeOfGiven : Option JsonValue → Nat
  | none => 0
  | some value => sizeOf value

theorem sizeOf_insert (map : JsonMap) (key : String) (value : JsonValue) :
    sizeOf (map.insert key value) ≤ sizeOf map + sizeOf (key, value) + 1 := by
  induction map with
  | nil =>
    simp only [JsonMap.insert, List.cons.sizeOf_spec, List.nil.sizeOf_spec]
    omega
  | cons entry map ih =>
    obtain ⟨k, v⟩ := entry
    rw [JsonMap.insert]
    split
    · simp only [List.cons.sizeOf_spec]
      omega
    · split
      · simp only [List.cons.sizeOf_spec]
        omega
      · simp only [List.cons.sizeOf_spec]
        omega

theorem sizeOf_insertAll (map entries : JsonMap) :
    sizeOf (insertAll map entries) + 1 ≤ sizeOf map + sizeOf entries := by
  induction entries generalizing map with
  | nil => simp [insertAll]
  | cons entry entries ih =>
    obtain ⟨key, value⟩ := entry
    have hinsert := sizeOf_insert map key value
    have hrest := ih (map.insert key value)
    simp only [insertAll, List.foldl_cons, List.cons.sizeOf_spec] at hrest ⊢
    omega

theorem sizeOf_filter (map : JsonMap) (p : String × JsonValue → Bool) :
    sizeOf (map.filter p) ≤ sizeOf map := by
  induction map with
  | nil => exact Nat.le_refl _
  | cons entry map ih =>
    rw [List.filter_cons]
    split
    all_goals
      simp only [List.cons.sizeOf_spec]
      omega

theorem sizeOf_inlineMapWithout (map : JsonMap) (excluded : List String) :
    sizeOf (inlineMapWithout map excluded) ≤ sizeOf map := by
  have hfilter := sizeOf_filter map fun entry => !excluded.contains entry.1
  have hinsert := sizeOf_insertAll [] (map.filter fun entry => !excluded.contains entry.1)
  simp only [List.nil.sizeOf_spec] at hinsert
  rw [inlineMapWithout]
  omega

theorem sizeOf_getD (options : Option JsonMap) :
    sizeOf (options.getD []) ≤ sizeOfOptions options + 1 := by
  cases options with
  | none => simp [sizeOfOptions]
  | some map => simp [sizeOfOptions]

theorem sizeOf_mergeOptions (inlineOptions outer : Option JsonMap) :
    sizeOf (mergeOptions inlineOptions outer) ≤
      sizeOfOptions inlineOptions + sizeOfOptions outer + 1 := by
  have houter := sizeOf_insertAll [] (outer.getD [])
  have hinline := sizeOf_insertAll (insertAll [] (outer.getD [])) (inlineOptions.getD [])
  have := sizeOf_getD outer
  have := sizeOf_getD inlineOptions
  simp only [List.nil.sizeOf_spec] at houter
  rw [mergeOptions]
  omega

theorem sizeOf_get {map : JsonMap} {key : String} {value : JsonValue}
    (h : map.get key = some value) : sizeOf value < sizeOf map := by
  rw [JsonMap.get] at h
  induction map with
  | nil => cases h
  | cons entry map ih =>
    obtain ⟨k, v⟩ := entry
    simp only [List.cons.sizeOf_spec, Prod.mk.sizeOf_spec]
    rw [List.lookup_cons] at h
    split at h
    next =>
      cases h
      omega
    next =>
      have := ih h
      omega

theorem sizeOf_removeFirst {given : Option JsonValue} {keys : List String} {options : JsonMap}
    {value : JsonValue} (h : (removeFirst given keys options).1 = some value) :
    sizeOf value < sizeOfGiven given + sizeOf options := by
  cases given with
  | some given =>
    obtain rfl : given = value := by simpa [removeFirst] using h
    have : 0 < sizeOf options := by cases options <;> simp
    simp only [sizeOfGiven]
    omega
  | none =>
    simp only [sizeOfGiven, Nat.zero_add]
    induction keys generalizing options with
    | nil => simp [removeFirst] at h
    | cons key keys ih =>
      rw [removeFirst, JsonMap.remove] at h
      cases hget : options.get key with
      | some found =>
        rw [hget] at h
        obtain rfl : found = value := by simpa using h
        exact sizeOf_get hget
      | none =>
        rw [hget] at h
        exact Nat.lt_of_lt_of_le (ih h) (sizeOf_filter _ _)

theorem sizeOf_inlineObject (items : List JsonValue) :
    sizeOfOptions (inlineObject items) ≤ sizeOf items := by
  rw [inlineObject]
  match items with
  | [] => simp [sizeOfOptions]
  | item :: items =>
    cases item with
    | object map =>
      simp only [List.head?_cons, Option.bind_some, JsonValue.asObject, sizeOfOptions,
        List.cons.sizeOf_spec, JsonValue.object.sizeOf_spec]
      omega
    | _ => exact Nat.zero_le _

theorem sizeOf_givenObject (given : Option JsonValue) :
    sizeOf ((given.bind JsonValue.asObject).getD []) ≤ sizeOfGiven given + 1 := by
  match given with
  | none => simp [sizeOfGiven]
  | some (.object map) =>
    simp only [Option.bind_some, JsonValue.asObject, Option.getD_some, sizeOfGiven,
      JsonValue.object.sizeOf_spec]
    omega
  | some .null | some (.bool _) | some (.number _) | some (.string _) | some (.array _) =>
    simp [JsonValue.asObject]

/-! ## Type expressions -/

mutual
def parseTypeExpr (x : Externals) (value : JsonValue) (fieldOptions : Option JsonMap)
    (path : String) : Parse TypeExpr :=
  match value with
  | .string name => parseNamedType x name none fieldOptions path
  | .object map =>
    match (JsonMap.get map "type").bind JsonValue.asStr with
    | some name =>
      parseNamedType x name (some (inlineMapWithout map ["type"])) fieldOptions path
    | none => invalid path "object type is missing a `type` key"
  | .array items => parseArrayType x items fieldOptions path
  | value => invalid path s!"unsupported type expression: {x.debug value}"
termination_by 4 * (sizeOf value + sizeOfOptions fieldOptions) + 3
decreasing_by
  · simp only [sizeOfOptions, JsonValue.string.sizeOf_spec]
    omega
  · have := sizeOf_inlineMapWithout map ["type"]
    simp only [sizeOfOptions, JsonValue.object.sizeOf_spec]
    omega
  · simp only [JsonValue.array.sizeOf_spec]
    omega

def parseNamedType (x : Externals) (name : String) (inlineOptions fieldOptions : Option JsonMap)
    (path : String) : Parse TypeExpr :=
  match x.toLowercase name with
  | "any" => return .primitive .any
  | "bool" | "boolean" => return .primitive .bool
  | "int" | "integer" => do
    let constraints ← applyIntConstraints x (mergeOptions inlineOptions fieldOptions) path
    return .primitive (.int constraints)
  | "float" | "double" => do
    let constraints ← applyFloatConstraints x (mergeOptions inlineOptions fieldOptions) path
    return .primitive (.float constraints)
  | "str" | "string" => do
    let constraints ← applyStringConstraints x (mergeOptions inlineOptions fieldOptions) path
    return .primitive (.string constraints)
  | "sym" | "symbol" => return .primitive .symbol
  | "enum" => parseEnumType none inlineOptions fieldOptions path
  | "list" => parseListType x none (mergeOptions inlineOptions fieldOptions) path
  | "dict" => parseDictType x none (mergeOptions inlineOptions fieldOptions) path
  | "optional" => parseOptionalType x none (mergeOptions inlineOptions fieldOptions) path
  | "struct" => parseStructType x none (mergeOptions inlineOptions fieldOptions) path
  | other => invalid path s!"unknown type `{other}`"
termination_by 4 * (sizeOfOptions inlineOptions + sizeOfOptions fieldOptions + 1) + 2
decreasing_by
  all_goals
    have := sizeOf_mergeOptions inlineOptions fieldOptions
    simp only [sizeOfGiven]
    omega

/-- Options in the array are read by the tags that have a place for them. -/
def parseArrayType (x : Externals) (items : List JsonValue) (fieldOptions : Option JsonMap)
    (path : String) : Parse TypeExpr :=
  match items with
  | [] => invalid path "array type expression cannot be empty"
  | tag :: items =>
    match tag.asStr, items with
    | none, _ => invalid path "array type must start with a string tag"
    | some "optional", [] => invalid path "optional type requires an inner type"
    | some "optional", innerType :: _ => do
      let inner ← parseTypeExpr x innerType fieldOptions s!"{path}.optional"
      return .optional inner
    | some "list", [] => invalid path "list type requires an element type"
    | some "list", elementType :: items =>
      parseListType x (some elementType) (mergeOptions (inlineObject items) fieldOptions) path
    | some "dict", [] => invalid path "dict type requires a value type"
    | some "dict", valueType :: items =>
      parseDictType x (some valueType) (mergeOptions (inlineObject items) fieldOptions) path
    | some "enum", items => parseEnumType items.head? fieldOptions none path
    | some "struct", items =>
      parseStructType x none (mergeOptions (inlineObject items) fieldOptions) path
    | some other, _ => parseNamedType x other none fieldOptions path
termination_by 4 * (sizeOf items + sizeOfOptions fieldOptions) + 3
decreasing_by
  · simp only [List.cons.sizeOf_spec]
    omega
  · have := sizeOf_mergeOptions (inlineObject items) fieldOptions
    have := sizeOf_inlineObject items
    simp only [sizeOfGiven, List.cons.sizeOf_spec]
    omega
  · have := sizeOf_mergeOptions (inlineObject items) fieldOptions
    have := sizeOf_inlineObject items
    simp only [sizeOfGiven, List.cons.sizeOf_spec]
    omega
  · have := sizeOf_mergeOptions (inlineObject items) fieldOptions
    have := sizeOf_inlineObject items
    simp only [sizeOfGiven, List.cons.sizeOf_spec]
    omega
  · simp only [sizeOfOptions, List.cons.sizeOf_spec]
    omega

def parseListType (x : Externals) (inlineType : Option JsonValue) (options : JsonMap)
    (path : String) : Parse TypeExpr :=
  match _h : removeFirst inlineType ["of", "item"] options with
  | (none, _) => invalid path "list type requires an `of` element specification"
  | (some elementValue, options) => do
    let element ← parseTypeExpr x elementValue none s!"{path}.of"
    let constraints ← applyCollectionConstraints x options path
    return .list element constraints
termination_by 4 * (sizeOfGiven inlineType + sizeOf options) + 1
decreasing_by
  have := sizeOf_removeFirst (congrArg Prod.fst _h)
  simp only [sizeOfOptions]
  omega

def parseDictType (x : Externals) (inlineType : Option JsonValue) (options : JsonMap)
    (path : String) : Parse TypeExpr :=
  match _h : removeFirst inlineType ["values", "value"] options with
  | (none, _) => invalid path "dict type requires a `values` specification"
  | (some valueValue, options) => do
    let value ← parseTypeExpr x valueValue none s!"{path}.values"
    let constraints ← applyCollectionConstraints x options path
    return .dict value constraints
termination_by 4 * (sizeOfGiven inlineType + sizeOf options) + 1
decreasing_by
  have := sizeOf_removeFirst (congrArg Prod.fst _h)
  simp only [sizeOfOptions]
  omega

def parseOptionalType (x : Externals) (inlineType : Option JsonValue) (options : JsonMap)
    (path : String) : Parse TypeExpr :=
  match _h : removeFirst inlineType ["of"] options with
  | (none, _) => invalid path "optional type requires an inner type"
  | (some targetValue, _) => do
    let inner ← parseTypeExpr x targetValue none s!"{path}.of"
    return .optional inner
termination_by 4 * (sizeOfGiven inlineType + sizeOf options) + 1
decreasing_by
  have := sizeOf_removeFirst (congrArg Prod.fst _h)
  simp only [sizeOfOptions]
  omega

/-- Every caller passes no `inlineType`. -/
def parseStructType (x : Externals) (inlineType : Option JsonValue) (options : JsonMap)
    (path : String) : Parse TypeExpr :=
  match _h : removeFirst none ["fields"]
    (insertAll options ((inlineType.bind JsonValue.asObject).getD [])) with
  | (none, _) => invalid path "struct type requires a `fields` array"
  | (some fieldsValue, rest) => do
    let extra ← parseExtra x (rest.remove "extra").1 path
    let fields ← parseFieldsArray x fieldsValue path
    return .struct fields extra
termination_by 4 * (sizeOfGiven inlineType + sizeOf options) + 1
decreasing_by
  have hfields := sizeOf_removeFirst (congrArg Prod.fst _h)
  have := sizeOf_insertAll options ((inlineType.bind JsonValue.asObject).getD [])
  have := sizeOf_givenObject inlineType
  simp only [sizeOfGiven] at hfields
  omega

def parseFieldsArray (x : Externals) (value : JsonValue) (path : String) :
    Parse (List (FieldExpr TypeExpr)) :=
  match value with
  | .array entries => parseFieldEntries x 0 entries path
  | _ => invalid path "struct `fields` must be an array"
termination_by 4 * (sizeOf value) + 1
decreasing_by
  simp only [JsonValue.array.sizeOf_spec]
  omega

def parseFieldEntries (x : Externals) (index : Nat) (entries : List JsonValue) (path : String) :
    Parse (List (FieldExpr TypeExpr)) :=
  match entries with
  | [] => return []
  | entry :: entries => do
    let field ← parseFieldEntry x entry s!"{path}.fields[{index}]"
    let fields ← parseFieldEntries x (index + 1) entries path
    return field :: fields
termination_by 4 * (sizeOf entries) + 1
decreasing_by
  all_goals
    simp only [List.cons.sizeOf_spec]
    omega

def parseFieldEntry (x : Externals) (value : JsonValue) (path : String) :
    Parse (FieldExpr TypeExpr) :=
  match value with
  | .array (presenceRaw :: nameValue :: typeValue :: items) => do
    let presence ← parsePresence presenceRaw path
    match nameValue.asStr with
    | none => invalid path "field name must be a string"
    | some name =>
      let ty ← parseTypeExpr x typeValue (inlineObject items) s!"{path}.type"
      return ⟨name, presence, ty⟩
  | .array _ => invalid path "field entry must contain presence, name, and type"
  | _ => invalid path "field entry must be an array"
termination_by 4 * (sizeOf value) + 1
decreasing_by
  have := sizeOf_inlineObject items
  simp only [JsonValue.array.sizeOf_spec, List.cons.sizeOf_spec]
  omega
end

end SchemaCompiler

/-- `SchemaDocument::from_value`. -/
def SchemaDocument.fromValue (x : Externals) (value : JsonValue) : SchemaCompiler.Parse TypeExpr :=
  SchemaCompiler.parseTypeExpr x value none SchemaCompiler.rootPath

end RustlyCore
