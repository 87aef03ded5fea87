import RustlyCore.Lib.Report
import RustlyCore.Lib.Text
import RustlyCore.Validation.Value

/-!
# The validator (`validation/engine.rs`)

The validator keeps a path stack and a list of issues. Its methods are `Validator` computations; the
loops over elements, fields and extras are recursive functions of their own.
-/

namespace RustlyCore

inductive PathSegment where
  | key (key : String)
  | index (index : Nat)
deriving DecidableEq

def formatPath (path : List PathSegment) : String :=
  path.foldl (fun out segment => match segment with
    | .key key => (if out.isEmpty then out else out.push '.') ++ key
    | .index index => out.push '[' ++ toString index ++ "]") ""

structure ValidationIssue where
  path : String
  code : String
  metaMap : JsonMap

/-- `output` is present exactly when there are no issues, see `finish`. -/
structure ValidationResult where
  output : Option OwnedValue
  issues : List ValidationIssue

def ValidationResult.isValid (result : ValidationResult) : Bool := result.issues.isEmpty

abbrev Validator := Report.Reporter PathSegment ValidationIssue

/-- A code and its meta data. -/
abbrev Finding := String × JsonMap

abbrev Findings := Report.Findings PathSegment Finding

def issueAt (path : List PathSegment) (finding : Finding) : ValidationIssue :=
  ⟨formatPath path, finding.1, finding.2⟩

namespace Validator

/-! ## Recording issues -/

def pushIssue (code : String) (metaMap : JsonMap) : Validator Unit :=
  Report.emit issueAt (code, metaMap)

/-- A meta map of one entry. -/
def single (key : String) (value : JsonValue) : JsonMap := JsonMap.insert [] key value

def recordRequiredMissing : Validator Unit := pushIssue "required_missing" []

def recordTypeMismatch (expected : String) : Validator Unit :=
  pushIssue "type_mismatch" (single "expected" (.string expected))

def recordCoerceFailed (origin : OwnedValue) : Validator Unit :=
  pushIssue "coerce_failed" (single "from" (.string origin.typeName))

def recordValueNotIn (variants : List String) : Validator Unit :=
  pushIssue "value_not_in" (single "list" (.array (variants.map .string)))

def recordExtraKey (key : String) : Validator Unit :=
  pushIssue "extra_key" (single "name" (.string key))

def recordFormatInvalid (format : String) : Validator Unit :=
  pushIssue "format_invalid" (single "kind" (.string format))

/-! ## Constraints -/

/-- `if let Some(bound) = limit { if violated { push_issue } }`. -/
def reportLimit {α : Type} (limit : Option α) (violated : α → Prop) [DecidablePred violated]
    (code : String) (metaMap : α → JsonMap) : Validator Unit :=
  match limit with
  | some bound => if violated bound then pushIssue code (metaMap bound) else pure ()
  | none => pure ()

def applyIntConstraints (value : Int64) (constraints : IntConstraints) : Validator Unit := do
  reportLimit constraints.min (value < ·) "too_small" fun min => single "min" (.ofI64 min)
  reportLimit constraints.max (value > ·) "too_large" fun max => single "max" (.ofI64 max)

/-- The meta data for a float bound: empty if JSON has no such number. -/
def floatMeta (key : String) (bound : Float) : JsonMap :=
  match JsonNumber.ofF64 bound with
  | some number => single key (.number number)
  | none => []

def applyFloatConstraints (value : Float) (constraints : FloatConstraints) : Validator Unit := do
  reportLimit constraints.min (value < ·.intoInner) "too_small" fun min =>
    floatMeta "min" min.intoInner
  reportLimit constraints.max (value > ·.intoInner) "too_large" fun max =>
    floatMeta "max" max.intoInner

def isAsciiHexdigit (byte : UInt8) : Bool :=
  (0x30 ≤ byte && byte ≤ 0x39) || (0x41 ≤ byte && byte ≤ 0x46) || (0x61 ≤ byte && byte ≤ 0x66)

def dashPos : List Nat := [8, 13, 18, 23]

def isUuid (value : String) : Bool :=
  let bytes := value.toUTF8.toList
  bytes.length == 36 && bytes.zipIdx.all fun (byte, idx) =>
    if dashPos.contains idx then byte == 0x2D else isAsciiHexdigit byte

def isUrlLike (value : String) : Bool :=
  Text.startsWith value "http://" || Text.startsWith value "https://"

def applyFormat (format : StringFormat) (value : String) : Validator Unit :=
  match format with
  | .email => if !value.toList.contains '@' then recordFormatInvalid "email" else pure ()
  | .uuid => if !isUuid value then recordFormatInvalid "uuid" else pure ()
  | .url => if !isUrlLike value then recordFormatInvalid "url" else pure ()

/-- The two size checks of strings and collections. The bounds are reported through a cast to
`i64`. -/
def applySizes (length : Nat) (minSize maxSize : Option Nat) : Validator Unit := do
  reportLimit minSize (length < ·) "too_short" fun min => single "min" (.ofI64 (.ofNat min))
  reportLimit maxSize (length > ·) "too_long" fun max => single "max" (.ofI64 (.ofNat max))

def applyStringConstraints (value : String) (constraints : StringConstraints) :
    Validator Unit := do
  applySizes value.length constraints.minSize constraints.maxSize
  match constraints.format with
  | some format => applyFormat format value
  | none => pure ()

def applyCollectionConstraints (length : Nat) (constraints : CollectionConstraints) :
    Validator Unit :=
  applySizes length constraints.minSize constraints.maxSize

/-! ## Coercions -/

section
variable (options : ValidationOptions)

def coerceBool (value : OwnedValue) : Validator (Option Bool) :=
  match value, options.strict with
  | .bool b, _ => return some b
  | .string raw, false =>
    if Text.eqIgnoreAsciiCase raw "true" || raw == "1" then return some true
    else if Text.eqIgnoreAsciiCase raw "false" || raw == "0" then return some false
    else do
      recordCoerceFailed value
      return none
  | _, _ => do
    recordTypeMismatch "bool"
    return none

def coerceInt (value : OwnedValue) : Validator (Option Int64) :=
  match value, options.strict with
  | .int i, _ => return some i
  | .string raw, false =>
    match Text.parseI64 (Text.trim raw) with
    | some i => return some i
    | none => do
      recordCoerceFailed value
      return none
  | _, _ => do
    recordTypeMismatch "int"
    return none

def coerceFloat (value : OwnedValue) : Validator (Option Float) :=
  match value, options.strict with
  | .float f, _ => return some f
  | .int i, _ => return some (Binary64.ofI64 i)
  | .string raw, false =>
    match Text.parseF64 (Text.trim raw) with
    | some f => return some f
    | none => do
      recordCoerceFailed value
      return none
  | _, _ => do
    recordTypeMismatch "float"
    return none

def coerceString (value : OwnedValue) : Validator (Option String) :=
  match value with
  | .string s => return some s
  | _ => do
    recordTypeMismatch "str"
    return none

def coerceSymbol (value : OwnedValue) : Validator (Option String) :=
  match value, options.strict with
  | .symbol s, _ => return some s
  | .string s, false => return some s
  | _, _ => do
    recordTypeMismatch "sym"
    return none

/-! ## Nodes -/

/-- `coerced.map(|coerced| { apply(coerced); wrap(coerced) })`. -/
def mapCoerced {α : Type} (coerce : Validator (Option α)) (apply : α → Validator Unit)
    (wrap : α → OwnedValue) : Validator (Option OwnedValue) := do
  match ← coerce with
  | some coerced =>
    apply coerced
    return some (wrap coerced)
  | none => return none

def validatePrimitive (primitive : PrimitiveType) (value : OwnedValue) :
    Validator (Option OwnedValue) :=
  match primitive with
  | .any => return some value
  | .bool => mapCoerced (coerceBool options value) (fun _ => pure ()) .bool
  | .int constraints =>
    mapCoerced (coerceInt options value) (applyIntConstraints · constraints) .int
  | .float constraints =>
    mapCoerced (coerceFloat options value) (applyFloatConstraints · constraints) .float
  | .string constraints =>
    mapCoerced (coerceString value) (applyStringConstraints · constraints) .string
  | .symbol => mapCoerced (coerceSymbol options value) (fun _ => pure ()) .symbol

def validateEnum (variants : List String) (value : OwnedValue) : Validator (Option OwnedValue) :=
  match value, options.strict with
  | .symbol sym, _ =>
    if variants.any (· == sym) then return some (.symbol sym)
    else do
      recordValueNotIn variants
      return none
  | .string strValue, false =>
    if variants.any (· == strValue) then return some (.symbol strValue)
    else do
      recordValueNotIn variants
      return none
  | _, _ => do
    recordTypeMismatch "enum"
    return none

/-- `validateInner` is the recursive call on the inner node, here and below. -/
def validateOptional (validateInner : OwnedValue → Validator (Option OwnedValue))
    (value : OwnedValue) : Validator (Option OwnedValue) :=
  match value with
  | .null => return some .null
  | _ => validateInner value

def validateElements (validateInner : OwnedValue → Validator (Option OwnedValue)) :
    (index : Nat) → List OwnedValue → Validator (List OwnedValue)
  | _, [] => return []
  | index, element :: list => do
    Report.push (.index index)
    let validated ← validateInner element
    Report.pop
    let output ← validateElements validateInner (index + 1) list
    return validated.toList ++ output

def validateList (validateInner : OwnedValue → Validator (Option OwnedValue))
    (constraints : CollectionConstraints) (value : OwnedValue) : Validator (Option OwnedValue) :=
  match value with
  | .list items => do
    let output ← validateElements validateInner 0 items
    applyCollectionConstraints output.length constraints
    return some (.list output)
  | _ => do
    recordTypeMismatch "list"
    return none

def validateEntries (validateInner : OwnedValue → Validator (Option OwnedValue)) :
    OwnedDict → Validator OwnedDict
  | [] => return []
  | (key, val) :: map => do
    Report.push (.key key)
    let validated ← validateInner val
    Report.pop
    let output ← validateEntries validateInner map
    return (validated.map fun validated => (key, validated)).toList ++ output

def validateDict (validateInner : OwnedValue → Validator (Option OwnedValue))
    (constraints : CollectionConstraints) (value : OwnedValue) : Validator (Option OwnedValue) :=
  match value with
  | .dict map => do
    let output ← validateEntries validateInner map
    applyCollectionConstraints output.length constraints
    return some (.dict output)
  | _ => do
    recordTypeMismatch "dict"
    return none

def dictFind (dict : OwnedDict) (key : String) : Option OwnedValue :=
  dict.findSome? fun (existingKey, value) => if existingKey = key then some value else none

theorem dictFind_cons (k : String) (v : OwnedValue) (dict : OwnedDict) (key : String) :
    dictFind ((k, v) :: dict) key = if k = key then some v else dictFind dict key := by
  by_cases h : k = key <;> simp [dictFind, h]

theorem dictFind_append (dict dict' : OwnedDict) (key : String) :
    dictFind (dict ++ dict') key = (dictFind dict key).or (dictFind dict' key) :=
  List.findSome?_append

theorem dictFind_eq_none {dict : OwnedDict} {key : String} :
    dictFind dict key = none ↔ ∀ p ∈ dict, p.1 ≠ key := by
  simp [dictFind]

theorem mem_of_dictFind {dict : OwnedDict} {key : String} {v : OwnedValue}
    (h : dictFind dict key = some v) : (key, v) ∈ dict := by
  induction dict with
  | nil => cases h
  | cons entry dict ih =>
    rw [dictFind_cons] at h
    split at h
    next heq =>
      cases h
      exact heq ▸ List.mem_cons_self
    next => exact List.mem_cons_of_mem _ (ih h)

def findFieldIndex (names : List String) (key : String) : Option Nat :=
  names.findIdx? (· == key)

/-- The loop over the fields, each with the validation of its node. -/
def validateFields (map : OwnedDict) :
    List (StructField × (OwnedValue → Validator (Option OwnedValue))) →
      Validator (List (Option OwnedValue))
  | [] => return []
  | (field, validateInner) :: fields => do
    match dictFind map field.name with
    | some fieldValue =>
      Report.push (.key field.name)
      let validated ← validateInner fieldValue
      Report.pop
      let fieldValues ← validateFields map fields
      return validated :: fieldValues
    | none =>
      if field.presence = .required then
        Report.push (.key field.name)
        recordRequiredMissing
        Report.pop
      let fieldValues ← validateFields map fields
      return none :: fieldValues

/-- The loop over the entries of the map. A key that names a field is skipped, whether or not its
value was valid: `field_present` decides between two `continue`s. -/
def collectExtras (fieldNames : List String) (effectiveExtra : ExtraBehavior) :
    OwnedDict → Option OwnedDict → Validator (Option OwnedDict)
  | [], extrasTemp => return extrasTemp
  | (key, value) :: map, extrasTemp =>
    match findFieldIndex fieldNames key with
    | some _ => collectExtras fieldNames effectiveExtra map extrasTemp
    | none =>
      match effectiveExtra with
      | .forbid => do
        Report.push (.key key)
        recordExtraKey key
        Report.pop
        collectExtras fieldNames effectiveExtra map extrasTemp
      | .ignore => collectExtras fieldNames effectiveExtra map extrasTemp
      | .allow =>
        collectExtras fieldNames effectiveExtra map (some (extrasTemp.getD [] ++ [(key, value)]))

def validateStruct (fields : List (StructField × (OwnedValue → Validator (Option OwnedValue))))
    (extra : ExtraBehavior) (value : OwnedValue) : Validator (Option OwnedValue) :=
  match value with
  | .dict map => do
    let fieldNames := fields.map fun field => field.1.name
    let fieldValues ← validateFields map fields
    let effectiveExtra := if (← Report.path).isEmpty then options.extraBehavior else extra
    let extras ← collectExtras fieldNames effectiveExtra map none
    return some (.struct ⟨fieldNames, fieldValues, extras⟩)
  | _ => do
    recordTypeMismatch "struct"
    return none

/-- Recursion goes down the ids of a closed arena. -/
def validateNode (schema : SchemaIr) (nodeId : NodeId) (value : OwnedValue) :
    Validator (Option OwnedValue) :=
  match _h : schema.arena.get nodeId with
  | none => failure
  | some (.primitive primitive) => validatePrimitive options primitive value
  | some (.enum variants) => validateEnum options variants value
  | some (.optional of) => validateOptional (validateNode schema of) value
  | some (.list of constraints) => validateList (validateNode schema of) constraints value
  | some (.dict inner constraints) => validateDict (validateNode schema inner) constraints value
  | some (.struct fields extra) =>
    validateStruct options (fields.attach.map fun ⟨f, _⟩ => (f, validateNode schema f.node)) extra
      value
termination_by nodeId.index
decreasing_by
  case _ => exact schema.closed _h of List.mem_cons_self
  case _ => exact schema.closed _h of List.mem_cons_self
  case _ => exact schema.closed _h inner List.mem_cons_self
  case _ hf => exact schema.closed _h _ (List.mem_map.2 ⟨f, hf, rfl⟩)

def validateRoot (schema : SchemaIr) (value : OwnedValue) : Validator (Option OwnedValue) :=
  validateNode options schema schema.root value

end

def finish (output : Option OwnedValue) (issues : List ValidationIssue) : ValidationResult :=
  if issues.isEmpty then ⟨output, issues⟩ else ⟨none, issues⟩

end Validator

/-- `none` is a panic. -/
def validateOwned (schema : SchemaIr) (prepared : OwnedValue) (options : ValidationOptions) :
    Option ValidationResult := do
  let (validated, validator) ← (Validator.validateRoot options schema prepared).run ⟨[], []⟩
  return Validator.finish validated validator.issues

/-- `fromStr` is `serde_json::from_str`. -/
def validateJson (fromStr : String → Option JsonValue) (schema : SchemaIr) (source : String)
    (options : ValidationOptions) : Option ValidationResult :=
  match fromStr source with
  | some json => validateOwned schema (OwnedValue.fromJson json) options
  | none =>
    some ⟨none, [⟨"", "format_invalid", Validator.single "kind" (.string "json")⟩]⟩

end RustlyCore
