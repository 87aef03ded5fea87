import RustlyCore.Schema.Sharing
import RustlyCore.Validation.Engine

/-!
# What a validation says

`check` gives the verdict of a type expression on a value: the output, if there is one, and what was
found, located relative to the value. `validateNode` on an id answers the verdict of the expression
the id unfolds to, from every path and whatever was reported before.
-/

namespace RustlyCore
open Report (Reports)

/-! ## Verdicts -/

structure Verdict where
  output : Option OwnedValue
  findings : Findings

namespace Verdict

/-- A verdict whose findings are about the value itself. -/
def here (output : Option OwnedValue) (found : List Finding) : Verdict :=
  ⟨output, Report.here found⟩

def coerced {α : Type} (result : Except Finding α) (wrap : α → OwnedValue)
    (violations : α → List Finding) : Verdict :=
  match result with
  | .ok a => .here (some (wrap a)) (violations a)
  | .error finding => .here none [finding]

/-- The verdict on a part, as a verdict about the whole. -/
def under (segment : PathSegment) (verdict : Verdict) : Verdict :=
  ⟨verdict.output, Report.under segment verdict.findings⟩

end Verdict

def typeMismatch (expected : String) : Finding :=
  ("type_mismatch", Validator.single "expected" (.string expected))

def coerceFailed (origin : OwnedValue) : Finding :=
  ("coerce_failed", Validator.single "from" (.string origin.typeName))

def valueNotIn (variants : List String) : Finding :=
  ("value_not_in", Validator.single "list" (.array (variants.map .string)))

def formatInvalid (format : String) : Finding :=
  ("format_invalid", Validator.single "kind" (.string format))

def requiredMissing : Finding := ("required_missing", [])

def extraKey (key : String) : Finding := ("extra_key", Validator.single "name" (.string key))

/-! ## Coercions -/

def OwnedValue.toBool (strict : Bool) (value : OwnedValue) : Except Finding Bool :=
  match value, strict with
  | .bool b, _ => .ok b
  | .string raw, false =>
    if Text.eqIgnoreAsciiCase raw "true" || raw == "1" then .ok true
    else if Text.eqIgnoreAsciiCase raw "false" || raw == "0" then .ok false
    else .error (coerceFailed value)
  | _, _ => .error (typeMismatch "bool")

def OwnedValue.toInt (strict : Bool) (value : OwnedValue) : Except Finding Int64 :=
  match value, strict with
  | .int i, _ => .ok i
  | .string raw, false =>
    match Text.parseI64 (Text.trim raw) with
    | some i => .ok i
    | none => .error (coerceFailed value)
  | _, _ => .error (typeMismatch "int")

def OwnedValue.toFloat (strict : Bool) (value : OwnedValue) : Except Finding Float :=
  match value, strict with
  | .float f, _ => .ok f
  | .int i, _ => .ok (Binary64.ofI64 i)
  | .string raw, false =>
    match Text.parseF64 (Text.trim raw) with
    | some f => .ok f
    | none => .error (coerceFailed value)
  | _, _ => .error (typeMismatch "float")

def OwnedValue.toText (value : OwnedValue) : Except Finding String :=
  match value with
  | .string s => .ok s
  | _ => .error (typeMismatch "str")

def OwnedValue.toSymbol (strict : Bool) (value : OwnedValue) : Except Finding String :=
  match value, strict with
  | .symbol s, _ => .ok s
  | .string s, false => .ok s
  | _, _ => .error (typeMismatch "sym")

def OwnedValue.toVariant (strict : Bool) (variants : List String) (value : OwnedValue) :
    Except Finding String :=
  match value, strict with
  | .symbol s, _ => if variants.any (· == s) then .ok s else .error (valueNotIn variants)
  | .string s, false => if variants.any (· == s) then .ok s else .error (valueNotIn variants)
  | _, _ => .error (typeMismatch "enum")

/-! ## Constraints -/

/-- The finding about a limit that is there and violated. -/
def limited {α : Type} (limit : Option α) (violated : α → Prop) [DecidablePred violated]
    (finding : α → Finding) : List Finding :=
  match limit with
  | some bound => if violated bound then [finding bound] else []
  | none => []

def IntConstraints.violations (c : IntConstraints) (i : Int64) : List Finding :=
  limited c.min (i < ·) (fun min => ("too_small", Validator.single "min" (.ofI64 min))) ++
    limited c.max (i > ·) fun max => ("too_large", Validator.single "max" (.ofI64 max))

def FloatConstraints.violations (c : FloatConstraints) (f : Float) : List Finding :=
  limited c.min (f < ·.intoInner)
      (fun min => ("too_small", Validator.floatMeta "min" min.intoInner)) ++
    limited c.max (f > ·.intoInner)
      fun max => ("too_large", Validator.floatMeta "max" max.intoInner)

def sizeViolations (length : Nat) (minSize maxSize : Option Nat) : List Finding :=
  limited minSize (length < ·)
      (fun min => ("too_short", Validator.single "min" (.ofI64 (.ofNat min)))) ++
    limited maxSize (length > ·)
      fun max => ("too_long", Validator.single "max" (.ofI64 (.ofNat max)))

def StringFormat.matches : StringFormat → String → Bool
  | .email, s => s.toList.contains '@'
  | .uuid, s => Validator.isUuid s
  | .url, s => Validator.isUrlLike s

def StringFormat.kind : StringFormat → String
  | .email => "email"
  | .uuid => "uuid"
  | .url => "url"

def StringConstraints.violations (c : StringConstraints) (s : String) : List Finding :=
  sizeViolations s.length c.minSize c.maxSize ++
    limited c.format (fun format => format.matches s = false)
      fun format => formatInvalid format.kind

def CollectionConstraints.violations (c : CollectionConstraints) (length : Nat) : List Finding :=
  sizeViolations length c.minSize c.maxSize

/-! ## Entries -/

/-- Of the entries under the key the first counts. -/
def FirstEntry (map : OwnedDict) (key : String) (v : OwnedValue) : Prop :=
  ∃ before after, map = before ++ (key, v) :: after ∧ ∀ p ∈ before, p.1 ≠ key

theorem FirstEntry.head {map : OwnedDict} {key : String} {v : OwnedValue} :
    FirstEntry ((key, v) :: map) key v :=
  ⟨[], map, rfl, List.forall_mem_nil _⟩

theorem dictFind_eq_some {map : OwnedDict} {key : String} {v : OwnedValue} :
    Validator.dictFind map key = some v ↔ FirstEntry map key v := by
  constructor
  · intro h
    induction map with
    | nil => cases h
    | cons p map ih =>
      obtain ⟨k, v'⟩ := p
      rw [Validator.dictFind_cons] at h
      split at h
      next hk =>
        cases h
        exact ⟨[], map, hk ▸ rfl, List.forall_mem_nil _⟩
      next hk =>
        obtain ⟨before, after, rfl, hbefore⟩ := ih h
        exact ⟨(k, v') :: before, after, rfl, List.forall_mem_cons.2 ⟨hk, hbefore⟩⟩
  · rintro ⟨before, after, rfl, hbefore⟩
    rw [Validator.dictFind_append, Validator.dictFind_eq_none.2 hbefore, Validator.dictFind_cons,
      if_pos rfl, Option.none_or]

theorem FirstEntry.dictFind {map : OwnedDict} {key : String} {v : OwnedValue}
    (h : FirstEntry map key v) : Validator.dictFind map key = some v :=
  dictFind_eq_some.2 h

theorem FirstEntry.mem {map : OwnedDict} {key : String} {v : OwnedValue}
    (h : FirstEntry map key v) : (key, v) ∈ map :=
  Validator.mem_of_dictFind h.dictFind

/-! ## The verdict -/

def checkPrimitive (strict : Bool) (primitive : PrimitiveType) (value : OwnedValue) : Verdict :=
  match primitive with
  | .any => .here (some value) []
  | .bool => .coerced (value.toBool strict) .bool fun _ => []
  | .int c => .coerced (value.toInt strict) .int c.violations
  | .float c => .coerced (value.toFloat strict) .float c.violations
  | .string c => .coerced value.toText .string c.violations
  | .symbol => .coerced (value.toSymbol strict) .symbol fun _ => []

/-- Of the elements, those that have an output. -/
def Verdict.list (c : CollectionConstraints) (elements : List Verdict) : Verdict :=
  let output := elements.filterMap (·.output)
  ⟨some (.list output),
    elements.zipIdx.flatMap (fun (element, i) => Report.under (.index i) element.findings) ++
      Report.here (c.violations output.length)⟩

def Verdict.dict (c : CollectionConstraints) (entries : List (String × Verdict)) : Verdict :=
  let output := entries.filterMap fun (key, entry) => entry.output.map (key, ·)
  ⟨some (.dict output),
    entries.flatMap (fun (key, entry) => Report.under (.key key) entry.findings) ++
      Report.here (c.violations output.length)⟩

def checkField (map : OwnedDict) (name : String) (presence : StructFieldPresence)
    (checkType : OwnedValue → Verdict) : Verdict :=
  match Validator.dictFind map name with
  | some value => (checkType value).under (.key name)
  | none => (Verdict.here none (if presence = .required then [requiredMissing] else [])).under
      (.key name)

/-- The entries of the map that are no fields. -/
def unknownEntries (names : List String) (map : OwnedDict) : OwnedDict :=
  map.filter fun entry => !names.contains entry.1

def checkExtras (extra : ExtraBehavior) (unknown : OwnedDict) : Option OwnedDict × Findings :=
  match extra with
  | .forbid => (none, unknown.map fun entry => ([.key entry.1], extraKey entry.1))
  | .ignore => (none, [])
  | .allow => (if unknown.isEmpty then none else some unknown, [])

def Verdict.struct (names : List String) (fields : List Verdict)
    (extras : Option OwnedDict × Findings) : Verdict :=
  ⟨some (.struct ⟨names, fields.map (·.output), extras.1⟩),
    fields.flatMap (·.findings) ++ extras.2⟩

mutual
/-- `root` says that the value is the root: structs there follow the `extra` option. -/
def check (o : ValidationOptions) : TypeExpr → (root : Bool) → OwnedValue → Verdict
  | .primitive primitive, _, value => checkPrimitive o.strict primitive value
  | .enum variants, _, value => .coerced (value.toVariant o.strict variants) .symbol fun _ => []
  | .optional inner, root, value =>
    match value with
    | .null => .here (some .null) []
    | value => check o inner root value
  | .list of c, _, value =>
    match value with
    | .list items => .list c (items.map fun item => check o of false item)
    | _ => .here none [typeMismatch "list"]
  | .dict of c, _, value =>
    match value with
    | .dict map => .dict c (map.map fun entry => (entry.1, check o of false entry.2))
    | _ => .here none [typeMismatch "dict"]
  | .struct fields extra, root, value =>
    match value with
    | .dict map =>
      let names := fields.map (·.name)
      .struct names (checkFields o map fields)
        (checkExtras (if root then o.extraBehavior else extra) (unknownEntries names map))
    | _ => .here none [typeMismatch "struct"]

def checkFields (o : ValidationOptions) (map : OwnedDict) :
    List (FieldExpr TypeExpr) → List Verdict
  | [] => []
  | ⟨name, presence, ty⟩ :: fields =>
    checkField map name presence (fun value => check o ty false value) :: checkFields o map fields
end

theorem checkFields_eq_map (o : ValidationOptions) (map : OwnedDict)
    (fields : List (FieldExpr TypeExpr)) : checkFields o map fields =
      fields.map fun f => checkField map f.name f.presence (check o f.ty false) := by
  induction fields with
  | nil => rfl
  | cons f fields ih => rw [checkFields, ih]; rfl

/-- Of the options a check reads two. -/
theorem check_congr {o o' : ValidationOptions} (hs : o.strict = o'.strict)
    (hx : o.extraBehavior = o'.extraBehavior) {e : TypeExpr} {root : Bool} {v : OwnedValue} :
    check o e root v = check o' e root v := by
  induction e generalizing root v with
  | primitive | enum => simp only [check, hs]
  | optional inner ih => cases v <;> simp only [check, ih]
  | list of c ih | dict of c ih => cases v <;> simp only [check, ih]
  | struct fields extra ih =>
    have hfields (map : OwnedDict) : checkFields o map fields = checkFields o' map fields := by
      rw [checkFields_eq_map, checkFields_eq_map]
      apply List.map_congr_left
      intro f hf
      rw [show check o f.ty false = check o' f.ty false from funext fun _ => ih f hf]
    cases v <;> simp only [check, hfields, hx]

/-! ## Agreement with the code -/

namespace Validator
variable {p : List PathSegment} {options : ValidationOptions}

/-- The computation gives this verdict. -/
def Gives (p : List PathSegment) (m : Validator (Option OwnedValue)) (v : Verdict) : Prop :=
  Reports issueAt p m v.output v.findings

/-- The computation returns the coerced value, or nothing and records the one finding. -/
def Coerces {α : Type} (p : List PathSegment) (m : Validator (Option α))
    (result : Except Finding α) : Prop :=
  match result with
  | .ok a => Reports issueAt p m (some a) []
  | .error finding => Reports issueAt p m none (Report.here [finding])

theorem Coerces.ok {α : Type} (a : α) : Coerces p (pure (some a)) (.ok a) := Reports.pure _

theorem Coerces.error {α : Type} (finding : Finding) :
    Coerces p (do pushIssue finding.1 finding.2; return (none : Option α)) (.error finding) :=
  (Reports.emit finding).bind_pure (f := fun _ => none)

theorem coerceBool_coerces (value : OwnedValue) :
    Coerces p (coerceBool options value) (value.toBool options.strict) := by
  simp only [coerceBool, OwnedValue.toBool]
  generalize options.strict = strict
  cases value with
  | bool b => exact .ok b
  | string raw =>
    cases strict with
    | true => exact .error (typeMismatch "bool")
    | false =>
      dsimp only
      split
      · exact .ok true
      · split
        · exact .ok false
        · exact .error (coerceFailed _)
  | _ => exact .error (typeMismatch "bool")

theorem coerceInt_coerces (value : OwnedValue) :
    Coerces p (coerceInt options value) (value.toInt options.strict) := by
  simp only [coerceInt, OwnedValue.toInt]
  generalize options.strict = strict
  cases value with
  | int i => exact .ok i
  | string raw =>
    cases strict with
    | true => exact .error (typeMismatch "int")
    | false =>
      dsimp only
      cases Text.parseI64 (Text.trim raw) with
      | some i => exact .ok i
      | none => exact .error (coerceFailed _)
  | _ => exact .error (typeMismatch "int")

theorem coerceFloat_coerces (value : OwnedValue) :
    Coerces p (coerceFloat options value) (value.toFloat options.strict) := by
  simp only [coerceFloat, OwnedValue.toFloat]
  generalize options.strict = strict
  cases value with
  | float f => exact .ok f
  | int i => exact .ok (Binary64.ofI64 i)
  | string raw =>
    cases strict with
    | true => exact .error (typeMismatch "float")
    | false =>
      dsimp only
      cases Text.parseF64 (Text.trim raw) with
      | some f => exact .ok f
      | none => exact .error (coerceFailed _)
  | _ => exact .error (typeMismatch "float")

theorem coerceString_coerces (value : OwnedValue) :
    Coerces p (coerceString value) value.toText := by
  cases value with
  | string s => exact .ok s
  | _ => exact .error (typeMismatch "str")

theorem coerceSymbol_coerces (value : OwnedValue) :
    Coerces p (coerceSymbol options value) (value.toSymbol options.strict) := by
  simp only [coerceSymbol, OwnedValue.toSymbol]
  generalize options.strict = strict
  cases value with
  | symbol s => exact .ok s
  | string s =>
    cases strict with
    | true => exact .error (typeMismatch "sym")
    | false => exact .ok s
  | _ => exact .error (typeMismatch "sym")

/-- Recording that a limit is violated. -/
theorem reportLimit_reports {α : Type} (limit : Option α) (violated : α → Prop)
    [DecidablePred violated] (code : String) (metaMap : α → JsonMap) :
    Reports issueAt p (reportLimit limit violated code metaMap) ()
      (Report.here (limited limit violated fun bound => (code, metaMap bound))) := by
  simp only [reportLimit, limited]
  cases limit with
  | none => exact Reports.pure ()
  | some bound =>
    dsimp only
    split
    · exact Reports.emit (code, metaMap bound)
    · exact Reports.pure ()

theorem applyIntConstraints_reports (i : Int64) (c : IntConstraints) :
    Reports issueAt p (applyIntConstraints i c) () (Report.here (c.violations i)) := by
  rw [IntConstraints.violations, Report.here_append]
  exact (reportLimit_reports _ _ _ _).bind (reportLimit_reports _ _ _ _)

theorem applyFloatConstraints_reports (f : Float) (c : FloatConstraints) :
    Reports issueAt p (applyFloatConstraints f c) () (Report.here (c.violations f)) := by
  rw [FloatConstraints.violations, Report.here_append]
  exact (reportLimit_reports _ _ _ _).bind (reportLimit_reports _ _ _ _)

theorem applySizes_reports (length : Nat) (minSize maxSize : Option Nat) :
    Reports issueAt p (applySizes length minSize maxSize) ()
      (Report.here (sizeViolations length minSize maxSize)) := by
  rw [sizeViolations, Report.here_append]
  exact (reportLimit_reports _ _ _ _).bind (reportLimit_reports _ _ _ _)

theorem applyFormat_reports (format : StringFormat) (s : String) :
    Reports issueAt p (applyFormat format s) () (Report.here
      (if format.matches s = false then [formatInvalid format.kind] else [])) := by
  cases hm : format.matches s with
  | true =>
    cases format <;> simp only [applyFormat, StringFormat.matches] at hm ⊢ <;> rw [hm] <;>
      exact Reports.pure ()
  | false =>
    have hemit (kind : String) : Reports issueAt p (recordFormatInvalid kind) ()
        (Report.here [formatInvalid kind]) := Reports.emit _
    cases format <;> simp only [applyFormat, StringFormat.matches] at hm ⊢ <;> rw [hm] <;>
      exact hemit _

theorem applyStringConstraints_reports (s : String) (c : StringConstraints) :
    Reports issueAt p (applyStringConstraints s c) () (Report.here (c.violations s)) := by
  rw [StringConstraints.violations, Report.here_append]
  refine (applySizes_reports s.length c.minSize c.maxSize).bind ?_
  cases c.format with
  | none => exact Reports.pure ()
  | some format => exact applyFormat_reports format s

/-! ## Nodes -/

theorem mapCoerced_gives {α : Type} {coerce : Validator (Option α)} {result : Except Finding α}
    {apply : α → Validator Unit} {wrap : α → OwnedValue} {violations : α → List Finding}
    (hcoerce : Coerces p coerce result)
    (happly : ∀ a, Reports issueAt p (apply a) () (Report.here (violations a))) :
    Gives p (mapCoerced coerce apply wrap) (.coerced result wrap violations) := by
  cases result with
  | error finding => exact hcoerce.bind_last (Reports.pure none)
  | ok a => exact hcoerce.bind_silent ((happly a).bind_pure (f := fun _ => some (wrap a)))

theorem validatePrimitive_gives (primitive : PrimitiveType) (value : OwnedValue) :
    Gives p (validatePrimitive options primitive value)
      (checkPrimitive options.strict primitive value) := by
  cases primitive with
  | any => exact Reports.pure _
  | bool => exact mapCoerced_gives (coerceBool_coerces value) fun _ => Reports.pure ()
  | int c => exact mapCoerced_gives (coerceInt_coerces value) (applyIntConstraints_reports · c)
  | float c =>
    exact mapCoerced_gives (coerceFloat_coerces value) (applyFloatConstraints_reports · c)
  | string c =>
    exact mapCoerced_gives (coerceString_coerces value) (applyStringConstraints_reports · c)
  | symbol => exact mapCoerced_gives (coerceSymbol_coerces value) fun _ => Reports.pure ()

/-- Recording one finding and returning nothing. -/
theorem gives_fail (finding : Finding) :
    Gives p (do pushIssue finding.1 finding.2; return none) (.here none [finding]) :=
  (Reports.emit finding).bind_pure (f := fun _ => none)

theorem validateEnum_gives (variants : List String) (value : OwnedValue) :
    Gives p (validateEnum options variants value)
      (.coerced (value.toVariant options.strict variants) .symbol fun _ => []) := by
  have hsym (s : String) : Gives p
      (if variants.any (· == s) then return some (.symbol s)
        else do
          recordValueNotIn variants
          return none)
      (.coerced (if variants.any (· == s) then .ok s else .error (valueNotIn variants)) .symbol
        fun _ => []) := by
    split
    · exact Reports.pure _
    · exact gives_fail (valueNotIn variants)
  simp only [validateEnum, OwnedValue.toVariant]
  generalize options.strict = strict
  cases value with
  | symbol s => exact hsym s
  | string s =>
    cases strict with
    | true => exact gives_fail (typeMismatch "enum")
    | false => exact hsym s
  | _ => exact gives_fail (typeMismatch "enum")

variable {validateInner : OwnedValue → Validator (Option OwnedValue)}

theorem validateOptional_gives {root : Bool} {inner : TypeExpr} (value : OwnedValue)
    (h : Gives p (validateInner value) (check options inner root value)) :
    Gives p (validateOptional validateInner value)
      (check options (.optional inner) root value) := by
  cases value with
  | null => exact Reports.pure _
  | _ => simp only [check]; exact h

theorem validateElements_reports {verdict : OwnedValue → Verdict}
    (h : ∀ value p, p ≠ [] → Gives p (validateInner value) (verdict value)) (index : Nat)
    (items : List OwnedValue) :
    Reports issueAt p (validateElements validateInner index items)
      ((items.map verdict).filterMap (·.output))
      (((items.map verdict).zipIdx index).flatMap fun (element, i) =>
        Report.under (.index i) element.findings) := by
  induction items generalizing index with
  | nil => exact Reports.pure _
  | cons item items ih =>
    have hout (v : Verdict) (vs : List Verdict) : (v :: vs).filterMap (·.output) =
        v.output.toList ++ vs.filterMap (·.output) := by
      cases hv : v.output <;> simp [hv]
    rw [List.map_cons, hout, List.zipIdx_cons, List.flatMap_cons]
    exact (h item _ (by simp)).under ((ih (index + 1)).bind_pure (f := fun output => _ ++ output))

theorem applyCollectionConstraints_reports (length : Nat) (c : CollectionConstraints) :
    Reports issueAt p (applyCollectionConstraints length c) ()
      (Report.here (c.violations length)) :=
  applySizes_reports length c.minSize c.maxSize

theorem validateList_gives {verdict : OwnedValue → Verdict} {c : CollectionConstraints}
    (h : ∀ value p, p ≠ [] → Gives p (validateInner value) (verdict value))
    (items : List OwnedValue) :
    Gives p (validateList validateInner c (.list items)) (.list c (items.map verdict)) := by
  have hsizes := applyCollectionConstraints_reports (p := p)
    ((items.map verdict).filterMap (·.output)).length c
  exact (validateElements_reports h 0 items).bind (hsizes.bind_pure (f := fun _ => some _))

theorem validateEntries_reports {verdict : OwnedValue → Verdict}
    (h : ∀ value p, p ≠ [] → Gives p (validateInner value) (verdict value)) (map : OwnedDict) :
    Reports issueAt p (validateEntries validateInner map)
      ((map.map fun entry => (entry.1, verdict entry.2)).filterMap fun (key, entry) =>
        entry.output.map (key, ·))
      ((map.map fun entry => (entry.1, verdict entry.2)).flatMap fun (key, entry) =>
        Report.under (.key key) entry.findings) := by
  induction map with
  | nil => exact Reports.pure _
  | cons entry map ih =>
    obtain ⟨key, value⟩ := entry
    have hout (v : Verdict) (vs : List (String × Verdict)) :
        ((key, v) :: vs).filterMap (fun (key, entry) => entry.output.map (key, ·)) =
          (v.output.map fun output => (key, output)).toList ++
            vs.filterMap (fun (key, entry) => entry.output.map (key, ·)) := by
      cases hv : v.output <;> simp [hv]
    rw [List.map_cons, hout, List.flatMap_cons]
    exact (h value _ (by simp)).under (ih.bind_pure (f := fun output => _ ++ output))

theorem validateDict_gives {verdict : OwnedValue → Verdict} {c : CollectionConstraints}
    (h : ∀ value p, p ≠ [] → Gives p (validateInner value) (verdict value)) (map : OwnedDict) :
    Gives p (validateDict validateInner c (.dict map))
      (.dict c (map.map fun entry => (entry.1, verdict entry.2))) := by
  have hsizes := applyCollectionConstraints_reports (p := p)
    ((map.map fun entry => (entry.1, verdict entry.2)).filterMap fun (key, entry) =>
      entry.output.map (key, ·)).length c
  exact (validateEntries_reports h map).bind (hsizes.bind_pure (f := fun _ => some _))

theorem validateFields_reports {map : OwnedDict}
    {fields : List (StructField × (OwnedValue → Validator (Option OwnedValue)))}
    {verdict : StructField → OwnedValue → Verdict}
    (h : ∀ f ∈ fields, ∀ value p, p ≠ [] → Gives p (f.2 value) (verdict f.1 value)) :
    Reports issueAt p (validateFields map fields)
      (fields.map fun f => (checkField map f.1.name f.1.presence (verdict f.1)).output)
      (fields.flatMap fun f => (checkField map f.1.name f.1.presence (verdict f.1)).findings) := by
  induction fields with
  | nil => exact Reports.pure _
  | cons f fields ih =>
    obtain ⟨field, validateInner⟩ := f
    have hrest := ih fun g hg => h g (List.mem_cons_of_mem _ hg)
    rw [List.map_cons, List.flatMap_cons, validateFields]
    cases hfind : dictFind map field.name with
    | some value =>
      have hvalue := h _ List.mem_cons_self value (p ++ [.key field.name]) (by simp)
      simp only [checkField, hfind]
      exact hvalue.under (hrest.bind_pure (f := fun values => _ :: values))
    | none =>
      simp only [checkField, hfind]
      cases field.presence with
      | required =>
        have hmissing : Reports issueAt (p ++ [.key field.name]) recordRequiredMissing ()
          (Report.here [requiredMissing]) := Reports.emit _
        exact hmissing.under (hrest.bind_pure (f := fun values => none :: values))
      | optional => exact hrest.bind_pure (f := fun values => none :: values)

theorem findFieldIndex_eq_none {names : List String} {key : String} :
    findFieldIndex names key = none ↔ key ∉ names := by
  rw [findFieldIndex, List.findIdx?_eq_none_iff]
  refine ⟨fun h hmem => by simpa using h key hmem, fun h name hmem => ?_⟩
  rw [beq_eq_false_iff_ne]
  rintro rfl
  exact h hmem

theorem unknownEntries_cons_field {names : List String} {key : String} {value : OwnedValue}
    {map : OwnedDict} (h : key ∈ names) :
    unknownEntries names ((key, value) :: map) = unknownEntries names map := by
  simp [unknownEntries, h]

theorem unknownEntries_cons_unknown {names : List String} {key : String} {value : OwnedValue}
    {map : OwnedDict} (h : key ∉ names) :
    unknownEntries names ((key, value) :: map) = (key, value) :: unknownEntries names map := by
  simp [unknownEntries, h]

/-- What the loop over the entries returns from the extras collected so far. -/
def extrasAfter (extra : ExtraBehavior) (extrasTemp : Option OwnedDict) (unknown : OwnedDict) :
    Option OwnedDict :=
  match extra with
  | .forbid | .ignore => extrasTemp
  | .allow => if unknown.isEmpty then extrasTemp else some (extrasTemp.getD [] ++ unknown)

theorem collectExtras_reports (names : List String) (extra : ExtraBehavior) (map : OwnedDict)
    (extrasTemp : Option OwnedDict) :
    Reports issueAt p (collectExtras names extra map extrasTemp)
      (extrasAfter extra extrasTemp (unknownEntries names map))
      (checkExtras extra (unknownEntries names map)).2 := by
  induction map generalizing extrasTemp with
  | nil => cases extra <;> exact Reports.pure _
  | cons entry map ih =>
    obtain ⟨key, value⟩ := entry
    simp only [collectExtras]
    cases hfind : findFieldIndex names key with
    | some idx =>
      have hfield : key ∈ names := by
        by_contra hkey
        simp [findFieldIndex_eq_none.2 hkey] at hfind
      rw [unknownEntries_cons_field hfield]
      exact ih extrasTemp
    | none =>
      rw [unknownEntries_cons_unknown (findFieldIndex_eq_none.1 hfind)]
      cases extra with
      | forbid =>
        have hextra : Reports issueAt (p ++ [.key key]) (recordExtraKey key) ()
          (Report.here [extraKey key]) := Reports.emit _
        exact hextra.under (ih extrasTemp)
      | ignore => exact ih extrasTemp
      | allow =>
        have hrest := ih (some (extrasTemp.getD [] ++ [(key, value)]))
        have hafter : extrasAfter .allow (some (extrasTemp.getD [] ++ [(key, value)]))
            (unknownEntries names map) = extrasAfter .allow extrasTemp
              ((key, value) :: unknownEntries names map) := by
          cases hu : unknownEntries names map <;> simp [extrasAfter]
        exact hafter ▸ hrest

theorem validateStruct_gives (verdict : StructField → OwnedValue → Verdict)
    {fields : List (StructField × (OwnedValue → Validator (Option OwnedValue)))}
    (extra : ExtraBehavior) (map : OwnedDict)
    (h : ∀ f ∈ fields, ∀ value p, p ≠ [] → Gives p (f.2 value) (verdict f.1 value)) :
    Gives p (validateStruct options fields extra (.dict map))
      (.struct (fields.map fun f => f.1.name)
        (fields.map fun f => checkField map f.1.name f.1.presence (verdict f.1))
        (checkExtras (if p.isEmpty then options.extraBehavior else extra)
          (unknownEntries (fields.map fun f => f.1.name) map))) := by
  generalize hnames : fields.map (fun f => f.1.name) = names
  have hextras := collectExtras_reports (p := p) names
    (if p.isEmpty then options.extraBehavior else extra) map none
  have hnone (extra : ExtraBehavior) (unknown : OwnedDict) :
      extrasAfter extra none unknown = (checkExtras extra unknown).1 := by
    cases extra <;> rfl
  simp only [validateStruct, Verdict.struct, List.map_map, List.flatMap_map, hnames, hnone] at *
  refine (validateFields_reports h).bind (Reports.path.bind_silent ?_)
  exact hextras.bind_pure (f := fun extras => some (OwnedValue.struct ⟨names, _, extras⟩))

/-- Validating an id answers the verdict of what the id stands for. -/
theorem validateNode_gives (schema : SchemaIr) {id : NodeId} (hid : id.index < schema.arena.len)
    (value : OwnedValue) (p : List PathSegment) :
    Gives p (validateNode options schema id value)
      (check options (schema.unfold id) p.isEmpty value) := by
  induction hk : id.index using Nat.strong_induction_on generalizing id value p with
  | _ k ih =>
    obtain ⟨n, hget⟩ : ∃ n, schema.arena.get id = some n := ⟨_, List.getElem?_eq_getElem hid⟩
    have hchild {c : NodeId} (hc : c ∈ n.children) (value : OwnedValue) (p : List PathSegment) :
        Gives p (validateNode options schema c value)
          (check options (schema.unfold c) p.isEmpty value) :=
      have hlt := schema.closed hget c hc
      ih _ (hk ▸ hlt) (hlt.trans hid) value p rfl
    have hpart {c : NodeId} (hc : c ∈ n.children) (value : OwnedValue) (p : List PathSegment)
        (hp : p ≠ []) : Gives p (validateNode options schema c value)
          (check options (schema.unfold c) false value) := by
      have h := hchild hc value p
      rwa [List.isEmpty_eq_false_iff.2 hp] at h
    rw [schema.unfold_of_get hget, validateNode]
    split <;> rename_i heq <;> cases hget.symm.trans heq
    case _ primitive => exact validatePrimitive_gives primitive value
    case _ variants => exact validateEnum_gives variants value
    case _ of => exact validateOptional_gives value (hchild List.mem_cons_self value p)
    case _ of c =>
      cases value with
      | list items => exact validateList_gives (hpart List.mem_cons_self) items
      | _ => exact gives_fail (typeMismatch "list")
    case _ inner c =>
      cases value with
      | dict map => exact validateDict_gives (hpart List.mem_cons_self) map
      | _ => exact gives_fail (typeMismatch "dict")
    case _ fields extra =>
      cases value with
      | dict map =>
        have hfields : ∀ f ∈ fields.attach.map fun f =>
              (f.1, validateNode options schema f.1.node),
            ∀ value p, p ≠ [] →
              Gives p (f.2 value) (check options (schema.unfold f.1.node) false value) := by
          intro _ hf
          obtain ⟨⟨f, hmem⟩, -, rfl⟩ := List.mem_map.1 hf
          exact hpart (List.mem_map.2 ⟨f, hmem, rfl⟩)
        have h : Gives p (validateStruct options _ extra (.dict map)) _ :=
          validateStruct_gives (fun f => check options (schema.unfold f.node) false) extra map
            hfields
        simpa [check, Node.expand, checkFields_eq_map, Function.comp_def] using h
      | _ => exact gives_fail (typeMismatch "struct")

end Validator
end RustlyCore
