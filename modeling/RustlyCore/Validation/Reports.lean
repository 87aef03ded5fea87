import RustlyCore.Validation.Issues
import RustlyCore.Validation.Limits

/-!
# What a report lists

`Breach` says what can be wrong with one value by itself, in terms of the conversion relation. A
report lists exactly the breaches at the places that are visited: it misses none, and stops at none.
-/

namespace RustlyCore

/-! ## Kinds -/

/-- The value can be read as the type, whatever the constraints say of it. -/
def PrimitiveType.Reads (strict : Bool) (p : PrimitiveType) (v : OwnedValue) : Prop :=
  match p with
  | .any => True
  | .bool => ∃ b, v.IsBool strict b
  | .int _ => ∃ i, v.IsInt strict i
  | .float _ => ∃ f, v.IsFloat strict f
  | .string _ => ∃ s, v = .string s
  | .symbol => ∃ s, v.IsSymbol strict s

/-- The same of an expression, whatever is wrong inside a collection. -/
def TypeExpr.Reads (strict : Bool) : TypeExpr → OwnedValue → Prop
  | .primitive p, v => p.Reads strict v
  | .enum variants, v => ∃ s ∈ variants, v.IsSymbol strict s
  | .optional inner, v => v = .null ∨ inner.Reads strict v
  | .list _ _, v => ∃ items, v = .list items
  | .dict _ _, v => ∃ map, v = .dict map
  | .struct _ _, v => ∃ map, v = .dict map

def PrimitiveType.expected : PrimitiveType → String
  | .any => "any"
  | .bool => "bool"
  | .int _ => "int"
  | .float _ => "float"
  | .string _ => "str"
  | .symbol => "sym"

/-- What is said of a value that cannot be read. -/
def PrimitiveType.refusal (strict : Bool) (p : PrimitiveType) (v : OwnedValue) : Finding :=
  match p, v, strict with
  | .bool, .string _, false | .int _, .string _, false | .float _, .string _, false =>
    ("coerce_failed", [("from", .string "str")])
  | p, _, _ => ("type_mismatch", [("expected", .string p.expected)])

/-! ## Breaches -/

def IntConstraints.Breaks (c : IntConstraints) (i : Int64) (finding : Finding) : Prop :=
  (∃ min ∈ c.min, i < min ∧ finding = ("too_small", [("min", .ofI64 min)])) ∨
    ∃ max ∈ c.max, max < i ∧ finding = ("too_large", [("max", .ofI64 max)])

/-- A bound for which JSON has no number is left out. -/
def boundMeta (key : String) (bound : Float) : JsonMap :=
  if bound.isFinite then [(key, .number (.float bound))] else []

def FloatConstraints.Breaks (c : FloatConstraints) (f : Float) (finding : Finding) : Prop :=
  (∃ min ∈ c.min, f < min.intoInner ∧
      finding = ("too_small", boundMeta "min" min.intoInner)) ∨
    ∃ max ∈ c.max, max.intoInner < f ∧
      finding = ("too_large", boundMeta "max" max.intoInner)

def SizeBreaks (length : Nat) (minSize maxSize : Option Nat) (finding : Finding) : Prop :=
  (∃ min ∈ minSize, length < min ∧ finding = ("too_short", [("min", .ofI64 (.ofNat min))])) ∨
    ∃ max ∈ maxSize, max < length ∧ finding = ("too_long", [("max", .ofI64 (.ofNat max))])

def StringConstraints.Breaks (c : StringConstraints) (s : String) (finding : Finding) : Prop :=
  SizeBreaks s.length c.minSize c.maxSize finding ∨
    ∃ format ∈ c.format, ¬ format.Admits s ∧
      finding = ("format_invalid", [("kind", .string format.kind)])

/-- The value can be read, and a constraint says no. -/
def PrimitiveType.Breaks (strict : Bool) (p : PrimitiveType) (v : OwnedValue) (finding : Finding) :
    Prop :=
  match p with
  | .int c => ∃ i, v.IsInt strict i ∧ c.Breaks i finding
  | .float c => ∃ f, v.IsFloat strict f ∧ c.Breaks f finding
  | .string c => ∃ s, v = .string s ∧ c.Breaks s finding
  | _ => False

open scoped Classical in
/-- What is wrong with a value itself, and where in it: at the value, or at the key of a field that
is missing or of an entry that is no field. Of a collection the elements that can be read count. -/
inductive Breach (o : ValidationOptions) :
    TypeExpr → (root : Bool) → OwnedValue → List PathSegment → Finding → Prop
  | refused {p : PrimitiveType} {root : Bool} {v : OwnedValue} :
    ¬ p.Reads o.strict v → Breach o (.primitive p) root v [] (p.refusal o.strict v)
  | limit {p : PrimitiveType} {root : Bool} {v : OwnedValue} {finding : Finding} :
    p.Breaks o.strict v finding → Breach o (.primitive p) root v [] finding
  | noVariant {variants : List String} {root : Bool} {v : OwnedValue} {s : String} :
    v.IsSymbol o.strict s → s ∉ variants →
    Breach o (.enum variants) root v []
      ("value_not_in", [("list", .array (variants.map .string))])
  | noSymbol {variants : List String} {root : Bool} {v : OwnedValue} :
    (∀ s, ¬ v.IsSymbol o.strict s) →
    Breach o (.enum variants) root v [] ("type_mismatch", [("expected", .string "enum")])
  | noList {of : TypeExpr} {c : CollectionConstraints} {root : Bool} {v : OwnedValue} :
    (∀ items, v ≠ .list items) →
    Breach o (.list of c) root v [] ("type_mismatch", [("expected", .string "list")])
  | noDict {of : TypeExpr} {c : CollectionConstraints} {root : Bool} {v : OwnedValue} :
    (∀ map, v ≠ .dict map) →
    Breach o (.dict of c) root v [] ("type_mismatch", [("expected", .string "dict")])
  | noStruct {fields : List (FieldExpr TypeExpr)} {extra : ExtraBehavior} {root : Bool}
      {v : OwnedValue} :
    (∀ map, v ≠ .dict map) →
    Breach o (.struct fields extra) root v [] ("type_mismatch", [("expected", .string "struct")])
  | listSize {of : TypeExpr} {c : CollectionConstraints} {root : Bool} {items : List OwnedValue}
      {finding : Finding} :
    SizeBreaks (items.countP (of.Reads o.strict ·)) c.minSize c.maxSize finding →
    Breach o (.list of c) root (.list items) [] finding
  | dictSize {of : TypeExpr} {c : CollectionConstraints} {root : Bool} {map : OwnedDict}
      {finding : Finding} :
    SizeBreaks (map.countP (of.Reads o.strict ·.2)) c.minSize c.maxSize finding →
    Breach o (.dict of c) root (.dict map) [] finding
  | missing {fields : List (FieldExpr TypeExpr)} {extra : ExtraBehavior} {root : Bool}
      {map : OwnedDict} {f : FieldExpr TypeExpr} :
    f ∈ fields → f.presence = .required → (∀ p ∈ map, p.1 ≠ f.name) →
    Breach o (.struct fields extra) root (.dict map) [.key f.name] ("required_missing", [])
  | extra {fields : List (FieldExpr TypeExpr)} {extra : ExtraBehavior} {root : Bool}
      {map : OwnedDict} {key : String} {v : OwnedValue} :
    (if root then o.extraBehavior else extra) = .forbid → (key, v) ∈ map →
    key ∉ fields.map (·.name) →
    Breach o (.struct fields extra) root (.dict map) [.key key]
      ("extra_key", [("name", .string key)])

/-- A breach at a place that is visited. The root is a place reached through optionals only. -/
def Breaches (o : ValidationOptions) (e : TypeExpr) (root : Bool) (v : OwnedValue)
    (path : List PathSegment) (finding : Finding) : Prop :=
  ∃ place e' v' rest, e.Visits v place e' v' ∧
    Breach o e' (root && place.isEmpty) v' rest finding ∧ path = place ++ rest

variable {o : ValidationOptions} {e : TypeExpr} {root strict : Bool} {v : OwnedValue}
  {path : List PathSegment} {finding : Finding}

/-! ## Leaves -/

theorem floatMeta_eq (key : String) (bound : Float) :
    Validator.floatMeta key bound = boundMeta key bound := by
  rw [Validator.floatMeta, JsonNumber.ofF64, boundMeta]
  by_cases hfinite : bound.isFinite = true
  · rw [if_pos hfinite, if_pos hfinite]
    rfl
  · rw [if_neg hfinite, if_neg hfinite]

theorem IntConstraints.mem_violations {c : IntConstraints} {i : Int64} :
    finding ∈ c.violations i ↔ c.Breaks i finding := by
  simp only [violations, List.mem_append, mem_limited, Breaks, gt_iff_lt]
  rfl

theorem FloatConstraints.mem_violations {c : FloatConstraints} {f : Float} :
    finding ∈ c.violations f ↔ c.Breaks f finding := by
  simp only [violations, List.mem_append, mem_limited, Breaks, gt_iff_lt, floatMeta_eq]

theorem mem_sizeViolations {length : Nat} {minSize maxSize : Option Nat} :
    finding ∈ sizeViolations length minSize maxSize ↔
      SizeBreaks length minSize maxSize finding := by
  simp only [sizeViolations, List.mem_append, mem_limited, SizeBreaks, gt_iff_lt]
  rfl

theorem StringConstraints.mem_violations {c : StringConstraints} {s : String} :
    finding ∈ c.violations s ↔ c.Breaks s finding := by
  simp only [violations, List.mem_append, mem_sizeViolations, mem_limited, Breaks,
    StringFormat.not_matches_iff]
  rfl

theorem toBool_refusal (h : v.toBool strict = .error finding) :
    finding = PrimitiveType.refusal strict .bool v := by
  simp only [OwnedValue.toBool] at h
  split at h
  · cases h
  · split at h
    · cases h
    · split at h <;> cases h
      rfl
  next hbool htext =>
    cases h
    cases v with
    | string s =>
      cases strict with
      | true => rfl
      | false => exact absurd rfl (htext s rfl)
    | _ => rfl

theorem toInt_refusal {c : IntConstraints} (h : v.toInt strict = .error finding) :
    finding = PrimitiveType.refusal strict (.int c) v := by
  simp only [OwnedValue.toInt] at h
  split at h
  · cases h
  · split at h <;> cases h
    rfl
  next hint htext =>
    cases h
    cases v with
    | string s =>
      cases strict with
      | true => rfl
      | false => exact absurd rfl (htext s rfl)
    | _ => rfl

theorem toFloat_refusal {c : FloatConstraints} (h : v.toFloat strict = .error finding) :
    finding = PrimitiveType.refusal strict (.float c) v := by
  simp only [OwnedValue.toFloat] at h
  split at h
  · cases h
  · cases h
  · split at h <;> cases h
    rfl
  next hfloat hint htext =>
    cases h
    cases v with
    | string s =>
      cases strict with
      | true => rfl
      | false => exact absurd rfl (htext s rfl)
    | _ => rfl

theorem toText_refusal (strict : Bool) {c : StringConstraints} (h : v.toText = .error finding) :
    finding = PrimitiveType.refusal strict (.string c) v := by
  cases v <;> cases h <;> rfl

theorem toSymbol_refusal (h : v.toSymbol strict = .error finding) :
    finding = PrimitiveType.refusal strict .symbol v := by
  simp only [OwnedValue.toSymbol] at h
  split at h <;> cases h
  rfl

/-- A result that fails in one way. -/
theorem eq_error_iff {α : Type} {result : Except Finding α} {refusal : Finding}
    (h : ∀ f, result = .error f → f = refusal) :
    result = .error finding ↔ (∀ a, result ≠ .ok a) ∧ finding = refusal := by
  cases result with
  | ok a => simp
  | error f =>
    obtain rfl := h f rfl
    simp [eq_comm]

theorem mem_here_iff {found : List Finding} :
    (path, finding) ∈ (Report.here found : Findings) ↔ path = [] ∧ finding ∈ found := by
  constructor
  · exact mem_here
  · rintro ⟨rfl, h⟩
    exact List.mem_map.2 ⟨finding, h, rfl⟩

theorem Verdict.mem_coerced {α : Type} {result : Except Finding α} {wrap : α → OwnedValue}
    {violations : α → List Finding} :
    (path, finding) ∈ (Verdict.coerced result wrap violations).findings ↔
      path = [] ∧ ((∃ a, result = .ok a ∧ finding ∈ violations a) ∨ result = .error finding) := by
  cases result with
  | ok a => simp [coerced, here, mem_here_iff]
  | error f => simp [coerced, here, mem_here_iff, eq_comm (a := f)]

theorem mem_checkPrimitive {p : PrimitiveType} :
    (path, finding) ∈ (checkPrimitive o.strict p v).findings ↔
      Breach o (.primitive p) root v path finding := by
  have hbreach : Breach o (.primitive p) root v path finding ↔
      path = [] ∧ (p.Breaks o.strict v finding ∨
        ¬ p.Reads o.strict v ∧ finding = p.refusal o.strict v) := by
    constructor
    · intro h
      cases h with
      | refused h => exact ⟨rfl, .inr ⟨h, rfl⟩⟩
      | limit h => exact ⟨rfl, .inl h⟩
    · rintro ⟨rfl, h | ⟨h, rfl⟩⟩
      · exact .limit h
      · exact .refused h
  rw [hbreach]
  cases p with
  | any => simp [checkPrimitive, Verdict.here, PrimitiveType.Breaks, PrimitiveType.Reads]
  | bool =>
    simp [checkPrimitive, Verdict.mem_coerced, eq_error_iff fun _ => toBool_refusal, toBool_iff,
      PrimitiveType.Breaks, PrimitiveType.Reads]
  | int c =>
    simp [checkPrimitive, Verdict.mem_coerced, eq_error_iff fun _ => toInt_refusal (c := c),
      toInt_iff, c.mem_violations, PrimitiveType.Breaks, PrimitiveType.Reads]
  | float c =>
    simp [checkPrimitive, Verdict.mem_coerced, eq_error_iff fun _ => toFloat_refusal (c := c),
      toFloat_iff, c.mem_violations, PrimitiveType.Breaks, PrimitiveType.Reads]
  | string c =>
    simp [checkPrimitive, Verdict.mem_coerced,
      eq_error_iff fun _ => toText_refusal o.strict (c := c), toText_iff, c.mem_violations,
      PrimitiveType.Breaks, PrimitiveType.Reads]
  | symbol =>
    simp [checkPrimitive, Verdict.mem_coerced, eq_error_iff fun _ => toSymbol_refusal,
      toSymbol_iff, PrimitiveType.Breaks, PrimitiveType.Reads]

theorem toVariant_error_iff {variants : List String} :
    v.toVariant strict variants = .error finding ↔
      (∃ s, v.IsSymbol strict s ∧ s ∉ variants ∧ finding = valueNotIn variants) ∨
        (∀ s, ¬ v.IsSymbol strict s) ∧ finding = typeMismatch "enum" := by
  have hread {t : String} (hsymbol : v.IsSymbol strict t) :
      v.toVariant strict variants = .error finding ↔
        (∃ s, v.IsSymbol strict s ∧ s ∉ variants ∧ finding = valueNotIn variants) := by
    have honly {s : String} (hs : v.IsSymbol strict s) : s = t := by
      cases hsymbol <;> cases hs <;> rfl
    have hvalue : v.toVariant strict variants =
        if variants.any (· == t) then .ok t else .error (valueNotIn variants) := by
      rcases hsymbol with _ | rfl <;> rfl
    rw [hvalue]
    constructor
    · intro h
      split at h
      · cases h
      next hmem =>
        cases h
        refine ⟨t, hsymbol, ?_, rfl⟩
        simpa [List.any_beq'] using hmem
    · rintro ⟨s, hs, hmem, rfl⟩
      cases honly hs
      rw [if_neg (by simpa [List.any_beq'] using hmem)]
  by_cases hsymbol : ∃ t, v.IsSymbol strict t
  · obtain ⟨t, hsymbol⟩ := hsymbol
    rw [hread hsymbol]
    exact ⟨.inl, fun h => h.resolve_right fun hnone => hnone.1 t hsymbol⟩
  · rw [not_exists] at hsymbol
    have hvalue : v.toVariant strict variants = .error (typeMismatch "enum") := by
      cases v with
      | symbol t => exact absurd (.symbol t) (hsymbol t)
      | string t =>
        cases strict with
        | true => rfl
        | false => exact absurd (.string rfl) (hsymbol t)
      | _ => rfl
    rw [hvalue, Except.error.injEq]
    constructor
    · rintro rfl
      exact .inr ⟨hsymbol, rfl⟩
    · rintro (⟨s, hs, -⟩ | ⟨-, rfl⟩)
      · exact absurd hs (hsymbol s)
      · rfl

theorem mem_checkEnum {variants : List String} :
    (path, finding) ∈ (check o (.enum variants) root v).findings ↔
      Breach o (.enum variants) root v path finding := by
  rw [check, Verdict.mem_coerced, toVariant_error_iff]
  constructor
  · rintro ⟨rfl, ⟨_, _, h⟩ | ⟨s, hs, hmem, rfl⟩ | ⟨hs, rfl⟩⟩
    · cases h
    · exact .noVariant hs hmem
    · exact .noSymbol hs
  · intro h
    cases h with
    | noVariant hs hmem => exact ⟨rfl, .inr (.inl ⟨_, hs, hmem, rfl⟩)⟩
    | noSymbol hs => exact ⟨rfl, .inr (.inr ⟨hs, rfl⟩)⟩

/-! ## Elements that can be read -/

theorem coerced_output {α : Type} {result : Except Finding α} {wrap : α → OwnedValue}
    {violations : α → List Finding} :
    (Verdict.coerced result wrap violations).output.isSome ↔ ∃ a, result = .ok a := by
  cases result <;> simp [Verdict.coerced, Verdict.here]

theorem check_output : (check o e root v).output.isSome ↔ e.Reads o.strict v := by
  induction e generalizing root v with
  | primitive p =>
    cases p with
    | any => simp [check, checkPrimitive, Verdict.here, TypeExpr.Reads, PrimitiveType.Reads]
    | bool =>
      simp only [check, checkPrimitive, coerced_output, toBool_iff, TypeExpr.Reads,
        PrimitiveType.Reads]
    | int c =>
      simp only [check, checkPrimitive, coerced_output, toInt_iff, TypeExpr.Reads,
        PrimitiveType.Reads]
    | float c =>
      simp only [check, checkPrimitive, coerced_output, toFloat_iff, TypeExpr.Reads,
        PrimitiveType.Reads]
    | string c =>
      simp only [check, checkPrimitive, coerced_output, toText_iff, TypeExpr.Reads,
        PrimitiveType.Reads]
    | symbol =>
      simp only [check, checkPrimitive, coerced_output, toSymbol_iff, TypeExpr.Reads,
        PrimitiveType.Reads]
  | enum => simp only [check, coerced_output, toVariant_iff, TypeExpr.Reads]
  | optional inner ih =>
    cases v with
    | null => simp [check, Verdict.here, TypeExpr.Reads]
    | _ => simp [check, ih, TypeExpr.Reads]
  | list => cases v <;> simp [check, Verdict.here, Verdict.list, TypeExpr.Reads]
  | dict => cases v <;> simp [check, Verdict.here, Verdict.dict, TypeExpr.Reads]
  | struct => cases v <;> simp [check, Verdict.here, Verdict.struct, TypeExpr.Reads]

open scoped Classical in
theorem length_items (of : TypeExpr) (items : List OwnedValue) :
    ((items.map fun item => check o of false item).filterMap (·.output)).length =
      items.countP (of.Reads o.strict ·) := by
  rw [List.filterMap_map, List.length_filterMap_eq_countP]
  apply List.countP_congr
  intro item _
  simp [check_output]

open scoped Classical in
theorem length_entries (of : TypeExpr) (map : OwnedDict) :
    ((map.map fun entry => (entry.1, check o of false entry.2)).filterMap
      fun (key, entry) => entry.output.map (key, ·)).length =
        map.countP (of.Reads o.strict ·.2) := by
  rw [List.filterMap_map, List.length_filterMap_eq_countP]
  apply List.countP_congr
  intro entry _
  simp [check_output]

/-! ## Breaches of a whole -/

/-- Only the value itself can be wrong. -/
theorem breaches_leaf {e : TypeExpr} (h : ∀ place e' v', e.Visits v place e' v' →
    place = [] ∧ e' = e ∧ v' = v) :
    Breaches o e root v path finding ↔ Breach o e root v path finding := by
  constructor
  · rintro ⟨place, e', v', rest, hvisits, hbreach, rfl⟩
    obtain ⟨rfl, rfl, rfl⟩ := h place e' v' hvisits
    simpa using hbreach
  · intro hbreach
    exact ⟨[], e, v, path, .here e v, by simpa using hbreach, rfl⟩

theorem breaches_primitive {p : PrimitiveType} :
    Breaches o (.primitive p) root v path finding ↔
      Breach o (.primitive p) root v path finding :=
  breaches_leaf fun _ _ _ h => by cases h; exact ⟨rfl, rfl, rfl⟩

theorem breaches_enum {variants : List String} :
    Breaches o (.enum variants) root v path finding ↔
      Breach o (.enum variants) root v path finding :=
  breaches_leaf fun _ _ _ h => by cases h; exact ⟨rfl, rfl, rfl⟩

theorem breaches_optional {inner : TypeExpr} (hnull : v ≠ .null) :
    Breaches o (.optional inner) root v path finding ↔ Breaches o inner root v path finding := by
  constructor
  · rintro ⟨place, e', v', rest, hvisits, hbreach, rfl⟩
    cases hvisits with
    | here => cases hbreach
    | optional _ hvisits => exact ⟨place, e', v', rest, hvisits, hbreach, rfl⟩
  · rintro ⟨place, e', v', rest, hvisits, hbreach, rfl⟩
    exact ⟨place, e', v', rest, .optional hnull hvisits, hbreach, rfl⟩

theorem not_breaches_null {inner : TypeExpr} :
    ¬ Breaches o (.optional inner) root .null path finding := by
  rintro ⟨place, e', v', rest, hvisits, hbreach, rfl⟩
  cases hvisits with
  | here => cases hbreach
  | optional hnull => exact hnull rfl

/-- A breach of a part, one segment further. -/
theorem Breaches.of_part {e' : TypeExpr} {v' : OwnedValue} {segment : PathSegment}
    (hpart : ∀ {place e'' v''}, e'.Visits v' place e'' v'' →
      e.Visits v (segment :: place) e'' v'')
    (h : Breaches o e' false v' path finding) : Breaches o e root v (segment :: path) finding := by
  obtain ⟨place, e'', v'', rest, hvisits, hbreach, rfl⟩ := h
  exact ⟨segment :: place, e'', v'', rest, hpart hvisits, by simpa using hbreach, rfl⟩

theorem breaches_list {of : TypeExpr} {c : CollectionConstraints} :
    Breaches o (.list of c) root v path finding ↔
      Breach o (.list of c) root v path finding ∨
        ∃ items i v' rest, v = .list items ∧ items[i]? = some v' ∧ path = .index i :: rest ∧
          Breaches o of false v' rest finding := by
  constructor
  · rintro ⟨place, e', v', rest, hvisits, hbreach, rfl⟩
    cases hvisits with
    | here => exact .inl (by simpa using hbreach)
    | item hget hvisits =>
      refine .inr ⟨_, _, _, _, rfl, hget, rfl, _, e', v', rest, hvisits, ?_, rfl⟩
      simpa using hbreach
  · rintro (hbreach | ⟨items, i, v', rest, rfl, hget, rfl, h⟩)
    · exact ⟨[], _, v, path, .here _ v, by simpa using hbreach, rfl⟩
    · exact h.of_part (.item hget)

theorem breaches_dict {of : TypeExpr} {c : CollectionConstraints} :
    Breaches o (.dict of c) root v path finding ↔
      Breach o (.dict of c) root v path finding ∨
        ∃ map key v' rest, v = .dict map ∧ (key, v') ∈ map ∧ path = .key key :: rest ∧
          Breaches o of false v' rest finding := by
  constructor
  · rintro ⟨place, e', v', rest, hvisits, hbreach, rfl⟩
    cases hvisits with
    | here => exact .inl (by simpa using hbreach)
    | entry hmem hvisits =>
      refine .inr ⟨_, _, _, _, rfl, hmem, rfl, _, e', v', rest, hvisits, ?_, rfl⟩
      simpa using hbreach
  · rintro (hbreach | ⟨map, key, v', rest, rfl, hmem, rfl, h⟩)
    · exact ⟨[], _, v, path, .here _ v, by simpa using hbreach, rfl⟩
    · exact h.of_part (.entry hmem)

theorem breaches_struct {fields : List (FieldExpr TypeExpr)} {extra : ExtraBehavior} :
    Breaches o (.struct fields extra) root v path finding ↔
      Breach o (.struct fields extra) root v path finding ∨
        ∃ map, ∃ f ∈ fields, ∃ v' rest, v = .dict map ∧
          FirstEntry map f.name v' ∧ path = .key f.name :: rest ∧
          Breaches o f.ty false v' rest finding := by
  constructor
  · rintro ⟨place, e', v', rest, hvisits, hbreach, rfl⟩
    cases hvisits with
    | here => exact .inl (by simpa using hbreach)
    | field hf hfind hvisits =>
      refine .inr ⟨_, _, hf, _, _, rfl, hfind, rfl, _, e', v', rest, hvisits, ?_, rfl⟩
      simpa using hbreach
  · rintro (hbreach | ⟨map, f, hf, v', rest, rfl, hfind, rfl, h⟩)
    · exact ⟨[], _, v, path, .here _ v, by simpa using hbreach, rfl⟩
    · exact h.of_part (.field hf hfind)

/-! ## Findings of a whole -/

theorem mem_under_iff {segment : PathSegment} {found : Findings} :
    (path, finding) ∈ Report.under segment found ↔
      ∃ rest, path = segment :: rest ∧ (rest, finding) ∈ found := by
  constructor
  · intro h
    obtain ⟨⟨rest, f⟩, hmem, heq⟩ := mem_under h
    cases heq
    exact ⟨rest, rfl, hmem⟩
  · rintro ⟨rest, rfl, h⟩
    exact List.mem_map.2 ⟨_, h, rfl⟩

/-- A value of another kind has one finding. -/
theorem mem_mismatch {expected : String} :
    (path, finding) ∈ (Verdict.here none [typeMismatch expected]).findings ↔
      path = [] ∧ finding = typeMismatch expected := by
  rw [Verdict.here, mem_here_iff, List.mem_singleton]

theorem mem_checkList {of : TypeExpr} {c : CollectionConstraints} {items : List OwnedValue} :
    (path, finding) ∈ (check o (.list of c) root (.list items)).findings ↔
      Breach o (.list of c) root (.list items) path finding ∨
        ∃ i v' rest, items[i]? = some v' ∧ path = .index i :: rest ∧
          (rest, finding) ∈ (check o of false v').findings := by
  rw [check, Verdict.list, List.mem_append, or_comm]
  apply or_congr
  · rw [mem_here_iff, length_items, CollectionConstraints.violations, mem_sizeViolations]
    constructor
    · rintro ⟨rfl, h⟩
      exact .listSize h
    · intro h
      cases h with
      | noList h => exact absurd rfl (h items)
      | listSize h => exact ⟨rfl, h⟩
  · simp only [List.mem_flatMap, Prod.exists, mem_under_iff, List.mem_zipIdx_iff_getElem?,
      List.getElem?_map, Option.map_eq_some_iff]
    constructor
    · rintro ⟨_, i, ⟨v', hget, rfl⟩, rest, hpath, h⟩
      exact ⟨i, v', rest, hget, hpath, h⟩
    · rintro ⟨i, v', rest, hget, hpath, h⟩
      exact ⟨_, i, ⟨v', hget, rfl⟩, rest, hpath, h⟩

theorem mem_checkDict {of : TypeExpr} {c : CollectionConstraints} {map : OwnedDict} :
    (path, finding) ∈ (check o (.dict of c) root (.dict map)).findings ↔
      Breach o (.dict of c) root (.dict map) path finding ∨
        ∃ key v' rest, (key, v') ∈ map ∧ path = .key key :: rest ∧
          (rest, finding) ∈ (check o of false v').findings := by
  rw [check, Verdict.dict, List.mem_append, or_comm]
  apply or_congr
  · rw [mem_here_iff, length_entries, CollectionConstraints.violations, mem_sizeViolations]
    constructor
    · rintro ⟨rfl, h⟩
      exact .dictSize h
    · intro h
      cases h with
      | noDict h => exact absurd rfl (h map)
      | dictSize h => exact ⟨rfl, h⟩
  · simp only [List.mem_flatMap, Prod.exists, mem_under_iff, List.mem_map, Prod.mk.injEq]
    constructor
    · rintro ⟨_, _, ⟨key, v', hmem, rfl, rfl⟩, rest, hpath, h⟩
      exact ⟨key, v', rest, hmem, hpath, h⟩
    · rintro ⟨key, v', rest, hmem, hpath, h⟩
      exact ⟨key, _, ⟨key, v', hmem, rfl, rfl⟩, rest, hpath, h⟩

theorem mem_checkField {map : OwnedDict} {name : String} {presence : StructFieldPresence}
    {checkType : OwnedValue → Verdict} :
    (path, finding) ∈ (checkField map name presence checkType).findings ↔
      ((∀ p ∈ map, p.1 ≠ name) ∧ presence = .required ∧ path = [.key name] ∧
        finding = requiredMissing) ∨
      ∃ v' rest, FirstEntry map name v' ∧ path = .key name :: rest ∧
        (rest, finding) ∈ (checkType v').findings := by
  rw [checkField]
  simp only [← dictFind_eq_some, ← Validator.dictFind_eq_none]
  cases hfind : Validator.dictFind map name with
  | some v' => simp [Verdict.under, mem_under_iff]
  | none =>
    cases presence with
    | required => simp [Verdict.under, Verdict.here, mem_under_iff, mem_here_iff]
    | optional => simp [Verdict.under, Verdict.here]

theorem mem_checkExtras {extra : ExtraBehavior} {unknown : OwnedDict} :
    (path, finding) ∈ (checkExtras extra unknown).2 ↔
      extra = .forbid ∧ ∃ p ∈ unknown, path = [.key p.1] ∧ finding = extraKey p.1 := by
  cases extra with
  | forbid => simp [checkExtras, eq_comm]
  | ignore | allow => simp [checkExtras]

theorem mem_checkStruct {fields : List (FieldExpr TypeExpr)} {extra : ExtraBehavior}
    {map : OwnedDict} :
    (path, finding) ∈ (check o (.struct fields extra) root (.dict map)).findings ↔
      Breach o (.struct fields extra) root (.dict map) path finding ∨
        ∃ f ∈ fields, ∃ v' rest, FirstEntry map f.name v' ∧
          path = .key f.name :: rest ∧ (rest, finding) ∈ (check o f.ty false v').findings := by
  simp only [check, Verdict.struct, List.mem_append, checkFields_eq_map, List.mem_flatMap,
    List.mem_map, exists_exists_and_eq_and, mem_checkField, mem_checkExtras]
  constructor
  · rintro (⟨f, hf, ⟨hfind, hreq, rfl, rfl⟩ | hpart⟩ | ⟨hforbid, p, hp, rfl, rfl⟩)
    · exact .inl (.missing hf hreq hfind)
    · exact .inr ⟨f, hf, hpart⟩
    · obtain ⟨hmap, hname⟩ := List.mem_filter.1 hp
      exact .inl (.extra hforbid hmap (by simpa using hname))
  · rintro (hbreach | ⟨f, hf, hpart⟩)
    · cases hbreach with
      | noStruct h => exact absurd rfl (h map)
      | missing hf hreq hfind => exact .inl ⟨_, hf, .inl ⟨hfind, hreq, rfl, rfl⟩⟩
      | extra hforbid hmap hname =>
        exact .inr ⟨hforbid, _, List.mem_filter.2 ⟨hmap, by simpa using hname⟩, rfl, rfl⟩
    · exact .inl ⟨f, hf, .inr hpart⟩

/-! A value of another kind has that one breach, and no parts. -/

theorem breach_noList {of : TypeExpr} {c : CollectionConstraints} (h : ∀ items, v ≠ .list items) :
    Breach o (.list of c) root v path finding ↔ path = [] ∧ finding = typeMismatch "list" := by
  constructor
  · intro hbreach
    cases hbreach with
    | noList => exact ⟨rfl, rfl⟩
    | listSize => exact absurd rfl (h _)
  · rintro ⟨rfl, rfl⟩
    exact .noList h

theorem breach_noDict {of : TypeExpr} {c : CollectionConstraints} (h : ∀ map, v ≠ .dict map) :
    Breach o (.dict of c) root v path finding ↔ path = [] ∧ finding = typeMismatch "dict" := by
  constructor
  · intro hbreach
    cases hbreach with
    | noDict => exact ⟨rfl, rfl⟩
    | dictSize => exact absurd rfl (h _)
  · rintro ⟨rfl, rfl⟩
    exact .noDict h

theorem breach_noStruct {fields : List (FieldExpr TypeExpr)} {extra : ExtraBehavior}
    (h : ∀ map, v ≠ .dict map) :
    Breach o (.struct fields extra) root v path finding ↔
      path = [] ∧ finding = typeMismatch "struct" := by
  constructor
  · intro hbreach
    cases hbreach with
    | noStruct => exact ⟨rfl, rfl⟩
    | missing => exact absurd rfl (h _)
    | extra => exact absurd rfl (h _)
  · rintro ⟨rfl, rfl⟩
    exact .noStruct h

/-- A verdict finds the breaches, and only those. -/
theorem mem_findings_iff :
    (path, finding) ∈ (check o e root v).findings ↔ Breaches o e root v path finding := by
  induction e generalizing root v path with
  | primitive p => rw [breaches_primitive, check, mem_checkPrimitive]
  | enum variants => rw [breaches_enum, mem_checkEnum]
  | optional inner ih =>
    by_cases hnull : v = .null
    · rw [hnull]
      simp [check, Verdict.here, not_breaches_null]
    · have hcheck : check o (.optional inner) root v = check o inner root v := by
        cases v <;> first | exact absurd rfl hnull | rfl
      rw [hcheck, ih, breaches_optional hnull]
  | list of c ih =>
    rw [breaches_list]
    cases v with
    | list items => simp [mem_checkList, ih]
    | _ => simp [check, mem_mismatch, breach_noList]
  | dict of c ih =>
    rw [breaches_dict]
    cases v with
    | dict map => simp [mem_checkDict, ih]
    | _ => simp [check, mem_mismatch, breach_noDict]
  | struct fields extra ih =>
    rw [breaches_struct]
    cases v with
    | dict map =>
      rw [mem_checkStruct]
      apply or_congr_right
      constructor
      · rintro ⟨f, hf, v', rest, hfind, hpath, h⟩
        exact ⟨map, f, hf, v', rest, rfl, hfind, hpath, (ih f hf).1 h⟩
      · rintro ⟨_, f, hf, v', rest, heq, hfind, hpath, h⟩
        cases heq
        exact ⟨f, hf, v', rest, hfind, hpath, (ih f hf).2 h⟩
    | _ => simp [check, mem_mismatch, breach_noStruct]

/-! ## Reports -/

/-- Validation answers, and its issues are exactly the breaches at the places that the schema visits
in the value. -/
theorem issues_iff_breaches (schema : SchemaIr) (o : ValidationOptions) (v : OwnedValue) :
    ∃ result, validateOwned schema v o = some result ∧ ∀ issue, issue ∈ result.issues ↔
      ∃ path finding, Breaches o (schema.unfold schema.root) true v path finding ∧
        issue = issueAt path finding := by
  have hfinish (output : Option OwnedValue) (issues : List ValidationIssue) :
      (Validator.finish output issues).issues = issues := by
    rw [Validator.finish]
    split <;> rfl
  refine ⟨_, validateOwned_eq schema v o, fun issue => ?_⟩
  rw [hfinish, Report.rendered, List.mem_map]
  constructor
  · rintro ⟨⟨path, finding⟩, hmem, rfl⟩
    exact ⟨path, finding, mem_findings_iff.1 hmem, rfl⟩
  · rintro ⟨path, finding, hbreach, rfl⟩
    exact ⟨(path, finding), mem_findings_iff.2 hbreach, rfl⟩

end RustlyCore
