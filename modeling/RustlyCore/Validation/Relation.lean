import Mathlib.Data.List.Forall2
import RustlyCore.Validation.Formats

/-!
# The conversion relation

`Conv o e root v w` says that the type expression `e` accepts `v` as `w`. A validation gives the
output `w` and no issues exactly when this holds.
-/

namespace RustlyCore

/-! ## The relation -/

inductive OwnedValue.IsBool (strict : Bool) : OwnedValue → Bool → Prop
  | bool (b : Bool) : IsBool strict (.bool b) b
  | trueText {raw : String} : strict = false →
    raw = "1" ∨ Text.eqIgnoreAsciiCase raw "true" = true →
    IsBool strict (.string raw) true
  | falseText {raw : String} : strict = false →
    raw = "0" ∨ Text.eqIgnoreAsciiCase raw "false" = true →
    IsBool strict (.string raw) false

inductive OwnedValue.IsInt (strict : Bool) : OwnedValue → Int64 → Prop
  | int (i : Int64) : IsInt strict (.int i) i
  | string {raw : String} {i : Int64} : strict = false → Text.parseI64 (Text.trim raw) = some i →
    IsInt strict (.string raw) i

inductive OwnedValue.IsFloat (strict : Bool) : OwnedValue → Float → Prop
  | float (f : Float) : IsFloat strict (.float f) f
  | int (i : Int64) : IsFloat strict (.int i) (Binary64.ofI64 i)
  | string {raw : String} {f : Float} : strict = false → Text.parseF64 (Text.trim raw) = some f →
    IsFloat strict (.string raw) f

inductive OwnedValue.IsSymbol (strict : Bool) : OwnedValue → String → Prop
  | symbol (s : String) : IsSymbol strict (.symbol s) s
  | string {s : String} : strict = false → IsSymbol strict (.string s) s

structure IntConstraints.Holds (c : IntConstraints) (i : Int64) : Prop where
  min : ∀ min ∈ c.min, min ≤ i
  max : ∀ max ∈ c.max, i ≤ max

/-- Neither below the minimum nor above the maximum; `NaN` is neither. -/
structure FloatConstraints.Holds (c : FloatConstraints) (f : Float) : Prop where
  min : ∀ min ∈ c.min, ¬ f < min.intoInner
  max : ∀ max ∈ c.max, ¬ max.intoInner < f

structure SizeHolds (length : Nat) (minSize maxSize : Option Nat) : Prop where
  min : ∀ min ∈ minSize, min ≤ length
  max : ∀ max ∈ maxSize, length ≤ max

structure StringConstraints.Holds (c : StringConstraints) (s : String) : Prop where
  size : SizeHolds s.length c.minSize c.maxSize
  format : ∀ format ∈ c.format, format.Admits s

def CollectionConstraints.Holds (c : CollectionConstraints) (length : Nat) : Prop :=
  SizeHolds length c.minSize c.maxSize

def ConvPrimitive (strict : Bool) (primitive : PrimitiveType) (v w : OwnedValue) : Prop :=
  match primitive with
  | .any => w = v
  | .bool => ∃ b, v.IsBool strict b ∧ w = .bool b
  | .int c => ∃ i, v.IsInt strict i ∧ c.Holds i ∧ w = .int i
  | .float c => ∃ f, v.IsFloat strict f ∧ c.Holds f ∧ w = .float f
  | .string c => ∃ s, v = .string s ∧ c.Holds s ∧ w = .string s
  | .symbol => ∃ s, v.IsSymbol strict s ∧ w = .symbol s

/-- What a field becomes: the conversion of the first entry under its name, or nothing, which a
required field does not allow. -/
def ConvField (R : OwnedValue → OwnedValue → Prop) (map : OwnedDict) (name : String)
    (presence : StructFieldPresence) (value : Option OwnedValue) : Prop :=
  (∃ v w, FirstEntry map name v ∧ value = some w ∧ R v w) ∨
    ((∀ p ∈ map, p.1 ≠ name) ∧ value = none ∧ presence = .optional)

def ConvExtras (extra : ExtraBehavior) (unknown : OwnedDict) (extras : Option OwnedDict) : Prop :=
  match extra with
  | .forbid => unknown = [] ∧ extras = none
  | .ignore => extras = none
  | .allow => extras = if unknown.isEmpty then none else some unknown

mutual
/-- `root` is as in `check`. -/
def Conv (o : ValidationOptions) : TypeExpr → (root : Bool) → OwnedValue → OwnedValue → Prop
  | .primitive primitive, _, v, w => ConvPrimitive o.strict primitive v w
  | .enum variants, _, v, w => ∃ s ∈ variants, v.IsSymbol o.strict s ∧ w = .symbol s
  | .optional inner, root, v, w => (v = .null ∧ w = .null) ∨ (v ≠ .null ∧ Conv o inner root v w)
  | .list of c, _, v, w => ∃ items outs, v = .list items ∧ w = .list outs ∧
    List.Forall₂ (fun v w => Conv o of false v w) items outs ∧ c.Holds outs.length
  | .dict of c, _, v, w => ∃ map outs, v = .dict map ∧ w = .dict outs ∧
    List.Forall₂ (fun p q => p.1 = q.1 ∧ Conv o of false p.2 q.2) map outs ∧ c.Holds outs.length
  | .struct fields extra, root, v, w => ∃ map values extras,
    v = .dict map ∧ w = .struct ⟨fields.map (·.name), values, extras⟩ ∧
      ConvFields o map fields values ∧
      ConvExtras (if root then o.extraBehavior else extra)
        (unknownEntries (fields.map (·.name)) map) extras

def ConvFields (o : ValidationOptions) (map : OwnedDict) :
    List (FieldExpr TypeExpr) → List (Option OwnedValue) → Prop
  | [], [] => True
  | ⟨name, presence, ty⟩ :: fields, value :: values =>
    ConvField (fun v w => Conv o ty false v w) map name presence value ∧
      ConvFields o map fields values
  | _, _ => False
end

theorem convFields_iff {o : ValidationOptions} {map : OwnedDict}
    {fields : List (FieldExpr TypeExpr)} {values : List (Option OwnedValue)} :
    ConvFields o map fields values ↔
      List.Forall₂ (fun f value => ConvField (Conv o f.ty false) map f.name f.presence value)
        fields values := by
  induction fields generalizing values with
  | nil =>
    cases values with
    | nil => exact ⟨fun _ => .nil, fun _ => trivial⟩
    | cons => exact ⟨False.elim, nofun⟩
  | cons f fields ih =>
    cases values with
    | nil => exact ⟨False.elim, nofun⟩
    | cons => rw [ConvFields, List.forall₂_cons, ih]

/-! ## Leaves -/

theorem eqIgnoreAsciiCase_congr {s t : String} (h : Text.eqIgnoreAsciiCase s t = true)
    (u : String) : Text.eqIgnoreAsciiCase s u = Text.eqIgnoreAsciiCase t u := by
  rw [Text.eqIgnoreAsciiCase, eq_of_beq h]
  rfl

/-- No text reads as both truth values. -/
theorem false_text_not_true {raw : String}
    (h : raw = "0" ∨ Text.eqIgnoreAsciiCase raw "false" = true) :
    (Text.eqIgnoreAsciiCase raw "true" || raw == "1") = false := by
  rcases h with rfl | h
  · decide
  · have hone : raw ≠ "1" := by
      rintro rfl
      revert h
      decide
    rw [eqIgnoreAsciiCase_congr h, beq_false_of_ne hone]
    decide

theorem toBool_iff {strict : Bool} {v : OwnedValue} {b : Bool} :
    v.toBool strict = .ok b ↔ v.IsBool strict b := by
  constructor
  · intro h
    cases v with
    | bool => cases h; exact .bool b
    | string raw =>
      cases strict with
      | true => cases h
      | false =>
        simp only [OwnedValue.toBool] at h
        split at h
        next htrue =>
          cases h
          exact .trueText rfl (by simpa [or_comm] using htrue)
        next =>
          split at h
          next hfalse =>
            cases h
            exact .falseText rfl (by simpa [or_comm] using hfalse)
          next => cases h
    | _ => cases h
  · rintro (_ | ⟨rfl, h⟩ | ⟨rfl, h⟩)
    · rfl
    · have htrue := h.symm
      simp [OwnedValue.toBool, htrue]
    · have hfalse := h.symm
      simp only [OwnedValue.toBool, false_text_not_true h, Bool.false_eq_true, if_false]
      simp [hfalse]

theorem toInt_iff {strict : Bool} {v : OwnedValue} {i : Int64} :
    v.toInt strict = .ok i ↔ v.IsInt strict i := by
  constructor
  · intro h
    cases v with
    | int => cases h; exact .int i
    | string raw =>
      cases strict with
      | true => cases h
      | false =>
        simp only [OwnedValue.toInt] at h
        split at h
        next hparse => cases h; exact .string rfl hparse
        next => cases h
    | _ => cases h
  · rintro (_ | ⟨rfl, h⟩)
    · rfl
    · simp [OwnedValue.toInt, h]

theorem toFloat_iff {strict : Bool} {v : OwnedValue} {f : Float} :
    v.toFloat strict = .ok f ↔ v.IsFloat strict f := by
  constructor
  · intro h
    cases v with
    | float => cases h; exact .float f
    | int i => cases h; exact .int i
    | string raw =>
      cases strict with
      | true => cases h
      | false =>
        simp only [OwnedValue.toFloat] at h
        split at h
        next hparse => cases h; exact .string rfl hparse
        next => cases h
    | _ => cases h
  · rintro (_ | _ | ⟨rfl, h⟩)
    · rfl
    · rfl
    · simp [OwnedValue.toFloat, h]

theorem toText_iff {v : OwnedValue} {s : String} : v.toText = .ok s ↔ v = .string s := by
  cases v <;> simp [OwnedValue.toText]

theorem toSymbol_iff {strict : Bool} {v : OwnedValue} {s : String} :
    v.toSymbol strict = .ok s ↔ v.IsSymbol strict s := by
  constructor
  · intro h
    cases v with
    | symbol => cases h; exact .symbol s
    | string =>
      cases strict with
      | true => cases h
      | false => cases h; exact .string rfl
    | _ => cases h
  · rintro (_ | rfl) <;> rfl

theorem toVariant_iff {strict : Bool} {variants : List String} {v : OwnedValue} {s : String} :
    v.toVariant strict variants = .ok s ↔ s ∈ variants ∧ v.IsSymbol strict s := by
  have hany (t : String) : (if variants.any (· == t) then Except.ok t
      else .error (valueNotIn variants) : Except Finding String) = .ok s ↔
        s ∈ variants ∧ t = s := by
    split
    next h =>
      simp only [List.any_beq', List.contains_iff_mem] at h
      refine ⟨fun heq => ?_, fun heq => congrArg _ heq.2⟩
      cases heq
      exact ⟨h, rfl⟩
    next h =>
      simp only [List.any_beq', List.contains_iff_mem] at h
      refine ⟨nofun, ?_⟩
      rintro ⟨hs, rfl⟩
      exact absurd hs h
  constructor
  · intro h
    cases v with
    | symbol t =>
      obtain ⟨hs, rfl⟩ := (hany t).1 h
      exact ⟨hs, .symbol t⟩
    | string t =>
      cases strict with
      | true => cases h
      | false =>
        obtain ⟨hs, rfl⟩ := (hany t).1 h
        exact ⟨hs, .string rfl⟩
    | _ => cases h
  · rintro ⟨hs, _ | rfl⟩ <;> exact (hany s).2 ⟨hs, rfl⟩

/-! ## Constraints -/

theorem limited_eq_nil {α : Type} {limit : Option α} {violated : α → Prop}
    [DecidablePred violated] {finding : α → Finding} :
    limited limit violated finding = [] ↔ ∀ bound ∈ limit, ¬ violated bound := by
  cases limit <;> simp [limited]

theorem IntConstraints.violations_eq_nil {c : IntConstraints} {i : Int64} :
    c.violations i = [] ↔ c.Holds i := by
  simp only [violations, List.append_eq_nil_iff, limited_eq_nil, gt_iff_lt, Int64.not_lt]
  exact ⟨fun h => ⟨h.1, h.2⟩, fun h => ⟨h.min, h.max⟩⟩

theorem FloatConstraints.violations_eq_nil {c : FloatConstraints} {f : Float} :
    c.violations f = [] ↔ c.Holds f := by
  simp only [violations, List.append_eq_nil_iff, limited_eq_nil, gt_iff_lt]
  exact ⟨fun h => ⟨h.1, h.2⟩, fun h => ⟨h.min, h.max⟩⟩

theorem sizeViolations_eq_nil {length : Nat} {minSize maxSize : Option Nat} :
    sizeViolations length minSize maxSize = [] ↔ SizeHolds length minSize maxSize := by
  simp only [sizeViolations, List.append_eq_nil_iff, limited_eq_nil, gt_iff_lt, Nat.not_lt]
  exact ⟨fun h => ⟨h.1, h.2⟩, fun h => ⟨h.min, h.max⟩⟩

theorem StringConstraints.violations_eq_nil {c : StringConstraints} {s : String} :
    c.violations s = [] ↔ c.Holds s := by
  simp only [violations, List.append_eq_nil_iff, sizeViolations_eq_nil, limited_eq_nil,
    Bool.not_eq_false, StringFormat.matches_iff]
  exact ⟨fun h => ⟨h.1, h.2⟩, fun h => ⟨h.size, h.format⟩⟩

theorem CollectionConstraints.violations_eq_nil {c : CollectionConstraints} {length : Nat} :
    c.violations length = [] ↔ c.Holds length :=
  sizeViolations_eq_nil

/-! ## Verdicts that accept -/

/-- The verdict has the output `w` and no findings. -/
def Verdict.Accepts (verdict : Verdict) (w : OwnedValue) : Prop := verdict = ⟨some w, []⟩

theorem Verdict.coerced_accepts {α : Type} {result : Except Finding α} {wrap : α → OwnedValue}
    {violations : α → List Finding} {w : OwnedValue} :
    (Verdict.coerced result wrap violations).Accepts w ↔
      ∃ a, result = .ok a ∧ violations a = [] ∧ w = wrap a := by
  cases result with
  | error => simp [coerced, Accepts, here]
  | ok a => simp [coerced, Accepts, here, and_comm, eq_comm (a := w)]

theorem checkPrimitive_accepts {strict : Bool} {primitive : PrimitiveType} {v w : OwnedValue} :
    (checkPrimitive strict primitive v).Accepts w ↔ ConvPrimitive strict primitive v w := by
  cases primitive with
  | any => simp [checkPrimitive, Verdict.Accepts, Verdict.here, ConvPrimitive, eq_comm]
  | bool => simp [checkPrimitive, Verdict.coerced_accepts, toBool_iff, ConvPrimitive]
  | int c =>
    simp only [checkPrimitive, Verdict.coerced_accepts, toInt_iff, c.violations_eq_nil,
      ConvPrimitive]
  | float c =>
    simp only [checkPrimitive, Verdict.coerced_accepts, toFloat_iff, c.violations_eq_nil,
      ConvPrimitive]
  | string c =>
    simp only [checkPrimitive, Verdict.coerced_accepts, toText_iff, c.violations_eq_nil,
      ConvPrimitive]
  | symbol => simp [checkPrimitive, Verdict.coerced_accepts, toSymbol_iff, ConvPrimitive]

namespace Verdict

/-- Without findings there is an output. -/
def Complete (verdict : Verdict) : Prop := verdict.findings = [] → ∃ w, verdict.output = some w

theorem Complete.accepts {verdict : Verdict} (h : verdict.Complete) (hnil : verdict.findings = []) :
    ∃ w, verdict.Accepts w := by
  obtain ⟨output, findings⟩ := verdict
  cases hnil
  obtain ⟨w, hw⟩ := h rfl
  cases hw
  exact ⟨w, rfl⟩

theorem elements_findings_eq_nil {elements : List Verdict} {index : Nat} :
    ((elements.zipIdx index).flatMap fun (element, i) =>
      Report.under (.index i) element.findings) = [] ↔ ∀ e ∈ elements, e.findings = [] := by
  induction elements generalizing index with
  | nil => simp
  | cons element elements ih =>
    rw [List.zipIdx_cons, List.flatMap_cons, List.append_eq_nil_iff, Report.under_eq_nil, ih,
      List.forall_mem_cons]

theorem list_accepts {c : CollectionConstraints} {elements : List Verdict} {w : OwnedValue}
    (hc : ∀ e ∈ elements, e.Complete) : (Verdict.list c elements).Accepts w ↔
      ∃ outs, w = .list outs ∧ List.Forall₂ Accepts elements outs ∧ c.Holds outs.length := by
  have houts {outs : List OwnedValue} (h : List.Forall₂ Accepts elements outs) :
      elements.filterMap (·.output) = outs ∧ ∀ e ∈ elements, e.findings = [] := by
    induction h with
    | nil => simp
    | cons h _ ih => cases h; simpa using ih fun e he => hc e (List.mem_cons_of_mem _ he)
  have hall (h : ∀ e ∈ elements, e.findings = []) :
      List.Forall₂ Accepts elements (elements.filterMap (·.output)) := by
    clear houts
    induction elements with
    | nil => exact .nil
    | cons element elements ih =>
      obtain ⟨w, rfl⟩ := (hc _ List.mem_cons_self).accepts (h _ List.mem_cons_self)
      exact .cons rfl (ih (fun e he => hc e (List.mem_cons_of_mem _ he))
        fun e he => h e (List.mem_cons_of_mem _ he))
  simp only [Accepts, list, mk.injEq, Option.some.injEq, List.append_eq_nil_iff,
    elements_findings_eq_nil, Report.here_eq_nil, c.violations_eq_nil]
  constructor
  · rintro ⟨rfl, h, hsize⟩
    exact ⟨_, rfl, hall h, hsize⟩
  · rintro ⟨outs, rfl, h, hsize⟩
    obtain ⟨rfl, hnil⟩ := houts h
    exact ⟨rfl, hnil, hsize⟩

theorem dict_accepts {c : CollectionConstraints} {entries : List (String × Verdict)}
    {w : OwnedValue} (hc : ∀ e ∈ entries, e.2.Complete) : (Verdict.dict c entries).Accepts w ↔
      ∃ outs, w = .dict outs ∧
        List.Forall₂ (fun e q => e.1 = q.1 ∧ e.2.Accepts q.2) entries outs ∧
        c.Holds outs.length := by
  have houts {outs : OwnedDict}
      (h : List.Forall₂ (fun e q => e.1 = q.1 ∧ e.2.Accepts q.2) entries outs) :
      entries.filterMap (fun e => e.2.output.map (e.1, ·)) = outs ∧
        ∀ e ∈ entries, e.2.findings = [] := by
    induction h with
    | nil => simp
    | @cons e q _ _ h _ ih =>
      obtain ⟨key, verdict⟩ := e
      obtain ⟨rfl, rfl⟩ := h
      simpa using ih fun e he => hc e (List.mem_cons_of_mem _ he)
  have hall (h : ∀ e ∈ entries, e.2.findings = []) :
      List.Forall₂ (fun e q => e.1 = q.1 ∧ e.2.Accepts q.2) entries
        (entries.filterMap fun e => e.2.output.map (e.1, ·)) := by
    clear houts
    induction entries with
    | nil => exact .nil
    | cons entry entries ih =>
      obtain ⟨key, verdict⟩ := entry
      obtain ⟨w, rfl⟩ := (hc _ List.mem_cons_self).accepts (h _ List.mem_cons_self)
      exact .cons ⟨rfl, rfl⟩ (ih (fun e he => hc e (List.mem_cons_of_mem _ he))
        fun e he => h e (List.mem_cons_of_mem _ he))
  simp only [Accepts, dict, mk.injEq, Option.some.injEq, List.append_eq_nil_iff,
    List.flatMap_eq_nil_iff, Report.under_eq_nil, Report.here_eq_nil, c.violations_eq_nil]
  constructor
  · rintro ⟨rfl, h, hsize⟩
    exact ⟨_, rfl, hall h, hsize⟩
  · rintro ⟨outs, rfl, h, hsize⟩
    obtain ⟨rfl, hnil⟩ := houts h
    exact ⟨rfl, hnil, hsize⟩

theorem struct_accepts {names : List String} {fields : List Verdict}
    {extras : Option OwnedDict × Findings} {w : OwnedValue} :
    (Verdict.struct names fields extras).Accepts w ↔
      w = .struct ⟨names, fields.map (·.output), extras.1⟩ ∧ (∀ f ∈ fields, f.findings = []) ∧
        extras.2 = [] := by
  simp only [Accepts, struct, mk.injEq, Option.some.injEq, List.append_eq_nil_iff,
    List.flatMap_eq_nil_iff, eq_comm (a := w)]

end Verdict

theorem checkExtras_iff {extra : ExtraBehavior} {unknown : OwnedDict} {extras : Option OwnedDict} :
    (checkExtras extra unknown).1 = extras ∧ (checkExtras extra unknown).2 = [] ↔
      ConvExtras extra unknown extras := by
  cases extra <;> simp [checkExtras, ConvExtras, and_comm, eq_comm (b := extras)]

theorem checkField_iff {R : OwnedValue → OwnedValue → Prop} {map : OwnedDict} {name : String}
    {presence : StructFieldPresence} {checkType : OwnedValue → Verdict} {value : Option OwnedValue}
    (hc : ∀ v, (checkType v).Complete) (hR : ∀ v w, (checkType v).Accepts w ↔ R v w) :
    (checkField map name presence checkType).output = value ∧
      (checkField map name presence checkType).findings = [] ↔
        ConvField R map name presence value := by
  rw [checkField, ConvField]
  simp only [← dictFind_eq_some, ← Validator.dictFind_eq_none]
  cases hfind : Validator.dictFind map name with
  | some v =>
    simp only [Verdict.under, Report.under_eq_nil, reduceCtorEq, false_and, or_false,
      Option.some.injEq]
    constructor
    · rintro ⟨rfl, hnil⟩
      obtain ⟨w, hw⟩ := (hc v).accepts hnil
      exact ⟨v, w, rfl, congrArg Verdict.output hw, (hR v w).1 hw⟩
    · rintro ⟨_, w, rfl, rfl, hw⟩
      rw [(hR v w).2 hw]
      exact ⟨rfl, rfl⟩
  | none =>
    cases presence <;>
      simp [Verdict.under, Verdict.here, eq_comm (b := value)]

/-! ## The verdict and the relation -/

variable {o : ValidationOptions} {e : TypeExpr} {root : Bool} {v w : OwnedValue}

theorem Verdict.coerced_complete {α : Type} (result : Except Finding α) (wrap : α → OwnedValue)
    (violations : α → List Finding) : (coerced result wrap violations).Complete := by
  cases result with
  | error => exact fun h => absurd h (List.cons_ne_nil _ _)
  | ok a => exact fun _ => ⟨wrap a, rfl⟩

theorem check_complete : (check o e root v).Complete := by
  have hfail (finding : Finding) : (Verdict.here none [finding]).Complete :=
    fun h => absurd h (List.cons_ne_nil _ _)
  induction e generalizing root v with
  | primitive p =>
    cases p with
    | any => exact fun _ => ⟨v, rfl⟩
    | _ => exact Verdict.coerced_complete _ _ _
  | enum => exact Verdict.coerced_complete _ _ _
  | optional inner ih =>
    cases v with
    | null => exact fun _ => ⟨.null, rfl⟩
    | _ => simp only [check]; exact ih
  | list =>
    cases v with
    | list => exact fun _ => ⟨_, rfl⟩
    | _ => exact hfail _
  | dict =>
    cases v with
    | dict => exact fun _ => ⟨_, rfl⟩
    | _ => exact hfail _
  | struct =>
    cases v with
    | dict => exact fun _ => ⟨_, rfl⟩
    | _ => exact hfail _

theorem checkFields_accepts {map : OwnedDict} {fields : List (FieldExpr TypeExpr)}
    {values : List (Option OwnedValue)}
    (ih : ∀ f ∈ fields, ∀ v w, (check o f.ty false v).Accepts w ↔ Conv o f.ty false v w) :
    (checkFields o map fields).map (·.output) = values ∧
      (∀ f ∈ checkFields o map fields, f.findings = []) ↔ ConvFields o map fields values := by
  induction fields generalizing values with
  | nil => cases values <;> simp [checkFields, ConvFields]
  | cons f fields ihf =>
    cases values with
    | nil => simp [checkFields, ConvFields]
    | cons value values =>
      have hfield : _ ↔ ConvField (Conv o f.ty false) map f.name f.presence value :=
        checkField_iff (fun _ => check_complete) (ih f List.mem_cons_self)
      have hrest : _ ↔ ConvFields o map fields values :=
        ihf fun g hg => ih g (List.mem_cons_of_mem _ hg)
      rw [ConvFields, ← hfield, ← hrest, checkFields, List.map_cons, List.cons.injEq,
        List.forall_mem_cons]
      exact and_and_and_comm

theorem Verdict.not_accepts_here {finding : Finding} : ¬ (Verdict.here none [finding]).Accepts w :=
  nofun

theorem check_accepts_iff : (check o e root v).Accepts w ↔ Conv o e root v w := by
  induction e generalizing root v w with
  | primitive => exact checkPrimitive_accepts
  | enum => simp [check, Conv, Verdict.coerced_accepts, toVariant_iff, and_assoc]
  | optional inner ih =>
    cases v with
    | null => simp [check, Conv, Verdict.Accepts, Verdict.here, eq_comm]
    | _ => simp [check, Conv, ih]
  | list of c ih =>
    cases v with
    | list items =>
      have hc : ∀ e ∈ items.map (fun item => check o of false item), e.Complete :=
        List.forall_mem_map.2 fun _ _ => check_complete
      simp [check, Conv, Verdict.list_accepts hc, List.forall₂_map_left_iff, ih]
    | _ => simp [check, Conv, Verdict.not_accepts_here]
  | dict of c ih =>
    cases v with
    | dict map =>
      have hc : ∀ e ∈ map.map (fun entry => (entry.1, check o of false entry.2)), e.2.Complete :=
        List.forall_mem_map.2 fun _ _ => check_complete
      simp [check, Conv, Verdict.dict_accepts hc, List.forall₂_map_left_iff, ih]
    | _ => simp [check, Conv, Verdict.not_accepts_here]
  | struct fields extra ih =>
    cases v with
    | dict map =>
      simp only [check, Conv, Verdict.struct_accepts, OwnedValue.dict.injEq]
      constructor
      · rintro ⟨rfl, hfields, hextras⟩
        exact ⟨map, _, _, rfl, rfl, (checkFields_accepts fun f hf _ _ => ih f hf).1 ⟨rfl, hfields⟩,
          checkExtras_iff.1 ⟨rfl, hextras⟩⟩
      · rintro ⟨_, values, extras, rfl, rfl, hfields, hextras⟩
        obtain ⟨rfl, hnil⟩ := (checkFields_accepts fun f hf _ _ => ih f hf).2 hfields
        obtain ⟨rfl, hnone⟩ := checkExtras_iff.2 hextras
        exact ⟨rfl, hnil, hnone⟩
    | _ => simp [check, Conv, Verdict.not_accepts_here]

/-- A value has one conversion. -/
theorem Conv.functional {w' : OwnedValue} (h : Conv o e root v w) (h' : Conv o e root v w') :
    w = w' :=
  Option.some.inj (congrArg Verdict.output
    ((check_accepts_iff.2 h).symm.trans (check_accepts_iff.2 h')))

theorem ConvFields.functional {map : OwnedDict} {fields : List (FieldExpr TypeExpr)}
    {values values' : List (Option OwnedValue)} (h : ConvFields o map fields values)
    (h' : ConvFields o map fields values') : values = values' := by
  have hstruct {values} (h : ConvFields o map fields values) : Conv o (.struct fields .ignore) false
      (.dict map) (.struct ⟨fields.map (·.name), values, none⟩) :=
    ⟨map, values, none, rfl, rfl, h, rfl⟩
  have heq := (hstruct h).functional (hstruct h')
  injection heq with heq
  injection heq

/-- A conversion of nil is nil, and of nothing else. -/
theorem Conv.null_iff (h : Conv o e root v w) : v = .null ↔ w = .null := by
  induction e generalizing v w with
  | primitive p =>
    cases p with
    | any => rw [show w = v from h]
    | bool => obtain ⟨b, hb, rfl⟩ := h; cases hb <;> simp
    | int c => obtain ⟨i, hi, -, rfl⟩ := h; cases hi <;> simp
    | float c => obtain ⟨f, hf, -, rfl⟩ := h; cases hf <;> simp
    | string c => obtain ⟨s, rfl, -, rfl⟩ := h; simp
    | symbol => obtain ⟨s, hs, rfl⟩ := h; cases hs <;> simp
  | enum => obtain ⟨s, -, hs, rfl⟩ := h; cases hs <;> simp
  | optional inner ih =>
    rcases h with ⟨rfl, rfl⟩ | h
    · simp
    · exact ih h.2
  | list | dict => obtain ⟨_, _, rfl, rfl, -⟩ := h; simp
  | struct => obtain ⟨_, _, _, rfl, rfl, -⟩ := h; simp

/-! ## Runs -/

theorem validateOwned_eq (schema : SchemaIr) (v : OwnedValue) (o : ValidationOptions) :
    validateOwned schema v o = some (Validator.finish
      (check o (schema.unfold schema.root) true v).output
      (Report.rendered issueAt [] (check o (schema.unfold schema.root) true v).findings)) := by
  have h : (Validator.validateNode o schema schema.root v).run ⟨[], []⟩ = _ :=
    Validator.validateNode_gives schema schema.root_lt v [] []
  rw [validateOwned, Validator.validateRoot, h]
  rfl

/-- The value is accepted, without issues, with this output. -/
def SchemaIr.Accepts (schema : SchemaIr) (o : ValidationOptions) (v w : OwnedValue) : Prop :=
  validateOwned schema v o = some ⟨some w, []⟩

theorem SchemaIr.accepts_iff (schema : SchemaIr) :
    schema.Accepts o v w ↔ Conv o (schema.unfold schema.root) true v w := by
  rw [Accepts, validateOwned_eq, Option.some.injEq, ← check_accepts_iff, Verdict.Accepts]
  generalize hverdict : check o (schema.unfold schema.root) true v = verdict
  obtain ⟨output, findings⟩ := verdict
  cases findings with
  | nil => simp [Validator.finish]
  | cons => simp [Validator.finish, Report.rendered]

/-- A validation never panics, and one without issues has an output. -/
theorem validateOwned_total (schema : SchemaIr) (v : OwnedValue) (o : ValidationOptions) :
    ∃ result, validateOwned schema v o = some result ∧
      (result.isValid = true → ∃ w, result = ⟨some w, []⟩) := by
  refine ⟨_, validateOwned_eq schema v o, ?_⟩
  have hcomplete : (check o (schema.unfold schema.root) true v).Complete := check_complete
  generalize check o (schema.unfold schema.root) true v = verdict at hcomplete
  obtain ⟨output, findings⟩ := verdict
  intro h
  cases findings with
  | nil =>
    obtain ⟨w, hw⟩ := hcomplete rfl
    cases hw
    exact ⟨w, rfl⟩
  | cons => simp [Validator.finish, ValidationResult.isValid, Report.rendered] at h

/-- Soundness and completeness: validating a node returns `w` and records nothing exactly when the
relation holds of what the node stands for, a schema accepts exactly what the relation at its root
converts, and where no issues are reported there is an output. -/
theorem validation_iff_conv (schema : SchemaIr) (o : ValidationOptions) (v : OwnedValue) :
    (∀ id, id.index < schema.arena.len → ∀ path issues w,
      (Validator.validateNode o schema id v).run ⟨path, issues⟩ =
        some (some w, ⟨path, issues⟩) ↔ Conv o (schema.unfold id) path.isEmpty v w) ∧
    (∀ w, schema.Accepts o v w ↔ Conv o (schema.unfold schema.root) true v w) ∧
    ∃ result, validateOwned schema v o = some result ∧
      (result.isValid = true ↔ ∃ w, Conv o (schema.unfold schema.root) true v w) ∧
      (result.isValid = true ↔ result.output.isSome) := by
  refine ⟨fun id hid path issues w => ?_, fun w => schema.accepts_iff, _,
    validateOwned_eq schema v o, ?_⟩
  · rw [Validator.validateNode_gives schema hid v path, ← check_accepts_iff, Verdict.Accepts]
    generalize check o (schema.unfold id) path.isEmpty v = verdict
    obtain ⟨output, findings⟩ := verdict
    simp
  · simp only [← check_accepts_iff]
    have hcomplete : (check o (schema.unfold schema.root) true v).Complete := check_complete
    generalize check o (schema.unfold schema.root) true v = verdict at hcomplete
    obtain ⟨output, findings⟩ := verdict
    cases findings with
    | nil =>
      obtain ⟨w, hw⟩ := hcomplete rfl
      cases hw
      simp [Validator.finish, ValidationResult.isValid, Verdict.Accepts]
    | cons => simp [Validator.finish, ValidationResult.isValid, Verdict.Accepts, Report.rendered]

end RustlyCore
