import RustlyCore.Validation.Relation

/-!
# Limits

A limit is checked as the absence of a violation. For floats that lets `NaN` pass every bound. For
lists and dicts the size that is checked is that of the output, which leaves out the elements that
do not coerce. A format is what its grammar says.
-/

namespace RustlyCore

variable {options : ValidationOptions} {schema : SchemaIr} {id : NodeId}

/-- What a run on a node of the schema does. -/
theorem run_node {node : Node} (hget : schema.arena.get id = some node) (value : OwnedValue)
    (path : List PathSegment) (issues : List ValidationIssue) :
    (Validator.validateNode options schema id value).run ⟨path, issues⟩ =
      some ((check options (schema.unfold id) path.isEmpty value).output,
        ⟨path, issues ++ Report.rendered issueAt path
          (check options (schema.unfold id) path.isEmpty value).findings⟩) :=
  Validator.validateNode_gives schema (List.getElem?_eq_some_iff.1 hget).1 value path issues

/-! ## Float bounds -/

/-- The bounds hold in the IEEE order. -/
structure FloatConstraints.Encloses (c : FloatConstraints) (f : Float) : Prop where
  min : ∀ min ∈ c.min, min.intoInner ≤ f
  max : ∀ max ∈ c.max, f ≤ max.intoInner

/-- The Float `NaN` or, if the options are not strict, a spelling of it. -/
def OwnedValue.IsNaN (strict : Bool) : OwnedValue → Prop
  | .float f => f.isNaN = true
  | .string raw => strict = false ∧ ∃ f, Text.parseF64 (Text.trim raw) = some f ∧ f.isNaN = true
  | _ => False

theorem OwnedValue.IsFloat.isNaN_iff {strict : Bool} {value : OwnedValue} {f : Float}
    (h : value.IsFloat strict f) : f.isNaN = true ↔ value.IsNaN strict := by
  cases h with
  | float => exact Iff.rfl
  | int i =>
    rw [Binary64.ofI64_isNaN]
    exact iff_of_false Bool.false_ne_true id
  | @string raw f hstrict hparse =>
    constructor
    · intro hnan
      exact ⟨hstrict, f, hparse, hnan⟩
    · rintro ⟨-, g, hg, hnan⟩
      cases hparse.symm.trans hg
      exact hnan

theorem OwnedValue.IsNaN.isFloat {strict : Bool} {value : OwnedValue} (h : value.IsNaN strict) :
    ∃ f, value.IsFloat strict f ∧ f.isNaN = true := by
  cases value with
  | float f => exact ⟨f, .float f, h⟩
  | string raw =>
    obtain ⟨hstrict, f, hparse, hnan⟩ := h
    exact ⟨f, .string hstrict hparse, hnan⟩
  | _ => exact h.elim

/-- Between numbers, what the check finds no violation of holds. -/
theorem FloatConstraints.Holds.encloses {c : FloatConstraints} {f : Float}
    (hmin : ∀ min ∈ c.min, min.intoInner.isNaN = false)
    (hmax : ∀ max ∈ c.max, max.intoInner.isNaN = false) (hf : f.isNaN = false)
    (h : c.Holds f) : c.Encloses f where
  min m hm := (Binary64.le_iff_not_lt hf (hmin m hm)).2 (h.min m hm)
  max m hm := (Binary64.le_iff_not_lt (hmax m hm) hf).2 (h.max m hm)

theorem FloatConstraints.holds_of_isNaN (c : FloatConstraints) {f : Float} (h : f.isNaN = true) :
    c.Holds f where
  min _ _ := (Binary64.isNaN_incomparable h).1
  max _ _ := (Binary64.isNaN_incomparable h).2.1

theorem FloatConstraints.encloses_of_isNaN {c : FloatConstraints} {f : Float}
    (h : f.isNaN = true) : c.Encloses f ↔ c.min = none ∧ c.max = none := by
  have hle {m : OrderedFloat} := (Binary64.isNaN_incomparable (y := m.intoInner) h).2.2
  constructor
  · intro hc
    refine ⟨Option.eq_none_iff_forall_not_mem.2 fun m hm => ?_,
      Option.eq_none_iff_forall_not_mem.2 fun m hm => ?_⟩
    · exact hle.2 (hc.min m hm)
    · exact hle.1 (hc.max m hm)
  · intro ⟨hmin, hmax⟩
    exact ⟨by simp [hmin], by simp [hmax]⟩

/-- A run on a float node records nothing exactly when the value reads as a float that violates no
bound, and then gives that float. -/
theorem run_float {c : FloatConstraints}
    (hget : schema.arena.get id = some (.primitive (.float c))) {value : OwnedValue}
    {path : List PathSegment} {issues : List ValidationIssue} {out : Option OwnedValue} :
    (Validator.validateNode options schema id value).run ⟨path, issues⟩ =
        some (out, ⟨path, issues⟩) ↔
      ∃ f, value.IsFloat options.strict f ∧ c.Holds f ∧ out = some (.float f) := by
  rw [run_node hget, schema.unfold_of_get hget]
  simp only [Node.expand, check, checkPrimitive, ← toFloat_iff,
    ← FloatConstraints.violations_eq_nil]
  cases value.toFloat options.strict with
  | error => simp [Verdict.coerced, Verdict.here]
  | ok f => simp [Verdict.coerced, Verdict.here, and_comm, eq_comm (a := out)]

/-- For a float node, every value, strictness and path: whatever passes without an issue is within
the bounds, unless the node has a bound and the value is `NaN`. -/
theorem float_bounds_enforced_iff {c : FloatConstraints}
    (hget : schema.arena.get id = some (.primitive (.float c)))
    (hmin : ∀ min ∈ c.min, min.intoInner.isNaN = false)
    (hmax : ∀ max ∈ c.max, max.intoInner.isNaN = false) (options : ValidationOptions)
    (value : OwnedValue) (path : List PathSegment) (issues : List ValidationIssue) :
    (∀ out, (Validator.validateNode options schema id value).run ⟨path, issues⟩ =
        some (out, ⟨path, issues⟩) → ∃ f, out = some (.float f) ∧ c.Encloses f) ↔
      ¬ ((c.min ≠ none ∨ c.max ≠ none) ∧ value.IsNaN options.strict) := by
  constructor
  · intro h ⟨hbound, hnan⟩
    obtain ⟨f, hf, hfnan⟩ := hnan.isFloat
    obtain ⟨g, heq, henc⟩ := h _ ((run_float hget).2 ⟨f, hf, c.holds_of_isNaN hfnan, rfl⟩)
    cases heq
    obtain ⟨hnomin, hnomax⟩ := (FloatConstraints.encloses_of_isNaN hfnan).1 henc
    exact hbound.elim (fun h => h hnomin) fun h => h hnomax
  · intro h out hrun
    obtain ⟨f, hf, hholds, rfl⟩ := (run_float hget).1 hrun
    refine ⟨f, rfl, ?_⟩
    cases hfnan : f.isNaN with
    | false => exact hholds.encloses hmin hmax hfnan
    | true =>
      have hnan := hf.isNaN_iff.1 hfnan
      have hnone : c.min = none ∧ c.max = none := by
        constructor <;> by_contra hbound
        · exact h ⟨.inl hbound, hnan⟩
        · exact h ⟨.inr hbound, hnan⟩
      exact (FloatConstraints.encloses_of_isNaN hfnan).2 hnone

/-- Non-negative floats. -/
def nonNegative : FloatConstraints := ⟨some ⟨0.0⟩, none⟩

theorem nonNegative_number : ∀ min ∈ nonNegative.min, min.intoInner.isNaN = false := by
  intro min hmin
  cases hmin
  decide +kernel

/-- `NaN` passes as non-negative. -/
theorem float_bounds_not_enforced :
    ∃ out, (Validator.validateNode {} (buildIr (.primitive (.float nonNegative))) (.new 0)
        (.float (0.0 / 0.0))).run ⟨[], []⟩ = some (out, ⟨[], []⟩) ∧
      ¬ ∃ f, out = some (.float f) ∧ nonNegative.Encloses f := by
  have hnan : (0.0 / 0.0 : Float).isNaN = true := by decide +kernel
  refine ⟨_, (run_float (c := nonNegative) rfl).2
    ⟨_, .float _, nonNegative.holds_of_isNaN hnan, rfl⟩, ?_⟩
  rintro ⟨f, heq, henc⟩
  cases heq
  cases ((FloatConstraints.encloses_of_isNaN hnan).1 henc).1

/-- The text of a number is held to the bound. -/
theorem float_bounds_enforced_iff_text :
    ∃ f, (Validator.validateNode {} (buildIr (.primitive (.float nonNegative))) (.new 0)
        (.string " 2.5 ")).run ⟨[], []⟩ = some (some (.float f), ⟨[], []⟩) ∧
      nonNegative.Encloses f := by
  have hparse : Text.parseF64 (Text.trim " 2.5 ") = some 2.5 := by decide +kernel
  have hnumber : ¬ (OwnedValue.string " 2.5 ").IsNaN false := by
    rintro ⟨-, f, hf, hnan⟩
    cases hparse.symm.trans hf
    revert hnan
    decide +kernel
  have hholds : nonNegative.Holds 2.5 := by
    refine ⟨fun min hmin => ?_, by rintro _ ⟨⟩⟩
    cases hmin
    decide +kernel
  have hget : (buildIr (.primitive (.float nonNegative))).arena.get (.new 0) =
    some (.primitive (.float nonNegative)) := rfl
  have hreads : ∃ f, (OwnedValue.string " 2.5 ").IsFloat false f ∧ nonNegative.Holds f ∧
      some (OwnedValue.float 2.5) = some (.float f) :=
    ⟨2.5, .string rfl hparse, hholds, rfl⟩
  have henforced :=
    (float_bounds_enforced_iff hget nonNegative_number (by rintro _ ⟨⟩) {} _ [] []).2
      fun h => hnumber h.2
  obtain ⟨f, heq, henc⟩ := henforced _ ((run_float hget).2 hreads)
  exact ⟨f, heq ▸ (run_float hget).2 hreads, henc⟩

/-! ## Sizes of collections -/

/-- The value has the form the type asks for, or text that reads as it: what gives an output,
whatever is found about the parts and the limits. -/
def TypeExpr.takes (strict : Bool) : TypeExpr → OwnedValue → Bool
  | .primitive .any, _ => true
  | .primitive .bool, value => (value.toBool strict).isOk
  | .primitive (.int _), value => (value.toInt strict).isOk
  | .primitive (.float _), value => (value.toFloat strict).isOk
  | .primitive (.string _), value => value.toText.isOk
  | .primitive .symbol, value => (value.toSymbol strict).isOk
  | .enum variants, value => (value.toVariant strict variants).isOk
  | .optional _, .null => true
  | .optional of, value => of.takes strict value
  | .list _ _, .list _ => true
  | .dict _ _, .dict _ => true
  | .struct _ _, .dict _ => true
  | _, _ => false

theorem Verdict.coerced_output_isSome {α : Type} {result : Except Finding α} {wrap : α → OwnedValue}
    {violations : α → List Finding} :
    (Verdict.coerced result wrap violations).output.isSome = result.isOk := by
  cases result <;> rfl

theorem check_output_isSome (o : ValidationOptions) (e : TypeExpr) (root : Bool)
    (value : OwnedValue) : (check o e root value).output.isSome = e.takes o.strict value := by
  induction e generalizing root value with
  | primitive primitive =>
    cases primitive with
    | any => rfl
    | _ => simp only [check, checkPrimitive, Verdict.coerced_output_isSome, TypeExpr.takes]
  | enum => simp only [check, Verdict.coerced_output_isSome, TypeExpr.takes]
  | optional of ih =>
    cases value with
    | null => rfl
    | _ => simp only [check, TypeExpr.takes, ih]
  | list | dict | struct => cases value <;> rfl

/-- A list or dict, at a node of its kind, with the type and values of its elements. -/
inductive CollectionAt (schema : SchemaIr) (id : NodeId) :
    OwnedValue → TypeExpr → CollectionConstraints → List OwnedValue → Prop
  | list {of : NodeId} {c : CollectionConstraints} {items : List OwnedValue} :
    schema.arena.get id = some (.list of c) →
    CollectionAt schema id (.list items) (schema.unfold of) c items
  | dict {of : NodeId} {c : CollectionConstraints} {map : OwnedDict} :
    schema.arena.get id = some (.dict of c) →
    CollectionAt schema id (.dict map) (schema.unfold of) c (map.map (·.2))

/-- The size findings about the value itself are those of a collection of this length. -/
structure CollectionConstraints.Judged (c : CollectionConstraints) (length : Nat)
    (found : Findings) : Prop where
  short : (∃ metaMap, ([], "too_short", metaMap) ∈ found) ↔ ∃ min ∈ c.minSize, length < min
  long : (∃ metaMap, ([], "too_long", metaMap) ∈ found) ↔ ∃ max ∈ c.maxSize, max < length

theorem mem_limited {α : Type} {limit : Option α} {violated : α → Prop} [DecidablePred violated]
    {finding : α → Finding} {f : Finding} :
    f ∈ limited limit violated finding ↔ ∃ bound ∈ limit, violated bound ∧ f = finding bound := by
  cases limit with
  | none => simp [limited]
  | some bound => by_cases h : violated bound <;> simp [limited, h]

/-- What is found below a collection is not about the collection. -/
theorem CollectionConstraints.judged (c : CollectionConstraints) (length : Nat) {found : Findings}
    (hbelow : ∀ f ∈ found, f.1 ≠ []) :
    c.Judged length (found ++ Report.here (c.violations length)) := by
  have hmem (f : Finding) : ([], f) ∈ found ++ Report.here (c.violations length) ↔
      f ∈ c.violations length := by
    rw [List.mem_append, or_iff_right fun h => hbelow _ h rfl]
    simp [Report.here]
  constructor
  · simp only [hmem]
    simp [violations, sizeViolations, mem_limited]
  · simp only [hmem]
    simp [violations, sizeViolations, mem_limited]

theorem CollectionConstraints.judged_iff {c : CollectionConstraints} {taken length : Nat}
    {found : Findings} (h : c.Judged taken found) (hle : taken ≤ length) :
    c.Judged length found ↔ (∀ min ∈ c.minSize, taken < min → length < min) ∧
      ∀ max ∈ c.maxSize, max < length → max < taken := by
  constructor
  · intro hlength
    refine ⟨fun min hmin hlt => ?_, fun max hmax hlt => ?_⟩
    · obtain ⟨_, hmin', hlt'⟩ := hlength.short.1 (h.short.2 ⟨min, hmin, hlt⟩)
      cases Option.mem_unique hmin hmin'
      exact hlt'
    · obtain ⟨_, hmax', hlt'⟩ := h.long.1 (hlength.long.2 ⟨max, hmax, hlt⟩)
      cases Option.mem_unique hmax hmax'
      exact hlt'
  · intro ⟨hshort, hlong⟩
    refine ⟨h.short.trans ?_, h.long.trans ?_⟩
    · exact ⟨fun ⟨min, hmin, hlt⟩ => ⟨min, hmin, hshort min hmin hlt⟩,
        fun ⟨min, hmin, hlt⟩ => ⟨min, hmin, hle.trans_lt hlt⟩⟩
    · exact ⟨fun ⟨max, hmax, hlt⟩ => ⟨max, hmax, hlt.trans_le hle⟩,
        fun ⟨max, hmax, hlt⟩ => ⟨max, hmax, hlong max hmax hlt⟩⟩

theorem Verdict.list_findings (c : CollectionConstraints) (elements : List Verdict) :
    (Verdict.list c elements).findings =
      (elements.zipIdx.flatMap fun element => Report.under (.index element.2) element.1.findings) ++
        Report.here (c.violations (elements.filterMap (·.output)).length) := rfl

theorem Verdict.dict_findings (c : CollectionConstraints) (entries : List (String × Verdict)) :
    (Verdict.dict c entries).findings =
      (entries.flatMap fun entry => Report.under (.key entry.1) entry.2.findings) ++
        Report.here (c.violations
          (entries.filterMap fun entry => entry.2.output.map (entry.1, ·)).length) := rfl

/-- The size that is checked is the number of elements that give an output. -/
theorem CollectionAt.judged {value : OwnedValue} {of : TypeExpr} {c : CollectionConstraints}
    {elements : List OwnedValue} (h : CollectionAt schema id value of c elements) (root : Bool) :
    c.Judged (elements.countP (of.takes options.strict))
      (check options (schema.unfold id) root value).findings := by
  have hunder {segment : PathSegment} {found : Findings} {f : List PathSegment × Finding}
      (hf : f ∈ Report.under segment found) : f.1 ≠ [] := by
    obtain ⟨g, -, rfl⟩ := List.mem_map.1 hf
    exact List.cons_ne_nil _ _
  cases h with
  | @list inner _ _ hget =>
    have hlength :
        ((elements.map fun item => check options (schema.unfold inner) false item).filterMap
          (·.output)).length = elements.countP ((schema.unfold inner).takes options.strict) := by
      rw [List.length_filterMap_eq_countP, List.countP_map]
      exact List.countP_congr fun item _ => by simp [check_output_isSome]
    rw [schema.unfold_of_get hget, Node.expand, check, Verdict.list_findings, hlength]
    apply c.judged
    intro f hf
    obtain ⟨_, -, hf⟩ := List.mem_flatMap.1 hf
    exact hunder hf
  | @dict inner _ map hget =>
    have hlength : ((map.map fun entry => (entry.1, check options (schema.unfold inner) false
        entry.2)).filterMap fun entry => entry.2.output.map (entry.1, ·)).length =
          (map.map (·.2)).countP ((schema.unfold inner).takes options.strict) := by
      rw [List.length_filterMap_eq_countP, List.countP_map, List.countP_map]
      exact List.countP_congr fun entry _ => by simp [check_output_isSome]
    rw [schema.unfold_of_get hget, Node.expand, check, Verdict.dict_findings, hlength]
    apply c.judged
    intro f hf
    obtain ⟨_, -, hf⟩ := List.mem_flatMap.1 hf
    exact hunder hf

/-- For every list or dict at a node of its kind, all options, every path: the size findings are
those of the collection itself exactly when neither bound separates the number of its elements from
the number of those that the element type takes. -/
theorem size_verdict_iff {value : OwnedValue} {of : TypeExpr} {c : CollectionConstraints}
    {elements : List OwnedValue} (h : CollectionAt schema id value of c elements)
    (options : ValidationOptions) (path : List PathSegment) (issues : List ValidationIssue) :
    ((Validator.validateNode options schema id value).run ⟨path, issues⟩).map (·.2) =
        some ⟨path, issues ++ Report.rendered issueAt path
          (check options (schema.unfold id) path.isEmpty value).findings⟩ ∧
      (c.Judged elements.length (check options (schema.unfold id) path.isEmpty value).findings ↔
        (∀ min ∈ c.minSize, elements.countP (of.takes options.strict) < min →
          elements.length < min) ∧
        ∀ max ∈ c.maxSize, max < elements.length →
          max < elements.countP (of.takes options.strict)) := by
  have hnode : ∃ node, schema.arena.get id = some node := by
    cases h with
    | list hget | dict hget => exact ⟨_, hget⟩
  obtain ⟨node, hget⟩ := hnode
  constructor
  · rw [run_node hget]
    rfl
  · exact CollectionConstraints.judged_iff (h.judged _) List.countP_le_length

/-- At least one integer. -/
def someInts : TypeExpr := .list (.primitive (.int {})) ⟨some 1, none⟩

theorem someInts_at (items : List OwnedValue) :
    CollectionAt (buildIr someInts) (.new 1) (.list items) ((buildIr someInts).unfold (.new 0))
      ⟨some 1, none⟩ items :=
  .list rfl

theorem someInts_element : (buildIr someInts).unfold (.new 0) = .primitive (.int {}) := by
  have hget : (buildIr someInts).arena.get (.new 0) = some (.primitive (.int {})) := rfl
  rw [(buildIr someInts).unfold_of_get hget, Node.expand]

/-- `[nil]` has one element and is said to be too short. -/
theorem size_verdict_differs :
    ((Validator.validateNode {} (buildIr someInts) (.new 1) (.list [.null])).run ⟨[], []⟩).map
        (·.2.issues.map fun issue => (issue.path, issue.code)) =
      some [("[0]", "type_mismatch"), ("", "too_short")] ∧
    ¬ CollectionConstraints.Judged ⟨some 1, none⟩ [OwnedValue.null].length
      (check {} ((buildIr someInts).unfold (.new 1)) true (.list [.null])).findings := by
  have hroot : (buildIr someInts).unfold (.new 1) = someInts := by
    have hget : (buildIr someInts).arena.get (.new 1) = some (.list (.new 0) ⟨some 1, none⟩) := rfl
    rw [(buildIr someInts).unfold_of_get hget, Node.expand, someInts_element, someInts]
  constructor
  · rw [run_node rfl, hroot]
    rfl
  · intro hjudged
    rw [hroot] at hjudged
    obtain ⟨min, hmin, hlt⟩ := hjudged.short.1 ⟨_, List.mem_of_getElem? (i := 1) rfl⟩
    cases hmin
    exact absurd hlt (by decide)

/-- `[1]` is long enough and `[]` is too short. -/
theorem size_verdict_iff_ints :
    CollectionConstraints.Judged ⟨some 1, none⟩ 1
        (check {} ((buildIr someInts).unfold (.new 1)) true (.list [.int 1])).findings ∧
      CollectionConstraints.Judged ⟨some 1, none⟩ 0
        (check {} ((buildIr someInts).unfold (.new 1)) true (.list [])).findings := by
  have hone := (size_verdict_iff (someInts_at [.int 1]) {} [] []).2.2
  have hempty := (size_verdict_iff (someInts_at []) {} [] []).2.2
  rw [someInts_element] at hone hempty
  refine ⟨hone ⟨?_, by rintro _ ⟨⟩⟩, hempty ⟨?_, by rintro _ ⟨⟩⟩⟩
  · rintro _ ⟨⟩ hlt
    exact hlt
  · rintro _ ⟨⟩ hlt
    exact hlt

/-! ## Formats -/

theorem code_of_mem_sizeViolations {length : Nat} {minSize maxSize : Option Nat}
    {finding : Finding} (h : finding ∈ sizeViolations length minSize maxSize) :
    finding.1 = "too_short" ∨ finding.1 = "too_long" := by
  obtain h | h := List.mem_append.1 h
  · obtain ⟨_, -, -, rfl⟩ := mem_limited.1 h
    exact .inl rfl
  · obtain ⟨_, -, -, rfl⟩ := mem_limited.1 h
    exact .inr rfl

/-- Only the format is reported as invalid. -/
theorem StringConstraints.format_invalid_iff {c : StringConstraints} {format : StringFormat}
    (h : c.format = some format) {s : String} :
    (∀ finding ∈ c.violations s, finding.1 ≠ "format_invalid") ↔ format.Admits s := by
  constructor
  · intro hnone
    by_contra hmatch
    apply hnone (formatInvalid format.kind) _ rfl
    apply List.mem_append_right
    exact mem_limited.2 ⟨format, h, StringFormat.not_matches_iff.2 hmatch, rfl⟩
  · intro hmatch finding hmem
    obtain hmem | hmem := List.mem_append.1 hmem
    · obtain hcode | hcode := code_of_mem_sizeViolations hmem <;> rw [hcode] <;> decide
    · obtain ⟨format', hformat', hmismatch, -⟩ := mem_limited.1 hmem
      cases Option.mem_unique h hformat'
      exact absurd hmatch (StringFormat.not_matches_iff.1 hmismatch)

/-- For every str node with the format uuid and every string: the run records no `format_invalid`
exactly if the string is five groups of hex digits joined by dashes. -/
theorem uuid_format_iff {schema : SchemaIr} {id : NodeId} {c : StringConstraints}
    (hget : schema.arena.get id = some (.primitive (.string c))) (hformat : c.format = some .uuid)
    (options : ValidationOptions) (s : String) (path : List PathSegment)
    (issues : List ValidationIssue) :
    ∃ out found, (Validator.validateNode options schema id (.string s)).run ⟨path, issues⟩ =
        some (out, ⟨path, issues ++ found⟩) ∧
      ((∀ issue ∈ found, issue.code ≠ "format_invalid") ↔
        ∃ groups : List String, groups.map String.length = [8, 4, 4, 4, 12] ∧
          (∀ group ∈ groups, ∀ c ∈ group.toList, IsHexDigit c) ∧ s = "-".intercalate groups) := by
  refine ⟨_, _, run_node hget (.string s) path issues, ?_⟩
  rw [schema.unfold_of_get hget]
  have hfound : (check options (Node.expand schema.unfold (.primitive (.string c))) path.isEmpty
      (.string s)).findings = Report.here (c.violations s) := rfl
  apply Iff.trans _ (StringConstraints.format_invalid_iff hformat)
  rw [hfound, Report.rendered, Report.here, List.map_map, List.forall_mem_map]
  rfl

/-- A string in the uuid format. -/
def uuidText : TypeExpr := .primitive (.string ⟨none, none, some .uuid⟩)

/-- Digits of both cases. -/
theorem uuid_format_iff_mixed :
    ∃ out found, (Validator.validateNode {} (buildIr uuidText) (.new 0)
        (.string "0a1B2c3D-4e5F-6789-abCD-EF0123456789")).run ⟨[], []⟩ =
          some (out, ⟨[], [] ++ found⟩) ∧
      ((∀ issue ∈ found, issue.code ≠ "format_invalid") ↔
        ∃ groups : List String, groups.map String.length = [8, 4, 4, 4, 12] ∧
          (∀ group ∈ groups, ∀ c ∈ group.toList, IsHexDigit c) ∧
          "0a1B2c3D-4e5F-6789-abCD-EF0123456789" = "-".intercalate groups) := by
  apply uuid_format_iff
  · rfl
  · rfl

end RustlyCore
