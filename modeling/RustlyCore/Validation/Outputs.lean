import RustlyCore.Validation.Canonical

/-!
# The values of a schema

`Types` says which outputs are values of a type expression. These are exactly what validations of
it answer, under either strictness: nothing else comes out, and all of them do.
-/

namespace RustlyCore

/-! ## Values -/

def PrimitiveType.Types (p : PrimitiveType) (w : OwnedValue) : Prop :=
  match p with
  | .any => w.Prepared
  | .bool => ∃ b, w = .bool b
  | .int c => ∃ i, c.Holds i ∧ w = .int i
  | .float c => ∃ f, c.Holds f ∧ w = .float f
  | .string c => ∃ s, c.Holds s ∧ w = .string s
  | .symbol => ∃ s, w = .symbol s

/-- Extras are there only where they are allowed, are some, and have keys of their own. -/
def ExtraBehavior.Types (extra : ExtraBehavior) (names : List String) (extras : Option OwnedDict) :
    Prop :=
  ∀ entries ∈ extras,
    extra = .allow ∧ entries ≠ [] ∧ ∀ p ∈ entries, p.1 ∉ names ∧ p.2.Prepared

/-- `root` is as in `check`. -/
inductive TypeExpr.Types (policy : ExtraBehavior) : TypeExpr → (root : Bool) → OwnedValue → Prop
  | primitive {p : PrimitiveType} {root : Bool} {w : OwnedValue} :
    p.Types w → Types policy (.primitive p) root w
  | enum {variants : List String} {root : Bool} {s : String} :
    s ∈ variants → Types policy (.enum variants) root (.symbol s)
  | null {inner : TypeExpr} {root : Bool} : Types policy (.optional inner) root .null
  | optional {inner : TypeExpr} {root : Bool} {w : OwnedValue} :
    Types policy inner root w → Types policy (.optional inner) root w
  | list {of : TypeExpr} {c : CollectionConstraints} {root : Bool} {outs : List OwnedValue} :
    (∀ w ∈ outs, Types policy of false w) → c.Holds outs.length →
    Types policy (.list of c) root (.list outs)
  | dict {of : TypeExpr} {c : CollectionConstraints} {root : Bool} {outs : OwnedDict} :
    (∀ q ∈ outs, Types policy of false q.2) → c.Holds outs.length →
    Types policy (.dict of c) root (.dict outs)
  | struct {fields : List (FieldExpr TypeExpr)} {extra : ExtraBehavior} {root : Bool}
      {values : List (Option OwnedValue)} {extras : Option OwnedDict} :
    fields.length = values.length →
    (∀ f w, (f, some w) ∈ fields.zip values → Types policy f.ty false w) →
    (∀ f, (f, none) ∈ fields.zip values → f.presence = .optional) →
    (if root then policy else extra).Types (fields.map (·.name)) extras →
    Types policy (.struct fields extra) root
      (.struct ⟨fields.map (·.name), values, extras⟩)

variable {o : ValidationOptions} {e : TypeExpr} {root : Bool} {v w : OwnedValue}

/-! ## Outputs are values -/

theorem ConvPrimitive.types {strict : Bool} {p : PrimitiveType} (hv : v.Prepared)
    (h : ConvPrimitive strict p v w) : p.Types w := by
  cases p with
  | any =>
    rw [show w = v from h]
    exact hv
  | bool => obtain ⟨b, -, rfl⟩ := h; exact ⟨b, rfl⟩
  | int c => obtain ⟨i, -, hc, rfl⟩ := h; exact ⟨i, hc, rfl⟩
  | float c => obtain ⟨f, -, hc, rfl⟩ := h; exact ⟨f, hc, rfl⟩
  | string c => obtain ⟨s, -, hc, rfl⟩ := h; exact ⟨s, hc, rfl⟩
  | symbol => obtain ⟨s, -, rfl⟩ := h; exact ⟨s, rfl⟩

theorem ConvExtras.types {extra : ExtraBehavior} {names : List String} {map : OwnedDict}
    {extras : Option OwnedDict} (hv : ∀ p ∈ map, p.2.Prepared)
    (h : ConvExtras extra (unknownEntries names map) extras) : extra.Types names extras := by
  intro entries hentries
  have hunknown := h.subset entries hentries
  rw [Option.mem_def.1 hentries] at h
  refine ⟨?_, ?_, ?_⟩
  · cases extra with
    | forbid => cases h.2
    | ignore => cases h
    | allow => rfl
  · rintro rfl
    cases extra with
    | forbid => cases h.2
    | ignore => cases h
    | allow =>
      rw [ConvExtras, ← hunknown] at h
      cases h
  · intro p hp
    rw [hunknown] at hp
    obtain ⟨hmap, hname⟩ := mem_unknownEntries.1 hp
    exact ⟨hname, hv p hmap⟩

theorem Conv.types (hv : v.Prepared) (h : Conv o e root v w) :
    e.Types o.extraBehavior root w := by
  induction e generalizing root v w with
  | primitive p => exact .primitive (ConvPrimitive.types hv h)
  | enum variants =>
    obtain ⟨s, hs, -, rfl⟩ := h
    exact .enum hs
  | optional inner ih =>
    rcases h with ⟨-, rfl⟩ | ⟨-, h⟩
    · exact .null
    · exact .optional (ih hv h)
  | list of c ih =>
    obtain ⟨items, outs, rfl, rfl, hall, hsize⟩ := h
    cases hv with
    | list hv =>
      refine .list (fun w hw => ?_) hsize
      obtain ⟨v, hmem, h⟩ := forall₂_mem_right hall w hw
      exact ih (hv v hmem) h
  | dict of c ih =>
    obtain ⟨map, outs, rfl, rfl, hall, hsize⟩ := h
    cases hv with
    | dict hv =>
      refine .dict (fun q hq => ?_) hsize
      obtain ⟨p, hmem, h⟩ := forall₂_mem_right hall q hq
      exact ih (hv p hmem) h.2
  | struct fields extra ih =>
    obtain ⟨map, values, extras, rfl, rfl, hfields, hextras⟩ := h
    cases hv with
    | dict hv =>
      obtain ⟨hlength, hzip⟩ := List.forall₂_iff_zip.1 (convFields_iff.1 hfields)
      refine .struct hlength ?_ ?_ (hextras.types hv)
      · intro f w hf
        rcases hzip hf with ⟨v, _, hfirst, heq, h⟩ | ⟨-, heq, -⟩
        · cases heq
          exact ih f (List.of_mem_zip hf).1 (hv _ hfirst.mem) h
        · cases heq
      · intro f hf
        rcases hzip hf with ⟨v, w, -, heq, -⟩ | ⟨-, -, hpresence⟩
        · cases heq
        · exact hpresence

/-! ## Values are outputs

A value is what its own reading as an input validates to.
-/

namespace OwnedValue
variable {names : List String} {values : List (Option OwnedValue)} {after : OwnedDict}

theorem mem_asInputFields {p : String × OwnedValue} (h : p ∈ asInputFields names values) :
    ∃ w, some w ∈ values ∧ p.2 = w.asInput := by
  induction names generalizing values with
  | nil => cases values <;> simp [asInputFields] at h
  | cons name names ih =>
    cases values with
    | nil => simp [asInputFields] at h
    | cons first values =>
      have hrest (h : p ∈ asInputFields names values) :
          ∃ w, some w ∈ first :: values ∧ p.2 = w.asInput := by
        obtain ⟨w, hw, hp⟩ := ih h
        exact ⟨w, List.mem_cons_of_mem _ hw, hp⟩
      cases first with
      | none => exact hrest h
      | some w =>
        rcases List.mem_cons.1 h with rfl | h
        · exact ⟨w, List.mem_cons_self, rfl⟩
        · exact hrest h

/-- Under the name of a field stands the field. -/
theorem dictFind_asInputFields (hnames : names.Nodup) (hafter : ∀ p ∈ after, p.1 ∉ names)
    {name : String} {value : Option OwnedValue} (h : (name, value) ∈ names.zip values) :
    Validator.dictFind (asInputFields names values ++ after) name = value.map asInput := by
  induction names generalizing values with
  | nil => simp at h
  | cons n names ih =>
    obtain ⟨hn, hnames⟩ := List.nodup_cons.1 hnames
    have hafter' : ∀ p ∈ after, p.1 ∉ names := fun p hp hmem =>
      hafter p hp (List.mem_cons_of_mem _ hmem)
    cases values with
    | nil => simp at h
    | cons first values =>
      rcases List.mem_cons.1 h with heq | hrest
      · cases heq
        cases value with
        | some w => rw [asInputFields, List.cons_append, Validator.dictFind_cons, if_pos rfl]; rfl
        | none =>
          rw [asInputFields, Option.map_none, Validator.dictFind_eq_none]
          rintro p hp rfl
          rcases List.mem_append.1 hp with hp | hp
          · exact hn (mem_names_of_mem_asInputFields hp)
          · exact hafter p hp List.mem_cons_self
      · have hne : n ≠ name := by
          rintro rfl
          exact hn (List.of_mem_zip hrest).1
        cases first with
        | some w =>
          rw [asInputFields, List.cons_append, Validator.dictFind_cons, if_neg hne]
          exact ih hnames hafter' hrest
        | none =>
          rw [asInputFields]
          exact ih hnames hafter' hrest

end OwnedValue

theorem PrimitiveType.Types.asInput {p : PrimitiveType} (h : p.Types w) :
    w.asInput.Prepared ∧ ConvPrimitive o.strict p w.asInput w := by
  cases p with
  | any =>
    have hw : w.Prepared := h
    rw [hw.asInput]
    exact ⟨hw, rfl⟩
  | bool => obtain ⟨b, rfl⟩ := h; exact ⟨.bool b, b, .bool b, rfl⟩
  | int c => obtain ⟨i, hc, rfl⟩ := h; exact ⟨.int i, i, .int i, hc, rfl⟩
  | float c => obtain ⟨f, hc, rfl⟩ := h; exact ⟨.float f, f, .float f, hc, rfl⟩
  | string c => obtain ⟨s, hc, rfl⟩ := h; exact ⟨.string s, s, rfl, hc, rfl⟩
  | symbol => obtain ⟨s, rfl⟩ := h; exact ⟨.symbol s, s, .symbol s, rfl⟩

theorem ExtraBehavior.Types.asInput {extra : ExtraBehavior} {names : List String}
    {extras : Option OwnedDict} (h : extra.Types names extras) :
    OwnedValue.asInputExtras extras = extras.getD [] ∧
      (∀ p ∈ extras.getD [], p.1 ∉ names ∧ p.2.Prepared) ∧
      ConvExtras extra (extras.getD []) extras := by
  cases extras with
  | none => cases extra <;> exact ⟨rfl, by simp, by simp [ConvExtras]⟩
  | some entries =>
    obtain ⟨rfl, hnil, hentries⟩ := h entries rfl
    refine ⟨?_, hentries, ?_⟩
    · rw [OwnedValue.asInputExtras, OwnedValue.asInputEntries_eq_map,
        List.map_congr_left fun p hp => congrArg (Prod.mk p.1) (hentries p hp).2.asInput,
        List.map_id']
      rfl
    · cases entries with
      | nil => exact absurd rfl hnil
      | cons => rfl

theorem TypeExpr.Types.asInput (hd : e.DistinctNames) (h : e.Types o.extraBehavior root w) :
    w.asInput.Prepared ∧ Conv o e root w.asInput w := by
  induction h with
  | primitive h => exact h.asInput
  | enum hs => exact ⟨.symbol _, _, hs, .symbol _, rfl⟩
  | null => exact ⟨.null, .inl ⟨rfl, rfl⟩⟩
  | @optional inner root w _ ih =>
    cases hd with
    | optional hd =>
      obtain ⟨hprepared, h⟩ := ih hd
      refine ⟨hprepared, ?_⟩
      by_cases hnull : w = .null
      · rw [hnull]
        exact .inl ⟨rfl, rfl⟩
      · exact .inr ⟨fun heq => hnull (OwnedValue.asInput_eq_null.1 heq), h⟩
  | list _ hsize ih =>
    cases hd with
    | list hd =>
      rw [OwnedValue.asInput, OwnedValue.asInputItems_eq_map]
      refine ⟨.list (List.forall_mem_map.2 fun w hw => (ih w hw hd).1), _, _, rfl, rfl, ?_, hsize⟩
      rw [List.forall₂_map_left_iff, List.forall₂_same]
      exact fun w hw => (ih w hw hd).2
  | dict _ hsize ih =>
    cases hd with
    | dict hd =>
      rw [OwnedValue.asInput, OwnedValue.asInputEntries_eq_map]
      refine ⟨.dict (List.forall_mem_map.2 fun q hq => (ih q hq hd).1), _, _, rfl, rfl, ?_, hsize⟩
      rw [List.forall₂_map_left_iff, List.forall₂_same]
      exact fun q hq => ⟨rfl, (ih q hq hd).2⟩
  | @struct fields extra root values extras hlength _ hnone hextras ih =>
    cases hd with
    | struct hnames hd =>
      obtain ⟨hasInput, hentries, hconv⟩ := hextras.asInput
      have hkeys : ∀ p ∈ extras.getD [], p.1 ∉ fields.map (·.name) := fun p hp => (hentries p hp).1
      have hzip {f : FieldExpr TypeExpr} {value : Option OwnedValue}
          (hf : (f, value) ∈ fields.zip values) :
          (f.name, value) ∈ (fields.map (·.name)).zip values := by
        rw [List.zip_map_left]
        exact List.mem_map.2 ⟨_, hf, rfl⟩
      have hfield {w : OwnedValue} (hw : some w ∈ values) : w.asInput.Prepared := by
        obtain ⟨i, hi, hget⟩ := List.getElem_of_mem hw
        have hf : (fields[i], some w) ∈ fields.zip values := by
          rw [← hget, ← List.getElem_zip (h := by simpa [hlength] using hi)]
          exact List.getElem_mem _
        exact (ih _ w hf (hd _ (List.getElem_mem _))).1
      rw [OwnedValue.asInput, hasInput]
      refine ⟨.dict ?_, _, values, extras, rfl, rfl, ?_, ?_⟩
      · intro p hp
        rcases List.mem_append.1 hp with hp | hp
        · obtain ⟨w, hw, heq⟩ := OwnedValue.mem_asInputFields hp
          rw [heq]
          exact hfield hw
        · exact (hentries p hp).2
      · rw [convFields_iff, List.forall₂_iff_zip]
        refine ⟨hlength, fun {f value} hf => ?_⟩
        have hfind := OwnedValue.dictFind_asInputFields hnames hkeys (hzip hf)
        cases value with
        | some w =>
          have hw := (ih f w hf (hd f (List.of_mem_zip hf).1)).2
          exact .inl ⟨_, w, dictFind_eq_some.1 hfind, rfl, hw⟩
        | none => exact .inr ⟨Validator.dictFind_eq_none.1 hfind, rfl, hnone f hf⟩
      · rw [unknownEntries_append, unknownEntries_eq_nil, unknownEntries_eq_self hkeys]
        · exact hconv
        · exact fun p hp => OwnedValue.mem_names_of_mem_asInputFields hp

/-! ## The range of a validation -/

/-- What prepared inputs validate to are the values of the schema. -/
theorem outputs_iff_types (schema : SchemaIr) (hd : schema.DistinctNames) (o : ValidationOptions)
    (w : OwnedValue) : (∃ v, v.Prepared ∧ schema.Accepts o v w) ↔
      (schema.unfold schema.root).Types o.extraBehavior true w := by
  constructor
  · rintro ⟨v, hv, h⟩
    exact ((schema.accepts_iff).1 h).types hv
  · intro h
    obtain ⟨hprepared, hconv⟩ := h.asInput (o := o) (hd.unfold schema.root_lt)
    exact ⟨w.asInput, hprepared, (schema.accepts_iff).2 hconv⟩

/-- An integer within its limits and an absent field. -/
theorem outputs_iff_types_absent :
    let schema := buildIr (.struct [⟨"a", .required, .primitive (.int { min := some 0 })⟩,
      ⟨"b", .optional, .primitive .bool⟩] .forbid)
    ∃ v, v.Prepared ∧
      schema.Accepts { strict := true } v (.struct ⟨["a", "b"], [some (.int 7), none], none⟩) := by
  intro schema
  have hd : schema.DistinctNames := by
    intro id fields extra hget
    have hmem : Node.struct fields extra ∈ schema.arena.nodes := List.mem_of_getElem? hget
    change _ ∈ [Node.primitive (.int { min := some 0 }), .primitive .bool,
      .struct [⟨"a", .required, NodeId.new 0⟩, ⟨"b", .optional, NodeId.new 1⟩] .forbid] at hmem
    simp only [List.mem_cons, reduceCtorEq, Node.struct.injEq, List.not_mem_nil, or_false,
      false_or] at hmem
    rw [hmem.1]
    decide
  have hroot : schema.arena.get schema.root = some (.struct
      [⟨"a", .required, NodeId.new 0⟩, ⟨"b", .optional, NodeId.new 1⟩] .forbid) := rfl
  have hint : schema.arena.get (NodeId.new 0) = some (.primitive (.int { min := some 0 })) := rfl
  rw [outputs_iff_types schema hd, schema.unfold_of_get hroot]
  refine .struct rfl ?_ ?_ (by simp [ExtraBehavior.Types])
  · rintro f w hf
    simp only [List.map_cons, List.map_nil, List.zip_cons_cons, List.zip_nil_left,
      List.mem_cons, Prod.mk.injEq, Option.some.injEq, reduceCtorEq, and_false,
      List.not_mem_nil, or_false] at hf
    obtain ⟨rfl, rfl⟩ := hf
    rw [schema.unfold_of_get hint]
    exact .primitive ⟨7, ⟨by simp, by simp⟩, rfl⟩
  · intro f hf
    simp only [List.map_cons, List.map_nil, List.zip_cons_cons, List.zip_nil_left,
      List.mem_cons, Prod.mk.injEq, reduceCtorEq, and_false, and_true, List.not_mem_nil,
      or_false, false_or] at hf
    rw [hf]

end RustlyCore
