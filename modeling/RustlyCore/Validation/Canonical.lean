import RustlyCore.Lib.Pointwise
import RustlyCore.Validation.Monotone

/-!
# Validated output is canonical

An output, with its structs read as dicts again, validates to itself, under either strictness.
-/

namespace RustlyCore

/-! ## Prepared values -/

/-- A value that input preparation makes: without structs. -/
inductive OwnedValue.Prepared : OwnedValue → Prop
  | null : Prepared .null
  | bool (b : Bool) : Prepared (.bool b)
  | int (i : Int64) : Prepared (.int i)
  | float (f : Float) : Prepared (.float f)
  | string (s : String) : Prepared (.string s)
  | symbol (s : String) : Prepared (.symbol s)
  | list {items : List OwnedValue} : (∀ v ∈ items, Prepared v) → Prepared (.list items)
  | dict {entries : OwnedDict} : (∀ p ∈ entries, Prepared p.2) → Prepared (.dict entries)

/-- Reading JSON makes no structs. -/
theorem OwnedValue.fromJson_prepared (json : JsonValue) : (fromJson json).Prepared := by
  induction json with
  | null => exact .null
  | bool b => exact .bool b
  | number num =>
    cases hi : num.asI64 <;> simp only [fromJson, hi]
    · exact .float _
    · exact .int _
  | string s => exact .string s
  | array items ih =>
    rw [fromJson, fromItems_eq_map]
    exact .list (List.forall_mem_map.2 ih)
  | object map ih =>
    rw [fromJson, fromEntries_eq_map]
    exact .dict (List.forall_mem_map.2 ih)

/-! ## Outputs as inputs -/

namespace OwnedValue

mutual
/-- Every struct becomes the dict of its present fields, in declared order, and its extras. -/
def asInput : OwnedValue → OwnedValue
  | .list items => .list (asInputItems items)
  | .dict entries => .dict (asInputEntries entries)
  | .struct ⟨names, fields, extras⟩ => .dict (asInputFields names fields ++ asInputExtras extras)
  | .null => .null
  | .bool b => .bool b
  | .int i => .int i
  | .float f => .float f
  | .string s => .string s
  | .symbol s => .symbol s

def asInputItems : List OwnedValue → List OwnedValue
  | [] => []
  | item :: items => item.asInput :: asInputItems items

def asInputEntries : OwnedDict → OwnedDict
  | [] => []
  | (key, value) :: entries => (key, value.asInput) :: asInputEntries entries

def asInputFields : List String → List (Option OwnedValue) → OwnedDict
  | name :: names, some value :: fields => (name, value.asInput) :: asInputFields names fields
  | _ :: names, none :: fields => asInputFields names fields
  | _, _ => []

def asInputExtras : Option OwnedDict → OwnedDict
  | some extras => asInputEntries extras
  | none => []
end

theorem asInputItems_eq_map (items : List OwnedValue) :
    asInputItems items = items.map asInput := by
  induction items with
  | nil => rfl
  | cons item items ih => rw [asInputItems, ih, List.map_cons]

theorem asInputEntries_eq_map (entries : OwnedDict) :
    asInputEntries entries = entries.map fun p => (p.1, p.2.asInput) := by
  induction entries with
  | nil => rfl
  | cons entry entries ih => rw [asInputEntries, ih, List.map_cons]

/-- Every key comes from a name. -/
theorem mem_names_of_mem_asInputFields {names : List String} {fields : List (Option OwnedValue)}
    {p : String × OwnedValue} (h : p ∈ asInputFields names fields) : p.1 ∈ names := by
  induction names generalizing fields with
  | nil => cases fields <;> simp [asInputFields] at h
  | cons name names ih =>
    match fields with
    | [] => simp [asInputFields] at h
    | none :: fields => exact List.mem_cons_of_mem _ (ih h)
    | some value :: fields =>
      rcases List.mem_cons.1 h with rfl | h
      · exact List.mem_cons_self
      · exact List.mem_cons_of_mem _ (ih h)

/-- Prepared values have no structs to replace. -/
theorem Prepared.asInput {v : OwnedValue} (h : v.Prepared) : v.asInput = v := by
  induction v with
  | list items ih =>
    cases h with
    | list h =>
      rw [OwnedValue.asInput, asInputItems_eq_map, List.map_congr_left fun v hv => ih v hv (h v hv),
        List.map_id']
  | dict entries ih =>
    cases h with
    | dict h =>
      rw [OwnedValue.asInput, asInputEntries_eq_map,
        List.map_congr_left fun p hp => congrArg (Prod.mk p.1) (ih p hp (h p hp)), List.map_id']
  | struct => cases h
  | _ => rfl

theorem asInput_eq_null {v : OwnedValue} : v.asInput = .null ↔ v = .null := by
  cases v with
  | struct s => obtain ⟨names, fields, extras⟩ := s; simp [asInput]
  | _ => simp [asInput]

end OwnedValue

/-! ## Distinct field names -/

/-- Every struct declares pairwise distinct field names. -/
inductive TypeExpr.DistinctNames : TypeExpr → Prop
  | primitive (p : PrimitiveType) : DistinctNames (.primitive p)
  | enum (variants : List String) : DistinctNames (.enum variants)
  | optional {e : TypeExpr} : DistinctNames e → DistinctNames (.optional e)
  | list {e : TypeExpr} {c : CollectionConstraints} : DistinctNames e → DistinctNames (.list e c)
  | dict {e : TypeExpr} {c : CollectionConstraints} : DistinctNames e → DistinctNames (.dict e c)
  | struct {fields : List (FieldExpr TypeExpr)} {extra : ExtraBehavior} :
    (fields.map (·.name)).Nodup → (∀ f ∈ fields, DistinctNames f.ty) →
    DistinctNames (.struct fields extra)

/-- The same of the structs in an arena. -/
def SchemaIr.DistinctNames (schema : SchemaIr) : Prop :=
  ∀ id fields extra, schema.arena.get id = some (.struct fields extra) →
    (fields.map (·.name)).Nodup

theorem SchemaIr.DistinctNames.unfold {schema : SchemaIr} (h : schema.DistinctNames) {id : NodeId}
    (hid : id.index < schema.arena.len) : (schema.unfold id).DistinctNames := by
  induction hk : id.index using Nat.strong_induction_on generalizing id with
  | _ k ih =>
    obtain ⟨n, hget⟩ : ∃ n, schema.arena.get id = some n := ⟨_, List.getElem?_eq_getElem hid⟩
    have hchild {c : NodeId} (hc : c ∈ n.children) : (schema.unfold c).DistinctNames :=
      have hlt := schema.closed hget c hc
      ih _ (hk ▸ hlt) (hlt.trans hid) rfl
    rw [schema.unfold_of_get hget]
    cases n with
    | primitive p => exact .primitive p
    | enum variants => exact .enum variants
    | optional => exact .optional (hchild List.mem_cons_self)
    | list => exact .list (hchild List.mem_cons_self)
    | dict => exact .dict (hchild List.mem_cons_self)
    | struct fields extra =>
      refine .struct ?_ (List.forall_mem_map.2 fun f hf => hchild (List.mem_map.2 ⟨f, hf, rfl⟩))
      simpa [Function.comp_def] using h id fields extra hget

/-! ## The second run -/

variable {o o' : ValidationOptions} {e : TypeExpr} {root : Bool} {v w : OwnedValue}

/-- In the dict of the present fields, between entries under other keys, each field is found. -/
theorem ConvFields.again {map : OwnedDict} {fields : List (FieldExpr TypeExpr)}
    {values : List (Option OwnedValue)}
    (ih : ∀ f ∈ fields, ∀ v w, FirstEntry map f.name v → Conv o f.ty false v w →
      Conv o' f.ty false w.asInput w)
    (hnames : (fields.map (·.name)).Nodup) (h : ConvFields o map fields values)
    (before after : OwnedDict) (hbefore : ∀ f ∈ fields, ∀ p ∈ before, p.1 ≠ f.name)
    (hafter : ∀ f ∈ fields, ∀ p ∈ after, p.1 ≠ f.name) :
    ConvFields o'
      (before ++ (OwnedValue.asInputFields (fields.map (·.name)) values ++ after)) fields
      values := by
  induction fields generalizing values before with
  | nil => cases values <;> exact h
  | cons f fields ihf =>
    cases values with
    | nil => exact h
    | cons value values =>
      obtain ⟨hname, hnames⟩ := List.nodup_cons.1 hnames
      have hrest := ihf (fun g hg => ih g (List.mem_cons_of_mem _ hg)) hnames h.2
      have hbefore' := fun g hg => hbefore g (List.mem_cons_of_mem _ hg)
      have hafter' := fun g hg => hafter g (List.mem_cons_of_mem _ hg)
      rcases h.1 with ⟨v, w, hfirst, rfl, hR⟩ | ⟨-, rfl, hpresence⟩
      · -- The entry of the field joins the entries before the others.
        have hnext : ∀ g ∈ fields, ∀ p ∈ before ++ [(f.name, w.asInput)], p.1 ≠ g.name := by
          intro g hg p hp
          rcases List.mem_append.1 hp with hp | hp
          · exact hbefore' g hg p hp
          · cases List.mem_singleton.1 hp
            exact fun heq => hname (List.mem_map.2 ⟨g, hg, heq.symm⟩)
        refine ⟨.inl ⟨w.asInput, w, ?_, rfl, ih f List.mem_cons_self v w hfirst hR⟩, ?_⟩
        · exact ⟨before, _, rfl, hbefore f List.mem_cons_self⟩
        · simpa [OwnedValue.asInputFields] using hrest _ hnext hafter'
      · refine ⟨.inr ⟨?_, rfl, hpresence⟩, ?_⟩
        · intro p hp
          rcases List.mem_append.1 hp with hp | hp
          · exact hbefore f List.mem_cons_self p hp
          rcases List.mem_append.1 hp with hp | hp
          · change p ∈ OwnedValue.asInputFields (fields.map (·.name)) values at hp
            have hmem := OwnedValue.mem_names_of_mem_asInputFields hp
            exact fun heq => hname (show f.name ∈ _ from heq ▸ hmem)
          · exact hafter f List.mem_cons_self p hp
        · simpa [OwnedValue.asInputFields] using hrest _ hbefore' hafter'

theorem unknownEntries_append {names : List String} (map map' : OwnedDict) :
    unknownEntries names (map ++ map') = unknownEntries names map ++ unknownEntries names map' :=
  List.filter_append ..

theorem unknownEntries_eq_self {names : List String} {map : OwnedDict}
    (h : ∀ p ∈ map, p.1 ∉ names) : unknownEntries names map = map :=
  List.filter_eq_self.2 fun p hp => by simpa using h p hp

theorem unknownEntries_eq_nil {names : List String} {map : OwnedDict}
    (h : ∀ p ∈ map, p.1 ∈ names) : unknownEntries names map = [] :=
  List.filter_eq_nil_iff.2 fun p hp => by simpa using h p hp

theorem mem_unknownEntries {names : List String} {map : OwnedDict} {p : String × OwnedValue} :
    p ∈ unknownEntries names map ↔ p ∈ map ∧ p.1 ∉ names := by
  simp [unknownEntries]

/-- The extras of an output are unknown entries of the input. -/
theorem ConvExtras.subset {extra : ExtraBehavior} {unknown : OwnedDict}
    {extras : Option OwnedDict} (h : ConvExtras extra unknown extras) :
    ∀ u ∈ extras, u = unknown := by
  rintro u hu
  cases extra with
  | forbid => rw [h.2] at hu; cases hu
  | ignore => rw [show extras = none from h] at hu; cases hu
  | allow =>
    rw [show extras = _ from h] at hu
    split at hu
    · cases hu
    · exact (Option.some.inj hu).symm

/-- Extras are their own extras. -/
theorem ConvExtras.again {extra : ExtraBehavior} {unknown : OwnedDict}
    {extras : Option OwnedDict} (h : ConvExtras extra unknown extras) :
    ConvExtras extra (extras.getD []) extras := by
  cases extra with
  | forbid => rw [h.2]; exact ⟨rfl, rfl⟩
  | ignore => exact h
  | allow =>
    have hallow : extras = if unknown.isEmpty then none else some unknown := h
    cases unknown <;> simp [hallow, ConvExtras]

/-- The extras of an output hold no structs. -/
theorem ConvExtras.asInput_eq {extra : ExtraBehavior} {names : List String} {map : OwnedDict}
    {extras : Option OwnedDict} (h : ConvExtras extra (unknownEntries names map) extras)
    (hv : ∀ p ∈ map, p.2.Prepared) : OwnedValue.asInputExtras extras = extras.getD [] := by
  cases extras with
  | none => rfl
  | some u =>
    have hu : ∀ p ∈ u, p.2.Prepared := by
      intro p hp
      rw [h.subset u rfl] at hp
      exact hv p (mem_unknownEntries.1 hp).1
    rw [OwnedValue.asInputExtras, OwnedValue.asInputEntries_eq_map,
      List.map_congr_left fun p hp => congrArg (Prod.mk p.1) (hu p hp).asInput, List.map_id']
    rfl

/-- No extra is under the name of a field. -/
theorem ConvExtras.not_mem_names {extra : ExtraBehavior} {names : List String} {map : OwnedDict}
    {extras : Option OwnedDict} (h : ConvExtras extra (unknownEntries names map) extras) :
    ∀ p ∈ extras.getD [], p.1 ∉ names := by
  cases extras with
  | none => simp
  | some u =>
    intro p hp
    exact (mem_unknownEntries.1 (h.subset u rfl ▸ hp)).2

theorem Conv.again (hd : e.DistinctNames) (hx : o'.extraBehavior = o.extraBehavior)
    (hv : v.Prepared) (h : Conv o e root v w) : Conv o' e root w.asInput w := by
  induction hd generalizing root v w with
  | primitive p =>
    cases p with
    | any =>
      rw [show w = v from h, hv.asInput]
      rfl
    | bool => obtain ⟨b, -, rfl⟩ := h; exact ⟨b, .bool b, rfl⟩
    | int c => obtain ⟨i, -, hc, rfl⟩ := h; exact ⟨i, .int i, hc, rfl⟩
    | float c => obtain ⟨f, -, hc, rfl⟩ := h; exact ⟨f, .float f, hc, rfl⟩
    | string c => obtain ⟨s, -, hc, rfl⟩ := h; exact ⟨s, rfl, hc, rfl⟩
    | symbol => obtain ⟨s, -, rfl⟩ := h; exact ⟨s, .symbol s, rfl⟩
  | enum => obtain ⟨s, hmem, -, rfl⟩ := h; exact ⟨s, hmem, .symbol s, rfl⟩
  | optional _ ih =>
    rcases h with ⟨rfl, rfl⟩ | ⟨hnull, h⟩
    · exact .inl ⟨rfl, rfl⟩
    · refine .inr ⟨fun hw => hnull (h.null_iff.2 ?_), ih hv h⟩
      exact OwnedValue.asInput_eq_null.1 hw
  | list _ ih =>
    obtain ⟨items, outs, rfl, rfl, hall, hsize⟩ := h
    cases hv with
    | list hv =>
      refine ⟨_, outs, rfl, rfl, ?_, hsize⟩
      rw [OwnedValue.asInputItems_eq_map, List.forall₂_map_left_iff, List.forall₂_same]
      intro w hw
      obtain ⟨v, hmem, h⟩ := forall₂_mem_right hall _ hw
      exact ih (hv v hmem) h
  | dict _ ih =>
    obtain ⟨map, outs, rfl, rfl, hall, hsize⟩ := h
    cases hv with
    | dict hv =>
      refine ⟨_, outs, rfl, rfl, ?_, hsize⟩
      rw [OwnedValue.asInputEntries_eq_map, List.forall₂_map_left_iff, List.forall₂_same]
      intro q hq
      obtain ⟨p, hmem, h⟩ := forall₂_mem_right hall _ hq
      exact ⟨rfl, ih (hv p hmem) h.2⟩
  | @struct fields extra hnames _ ih =>
    obtain ⟨map, values, extras, rfl, rfl, hfields, hextras⟩ := h
    cases hv with
    | dict hv =>
      have hkeys := hextras.not_mem_names
      have hvalue {f : FieldExpr TypeExpr} {v : OwnedValue}
          (hfirst : FirstEntry map f.name v) : v.Prepared :=
        hv _ hfirst.mem
      have hagain : ConvFields o' _ fields values :=
        hfields.again (fun f hf v w hfirst h => ih f hf (hvalue hfirst) h) hnames []
          (extras.getD []) (by simp) fun f hf p hp heq =>
            hkeys p hp (heq ▸ List.mem_map.2 ⟨f, hf, rfl⟩)
      have hunknown : unknownEntries (fields.map (·.name))
          (OwnedValue.asInputFields (fields.map (·.name)) values ++ extras.getD []) =
            extras.getD [] := by
        rw [unknownEntries_append, unknownEntries_eq_nil, unknownEntries_eq_self hkeys]
        · rfl
        · exact fun p hp => OwnedValue.mem_names_of_mem_asInputFields hp
      refine ⟨_, values, extras, ?_, rfl, hagain, ?_⟩
      · rw [OwnedValue.asInput, hextras.asInput_eq hv]
        rfl
      · rw [List.nil_append, hunknown, hx]
        exact hextras.again

/-- What a prepared value validates to, read as an input again, validates to itself, strict or
not. -/
theorem validated_revalidates (schema : SchemaIr) (hd : schema.DistinctNames)
    (o : ValidationOptions) {v w : OwnedValue} (hv : v.Prepared) (h : schema.Accepts o v w)
    (strict : Bool) : schema.Accepts { o with strict := strict } w.asInput w := by
  rw [schema.accepts_iff] at h ⊢
  refine Conv.again (hd.unfold schema.root_lt) ?_ hv h
  rfl

/-- Text that becomes an integer, and an extra. -/
theorem validated_revalidates_text :
    let schema := buildIr (.struct [⟨"a", .required, .primitive (.int {})⟩] .forbid)
    let w := OwnedValue.struct ⟨["a"], [some (.int 7)], some [("b", .null)]⟩
    schema.Accepts { strict := true, extraBehavior := .allow }
      (.dict [("a", .int 7), ("b", .null)]) w := by
  intro schema w
  have hd : schema.DistinctNames := by
    intro id fields extra hget
    have hmem : Node.struct fields extra ∈ schema.arena.nodes := List.mem_of_getElem? hget
    change _ ∈ [Node.primitive (.int {}), .struct [⟨"a", .required, NodeId.new 0⟩] .forbid] at hmem
    simp only [List.mem_cons, reduceCtorEq, Node.struct.injEq, List.not_mem_nil, or_false,
      false_or] at hmem
    rw [hmem.1]
    decide
  have hv : (OwnedValue.dict [("b", .null), ("a", .string " +7")]).Prepared :=
    .dict (by simp [OwnedValue.Prepared.null, OwnedValue.Prepared.string])
  have h : schema.Accepts { extraBehavior := .allow }
      (.dict [("b", .null), ("a", .string " +7")]) w := by
    rw [buildIr_accepts_iff (by decide)]
    have ha := dictFind_eq_some.1 (rfl : Validator.dictFind
      [("b", .null), ("a", .string " +7")] "a" = some (.string " +7"))
    refine ⟨_, _, _, rfl, rfl, ⟨.inl ⟨.string " +7", _, ha, rfl, ?_⟩, trivial⟩, rfl⟩
    exact ⟨7, .string rfl (by decide), ⟨nofun, nofun⟩, rfl⟩
  exact validated_revalidates schema hd { extraBehavior := .allow } hv h true

end RustlyCore
