import RustlyCore.Build
import RustlyCore.Validation.Canonical

/-!
# The plan and the output

The plan is computed from the root node alone, the struct that is built comes out of a validation
that may pass through optionals first. The two agree unless the root is an optional around a struct
with fields: then the plan is empty, and a build drops every field.
-/

namespace RustlyCore

variable {x : Externals}

theorem compile_plan {schemaAst opts : RubyValue} {compiled : CompiledSchema}
    (h : compile x schemaAst opts = .ok compiled) :
    compiled.plan.entries = (compiled.ir.unfold compiled.ir.root).plannedNames.map .named := by
  obtain ⟨compiled', options, hcompile, -, rfl⟩ := compile_ok h
  have hplan := SchemaCompiler.compile_plan hcompile
  exact hplan

/-! ## Prepared inputs hold no structs -/

theorem Image.value_prepared {r : RubyValue} {v : OwnedValue} (h : Image r v) : v.Prepared := by
  induction r generalizing v with
  | nil =>
    cases h
    exact .null
  | bool b =>
    cases h
    exact .bool b
  | integer i =>
    cases h
    exact .int _
  | float f =>
    cases h
    exact .float f
  | string basic bytes =>
    cases h
    exact .string _
  | symbol bytes =>
    cases h
    exact .symbol _
  | array basic items ih =>
    cases h with
    | array _ hitems =>
      apply OwnedValue.Prepared.list
      intro v hv
      obtain ⟨r, hr, himage⟩ := forall₂_mem_right hitems v hv
      exact ih r hr himage
  | hash basic entries ih =>
    cases h with
    | hash _ hentries =>
      apply OwnedValue.Prepared.dict
      intro p hp
      obtain ⟨q, hq, hentry⟩ := forall₂_mem_right hentries p hp
      cases hentry with
      | mk _ himage => exact (ih _ hq).2 himage
  | object basic ivars => cases h

theorem prepareInput_value {r : RubyValue} {mode : InputMode} {prepared : PreparedInput}
    {v : OwnedValue} (h : prepareInput r mode = .ok prepared)
    (hv : prepared.value x = some v) : v.Prepared := by
  obtain ⟨basic, bytes, source, rfl, rfl⟩ | ⟨w, rfl, himage⟩ := prepareInput_ok h
  · obtain ⟨json, -, rfl⟩ := Option.map_eq_some_iff.1 hv
    exact OwnedValue.fromJson_prepared json
  · cases hv
    exact himage.value_prepared

/-! ## The struct that comes out -/

variable {o : ValidationOptions} {e : TypeExpr} {root : Bool} {v : OwnedValue}

/-- A struct comes out of a struct, and a field is present exactly if its key is. -/
theorem Conv.struct_inv {names : List String} {values : List (Option OwnedValue)}
    {extras : Option OwnedDict} (hv : v.Prepared)
    (h : Conv o e root v (.struct ⟨names, values, extras⟩)) :
    ∃ map, v = .dict map ∧ e.rootNames = some names ∧
      List.Forall₂ (fun name value => value.isSome = (Validator.dictFind map name).isSome) names
        values := by
  induction e with
  | primitive p =>
    cases p with
    | any =>
      obtain rfl : _ = v := h
      cases hv
    | bool => obtain ⟨_, -, h⟩ := h; cases h
    | int c | float c | string c => obtain ⟨_, -, -, h⟩ := h; cases h
    | symbol => obtain ⟨_, -, h⟩ := h; cases h
  | enum => obtain ⟨_, -, -, h⟩ := h; cases h
  | optional inner ih =>
    obtain ⟨-, h⟩ | ⟨-, h⟩ := h
    · cases h
    · exact ih h
  | list | dict => obtain ⟨_, _, -, h, -⟩ := h; cases h
  | struct fields extra =>
    obtain ⟨map, _, _, rfl, h, hfields, -⟩ := h
    cases h
    refine ⟨map, rfl, rfl, ?_⟩
    rw [List.forall₂_map_left_iff]
    refine (convFields_iff.1 hfields).imp ?_
    intro f value hf
    obtain ⟨_, _, hfirst, rfl, -⟩ | ⟨hnone, rfl, -⟩ := hf
    · rw [hfirst.dictFind]
      rfl
    · rw [Validator.dictFind_eq_none.2 hnone]

/-! ## What an instance stores -/

def RubyValue.ivar : RubyValue → String → Option RubyValue
  | .object _ ivars, id => ivars.lookup id
  | _, _ => none

theorem lookup_cons_if {α : Type} (k id : String) (w : α) (ivars : List (String × α)) :
    List.lookup id ((k, w) :: ivars) = if id = k then some w else ivars.lookup id := by
  by_cases h : id = k
  · rw [if_pos h, h, List.lookup_cons_self]
  · rw [if_neg h, List.lookup_cons, beq_false_of_ne h]

theorem lookup_ivarSet {α : Type} (ivars : List (String × α)) (id id' : String) (value : α) :
    (ivarSet ivars id' value).lookup id = if id = id' then some value else ivars.lookup id := by
  induction ivars with
  | nil => rw [ivarSet, lookup_cons_if]
  | cons entry ivars ih =>
    obtain ⟨k, w⟩ := entry
    rw [ivarSet, lookup_cons_if]
    by_cases hk : k = id'
    · rw [if_pos hk, lookup_cons_if, hk]
      split <;> rfl
    · rw [if_neg hk, lookup_cons_if, ih]
      by_cases h : id = k
      · rw [if_pos h, if_neg (h ▸ hk), if_pos h]
      · rw [if_neg h, if_neg h]

theorem isSome_lookup_ivarSet {ivars : List (String × RubyValue)} {id : String}
    (h : (ivars.lookup id).isSome) (id' : String) (value : RubyValue) :
    ((ivarSet ivars id' value).lookup id).isSome := by
  rw [lookup_ivarSet]
  split
  · rfl
  · exact h

/-- The loop over the plan sets the instance variable of every entry that finds a value, and unsets
none. -/
theorem storeFields_stores {freezeMode : FreezeMode} {names : List String}
    {fields : List (Option OwnedValue)} {building building' : Building}
    {entries : List MaterializeEntry}
    (h : storeFields x freezeMode names fields building entries = .ok building') :
    (∀ id, (building.ivars.lookup id).isSome → (building'.ivars.lookup id).isSome) ∧
      ∀ entry ∈ entries, (planned names fields entry).isSome →
        (building'.ivars.lookup entry.ivarId).isSome := by
  induction entries generalizing building with
  | nil =>
    cases h
    exact ⟨fun _ hid => hid, fun _ hentry => nomatch hentry⟩
  | cons entry entries ih =>
    rw [List.forall_mem_cons]
    rw [storeFields] at h
    split at h
    next hnone =>
      obtain ⟨hkept, hstored⟩ := ih h
      exact ⟨hkept, fun hsome => by simp [hnone] at hsome, hstored⟩
    next =>
      obtain ⟨rubyValue, -, h⟩ := Fallible.bind_eq_ok.1 h
      obtain ⟨hkept, hstored⟩ := ih h
      refine ⟨fun id hid => hkept id (isSome_lookup_ivarSet hid _ _), fun _ => hkept _ ?_, hstored⟩
      rw [lookup_ivarSet, if_pos rfl]
      rfl

theorem storeExtras_ivars {freezeMode : FreezeMode} {building building' : Building}
    {extras : OwnedDict} (h : storeExtras x freezeMode building extras = .ok building') :
    building'.ivars = building.ivars := by
  induction extras generalizing building with
  | nil =>
    cases h
    rfl
  | cons extra extras ih =>
    obtain ⟨rubyValue, -, h⟩ := Fallible.bind_eq_ok.1 h
    split at h
    next => exact ih h
    next =>
      obtain ⟨keyValue, -, h⟩ := Fallible.bind_eq_ok.1 h
      have hivars := ih h
      exact hivars

theorem ivar_frozenAs (freezeMode : FreezeMode) (basic : RBasic)
    (ivars : List (String × RubyValue)) (id : String) :
    (frozenAs freezeMode (.object basic ivars)).ivar id = ivars.lookup id := by
  cases freezeMode <;> simp [frozenAs, RubyValue.freeze, RubyValue.deepFreeze, RubyValue.ivar]

theorem materializeInstance_stores {klass : String} {attrIvar : Option String}
    {names : List String} {fields : List (Option OwnedValue)} {extras : Option OwnedDict}
    {plan : MaterializePlan} {freezeMode : FreezeMode} {storeAttributes : Bool}
    {built : RubyValue}
    (h : materializeInstance x klass attrIvar (.struct ⟨names, fields, extras⟩) plan freezeMode
      storeAttributes = .ok built) :
    ∀ entry ∈ plan.entries, (planned names fields entry).isSome →
      (built.ivar entry.ivarId).isSome := by
  obtain ⟨building, hfields, h⟩ := Fallible.bind_eq_ok.1 h
  obtain ⟨building', hextras, h⟩ := Fallible.bind_eq_ok.1 h
  cases h
  intro entry hentry hsome
  have hstored := (storeFields_stores hfields).2 entry hentry hsome
  rw [← storeExtras_ivars hextras] at hstored
  rw [ivar_frozenAs]
  split
  next => exact isSome_lookup_ivarSet hstored _ _
  next => exact hstored

theorem fieldLookup_of_mem {names : List String} {name : String} (h : name ∈ names) :
    ∃ idx, fieldLookup names name = some idx ∧ names[idx]? = some name := by
  obtain ⟨i, hi⟩ := List.getElem?_of_mem h
  have hfind : (names.zipIdx.reverse.find? (·.1 == name)).isSome := by
    rw [List.find?_isSome]
    exact ⟨(name, i), List.mem_reverse.2 (List.mem_zipIdx_iff_getElem?.2 hi), beq_self_eq_true name⟩
  obtain ⟨⟨found, idx⟩, hfound⟩ := Option.isSome_iff_exists.1 hfind
  have hmem := List.mem_zipIdx_iff_getElem?.1
    (List.mem_reverse.1 (List.mem_of_find?_eq_some hfound))
  have heq : found = name := by simpa using List.find?_some hfound
  exact ⟨idx, by rw [fieldLookup, hfound]; rfl, heq ▸ hmem⟩

theorem planned_mem {names : List String} {values : List (Option OwnedValue)}
    (hlen : values.length = names.length) {name : String} (h : name ∈ names) :
    (name, planned names values (.named name)) ∈ names.zip values := by
  obtain ⟨idx, hlookup, hidx⟩ := fieldLookup_of_mem h
  have hlt : idx < values.length := hlen ▸ (List.getElem?_eq_some_iff.1 hidx).1
  have hfound := List.getElem?_eq_getElem hlt
  rw [planned, MaterializeEntry.named, hlookup, Option.bind_some, hfound, Option.join_some]
  exact List.mem_of_getElem? (List.getElem?_zip_eq_some.2 ⟨hidx, hfound⟩)

/-- Fields of one name are present together, so the lookup by name finds a value. -/
theorem planned_isSome {P : String → Bool} {names : List String}
    {values : List (Option OwnedValue)}
    (h : List.Forall₂ (fun name value => value.isSome = P name) names values) {name : String}
    {v : OwnedValue} (hmem : (name, some v) ∈ names.zip values) :
    (planned names values (.named name)).isSome := by
  obtain ⟨hlen, hzip⟩ := List.forall₂_iff_zip.1 h
  have hP : P name = true := (hzip hmem).symm
  exact (hzip (planned_mem hlen.symm (List.of_mem_zip hmem).1)).trans hP

/-! ## Agreement -/

/-- The plan has the names of the struct, in order, and an instance that is built from the struct
stores each present field. -/
structure CompiledSchema.Covers (x : Externals) (compiled : CompiledSchema)
    (structure_ : OwnedStruct OwnedValue) : Prop where
  names : compiled.plan.entries.map (·.name) = structure_.names
  stored : ∀ klass attrIvar freezeMode storeAttributes built,
    materializeInstance x klass attrIvar (.struct structure_) compiled.plan freezeMode
      storeAttributes = .ok built →
    ∀ name v, (name, some v) ∈ structure_.names.zip structure_.fields →
      (built.ivar ("@" ++ name)).isSome

/-- The root is optional, and the struct that it wraps has fields. -/
def TypeExpr.WrapsFields : TypeExpr → Prop
  | .optional inner => ∃ name names, inner.rootNames = some (name :: names)
  | _ => False

theorem TypeExpr.plannedNames_eq {names : List String} (hnames : e.rootNames = some names)
    (h : ¬ e.WrapsFields) : e.plannedNames = names := by
  match e, names with
  | .struct fields extra, _ => exact Option.some.inj hnames
  | .optional inner, [] => rfl
  | .optional inner, name :: names => exact absurd ⟨name, names, hnames⟩ h

/-- Around a struct every value but nil becomes a struct. -/
theorem Conv.struct_of_rootNames {w : OwnedValue} {names : List String}
    (hnames : e.rootNames = some names) (hv : v ≠ .null) (h : Conv o e root v w) :
    ∃ values extras, w = .struct ⟨names, values, extras⟩ := by
  induction e with
  | primitive | enum | list | dict => cases hnames
  | optional inner ih =>
    obtain ⟨rfl, -⟩ | ⟨-, h⟩ := h
    · exact absurd rfl hv
    · exact ih hnames h
  | struct fields extra =>
    obtain ⟨_, values, extras, -, rfl, -⟩ := h
    cases hnames
    exact ⟨values, extras, rfl⟩

/-- The plan covers the struct that a validation hands to the build, unless the root is an optional
around a struct with fields and the input is not nil. -/
theorem plan_covers_iff {schemaAst opts : RubyValue} {compiled : CompiledSchema}
    (hcompile : compile x schemaAst opts = .ok compiled) (o : ValidationOptions)
    {input : RubyValue} {prepared : PreparedInput}
    (hprepared : prepareInput input o.inputMode = .ok prepared) {w : OwnedValue}
    (hvalid : validatePreparedInput x compiled.ir prepared o = some ⟨some w, []⟩) :
    (∀ structure_, w = .struct structure_ → compiled.Covers x structure_) ↔
      ¬ ((compiled.ir.unfold compiled.ir.root).WrapsFields ∧ prepared.value x ≠ some .null) := by
  obtain ⟨v, hvalue, haccepts⟩ := validatePreparedInput_accepts_iff.1 hvalid
  have hv : v.Prepared := prepareInput_value hprepared hvalue
  have hplan := compile_plan hcompile
  rw [SchemaIr.accepts_iff] at haccepts
  rw [hvalue]
  constructor
  · intro hcovers ⟨hwraps, hnull⟩
    cases hroot : compiled.ir.unfold compiled.ir.root with
    | optional inner =>
      rw [hroot] at hwraps haccepts hplan
      obtain ⟨name, names, hnames⟩ := hwraps
      obtain ⟨values, extras, rfl⟩ :=
        Conv.struct_of_rootNames (e := .optional inner) hnames (fun h => hnull (h ▸ rfl)) haccepts
      have hempty := (hcovers _ rfl).names
      rw [hplan] at hempty
      cases hempty
    | _ =>
      rw [hroot] at hwraps
      exact hwraps
  · rintro hwraps ⟨names, values, extras⟩ rfl
    obtain ⟨map, rfl, hnames, hpresent⟩ := haccepts.struct_inv hv
    have hentries : compiled.plan.entries = names.map .named := by
      rw [hplan, TypeExpr.plannedNames_eq hnames fun h => hwraps ⟨h, nofun⟩]
    constructor
    · rw [hentries, List.map_map]
      exact List.map_id names
    · intro klass attrIvar freezeMode storeAttributes built hbuilt name v hmem
      have hentry : .named name ∈ compiled.plan.entries :=
        hentries ▸ List.mem_map_of_mem (List.of_mem_zip hmem).1
      exact materializeInstance_stores hbuilt _ hentry (planned_isSome hpresent hmem)

/-- A struct at the root. -/
theorem plan_covers_tag :
    tagSchema.Covers tagExternals ⟨["tag"], [some (.symbol "ab")], none⟩ := by
  obtain ⟨prepared, hprepared, hvalid⟩ := tag_validates "ab"
  have hroot : tagSchema.ir.arena.get tagSchema.ir.root =
    some (.struct [⟨"tag", .required, .new 0⟩] .forbid) := rfl
  refine (plan_covers_iff tagSchema_compiles {} hprepared hvalid).2 ?_ _ rfl
  rw [SchemaIr.unfold_of_get hroot]
  exact fun h => h.1

/-! ## An optional around the struct -/

def optionalTagSource : String :=
  "[\"optional\",\x7b\"fields\":[[\"required\",\"tag\",\"sym\"]],\"type\":\"struct\"\x7d]"

def optionalTagExternals : Externals :=
  .reading optionalTagSource
    (.array [.string "optional", .object [("fields", tagFields), ("type", .string "struct")]])

def optionalTagSchema : CompiledSchema where
  summary := optionalTagSource
  ir := buildIr (.optional (.struct [⟨"tag", .required, .primitive .symbol⟩] .forbid))
  plan := ⟨[]⟩
  options := {}

theorem optionalTagSchema_compiles :
    compile optionalTagExternals (.utf8Str optionalTagSource) .nil = .ok optionalTagSchema := by
  have hparsed : SchemaCompiler.parseTypeExpr optionalTagExternals
      (.object [("fields", tagFields), ("type", .string "struct")]) none "$.optional" =
      .ok (.struct [⟨"tag", .required, .primitive .symbol⟩] .forbid) :=
    parseTypeExpr_struct (by decide) (tagFields_parsed (by decide) _)
  refine compile_text rfl (by decide) rfl ?_ rfl rfl
  rw [SchemaDocument.fromValue, SchemaCompiler.parseTypeExpr, SchemaCompiler.parseArrayType.eq_def]
  change (SchemaCompiler.parseTypeExpr optionalTagExternals _ none "$.optional" >>= fun inner =>
    pure (TypeExpr.optional inner)) = _
  rw [hparsed]
  rfl

/-- The struct that comes out has a field, the plan has none. -/
theorem plan_not_covers : ¬ ∀ (x : Externals) (schemaAst opts : RubyValue)
    (compiled : CompiledSchema) (o : ValidationOptions) (input : RubyValue)
    (prepared : PreparedInput) (structure_ : OwnedStruct OwnedValue),
    compile x schemaAst opts = .ok compiled → prepareInput input o.inputMode = .ok prepared →
    validatePreparedInput x compiled.ir prepared o = some ⟨some (.struct structure_), []⟩ →
    compiled.plan.entries.map (·.name) = structure_.names := by
  intro h
  have hprepared := prepareInput_tag "ab"
  have hvalid : validatePreparedInput optionalTagExternals optionalTagSchema.ir
      (.owned (.dict [("tag", .string "ab")])) {} =
      some ⟨some (.struct ⟨["tag"], [some (.symbol "ab")], none⟩), []⟩ :=
    validatePreparedInput_accepts_iff.2 ⟨_, rfl, (buildIr_accepts_iff (by decide)).2
      (.inr ⟨nofun, conv_tag "ab"⟩)⟩
  exact absurd (h _ _ _ _ {} _ _ _ optionalTagSchema_compiles hprepared hvalid) (by decide)

end RustlyCore
