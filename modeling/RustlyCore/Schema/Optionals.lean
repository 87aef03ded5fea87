import RustlyCore.Schema.FieldOptions
import RustlyCore.Schema.Slots

/-!
# The two notations of an optional

The object notation does not hand field options on. So an inner type reads the same in both
notations where the options have nothing to say to the node below. Whether they have is a matter of
what the two maps hold under the keys that the node reads.
-/

namespace RustlyCore.SchemaCompiler

variable {x : Externals}

/-- The inline options set every slot that the field options hold, or these hold the default. -/
def Covered (kind : Kind) (o₀ fieldOptions : JsonMap) : Prop :=
  ∀ k ∈ slotKeys kind, o₀.get k = none →
    fieldOptions.get k = none ∨ kind = .struct ∧ fieldOptions.get k = some (.string "forbid")

/-- The keys that the one part of a node stands under. -/
def partKeys : Kind → List String
  | .enum => ["values", "in"]
  | .list => ["of", "item"]
  | .dict => ["values", "value"]
  | .optional => ["of"]
  | .struct => ["fields"]
  | _ => []

/-- What the part is read from. A struct takes no value next to its options. -/
def partSource (kind : Kind) (apart : Option JsonValue) (o : JsonMap) : Option JsonValue :=
  source (if kind = .struct then none else apart) (partKeys kind) o

/-- The part is read from the same value with the field options and without. -/
def PartKept (kind : Kind) (apart : Option JsonValue) (o₀ fieldOptions : JsonMap) : Prop :=
  partSource kind apart o₀ = partSource kind apart (mergeOptions (some o₀) (some fieldOptions))

/-- The part is nowhere. -/
def PartMissing (kind : Kind) (apart : Option JsonValue) (o₀ fieldOptions : JsonMap) : Prop :=
  partKeys kind ≠ [] ∧ partSource kind apart (mergeOptions (some o₀) (some fieldOptions)) = none

/-- The field options say nothing new to a node that has `o₀` of its own, or leave it ill-formed. -/
def Silent (kind : Kind) (apart : Option JsonValue) (o₀ fieldOptions : JsonMap) : Prop :=
  IllFormed kind o₀.get ∨ PartMissing kind apart o₀ fieldOptions ∨
    (Covered kind o₀ fieldOptions ∧ PartKept kind apart o₀ fieldOptions)

variable (x) in
/-- `p` of the node below the optionals in array notation, if there is one. -/
def AtNode (p : Kind → Option JsonValue → JsonMap → Prop) (value : JsonValue) : Prop :=
  ∀ kind apart o₀, head x (target value) none = some (.named kind apart o₀) → p kind apart o₀

variable (x) in
def SilentAt (value : JsonValue) (fieldOptions : JsonMap) : Prop :=
  AtNode x (Silent · · · fieldOptions) value

variable (x) in
def PartKeptAt (value : JsonValue) (fieldOptions : JsonMap) : Prop :=
  AtNode x (PartKept · · · fieldOptions) value

/-! ## Nodes that cannot be read -/

theorem source_single (key : String) (o : JsonMap) : source none [key] o = o.get key := by
  cases h : o.get key <;> simp [source, h]

variable (x) in
/-- The part of a node can be read from this. -/
def PartReads : Kind → Option JsonValue → Prop
  | .enum, value => ∃ variants, readVariants value = some variants
  | .list, value | .dict, value | .optional, value =>
    ∃ type e, value = some type ∧ read x type none = some e
  | .struct, value => ∃ type fields, value = some type ∧ readFields x type = some fields
  | _, _ => True

section
variable {kind : Kind} {apart : Option JsonValue} {o : JsonMap}

/-- The slots and the part of a node are read apart from each other. -/
theorem readNamed_isSome_iff : (∃ e, readNamed x kind apart o = some e) ↔
    ¬ IllFormed kind o.get ∧ PartReads x kind (partSource kind apart o) := by
  cases kind with
  | any | bool | symbol => simp [readNamed, IllFormed, slotKeys, PartReads]
  | int =>
    rw [readNamed, ← readInts_eq_none]
    cases readInts o <;> simp [PartReads]
  | float =>
    rw [readNamed, ← readFloats_eq_none]
    cases readFloats o <;> simp [PartReads]
  | string =>
    rw [readNamed, ← readStrings_eq_none]
    cases readStrings o <;> simp [PartReads]
  | enum => simp [readNamed, PartReads, IllFormed, slotKeys, partSource, partKeys]
  | list =>
    have hsource : source apart ["of", "item"] o = partSource .list apart o := rfl
    rw [readNamed, ← readCollections_eq_none o (.inl rfl), hsource, PartReads]
    cases partSource .list apart o with
    | none => simp
    | some type => cases hof : read x type none <;> cases readCollections o <;> simp [hof]
  | dict =>
    have hsource : source apart ["values", "value"] o = partSource .dict apart o := rfl
    rw [readNamed, ← readCollections_eq_none o (.inr rfl), hsource, PartReads]
    cases partSource .dict apart o with
    | none => simp
    | some type => cases hof : read x type none <;> cases readCollections o <;> simp [hof]
  | optional =>
    have hsource : source apart ["of"] o = partSource .optional apart o := rfl
    rw [readNamed, hsource, PartReads]
    cases partSource .optional apart o with
    | none => simp
    | some type => cases hof : read x type none <;> simp [hof, IllFormed, slotKeys]
  | struct =>
    have hsource : o.get "fields" = partSource .struct apart o := (source_single "fields" o).symm
    rw [readNamed, ← readExtra_eq_none, hsource, PartReads]
    cases partSource .struct apart o with
    | none => simp
    | some type =>
      cases hfields : readFields x type <;> cases readExtra (o.get "extra") <;> simp [hfields]

theorem readNamed_illFormed (h : IllFormed kind o.get) : readNamed x kind apart o = none := by
  by_contra hread
  exact (readNamed_isSome_iff.1 (Option.ne_none_iff_exists'.1 hread)).1 h

theorem readNamed_missing (hkeys : partKeys kind ≠ []) (h : partSource kind apart o = none) :
    readNamed x kind apart o = none := by
  by_contra hread
  have hpart := (readNamed_isSome_iff.1 (Option.ne_none_iff_exists'.1 hread)).2
  rw [h] at hpart
  cases kind with
  | any | bool | int | float | string | symbol => exact hkeys rfl
  | enum | list | dict | optional | struct => simp [PartReads, readVariants] at hpart

end

theorem readExtra_forbid {value : JsonValue} (h : readExtra (some value) = some .forbid) :
    value = .string "forbid" := by
  rw [readExtra.eq_def] at h
  split at h <;> simp_all

section
variable {kind : Kind} {apart : Option JsonValue} {fieldOptions o₀ o : JsonMap}
  (hdistinct : fieldOptions.DistinctKeys) (hover : Over fieldOptions o₀ o)
include hdistinct hover

/-- What the inline options hold, the field options do not change. -/
theorem IllFormed.over (h : IllFormed kind o₀.get) : IllFormed kind o.get := by
  obtain ⟨k, hk, value, hvalue, hslot⟩ := h
  refine ⟨k, hk, value, ?_, hslot⟩
  rw [Over.get_eq hdistinct hover, hvalue, Option.some_or]

theorem partSource_missing (h : partSource kind apart o = none) :
    partSource kind apart o₀ = none := by
  rw [partSource, source, Option.or_eq_none_iff, List.findSome?_eq_none_iff] at h ⊢
  refine ⟨h.1, fun k hk => ?_⟩
  have hnone := h.2 k hk
  rw [Over.get_eq hdistinct hover, Option.or_eq_none_iff] at hnone
  exact hnone.1

/-! ## Covered slots -/

theorem Covered.get (h : Covered kind o₀ fieldOptions) (hne : kind ≠ .struct) {k : String}
    (hk : k ∈ slotKeys kind) : o₀.get k = o.get k := by
  rw [Over.get_eq hdistinct hover]
  cases hinline : o₀.get k with
  | some value => rfl
  | none =>
    obtain hnone | ⟨hstruct, -⟩ := h k hk hinline
    · rw [hnone, Option.none_or]
    · exact absurd hstruct hne

theorem Covered.extra (h : Covered .struct o₀ fieldOptions) :
    readExtra (o₀.get "extra") = readExtra (o.get "extra") := by
  rw [Over.get_eq hdistinct hover]
  cases hinline : o₀.get "extra" with
  | some value => rfl
  | none =>
    obtain hnone | ⟨-, hdefault⟩ := h "extra" (List.mem_singleton_self _) hinline
    · rw [hnone, Option.none_or]
    · rw [hdefault, Option.none_or]
      rfl

/-- Slots that say the same with the field options and without are not set by these alone. -/
theorem covered_of_readSlots (hwell : ¬ IllFormed kind o₀.get)
    (h : readSlots kind o₀.get = readSlots kind o.get) : Covered kind o₀ fieldOptions := by
  obtain hsame | ⟨hill, -⟩ := readSlots_eq_iff.1 h
  · intro k hk hnone
    have hk := hsame k hk
    rw [Over.get_eq hdistinct hover, hnone, Option.none_or, Option.map_none, eq_comm,
      Option.map_eq_none_iff] at hk
    exact .inl hk
  · exact absurd hill hwell

theorem covered_of_readExtra (h : readExtra (o₀.get "extra") = readExtra (o.get "extra")) :
    Covered .struct o₀ fieldOptions := by
  intro k hk hnone
  obtain rfl := List.mem_singleton.1 hk
  rw [Over.get_eq hdistinct hover, hnone, Option.none_or] at h
  cases hfield : fieldOptions.get "extra" with
  | none => exact .inl rfl
  | some value =>
    rw [hfield] at h
    rw [readExtra_forbid h.symm]
    exact .inr ⟨rfl, rfl⟩

/-- Two accepted nodes that are equal have the field options' slots covered. -/
theorem covered_of_same {e₀ e : TypeExpr} (h₀ : readNamed x kind apart o₀ = some e₀)
    (h : readNamed x kind apart o = some e) (hs : e₀.Same e) : Covered kind o₀ fieldOptions := by
  have hwell : ¬ IllFormed kind o₀.get := by
    intro hill
    cases (readNamed_illFormed hill).symm.trans h₀
  have hslots := covered_of_readSlots hdistinct hover hwell
  cases ReadsNamed.of_read h₀ with
  | any | bool | symbol | enum | optional => exact hslots rfl
  | int hc₀ =>
    cases ReadsNamed.of_read h with
    | int hc =>
      obtain heq | ⟨_, _, heq, -⟩ := PrimitiveType.beq_iff.1 hs
      · cases heq
        exact hslots (by rw [readSlots_int, readSlots_int, hc₀, hc])
      · cases heq
  | float hc₀ =>
    cases ReadsNamed.of_read h with
    | float hc =>
      have hranks := FloatConstraints.beq_iff.1 hs
      refine hslots ?_
      rw [readSlots_float, readSlots_float, hc₀, hc, Option.map_some, Option.map_some, hranks]
  | string hc₀ =>
    cases ReadsNamed.of_read h with
    | string hc =>
      obtain heq | ⟨_, _, heq, -⟩ := PrimitiveType.beq_iff.1 hs
      · cases heq
        exact hslots (by rw [readSlots_string, readSlots_string, hc₀, hc])
      · cases heq
  | list _ _ hc₀ =>
    cases ReadsNamed.of_read h with
    | list _ _ hc =>
      obtain ⟨-, rfl⟩ := hs
      refine hslots ?_
      rw [readSlots_sizes _ (.inl rfl), readSlots_sizes _ (.inl rfl), hc₀, hc]
  | dict _ _ hc₀ =>
    cases ReadsNamed.of_read h with
    | dict _ _ hc =>
      obtain ⟨-, rfl⟩ := hs
      refine hslots ?_
      rw [readSlots_sizes _ (.inr rfl), readSlots_sizes _ (.inr rfl), hc₀, hc]
  | struct _ hextra₀ _ =>
    cases ReadsNamed.of_read h with
    | struct _ hextra _ =>
      obtain ⟨-, rfl⟩ := hs
      exact covered_of_readExtra hdistinct hover (hextra₀.trans hextra.symm)

theorem readNamed_covered (hc : Covered kind o₀ fieldOptions)
    (hp : partSource kind apart o₀ = partSource kind apart o) :
    readNamed x kind apart o₀ = readNamed x kind apart o := by
  have hget (hne : kind ≠ .struct) {k : String} (hk : k ∈ slotKeys kind) :=
    Covered.get hdistinct hover hc hne hk
  cases kind with
  | any | bool | symbol => rfl
  | int =>
    rw [readNamed, readNamed, readInts, readInts, hget (by decide) (by decide),
      hget (by decide) (by decide)]
  | float =>
    rw [readNamed, readNamed, readFloats, readFloats, hget (by decide) (by decide),
      hget (by decide) (by decide)]
  | string =>
    rw [readNamed, readNamed, readStrings, readStrings, hget (by decide) (by decide),
      hget (by decide) (by decide), hget (by decide) (by decide)]
  | enum =>
    have hsource : source apart ["values", "in"] o₀ = source apart ["values", "in"] o := hp
    rw [readNamed, readNamed, hsource]
  | list =>
    have hsource : source apart ["of", "item"] o₀ = source apart ["of", "item"] o := hp
    have hsizes := readCollections_congr (hget (by decide) (by decide))
      (hget (by decide) (by decide))
    rw [readNamed, readNamed, hsource, hsizes]
  | dict =>
    have hsource : source apart ["values", "value"] o₀ = source apart ["values", "value"] o := hp
    have hsizes := readCollections_congr (hget (by decide) (by decide))
      (hget (by decide) (by decide))
    rw [readNamed, readNamed, hsource, hsizes]
  | optional =>
    have hsource : source apart ["of"] o₀ = source apart ["of"] o := hp
    rw [readNamed, readNamed, hsource]
  | struct =>
    have hfields : source none ["fields"] o₀ = source none ["fields"] o := hp
    rw [source_single, source_single] at hfields
    rw [readNamed, readNamed, hfields, Covered.extra hdistinct hover hc]

/-- Field options that keep the part of a node do not make it readable. -/
theorem readNamed_kept {e : TypeExpr} (h : readNamed x kind apart o = some e)
    (hp : partSource kind apart o₀ = partSource kind apart o) :
    ∃ e₀, readNamed x kind apart o₀ = some e₀ := by
  obtain ⟨hwell, hpart⟩ := readNamed_isSome_iff.1 ⟨e, h⟩
  refine readNamed_isSome_iff.2 ⟨fun hill => hwell (hill.over hdistinct hover), ?_⟩
  rwa [hp]

end

/-! ## The node below the optionals -/

theorem Over.merged {fieldOptions o₀ o : JsonMap} (hover : Over fieldOptions o₀ o) :
    Over fieldOptions o₀ (mergeOptions (some o₀) (some fieldOptions)) := by
  refine ⟨hover.distinct, fun k => ?_⟩
  rw [get_mergeOptions, given_some, given_some, latest_of_distinct hover.distinct]

theorem Over.readNamed_merged {fieldOptions o₀ o : JsonMap} (hover : Over fieldOptions o₀ o)
    (kind : Kind) (apart : Option JsonValue) : readNamed x kind apart o =
      readNamed x kind apart (mergeOptions (some o₀) (some fieldOptions)) := by
  apply readNamed_congr
  intro k _
  rw [hover.get, hover.merged.get]

section
variable {fieldOptions : JsonMap} (hdistinct : fieldOptions.DistinctKeys)
include hdistinct

theorem readNamed_silent {kind : Kind} {apart : Option JsonValue} {o₀ o : JsonMap}
    (hover : Over fieldOptions o₀ o) (h : Silent kind apart o₀ fieldOptions) :
    readNamed x kind apart o₀ = readNamed x kind apart o := by
  rw [hover.readNamed_merged]
  obtain hill | ⟨hkeys, hmissing⟩ | ⟨hcovered, hkept⟩ := h
  · rw [readNamed_illFormed hill, readNamed_illFormed (hill.over hdistinct hover.merged)]
  · rw [readNamed_missing hkeys hmissing,
      readNamed_missing hkeys (partSource_missing hdistinct hover.merged hmissing)]
  · exact readNamed_covered hdistinct hover.merged hcovered hkept

/-- Field options that are silent at the node do not change the type. -/
theorem read_silent {value : JsonValue} (h : SilentAt x value fieldOptions) :
    read x value none = read x value (some fieldOptions) := by
  rw [SilentAt, AtNode] at h
  fun_induction target value with
  | case1 innerType rest ih => rw [read_optional, read_optional, ih h]
  | case2 value hne =>
    rcases read_over (x := x) hne fieldOptions with
      ⟨-, h₀, hover⟩ | ⟨kind, apart, o₀, o, hover, hhead, h₀, hread⟩
    · rw [h₀, hover]
    · rw [h₀, hread]
      exact readNamed_silent hdistinct hover (h kind apart o₀ hhead)

theorem read_rejected {value : JsonValue} (hkept : PartKeptAt x value fieldOptions)
    (h : read x value none = none) : read x value (some fieldOptions) = none := by
  rw [PartKeptAt, AtNode] at hkept
  fun_induction target value with
  | case1 innerType rest ih =>
    rw [read_optional, Option.map_eq_none_iff] at h ⊢
    exact ih hkept h
  | case2 value hne =>
    rcases read_over (x := x) hne fieldOptions with
      ⟨-, -, hover⟩ | ⟨kind, apart, o₀, o, hover, hhead, h₀, hread⟩
    · exact hover
    · rw [hread, hover.readNamed_merged]
      rw [h₀] at h
      cases hmerged : readNamed x kind apart (mergeOptions (some o₀) (some fieldOptions)) with
      | none => rfl
      | some e =>
        obtain ⟨e₀, he₀⟩ :=
          readNamed_kept hdistinct hover.merged hmerged (hkept kind apart o₀ hhead)
        cases h.symm.trans he₀

/-- Where the field options keep the part of the node, they are silent, or the type is rejected
without them, or they change it. -/
theorem agree_iff_silent {value : JsonValue} (hkept : PartKeptAt x value fieldOptions) :
    Agree (read x value none) (read x value (some fieldOptions)) ↔
      SilentAt x value fieldOptions ∨ read x value none = none := by
  constructor
  · intro h
    rw [PartKeptAt, AtNode] at hkept
    rw [SilentAt, AtNode]
    fun_induction target value with
    | case1 innerType rest ih =>
      rw [read_optional, Option.map_eq_none_iff]
      rw [read_optional, read_optional] at h
      exact ih hkept ((optionRel_map (r := TypeExpr.Same) (f := .optional) (g := .optional)).1 h)
    | case2 value hne =>
      rcases read_over (x := x) hne fieldOptions with
        ⟨-, h₀, -⟩ | ⟨kind, apart, o₀, o, hover, hhead, h₀, hread⟩
      · exact .inr h₀
      · rw [h₀]
        rw [h₀, hread, hover.readNamed_merged] at h
        cases hnode : readNamed x kind apart o₀ with
        | none => exact .inr rfl
        | some e =>
          rw [hnode] at h
          generalize hmerged : readNamed x kind apart _ = m at h
          cases h with
          | some hs =>
            refine .inl fun kind' apart' o₀' hhead' => ?_
            cases hhead.symm.trans hhead'
            exact .inr (.inr ⟨covered_of_same hdistinct hover.merged hnode hmerged hs,
              hkept kind apart o₀ hhead⟩)
  · rintro (hsilent | hrejected)
    · rw [read_silent hdistinct hsilent]
      exact .refl _
    · rw [read_rejected hdistinct hkept hrejected, hrejected]
      exact .none

end

/-! ## The two notations -/

/-- An optional in object notation reads its inner type without the field options. -/
theorem read_object_optional (hx : x.toLowercase "optional" = "optional") (innerType : JsonValue)
    (options : Option JsonMap) :
    read x (.object [("of", innerType), ("type", .string "optional")]) options =
      (read x innerType none).map .optional := by
  have hkind : Kind.ofName (x.toLowercase "optional") = some .optional := by rw [hx]; rfl
  have hof : (mergeOptions (some (inlineMapWithout
      [("of", innerType), ("type", .string "optional")] ["type"])) options).get "of" =
      some innerType := by
    simp [get_mergeOptions, latest_inlineMapWithout, latest_cons]
  rw [read_eq]
  change Option.bind (Option.map _ (Kind.ofName (x.toLowercase "optional"))) _ = _
  rw [hkind, Option.map_some, Option.bind_some, readHead, readNamed, source, Option.none_or,
    List.findSome?_cons, hof]
  change (read x innerType none).bind _ = _
  cases read x innerType none <;> rfl

def presenceText : StructFieldPresence → String
  | .required => "required"
  | .optional => "optional"

def fieldEntry (presence : StructFieldPresence) (name : String) (type : JsonValue)
    (fieldOptions : JsonMap) : JsonValue :=
  .array [.string (presenceText presence), .string name, type, .object fieldOptions]

def arrayOptional (innerType : JsonValue) : JsonValue := .array [.string "optional", innerType]

def objectOptional (innerType : JsonValue) : JsonValue :=
  .object [("of", innerType), ("type", .string "optional")]

theorem readField_entry (presence : StructFieldPresence) (name : String) (type : JsonValue)
    (options : JsonMap) : readField x (fieldEntry presence name type options) =
      (read x type (some options)).map fun ty => ⟨name, presence, ty⟩ := by
  rw [Option.map_eq_bind]
  cases presence <;> rfl

/-- Both are rejected, or both are accepted with equal types. -/
def AgreeFields (a b : Parse (FieldExpr TypeExpr)) : Prop :=
  Option.Rel (fun f g => f.ty.Same g.ty) a.toOption b.toOption

theorem agreeFields_iff (hx : x.toLowercase "optional" = "optional")
    (presence : StructFieldPresence) (name : String) (innerType : JsonValue)
    (fieldOptions : JsonMap) (path : String) :
    AgreeFields
      (parseFieldEntry x (fieldEntry presence name (objectOptional innerType) fieldOptions) path)
      (parseFieldEntry x (fieldEntry presence name (arrayOptional innerType) fieldOptions) path) ↔
      Agree (read x innerType none) (read x innerType (some fieldOptions)) := by
  rw [AgreeFields, parseFieldEntry_read, parseFieldEntry_read, readField_entry, readField_entry,
    objectOptional, read_object_optional hx, arrayOptional, read_optional, Option.map_map,
    Option.map_map]
  exact optionRel_map

/-- The two notations of an optional field mean the same if the field options are silent at the type
below the optionals in array notation. Where they do not replace the part of that type, this is so
only then, or if the type is no type by itself. -/
theorem optional_notations_agree (hx : x.toLowercase "optional" = "optional")
    {fieldOptions : JsonMap} (hdistinct : fieldOptions.DistinctKeys)
    (presence : StructFieldPresence) (name : String) (innerType : JsonValue) (path : String) :
    (SilentAt x innerType fieldOptions → AgreeFields
      (parseFieldEntry x (fieldEntry presence name (objectOptional innerType) fieldOptions) path)
      (parseFieldEntry x (fieldEntry presence name (arrayOptional innerType) fieldOptions) path)) ∧
    (PartKeptAt x innerType fieldOptions → (AgreeFields
        (parseFieldEntry x (fieldEntry presence name (objectOptional innerType) fieldOptions) path)
        (parseFieldEntry x (fieldEntry presence name (arrayOptional innerType) fieldOptions) path) ↔
      SilentAt x innerType fieldOptions ∨
        (parseTypeExpr x innerType none path).toOption = none)) := by
  rw [agreeFields_iff hx, parseTypeExpr_toOption]
  constructor
  · intro hsilent
    rw [read_silent hdistinct hsilent]
    exact .refl _
  · exact agree_iff_silent hdistinct

/-- The inner type has a bound of its own. -/
theorem optional_notations_agree_int :
    let x := Externals.reading "" .null
    let innerType : JsonValue :=
      .object [("min", .number (.posInt 2)), ("type", .string "int")]
    let fieldOptions : JsonMap := [("min", .number (.posInt 1))]
    AgreeFields
      (parseFieldEntry x (fieldEntry .required "age" (objectOptional innerType) fieldOptions) "$")
      (parseFieldEntry x (fieldEntry .required "age" (arrayOptional innerType) fieldOptions)
        "$") := by
  intro x innerType fieldOptions
  have hdistinct : fieldOptions.DistinctKeys := List.pairwise_singleton _ _
  refine (optional_notations_agree (by decide) hdistinct .required "age" innerType "$").1 ?_
  intro kind apart o₀ hhead
  cases hhead
  refine .inr (.inr ⟨fun k hk hnone => ?_, rfl⟩)
  simp only [slotKeys, List.mem_cons, List.not_mem_nil, or_false] at hk
  obtain rfl | rfl := hk
  · cases hnone
  · exact .inl rfl

/-- The bound reaches the inner type in array notation only. -/
theorem optional_notations_differ :
    let x := Externals.reading "" .null
    let fieldOptions : JsonMap := [("min", .number (.posInt 1))]
    ¬ AgreeFields
      (parseFieldEntry x (.array [.string "required", .string "age",
        .object [("of", .string "int"), ("type", .string "optional")], .object fieldOptions]) "$")
      (parseFieldEntry x (.array [.string "required", .string "age",
        .array [.string "optional", .string "int"], .object fieldOptions]) "$") := by
  intro x fieldOptions h
  have hplain : read x (.string "int") none = some (.primitive (.int {})) := by
    rw [read_eq]
    rfl
  have hbound : read x (.string "int") (some fieldOptions) =
      some (.primitive (.int ⟨some 1, none⟩)) := by
    rw [read_eq]
    rfl
  have hagree := (agreeFields_iff (x := x) (by decide) .required "age" (.string "int") fieldOptions
    "$").1 h
  rw [hplain, hbound] at hagree
  cases hagree with
  | some hsame =>
    have hbeq : (PrimitiveType.int {} == .int ⟨some 1, none⟩) = true := hsame
    exact absurd hbeq (by decide)

end RustlyCore.SchemaCompiler
