import RustlyCore.Schema.Slots

/-!
# Array and object notation

A type with options of its own is written as an array or as an object. A notation is given by what
both have in common: the tag, what stands next to it, and the options.
-/

namespace RustlyCore.SchemaCompiler

inductive Notated where
  | primitive (tag : String) (options : JsonMap)
  | list (elementType : JsonValue) (options : JsonMap)
  | dict (valueType : JsonValue) (options : JsonMap)
  | enum (variants : JsonValue)
  | struct (options : JsonMap)

namespace Notated

def asArray : Notated → JsonValue
  | primitive tag options => .array [.string tag, .object options]
  | list elementType options => .array [.string "list", elementType, .object options]
  | dict valueType options => .array [.string "dict", valueType, .object options]
  | enum variants => .array [.string "enum", variants]
  | struct options => .array [.string "struct", .object options]

/-- The object with these entries, merged with the options. -/
def typeObject (entries options : JsonMap) : JsonValue :=
  .object (mergeOptions (some entries) (some options))

def asObject : Notated → JsonValue
  | primitive tag options => typeObject [("type", .string tag)] options
  | list elementType options =>
    typeObject [("of", elementType), ("type", .string "list")] options
  | dict valueType options =>
    typeObject [("type", .string "dict"), ("values", valueType)] options
  | enum variants => typeObject [("type", .string "enum"), ("values", variants)] []
  | struct options => typeObject [("type", .string "struct")] options

def primitiveTags : List String := ["int", "integer", "float", "double", "str", "string"]

def WellFormed : Notated → Prop
  | primitive tag _ => tag ∈ primitiveTags
  | _ => True

/-- Slot by slot, a primitive type's options over the field options say what the field options say
alone; the other types take their options in both notations. -/
def Keeps (fieldOptions : Option JsonMap) : Notated → Prop
  | primitive tag options => ∀ kind, Kind.ofName tag = some kind → SlotsAgree kind
    (given fieldOptions) fun k => (latest options k).or (given fieldOptions k)
  | _ => True

end Notated

/-- Lower-case names stay as they are. -/
def KeepsTags (x : Externals) : Prop :=
  ∀ tag ∈ Notated.primitiveTags ++ ["list", "dict", "enum", "struct"], x.toLowercase tag = tag

open Notated

variable {x : Externals}

/-- Under any key but the type's, the options of an object notation are its entries, its options,
then the field options. -/
theorem get_objectOptions (entries options : JsonMap) (fieldOptions : Option JsonMap) {k : String}
    (hk : k ≠ "type") :
    (mergeOptions (some (inlineMapWithout (mergeOptions (some entries) (some options)) ["type"]))
      fieldOptions).get k =
        ((latest entries k).or (latest options k)).or (given fieldOptions k) := by
  rw [get_mergeOptions, given_some, latest_inlineMapWithout,
    latest_of_distinct (sorted_mergeOptions _ _).distinctKeys, get_mergeOptions]
  simp [hk]

/-- Where its entries hold nothing, the object notation reads what the array notation reads. -/
theorem get_objectOptions_rest (entries : JsonMap) {k : String} (hk : k ≠ "type")
    (hnone : latest entries k = none) (options : JsonMap) (fieldOptions : Option JsonMap) :
    (mergeOptions (some options) fieldOptions).get k =
      (mergeOptions (some (inlineMapWithout (mergeOptions (some entries) (some options)) ["type"]))
        fieldOptions).get k := by
  rw [get_objectOptions _ _ _ hk, hnone, Option.none_or, get_mergeOptions, given_some]

theorem read_typeObject {tag : String} {kind : Kind}
    (hkind : Kind.ofName (x.toLowercase tag) = some kind) {entries options : JsonMap}
    (htag : latest entries "type" = some (.string tag)) (fieldOptions : Option JsonMap) :
    read x (typeObject entries options) fieldOptions = readNamed x kind none
      (mergeOptions (some (inlineMapWithout (mergeOptions (some entries) (some options)) ["type"]))
        fieldOptions) := by
  have htype : ((mergeOptions (some entries) (some options)).get "type").bind JsonValue.asStr =
      some tag := by
    rw [get_mergeOptions, given_some, htag]
    rfl
  rw [read_eq, typeObject, head, htype, Option.bind_some, namedHead, hkind]
  rfl

/-- What stands next to the options in the array is an entry of the object. -/
theorem source_typeObject {key : String} (keys : List String) {entries : JsonMap}
    (value : JsonValue) (hk : key ≠ "type") (hvalue : latest entries key = some value)
    (options : JsonMap) (fieldOptions : Option JsonMap) :
    source none (key :: keys)
      (mergeOptions (some (inlineMapWithout (mergeOptions (some entries) (some options)) ["type"]))
        fieldOptions) = some value := by
  rw [source, Option.none_or, List.findSome?_cons, get_objectOptions _ _ _ hk, hvalue]
  rfl

section
variable (hx : KeepsTags x) (options : JsonMap) (fieldOptions : Option JsonMap)
include hx

theorem read_list (elementType : JsonValue) :
    read x (list elementType options).asArray fieldOptions =
      read x (list elementType options).asObject fieldOptions := by
  have hkind : Kind.ofName (x.toLowercase "list") = some .list := by rw [hx _ (by decide)]; rfl
  have hsizes := readCollections_congr
    (get_objectOptions_rest [("of", elementType), ("type", .string "list")] (by decide)
      (by simp [latest_cons]) options fieldOptions)
    (get_objectOptions_rest _ (by decide) (by simp [latest_cons]) options fieldOptions)
  rw [asObject, read_typeObject hkind (by simp [latest_cons]), read_eq]
  change readNamed x .list (some elementType) (mergeOptions (some options) fieldOptions) = _
  rw [readNamed, readNamed, hsizes,
    source_typeObject ["item"] elementType (by decide) (by simp [latest_cons])]
  rfl

theorem read_dict (valueType : JsonValue) :
    read x (dict valueType options).asArray fieldOptions =
      read x (dict valueType options).asObject fieldOptions := by
  have hkind : Kind.ofName (x.toLowercase "dict") = some .dict := by rw [hx _ (by decide)]; rfl
  have hsizes := readCollections_congr
    (get_objectOptions_rest [("type", .string "dict"), ("values", valueType)] (by decide)
      (by simp [latest_cons]) options fieldOptions)
    (get_objectOptions_rest _ (by decide) (by simp [latest_cons]) options fieldOptions)
  rw [asObject, read_typeObject hkind (by simp [latest_cons]), read_eq]
  change readNamed x .dict (some valueType) (mergeOptions (some options) fieldOptions) = _
  rw [readNamed, readNamed, hsizes,
    source_typeObject ["value"] valueType (by decide) (by simp [latest_cons])]
  rfl

omit options in
theorem read_enum (variants : JsonValue) :
    read x (enum variants).asArray fieldOptions = read x (enum variants).asObject fieldOptions := by
  have hkind : Kind.ofName (x.toLowercase "enum") = some .enum := by rw [hx _ (by decide)]; rfl
  rw [asObject, read_typeObject hkind (by simp [latest_cons]), read_eq]
  change readNamed x .enum (some variants) (mergeOptions fieldOptions none) = _
  rw [readNamed, readNamed,
    source_typeObject ["in"] variants (by decide) (by simp [latest_cons])]
  rfl

theorem read_struct :
    read x (struct options).asArray fieldOptions =
      read x (struct options).asObject fieldOptions := by
  have hkind : Kind.ofName (x.toLowercase "struct") = some .struct := by rw [hx _ (by decide)]; rfl
  rw [asObject, read_typeObject hkind (by simp [latest_cons]), read_eq]
  change readNamed x .struct none (mergeOptions (some options) fieldOptions) = _
  apply readNamed_congr
  intro k hk
  exact get_objectOptions_rest _ hk (by simp [latest_cons, hk]) options fieldOptions

theorem read_primitive {tag : String} (htag : tag ∈ primitiveTags) :
    ∃ kind, Kind.ofName tag = some kind ∧
      read x (primitive tag options).asArray fieldOptions =
        readNamed x kind none (mergeOptions none fieldOptions) ∧
      read x (primitive tag options).asObject fieldOptions =
        readNamed x kind none (mergeOptions (some options) fieldOptions) := by
  have hlower : x.toLowercase tag = tag := hx tag (List.mem_append_left _ htag)
  have harray : head x (primitive tag options).asArray fieldOptions =
      namedHead x tag (mergeOptions none fieldOptions) := by
    simp only [primitiveTags, List.mem_cons, List.not_mem_nil, or_false] at htag
    rcases htag with rfl | rfl | rfl | rfl | rfl | rfl <;> rfl
  obtain ⟨kind, hkind⟩ : ∃ kind, Kind.ofName tag = some kind := by
    simp only [primitiveTags, List.mem_cons, List.not_mem_nil, or_false] at htag
    rcases htag with rfl | rfl | rfl | rfl | rfl | rfl <;> exact ⟨_, rfl⟩
  refine ⟨kind, hkind, ?_, ?_⟩
  · rw [read_eq, harray, namedHead, hlower, hkind]
    rfl
  · rw [asObject, read_typeObject (hlower.symm ▸ hkind) (by simp [latest_cons])]
    apply readNamed_congr
    intro k hk
    exact (get_objectOptions_rest _ hk (by simp [latest_cons, hk]) options fieldOptions).symm

end

theorem agree_wrap {α β : Type} {wrap : α → PrimitiveType} {f : α → β}
    (hf : ∀ c d, (wrap c == wrap d) = true ↔ f c = f d) (a b : Option α) :
    Agree (a.bind fun c => some (.primitive (wrap c)))
      (b.bind fun c => some (.primitive (wrap c))) ↔ a.map f = b.map f := by
  cases a with
  | none =>
    cases b with
    | none => exact iff_of_true .none rfl
    | some d => exact iff_of_false (fun h => by cases h) (Option.some_ne_none _).symm
  | some c =>
    cases b with
    | none => exact iff_of_false (fun h => by cases h) (Option.some_ne_none _)
    | some d =>
      rw [Option.map_some, Option.map_some, Option.some_inj, ← hf]
      constructor
      · intro h
        cases h with
        | some h => exact h
      · intro h
        exact .some h

theorem beq_int (c d : IntConstraints) :
    (PrimitiveType.int c == .int d) = true ↔ id c = id d := by
  simp [PrimitiveType.beq_iff]

theorem beq_string (c d : StringConstraints) :
    (PrimitiveType.string c == .string d) = true ↔ id c = id d := by
  simp [PrimitiveType.beq_iff]

theorem beq_float (c d : FloatConstraints) :
    (PrimitiveType.float c == .float d) = true ↔ c.ranks = d.ranks :=
  FloatConstraints.beq_iff

/-- Two primitive types agree exactly if their slots do. -/
theorem agree_primitive_iff (tag : String) (options : JsonMap) (fieldOptions : Option JsonMap)
    {kind : Kind} (htag : tag ∈ primitiveTags) (hkind : Kind.ofName tag = some kind) :
    Agree (readNamed x kind none (mergeOptions none fieldOptions))
      (readNamed x kind none (mergeOptions (some options) fieldOptions)) ↔
      (primitive tag options).Keeps fieldOptions := by
  have hkeeps : (primitive tag options).Keeps fieldOptions ↔ SlotsAgree kind
      (mergeOptions none fieldOptions).get (mergeOptions (some options) fieldOptions).get := by
    have hnone : (mergeOptions none fieldOptions).get = given fieldOptions :=
      funext fun k => get_mergeOptions none fieldOptions k
    have hsome : (mergeOptions (some options) fieldOptions).get =
        fun k => (latest options k).or (given fieldOptions k) :=
      funext fun k => get_mergeOptions (some options) fieldOptions k
    rw [hnone, hsome]
    simp only [Keeps, hkind, Option.some.injEq, forall_eq']
  have hint := agree_wrap beq_int (readInts (mergeOptions none fieldOptions))
    (readInts (mergeOptions (some options) fieldOptions))
  have hfloat := agree_wrap beq_float
    (readFloats (mergeOptions none fieldOptions))
    (readFloats (mergeOptions (some options) fieldOptions))
  have hstring := agree_wrap beq_string (readStrings (mergeOptions none fieldOptions))
    (readStrings (mergeOptions (some options) fieldOptions))
  rw [Option.map_id, id, id, readInts_eq_iff] at hint
  rw [ranks_eq_iff] at hfloat
  rw [Option.map_id, id, id, readStrings_eq_iff] at hstring
  rw [hkeeps]
  simp only [primitiveTags, List.mem_cons, List.not_mem_nil, or_false] at htag
  rcases htag with rfl | rfl | rfl | rfl | rfl | rfl <;> cases hkind
  · exact hint
  · exact hint
  · exact hfloat
  · exact hfloat
  · exact hstring
  · exact hstring

/-- The two notations of a type mean the same exactly if a primitive type loses no constraint. -/
theorem notations_agree_iff (hx : KeepsTags x) (n : Notated) (hn : n.WellFormed)
    (fieldOptions : Option JsonMap) (path : String) :
    Agree (parseTypeExpr x n.asArray fieldOptions path).toOption
      (parseTypeExpr x n.asObject fieldOptions path).toOption ↔ n.Keeps fieldOptions := by
  rw [parseTypeExpr_toOption, parseTypeExpr_toOption]
  cases n with
  | primitive tag options =>
    obtain ⟨kind, hkind, harray, hobject⟩ := read_primitive hx options fieldOptions hn
    rw [harray, hobject]
    exact agree_primitive_iff tag options fieldOptions hn hkind
  | list elementType options =>
    rw [read_list hx]
    exact iff_of_true (.refl _) trivial
  | dict valueType options =>
    rw [read_dict hx]
    exact iff_of_true (.refl _) trivial
  | enum variants =>
    rw [read_enum hx]
    exact iff_of_true (.refl _) trivial
  | struct options =>
    rw [read_struct hx]
    exact iff_of_true (.refl _) trivial

theorem notations_agree_iff_str :
    let x := Externals.reading "" .null
    let n := primitive "str" [("min_size", .number (.posInt 1))]
    let fieldOptions : Option JsonMap := some [("min_size", .number (.posInt 1))]
    KeepsTags x ∧ n.WellFormed ∧ n.Keeps fieldOptions ∧
      Agree (parseTypeExpr x n.asArray fieldOptions "$").toOption
        (parseTypeExpr x n.asObject fieldOptions "$").toOption := by
  intro x n fieldOptions
  have hx : KeepsTags x := by
    rw [KeepsTags]
    decide
  have hn : n.WellFormed := show "str" ∈ primitiveTags by decide
  have hkeeps : n.Keeps fieldOptions := by
    intro kind hkind
    cases hkind
    refine .inl fun k hk => ?_
    simp only [slotKeys, List.mem_cons, List.not_mem_nil, or_false] at hk
    obtain rfl | rfl | rfl := hk <;> rfl
  exact ⟨hx, hn, hkeeps, (notations_agree_iff hx n hn fieldOptions "$").2 hkeeps⟩

/-- The array notation of an integer loses its bound. -/
theorem notations_differ :
    let x := Externals.reading "" .null
    let options : JsonMap := [("min", .number (.posInt 1))]
    ¬ Agree (parseTypeExpr x (.array [.string "int", .object options]) none "$").toOption
      (parseTypeExpr x (.object (("type", .string "int") :: options)) none "$").toOption := by
  intro x options h
  have harray : read x (.array [.string "int", .object options]) none =
      some (.primitive (.int {})) := by
    rw [read_eq]
    rfl
  have hobject : read x (.object (("type", .string "int") :: options)) none =
      some (.primitive (.int ⟨some 1, none⟩)) := by
    rw [read_eq]
    rfl
  rw [parseTypeExpr_toOption, parseTypeExpr_toOption, harray, hobject] at h
  cases h with
  | some h =>
    have hbeq : (PrimitiveType.int {} == .int ⟨some 1, none⟩) = true := h
    exact absurd hbeq (by decide)

end RustlyCore.SchemaCompiler
