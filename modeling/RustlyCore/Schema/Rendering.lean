import RustlyCore.Schema.Names
import RustlyCore.Validation.Check

/-!
# A notation for every type expression

The object notation can say each type expression that the parser can return: an expression that is
written down in it is read back. What the parser returns has nonempty enums without repetitions,
sizes that fit in 64 bits and finite bounds, and every such expression is returned for some text.
-/

namespace RustlyCore

theorem JsonNumber.asI64_ofI64 (i : Int64) : (JsonNumber.ofI64 i).asI64 = some i := by
  rw [ofI64]
  split
  next => rfl
  next hle =>
    have hpos : 0 ≤ i := Int64.not_lt.1 hle
    have hmax : i.toUInt64.toNat ≤ Int64.maxValue.toInt.toNat := by
      rw [Int64.toNat_toUInt64_of_le hpos]
      exact Int.toNat_le_toNat (Int64.le_iff_toInt_le.1 (Int64.le_maxValue i))
    rw [asI64, if_pos hmax, Int64.toInt64_toUInt64]

/-! ## Objects -/

namespace JsonMap

/-- The entries that are there. -/
def present (entries : List (String × Option JsonValue)) : JsonMap :=
  entries.filterMap fun entry => entry.2.map (entry.1, ·)

@[simp] theorem get_present_cons (key : String) (value : Option JsonValue)
    (entries : List (String × Option JsonValue)) (k : String) :
    get (present ((key, value) :: entries)) k =
      if k = key then value.or (get (present entries) k) else get (present entries) k := by
  cases value with
  | none => simp [present]
  | some value =>
    change get ((key, value) :: present entries) k = _
    rw [get_cons]
    rfl

@[simp] theorem get_present_nil (k : String) : get (present []) k = none := rfl

theorem keys_present_sublist (entries : List (String × Option JsonValue)) :
    ((present entries).map (·.1)).Sublist (entries.map (·.1)) := by
  induction entries with
  | nil => exact .slnil
  | cons entry entries ih =>
    obtain ⟨key, value⟩ := entry
    cases value with
    | none => exact ih.cons key
    | some value => exact ih.cons_cons key

end JsonMap

namespace SchemaCompiler

/-- An object with a type. -/
def described (name : String) (entries : List (String × Option JsonValue)) : JsonValue :=
  .object (insertAll [] (("type", .string name) :: JsonMap.present entries))

def sizeJson (size : Nat) : JsonValue := .number (.posInt (.ofNat size))

/-- The limits as they are written. -/
def sizeEntries (minSize maxSize : Option Nat) : List (String × Option JsonValue) :=
  [("min_size", minSize.map sizeJson), ("max_size", maxSize.map sizeJson)]

def rangeEntries {α : Type} (json : α → JsonValue) (min max : Option α) :
    List (String × Option JsonValue) :=
  [("min", min.map json), ("max", max.map json)]

end SchemaCompiler

open SchemaCompiler

def PrimitiveType.toJson : PrimitiveType → JsonValue
  | .any => described "any" []
  | .bool => described "bool" []
  | .int c => described "int" (rangeEntries .ofI64 c.min c.max)
  | .float c => described "float" (rangeEntries (fun f => .number (.float f.intoInner)) c.min c.max)
  | .string c => described "str"
      (sizeEntries c.minSize c.maxSize ++ [("format", c.format.map (.string ·.kind))])
  | .symbol => described "sym" []

def ExtraBehavior.text : ExtraBehavior → String
  | .forbid => "forbid"
  | .ignore => "ignore"
  | .allow => "allow"

def StructFieldPresence.text : StructFieldPresence → String
  | .required => "required"
  | .optional => "optional"

namespace TypeExpr

mutual
/-- The expression in the object notation. -/
def toJson : TypeExpr → JsonValue
  | .primitive p => p.toJson
  | .enum variants => described "enum" [("values", some (.array (variants.map .string)))]
  | .optional inner => described "optional" [("of", some inner.toJson)]
  | .list of c => described "list" (("of", some of.toJson) :: sizeEntries c.minSize c.maxSize)
  | .dict value c =>
    described "dict" (("values", some value.toJson) :: sizeEntries c.minSize c.maxSize)
  | .struct fields extra => described "struct"
      [("fields", some (.array (fieldsJson fields))), ("extra", some (.string extra.text))]

def fieldsJson : List (FieldExpr TypeExpr) → List JsonValue
  | [] => []
  | ⟨name, presence, ty⟩ :: fields =>
    .array [.string presence.text, .string name, ty.toJson] :: fieldsJson fields
end

end TypeExpr

/-! ## What can be said -/

def FitsSize (size : Option Nat) : Prop := ∀ n ∈ size, n < 2 ^ 64

/-- The expression itself, without its parts. -/
def TypeExpr.Plain : TypeExpr → Prop
  | .primitive (.string c) => FitsSize c.minSize ∧ FitsSize c.maxSize
  | .enum variants => variants ≠ [] ∧ variants.Nodup
  | .list _ c | .dict _ c => FitsSize c.minSize ∧ FitsSize c.maxSize
  | _ => True

def FiniteBound (bound : Option OrderedFloat) : Prop :=
  ∀ f ∈ bound, f.intoInner.isFinite = true

/-- JSON has no other numbers. -/
def TypeExpr.FiniteBounds : TypeExpr → Prop
  | .primitive (.float c) => FiniteBound c.min ∧ FiniteBound c.max
  | _ => True

/-- No enum is empty or repeats a variant, sizes are 64-bit numbers, and bounds are finite. -/
def TypeExpr.Sayable (e : TypeExpr) : Prop := ∀ s ∈ e.subexprs, s.Plain ∧ s.FiniteBounds

theorem TypeExpr.Sayable.plain {e : TypeExpr} (h : e.Sayable) : e.Plain :=
  (h e (mem_subexprs.2 (.inl rfl))).1

theorem TypeExpr.Sayable.part {e c : TypeExpr} (h : e.Sayable) (hc : c ∈ e.parts) : c.Sayable :=
  fun s hs => h s (mem_subexprs.2 (.inr ⟨c, hc, hs⟩))

/-- Every number in it is finite, as the numbers of the parser library are. -/
inductive JsonValue.Finite : JsonValue → Prop
  | null : Finite .null
  | bool (b : Bool) : Finite (.bool b)
  | number {n : JsonNumber} : (∀ f ∈ n.asF64, f.isFinite = true) → Finite (.number n)
  | string (s : String) : Finite (.string s)
  | array {items : List JsonValue} : (∀ item ∈ items, Finite item) → Finite (.array items)
  | object {map : JsonMap} : (∀ p ∈ map, Finite p.2) → Finite (.object map)

def FiniteOptions (options : Option JsonMap) : Prop := ∀ p ∈ options.getD [], p.2.Finite

namespace SchemaCompiler

variable {x : Externals}

/-! ## Reading a described object -/

/-- An object is read through its entries. -/
theorem read_described {name : String} {kind : Kind} {entries : List (String × Option JsonValue)}
    (hname : Kind.ofName (x.toLowercase name) = some kind)
    (hkeys : (("type" :: entries.map (·.1)) : List String).Nodup) :
    read x (described name entries) none = readNamed x kind none (JsonMap.present entries) := by
  have hdistinct : JsonMap.DistinctKeys (("type", .string name) :: JsonMap.present entries) :=
    hkeys.sublist ((JsonMap.keys_present_sublist entries).cons_cons "type")
  have hlatest (k : String) := latest_of_distinct hdistinct k
  have htype :
      JsonMap.get (insertAll [] (("type", .string name) :: JsonMap.present entries)) "type" =
        some (.string name) := by
    rw [get_insertAll, hlatest, JsonMap.get_cons, if_pos rfl]
    rfl
  rw [read_eq, described, head, htype]
  simp only [Option.bind_some, JsonValue.asStr, namedHead, hname, Option.map_some, readHead]
  apply readNamed_congr
  intro k hk
  have hexcluded : ["type"].contains k = false := by simpa using hk
  rw [get_mergeOptions, given_some, given_none, Option.or_none, latest_inlineMapWithout, hexcluded,
    if_neg (by decide), latest_insertAll, hlatest, JsonMap.get_cons, if_neg hk]

theorem slot_map {α : Type} {read : JsonValue → Option α} {json : α → JsonValue} {a : Option α}
    (h : ∀ b ∈ a, read (json b) = some b) : slot read (a.map json) = some a := by
  cases a with
  | none => rfl
  | some b =>
    rw [Option.map_some, slot, h b rfl]
    rfl

theorem slot_size {size : Option Nat} (h : FitsSize size) :
    slot readSize (size.map sizeJson) = some size := by
  apply slot_map
  intro n hn
  have hmod : (UInt64.ofNat n).toNat = n := by
    rw [UInt64.toNat_ofNat', Nat.mod_eq_of_lt (h n hn)]
  change some (UInt64.ofNat n).toNat = some n
  rw [hmod]

theorem readFormat_kind (format : StringFormat) :
    readFormat (.string format.kind) = some format := by
  cases format <;> rfl

theorem readExtra_text (extra : ExtraBehavior) :
    readExtra (some (.string extra.text)) = some extra := by
  cases extra <;> rfl

theorem readPresence_text (presence : StructFieldPresence) :
    readPresence (.string presence.text) = some presence := by
  cases presence <;> rfl

/-- The limits of a size, behind or before other entries. -/
theorem readCollections_present (options : JsonMap) {minSize maxSize : Option Nat}
    (hmin : options.get "min_size" = minSize.map sizeJson)
    (hmax : options.get "max_size" = maxSize.map sizeJson) (hfits : FitsSize minSize)
    (hfits' : FitsSize maxSize) : readCollections options = some ⟨minSize, maxSize⟩ := by
  rw [readCollections_eq_some, hmin, hmax]
  exact ⟨slot_size hfits, slot_size hfits'⟩

/-- The type names of the notation are in lower case. -/
def LowerNames (x : Externals) : Prop :=
  ∀ name ∈ ["any", "bool", "int", "float", "str", "sym", "enum", "optional", "list", "dict",
    "struct"], x.toLowercase name = name

theorem LowerNames.kind (hx : LowerNames x) {name : String} {kind : Kind}
    (hname : name ∈ ["any", "bool", "int", "float", "str", "sym", "enum", "optional", "list",
      "dict", "struct"]) (hkind : Kind.ofName name = some kind) :
    Kind.ofName (x.toLowercase name) = some kind := by
  rw [hx name hname, hkind]

theorem read_primitiveJson (hx : LowerNames x) {p : PrimitiveType}
    (hp : (TypeExpr.primitive p).Plain) : read x p.toJson none = some (.primitive p) := by
  cases p with
  | any | bool | symbol =>
    rw [PrimitiveType.toJson, read_described (hx.kind (by simp) rfl) (by simp)]
    rfl
  | int c =>
    have hslot (i : Option Int64) : slot JsonValue.asI64 (i.map .ofI64) = some i :=
      slot_map fun i _ => JsonNumber.asI64_ofI64 i
    have hc : readInts (JsonMap.present (rangeEntries .ofI64 c.min c.max)) = some c := by
      simp [readInts_eq_some, rangeEntries, hslot]
    rw [PrimitiveType.toJson, read_described (hx.kind (by simp) rfl) (by simp [rangeEntries]),
      readNamed, hc]
    rfl
  | float c =>
    have hslot (f : Option OrderedFloat) :
        slot readFloat (f.map fun f => .number (.float f.intoInner)) = some f :=
      slot_map fun f _ => rfl
    have hc : readFloats (JsonMap.present
        (rangeEntries (fun f => .number (.float f.intoInner)) c.min c.max)) = some c := by
      simp [readFloats_eq_some, rangeEntries, hslot]
    rw [PrimitiveType.toJson, read_described (hx.kind (by simp) rfl) (by simp [rangeEntries]),
      readNamed, hc]
    rfl
  | string c =>
    obtain ⟨hmin, hmax⟩ := hp
    have hslot (format : Option StringFormat) :
        slot readFormat (format.map (.string ·.kind)) = some format :=
      slot_map fun format _ => readFormat_kind format
    have hc : readStrings (JsonMap.present (sizeEntries c.minSize c.maxSize ++
        [("format", c.format.map (.string ·.kind))])) = some c := by
      simp [readStrings_eq_some, sizeEntries, slot_size hmin, slot_size hmax, hslot]
    rw [PrimitiveType.toJson, read_described (hx.kind (by simp) rfl) (by simp [sizeEntries]),
      readNamed, hc]
    rfl

theorem mapM_asStr (variants : List String) :
    (variants.map JsonValue.string).mapM JsonValue.asStr = some variants := by
  induction variants with
  | nil => rfl
  | cons variant variants ih =>
    rw [List.map_cons, List.mapM_cons, ih]
    rfl

theorem eraseDups_of_nodup {names : List String} (h : names.Nodup) : names.eraseDups = names := by
  induction names with
  | nil => rfl
  | cons name names ih =>
    obtain ⟨hname, hnames⟩ := List.nodup_cons.1 h
    have hfilter : (names.filter fun other => !other == name) = names := by
      refine List.filter_eq_self.2 fun other hother => ?_
      have hne : other ≠ name := fun heq => hname (heq ▸ hother)
      simpa using hne
    rw [List.eraseDups_cons, hfilter, ih hnames]

/-- The fields of a struct are read one after the other. -/
theorem mapM_fieldsJson {fields : List (FieldExpr TypeExpr)}
    (ih : ∀ f ∈ fields, read x f.ty.toJson none = some f.ty) :
    (TypeExpr.fieldsJson fields).mapM (readField x) = some fields := by
  induction fields with
  | nil => rfl
  | cons f fields ihfields =>
    obtain ⟨name, presence, ty⟩ := f
    obtain ⟨hty, hfields⟩ := List.forall_mem_cons.1 ih
    have hfield : readField x (.array [.string presence.text, .string name, ty.toJson]) =
        some ⟨name, presence, ty⟩ := by
      rw [readField, readPresence_text]
      change (read x ty.toJson none).bind _ = _
      rw [hty]
      rfl
    rw [TypeExpr.fieldsJson, List.mapM_cons, hfield, ihfields hfields]
    rfl

/-- What is said is read. -/
theorem read_toJson (hx : LowerNames x) (e : TypeExpr) (he : e.Sayable) :
    read x e.toJson none = some e := by
  induction e with
  | primitive p => exact read_primitiveJson hx he.plain
  | enum variants =>
    obtain ⟨hne, hnodup⟩ := he.plain
    rw [TypeExpr.toJson, read_described (hx.kind (by simp) rfl) (by simp), readNamed]
    have hsource : source none ["values", "in"]
        (JsonMap.present [("values", some (.array (variants.map .string)))]) =
        some (.array (variants.map .string)) := by
      simp [source]
    have hvariants : readVariants (some (.array (variants.map .string))) = some variants := by
      change ((variants.map JsonValue.string).mapM JsonValue.asStr).bind _ = _
      rw [mapM_asStr]
      simp [hne, eraseDups_of_nodup hnodup]
    rw [hsource, hvariants]
    rfl
  | optional inner ih =>
    have hinner := ih (he.part List.mem_cons_self)
    rw [TypeExpr.toJson, read_described (hx.kind (by simp) rfl) (by simp), readNamed]
    simp [source, hinner]
  | list of c ih =>
    obtain ⟨hmin, hmax⟩ := he.plain
    have hof := ih (he.part List.mem_cons_self)
    have hc := readCollections_present
      (JsonMap.present (("of", some of.toJson) :: sizeEntries c.minSize c.maxSize))
      (by simp [sizeEntries]) (by simp [sizeEntries]) hmin hmax
    rw [TypeExpr.toJson, read_described (hx.kind (by simp) rfl) (by simp [sizeEntries]), readNamed,
      hc]
    simp [source, hof]
  | dict value c ih =>
    obtain ⟨hmin, hmax⟩ := he.plain
    have hvalue := ih (he.part List.mem_cons_self)
    have hc := readCollections_present
      (JsonMap.present (("values", some value.toJson) :: sizeEntries c.minSize c.maxSize))
      (by simp [sizeEntries]) (by simp [sizeEntries]) hmin hmax
    rw [TypeExpr.toJson, read_described (hx.kind (by simp) rfl) (by simp [sizeEntries]), readNamed,
      hc]
    simp [source, hvalue]
  | struct fields extra ih =>
    have hfields := mapM_fieldsJson fun f hf => ih f hf (he.part (List.mem_map_of_mem hf))
    rw [TypeExpr.toJson, read_described (hx.kind (by simp) rfl) (by simp), readNamed]
    simp [readExtra_text, readFields, JsonValue.asArray, hfields]

/-! ## What is read can be said -/

theorem fitsSize_of_slot {value : Option JsonValue} {size : Option Nat}
    (h : slot readSize value = some size) : FitsSize size := by
  intro n hn
  cases hn
  cases value with
  | none => cases h
  | some value =>
    obtain ⟨m, hm, heq⟩ := Option.map_eq_some_iff.1 h
    cases heq
    obtain ⟨u, -, rfl⟩ := Option.map_eq_some_iff.1 hm
    exact u.toNat_lt

theorem plain_of_read {value : JsonValue} {fieldOptions : Option JsonMap} {e : TypeExpr}
    (h : read x value fieldOptions = some e) : e.Plain := by
  rcases read_cases h with ⟨_, _, -, -, rfl⟩ | ⟨kind, apart, options, -, hread⟩
  · trivial
  · cases ReadsNamed.of_read hread with
    | string hc =>
      obtain ⟨hmin, hmax, -⟩ := readStrings_eq_some.1 hc
      exact ⟨fitsSize_of_slot hmin, fitsSize_of_slot hmax⟩
    | list _ _ hc | dict _ _ hc =>
      obtain ⟨hmin, hmax⟩ := readCollections_eq_some.1 hc
      exact ⟨fitsSize_of_slot hmin, fitsSize_of_slot hmax⟩
    | enum hvariants =>
      obtain ⟨names, -, hne, rfl⟩ := variants_of_read h
      exact ⟨eraseDups_ne_nil hne, nodup_eraseDups names⟩
    | _ => trivial

/-! ### Finite bounds -/

theorem mem_insertAll {base map : JsonMap} {entry : String × JsonValue}
    (h : entry ∈ insertAll base map) : entry ∈ map ∨ entry ∈ base := by
  induction map generalizing base with
  | nil => exact .inr h
  | cons p map ih =>
    rcases ih h with hmap | hbase
    · exact .inl (List.mem_cons_of_mem _ hmap)
    · rcases JsonMap.mem_insert hbase with rfl | hbase
      · exact .inl List.mem_cons_self
      · exact .inr hbase

theorem mergeOptions_finite {inlineOptions outer : Option JsonMap}
    (hinline : FiniteOptions inlineOptions) (houter : FiniteOptions outer) :
    FiniteOptions (some (mergeOptions inlineOptions outer)) := by
  intro p hp
  rcases mem_insertAll hp with hp | hp
  · exact hinline p hp
  · exact houter p ((mem_insertAll hp).resolve_right List.not_mem_nil)

theorem inlineObject_finite {items : List JsonValue} (h : ∀ item ∈ items, item.Finite) :
    FiniteOptions (inlineObject items) := by
  intro p hp
  cases items with
  | nil => cases hp
  | cons item items =>
    have hitem := h item List.mem_cons_self
    cases hitem with
    | object hmap => exact hmap p hp
    | _ => cases hp

/-- What a head hands on. -/
def Head.Finite : Head → Prop
  | .optional innerType => innerType.Finite
  | .named _ apart options => (∀ value ∈ apart, value.Finite) ∧ FiniteOptions (some options)

theorem namedHead_finite {name : String} {options : JsonMap} {h : Head}
    (hh : namedHead x name options = some h) (hoptions : FiniteOptions (some options)) :
    h.Finite := by
  obtain ⟨kind, -, rfl⟩ := Option.map_eq_some_iff.1 hh
  refine ⟨?_, hoptions⟩
  intro value hvalue
  cases hvalue

theorem arrayHead_finite {items : List JsonValue} {fieldOptions : Option JsonMap} {h : Head}
    (hh : arrayHead x items fieldOptions = some h) (hitems : ∀ item ∈ items, item.Finite)
    (hfield : FiniteOptions fieldOptions) : h.Finite := by
  have hnone : FiniteOptions none := List.forall_mem_nil _
  have hinline {items : List JsonValue} (hitems : ∀ item ∈ items, item.Finite) :=
    mergeOptions_finite (inlineObject_finite hitems) hfield
  rw [arrayHead.eq_def] at hh
  split at hh
  next => cases hh
  next tag items =>
    obtain ⟨-, hitems⟩ := List.forall_mem_cons.1 hitems
    split at hh
    next => cases hh
    next => cases hh
    next innerType items _ =>
      cases hh
      exact hitems _ List.mem_cons_self
    next => cases hh
    next elementType items _ =>
      cases hh
      obtain ⟨helement, hitems⟩ := List.forall_mem_cons.1 hitems
      exact ⟨fun value hvalue => Option.mem_some_iff.1 hvalue ▸ helement, hinline hitems⟩
    next => cases hh
    next valueType items _ =>
      cases hh
      obtain ⟨hvalueType, hitems⟩ := List.forall_mem_cons.1 hitems
      exact ⟨fun value hvalue => Option.mem_some_iff.1 hvalue ▸ hvalueType, hinline hitems⟩
    next =>
      cases hh
      exact ⟨fun value hvalue => hitems value (List.mem_of_mem_head? hvalue),
        mergeOptions_finite hfield hnone⟩
    next =>
      cases hh
      refine ⟨?_, hinline hitems⟩
      intro value hvalue
      cases hvalue
    next => exact namedHead_finite hh (mergeOptions_finite hnone hfield)

theorem head_finite {value : JsonValue} {fieldOptions : Option JsonMap} {h : Head}
    (hh : head x value fieldOptions = some h) (hvalue : value.Finite)
    (hfield : FiniteOptions fieldOptions) : h.Finite := by
  have hnone : FiniteOptions none := List.forall_mem_nil _
  cases hvalue with
  | string => exact namedHead_finite hh (mergeOptions_finite hnone hfield)
  | array hitems => exact arrayHead_finite hh hitems hfield
  | object hmap =>
    obtain ⟨name, -, hh⟩ := Option.bind_eq_some_iff.1 hh
    refine namedHead_finite hh (mergeOptions_finite ?_ hfield)
    intro p hp
    have hmem := (mem_insertAll hp).resolve_right List.not_mem_nil
    exact hmap p (List.mem_of_mem_filter hmem)
  | _ => cases hh

theorem get_finite {options : JsonMap} (h : FiniteOptions (some options)) {key : String}
    {value : JsonValue} (hget : options.get key = some value) : value.Finite := by
  obtain ⟨before, after, heq, -⟩ := List.lookup_eq_some_iff.1 hget
  have hmem : (key, value) ∈ options := heq ▸ List.mem_append_right before List.mem_cons_self
  exact h (key, value) hmem

theorem source_finite {apart : Option JsonValue} {keys : List String} {options : JsonMap}
    {value : JsonValue} (hsource : source apart keys options = some value)
    (hapart : ∀ value ∈ apart, value.Finite) (hoptions : FiniteOptions (some options)) :
    value.Finite := by
  rcases Option.or_eq_some_iff.1 hsource with hvalue | ⟨-, hvalue⟩
  · exact hapart value hvalue
  · obtain ⟨key, -, hget⟩ := List.exists_of_findSome?_eq_some hvalue
    exact get_finite hoptions hget

theorem Below.finite {value w : JsonValue} {fieldOptions G : Option JsonMap}
    (h : Below x value fieldOptions w G) (hvalue : value.Finite)
    (hfield : FiniteOptions fieldOptions) : w.Finite ∧ FiniteOptions G := by
  have hnone : FiniteOptions none := List.forall_mem_nil _
  cases h with
  | optional hhead => exact ⟨head_finite hhead hvalue hfield, hfield⟩
  | @nested kind apart options type hhead htype =>
    obtain ⟨hapart, hoptions⟩ := head_finite hhead hvalue hfield
    refine ⟨?_, hnone⟩
    cases kind with
    | list | dict | optional => exact source_finite htype hapart hoptions
    | _ => cases htype
  | field hdecl hentry =>
    rw [declaredFields] at hdecl
    split at hdecl
    next apart options hhead =>
      obtain ⟨-, hoptions⟩ := head_finite hhead hvalue hfield
      obtain ⟨fields, hget, hentries⟩ := Option.bind_eq_some_iff.1 hdecl
      have hfields := get_finite hoptions hget
      cases hfields with
      | array hitems =>
        cases hentries
        have hentry := hitems _ hentry
        cases hentry with
        | array hitems =>
          refine ⟨hitems w (by simp), inlineObject_finite fun item hitem => hitems item ?_⟩
          simp [hitem]
      | _ => cases hentries
    next => cases hdecl

theorem Reads.finite {value w : JsonValue} {fieldOptions G : Option JsonMap}
    (h : Reads x value fieldOptions w G) (hvalue : value.Finite)
    (hfield : FiniteOptions fieldOptions) : w.Finite ∧ FiniteOptions G := by
  induction h with
  | refl => exact ⟨hvalue, hfield⟩
  | step hbelow _ ih =>
    obtain ⟨hw, hG⟩ := hbelow.finite hvalue hfield
    exact ih hw hG

theorem finiteBound_of_slot {options : JsonMap} {key : String} {bound : Option OrderedFloat}
    (h : slot readFloat (options.get key) = some bound)
    (hoptions : FiniteOptions (some options)) : FiniteBound bound := by
  intro f hf
  cases hf
  cases hget : options.get key with
  | none =>
    rw [hget] at h
    cases h
  | some value =>
    rw [hget] at h
    obtain ⟨g, hg, heq⟩ := Option.map_eq_some_iff.1 h
    cases heq
    obtain ⟨number, hnumber, rfl⟩ := Option.map_eq_some_iff.1 hg
    have hvalue := get_finite hoptions hget
    cases hvalue with
    | number hfinite => exact hfinite number hnumber
    | _ => cases hnumber

theorem finiteBounds_of_read {value : JsonValue} {fieldOptions : Option JsonMap} {e : TypeExpr}
    (h : read x value fieldOptions = some e) (hvalue : value.Finite)
    (hfield : FiniteOptions fieldOptions) : e.FiniteBounds := by
  rcases read_cases h with ⟨_, _, -, -, rfl⟩ | ⟨kind, apart, options, hhead, hread⟩
  · trivial
  · obtain ⟨-, hoptions⟩ := head_finite hhead hvalue hfield
    cases ReadsNamed.of_read hread with
    | float hc =>
      obtain ⟨hmin, hmax⟩ := readFloats_eq_some.1 hc
      exact ⟨finiteBound_of_slot hmin hoptions, finiteBound_of_slot hmax hoptions⟩
    | _ => trivial

/-- Every expression that the parser returns, from any text and under any options, can be said, and
every one that can be said is what the parser returns for its text, wherever this stands. -/
theorem notation_complete (hx : LowerNames x) (e : TypeExpr) :
    (e.Sayable → ∀ path, parseTypeExpr x e.toJson none path = .ok e) ∧
    ∀ value fieldOptions path, parseTypeExpr x value fieldOptions path = .ok e →
      (∀ s ∈ e.subexprs, s.Plain) ∧
        (value.Finite → FiniteOptions fieldOptions → e.Sayable) := by
  constructor
  · exact fun he path => ok_of_read (read_toJson hx e he) path
  · intro value fieldOptions path h
    have hplaces {s : TypeExpr} (hs : s ∈ e.subexprs) := (mem_subexprs_iff (read_of_ok h)).1 hs
    refine ⟨fun s hs => ?_, fun hvalue hfield s hs => ?_⟩
    · obtain ⟨w, G, -, hread⟩ := hplaces hs
      exact plain_of_read hread
    · obtain ⟨w, G, hreads, hread⟩ := hplaces hs
      obtain ⟨hw, hG⟩ := hreads.finite hvalue hfield
      exact ⟨plain_of_read hread, finiteBounds_of_read hread hw hG⟩

/-- A list of one to three of two variants. -/
theorem notation_complete_list :
    parseTypeExpr (.reading "null" .null)
      (TypeExpr.list (.enum ["a", "b"]) ⟨some 1, some 3⟩).toJson none "$.fields[0]" =
        .ok (.list (.enum ["a", "b"]) ⟨some 1, some 3⟩) := by
  refine (notation_complete (by unfold LowerNames; decide) _).1 ?_ _
  intro s hs
  simp only [TypeExpr.subexprs, List.cons_append, List.nil_append, List.mem_cons,
    List.not_mem_nil, or_false] at hs
  rcases hs with rfl | rfl
  · exact ⟨⟨by decide, by decide⟩, trivial⟩
  · refine ⟨⟨?_, ?_⟩, trivial⟩ <;>
    · intro n hn
      cases hn
      decide

end SchemaCompiler
end RustlyCore
