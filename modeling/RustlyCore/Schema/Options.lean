import RustlyCore.Schema.Parser

/-!
# Option maps through their lookups

A merged option map is only ever looked up. What it holds under a key is what the inline options
hold there, else what the outer options do. The constraints are then read slot by slot.
-/

namespace RustlyCore

namespace JsonMap

theorem get_cons (key : String) (value : JsonValue) (map : JsonMap) (k : String) :
    get ((key, value) :: map) k = if k = key then some value else map.get k := by
  by_cases h : k = key
  · rw [get, List.lookup_cons, if_pos h, beq_iff_eq.2 h]
  · rw [get, List.lookup_cons, if_neg h, beq_eq_false_iff_ne.2 h, get]

theorem get_insert (map : JsonMap) (key : String) (value : JsonValue) (k : String) :
    (map.insert key value).get k = if k = key then some value else map.get k := by
  induction map with
  | nil => rw [insert, get_cons]
  | cons entry map ih =>
    obtain ⟨k', v'⟩ := entry
    rw [insert]
    split
    next => rw [get_cons]
    next =>
      split
      next heq =>
        rw [get_cons, get_cons, ← heq]
        split <;> rfl
      next hne =>
        rw [get_cons, ih, get_cons]
        by_cases hk : k = k'
        · rw [if_pos hk, if_pos hk, if_neg fun h => hne (h.symm.trans hk)]
        · rw [if_neg hk, if_neg hk]

theorem get_filter (map : JsonMap) (p : String → Bool) (k : String) :
    get (map.filter fun entry => p entry.1) k = if p k then map.get k else none := by
  induction map with
  | nil => simp [get]
  | cons entry map ih =>
    obtain ⟨k', v'⟩ := entry
    rw [List.filter_cons, get_cons]
    by_cases hk : k = k'
    · subst hk
      by_cases hp : p k
      · rw [if_pos hp, get_cons, if_pos rfl, if_pos rfl, if_pos hp]
      · rw [if_neg hp, ih, if_neg hp, if_neg hp]
    · rw [if_neg hk, ← ih]
      split
      · rw [get_cons, if_neg hk]
      · rfl

theorem remove_fst (map : JsonMap) (key : String) : (map.remove key).1 = map.get key := rfl

theorem get_remove (map : JsonMap) {key k : String} (h : k ≠ key) :
    (map.remove key).2.get k = map.get k := by
  have hfilter := get_filter map (· != key) k
  rw [if_pos (bne_iff_ne.2 h)] at hfilter
  exact hfilter

theorem remove_of_get_none {map : JsonMap} {key : String} (h : map.get key = none) :
    map.remove key = (none, map) := by
  rw [remove, h]
  congr 1
  apply List.filter_eq_self.2
  intro entry he
  have hne := List.lookup_eq_none_iff.1 h entry he
  exact bne_iff_ne.2 fun heq => bne_iff_ne.1 hne heq.symm

/-- No key occurs twice, as in every map of the parser library. -/
def DistinctKeys (map : JsonMap) : Prop := (map.map (·.1)).Nodup

/-- The entries are in key order. -/
def Sorted (map : JsonMap) : Prop := map.Pairwise fun p q => p.1 < q.1

theorem Sorted.distinctKeys {map : JsonMap} (h : map.Sorted) : map.DistinctKeys :=
  List.pairwise_map.2 (h.imp fun hlt => ne_of_lt hlt)

theorem mem_insert {map : JsonMap} {key : String} {value : JsonValue} {entry : String × JsonValue}
    (h : entry ∈ map.insert key value) : entry = (key, value) ∨ entry ∈ map := by
  induction map with
  | nil => exact .inl (List.mem_singleton.1 h)
  | cons head map ih =>
    rw [insert] at h
    split at h
    · exact List.mem_cons.1 h
    · split at h
      · exact (List.mem_cons.1 h).imp_right (List.mem_cons_of_mem _)
      · rcases List.mem_cons.1 h with rfl | h
        · exact .inr List.mem_cons_self
        · exact (ih h).imp_right (List.mem_cons_of_mem _)

theorem Sorted.insert {map : JsonMap} (h : map.Sorted) (key : String) (value : JsonValue) :
    (map.insert key value).Sorted := by
  induction map with
  | nil => exact List.pairwise_singleton _ _
  | cons head map ih =>
    obtain ⟨hhead, hrest⟩ := List.pairwise_cons.1 h
    rw [JsonMap.insert]
    split
    next hlt =>
      apply List.pairwise_cons.2
      constructor
      · intro entry he
        rcases List.mem_cons.1 he with rfl | he
        · exact hlt
        · exact hlt.trans (hhead entry he)
      · exact h
    next hge =>
      split
      next heq =>
        subst heq
        exact List.pairwise_cons.2 ⟨hhead, hrest⟩
      next hne =>
        apply List.pairwise_cons.2
        constructor
        · intro entry he
          rcases mem_insert he with rfl | he
          · exact lt_of_le_of_ne (not_lt.1 hge) (Ne.symm hne)
          · exact hhead entry he
        · exact ih hrest

end JsonMap

namespace SchemaCompiler

/-! ## Merged options -/

/-- What a map holds under a key after it has been copied entry by entry. -/
def latest (map : JsonMap) (key : String) : Option JsonValue := (insertAll [] map).get key

/-- The same for options that need not be given. -/
def given (options : Option JsonMap) (key : String) : Option JsonValue :=
  options.bind fun map => latest map key

@[simp] theorem given_none (key : String) : given none key = none := rfl

@[simp] theorem given_some (map : JsonMap) (key : String) : given (some map) key = latest map key :=
  rfl

theorem get_insertAll (base map : JsonMap) (k : String) :
    (insertAll base map).get k = (latest map k).or (base.get k) := by
  induction map generalizing base with
  | nil => rfl
  | cons entry map ih =>
    have hbase := ih (base.insert entry.1 entry.2)
    have hnil := ih (JsonMap.insert [] entry.1 entry.2)
    rw [JsonMap.get_insert] at hbase hnil
    change (insertAll (base.insert entry.1 entry.2) map).get k =
      ((insertAll (JsonMap.insert [] entry.1 entry.2) map).get k).or _
    rw [hbase, hnil]
    by_cases h : k = entry.1 <;> simp [h, JsonMap.get]

@[simp] theorem latest_nil (key : String) : latest [] key = none := rfl

theorem latest_cons (entry : String × JsonValue) (map : JsonMap) (k : String) :
    latest (entry :: map) k = (latest map k).or (if k = entry.1 then some entry.2 else none) := by
  have h := get_insertAll (JsonMap.insert [] entry.1 entry.2) map k
  rw [JsonMap.get_insert] at h
  exact h

theorem get_mergeOptions (inlineOptions outer : Option JsonMap) (k : String) :
    (mergeOptions inlineOptions outer).get k = (given inlineOptions k).or (given outer k) := by
  rw [mergeOptions, get_insertAll]
  congr 1
  · cases inlineOptions <;> rfl
  · cases outer <;> rfl

theorem latest_of_distinct {map : JsonMap} (h : map.DistinctKeys) (k : String) :
    latest map k = map.get k := by
  induction map with
  | nil => rfl
  | cons entry map ih =>
    obtain ⟨k', v'⟩ := entry
    obtain ⟨hnot, hrest⟩ := List.nodup_cons.1 h
    rw [latest_cons, ih hrest, JsonMap.get_cons]
    split
    next hk =>
      have hnone : JsonMap.get map k = none := by
        apply List.lookup_eq_none_iff.2
        intro p hp
        exact bne_iff_ne.2 fun heq => hnot (List.mem_map.2 ⟨p, hp, (hk ▸ heq).symm⟩)
      rw [hnone, Option.none_or]
    next => rw [Option.or_none]

theorem sorted_insertAll {base : JsonMap} (h : base.Sorted) (map : JsonMap) :
    (insertAll base map).Sorted := by
  induction map generalizing base with
  | nil => exact h
  | cons entry map ih => exact ih (h.insert entry.1 entry.2)

theorem sorted_mergeOptions (inlineOptions outer : Option JsonMap) :
    (mergeOptions inlineOptions outer).Sorted :=
  sorted_insertAll (sorted_insertAll .nil _) _

/-- Copying a copy changes nothing. -/
theorem latest_insertAll (map : JsonMap) (k : String) :
    latest (insertAll [] map) k = latest map k :=
  latest_of_distinct (sorted_insertAll .nil map).distinctKeys k

theorem latest_filter (map : JsonMap) (p : String → Bool) (k : String) :
    latest (map.filter fun entry => p entry.1) k = if p k then latest map k else none := by
  induction map with
  | nil => simp [latest, insertAll, JsonMap.get]
  | cons entry map ih =>
    rw [List.filter_cons, latest_cons]
    by_cases hk : k = entry.1
    · subst hk
      by_cases hp : p entry.1
      · rw [if_pos hp, latest_cons, ih, if_pos hp, if_pos hp]
      · rw [if_neg hp, ih, if_neg hp, if_neg hp]
    · by_cases hp : p entry.1
      · rw [if_pos hp, latest_cons, ih]
        simp [hk]
      · rw [if_neg hp, ih]
        simp [hk]

theorem latest_inlineMapWithout (map : JsonMap) (excluded : List String) (k : String) :
    latest (inlineMapWithout map excluded) k =
      if excluded.contains k then none else latest map k := by
  rw [inlineMapWithout, latest_insertAll, latest_filter map fun key => !excluded.contains key]
  cases excluded.contains k <;> rfl

/-! ## Slots

A slot that is not given stays unset, one that is given must be well formed. Only the path of an
error depends on where the options stand, so the readers below have none.
-/

theorem toOption_bind {ε α β : Type} (m : Except ε α) (f : α → Except ε β) :
    (m >>= f).toOption = m.toOption.bind fun a => (f a).toOption := by
  cases m <;> rfl

def slot {α : Type} (read : JsonValue → Option α) : Option JsonValue → Option (Option α)
  | none => some none
  | some value => (read value).map some

attribute [ext] IntConstraints FloatConstraints StringConstraints CollectionConstraints

def readFloat (value : JsonValue) : Option OrderedFloat := value.asF64.map .mk

def readSize (value : JsonValue) : Option Nat := value.asU64.map (·.toNat)

def readFormat (value : JsonValue) : Option StringFormat :=
  match value.asStr with
  | some "email" => some .email
  | some "uuid" => some .uuid
  | some "url" => some .url
  | _ => none

def readInts (options : JsonMap) : Option IntConstraints := do
  let min ← slot JsonValue.asI64 (options.get "min")
  let max ← slot JsonValue.asI64 (options.get "max")
  return ⟨min, max⟩

def readFloats (options : JsonMap) : Option FloatConstraints := do
  let min ← slot readFloat (options.get "min")
  let max ← slot readFloat (options.get "max")
  return ⟨min, max⟩

def readStrings (options : JsonMap) : Option StringConstraints := do
  let minSize ← slot readSize (options.get "min_size")
  let maxSize ← slot readSize (options.get "max_size")
  let format ← slot readFormat (options.get "format")
  return ⟨minSize, maxSize, format⟩

def readCollections (options : JsonMap) : Option CollectionConstraints := do
  let minSize ← slot readSize (options.get "min_size")
  let maxSize ← slot readSize (options.get "max_size")
  return ⟨minSize, maxSize⟩

theorem readInts_eq_some {options : JsonMap} {c : IntConstraints} : readInts options = some c ↔
    slot JsonValue.asI64 (options.get "min") = some c.min ∧
      slot JsonValue.asI64 (options.get "max") = some c.max := by
  rw [readInts]
  cases slot JsonValue.asI64 (options.get "min") <;>
    cases slot JsonValue.asI64 (options.get "max") <;> simp [IntConstraints.ext_iff]

theorem readFloats_eq_some {options : JsonMap} {c : FloatConstraints} :
    readFloats options = some c ↔
      slot readFloat (options.get "min") = some c.min ∧
        slot readFloat (options.get "max") = some c.max := by
  rw [readFloats]
  cases slot readFloat (options.get "min") <;>
    cases slot readFloat (options.get "max") <;> simp [FloatConstraints.ext_iff]

theorem readStrings_eq_some {options : JsonMap} {c : StringConstraints} :
    readStrings options = some c ↔
      slot readSize (options.get "min_size") = some c.minSize ∧
        slot readSize (options.get "max_size") = some c.maxSize ∧
        slot readFormat (options.get "format") = some c.format := by
  rw [readStrings]
  cases slot readSize (options.get "min_size") <;>
    cases slot readSize (options.get "max_size") <;>
    cases slot readFormat (options.get "format") <;> simp [StringConstraints.ext_iff]

theorem readCollections_eq_some {options : JsonMap} {c : CollectionConstraints} :
    readCollections options = some c ↔
      slot readSize (options.get "min_size") = some c.minSize ∧
        slot readSize (options.get "max_size") = some c.maxSize := by
  rw [readCollections]
  cases slot readSize (options.get "min_size") <;>
    cases slot readSize (options.get "max_size") <;> simp [CollectionConstraints.ext_iff]

theorem readCollections_congr {options options' : JsonMap}
    (hmin : options.get "min_size" = options'.get "min_size")
    (hmax : options.get "max_size" = options'.get "max_size") :
    readCollections options = readCollections options' := by
  rw [readCollections, hmin, hmax, readCollections]

section
variable (x : Externals)

theorem parseI64_toOption (value : JsonValue) (path : String) :
    (parseI64 x value path).toOption = value.asI64 := by
  rw [parseI64]
  cases value.asI64 <;> rfl

theorem parseF64_toOption (value : JsonValue) (path : String) :
    (parseF64 x value path).toOption = value.asF64 := by
  rw [parseF64]
  cases value.asF64 <;> rfl

theorem parseUsize_toOption (value : JsonValue) (path : String) :
    (parseUsize x value path).toOption = readSize value := by
  rw [parseUsize, readSize]
  cases value.asU64 <;> rfl

theorem parseFormat_toOption (value : JsonValue) (path : String) :
    (parseFormat value path).toOption = readFormat value := by
  rw [parseFormat, readFormat]
  split <;> simp_all [invalid, Except.toOption, pure, Except.pure]

theorem removeParsed_toOption {α : Type} {parse : JsonValue → String → Parse α}
    {read : JsonValue → Option α} (h : ∀ value path, (parse value path).toOption = read value)
    (options : JsonMap) (key path : String) :
    (removeParsed parse options key path).toOption =
      (slot read (options.get key)).map fun a => (a, (options.remove key).2) := by
  rw [removeParsed, JsonMap.remove]
  cases options.get key with
  | none => rfl
  | some value =>
    simp only [slot, ← h value s!"{path}.{key}"]
    cases parse value s!"{path}.{key}" <;> rfl

theorem applyIntConstraints_toOption (options : JsonMap) (path : String) :
    (applyIntConstraints x options path).toOption = readInts options := by
  have hmin := removeParsed_toOption (parseI64_toOption x) options "min" path
  have hmax := removeParsed_toOption (parseI64_toOption x) (options.remove "min").2 "max" path
  rw [JsonMap.get_remove _ (by decide)] at hmax
  simp only [applyIntConstraints, readInts, toOption_bind, hmin, Option.bind_map, Function.comp_def,
    hmax]
  rfl

theorem slot_readFloat (value : Option JsonValue) :
    slot readFloat value = (slot JsonValue.asF64 value).map (·.map .mk) := by
  cases value with
  | none => rfl
  | some value =>
    rw [slot, slot, readFloat]
    cases value.asF64 <;> rfl

theorem applyFloatConstraints_toOption (options : JsonMap) (path : String) :
    (applyFloatConstraints x options path).toOption = readFloats options := by
  have hmin := removeParsed_toOption (parseF64_toOption x) options "min" path
  have hmax := removeParsed_toOption (parseF64_toOption x) (options.remove "min").2 "max" path
  rw [JsonMap.get_remove _ (by decide)] at hmax
  simp only [applyFloatConstraints, readFloats, slot_readFloat, toOption_bind, hmin,
    Option.bind_eq_bind, Option.bind_map, Function.comp_def, hmax]
  rfl

theorem applyCollectionConstraints_toOption (options : JsonMap) (path : String) :
    (applyCollectionConstraints x options path).toOption = readCollections options := by
  have hmin := removeParsed_toOption (parseUsize_toOption x) options "min_size" path
  have hmax :=
    removeParsed_toOption (parseUsize_toOption x) (options.remove "min_size").2 "max_size" path
  rw [JsonMap.get_remove _ (by decide)] at hmax
  simp only [applyCollectionConstraints, readCollections, toOption_bind, hmin, Option.bind_map,
    Function.comp_def, hmax]
  rfl

theorem applyStringConstraints_toOption (options : JsonMap) (path : String) :
    (applyStringConstraints x options path).toOption = readStrings options := by
  have hmin := removeParsed_toOption (parseUsize_toOption x) options "min_size" path
  have hmax :=
    removeParsed_toOption (parseUsize_toOption x) (options.remove "min_size").2 "max_size" path
  have hformat := removeParsed_toOption parseFormat_toOption
    ((options.remove "min_size").2.remove "max_size").2 "format" path
  rw [JsonMap.get_remove _ (by decide)] at hmax
  rw [JsonMap.get_remove _ (by decide), JsonMap.get_remove _ (by decide)] at hformat
  simp only [applyStringConstraints, readStrings, toOption_bind, hmin, Option.bind_map,
    Function.comp_def, hmax, hformat]
  rfl

end

/-! ## Variants, policies and sources -/

/-- The variants: strings only, at least one, repetitions dropped. -/
def readVariants (values : Option JsonValue) : Option (List String) := do
  let items ← (← values).asArray
  let names ← items.mapM JsonValue.asStr
  if names.isEmpty then none else return names.eraseDups

def readExtra : Option JsonValue → Option ExtraBehavior
  | none => some .forbid
  | some (.string "forbid") => some .forbid
  | some (.string "ignore") => some .ignore
  | some (.string "allow") => some .allow
  | some _ => none

def readPresence (value : JsonValue) : Option StructFieldPresence :=
  match value.asStr with
  | some "required" => some .required
  | some "optional" => some .optional
  | _ => none

/-- The value given apart from the options, else the first of the keys that is present. -/
def source (apart : Option JsonValue) (keys : List String) (options : JsonMap) :
    Option JsonValue :=
  apart.or (keys.findSome? options.get)

/-- One round of a loop that pushes what it has not pushed before. -/
theorem append_eraseDups_cons (seen : List String) (name : String) (names : List String) :
    seen ++ ((name :: names).filter (!seen.contains ·)).eraseDups =
      (if seen.contains name then seen else seen ++ [name]) ++
        (names.filter
          (!(if seen.contains name then seen else seen ++ [name]).contains ·)).eraseDups := by
  cases h : seen.contains name with
  | true => simp only [List.filter_cons, h, if_true, Bool.not_true, Bool.false_eq_true, if_false]
  | false =>
    have hfilter : (names.filter (!seen.contains ·)).filter (fun b => !b == name) =
        names.filter (!(seen ++ [name]).contains ·) := by
      rw [List.filter_filter]
      apply List.filter_congr
      intro b _
      rw [List.contains_append, Bool.not_or, Bool.and_comm]
      simp [beq_eq_decide]
    simp only [List.filter_cons, h, Bool.not_false, if_true, Bool.false_eq_true, if_false,
      List.eraseDups_cons, hfilter, List.append_assoc, List.singleton_append]

theorem source_congr {apart : Option JsonValue} {keys : List String} {options options' : JsonMap}
    (h : ∀ k ∈ keys, options.get k = options'.get k) :
    source apart keys options = source apart keys options' := by
  rw [source, source]
  congr 1
  induction keys with
  | nil => rfl
  | cons key keys ih =>
    rw [List.findSome?_cons, List.findSome?_cons, h key List.mem_cons_self,
      ih fun k hk => h k (List.mem_cons_of_mem _ hk)]

theorem parseVariants_toOption (path : String) (index : Nat) (variants : List String)
    (items : List JsonValue) :
    (parseVariants path index variants items).toOption =
      (items.mapM JsonValue.asStr).map fun names =>
        variants ++ (names.filter (!variants.contains ·)).eraseDups := by
  induction items generalizing index variants with
  | nil => simp [parseVariants, Except.toOption, pure, Except.pure]
  | cons item items ih =>
    rw [parseVariants, List.mapM_cons]
    cases item.asStr with
    | none => rfl
    | some name =>
      simp only [ih, ← append_eraseDups_cons]
      cases List.mapM JsonValue.asStr items <;> rfl

theorem eraseDups_ne_nil {names : List String} (h : names ≠ []) : names.eraseDups ≠ [] := by
  cases names with
  | nil => exact absurd rfl h
  | cons name names =>
    rw [List.eraseDups_cons]
    exact List.cons_ne_nil _ _

theorem source_eq (apart : Option JsonValue) (key key' : String) (options : JsonMap) :
    source apart [key, key'] options = (apart.or (options.get key)).or (options.get key') := by
  cases apart with
  | some value => rfl
  | none => cases h : options.get key <;> simp [source, h]

theorem parseEnumType_toOption (inlineValues : Option JsonValue)
    (inlineOptions fieldOptions : Option JsonMap) (path : String) :
    (parseEnumType inlineValues inlineOptions fieldOptions path).toOption =
      (readVariants (source inlineValues ["values", "in"]
        (mergeOptions inlineOptions fieldOptions))).map .enum := by
  rw [source_eq]
  simp only [parseEnumType, JsonMap.remove_fst]
  cases (inlineValues.or (JsonMap.get (mergeOptions inlineOptions fieldOptions) "values")).or
    (JsonMap.get (mergeOptions inlineOptions fieldOptions) "in") with
  | none => rfl
  | some value =>
    simp only [readVariants, Option.bind_eq_bind, Option.bind_some]
    cases value.asArray with
    | none => rfl
    | some items =>
      simp only [toOption_bind, parseVariants_toOption, Option.bind_some]
      cases List.mapM JsonValue.asStr items with
      | none => rfl
      | some names =>
        cases names with
        | nil => rfl
        | cons name names =>
          simp [List.eraseDups_cons, Except.toOption, pure, Except.pure, bind, Except.bind]

theorem parseExtra_toOption (x : Externals) (value : Option JsonValue) (path : String) :
    (parseExtra x value path).toOption = readExtra value := by
  rw [parseExtra.eq_def, readExtra.eq_def]
  split <;> simp_all [invalid, Except.toOption, pure, Except.pure]

theorem parsePresence_toOption (value : JsonValue) (path : String) :
    (parsePresence value path).toOption = readPresence value := by
  rw [parsePresence, readPresence]
  split <;> simp_all [invalid, Except.toOption, pure, Except.pure]

theorem removeFirst_none_cons (key : String) (keys : List String) (options : JsonMap) :
    removeFirst none (key :: keys) options =
      match options.get key with
      | some value => (some value, (options.remove key).2)
      | none => removeFirst none keys options := by
  rw [removeFirst]
  cases hget : options.get key with
  | some value => simp only [JsonMap.remove, hget]
  | none =>
    have hremove := JsonMap.remove_of_get_none hget
    rw [JsonMap.remove, hget] at hremove ⊢
    rw [Prod.mk.inj hremove |>.2]

theorem removeFirst_fst (apart : Option JsonValue) (keys : List String) (options : JsonMap) :
    (removeFirst apart keys options).1 = source apart keys options := by
  cases apart with
  | some value => simp [removeFirst, source]
  | none =>
    rw [source, Option.none_or]
    induction keys with
    | nil => rfl
    | cons key keys ih =>
      rw [removeFirst_none_cons, List.findSome?_cons]
      cases options.get key with
      | some value => rfl
      | none => exact ih

theorem removeFirst_get (apart : Option JsonValue) {keys : List String} {k : String}
    (hk : k ∉ keys) (options : JsonMap) :
    (removeFirst apart keys options).2.get k = options.get k := by
  cases apart with
  | some value => simp [removeFirst]
  | none =>
    induction keys with
    | nil => rfl
    | cons key keys ih =>
      rw [removeFirst_none_cons]
      cases options.get key with
      | some value => exact JsonMap.get_remove options fun heq => hk (heq ▸ List.mem_cons_self)
      | none => exact ih fun hmem => hk (List.mem_cons_of_mem _ hmem)

end SchemaCompiler
end RustlyCore
