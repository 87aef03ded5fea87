import RustlyCore.Schema.Options
import RustlyCore.Schema.Sharing

/-!
# What the parser reads

`read` is the parser without its errors and paths. The head of a type expression says how it goes
on: with an inner type, or with a kind of node and the options that the node is read from.
-/

namespace RustlyCore
namespace SchemaCompiler

/-- The kinds that a type name stands for. -/
inductive Kind where
  | any
  | bool
  | int
  | float
  | string
  | symbol
  | enum
  | list
  | dict
  | optional
  | struct
deriving DecidableEq

def Kind.ofName : String → Option Kind
  | "any" => some .any
  | "bool" | "boolean" => some .bool
  | "int" | "integer" => some .int
  | "float" | "double" => some .float
  | "str" | "string" => some .string
  | "sym" | "symbol" => some .symbol
  | "enum" => some .enum
  | "list" => some .list
  | "dict" => some .dict
  | "optional" => some .optional
  | "struct" => some .struct
  | _ => none

inductive Head where
  /-- The array notation of an optional, which hands the field options on. -/
  | optional (innerType : JsonValue)
  /-- `apart` is the value that an array notation gives next to its options. -/
  | named (kind : Kind) (apart : Option JsonValue) (options : JsonMap)

variable (x : Externals)

def namedHead (name : String) (options : JsonMap) : Option Head :=
  (Kind.ofName (x.toLowercase name)).map fun kind => .named kind none options

def arrayHead (items : List JsonValue) (fieldOptions : Option JsonMap) : Option Head :=
  match items with
  | [] => none
  | tag :: items =>
    match tag.asStr, items with
    | none, _ => none
    | some "optional", [] => none
    | some "optional", innerType :: _ => some (.optional innerType)
    | some "list", [] => none
    | some "list", elementType :: items =>
      some (.named .list (some elementType) (mergeOptions (inlineObject items) fieldOptions))
    | some "dict", [] => none
    | some "dict", valueType :: items =>
      some (.named .dict (some valueType) (mergeOptions (inlineObject items) fieldOptions))
    | some "enum", items => some (.named .enum items.head? (mergeOptions fieldOptions none))
    | some "struct", items =>
      some (.named .struct none (mergeOptions (inlineObject items) fieldOptions))
    | some other, _ => namedHead x other (mergeOptions none fieldOptions)

def head (value : JsonValue) (fieldOptions : Option JsonMap) : Option Head :=
  match value with
  | .string name => namedHead x name (mergeOptions none fieldOptions)
  | .object map =>
    ((JsonMap.get map "type").bind JsonValue.asStr).bind fun name =>
      namedHead x name (mergeOptions (some (inlineMapWithout map ["type"])) fieldOptions)
  | .array items => arrayHead x items fieldOptions
  | _ => none

/-- The type that the parser makes of a value, wherever it stands. -/
def read (value : JsonValue) (fieldOptions : Option JsonMap) : Option TypeExpr :=
  (parseTypeExpr x value fieldOptions rootPath).toOption

def readField : JsonValue → Option (FieldExpr TypeExpr)
  | .array (presenceRaw :: nameValue :: typeValue :: items) => do
    let presence ← readPresence presenceRaw
    let name ← nameValue.asStr
    let ty ← read x typeValue (inlineObject items)
    return ⟨name, presence, ty⟩
  | _ => none

def readFields (value : JsonValue) : Option (List (FieldExpr TypeExpr)) := do
  (← value.asArray).mapM (readField x)

def readNamed (kind : Kind) (apart : Option JsonValue) (options : JsonMap) : Option TypeExpr :=
  match kind with
  | .any => some (.primitive .any)
  | .bool => some (.primitive .bool)
  | .int => do return .primitive (.int (← readInts options))
  | .float => do return .primitive (.float (← readFloats options))
  | .string => do return .primitive (.string (← readStrings options))
  | .symbol => some (.primitive .symbol)
  | .enum => (readVariants (source apart ["values", "in"] options)).map .enum
  | .list => do
    let of ← read x (← source apart ["of", "item"] options) none
    return .list of (← readCollections options)
  | .dict => do
    let value ← read x (← source apart ["values", "value"] options) none
    return .dict value (← readCollections options)
  | .optional => do return .optional (← read x (← source apart ["of"] options) none)
  | .struct => do
    let fieldsValue ← options.get "fields"
    let extra ← readExtra (options.get "extra")
    return .struct (← readFields x fieldsValue) extra

def readHead (fieldOptions : Option JsonMap) : Head → Option TypeExpr
  | .optional innerType => (read x innerType fieldOptions).map .optional
  | .named kind apart options => readNamed x kind apart options

/-! ## Sizes -/

noncomputable def Head.size (fieldOptions : Option JsonMap) : Head → Nat
  | .optional innerType => sizeOf innerType + sizeOfOptions fieldOptions + 1
  | .named _ apart options => sizeOfGiven apart + sizeOf options

variable {x}

theorem namedHead_size {name : String} {options : JsonMap} {fieldOptions : Option JsonMap}
    {h : Head} (hh : namedHead x name options = some h) : h.size fieldOptions = sizeOf options := by
  obtain ⟨kind, -, rfl⟩ := Option.map_eq_some_iff.1 hh
  simp [Head.size, sizeOfGiven]

@[simp] theorem sizeOfOptions_none : sizeOfOptions none = 0 := rfl

@[simp] theorem sizeOfOptions_some (map : JsonMap) : sizeOfOptions (some map) = sizeOf map := rfl

theorem sizeOf_head? (items : List JsonValue) : sizeOfGiven items.head? ≤ sizeOf items := by
  cases items with
  | nil => exact Nat.zero_le _
  | cons item items =>
    simp only [List.head?_cons, sizeOfGiven, List.cons.sizeOf_spec]
    omega

theorem arrayHead_size {items : List JsonValue} {fieldOptions : Option JsonMap} {h : Head}
    (hh : arrayHead x items fieldOptions = some h) :
    h.size fieldOptions ≤ sizeOf items + sizeOfOptions fieldOptions + 1 := by
  have hfield := sizeOf_mergeOptions none fieldOptions
  have hfield' := sizeOf_mergeOptions fieldOptions none
  have hinline (items : List JsonValue) : sizeOf (mergeOptions (inlineObject items) fieldOptions) ≤
      sizeOf items + sizeOfOptions fieldOptions + 1 :=
    (sizeOf_mergeOptions _ _).trans (by have := sizeOf_inlineObject items; omega)
  simp only [sizeOfOptions_none] at hfield hfield'
  rw [arrayHead.eq_def] at hh
  split at hh
  next => cases hh
  next tag items =>
    rw [List.cons.sizeOf_spec]
    split at hh
    next => cases hh
    next => cases hh
    next innerType items =>
      cases hh
      rw [Head.size, List.cons.sizeOf_spec]
      omega
    next => cases hh
    next elementType items _ =>
      cases hh
      have := hinline items
      rw [Head.size, sizeOfGiven, List.cons.sizeOf_spec]
      omega
    next => cases hh
    next valueType items _ =>
      cases hh
      have := hinline items
      rw [Head.size, sizeOfGiven, List.cons.sizeOf_spec]
      omega
    next items _ _ _ =>
      cases hh
      have := sizeOf_head? items
      rw [Head.size]
      omega
    next items _ _ _ =>
      cases hh
      have := hinline items
      rw [Head.size, sizeOfGiven]
      omega
    next =>
      rw [namedHead_size hh]
      omega

/-! ## Reading does not depend on the path

Every step takes it that the smaller values are read alike under all paths; the induction is on
the size of a value and its field options.
-/

variable (x) in
def PathFree (value : JsonValue) (fieldOptions : Option JsonMap) : Prop :=
  ∀ path, (parseTypeExpr x value fieldOptions path).toOption = read x value fieldOptions

variable (x) in
def PathFreeBelow (n : Nat) : Prop :=
  ∀ value fieldOptions, sizeOf value + sizeOfOptions fieldOptions < n →
    PathFree x value fieldOptions

theorem PathFreeBelow.mono {m n : Nat} (h : PathFreeBelow x n) (hle : m ≤ n) :
    PathFreeBelow x m := by
  intro value fieldOptions hlt
  exact h value fieldOptions (hlt.trans_le hle)

theorem sizeOf_source {apart : Option JsonValue} {keys : List String} {options : JsonMap}
    {value : JsonValue} (h : source apart keys options = some value) :
    sizeOf value < sizeOfGiven apart + sizeOf options :=
  sizeOf_removeFirst ((removeFirst_fst apart keys options).trans h)

section
variable {apart : Option JsonValue} {options : JsonMap}
  (ih : PathFreeBelow x (sizeOfGiven apart + sizeOf options))
include ih

theorem parseListType_toOption (path : String) :
    (parseListType x apart options path).toOption = readNamed x .list apart options := by
  have hsource := removeFirst_fst apart ["of", "item"] options
  have hget {k : String} (hk : k ∉ ["of", "item"]) := removeFirst_get apart hk options
  rw [parseListType, readNamed, ← hsource]
  split
  next heq => simp [heq, invalid, Except.toOption]
  next value rest heq =>
    rw [heq] at hsource hget
    have hvalue := ih value none (by simpa using sizeOf_source hsource.symm)
    simp only [heq, toOption_bind, hvalue _, applyCollectionConstraints_toOption]
    rw [← readCollections_congr (hget (by decide)) (hget (by decide))]
    rfl

theorem parseDictType_toOption (path : String) :
    (parseDictType x apart options path).toOption = readNamed x .dict apart options := by
  have hsource := removeFirst_fst apart ["values", "value"] options
  have hget {k : String} (hk : k ∉ ["values", "value"]) := removeFirst_get apart hk options
  rw [parseDictType, readNamed, ← hsource]
  split
  next heq => simp [heq, invalid, Except.toOption]
  next value rest heq =>
    rw [heq] at hsource hget
    have hvalue := ih value none (by simpa using sizeOf_source hsource.symm)
    simp only [heq, toOption_bind, hvalue _, applyCollectionConstraints_toOption]
    rw [← readCollections_congr (hget (by decide)) (hget (by decide))]
    rfl

theorem parseOptionalType_toOption (path : String) :
    (parseOptionalType x apart options path).toOption = readNamed x .optional apart options := by
  have hsource := removeFirst_fst apart ["of"] options
  rw [parseOptionalType, readNamed, ← hsource]
  split
  next heq => simp [heq, invalid, Except.toOption]
  next value rest heq =>
    rw [heq] at hsource
    have hvalue := ih value none (by simpa using sizeOf_source hsource.symm)
    simp only [heq, toOption_bind, hvalue _]
    rfl

end

theorem parseFieldEntry_toOption {entry : JsonValue} (ih : PathFreeBelow x (sizeOf entry))
    (path : String) : (parseFieldEntry x entry path).toOption = readField x entry := by
  rw [parseFieldEntry.eq_def]
  split
  next presenceRaw nameValue typeValue items =>
    have hty : PathFree x typeValue (inlineObject items) := by
      apply ih
      have := sizeOf_inlineObject items
      simp only [JsonValue.array.sizeOf_spec, List.cons.sizeOf_spec]
      omega
    simp only [readField, toOption_bind, parsePresence_toOption]
    congr 1
    funext presence
    cases nameValue.asStr with
    | none => rfl
    | some name =>
      simp only [toOption_bind, hty _]
      rfl
  next => simp_all [readField, invalid, Except.toOption]
  next => simp_all [readField, invalid, Except.toOption]

theorem parseFieldEntries_toOption {entries : List JsonValue}
    (ih : PathFreeBelow x (sizeOf entries)) (index : Nat) (path : String) :
    (parseFieldEntries x index entries path).toOption = entries.mapM (readField x) := by
  induction entries generalizing index with
  | nil =>
    rw [parseFieldEntries]
    rfl
  | cons entry entries ihe =>
    rw [List.cons.sizeOf_spec] at ih
    have hentry : ∀ path, (parseFieldEntry x entry path).toOption = readField x entry :=
      parseFieldEntry_toOption fun value options h => ih value options (by omega)
    have hentries := ihe fun value options h => ih value options (by omega)
    simp only [parseFieldEntries, toOption_bind, hentry, hentries, List.mapM_cons]
    rfl

theorem parseFieldsArray_toOption {value : JsonValue} (ih : PathFreeBelow x (sizeOf value))
    (path : String) : (parseFieldsArray x value path).toOption = readFields x value := by
  rw [parseFieldsArray.eq_def]
  cases value with
  | array entries =>
    rw [JsonValue.array.sizeOf_spec] at ih
    exact parseFieldEntries_toOption (fun value options h => ih value options (by omega)) 0 path
  | _ => rfl

theorem parseStructType_toOption {options : JsonMap} (ih : PathFreeBelow x (sizeOf options))
    (path : String) :
    (parseStructType x none options path).toOption = readNamed x .struct none options := by
  have hsource := removeFirst_fst none ["fields"] options
  have hget : (removeFirst none ["fields"] options).2.get "extra" = options.get "extra" :=
    removeFirst_get none (by decide) options
  have hfields : source none ["fields"] options = options.get "fields" := by
    cases h : options.get "fields" <;> simp [source, h]
  rw [hfields] at hsource
  rw [parseStructType, readNamed, ← hsource]
  split
  next heq =>
    have heq : removeFirst none ["fields"] options = _ := heq
    simp [heq, invalid, Except.toOption]
  next value rest heq =>
    have heq : removeFirst none ["fields"] options = _ := heq
    rw [heq] at hsource hget
    have hvalue : PathFreeBelow x (sizeOf value) := fun value' options' h =>
      ih value' options' (h.trans (sizeOf_get hsource.symm))
    simp only [heq, toOption_bind, JsonMap.remove_fst, hget, parseExtra_toOption,
      parseFieldsArray_toOption hvalue]
    rfl

theorem parseNamedType_toOption {inlineOptions fieldOptions : Option JsonMap}
    (ih : PathFreeBelow x (sizeOf (mergeOptions inlineOptions fieldOptions))) (name path : String) :
    (parseNamedType x name inlineOptions fieldOptions path).toOption =
      (namedHead x name (mergeOptions inlineOptions fieldOptions)).bind
        (readHead x fieldOptions) := by
  have ih' : PathFreeBelow x
      (sizeOfGiven none + sizeOf (mergeOptions inlineOptions fieldOptions)) := by
    simpa [sizeOfGiven] using ih
  rw [parseNamedType, namedHead, Option.bind_map]
  generalize x.toLowercase name = canonical
  fun_cases Kind.ofName canonical
  case case1 | case2 | case3 | case10 | case11 => rfl
  case case4 | case5 =>
    simp only [toOption_bind, applyIntConstraints_toOption]
    rfl
  case case6 | case7 =>
    simp only [toOption_bind, applyFloatConstraints_toOption]
    rfl
  case case8 | case9 =>
    simp only [toOption_bind, applyStringConstraints_toOption]
    rfl
  case case12 => exact parseEnumType_toOption none inlineOptions fieldOptions path
  case case13 => exact parseListType_toOption ih' path
  case case14 => exact parseDictType_toOption ih' path
  case case15 => exact parseOptionalType_toOption ih' path
  case case16 => exact parseStructType_toOption ih path
  case case17 =>
    split <;> first | rfl | simp_all

theorem parseArrayType_toOption {items : List JsonValue} {fieldOptions : Option JsonMap}
    (ih : PathFreeBelow x (sizeOf items + sizeOfOptions fieldOptions + 1)) (path : String) :
    (parseArrayType x items fieldOptions path).toOption =
      (arrayHead x items fieldOptions).bind (readHead x fieldOptions) := by
  have hsize {h : Head} (hh : arrayHead x items fieldOptions = some h) :
      PathFreeBelow x (h.size fieldOptions) :=
    ih.mono (arrayHead_size hh)
  rw [parseArrayType.eq_def]
  split
  next => rfl
  next tag items =>
    split
    next heq => simp [arrayHead, heq, invalid, Except.toOption]
    next heq => simp [arrayHead, heq, invalid, Except.toOption]
    next innerType rest heq =>
      have hhead : arrayHead x (tag :: innerType :: rest) fieldOptions =
          some (.optional innerType) := by simp [arrayHead, heq]
      have hinner : PathFree x innerType fieldOptions := hsize hhead _ _ (Nat.lt_succ_self _)
      simp only [hhead, toOption_bind, hinner _, Option.bind_some, readHead]
      cases read x innerType fieldOptions <;> rfl
    next heq => simp [arrayHead, heq, invalid, Except.toOption]
    next elementType rest heq =>
      have hhead : arrayHead x (tag :: elementType :: rest) fieldOptions = some
          (.named .list (some elementType) (mergeOptions (inlineObject rest) fieldOptions)) := by
        simp [arrayHead, heq]
      rw [hhead]
      exact parseListType_toOption (hsize hhead) path
    next heq => simp [arrayHead, heq, invalid, Except.toOption]
    next valueType rest heq =>
      have hhead : arrayHead x (tag :: valueType :: rest) fieldOptions = some
          (.named .dict (some valueType) (mergeOptions (inlineObject rest) fieldOptions)) := by
        simp [arrayHead, heq]
      rw [hhead]
      exact parseDictType_toOption (hsize hhead) path
    next rest _ _ heq =>
      have hhead : arrayHead x (tag :: rest) fieldOptions = some
          (.named .enum rest.head? (mergeOptions fieldOptions none)) := by
        simp [arrayHead, heq]
      rw [hhead]
      exact parseEnumType_toOption rest.head? fieldOptions none path
    next rest _ _ heq =>
      have hhead : arrayHead x (tag :: rest) fieldOptions = some
          (.named .struct none (mergeOptions (inlineObject rest) fieldOptions)) := by
        simp [arrayHead, heq]
      rw [hhead]
      exact parseStructType_toOption (by simpa [Head.size, sizeOfGiven] using hsize hhead) path
    next rest _ _ other _ _ heq _ _ _ _ _ _ =>
      have hhead : arrayHead x (tag :: rest) fieldOptions =
          namedHead x other (mergeOptions none fieldOptions) := by
        rw [arrayHead.eq_def]
        simp only [heq]
      have hmerge : PathFreeBelow x (sizeOf (mergeOptions none fieldOptions)) := by
        have := sizeOf_mergeOptions none fieldOptions
        apply ih.mono
        simp only [sizeOfOptions_none, List.cons.sizeOf_spec] at this ⊢
        omega
      rw [hhead]
      exact parseNamedType_toOption hmerge other path

theorem parseTypeExpr_step {value : JsonValue} {fieldOptions : Option JsonMap}
    (ih : PathFreeBelow x (sizeOf value + sizeOfOptions fieldOptions)) (path : String) :
    (parseTypeExpr x value fieldOptions path).toOption =
      (head x value fieldOptions).bind (readHead x fieldOptions) := by
  rw [parseTypeExpr.eq_def]
  cases value with
  | null | bool | number => rfl
  | string name =>
    refine parseNamedType_toOption (ih.mono ?_) name path
    have := sizeOf_mergeOptions none fieldOptions
    simp only [sizeOfOptions_none, JsonValue.string.sizeOf_spec] at this ⊢
    omega
  | array items =>
    refine parseArrayType_toOption (ih.mono ?_) path
    rw [JsonValue.array.sizeOf_spec]
    omega
  | object map =>
    dsimp only
    rw [head]
    cases (JsonMap.get map "type").bind JsonValue.asStr with
    | none => rfl
    | some name =>
      refine parseNamedType_toOption (ih.mono ?_) name path
      have := sizeOf_mergeOptions (some (inlineMapWithout map ["type"])) fieldOptions
      have := sizeOf_inlineMapWithout map ["type"]
      simp only [sizeOfOptions_some, JsonValue.object.sizeOf_spec] at *
      omega

theorem pathFreeBelow (n : Nat) : PathFreeBelow x n := by
  induction n with
  | zero => exact fun _ _ hlt => absurd hlt (Nat.not_lt_zero _)
  | succ n ih =>
    intro value fieldOptions hlt path
    have hsmall := ih.mono (Nat.le_of_lt_succ hlt)
    rw [read, parseTypeExpr_step hsmall, parseTypeExpr_step hsmall]

theorem parseTypeExpr_toOption (value : JsonValue) (fieldOptions : Option JsonMap) (path : String) :
    (parseTypeExpr x value fieldOptions path).toOption = read x value fieldOptions :=
  pathFreeBelow _ value fieldOptions (Nat.lt_succ_self _) path

theorem read_of_ok {value : JsonValue} {fieldOptions : Option JsonMap} {path : String}
    {e : TypeExpr} (h : parseTypeExpr x value fieldOptions path = .ok e) :
    read x value fieldOptions = some e := by
  rw [← parseTypeExpr_toOption value fieldOptions path, h]
  rfl

theorem ok_of_read {value : JsonValue} {fieldOptions : Option JsonMap} {e : TypeExpr}
    (h : read x value fieldOptions = some e) (path : String) :
    parseTypeExpr x value fieldOptions path = .ok e := by
  rw [← parseTypeExpr_toOption value fieldOptions path] at h
  cases hparse : parseTypeExpr x value fieldOptions path with
  | ok e' =>
    rw [hparse] at h
    cases h
    rfl
  | error =>
    rw [hparse] at h
    cases h

theorem read_eq (value : JsonValue) (fieldOptions : Option JsonMap) :
    read x value fieldOptions = (head x value fieldOptions).bind (readHead x fieldOptions) :=
  parseTypeExpr_step (pathFreeBelow _) rootPath

/-- An accepted type is an optional that hands its options on, or a node of a named kind. -/
theorem read_cases {value : JsonValue} {fieldOptions : Option JsonMap} {e : TypeExpr}
    (h : read x value fieldOptions = some e) :
    (∃ innerType inner, head x value fieldOptions = some (.optional innerType) ∧
      read x innerType fieldOptions = some inner ∧ e = .optional inner) ∨
    ∃ kind apart options, head x value fieldOptions = some (.named kind apart options) ∧
      readNamed x kind apart options = some e := by
  rw [read_eq] at h
  obtain ⟨hd, hhead, hread⟩ := Option.bind_eq_some_iff.1 h
  cases hd with
  | optional innerType =>
    obtain ⟨inner, hinner, rfl⟩ := Option.map_eq_some_iff.1 hread
    exact .inl ⟨innerType, inner, hhead, hinner, rfl⟩
  | named kind apart options => exact .inr ⟨kind, apart, options, hhead, hread⟩

/-- What a node of a kind is read from. -/
inductive ReadsNamed (x : Externals) (apart : Option JsonValue) (options : JsonMap) :
    Kind → TypeExpr → Prop
  | any : ReadsNamed x apart options .any (.primitive .any)
  | bool : ReadsNamed x apart options .bool (.primitive .bool)
  | int {c : IntConstraints} : readInts options = some c →
    ReadsNamed x apart options .int (.primitive (.int c))
  | float {c : FloatConstraints} : readFloats options = some c →
    ReadsNamed x apart options .float (.primitive (.float c))
  | string {c : StringConstraints} : readStrings options = some c →
    ReadsNamed x apart options .string (.primitive (.string c))
  | symbol : ReadsNamed x apart options .symbol (.primitive .symbol)
  | enum {variants : List String} :
    readVariants (source apart ["values", "in"] options) = some variants →
    ReadsNamed x apart options .enum (.enum variants)
  | list {type : JsonValue} {of : TypeExpr} {c : CollectionConstraints} :
    source apart ["of", "item"] options = some type → read x type none = some of →
    readCollections options = some c → ReadsNamed x apart options .list (.list of c)
  | dict {type : JsonValue} {of : TypeExpr} {c : CollectionConstraints} :
    source apart ["values", "value"] options = some type → read x type none = some of →
    readCollections options = some c → ReadsNamed x apart options .dict (.dict of c)
  | optional {type : JsonValue} {inner : TypeExpr} :
    source apart ["of"] options = some type → read x type none = some inner →
    ReadsNamed x apart options .optional (.optional inner)
  | struct {fieldsValue : JsonValue} {extra : ExtraBehavior} {fields : List (FieldExpr TypeExpr)} :
    options.get "fields" = some fieldsValue → readExtra (options.get "extra") = some extra →
    readFields x fieldsValue = some fields →
    ReadsNamed x apart options .struct (.struct fields extra)

theorem ReadsNamed.of_read {kind : Kind} {apart : Option JsonValue} {options : JsonMap}
    {e : TypeExpr} (h : readNamed x kind apart options = some e) :
    ReadsNamed x apart options kind e := by
  cases kind with
  | any =>
    cases h
    exact .any
  | bool =>
    cases h
    exact .bool
  | symbol =>
    cases h
    exact .symbol
  | int =>
    obtain ⟨c, hc, h⟩ := Option.bind_eq_some_iff.1 h
    cases h
    exact .int hc
  | float =>
    obtain ⟨c, hc, h⟩ := Option.bind_eq_some_iff.1 h
    cases h
    exact .float hc
  | string =>
    obtain ⟨c, hc, h⟩ := Option.bind_eq_some_iff.1 h
    cases h
    exact .string hc
  | enum =>
    obtain ⟨variants, hvariants, rfl⟩ := Option.map_eq_some_iff.1 h
    exact .enum hvariants
  | list =>
    obtain ⟨type, htype, h⟩ := Option.bind_eq_some_iff.1 h
    obtain ⟨of, hof, h⟩ := Option.bind_eq_some_iff.1 h
    obtain ⟨c, hc, h⟩ := Option.bind_eq_some_iff.1 h
    cases h
    exact .list htype hof hc
  | dict =>
    obtain ⟨type, htype, h⟩ := Option.bind_eq_some_iff.1 h
    obtain ⟨of, hof, h⟩ := Option.bind_eq_some_iff.1 h
    obtain ⟨c, hc, h⟩ := Option.bind_eq_some_iff.1 h
    cases h
    exact .dict htype hof hc
  | optional =>
    obtain ⟨type, htype, h⟩ := Option.bind_eq_some_iff.1 h
    obtain ⟨inner, hinner, h⟩ := Option.bind_eq_some_iff.1 h
    cases h
    exact .optional htype hinner
  | struct =>
    obtain ⟨fieldsValue, hvalue, h⟩ := Option.bind_eq_some_iff.1 h
    obtain ⟨extra, hextra, h⟩ := Option.bind_eq_some_iff.1 h
    obtain ⟨fields, hfields, h⟩ := Option.bind_eq_some_iff.1 h
    cases h
    exact .struct hvalue hextra hfields

theorem parseFieldEntry_read (entry : JsonValue) (path : String) :
    (parseFieldEntry x entry path).toOption = readField x entry :=
  parseFieldEntry_toOption (pathFreeBelow _) path

/-- A node is read through the lookups of its options, and none of them is for its type. -/
theorem readNamed_congr (kind : Kind) (apart : Option JsonValue) {options options' : JsonMap}
    (h : ∀ k, k ≠ "type" → options.get k = options'.get k) :
    readNamed x kind apart options = readNamed x kind apart options' := by
  have hsource {keys : List String} (hk : "type" ∉ keys) :
      source apart keys options = source apart keys options' :=
    source_congr fun k hmem => h k fun heq => hk (heq ▸ hmem)
  cases kind with
  | any | bool | symbol => rfl
  | int => rw [readNamed, readInts, h _ (by decide), h _ (by decide)]; rfl
  | float => rw [readNamed, readFloats, h _ (by decide), h _ (by decide)]; rfl
  | string =>
    rw [readNamed, readStrings, h _ (by decide), h _ (by decide), h _ (by decide)]
    rfl
  | enum => rw [readNamed, hsource (by decide)]; rfl
  | list | dict =>
    rw [readNamed, hsource (by decide),
      readCollections_congr (h _ (by decide)) (h _ (by decide))]
    rfl
  | optional => rw [readNamed, hsource (by decide)]; rfl
  | struct => rw [readNamed, h _ (by decide), h _ (by decide)]; rfl

/-! ## Agreement -/

end SchemaCompiler

theorem TypeExpr.SameFields.refl {fs : List (FieldExpr TypeExpr)} (h : ∀ f ∈ fs, f.ty.Same f.ty) :
    SameFields fs fs := by
  induction fs with
  | nil => trivial
  | cons f fs ih =>
    exact ⟨rfl, rfl, h f List.mem_cons_self, ih fun g hg => h g (List.mem_cons_of_mem _ hg)⟩

theorem TypeExpr.Same.refl (e : TypeExpr) : e.Same e := by
  induction e with
  | primitive p => exact BEq.rfl (α := PrimitiveType)
  | enum variants => rfl
  | optional inner ih => exact ih
  | list of c ih | dict of c ih => exact ⟨ih, rfl⟩
  | struct fields extra ih => exact ⟨.refl ih, rfl⟩

theorem optionRel_map {α β γ δ : Type} {r : γ → δ → Prop} {f : α → γ} {g : β → δ}
    {a : Option α} {b : Option β} :
    Option.Rel r (a.map f) (b.map g) ↔ Option.Rel (fun c d => r (f c) (g d)) a b := by
  constructor
  · intro h
    cases a <;> cases b
    · exact .none
    · cases h
    · cases h
    · cases h with
      | some h => exact .some h
  · intro h
    cases h with
    | none => exact .none
    | some h => exact .some h

namespace SchemaCompiler

/-- Both are rejected, or both are accepted and equal. -/
def Agree (a b : Option TypeExpr) : Prop := Option.Rel TypeExpr.Same a b

theorem Agree.refl (a : Option TypeExpr) : Agree a a := by
  cases a with
  | none => exact .none
  | some e => exact .some (.refl e)

theorem Agree.bind {α : Type} {r : α → α → Prop} {a b : Option α} {f g : α → Option TypeExpr}
    (h : Option.Rel r a b) (hf : ∀ c d, r c d → Agree (f c) (g d)) :
    Agree (a.bind f) (b.bind g) := by
  cases h with
  | none => exact .none
  | some h => exact hf _ _ h

end SchemaCompiler
end RustlyCore
