import RustlyCore.Schema.Reading

/-!
# Field options

A field can add options to its type. They go down the optionals in array notation; the node below
them reads its constraints from them, where it has no options of its own.
-/

namespace RustlyCore.SchemaCompiler

variable {x : Externals}

/-! ## Field options over the options of a type -/

/-- `o` holds what `o₀` holds, else what the field options hold. -/
structure Over (fieldOptions : JsonMap) (o₀ o : JsonMap) : Prop where
  distinct : o₀.DistinctKeys
  get (k : String) : o.get k = (o₀.get k).or (latest fieldOptions k)

/-- How a head changes under field options: only the options of a named kind do. -/
inductive HeadOver (fieldOptions : JsonMap) : Option Head → Option Head → Prop
  | none : HeadOver fieldOptions none none
  | optional (innerType : JsonValue) :
    HeadOver fieldOptions (some (.optional innerType)) (some (.optional innerType))
  | named (kind : Kind) (apart : Option JsonValue) {o₀ o : JsonMap} : Over fieldOptions o₀ o →
    HeadOver fieldOptions (some (.named kind apart o₀)) (some (.named kind apart o))

theorem over_mergeOptions (inlineOptions : Option JsonMap) (fieldOptions : JsonMap) :
    Over fieldOptions (mergeOptions inlineOptions none)
      (mergeOptions inlineOptions (some fieldOptions)) where
  distinct := (sorted_mergeOptions _ _).distinctKeys
  get k := by simp [get_mergeOptions]

theorem namedHead_over (name : String) (inlineOptions : Option JsonMap) (fieldOptions : JsonMap) :
    HeadOver fieldOptions (namedHead x name (mergeOptions inlineOptions none))
      (namedHead x name (mergeOptions inlineOptions (some fieldOptions))) := by
  rw [namedHead, namedHead]
  cases Kind.ofName (x.toLowercase name) with
  | none => exact .none
  | some kind => exact .named kind none (over_mergeOptions inlineOptions fieldOptions)

theorem arrayHead_over (items : List JsonValue) (fieldOptions : JsonMap) :
    HeadOver fieldOptions (arrayHead x items none) (arrayHead x items (some fieldOptions)) := by
  rw [arrayHead.eq_def, arrayHead.eq_def]
  split
  next => exact .none
  next tag items =>
    split
    next => exact .none
    next => exact .none
    next innerType _ _ => exact .optional innerType
    next => exact .none
    next => exact .named _ _ (over_mergeOptions _ _)
    next => exact .none
    next => exact .named _ _ (over_mergeOptions _ _)
    next =>
      refine .named _ _ ⟨(sorted_mergeOptions _ _).distinctKeys, fun k => ?_⟩
      simp [get_mergeOptions]
    next => exact .named _ _ (over_mergeOptions _ _)
    next => exact namedHead_over _ none _

theorem head_over (value : JsonValue) (fieldOptions : JsonMap) :
    HeadOver fieldOptions (head x value none) (head x value (some fieldOptions)) := by
  cases value with
  | null | bool | number => exact .none
  | string name => exact namedHead_over name none fieldOptions
  | array items => exact arrayHead_over items fieldOptions
  | object map =>
    rw [head, head]
    cases (JsonMap.get map "type").bind JsonValue.asStr with
    | none => exact .none
    | some name => exact namedHead_over name _ fieldOptions

/-- Only an array can be an optional that hands its field options on. -/
theorem head_optional {value innerType : JsonValue} {fieldOptions : Option JsonMap}
    (h : head x value fieldOptions = some (.optional innerType)) :
    ∃ rest, value = .array (.string "optional" :: innerType :: rest) := by
  have hnamed {name : String} {options : JsonMap} :
      namedHead x name options ≠ some (.optional innerType) := by
    cases hkind : Kind.ofName (x.toLowercase name) <;> simp [namedHead, hkind]
  cases value with
  | null | bool | number => cases h
  | string name => exact absurd h hnamed
  | object map =>
    obtain ⟨name, -, h⟩ := Option.bind_eq_some_iff.1 h
    exact absurd h hnamed
  | array items =>
    rw [head, arrayHead.eq_def] at h
    split at h
    next => cases h
    next tag items =>
      split at h
      case h_3 heq =>
        cases h
        cases tag <;> cases heq
        exact ⟨_, rfl⟩
      case h_10 => exact absurd h hnamed
      all_goals cases h

/-- The type below the optionals in array notation. -/
def target : JsonValue → JsonValue
  | .array (.string "optional" :: innerType :: _) => target innerType
  | value => value

theorem read_optional (innerType : JsonValue) (rest : List JsonValue)
    (fieldOptions : Option JsonMap) :
    read x (.array (.string "optional" :: innerType :: rest)) fieldOptions =
      (read x innerType fieldOptions).map .optional := by
  rw [read_eq]
  rfl

/-- Any other type is read from the options of a named kind, if at all. -/
theorem read_over {value : JsonValue}
    (hne : ∀ innerType rest, value = .array (.string "optional" :: innerType :: rest) → False)
    (fieldOptions : JsonMap) :
    (head x value none = none ∧ read x value none = none ∧
      read x value (some fieldOptions) = none) ∨
    ∃ kind apart o₀ o, Over fieldOptions o₀ o ∧ head x value none = some (.named kind apart o₀) ∧
      read x value none = readNamed x kind apart o₀ ∧
      read x value (some fieldOptions) = readNamed x kind apart o := by
  have hover := head_over (x := x) value fieldOptions
  rw [read_eq, read_eq]
  generalize hhead : head x value none = h at *
  generalize head x value (some fieldOptions) = h' at *
  cases hover with
  | none => exact .inl ⟨rfl, rfl, rfl⟩
  | optional innerType =>
    obtain ⟨rest, heq⟩ := head_optional hhead
    exact (hne _ _ heq).elim
  | named kind apart hover => exact .inr ⟨kind, apart, _, _, hover, rfl, rfl, rfl⟩

/-! ## Field options stay at one node -/

def constraintKeys : List String := ["min", "max", "min_size", "max_size", "format"]

/-- A slot that is set stays, an unset one takes what the field options hold under its key. -/
def Inherits {α : Type} (parse : JsonValue → Option α) (fieldOptions : JsonMap) (key : String)
    (s₀ s : Option α) : Prop :=
  match s₀, fieldOptions.get key with
  | some a, _ => s = some a
  | none, some value => ∃ a, parse value = some a ∧ s = some a
  | none, none => s = none

/-- What field options make of a node: its constraints inherit, its parts do not change. -/
def InheritsNode (fieldOptions : JsonMap) : TypeExpr → TypeExpr → Prop
  | .primitive (.int c₀), .primitive (.int c) =>
    Inherits JsonValue.asI64 fieldOptions "min" c₀.min c.min ∧
      Inherits JsonValue.asI64 fieldOptions "max" c₀.max c.max
  | .primitive (.float c₀), .primitive (.float c) =>
    Inherits readFloat fieldOptions "min" c₀.min c.min ∧
      Inherits readFloat fieldOptions "max" c₀.max c.max
  | .primitive (.string c₀), .primitive (.string c) =>
    Inherits readSize fieldOptions "min_size" c₀.minSize c.minSize ∧
      Inherits readSize fieldOptions "max_size" c₀.maxSize c.maxSize ∧
      Inherits readFormat fieldOptions "format" c₀.format c.format
  | .list of₀ c₀, .list of c | .dict of₀ c₀, .dict of c =>
    of = of₀ ∧ Inherits readSize fieldOptions "min_size" c₀.minSize c.minSize ∧
      Inherits readSize fieldOptions "max_size" c₀.maxSize c.maxSize
  | e₀, e => e = e₀

/-- The node that field options reach lies below the optionals in array notation. -/
inductive FieldScoped (fieldOptions : JsonMap) : JsonValue → TypeExpr → TypeExpr → Prop
  | optional {innerType : JsonValue} {rest : List JsonValue} {e₀ e : TypeExpr} :
    FieldScoped fieldOptions innerType e₀ e →
    FieldScoped fieldOptions (.array (.string "optional" :: innerType :: rest)) (.optional e₀)
      (.optional e)
  | node {value : JsonValue} {e₀ e : TypeExpr} :
    (∀ innerType rest, value = .array (.string "optional" :: innerType :: rest) → False) →
    InheritsNode fieldOptions e₀ e → FieldScoped fieldOptions value e₀ e

section
variable {fieldOptions o₀ o : JsonMap} (hdistinct : fieldOptions.DistinctKeys)
  (hover : Over fieldOptions o₀ o)
include hdistinct hover

theorem Over.get_eq (k : String) : o.get k = (o₀.get k).or (fieldOptions.get k) := by
  rw [hover.get k, latest_of_distinct hdistinct]

theorem slot_inherits {α : Type} {parse : JsonValue → Option α} {key : String} {s₀ s : Option α}
    (h₀ : slot parse (o₀.get key) = some s₀) (h : slot parse (o.get key) = some s) :
    Inherits parse fieldOptions key s₀ s := by
  rw [Over.get_eq hdistinct hover] at h
  cases hinline : o₀.get key with
  | some value =>
    rw [hinline] at h₀ h
    obtain ⟨a, -, rfl⟩ := Option.map_eq_some_iff.1 h₀
    exact Option.some.inj (h.symm.trans h₀)
  | none =>
    rw [hinline] at h₀ h
    cases h₀
    cases hfield : fieldOptions.get key with
    | none =>
      rw [hfield] at h
      cases h
      simp only [Inherits, hfield]
    | some value =>
      rw [hfield] at h
      simp only [Inherits, hfield]
      obtain ⟨a, ha, rfl⟩ := Option.map_eq_some_iff.1 h
      exact ⟨a, ha, rfl⟩

theorem readCollections_inherits {c₀ c : CollectionConstraints}
    (h₀ : readCollections o₀ = some c₀) (h : readCollections o = some c) :
    Inherits readSize fieldOptions "min_size" c₀.minSize c.minSize ∧
      Inherits readSize fieldOptions "max_size" c₀.maxSize c.maxSize := by
  obtain ⟨hmin₀, hmax₀⟩ := readCollections_eq_some.1 h₀
  obtain ⟨hmin, hmax⟩ := readCollections_eq_some.1 h
  exact ⟨slot_inherits hdistinct hover hmin₀ hmin, slot_inherits hdistinct hover hmax₀ hmax⟩

variable (hkeys : ∀ entry ∈ fieldOptions, entry.1 ∈ constraintKeys)
include hkeys

theorem Over.get_of_not_constraint {k : String} (hk : k ∉ constraintKeys) : o.get k = o₀.get k := by
  have hnone : fieldOptions.get k = none := by
    apply List.lookup_eq_none_iff.2
    intro entry he
    exact bne_iff_ne.2 fun heq => hk (heq ▸ hkeys entry he)
  rw [Over.get_eq hdistinct hover, hnone, Option.or_none]

theorem Over.source_eq {apart : Option JsonValue} {keys : List String}
    (h : ∀ k ∈ keys, k ∉ constraintKeys) : source apart keys o = source apart keys o₀ :=
  source_congr fun k hk => Over.get_of_not_constraint hdistinct hover hkeys (h k hk)

theorem readNamed_inherits {kind : Kind} {apart : Option JsonValue} {e₀ e : TypeExpr}
    (h₀ : readNamed x kind apart o₀ = some e₀) (h : readNamed x kind apart o = some e) :
    InheritsNode fieldOptions e₀ e := by
  have hsource {keys : List String} (h : ∀ k ∈ keys, k ∉ constraintKeys) :
      source apart keys o = source apart keys o₀ := Over.source_eq hdistinct hover hkeys h
  have hget {k : String} := Over.get_of_not_constraint hdistinct hover hkeys (k := k)
  cases ReadsNamed.of_read h₀ with
  | any | bool | symbol =>
    cases ReadsNamed.of_read h
    rfl
  | int hc₀ =>
    cases ReadsNamed.of_read h with
    | int hc =>
      obtain ⟨hmin₀, hmax₀⟩ := readInts_eq_some.1 hc₀
      obtain ⟨hmin, hmax⟩ := readInts_eq_some.1 hc
      exact ⟨slot_inherits hdistinct hover hmin₀ hmin, slot_inherits hdistinct hover hmax₀ hmax⟩
  | float hc₀ =>
    cases ReadsNamed.of_read h with
    | float hc =>
      obtain ⟨hmin₀, hmax₀⟩ := readFloats_eq_some.1 hc₀
      obtain ⟨hmin, hmax⟩ := readFloats_eq_some.1 hc
      exact ⟨slot_inherits hdistinct hover hmin₀ hmin, slot_inherits hdistinct hover hmax₀ hmax⟩
  | string hc₀ =>
    cases ReadsNamed.of_read h with
    | string hc =>
      obtain ⟨hmin₀, hmax₀, hformat₀⟩ := readStrings_eq_some.1 hc₀
      obtain ⟨hmin, hmax, hformat⟩ := readStrings_eq_some.1 hc
      exact ⟨slot_inherits hdistinct hover hmin₀ hmin, slot_inherits hdistinct hover hmax₀ hmax,
        slot_inherits hdistinct hover hformat₀ hformat⟩
  | enum hvariants₀ =>
    cases ReadsNamed.of_read h with
    | enum hvariants =>
      rw [hsource (by decide), hvariants₀] at hvariants
      cases hvariants
      rfl
  | list htype₀ hof₀ hc₀ =>
    cases ReadsNamed.of_read h with
    | list htype hof hc =>
      rw [hsource (by decide), htype₀] at htype
      cases htype
      cases hof₀.symm.trans hof
      exact ⟨rfl, readCollections_inherits hdistinct hover hc₀ hc⟩
  | dict htype₀ hof₀ hc₀ =>
    cases ReadsNamed.of_read h with
    | dict htype hof hc =>
      rw [hsource (by decide), htype₀] at htype
      cases htype
      cases hof₀.symm.trans hof
      exact ⟨rfl, readCollections_inherits hdistinct hover hc₀ hc⟩
  | optional htype₀ hinner₀ =>
    cases ReadsNamed.of_read h with
    | optional htype hinner =>
      rw [hsource (by decide), htype₀] at htype
      cases htype
      cases hinner₀.symm.trans hinner
      rfl
  | struct hvalue₀ hextra₀ hfields₀ =>
    cases ReadsNamed.of_read h with
    | struct hvalue hextra hfields =>
      rw [hget (by decide), hvalue₀] at hvalue
      rw [hget (by decide), hextra₀] at hextra
      cases hvalue
      cases hextra
      cases hfields₀.symm.trans hfields
      rfl

end

theorem read_scoped {fieldOptions : JsonMap} (hdistinct : fieldOptions.DistinctKeys)
    (hkeys : ∀ entry ∈ fieldOptions, entry.1 ∈ constraintKeys) {value : JsonValue}
    {e₀ e : TypeExpr} (h₀ : read x value none = some e₀)
    (h : read x value (some fieldOptions) = some e) : FieldScoped fieldOptions value e₀ e := by
  fun_induction target value generalizing e₀ e with
  | case1 innerType rest ih =>
    rw [read_optional] at h₀ h
    obtain ⟨inner₀, hinner₀, rfl⟩ := Option.map_eq_some_iff.1 h₀
    obtain ⟨inner, hinner, rfl⟩ := Option.map_eq_some_iff.1 h
    exact .optional (ih hinner₀ hinner)
  | case2 value hne =>
    rcases read_over hne fieldOptions with
      ⟨-, hnone, -⟩ | ⟨kind, apart, o₀, o, hover, -, hread₀, hread⟩
    · cases hnone.symm.trans h₀
    · exact .node hne (readNamed_inherits hdistinct hover hkeys (hread₀ ▸ h₀) (hread ▸ h))

/-- Field options with constraints only change the constraints of one node, the first below the
optionals in array notation; there the options of the type itself win. -/
theorem fieldOptions_scoped {fieldOptions : JsonMap} (hdistinct : fieldOptions.DistinctKeys)
    (hkeys : ∀ entry ∈ fieldOptions, entry.1 ∈ constraintKeys) {value : JsonValue} {path : String}
    {e₀ e : TypeExpr} (h₀ : parseTypeExpr x value none path = .ok e₀)
    (h : parseTypeExpr x value (some fieldOptions) path = .ok e) :
    FieldScoped fieldOptions value e₀ e :=
  read_scoped hdistinct hkeys (read_of_ok h₀) (read_of_ok h)

theorem fieldOptions_scoped_list :
    let x := Externals.reading "" .null
    let ints : TypeExpr := .primitive (.int {})
    let one : JsonValue := .number (.posInt 1)
    let two : JsonValue := .number (.posInt 2)
    let value : JsonValue := .array [.string "optional", .array [.string "list", .string "int",
      .object [("min_size", one)]]]
    let fieldOptions : JsonMap := [("max_size", two), ("min", one), ("min_size", two)]
    parseTypeExpr x value none "$" = .ok (.optional (.list ints ⟨some 1, none⟩)) ∧
    parseTypeExpr x value (some fieldOptions) "$" = .ok (.optional (.list ints ⟨some 1, some 2⟩)) ∧
    FieldScoped fieldOptions value (.optional (.list ints ⟨some 1, none⟩))
      (.optional (.list ints ⟨some 1, some 2⟩)) := by
  intro x ints one two value fieldOptions
  have hint : read x (.string "int") none = some ints := by
    rw [read_eq]
    rfl
  have hread {outer : Option JsonMap} {c : CollectionConstraints}
      (hc : readCollections (mergeOptions (some [("min_size", one)]) outer) = some c) :
      read x value outer = some (.optional (.list ints c)) := by
    rw [read_optional, read_eq]
    change Option.map _ ((read x (.string "int") none).bind fun of =>
      (readCollections (mergeOptions (some [("min_size", one)]) outer)).bind fun c =>
        some (TypeExpr.list of c)) = _
    rw [hint, hc]
    rfl
  have h₀ : parseTypeExpr x value none "$" = .ok (.optional (.list ints ⟨some 1, none⟩)) :=
    ok_of_read (hread (by decide)) "$"
  have h : parseTypeExpr x value (some fieldOptions) "$" =
      .ok (.optional (.list ints ⟨some 1, some 2⟩)) :=
    ok_of_read (hread (by decide)) "$"
  have hdistinct : fieldOptions.DistinctKeys :=
    show ["max_size", "min", "min_size"].Nodup by decide
  have hkeys : ∀ key ∈ ["max_size", "min", "min_size"], key ∈ constraintKeys := by decide
  refine ⟨h₀, h, fieldOptions_scoped hdistinct ?_ h₀ h⟩
  intro entry he
  exact hkeys _ (List.mem_map_of_mem he)

end RustlyCore.SchemaCompiler
