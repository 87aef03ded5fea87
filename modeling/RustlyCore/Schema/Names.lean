import Mathlib.Data.List.Nodup
import RustlyCore.Lib.Pointwise
import RustlyCore.Schema.Reading

/-!
# Names in a compiled schema

The variants of an enum are made distinct when they are read, the names of a struct are not. What an
IR holds is traced back to the places of the schema text that the parser reads.
-/

namespace RustlyCore

/-! ## Labels

The names that a node carries are those of the expression it was built for, and so is its extra
policy: interning only ever returns a node with the same ones.
-/

inductive Label where
  | enum (variants : List String)
  | struct (names : List String) (extra : ExtraBehavior)
  | unnamed

def TypeExpr.label : TypeExpr → Label
  | .enum variants => .enum variants
  | .struct fields extra => .struct (fields.map (·.name)) extra
  | _ => .unnamed

def Node.label : Node → Label
  | .enum variants => .enum variants
  | .struct fields extra => .struct (fields.map (·.name)) extra
  | _ => .unnamed

def SchemaArena.labels (arena : SchemaArena) : List Label := arena.nodes.map Node.label

/-- Whatever the table returns is a node of the arena. -/
def BuildState.Tabled (st : BuildState) : Prop :=
  ∀ entry ∈ st.intern.entries, entry.1 ∈ st.arena.nodes

/-- What a build step adds to the labels. -/
structure BuildState.Labels (st : BuildState) (labels : List Label) (st' : BuildState) : Prop where
  tabled : st'.Tabled
  mem (l : Label) : l ∈ st'.arena.labels ↔ l ∈ st.arena.labels ∨ l ∈ labels

theorem Node.label_of_beq {m n : Node} (h : (m == n) = true) : m.label = n.label := by
  rcases Node.beq_iff.1 h with rfl | ⟨p, q, rfl, rfl, -⟩
  · rfl
  · rfl

theorem internNode_labels (node : Node) {st : BuildState} (H : st.Tabled) :
    st.Labels [node.label] (internNode node st).2 := by
  rcases internNode_cases node st with ⟨id, hfind, heq⟩ | ⟨-, heq⟩
  · obtain ⟨m, hm, hbeq⟩ := HashCons.mem_of_find? hfind
    have hmem : node.label ∈ st.arena.labels :=
      List.mem_map.2 ⟨m, H _ hm, Node.label_of_beq hbeq⟩
    rw [heq]
    refine ⟨H, fun l => ?_⟩
    rw [List.mem_singleton]
    exact ⟨.inl, fun h => h.elim (fun h => h) fun heq => heq ▸ hmem⟩
  · rw [heq]
    refine ⟨?_, fun l => ?_⟩
    · intro entry he
      rcases List.mem_cons.1 he with rfl | he
      · exact List.mem_append_right _ List.mem_cons_self
      · exact List.mem_append_left _ (H entry he)
    · simp [SchemaArena.labels, eq_comm]

theorem BuildState.Labels.trans {st st' st'' : BuildState} {labels labels' : List Label}
    (h : st.Labels labels st') (h' : st'.Labels labels' st'') :
    st.Labels (labels ++ labels') st'' where
  tabled := h'.tabled
  mem l := by rw [h'.mem, h.mem, List.mem_append, or_assoc]

theorem buildFields_names (fields : List (FieldExpr TypeExpr)) (st : BuildState) :
    (buildFields fields st).1.map (·.name) = fields.map (·.name) := by
  induction fields generalizing st with
  | nil => rfl
  | cons f fields ih => exact congrArg (f.name :: ·) (ih _)

theorem buildFields_labels {fields : List (FieldExpr TypeExpr)}
    (ih : ∀ f ∈ fields, ∀ st : BuildState, st.Tabled →
      st.Labels (f.ty.subexprs.map TypeExpr.label) (buildTypeExpr f.ty st).2)
    {st : BuildState} (H : st.Tabled) :
    st.Labels ((TypeExpr.fieldsSubexprs fields).map TypeExpr.label) (buildFields fields st).2 := by
  induction fields generalizing st with
  | nil => exact ⟨H, fun l => ⟨.inl, fun h => h.elim id fun h => absurd h List.not_mem_nil⟩⟩
  | cons f fields ihf =>
    have hf := ih f List.mem_cons_self st H
    have hrest := ihf (fun g hg => ih g (List.mem_cons_of_mem _ hg)) hf.tabled
    rw [TypeExpr.fieldsSubexprs, List.map_append]
    exact hf.trans hrest

theorem buildTypeExpr_labels (e : TypeExpr) {st : BuildState} (H : st.Tabled) :
    st.Labels (e.subexprs.map TypeExpr.label) (buildTypeExpr e st).2 := by
  induction e generalizing st with
  | primitive p => exact internNode_labels (.primitive p) H
  | enum variants => exact internNode_labels (.enum variants) H
  | optional e ih =>
    rw [TypeExpr.subexprs, List.map_append]
    exact (ih H).trans
      (internNode_labels (.optional (buildTypeExpr e st).1) (ih H).tabled)
  | list e c ih =>
    rw [TypeExpr.subexprs, List.map_append]
    exact (ih H).trans (internNode_labels (.list (buildTypeExpr e st).1 c) (ih H).tabled)
  | dict e c ih =>
    rw [TypeExpr.subexprs, List.map_append]
    exact (ih H).trans (internNode_labels (.dict (buildTypeExpr e st).1 c) (ih H).tabled)
  | struct fields extra ih =>
    have hfields := buildFields_labels (fun f hf st => ih f hf) H
    have hnode := internNode_labels (.struct (buildFields fields st).1 extra) hfields.tabled
    rw [Node.label, buildFields_names] at hnode
    rw [TypeExpr.subexprs, List.map_append]
    exact hfields.trans hnode

/-- An IR has a node with some label exactly if its schema has an expression with it. -/
theorem mem_buildIr_labels (e : TypeExpr) (l : Label) :
    l ∈ (buildIr e).arena.labels ↔ l ∈ e.subexprs.map TypeExpr.label := by
  have hempty : BuildState.Tabled {} := by simp [BuildState.Tabled]
  rw [buildIr, (buildTypeExpr_labels e hempty).mem l]
  simp [SchemaArena.labels]

/-! ## Places of a schema

A place is a value that is read as a type, with the options of the field it stands in.
-/

namespace SchemaCompiler

/-- The type that a node of this kind is over. -/
def nestedType (kind : Kind) (apart : Option JsonValue) (options : JsonMap) : Option JsonValue :=
  match kind with
  | .list => source apart ["of", "item"] options
  | .dict => source apart ["values", "value"] options
  | .optional => source apart ["of"] options
  | _ => none

variable (x : Externals)

/-- The entries of the struct that is read at a place. -/
def declaredFields (value : JsonValue) (fieldOptions : Option JsonMap) : Option (List JsonValue) :=
  match head x value fieldOptions with
  | some (.named .struct _ options) => (options.get "fields").bind JsonValue.asArray
  | _ => none

/-- The extra policy of the struct that is read at a place. -/
def declaredExtra (value : JsonValue) (fieldOptions : Option JsonMap) : Option ExtraBehavior :=
  match head x value fieldOptions with
  | some (.named .struct _ options) => readExtra (options.get "extra")
  | _ => none

/-- The variants of the enum that is read at a place, as they are written. -/
def declaredVariants (value : JsonValue) (fieldOptions : Option JsonMap) : Option (List String) :=
  match head x value fieldOptions with
  | some (.named .enum apart options) =>
    ((source apart ["values", "in"] options).bind JsonValue.asArray).bind fun items =>
      items.mapM JsonValue.asStr
  | _ => none

def declaredName : JsonValue → Option String
  | .array (_ :: name :: _) => name.asStr
  | _ => none

/-- The places directly below a place. -/
inductive Below (value : JsonValue) (fieldOptions : Option JsonMap) :
    JsonValue → Option JsonMap → Prop
  | optional {innerType : JsonValue} :
    head x value fieldOptions = some (.optional innerType) →
    Below value fieldOptions innerType fieldOptions
  | nested {kind : Kind} {apart : Option JsonValue} {options : JsonMap} {type : JsonValue} :
    head x value fieldOptions = some (.named kind apart options) →
    nestedType kind apart options = some type → Below value fieldOptions type none
  | field {entries : List JsonValue} {presence name type : JsonValue} {items : List JsonValue} :
    declaredFields x value fieldOptions = some entries →
    .array (presence :: name :: type :: items) ∈ entries →
    Below value fieldOptions type (inlineObject items)

/-- The places that the parser reads, starting from one. -/
inductive Reads : JsonValue → Option JsonMap → JsonValue → Option JsonMap → Prop
  | refl (value : JsonValue) (fieldOptions : Option JsonMap) :
    Reads value fieldOptions value fieldOptions
  | step {value value' value'' : JsonValue} {options options' options'' : Option JsonMap} :
    Below x value options value' options' → Reads value' options' value'' options'' →
    Reads value options value'' options''

end SchemaCompiler

/-- The expressions directly below an expression. -/
def TypeExpr.parts : TypeExpr → List TypeExpr
  | .primitive _ | .enum _ => []
  | .optional inner => [inner]
  | .list of _ | .dict of _ => [of]
  | .struct fields _ => fields.map (·.ty)

theorem TypeExpr.inductParts {motive : TypeExpr → Prop}
    (step : ∀ e, (∀ c ∈ e.parts, motive c) → motive e) (e : TypeExpr) : motive e := by
  induction e with
  | primitive | enum => exact step _ (by simp [parts])
  | optional e ih | list e _ ih | dict e _ ih => exact step _ (by simpa [parts] using ih)
  | struct fields extra ih => exact step _ (by simpa [parts] using ih)

theorem TypeExpr.mem_subexprs {e s : TypeExpr} :
    s ∈ e.subexprs ↔ s = e ∨ ∃ c ∈ e.parts, s ∈ c.subexprs := by
  cases e <;> simp [subexprs, parts, mem_fieldsSubexprs, or_comm]

namespace SchemaCompiler
variable {x : Externals}

theorem readField_eq_some {entry : JsonValue} {f : FieldExpr TypeExpr}
    (h : readField x entry = some f) :
    ∃ presence name type items, entry = .array (presence :: name :: type :: items) ∧
      name.asStr = some f.name ∧ read x type (inlineObject items) = some f.ty := by
  rw [readField.eq_def] at h
  split at h
  next presence name type items =>
    obtain ⟨presence', -, h⟩ := Option.bind_eq_some_iff.1 h
    obtain ⟨name', hname, h⟩ := Option.bind_eq_some_iff.1 h
    obtain ⟨ty, hty, h⟩ := Option.bind_eq_some_iff.1 h
    cases h
    exact ⟨presence, name, type, items, rfl, hname, hty⟩
  next => cases h

section
variable {value : JsonValue} {fieldOptions : Option JsonMap} {kind : Kind}
  {apart : Option JsonValue} {options : JsonMap}

theorem below_optional {innerType w : JsonValue} {G : Option JsonMap}
    (hhead : head x value fieldOptions = some (.optional innerType))
    (h : Below x value fieldOptions w G) : w = innerType ∧ G = fieldOptions := by
  cases h with
  | optional h =>
    cases hhead.symm.trans h
    exact ⟨rfl, rfl⟩
  | nested h => cases hhead.symm.trans h
  | field h => simp [declaredFields, hhead] at h

theorem below_named {w : JsonValue} {G : Option JsonMap}
    (hhead : head x value fieldOptions = some (.named kind apart options))
    (h : Below x value fieldOptions w G) :
    (nestedType kind apart options = some w ∧ G = none) ∨
    (kind = .struct ∧ ∃ entries presence name items,
      (options.get "fields").bind JsonValue.asArray = some entries ∧
        .array (presence :: name :: w :: items) ∈ entries ∧ G = inlineObject items) := by
  cases h with
  | optional h => cases hhead.symm.trans h
  | nested h hnested =>
    cases hhead.symm.trans h
    exact .inl ⟨hnested, rfl⟩
  | field h hentry =>
    rw [declaredFields, hhead] at h
    cases kind with
    | struct => exact .inr ⟨rfl, _, _, _, _, h, hentry, rfl⟩
    | _ => cases h

/-- The fields that are read, next to the entries they are read from. -/
theorem fields_of_read {fields : List (FieldExpr TypeExpr)} {extra : ExtraBehavior}
    (h : readNamed x .struct apart options = some (.struct fields extra)) :
    ∃ entries, (options.get "fields").bind JsonValue.asArray = some entries ∧
      List.Forall₂ (fun entry f => readField x entry = some f) entries fields := by
  cases ReadsNamed.of_read h with
  | struct hvalue hextra hfields =>
    obtain ⟨entries, hentries, hfields⟩ := Option.bind_eq_some_iff.1 hfields
    exact ⟨entries, by rw [hvalue]; exact hentries, forall₂_of_mapM hfields⟩

def kindOf : TypeExpr → Kind
  | .primitive .any => .any
  | .primitive .bool => .bool
  | .primitive (.int _) => .int
  | .primitive (.float _) => .float
  | .primitive (.string _) => .string
  | .primitive .symbol => .symbol
  | .enum _ => .enum
  | .optional _ => .optional
  | .list _ _ => .list
  | .dict _ _ => .dict
  | .struct _ _ => .struct

theorem kindOf_read {e : TypeExpr} (h : readNamed x kind apart options = some e) :
    kindOf e = kind := by
  cases ReadsNamed.of_read h <;> rfl

theorem struct_of_kind {e : TypeExpr} (h : kindOf e = .struct) :
    ∃ fields extra, e = .struct fields extra := by
  cases e with
  | struct fields extra => exact ⟨fields, extra, rfl⟩
  | primitive p => cases p <;> cases h
  | _ => cases h

/-- What is read over a nested type, or over no type at all. -/
theorem parts_of_named {e : TypeExpr} (h : readNamed x kind apart options = some e)
    (hkind : kind ≠ .struct) : List.Forall₂ (fun type part => read x type none = some part)
      (nestedType kind apart options).toList e.parts := by
  cases ReadsNamed.of_read h with
  | any | bool | symbol | int | float | string | enum => exact .nil
  | list htype hof | dict htype hof | optional htype hof =>
    rw [nestedType, htype]
    exact .cons hof .nil
  | struct => exact absurd rfl hkind

end

/-- Every part is read at a place below. -/
theorem below_of_part {value : JsonValue} {fieldOptions : Option JsonMap} {e c : TypeExpr}
    (h : read x value fieldOptions = some e) (hc : c ∈ e.parts) :
    ∃ w G, Below x value fieldOptions w G ∧ read x w G = some c := by
  rcases read_cases h with
    ⟨innerType, inner, hhead, hinner, rfl⟩ | ⟨kind, apart, options, hhead, hread⟩
  · cases List.mem_singleton.1 hc
    exact ⟨_, _, .optional hhead, hinner⟩
  · by_cases hkind : kind = .struct
    · subst hkind
      obtain ⟨fields, extra, rfl⟩ := struct_of_kind (kindOf_read hread)
      obtain ⟨entries, hentries, hfields⟩ := fields_of_read hread
      obtain ⟨f, hf, rfl⟩ := List.mem_map.1 hc
      obtain ⟨entry, hentry, hread⟩ := forall₂_mem_right hfields f hf
      obtain ⟨_, _, _, _, rfl, -, hty⟩ := readField_eq_some hread
      exact ⟨_, _, .field (by rw [declaredFields, hhead]; exact hentries) hentry, hty⟩
    · obtain ⟨type, htype, hread⟩ := forall₂_mem_right (parts_of_named hread hkind) c hc
      exact ⟨type, none, .nested hhead (Option.mem_toList.1 htype), hread⟩

/-- What stands below an accepted place is accepted, as a part. -/
theorem part_of_below {value w : JsonValue} {fieldOptions G : Option JsonMap} {e : TypeExpr}
    (h : read x value fieldOptions = some e) (hbelow : Below x value fieldOptions w G) :
    ∃ c ∈ e.parts, read x w G = some c := by
  rcases read_cases h with
    ⟨innerType, inner, hhead, hinner, rfl⟩ | ⟨kind, apart, options, hhead, hread⟩
  · obtain ⟨rfl, rfl⟩ := below_optional hhead hbelow
    exact ⟨inner, List.mem_cons_self, hinner⟩
  · rcases below_named hhead hbelow with
      ⟨hnested, rfl⟩ | ⟨rfl, entries', _, _, items, hentries', hentry, rfl⟩
    · have hkind : kind ≠ .struct := by
        rintro rfl
        cases hnested
      exact forall₂_mem_left (parts_of_named hread hkind) w (Option.mem_toList.2 hnested)
    · obtain ⟨fields, extra, rfl⟩ := struct_of_kind (kindOf_read hread)
      obtain ⟨entries, hentries, hfields⟩ := fields_of_read hread
      cases hentries.symm.trans hentries'
      obtain ⟨f, hf, hread⟩ := forall₂_mem_left hfields _ hentry
      obtain ⟨_, _, _, _, heq, -, hty⟩ := readField_eq_some hread
      cases heq
      exact ⟨f.ty, List.mem_map_of_mem hf, hty⟩

/-- The sub-expressions of a schema are what is read at the places of its text. -/
theorem mem_subexprs_iff {value : JsonValue} {fieldOptions : Option JsonMap} {e s : TypeExpr}
    (h : read x value fieldOptions = some e) :
    s ∈ e.subexprs ↔ ∃ w G, Reads x value fieldOptions w G ∧ read x w G = some s := by
  constructor
  · intro hs
    induction e using TypeExpr.inductParts generalizing value fieldOptions with
    | step e ih =>
      rcases TypeExpr.mem_subexprs.1 hs with rfl | ⟨c, hc, hsc⟩
      · exact ⟨value, fieldOptions, .refl _ _, h⟩
      · obtain ⟨w, G, hbelow, hread⟩ := below_of_part h hc
        obtain ⟨w', G', hreads, hs⟩ := ih c hc hread hsc
        exact ⟨w', G', .step hbelow hreads, hs⟩
  · rintro ⟨w, G, hreads, hs⟩
    induction hreads generalizing e with
    | refl value fieldOptions =>
      cases h.symm.trans hs
      exact TypeExpr.mem_subexprs.2 (.inl rfl)
    | step hbelow _ ih =>
      obtain ⟨c, hc, hread⟩ := part_of_below h hbelow
      exact TypeExpr.mem_subexprs.2 (.inr ⟨c, hc, ih hread hs⟩)

theorem read_of_reads {value w : JsonValue} {fieldOptions G : Option JsonMap} {e : TypeExpr}
    (h : read x value fieldOptions = some e) (hreads : Reads x value fieldOptions w G) :
    ∃ s, read x w G = some s := by
  induction hreads generalizing e with
  | refl => exact ⟨e, h⟩
  | step hbelow _ ih =>
    obtain ⟨c, -, hread⟩ := part_of_below h hbelow
    exact ih hread

/-! ## Declared names -/

/-- A struct has the names that its entries declare. -/
theorem names_of_read {w : JsonValue} {G : Option JsonMap} {fields : List (FieldExpr TypeExpr)}
    {extra : ExtraBehavior} (h : read x w G = some (.struct fields extra)) :
    ∃ entries, declaredFields x w G = some entries ∧
      entries.map declaredName = (fields.map (·.name)).map some := by
  rcases read_cases h with ⟨_, _, -, -, heq⟩ | ⟨kind, apart, options, hhead, hread⟩
  · cases heq
  · cases kindOf_read hread
    obtain ⟨entries, hentries, hfields⟩ := fields_of_read hread
    refine ⟨entries, by rw [declaredFields, hhead]; exact hentries, ?_⟩
    rw [List.map_map]
    apply map_eq_of_forall₂ hfields
    intro entry f hread
    obtain ⟨_, _, _, _, rfl, hname, -⟩ := readField_eq_some hread
    exact hname

theorem extra_of_read {w : JsonValue} {G : Option JsonMap} {fields : List (FieldExpr TypeExpr)}
    {extra : ExtraBehavior} (h : read x w G = some (.struct fields extra)) :
    declaredExtra x w G = some extra := by
  rcases read_cases h with ⟨_, _, -, -, heq⟩ | ⟨kind, apart, options, hhead, hread⟩
  · cases heq
  · rw [declaredExtra, hhead]
    cases ReadsNamed.of_read hread with
    | struct _ hextra => exact hextra

/-- Where fields are declared, a struct is read. -/
theorem struct_of_declared {w : JsonValue} {G : Option JsonMap} {entries : List JsonValue}
    {s : TypeExpr} (hdecl : declaredFields x w G = some entries) (h : read x w G = some s) :
    ∃ fields extra, s = .struct fields extra := by
  rcases read_cases h with ⟨_, _, hhead, -, -⟩ | ⟨kind, apart, options, hhead, hread⟩
  · rw [declaredFields, hhead] at hdecl
    cases hdecl
  · rw [declaredFields, hhead] at hdecl
    cases kind with
    | struct => exact struct_of_kind (kindOf_read hread)
    | _ => cases hdecl

/-- An enum has the variants that are declared, each once. -/
theorem variants_of_read {w : JsonValue} {G : Option JsonMap} {variants : List String}
    (h : read x w G = some (.enum variants)) :
    ∃ names, declaredVariants x w G = some names ∧ names ≠ [] ∧ variants = names.eraseDups := by
  rcases read_cases h with ⟨_, _, -, -, heq⟩ | ⟨kind, apart, options, hhead, hread⟩
  · cases heq
  · obtain rfl : Kind.enum = kind := kindOf_read hread
    obtain ⟨variants', hvariants, h⟩ := Option.map_eq_some_iff.1 hread
    cases h
    obtain ⟨value, hvalue, hvariants⟩ := Option.bind_eq_some_iff.1 hvariants
    obtain ⟨items, hitems, hvariants⟩ := Option.bind_eq_some_iff.1 hvariants
    obtain ⟨names, hnames, hvariants⟩ := Option.bind_eq_some_iff.1 hvariants
    have hdeclared : declaredVariants x w G = some names := by
      simp only [declaredVariants, hhead, hvalue, Option.bind_some, hitems, hnames]
    cases names with
    | nil => cases hvariants
    | cons name names =>
      cases hvariants
      exact ⟨_, hdeclared, List.cons_ne_nil _ _, rfl⟩

/-! ## Unique names -/

variable (x) in
/-- What the names of a node are taken to be: the variants are those declared at some place of the
schema without their repetitions, the field names are pairwise distinct. -/
def NodeNames (value : JsonValue) : Node → Prop
  | .enum variants => variants ≠ [] ∧ variants.Nodup ∧ ∃ w G names,
      Reads x value none w G ∧ declaredVariants x w G = some names ∧ variants = names.eraseDups
  | .struct fields _ => (fields.map (·.name)).Nodup
  | _ => True

variable (x) in
/-- No two entries of a struct declare one name, at any place of the schema. -/
def FieldsDistinct (value : JsonValue) : Prop :=
  ∀ w G entries, Reads x value none w G → declaredFields x w G = some entries →
    (entries.map declaredName).Nodup

theorem nodup_eraseDups {α : Type} [BEq α] [LawfulBEq α] (as : List α) : as.eraseDups.Nodup := by
  induction hn : as.length using Nat.strong_induction_on generalizing as with
  | _ n ih =>
    cases as with
    | nil => exact .nil
    | cons a as =>
      rw [List.eraseDups_cons]
      apply List.nodup_cons.2
      constructor
      · rw [List.mem_eraseDups, List.mem_filter]
        rintro ⟨-, hne⟩
        simp at hne
      · have hlen := List.length_filter_le (fun b => !b == a) as
        exact ih _ (by rw [← hn, List.length_cons]; omega) _ rfl

theorem nodup_map_some {names : List String} : (names.map some).Nodup ↔ names.Nodup :=
  List.nodup_map_iff fun _ _ => Option.some.inj

/-- A struct node stands for a place of the schema that declares its names and its policy. -/
theorem struct_declared {value : JsonValue} {document : TypeExpr}
    (h : SchemaDocument.fromValue x value = .ok document) {fields : List StructField}
    {extra : ExtraBehavior} (hnode : .struct fields extra ∈ (buildIr document).arena.nodes) :
    ∃ w G entries, Reads x value none w G ∧ declaredFields x w G = some entries ∧
      entries.map declaredName = (fields.map (·.name)).map some ∧
      declaredExtra x w G = some extra := by
  have hread : read x value none = some document := read_of_ok h
  have hlabel := (mem_buildIr_labels document _).1 (List.mem_map_of_mem hnode)
  obtain ⟨s, hs, heq⟩ := List.mem_map.1 hlabel
  obtain ⟨w, G, hreads, hs⟩ := (mem_subexprs_iff hread).1 hs
  cases s with
  | struct fields' extra' =>
    obtain ⟨hnames, rfl⟩ := Label.struct.inj heq
    obtain ⟨entries, hdecl, hentries⟩ := names_of_read hs
    rw [hnames] at hentries
    exact ⟨w, G, entries, hreads, hdecl, hentries, extra_of_read hs⟩
  | _ => cases heq

/-- Every enum node has distinct variants; every struct node has distinct names exactly if the
fields of every struct that is read are declared under distinct names. -/
theorem names_unique_iff {value : JsonValue} {document : TypeExpr}
    (h : SchemaDocument.fromValue x value = .ok document) :
    (∀ node ∈ (buildIr document).arena.nodes, NodeNames x value node) ↔
      FieldsDistinct x value := by
  have hread : read x value none = some document := read_of_ok h
  constructor
  · intro hnodes w G entries hreads hdecl
    obtain ⟨s, hs⟩ := read_of_reads hread hreads
    obtain ⟨fields, extra, rfl⟩ := struct_of_declared hdecl hs
    obtain ⟨entries', hdecl', hnames⟩ := names_of_read hs
    cases hdecl.symm.trans hdecl'
    have hlabel : Label.struct (fields.map (·.name)) extra ∈ (buildIr document).arena.labels :=
      (mem_buildIr_labels _ _).2
        (List.mem_map.2 ⟨_, (mem_subexprs_iff hread).2 ⟨w, G, hreads, hs⟩, rfl⟩)
    obtain ⟨node, hnode, heq⟩ := List.mem_map.1 hlabel
    have hnode := hnodes node hnode
    cases node with
    | struct gs extra' =>
      obtain ⟨hgs, -⟩ := Label.struct.inj heq
      rw [NodeNames, hgs] at hnode
      rw [hnames, nodup_map_some]
      exact hnode
    | _ => cases heq
  · intro hdistinct node hnode
    cases node with
    | enum variants =>
      have hlabel := (mem_buildIr_labels document _).1 (List.mem_map_of_mem hnode)
      obtain ⟨s, hs, heq⟩ := List.mem_map.1 hlabel
      obtain ⟨w, G, hreads, hs⟩ := (mem_subexprs_iff hread).1 hs
      cases s with
      | enum variants' =>
        cases heq
        obtain ⟨names, hdecl, hne, rfl⟩ := variants_of_read hs
        exact ⟨eraseDups_ne_nil hne, nodup_eraseDups names, w, G, names, hreads, hdecl, rfl⟩
      | _ => cases heq
    | struct fields extra =>
      obtain ⟨w, G, entries, hreads, hdecl, hnames, -⟩ := struct_declared h hnode
      have hnodup := hdistinct w G entries hreads hdecl
      rwa [hnames, nodup_map_some] at hnodup
    | _ => trivial

/-- No field is declared at all. -/
theorem names_unique_iff_enum :
    let x := Externals.reading "" .null
    let value : JsonValue := .array [.string "enum",
      .array [.string "b", .string "a", .string "b"]]
    let document : TypeExpr := .enum ["b", "a"]
    SchemaDocument.fromValue x value = .ok document ∧
      ∀ node ∈ (buildIr document).arena.nodes, NodeNames x value node := by
  intro x value document
  have hread : read x value none = some document := by
    rw [read_eq]
    rfl
  have hhead : head x value none = some (.named .enum
      (some (.array [.string "b", .string "a", .string "b"])) (mergeOptions none none)) := rfl
  refine ⟨ok_of_read hread rootPath, (names_unique_iff (ok_of_read hread rootPath)).2 ?_⟩
  intro w G entries hreads hdecl
  cases hreads with
  | refl =>
    rw [declaredFields, hhead] at hdecl
    cases hdecl
  | step hbelow =>
    rcases below_named hhead hbelow with ⟨hnested, -⟩ | ⟨hkind, -⟩
    · cases hnested
    · cases hkind

/-- Two fields of one name are accepted. -/
theorem names_repeated :
    let x := Externals.reading "" .null
    let field (type : String) : JsonValue :=
      .array [.string "required", .string "a", .string type]
    let value : JsonValue := .object [("fields", .array [field "any", field "bool"]),
      ("type", .string "struct")]
    let document : TypeExpr := .struct [⟨"a", .required, .primitive .any⟩,
      ⟨"a", .required, .primitive .bool⟩] .forbid
    SchemaDocument.fromValue x value = .ok document ∧
      ¬ ∀ node ∈ (buildIr document).arena.nodes, NodeNames x value node := by
  intro x field value document
  have hany : read x (.string "any") none = some (.primitive .any) := by
    rw [read_eq]
    rfl
  have hbool : read x (.string "bool") none = some (.primitive .bool) := by
    rw [read_eq]
    rfl
  have hfield {type : String} {ty : TypeExpr} (h : read x (.string type) none = some ty) :
      readField x (field type) = some ⟨"a", .required, ty⟩ := by
    change (read x (.string type) none).bind _ = _
    rw [h]
    rfl
  have hfields : readFields x (.array [field "any", field "bool"]) =
      some [⟨"a", .required, .primitive .any⟩, ⟨"a", .required, .primitive .bool⟩] := by
    change ([field "any", field "bool"].mapM (readField x)) = _
    rw [List.mapM_cons, List.mapM_cons, hfield hany, hfield hbool]
    rfl
  have hread : read x value none = some document := by
    rw [read_eq]
    change (readFields x (.array [field "any", field "bool"])).bind _ = _
    rw [hfields]
    rfl
  refine ⟨ok_of_read hread rootPath, fun h => ?_⟩
  have hnode :
      Node.struct [⟨"a", .required, NodeId.new 0⟩, ⟨"a", .required, NodeId.new 1⟩] .forbid ∈
        (buildIr document).arena.nodes := List.mem_of_getElem? (i := 2) rfl
  have hnodup : ["a", "a"].Nodup := h _ hnode
  exact absurd hnodup (by decide)

end SchemaCompiler
end RustlyCore
