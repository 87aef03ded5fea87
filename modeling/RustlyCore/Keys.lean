import RustlyCore.Instance
import RustlyCore.Modes
import RustlyCore.Validation.Relation

/-!
# Keys of dicts

A Hash tells the String `"a"` from the Symbol `:a`; the prepared value holds both under the text
`a`. From there on the keys of a dict are taken to be distinct: by the lookup of a field, by the
check of the size and by the Hash that is built.
-/

namespace RustlyCore

/-! ## The dicts of a value -/

inductive OwnedValue.HasDict : OwnedValue → OwnedDict → Prop
  | here (map : OwnedDict) : HasDict (.dict map) map
  | element {items : List OwnedValue} {v : OwnedValue} {map : OwnedDict} :
    v ∈ items → HasDict v map → HasDict (.list items) map
  | entry {entries : OwnedDict} {p : String × OwnedValue} {map : OwnedDict} :
    p ∈ entries → HasDict p.2 map → HasDict (.dict entries) map

inductive RubyValue.HasHash : RubyValue → List (RubyValue × RubyValue) → Prop
  | here (basic : RBasic) (entries : List (RubyValue × RubyValue)) :
    HasHash (.hash basic entries) entries
  | element (basic : RBasic) {elements : List RubyValue} {r : RubyValue}
    {entries : List (RubyValue × RubyValue)} :
    r ∈ elements → HasHash r entries → HasHash (.array basic elements) entries
  | entry (basic : RBasic) {outer entries : List (RubyValue × RubyValue)}
    {p : RubyValue × RubyValue} : p ∈ outer → HasHash p.2 entries →
    HasHash (.hash basic outer) entries

inductive JsonValue.HasObject : JsonValue → JsonMap → Prop
  | here (map : JsonMap) : HasObject (.object map) map
  | element {items : List JsonValue} {j : JsonValue} {map : JsonMap} :
    j ∈ items → HasObject j map → HasObject (.array items) map
  | entry {outer map : JsonMap} {p : String × JsonValue} :
    p ∈ outer → HasObject p.2 map → HasObject (.object outer) map

/-- A dict stands for a Hash of the input. -/
theorem Image.hasHash {r : RubyValue} {v : OwnedValue} (h : Image r v) {map : OwnedDict}
    (hmap : v.HasDict map) :
    ∃ entries, r.HasHash entries ∧ List.Forall₂ ImageEntry entries map := by
  induction hmap generalizing r with
  | here map =>
    cases h with
    | hash basic h => exact ⟨_, .here basic _, h⟩
  | element hv _ ih =>
    cases h with
    | array basic h =>
      obtain ⟨r, hr, himage⟩ := forall₂_mem_right h _ hv
      obtain ⟨entries, hentries, hrel⟩ := ih himage
      exact ⟨entries, .element basic hr hentries, hrel⟩
  | entry hp _ ih =>
    cases h with
    | hash basic h =>
      obtain ⟨q, hq, hentry⟩ := forall₂_mem_right h _ hp
      cases hentry with
      | mk _ himage =>
        obtain ⟨entries, hentries, hrel⟩ := ih himage
        exact ⟨entries, .entry basic hq hentries, hrel⟩

/-- A Hash of the input becomes a dict. -/
theorem Image.hasDict {r : RubyValue} {v : OwnedValue} (h : Image r v)
    {entries : List (RubyValue × RubyValue)} (hentries : r.HasHash entries) :
    ∃ map, v.HasDict map ∧ List.Forall₂ ImageEntry entries map := by
  induction hentries generalizing v with
  | here =>
    cases h with
    | hash _ h => exact ⟨_, .here _, h⟩
  | element _ hr _ ih =>
    cases h with
    | array _ h =>
      obtain ⟨v, hv, himage⟩ := forall₂_mem_left h _ hr
      obtain ⟨map, hmap, hrel⟩ := ih himage
      exact ⟨map, .element hv hmap, hrel⟩
  | entry _ hp _ ih =>
    cases h with
    | hash _ h =>
      obtain ⟨q, hq, hentry⟩ := forall₂_mem_left h _ hp
      cases hentry with
      | mk _ himage =>
        obtain ⟨map, hmap, hrel⟩ := ih himage
        exact ⟨map, .entry hq hmap, hrel⟩

/-- A dict read from JSON has the keys of an object. -/
theorem hasObject_of_fromJson {j : JsonValue} {map : OwnedDict}
    (h : (OwnedValue.fromJson j).HasDict map) :
    ∃ object, j.HasObject object ∧ map.map (·.1) = object.map (·.1) := by
  induction j with
  | null | bool | string => cases h
  | number num =>
    rw [OwnedValue.fromJson] at h
    split at h <;> cases h
  | array items ih =>
    rw [OwnedValue.fromJson, OwnedValue.fromItems_eq_map] at h
    cases h with
    | element hv hmap =>
      obtain ⟨item, hitem, rfl⟩ := List.mem_map.1 hv
      obtain ⟨object, hobject, hkeys⟩ := ih item hitem hmap
      exact ⟨object, .element hitem hobject, hkeys⟩
  | object outer ih =>
    rw [OwnedValue.fromJson, OwnedValue.fromEntries_eq_map] at h
    cases h with
    | here =>
      refine ⟨outer, .here outer, ?_⟩
      rw [List.map_map]
      rfl
    | entry hp hmap =>
      obtain ⟨q, hq, rfl⟩ := List.mem_map.1 hp
      obtain ⟨object, hobject, hkeys⟩ := ih q hq hmap
      exact ⟨object, .entry hq hobject, hkeys⟩

/-! ## Texts of keys -/

/-- No two keys of the Hash have one text. -/
def KeysApart (entries : List (RubyValue × RubyValue)) : Prop :=
  entries.Pairwise fun p q => ∀ key, SameKey key p.1 → ¬ SameKey key q.1

theorem nodup_keys_iff {entries : List (RubyValue × RubyValue)} {map : OwnedDict}
    (h : List.Forall₂ ImageEntry entries map) :
    (map.map (·.1)).Nodup ↔ KeysApart entries := by
  induction h with
  | nil => exact iff_of_true .nil .nil
  | @cons p q entries map hpq hrest ih =>
    rw [List.map_cons, List.nodup_cons, KeysApart, List.pairwise_cons, ← KeysApart, ih]
    cases hpq with
    | mk hsame _ =>
      refine and_congr_left fun _ => ?_
      constructor
      · intro hnot q hq keyRef' hsame' hsame''
        obtain ⟨out, hout, hentry⟩ := forall₂_mem_left hrest q hq
        cases hentry with
        | mk hout' =>
          cases hsame.unique hsame'
          cases hout'.unique hsame''
          exact hnot (List.mem_map.2 ⟨_, hout, rfl⟩)
      · intro hapart hmem
        obtain ⟨⟨keyRef, out⟩, hout, rfl⟩ := List.mem_map.1 hmem
        obtain ⟨⟨key', value'⟩, hq, hentry⟩ := forall₂_mem_right hrest _ hout
        cases hentry with
        | mk hout' => exact hapart _ hq _ hsame hout'

/-! ## The Hash that is built -/

variable {x : Externals}

/-- A dict of distinct keys becomes a Hash of as many entries. -/
theorem length_buildHash {map : OwnedDict} (hd : (map.map (·.1)).Nodup)
    {hash : List (RubyValue × RubyValue)} (h : buildHash x [] map = .ok hash) :
    hash.length = map.length := by
  obtain ⟨writes, hwrites, rfl⟩ := buildHash_writes h
  have hkeys : ((writes.map (Prod.map AttributeKey.field id)).map (·.1)).Nodup := by
    have hfields := hd.map fun _ _ => AttributeKey.field.inj
    rw [← keys_of_converted hwrites, List.map_map] at hfields
    rw [List.map_map]
    exact hfields
  rw [setAll_new hkeys (by simp), List.nil_append, List.length_map, List.length_map]
  exact hwrites.length_eq.symm

theorem keys_filterMap_sublist (map : OwnedDict) (f : OwnedValue → Option OwnedValue) :
    ((map.filterMap fun entry => (f entry.2).map (entry.1, ·)).map (·.1)).Sublist
      (map.map (·.1)) := by
  induction map with
  | nil => exact .slnil
  | cons entry map ih =>
    rw [List.filterMap_cons, List.map_cons]
    cases f entry.2 with
    | none => exact ih.cons entry.1
    | some v => exact ih.cons_cons entry.1

/-- A dict that is validated keeps keys of its input, in their order. -/
theorem check_dict_keys {o : ValidationOptions} {e : TypeExpr} {root : Bool} {map outs : OwnedDict}
    (h : (check o e root (.dict map)).output = some (.dict outs)) :
    (outs.map (·.1)).Sublist (map.map (·.1)) := by
  induction e with
  | primitive primitive =>
    cases primitive with
    | any =>
      cases h
      exact .refl _
    | _ => cases h
  | enum | list | struct => cases h
  | optional of ih =>
    rw [check] at h
    · exact ih h
    · intro hnull
      cases hnull
  | dict of c =>
    rw [check, Verdict.dict, Option.some_inj, OwnedValue.dict.injEq, List.filterMap_map] at h
    rw [← h]
    exact keys_filterMap_sublist map fun value => (check o of false value).output

/-! ## Keys from preparation on -/

/-- The keys of every dict in a prepared value are distinct. Every entry is found by its key, and if
a node of a schema gives a dict for it, the Hash built from that has as many entries. -/
structure OwnedValue.KeysUnique (x : Externals) (value : OwnedValue) : Prop where
  distinct : ∀ map, value.HasDict map → (map.map (·.1)).Nodup
  found : ∀ map, value.HasDict map → ∀ p ∈ map, Validator.dictFind map p.1 = some p.2
  counted : ∀ map, value.HasDict map → ∀ (schema : SchemaIr) (id : NodeId)
    (o : ValidationOptions) (path : List PathSegment) (issues : List ValidationIssue)
    (outs : OwnedDict) (state : Report.State PathSegment ValidationIssue),
    id.index < schema.arena.len →
    (Validator.validateNode o schema id (.dict map)).run ⟨path, issues⟩ =
      some (some (.dict outs), state) →
    ∀ hash, ownedValueToRuby x (.dict outs) = .ok (.hash ⟨"Hash", false⟩ hash) →
      hash.length = outs.length

theorem OwnedValue.KeysUnique.of_distinct {value : OwnedValue}
    (h : ∀ map, value.HasDict map → (map.map (·.1)).Nodup) : value.KeysUnique x where
  distinct := h
  found map hmap p hp := (mem_iff_dictFind (h map hmap)).2 hp
  counted map hmap schema id o path issues outs state hid hrun hash hhash := by
    rw [Validator.validateNode_gives schema hid] at hrun
    obtain ⟨hout, -⟩ := Prod.mk.inj (Option.some.inj hrun)
    obtain ⟨built, hbuilt, hpure⟩ := Fallible.bind_eq_ok.1 hhash
    cases hpure
    exact length_buildHash ((h map hmap).sublist (check_dict_keys hout)) hbuilt

/-- For every input that is accepted in any mode, with a JSON reader whose objects have distinct
keys: the keys of the prepared value are unique exactly when in no Hash of the input two keys have
one text. -/
theorem prepared_keys_unique_iff
    (hjson : ∀ text j, x.fromStr text = .ok j → ∀ map, j.HasObject map → (map.map (·.1)).Nodup)
    {input : RubyValue} {mode : InputMode} {prepared : PreparedInput}
    (hprepared : prepareInput input mode = .ok prepared) {value : OwnedValue}
    (hvalue : prepared.value x = some value) :
    value.KeysUnique x ↔ ∀ entries, input.HasHash entries → KeysApart entries := by
  obtain ⟨basic, bytes, source, rfl, rfl⟩ | ⟨v, rfl, himage⟩ := prepareInput_ok hprepared
  · obtain ⟨j, hj, rfl⟩ := Option.map_eq_some_iff.1 hvalue
    cases hread : x.fromStr source with
    | error message =>
      rw [hread] at hj
      cases hj
    | ok j' =>
      rw [hread] at hj
      cases hj
      refine iff_of_true (.of_distinct fun map hmap => ?_) fun entries h => by cases h
      obtain ⟨object, hobject, hkeys⟩ := hasObject_of_fromJson hmap
      exact hkeys ▸ hjson source _ hread object hobject
  · cases hvalue
    constructor
    · intro h entries hentries
      obtain ⟨map, hmap, hrel⟩ := himage.hasDict hentries
      exact (nodup_keys_iff hrel).1 (h.distinct map hmap)
    · intro h
      refine .of_distinct fun map hmap => ?_
      obtain ⟨entries, hentries, hrel⟩ := himage.hasHash hmap
      exact (nodup_keys_iff hrel).2 (h entries hentries)

/-- A Hash with a String key and a Symbol key. -/
def twoKeys (s t : String) : RubyValue :=
  .hash ⟨"Hash", false⟩ [(.utf8Str s, .bool true), (.id2sym t, .bool false)]

theorem twoKeys_prepared (s t : String) :
    prepareInput (twoKeys s t) .auto =
      .ok (.owned (.dict [(s, .bool true), (t, .bool false)])) := by
  have himage : Image (twoKeys s t) (.dict [(s, .bool true), (t, .bool false)]) :=
    .hash _ (.cons (.mk (.string _ s) (.bool true)) (.cons (.mk (.symbol t) (.bool false)) .nil))
  exact himage.prepared_hash

/-- `{"a" => true, :a => false}`: the second entry is never found. -/
theorem prepared_keys_not_unique :
    prepareInput (twoKeys "a" "a") .auto =
        .ok (.owned (.dict [("a", .bool true), ("a", .bool false)])) ∧
      ¬ (OwnedValue.dict [("a", .bool true), ("a", .bool false)]).KeysUnique
        (.reading "null" .null) := by
  refine ⟨twoKeys_prepared "a" "a", fun h => ?_⟩
  have hnodup := h.distinct _ (.here _)
  revert hnodup
  decide

/-- `{"a" => true, :b => false}`. -/
theorem prepared_keys_unique_iff_two :
    (OwnedValue.dict [("a", .bool true), ("b", .bool false)]).KeysUnique
      (.reading "null" .null) := by
  have hjson (text : String) (j : JsonValue)
      (hj : (Externals.reading "null" .null).fromStr text = .ok j) (map : JsonMap)
      (hmap : j.HasObject map) : (map.map (·.1)).Nodup := by
    cases Externals.reading_json hj
    cases hmap
  refine (prepared_keys_unique_iff hjson (twoKeys_prepared "a" "b") rfl).2 ?_
  intro entries hentries
  cases hentries with
  | here =>
    refine .cons (List.forall_mem_singleton.2 ?_) (List.pairwise_singleton _ _)
    intro key ha hb
    cases ha.unique (.string _ "a")
    exact absurd (hb.unique (.symbol "b")) (by decide)
  | entry _ hp h =>
    obtain rfl | hp := List.mem_cons.1 hp
    · cases h
    · cases List.mem_singleton.1 hp
      cases h

end RustlyCore
