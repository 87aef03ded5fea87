import RustlyCore.Build
import RustlyCore.Instance
import RustlyCore.Keys
import RustlyCore.Validation.Canonical

/-!
# Outputs that come back

An output that is turned into Ruby values and prepared again is what it was, with dicts for its
structs. Names change their kind on the way: keys of dicts and fields come back from Symbols, those
of extras from Strings.
-/

namespace RustlyCore

open Fallible (Settles settles_pure settles_fail settles_bind)

variable {x : Externals}

/-! ## Failing -/

/-- What has no zero byte is interned. -/
def RubyText.Interned (x : Externals) (t : RubyText) : Prop :=
  t.role = .symbol → t.NulFree → x.interns t.text = true

theorem symbolToValue_settles {name : String} (h : RubyText.Interned x ⟨.symbol, name⟩) :
    Settles (symbolToValue x name) := by
  rw [symbolToValue]
  cases hnul : Text.containsNul name with
  | true => exact settles_fail _
  | false =>
    have hintern : (intern x name : Result MaterializeError String) = .ok name := by
      rw [intern, h rfl hnul]
      rfl
    rw [hintern]
    exact settles_pure _

theorem attributeKeyValue_settles (name : String) : Settles (attributeKeyValue name) := by
  rw [attributeKeyValue]
  cases Text.containsNul name with
  | true => exact settles_fail _
  | false => exact settles_pure _

theorem itemsToRuby_settles {items : List OwnedValue}
    (ih : ∀ v ∈ items, (∀ t ∈ v.rubyTexts, t.Interned x) → Settles (ownedValueToRuby x v))
    (h : ∀ t ∈ itemsTexts items, t.Interned x) : Settles (itemsToRuby x items) := by
  induction items with
  | nil => exact settles_pure _
  | cons item items ihitems =>
    obtain ⟨hitem, hitems⟩ := List.forall_mem_cons.1 ih
    obtain ⟨htexts, hrest⟩ := List.forall_mem_append.1 h
    apply settles_bind (hitem htexts)
    intro rubyValue
    apply settles_bind (ihitems hitems hrest)
    exact fun _ => settles_pure _

theorem buildHash_settles {map : OwnedDict}
    (ih : ∀ p ∈ map, (∀ t ∈ p.2.rubyTexts, t.Interned x) → Settles (ownedValueToRuby x p.2))
    (entries : List (RubyValue × RubyValue))
    (h : ∀ t ∈ entriesTexts .symbol map, t.Interned x) : Settles (buildHash x entries map) := by
  induction map generalizing entries with
  | nil => exact settles_pure _
  | cons entry map ihmap =>
    obtain ⟨hvalue, hmap⟩ := List.forall_mem_cons.1 ih
    obtain ⟨hhead, hrest⟩ := List.forall_mem_append.1 h
    obtain ⟨hkey, htexts⟩ := List.forall_mem_cons.1 hhead
    apply settles_bind (symbolToValue_settles hkey)
    intro symbol
    apply settles_bind (hvalue htexts)
    exact fun _ => ihmap hmap _ hrest

theorem extrasToRuby_settles {extras : OwnedDict}
    (ih : ∀ p ∈ extras, (∀ t ∈ p.2.rubyTexts, t.Interned x) → Settles (ownedValueToRuby x p.2))
    (entries : List (RubyValue × RubyValue))
    (h : ∀ t ∈ entriesTexts .key extras, t.Interned x) :
    Settles (extrasToRuby x entries extras) := by
  induction extras generalizing entries with
  | nil => exact settles_pure _
  | cons entry extras ihextras =>
    obtain ⟨hvalue, hextras⟩ := List.forall_mem_cons.1 ih
    obtain ⟨hhead, hrest⟩ := List.forall_mem_append.1 h
    obtain ⟨-, htexts⟩ := List.forall_mem_cons.1 hhead
    apply settles_bind (hvalue htexts)
    intro rubyValue
    apply settles_bind (attributeKeyValue_settles _)
    exact fun _ => ihextras hextras _ hrest

theorem fieldsToRuby_settles {fields : List (Option OwnedValue)}
    (ih : ∀ v, some v ∈ fields → (∀ t ∈ v.rubyTexts, t.Interned x) →
      Settles (ownedValueToRuby x v))
    (entries : List (RubyValue × RubyValue)) (names : List String)
    (h : ∀ t ∈ fieldsTexts names fields, t.Interned x) :
    Settles (fieldsToRuby x entries names fields) := by
  induction fields generalizing entries names with
  | nil =>
    cases names <;> exact settles_pure _
  | cons field fields ihfields =>
    have hfields v (hv : some v ∈ fields) := ih v (List.mem_cons_of_mem _ hv)
    cases names with
    | nil => exact settles_pure _
    | cons name names =>
      cases field with
      | none => exact ihfields hfields _ _ h
      | some value =>
        obtain ⟨hhead, hrest⟩ := List.forall_mem_append.1 h
        obtain ⟨hname, htexts⟩ := List.forall_mem_cons.1 hhead
        apply settles_bind (ih value List.mem_cons_self htexts)
        intro rubyValue
        apply settles_bind (symbolToValue_settles hname)
        exact fun _ => ihfields hfields _ _ hrest

/-- Where Ruby interns what it is given, a conversion ends with a value or an error. -/
theorem ownedValueToRuby_settles {w : OwnedValue} (h : ∀ t ∈ w.rubyTexts, t.Interned x) :
    Settles (ownedValueToRuby x w) := by
  induction w with
  | null | bool | int | float | string =>
    rw [ownedValueToRuby]
    exact settles_pure _
  | symbol s =>
    rw [ownedValueToRuby]
    exact symbolToValue_settles (h _ List.mem_cons_self)
  | list items ih =>
    rw [ownedValueToRuby]
    apply settles_bind (itemsToRuby_settles ih h)
    exact fun _ => settles_pure _
  | dict map ih =>
    rw [ownedValueToRuby]
    apply settles_bind (buildHash_settles ih [] h)
    exact fun _ => settles_pure _
  | struct names fields extras ihfields ihextras =>
    obtain ⟨hfields, hextras⟩ := List.forall_mem_append.1 h
    rw [ownedValueToRuby]
    apply settles_bind (fieldsToRuby_settles ihfields [] names hfields)
    intro entries
    refine settles_bind ?_ fun _ => settles_pure _
    cases extras with
    | none =>
      rw [optionalExtrasToRuby]
      exact settles_pure _
    | some extras =>
      rw [optionalExtrasToRuby]
      exact extrasToRuby_settles (ihextras extras rfl) entries hextras

/-! ## The Hashes that are built -/

/-- No two keys of a dict, no two extras and no two names of a struct are the same, at any depth. -/
inductive OwnedValue.NamesApart : OwnedValue → Prop
  | null : NamesApart .null
  | bool (b : Bool) : NamesApart (.bool b)
  | int (i : Int64) : NamesApart (.int i)
  | float (f : Float) : NamesApart (.float f)
  | string (s : String) : NamesApart (.string s)
  | symbol (s : String) : NamesApart (.symbol s)
  | list {items : List OwnedValue} : (∀ v ∈ items, NamesApart v) → NamesApart (.list items)
  | dict {entries : OwnedDict} : (entries.map (·.1)).Nodup → (∀ p ∈ entries, NamesApart p.2) →
    NamesApart (.dict entries)
  | struct {names : List String} {fields : List (Option OwnedValue)} {extras : Option OwnedDict} :
    names.Nodup → (∀ v, some v ∈ fields → NamesApart v) → ((extras.getD []).map (·.1)).Nodup →
    (∀ p ∈ extras.getD [], NamesApart p.2) → NamesApart (.struct ⟨names, fields, extras⟩)

namespace AttributeKey

def name : AttributeKey → String
  | field name | extra name => name

/-- A key is read back as its name, frozen or not. -/
theorem sameKey_name (key : AttributeKey) : SameKey key.name key.toRuby.freeze := by
  cases key with
  | field name => exact .symbol name
  | extra name => exact .string _ name

end AttributeKey

/-! ## Reading back -/

theorem asInputFields_eq_map (names : List String) (fields : List (Option OwnedValue)) :
    OwnedValue.asInputFields names fields =
      (presentFields names fields).map fun p => (p.1, p.2.asInput) := by
  induction names generalizing fields with
  | nil => cases fields <;> rfl
  | cons name names ih =>
    match fields with
    | [] => rfl
    | none :: fields => exact ih fields
    | some value :: fields => exact congrArg _ (ih fields)

theorem asInputExtras_eq_map (extras : Option OwnedDict) :
    OwnedValue.asInputExtras extras = (extras.getD []).map fun p => (p.1, p.2.asInput) := by
  cases extras with
  | none => rfl
  | some extras => exact OwnedValue.asInputEntries_eq_map extras

/-- The entries that are written are read back under their names. -/
theorem imageEntries_of_converted {key : String → AttributeKey} (hkey : ∀ s, (key s).name = s)
    {map : OwnedDict} {writes : List (String × RubyValue)}
    (h : List.Forall₂ (ConvertedAs x) map writes)
    (himage : ∀ p ∈ map, ∀ r, ownedValueToRuby x p.2 = .ok r → Image r p.2.asInput) :
    List.Forall₂ ImageEntry
      ((writes.map (Prod.map key id)).map fun w => (w.1.toRuby.freeze, w.2))
      (map.map fun p => (p.1, p.2.asInput)) := by
  induction h with
  | nil => exact .nil
  | @cons p w map writes hpw _ ih =>
    obtain ⟨hp, hmap⟩ := List.forall_mem_cons.1 himage
    obtain ⟨name, value⟩ := p
    obtain ⟨rfl, hconverted⟩ := hpw
    have hsame := (key w.1).sameKey_name
    rw [hkey] at hsame
    exact .cons (.mk hsame (hp _ hconverted)) (ih hmap)

theorem attributeWrites_nodup {fieldWrites extraWrites : List (String × RubyValue)}
    (hfields : (fieldWrites.map (·.1)).Nodup) (hextras : (extraWrites.map (·.1)).Nodup) :
    ((attributeWrites fieldWrites extraWrites).map (·.1)).Nodup := by
  have hkeys : (attributeWrites fieldWrites extraWrites).map (·.1) =
      (fieldWrites.map (·.1)).map .field ++ (extraWrites.map (·.1)).map .extra := by
    simp [attributeWrites, Function.comp_def]
  rw [hkeys]
  refine List.Nodup.append (hfields.map fun _ _ => AttributeKey.field.inj)
    (hextras.map fun _ _ => AttributeKey.extra.inj) ?_
  intro key hfield hextra
  obtain ⟨name, -, rfl⟩ := List.mem_map.1 hfield
  obtain ⟨name', -, heq⟩ := List.mem_map.1 hextra
  cases heq

theorem presentFields_keys_sublist (names : List String) (fields : List (Option OwnedValue)) :
    ((presentFields names fields).map (·.1)).Sublist names := by
  induction names generalizing fields with
  | nil => exact .slnil
  | cons name names ih =>
    match fields with
    | [] => exact List.nil_sublist _
    | none :: fields => exact (ih fields).cons name
    | some value :: fields => exact (ih fields).cons_cons name

/-- A Hash of fields and extras is read back as the dict of both. -/
theorem imageEntries_of_attributes {present extras : OwnedDict}
    {fieldWrites extraWrites : List (String × RubyValue)}
    (hpresent : List.Forall₂ (ConvertedAs x) present fieldWrites)
    (hextras : List.Forall₂ (ConvertedAs x) extras extraWrites)
    (hd : (present.map (·.1)).Nodup) (hd' : (extras.map (·.1)).Nodup)
    (himage : ∀ p ∈ present, ∀ r, ownedValueToRuby x p.2 = .ok r → Image r p.2.asInput)
    (himage' : ∀ p ∈ extras, ∀ r, ownedValueToRuby x p.2 = .ok r → Image r p.2.asInput) :
    List.Forall₂ ImageEntry (attributeStore.setAll [] (attributeWrites fieldWrites extraWrites))
      ((present.map fun p => (p.1, p.2.asInput)) ++ extras.map fun p => (p.1, p.2.asInput)) := by
  rw [← keys_of_converted hpresent] at hd
  rw [← keys_of_converted hextras] at hd'
  rw [setAll_new (attributeWrites_nodup hd hd') (by simp), List.nil_append, attributeWrites,
    List.map_append]
  apply List.rel_append
  · exact imageEntries_of_converted (fun _ => rfl) hpresent himage
  · exact imageEntries_of_converted (fun _ => rfl) hextras himage'

/-- What a conversion returns has the structure of the value, with dicts for structs. -/
theorem image_of_ownedValueToRuby {w : OwnedValue} (hd : w.NamesApart) {r : RubyValue}
    (h : ownedValueToRuby x w = .ok r) : Image r w.asInput := by
  induction w generalizing r with
  | null =>
    cases h
    exact .nil
  | bool b =>
    cases h
    exact .bool b
  | int i =>
    cases h
    exact .integer i
  | float f =>
    cases h
    exact .float f
  | string s =>
    cases h
    exact .string _ s
  | symbol s =>
    cases symbolToValue_ok h
    exact .symbol s
  | list items ih =>
    cases hd with
    | list hitems =>
      obtain ⟨elements, helements, h⟩ := Fallible.bind_eq_ok.1 h
      cases h
      rw [OwnedValue.asInput, OwnedValue.asInputItems_eq_map]
      refine .array _ (List.forall₂_map_right_iff.2 (forall₂_imp_mem
        (itemsToRuby_converted helements).flip ?_))
      intro r _ v hv hconverted
      exact ih v hv (hitems v hv) hconverted
  | dict map ih =>
    cases hd with
    | dict hkeys hvalues =>
      obtain ⟨entries, hentries, h⟩ := Fallible.bind_eq_ok.1 h
      cases h
      obtain ⟨writes, hwrites, rfl⟩ := buildHash_writes hentries
      -- a dict is a struct of these fields without extras
      have himage := imageEntries_of_attributes hwrites .nil hkeys .nil
        (fun p hp r => ih p hp (hvalues p hp)) (by simp)
      rw [attributeWrites, List.map_nil, List.map_nil, List.append_nil, List.append_nil] at himage
      rw [OwnedValue.asInput, OwnedValue.asInputEntries_eq_map]
      exact .hash _ himage
  | struct names fields extras ihfields ihextras =>
    cases hd with
    | struct hnames hfields hkeys hextras =>
      obtain ⟨fieldWrites, extraWrites, hfieldWrites, hextraWrites, rfl⟩ := structToRuby_writes h
      rw [OwnedValue.asInput, asInputFields_eq_map, asInputExtras_eq_map]
      refine .hash _ (imageEntries_of_attributes hfieldWrites hextraWrites
        (hnames.sublist (presentFields_keys_sublist names fields)) hkeys ?_ ?_)
      · intro p hp r
        have hmem := (List.of_mem_zip (mem_presentFields.1 hp)).2
        exact ihfields p.2 hmem (hfields p.2 hmem)
      · intro p hp r
        cases extras with
        | none => cases hp
        | some extras => exact ihextras extras rfl p hp (hextras p hp)

/-! ## The round trip -/

/-- Where NUL-free ASCII is interned, a value whose Symbols, keys of dicts and names are ASCII fails
to convert exactly at a NUL character in these or in the key of an extra. What it converts to is
read back as the value, with dicts for structs. -/
theorem conversion_roundtrip
    (hinterns : ∀ s, Text.isAscii s = true → Text.containsNul s = false → x.interns s = true)
    {w : OwnedValue} (hd : w.NamesApart)
    (hascii : ∀ t ∈ w.rubyTexts, t.role = .symbol → Text.isAscii t.text = true) :
    ((∃ error, ownedValueToRuby x w = .fail error) ↔
        ∃ t ∈ w.rubyTexts, Text.containsNul t.text = true) ∧
      ∀ r, ownedValueToRuby x w = .ok r →
        ∀ path, convertRubyValue path r = .ok w.asInput := by
  have hinterned : ∀ t ∈ w.rubyTexts, t.Interned x := by
    intro t ht hrole hnul
    exact hinterns _ (hascii t ht hrole) hnul
  refine ⟨?_, ?_⟩
  · rw [(ownedValueToRuby_settles hinterned).fails_iff, ownedValueToRuby_returns]
    simp only [not_forall, exists_prop]
    refine exists_congr fun t => and_congr_right fun ht => ?_
    rw [← Bool.not_eq_false, not_iff_not]
    exact ⟨And.left, fun hnul => ⟨hnul, fun hrole => hinterned t ht hrole hnul⟩⟩
  · intro r hr path
    exact convertRubyValue_eq_ok.2 (image_of_ownedValueToRuby hd hr)

/-- A struct with a present field, an absent one and an extra. -/
def outputStruct : OwnedValue :=
  .struct ⟨["a", "b"], [some (.dict [("k", .symbol "s")]), none], some [("e", .list [.int 1])]⟩

/-- The field comes back from a Symbol and the extra from a String. -/
theorem conversion_roundtrip_struct :
    ∃ r, ownedValueToRuby (.reading "null" .null) outputStruct = .ok r ∧ convertRubyValue [] r =
      .ok (.dict [("a", .dict [("k", .symbol "s")]), ("e", .list [.int 1])]) := by
  have htexts : outputStruct.rubyTexts =
      [⟨.symbol, "a"⟩, ⟨.symbol, "k"⟩, ⟨.symbol, "s"⟩, ⟨.key, "e"⟩] := rfl
  have hinterns (s : String) (hascii : Text.isAscii s = true) (_ : Text.containsNul s = false) :
      (Externals.reading "null" .null).interns s = true := hascii
  have hdict : (OwnedValue.dict [("k", .symbol "s")]).NamesApart :=
    .dict (List.nodup_singleton _) (List.forall_mem_singleton.2 (.symbol _))
  have hlist : (OwnedValue.list [.int 1]).NamesApart := .list (List.forall_mem_singleton.2 (.int _))
  have hd : outputStruct.NamesApart := by
    refine .struct (by decide) ?_ (List.nodup_singleton _) (List.forall_mem_singleton.2 hlist)
    intro v hv
    simp only [List.mem_cons, List.not_mem_nil, Option.some.injEq, reduceCtorEq, or_false] at hv
    exact hv ▸ hdict
  have hascii : ∀ t ∈ outputStruct.rubyTexts, t.role = .symbol → Text.isAscii t.text = true := by
    rw [htexts]
    decide
  obtain ⟨-, hreads⟩ := conversion_roundtrip hinterns hd hascii
  cases hconverted : ownedValueToRuby (.reading "null" .null) outputStruct with
  | ok r => exact ⟨r, rfl, hreads r hconverted []⟩
  | error stop => cases hconverted

end RustlyCore
