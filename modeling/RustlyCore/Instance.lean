import Mathlib.Data.List.Nodup
import RustlyCore.Lib.Pointwise
import RustlyCore.Lib.Writes
import RustlyCore.Plan

/-!
# What an instance holds (`materialize.rs`)

Fields are written as instance variables and, next to the extras, into the attributes hash, which
becomes an instance variable itself. A later write replaces an earlier one under its name. So an
instance holds what was validated unless the hash takes the place of a field called `attributes`,
or two extras share a key.
-/

namespace RustlyCore

/-! ## Freezing -/

namespace RubyValue

theorem deepFreezeItems_eq_map (items : List RubyValue) :
    deepFreezeItems items = items.map deepFreeze := by
  induction items with
  | nil => rfl
  | cons item items ih => rw [deepFreezeItems, ih, List.map_cons]

theorem deepFreezeEntries_eq_map (entries : List (RubyValue × RubyValue)) :
    deepFreezeEntries entries = entries.map (Prod.map deepFreeze deepFreeze) := by
  induction entries with
  | nil => rfl
  | cons entry entries ih =>
    obtain ⟨key, value⟩ := entry
    rw [deepFreezeEntries, ih, List.map_cons, Prod.map_apply]

theorem deepFreeze_deepFreeze (r : RubyValue) : r.deepFreeze.deepFreeze = r.deepFreeze := by
  induction r with
  | array basic items ih =>
    rw [deepFreeze, deepFreeze, deepFreezeItems_eq_map, deepFreezeItems_eq_map, List.map_map]
    refine congrArg _ (List.map_congr_left ?_)
    intro item hitem
    exact ih item hitem
  | hash basic entries ih =>
    rw [deepFreeze, deepFreeze, deepFreezeEntries_eq_map, deepFreezeEntries_eq_map, List.map_map]
    refine congrArg _ (List.map_congr_left ?_)
    intro entry hentry
    exact Prod.ext (ih entry hentry).1 (ih entry hentry).2
  | _ => rfl

theorem deepFreeze_array_eq_self {basic : RBasic} {elements : List RubyValue} :
    (array basic elements).deepFreeze = array basic elements ↔
      { basic with frozen := true } = basic ∧ ∀ t ∈ elements, t.deepFreeze = t := by
  rw [deepFreeze, deepFreezeItems_eq_map, array.injEq, map_eq_self_iff]

theorem deepFreeze_hash_eq_self {basic : RBasic} {pairs : List (RubyValue × RubyValue)} :
    (hash basic pairs).deepFreeze = hash basic pairs ↔
      { basic with frozen := true } = basic ∧
        ∀ p ∈ pairs, p.1.deepFreeze = p.1 ∧ p.2.deepFreeze = p.2 := by
  have hpairs (p : RubyValue × RubyValue) : Prod.map deepFreeze deepFreeze p = p ↔
      p.1.deepFreeze = p.1 ∧ p.2.deepFreeze = p.2 := Prod.ext_iff
  rw [deepFreeze, deepFreezeEntries_eq_map, hash.injEq, map_eq_self_iff]
  simp only [hpairs]

theorem sameKey_deepFreeze (a b : RubyValue) : a.deepFreeze.sameKey b = a.sameKey b := by
  cases a <;> cases b <;> rfl

/-- A value is not found inside itself. -/
theorem hashLookup_ne_self (hash key : RubyValue) : hash.hashLookup key ≠ some hash := by
  intro h
  cases hash with
  | hash basic entries =>
    obtain ⟨⟨k, v⟩, hfind, heq⟩ := Option.map_eq_some_iff.1 h
    have hmem := List.sizeOf_lt_of_mem (List.mem_of_find?_eq_some hfind)
    have hsize : sizeOf v = sizeOf (hash basic entries) := congrArg sizeOf heq
    simp only [hash.sizeOf_spec, Prod.mk.sizeOf_spec] at hsize hmem
    omega
  | _ => cases h

end RubyValue

/-- What freezing a container does to a value inside. -/
def FreezeMode.within (freezeMode : FreezeMode) (value : RubyValue) : RubyValue :=
  if freezeMode = .deep then value.deepFreeze else value

/-- The frozen hash: the same keys, and what is found under them frozen along. -/
theorem frozenAs_hash (freezeMode : FreezeMode) (basic : RBasic)
    (entries : List (RubyValue × RubyValue)) :
    ∃ basic' entries', frozenAs freezeMode (.hash basic entries) = .hash basic' entries' ∧
      (∀ key, (RubyValue.hash basic' entries').hashLookup key =
        ((RubyValue.hash basic entries).hashLookup key).map freezeMode.within) ∧
      ∀ p ∈ entries', ∃ q ∈ entries, ∀ key, p.1.sameKey key = q.1.sameKey key := by
  cases freezeMode with
  | none | shallow =>
    refine ⟨_, entries, rfl, fun _ => Option.map_id'.symm, ?_⟩
    intro p hp
    exact ⟨p, hp, fun _ => rfl⟩
  | deep =>
    refine ⟨_, _, rfl, ?_, ?_⟩
    · intro key
      rw [RubyValue.deepFreezeEntries_eq_map]
      induction entries with
      | nil => rfl
      | cons entry entries ih =>
        obtain ⟨k, v⟩ := entry
        rw [List.map_cons, Prod.map_apply, RubyValue.hashLookup_cons, RubyValue.hashLookup_cons,
          RubyValue.sameKey_deepFreeze, ih]
        split <;> rfl
    · rw [RubyValue.deepFreezeEntries_eq_map]
      intro p hp
      obtain ⟨q, hq, rfl⟩ := List.mem_map.1 hp
      exact ⟨q, hq, RubyValue.sameKey_deepFreeze q.1⟩

variable {x : Externals} {freezeMode : FreezeMode}

theorem storedValue_within {value : OwnedValue} {rubyValue : RubyValue}
    (h : storedValue x freezeMode value = .ok rubyValue) :
    freezeMode.within rubyValue = rubyValue := by
  obtain ⟨converted, -, h⟩ := Fallible.bind_eq_ok.1 h
  cases h
  by_cases hdeep : freezeMode = .deep
  · rw [FreezeMode.within, if_pos hdeep, if_pos hdeep, RubyValue.deepFreeze_deepFreeze]
  · rw [FreezeMode.within, if_neg hdeep, if_neg hdeep]

/-! ## The two namespaces -/

/-- A key of the attributes hash: the Symbol of a field or the String of an extra. -/
inductive AttributeKey where
  | field (name : String)
  | extra (name : String)
deriving DecidableEq

namespace AttributeKey

def toRuby : AttributeKey → RubyValue
  | field name => .id2sym name
  | extra name => .utf8Str name

theorem sameKey_iff {key key' : AttributeKey} :
    key.toRuby.sameKey key'.toRuby = true ↔ key' = key := by
  cases key with
  | field name =>
    cases key' with
    | field name' => rw [toRuby, toRuby, RubyValue.sameKey_id2sym, field.injEq, eq_comm]
    | extra name' => exact iff_of_false nofun nofun
  | extra name =>
    cases key' with
    | field name' => exact iff_of_false nofun nofun
    | extra name' => rw [toRuby, toRuby, RubyValue.sameKey_utf8Str, extra.injEq, eq_comm]

end AttributeKey

/-- The attributes hash under `rb_hash_aset`. -/
def attributeStore : Store (List (RubyValue × RubyValue)) AttributeKey RubyValue where
  get entries key := (RubyValue.hash ⟨"Hash", false⟩ entries).hashLookup key.toRuby
  set entries key := hashAset entries key.toRuby
  get_set entries key value key' := by
    rw [hashLookup_hashAset]
    simp only [AttributeKey.sameKey_iff]

/-- Instance variables under `rb_ivar_set`. -/
def ivarStore : Store (List (String × RubyValue)) String RubyValue where
  get ivars id := ivars.lookup id
  set := ivarSet
  get_set ivars id value id' := lookup_ivarSet ivars id' id value

theorem ivarName_injective : Function.Injective ("@" ++ · : String → String) := by
  intro a b h
  exact (String.append_right_inj "@").1 h

theorem forall_setAll {P Q : RubyValue → Prop} {entries : List (RubyValue × RubyValue)}
    {writes : List (AttributeKey × RubyValue)} (h : ∀ p ∈ entries, P p.1 ∧ Q p.2)
    (hwrites : ∀ w ∈ writes, P w.1.toRuby.freeze ∧ Q w.2) :
    ∀ p ∈ attributeStore.setAll entries writes, P p.1 ∧ Q p.2 := by
  induction writes generalizing entries with
  | nil => exact h
  | cons w writes ih =>
    obtain ⟨⟨hkey, hvalue⟩, hwrites⟩ := List.forall_mem_cons.1 hwrites
    exact ih (forall_hashAset h hkey hvalue) hwrites

/-- In a hash that was empty, every key has been written. -/
theorem key_of_setAll {writes : List (AttributeKey × RubyValue)} {p : RubyValue × RubyValue}
    (h : p ∈ attributeStore.setAll [] writes) : ∃ w ∈ writes, p.1 = w.1.toRuby.freeze :=
  (forall_setAll (P := fun key => ∃ w ∈ writes, key = w.1.toRuby.freeze) (Q := fun _ => True)
    (by simp) (fun w hw => ⟨⟨w, hw, rfl⟩, trivial⟩) p h).1

/-- Writes under distinct keys that are new become entries in their order. -/
theorem setAll_new {entries : List (RubyValue × RubyValue)}
    {writes : List (AttributeKey × RubyValue)} (hd : (writes.map (·.1)).Nodup)
    (hnew : ∀ p ∈ entries, ∀ w ∈ writes, p.1.sameKey w.1.toRuby = false) :
    attributeStore.setAll entries writes =
      entries ++ writes.map fun w => (w.1.toRuby.freeze, w.2) := by
  induction writes generalizing entries with
  | nil => exact (List.append_nil entries).symm
  | cons w writes ih =>
    obtain ⟨key, value⟩ := w
    obtain ⟨hnot, hd⟩ := List.nodup_cons.1 hd
    have hset : attributeStore.set entries key value = entries ++ [(key.toRuby.freeze, value)] :=
      hashAset_new (fun p hp => hnew p hp _ List.mem_cons_self) value
    have hnext : ∀ p ∈ entries ++ [(key.toRuby.freeze, value)], ∀ w ∈ writes,
        p.1.sameKey w.1.toRuby = false := by
      intro p hp w hw
      obtain hp | hp := List.mem_append.1 hp
      · exact hnew p hp w (List.mem_cons_of_mem _ hw)
      · cases List.mem_singleton.1 hp
        rw [RubyValue.sameKey_freeze, Bool.eq_false_iff]
        intro hsame
        exact hnot (List.mem_map.2 ⟨w, hw, AttributeKey.sameKey_iff.1 hsame⟩)
    rw [Store.setAll, hset, ih hd hnext, List.append_assoc]
    rfl

/-! ## The loops as runs of writes -/

/-- A named value and what is stored for it. -/
def StoredAs (x : Externals) (freezeMode : FreezeMode) (p : String × OwnedValue)
    (w : String × RubyValue) : Prop :=
  p.1 = w.1 ∧ storedValue x freezeMode p.2 = .ok w.2

theorem StoredAs.unique {p q : String × OwnedValue} {w u : String × RubyValue}
    (h : StoredAs x freezeMode p w) (h' : StoredAs x freezeMode q u)
    (heq : storedValue x freezeMode p.2 = storedValue x freezeMode q.2) : w.2 = u.2 := by
  have hok := h.2.symm.trans (heq.trans h'.2)
  exact Except.ok.inj hok

/-- The fields that are present, under their names. -/
def presentFields (names : List String) (fields : List (Option OwnedValue)) : OwnedDict :=
  (names.zip fields).filterMap fun p => p.2.map (p.1, ·)

theorem mem_presentFields {names : List String} {fields : List (Option OwnedValue)} {name : String}
    {value : OwnedValue} :
    (name, value) ∈ presentFields names fields ↔ (name, some value) ∈ names.zip fields := by
  simp [presentFields]

theorem storeFields_writes {names : List String} {fields : List (Option OwnedValue)}
    {planNames : List String} {building building' : Building}
    (h : storeFields x freezeMode names fields building (planNames.map .named) = .ok building') :
    ∃ writes, List.Forall₂ (StoredAs x freezeMode)
        (planNames.filterMap fun name =>
          (planned names fields (.named name)).map (name, ·)) writes ∧
      building' = ⟨building.attributes.map
          (attributeStore.setAll · (writes.map (Prod.map .field id))),
        ivarStore.setAll building.ivars (writes.map (Prod.map ("@" ++ ·) id))⟩ := by
  induction planNames generalizing building with
  | nil =>
    obtain ⟨attributes, ivars⟩ := building
    cases h
    refine ⟨[], .nil, ?_⟩
    cases attributes <;> rfl
  | cons name planNames ih =>
    rw [List.map_cons, storeFields] at h
    split at h
    next hnone =>
      rw [List.filterMap_cons_none (by rw [hnone]; rfl)]
      exact ih h
    next value hsome =>
      rw [List.filterMap_cons_some (by rw [hsome]; rfl)]
      obtain ⟨rubyValue, hstored, h⟩ := Fallible.bind_eq_ok.1 h
      obtain ⟨writes, hwrites, rfl⟩ := ih h
      refine ⟨(name, rubyValue) :: writes, .cons ⟨rfl, hstored⟩ hwrites, ?_⟩
      rw [Option.map_map]
      rfl

theorem storeExtras_writes {building building' : Building} {extras : OwnedDict}
    (h : storeExtras x freezeMode building extras = .ok building') :
    ∃ writes, List.Forall₂ (StoredAs x freezeMode) extras writes ∧
      building' = ⟨building.attributes.map
          (attributeStore.setAll · (writes.map (Prod.map .extra id))),
        building.ivars⟩ := by
  induction extras generalizing building with
  | nil =>
    obtain ⟨attributes, ivars⟩ := building
    cases h
    refine ⟨[], .nil, ?_⟩
    cases attributes <;> rfl
  | cons extra extras ih =>
    obtain ⟨key, value⟩ := extra
    obtain ⟨attributes, ivars⟩ := building
    obtain ⟨rubyValue, hstored, h⟩ := Fallible.bind_eq_ok.1 h
    cases attributes with
    | none =>
      obtain ⟨writes, hwrites, rfl⟩ := ih h
      exact ⟨(key, rubyValue) :: writes, .cons ⟨rfl, hstored⟩ hwrites, rfl⟩
    | some attributes =>
      obtain ⟨keyValue, hkey, h⟩ := Fallible.bind_eq_ok.1 h
      obtain ⟨writes, hwrites, rfl⟩ := ih h
      refine ⟨(key, rubyValue) :: writes, .cons ⟨rfl, hstored⟩ hwrites, ?_⟩
      rw [attributeKeyValue] at hkey
      split at hkey
      next => cases hkey
      next =>
        cases hkey
        rfl

/-- A named value and what it is converted to. -/
def ConvertedAs (x : Externals) (p : String × OwnedValue) (w : String × RubyValue) : Prop :=
  p.1 = w.1 ∧ ownedValueToRuby x p.2 = .ok w.2

theorem itemsToRuby_converted {items : List OwnedValue} {elements : List RubyValue}
    (h : itemsToRuby x items = .ok elements) :
    List.Forall₂ (fun item r => ownedValueToRuby x item = .ok r) items elements := by
  induction items generalizing elements with
  | nil =>
    cases h
    exact .nil
  | cons item items ih =>
    obtain ⟨rubyValue, hvalue, h⟩ := Fallible.bind_eq_ok.1 h
    obtain ⟨rest, hrest, h⟩ := Fallible.bind_eq_ok.1 h
    cases h
    exact .cons hvalue (ih hrest)

theorem keys_of_converted {map : OwnedDict} {writes : List (String × RubyValue)}
    (h : List.Forall₂ (ConvertedAs x) map writes) : writes.map (·.1) = map.map (·.1) :=
  (map_eq_of_forall₂ h fun _ _ hpw => hpw.1).symm

theorem buildHash_writes {map : OwnedDict} {entries hash : List (RubyValue × RubyValue)}
    (h : buildHash x entries map = .ok hash) :
    ∃ writes, List.Forall₂ (ConvertedAs x) map writes ∧
      hash = attributeStore.setAll entries (writes.map (Prod.map .field id)) := by
  induction map generalizing entries with
  | nil =>
    cases h
    exact ⟨[], .nil, rfl⟩
  | cons entry map ih =>
    obtain ⟨key, value⟩ := entry
    obtain ⟨symbol, hsymbol, h⟩ := Fallible.bind_eq_ok.1 h
    obtain ⟨rubyValue, hvalue, h⟩ := Fallible.bind_eq_ok.1 h
    obtain ⟨writes, hwrites, rfl⟩ := ih h
    cases symbolToValue_ok hsymbol
    exact ⟨(key, rubyValue) :: writes, .cons ⟨rfl, hvalue⟩ hwrites, rfl⟩

theorem fieldsToRuby_writes {names : List String} {fields : List (Option OwnedValue)}
    {entries hash : List (RubyValue × RubyValue)}
    (h : fieldsToRuby x entries names fields = .ok hash) :
    ∃ writes, List.Forall₂ (ConvertedAs x) (presentFields names fields) writes ∧
      hash = attributeStore.setAll entries (writes.map (Prod.map .field id)) := by
  induction names generalizing entries fields with
  | nil =>
    cases fields with
    | nil | cons =>
      cases h
      exact ⟨[], .nil, rfl⟩
  | cons name names ih =>
    cases fields with
    | nil =>
      cases h
      exact ⟨[], .nil, rfl⟩
    | cons field fields =>
      cases field with
      | none => exact ih h
      | some value =>
        obtain ⟨rubyValue, hvalue, h⟩ := Fallible.bind_eq_ok.1 h
        obtain ⟨symbol, hsymbol, h⟩ := Fallible.bind_eq_ok.1 h
        obtain ⟨writes, hwrites, rfl⟩ := ih h
        cases symbolToValue_ok hsymbol
        exact ⟨(name, rubyValue) :: writes, .cons ⟨rfl, hvalue⟩ hwrites, rfl⟩

theorem extrasToRuby_writes {extras : OwnedDict} {entries hash : List (RubyValue × RubyValue)}
    (h : extrasToRuby x entries extras = .ok hash) :
    ∃ writes, List.Forall₂ (ConvertedAs x) extras writes ∧
      hash = attributeStore.setAll entries (writes.map (Prod.map .extra id)) := by
  induction extras generalizing entries with
  | nil =>
    cases h
    exact ⟨[], .nil, rfl⟩
  | cons extra extras ih =>
    obtain ⟨key, value⟩ := extra
    obtain ⟨rubyValue, hvalue, h⟩ := Fallible.bind_eq_ok.1 h
    obtain ⟨keyValue, hkey, h⟩ := Fallible.bind_eq_ok.1 h
    obtain ⟨writes, hwrites, rfl⟩ := ih h
    cases attributeKeyValue_ok hkey
    exact ⟨(key, rubyValue) :: writes, .cons ⟨rfl, hvalue⟩ hwrites, rfl⟩

theorem optionalExtrasToRuby_writes {extras : Option OwnedDict}
    {entries hash : List (RubyValue × RubyValue)}
    (h : optionalExtrasToRuby x entries extras = .ok hash) :
    ∃ writes, List.Forall₂ (ConvertedAs x) (extras.getD []) writes ∧
      hash = attributeStore.setAll entries (writes.map (Prod.map .extra id)) := by
  cases extras with
  | none =>
    cases h
    exact ⟨[], .nil, rfl⟩
  | some extras => exact extrasToRuby_writes h

/-! ## Fields of distinct names -/

section
variable {names : List String} {values : List (Option OwnedValue)}

theorem zip_unique (hd : names.Nodup) (hlen : values.length = names.length) {name : String}
    {value value' : Option OwnedValue} (h : (name, value) ∈ names.zip values)
    (h' : (name, value') ∈ names.zip values) : value = value' := by
  have hkeys : ((names.zip values).map Prod.fst).Nodup := by
    rw [List.map_fst_zip (Nat.le_of_eq hlen.symm)]
    exact hd
  exact (Prod.mk.inj (List.inj_on_of_nodup_map hkeys h h' rfl)).2

theorem planned_eq_presentFields (hd : names.Nodup) (hlen : values.length = names.length) :
    (names.filterMap fun name => (planned names values (.named name)).map (name, ·)) =
      presentFields names values := by
  have hnames : names = (names.zip values).map Prod.fst :=
    (List.map_fst_zip (Nat.le_of_eq hlen.symm)).symm
  conv_lhs => rw [hnames, List.filterMap_map]
  refine List.filterMap_congr ?_
  intro p hp
  have hplanned := planned_mem hlen (List.of_mem_zip hp).1
  rw [Function.comp_apply, ← hnames, zip_unique hd hlen hplanned hp]

/-- What is found for a field: nothing if it is absent, else what is stored for its value. -/
def Holds (x : Externals) (freezeMode : FreezeMode) (value : Option OwnedValue)
    (found : Option RubyValue) : Prop :=
  Option.Rel (fun v w => storedValue x freezeMode v = .ok w) value found

theorem Holds.within {value : Option OwnedValue} {found : Option RubyValue}
    (h : Holds x freezeMode value found) :
    Holds x freezeMode value (found.map freezeMode.within) := by
  cases h with
  | some h =>
    rw [Option.map_some, storedValue_within h]
    exact .some h
  | none => exact .none

theorem Holds.stored {v : OwnedValue} {found : Option RubyValue}
    (h : Holds x freezeMode (some v) found) :
    ∃ w, found = some w ∧ storedValue x freezeMode v = .ok w := by
  cases h with
  | some h => exact ⟨_, rfl, h⟩

theorem Holds.unique {value : Option OwnedValue} {found found' : Option RubyValue}
    (h : Holds x freezeMode value found) (h' : Holds x freezeMode value found') :
    found = found' := by
  cases h with
  | some h =>
    cases h' with
    | some h' => exact congrArg some (Except.ok.inj (h.symm.trans h'))
  | none =>
    cases h'
    rfl

theorem agree_of_storedAs {entries : OwnedDict} {writes : List (String × RubyValue)}
    (hwrites : List.Forall₂ (StoredAs x freezeMode) entries writes)
    (h : ∀ p ∈ entries, ∀ q ∈ entries, p.1 = q.1 →
      storedValue x freezeMode p.2 = storedValue x freezeMode q.2) : Agree writes := by
  intro w hw u hu heq
  obtain ⟨p, hp, hpw⟩ := forall₂_mem_right hwrites w hw
  obtain ⟨q, hq, hqu⟩ := forall₂_mem_right hwrites u hu
  exact hpw.unique hqu (h p hp q hq (hpw.1.trans (heq.trans hqu.1.symm)))

/-- The writes of the fields do not meet: in any store, among other writes to other keys, each
present field is found and no absent one. -/
theorem setAll_holds {σ κ : Type} [DecidableEq κ] (S : Store σ κ RubyValue) {s : σ}
    {key : String → κ} (hkey : Function.Injective key) (hd : names.Nodup)
    (hlen : values.length = names.length) (hempty : ∀ name, S.get s (key name) = none)
    {writes : List (String × RubyValue)}
    (hwrites : List.Forall₂ (StoredAs x freezeMode) (presentFields names values) writes)
    {others : List (κ × RubyValue)} (hothers : ∀ w ∈ others, ∀ name ∈ names, w.1 ≠ key name) :
    List.Forall₂ (fun name value => Holds x freezeMode value
      (S.get (S.setAll s (writes.map (Prod.map key id) ++ others)) (key name))) names values := by
  rw [List.forall₂_iff_zip]
  refine ⟨hlen.symm, ?_⟩
  intro name value hmem
  have hname := (List.of_mem_zip hmem).1
  -- a write to the key of the field comes from the field
  have hsource (w : κ × RubyValue) (hw : w ∈ writes.map (Prod.map key id) ++ others)
      (heq : w.1 = key name) : ∃ v, value = some v ∧ storedValue x freezeMode v = .ok w.2 := by
    obtain hw | hw := List.mem_append.1 hw
    · obtain ⟨u, hu, rfl⟩ := List.mem_map.1 hw
      obtain ⟨⟨n, v⟩, hp, rfl, hstored⟩ := forall₂_mem_right hwrites u hu
      rw [hkey heq] at hp
      exact ⟨v, zip_unique hd hlen hmem (mem_presentFields.1 hp), hstored⟩
    · exact absurd heq (hothers w hw name hname)
  cases value with
  | none =>
    have hne : ∀ w ∈ writes.map (Prod.map key id) ++ others, w.1 ≠ key name := by
      intro w hw heq
      obtain ⟨v, hv, -⟩ := hsource w hw heq
      cases hv
    rw [S.get_setAll_of_forall_ne hne, hempty]
    exact .none
  | some v =>
    obtain ⟨⟨n, w⟩, hw, rfl, hstored⟩ := forall₂_mem_left hwrites _ (mem_presentFields.2 hmem)
    have hin : (key name, w) ∈ writes.map (Prod.map key id) ++ others :=
      List.mem_append_left _ (List.mem_map_of_mem hw)
    have hagree : ∀ w' ∈ writes.map (Prod.map key id) ++ others, w'.1 = key name → w'.2 = w := by
      intro w' hw' heq
      obtain ⟨v', hv', hstored'⟩ := hsource w' hw' heq
      cases hv'
      exact Except.ok.inj (hstored'.symm.trans hstored)
    rw [S.get_setAll_of_mem hin hagree]
    exact .some hstored

end

/-! ## The instance -/

/-- The hash maps the Symbol of each present field and the String of each extra to what is stored
for it, and has no other key. -/
structure HoldsAttributes (x : Externals) (freezeMode : FreezeMode) (names : List String)
    (values : List (Option OwnedValue)) (extras : OwnedDict) (basic : RBasic)
    (entries : List (RubyValue × RubyValue)) : Prop where
  present : List.Forall₂ (fun name value => Holds x freezeMode value
    ((RubyValue.hash basic entries).hashLookup (.id2sym name))) names values
  kept : ∀ p ∈ extras, Holds x freezeMode (some p.2)
    ((RubyValue.hash basic entries).hashLookup (.utf8Str p.1))
  only : ∀ p ∈ entries, (∃ name ∈ names, p.1.sameKey (.id2sym name) = true) ∨
    ∃ q ∈ extras, p.1.sameKey (.utf8Str q.1) = true

/-- Every field that is present, and no other, is in its instance variable. If attributes are
kept, they are in `@attributes`. -/
structure RubyValue.Stores (x : Externals) (options : ValidationOptions) (names : List String)
    (structure_ : OwnedStruct OwnedValue) (built : RubyValue) : Prop where
  ivars : List.Forall₂ (fun name value => Holds x options.freeze value (built.ivar ("@" ++ name)))
    names structure_.fields
  attributes : options.storeAttributes = true → ∃ basic entries,
    built.ivar "@attributes" = some (.hash basic entries) ∧
      HoldsAttributes x options.freeze names structure_.fields (structure_.extras.getD []) basic
        entries

variable {names : List String} {values : List (Option OwnedValue)} {extras : OwnedDict}

def attributeWrites (fieldWrites extraWrites : List (String × RubyValue)) :
    List (AttributeKey × RubyValue) :=
  fieldWrites.map (Prod.map .field id) ++ extraWrites.map (Prod.map .extra id)

theorem structToRuby_writes {values : List (Option OwnedValue)} {extras : Option OwnedDict}
    {r : RubyValue} (h : ownedValueToRuby x (.struct ⟨names, values, extras⟩) = .ok r) :
    ∃ fieldWrites extraWrites,
      List.Forall₂ (ConvertedAs x) (presentFields names values) fieldWrites ∧
      List.Forall₂ (ConvertedAs x) (extras.getD []) extraWrites ∧
      r = .hash ⟨"Hash", false⟩
        (attributeStore.setAll [] (attributeWrites fieldWrites extraWrites)) := by
  obtain ⟨entries, hentries, h⟩ := Fallible.bind_eq_ok.1 h
  obtain ⟨hash, hhash, h⟩ := Fallible.bind_eq_ok.1 h
  cases h
  obtain ⟨fieldWrites, hfieldWrites, rfl⟩ := fieldsToRuby_writes hentries
  obtain ⟨extraWrites, hextraWrites, rfl⟩ := optionalExtrasToRuby_writes hhash
  refine ⟨fieldWrites, extraWrites, hfieldWrites, hextraWrites, ?_⟩
  rw [attributeWrites, attributeStore.setAll_append]

/-- The attributes hash after its writes, frozen. -/
def writtenAttributes (freezeMode : FreezeMode)
    (fieldWrites extraWrites : List (String × RubyValue)) : RubyValue :=
  frozenAs freezeMode
    (.hash ⟨"Hash", false⟩ (attributeStore.setAll [] (attributeWrites fieldWrites extraWrites)))

/-- The hash is written last. -/
def ivarWrites (freezeMode : FreezeMode) (storeAttributes : Bool)
    (fieldWrites extraWrites : List (String × RubyValue)) : List (String × RubyValue) :=
  fieldWrites.map (Prod.map ("@" ++ ·) id) ++ if storeAttributes
    then [("@attributes", writtenAttributes freezeMode fieldWrites extraWrites)] else []

/-- What a build has written when it returns. -/
theorem materializeInstance_writes {klass : String} {extras : Option OwnedDict}
    {plan : MaterializePlan} {storeAttributes : Bool} {built : RubyValue}
    (hplan : plan.entries = names.map .named) (hd : names.Nodup)
    (hlen : values.length = names.length)
    (h : materializeInstance x klass attrIvarName (.struct ⟨names, values, extras⟩) plan
      freezeMode storeAttributes = .ok built) :
    ∃ fieldWrites extraWrites,
      List.Forall₂ (StoredAs x freezeMode) (presentFields names values) fieldWrites ∧
      List.Forall₂ (StoredAs x freezeMode) (extras.getD []) extraWrites ∧
      ∀ ivar, built.ivar ivar = (ivarStore.setAll []
        (ivarWrites freezeMode storeAttributes fieldWrites extraWrites)).lookup ivar := by
  obtain ⟨building, hfields, h⟩ := Fallible.bind_eq_ok.1 h
  obtain ⟨building', hextras, h⟩ := Fallible.bind_eq_ok.1 h
  cases h
  rw [hplan] at hfields
  obtain ⟨fieldWrites, hfieldWrites, rfl⟩ := storeFields_writes hfields
  obtain ⟨extraWrites, hextraWrites, rfl⟩ := storeExtras_writes hextras
  rw [planned_eq_presentFields hd hlen] at hfieldWrites
  refine ⟨fieldWrites, extraWrites, hfieldWrites, hextraWrites, ?_⟩
  intro ivar
  rw [ivar_frozenAs, ivarWrites, ivarStore.setAll_append]
  cases storeAttributes with
  | false => rfl
  | true =>
    rw [writtenAttributes, attributeWrites, attributeStore.setAll_append]
    rfl

/-- Fields do not meet each other or an extra. -/
theorem agree_attributeWrites (hd : names.Nodup) (hlen : values.length = names.length)
    {fieldWrites extraWrites : List (String × RubyValue)}
    (hfields : List.Forall₂ (StoredAs x freezeMode) (presentFields names values) fieldWrites)
    (hagree : Agree extraWrites) : Agree (attributeWrites fieldWrites extraWrites) := by
  have hunique : Agree fieldWrites := by
    apply agree_of_storedAs hfields
    rintro ⟨name, v⟩ hp ⟨_, v'⟩ hq rfl
    cases zip_unique hd hlen (mem_presentFields.1 hp) (mem_presentFields.1 hq)
    rfl
  apply (hunique.map fun _ _ => AttributeKey.field.inj).append
    (hagree.map fun _ _ => AttributeKey.extra.inj)
  intro w hw w' hw' heq
  obtain ⟨u, -, rfl⟩ := List.mem_map.1 hw
  obtain ⟨u', -, rfl⟩ := List.mem_map.1 hw'
  cases heq

/-- A key of the hash comes from a field or an extra. -/
theorem key_of_attributeWrites {fieldWrites extraWrites : List (String × RubyValue)}
    (hfields : List.Forall₂ (StoredAs x freezeMode) (presentFields names values) fieldWrites)
    (hextras : List.Forall₂ (StoredAs x freezeMode) extras extraWrites)
    {w : AttributeKey × RubyValue} (hw : w ∈ attributeWrites fieldWrites extraWrites) :
    (∃ name ∈ names, w.1 = .field name) ∨ ∃ q ∈ extras, w.1 = .extra q.1 := by
  obtain hw | hw := List.mem_append.1 hw
  · obtain ⟨u, hu, rfl⟩ := List.mem_map.1 hw
    obtain ⟨p, hp, hname, -⟩ := forall₂_mem_right hfields u hu
    exact .inl ⟨p.1, (List.of_mem_zip (mem_presentFields.1 hp)).1, congrArg _ hname.symm⟩
  · obtain ⟨u, hu, rfl⟩ := List.mem_map.1 hw
    obtain ⟨p, hp, hname, -⟩ := forall₂_mem_right hextras u hu
    exact .inr ⟨p, hp, congrArg _ hname.symm⟩

/-- Among fields of distinct names and extras that agree under one key, every write is found. -/
theorem holdsAttributes_of_agree (hd : names.Nodup) (hlen : values.length = names.length)
    {fieldWrites extraWrites : List (String × RubyValue)}
    (hfields : List.Forall₂ (StoredAs x freezeMode) (presentFields names values) fieldWrites)
    (hextras : List.Forall₂ (StoredAs x freezeMode) extras extraWrites)
    (hagree : Agree extraWrites) : ∃ basic entries,
    writtenAttributes freezeMode fieldWrites extraWrites = .hash basic entries ∧
      HoldsAttributes x freezeMode names values extras basic entries := by
  obtain ⟨basic, entries, hfrozen, hlookup, hkeys⟩ := frozenAs_hash freezeMode ⟨"Hash", false⟩
    (attributeStore.setAll [] (attributeWrites fieldWrites extraWrites))
  refine ⟨basic, entries, hfrozen, ?_, ?_, ?_⟩
  · have hothers : ∀ w ∈ extraWrites.map (Prod.map AttributeKey.extra id), ∀ name ∈ names,
        w.1 ≠ .field name := by
      intro w hw name _ heq
      obtain ⟨u, -, rfl⟩ := List.mem_map.1 hw
      cases heq
    have hholds := setAll_holds attributeStore (s := []) (fun _ _ => AttributeKey.field.inj) hd
      hlen (fun _ => rfl) hfields hothers
    refine hholds.imp ?_
    intro name value h
    rw [hlookup]
    exact h.within
  · intro p hp
    obtain ⟨w, hw, hname, hstored⟩ := forall₂_mem_left hextras p hp
    have hwrites := agree_attributeWrites hd hlen hfields hagree
    have hfound := (attributeStore.setAll_finds_iff []).2 hwrites _
      (List.mem_append_right _ (List.mem_map_of_mem hw))
    have hlast := (hlookup _).trans (congrArg (Option.map freezeMode.within) hfound)
    rw [hname]
    exact hlast ▸ Holds.within (.some hstored)
  · intro p hp
    obtain ⟨q, hq, hsame⟩ := hkeys p hp
    obtain ⟨w, hw, hkey⟩ := key_of_setAll hq
    have hfinds : p.1.sameKey w.1.toRuby = true := by
      rw [hsame, hkey, RubyValue.sameKey_freeze]
      exact AttributeKey.sameKey_iff.2 rfl
    obtain ⟨name, hname, heq⟩ | ⟨extra, hextra, heq⟩ := key_of_attributeWrites hfields hextras hw
    · rw [heq] at hfinds
      exact .inl ⟨name, hname, hfinds⟩
    · rw [heq] at hfinds
      exact .inr ⟨extra, hextra, hfinds⟩

/-- The fields meet only the hash, under its own name. -/
theorem RubyValue.Stores.of_writes {options : ValidationOptions} {extras : Option OwnedDict}
    {built : RubyValue} (hd : names.Nodup) (hlen : values.length = names.length)
    {fieldWrites extraWrites : List (String × RubyValue)}
    (hfields : List.Forall₂ (StoredAs x options.freeze) (presentFields names values) fieldWrites)
    (hextras : List.Forall₂ (StoredAs x options.freeze) (extras.getD []) extraWrites)
    (hivars : ∀ ivar, built.ivar ivar = (ivarStore.setAll []
      (ivarWrites options.freeze options.storeAttributes fieldWrites extraWrites)).lookup ivar)
    (h : options.storeAttributes = true → "attributes" ∉ names ∧ Agree extraWrites) :
    built.Stores x options names ⟨names, values, extras⟩ := by
  constructor
  · simp only [hivars]
    apply setAll_holds ivarStore ivarName_injective hd hlen (fun _ => rfl) hfields
    intro w hw name hname heq
    split at hw
    next hstore =>
      cases List.mem_singleton.1 hw
      obtain rfl : "attributes" = name := ivarName_injective heq
      exact (h hstore).1 hname
    next => cases hw
  · intro hstore
    obtain ⟨basic, entries, hfrozen, hattributes⟩ :=
      holdsAttributes_of_agree hd hlen hfields hextras (h hstore).2
    refine ⟨basic, entries, ?_, hattributes⟩
    rw [hivars, ivarWrites, if_pos hstore, ivarStore.setAll_append]
    change (ivarSet _ "@attributes" _).lookup "@attributes" = _
    rw [lookup_ivarSet, if_pos rfl, hfrozen]

/-- The prepared value of an input. -/
def CompiledSchema.Reads (x : Externals) (compiled : CompiledSchema) (input : RubyValue)
    (v : OwnedValue) : Prop :=
  ∃ prepared, prepareInput input compiled.options.inputMode = .ok prepared ∧
    prepared.value x = some v

theorem CompiledSchema.Reads.unique {compiled : CompiledSchema} {input : RubyValue}
    {v v' : OwnedValue} (h : compiled.Reads x input v) (h' : compiled.Reads x input v') :
    v = v' := by
  obtain ⟨prepared, hprepared, hv⟩ := h
  obtain ⟨prepared', hprepared', hv'⟩ := h'
  cases hprepared.symm.trans hprepared'
  exact Option.some.inj (hv.symm.trans hv')

theorem ConvExtras.getD_eq {extra : ExtraBehavior} {unknown : OwnedDict}
    {extras : Option OwnedDict} (h : ConvExtras extra unknown extras) :
    extras.getD [] = if extra = .allow then unknown else [] := by
  cases extra with
  | forbid => rw [h.2]; rfl
  | ignore => rw [show extras = none from h]; rfl
  | allow =>
    rw [show extras = _ from h]
    cases unknown <;> rfl

/-- What validates under a struct is a map, and its extras are the unknown entries of the map if
the options allow them. -/
theorem CompiledSchema.Validates.map {compiled : CompiledSchema} {input : RubyValue}
    {structure_ : OwnedStruct OwnedValue} {fields : List StructField} {extra : ExtraBehavior}
    (hroot : compiled.ir.arena.get compiled.ir.root = some (.struct fields extra))
    (h : compiled.Validates x input (.struct structure_)) :
    ∃ map, compiled.Reads x input (.dict map) ∧ structure_.names = fields.map (·.name) ∧
      structure_.fields.length = fields.length ∧
      structure_.extras.getD [] = if compiled.options.extraBehavior = .allow
        then unknownEntries (fields.map (·.name)) map else [] := by
  obtain ⟨prepared, hprepared, h⟩ := h
  obtain ⟨v, hv, h⟩ := validatePreparedInput_accepts_iff.1 h
  rw [SchemaIr.accepts_iff, SchemaIr.unfold_of_get hroot] at h
  obtain ⟨map, values, extras, rfl, hstruct, hfields, hextras⟩ := h
  cases hstruct
  rw [List.map_map] at hextras
  refine ⟨map, ⟨prepared, hprepared, hv⟩, List.map_map, ?_, hextras.getD_eq⟩
  rw [← (convFields_iff.1 hfields).length_eq, List.length_map]

/-- A field called `attributes` would hold the hash that holds it. -/
theorem RubyValue.Stores.not_mem {options : ValidationOptions} {structure_ : OwnedStruct OwnedValue}
    {built : RubyValue} (h : built.Stores x options names structure_)
    (hstore : options.storeAttributes = true) : "attributes" ∉ names := by
  intro hmem
  obtain ⟨basic, entries, hivar, hattributes⟩ := h.attributes hstore
  obtain ⟨i, hi, hname⟩ := List.getElem_of_mem hmem
  have hheld := (List.forall₂_iff_get.1 h.ivars).2 i hi (h.ivars.length_eq ▸ hi)
  have hfound := (List.forall₂_iff_get.1 hattributes.present).2 i hi (h.ivars.length_eq ▸ hi)
  simp only [List.get_eq_getElem, hname] at hheld hfound
  exact RubyValue.hashLookup_ne_self _ _ ((hfound.unique hheld).trans hivar)

theorem HoldsAttributes.agree {basic : RBasic} {entries : List (RubyValue × RubyValue)}
    (h : HoldsAttributes x freezeMode names values extras basic entries) :
    ∀ p ∈ extras, ∀ q ∈ extras, p.1 = q.1 →
      storedValue x freezeMode p.2 = storedValue x freezeMode q.2 := by
  intro p hp q hq heq
  obtain ⟨w, hw, hp⟩ := (h.kept p hp).stored
  obtain ⟨u, hu, hq⟩ := (h.kept q hq).stored
  rw [heq] at hw
  cases hw.symm.trans hu
  exact hp.trans hq.symm

/-- For every compiled schema with a struct of distinct field names at the root and every build
that returns: the instance stores what was validated exactly if, where attributes are kept, no field
is called `attributes` and unknown entries of the input that are kept under one key become one Ruby
value. -/
theorem build_stores_iff {schemaAst opts : RubyValue} {compiled : CompiledSchema}
    (hcompile : compile x schemaAst opts = .ok compiled) {fields : List StructField}
    {extra : ExtraBehavior}
    (hroot : compiled.ir.arena.get compiled.ir.root = some (.struct fields extra))
    (hd : (fields.map (·.name)).Nodup) {input : RubyValue} {map : OwnedDict}
    (hreads : compiled.Reads x input (.dict map)) {structure_ : OwnedStruct OwnedValue}
    (hvalid : compiled.Validates x input (.struct structure_)) {klass : String} {built : RubyValue}
    (hbuild : build x compiled input klass = .ok built) :
    built.Stores x compiled.options (fields.map (·.name)) structure_ ↔
      (compiled.options.storeAttributes = true →
        "attributes" ∉ fields.map (·.name) ∧
        (compiled.options.extraBehavior = .allow →
          ∀ p ∈ unknownEntries (fields.map (·.name)) map,
          ∀ q ∈ unknownEntries (fields.map (·.name)) map, p.1 = q.1 →
            storedValue x compiled.options.freeze p.2 =
              storedValue x compiled.options.freeze q.2)) := by
  obtain ⟨w, hw, hbuilt⟩ := build_ok_iff.1 hbuild
  cases hw.unique hvalid
  obtain ⟨map', hreads', hnames, hlen, hextras⟩ := hvalid.map hroot
  cases hreads.unique hreads'
  obtain ⟨names, values, extras⟩ := structure_
  cases hnames
  have hplan := compile_plan hcompile
  rw [SchemaIr.unfold_of_get hroot] at hplan
  have hentries : compiled.plan.entries = (fields.map (·.name)).map .named :=
    hplan.trans (congrArg _ List.map_map)
  have hlen : values.length = (fields.map (·.name)).length := hlen.trans (List.length_map _).symm
  obtain ⟨fieldWrites, extraWrites, hfieldWrites, hextraWrites, hivars⟩ :=
    materializeInstance_writes hentries hd hlen hbuilt
  constructor
  · intro h hstore
    refine ⟨h.not_mem hstore, ?_⟩
    intro hallow
    obtain ⟨basic, entries, -, hattributes⟩ := h.attributes hstore
    have hagree := hattributes.agree
    rw [hextras, if_pos hallow] at hagree
    exact hagree
  · intro h
    apply RubyValue.Stores.of_writes hd hlen hfieldWrites hextraWrites hivars
    intro hstore
    obtain ⟨hname, hkept⟩ := h hstore
    refine ⟨hname, agree_of_storedAs hextraWrites ?_⟩
    rw [hextras]
    split
    next hallow => exact hkept hallow
    next =>
      intro p hp
      cases hp

/-! ## A schema with one flag -/

def flagSource (name : String) : String :=
  "\x7b\"fields\":[[\"required\",\"" ++ name ++ "\",\"bool\"]],\"type\":\"struct\"\x7d"

def flagFields (name : String) : JsonValue :=
  .array [.array [.string "required", .string name, .string "bool"]]

def flagExternals (name : String) : Externals :=
  .reading (flagSource name) (.object [("fields", flagFields name), ("type", .string "struct")])

def storeAttributesOption : RubyValue :=
  .hash ⟨"Hash", false⟩ [(.id2sym "store_attributes", .bool true)]

def flagSchema (name : String) : CompiledSchema where
  summary := flagSource name
  ir := buildIr (.struct [⟨name, .required, .primitive .bool⟩] .forbid)
  plan := ⟨[.named name]⟩
  options := { storeAttributes := true }

def flagInput (name : String) : RubyValue :=
  .hash ⟨"Hash", false⟩ [(.id2sym name, .bool true)]

theorem flagFields_parsed {x : Externals} (hbool : x.toLowercase "bool" = "bool")
    (name path : String) : SchemaCompiler.parseFieldsArray x (flagFields name) path =
      .ok [⟨name, .required, .primitive .bool⟩] := by
  simp [flagFields, SchemaCompiler.parseFieldsArray, SchemaCompiler.parseFieldEntries,
    SchemaCompiler.parseFieldEntry, SchemaCompiler.parsePresence, SchemaCompiler.parseTypeExpr,
    SchemaCompiler.parseNamedType, SchemaCompiler.inlineObject, JsonValue.asStr, hbool]
  rfl

theorem flagSchema_compiles {name : String} (hnul : Text.containsNul (flagSource name) = false)
    (hsummary : (flagSource name).utf8ByteSize ≤ 200)
    (hplan : buildMaterializePlan (flagExternals name) (flagSchema name).ir =
      (.ok (flagSchema name).plan : Result CompileError MaterializePlan)) :
    compile (flagExternals name) (.utf8Str (flagSource name)) storeAttributesOption =
      .ok (flagSchema name) := by
  have hlower (s : String) :
      (flagExternals name).toLowercase s = .ofList (s.toList.map Char.toLower) := rfl
  have hstruct : (flagExternals name).toLowercase "struct" = "struct" := by
    rw [hlower]
    decide
  have hbool : (flagExternals name).toLowercase "bool" = "bool" := by
    rw [hlower]
    decide
  exact compile_text rfl hnul (if_pos rfl)
    (parseTypeExpr_struct hstruct (flagFields_parsed hbool name _))
    (if_neg (Nat.not_lt.2 hsummary)) hplan

theorem flag_reads (name : String) :
    prepareInput (flagInput name) .auto = .ok (.owned (.dict [(name, .bool true)])) := by
  have himage : Image (flagInput name) (.dict [(name, .bool true)]) :=
    .hash _ (.cons (.mk (.symbol name) (.bool true)) .nil)
  exact himage.prepared_hash

theorem flag_validates (name : String) : (flagSchema name).Validates (flagExternals name)
    (flagInput name) (.struct ⟨[name], [some (.bool true)], none⟩) := by
  have hconv : Conv (flagSchema name).options
      (.struct [⟨name, .required, .primitive .bool⟩] .forbid) true
      (.dict [(name, .bool true)]) (.struct ⟨[name], [some (.bool true)], none⟩) := by
    refine ⟨_, _, _, rfl, rfl, ⟨.inl ⟨_, _, .head, rfl, true, .bool true, rfl⟩, trivial⟩, ?_, rfl⟩
    simp [unknownEntries]
  have hlen : (flagSchema name).ir.arena.len ≤ 2 ^ 32 := by
    change 2 ≤ 2 ^ 32
    decide
  exact ⟨_, flag_reads name, validatePreparedInput_accepts_iff.2
    ⟨_, rfl, (buildIr_accepts_iff hlen).2 hconv⟩⟩

theorem flag_builds (name : String) : ∃ built,
    build (flagExternals name) (flagSchema name) (flagInput name) "Object" = .ok built := by
  refine build_returns_iff.2 ⟨_, flag_validates name, (materializeInstance_returns ..).2 ?_⟩
  have hvalues : (flagSchema name).plan.values [name] [some (.bool true)] = [.bool true] := by
    simp [flagSchema, MaterializePlan.values, planned, fieldLookup, MaterializeEntry.named]
  rw [builtTexts, hvalues]
  intro t ht
  cases ht

/-- The hash takes the place of the field. -/
theorem build_not_stores : ∃ built,
    compile (flagExternals "attributes") (.utf8Str (flagSource "attributes"))
      storeAttributesOption = .ok (flagSchema "attributes") ∧
    (flagSchema "attributes").Validates (flagExternals "attributes") (flagInput "attributes")
      (.struct ⟨["attributes"], [some (.bool true)], none⟩) ∧
    build (flagExternals "attributes") (flagSchema "attributes") (flagInput "attributes")
      "Object" = .ok built ∧
    ¬ built.Stores (flagExternals "attributes") (flagSchema "attributes").options ["attributes"]
      ⟨["attributes"], [some (.bool true)], none⟩ := by
  obtain ⟨built, hbuilt⟩ := flag_builds "attributes"
  refine ⟨built, flagSchema_compiles (by decide) (by decide) rfl, flag_validates _, hbuilt, ?_⟩
  intro h
  exact h.not_mem rfl (List.mem_singleton_self _)

/-- A field of another name. -/
theorem build_stores_iff_admin : ∃ built,
    build (flagExternals "admin") (flagSchema "admin") (flagInput "admin") "Object" = .ok built ∧
    built.Stores (flagExternals "admin") (flagSchema "admin").options ["admin"]
      ⟨["admin"], [some (.bool true)], none⟩ := by
  obtain ⟨built, hbuilt⟩ := flag_builds "admin"
  have hreads : (flagSchema "admin").Reads (flagExternals "admin") (flagInput "admin")
      (.dict [("admin", .bool true)]) := ⟨_, flag_reads "admin", rfl⟩
  refine ⟨built, hbuilt, (build_stores_iff (flagSchema_compiles (by decide) (by decide) rfl) rfl
    (List.nodup_singleton _) hreads (flag_validates "admin") hbuilt).2 ?_⟩
  intro _
  refine ⟨by decide, ?_⟩
  intro hallow
  cases hallow

end RustlyCore
