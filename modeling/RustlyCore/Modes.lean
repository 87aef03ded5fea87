import RustlyCore.Lib.Pointwise
import RustlyCore.Validation.Conversion
import RustlyCore.Validation.Order
import Mathlib.Data.List.Perm.Basic

/-!
# The input modes agree

A document reaches the validator as JSON text or as a Ruby value of the same content. The two
converters agree up to the order of entries, except on integers: one beyond `i64` is a float or an
integer on one route and raises on the other, and the text `-0` is a float on one route only.
-/

namespace RustlyCore

/-! ## Documents -/

/-- An integer as it is written: a sign, and the value of the digits. -/
structure IntegerText where
  minus : Bool
  magnitude : Nat
  deriving DecidableEq

namespace IntegerText

def value (t : IntegerText) : Int := if t.minus then -t.magnitude else t.magnitude

/-- The text `-0`. -/
def IsNegativeZero (t : IntegerText) : Prop := t.minus = true ∧ t.magnitude = 0

/-- The integer is an `i64`. -/
def InRange (t : IntegerText) : Prop :=
  Int64.minValue.toInt ≤ t.value ∧ t.value ≤ Int64.maxValue.toInt

instance (t : IntegerText) : Decidable t.IsNegativeZero := inferInstanceAs (Decidable (_ ∧ _))

instance (t : IntegerText) : Decidable t.InRange := inferInstanceAs (Decidable (_ ∧ _))

end IntegerText

/-- A JSON document. A number with a fraction or an exponent is the float that it is read as. -/
inductive Document where
  | null
  | bool (b : Bool)
  | integer (t : IntegerText)
  | decimal (f : Float)
  | string (s : String)
  | array (items : List Document)
  | object (entries : List (String × Document))

namespace Document

@[induction_eliminator]
theorem induct {motive : Document → Prop}
    (null : motive .null) (bool : ∀ b, motive (.bool b)) (integer : ∀ t, motive (.integer t))
    (decimal : ∀ f, motive (.decimal f)) (string : ∀ s, motive (.string s))
    (array : ∀ items, (∀ d ∈ items, motive d) → motive (.array items))
    (object : ∀ entries : List (String × Document), (∀ p ∈ entries, motive p.2) →
      motive (.object entries))
    (d : Document) : motive d :=
  @Document.rec motive (fun items => ∀ d ∈ items, motive d)
    (fun entries => ∀ p ∈ entries, motive p.2) (fun p => motive p.2) null bool integer decimal
    string array object (by simp) (fun _ _ h hs => List.forall_mem_cons.2 ⟨h, hs⟩)
    (by simp) (fun _ _ h hs => List.forall_mem_cons.2 ⟨h, hs⟩) (fun _ _ h => h) d

end Document

mutual
/-- What `serde_json` reads a document as. An integer is a `u64` or a negative `i64`; one beyond
both, and `-0`, is a float. The entries of an object are sorted. -/
inductive ReadAs : Document → JsonValue → Prop
  | null : ReadAs .null .null
  | bool (b : Bool) : ReadAs (.bool b) (.bool b)
  | posInt {n : Nat} : n < 2 ^ 64 → ReadAs (.integer ⟨false, n⟩) (.number (.posInt (.ofNat n)))
  | negInt {n : Nat} : 0 < n → n ≤ 2 ^ 63 →
    ReadAs (.integer ⟨true, n⟩) (.number (.negInt (.ofInt (-n))))
  | tooLarge {n : Nat} (f : Float) : 2 ^ 64 ≤ n → ReadAs (.integer ⟨false, n⟩) (.number (.float f))
  | tooSmall {n : Nat} (f : Float) : 2 ^ 63 < n → ReadAs (.integer ⟨true, n⟩) (.number (.float f))
  | negativeZero (f : Float) : ReadAs (.integer ⟨true, 0⟩) (.number (.float f))
  | decimal (f : Float) : ReadAs (.decimal f) (.number (.float f))
  | string (s : String) : ReadAs (.string s) (.string s)
  | array {items : List Document} {values : List JsonValue} :
    List.Forall₂ ReadAs items values → ReadAs (.array items) (.array values)
  | object {entries : List (String × Document)} {middle map : JsonMap} :
    List.Forall₂ ReadAsEntry entries middle → middle.Perm map →
    ReadAs (.object entries) (.object map)

inductive ReadAsEntry : String × Document → String × JsonValue → Prop
  | mk (key : String) {d : Document} {j : JsonValue} : ReadAs d j → ReadAsEntry (key, d) (key, j)
end

mutual
/-- A document and a Ruby value of the same content: integers are Integers of the same value. A Hash
lists its entries in any order, one for each key. -/
inductive SameContent : Document → RubyValue → Prop
  | null : SameContent .null .nil
  | bool (b : Bool) : SameContent (.bool b) (.bool b)
  | integer (t : IntegerText) : SameContent (.integer t) (.integer t.value)
  | decimal (f : Float) : SameContent (.decimal f) (.float f)
  | string (basic : RBasic) (s : String) : SameContent (.string s) (.string basic s.toUTF8)
  | array (basic : RBasic) {items : List Document} {elements : List RubyValue} :
    List.Forall₂ SameContent items elements → SameContent (.array items) (.array basic elements)
  | object (basic : RBasic) {entries : List (String × Document)}
    {middle hash : List (RubyValue × RubyValue)} : (entries.map (·.1)).Nodup →
    List.Forall₂ SameEntry entries middle → middle.Perm hash →
    SameContent (.object entries) (.hash basic hash)

inductive SameEntry : String × Document → RubyValue × RubyValue → Prop
  | mk {key : String} {rubyKey : RubyValue} {d : Document} {r : RubyValue} :
    SameKey key rubyKey → SameContent d r → SameEntry (key, d) (rubyKey, r)
end

namespace Document

mutual
/-- The integers in a document. -/
def integers : Document → List IntegerText
  | .integer t => [t]
  | .array items => itemsIntegers items
  | .object entries => entriesIntegers entries
  | _ => []

def itemsIntegers : List Document → List IntegerText
  | [] => []
  | item :: items => item.integers ++ itemsIntegers items

def entriesIntegers : List (String × Document) → List IntegerText
  | [] => []
  | (_, d) :: entries => d.integers ++ entriesIntegers entries
end

variable {p : IntegerText → Prop} {items : List Document} {entries : List (String × Document)}

theorem forall_integers_array :
    (∀ t ∈ (Document.array items).integers, p t) ↔ ∀ d ∈ items, ∀ t ∈ d.integers, p t := by
  rw [integers]
  induction items with
  | nil => simp [itemsIntegers]
  | cons item items ih => rw [itemsIntegers, List.forall_mem_append, List.forall_mem_cons, ih]

theorem forall_integers_object : (∀ t ∈ (Document.object entries).integers, p t) ↔
    ∀ entry ∈ entries, ∀ t ∈ entry.2.integers, p t := by
  rw [integers]
  induction entries with
  | nil => simp [entriesIntegers]
  | cons entry entries ih =>
    rw [entriesIntegers, List.forall_mem_append, List.forall_mem_cons, ih]

/-- Every integer fits `i64`. -/
def Fits (d : Document) : Prop := ∀ t ∈ d.integers, t.InRange

/-- No integer is written `-0`. -/
def Plain (d : Document) : Prop := ∀ t ∈ d.integers, ¬ t.IsNegativeZero

end Document

/-! ## One value -/

def RubyValue.OutOfRange (r : RubyValue) : Prop :=
  ∀ path, convertRubyValue path r = .raise .rangeError

theorem RubyValue.Converts.not_outOfRange {r : RubyValue} {v : OwnedValue} (h : r.Converts v) :
    ¬ r.OutOfRange :=
  fun hraise => nomatch (h []).symm.trans (hraise [])

theorem convertArray_raises {elements : List RubyValue}
    (hall : ∀ r ∈ elements, (∃ v, r.Converts v) ∨ r.OutOfRange)
    (hbad : ∃ r ∈ elements, r.OutOfRange) (path : List PathSegment) (index : Nat) :
    convertArray path index elements = .raise .rangeError := by
  induction elements generalizing index with
  | nil =>
    obtain ⟨r, hr, -⟩ := hbad
    cases hr
  | cons r elements ih =>
    obtain ⟨⟨v, hv⟩ | hraise, hall⟩ := List.forall_mem_cons.1 hall
    · obtain ⟨r', hr', hbad⟩ := hbad
      obtain rfl | hr' := List.mem_cons.1 hr'
      · exact absurd hbad hv.not_outOfRange
      · rw [convertArray, hv, Fallible.ok_bind, ih hall ⟨r', hr', hbad⟩]
        rfl
    · rw [convertArray, hraise]
      rfl

theorem convertHash_raises {entries : List (RubyValue × RubyValue)}
    (hkeys : ∀ p ∈ entries, ∃ key, ∀ path, extractHashKey path p.1 = .ok key)
    (hall : ∀ p ∈ entries, (∃ v, p.2.Converts v) ∨ p.2.OutOfRange)
    (hbad : ∃ p ∈ entries, p.2.OutOfRange) (path : List PathSegment) :
    convertHash path entries = .raise .rangeError := by
  induction entries with
  | nil =>
    obtain ⟨p, hp, -⟩ := hbad
    cases hp
  | cons p entries ih =>
    obtain ⟨⟨key, hkey⟩, hkeys⟩ := List.forall_mem_cons.1 hkeys
    obtain ⟨⟨v, hv⟩ | hraise, hall⟩ := List.forall_mem_cons.1 hall
    · obtain ⟨p', hp', hbad⟩ := hbad
      obtain rfl | hp' := List.mem_cons.1 hp'
      · exact absurd hbad hv.not_outOfRange
      · rw [convertHash, hkey, Fallible.ok_bind, hv, Fallible.ok_bind,
          ih hkeys hall ⟨p', hp', hbad⟩]
        rfl
    · rw [convertHash, hkey, Fallible.ok_bind, hraise]
      rfl

/-! ## The two converters -/

/-- Either every integer fits and the conversion gives a value, which is what reading the JSON gives
up to the order of entries if no integer is written `-0`, or the conversion raises. -/
def Routes (d : Document) (r : RubyValue) : Prop :=
  (d.Fits ∧ ∃ v, r.Converts v ∧ ∀ j, ReadAs d j → (Reordered (.fromJson j) v ↔ d.Plain)) ∨
    (¬ d.Fits ∧ r.OutOfRange)

variable {d : Document} {j : JsonValue} {r : RubyValue}

theorem Routes.either (h : Routes d r) : (∃ v, r.Converts v) ∨ r.OutOfRange :=
  h.imp (fun ⟨_, v, hv, _⟩ => ⟨v, hv⟩) And.right

theorem Routes.of_fits (h : Routes d r) (hfits : d.Fits) :
    ∃ v, r.Converts v ∧ ∀ j, ReadAs d j → (Reordered (.fromJson j) v ↔ d.Plain) :=
  h.elim And.right fun hmisfit => absurd hfits hmisfit.1

theorem Routes.outOfRange (h : Routes d r) (hmisfit : ¬ d.Fits) : r.OutOfRange :=
  h.elim (fun hfits => absurd hfits.1 hmisfit) And.right

theorem Document.fits_integer {t : IntegerText} : (Document.integer t).Fits ↔ t.InRange := by
  simp [Document.Fits, Document.integers]

theorem Document.plain_integer {t : IntegerText} :
    (Document.integer t).Plain ↔ ¬ t.IsNegativeZero := by
  simp [Document.Plain, Document.integers]

/-- An integer of a document that fits is read as itself, unless it is `-0`. -/
theorem fromJson_integer {t : IntegerText} (hrange : t.InRange) (h : ReadAs (.integer t) j) :
    Reordered (.fromJson j) (.int (Int64.ofInt t.value)) ↔ ¬ t.IsNegativeZero := by
  have hmin : Int64.minValue.toInt = -2 ^ 63 := rfl
  have hmax : Int64.maxValue.toInt = 2 ^ 63 - 1 := rfl
  rw [IntegerText.InRange, hmin, hmax] at hrange
  cases h with
  | @posInt n hn =>
    simp only [IntegerText.value, Bool.false_eq_true, if_false] at hrange ⊢
    have htoNat : (UInt64.ofNat n).toNat = n := UInt64.toNat_ofNat_of_lt' hn
    have hint : JsonNumber.asI64 (.posInt (.ofNat n)) = some (.ofNat n) := by
      rw [JsonNumber.asI64, if_pos, UInt64.toInt64_ofNat']
      rw [htoNat]
      exact Int.ofNat_le.1 hrange.2
    refine iff_of_true ?_ fun h => absurd h.1 (by simp)
    rw [OwnedValue.fromJson, hint]
    exact .refl _
  | @negInt n hpos hn =>
    refine iff_of_true (.refl _) fun h => absurd h.2 ?_
    exact hpos.ne'
  | @tooLarge n f hn =>
    simp only [IntegerText.value, Bool.false_eq_true, if_false] at hrange
    omega
  | @tooSmall n f hn =>
    simp only [IntegerText.value, if_true] at hrange
    omega
  | negativeZero f =>
    refine iff_of_false (fun h => ?_) fun h => h ⟨rfl, rfl⟩
    rw [OwnedValue.fromJson, JsonNumber.asI64, Reordered] at h
    cases h

theorem routes_integer (t : IntegerText) : Routes (.integer t) (.integer t.value) := by
  by_cases hrange : Int64.minValue.toInt ≤ t.value ∧ t.value ≤ Int64.maxValue.toInt
  · refine .inl ⟨Document.fits_integer.2 hrange, .int (Int64.ofInt t.value), ?_, ?_⟩
    · intro path
      rw [convertRubyValue, num2ll, if_pos hrange]
      rfl
    · intro j h
      rw [fromJson_integer hrange h, Document.plain_integer]
  · refine .inr ⟨fun h => hrange (Document.fits_integer.1 h), fun path => ?_⟩
    rw [convertRubyValue, num2ll, if_neg hrange]
    rfl

/-- A document without integers is read as it is converted. -/
theorem routes_leaf {v : OwnedValue} (hintegers : d.integers = []) (hconverts : r.Converts v)
    (hread : ∀ j, ReadAs d j → .fromJson j = v) : Routes d r := by
  refine .inl ⟨by simp [Document.Fits, hintegers], v, hconverts, fun j h => ?_⟩
  rw [hread j h]
  exact iff_of_true (.refl v) (by simp [Document.Plain, hintegers])

theorem routes_array {items : List Document} {elements : List RubyValue} (basic : RBasic)
    (h : List.Forall₂ Routes items elements) : Routes (.array items) (.array basic elements) := by
  by_cases hfits : ∀ d ∈ items, d.Fits
  · have hfit := (List.forall₂_and_left _ _).2 ⟨hfits, h⟩
    obtain ⟨outs, hconverts, hagree⟩ := forall₂_exists hfit fun d r h => h.2.of_fits h.1
    refine .inl ⟨Document.forall_integers_array.2 hfits, .list outs, ?_, ?_⟩
    · intro path
      rw [convertRubyValue, convertArray_ok hconverts]
      rfl
    · intro j hread
      cases hread with
      | array hread =>
        rw [OwnedValue.fromJson, OwnedValue.fromItems_eq_map, reordered_list_iff,
          List.forall₂_map_left_iff,
          forall₂_iff_forall hread hagree fun d j v hread hagree => hagree j hread]
        exact Document.forall_integers_array.symm
  · refine .inr ⟨fun h => hfits (Document.forall_integers_array.1 h), fun path => ?_⟩
    simp only [not_forall, exists_prop] at hfits
    obtain ⟨d, hd, hmisfit⟩ := hfits
    obtain ⟨r, hr, hroutes⟩ := forall₂_mem_left h d hd
    rw [convertRubyValue, convertArray_raises _ ⟨r, hr, hroutes.outOfRange hmisfit⟩]
    · rfl
    · intro r hr
      obtain ⟨d, -, hroutes⟩ := forall₂_mem_right h r hr
      exact hroutes.either

/-- The keys of an entry agree, and so do its values. -/
def EntryRoutes (p : String × Document) (q : RubyValue × RubyValue) : Prop :=
  SameKey p.1 q.1 ∧ Routes p.2 q.2

theorem keys_of_readAs {entries : List (String × Document)} {map : JsonMap}
    (h : List.Forall₂ ReadAsEntry entries map) : entries.map (·.1) = map.map (·.1) :=
  map_eq_of_forall₂ h fun p q hentry => by cases hentry; rfl

theorem routes_object {entries : List (String × Document)}
    {middle hash : List (RubyValue × RubyValue)} (basic : RBasic)
    (hnodup : (entries.map (·.1)).Nodup) (h : List.Forall₂ EntryRoutes entries middle)
    (hp : middle.Perm hash) : Routes (.object entries) (.hash basic hash) := by
  by_cases hfits : ∀ p ∈ entries, p.2.Fits
  · have hfit := (List.forall₂_and_left _ _).2 ⟨hfits, h⟩
    have hentry (p : String × Document) (q : RubyValue × RubyValue)
        (h : p.2.Fits ∧ EntryRoutes p q) : ∃ out, EntryConverts q out ∧ p.1 = out.1 ∧
          ∀ j, ReadAs p.2 j → (Reordered (.fromJson j) out.2 ↔ p.2.Plain) := by
      obtain ⟨v, hv, hagree⟩ := h.2.2.of_fits h.1
      exact ⟨(p.1, v), ⟨h.2.1.extracts, hv⟩, rfl, hagree⟩
    obtain ⟨outs, hconverts, hagree⟩ := forall₂_exists hfit hentry
    obtain ⟨outs', hconverts', hperm⟩ := List.perm_comp_forall₂ hp.symm hconverts
    refine .inl ⟨Document.forall_integers_object.2 hfits, .dict outs', ?_, ?_⟩
    · intro path
      rw [convertRubyValue, convertHash_ok hconverts']
      rfl
    · intro j hread
      cases hread with
      | object hread hmap =>
        have hkeys := keys_of_readAs hread
        have houts : entries.map (·.1) = outs.map (·.1) := map_eq_of_forall₂ hagree fun _ _ h => h.1
        rw [OwnedValue.fromJson, OwnedValue.fromEntries_eq_map,
          reordered_dict_iff (hmap.symm.map _) hperm.symm
            (by rw [List.map_map]; exact hkeys ▸ houts)
            (by rw [List.map_map]; exact hkeys ▸ hnodup),
          List.forall₂_map_left_iff, forall₂_iff_forall hread hagree]
        · exact Document.forall_integers_object.symm
        · intro p q out hread hagree
          cases hread with
          | mk key hread => exact (and_iff_right hagree.1).trans (hagree.2 _ hread)
  · refine .inr ⟨fun h => hfits (Document.forall_integers_object.1 h), fun path => ?_⟩
    simp only [not_forall, exists_prop] at hfits
    obtain ⟨p, hmem, hmisfit⟩ := hfits
    obtain ⟨q, hq, hroutes⟩ := forall₂_mem_left h p hmem
    have hmiddle (q : RubyValue × RubyValue) (hq : q ∈ hash) : ∃ p ∈ entries, EntryRoutes p q :=
      forall₂_mem_right h q (hp.mem_iff.2 hq)
    rw [convertRubyValue, convertHash_raises _ _ ⟨q, hp.mem_iff.1 hq, hroutes.2.outOfRange hmisfit⟩]
    · rfl
    · intro q hq
      obtain ⟨p, -, hroutes⟩ := hmiddle q hq
      exact ⟨p.1, hroutes.1.extracts⟩
    · intro q hq
      obtain ⟨p, -, hroutes⟩ := hmiddle q hq
      exact hroutes.2.either

theorem SameContent.routes (h : SameContent d r) : Routes d r := by
  induction d generalizing r with
  | null =>
    cases h
    refine routes_leaf rfl (fun _ => rfl) fun j hread => ?_
    cases hread
    rfl
  | bool b =>
    cases h
    refine routes_leaf rfl (fun _ => rfl) fun j hread => ?_
    cases hread
    rfl
  | integer t =>
    cases h
    exact routes_integer t
  | decimal f =>
    cases h
    refine routes_leaf rfl (fun _ => rfl) fun j hread => ?_
    cases hread
    rfl
  | string s =>
    cases h
    refine routes_leaf (v := .string s) rfl (fun _ => by simp [convertRubyValue]) fun j hread => ?_
    cases hread
    rfl
  | array items ih =>
    cases h with
    | array basic h =>
      exact routes_array basic (((List.forall₂_and_left _ _).2 ⟨ih, h⟩).imp fun _ _ h => h.1 h.2)
  | object entries ih =>
    cases h with
    | object basic hnodup h hp =>
      refine routes_object basic hnodup (((List.forall₂_and_left _ _).2 ⟨ih, h⟩).imp ?_) hp
      rintro p q ⟨ih, hentry⟩
      cases hentry with
      | mk hkey hcontent => exact ⟨hkey, ih hcontent⟩

/-- A document of distinct keys is read without repeated keys. -/
theorem SameContent.distinctKeys (h : SameContent d r) (hread : ReadAs d j) :
    (OwnedValue.fromJson j).DistinctKeys := by
  induction d generalizing r j with
  | array items ih =>
    cases hread with
    | array hread =>
      cases h with
      | array basic h =>
        rw [OwnedValue.fromJson, OwnedValue.fromItems_eq_map]
        refine .list (List.forall_mem_map.2 ?_)
        intro j hj
        obtain ⟨d, hd, hread⟩ := forall₂_mem_right hread j hj
        obtain ⟨r, -, hr⟩ := forall₂_mem_left h d hd
        exact ih d hd hr hread
  | object entries ih =>
    cases hread with
    | object hread hmap =>
      cases h with
      | object basic hnodup h hp =>
        rw [OwnedValue.fromJson, OwnedValue.fromEntries_eq_map]
        refine .dict ?_ (List.forall_mem_map.2 ?_)
        · rw [List.map_map]
          exact (hmap.map _).nodup_iff.1 (keys_of_readAs hread ▸ hnodup)
        · intro q hq
          obtain ⟨p, hp, hread⟩ := forall₂_mem_right hread q (hmap.mem_iff.2 hq)
          obtain ⟨r, -, hentry⟩ := forall₂_mem_left h p hp
          cases hread with
          | mk key hread =>
            cases hentry with
            | mk hkey hcontent => exact ih _ hp hcontent hread
  | integer t =>
    cases j with
    | number num =>
      cases hi : num.asI64 <;> simp only [OwnedValue.fromJson, hi]
      · exact .float _
      · exact .int _
    | _ => cases hread
  | _ =>
    cases hread
    first | exact .null | exact .bool _ | exact .float _ | exact .string _

/-! ## The two modes -/

/-- What `validate` and `build` do with an input before they look at the result. -/
def validateInput (x : Externals) (schema : SchemaIr) (input : RubyValue)
    (options : ValidationOptions) : Result InputError ValidationResult := do
  let prepared ← prepareInput input options.inputMode
  match validatePreparedInput x schema prepared options with
  | some result => return result
  | none => .panic

/-- Both routes return, with the same acceptance, the same issues in some order and outputs that
agree up to the order of entries. -/
def ModesAgree (x : Externals) (schema : SchemaIr) (o : ValidationOptions) (text : String)
    (r : RubyValue) : Prop :=
  ∃ a b, validateInput x schema (.utf8Str text) { o with inputMode := .json } = .ok a ∧
    validateInput x schema r { o with inputMode := .ruby } = .ok b ∧ a.Like b

variable {x : Externals}

theorem validateInput_json {text : String} {j : JsonValue} (hnul : Text.containsNul text = false)
    (hparse : x.fromStr text = .ok j) (schema : SchemaIr) (o : ValidationOptions) :
    ∃ a, validateOwned schema (.fromJson j) { o with inputMode := .json } = some a ∧
      validateInput x schema (.utf8Str text) { o with inputMode := .json } = .ok a := by
  obtain ⟨a, ha, -⟩ := validateOwned_total schema (.fromJson j) { o with inputMode := .json }
  have hprepared : prepareInput (.utf8Str text) .json = .ok (.json text) := by
    simp only [prepareInput, prepareJson, RubyValue.utf8Str, stringToOwned]
    rw [if_neg (by simpa [Text.containsNul] using hnul), Text.fromUtf8Lossy_toUTF8]
    rfl
  refine ⟨a, ha, ?_⟩
  simp only [validateInput, hprepared, Fallible.ok_bind, validatePreparedInput, validateJson,
    hparse, Except.toOption, ha]
  rfl

theorem validateInput_ruby {r : RubyValue} {v : OwnedValue} (h : r.Converts v)
    (schema : SchemaIr) (o : ValidationOptions) :
    ∃ b, validateOwned schema v { o with inputMode := .ruby } = some b ∧
      validateInput x schema r { o with inputMode := .ruby } = .ok b := by
  obtain ⟨b, hb, -⟩ := validateOwned_total schema v { o with inputMode := .ruby }
  have hprepared : prepareInput r .ruby = .ok (.owned v) := by
    rw [prepareInput, convertOwned, h]
    rfl
  refine ⟨b, hb, ?_⟩
  simp only [validateInput, hprepared, Fallible.ok_bind, validatePreparedInput, hb]
  rfl

theorem validateOwned_inputMode (schema : SchemaIr) (v : OwnedValue) (o : ValidationOptions)
    (mode mode' : InputMode) : validateOwned schema v { o with inputMode := mode } =
      validateOwned schema v { o with inputMode := mode' } := by
  have hcheck : check { o with inputMode := mode } (schema.unfold schema.root) true v =
      check { o with inputMode := mode' } (schema.unfold schema.root) true v := by
    apply check_congr <;> rfl
  rw [validateOwned_eq, validateOwned_eq, hcheck]

theorem validateInput_out_of_range {r : RubyValue} (h : r.OutOfRange) (schema : SchemaIr)
    (o : ValidationOptions) : validateInput x schema r { o with inputMode := .ruby } =
      .raise .rangeError := by
  have hprepared : prepareInput r .ruby = .raise .rangeError := by
    rw [prepareInput, convertOwned, h]
    rfl
  simp only [validateInput, hprepared]
  rfl

theorem validateOwned_any (v : OwnedValue) (o : ValidationOptions) :
    validateOwned .empty v o = some ⟨some v, []⟩ := by
  have hroot : SchemaIr.empty.arena.get SchemaIr.empty.root = some (.primitive .any) := rfl
  rw [validateOwned_eq, SchemaIr.unfold_of_get hroot]
  rfl

section
variable {text : String} {j : JsonValue} {r : RubyValue} {v : OwnedValue}
  (hnul : Text.containsNul text = false) (hparse : x.fromStr text = .ok j) (hv : r.Converts v)
include hnul hparse hv

theorem modesAgree_of_reordered (hd : (OwnedValue.fromJson j).DistinctKeys)
    (h : Reordered (.fromJson j) v) (schema : SchemaIr) (o : ValidationOptions) :
    ModesAgree x schema o text r := by
  obtain ⟨a, ha, hjson⟩ := validateInput_json hnul hparse schema o
  obtain ⟨b, hb, hruby⟩ := validateInput_ruby (x := x) hv schema o
  have hlike : ValidationResult.Like _ _ := (check_reordered (o := { o with inputMode := .ruby })
    (e := schema.unfold schema.root) true hd h).finish []
  rw [validateOwned_inputMode schema _ o .json .ruby, validateOwned_eq] at ha
  rw [validateOwned_eq] at hb
  cases ha
  cases hb
  exact ⟨_, _, hjson, hruby, hlike⟩

/-- A schema that takes anything returns what each route made of the document. -/
theorem reordered_of_modesAgree (h : ModesAgree x .empty {} text r) :
    Reordered (.fromJson j) v := by
  obtain ⟨_, _, hjson', hruby', hlike⟩ := h
  obtain ⟨a, ha, hjson⟩ := validateInput_json hnul hparse .empty {}
  obtain ⟨b, hb, hruby⟩ := validateInput_ruby (x := x) hv .empty {}
  cases hjson.symm.trans hjson'
  cases hruby.symm.trans hruby'
  rw [validateOwned_any, Option.some.injEq] at ha hb
  subst ha hb
  cases hlike.output with
  | some hreordered => exact hreordered

end

/-- The modes agree on a document, under every schema and all options, exactly if every integer in
it fits `i64` and none is written `-0`. With an integer beyond `i64` they agree under none. JSON
text has no zero byte. -/
theorem modes_agree_iff (hnul : ∀ text j, x.fromStr text = .ok j → Text.containsNul text = false)
    {text : String} {j : JsonValue} (hparse : x.fromStr text = .ok j) {d : Document}
    (hread : ReadAs d j) {r : RubyValue} (hsame : SameContent d r) :
    ((∀ schema o, ModesAgree x schema o text r) ↔
      ∀ t ∈ d.integers, t.InRange ∧ ¬ t.IsNegativeZero) ∧
    ((∃ t ∈ d.integers, ¬ t.InRange) → ∀ schema o, ¬ ModesAgree x schema o text r) := by
  have hnul := hnul _ _ hparse
  obtain ⟨hfits, v, hv, hagree⟩ | ⟨hmisfit, hraise⟩ := hsame.routes
  · have hagree := hagree j hread
    refine ⟨⟨fun h t ht => ⟨hfits t ht, ?_⟩, fun h => ?_⟩, ?_⟩
    · exact hagree.1 (reordered_of_modesAgree hnul hparse hv (h .empty {})) t ht
    · exact modesAgree_of_reordered hnul hparse hv (hsame.distinctKeys hread)
        (hagree.2 fun t ht => (h t ht).2)
    · rintro ⟨t, ht, hbeyond⟩
      exact absurd (hfits t ht) hbeyond
  · have hnone (schema : SchemaIr) (o : ValidationOptions) : ¬ ModesAgree x schema o text r := by
      rintro ⟨a, b, -, hruby, -⟩
      rw [validateInput_out_of_range hraise] at hruby
      cases hruby
    refine ⟨iff_of_false (fun h => hnone .empty {} (h .empty {})) fun h => ?_, fun _ => hnone⟩
    exact hmisfit fun t ht => (h t ht).1

/-- An object of one integer, whose key is a Symbol on the Ruby side. -/
theorem modes_agree_object :
    ModesAgree (.reading "\x7b\"a\":1\x7d" (.object [("a", .number (.posInt 1))])) .empty {}
      "\x7b\"a\":1\x7d" (.hash ⟨"Hash", false⟩ [(.id2sym "a", .integer 1)]) := by
  refine (modes_agree_iff (d := .object [("a", .integer ⟨false, 1⟩)]) ?_ rfl
    (.object (.cons (.mk "a" (.posInt (by decide))) .nil) (.refl _))
    (.object _ (by decide) (.cons (.mk (.symbol "a") (.integer ⟨false, 1⟩)) .nil) (.refl _))).1.2
    (by decide) .empty {}
  intro text _ h
  rw [Externals.reading_fromStr h]
  decide

/-- The first integer beyond `i64`. -/
theorem modes_disagree : ¬ ∀ (x : Externals) (text : String) (j : JsonValue) (d : Document)
    (r : RubyValue), (∀ text j, x.fromStr text = .ok j → Text.containsNul text = false) →
    x.fromStr text = .ok j → ReadAs d j → SameContent d r →
    ∀ schema o, ModesAgree x schema o text r := by
  intro h
  have hnul (text : String) (j : JsonValue) (htext : (Externals.reading "9223372036854775808"
      (.number (.posInt (.ofNat 9223372036854775808)))).fromStr text = .ok j) :
      Text.containsNul text = false := by
    rw [Externals.reading_fromStr htext]
    decide
  obtain ⟨_, b, -, hruby, -⟩ := h _ "9223372036854775808" _ _ _ hnul rfl
    (.posInt (by decide)) (.integer ⟨false, 9223372036854775808⟩) .empty {}
  rw [validateInput_out_of_range fun _ => rfl] at hruby
  cases hruby

end RustlyCore
