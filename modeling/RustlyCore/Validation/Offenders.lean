import RustlyCore.Validation.PathStack

/-!
# The first offender

The values that are converted, with the bytes of their text, are those that have an `Image`; the
error is that of the `FirstOffender`.
-/

namespace RustlyCore.Raw

/-! ## What converts -/

/-- The bytes of a key. -/
inductive SameKey : ByteArray → RubyValue → Prop
  | string (basic : RBasic) (bytes : ByteArray) : SameKey bytes (.string basic bytes)
  | symbol (bytes : ByteArray) : SameKey bytes (.symbol bytes)

mutual
/-- The value that has the structure of a Ruby value: as many parts in the same order, text with the
same bytes, Strings and Symbols kept apart. -/
inductive Image : RubyValue → RawValue → Prop
  | nil : Image .nil .null
  | bool (b : Bool) : Image (.bool b) (.bool b)
  | integer (i : Int64) : Image (.integer i.toInt) (.int i)
  | float (f : Float) : Image (.float f) (.float f)
  | string (basic : RBasic) (bytes : ByteArray) : Image (.string basic bytes) (.string bytes)
  | symbol (bytes : ByteArray) : Image (.symbol bytes) (.symbol bytes)
  | array (basic : RBasic) {elements : List RubyValue} {outs : List RawValue} :
    List.Forall₂ Image elements outs → Image (.array basic elements) (.list outs)
  | hash (basic : RBasic) {entries : List (RubyValue × RubyValue)} {outs : RawDict} :
    List.Forall₂ ImageEntry entries outs → Image (.hash basic entries) (.dict outs)

inductive ImageEntry : RubyValue × RubyValue → ByteArray × RawValue → Prop
  | mk {keyRef : ByteArray} {key value : RubyValue} {v : RawValue} :
    SameKey keyRef key → Image value v → ImageEntry (key, value) (keyRef, v)
end

theorem extractHashKey_eq_ok {path : List PathSegment} {key : RubyValue} {keyRef : ByteArray} :
    extractHashKey path key = .ok keyRef ↔ SameKey keyRef key := by
  constructor
  · intro h
    cases key with
    | string basic bytes =>
      cases h
      exact .string basic bytes
    | symbol bytes =>
      cases h
      exact .symbol bytes
    | _ => cases h
  · intro h
    cases h <;> rfl

theorem convertArray_of_images {elements : List RubyValue} {outs : List RawValue}
    (h : List.Forall₂ (fun r v => ∀ path, convertRubyValue path r = .ok v) elements outs)
    (path : List PathSegment) (index : Nat) : convertArray path index elements = .ok outs := by
  induction h generalizing index with
  | nil => rfl
  | cons hr _ ih =>
    rw [convertArray, hr, Fallible.ok_bind, ih]
    rfl

theorem convertHash_of_images {entries : List (RubyValue × RubyValue)} {outs : RawDict}
    (h : List.Forall₂ (fun p q => SameKey q.1 p.1 ∧ ∀ path, convertRubyValue path p.2 = .ok q.2)
      entries outs) (path : List PathSegment) : convertHash path entries = .ok outs := by
  induction h with
  | nil => rfl
  | cons hentry _ ih =>
    rw [convertHash, extractHashKey_eq_ok.2 hentry.1, Fallible.ok_bind, hentry.2, Fallible.ok_bind,
      ih]
    rfl

/-- An element is converted under its index. -/
theorem convertArray_images {path : List PathSegment} {index : Nat} {elements : List RubyValue}
    {outs : List RawValue}
    (h : ∀ r ∈ elements, ∀ path v, convertRubyValue path r = .ok v → Image r v)
    (hconverts : convertArray path index elements = .ok outs) :
    List.Forall₂ Image elements outs := by
  induction elements generalizing index outs with
  | nil =>
    cases hconverts
    exact .nil
  | cons r elements ih =>
    obtain ⟨hr, helements⟩ := List.forall_mem_cons.1 h
    obtain ⟨v, hv, hrest⟩ := Fallible.bind_eq_ok.1 hconverts
    obtain ⟨vs, hvs, hpure⟩ := Fallible.bind_eq_ok.1 hrest
    cases hpure
    exact .cons (hr _ _ hv) (ih helements hvs)

theorem convertHash_images {path : List PathSegment} {entries : List (RubyValue × RubyValue)}
    {outs : RawDict}
    (h : ∀ p ∈ entries, ∀ path v, convertRubyValue path p.2 = .ok v → Image p.2 v)
    (hconverts : convertHash path entries = .ok outs) :
    List.Forall₂ ImageEntry entries outs := by
  induction entries generalizing outs with
  | nil =>
    cases hconverts
    exact .nil
  | cons p entries ih =>
    obtain ⟨hp, hentries⟩ := List.forall_mem_cons.1 h
    obtain ⟨keyRef, hkey, hrest⟩ := Fallible.bind_eq_ok.1 hconverts
    obtain ⟨v, hv, hrest⟩ := Fallible.bind_eq_ok.1 hrest
    obtain ⟨vs, hvs, hpure⟩ := Fallible.bind_eq_ok.1 hrest
    cases hpure
    exact .cons (.mk (extractHashKey_eq_ok.1 hkey) (hp _ _ hv)) (ih hentries hvs)

theorem image_of_converts {r : RubyValue} {path : List PathSegment} {v : RawValue}
    (h : convertRubyValue path r = .ok v) : Image r v := by
  induction r generalizing path v with
  | nil =>
    cases h
    exact .nil
  | bool b =>
    cases h
    exact .bool b
  | float f =>
    cases h
    exact .float f
  | integer i =>
    obtain ⟨n, hn, hpure⟩ := Fallible.bind_eq_ok.1 h
    cases hpure
    exact num2ll_ok.1 hn ▸ .integer n
  | string basic bytes =>
    cases h
    exact .string basic bytes
  | symbol bytes =>
    cases h
    exact .symbol bytes
  | array basic elements ih =>
    obtain ⟨outs, houts, hpure⟩ := Fallible.bind_eq_ok.1 h
    cases hpure
    exact .array basic (convertArray_images (fun r hr _ _ => ih r hr) houts)
  | hash basic entries ih =>
    obtain ⟨outs, houts, hpure⟩ := Fallible.bind_eq_ok.1 h
    cases hpure
    exact .hash basic (convertHash_images (fun p hp _ _ => (ih p hp).2) houts)
  | object => cases h

theorem Image.converts {r : RubyValue} {v : RawValue} (h : Image r v) (path : List PathSegment) :
    convertRubyValue path r = .ok v := by
  induction r generalizing v path with
  | nil | bool | float | string | symbol =>
    cases h
    rfl
  | integer i =>
    cases h with
    | integer n =>
      rw [convertRubyValue, num2ll_toInt]
      rfl
  | array basic elements ih =>
    cases h with
    | array _ h =>
      have hconverts := ((List.forall₂_and_left _ _).2 ⟨ih, h⟩).imp fun _ _ h => h.1 h.2
      rw [convertRubyValue, convertArray_of_images hconverts]
      rfl
  | hash basic entries ih =>
    cases h with
    | hash _ h =>
      rw [convertRubyValue, convertHash_of_images (((List.forall₂_and_left _ _).2 ⟨ih, h⟩).imp ?_)]
      · rfl
      · rintro p q ⟨ih, hentry⟩
        cases hentry with
        | mk hkey hvalue => exact ⟨hkey, ih.2 hvalue⟩
  | object => cases h

/-- What converts is what has an image, which it converts to. -/
theorem convertRubyValue_eq_ok {r : RubyValue} {path : List PathSegment} {v : RawValue} :
    convertRubyValue path r = .ok v ↔ Image r v :=
  ⟨image_of_converts, fun h => h.converts path⟩

/-! ## What is reported -/

inductive Offence where
  | unsupportedType (actual : String)
  | invalidHashKey (actual : String)

def Offence.error (path : List PathSegment) : Offence → InputError
  | .unsupportedType actual => .unsupportedType (formatPath path) actual
  | .invalidHashKey actual => .invalidHashKey (formatPath path) actual

/-- Depth first and from left to right, a key before its value: everything before the offender has
an image. The place is that of the offending value or of the Hash with the offending key. -/
inductive FirstOffender : RubyValue → List PathSegment → Offence → Prop
  | object (basic : RBasic) (ivars : List (String × RubyValue)) :
    FirstOffender (.object basic ivars) []
      (.unsupportedType (RubyValue.object basic ivars).className)
  | array (basic : RBasic) {before after : List RubyValue} {element : RubyValue}
    {place : List PathSegment} {offence : Offence} :
    (∀ r ∈ before, ∃ v, Image r v) → FirstOffender element place offence →
    FirstOffender (.array basic (before ++ element :: after)) (.index before.length :: place)
      offence
  | key (basic : RBasic) {before after : List (RubyValue × RubyValue)} {key value : RubyValue} :
    (∀ p ∈ before, ∃ q, ImageEntry p q) → key.isText = false →
    FirstOffender (.hash basic (before ++ (key, value) :: after)) []
      (.invalidHashKey key.className)
  | value (basic : RBasic) {before after : List (RubyValue × RubyValue)} {keyRef : ByteArray}
    {key value : RubyValue} {place : List PathSegment} {offence : Offence} :
    (∀ p ∈ before, ∃ q, ImageEntry p q) → SameKey keyRef key → FirstOffender value place offence →
    FirstOffender (.hash basic (before ++ (key, value) :: after)) (.key keyRef :: place) offence

theorem convertArray_append (path : List PathSegment) (index : Nat) {before : List RubyValue}
    (h : ∀ r ∈ before, ∃ v, Image r v) (elements : List RubyValue) :
    ∃ outs, convertArray path index (before ++ elements) =
      (do return outs ++ (← convertArray path (index + before.length) elements)) := by
  induction before generalizing index with
  | nil => exact ⟨[], by simp⟩
  | cons r before ih =>
    obtain ⟨⟨v, hv⟩, hbefore⟩ := List.forall_mem_cons.1 h
    obtain ⟨outs, houts⟩ := ih (index + 1) hbefore
    refine ⟨v :: outs, ?_⟩
    rw [List.cons_append, convertArray, hv.converts, Fallible.ok_bind, houts, List.length_cons,
      Nat.add_right_comm, Nat.add_assoc]
    simp

theorem convertHash_append (path : List PathSegment) {before : List (RubyValue × RubyValue)}
    (h : ∀ p ∈ before, ∃ q, ImageEntry p q) (entries : List (RubyValue × RubyValue)) :
    ∃ outs, convertHash path (before ++ entries) =
      (do return outs ++ (← convertHash path entries)) := by
  induction before with
  | nil => exact ⟨[], by simp⟩
  | cons p before ih =>
    obtain ⟨⟨q, hq⟩, hbefore⟩ := List.forall_mem_cons.1 h
    obtain ⟨outs, houts⟩ := ih hbefore
    refine ⟨q :: outs, ?_⟩
    cases hq with
    | mk hkey hvalue =>
      rw [List.cons_append, convertHash, extractHashKey_eq_ok.2 hkey, Fallible.ok_bind,
        hvalue.converts, Fallible.ok_bind, houts]
      simp

theorem FirstOffender.fails {r : RubyValue} {place : List PathSegment} {offence : Offence}
    (h : FirstOffender r place offence) (path : List PathSegment) :
    convertRubyValue path r = .fail (offence.error (path ++ place)) := by
  induction h generalizing path with
  | object basic ivars =>
    rw [List.append_nil]
    rfl
  | @array basic before after element place offence hbefore _ ih =>
    obtain ⟨outs, houts⟩ := convertArray_append path 0 hbefore (element :: after)
    rw [convertRubyValue, houts, Nat.zero_add, convertArray, ih, List.append_assoc]
    rfl
  | @key basic before after key value hbefore hkey =>
    obtain ⟨outs, houts⟩ := convertHash_append path hbefore ((key, value) :: after)
    have hfails : extractHashKey path key =
        .fail (.invalidHashKey (formatPath path) key.className) := by
      cases key with
      | string | symbol => cases hkey
      | _ => rfl
    rw [convertRubyValue, houts, convertHash, hfails, List.append_nil]
    rfl
  | @value basic before after keyRef key value place offence hbefore hkey _ ih =>
    obtain ⟨outs, houts⟩ := convertHash_append path hbefore ((key, value) :: after)
    rw [convertRubyValue, houts, convertHash, extractHashKey_eq_ok.2 hkey, Fallible.ok_bind, ih,
      List.append_assoc]
    rfl

/-- The error comes from the offence, at a place within the value converted at `path`. -/
def Offends (r : RubyValue) (path : List PathSegment) (err : InputError) : Prop :=
  ∃ place offence, FirstOffender r place offence ∧ err = offence.error (path ++ place)

theorem convertArray_eq_fail {path : List PathSegment} {index : Nat} {elements : List RubyValue}
    {err : InputError}
    (h : ∀ r ∈ elements, ∀ path, convertRubyValue path r = .fail err → Offends r path err)
    (hfails : convertArray path index elements = .fail err) :
    ∃ before element after, elements = before ++ element :: after ∧
      (∀ r ∈ before, ∃ v, Image r v) ∧
      Offends element (path ++ [.index (index + before.length)]) err := by
  induction elements generalizing index with
  | nil => cases hfails
  | cons r elements ih =>
    obtain ⟨hr, helements⟩ := List.forall_mem_cons.1 h
    obtain hhere | ⟨v, hv, hrest⟩ := Fallible.bind_eq_fail.1 hfails
    · exact ⟨[], r, elements, rfl, by simp, hr _ hhere⟩
    · obtain hrest | ⟨outs, -, hpure⟩ := Fallible.bind_eq_fail.1 hrest
      · obtain ⟨before, element, after, rfl, hbefore, hoffends⟩ := ih helements hrest
        refine ⟨r :: before, element, after, rfl, ?_, ?_⟩
        · exact List.forall_mem_cons.2 ⟨⟨v, convertRubyValue_eq_ok.1 hv⟩, hbefore⟩
        · rwa [List.length_cons, Nat.add_comm before.length, ← Nat.add_assoc]
      · cases hpure

/-- A key that is no text, or a value under a key. -/
theorem convertHash_eq_fail {path : List PathSegment} {entries : List (RubyValue × RubyValue)}
    {err : InputError}
    (h : ∀ p ∈ entries, ∀ path, convertRubyValue path p.2 = .fail err → Offends p.2 path err)
    (hfails : convertHash path entries = .fail err) :
    ∃ before key value after, entries = before ++ (key, value) :: after ∧
      (∀ p ∈ before, ∃ q, ImageEntry p q) ∧
      ((key.isText = false ∧ err = .invalidHashKey (formatPath path) key.className) ∨
        ∃ keyRef, SameKey keyRef key ∧ Offends value (path ++ [.key keyRef]) err) := by
  induction entries with
  | nil => cases hfails
  | cons p entries ih =>
    obtain ⟨hp, hentries⟩ := List.forall_mem_cons.1 h
    obtain ⟨key, value⟩ := p
    obtain hkey | ⟨keyRef, hkey, hrest⟩ := Fallible.bind_eq_fail.1 hfails
    · refine ⟨[], key, value, entries, rfl, by simp, .inl ?_⟩
      cases key with
      | string | symbol => cases hkey
      | _ =>
        cases hkey
        exact ⟨rfl, rfl⟩
    · obtain hvalue | ⟨v, hv, hrest⟩ := Fallible.bind_eq_fail.1 hrest
      · exact ⟨[], key, value, entries, rfl, by simp,
          .inr ⟨keyRef, extractHashKey_eq_ok.1 hkey, hp _ hvalue⟩⟩
      · obtain hrest | ⟨outs, -, hpure⟩ := Fallible.bind_eq_fail.1 hrest
        · obtain ⟨before, key', value', after, rfl, hbefore, hoffends⟩ := ih hentries hrest
          refine ⟨(key, value) :: before, key', value', after, rfl, ?_, hoffends⟩
          exact List.forall_mem_cons.2
            ⟨⟨_, .mk (extractHashKey_eq_ok.1 hkey) (convertRubyValue_eq_ok.1 hv)⟩, hbefore⟩
        · cases hpure

theorem offends_of_fails {r : RubyValue} {path : List PathSegment} {err : InputError}
    (h : convertRubyValue path r = .fail err) : Offends r path err := by
  induction r generalizing path with
  | nil | bool | float | string | symbol => cases h
  | integer i =>
    obtain hfails | ⟨n, -, hpure⟩ := Fallible.bind_eq_fail.1 h
    · exact absurd hfails (num2ll_not_fail i err)
    · cases hpure
  | array basic elements ih =>
    obtain hfails | ⟨outs, -, hpure⟩ := Fallible.bind_eq_fail.1 h
    · obtain ⟨before, element, after, rfl, hbefore, place, offence, hoffender, rfl⟩ :=
        convertArray_eq_fail (fun r hr path => ih r hr) hfails
      refine ⟨_, offence, .array basic hbefore hoffender, ?_⟩
      rw [Nat.zero_add, List.append_assoc]
      rfl
    · cases hpure
  | hash basic entries ih =>
    obtain hfails | ⟨outs, -, hpure⟩ := Fallible.bind_eq_fail.1 h
    · obtain ⟨before, key, value, after, rfl, hbefore, ⟨hkey, rfl⟩ | ⟨keyRef, hkey, hvalue⟩⟩ :=
        convertHash_eq_fail (fun p hp path => (ih p hp).2) hfails
      · refine ⟨[], _, .key basic hbefore hkey, ?_⟩
        rw [List.append_nil]
        rfl
      · obtain ⟨place, offence, hoffender, rfl⟩ := hvalue
        refine ⟨_, offence, .value basic hbefore hkey hoffender, ?_⟩
        rw [List.append_assoc]
        rfl
    · cases hpure
  | object basic ivars =>
    cases h
    refine ⟨[], _, .object basic ivars, ?_⟩
    rw [List.append_nil]
    rfl

theorem convertRubyValue_eq_fail {r : RubyValue} {path : List PathSegment} {err : InputError} :
    convertRubyValue path r = .fail err ↔ Offends r path err := by
  refine ⟨offends_of_fails, ?_⟩
  rintro ⟨place, offence, hoffender, rfl⟩
  exact hoffender.fails path

theorem Image.not_offender {r : RubyValue} {v : RawValue} (h : Image r v)
    {place : List PathSegment} {offence : Offence} : ¬ FirstOffender r place offence := by
  intro hoffender
  have hfails := hoffender.fails []
  rw [h.converts] at hfails
  cases hfails

theorem SameKey.unique {key key' : ByteArray} {r : RubyValue} (h : SameKey key r)
    (h' : SameKey key' r) : key = key' := by
  have hkey : extractHashKey [] r = .ok key := extractHashKey_eq_ok.2 h
  exact Except.ok.inj (hkey.symm.trans (extractHashKey_eq_ok.2 h'))

theorem SameKey.isText {key : ByteArray} {r : RubyValue} (h : SameKey key r) : r.isText = true := by
  cases h <;> rfl

/-- Only one value, or one key, is the first that is wrong. -/
theorem FirstOffender.unique {r : RubyValue} {place place' : List PathSegment}
    {offence offence' : Offence} (h : FirstOffender r place offence)
    (h' : FirstOffender r place' offence') : place = place' ∧ offence = offence' := by
  have hkey {key value : RubyValue} (hkey : key.isText = false) :
      ¬ ∃ q, ImageEntry (key, value) q := by
    rintro ⟨q, ⟨hsame, -⟩⟩
    cases hsame.isText.symm.trans hkey
  have hvalue {key value : RubyValue} {place : List PathSegment} {offence : Offence}
      (h : FirstOffender value place offence) : ¬ ∃ q, ImageEntry (key, value) q := by
    rintro ⟨q, ⟨-, himage⟩⟩
    exact himage.not_offender h
  induction h generalizing place' offence' with
  | object basic ivars =>
    cases h'
    exact ⟨rfl, rfl⟩
  | @array basic before after element place offence hbefore hoffender ih =>
    generalize hr : RubyValue.array basic (before ++ element :: after) = r at h'
    cases h' with
    | @array _ before' after' element' _ _ hbefore' hoffender' =>
      obtain ⟨-, hsplit⟩ := RubyValue.array.inj hr
      obtain ⟨rfl, rfl⟩ := first_unique hsplit hbefore (fun ⟨v, hv⟩ => hv.not_offender hoffender)
        hbefore' fun ⟨v, hv⟩ => hv.not_offender hoffender'
      obtain ⟨rfl, rfl⟩ := ih hoffender'
      exact ⟨rfl, rfl⟩
    | _ => cases hr
  | @key basic before after key value hbefore hoffends =>
    generalize hr : RubyValue.hash basic (before ++ (key, value) :: after) = r at h'
    cases h' with
    | key _ hbefore' hoffends' =>
      obtain ⟨-, hsplit⟩ := RubyValue.hash.inj hr
      obtain ⟨-, heq⟩ := first_unique hsplit hbefore (hkey hoffends) hbefore' (hkey hoffends')
      cases heq
      exact ⟨rfl, rfl⟩
    | value _ hbefore' hsame' hoffender' =>
      obtain ⟨-, hsplit⟩ := RubyValue.hash.inj hr
      obtain ⟨-, heq⟩ := first_unique hsplit hbefore (hkey hoffends) hbefore' (hvalue hoffender')
      cases heq
      cases hsame'.isText.symm.trans hoffends
    | _ => cases hr
  | @value basic before after keyRef key value place offence hbefore hsame hoffender ih =>
    generalize hr : RubyValue.hash basic (before ++ (key, value) :: after) = r at h'
    cases h' with
    | key _ hbefore' hoffends' =>
      obtain ⟨-, hsplit⟩ := RubyValue.hash.inj hr
      obtain ⟨-, heq⟩ := first_unique hsplit hbefore (hvalue hoffender) hbefore' (hkey hoffends')
      cases heq
      cases hsame.isText.symm.trans hoffends'
    | value _ hbefore' hsame' hoffender' =>
      obtain ⟨-, hsplit⟩ := RubyValue.hash.inj hr
      obtain ⟨-, heq⟩ := first_unique hsplit hbefore (hvalue hoffender) hbefore' (hvalue hoffender')
      cases heq
      obtain ⟨rfl, rfl⟩ := ih hoffender'
      cases hsame.unique hsame'
      exact ⟨rfl, rfl⟩
    | _ => cases hr

/-! ## Which values convert -/

/-- Every element and every value below is of a class that has a value type, every key of a Hash is
a String or a Symbol. -/
inductive Supported : RubyValue → Prop
  | nil : Supported .nil
  | bool (b : Bool) : Supported (.bool b)
  | integer (i : Int) : Supported (.integer i)
  | float (f : Float) : Supported (.float f)
  | string (basic : RBasic) (bytes : ByteArray) : Supported (.string basic bytes)
  | symbol (bytes : ByteArray) : Supported (.symbol bytes)
  | array (basic : RBasic) {elements : List RubyValue} :
    (∀ r ∈ elements, Supported r) → Supported (.array basic elements)
  | hash (basic : RBasic) {entries : List (RubyValue × RubyValue)} :
    (∀ p ∈ entries, p.1.isText = true) → (∀ p ∈ entries, Supported p.2) →
    Supported (.hash basic entries)

/-- Every Integer fits `i64`. -/
inductive IntegersFit : RubyValue → Prop
  | nil : IntegersFit .nil
  | bool (b : Bool) : IntegersFit (.bool b)
  | integer (i : Int64) : IntegersFit (.integer i.toInt)
  | float (f : Float) : IntegersFit (.float f)
  | string (basic : RBasic) (bytes : ByteArray) : IntegersFit (.string basic bytes)
  | symbol (bytes : ByteArray) : IntegersFit (.symbol bytes)
  | array (basic : RBasic) {elements : List RubyValue} :
    (∀ r ∈ elements, IntegersFit r) → IntegersFit (.array basic elements)
  | hash (basic : RBasic) {entries : List (RubyValue × RubyValue)} :
    (∀ p ∈ entries, IntegersFit p.2) → IntegersFit (.hash basic entries)
  | object (basic : RBasic) (ivars : List (String × RubyValue)) : IntegersFit (.object basic ivars)

theorem sameKey_of_isText {key : RubyValue} (h : key.isText = true) :
    ∃ keyRef, SameKey keyRef key := by
  cases key with
  | string basic bytes => exact ⟨bytes, .string basic bytes⟩
  | symbol bytes => exact ⟨bytes, .symbol bytes⟩
  | _ => cases h

theorem IntegersFit.image_or_offender {r : RubyValue} (h : IntegersFit r) :
    (∃ v, Image r v) ∨ ∃ place offence, FirstOffender r place offence := by
  induction r with
  | nil => exact .inl ⟨_, .nil⟩
  | bool b => exact .inl ⟨_, .bool b⟩
  | float f => exact .inl ⟨_, .float f⟩
  | integer =>
    cases h with
    | integer i => exact .inl ⟨_, .integer i⟩
  | string basic bytes => exact .inl ⟨_, .string basic bytes⟩
  | symbol bytes => exact .inl ⟨_, .symbol bytes⟩
  | array basic elements ih =>
    cases h with
    | array _ h =>
      obtain hall | ⟨before, element, after, rfl, hbefore, place, offence, hoffender⟩ :=
        forall_or_first fun r hr => ih r hr (h r hr)
      · obtain ⟨outs, houts⟩ := forall₂_choose hall
        exact .inl ⟨_, .array basic houts⟩
      · exact .inr ⟨_, _, .array basic hbefore hoffender⟩
  | hash basic entries ih =>
    cases h with
    | hash _ hvalues =>
      have hentry (p : RubyValue × RubyValue) (hp : p ∈ entries) : (∃ q, ImageEntry p q) ∨
          (p.1.isText = false ∨ ∃ keyRef, SameKey keyRef p.1 ∧
            ∃ place offence, FirstOffender p.2 place offence) := by
        cases htext : p.1.isText with
        | false => exact .inr (.inl rfl)
        | true =>
          obtain ⟨keyRef, hsame⟩ := sameKey_of_isText htext
          obtain ⟨v, hv⟩ | hoffender := (ih p hp).2 (hvalues p hp)
          · exact .inl ⟨_, .mk hsame hv⟩
          · exact .inr (.inr ⟨keyRef, hsame, hoffender⟩)
      obtain hall | ⟨before, p, after, rfl, hbefore,
          hkey | ⟨keyRef, hkey, place, offence, hvalue⟩⟩ := forall_or_first hentry
      · obtain ⟨outs, houts⟩ := forall₂_choose hall
        exact .inl ⟨_, .hash basic houts⟩
      · exact .inr ⟨_, _, .key basic hbefore hkey⟩
      · exact .inr ⟨_, _, .value basic hbefore hkey hvalue⟩
  | object basic ivars => exact .inr ⟨_, _, .object basic ivars⟩

theorem Image.supported {r : RubyValue} {v : RawValue} (h : Image r v) : Supported r := by
  induction r generalizing v with
  | nil => exact .nil
  | bool b => exact .bool b
  | integer i => exact .integer i
  | float f => exact .float f
  | string basic bytes => exact .string basic bytes
  | symbol bytes => exact .symbol bytes
  | array basic elements ih =>
    cases h with
    | array _ h =>
      refine .array basic fun r hr => ?_
      obtain ⟨v, -, hv⟩ := forall₂_mem_left h r hr
      exact ih r hr hv
  | hash basic entries ih =>
    cases h with
    | hash _ h =>
      refine .hash basic (fun p hp => ?_) fun p hp => ?_
      · obtain ⟨_, -, hentry⟩ := forall₂_mem_left h p hp
        cases hentry with
        | mk hsame => exact hsame.isText
      · obtain ⟨_, -, hentry⟩ := forall₂_mem_left h p hp
        cases hentry with
        | mk _ hv => exact (ih _ hp).2 hv
  | object => cases h

theorem FirstOffender.not_supported {r : RubyValue} {place : List PathSegment} {offence : Offence}
    (h : FirstOffender r place offence) : ¬ Supported r := by
  induction h with
  | object => nofun
  | array basic _ _ ih =>
    intro hsupported
    cases hsupported with
    | array _ h => exact ih (h _ (by simp))
  | key basic _ hkey =>
    intro hsupported
    cases hsupported with
    | hash _ h => cases (h _ (List.mem_append_right _ List.mem_cons_self)).symm.trans hkey
  | value basic _ _ _ ih =>
    intro hsupported
    cases hsupported with
    | hash _ _ h => exact ih (h _ (List.mem_append_right _ List.mem_cons_self))

theorem IntegersFit.image_iff {r : RubyValue} (h : IntegersFit r) :
    (∃ v, Image r v) ↔ Supported r := by
  refine ⟨fun ⟨v, hv⟩ => hv.supported, fun hsupported => ?_⟩
  obtain himage | ⟨place, offence, hoffender⟩ := h.image_or_offender
  · exact himage
  · exact absurd hsupported hoffender.not_supported

theorem IntegersFit.offender_iff {r : RubyValue} (h : IntegersFit r) :
    (∃ place offence, FirstOffender r place offence) ↔ ¬ Supported r := by
  refine ⟨fun ⟨place, offence, hoffender⟩ => hoffender.not_supported, fun hsupported => ?_⟩
  obtain ⟨v, hv⟩ | hoffender := h.image_or_offender
  · exact absurd hv.supported hsupported
  · exact hoffender

/-! ## The conversion with its stack -/

namespace Conversion
variable {r : RubyValue} {path stack : List PathSegment}

theorem returns_ok {v : RawValue} :
    (convertRubyValue r).run path = .ok (.ok v, stack) ↔ Image r v ∧ stack = path := by
  obtain ⟨left, hrun, hleft⟩ := convertRubyValue_follows r path
  rw [hrun, ← @convertRubyValue_eq_ok r path]
  generalize Raw.convertRubyValue path r = result at hleft
  cases result with
  | ok w =>
    cases hleft w rfl
    simp [Except.map, eq_comm]
  | error stop => cases stop <;> simp [Fallible.attempt, Except.map]

theorem returns_error {err : InputError} :
    (∃ stack, (convertRubyValue r).run path = .ok (.error err, stack)) ↔ Offends r path err := by
  rw [← convertRubyValue_eq_fail]
  obtain ⟨left, hrun, -⟩ := convertRubyValue_follows r path
  rw [hrun]
  cases Raw.convertRubyValue path r with
  | ok w => simp [Except.map, Fallible.fail]
  | error stop => cases stop <;> simp [Fallible.attempt, Except.map, Fallible.fail]

end Conversion

/-- For every Ruby value, whatever bytes its text has, and every stack: the conversion returns
exactly the image, with the stack as it was, or exactly the error of the first offender, of which
there is only one. Of the values whose Integers fit `i64`, those that are supported throughout have
an image, all others a first offender. -/
theorem conversion_exact (r : RubyValue) (path : List PathSegment) :
    (∀ v stack, (Conversion.convertRubyValue r).run path = .ok (.ok v, stack) ↔
      Image r v ∧ stack = path) ∧
    (∀ err, (∃ stack, (Conversion.convertRubyValue r).run path = .ok (.error err, stack)) ↔
      ∃ place offence, FirstOffender r place offence ∧ err = offence.error (path ++ place)) ∧
    (∀ place place' offence offence', FirstOffender r place offence →
      FirstOffender r place' offence' → place = place' ∧ offence = offence') ∧
    (IntegersFit r → ((∃ v, Image r v) ↔ Supported r) ∧
      ((∃ place offence, FirstOffender r place offence) ↔ ¬ Supported r)) :=
  ⟨fun _ _ => Conversion.returns_ok, fun _ => Conversion.returns_error,
    fun _ _ _ _ => FirstOffender.unique, fun h => ⟨h.image_iff, h.offender_iff⟩⟩

/-- `["\xFF", {a: Object.new}]`. -/
def nestedObject : RubyValue :=
  .array ⟨"Array", false⟩ [.string ⟨"String", false⟩ strayByte,
    .hash ⟨"Hash", false⟩ [(.symbol "a".toUTF8, .object ⟨"Object", false⟩ [])]]

theorem nestedObject_integersFit : IntegersFit nestedObject := by
  refine .array _ ?_
  rintro r (_ | ⟨_, _ | ⟨_, ⟨⟩⟩⟩)
  · exact .string _ _
  · refine .hash _ ?_
    rintro p (_ | ⟨_, ⟨⟩⟩)
    exact .object _ _

theorem nestedObject_offender : FirstOffender nestedObject [.index 1, .key "a".toUTF8]
    (.unsupportedType "Object") := by
  have hfirst : ∀ r ∈ [RubyValue.string ⟨"String", false⟩ strayByte], ∃ v, Image r v :=
    List.forall_mem_singleton.2 ⟨_, .string _ _⟩
  have hnone : ∀ p ∈ ([] : List (RubyValue × RubyValue)), ∃ q, ImageEntry p q := by simp
  exact .array _ hfirst (.value _ hnone (.symbol _) (.object _ _))

/-- The error is located at `[1].a`, whatever bytes come before. -/
theorem conversion_exact_object :
    (∃ stack, (Conversion.convertRubyValue nestedObject).run [] =
      .ok (.error (.unsupportedType "[1].a".toUTF8 "Object"), stack)) ∧
    ¬ Supported nestedObject := by
  obtain ⟨-, herror, -, hfit⟩ := conversion_exact nestedObject []
  exact ⟨(herror _).2 ⟨_, _, nestedObject_offender, rfl⟩,
    (hfit nestedObject_integersFit).2.1 ⟨_, _, nestedObject_offender⟩⟩

end RustlyCore.Raw
