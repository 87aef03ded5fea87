import RustlyCore.Lib.Pointwise
import RustlyCore.Validation.Input

/-!
# Converting Ruby values (`validation/input.rs`)

The values that convert, as far as their text can be read, are those that have an `Image`.
-/

namespace RustlyCore

/-! ## What converts -/

/-- A String or a Symbol. -/
def RubyValue.isText : RubyValue → Bool
  | .string _ _ | .symbol _ => true
  | _ => false

/-- A key of an object as a key of a Hash. -/
inductive SameKey : String → RubyValue → Prop
  | string (basic : RBasic) (key : String) : SameKey key (.string basic key.toUTF8)
  | symbol (key : String) : SameKey key (.symbol key.toUTF8)

theorem num2ll_toInt {ε : Type} (i : Int64) : (num2ll i.toInt : Result ε Int64) = .ok i := by
  rw [num2ll, if_pos ⟨i.minValue_le_toInt, i.toInt_le⟩, Int64.ofInt_toInt]
  rfl

theorem SameKey.extracts {key : String} {r : RubyValue} (h : SameKey key r)
    (path : List PathSegment) : extractHashKey path r = .ok key := by
  cases h <;> exact allocStrFromBytes_toByteArray key

theorem SameKey.unique {key key' : String} {r : RubyValue} (h : SameKey key r)
    (h' : SameKey key' r) : key = key' :=
  Except.ok.inj ((h.extracts []).symm.trans (h'.extracts []))

/-- The conversion returns the value, wherever it is made. -/
def RubyValue.Converts (r : RubyValue) (v : OwnedValue) : Prop :=
  ∀ path, convertRubyValue path r = .ok v

theorem convertArray_ok {elements : List RubyValue} {outs : List OwnedValue}
    (h : List.Forall₂ RubyValue.Converts elements outs) (path : List PathSegment) (index : Nat) :
    convertArray path index elements = .ok outs := by
  induction h generalizing index with
  | nil => rfl
  | cons hr _ ih =>
    rw [convertArray, hr, Fallible.ok_bind, ih]
    rfl

/-- An entry of a Hash and the entry that it becomes. -/
def EntryConverts (p : RubyValue × RubyValue) (q : String × OwnedValue) : Prop :=
  (∀ path, extractHashKey path p.1 = .ok q.1) ∧ p.2.Converts q.2

theorem convertHash_ok {entries : List (RubyValue × RubyValue)} {outs : OwnedDict}
    (h : List.Forall₂ EntryConverts entries outs) (path : List PathSegment) :
    convertHash path entries = .ok outs := by
  induction h with
  | nil => rfl
  | cons hentry _ ih =>
    rw [convertHash, hentry.1, Fallible.ok_bind, hentry.2, Fallible.ok_bind, ih]
    rfl

mutual
/-- The value that has the structure of a Ruby value: as many parts in the same order, keys as text,
Strings and Symbols kept apart. -/
inductive Image : RubyValue → OwnedValue → Prop
  | nil : Image .nil .null
  | bool (b : Bool) : Image (.bool b) (.bool b)
  | integer (i : Int64) : Image (.integer i.toInt) (.int i)
  | float (f : Float) : Image (.float f) (.float f)
  | string (basic : RBasic) (s : String) : Image (.string basic s.toUTF8) (.string s)
  | symbol (s : String) : Image (.symbol s.toUTF8) (.symbol s)
  | array (basic : RBasic) {elements : List RubyValue} {outs : List OwnedValue} :
    List.Forall₂ Image elements outs → Image (.array basic elements) (.list outs)
  | hash (basic : RBasic) {entries : List (RubyValue × RubyValue)} {outs : OwnedDict} :
    List.Forall₂ ImageEntry entries outs → Image (.hash basic entries) (.dict outs)

inductive ImageEntry : RubyValue × RubyValue → String × OwnedValue → Prop
  | mk {keyRef : String} {key value : RubyValue} {v : OwnedValue} :
    SameKey keyRef key → Image value v → ImageEntry (key, value) (keyRef, v)
end

theorem num2ll_ok {ε : Type} {i : Int} {n : Int64} :
    (num2ll i : Result ε Int64) = .ok n ↔ i = n.toInt := by
  refine ⟨fun h => ?_, fun h => h ▸ num2ll_toInt n⟩
  rw [num2ll] at h
  split at h
  next hrange =>
    cases h
    have hmax : i < 2 ^ 63 := hrange.2.trans_lt (by decide)
    exact (Int64.toInt_ofInt_of_le hrange.1 hmax).symm
  next => cases h

theorem allocStrFromBytes_ok {bytes : ByteArray} {s : String} :
    (allocStrFromBytes bytes : Result InputError String) = .ok s ↔ bytes = s.toUTF8 := by
  constructor
  · intro h
    rw [allocStrFromBytes, String.fromUTF8?] at h
    by_cases hvalid : bytes.IsValidUTF8
    · rw [dif_pos hvalid] at h
      cases h
      rfl
    · rw [dif_neg hvalid] at h
      cases h
  · rintro rfl
    exact allocStrFromBytes_toByteArray s

theorem num2ll_not_fail {ε : Type} (i : Int) (err : ε) : num2ll i ≠ .fail err := by
  rw [num2ll]
  split <;> nofun

theorem extractHashKey_ok {path : List PathSegment} {key : RubyValue} {keyRef : String} :
    extractHashKey path key = .ok keyRef ↔ SameKey keyRef key := by
  refine ⟨fun h => ?_, fun h => h.extracts path⟩
  cases key with
  | string basic bytes =>
    rw [extractHashKey, allocStrFromBytes_ok] at h
    exact h ▸ .string basic keyRef
  | symbol bytes =>
    rw [extractHashKey, allocStrFromBytes_ok] at h
    exact h ▸ .symbol keyRef
  | _ => cases h

/-- An element is converted under its index. -/
theorem convertArray_eq_ok {path : List PathSegment} {index : Nat} {elements : List RubyValue}
    {outs : List OwnedValue}
    (h : ∀ r ∈ elements, ∀ path v, convertRubyValue path r = .ok v → Image r v)
    (hconverts : convertArray path index elements = .ok outs) :
    List.Forall₂ Image elements outs := by
  induction elements generalizing index outs with
  | nil =>
    cases hconverts
    exact .nil
  | cons r elements ih =>
    obtain ⟨hr, helements⟩ := List.forall_mem_cons.1 h
    obtain ⟨v, hv, hrest⟩ := Fallible.bind_eq_ok.1 hconverts
    obtain ⟨vs, hvs, hpure⟩ := Fallible.bind_eq_ok.1 hrest
    cases hpure
    exact .cons (hr _ _ hv) (ih helements hvs)

theorem convertHash_eq_ok {path : List PathSegment} {entries : List (RubyValue × RubyValue)}
    {outs : OwnedDict}
    (h : ∀ p ∈ entries, ∀ path v, convertRubyValue path p.2 = .ok v → Image p.2 v)
    (hconverts : convertHash path entries = .ok outs) :
    List.Forall₂ ImageEntry entries outs := by
  induction entries generalizing outs with
  | nil =>
    cases hconverts
    exact .nil
  | cons p entries ih =>
    obtain ⟨hp, hentries⟩ := List.forall_mem_cons.1 h
    obtain ⟨keyRef, hkey, hrest⟩ := Fallible.bind_eq_ok.1 hconverts
    obtain ⟨v, hv, hrest⟩ := Fallible.bind_eq_ok.1 hrest
    obtain ⟨vs, hvs, hpure⟩ := Fallible.bind_eq_ok.1 hrest
    cases hpure
    exact .cons (.mk (extractHashKey_ok.1 hkey) (hp _ _ hv)) (ih hentries hvs)

theorem image_of_converts {r : RubyValue} {path : List PathSegment} {v : OwnedValue}
    (h : convertRubyValue path r = .ok v) : Image r v := by
  induction r generalizing path v with
  | nil =>
    cases h
    exact .nil
  | bool b =>
    cases h
    exact .bool b
  | float f =>
    cases h
    exact .float f
  | integer i =>
    obtain ⟨n, hn, hpure⟩ := Fallible.bind_eq_ok.1 h
    cases hpure
    exact num2ll_ok.1 hn ▸ .integer n
  | string basic bytes =>
    obtain ⟨s, hs, hpure⟩ := Fallible.bind_eq_ok.1 h
    cases hpure
    exact allocStrFromBytes_ok.1 hs ▸ .string basic s
  | symbol bytes =>
    obtain ⟨s, hs, hpure⟩ := Fallible.bind_eq_ok.1 h
    cases hpure
    exact allocStrFromBytes_ok.1 hs ▸ .symbol s
  | array basic elements ih =>
    obtain ⟨outs, houts, hpure⟩ := Fallible.bind_eq_ok.1 h
    cases hpure
    exact .array basic (convertArray_eq_ok (fun r hr _ _ => ih r hr) houts)
  | hash basic entries ih =>
    obtain ⟨outs, houts, hpure⟩ := Fallible.bind_eq_ok.1 h
    cases hpure
    exact .hash basic (convertHash_eq_ok (fun p hp _ _ => (ih p hp).2) houts)
  | object => cases h

theorem Image.converts {r : RubyValue} {v : OwnedValue} (h : Image r v) : r.Converts v := by
  induction r generalizing v with
  | nil | bool | float =>
    cases h
    exact fun _ => rfl
  | integer i =>
    cases h with
    | integer n =>
      intro path
      rw [convertRubyValue, num2ll_toInt]
      rfl
  | string basic bytes =>
    cases h with
    | string _ s =>
      intro path
      rw [convertRubyValue, allocStrFromBytes_ok.2 rfl]
      rfl
  | symbol bytes =>
    cases h with
    | symbol s =>
      intro path
      rw [convertRubyValue, allocStrFromBytes_ok.2 rfl]
      rfl
  | array basic elements ih =>
    cases h with
    | array _ h =>
      have hconverts := ((List.forall₂_and_left _ _).2 ⟨ih, h⟩).imp fun _ _ h => h.1 h.2
      intro path
      rw [convertRubyValue, convertArray_ok hconverts]
      rfl
  | hash basic entries ih =>
    cases h with
    | hash _ h =>
      have hconverts := ((List.forall₂_and_left _ _).2 ⟨ih, h⟩).imp (S := EntryConverts) ?_
      · intro path
        rw [convertRubyValue, convertHash_ok hconverts]
        rfl
      · rintro p q ⟨ih, hentry⟩
        cases hentry with
        | mk hkey hvalue => exact ⟨hkey.extracts, ih.2 hvalue⟩
  | object => cases h

/-- What converts is what has an image, which it converts to. -/
theorem convertRubyValue_eq_ok {r : RubyValue} {path : List PathSegment} {v : OwnedValue} :
    convertRubyValue path r = .ok v ↔ Image r v :=
  ⟨image_of_converts, fun h => h.converts path⟩

theorem prepareJson_ok {input : RubyValue} {prepared : PreparedInput}
    (h : prepareJson input = .ok prepared) :
    ∃ basic bytes source, input = .string basic bytes ∧ prepared = .json source := by
  obtain ⟨text, htext, h⟩ := Fallible.bind_eq_ok.1 h
  cases input with
  | string basic bytes =>
    cases text with
    | some source =>
      cases h
      exact ⟨basic, bytes, source, rfl, rfl⟩
    | none => cases h
  | _ =>
    cases htext
    cases h

theorem convertOwned_ok {input : RubyValue} {prepared : PreparedInput}
    (h : convertOwned input = .ok prepared) : ∃ v, prepared = .owned v ∧ Image input v := by
  obtain ⟨v, hv, h⟩ := Fallible.bind_eq_ok.1 h
  cases h
  exact ⟨v, rfl, convertRubyValue_eq_ok.1 hv⟩

/-- What is accepted is the text of a JSON document or has an image. -/
theorem prepareInput_ok {input : RubyValue} {mode : InputMode} {prepared : PreparedInput}
    (h : prepareInput input mode = .ok prepared) :
    (∃ basic bytes source, input = .string basic bytes ∧ prepared = .json source) ∨
      ∃ v, prepared = .owned v ∧ Image input v := by
  cases mode with
  | json => exact .inl (prepareJson_ok h)
  | ruby => exact .inr (convertOwned_ok h)
  | auto =>
    simp only [prepareInput] at h
    split at h
    next => exact .inl (prepareJson_ok h)
    next => exact .inr (convertOwned_ok h)

theorem Image.prepared_hash {basic : RBasic} {entries : List (RubyValue × RubyValue)}
    {v : OwnedValue} (h : Image (.hash basic entries) v) :
    prepareInput (.hash basic entries) .auto = .ok (.owned v) := by
  rw [prepareInput, convertOwned, h.converts]
  · rfl
  · intro basic bytes h
    cases h

end RustlyCore
