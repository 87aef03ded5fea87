import RustlyCore.Lib.Blocks
import RustlyCore.Lib.Pointwise
import RustlyCore.Validation.Check

/-!
# The formats of strings

What a text in each format looks like. The check of a uuid compares bytes at fixed positions. Bytes
that it lets pass are ASCII, so it can be read off the characters, and the positions of the dashes
are those between groups of hex digits.
-/

namespace RustlyCore

/-- `0` to `9`, `a` to `f`, `A` to `F`. -/
def IsHexDigit (c : Char) : Prop :=
  ('0' ≤ c ∧ c ≤ '9') ∨ ('a' ≤ c ∧ c ≤ 'f') ∨ ('A' ≤ c ∧ c ≤ 'F')

def StringFormat.Admits : StringFormat → String → Prop
  | .email, s => '@' ∈ s.toList
  | .uuid, s => ∃ groups : List String, groups.map String.length = [8, 4, 4, 4, 12] ∧
    (∀ group ∈ groups, ∀ c ∈ group.toList, IsHexDigit c) ∧ s = "-".intercalate groups
  | .url, s => ∃ rest, s = "http://" ++ rest ∨ s = "https://" ++ rest

/-! ## Uuids -/

/-- A pattern that no high byte meets is one of ASCII characters. -/
theorem forall₂_bytes_iff {β : Type} {R : β → UInt8 → Prop} (hR : ∀ x b, R x b → b < 0x80)
    {l : List β} {s : String} :
    List.Forall₂ R l s.toUTF8.data.toList ↔
      List.Forall₂ (fun x c => c.toNat < 0x80 ∧ R x c.val.toUInt8) l s.toList := by
  have hmap (h : Text.isAscii s = true) :
      List.Forall₂ R l s.toUTF8.data.toList ↔
        List.Forall₂ (fun x c => R x c.val.toUInt8) l s.toList := by
    rw [Text.bytes_of_isAscii h, List.forall₂_map_right_iff]
  constructor
  · intro h
    have hs : Text.isAscii s = true := by
      apply Text.isAscii_of_bytes
      intro b hb
      obtain ⟨x, -, hx⟩ := forall₂_mem_right h b hb
      exact hR x b hx
    exact forall₂_imp_mem ((hmap hs).1 h) fun x _ c hc hx => ⟨Text.isAscii_iff.1 hs c hc, hx⟩
  · intro h
    have hs : Text.isAscii s = true := by
      apply Text.isAscii_iff.2
      intro c hc
      obtain ⟨x, -, hascii, -⟩ := forall₂_mem_right h c hc
      exact hascii
    exact (hmap hs).2 (h.imp fun x c hx => hx.2)

/-- The lengths of the groups of a uuid. -/
def uuidGroups : List Nat := [8, 4, 4, 4, 12]

/-- The dashes are checked where the groups end. -/
theorem separators_uuidGroups :
    separators uuidGroups = (List.range 36).map Validator.dashPos.contains := by
  decide

theorem all_zipIdx_iff {α : Type} {l : List α} {p : α × Nat → Bool} :
    l.zipIdx.all p = true ↔ ∀ i (h : i < l.length), p (l[i], i) = true := by
  rw [List.all_eq_true]
  constructor
  · intro h i hi
    exact h _ (List.mem_zipIdx_iff_getElem?.2 (List.getElem?_eq_getElem hi))
  · intro h x hx
    obtain ⟨hi, hget⟩ := List.getElem?_eq_some_iff.1 (List.mem_zipIdx_iff_getElem?.1 hx)
    have hp := h x.2 hi
    rwa [hget] at hp

theorem isUuid_iff_bytes {s : String} :
    Validator.isUuid s = true ↔
      List.Forall₂ (Stands 0x2D fun b => Validator.isAsciiHexdigit b = true)
        (separators uuidGroups) s.toUTF8.data.toList := by
  have hcheck (i : Nat) (b : UInt8) :
      (if Validator.dashPos.contains i then b == 0x2D else Validator.isAsciiHexdigit b) = true ↔
        Stands 0x2D (fun b => Validator.isAsciiHexdigit b = true) (Validator.dashPos.contains i)
          b := by
    cases Validator.dashPos.contains i <;> simp [Stands]
  rw [Validator.isUuid, Text.toList_eq_data_toList, Bool.and_eq_true, beq_iff_eq, all_zipIdx_iff,
    separators_uuidGroups, List.forall₂_map_left_iff, List.forall₂_iff_get]
  constructor
  · intro hparts
    obtain ⟨hlength, hbytes⟩ := hparts
    refine ⟨List.length_range.trans hlength.symm, fun i _ hi => ?_⟩
    rw [List.get_eq_getElem, List.getElem_range]
    exact (hcheck i _).1 (hbytes i hi)
  · intro hparts
    obtain ⟨hlength, hbytes⟩ := hparts
    refine ⟨hlength.symm.trans List.length_range, fun i hi => (hcheck i _).2 ?_⟩
    have hbyte := hbytes i (hlength ▸ hi) hi
    rwa [List.get_eq_getElem, List.getElem_range] at hbyte

theorem IsHexDigit.ascii {c : Char} (h : IsHexDigit c) : c.toNat < 0x80 := by
  obtain ⟨-, h⟩ | ⟨-, h⟩ | ⟨-, h⟩ := h <;> exact Nat.lt_of_le_of_lt h (by decide)

theorem toNat_toUInt8 {c : Char} (h : c.toNat < 0x80) : c.val.toUInt8.toNat = c.toNat := by
  rw [UInt32.toNat_toUInt8]
  exact Nat.mod_eq_of_lt (Nat.lt_trans h (by decide))

theorem isAsciiHexdigit_iff {c : Char} (h : c.toNat < 0x80) :
    Validator.isAsciiHexdigit c.val.toUInt8 = true ↔ IsHexDigit c := by
  have hle (low high : UInt8) :
      (low ≤ c.val.toUInt8 && c.val.toUInt8 ≤ high) = true ↔
        low.toNat ≤ c.toNat ∧ c.toNat ≤ high.toNat := by
    rw [Bool.and_eq_true, decide_eq_true_eq, decide_eq_true_eq, UInt8.le_iff_toNat_le,
      UInt8.le_iff_toNat_le, toNat_toUInt8 h]
  have hchar (low high : Char) :
      (low ≤ c ∧ c ≤ high) ↔ low.toNat ≤ c.toNat ∧ c.toNat ≤ high.toNat :=
    Iff.rfl
  rw [Validator.isAsciiHexdigit, IsHexDigit, Bool.or_eq_true, Bool.or_eq_true, hle, hle, hle, hchar,
    hchar, hchar, or_assoc]
  exact or_congr_right or_comm

/-- What may stand at a position, in bytes and in characters. -/
theorem stands_byte_iff {isSep : Bool} {c : Char} :
    (c.toNat < 0x80 ∧
      Stands 0x2D (fun b => Validator.isAsciiHexdigit b = true) isSep c.val.toUInt8) ↔
        Stands '-' IsHexDigit isSep c := by
  cases isSep with
  | true =>
    constructor
    · rintro ⟨h, hdash⟩
      have hbyte := congrArg UInt8.toNat hdash
      rw [toNat_toUInt8 h] at hbyte
      exact Char.toNat_inj.1 hbyte
    · rintro rfl
      exact ⟨by decide, rfl⟩
  | false =>
    constructor
    · rintro ⟨h, hdigit⟩
      exact (isAsciiHexdigit_iff h).1 hdigit
    · intro hdigit
      have h := IsHexDigit.ascii hdigit
      exact ⟨h, (isAsciiHexdigit_iff h).2 hdigit⟩

theorem Stands.ascii {isSep : Bool} {b : UInt8}
    (h : Stands 0x2D (fun b => Validator.isAsciiHexdigit b = true) isSep b) : b < 0x80 := by
  cases isSep with
  | true => exact h ▸ (by decide)
  | false =>
    have hdigit : Validator.isAsciiHexdigit b = true := h
    rw [Validator.isAsciiHexdigit] at hdigit
    grind

theorem isUuid_iff_hasParts {s : String} :
    Validator.isUuid s = true ↔ HasParts '-' IsHexDigit uuidGroups s.toList := by
  rw [isUuid_iff_bytes, forall₂_bytes_iff fun _ _ => Stands.ascii, ← forall₂_separators]
  exact ⟨.imp fun _ _ => stands_byte_iff.1, .imp fun _ _ => stands_byte_iff.2⟩

/-- Groups of hex digits with dashes between them. -/
theorem hasParts_iff_groups {s : String} {lengths : List Nat} :
    HasParts '-' IsHexDigit lengths s.toList ↔
      ∃ groups : List String, groups.map String.length = lengths ∧
        (∀ group ∈ groups, ∀ c ∈ group.toList, IsHexDigit c) ∧ s = "-".intercalate groups := by
  constructor
  · rintro ⟨parts, rfl, hdigits, hjoined⟩
    refine ⟨parts.map String.ofList, by simp, ?_, ?_⟩
    · intro group hgroup
      obtain ⟨part, hpart, rfl⟩ := List.mem_map.1 hgroup
      rw [String.toList_ofList]
      exact hdigits part hpart
    · rw [← String.toList_inj, String.toList_intercalate, hjoined, List.map_map]
      simp [Function.comp_def]
  · rintro ⟨groups, rfl, hdigits, rfl⟩
    refine ⟨groups.map String.toList, ?_, ?_, String.toList_intercalate⟩
    · rw [List.map_map]
      exact List.map_congr_left fun _ _ => String.length_toList
    · intro part hpart
      obtain ⟨group, hgroup, rfl⟩ := List.mem_map.1 hpart
      exact hdigits group hgroup

/-! ## All formats -/

theorem startsWith_iff {s start : String} :
    Text.startsWith s start = true ↔ ∃ rest, s = start ++ rest := by
  rw [Text.startsWith, List.isPrefixOf_iff_prefix]
  constructor
  · rintro ⟨rest, h⟩
    refine ⟨.ofList rest, ?_⟩
    rw [← String.toList_inj, String.toList_append, String.toList_ofList, h]
  · rintro ⟨rest, rfl⟩
    exact ⟨rest.toList, String.toList_append.symm⟩

theorem StringFormat.matches_iff {format : StringFormat} {s : String} :
    format.matches s = true ↔ format.Admits s := by
  cases format with
  | email => exact List.contains_iff_mem
  | uuid => exact isUuid_iff_hasParts.trans hasParts_iff_groups
  | url =>
    rw [StringFormat.matches, Validator.isUrlLike, Bool.or_eq_true, startsWith_iff, startsWith_iff,
      Admits, exists_or]

theorem StringFormat.not_matches_iff {format : StringFormat} {s : String} :
    format.matches s = false ↔ ¬ format.Admits s := by
  rw [← matches_iff, Bool.not_eq_true]

end RustlyCore
