import RustlyCore.Lib.Blocks
import RustlyCore.Validation.Engine

/-!
# Rendered paths

Behind its first segment a path is rendered in blocks that begin with a dot or a bracket. As long as
no key is empty or has such a mark in it, a path can be read back.
-/

namespace RustlyCore

/-- A key that the rendering may confuse with the end of a segment. -/
def OddKey (key : String) : Prop := key = "" ∨ '.' ∈ key.toList ∨ '[' ∈ key.toList

/-- A character that begins a segment. -/
def IsPathMark (c : Char) : Prop := c = '.' ∨ c = '['

def PathSegment.Ordinary : PathSegment → Prop
  | .key k => ¬ OddKey k
  | .index _ => True

/-- How a segment is rendered behind others. -/
def PathSegment.text : PathSegment → List Char
  | .key k => '.' :: k.toList
  | .index i => '[' :: ((toString i).toList ++ [']'])

/-- One pass of the loop. -/
def pushSegment (out : String) : PathSegment → String
  | .key k => (if out.isEmpty then out else out.push '.') ++ k
  | .index i => out.push '[' ++ toString i ++ "]"

theorem formatPath_eq_foldl (path : List PathSegment) :
    formatPath path = path.foldl pushSegment "" :=
  rfl

theorem toList_pushSegment {out : String} (hout : out ≠ "") (segment : PathSegment) :
    (pushSegment out segment).toList = out.toList ++ segment.text := by
  cases segment with
  | key k => simp [pushSegment, PathSegment.text, hout]
  | index i =>
    simp only [pushSegment, String.toList_append, String.toList_push, List.append_assoc,
      List.singleton_append]
    rfl

/-- The loop on the segments behind the first. -/
theorem toList_pushSegments (path : List PathSegment) {out : String} (hout : out ≠ "") :
    (path.foldl pushSegment out).toList = out.toList ++ path.flatMap PathSegment.text := by
  induction path generalizing out with
  | nil => simp
  | cons segment path ih =>
    have hpushed : (pushSegment out segment).toList = out.toList ++ segment.text :=
      toList_pushSegment hout segment
    have hne : pushSegment out segment ≠ "" := by
      intro hempty
      rw [hempty] at hpushed
      exact hout (String.toList_inj.1 (List.append_eq_nil_iff.1 hpushed.symm).1)
    rw [List.foldl_cons, ih hne, hpushed, List.flatMap_cons, List.append_assoc]

theorem toList_formatPath_key {key : String} (hkey : key ≠ "") (path : List PathSegment) :
    (formatPath (.key key :: path)).toList = key.toList ++ path.flatMap PathSegment.text := by
  have hfirst : pushSegment "" (.key key) = key := by simp [pushSegment]
  rw [formatPath_eq_foldl, List.foldl_cons, hfirst, toList_pushSegments path hkey]

theorem toList_formatPath_index (index : Nat) (path : List PathSegment) :
    (formatPath (.index index :: path)).toList =
      (PathSegment.index index).text ++ path.flatMap PathSegment.text := by
  have hfirst : (pushSegment "" (.index index)).toList = (PathSegment.index index).text := by
    simp [pushSegment, PathSegment.text]
  rw [formatPath_eq_foldl, List.foldl_cons, toList_pushSegments, hfirst]
  intro hempty
  rw [hempty] at hfirst
  cases hfirst

/-! ## Reading a path back -/

/-- Decimal digits give the number back. -/
theorem toString_toList_injective : Function.Injective fun n : Nat => (toString n).toList := by
  intro n n' h
  simp only [Nat.toString_eq_ofList_toDigits, String.toList_ofList] at h
  rw [← Nat.ofDigitChars_ten_toDigits (n := n), h, Nat.ofDigitChars_ten_toDigits]

theorem PathSegment.text_injective : Function.Injective PathSegment.text := by
  intro s s' h
  cases s with
  | key k =>
    cases s' with
    | key k' =>
      injection h with _ h
      rw [String.toList_inj.1 h]
    | index i => cases h
  | index i =>
    cases s' with
    | key k => cases h
    | index i' =>
      injection h with _ h
      rw [toString_toList_injective (List.append_cancel_right h)]

theorem PathSegment.text_ne_nil (s : PathSegment) : s.text ≠ [] := by
  cases s <;> exact List.cons_ne_nil _ _

theorem not_isPathMark_key {key : String} (h : ¬ OddKey key) :
    ∀ c ∈ key.toList, ¬ IsPathMark c := by
  rintro c hc (rfl | rfl)
  · exact h (.inr (.inl hc))
  · exact h (.inr (.inr hc))

theorem not_isPathMark_index (index : Nat) :
    ∀ c ∈ (toString index).toList ++ [']'], ¬ IsPathMark c := by
  intro c hc hmark
  obtain hc | hc := List.mem_append.1 hc
  · rw [Nat.toString_eq_ofList_toDigits, String.toList_ofList] at hc
    have hdigit : c.isDigit := Nat.isDigit_of_mem_toDigits (by decide) (by decide) hc
    obtain rfl | rfl := hmark <;> cases hdigit
  · obtain rfl := List.mem_singleton.1 hc
    obtain h | h := hmark <;> cases h

/-- A segment with no mark but the one it begins with. -/
def PathSegment.block : (s : PathSegment) → s.Ordinary → Block IsPathMark
  | .key k, h => ⟨'.', k.toList, .inl rfl, not_isPathMark_key h⟩
  | .index i, _ => ⟨'[', (toString i).toList ++ [']'], .inr rfl, not_isPathMark_index i⟩

theorem PathSegment.text_block {s : PathSegment} (h : s.Ordinary) : (s.block h).text = s.text := by
  cases s <;> rfl

theorem map_text_blocks {path : List PathSegment} (h : ∀ s ∈ path, s.Ordinary) :
    (path.pmap PathSegment.block h).map Block.text = path.map PathSegment.text := by
  rw [List.map_pmap, ← List.pmap_eq_map h]
  exact List.pmap_congr_left _ fun s _ hs _ => PathSegment.text_block hs

theorem blocksText_blocks {path : List PathSegment} (h : ∀ s ∈ path, s.Ordinary) :
    blocksText (path.pmap PathSegment.block h) = path.flatMap PathSegment.text := by
  rw [blocksText, List.flatMap_def, map_text_blocks, ← List.flatMap_def]

/-- Behind the first segment the text gives the path. -/
theorem flatMap_text_inj {p q : List PathSegment} (hp : ∀ s ∈ p, s.Ordinary)
    (hq : ∀ s ∈ q, s.Ordinary) (h : p.flatMap PathSegment.text = q.flatMap PathSegment.text) :
    p = q := by
  rw [← blocksText_blocks hp, ← blocksText_blocks hq] at h
  have hmap := congrArg (List.map Block.text) (blocksText_injective h)
  rw [map_text_blocks, map_text_blocks] at hmap
  exact List.map_injective_iff.2 PathSegment.text_injective hmap

/-- An index in front is told from a key in front. -/
theorem formatPath_index_ne_key {index : Nat} {key : String} (hkey : ¬ OddKey key)
    (p q : List PathSegment) : formatPath (.index index :: p) ≠ formatPath (.key key :: q) := by
  intro h
  have hne : key ≠ "" := fun hempty => hkey (.inl hempty)
  have htext := congrArg String.toList h
  rw [toList_formatPath_index, toList_formatPath_key hne] at htext
  cases hchars : key.toList with
  | nil => exact hne (String.toList_inj.1 hchars)
  | cons c cs =>
    rw [hchars] at htext
    injection htext with hc _
    exact not_isPathMark_key hkey c (hchars ▸ List.mem_cons_self) (.inr hc.symm)

theorem formatPath_ne_empty {s : PathSegment} (hs : s.Ordinary) (path : List PathSegment) :
    formatPath (s :: path) ≠ formatPath [] := by
  intro h
  have htext := congrArg String.toList h
  cases s with
  | key k =>
    have hne : k ≠ "" := fun hempty => hs (.inl hempty)
    rw [toList_formatPath_key hne] at htext
    exact hne (String.toList_inj.1 (List.append_eq_nil_iff.1 htext).1)
  | index i =>
    rw [toList_formatPath_index] at htext
    exact PathSegment.text_ne_nil _ (List.append_eq_nil_iff.1 htext).1

/-- Paths whose keys are not odd can be read back. -/
theorem formatPath_injOn : Set.InjOn formatPath {path | ∀ s ∈ path, s.Ordinary} := by
  intro p hp q hq h
  cases p with
  | nil =>
    cases q with
    | nil => rfl
    | cons s q => exact absurd h.symm (formatPath_ne_empty (hq s List.mem_cons_self) q)
  | cons s p =>
    cases q with
    | nil => exact absurd h (formatPath_ne_empty (hp s List.mem_cons_self) p)
    | cons s' q =>
      obtain ⟨hs, hp'⟩ := List.forall_mem_cons.1 hp
      obtain ⟨hs', hq'⟩ := List.forall_mem_cons.1 hq
      have htext := congrArg String.toList h
      cases s with
      | key k =>
        cases s' with
        | key k' =>
          rw [toList_formatPath_key fun hempty => hs (.inl hempty),
            toList_formatPath_key fun hempty => hs' (.inl hempty), ← blocksText_blocks hp',
            ← blocksText_blocks hq'] at htext
          obtain ⟨hkey, hrest⟩ :=
            append_blocksText_inj (not_isPathMark_key hs) (not_isPathMark_key hs') htext
          rw [blocksText_blocks, blocksText_blocks] at hrest
          rw [String.toList_inj.1 hkey, flatMap_text_inj hp' hq' hrest]
        | index i => exact absurd h.symm (formatPath_index_ne_key hs q p)
      | index i =>
        cases s' with
        | key k => exact absurd h (formatPath_index_ne_key hs' p q)
        | index i' =>
          rw [toList_formatPath_index, toList_formatPath_index] at htext
          exact flatMap_text_inj hp hq htext

/-- Two paths that are rendered alike are equal unless one has an odd key. -/
theorem formatPath_ambiguous {p q : List PathSegment} (hne : p ≠ q)
    (h : formatPath p = formatPath q) :
    ∃ key, (.key key ∈ p ∨ .key key ∈ q) ∧ (key = "" ∨ '.' ∈ key.toList ∨ '[' ∈ key.toList) := by
  by_contra hodd
  have hordinary (s : PathSegment) (hs : s ∈ p ∨ s ∈ q) : s.Ordinary := by
    cases s with
    | key k => exact fun hk => hodd ⟨k, hs, hk⟩
    | index i => trivial
  apply hne
  apply formatPath_injOn _ _ h
  · exact fun s hs => hordinary s (.inl hs)
  · exact fun s hs => hordinary s (.inr hs)

/-- `a.b` as one key and as two. -/
theorem formatPath_ambiguous_dotted :
    ∃ key, (.key key ∈ [PathSegment.key "a.b"] ∨ .key key ∈ [PathSegment.key "a", .key "b"]) ∧
      (key = "" ∨ '.' ∈ key.toList ∨ '[' ∈ key.toList) := by
  apply formatPath_ambiguous
  · decide
  · rfl

end RustlyCore
