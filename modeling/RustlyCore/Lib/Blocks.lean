import Mathlib.Data.List.Basic
import Mathlib.Data.List.Forall2
import Mathlib.Logic.Function.Basic

/-!
# Text in blocks

Two ways to see where the parts of a text end. If each part begins with a mark and has no other,
the text is read back in one way. If the parts have given lengths and a separator between them, the
text is checked position by position.
-/

namespace RustlyCore

/-! ## Parts that begin with a mark -/

section
variable {α : Type*} {mark : α → Prop}

/-- A mark and what follows it up to the next one. -/
structure Block (mark : α → Prop) where
  head : α
  body : List α
  marked : mark head
  plain : ∀ a ∈ body, ¬ mark a

def Block.text (b : Block mark) : List α := b.head :: b.body

def blocksText (bs : List (Block mark)) : List α := bs.flatMap Block.text

/-- A text without marks and the blocks after it are told apart. -/
theorem append_blocksText_inj {t t' : List α} (h : ∀ a ∈ t, ¬ mark a) (h' : ∀ a ∈ t', ¬ mark a)
    {bs bs' : List (Block mark)} (heq : t ++ blocksText bs = t' ++ blocksText bs') :
    t = t' ∧ blocksText bs = blocksText bs' := by
  have hmark {a : α} {u : List α} {cs : List (Block mark)} (h : ∀ b ∈ a :: u, ¬ mark b)
      {v : List α} : a :: v ≠ blocksText cs := by
    intro heq
    cases cs with
    | nil => cases heq
    | cons c cs =>
      cases heq
      exact h _ List.mem_cons_self c.marked
  induction t generalizing t' with
  | nil =>
    cases t' with
    | nil => exact ⟨rfl, heq⟩
    | cons a u => exact absurd heq.symm (hmark h')
  | cons a t ih =>
    cases t' with
    | nil => exact absurd heq (hmark h)
    | cons a' t' =>
      injection heq with ha htail
      obtain ⟨rfl, hblocks⟩ := ih (fun b hb => h b (List.mem_cons_of_mem _ hb))
        (fun b hb => h' b (List.mem_cons_of_mem _ hb)) htail
      exact ⟨ha ▸ rfl, hblocks⟩

theorem blocksText_injective : Function.Injective (@blocksText α mark) := by
  intro bs bs' heq
  induction bs generalizing bs' with
  | nil =>
    cases bs' with
    | nil => rfl
    | cons b bs' => cases heq
  | cons b bs ih =>
    cases bs' with
    | nil => cases heq
    | cons b' bs' =>
      injection heq with hhead htail
      obtain ⟨hbody, hblocks⟩ := append_blocksText_inj b.plain b'.plain htail
      have hb : b = b' := by
        cases b
        cases b'
        cases hhead
        cases hbody
        rfl
      rw [hb, ih hblocks]

end
/-! ## Parts with a separator between them -/

section
variable {α : Type*} {sep : α} {ok : α → Prop}

/-- The positions of the separators between parts of these lengths. -/
def separators (lengths : List Nat) : List Bool :=
  [true].intercalate (lengths.map (List.replicate · false))

/-- What may stand at a position. -/
def Stands (sep : α) (ok : α → Prop) (isSep : Bool) (a : α) : Prop :=
  if isSep then a = sep else ok a

theorem forall₂_replicate {n : Nat} {text : List α} :
    List.Forall₂ (Stands sep ok) (List.replicate n false) text ↔
      text.length = n ∧ ∀ a ∈ text, ok a := by
  induction n generalizing text with
  | zero => cases text <;> simp
  | succ n ih => cases text <;> simp [List.replicate_succ, ih, Stands, and_left_comm]

theorem forall₂_append_left {β γ : Type*} {R : β → γ → Prop} {l l' : List β} {text : List γ} :
    List.Forall₂ R (l ++ l') text ↔
      ∃ t t', text = t ++ t' ∧ List.Forall₂ R l t ∧ List.Forall₂ R l' t' := by
  constructor
  · intro h
    refine ⟨text.take l.length, text.drop l.length, (List.take_append_drop _ _).symm, ?_, ?_⟩
    · simpa using List.forall₂_take l.length h
    · simpa using List.forall₂_drop l.length h
  · rintro ⟨t, t', rfl, h, h'⟩
    exact List.rel_append h h'

/-- The text is made of parts of these lengths. -/
def HasParts (sep : α) (ok : α → Prop) (lengths : List Nat) (text : List α) : Prop :=
  ∃ parts : List (List α), parts.map List.length = lengths ∧ (∀ part ∈ parts, ∀ a ∈ part, ok a) ∧
    text = [sep].intercalate parts

theorem hasParts_nil {text : List α} : HasParts sep ok [] text ↔ text = [] := by
  constructor
  · rintro ⟨parts, hlengths, -, rfl⟩
    rw [List.map_eq_nil_iff.1 hlengths]
    rfl
  · rintro rfl
    exact ⟨[], rfl, by simp, rfl⟩

theorem hasParts_singleton {n : Nat} {text : List α} :
    HasParts sep ok [n] text ↔ text.length = n ∧ ∀ a ∈ text, ok a := by
  constructor
  · rintro ⟨parts, hlengths, hok, rfl⟩
    obtain ⟨part, rfl, hlength⟩ := List.map_eq_singleton_iff.1 hlengths
    rw [List.intercalate_singleton]
    exact ⟨hlength, hok part List.mem_cons_self⟩
  · rintro ⟨rfl, hok⟩
    exact ⟨[text], rfl, by simpa using hok, List.intercalate_singleton.symm⟩

theorem hasParts_cons_cons {n m : Nat} {lengths : List Nat} {text : List α} :
    HasParts sep ok (n :: m :: lengths) text ↔
      ∃ part rest, text = part ++ sep :: rest ∧ (part.length = n ∧ ∀ a ∈ part, ok a) ∧
        HasParts sep ok (m :: lengths) rest := by
  constructor
  · rintro ⟨parts, hlengths, hok, rfl⟩
    obtain ⟨part, parts, rfl, rfl, hrest⟩ := List.map_eq_cons_iff.1 hlengths
    obtain ⟨part', parts, rfl, -, -⟩ := List.map_eq_cons_iff.1 hrest
    refine ⟨part, _, ?_, ⟨rfl, hok _ List.mem_cons_self⟩, _, hrest,
      fun p hp => hok p (List.mem_cons_of_mem _ hp), rfl⟩
    rw [List.intercalate_cons_cons, List.append_assoc, List.singleton_append]
  · rintro ⟨part, rest, rfl, ⟨rfl, hok⟩, parts, hlengths, hoks, rfl⟩
    refine ⟨part :: parts, by rw [List.map_cons, hlengths], List.forall_mem_cons.2 ⟨hok, hoks⟩, ?_⟩
    have hne : parts ≠ [] := by
      rintro rfl
      cases hlengths
    rw [List.intercalate_cons_of_ne_nil hne, List.append_assoc, List.singleton_append]

/-- A text is made of parts exactly if at each position stands what may. -/
theorem forall₂_separators {lengths : List Nat} {text : List α} :
    List.Forall₂ (Stands sep ok) (separators lengths) text ↔ HasParts sep ok lengths text := by
  induction lengths generalizing text with
  | nil => exact List.forall₂_nil_left_iff.trans hasParts_nil.symm
  | cons n lengths ih =>
    cases lengths with
    | nil =>
      rw [hasParts_singleton, ← forall₂_replicate, separators, List.map_singleton,
        List.intercalate_singleton]
    | cons m lengths =>
      have hseps : separators (n :: m :: lengths) =
          List.replicate n false ++ true :: separators (m :: lengths) := by
        simp [separators]
      rw [hseps, forall₂_append_left, hasParts_cons_cons]
      simp only [forall₂_replicate, List.forall₂_cons_left_iff, ih]
      constructor
      · rintro ⟨part, rest, rfl, hpart, a, rest, ha, hrest, rfl⟩
        cases ha
        exact ⟨part, rest, rfl, hpart, hrest⟩
      · rintro ⟨part, rest, rfl, hpart, hrest⟩
        exact ⟨part, sep :: rest, rfl, hpart, sep, rest, rfl, hrest, rfl⟩

end

end RustlyCore
