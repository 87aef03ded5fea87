import Mathlib.Data.List.Basic

/-!
# Memories

A memory is a list of cells, which are allocated at its end and never freed. What a step leaves as
it is is given by the addresses that it keeps.
-/

namespace RustlyCore.Memory

variable {C : Type*} {P Q : Nat → Prop} {h h' h'' : List C} {a : Nat} {c : C}

/-- The cells at these addresses stay as they are. -/
def Keeps (P : Nat → Prop) (h h' : List C) : Prop :=
  ∀ a, P a → ∀ c, h[a]? = some c → h'[a]? = some c

abbrev KeepsAll (h h' : List C) : Prop := Keeps (fun _ => True) h h'

theorem Keeps.refl (P : Nat → Prop) (h : List C) : Keeps P h h := fun _ _ _ hc => hc

theorem Keeps.trans (hk : Keeps P h h') (hk' : Keeps P h' h'') : Keeps P h h'' := by
  intro a ha c hc
  exact hk' a ha c (hk a ha c hc)

theorem Keeps.mono (hk : Keeps Q h h') (hPQ : ∀ a, P a → Q a) : Keeps P h h' :=
  fun a ha => hk a (hPQ a ha)

theorem KeepsAll.keeps (hk : KeepsAll h h') (P : Nat → Prop) : Keeps P h h' :=
  hk.mono fun _ _ => trivial

theorem lt_of_get (hc : h[a]? = some c) : a < h.length := (List.getElem?_eq_some_iff.1 hc).1

/-- What keeps the cells below the end keeps them all. -/
theorem Keeps.all (hk : Keeps (· < h.length) h h') : KeepsAll h h' :=
  fun a _ c hc => hk a (lt_of_get hc) c hc

/-- The first address behind the end held nothing before. -/
theorem Keeps.length_le (hk : Keeps P h h') (hP : P h'.length) : h.length ≤ h'.length := by
  by_contra hlt
  have hlast := List.getElem?_eq_getElem (Nat.not_le.1 hlt)
  exact absurd (lt_of_get (hk _ hP _ hlast)) (Nat.lt_irrefl _)

theorem keepsAll_append (h new : List C) : KeepsAll h (h ++ new) := by
  intro a _ c hc
  rw [List.getElem?_append_left (lt_of_get hc), hc]

theorem get_append (h : List C) (c : C) : (h ++ [c])[h.length]? = some c :=
  List.getElem?_concat_length

theorem keeps_set (h : List C) (a : Nat) (c : C) : Keeps (· ≠ a) h (h.set a c) := by
  intro b hb d hd
  rw [List.getElem?_set_ne hb.symm, hd]

theorem get_set (ha : a < h.length) (c : C) : (h.set a c)[a]? = some c :=
  List.getElem?_set_self ha

/-! ## Marks -/

variable {mark : C → C} {n : Nat}

/-- From an address on, cells may have been marked. -/
structure Marks (mark : C → C) (n : Nat) (h h' : List C) : Prop where
  length_eq : h'.length = h.length
  cell : ∀ a c, h[a]? = some c → h'[a]? = some c ∨ n ≤ a ∧ h'[a]? = some (mark c)

theorem Marks.refl (mark : C → C) (n : Nat) (h : List C) : Marks mark n h h :=
  ⟨rfl, fun _ _ hc => .inl hc⟩

theorem Marks.trans (hmark : ∀ c, mark (mark c) = mark c) (hm : Marks mark n h h')
    (hm' : Marks mark n h' h'') : Marks mark n h h'' := by
  refine ⟨hm'.length_eq.trans hm.length_eq, ?_⟩
  intro a c hc
  obtain hkept | ⟨hle, hmarked⟩ := hm.cell a c hc
  · exact hm'.cell a c hkept
  · obtain hkept' | ⟨-, hmarked'⟩ := hm'.cell a _ hmarked
    · exact .inr ⟨hle, hkept'⟩
    · rw [hmark] at hmarked'
      exact .inr ⟨hle, hmarked'⟩

theorem Marks.mono {n' : Nat} (hm : Marks mark n' h h') (hle : n ≤ n') : Marks mark n h h' := by
  refine ⟨hm.length_eq, ?_⟩
  intro a c hc
  obtain hkept | ⟨hle', hmarked⟩ := hm.cell a c hc
  · exact .inl hkept
  · exact .inr ⟨Nat.le_trans hle hle', hmarked⟩

/-- Below, nothing has been marked. -/
theorem Marks.keeps (hm : Marks mark n h h') : Keeps (· < n) h h' := by
  intro a ha c hc
  obtain hkept | ⟨hle, -⟩ := hm.cell a c hc
  · exact hkept
  · exact absurd ha (Nat.not_lt.2 hle)

theorem marks_set (hc : h[a]? = some c) (mark : C → C) (hle : n ≤ a) :
    Marks mark n h (h.set a (mark c)) := by
  refine ⟨List.length_set, ?_⟩
  intro b d hd
  by_cases hb : b = a
  · subst hb
    cases hc.symm.trans hd
    exact .inr ⟨hle, get_set (lt_of_get hc) _⟩
  · exact .inl (keeps_set h a _ b hb d hd)

end RustlyCore.Memory
