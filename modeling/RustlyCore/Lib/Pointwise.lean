import Mathlib.Data.List.Forall2
import Mathlib.Data.List.Perm.Basic

/-!
# Lists related element by element

A loop that maps a list and keeps its length relates the list to its result pointwise.
-/

namespace RustlyCore

variable {α β γ : Type} {R : α → β → Prop} {as : List α} {bs : List β}

theorem forall₂_mem_right (h : List.Forall₂ R as bs) : ∀ b ∈ bs, ∃ a ∈ as, R a b := by
  intro b hb
  obtain ⟨i, hi, rfl⟩ := List.getElem_of_mem hb
  have hlt : i < as.length := h.length_eq ▸ hi
  exact ⟨as[i], List.getElem_mem hlt, (List.forall₂_iff_get.1 h).2 i hlt hi⟩

theorem forall₂_mem_left (h : List.Forall₂ R as bs) : ∀ a ∈ as, ∃ b ∈ bs, R a b := by
  intro a ha
  obtain ⟨b, hb, hab⟩ := forall₂_mem_right h.flip a ha
  exact ⟨b, hb, hab⟩

theorem forall₂_imp_mem {S : α → β → Prop} (h : List.Forall₂ R as bs)
    (himp : ∀ a ∈ as, ∀ b ∈ bs, R a b → S a b) : List.Forall₂ S as bs := by
  induction h with
  | nil => exact .nil
  | @cons a b as bs hab h ih =>
    refine .cons (himp a List.mem_cons_self b List.mem_cons_self hab) (ih ?_)
    exact fun a ha b hb => himp a (List.mem_cons_of_mem _ ha) b (List.mem_cons_of_mem _ hb)

theorem optionRel_imp {S : α → β → Prop} {a : Option α} {b : Option β} (h : Option.Rel R a b)
    (himp : ∀ x y, R x y → S x y) : Option.Rel S a b := by
  cases h with
  | some hxy => exact .some (himp _ _ hxy)
  | none => exact .none

theorem forall₂_exists {S : β → γ → Prop} {T : α → γ → Prop} (hab : List.Forall₂ R as bs)
    (h : ∀ a b, R a b → ∃ c, S b c ∧ T a c) :
    ∃ cs, List.Forall₂ S bs cs ∧ List.Forall₂ T as cs := by
  induction hab with
  | nil => exact ⟨[], .nil, .nil⟩
  | cons hr _ ih =>
    obtain ⟨c, hs, ht⟩ := h _ _ hr
    obtain ⟨cs, hss, hts⟩ := ih
    exact ⟨c :: cs, .cons hs hss, .cons ht hts⟩

/-- A traversal that ends well relates every element to its image. -/
theorem forall₂_of_mapM {f : α → Option β} (h : as.mapM f = some bs) :
    List.Forall₂ (fun a b => f a = some b) as bs := by
  induction as generalizing bs with
  | nil =>
    cases h
    exact .nil
  | cons a as ih =>
    rw [List.mapM_cons] at h
    obtain ⟨b, hb, h⟩ := Option.bind_eq_some_iff.1 h
    obtain ⟨rest, hrest, h⟩ := Option.bind_eq_some_iff.1 h
    cases h
    exact .cons hb (ih hrest)

theorem mapM_congr_mem {f g : α → Option β} (h : ∀ a ∈ as, f a = g a) : as.mapM f = as.mapM g := by
  induction as with
  | nil => rfl
  | cons a as ih =>
    obtain ⟨ha, has⟩ := List.forall_mem_cons.1 h
    rw [List.mapM_cons, List.mapM_cons, ha, ih has]

/-- Two readings of the related elements that agree are equal over the lists. -/
theorem map_eq_of_forall₂ {f : α → γ} {g : β → γ} (h : List.Forall₂ R as bs)
    (hfg : ∀ a b, R a b → f a = g b) : as.map f = bs.map g := by
  induction h with
  | nil => rfl
  | cons hr _ ih => rw [List.map_cons, List.map_cons, hfg _ _ hr, ih]

/-- Two images are related where the elements they come from are good. -/
theorem forall₂_iff_forall {δ : Type} {cs : List γ} {ds : List δ} {P : α → Prop}
    {S : α → γ → Prop} {T : α → δ → Prop} {U : γ → δ → Prop} (hac : List.Forall₂ S as cs)
    (had : List.Forall₂ T as ds) (h : ∀ a c d, S a c → T a d → (U c d ↔ P a)) :
    List.Forall₂ U cs ds ↔ ∀ a ∈ as, P a := by
  induction hac generalizing ds with
  | nil =>
    cases had
    simp
  | cons hs _ ih =>
    cases had with
    | cons ht had => rw [List.forall₂_cons, List.forall_mem_cons, ih had, h _ _ _ hs ht]

/-- The same entries under the same distinct keys are in the same order. -/
theorem eq_of_perm_of_keys {entries entries' : List (α × β)} (hp : entries.Perm entries')
    (hkeys : entries.map (·.1) = entries'.map (·.1)) (hd : (entries.map (·.1)).Nodup) :
    entries = entries' := by
  induction entries generalizing entries' with
  | nil => exact hp.symm.eq_nil.symm
  | cons p entries ih =>
    cases entries' with
    | nil => exact absurd hp.eq_nil (List.cons_ne_nil _ _)
    | cons q entries' =>
      obtain ⟨-, hrest⟩ := List.cons.inj hkeys
      obtain ⟨hnot, hd⟩ := List.nodup_cons.1 hd
      obtain rfl | hmem := List.mem_cons.1 (hp.mem_iff.1 List.mem_cons_self)
      · rw [ih hp.cons_inv hrest hd]
      · exact absurd (hrest ▸ List.mem_map_of_mem hmem) hnot

theorem map_eq_self_iff {f : α → α} : as.map f = as ↔ ∀ a ∈ as, f a = a := by
  have hmap := List.map_eq_map_iff (l := as) (f := f) (g := id)
  rw [List.map_id] at hmap
  exact hmap

theorem forall₂_choose (h : ∀ a ∈ as, ∃ b, R a b) : ∃ bs, List.Forall₂ R as bs := by
  induction as with
  | nil => exact ⟨[], .nil⟩
  | cons a as ih =>
    obtain ⟨⟨b, hb⟩, has⟩ := List.forall_mem_cons.1 h
    obtain ⟨bs, hbs⟩ := ih has
    exact ⟨b :: bs, .cons hb hbs⟩

/-- Either all elements satisfy `p` or there is a first one that satisfies `q`. -/
theorem forall_or_first {p q : α → Prop} {as : List α} (h : ∀ a ∈ as, p a ∨ q a) :
    (∀ a ∈ as, p a) ∨
      ∃ before a after, as = before ++ a :: after ∧ (∀ b ∈ before, p b) ∧ q a := by
  induction as with
  | nil => exact .inl (by simp)
  | cons a as ih =>
    obtain ⟨ha, has⟩ := List.forall_mem_cons.1 h
    obtain ha | ha := ha
    · obtain hall | ⟨before, b, after, rfl, hbefore, hb⟩ := ih has
      · exact .inl (List.forall_mem_cons.2 ⟨ha, hall⟩)
      · exact .inr ⟨a :: before, b, after, rfl, List.forall_mem_cons.2 ⟨ha, hbefore⟩, hb⟩
    · exact .inr ⟨[], a, as, rfl, by simp, ha⟩

/-- The first element that does not satisfy `p` is where it is. -/
theorem first_unique {p : α → Prop} {before before' after after' : List α} {a a' : α}
    (h : before ++ a :: after = before' ++ a' :: after') (hbefore : ∀ b ∈ before, p b)
    (ha : ¬ p a) (hbefore' : ∀ b ∈ before', p b) (ha' : ¬ p a') : before = before' ∧ a = a' := by
  induction before generalizing before' with
  | nil =>
    cases before' with
    | nil => exact ⟨rfl, (List.cons.inj h).1⟩
    | cons b before' => exact absurd ((List.cons.inj h).1 ▸ hbefore' b List.mem_cons_self) ha
  | cons b before ih =>
    cases before' with
    | nil => exact absurd ((List.cons.inj h).1 ▸ hbefore b List.mem_cons_self) ha'
    | cons b' before' =>
      obtain ⟨rfl, hrest⟩ := List.cons.inj h
      obtain ⟨rfl, rfl⟩ := ih hrest (fun c hc => hbefore c (List.mem_cons_of_mem _ hc))
        fun c hc => hbefore' c (List.mem_cons_of_mem _ hc)
      exact ⟨rfl, rfl⟩

end RustlyCore
