import Mathlib.Data.List.Basic

/-!
# Runs of writes

A store is known by what is found under each key, and a write changes one key. After a run of
writes a key holds what was written to it last. So every write is found in the end exactly if the
writes to one key agree.
-/

namespace RustlyCore

section
variable {κ κ' α : Type*} {writes writes' : List (κ × α)}

/-- What is written to one key is one value. -/
def Agree (writes : List (κ × α)) : Prop :=
  ∀ w ∈ writes, ∀ w' ∈ writes, w.1 = w'.1 → w.2 = w'.2

theorem Agree.append (h : Agree writes) (h' : Agree writes')
    (hne : ∀ w ∈ writes, ∀ w' ∈ writes', w.1 ≠ w'.1) : Agree (writes ++ writes') := by
  intro w hw w' hw' heq
  obtain hw | hw := List.mem_append.1 hw <;> obtain hw' | hw' := List.mem_append.1 hw'
  · exact h w hw w' hw' heq
  · exact absurd heq (hne w hw w' hw')
  · exact absurd heq.symm (hne w' hw' w hw)
  · exact h' w hw w' hw' heq

/-- Writes under renamed keys. -/
theorem Agree.map (h : Agree writes) {f : κ → κ'} (hf : Function.Injective f) :
    Agree (writes.map (Prod.map f id)) := by
  intro w hw w' hw' heq
  obtain ⟨u, hu, rfl⟩ := List.mem_map.1 hw
  obtain ⟨u', hu', rfl⟩ := List.mem_map.1 hw'
  exact h u hu u' hu' (hf heq)

end

/-- Stores `σ` of values `α` under keys `κ`. -/
structure Store (σ κ α : Type*) [DecidableEq κ] where
  get : σ → κ → Option α
  set : σ → κ → α → σ
  get_set : ∀ s k a k', get (set s k a) k' = if k' = k then some a else get s k'

namespace Store

variable {σ κ α : Type*} [DecidableEq κ] (S : Store σ κ α) {writes : List (κ × α)} {k : κ}

def setAll (s : σ) : List (κ × α) → σ
  | [] => s
  | (k, a) :: writes => setAll (S.set s k a) writes

theorem setAll_append (s : σ) (writes writes' : List (κ × α)) :
    S.setAll s (writes ++ writes') = S.setAll (S.setAll s writes) writes' := by
  induction writes generalizing s with
  | nil => rfl
  | cons w writes ih => exact ih _

/-- The other keys keep what they hold. -/
theorem get_setAll_of_forall_ne (h : ∀ w ∈ writes, w.1 ≠ k) (s : σ) :
    S.get (S.setAll s writes) k = S.get s k := by
  induction writes generalizing s with
  | nil => rfl
  | cons w writes ih =>
    obtain ⟨hw, hwrites⟩ := List.forall_mem_cons.1 h
    rw [setAll, ih hwrites, get_set, if_neg (Ne.symm hw)]

theorem get_setAll_of_mem {a : α} (hmem : (k, a) ∈ writes)
    (h : ∀ w ∈ writes, w.1 = k → w.2 = a) (s : σ) : S.get (S.setAll s writes) k = some a := by
  induction writes generalizing s with
  | nil => cases hmem
  | cons w writes ih =>
    obtain ⟨hw, hwrites⟩ := List.forall_mem_cons.1 h
    by_cases hlater : ∃ w' ∈ writes, w'.1 = k
    · obtain ⟨w', hw', rfl⟩ := hlater
      exact ih (hwrites w' hw' rfl ▸ hw') hwrites _
    · -- no later write to the key, so the first one is found
      have hne : ∀ w' ∈ writes, w'.1 ≠ k := fun w' hw' heq => hlater ⟨w', hw', heq⟩
      obtain rfl | hmem := List.mem_cons.1 hmem
      · rw [setAll, S.get_setAll_of_forall_ne hne, get_set, if_pos rfl]
      · exact absurd rfl (hne _ hmem)

theorem setAll_finds_iff (s : σ) :
    (∀ w ∈ writes, S.get (S.setAll s writes) w.1 = some w.2) ↔ Agree writes := by
  constructor
  · intro h w hw w' hw' heq
    have hfound := h w hw
    rw [heq, h w' hw'] at hfound
    exact (Option.some.inj hfound).symm
  · intro h w hw
    exact S.get_setAll_of_mem hw (fun w' hw' heq => h w' hw' w hw heq) s

end Store
end RustlyCore
