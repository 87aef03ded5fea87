import RustlyCore.Instance
import RustlyCore.Memory.Values

/-!
# Freezing in memory (`deep_freeze_value`)

Freezing visits the parts of an array or a hash one after the other. Objects may be shared, so a
part may have been frozen, or partly so, before it is visited. What has been frozen stays as it is.
-/

namespace RustlyCore

open Memory

abbrev Freezes (n : Nat) (h h' : Heap) : Prop := Marks Slot.freeze n h h'

namespace Objects

variable {ε : Type}

/-- The recursion is bounded by the number of calls inside each other. -/
def deepFreezeWithin : Nat → Value → HeapM ε Unit
  | 0, _ => misuse
  | depth + 1, value => do
    rbObjFreeze value
    match value with
    | .ref address =>
      match (← get)[address]? with
      | some (.array _ items) => items.forM (deepFreezeWithin depth)
      | some (.hash _ entries) => entries.forM fun entry => do
        deepFreezeWithin depth entry.1
        deepFreezeWithin depth entry.2
      | _ => return
    | _ => return

/-- No value is deeper than there are objects, unless it contains itself. -/
def deepFreezeValue (value : Value) : HeapM ε Unit := do
  deepFreezeWithin ((← get).length + 1) value

end Objects

namespace Heap

variable {h h' : Heap} {n m : Nat}

/-- Freezing may freeze parts of a tree. -/
theorem Denotes.freezes {value : Value} {t : RubyValue} (ht : h.Denotes n value t)
    (hf : Freezes m h h') : ∃ t', h'.Denotes n value t' ∧ t'.deepFreeze = t.deepFreeze := by
  induction t generalizing n value with
  | string basic bytes =>
    obtain ⟨a, ha, rfl, hslot⟩ := ht
    obtain hslot' | ⟨-, hslot'⟩ := hf.cell a _ hslot
    · exact ⟨.string basic bytes, ⟨a, ha, rfl, hslot'⟩, rfl⟩
    · exact ⟨.string ⟨basic.klass, true⟩ bytes, ⟨a, ha, rfl, hslot'⟩, rfl⟩
  | array basic elements ih =>
    obtain ⟨a, items, ha, rfl, hslot, hitems⟩ := denotes_array_iff.1 ht
    obtain ⟨elements', hitems', halike⟩ := forall₂_exists
      (forall₂_imp_mem hitems.flip fun t ht _ _ hdenotes => ih t ht hdenotes) fun _ _ h => h
    have heq : elements'.map RubyValue.deepFreeze = elements.map RubyValue.deepFreeze :=
      (map_eq_of_forall₂ halike fun _ _ h => h.symm).symm
    rw [RubyValue.deepFreeze, RubyValue.deepFreezeItems_eq_map, ← heq,
      ← RubyValue.deepFreezeItems_eq_map]
    obtain hslot' | ⟨-, hslot'⟩ := hf.cell a _ hslot
    · exact ⟨.array basic elements', denotes_array_iff.2 ⟨a, items, ha, rfl, hslot', hitems'⟩, rfl⟩
    · exact ⟨.array ⟨basic.klass, true⟩ elements',
        denotes_array_iff.2 ⟨a, items, ha, rfl, hslot', hitems'⟩, rfl⟩
  | hash basic pairs ih =>
    obtain ⟨a, entries, ha, rfl, hslot, hentries⟩ := denotes_hash_iff.1 ht
    have hparts q (hq : q ∈ pairs) (p : Value × Value) (_ : p ∈ entries)
        (hdenotes : h.DenotesEntry (a + 1) p q) : ∃ q', h'.DenotesEntry (a + 1) p q' ∧
          q'.map RubyValue.deepFreeze RubyValue.deepFreeze =
            q.map RubyValue.deepFreeze RubyValue.deepFreeze := by
      obtain ⟨key, hkey, hkeyeq⟩ := (ih q hq).1 hdenotes.1
      obtain ⟨value, hvalue, hvalueeq⟩ := (ih q hq).2 hdenotes.2
      exact ⟨(key, value), ⟨hkey, hvalue⟩, Prod.ext hkeyeq hvalueeq⟩
    obtain ⟨pairs', hentries', halike⟩ := forall₂_exists
      (forall₂_imp_mem hentries.flip hparts) fun _ _ h => h
    have heq := (map_eq_of_forall₂ halike fun _ _ h => h.symm).symm
    rw [RubyValue.deepFreeze, RubyValue.deepFreezeEntries_eq_map, ← heq,
      ← RubyValue.deepFreezeEntries_eq_map]
    obtain hslot' | ⟨-, hslot'⟩ := hf.cell a _ hslot
    · exact ⟨.hash basic pairs', denotes_hash_iff.2 ⟨a, entries, ha, rfl, hslot', hentries'⟩, rfl⟩
    · exact ⟨.hash ⟨basic.klass, true⟩ pairs',
        denotes_hash_iff.2 ⟨a, entries, ha, rfl, hslot', hentries'⟩, rfl⟩
  | object => exact absurd ht not_object
  | nil => exact ⟨.nil, ht, rfl⟩
  | bool b => exact ⟨.bool b, ht, rfl⟩
  | integer i => exact ⟨.integer i, ht, rfl⟩
  | float f => exact ⟨.float f, ht, rfl⟩
  | symbol bytes => exact ⟨.symbol bytes, ht, rfl⟩

/-- A frozen object is not changed by freezing. -/
theorem cell_of_frozen {a : Nat} {slot : Slot} (hf : Freezes m h h') (hslot : h[a]? = some slot)
    (hfrozen : slot.freeze = slot) : h'[a]? = some slot := by
  obtain hslot' | ⟨-, hslot'⟩ := hf.cell a _ hslot
  · exact hslot'
  · rw [hslot', hfrozen]

/-- A tree that is frozen throughout stays. -/
theorem Denotes.frozen_freezes {value : Value} {t : RubyValue} (ht : h.Denotes n value t)
    (hfrozen : t.deepFreeze = t) (hf : Freezes m h h') : h'.Denotes n value t := by
  induction t generalizing n value with
  | string basic bytes =>
    obtain ⟨a, ha, rfl, hslot⟩ := ht
    obtain ⟨hbasic, -⟩ := RubyValue.string.inj hfrozen
    exact ⟨a, ha, rfl, cell_of_frozen hf hslot (congrArg (Slot.string · bytes) hbasic)⟩
  | array basic elements ih =>
    obtain ⟨a, items, ha, rfl, hslot, hitems⟩ := denotes_array_iff.1 ht
    obtain ⟨hbasic, hparts⟩ := RubyValue.deepFreeze_array_eq_self.1 hfrozen
    refine denotes_array_iff.2 ⟨a, items, ha, rfl,
      cell_of_frozen hf hslot (congrArg (Slot.array · items) hbasic), ?_⟩
    exact forall₂_imp_mem hitems fun _ _ t ht hdenotes => ih t ht hdenotes (hparts t ht)
  | hash basic pairs ih =>
    obtain ⟨a, entries, ha, rfl, hslot, hentries⟩ := denotes_hash_iff.1 ht
    obtain ⟨hbasic, hparts⟩ := RubyValue.deepFreeze_hash_eq_self.1 hfrozen
    refine denotes_hash_iff.2 ⟨a, entries, ha, rfl,
      cell_of_frozen hf hslot (congrArg (Slot.hash · entries) hbasic), ?_⟩
    refine forall₂_imp_mem hentries fun p _ q hq hdenotes => ?_
    obtain ⟨hkey, hvalue⟩ := hparts q hq
    exact ⟨(ih q hq).1 hdenotes.1 hkey, (ih q hq).2 hdenotes.2 hvalue⟩
  | object => exact absurd ht not_object
  | _ => exact ht

end Heap

/-! ## The visit -/

/-- What a loop needs to know of a kind of parts, where `D` says what a part denotes and `F` freezes
it: freezing leads to other parts that freeze to the same, and leaves what is frozen. -/
structure Freezable {β γ : Type} (D : Heap → β → γ → Prop) (F : γ → γ) : Prop where
  freezes : ∀ {m h h' b c}, D h b c → Freezes m h h' → ∃ c', D h' b c' ∧ F c' = F c
  frozen : ∀ {m h h' b c}, D h b (F c) → Freezes m h h' → D h' b (F c)

theorem freezable_denotes (n : Nat) :
    Freezable (fun h => h.Denotes n) RubyValue.deepFreeze where
  freezes ht hf := ht.freezes hf
  frozen ht hf := ht.frozen_freezes (RubyValue.deepFreeze_deepFreeze _) hf

theorem freezable_denotesEntry (n : Nat) :
    Freezable (fun h => h.DenotesEntry n) (Prod.map RubyValue.deepFreeze RubyValue.deepFreeze) where
  freezes := by
    intro m h h' p q hpq hf
    obtain ⟨hkey, hvalue⟩ := hpq
    obtain ⟨key, hkey', hkeyeq⟩ := hkey.freezes hf
    obtain ⟨value, hvalue', hvalueeq⟩ := hvalue.freezes hf
    exact ⟨(key, value), ⟨hkey', hvalue'⟩, Prod.ext hkeyeq hvalueeq⟩
  frozen := by
    intro m h h' p q hpq hf
    obtain ⟨hkey, hvalue⟩ := hpq
    exact ⟨(freezable_denotes n).frozen hkey hf, (freezable_denotes n).frozen hvalue hf⟩

section
variable {ε : Type} {β γ : Type} {D : Heap → β → γ → Prop} {F : γ → γ} {n : Nat}

/-- From an address on, the visit of a part freezes it and changes nothing before. -/
def FreezesPart (D : Heap → β → γ → Prop) (F : γ → γ) (n : Nat) (visit : β → HeapM ε Unit)
    (h : Heap) (b : β) (c : γ) : Prop :=
  ∃ h', (visit b).run h = .ok ((), h') ∧ Freezes n h h' ∧ D h' b (F c)

/-- The loop over the parts of a container. -/
theorem run_forM_freezes (hD : Freezable D F) {visit : β → HeapM ε Unit} {size : Nat}
    (hvisit : ∀ h : Heap, h.length = size → ∀ b c, D h b c → FreezesPart D F n visit h b c)
    {h : Heap} (hsize : h.length = size) {bs : List β} {cs : List γ}
    (hparts : List.Forall₂ (D h) bs cs) :
    ∃ h', (bs.forM visit).run h = .ok ((), h') ∧ Freezes n h h' ∧
      List.Forall₂ (D h') bs (cs.map F) := by
  induction bs generalizing h cs with
  | nil =>
    cases hparts
    exact ⟨h, rfl, .refl _ n h, .nil⟩
  | cons b bs ih =>
    obtain ⟨c, cs, hb, hbs, rfl⟩ := List.forall₂_cons_left_iff.1 hparts
    obtain ⟨h₁, hrun, hf, hfrozen⟩ := hvisit h hsize b c hb
    -- the parts that follow may have been frozen along
    obtain ⟨cs', hbs', halike⟩ := forall₂_exists hbs.flip (T := fun c c' => F c' = F c)
      fun c b hbc => hD.freezes hbc hf
    obtain ⟨h₂, hrun', hf', hfrozen'⟩ := ih (hf.length_eq.trans hsize) hbs'
    refine ⟨h₂, ?_, hf.trans Slot.freeze_freeze hf', ?_⟩
    · change (visit b >>= fun _ => bs.forM visit).run h = _
      rw [StateT.run_bind, hrun]
      exact hrun'
    · rw [List.map_cons, map_eq_of_forall₂ halike fun _ _ h => h.symm]
      exact .cons (hD.frozen hfrozen hf') hfrozen'

end
namespace Objects

variable {ε : Type} {h : Heap} {n : Nat}

/-- An entry is a key and a value. -/
theorem run_freezeEntry {visit : Value → HeapM ε Unit} {size : Nat}
    (hvisit : ∀ h : Heap, h.length = size → ∀ v t, h.Denotes n v t →
      FreezesPart (fun h => h.Denotes n) RubyValue.deepFreeze n visit h v t)
    (hsize : h.length = size) {p : Value × Value} {q : RubyValue × RubyValue}
    (hpq : h.DenotesEntry n p q) :
    FreezesPart (fun h => h.DenotesEntry n) (Prod.map RubyValue.deepFreeze RubyValue.deepFreeze) n
      (fun entry => do visit entry.1; visit entry.2) h p q := by
  obtain ⟨hkey, hvalue⟩ := hpq
  obtain ⟨h₁, hrun, hf, hfrozen⟩ := hvisit h hsize p.1 q.1 hkey
  obtain ⟨value, hvalue', halike⟩ := hvalue.freezes hf
  obtain ⟨h₂, hrun', hf', hfrozen'⟩ := hvisit h₁ (hf.length_eq.trans hsize) p.2 value hvalue'
  refine ⟨h₂, ?_, hf.trans Slot.freeze_freeze hf', ?_, ?_⟩
  · rw [StateT.run_bind, hrun]
    exact hrun'
  · exact (freezable_denotes n).frozen hfrozen hf'
  · rw [Prod.map_snd, ← halike]
    exact hfrozen'

/-- The object is frozen first, then its parts are visited. -/
theorem run_deepFreezeWithin_ref {a : Nat} {slot : Slot} (hslot : h[a]? = some slot) (depth : Nat) :
    (deepFreezeWithin (depth + 1) (.ref a) : HeapM ε Unit).run h =
      (match slot with
        | .array _ items => items.forM (deepFreezeWithin depth)
        | .hash _ entries => entries.forM fun entry => do
          deepFreezeWithin depth entry.1
          deepFreezeWithin depth entry.2
        | _ => return : HeapM ε Unit).run (h.set a slot.freeze) := by
  have hget := get_set (lt_of_get hslot) slot.freeze
  simp only [deepFreezeWithin, StateT.run_bind, run_rbObjFreeze hslot, Fallible.ok_bind,
    StateT.run_get, pure_bind, hget]
  cases slot <;> rfl

/-- The visit of a tree freezes it throughout and changes nothing before it. -/
theorem run_deepFreezeWithin {depth : Nat} {value : Value} {t : RubyValue}
    (ht : h.Denotes n value t) (hdepth : h.length - n < depth) :
    FreezesPart (fun h => h.Denotes n) RubyValue.deepFreeze n
      (deepFreezeWithin depth : Value → HeapM ε Unit) h value t := by
  induction depth generalizing h n value t with
  | zero => exact absurd hdepth (Nat.not_lt_zero _)
  | succ depth ih =>
    cases t with
    | string basic bytes =>
      obtain ⟨a, ha, rfl, hslot⟩ := ht
      refine ⟨_, run_deepFreezeWithin_ref hslot depth, marks_set hslot _ ha, a, ha, rfl, ?_⟩
      exact get_set (lt_of_get hslot) _
    | array basic elements =>
      obtain ⟨a, items, ha, rfl, hslot, hitems⟩ := Heap.denotes_array_iff.1 ht
      have hlt := lt_of_get hslot
      have hk := keeps_set h a (Slot.array basic items).freeze
      have hparts := hitems.imp fun _ _ h => h.keeps (hk.mono fun b hb => Nat.ne_of_gt hb)
      obtain ⟨h', hrun, hf, hfrozen⟩ := run_forM_freezes (freezable_denotes (a + 1))
        (fun h₁ hsize v t ht => ih ht (by omega)) List.length_set hparts
      refine ⟨h', (run_deepFreezeWithin_ref hslot depth).trans hrun,
        (marks_set hslot _ ha).trans Slot.freeze_freeze (hf.mono (by omega)), ?_⟩
      rw [RubyValue.deepFreeze, RubyValue.deepFreezeItems_eq_map]
      exact Heap.denotes_array_iff.2
        ⟨a, items, ha, rfl, hf.keeps a (Nat.lt_succ_self a) _ (get_set hlt _), hfrozen⟩
    | hash basic pairs =>
      obtain ⟨a, entries, ha, rfl, hslot, hentries⟩ := Heap.denotes_hash_iff.1 ht
      have hlt := lt_of_get hslot
      have hk := keeps_set h a (Slot.hash basic entries).freeze
      have hparts := hentries.imp fun _ _ h => h.keeps (hk.mono fun b hb => Nat.ne_of_gt hb)
      obtain ⟨h', hrun, hf, hfrozen⟩ := run_forM_freezes (freezable_denotesEntry (a + 1))
        (fun _ hsize _ _ => run_freezeEntry (fun _ hsize _ _ ht => ih ht (by omega)) hsize)
        List.length_set hparts
      refine ⟨h', (run_deepFreezeWithin_ref hslot depth).trans hrun,
        (marks_set hslot _ ha).trans Slot.freeze_freeze (hf.mono (by omega)), ?_⟩
      rw [RubyValue.deepFreeze, RubyValue.deepFreezeEntries_eq_map]
      exact Heap.denotes_hash_iff.2
        ⟨a, entries, ha, rfl, hf.keeps a (Nat.lt_succ_self a) _ (get_set hlt _), hfrozen⟩
    | object => exact absurd ht Heap.Denotes.not_object
    | _ =>
      cases ht
      exact ⟨h, rfl, .refl _ n h, rfl⟩

end Objects
end RustlyCore
