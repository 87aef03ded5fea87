import RustlyCore.Memory.Calls
import RustlyCore.Memory.Reachable

/-!
# What Ruby code can change

Ruby code writes to any object that it gets hold of unless the object is frozen. What is frozen
throughout stays as it is.
-/

namespace RustlyCore

open Memory

namespace Heap

variable {h h' h'' : Heap} {v w : Value} {t : RubyValue} {n : Nat}

/-- Frozen objects stay. -/
def Mutates (h h' : Heap) : Prop := Keeps (fun a => h.isFrozen (.ref a) = true) h h'

theorem mutates_of_keepsAll (hk : KeepsAll h h') : Mutates h h' := hk.keeps _

/-- The value and all that is reached from it are frozen. -/
def AllFrozen (h : Heap) (v : Value) : Prop := ∀ w, h.Reaches v w → h.isFrozen w = true

theorem AllFrozen.self (hv : h.AllFrozen v) : h.isFrozen v = true := hv v (.refl v)

theorem AllFrozen.child (hv : h.AllFrozen v) (hw : w ∈ h.children v) : h.AllFrozen w :=
  fun u hu => hv u (.step hw hu)

/-- A frozen reference is to an object. -/
theorem slot_of_isFrozen {a : Nat} (ha : h.isFrozen (.ref a) = true) :
    ∃ slot, h[a]? = some slot ∧ slot.basic.frozen = true := by
  rw [isFrozen] at ha
  cases hslot : h[a]? with
  | none =>
    rw [hslot] at ha
    cases ha
  | some slot =>
    rw [hslot] at ha
    exact ⟨slot, rfl, ha⟩

theorem Mutates.isFrozen (hm : Mutates h h') (hv : h.isFrozen v = true) :
    h'.isFrozen v = true := by
  cases v with
  | ref a =>
    obtain ⟨slot, hslot, hfrozen⟩ := slot_of_isFrozen hv
    rw [Heap.isFrozen, hm a hv slot hslot]
    exact hfrozen
  | _ => rfl

theorem Mutates.children (hm : Mutates h h') (hv : h.isFrozen v = true) :
    h'.children v = h.children v := by
  cases v with
  | ref a =>
    obtain ⟨slot, hslot, -⟩ := slot_of_isFrozen hv
    rw [Heap.children, Heap.children, hm a hv slot hslot, hslot]
  | _ => rfl

theorem Mutates.trans (hm : Mutates h h') (hm' : Mutates h' h'') : Mutates h h'' :=
  fun a ha slot hslot => hm' a (hm.isFrozen ha) slot (hm a ha slot hslot)

/-- Nothing else is reached afterwards. -/
theorem AllFrozen.reaches (hv : h.AllFrozen v) (hm : Mutates h h') (hreach : h'.Reaches v w) :
    h.Reaches v w := by
  induction hreach with
  | refl => exact .refl _
  | step hw _ ih =>
    rw [hm.children hv.self] at hw
    exact .step hw (ih (hv.child hw))

theorem AllFrozen.mutates (hv : h.AllFrozen v) (hm : Mutates h h') : h'.AllFrozen v :=
  fun w hw => hm.isFrozen (hv w (hv.reaches hm hw))

/-- A tree of frozen objects is the same tree afterwards. -/
theorem Denotes.mutates (ht : h.Denotes n v t) (hv : h.AllFrozen v) (hm : Mutates h h') :
    h'.Denotes n v t := by
  induction t generalizing n v with
  | string basic bytes =>
    obtain ⟨a, ha, rfl, hslot⟩ := ht
    exact ⟨a, ha, rfl, hm a hv.self _ hslot⟩
  | array basic elements ih =>
    obtain ⟨a, items, ha, rfl, hslot, hitems⟩ := denotes_array_iff.1 ht
    refine denotes_array_iff.2 ⟨a, items, ha, rfl, hm a hv.self _ hslot, ?_⟩
    refine forall₂_imp_mem hitems fun w hw t ht hdenotes => ih t ht hdenotes (hv.child ?_)
    rw [Heap.children, hslot]
    exact hw
  | hash basic pairs ih =>
    obtain ⟨a, entries, ha, rfl, hslot, hentries⟩ := denotes_hash_iff.1 ht
    refine denotes_hash_iff.2 ⟨a, entries, ha, rfl, hm a hv.self _ hslot, ?_⟩
    have hpart (p : Value × Value) (hp : p ∈ entries) (w : Value) (hw : w ∈ [p.1, p.2]) :
        h.AllFrozen w := by
      apply hv.child
      rw [Heap.children, hslot]
      exact List.mem_flatMap.2 ⟨p, hp, hw⟩
    refine forall₂_imp_mem hentries fun p hp q hq hpq => ⟨?_, ?_⟩
    · exact (ih q hq).1 hpq.1 (hpart p hp _ List.mem_cons_self)
    · exact (ih q hq).2 hpq.2 (hpart p hp _ (List.mem_cons_of_mem _ List.mem_cons_self))
  | object => exact absurd ht Denotes.not_object
  | _ => exact ht

end Heap

namespace Objects

variable {h h' : Heap} {v : Value} {r : RubyValue}

theorem DenotesInstance.mutates (hr : DenotesInstance h v r) (hv : h.AllFrozen v)
    (hm : Heap.Mutates h h') : DenotesInstance h' v r := by
  cases r with
  | object basic ivars' =>
    obtain ⟨a, ivars, rfl, hslot, hivars⟩ := hr
    refine ⟨a, ivars, rfl, hm a hv.self _ hslot, ?_⟩
    refine forall₂_imp_mem hivars fun p hp q _ hpq => ⟨hpq.1, hpq.2.mutates (hv.child ?_) hm⟩
    rw [Heap.children, hslot]
    exact List.mem_map_of_mem hp
  | _ => cases hr

/-- An instance that was materialised with `freeze: :deep`. -/
theorem allFrozen_of_materializeInstance {x : Externals} {klass : String} {attrIvar : Option String}
    {root : OwnedValue} {plan : MaterializePlan} {storeAttributes : Bool} {built : Value}
    (hrun : (materializeInstance x klass attrIvar root plan .deep storeAttributes).run h =
      .ok (built, h')) : h'.AllFrozen built := by
  obtain ⟨t, -, rfl, -, attributes, ivars', -, -, hf⟩ :=
    (materializeInstance_simulates klass attrIvar root plan .deep storeAttributes h).returns hrun
  exact hf.promises

end Objects

/-- An instance that a call returns under `freeze: :deep`. -/
theorem Request.allFrozen_outcome {x : Externals} {h : Heap} {compiled : CompiledSchema}
    {options : ValidationOptions} {result : ValidationResult} {request : Request} {v : Value}
    (hdeep : options.freeze = .deep)
    (hreply : (outcome h (request.finish x h compiled options result)).1 = .ok (.instance_ v)) :
    (outcome h (request.finish x h compiled options result)).2.AllFrozen v := by
  cases request with
  | validate => cases hreply
  | build _ _ klass | buildSynced _ _ klass =>
    rw [finish] at hreply ⊢
    rcases outcome_materialize (x := x) h compiled options klass result with
      ⟨stop, heq⟩ | ⟨w, v', h', hrun, heq⟩
    · rw [heq] at hreply
      cases hreply
    · rw [heq] at hreply ⊢
      cases hreply
      rw [hdeep] at hrun
      exact Objects.allFrozen_of_materializeInstance hrun

end RustlyCore
