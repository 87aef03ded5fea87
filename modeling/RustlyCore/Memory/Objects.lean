import RustlyCore.Lib.Memory
import RustlyCore.Lib.Pointwise
import RustlyCore.Lib.Simulation
import RustlyCore.Materialize
import RustlyCore.Validation.Conversion

/-!
# Objects in memory (the C API that `materialize.rs` calls)

Ruby objects are slots of a heap, and a container refers to its parts by their addresses. A write to
a frozen object raises. A Ruby value as a tree is what a reference denotes in a heap.
-/

namespace RustlyCore

open Memory (Keeps KeepsAll keepsAll_append keeps_set get_append get_set lt_of_get)

/-- `VALUE`. Only objects that can be frozen or written to have an address. -/
inductive Value where
  | nil
  | bool (b : Bool)
  | integer (i : Int)
  | float (f : Float)
  | symbol (bytes : ByteArray)
  | ref (address : Nat)

inductive Slot where
  | string (basic : RBasic) (bytes : ByteArray)
  | array (basic : RBasic) (items : List Value)
  | hash (basic : RBasic) (entries : List (Value × Value))
  | object (basic : RBasic) (ivars : List (String × Value))

namespace Slot

def basic : Slot → RBasic
  | string basic _ | array basic _ | hash basic _ | object basic _ => basic

def freeze : Slot → Slot
  | string basic bytes => string { basic with frozen := true } bytes
  | array basic items => array { basic with frozen := true } items
  | hash basic entries => hash { basic with frozen := true } entries
  | object basic ivars => object { basic with frozen := true } ivars

theorem freeze_freeze (s : Slot) : s.freeze.freeze = s.freeze := by cases s <;> rfl

end Slot

abbrev Heap := List Slot

abbrev HeapM (ε α : Type) := StateT Heap (Fallible RubyException ε) α

/-! ## The calls -/

section
variable {ε : Type}

/-- What a call of the API is not meant for. -/
def misuse {α : Type} : HeapM ε α := StateT.lift Fallible.undefined

/-- A new object. -/
def alloc (slot : Slot) : HeapM ε Value :=
  modifyGet fun h => (.ref h.length, h ++ [slot])

def rbCheckFrozen (basic : RBasic) : HeapM ε Unit :=
  if basic.frozen then StateT.lift (.raise .frozenError) else return

def rbAryPush : Value → Value → HeapM ε Unit
  | .ref address, item => do
    match (← get)[address]? with
    | some (.array basic items) => do
      rbCheckFrozen basic
      modify (·.set address (.array basic (items ++ [item])))
    | _ => misuse
  | _, _ => misuse

def rbIvarSet : Value → String → Value → HeapM ε Unit
  | .ref address, id, value => do
    match (← get)[address]? with
    | some (.object basic ivars) => do
      rbCheckFrozen basic
      modify (·.set address (.object basic (ivarSet ivars id value)))
    | _ => misuse
  | _, _, _ => misuse

/-- `eql?` of Strings and Symbols. -/
def Heap.sameKey (h : Heap) : Value → Value → Bool
  | .symbol s, .symbol t => s == t
  | .ref a, .ref b =>
    match h[a]?, h[b]? with
    | some (.string _ s), some (.string _ t) => s == t
    | _, _ => false
  | _, _ => false

/-- The entries with another value under a key that they have. -/
def Heap.replaceKey (h : Heap) (key value : Value) :
    List (Value × Value) → Option (List (Value × Value))
  | [] => none
  | (k, v) :: entries =>
    if h.sameKey k key then some ((k, value) :: entries)
    else (h.replaceKey key value entries).map ((k, v) :: ·)

/-- The key to store: a frozen copy of a String that is not frozen, as documented. An implementation
may store a frozen String of the same bytes that it shares. -/
def hashKey : Value → HeapM ε Value
  | .ref address => do
    match (← get)[address]? with
    | some (.string basic bytes) =>
      if basic.frozen then return .ref address
      else alloc (.string { basic with frozen := true } bytes)
    | _ => return .ref address
  | key => return key

def rbHashAset : Value → Value → Value → HeapM ε Unit
  | .ref address, key, value => do
    let h ← get
    match h[address]? with
    | some (.hash basic entries) => do
      rbCheckFrozen basic
      match h.replaceKey key value entries with
      | some entries => modify (·.set address (.hash basic entries))
      | none => do
        let key ← hashKey key
        modify (·.set address (.hash basic (entries ++ [(key, value)])))
    | _ => misuse
  | _, _, _ => misuse

def rbObjFreeze : Value → HeapM ε Unit
  | .ref address => do
    match (← get)[address]? with
    | some slot => modify (·.set address slot.freeze)
    | none => misuse
  | _ => return

end

/-! ## What a reference denotes -/

mutual
/-- In the heap, from this address on, the reference is to this tree. Parts lie behind the container
that they are in. Plain objects are no part of a tree. -/
def Heap.Denotes (h : Heap) (n : Nat) (value : Value) : RubyValue → Prop
  | .nil => value = .nil
  | .bool b => value = .bool b
  | .integer i => value = .integer i
  | .float f => value = .float f
  | .symbol bytes => value = .symbol bytes
  | .string basic bytes => ∃ a, n ≤ a ∧ value = .ref a ∧ h[a]? = some (.string basic bytes)
  | .array basic elements => ∃ a items, n ≤ a ∧ value = .ref a ∧
      h[a]? = some (.array basic items) ∧ h.DenotesItems (a + 1) items elements
  | .hash basic pairs => ∃ a entries, n ≤ a ∧ value = .ref a ∧
      h[a]? = some (.hash basic entries) ∧ h.DenotesEntries (a + 1) entries pairs
  | .object _ _ => False

def Heap.DenotesItems (h : Heap) (n : Nat) : List Value → List RubyValue → Prop
  | item :: items, element :: elements => h.Denotes n item element ∧ h.DenotesItems n items elements
  | [], [] => True
  | _, _ => False

def Heap.DenotesEntries (h : Heap) (n : Nat) :
    List (Value × Value) → List (RubyValue × RubyValue) → Prop
  | (k, v) :: entries, (key, value) :: pairs =>
    (h.Denotes n k key ∧ h.Denotes n v value) ∧ h.DenotesEntries n entries pairs
  | [], [] => True
  | _, _ => False
end

namespace Heap

def DenotesEntry (h : Heap) (n : Nat) (p : Value × Value) (q : RubyValue × RubyValue) : Prop :=
  h.Denotes n p.1 q.1 ∧ h.Denotes n p.2 q.2

variable {h h' : Heap} {n : Nat}

theorem denotesItems_iff {items : List Value} {elements : List RubyValue} :
    h.DenotesItems n items elements ↔ List.Forall₂ (h.Denotes n) items elements := by
  induction items generalizing elements with
  | nil => cases elements <;> simp [DenotesItems]
  | cons item items ih => cases elements <;> simp [DenotesItems, ih]

theorem denotesEntries_iff {entries : List (Value × Value)} {pairs : List (RubyValue × RubyValue)} :
    h.DenotesEntries n entries pairs ↔ List.Forall₂ (h.DenotesEntry n) entries pairs := by
  induction entries generalizing pairs with
  | nil => cases pairs <;> simp [DenotesEntries]
  | cons p entries ih => cases pairs <;> simp [DenotesEntries, DenotesEntry, ih]

theorem denotes_array_iff {value : Value} {basic : RBasic} {elements : List RubyValue} :
    h.Denotes n value (.array basic elements) ↔ ∃ a items, n ≤ a ∧ value = .ref a ∧
      h[a]? = some (.array basic items) ∧ List.Forall₂ (h.Denotes (a + 1)) items elements := by
  simp only [Denotes, denotesItems_iff]

theorem denotes_hash_iff {value : Value} {basic : RBasic} {pairs : List (RubyValue × RubyValue)} :
    h.Denotes n value (.hash basic pairs) ↔ ∃ a entries, n ≤ a ∧ value = .ref a ∧
      h[a]? = some (.hash basic entries) ∧ List.Forall₂ (h.DenotesEntry (a + 1)) entries pairs := by
  simp only [Denotes, denotesEntries_iff]

theorem Denotes.mono {m : Nat} {value : Value} {t : RubyValue} (ht : h.Denotes n value t)
    (hle : m ≤ n) : h.Denotes m value t := by
  cases t with
  | string basic bytes =>
    obtain ⟨a, ha, hrest⟩ := ht
    exact ⟨a, Nat.le_trans hle ha, hrest⟩
  | array basic elements =>
    obtain ⟨a, items, ha, hrest⟩ := ht
    exact ⟨a, items, Nat.le_trans hle ha, hrest⟩
  | hash basic pairs =>
    obtain ⟨a, entries, ha, hrest⟩ := ht
    exact ⟨a, entries, Nat.le_trans hle ha, hrest⟩
  | _ => exact ht

/-- Trees hold no plain object. -/
theorem Denotes.not_object {value : Value} {basic : RBasic} {ivars : List (String × RubyValue)} :
    ¬ h.Denotes n value (.object basic ivars) := id

/-- Whatever keeps the slots from an address on keeps what is denoted from there. -/
theorem Denotes.keeps {value : Value} {t : RubyValue} (ht : h.Denotes n value t)
    (hk : Keeps (n ≤ ·) h h') : h'.Denotes n value t := by
  induction t generalizing n value with
  | string basic bytes =>
    obtain ⟨a, ha, rfl, hslot⟩ := ht
    exact ⟨a, ha, rfl, hk a ha _ hslot⟩
  | array basic elements ih =>
    obtain ⟨a, items, ha, rfl, hslot, hitems⟩ := denotes_array_iff.1 ht
    refine denotes_array_iff.2 ⟨a, items, ha, rfl, hk a ha _ hslot, ?_⟩
    have hk' : Keeps (a + 1 ≤ ·) h h' := hk.mono fun b hb => by omega
    exact forall₂_imp_mem hitems fun _ _ t ht hdenotes => ih t ht hdenotes hk'
  | hash basic pairs ih =>
    obtain ⟨a, entries, ha, rfl, hslot, hentries⟩ := denotes_hash_iff.1 ht
    refine denotes_hash_iff.2 ⟨a, entries, ha, rfl, hk a ha _ hslot, ?_⟩
    have hk' : Keeps (a + 1 ≤ ·) h h' := hk.mono fun b hb => by omega
    refine forall₂_imp_mem hentries fun _ _ q hq hdenotes => ?_
    exact ⟨(ih q hq).1 hdenotes.1 hk', (ih q hq).2 hdenotes.2 hk'⟩
  | object => exact absurd ht Denotes.not_object
  | _ => exact ht

theorem DenotesEntry.keeps {p : Value × Value} {q : RubyValue × RubyValue}
    (hpq : h.DenotesEntry n p q) (hk : Keeps (n ≤ ·) h h') : h'.DenotesEntry n p q :=
  ⟨hpq.1.keeps hk, hpq.2.keeps hk⟩

/-- References are the same key where the trees are. -/
theorem Denotes.sameKey {m : Nat} {k k' : Value} {key key' : RubyValue} (hk : h.Denotes m k key)
    (hk' : h.Denotes n k' key') : h.sameKey k k' = key.sameKey key' := by
  cases key with
  | string basic s =>
    obtain ⟨a, -, rfl, ha⟩ := hk
    cases key' with
    | string basic' t =>
      obtain ⟨b, -, rfl, hb⟩ := hk'
      rw [Heap.sameKey, ha, hb]
      rfl
    | array | hash =>
      obtain ⟨b, _, -, rfl, hb, -⟩ := hk'
      rw [Heap.sameKey, ha, hb]
      rfl
    | object => exact absurd hk' not_object
    | _ =>
      cases hk'
      rfl
  | array | hash =>
    obtain ⟨a, _, -, rfl, ha, -⟩ := hk
    cases k' with
    | ref b =>
      rw [Heap.sameKey, ha]
      rfl
    | _ => rfl
  | object => exact absurd hk not_object
  | symbol s =>
    cases hk
    cases key' with
    | string =>
      obtain ⟨b, -, rfl, -⟩ := hk'
      rfl
    | array | hash =>
      obtain ⟨b, _, -, rfl, -⟩ := hk'
      rfl
    | object => exact absurd hk' not_object
    | _ =>
      cases hk'
      rfl
  | _ =>
    cases hk
    rfl

end Heap

/-! ## What the calls do -/

section
variable {ε : Type} {h : Heap} {a : Nat} {klass : String}

theorem run_alloc (slot : Slot) :
    (alloc slot : HeapM ε Value).run h = .ok (.ref h.length, h ++ [slot]) := rfl

theorem run_rbObjFreeze {slot : Slot} (hslot : h[a]? = some slot) :
    (rbObjFreeze (.ref a) : HeapM ε Unit).run h = .ok ((), h.set a slot.freeze) := by
  simp [rbObjFreeze, hslot]

/-- An element joins the array. -/
theorem run_rbAryPush {elements : List RubyValue}
    (harray : h.Denotes a (.ref a) (.array ⟨klass, false⟩ elements)) {item : Value} {t : RubyValue}
    (hitem : h.Denotes (a + 1) item t) :
    ∃ h', (rbAryPush (.ref a) item : HeapM ε Unit).run h = .ok ((), h') ∧ Keeps (· ≠ a) h h' ∧
      h'.Denotes a (.ref a) (.array ⟨klass, false⟩ (elements ++ [t])) := by
  obtain ⟨_, items, -, heq, hslot, hitems⟩ := Heap.denotes_array_iff.1 harray
  cases heq
  have hk := keeps_set h a (.array ⟨klass, false⟩ (items ++ [item]))
  have hlater : Keeps (a + 1 ≤ ·) h (h.set a (.array ⟨klass, false⟩ (items ++ [item]))) :=
    hk.mono fun b hb => by omega
  refine ⟨_, by simp [rbAryPush, hslot, rbCheckFrozen], hk, Heap.denotes_array_iff.2
    ⟨a, _, Nat.le_refl a, rfl, get_set (lt_of_get hslot) _, ?_⟩⟩
  apply List.rel_append
  · exact hitems.imp fun _ _ hdenotes => hdenotes.keeps hlater
  · exact .cons (hitem.keeps hlater) .nil

/-- Either the key is there and its value is replaced, or the entry is new. -/
theorem Heap.replaceKey_denotes {n m : Nat} {entries : List (Value × Value)}
    {pairs : List (RubyValue × RubyValue)}
    (hentries : List.Forall₂ (h.DenotesEntry n) entries pairs) {k v : Value}
    {key value : RubyValue} (hk : h.Denotes m k key) (hv : h.Denotes n v value) :
    (∃ entries', h.replaceKey k v entries = some entries' ∧
        List.Forall₂ (h.DenotesEntry n) entries' (hashAset pairs key value)) ∨
      h.replaceKey k v entries = none ∧
        hashAset pairs key value = pairs ++ [(key.freeze, value)] := by
  induction hentries with
  | nil => exact .inr ⟨rfl, rfl⟩
  | @cons p q entries pairs hpq hentries ih =>
    obtain ⟨hkey, hvalue⟩ := hpq
    rw [Heap.replaceKey, hashAset, hkey.sameKey hk]
    split
    next => exact .inl ⟨_, rfl, .cons ⟨hkey, hv⟩ hentries⟩
    next =>
      obtain ⟨entries', hreplace, hrel⟩ | ⟨hreplace, hnew⟩ := ih
      · rw [hreplace]
        exact .inl ⟨_, rfl, .cons ⟨hkey, hvalue⟩ hrel⟩
      · rw [hreplace, hnew]
        exact .inr ⟨rfl, rfl⟩

/-- The key that is stored is frozen, and other objects stay as they are. -/
theorem run_hashKey {n : Nat} {k : Value} {key : RubyValue} (hk : h.Denotes n k key)
    (hn : n ≤ h.length) (htext : key.isText = true) :
    ∃ k' h', (hashKey k : HeapM ε Value).run h = .ok (k', h') ∧ KeepsAll h h' ∧
      h'.Denotes n k' key.freeze := by
  cases key with
  | string basic bytes =>
    obtain ⟨a, ha, rfl, hslot⟩ := hk
    cases hfrozen : basic.frozen with
    | true =>
      refine ⟨.ref a, h, by simp [hashKey, hslot, hfrozen], .refl _ h, a, ha, rfl, ?_⟩
      rw [hslot, ← hfrozen]
    | false =>
      refine ⟨_, h ++ [.string ⟨basic.klass, true⟩ bytes],
        by simp [hashKey, hslot, hfrozen, run_alloc], keepsAll_append h _, _, hn, rfl, ?_⟩
      exact get_append h _
  | symbol bytes =>
    cases hk
    exact ⟨_, h, rfl, .refl _ h, rfl⟩
  | _ => cases htext

/-- An entry is set in the hash. -/
theorem run_rbHashAset {pairs : List (RubyValue × RubyValue)}
    (hhash : h.Denotes a (.ref a) (.hash ⟨klass, false⟩ pairs)) {k v : Value}
    {key value : RubyValue} (hk : h.Denotes (a + 1) k key) (htext : key.isText = true)
    (hv : h.Denotes (a + 1) v value) :
    ∃ h', (rbHashAset (.ref a) k v : HeapM ε Unit).run h = .ok ((), h') ∧ Keeps (· ≠ a) h h' ∧
      h'.Denotes a (.ref a) (.hash ⟨klass, false⟩ (hashAset pairs key value)) := by
  obtain ⟨_, entries, -, heq, hslot, hentries⟩ := Heap.denotes_hash_iff.1 hhash
  cases heq
  have hlt := lt_of_get hslot
  obtain ⟨entries', hreplace, hrel⟩ | ⟨hreplace, hnew⟩ :=
    Heap.replaceKey_denotes hentries hk hv
  · have hset := keeps_set h a (.hash ⟨klass, false⟩ entries')
    have hlater : Keeps (a + 1 ≤ ·) h (h.set a (.hash ⟨klass, false⟩ entries')) :=
      hset.mono fun b hb => by omega
    refine ⟨_, by simp [rbHashAset, hslot, rbCheckFrozen, hreplace], hset,
      Heap.denotes_hash_iff.2 ⟨a, entries', Nat.le_refl a, rfl, get_set hlt _, ?_⟩⟩
    exact hrel.imp fun _ _ hdenotes => hdenotes.keeps hlater
  · obtain ⟨k', h', hrun, hkept, hk'⟩ := run_hashKey (ε := ε) hk hlt htext
    have hlt' := lt_of_get (hkept a trivial _ hslot)
    have hset := keeps_set h' a (.hash ⟨klass, false⟩ (entries ++ [(k', v)]))
    have hlater : Keeps (a + 1 ≤ ·) h' (h'.set a (.hash ⟨klass, false⟩ (entries ++ [(k', v)]))) :=
      hset.mono fun b hb => by omega
    refine ⟨_, by simp [rbHashAset, hslot, rbCheckFrozen, hreplace, hrun],
      (hkept.keeps _).trans hset,
      Heap.denotes_hash_iff.2 ⟨a, _, Nat.le_refl a, rfl, get_set hlt' _, ?_⟩⟩
    rw [hnew]
    apply List.rel_append
    · exact hentries.imp fun _ _ hdenotes => hdenotes.keeps ((hkept.keeps _).trans hlater)
    · exact .cons ⟨hk'.keeps hlater, hv.keeps ((hkept.keeps _).trans hlater)⟩ .nil

end
end RustlyCore
