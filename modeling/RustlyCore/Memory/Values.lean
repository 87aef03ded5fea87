import RustlyCore.Memory.Objects

/-!
# Building values in memory (`owned_value_to_ruby`)

An Array or a Hash is allocated empty and then filled. The objects below it are new, so filling it
changes nothing else.
-/

namespace RustlyCore.Objects

open Memory
open Fallible (Simulates)

section
variable (x : Externals)

def symbolToValue (name : String) : HeapM MaterializeError Value :=
  if Text.containsNul name then StateT.lift (.fail (.invalidSymbol name))
  else do
    let id ← StateT.lift (intern x name)
    return .symbol id.toUTF8

def attributeKeyValue (name : String) : HeapM MaterializeError Value :=
  if Text.containsNul name then StateT.lift (.fail (.invalidKey name))
  else alloc (.string ⟨"String", false⟩ name.toUTF8)

mutual
def ownedValueToRuby : OwnedValue → HeapM MaterializeError Value
  | .null => return .nil
  | .bool b => return .bool b
  | .int i => return .integer i.toInt
  | .float f => return .float f
  | .string s => alloc (.string ⟨"String", false⟩ s.toUTF8)
  | .symbol s => symbolToValue x s
  | .list items => do
    let array ← alloc (.array ⟨"Array", false⟩ [])
    pushItems array items
    return array
  | .dict map => do
    let hash ← alloc (.hash ⟨"Hash", false⟩ [])
    setEntries hash map
    return hash
  | .struct ⟨names, fields, extras⟩ => do
    let hash ← alloc (.hash ⟨"Hash", false⟩ [])
    setFields hash names fields
    setOptionalExtras hash extras
    return hash

def pushItems (array : Value) : List OwnedValue → HeapM MaterializeError Unit
  | [] => return
  | item :: items => do
    let rubyValue ← ownedValueToRuby item
    rbAryPush array rubyValue
    pushItems array items

/-- The loop of `build_hash`. -/
def setEntries (hash : Value) : List (String × OwnedValue) → HeapM MaterializeError Unit
  | [] => return
  | (key, value) :: map => do
    let symbol ← symbolToValue x key
    let rubyValue ← ownedValueToRuby value
    rbHashAset hash symbol rubyValue
    setEntries hash map

def setFields (hash : Value) :
    List String → List (Option OwnedValue) → HeapM MaterializeError Unit
  | name :: names, some value :: fields => do
    let rubyValue ← ownedValueToRuby value
    let key ← symbolToValue x name
    rbHashAset hash key rubyValue
    setFields hash names fields
  | _ :: names, none :: fields => setFields hash names fields
  | _, _ => return

def setOptionalExtras (hash : Value) :
    Option (List (String × OwnedValue)) → HeapM MaterializeError Unit
  | none => return
  | some extras => setExtras hash extras

def setExtras (hash : Value) : List (String × OwnedValue) → HeapM MaterializeError Unit
  | [] => return
  | (key, value) :: extras => do
    let rubyValue ← ownedValueToRuby value
    let keyValue ← attributeKeyValue key
    rbHashAset hash keyValue rubyValue
    setExtras hash extras
end

end

/-! ## Simulation -/

variable {x : Externals} {h h' : Heap} {a : Nat}

/-- The tree is there, made of new objects. -/
def Built (h : Heap) (t : RubyValue) (value : Value) (h' : Heap) : Prop :=
  KeepsAll h h' ∧ h'.Denotes h.length value t

theorem built_string (s : String) :
    Built h (.utf8Str s) (.ref h.length) (h ++ [.string ⟨"String", false⟩ s.toUTF8]) :=
  ⟨keepsAll_append h _, h.length, Nat.le_refl _, rfl, get_append h _⟩

theorem symbolToValue_simulates (name : String) :
    Simulates h (symbolToValue x name) (RustlyCore.symbolToValue x name) fun t value h' =>
      Built h t value h' ∧ t.isText = true := by
  rw [symbolToValue, RustlyCore.symbolToValue]
  split
  next => rfl
  next =>
    apply (Simulates.lift _).bind
    intro id id' h' hsame
    obtain ⟨rfl, rfl⟩ := hsame
    exact .pure ⟨⟨.refl _ _, rfl⟩, rfl⟩

theorem attributeKeyValue_simulates (name : String) :
    Simulates h (attributeKeyValue name) (RustlyCore.attributeKeyValue name) fun t value h' =>
      Built h t value h' ∧ t.isText = true := by
  rw [attributeKeyValue, RustlyCore.attributeKeyValue]
  split
  next => rfl
  next => exact ⟨_, _, run_alloc _, built_string name, rfl⟩

/-- The container at the address has been filled and nothing else has changed. -/
def Filled (h : Heap) (a : Nat) (t : RubyValue) (h' : Heap) : Prop :=
  Keeps (· ≠ a) h h' ∧ h'.Denotes a (.ref a) t

/-- A container that was new when it was filled. -/
theorem Filled.built {slot : Slot} {t : RubyValue} (hfilled : Filled (h ++ [slot]) h.length t h') :
    Built h t (.ref h.length) h' := by
  refine ⟨Keeps.all ?_, hfilled.2⟩
  apply ((keepsAll_append h [slot]).keeps _).trans
  exact hfilled.1.mono fun b hb => Nat.ne_of_lt hb

/-- What is built later does not touch the container. -/
theorem Built.filled {t t' : RubyValue} {value : Value} (hbuilt : Built h t value h')
    (hcontainer : h.Denotes a (.ref a) t') : Filled h a t' h' :=
  ⟨hbuilt.1.keeps _, hcontainer.keeps (hbuilt.1.keeps _)⟩

theorem Filled.trans {t t' : RubyValue} {h'' : Heap} (hfilled : Filled h a t h')
    (hfilled' : Filled h' a t' h'') : Filled h a t' h'' :=
  ⟨hfilled.1.trans hfilled'.1, hfilled'.2⟩

theorem Built.keeps {t : RubyValue} {value : Value} {h'' : Heap} (hbuilt : Built h t value h')
    (hk : KeepsAll h' h'') : Built h t value h'' :=
  ⟨hbuilt.1.trans hk, hbuilt.2.keeps (hk.keeps _)⟩

theorem Built.after {t : RubyValue} {value : Value} {h'' : Heap} (hk : KeepsAll h h')
    (hbuilt : Built h' t value h'') : Built h t value h'' :=
  ⟨hk.trans hbuilt.1, hbuilt.2.mono (hk.length_le trivial)⟩

theorem denotes_new_array (h : Heap) :
    Heap.Denotes (h ++ [.array ⟨"Array", false⟩ []]) h.length (.ref h.length)
      (.array ⟨"Array", false⟩ []) :=
  ⟨_, _, Nat.le_refl _, rfl, get_append h _, trivial⟩

theorem denotes_new_hash (h : Heap) :
    Heap.Denotes (h ++ [.hash ⟨"Hash", false⟩ []]) h.length (.ref h.length)
      (.hash ⟨"Hash", false⟩ []) :=
  ⟨_, _, Nat.le_refl _, rfl, get_append h _, trivial⟩

theorem lt_of_denotes_hash {basic : RBasic} {pairs : List (RubyValue × RubyValue)}
    (hhash : h.Denotes a (.ref a) (.hash basic pairs)) : a < h.length := by
  obtain ⟨_, _, -, heq, hslot, -⟩ := hhash
  cases heq
  exact lt_of_get hslot

/-- An entry of new objects is set. -/
theorem run_aset_built {pairs : List (RubyValue × RubyValue)}
    (hhash : h.Denotes a (.ref a) (.hash ⟨"Hash", false⟩ pairs)) {k v : Value}
    {key value : RubyValue} (hkey : Built h key k h') (htext : key.isText = true)
    (hvalue : Built h value v h') :
    ∃ h'', (rbHashAset (.ref a) k v : HeapM MaterializeError Unit).run h' = .ok ((), h'') ∧
      Filled h a (.hash ⟨"Hash", false⟩ (hashAset pairs key value)) h'' := by
  have hlt := lt_of_denotes_hash hhash
  have hkept := hkey.filled hhash
  obtain ⟨h'', hrun, hfilled⟩ :=
    run_rbHashAset hkept.2 (hkey.2.mono hlt) htext (hvalue.2.mono hlt)
  exact ⟨h'', hrun, hkept.trans hfilled⟩

/-! ### The loops -/

def BuildsValue (x : Externals) (w : OwnedValue) : Prop :=
  ∀ h, Simulates h (ownedValueToRuby x w) (RustlyCore.ownedValueToRuby x w) (Built h)

theorem setEntries_simulates {map : OwnedDict} (ih : ∀ p ∈ map, BuildsValue x p.2) {h : Heap}
    {pairs : List (RubyValue × RubyValue)}
    (hhash : h.Denotes a (.ref a) (.hash ⟨"Hash", false⟩ pairs)) :
    Simulates h (setEntries x (.ref a) map) (buildHash x pairs map) fun pairs _ h' =>
      Filled h a (.hash ⟨"Hash", false⟩ pairs) h' := by
  induction map generalizing h pairs with
  | nil => exact .pure ⟨.refl _ h, hhash⟩
  | cons entry map ihmap =>
    obtain ⟨hvalue, hmap⟩ := List.forall_mem_cons.1 ih
    apply (symbolToValue_simulates entry.1).bind
    intro symbol k h₁ hpost
    obtain ⟨hkey, htext⟩ := hpost
    apply (hvalue h₁).bind
    intro rubyValue v h₂ hbuilt
    obtain ⟨h₃, hrun, hfilled⟩ :=
      run_aset_built hhash (hkey.keeps hbuilt.1) htext (hbuilt.after hkey.1)
    exact .step hrun ((ihmap hmap hfilled.2).imp fun _ _ _ h => hfilled.trans h)

theorem setFields_simulates {fields : List (Option OwnedValue)}
    (ih : ∀ w, some w ∈ fields → BuildsValue x w) {h : Heap} {names : List String}
    {pairs : List (RubyValue × RubyValue)}
    (hhash : h.Denotes a (.ref a) (.hash ⟨"Hash", false⟩ pairs)) :
    Simulates h (setFields x (.ref a) names fields) (fieldsToRuby x pairs names fields)
      fun pairs _ h' => Filled h a (.hash ⟨"Hash", false⟩ pairs) h' := by
  induction fields generalizing h names pairs with
  | nil => cases names <;> exact .pure ⟨.refl _ h, hhash⟩
  | cons field fields ihfields =>
    have hfields w (hw : some w ∈ fields) := ih w (List.mem_cons_of_mem _ hw)
    cases names with
    | nil => exact .pure ⟨.refl _ h, hhash⟩
    | cons name names =>
      cases field with
      | none => exact ihfields hfields hhash
      | some value =>
        apply (ih value List.mem_cons_self h).bind
        intro rubyValue v h₁ hbuilt
        apply (symbolToValue_simulates name).bind
        intro symbol k h₂ hpost
        obtain ⟨hkey, htext⟩ := hpost
        obtain ⟨h₃, hrun, hfilled⟩ :=
          run_aset_built hhash (hkey.after hbuilt.1) htext (hbuilt.keeps hkey.1)
        exact .step hrun ((ihfields hfields hfilled.2).imp fun _ _ _ h => hfilled.trans h)

theorem setExtras_simulates {extras : OwnedDict} (ih : ∀ p ∈ extras, BuildsValue x p.2) {h : Heap}
    {pairs : List (RubyValue × RubyValue)}
    (hhash : h.Denotes a (.ref a) (.hash ⟨"Hash", false⟩ pairs)) :
    Simulates h (setExtras x (.ref a) extras) (extrasToRuby x pairs extras) fun pairs _ h' =>
      Filled h a (.hash ⟨"Hash", false⟩ pairs) h' := by
  induction extras generalizing h pairs with
  | nil => exact .pure ⟨.refl _ h, hhash⟩
  | cons extra extras ihextras =>
    obtain ⟨hvalue, hextras⟩ := List.forall_mem_cons.1 ih
    apply (hvalue h).bind
    intro rubyValue v h₁ hbuilt
    apply (attributeKeyValue_simulates extra.1).bind
    intro keyValue k h₂ hpost
    obtain ⟨hkey, htext⟩ := hpost
    obtain ⟨h₃, hrun, hfilled⟩ :=
      run_aset_built hhash (hkey.after hbuilt.1) htext (hbuilt.keeps hkey.1)
    exact .step hrun ((ihextras hextras hfilled.2).imp fun _ _ _ h => hfilled.trans h)

theorem pushItems_simulates {items : List OwnedValue} (ih : ∀ w ∈ items, BuildsValue x w) {h : Heap}
    {elements : List RubyValue}
    (harray : h.Denotes a (.ref a) (.array ⟨"Array", false⟩ elements)) :
    Simulates h (pushItems x (.ref a) items) (itemsToRuby x items) fun elements' _ h' =>
      Filled h a (.array ⟨"Array", false⟩ (elements ++ elements')) h' := by
  induction items generalizing h elements with
  | nil =>
    refine .pure ⟨.refl _ h, ?_⟩
    rw [List.append_nil]
    exact harray
  | cons item items ihitems =>
    obtain ⟨hitem, hitems⟩ := List.forall_mem_cons.1 ih
    apply (hitem h).bind
    intro rubyValue v h₁ hbuilt
    have hlt : a < h.length := by
      obtain ⟨_, _, -, heq, hslot, -⟩ := harray
      cases heq
      exact lt_of_get hslot
    have hkept := hbuilt.filled harray
    obtain ⟨h₂, hrun, hfilled⟩ := run_rbAryPush hkept.2 (hbuilt.2.mono hlt)
    refine .step hrun ((ihitems hitems hfilled.2).map ?_)
    intro elements' _ h₃ hrest
    rw [List.append_assoc] at hrest
    exact (hkept.trans hfilled).trans hrest

/-- Building a value in memory ends as the conversion to a tree does, with this tree in new
objects. -/
theorem ownedValueToRuby_simulates (x : Externals) (w : OwnedValue) : BuildsValue x w := by
  intro h
  induction w generalizing h with
  | null | bool | int | float => exact .pure ⟨.refl _ h, rfl⟩
  | string s => exact ⟨_, _, run_alloc _, built_string s⟩
  | symbol s => exact (symbolToValue_simulates s).imp fun _ _ _ h => h.1
  | list items ih =>
    rw [ownedValueToRuby, RustlyCore.ownedValueToRuby]
    apply Simulates.step (run_alloc _)
    apply (pushItems_simulates ih (denotes_new_array h)).bind
    intro elements _ h' hfilled
    exact .pure hfilled.built
  | dict map ih =>
    rw [ownedValueToRuby, RustlyCore.ownedValueToRuby]
    apply Simulates.step (run_alloc _)
    apply (setEntries_simulates ih (denotes_new_hash h)).bind
    intro pairs _ h' hfilled
    exact .pure hfilled.built
  | struct names fields extras ihfields ihextras =>
    rw [ownedValueToRuby, RustlyCore.ownedValueToRuby]
    apply Simulates.step (run_alloc _)
    apply (setFields_simulates ihfields (denotes_new_hash h)).bind
    intro pairs _ h' hfilled
    cases extras with
    | none => exact .pure hfilled.built
    | some extras =>
      apply (setExtras_simulates (ihextras extras rfl) hfilled.2).bind
      intro pairs' _ h'' hfilled'
      exact .pure (hfilled.trans hfilled').built

end RustlyCore.Objects
