import RustlyCore.Lib.Regions
import RustlyCore.Memory.Conversion

/-!
# What an instance shares with older objects

Everything that a materialisation writes to or refers to is new. So the instance shares no object
with the input or with anything else from before, and later changes of the one are not seen in the
other.
-/

namespace RustlyCore

open Memory

/-! ## References -/

def Value.refs : Value → List Nat
  | .ref a => [a]
  | _ => []

/-- Only objects at these addresses are referred to. -/
def Value.From (n : Nat) (v : Value) : Prop := ∀ a ∈ v.refs, n ≤ a

theorem Value.from_of_refs {n : Nat} {v : Value} (h : v.refs = []) : v.From n := by
  rw [Value.From, h]
  exact List.forall_mem_nil _

theorem Value.from_ref {n a : Nat} : (Value.ref a).From n ↔ n ≤ a := List.forall_mem_singleton

def Slot.children : Slot → List Value
  | .array _ items => items
  | .hash _ entries => entries.flatMap fun entry => [entry.1, entry.2]
  | .object _ ivars => ivars.map (·.2)
  | .string _ _ => []

def Slot.refs (slot : Slot) : List Nat := slot.children.flatMap Value.refs

theorem Slot.forall_refs {slot : Slot} {n : Nat} :
    (∀ b ∈ slot.refs, n ≤ b) ↔ ∀ v ∈ slot.children, v.From n := by
  simp only [Slot.refs, List.mem_flatMap, Value.From]
  constructor
  · exact fun h v hv a ha => h a ⟨v, hv, ha⟩
  · intro h a hmem
    obtain ⟨v, hv, ha⟩ := hmem
    exact h v hv a ha

theorem Slot.children_freeze (slot : Slot) : slot.freeze.children = slot.children := by
  cases slot <;> rfl

theorem Heap.children_ref {h : Heap} {a : Nat} {slot : Slot} (hslot : h[a]? = some slot) :
    h.children (.ref a) = slot.children := by
  rw [Heap.children, hslot]
  cases slot <;> rfl

variable {h h' : Heap} {n a : Nat} {v w : Value}

/-- A part of an object of the region. -/
theorem Memory.Region.child {slot : Slot} (hr : Region Slot.refs n h) (ha : n ≤ a)
    (hslot : h[a]? = some slot) (hv : v ∈ slot.children) : v.From n :=
  Slot.forall_refs.1 (hr.closed a slot ha hslot) v hv

/-- What is reached from the region is in it. -/
theorem Memory.Region.reached (hr : Region Slot.refs n h) (hv : v.From n) (hreach : h.Reaches v w) :
    w.From n := by
  induction hreach with
  | refl => exact hv
  | @step v w u hw _ ih =>
    apply ih
    cases v with
    | ref a =>
      cases hslot : h[a]? with
      | some slot =>
        rw [Heap.children_ref hslot] at hw
        exact hr.child (Value.from_ref.1 hv) hslot hw
      | none =>
        rw [Heap.children, hslot] at hw
        cases hw
    | _ => cases hw

/-! ## The calls -/

namespace Objects

section
variable {ε : Type}

/-- The program writes to objects of the region only. -/
abbrev Works {α : Type} (n : Nat) (m : HeapM ε α) (Q : α → Prop) : Prop := Confined Slot.refs n m Q

theorem works_lift {α : Type} (t : Fallible RubyException ε α) :
    Works n (StateT.lift t) fun _ => True :=
  .lift fun _ _ => trivial

theorem works_misuse {α : Type} {Q : α → Prop} : Works n (misuse : HeapM ε α) Q := by
  apply Confined.lift
  intro a ha
  cases ha

theorem works_alloc {slot : Slot} (hslot : ∀ v ∈ slot.children, v.From n) :
    Works n (alloc slot : HeapM ε Value) (Value.From n) :=
  .append (Slot.forall_refs.2 hslot) fun _ => Value.from_ref.2

theorem works_alloc_empty {slot : Slot} (hslot : slot.children = []) :
    Works n (alloc slot : HeapM ε Value) (Value.From n) := by
  apply works_alloc
  rw [hslot]
  exact List.forall_mem_nil _

theorem works_rbCheckFrozen (basic : RBasic) :
    Works n (rbCheckFrozen basic : HeapM ε Unit) fun _ => True := by
  rw [rbCheckFrozen]
  split
  · exact works_lift _
  · exact .pure trivial

theorem works_write {slot : Slot} (ha : n ≤ a) (hslot : ∀ v ∈ slot.children, v.From n) :
    Works n (modify (·.set a slot) : HeapM ε Unit) fun _ => True :=
  .set ha (Slot.forall_refs.2 hslot)

theorem works_rbAryPush {array item : Value} (harray : array.From n) (hitem : item.From n) :
    Works n (rbAryPush array item : HeapM ε Unit) fun _ => True := by
  cases array with
  | ref a =>
    have ha := Value.from_ref.1 harray
    apply Confined.get_bind
    intro h hr
    split
    next basic items hslot =>
      apply (works_rbCheckFrozen basic).bind
      intro _ _
      apply works_write ha
      exact List.forall_mem_append.2
        ⟨fun v hv => hr.child ha hslot hv, List.forall_mem_singleton.2 hitem⟩
    next => exact works_misuse
  | _ => exact works_misuse

theorem mem_ivarSet {ivars : List (String × Value)} {id : String} {value : Value}
    {p : String × Value} (hp : p ∈ ivarSet ivars id value) : p ∈ ivars ∨ p.2 = value := by
  induction ivars with
  | nil =>
    cases List.mem_singleton.1 hp
    exact .inr rfl
  | cons q ivars ih =>
    rw [ivarSet] at hp
    split at hp
    · rcases List.mem_cons.1 hp with rfl | hp
      · exact .inr rfl
      · exact .inl (List.mem_cons_of_mem q hp)
    · rcases List.mem_cons.1 hp with rfl | hp
      · exact .inl List.mem_cons_self
      · exact (ih hp).imp_left (List.mem_cons_of_mem q)

theorem works_rbIvarSet {object value : Value} {id : String} (hobject : object.From n)
    (hvalue : value.From n) : Works n (rbIvarSet object id value : HeapM ε Unit) fun _ => True := by
  cases object with
  | ref a =>
    have ha := Value.from_ref.1 hobject
    apply Confined.get_bind
    intro h hr
    split
    next basic ivars hslot =>
      apply (works_rbCheckFrozen basic).bind
      intro _ _
      apply works_write ha
      intro v hv
      obtain ⟨p, hp, rfl⟩ := List.mem_map.1 hv
      rcases mem_ivarSet hp with hp | rfl
      · exact hr.child ha hslot (List.mem_map_of_mem hp)
      · exact hvalue
    next => exact works_misuse
  | _ => exact works_misuse

theorem works_hashKey {key : Value} (hkey : key.From n) :
    Works n (hashKey key : HeapM ε Value) (Value.From n) := by
  cases key with
  | ref a =>
    apply Confined.get_bind
    intro h hr
    split
    next basic bytes _ =>
      split
      · exact .pure hkey
      · exact works_alloc_empty rfl
    next => exact .pure hkey
  | _ => exact .pure hkey

/-- Both parts of each entry. -/
theorem forall_entries {entries : List (Value × Value)} :
    (∀ v ∈ entries.flatMap fun entry => [entry.1, entry.2], v.From n) ↔
      ∀ entry ∈ entries, entry.1.From n ∧ entry.2.From n := by
  simp only [List.mem_flatMap, List.mem_cons, List.not_mem_nil, or_false]
  constructor
  · exact fun h entry hentry => ⟨h _ ⟨entry, hentry, .inl rfl⟩, h _ ⟨entry, hentry, .inr rfl⟩⟩
  · intro h v hv
    obtain ⟨entry, hentry, rfl | rfl⟩ := hv
    · exact (h entry hentry).1
    · exact (h entry hentry).2

theorem forall_replaceKey {key value : Value} {entries entries' : List (Value × Value)}
    (hreplace : h.replaceKey key value entries = some entries') (hvalue : value.From n)
    (hentries : ∀ entry ∈ entries, entry.1.From n ∧ entry.2.From n) :
    ∀ entry ∈ entries', entry.1.From n ∧ entry.2.From n := by
  induction entries generalizing entries' with
  | nil => cases hreplace
  | cons entry entries ih =>
    obtain ⟨hentry, hrest⟩ := List.forall_mem_cons.1 hentries
    rw [Heap.replaceKey] at hreplace
    split at hreplace
    · cases hreplace
      exact List.forall_mem_cons.2 ⟨⟨hentry.1, hvalue⟩, hrest⟩
    · obtain ⟨rest, hreplaced, rfl⟩ := Option.map_eq_some_iff.1 hreplace
      exact List.forall_mem_cons.2 ⟨hentry, ih hreplaced hrest⟩

theorem works_rbHashAset {hash key value : Value} (hhash : hash.From n) (hkey : key.From n)
    (hvalue : value.From n) : Works n (rbHashAset hash key value : HeapM ε Unit) fun _ => True := by
  cases hash with
  | ref a =>
    have ha := Value.from_ref.1 hhash
    apply Confined.get_bind
    intro h hr
    split
    next basic entries hslot =>
      have hentries := forall_entries.1 fun v hv => hr.child ha hslot hv
      apply (works_rbCheckFrozen basic).bind
      intro _ _
      split
      next entries' hreplace =>
        exact works_write ha (forall_entries.2 (forall_replaceKey hreplace hvalue hentries))
      next =>
        apply (works_hashKey hkey).bind
        intro key' hkey'
        apply works_write ha
        exact forall_entries.2 (List.forall_mem_append.2
          ⟨hentries, List.forall_mem_singleton.2 ⟨hkey', hvalue⟩⟩)
    next => exact works_misuse
  | _ => exact works_misuse

theorem works_rbObjFreeze (hv : v.From n) :
    Works n (rbObjFreeze v : HeapM ε Unit) fun _ => True := by
  cases v with
  | ref a =>
    have ha := Value.from_ref.1 hv
    apply Confined.get_bind
    intro h hr
    split
    next slot hslot =>
      apply works_write ha
      rw [slot.children_freeze]
      exact fun w hw => hr.child ha hslot hw
    next => exact works_misuse
  | _ => exact .pure trivial

/-- The visit follows references, which do not leave the region. -/
theorem works_deepFreezeWithin {depth : Nat} (hv : v.From n) :
    Works n (deepFreezeWithin depth v : HeapM ε Unit) fun _ => True := by
  induction depth generalizing v with
  | zero => exact works_misuse
  | succ depth ih =>
    cases v with
    | ref a =>
      have ha := Value.from_ref.1 hv
      rw [deepFreezeWithin]
      apply (works_rbObjFreeze hv).bind
      intro _ _
      apply Confined.get_bind
      intro h hr
      split
      next basic items hslot =>
        exact .forM fun w hw => ih (hr.child ha hslot hw)
      next basic entries hslot =>
        have hentries := forall_entries.1 fun v hv => hr.child ha hslot hv
        apply Confined.forM
        intro entry hentry
        exact (ih (hentries entry hentry).1).bind fun _ _ => ih (hentries entry hentry).2
      next => exact .pure trivial
    | _ => exact (works_rbObjFreeze hv).bind fun _ _ => .pure trivial

theorem works_deepFreezeValue (hv : v.From n) :
    Works n (deepFreezeValue v : HeapM ε Unit) fun _ => True :=
  .get_bind fun _ _ => works_deepFreezeWithin hv

end

/-! ## The materialisation -/

variable {x : Externals} {freezeMode : FreezeMode}

theorem works_symbolToValue (name : String) : Works n (symbolToValue x name) (Value.From n) := by
  rw [symbolToValue]
  split
  · exact .lift fun _ h => by cases h
  · exact (works_lift _).bind fun _ _ => .pure (Value.from_of_refs rfl)

theorem works_attributeKeyValue (name : String) :
    Works n (attributeKeyValue name) (Value.From n) := by
  rw [attributeKeyValue]
  split
  · exact .lift fun _ h => by cases h
  · exact works_alloc_empty rfl

section
variable {container : Value} (hcontainer : container.From n)
include hcontainer

theorem works_pushItems {items : List OwnedValue}
    (ih : ∀ w ∈ items, Works n (ownedValueToRuby x w) (Value.From n)) :
    Works n (pushItems x container items) fun _ => True := by
  induction items with
  | nil => exact .pure trivial
  | cons item items ihitems =>
    obtain ⟨hitem, hitems⟩ := List.forall_mem_cons.1 ih
    apply hitem.bind
    intro rubyValue hvalue
    exact (works_rbAryPush hcontainer hvalue).bind fun _ _ => ihitems hitems

theorem works_setEntries {map : OwnedDict}
    (ih : ∀ p ∈ map, Works n (ownedValueToRuby x p.2) (Value.From n)) :
    Works n (setEntries x container map) fun _ => True := by
  induction map with
  | nil => exact .pure trivial
  | cons entry map ihmap =>
    obtain ⟨hentry, hmap⟩ := List.forall_mem_cons.1 ih
    apply (works_symbolToValue entry.1).bind
    intro symbol hsymbol
    apply hentry.bind
    intro rubyValue hvalue
    exact (works_rbHashAset hcontainer hsymbol hvalue).bind fun _ _ => ihmap hmap

theorem works_setFields {fields : List (Option OwnedValue)} {names : List String}
    (ih : ∀ w, some w ∈ fields → Works n (ownedValueToRuby x w) (Value.From n)) :
    Works n (setFields x container names fields) fun _ => True := by
  induction fields generalizing names with
  | nil => cases names <;> exact .pure trivial
  | cons field fields ihfields =>
    have hfields w (hw : some w ∈ fields) := ih w (List.mem_cons_of_mem _ hw)
    cases names with
    | nil => exact .pure trivial
    | cons name names =>
      cases field with
      | none => exact ihfields hfields
      | some value =>
        apply (ih value List.mem_cons_self).bind
        intro rubyValue hvalue
        apply (works_symbolToValue name).bind
        intro key hkey
        exact (works_rbHashAset hcontainer hkey hvalue).bind fun _ _ => ihfields hfields

theorem works_setExtras {extras : OwnedDict}
    (ih : ∀ p ∈ extras, Works n (ownedValueToRuby x p.2) (Value.From n)) :
    Works n (setExtras x container extras) fun _ => True := by
  induction extras with
  | nil => exact .pure trivial
  | cons extra extras ihextras =>
    obtain ⟨hextra, hextras⟩ := List.forall_mem_cons.1 ih
    apply hextra.bind
    intro rubyValue hvalue
    apply (works_attributeKeyValue extra.1).bind
    intro key hkey
    exact (works_rbHashAset hcontainer hkey hvalue).bind fun _ _ => ihextras hextras

end

theorem works_ownedValueToRuby (x : Externals) (w : OwnedValue) :
    Works n (ownedValueToRuby x w) (Value.From n) := by
  induction w with
  | null | bool | int | float => exact .pure (Value.from_of_refs rfl)
  | string s => exact works_alloc_empty rfl
  | symbol s => exact works_symbolToValue s
  | list items ih =>
    rw [ownedValueToRuby]
    apply (works_alloc_empty rfl).bind
    intro array harray
    exact (works_pushItems harray ih).bind fun _ _ => .pure harray
  | dict map ih =>
    rw [ownedValueToRuby]
    apply (works_alloc_empty rfl).bind
    intro hash hhash
    exact (works_setEntries hhash ih).bind fun _ _ => .pure hhash
  | struct names fields extras ihfields ihextras =>
    rw [ownedValueToRuby]
    apply (works_alloc_empty rfl).bind
    intro hash hhash
    apply (works_setFields hhash ihfields).bind
    intro _ _
    have hextras : Works n (setOptionalExtras x hash extras) fun _ => True := by
      cases extras with
      | none => exact .pure trivial
      | some extras => exact works_setExtras hhash (ihextras extras rfl)
    exact hextras.bind fun _ _ => .pure hhash

theorem works_storedValue (value : OwnedValue) :
    Works n (storedValue x freezeMode value) (Value.From n) := by
  apply (works_ownedValueToRuby x value).bind
  intro rubyValue hvalue
  split
  · exact (works_deepFreezeValue hvalue).bind fun _ _ => .pure hvalue
  · exact .pure hvalue

section
variable {instance_ : Value} {attributes : Option Value}

theorem works_storeFields (hinstance : instance_.From n) (hattributes : ∀ v ∈ attributes, v.From n)
    {names : List String} {fields : List (Option OwnedValue)} {entries : List MaterializeEntry} :
    Works n (storeFields x freezeMode names fields instance_ attributes entries) fun _ => True := by
  induction entries with
  | nil => exact .pure trivial
  | cons entry entries ih =>
    rw [storeFields]
    cases planned names fields entry with
    | none => exact ih
    | some value =>
      apply (works_storedValue value).bind
      intro rubyValue hvalue
      have hrest : Works n (do
          rbIvarSet instance_ entry.ivarId rubyValue
          storeFields x freezeMode names fields instance_ attributes entries) fun _ => True :=
        (works_rbIvarSet hinstance hvalue).bind fun _ _ => ih
      cases attributes with
      | none => exact hrest
      | some hash =>
        apply (works_rbHashAset (hattributes hash rfl) (Value.from_of_refs rfl) hvalue).bind
        exact fun _ _ => hrest

theorem works_storeExtras (hattributes : ∀ v ∈ attributes, v.From n) {extras : OwnedDict} :
    Works n (storeExtras x freezeMode attributes extras) fun _ => True := by
  induction extras with
  | nil => exact .pure trivial
  | cons extra extras ih =>
    rw [storeExtras]
    apply (works_storedValue extra.2).bind
    intro rubyValue hvalue
    cases attributes with
    | none => exact ih
    | some hash =>
      apply (works_attributeKeyValue extra.1).bind
      intro key hkey
      exact (works_rbHashAset (hattributes hash rfl) hkey hvalue).bind fun _ _ => ih

theorem works_freezeAs (hv : v.From n) : Works n (freezeAs freezeMode v) fun _ => True := by
  cases freezeMode with
  | none => exact .pure trivial
  | shallow => exact works_rbObjFreeze hv
  | deep => exact works_deepFreezeValue hv

theorem works_finish (hinstance : instance_.From n) (hattributes : ∀ v ∈ attributes, v.From n)
    {attrIvar : Option String} :
    Works n (finish freezeMode attrIvar instance_ attributes) fun _ => True := by
  cases attributes with
  | none => exact works_freezeAs hinstance
  | some hash =>
    have hhash := hattributes hash rfl
    have hfreeze : Works n (do freezeAs freezeMode hash; freezeAs freezeMode instance_)
        fun _ => True :=
      (works_freezeAs hhash).bind fun _ _ => works_freezeAs hinstance
    cases attrIvar with
    | none => exact hfreeze
    | some name => exact (works_rbIvarSet hinstance hhash).bind fun _ _ => hfreeze

end

theorem works_materializeInstance {klass : String} {attrIvar : Option String} {root : OwnedValue}
    {plan : MaterializePlan} {storeAttributes : Bool} :
    Works n (materializeInstance x klass attrIvar root plan freezeMode storeAttributes)
      (Value.From n) := by
  cases root with
  | struct owned =>
    obtain ⟨names, fields, extras⟩ := owned
    rw [materializeInstance]
    apply (works_alloc_empty rfl).bind
    intro instance_ hinstance
    have hrest (attributes : Option Value) (hattributes : ∀ v ∈ attributes, v.From n) : Works n (do
        storeFields x freezeMode names fields instance_ attributes plan.entries
        storeExtras x freezeMode attributes (extras.getD [])
        finish freezeMode attrIvar instance_ attributes
        return instance_) (Value.From n) := by
      apply (works_storeFields hinstance hattributes).bind
      intro _ _
      apply (works_storeExtras hattributes).bind
      intro _ _
      exact (works_finish hinstance hattributes).bind fun _ _ => .pure hinstance
    cases storeAttributes with
    | false => exact hrest none fun v hv => by cases hv
    | true =>
      refine Confined.bind (Confined.map (works_alloc_empty rfl) ?_) hrest
      intro hash hhash v hv
      cases hv
      exact hhash
  | _ => exact .lift fun _ h => by cases h

end Objects

/-! ## Trees on one side -/

namespace Heap

variable {t : RubyValue}

/-- A tree lies where its root does. -/
theorem Denotes.from {m : Nat} (ht : h.Denotes m v t) (hv : v.From n) : h.Denotes n v t := by
  cases t with
  | string basic bytes =>
    obtain ⟨a, -, rfl, hrest⟩ := ht
    exact ⟨a, Value.from_ref.1 hv, rfl, hrest⟩
  | array basic elements =>
    obtain ⟨a, items, -, rfl, hrest⟩ := ht
    exact ⟨a, items, Value.from_ref.1 hv, rfl, hrest⟩
  | hash basic pairs =>
    obtain ⟨a, entries, -, rfl, hrest⟩ := ht
    exact ⟨a, entries, Value.from_ref.1 hv, rfl, hrest⟩
  | object => exact absurd ht Denotes.not_object
  | _ => exact ht

/-- Objects that are added, and changes to these, are not seen in a tree that was there. -/
theorem Unfolds.keeps (ht : h.Unfolds v t) (hk : Keeps (· < h.length) h h') : h'.Unfolds v t := by
  induction t generalizing v with
  | string basic bytes =>
    obtain ⟨a, rfl, hslot⟩ := ht
    exact ⟨a, rfl, hk a (lt_of_get hslot) _ hslot⟩
  | array basic elements ih =>
    obtain ⟨a, items, rfl, hslot, hitems⟩ := unfolds_array_iff.1 ht
    refine unfolds_array_iff.2 ⟨a, items, rfl, hk a (lt_of_get hslot) _ hslot, ?_⟩
    exact forall₂_imp_mem hitems fun _ _ t ht hunfolds => ih t ht hunfolds
  | hash basic pairs ih =>
    obtain ⟨a, entries, rfl, hslot, hentries⟩ := unfolds_hash_iff.1 ht
    refine unfolds_hash_iff.2 ⟨a, entries, rfl, hk a (lt_of_get hslot) _ hslot, ?_⟩
    refine forall₂_imp_mem hentries fun _ _ q hq hpq => ?_
    exact ⟨(ih q hq).1 hpq.1, (ih q hq).2 hpq.2⟩
  | object basic ivars =>
    obtain ⟨hivars, a, ivars', rfl, hslot⟩ := ht
    exact ⟨hivars, a, ivars', rfl, hk a (lt_of_get hslot) _ hslot⟩
  | _ => exact ht

/-- What keeps the region keeps what is reached there. -/
theorem Reaches.keeps (hreach : h.Reaches v w) (hr : Region Slot.refs n h) (hv : v.From n)
    (hk : Keeps (n ≤ ·) h h') : h'.Reaches v w := by
  induction hreach with
  | refl => exact .refl _
  | @step v w u hw _ ih =>
    cases v with
    | ref a =>
      have ha := Value.from_ref.1 hv
      cases hslot : h[a]? with
      | some slot =>
        rw [children_ref hslot] at hw
        refine .step ?_ (ih (hr.child ha hslot hw))
        rw [children_ref (hk a ha _ hslot)]
        exact hw
      | none =>
        rw [children, hslot] at hw
        cases hw
    | _ => cases hw

end Heap

namespace Objects

theorem DenotesInstance.keeps {t : RubyValue} (ht : DenotesInstance h v t)
    (hr : Region Slot.refs n h) (hv : v.From n) (hk : Keeps (n ≤ ·) h h') :
    DenotesInstance h' v t := by
  cases t with
  | object basic ivars' =>
    obtain ⟨a, ivars, rfl, hslot, hivars⟩ := ht
    have ha := Value.from_ref.1 hv
    refine ⟨a, ivars, rfl, hk a ha _ hslot, ?_⟩
    have hparts (p : String × Value) (hp : p ∈ ivars) : p.2.From n :=
      hr.child ha hslot (List.mem_map_of_mem hp)
    refine forall₂_imp_mem hivars fun p hp q _ hpq => ⟨hpq.1, ?_⟩
    exact ((hpq.2.from (hparts p hp)).keeps hk).mono (Nat.zero_le n)
  | _ => cases ht

/-- For every root, plan and setting, when a build returns: the objects from before are as they
were, and what is reached from the instance is new. Whatever is done to the older objects, the
instance refers to the same objects and denotes the same; whatever is done to the new ones, the
trees from before are the same. -/
theorem materializeInstance_separate (x : Externals) {klass : String} {attrIvar : Option String}
    {root : OwnedValue} {plan : MaterializePlan} {freezeMode : FreezeMode} {storeAttributes : Bool}
    {h h' : Heap} {built : Value}
    (hrun : (materializeInstance x klass attrIvar root plan freezeMode storeAttributes).run h =
      .ok (built, h')) :
    KeepsAll h h' ∧ (∀ a, h'.Reaches built (.ref a) → h.length ≤ a) ∧
    (∀ g : Heap, Keeps (h.length ≤ ·) h' g → (∀ v, h'.Reaches built v → g.Reaches built v) ∧
      ∀ t, DenotesInstance h' built t → DenotesInstance g built t) ∧
    ∀ g : Heap, Keeps (· < h.length) h' g → ∀ v t, h.Unfolds v t → g.Unfolds v t := by
  obtain ⟨hk, hr, hbuilt⟩ := Confined.keepsAll works_materializeInstance hrun
  refine ⟨hk, ?_, ?_, ?_⟩
  · intro a hreach
    exact Value.from_ref.1 (hr.reached hbuilt hreach)
  · intro g hg
    exact ⟨fun v hreach => hreach.keeps hr hbuilt hg, fun t ht => ht.keeps hr hbuilt hg⟩
  · intro g hg v t ht
    exact ht.keeps ((hk.keeps _).trans hg)

/-- The arrays of the instance are not those of an input that was there before. -/
theorem materializeInstance_separate_arrays :
    ∃ built h', (materializeInstance (.reading "null" .null) "Post" attrIvarName arrays
        ⟨[.named "tags"]⟩ .shallow true).run loop = .ok (built, h') ∧
      ∀ a, h'.Reaches built (.ref a) → 1 ≤ a := by
  cases hrun : (materializeInstance (.reading "null" .null) "Post" attrIvarName arrays
    ⟨[.named "tags"]⟩ .shallow true).run loop with
  | ok result => exact ⟨result.1, result.2, rfl, (materializeInstance_separate _ hrun).2.1⟩
  | error stop => cases hrun

end Objects
end RustlyCore
