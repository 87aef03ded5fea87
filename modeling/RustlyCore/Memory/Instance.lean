import RustlyCore.Memory.Freezing

/-!
# An instance in memory (`materialize_instance`)

The instance and the hash of its attributes are allocated first and written to until the end, so
nothing may freeze them before. The values are frozen one by one as they come, which reaches neither
of them. In the end they hold the tree that the conversion describes.
-/

namespace RustlyCore

open Memory
open Fallible (Simulates)

/-! ## What a conversion makes -/

/-- No array and no hash in the tree is frozen, and there are no plain objects. -/
inductive RubyValue.Unfrozen : RubyValue → Prop
  | nil : Unfrozen .nil
  | bool (b : Bool) : Unfrozen (.bool b)
  | integer (i : Int) : Unfrozen (.integer i)
  | float (f : Float) : Unfrozen (.float f)
  | string (basic : RBasic) (bytes : ByteArray) : Unfrozen (.string basic bytes)
  | symbol (bytes : ByteArray) : Unfrozen (.symbol bytes)
  | array (klass : String) {items : List RubyValue} : (∀ r ∈ items, Unfrozen r) →
    Unfrozen (.array ⟨klass, false⟩ items)
  | hash (klass : String) {entries : List (RubyValue × RubyValue)} :
    (∀ p ∈ entries, Unfrozen p.1) → (∀ p ∈ entries, Unfrozen p.2) →
    Unfrozen (.hash ⟨klass, false⟩ entries)

variable {x : Externals}

theorem AttributeKey.unfrozen (key : AttributeKey) : key.toRuby.freeze.Unfrozen := by
  cases key with
  | field name => exact .symbol _
  | extra name => exact .string _ _

/-- A Hash of unfrozen values. -/
theorem unfrozen_setAll {writes : List (AttributeKey × RubyValue)}
    (h : ∀ w ∈ writes, w.2.Unfrozen) :
    (RubyValue.hash ⟨"Hash", false⟩ (attributeStore.setAll [] writes)).Unfrozen := by
  have hentries : ∀ p ∈ attributeStore.setAll [] writes, p.1.Unfrozen ∧ p.2.Unfrozen :=
    forall_setAll (by simp) fun w hw => ⟨w.1.unfrozen, h w hw⟩
  exact .hash _ (fun p hp => (hentries p hp).1) fun p hp => (hentries p hp).2

theorem unfrozen_of_converted {map : OwnedDict} {writes : List (String × RubyValue)}
    (hwrites : List.Forall₂ (ConvertedAs x) map writes)
    (h : ∀ p ∈ map, ∀ r, ownedValueToRuby x p.2 = .ok r → r.Unfrozen)
    (key : String → AttributeKey) :
    ∀ w ∈ writes.map (Prod.map key id), w.2.Unfrozen := by
  intro w hw
  obtain ⟨u, hu, rfl⟩ := List.mem_map.1 hw
  obtain ⟨p, hp, -, hconverted⟩ := forall₂_mem_right hwrites u hu
  exact h p hp _ hconverted

/-- A conversion freezes Strings that are keys, and no container. -/
theorem unfrozen_of_ownedValueToRuby {w : OwnedValue} {r : RubyValue}
    (h : ownedValueToRuby x w = .ok r) : r.Unfrozen := by
  induction w generalizing r with
  | null =>
    cases h
    exact .nil
  | bool b =>
    cases h
    exact .bool b
  | int i =>
    cases h
    exact .integer _
  | float f =>
    cases h
    exact .float f
  | string s =>
    cases h
    exact .string _ _
  | symbol s =>
    cases symbolToValue_ok h
    exact .symbol _
  | list items ih =>
    obtain ⟨elements, helements, h⟩ := Fallible.bind_eq_ok.1 h
    cases h
    apply RubyValue.Unfrozen.array
    intro r hr
    obtain ⟨item, hitem, hconverted⟩ := forall₂_mem_right (itemsToRuby_converted helements) r hr
    exact ih item hitem hconverted
  | dict map ih =>
    obtain ⟨entries, hentries, h⟩ := Fallible.bind_eq_ok.1 h
    cases h
    obtain ⟨writes, hwrites, rfl⟩ := buildHash_writes hentries
    exact unfrozen_setAll (unfrozen_of_converted hwrites (fun p hp r => ih p hp) .field)
  | struct names fields extras ihfields ihextras =>
    obtain ⟨fieldWrites, extraWrites, hfieldWrites, hextraWrites, rfl⟩ := structToRuby_writes h
    apply unfrozen_setAll
    refine List.forall_mem_append.2 ⟨unfrozen_of_converted hfieldWrites ?_ .field,
      unfrozen_of_converted hextraWrites ?_ .extra⟩
    · intro p hp r
      exact ihfields p.2 (List.of_mem_zip (mem_presentFields.1 hp)).2
    · intro p hp r
      cases extras with
      | none => cases hp
      | some extras => exact ihextras extras rfl p hp

/-! ## The construction -/

namespace Objects

section
variable (x : Externals)

def storedValue (freezeMode : FreezeMode) (value : OwnedValue) :
    HeapM MaterializeError Value := do
  let rubyValue ← ownedValueToRuby x value
  if freezeMode = .deep then deepFreezeValue rubyValue
  return rubyValue

def storeFields (freezeMode : FreezeMode) (names : List String)
    (fields : List (Option OwnedValue)) (instance_ : Value) (attributes : Option Value) :
    List MaterializeEntry → HeapM MaterializeError Unit
  | [] => return
  | entry :: entries =>
    match planned names fields entry with
    | none => storeFields freezeMode names fields instance_ attributes entries
    | some value => do
      let rubyValue ← storedValue x freezeMode value
      match attributes with
      | some hash => rbHashAset hash (.symbol entry.symbolId.toUTF8) rubyValue
      | none => pure ()
      rbIvarSet instance_ entry.ivarId rubyValue
      storeFields freezeMode names fields instance_ attributes entries

def storeExtras (freezeMode : FreezeMode) (attributes : Option Value) :
    OwnedDict → HeapM MaterializeError Unit
  | [] => return
  | (key, value) :: extras => do
    let rubyValue ← storedValue x freezeMode value
    match attributes with
    | some hash => do
      let keyValue ← attributeKeyValue key
      rbHashAset hash keyValue rubyValue
    | none => pure ()
    storeExtras freezeMode attributes extras

def freezeAs (freezeMode : FreezeMode) (value : Value) : HeapM MaterializeError Unit :=
  match freezeMode with
  | .none => return
  | .shallow => rbObjFreeze value
  | .deep => deepFreezeValue value

/-- The end of `materialize_instance`. -/
def finish (freezeMode : FreezeMode) (attrIvar : Option String) (instance_ : Value)
    (attributes : Option Value) : HeapM MaterializeError Unit := do
  match attributes, attrIvar with
  | some hash, some name => rbIvarSet instance_ name hash
  | _, _ => pure ()
  match attributes with
  | some hash => freezeAs freezeMode hash
  | none => pure ()
  freezeAs freezeMode instance_

/-- `klass` allocates an object without instance variables. -/
def materializeInstance (klass : String) (attrIvar : Option String) (root : OwnedValue)
    (plan : MaterializePlan) (freezeMode : FreezeMode) (storeAttributes : Bool) :
    HeapM MaterializeError Value :=
  match root with
  | .struct ⟨names, fields, extras⟩ => do
    let instance_ ← alloc (.object ⟨klass, false⟩ [])
    let attributes ←
      if storeAttributes then some <$> alloc (.hash ⟨"Hash", false⟩ []) else pure none
    storeFields x freezeMode names fields instance_ attributes plan.entries
    storeExtras x freezeMode attributes (extras.getD [])
    finish freezeMode attrIvar instance_ attributes
    return instance_
  | other => StateT.lift (.fail (.unsupportedRoot other.typeName))

end

/-! ## Simulation -/

variable {h h' : Heap} {n : Nat} {freezeMode : FreezeMode}

theorem run_deepFreezeValue {ε : Type} {value : Value} {t : RubyValue}
    (ht : h.Denotes n value t) :
    FreezesPart (fun h => h.Denotes n) RubyValue.deepFreeze n
      (deepFreezeValue : Value → HeapM ε Unit) h value t := by
  have hdepth : h.length - n < h.length + 1 := by omega
  exact run_deepFreezeWithin ht hdepth

/-- What the mode makes of a value that is stored. -/
def Stored (freezeMode : FreezeMode) (t : RubyValue) : Prop :=
  match freezeMode with
  | .deep => t.deepFreeze = t
  | _ => t.Unfrozen

/-- Freezing a new tree touches no older object. -/
theorem Built.freezes {t t' : RubyValue} {value : Value} {h'' : Heap} (hbuilt : Built h t value h')
    (hf : Freezes h.length h' h'') (ht : h''.Denotes h.length value t') : Built h t' value h'' :=
  ⟨Keeps.all ((hbuilt.1.keeps _).trans hf.keeps), ht⟩

theorem storedValue_simulates (freezeMode : FreezeMode) (value : OwnedValue) (h : Heap) :
    Simulates h (storedValue x freezeMode value) (RustlyCore.storedValue x freezeMode value)
      fun t v h' => Built h t v h' ∧ Stored freezeMode t := by
  apply (ownedValueToRuby_simulates x value h).with_ok.bind
  intro t v h' hpost
  obtain ⟨hconverted, hbuilt⟩ := hpost
  have hunfrozen := unfrozen_of_ownedValueToRuby hconverted
  cases freezeMode with
  | none | shallow => exact .pure ⟨hbuilt, hunfrozen⟩
  | deep =>
    obtain ⟨h'', hrun, hf, hfrozen⟩ := run_deepFreezeValue hbuilt.2
    exact .step hrun (.pure ⟨hbuilt.freezes hf hfrozen, t.deepFreeze_deepFreeze⟩)

/-! ### The objects under construction -/

/-- Instance variables of one name with related values. -/
def IvarRel (R : Value → RubyValue → Prop) (p : String × Value) (q : String × RubyValue) : Prop :=
  p.1 = q.1 ∧ R p.2 q.2

theorem IvarRel.imp {R S : Value → RubyValue → Prop} {p : String × Value} {q : String × RubyValue}
    (h : IvarRel R p q) (hRS : ∀ v t, R v t → S v t) : IvarRel S p q :=
  ⟨h.1, hRS _ _ h.2⟩

/-- The instance at the address `i` and the attributes behind it are as far as the loops have come.
Neither is frozen. The values are from the address `n` on, behind both. -/
structure Holds (klass : String) (freezeMode : FreezeMode) (i n : Nat) (attributes : Option Value)
    (h : Heap) (building : Building) : Prop where
  object : ∃ ivars, h[i]? = some (.object ⟨klass, false⟩ ivars) ∧
    List.Forall₂ (IvarRel (h.Denotes n)) ivars building.ivars
  attributes : Option.Rel (fun hash pairs => ∃ a, hash = .ref a ∧ i < a ∧ a < n ∧
    h.Denotes a (.ref a) (.hash ⟨"Hash", false⟩ pairs)) attributes building.attributes
  before : i < n
  here : n ≤ h.length
  ivarsStored : ∀ p ∈ building.ivars, Stored freezeMode p.2
  attributesStored : ∀ pairs ∈ building.attributes, ∀ p ∈ pairs,
    Stored freezeMode p.1 ∧ Stored freezeMode p.2

variable {klass : String} {i : Nat} {attributes : Option Value} {building : Building}

theorem stored_key (freezeMode : FreezeMode) (key : AttributeKey) :
    Stored freezeMode key.toRuby.freeze := by
  cases freezeMode with
  | deep => cases key <;> rfl
  | none | shallow => exact key.unfrozen

theorem Holds.keepsAll (hh : Holds klass freezeMode i n attributes h building)
    (hk : KeepsAll h h') : Holds klass freezeMode i n attributes h' building where
  object := by
    obtain ⟨ivars, hslot, hivars⟩ := hh.object
    exact ⟨ivars, hk i trivial _ hslot, hivars.imp fun _ _ hpq =>
      hpq.imp fun _ _ ht => ht.keeps (hk.keeps _)⟩
  attributes := by
    refine optionRel_imp hh.attributes ?_
    intro hash pairs hpost
    obtain ⟨a, heq, hlt, hlt', hhash⟩ := hpost
    exact ⟨a, heq, hlt, hlt', hhash.keeps (hk.keeps _)⟩
  before := hh.before
  here := Nat.le_trans hh.here (hk.length_le trivial)
  ivarsStored := hh.ivarsStored
  attributesStored := hh.attributesStored

theorem forall₂_ivarSet {R : Value → RubyValue → Prop} {ivars : List (String × Value)}
    {ivars' : List (String × RubyValue)} (hivars : List.Forall₂ (IvarRel R) ivars ivars')
    (id : String) {v : Value} {t : RubyValue} (hv : R v t) :
    List.Forall₂ (IvarRel R) (ivarSet ivars id v) (ivarSet ivars' id t) := by
  induction hivars with
  | nil => exact .cons ⟨rfl, hv⟩ .nil
  | @cons p q ivars ivars' hpq hivars ih =>
    obtain ⟨k, w⟩ := p
    obtain ⟨k', t'⟩ := q
    obtain ⟨heq, hrel⟩ := hpq
    cases heq
    rw [ivarSet, ivarSet]
    split
    · exact .cons ⟨rfl, hv⟩ hivars
    · exact .cons ⟨rfl, hrel⟩ ih

theorem forall_ivarSet {P : RubyValue → Prop} {ivars : List (String × RubyValue)} (id : String)
    {value : RubyValue} (h : ∀ p ∈ ivars, P p.2) (hvalue : P value) :
    ∀ p ∈ ivarSet ivars id value, P p.2 := by
  induction ivars with
  | nil => exact List.forall_mem_singleton.2 hvalue
  | cons p ivars ih =>
    obtain ⟨hp, hivars⟩ := List.forall_mem_cons.1 h
    rw [ivarSet]
    split
    · exact List.forall_mem_cons.2 ⟨hvalue, hivars⟩
    · exact List.forall_mem_cons.2 ⟨hp, ih hivars⟩

theorem run_rbIvarSet {ε : Type} {ivars : List (String × Value)} (id : String) (v : Value)
    (hslot : h[i]? = some (.object ⟨klass, false⟩ ivars)) :
    (rbIvarSet (.ref i) id v : HeapM ε Unit).run h =
      .ok ((), h.set i (.object ⟨klass, false⟩ (ivarSet ivars id v))) := by
  simp [rbIvarSet, hslot, rbCheckFrozen]

/-- The instance is written to and nothing else. -/
theorem Holds.ivarSet (hh : Holds klass freezeMode i n attributes h building) (id : String)
    {v : Value} {t : RubyValue} (hv : h.Denotes n v t) (hstored : Stored freezeMode t) :
    ∃ h', (rbIvarSet (.ref i) id v : HeapM MaterializeError Unit).run h = .ok ((), h') ∧
      Keeps (· ≠ i) h h' ∧
      Holds klass freezeMode i n attributes h'
        ⟨building.attributes, RustlyCore.ivarSet building.ivars id t⟩ := by
  obtain ⟨ivars, hslot, hivars⟩ := hh.object
  have hk := keeps_set h i (.object ⟨klass, false⟩ (RustlyCore.ivarSet ivars id v))
  have hlater := hk.mono (P := (n ≤ ·)) fun b hb => Nat.ne_of_gt (Nat.lt_of_lt_of_le hh.before hb)
  refine ⟨_, run_rbIvarSet id v hslot, hk, ⟨_, get_set (lt_of_get hslot) _, ?_⟩, ?_, hh.before,
    ?_, forall_ivarSet id hh.ivarsStored hstored, hh.attributesStored⟩
  · exact forall₂_ivarSet (hivars.imp fun _ _ hpq => hpq.imp fun _ _ ht => ht.keeps hlater) id
      (hv.keeps hlater)
  · refine optionRel_imp hh.attributes ?_
    intro hash pairs hpost
    obtain ⟨a, heq, hlt, hlt', hhash⟩ := hpost
    exact ⟨a, heq, hlt, hlt', hhash.keeps (hk.mono fun b hb => by omega)⟩
  · rw [List.length_set]
    exact hh.here

theorem Holds.behind {a : Nat} (hh : Holds klass freezeMode i n (some (.ref a)) h building)
    {b : Nat} (hb : n ≤ b) : a < b := by
  obtain ⟨pairs, ivars⟩ := building
  cases hh.attributes with
  | some hattributes =>
    obtain ⟨_, heq, -, hlt, -⟩ := hattributes
    cases heq
    exact Nat.lt_of_lt_of_le hlt hb

/-- The attributes are written to, the instance is not. -/
theorem Holds.aset {a : Nat} {pairs : List (RubyValue × RubyValue)}
    {ivars : List (String × RubyValue)}
    (hh : Holds klass freezeMode i n (some (.ref a)) h ⟨some pairs, ivars⟩) {k v : Value}
    {key : AttributeKey} {t : RubyValue} (hkey : h.Denotes n k key.toRuby) (hv : h.Denotes n v t)
    (hstored : Stored freezeMode t) :
    ∃ h', (rbHashAset (.ref a) k v : HeapM MaterializeError Unit).run h = .ok ((), h') ∧
      Keeps (· ≠ a) h h' ∧ i < a ∧
      Holds klass freezeMode i n (some (.ref a)) h'
        ⟨some (hashAset pairs key.toRuby t), ivars⟩ := by
  cases hh.attributes with
  | some hattributes =>
    obtain ⟨_, heq, hlt, hlt', hhash⟩ := hattributes
    cases heq
    have htext : key.toRuby.isText = true := by cases key <;> rfl
    obtain ⟨h', hrun, hk, hhash'⟩ := run_rbHashAset hhash (hkey.mono hlt') htext (hv.mono hlt')
    have ha := lt_of_denotes_hash hhash'
    obtain ⟨ivars', hslot, hivars⟩ := hh.object
    refine ⟨h', hrun, hk, hlt, ⟨ivars', hk i (Nat.ne_of_lt hlt) _ hslot, ?_⟩,
      .some ⟨a, rfl, hlt, hlt', hhash'⟩, hh.before,
      Nat.le_trans hh.here (hk.length_le (Nat.ne_of_gt ha)), hh.ivarsStored, ?_⟩
    · refine hivars.imp fun _ _ hpq => hpq.imp fun _ _ ht => ht.keeps (hk.mono fun b hb => ?_)
      exact Nat.ne_of_gt (Nat.lt_of_lt_of_le hlt' hb)
    · intro pairs' hpairs'
      cases hpairs'
      exact forall_hashAset (hh.attributesStored pairs rfl) (stored_key freezeMode key) hstored

/-! ### The loops -/

theorem storeFields_simulates {names : List String} {fields : List (Option OwnedValue)}
    {entries : List MaterializeEntry} {h : Heap} {building : Building}
    (hh : Holds klass freezeMode i n attributes h building) :
    Simulates h (storeFields x freezeMode names fields (.ref i) attributes entries)
      (RustlyCore.storeFields x freezeMode names fields building entries) fun building' _ h' =>
        Keeps (· < i) h h' ∧ Holds klass freezeMode i n attributes h' building' := by
  induction entries generalizing h building with
  | nil => exact .pure ⟨.refl _ h, hh⟩
  | cons entry entries ih =>
    rw [storeFields, RustlyCore.storeFields]
    cases planned names fields entry with
    | none => exact ih hh
    | some value =>
      apply (storedValue_simulates freezeMode value h).bind
      intro t v h₁ hpost
      obtain ⟨hbuilt, hstored⟩ := hpost
      have hh₁ := hh.keepsAll hbuilt.1
      have hv := hbuilt.2.mono hh.here
      obtain ⟨pairs, ivars⟩ := building
      cases hh₁.attributes with
      | none =>
        obtain ⟨h₂, hrun, hk, hh₂⟩ := hh₁.ivarSet entry.ivarId hv hstored
        refine .step hrun ((ih hh₂).imp ?_)
        intro _ _ h' hpost
        obtain ⟨hk', hh'⟩ := hpost
        exact ⟨((hbuilt.1.keeps _).trans (hk.mono fun _ => Nat.ne_of_lt)).trans hk', hh'⟩
      | some hattributes =>
        obtain ⟨a, rfl, -⟩ := hattributes
        have hkey : h₁.Denotes n (.symbol entry.symbolId.toUTF8)
          (AttributeKey.field entry.symbolId).toRuby := rfl
        obtain ⟨h₂, hrun, hk, hlt, hh₂⟩ := hh₁.aset hkey hv hstored
        have hlater := hk.mono (P := (n ≤ ·)) fun b hb => Nat.ne_of_gt (hh₁.behind hb)
        obtain ⟨h₃, hrun', hk', hh₃⟩ := hh₂.ivarSet entry.ivarId (hv.keeps hlater) hstored
        refine .step hrun (.step hrun' ((ih hh₃).imp ?_))
        intro _ _ h' hpost
        obtain ⟨hk'', hh'⟩ := hpost
        refine ⟨?_, hh'⟩
        apply ((hbuilt.1.keeps _).trans (hk.mono fun b hb => ?_)).trans
        · exact (hk'.mono fun _ => Nat.ne_of_lt).trans hk''
        · exact Nat.ne_of_lt (hb.trans hlt)

theorem storeExtras_simulates {extras : OwnedDict} {h : Heap} {building : Building}
    (hh : Holds klass freezeMode i n attributes h building) :
    Simulates h (storeExtras x freezeMode attributes extras)
      (RustlyCore.storeExtras x freezeMode building extras) fun building' _ h' =>
        Keeps (· < i) h h' ∧ Holds klass freezeMode i n attributes h' building' := by
  induction extras generalizing h building with
  | nil => exact .pure ⟨.refl _ h, hh⟩
  | cons extra extras ih =>
    obtain ⟨key, value⟩ := extra
    rw [storeExtras, RustlyCore.storeExtras]
    apply (storedValue_simulates freezeMode value h).bind
    intro t v h₁ hpost
    obtain ⟨hbuilt, hstored⟩ := hpost
    have hh₁ := hh.keepsAll hbuilt.1
    obtain ⟨pairs, ivars⟩ := building
    cases hh₁.attributes with
    | none =>
      refine (ih hh₁).imp ?_
      intro _ _ h' hpost
      obtain ⟨hk, hh'⟩ := hpost
      exact ⟨(hbuilt.1.keeps _).trans hk, hh'⟩
    | some hattributes =>
      obtain ⟨a, rfl, -⟩ := hattributes
      apply (attributeKeyValue_simulates key).with_ok.bind
      intro keyValue k h₂ hpost
      obtain ⟨hok, hkey, _⟩ := hpost
      cases attributeKeyValue_ok hok
      have hh₂ := hh₁.keepsAll hkey.1
      have hextra : h₂.Denotes n k (AttributeKey.extra key).toRuby := hkey.2.mono hh₁.here
      obtain ⟨h₃, hrun, hk, hlt, hh₃⟩ :=
        hh₂.aset hextra ((hbuilt.keeps hkey.1).2.mono hh.here) hstored
      refine .step hrun ((ih hh₃).imp ?_)
      intro _ _ h' hpost
      obtain ⟨hk', hh'⟩ := hpost
      refine ⟨?_, hh'⟩
      apply ((hbuilt.keeps hkey.1).1.keeps _).trans
      exact (hk.mono fun b hb => Nat.ne_of_lt (hb.trans hlt)).trans hk'

/-! ### The end -/

/-- Freezing the hash of the attributes leaves the values that are stored in the instance. -/
theorem run_freezeAs_hash (freezeMode : FreezeMode) {a : Nat} {basic : RBasic}
    {pairs : List (RubyValue × RubyValue)}
    (hhash : h.Denotes a (.ref a) (.hash basic pairs)) :
    ∃ h', (freezeAs freezeMode (.ref a)).run h = .ok ((), h') ∧ Freezes a h h' ∧
      h'.Denotes a (.ref a) (frozenAs freezeMode (.hash basic pairs)) ∧
      ∀ n v t, a < n → h.Denotes n v t → Stored freezeMode t → h'.Denotes n v t := by
  cases freezeMode with
  | none => exact ⟨h, rfl, .refl _ a h, hhash, fun _ _ _ _ ht _ => ht⟩
  | shallow =>
    obtain ⟨_, entries, hle, heq, hslot, hentries⟩ := Heap.denotes_hash_iff.1 hhash
    cases heq
    have hk := keeps_set h a (Slot.hash basic entries).freeze
    have hlater (n : Nat) (hn : a < n) := hk.mono (P := (n ≤ ·)) fun b hb => by omega
    refine ⟨_, run_rbObjFreeze hslot, marks_set hslot _ hle,
      Heap.denotes_hash_iff.2 ⟨a, entries, hle, rfl, get_set (lt_of_get hslot) _, ?_⟩, ?_⟩
    · exact hentries.imp fun _ _ hpq => hpq.keeps (hlater _ (Nat.lt_succ_self a))
    · exact fun n _ _ hn ht _ => ht.keeps (hlater n hn)
  | deep =>
    obtain ⟨h', hrun, hf, hfrozen⟩ := run_deepFreezeValue hhash
    exact ⟨h', hrun, hf, hfrozen, fun _ _ _ _ ht hstored => ht.frozen_freezes hstored hf⟩

/-- Freezing the instance touches no other object. -/
theorem run_freezeAs_object (freezeMode : FreezeMode) {basic : RBasic}
    {ivars : List (String × Value)}
    (hslot : h[i]? = some (.object basic ivars)) :
    ∃ h' basic', (freezeAs freezeMode (.ref i)).run h = .ok ((), h') ∧ Keeps (· ≠ i) h h' ∧
      h'[i]? = some (.object basic' ivars) ∧
      ∀ ivars', frozenAs freezeMode (.object basic ivars') = .object basic' ivars' := by
  have hget := get_set (lt_of_get hslot) (Slot.object basic ivars).freeze
  cases freezeMode with
  | none => exact ⟨h, basic, rfl, .refl _ h, hslot, fun _ => rfl⟩
  | shallow => exact ⟨_, _, run_rbObjFreeze hslot, keeps_set h i _, hget, fun _ => rfl⟩
  | deep =>
    exact ⟨_, _, run_deepFreezeWithin_ref hslot _, keeps_set h i _, hget, fun _ => rfl⟩

/-- A value that an instance variable refers to: one that was stored or the attributes. -/
inductive Part (freezeMode : FreezeMode) (attributes : Option Value) (h : Heap) :
    Value → RubyValue → Prop
  | value {n : Nat} {v : Value} {t : RubyValue} :
    h.Denotes n v t → Stored freezeMode t → Part freezeMode attributes h v t
  | attributes {a : Nat} {pairs : List (RubyValue × RubyValue)} :
    attributes = some (.ref a) →
    h.Denotes a (.ref a) (frozenAs freezeMode (.hash ⟨"Hash", false⟩ pairs)) →
    (∀ p ∈ pairs, Stored freezeMode p.1 ∧ Stored freezeMode p.2) →
    Part freezeMode attributes h (.ref a) (frozenAs freezeMode (.hash ⟨"Hash", false⟩ pairs))

/-- The finished instance. The attributes are among its variables if they have a name. -/
structure Finished (freezeMode : FreezeMode) (attrIvar : Option String) (attributes : Option Value)
    (i : Nat) (klass : String) (ivars' : List (String × RubyValue)) (h : Heap) : Prop where
  object : ∃ basic ivars, h[i]? = some (.object basic ivars) ∧
    frozenAs freezeMode (.object ⟨klass, false⟩ ivars') = .object basic ivars' ∧
    List.Forall₂ (IvarRel (Part freezeMode (attrIvar.bind fun _ => attributes) h)) ivars ivars' ∧
    ∀ name hash, attrIvar = some name → attributes = some hash → ivars.lookup name = some hash
  hash : ∀ hash ∈ attributes, ∃ a pairs, hash = .ref a ∧
    h.Denotes a (.ref a) (frozenAs freezeMode (.hash ⟨"Hash", false⟩ pairs))

/-- What is stored in the instance after the loops. -/
def finalIvars (freezeMode : FreezeMode) (attrIvar : Option String) (building : Building) :
    List (String × RubyValue) :=
  match building.attributes, attrIvar with
  | some attributes, some name =>
    ivarSet building.ivars name (frozenAs freezeMode (.hash ⟨"Hash", false⟩ attributes))
  | _, _ => building.ivars

/-- The hash is frozen before the instance that refers to it. -/
theorem run_freezeBoth {a : Nat} {stored : Option Value}
    {pairs : List (RubyValue × RubyValue)} {basic : RBasic} {ivars : List (String × Value)}
    {ivars' : List (String × RubyValue)} (hia : i < a) (han : a < n)
    (hhash : h.Denotes a (.ref a) (.hash ⟨"Hash", false⟩ pairs))
    (hpairs : ∀ p ∈ pairs, Stored freezeMode p.1 ∧ Stored freezeMode p.2)
    (hslot : h[i]? = some (.object basic ivars))
    (hivars : List.Forall₂ (IvarRel fun v t => h.Denotes n v t ∧ Stored freezeMode t ∨
      stored = some (.ref a) ∧ v = .ref a ∧
        t = frozenAs freezeMode (.hash ⟨"Hash", false⟩ pairs)) ivars ivars') :
    ∃ (h' : Heap) (basic' : RBasic),
      (do freezeAs freezeMode (.ref a); freezeAs freezeMode (.ref i)).run h = .ok ((), h') ∧
      Keeps (· < i) h h' ∧ h'[i]? = some (.object basic' ivars) ∧
      (∀ ivars', frozenAs freezeMode (.object basic ivars') = .object basic' ivars') ∧
      h'.Denotes a (.ref a) (frozenAs freezeMode (.hash ⟨"Hash", false⟩ pairs)) ∧
      List.Forall₂ (IvarRel (Part freezeMode stored h')) ivars ivars' := by
  obtain ⟨h₁, hrun, hf, hhash₁, hvalues⟩ := run_freezeAs_hash freezeMode hhash
  obtain ⟨h₂, basic', hrun', hk, hslot', hfrozen⟩ :=
    run_freezeAs_object freezeMode (hf.keeps i hia _ hslot)
  have hlater : Keeps (a ≤ ·) h₁ h₂ := hk.mono fun b hb => by omega
  refine ⟨h₂, basic', ?_, ?_, hslot', hfrozen, hhash₁.keeps hlater, ?_⟩
  · rw [StateT.run_bind, hrun]
    exact hrun'
  · exact (hf.keeps.mono fun b hb => hb.trans hia).trans (hk.mono fun _ => Nat.ne_of_lt)
  · refine hivars.imp fun p q hpq => hpq.imp fun v t hpart => ?_
    obtain ⟨ht, hstored⟩ | ⟨hhere, rfl, rfl⟩ := hpart
    · have hkept := (hvalues n v t han ht hstored).keeps (hlater.mono fun b hb => by omega)
      exact .value hkept hstored
    · exact .attributes hhere (hhash₁.keeps hlater) hpairs

theorem run_finish (hh : Holds klass freezeMode i n attributes h building)
    (attrIvar : Option String) :
    ∃ h', (finish freezeMode attrIvar (.ref i) attributes).run h = .ok ((), h') ∧
      Keeps (· < i) h h' ∧
      Finished freezeMode attrIvar attributes i klass
        (finalIvars freezeMode attrIvar building) h' := by
  obtain ⟨ivars, hslot, hivars⟩ := hh.object
  have hvalues : List.Forall₂ (IvarRel fun v t => h.Denotes n v t ∧ Stored freezeMode t) ivars
      building.ivars :=
    forall₂_imp_mem hivars fun p _ q hq hpq => ⟨hpq.1, hpq.2, hh.ivarsStored q hq⟩
  obtain ⟨attributes', ivars'⟩ := building
  cases hh.attributes with
  | none =>
    obtain ⟨h', basic', hrun, hk, hslot', hfrozen⟩ := run_freezeAs_object freezeMode hslot
    refine ⟨h', hrun, hk.mono fun _ => Nat.ne_of_lt,
      ⟨⟨basic', ivars, hslot', hfrozen _, ?_, ?_⟩, ?_⟩⟩
    · refine hvalues.imp fun p q hpq => hpq.imp fun v t hpart => ?_
      have hlater := hk.mono (P := (n ≤ ·)) fun b hb => Nat.ne_of_gt (hh.before.trans_le hb)
      exact .value (hpart.1.keeps hlater) hpart.2
    · intro name hash _ hnone
      cases hnone
    · intro hash hnone
      cases hnone
  | @some _ pairs hattributes =>
    obtain ⟨a, rfl, hia, han, hhash⟩ := hattributes
    have hpairs := hh.attributesStored pairs rfl
    have hpending : List.Forall₂ (IvarRel fun v t => h.Denotes n v t ∧ Stored freezeMode t ∨
        attrIvar.bind (fun _ => some (Value.ref a)) = some (.ref a) ∧ v = .ref a ∧
          t = frozenAs freezeMode (.hash ⟨"Hash", false⟩ pairs)) ivars ivars' :=
      hvalues.imp fun p q hpq => hpq.imp fun _ _ => .inl
    cases attrIvar with
    | none =>
      obtain ⟨h', basic', hrun, hk, hslot', hfrozen, hhash', hparts⟩ :=
        run_freezeBoth hia han hhash hpairs hslot hpending
      refine ⟨h', hrun, hk, ⟨⟨basic', ivars, hslot', hfrozen _, hparts, ?_⟩, ?_⟩⟩
      · intro name hash hnone _
        cases hnone
      · intro hash hsome
        cases hsome
        exact ⟨a, pairs, rfl, hhash'⟩
    | some name =>
      have hk₁ := keeps_set h i (.object ⟨klass, false⟩ (ivarSet ivars name (.ref a)))
      have hlater (m : Nat) (hm : i < m) := hk₁.mono (P := (m ≤ ·)) fun b hb => by omega
      have hkept : List.Forall₂ (IvarRel fun v t => Heap.Denotes (h.set i _) n v t ∧
          Stored freezeMode t ∨ some (Value.ref a) = some (.ref a) ∧ v = .ref a ∧
            t = frozenAs freezeMode (.hash ⟨"Hash", false⟩ pairs)) ivars ivars' :=
        hpending.imp fun p q hpq => hpq.imp fun v t hpart =>
          hpart.imp_left fun ht => ⟨ht.1.keeps (hlater n hh.before), ht.2⟩
      have hpending₁ := forall₂_ivarSet hkept name (.inr ⟨rfl, rfl, rfl⟩)
      obtain ⟨h', basic', hrun, hk, hslot', hfrozen, hhash', hparts⟩ :=
        run_freezeBoth hia han (hhash.keeps (hlater a hia)) hpairs (get_set (lt_of_get hslot) _)
          hpending₁
      refine ⟨h', ?_, (hk₁.mono fun _ => Nat.ne_of_lt).trans hk,
        ⟨⟨basic', _, hslot', hfrozen _, hparts, ?_⟩, ?_⟩⟩
      · change (rbIvarSet (.ref i) name (.ref a) >>= fun _ => _).run h = _
        rw [StateT.run_bind, run_rbIvarSet name _ hslot]
        exact hrun
      · intro name' hash hname hhash
        cases hname
        cases hhash
        rw [lookup_ivarSet, if_pos rfl]
      · intro hash hsome
        cases hsome
        exact ⟨a, pairs, rfl, hhash'⟩

/-! ### The build -/

theorem holds_new (h : Heap) (klass : String) (freezeMode : FreezeMode) :
    Holds klass freezeMode h.length (h.length + 1) none (h ++ [.object ⟨klass, false⟩ []])
      ⟨none, []⟩ where
  object := ⟨[], get_append h _, .nil⟩
  attributes := .none
  before := Nat.lt_succ_self _
  here := by rw [List.length_append, List.length_singleton]
  ivarsStored := List.forall_mem_nil _
  attributesStored := by
    intro pairs hpairs
    cases hpairs

/-- The same with a hash for the attributes. -/
theorem Holds.with_attributes (hh : Holds klass freezeMode i n none h ⟨none, []⟩) :
    Holds klass freezeMode i (h.length + 1) (some (.ref h.length))
      (h ++ [.hash ⟨"Hash", false⟩ []]) ⟨some [], []⟩ := by
  have hk := keepsAll_append h [.hash ⟨"Hash", false⟩ []]
  have hlt := Nat.lt_of_lt_of_le hh.before hh.here
  obtain ⟨ivars, hslot, hivars⟩ := hh.object
  cases hivars
  refine ⟨⟨[], hk i trivial _ hslot, .nil⟩,
    .some ⟨h.length, rfl, hlt, Nat.lt_succ_self _, denotes_new_hash h⟩,
    Nat.lt_succ_of_lt hlt, by rw [List.length_append, List.length_singleton],
    List.forall_mem_nil _, ?_⟩
  intro pairs hpairs
  cases hpairs
  exact List.forall_mem_nil _

/-- From the new objects to the finished instance. -/
theorem construction_simulates {names : List String} {fields : List (Option OwnedValue)}
    {entries : List MaterializeEntry} {extras : OwnedDict}
    (hh : Holds klass freezeMode i n attributes h building) (attrIvar : Option String) :
    Simulates h
      (do
        storeFields x freezeMode names fields (.ref i) attributes entries
        storeExtras x freezeMode attributes extras
        finish freezeMode attrIvar (.ref i) attributes
        return Value.ref i)
      (do
        let building ← RustlyCore.storeFields x freezeMode names fields building entries
        let building ← RustlyCore.storeExtras x freezeMode building extras
        return frozenAs freezeMode
          (.object ⟨klass, false⟩ (finalIvars freezeMode attrIvar building)))
      fun t v h' => v = Value.ref i ∧ Keeps (· < i) h h' ∧ ∃ ivars',
        t = frozenAs freezeMode (.object ⟨klass, false⟩ ivars') ∧
        Finished freezeMode attrIvar attributes i klass ivars' h' := by
  apply (storeFields_simulates hh).bind
  intro building₁ _ h₁ hpost
  obtain ⟨hk₁, hh₁⟩ := hpost
  apply (storeExtras_simulates hh₁).bind
  intro building₂ _ h₂ hpost
  obtain ⟨hk₂, hh₂⟩ := hpost
  obtain ⟨h₃, hrun, hk₃, hfinished⟩ := run_finish hh₂ attrIvar
  exact .step hrun (.pure ⟨rfl, (hk₁.trans hk₂).trans hk₃, _, rfl, hfinished⟩)

/-- A build in memory ends as the conversion to a tree does, at an instance of this tree, and older
objects stay as they are. No write meets a frozen object. -/
theorem materializeInstance_simulates (klass : String) (attrIvar : Option String)
    (root : OwnedValue) (plan : MaterializePlan) (freezeMode : FreezeMode) (storeAttributes : Bool)
    (h : Heap) :
    Simulates h
      (materializeInstance x klass attrIvar root plan freezeMode storeAttributes)
      (RustlyCore.materializeInstance x klass attrIvar root plan freezeMode storeAttributes)
      fun t v h' => v = .ref h.length ∧ KeepsAll h h' ∧ ∃ attributes ivars',
        attributes.isSome = storeAttributes ∧
        t = frozenAs freezeMode (.object ⟨klass, false⟩ ivars') ∧
        Finished freezeMode attrIvar attributes h.length klass ivars' h' := by
  cases root with
  | struct structure_ =>
    obtain ⟨names, fields, extras⟩ := structure_
    rw [materializeInstance, RustlyCore.materializeInstance]
    apply Simulates.step (run_alloc _)
    have hnew := holds_new h klass freezeMode
    have hkept := keepsAll_append h [Slot.object ⟨klass, false⟩ []]
    cases storeAttributes with
    | false =>
      refine (construction_simulates hnew attrIvar).imp ?_
      intro t v h' hpost
      obtain ⟨hv, hk, ivars', ht, hfinished⟩ := hpost
      exact ⟨hv, ((hkept.keeps _).trans hk).all, none, ivars', rfl, ht, hfinished⟩
    | true =>
      apply Simulates.step (b := some (.ref (h ++ [Slot.object ⟨klass, false⟩ []]).length)) rfl
      have hkept' := hkept.trans (keepsAll_append _ [Slot.hash ⟨"Hash", false⟩ []])
      refine (construction_simulates hnew.with_attributes attrIvar).imp ?_
      intro t v h' hpost
      obtain ⟨hv, hk, ivars', ht, hfinished⟩ := hpost
      exact ⟨hv, ((KeepsAll.keeps hkept' _).trans hk).all, _, ivars', rfl, ht, hfinished⟩
  | _ => rfl

theorem Part.denotes {v : Value} {t : RubyValue} (hpart : Part freezeMode attributes h v t) :
    h.Denotes 0 v t := by
  cases hpart with
  | value ht _ => exact ht.mono (Nat.zero_le _)
  | attributes _ hhash _ => exact hhash.mono (Nat.zero_le _)

/-- In the heap, the reference is to a plain object with the instance variables of this one. -/
def DenotesInstance (h : Heap) (v : Value) : RubyValue → Prop
  | .object basic ivars' => ∃ a ivars, v = .ref a ∧ h[a]? = some (.object basic ivars) ∧
    List.Forall₂ (IvarRel (h.Denotes 0)) ivars ivars'
  | _ => False

/-- The build in memory refines the conversion to a tree. -/
theorem materializeInstance_refines (klass : String) (attrIvar : Option String)
    (root : OwnedValue) (plan : MaterializePlan) (freezeMode : FreezeMode) (storeAttributes : Bool)
    (h : Heap) :
    Simulates h
      (materializeInstance x klass attrIvar root plan freezeMode storeAttributes)
      (RustlyCore.materializeInstance x klass attrIvar root plan freezeMode storeAttributes)
      fun t v h' => KeepsAll h h' ∧ DenotesInstance h' v t := by
  have hsimulates :=
    materializeInstance_simulates (x := x) klass attrIvar root plan freezeMode storeAttributes h
  refine hsimulates.imp ?_
  intro t v h' hpost
  obtain ⟨hv, hk, attributes, ivars', _, ht, hf⟩ := hpost
  obtain ⟨basic, ivars, hslot, hfrozen, hparts, -⟩ := hf.object
  refine ⟨hk, ?_⟩
  rw [ht, hfrozen]
  exact ⟨h.length, ivars, hv, hslot, hparts.imp fun p q hpq => hpq.imp fun _ _ => Part.denotes⟩

end Objects
end RustlyCore
