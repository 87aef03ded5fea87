import RustlyCore.Memory.Instance

/-!
# What a freeze mode reaches

Under `deep` everything that is reached from an instance is frozen; under `shallow` the instance and
the hash of its attributes; under `none` no container at all.
-/

namespace RustlyCore

namespace Heap

/-- What an object refers to. -/
def children (h : Heap) : Value → List Value
  | .ref address =>
    match h[address]? with
    | some (.array _ items) => items
    | some (.hash _ entries) => entries.flatMap fun entry => [entry.1, entry.2]
    | some (.object _ ivars) => ivars.map (·.2)
    | _ => []
  | _ => []

inductive Reaches (h : Heap) : Value → Value → Prop
  | refl (v : Value) : Reaches h v v
  | step {v w u : Value} : w ∈ h.children v → Reaches h w u → Reaches h v u

/-- `OBJ_FROZEN`. -/
def isFrozen (h : Heap) : Value → Bool
  | .ref address => (h[address]?).any (·.basic.frozen)
  | _ => true

def isHash (h : Heap) : Value → Bool
  | .ref address => match h[address]? with
    | some (.hash _ _) => true
    | _ => false
  | _ => false

/-- An array or a hash. -/
def isCollection (h : Heap) : Value → Bool
  | .ref address => match h[address]? with
    | some (.array _ _) | some (.hash _ _) => true
    | _ => false
  | _ => false

/-- `rb_ivar_get`, where the instance variable is set. -/
def ivar (h : Heap) (id : String) : Value → Option Value
  | .ref address => match h[address]? with
    | some (.object _ ivars) => ivars.lookup id
    | _ => none
  | _ => none

variable {h : Heap} {freezeMode : FreezeMode}

open Objects (Stored Part Finished)

/-- A tree of this kind is what the value refers to. -/
def Holding (h : Heap) (freezeMode : FreezeMode) (v : Value) : Prop :=
  ∃ n t, h.Denotes n v t ∧ Stored freezeMode t

theorem Holding.of_items {n : Nat} {items : List Value} {elements : List RubyValue}
    (hitems : List.Forall₂ (h.Denotes n) items elements)
    (hstored : ∀ t ∈ elements, Stored freezeMode t) : ∀ w ∈ items, h.Holding freezeMode w := by
  intro w hw
  obtain ⟨t, ht, hdenotes⟩ := forall₂_mem_left hitems w hw
  exact ⟨n, t, hdenotes, hstored t ht⟩

theorem Holding.of_entries {n : Nat} {entries : List (Value × Value)}
    {pairs : List (RubyValue × RubyValue)}
    (hentries : List.Forall₂ (h.DenotesEntry n) entries pairs)
    (hstored : ∀ p ∈ pairs, Stored freezeMode p.1 ∧ Stored freezeMode p.2) :
    ∀ w ∈ entries.flatMap fun entry => [entry.1, entry.2], h.Holding freezeMode w := by
  intro w hw
  obtain ⟨p, hp, hw⟩ := List.mem_flatMap.1 hw
  obtain ⟨q, hq, hkey, hvalue⟩ := forall₂_mem_left hentries p hp
  obtain rfl | hw := List.mem_cons.1 hw
  · exact ⟨n, q.1, hkey, (hstored q hq).1⟩
  · cases List.mem_singleton.1 hw
    exact ⟨n, q.2, hvalue, (hstored q hq).2⟩

theorem stored_elements {basic : RBasic} {elements : List RubyValue}
    (h : Stored freezeMode (.array basic elements)) : ∀ t ∈ elements, Stored freezeMode t := by
  cases freezeMode with
  | deep => exact (RubyValue.deepFreeze_array_eq_self.1 h).2
  | none | shallow =>
    cases h with
    | array _ helements => exact helements

theorem stored_pairs {basic : RBasic} {pairs : List (RubyValue × RubyValue)}
    (h : Stored freezeMode (.hash basic pairs)) :
    ∀ p ∈ pairs, Stored freezeMode p.1 ∧ Stored freezeMode p.2 := by
  cases freezeMode with
  | deep => exact (RubyValue.deepFreeze_hash_eq_self.1 h).2
  | none | shallow =>
    cases h with
    | hash _ hkeys hvalues => exact fun p hp => ⟨hkeys p hp, hvalues p hp⟩

theorem Holding.child {v w : Value} (hv : h.Holding freezeMode v) (hw : w ∈ h.children v) :
    h.Holding freezeMode w := by
  obtain ⟨n, t, ht, hstored⟩ := hv
  cases t with
  | string =>
    obtain ⟨a, -, rfl, hslot⟩ := ht
    rw [children, hslot] at hw
    cases hw
  | array =>
    obtain ⟨a, items, -, rfl, hslot, hitems⟩ := denotes_array_iff.1 ht
    rw [children, hslot] at hw
    exact .of_items hitems (stored_elements hstored) w hw
  | hash =>
    obtain ⟨a, entries, -, rfl, hslot, hentries⟩ := denotes_hash_iff.1 ht
    rw [children, hslot] at hw
    exact .of_entries hentries (stored_pairs hstored) w hw
  | object => exact absurd ht Denotes.not_object
  | _ =>
    cases ht
    cases hw

/-- It holds of everything below. -/
theorem Holding.reaches {v u : Value} (hv : h.Holding freezeMode v) (hreach : h.Reaches v u) :
    h.Holding freezeMode u := by
  induction hreach with
  | refl => exact hv
  | step hw _ ih => exact ih (hv.child hw)

theorem frozen_of_freeze {basic : RBasic} (h : { basic with frozen := true } = basic) :
    basic.frozen = true :=
  (congrArg RBasic.frozen h).symm

theorem Holding.frozen {v : Value} (hv : h.Holding .deep v) : h.isFrozen v = true := by
  obtain ⟨n, t, ht, hstored⟩ := hv
  cases t with
  | string =>
    obtain ⟨a, -, rfl, hslot⟩ := ht
    rw [isFrozen, hslot]
    exact frozen_of_freeze (RubyValue.string.inj hstored).1
  | array =>
    obtain ⟨a, items, -, rfl, hslot, -⟩ := ht
    rw [isFrozen, hslot]
    exact frozen_of_freeze (RubyValue.deepFreeze_array_eq_self.1 hstored).1
  | hash =>
    obtain ⟨a, entries, -, rfl, hslot, -⟩ := ht
    rw [isFrozen, hslot]
    exact frozen_of_freeze (RubyValue.deepFreeze_hash_eq_self.1 hstored).1
  | object => exact absurd ht Denotes.not_object
  | _ =>
    cases ht
    rfl

theorem Holding.unfrozen {v : Value} (hv : h.Holding freezeMode v) (hmode : freezeMode ≠ .deep)
    (hcollection : h.isCollection v = true) : h.isFrozen v = false := by
  obtain ⟨n, t, ht, hstored⟩ := hv
  have hunfrozen : t.Unfrozen := by
    cases freezeMode with
    | deep => exact absurd rfl hmode
    | none | shallow => exact hstored
  cases hunfrozen with
  | string =>
    obtain ⟨a, -, rfl, hslot⟩ := ht
    rw [isCollection, hslot] at hcollection
    cases hcollection
  | array =>
    obtain ⟨a, items, -, rfl, hslot, -⟩ := ht
    rw [isFrozen, hslot]
    rfl
  | hash =>
    obtain ⟨a, entries, -, rfl, hslot, -⟩ := ht
    rw [isFrozen, hslot]
    rfl
  | _ =>
    cases ht
    cases hcollection

end Heap

/-! ## The promise -/

/-- What a mode promises of an instance and the hash of its attributes, where this is stored. -/
def FreezeMode.Promises (freezeMode : FreezeMode) (h : Heap) (attributes : Option Value)
    (instance_ : Value) : Prop :=
  match freezeMode with
  | .deep => ∀ v, h.Reaches instance_ v → h.isFrozen v = true
  | .shallow => h.isFrozen instance_ = true ∧ (∀ hash ∈ attributes, h.isFrozen hash = true) ∧
    ∀ v, h.Reaches instance_ v → h.isCollection v = true → v ∉ attributes → h.isFrozen v = false
  | .none => h.isFrozen instance_ = false ∧
    ∀ v, h.Reaches instance_ v → h.isCollection v = true → h.isFrozen v = false

namespace Objects

variable {h : Heap} {freezeMode : FreezeMode} {attributes : Option Value}

/-- Below the hash of the attributes is what was stored. -/
theorem holding_below_attributes {a : Nat} {pairs : List (RubyValue × RubyValue)}
    (hhash : h.Denotes a (.ref a) (frozenAs freezeMode (.hash ⟨"Hash", false⟩ pairs)))
    (hpairs : ∀ p ∈ pairs, Stored freezeMode p.1 ∧ Stored freezeMode p.2) :
    ∀ w ∈ h.children (.ref a), h.Holding freezeMode w := by
  cases freezeMode with
  | deep =>
    have hholding : h.Holding .deep (.ref a) := ⟨a, _, hhash, RubyValue.deepFreeze_deepFreeze _⟩
    exact fun w hw => hholding.child hw
  | none | shallow =>
    obtain ⟨_, entries, -, heq, hslot, hentries⟩ := Heap.denotes_hash_iff.1 hhash
    cases heq
    rw [Heap.children, hslot]
    exact .of_entries hentries hpairs

/-- From an instance variable, the attributes or what was stored is reached. -/
theorem Part.reaches {v u : Value} {t : RubyValue} (hpart : Part freezeMode attributes h v t)
    (hreach : h.Reaches v u) : h.Holding freezeMode u ∨ u ∈ attributes := by
  cases hpart with
  | value ht hstored => exact .inl (Heap.Holding.reaches ⟨_, t, ht, hstored⟩ hreach)
  | attributes hhere hhash hpairs =>
    cases hreach with
    | refl => exact .inr hhere
    | step hw hreach =>
      exact .inl ((holding_below_attributes hhash hpairs _ hw).reaches hreach)

variable {attrIvar : Option String} {i : Nat} {klass : String} {ivars' : List (String × RubyValue)}

/-- The attributes that an instance refers to are in their instance variable. -/
theorem Finished.ivar (hf : Finished freezeMode attrIvar attributes i klass ivars' h)
    {name : String} (hname : attrIvar = some name) {hash : Value} (hhash : attributes = some hash) :
    h.ivar name (.ref i) = some hash := by
  obtain ⟨basic, ivars, hslot, -, -, hlookup⟩ := hf.object
  rw [Heap.ivar, hslot]
  exact hlookup name hash hname hhash

/-- The instance itself is frozen unless the mode is `none`. -/
theorem Finished.isFrozen (hf : Finished freezeMode attrIvar attributes i klass ivars' h) :
    h.isFrozen (.ref i) = true ↔ freezeMode ≠ .none := by
  obtain ⟨basic, ivars, hslot, hfrozen, -⟩ := hf.object
  have hbasic : h.isFrozen (.ref i) = basic.frozen := by
    rw [Heap.isFrozen, hslot]
    rfl
  rw [hbasic]
  cases freezeMode <;>
  · cases hfrozen
    simp

/-- What is reached from the instance is itself, its attributes, or something stored. -/
theorem Finished.reaches (hf : Finished freezeMode attrIvar attributes i klass ivars' h) {u : Value}
    (hreach : h.Reaches (.ref i) u) :
    u = .ref i ∧ h.isCollection u = false ∨ h.Holding freezeMode u ∨
      u ∈ attrIvar.bind fun _ => attributes := by
  obtain ⟨basic, ivars, hslot, -, hparts, -⟩ := hf.object
  cases hreach with
  | refl =>
    refine .inl ⟨rfl, ?_⟩
    rw [Heap.isCollection, hslot]
  | step hw hreach =>
    rw [Heap.children, hslot] at hw
    obtain ⟨p, hp, rfl⟩ := List.mem_map.1 hw
    obtain ⟨q, -, -, hpart⟩ := forall₂_mem_left hparts p hp
    exact .inr (hpart.reaches hreach)

/-- So is the hash. -/
theorem Finished.hash_isFrozen (hf : Finished freezeMode attrIvar attributes i klass ivars' h)
    {hash : Value} (hhash : hash ∈ attributes) :
    h.isHash hash = true ∧ (h.isFrozen hash = true ↔ freezeMode ≠ .none) := by
  obtain ⟨a, pairs, rfl, hdenotes⟩ := hf.hash hash hhash
  cases freezeMode <;>
  · obtain ⟨_, entries, -, heq, hslot, -⟩ := Heap.denotes_hash_iff.1 hdenotes
    cases heq
    rw [Heap.isHash, Heap.isFrozen, hslot]
    simp [Slot.basic]

theorem Finished.promises (hf : Finished freezeMode attrIvar attributes i klass ivars' h) :
    freezeMode.Promises h (attrIvar.bind fun _ => attributes) (.ref i) := by
  have hattributes {v : Value} (hv : v ∈ attrIvar.bind fun _ => attributes) :
      h.isFrozen v = true ↔ freezeMode ≠ .none := by
    obtain ⟨_, -, hv⟩ := Option.bind_eq_some_iff.1 hv
    exact (hf.hash_isFrozen hv).2
  cases freezeMode with
  | deep =>
    intro v hreach
    obtain ⟨rfl, -⟩ | hholding | hv := hf.reaches hreach
    · exact hf.isFrozen.2 (by simp)
    · exact hholding.frozen
    · exact (hattributes hv).2 (by simp)
  | shallow =>
    refine ⟨hf.isFrozen.2 (by simp), fun hash hhash => (hattributes hhash).2 (by simp), ?_⟩
    intro v hreach hcollection hne
    obtain ⟨-, hinstance⟩ | hholding | hv := hf.reaches hreach
    · cases hinstance.symm.trans hcollection
    · exact hholding.unfrozen (by simp) hcollection
    · exact absurd hv hne
  | none =>
    refine ⟨Bool.eq_false_iff.2 fun hfrozen => hf.isFrozen.1 hfrozen rfl, ?_⟩
    intro v hreach hcollection
    obtain ⟨-, hinstance⟩ | hholding | hv := hf.reaches hreach
    · cases hinstance.symm.trans hcollection
    · exact hholding.unfrozen (by simp) hcollection
    · exact Bool.eq_false_iff.2 fun hfrozen => (hattributes hv).1 hfrozen rfl

/-- For every root, plan and setting, with a class that allocates plain objects: when a build
returns, the attributes that were stored are in their instance variable, and from the instance
exactly what the mode promises is frozen. -/
theorem materializeInstance_freezes (x : Externals) {klass : String} {attrIvar : Option String}
    {root : OwnedValue} {plan : MaterializePlan} {freezeMode : FreezeMode} {storeAttributes : Bool}
    {h h' : Heap} {built : Value}
    (hrun : (materializeInstance x klass attrIvar root plan freezeMode storeAttributes).run h =
      .ok (built, h')) :
    (storeAttributes = true → ∀ name ∈ attrIvar, ∃ hash, h'.ivar name built = some hash ∧
        h'.isHash hash = true) ∧
      freezeMode.Promises h'
        (if storeAttributes then attrIvar.bind fun name => h'.ivar name built else none) built := by
  obtain ⟨t, -, rfl, -, attributes, ivars', hstore, -, hf⟩ :=
    (materializeInstance_simulates klass attrIvar root plan freezeMode storeAttributes h).returns
      hrun
  cases attributes with
  | none =>
    cases hstore
    have hpromises := hf.promises
    rw [Option.bind_fun_none] at hpromises
    refine ⟨?_, hpromises⟩
    intro hfalse
    cases hfalse
  | some hash =>
    cases hstore
    refine ⟨fun _ name hname => ⟨hash, hf.ivar hname rfl, (hf.hash_isFrozen rfl).1⟩, ?_⟩
    have hsame : (attrIvar.bind fun name => h'.ivar name (.ref h.length)) =
        attrIvar.bind fun _ => some hash :=
      Option.bind_congr fun name hname => hf.ivar hname rfl
    rw [if_pos Option.isSome_some, hsame]
    exact hf.promises

/-- A struct with an array and, among the extras, another one. -/
def arrays : OwnedValue :=
  .struct ⟨["tags"], [some (.list [.string "a"])], some [("more", .list [])]⟩

/-- The two arrays are not frozen. -/
theorem materializeInstance_freezes_arrays :
    ∃ built h', (materializeInstance (.reading "null" .null) "Post" attrIvarName arrays
        ⟨[.named "tags"]⟩ .shallow true).run [] = .ok (built, h') ∧
      FreezeMode.shallow.Promises h' (h'.ivar "@attributes" built) built := by
  cases hrun : (materializeInstance (.reading "null" .null) "Post" attrIvarName arrays
    ⟨[.named "tags"]⟩ .shallow true).run [] with
  | ok result => exact ⟨result.1, result.2, rfl, (materializeInstance_freezes _ hrun).2⟩
  | error stop => cases hrun

end Objects
end RustlyCore
