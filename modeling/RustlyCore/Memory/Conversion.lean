import RustlyCore.Lib.Bounded
import RustlyCore.Memory.Reachable

/-!
# Preparing an input in memory (`convert_ruby_value`)

The conversion of an input follows references, with one stack frame for each container that it is
in. Parts may be shared; a container that contains itself has no end. A tree is converted in memory
as it is by itself, and whatever takes more frames than there are objects takes more than any
number.
-/

namespace RustlyCore

open Bounded (Below Alike settled exhausted)

/-- The error of a Rust function and whatever stops it. -/
abbrev Conversion := Bounded (Stop RubyException InputError)

namespace Objects

/-! ## The conversion -/

/-- `class_name` of a value that is no reference. -/
def immediateClass : Value → String
  | .nil => RubyValue.nil.className
  | .bool b => (RubyValue.bool b).className
  | .integer _ => "Integer"
  | .float _ => "Float"
  | .symbol _ => "Symbol"
  | .ref _ => "Unknown"

/-- A key that is the object at an address. -/
def objectKey (path : List PathSegment) : Option Slot → Result InputError String
  | some (.string _ bytes) => allocStrFromBytes bytes
  | some slot => .fail (.invalidHashKey (formatPath path) slot.basic.klass)
  | none => .undefined

def extractHashKey (h : Heap) (path : List PathSegment) (key : Value) : Result InputError String :=
  match key with
  | .symbol bytes => allocStrFromBytes bytes
  | .ref address => objectKey path h[address]?
  | key => .fail (.invalidHashKey (formatPath path) (immediateClass key))

/-- `convert` is the recursive call, here and below. -/
def convertArray (convert : List PathSegment → Value → Conversion OwnedValue)
    (path : List PathSegment) (index : Nat) : List Value → Conversion (List OwnedValue)
  | [] => return []
  | element :: items => do
    let converted ← convert (path ++ [.index index]) element
    let items ← convertArray convert path (index + 1) items
    return converted :: items

def convertHash (h : Heap) (convert : List PathSegment → Value → Conversion OwnedValue)
    (path : List PathSegment) : List (Value × Value) → Conversion OwnedDict
  | [] => return []
  | (key, value) :: entries => do
    let keyRef ← settled (extractHashKey h path key)
    let converted ← convert (path ++ [.key keyRef]) value
    let entries ← convertHash h convert path entries
    return (keyRef, converted) :: entries

/-- The object at an address, if there is one. -/
def convertObject (h : Heap) (convert : List PathSegment → Value → Conversion OwnedValue)
    (path : List PathSegment) : Option Slot → Conversion OwnedValue
  | some (.string _ bytes) => return .string (← settled (allocStrFromBytes bytes))
  | some (.array _ items) => return .list (← convertArray convert path 0 items)
  | some (.hash _ entries) => return .dict (← convertHash h convert path entries)
  | some (.object basic _) =>
    settled (Fallible.fail (.unsupportedType (formatPath path) basic.klass))
  | none => settled Fallible.undefined

def convertWithin (h : Heap) : Nat → List PathSegment → Value → Conversion OwnedValue
  | 0, _, _ => exhausted
  | depth + 1, path, value =>
    match value with
    | .nil => return .null
    | .bool b => return .bool b
    | .integer i => return .int (← settled (num2ll i))
    | .float f => return .float f
    | .symbol bytes => return .symbol (← settled (allocStrFromBytes bytes))
    | .ref address => convertObject h (convertWithin h depth) path h[address]?

/-- With a frame for every object and one more. -/
def convertRubyValue (h : Heap) (path : List PathSegment) (value : Value) : Conversion OwnedValue :=
  convertWithin h (h.length + 1) path value

end Objects

/-! ## Trees in memory -/

mutual
/-- The reference is to this tree. Parts may lie anywhere and may be shared. The instance variables
of a plain object are not looked at. -/
def Heap.Unfolds (h : Heap) (value : Value) : RubyValue → Prop
  | .nil => value = .nil
  | .bool b => value = .bool b
  | .integer i => value = .integer i
  | .float f => value = .float f
  | .symbol bytes => value = .symbol bytes
  | .string basic bytes => ∃ a, value = .ref a ∧ h[a]? = some (.string basic bytes)
  | .array basic elements => ∃ a items, value = .ref a ∧ h[a]? = some (.array basic items) ∧
      h.UnfoldsItems items elements
  | .hash basic pairs => ∃ a entries, value = .ref a ∧ h[a]? = some (.hash basic entries) ∧
      h.UnfoldsEntries entries pairs
  | .object basic ivars => ivars = [] ∧ ∃ a ivars, value = .ref a ∧
      h[a]? = some (.object basic ivars)

def Heap.UnfoldsItems (h : Heap) : List Value → List RubyValue → Prop
  | item :: items, element :: elements => h.Unfolds item element ∧ h.UnfoldsItems items elements
  | [], [] => True
  | _, _ => False

def Heap.UnfoldsEntries (h : Heap) : List (Value × Value) → List (RubyValue × RubyValue) → Prop
  | (k, v) :: entries, (key, value) :: pairs =>
    (h.Unfolds k key ∧ h.Unfolds v value) ∧ h.UnfoldsEntries entries pairs
  | [], [] => True
  | _, _ => False
end

namespace Heap

def UnfoldsEntry (h : Heap) (p : Value × Value) (q : RubyValue × RubyValue) : Prop :=
  h.Unfolds p.1 q.1 ∧ h.Unfolds p.2 q.2

variable {h : Heap} {v w : Value} {a : Nat} {basic : RBasic} {path : List PathSegment}

theorem unfoldsItems_iff {items : List Value} {elements : List RubyValue} :
    h.UnfoldsItems items elements ↔ List.Forall₂ h.Unfolds items elements := by
  induction items generalizing elements with
  | nil => cases elements <;> simp [UnfoldsItems]
  | cons item items ih => cases elements <;> simp [UnfoldsItems, ih]

theorem unfoldsEntries_iff {entries : List (Value × Value)} {pairs : List (RubyValue × RubyValue)} :
    h.UnfoldsEntries entries pairs ↔ List.Forall₂ h.UnfoldsEntry entries pairs := by
  induction entries generalizing pairs with
  | nil => cases pairs <;> simp [UnfoldsEntries]
  | cons p entries ih => cases pairs <;> simp [UnfoldsEntries, UnfoldsEntry, ih]

theorem unfolds_array_iff {elements : List RubyValue} :
    h.Unfolds v (.array basic elements) ↔ ∃ a items, v = .ref a ∧
      h[a]? = some (.array basic items) ∧ List.Forall₂ h.Unfolds items elements := by
  simp only [Unfolds, unfoldsItems_iff]

theorem unfolds_hash_iff {pairs : List (RubyValue × RubyValue)} :
    h.Unfolds v (.hash basic pairs) ↔ ∃ a entries, v = .ref a ∧
      h[a]? = some (.hash basic entries) ∧ List.Forall₂ h.UnfoldsEntry entries pairs := by
  simp only [Unfolds, unfoldsEntries_iff]

/-- What is built in memory is a tree there. -/
theorem Denotes.unfolds {n : Nat} {t : RubyValue} (ht : h.Denotes n v t) : h.Unfolds v t := by
  induction t generalizing n v with
  | string basic bytes =>
    obtain ⟨a, -, hrest⟩ := ht
    exact ⟨a, hrest⟩
  | array basic elements ih =>
    obtain ⟨a, items, -, rfl, hslot, hitems⟩ := denotes_array_iff.1 ht
    exact unfolds_array_iff.2
      ⟨a, items, rfl, hslot, forall₂_imp_mem hitems fun _ _ t hmem => ih t hmem⟩
  | hash basic pairs ih =>
    obtain ⟨a, entries, -, rfl, hslot, hentries⟩ := denotes_hash_iff.1 ht
    refine unfolds_hash_iff.2 ⟨a, entries, rfl, hslot, ?_⟩
    exact forall₂_imp_mem hentries fun _ _ q hq hpq => ⟨(ih q hq).1 hpq.1, (ih q hq).2 hpq.2⟩
  | object => exact absurd ht Denotes.not_object
  | _ => exact ht

end Heap

namespace Objects

variable {h : Heap} {path path' : List PathSegment} {depth depth' : Nat} {v w : Value}
  {w' : OwnedValue}

/-! ## More depth -/

section
variable {convert convert' : List PathSegment → Value → Conversion OwnedValue}

theorem convertArray_below (hc : ∀ path v, Below (convert path v) (convert' path v))
    (path : List PathSegment) (index : Nat) (items : List Value) :
    Below (convertArray convert path index items) (convertArray convert' path index items) := by
  induction items generalizing index with
  | nil => exact .refl _
  | cons element items ih => exact (hc _ _).bind fun _ => (ih _).bind fun _ => .refl _

theorem convertHash_below (hc : ∀ path v, Below (convert path v) (convert' path v))
    (path : List PathSegment) (entries : List (Value × Value)) :
    Below (convertHash h convert path entries) (convertHash h convert' path entries) := by
  induction entries with
  | nil => exact .refl _
  | cons entry entries ih =>
    exact (Below.refl _).bind fun _ => (hc _ _).bind fun _ => ih.bind fun _ => .refl _

theorem convertObject_below (hc : ∀ path v, Below (convert path v) (convert' path v))
    (path : List PathSegment) (object : Option Slot) :
    Below (convertObject h convert path object) (convertObject h convert' path object) := by
  cases object with
  | none => exact .refl _
  | some slot =>
    cases slot with
    | array basic items => exact (convertArray_below hc path 0 items).bind fun _ => .refl _
    | hash basic entries => exact (convertHash_below hc path entries).bind fun _ => .refl _
    | _ => exact .refl _

end

theorem convertWithin_below (h : Heap) (depth : Nat) (path : List PathSegment) (v : Value) :
    Below (convertWithin h depth path v) (convertWithin h (depth + 1) path v) := by
  induction depth generalizing path v with
  | zero => exact .inl rfl
  | succ depth ih =>
    cases v with
    | ref a => exact convertObject_below ih path h[a]?
    | _ => exact .refl _

theorem convertWithin_mono (h : Heap) (hle : depth ≤ depth') (path : List PathSegment) (v : Value) :
    Below (convertWithin h depth path v) (convertWithin h depth' path v) := by
  induction depth', hle using Nat.le_induction with
  | base => exact .refl _
  | succ depth' _ ih => exact ih.trans (convertWithin_below h depth' path v)

/-! ## Other paths -/

section
variable {convert : List PathSegment → Value → Conversion OwnedValue}

theorem text_alike (bytes : ByteArray) :
    Alike (settled (allocStrFromBytes bytes : Result InputError String))
      (settled (allocStrFromBytes bytes : Result InputError String)) := by
  cases (allocStrFromBytes bytes : Result InputError String) with
  | ok s => exact .ok s
  | error stop => exact .error stop stop

theorem objectKey_alike (path path' : List PathSegment) (object : Option Slot) :
    Alike (settled (objectKey path object)) (settled (objectKey path' object)) := by
  cases object with
  | none => exact .error _ _
  | some slot =>
    cases slot with
    | string basic bytes => exact text_alike bytes
    | _ => exact .error _ _

theorem extractHashKey_alike (h : Heap) (path path' : List PathSegment) (key : Value) :
    Alike (settled (extractHashKey h path key)) (settled (extractHashKey h path' key)) := by
  cases key with
  | symbol bytes => exact text_alike bytes
  | ref a => exact objectKey_alike path path' h[a]?
  | _ => exact .error _ _

theorem convertArray_alike (hc : ∀ path path' v, Alike (convert path v) (convert path' v))
    (path path' : List PathSegment) (index index' : Nat) (items : List Value) :
    Alike (convertArray convert path index items) (convertArray convert path' index' items) := by
  induction items generalizing index index' with
  | nil => exact .ok []
  | cons element items ih => exact (hc _ _ _).bind fun _ => (ih _ _).bind fun _ => .ok _

theorem convertHash_alike (hc : ∀ path path' v, Alike (convert path v) (convert path' v))
    (path path' : List PathSegment) (entries : List (Value × Value)) :
    Alike (convertHash h convert path entries) (convertHash h convert path' entries) := by
  induction entries with
  | nil => exact .ok []
  | cons entry entries ih =>
    exact (extractHashKey_alike h path path' entry.1).bind fun _ =>
      (hc _ _ _).bind fun _ => ih.bind fun _ => .ok _

/-- A text or a number is converted without a path. -/
theorem leaf_alike {α : Type} (t : Result InputError α) (wrap : α → OwnedValue) :
    Alike (settled t >>= fun a => (pure (wrap a) : Conversion OwnedValue))
      (settled t >>= fun a => (pure (wrap a) : Conversion OwnedValue)) := by
  cases t with
  | ok a => exact .ok _
  | error stop => exact .error stop stop

theorem convertObject_alike (hc : ∀ path path' v, Alike (convert path v) (convert path' v))
    (path path' : List PathSegment) (object : Option Slot) :
    Alike (convertObject h convert path object) (convertObject h convert path' object) := by
  cases object with
  | none => exact .error _ _
  | some slot =>
    cases slot with
    | string basic bytes => exact leaf_alike _ _
    | array basic items => exact (convertArray_alike hc path path' 0 0 items).bind fun _ => .ok _
    | hash basic entries => exact (convertHash_alike hc path path' entries).bind fun _ => .ok _
    | object basic ivars => exact .error _ _

end

/-- The path is for errors only. -/
theorem convertWithin_alike (h : Heap) (depth : Nat) (path path' : List PathSegment) (v : Value) :
    Alike (convertWithin h depth path v) (convertWithin h depth path' v) := by
  induction depth generalizing path path' v with
  | zero => exact .exhausted
  | succ depth ih =>
    cases v with
    | ref a => exact convertObject_alike ih path path' h[a]?
    | integer | symbol => exact leaf_alike _ _
    | _ => exact .ok _

/-! ## What is visited -/

/-- Some depth is enough for the value, and it is converted. -/
def Converts (h : Heap) (v : Value) : Prop :=
  ∃ depth path w, convertWithin h depth path v = settled (.ok w)

def KeyReads (h : Heap) (key : Value) : Prop :=
  ∃ path s, extractHashKey h path key = .ok s

/-- The conversion of the one value comes to the other: what lies before it converts. -/
inductive Visits (h : Heap) : Value → Value → Prop
  | item {a : Nat} {basic : RBasic} {before after : List Value} {w : Value} :
    h[a]? = some (.array basic (before ++ w :: after)) → (∀ u ∈ before, Converts h u) →
    Visits h (.ref a) w
  | entry {a : Nat} {basic : RBasic} {before after : List (Value × Value)} {key w : Value} :
    h[a]? = some (.hash basic (before ++ (key, w) :: after)) →
    (∀ p ∈ before, KeyReads h p.1 ∧ Converts h p.2) → KeyReads h key → Visits h (.ref a) w

/-- At every depth the value is converted or the depth is exhausted. -/
theorem Converts.either (hv : Converts h v) (depth : Nat) (path : List PathSegment) :
    convertWithin h depth path v = exhausted ∨
      ∃ w, convertWithin h depth path v = settled (.ok w) := by
  obtain ⟨depth₀, path₀, w, hw⟩ := hv
  have hw' := (convertWithin_alike h depth₀ path₀ path v).ok_iff.1 hw
  obtain hle | hle := Nat.le_total depth depth₀
  · obtain hnone | heq := convertWithin_mono h hle path v
    · exact .inl hnone
    · exact .inr ⟨w, heq.trans hw'⟩
  · have hne : convertWithin h depth₀ path v ≠ exhausted := hw' ▸ Bounded.settled_ne_exhausted _
    exact .inr ⟨w, ((convertWithin_mono h hle path v).eq_of_ne hne).trans hw'⟩

theorem KeyReads.reads {key : Value} (hkey : KeyReads h key) (path : List PathSegment) :
    ∃ s, extractHashKey h path key = .ok s := by
  obtain ⟨path₀, s, hs⟩ := hkey
  refine ⟨s, Bounded.settled_inj.1 ?_⟩
  exact (extractHashKey_alike h path₀ path key).ok_iff.1 (Bounded.settled_inj.2 hs)

theorem convertArray_visits {items : List Value} {index : Nat}
    (hx : convertArray (convertWithin h depth) path index items = exhausted) :
    ∃ before w after, items = before ++ w :: after ∧ (∀ u ∈ before, Converts h u) ∧
      ∃ path, convertWithin h depth path w = exhausted := by
  induction items generalizing index with
  | nil => exact absurd hx (Bounded.settled_ne_exhausted _)
  | cons element items ih =>
    obtain hhere | ⟨converted, hconverted, hx⟩ := Bounded.bind_eq_exhausted.1 hx
    · exact ⟨[], element, items, rfl, List.forall_mem_nil _, _, hhere⟩
    · obtain hrest | ⟨_, _, hnone⟩ := Bounded.bind_eq_exhausted.1 hx
      · obtain ⟨before, w, after, rfl, hbefore, hw⟩ := ih hrest
        refine ⟨element :: before, w, after, rfl, List.forall_mem_cons.2 ⟨?_, hbefore⟩, hw⟩
        exact ⟨depth, _, converted, hconverted⟩
      · exact absurd hnone (Bounded.settled_ne_exhausted _)

theorem convertHash_visits {entries : List (Value × Value)}
    (hx : convertHash h (convertWithin h depth) path entries = exhausted) :
    ∃ before key w after, entries = before ++ (key, w) :: after ∧
      (∀ p ∈ before, KeyReads h p.1 ∧ Converts h p.2) ∧ KeyReads h key ∧
      ∃ path, convertWithin h depth path w = exhausted := by
  induction entries with
  | nil => exact absurd hx (Bounded.settled_ne_exhausted _)
  | cons entry entries ih =>
    obtain ⟨key, value⟩ := entry
    obtain hnone | ⟨keyRef, hkey, hx⟩ := Bounded.bind_eq_exhausted.1 hx
    · exact absurd hnone (Bounded.settled_ne_exhausted _)
    · have hreads : KeyReads h key := ⟨path, keyRef, Bounded.settled_inj.1 hkey⟩
      obtain hhere | ⟨converted, hconverted, hx⟩ := Bounded.bind_eq_exhausted.1 hx
      · exact ⟨[], key, value, entries, rfl, List.forall_mem_nil _, hreads, _, hhere⟩
      · obtain hrest | ⟨_, _, hnone⟩ := Bounded.bind_eq_exhausted.1 hx
        · obtain ⟨before, key', w, after, rfl, hbefore, hw⟩ := ih hrest
          refine ⟨(key, value) :: before, key', w, after, rfl, ?_, hw⟩
          refine List.forall_mem_cons.2 ⟨?_, hbefore⟩
          exact ⟨hreads, depth, _, converted, hconverted⟩
        · exact absurd hnone (Bounded.settled_ne_exhausted _)

theorem convertArray_exhausted {before after : List Value} {index : Nat}
    (hbefore : ∀ u ∈ before, Converts h u) (hw : ∀ path, convertWithin h depth path w = exhausted) :
    convertArray (convertWithin h depth) path index (before ++ w :: after) = exhausted := by
  induction before generalizing index with
  | nil => exact Bounded.bind_eq_exhausted.2 (.inl (hw _))
  | cons u before ih =>
    obtain ⟨hu, hbefore⟩ := List.forall_mem_cons.1 hbefore
    obtain hnone | ⟨converted, hconverted⟩ := hu.either depth (path ++ [.index index])
    · exact Bounded.bind_eq_exhausted.2 (.inl hnone)
    · refine Bounded.bind_eq_exhausted.2 (.inr ⟨converted, hconverted, ?_⟩)
      exact Bounded.bind_eq_exhausted.2 (.inl (ih hbefore))

theorem convertHash_exhausted {before after : List (Value × Value)} {key : Value}
    (hbefore : ∀ p ∈ before, KeyReads h p.1 ∧ Converts h p.2) (hkey : KeyReads h key)
    (hw : ∀ path, convertWithin h depth path w = exhausted) :
    convertHash h (convertWithin h depth) path (before ++ (key, w) :: after) = exhausted := by
  induction before with
  | nil =>
    obtain ⟨keyRef, hreads⟩ := hkey.reads path
    refine Bounded.bind_eq_exhausted.2 (.inr ⟨keyRef, congrArg settled hreads, ?_⟩)
    exact Bounded.bind_eq_exhausted.2 (.inl (hw _))
  | cons p before ih =>
    obtain ⟨⟨hp, hu⟩, hbefore⟩ := List.forall_mem_cons.1 hbefore
    obtain ⟨keyRef, hreads⟩ := hp.reads path
    refine Bounded.bind_eq_exhausted.2 (.inr ⟨keyRef, congrArg settled hreads, ?_⟩)
    obtain hnone | ⟨converted, hconverted⟩ := hu.either depth (path ++ [.key keyRef])
    · exact Bounded.bind_eq_exhausted.2 (.inl hnone)
    · refine Bounded.bind_eq_exhausted.2 (.inr ⟨converted, hconverted, ?_⟩)
      exact Bounded.bind_eq_exhausted.2 (.inl (ih hbefore))

/-- The first step of a walk, where the depth is exhausted. -/
theorem convertWithin_visits (hx : convertWithin h (depth + 1) path v = exhausted) :
    ∃ w, Visits h v w ∧ ∃ path, convertWithin h depth path w = exhausted := by
  have hleaf {α : Type} {t : Result InputError α} {wrap : α → OwnedValue}
      (hx : (settled t >>= fun a => pure (wrap a) : Conversion OwnedValue) = exhausted) :
      False := by
    obtain hnone | ⟨a, -, hnone⟩ := Bounded.bind_eq_exhausted.1 hx
    · exact Bounded.settled_ne_exhausted _ hnone
    · exact Bounded.settled_ne_exhausted _ hnone
  cases v with
  | ref a =>
    rw [convertWithin] at hx
    cases hslot : h[a]? with
    | none =>
      rw [hslot] at hx
      exact absurd hx (Bounded.settled_ne_exhausted _)
    | some slot =>
      rw [hslot] at hx
      cases slot with
      | string basic bytes => exact absurd hx fun hx => hleaf hx
      | array basic items =>
        obtain hitems | ⟨_, _, hnone⟩ := Bounded.bind_eq_exhausted.1 hx
        · obtain ⟨before, w, after, rfl, hbefore, hw⟩ := convertArray_visits hitems
          exact ⟨w, .item hslot hbefore, hw⟩
        · exact absurd hnone (Bounded.settled_ne_exhausted _)
      | hash basic entries =>
        obtain hentries | ⟨_, _, hnone⟩ := Bounded.bind_eq_exhausted.1 hx
        · obtain ⟨before, key, w, after, rfl, hbefore, hkey, hw⟩ := convertHash_visits hentries
          exact ⟨w, .entry hslot hbefore hkey, hw⟩
        · exact absurd hnone (Bounded.settled_ne_exhausted _)
      | object basic ivars => exact absurd hx (Bounded.settled_ne_exhausted _)
  | integer | symbol => exact absurd hx fun hx => hleaf hx
  | _ => exact absurd hx (Bounded.settled_ne_exhausted _)

theorem Visits.exhausted (hvisits : Visits h v w)
    (hw : ∀ path, convertWithin h depth path w = exhausted) (path : List PathSegment) :
    convertWithin h (depth + 1) path v = exhausted := by
  cases hvisits with
  | item hslot hbefore =>
    rw [convertWithin, hslot]
    exact Bounded.bind_eq_exhausted.2 (.inl (convertArray_exhausted hbefore hw))
  | entry hslot hbefore hkey =>
    rw [convertWithin, hslot]
    exact Bounded.bind_eq_exhausted.2 (.inl (convertHash_exhausted hbefore hkey hw))

/-- The depth is exhausted exactly where that many steps of visits can be made. -/
theorem convertWithin_exhausted_iff :
    convertWithin h depth path v = exhausted ↔ Descends (Visits h) depth v := by
  induction depth generalizing path v with
  | zero => exact iff_of_true rfl trivial
  | succ depth ih =>
    constructor
    · intro hx
      obtain ⟨w, hvisits, path', hw⟩ := convertWithin_visits hx
      exact ⟨w, hvisits, ih.1 hw⟩
    · intro hdescends
      obtain ⟨w, hvisits, hw⟩ := hdescends
      exact hvisits.exhausted (fun path => ih.2 hw) path

/-! ## Cycles -/

theorem Visits.lt (hvisits : Visits h v w) : ∃ a, v = .ref a ∧ a < h.length := by
  cases hvisits with
  | item hslot | entry hslot => exact ⟨_, rfl, Memory.lt_of_get hslot⟩

theorem Visits.mem_children (hvisits : Visits h v w) : w ∈ h.children v := by
  cases hvisits with
  | item hslot =>
    rw [Heap.children, hslot]
    exact List.mem_append_right _ List.mem_cons_self
  | entry hslot =>
    rw [Heap.children, hslot]
    exact List.mem_flatMap.2 ⟨_, List.mem_append_right _ List.mem_cons_self, by simp⟩

theorem reaches_of_visits (hvisits : Relation.ReflTransGen (Visits h) v w) : h.Reaches v w := by
  induction hvisits using Relation.ReflTransGen.head_induction_on with
  | refl => exact .refl w
  | head hvisit _ ih => exact .step hvisit.mem_children ih

def address : Value → Nat
  | .ref a => a
  | _ => 0

/-- Whatever needs more frames than there are objects runs into a cycle. -/
theorem convertRubyValue_cycle (hx : convertRubyValue h path v = exhausted) :
    ∃ u, Relation.ReflTransGen (Visits h) v u ∧ Relation.TransGen (Visits h) u u := by
  apply (convertWithin_exhausted_iff.1 hx).cycle address
  · intro v w hvisits
    obtain ⟨a, rfl, hlt⟩ := hvisits.lt
    exact hlt
  · intro v v' w w' hvisits hvisits' heq
    obtain ⟨a, rfl, -⟩ := hvisits.lt
    obtain ⟨a', rfl, -⟩ := hvisits'.lt
    exact congrArg Value.ref heq

/-- No depth is enough where one frame for each object is not. -/
theorem convertRubyValue_exhausted_iff : convertRubyValue h path v = exhausted ↔
    ∀ depth path, convertWithin h depth path v = exhausted := by
  refine ⟨?_, fun hx => hx _ _⟩
  intro hx depth path
  obtain ⟨u, hreach, hcycle⟩ := convertRubyValue_cycle hx
  exact convertWithin_exhausted_iff.2 (descends_of_cycle hcycle hreach depth)

/-- What some depth says is what the conversion says. -/
theorem convertRubyValue_eq {t : Result InputError OwnedValue}
    (ht : convertWithin h depth path v = settled t) : convertRubyValue h path v = settled t := by
  have hne : convertRubyValue h path v ≠ exhausted := by
    intro hx
    rw [convertRubyValue_exhausted_iff.1 hx] at ht
    exact Bounded.settled_ne_exhausted _ ht.symm
  obtain hle | hle := Nat.le_total depth (h.length + 1)
  · obtain hnone | heq := convertWithin_mono h hle path v
    · rw [hnone] at ht
      exact absurd ht.symm (Bounded.settled_ne_exhausted _)
    · exact heq.symm.trans ht
  · exact ((convertWithin_mono h hle path v).eq_of_ne hne).symm.trans ht

/-! ## Trees -/

theorem extractHashKey_unfolds {k : Value} {key : RubyValue} (hk : h.Unfolds k key)
    (path : List PathSegment) : extractHashKey h path k = RustlyCore.extractHashKey path key := by
  cases key with
  | string basic bytes =>
    obtain ⟨a, rfl, hslot⟩ := hk
    rw [extractHashKey, hslot]
    rfl
  | array | hash =>
    obtain ⟨a, _, rfl, hslot, -⟩ := hk
    rw [extractHashKey, hslot]
    rfl
  | object basic ivars =>
    obtain ⟨rfl, a, _, rfl, hslot⟩ := hk
    rw [extractHashKey, hslot]
    rfl
  | bool b =>
    cases hk
    rfl
  | _ =>
    cases hk
    rfl

/-- With enough depth the value is converted as the tree is. -/
def ConvertsAs (h : Heap) (v : Value) (t : RubyValue) : Prop :=
  ∃ depth₀, ∀ depth, depth₀ ≤ depth → ∀ path,
    convertWithin h depth path v = settled (RustlyCore.convertRubyValue path t)

theorem convertArray_tree {items : List Value} {elements : List RubyValue}
    (hitems : List.Forall₂ (ConvertsAs h) items elements) :
    ∃ depth₀, ∀ depth, depth₀ ≤ depth → ∀ path index,
      convertArray (convertWithin h depth) path index items =
        settled (RustlyCore.convertArray path index elements) := by
  induction hitems with
  | nil => exact ⟨0, fun _ _ _ _ => rfl⟩
  | @cons item element items elements hitem _ ih =>
    obtain ⟨depth₁, hitem⟩ := hitem
    obtain ⟨depth₂, hitems⟩ := ih
    refine ⟨max depth₁ depth₂, ?_⟩
    intro depth hle path index
    have hhere := hitem depth (le_of_max_le_left hle) (path ++ [.index index])
    have hrest := hitems depth (le_of_max_le_right hle) path (index + 1)
    rw [convertArray, RustlyCore.convertArray, hhere, hrest]
    cases RustlyCore.convertRubyValue (path ++ [.index index]) element with
    | error stop => rfl
    | ok converted => cases RustlyCore.convertArray path (index + 1) elements <;> rfl

theorem convertHash_tree {entries : List (Value × Value)} {pairs : List (RubyValue × RubyValue)}
    (hentries : List.Forall₂ (fun p q => h.Unfolds p.1 q.1 ∧ ConvertsAs h p.2 q.2) entries pairs) :
    ∃ depth₀, ∀ depth, depth₀ ≤ depth → ∀ path,
      convertHash h (convertWithin h depth) path entries =
        settled (RustlyCore.convertHash path pairs) := by
  induction hentries with
  | nil => exact ⟨0, fun _ _ _ => rfl⟩
  | @cons p q entries pairs hpq _ ih =>
    obtain ⟨key, value⟩ := q
    obtain ⟨hkey, depth₁, hvalue⟩ := hpq
    obtain ⟨depth₂, hentries⟩ := ih
    refine ⟨max depth₁ depth₂, ?_⟩
    intro depth hle path
    rw [convertHash, RustlyCore.convertHash, extractHashKey_unfolds hkey]
    cases RustlyCore.extractHashKey path key with
    | error stop => rfl
    | ok keyRef =>
      have hhere := hvalue depth (le_of_max_le_left hle) (path ++ [.key keyRef])
      have hrest := hentries depth (le_of_max_le_right hle) path
      rw [Bounded.ok_bind, hhere, hrest]
      change _ = settled (RustlyCore.convertRubyValue (path ++ [.key keyRef]) value >>= _)
      cases RustlyCore.convertRubyValue (path ++ [.key keyRef]) value with
      | error stop => rfl
      | ok converted => cases RustlyCore.convertHash path pairs <;> rfl

/-- One frame for the value itself. -/
theorem ConvertsAs.of_body {t : RubyValue} {body : Nat → List PathSegment → Conversion OwnedValue}
    (heq : ∀ depth path, convertWithin h (depth + 1) path v = body depth path)
    (hbody : ∃ depth₀, ∀ depth, depth₀ ≤ depth → ∀ path,
      body depth path = settled (RustlyCore.convertRubyValue path t)) : ConvertsAs h v t := by
  obtain ⟨depth₀, hbody⟩ := hbody
  refine ⟨depth₀ + 1, ?_⟩
  intro depth hle path
  obtain ⟨depth, rfl⟩ := Nat.exists_eq_succ_of_ne_zero (Nat.ne_zero_of_lt hle)
  exact (heq depth path).trans (hbody depth (Nat.le_of_succ_le_succ hle) path)

theorem convertsAs_of_unfolds {t : RubyValue} (ht : h.Unfolds v t) : ConvertsAs h v t := by
  induction t generalizing v with
  | nil | bool | float =>
    cases ht
    exact .of_body (fun _ _ => rfl) ⟨0, fun _ _ _ => rfl⟩
  | integer i =>
    cases ht
    refine .of_body (fun _ _ => rfl) ⟨0, fun _ _ path => ?_⟩
    exact Bounded.settled_bind (num2ll i) fun i => pure (OwnedValue.int i)
  | symbol bytes =>
    cases ht
    refine .of_body (fun _ _ => rfl) ⟨0, fun _ _ path => ?_⟩
    exact Bounded.settled_bind (allocStrFromBytes bytes) fun s => pure (OwnedValue.symbol s)
  | string basic bytes =>
    obtain ⟨a, rfl, hslot⟩ := ht
    refine .of_body (fun depth path => by rw [convertWithin, hslot]) ⟨0, fun _ _ path => ?_⟩
    exact Bounded.settled_bind (allocStrFromBytes bytes) fun s => pure (OwnedValue.string s)
  | array basic elements ih =>
    obtain ⟨a, items, rfl, hslot, hitems⟩ := Heap.unfolds_array_iff.1 ht
    refine .of_body (fun depth path => by rw [convertWithin, hslot]) ?_
    obtain ⟨depth₀, hconverted⟩ :=
      convertArray_tree (forall₂_imp_mem hitems fun _ _ t hmem ht => ih t hmem ht)
    refine ⟨depth₀, ?_⟩
    intro depth hle path
    rw [convertObject, hconverted depth hle]
    exact Bounded.settled_bind (RustlyCore.convertArray path 0 elements) fun items =>
      pure (OwnedValue.list items)
  | hash basic pairs ih =>
    obtain ⟨a, entries, rfl, hslot, hentries⟩ := Heap.unfolds_hash_iff.1 ht
    refine .of_body (fun depth path => by rw [convertWithin, hslot]) ?_
    obtain ⟨depth₀, hconverted⟩ := convertHash_tree
      (forall₂_imp_mem hentries fun _ _ q hq hpq => ⟨hpq.1, (ih q hq).2 hpq.2⟩)
    refine ⟨depth₀, ?_⟩
    intro depth hle path
    rw [convertObject, hconverted depth hle]
    exact Bounded.settled_bind (RustlyCore.convertHash path pairs)
      fun map => pure (OwnedValue.dict map)
  | object basic ivars =>
    obtain ⟨rfl, a, _, rfl, hslot⟩ := ht
    refine .of_body (fun depth path => by rw [convertWithin, hslot]) ⟨0, fun _ _ _ => ?_⟩
    rfl

/-! ### What converts is a tree -/

theorem tree_of_convertArray (ih : ∀ path v w, convertWithin h depth path v = settled (.ok w) →
      ∃ t, h.Unfolds v t ∧ RustlyCore.convertRubyValue path t = .ok w)
    {items : List Value} {index : Nat} {outs : List OwnedValue}
    (hok : convertArray (convertWithin h depth) path index items = settled (.ok outs)) :
    ∃ elements, List.Forall₂ h.Unfolds items elements ∧
      RustlyCore.convertArray path index elements = .ok outs := by
  induction items generalizing index outs with
  | nil =>
    cases Bounded.settled_inj.1 hok
    exact ⟨[], .nil, rfl⟩
  | cons item items ihitems =>
    obtain ⟨converted, hitem, hok⟩ := Bounded.bind_eq_ok.1 hok
    obtain ⟨rest, hrest, hok⟩ := Bounded.bind_eq_ok.1 hok
    cases Bounded.settled_inj.1 hok
    obtain ⟨t, ht, hconverted⟩ := ih _ _ _ hitem
    obtain ⟨elements, helements, hrest⟩ := ihitems hrest
    refine ⟨t :: elements, .cons ht helements, ?_⟩
    rw [RustlyCore.convertArray, hconverted, hrest]
    rfl

theorem key_of_extract {k : Value} {s : String} (hok : extractHashKey h path k = .ok s) :
    ∃ key, h.Unfolds k key ∧ RustlyCore.extractHashKey path key = .ok s := by
  cases k with
  | symbol bytes => exact ⟨.symbol bytes, rfl, hok⟩
  | ref a =>
    rw [extractHashKey] at hok
    cases hslot : h[a]? with
    | none =>
      rw [hslot] at hok
      cases hok
    | some slot =>
      rw [hslot] at hok
      cases slot with
      | string basic bytes => exact ⟨.string basic bytes, ⟨a, rfl, hslot⟩, hok⟩
      | _ => cases hok
  | _ => cases hok

theorem tree_of_convertHash (ih : ∀ path v w, convertWithin h depth path v = settled (.ok w) →
      ∃ t, h.Unfolds v t ∧ RustlyCore.convertRubyValue path t = .ok w)
    {entries : List (Value × Value)} {outs : OwnedDict}
    (hok : convertHash h (convertWithin h depth) path entries = settled (.ok outs)) :
    ∃ pairs, List.Forall₂ h.UnfoldsEntry entries pairs ∧
      RustlyCore.convertHash path pairs = .ok outs := by
  induction entries generalizing outs with
  | nil =>
    cases Bounded.settled_inj.1 hok
    exact ⟨[], .nil, rfl⟩
  | cons entry entries ihentries =>
    obtain ⟨keyRef, hkey, hok⟩ := Bounded.bind_eq_ok.1 hok
    obtain ⟨converted, hvalue, hok⟩ := Bounded.bind_eq_ok.1 hok
    obtain ⟨rest, hrest, hok⟩ := Bounded.bind_eq_ok.1 hok
    cases Bounded.settled_inj.1 hok
    obtain ⟨key, hunfolds, hreads⟩ := key_of_extract (Bounded.settled_inj.1 hkey)
    obtain ⟨t, ht, hconverted⟩ := ih _ _ _ hvalue
    obtain ⟨pairs, hpairs, hrest⟩ := ihentries hrest
    refine ⟨(key, t) :: pairs, .cons ⟨hunfolds, ht⟩ hpairs, ?_⟩
    rw [RustlyCore.convertHash, hreads, Fallible.ok_bind, hconverted, hrest]
    rfl

theorem tree_of_convertWithin (hok : convertWithin h depth path v = settled (.ok w')) :
    ∃ t, h.Unfolds v t ∧ RustlyCore.convertRubyValue path t = .ok w' := by
  induction depth generalizing path v w' with
  | zero => exact absurd hok.symm (Bounded.settled_ne_exhausted _)
  | succ depth ih =>
    cases v with
    | nil =>
      cases Bounded.settled_inj.1 hok
      exact ⟨.nil, rfl, rfl⟩
    | bool b =>
      cases Bounded.settled_inj.1 hok
      exact ⟨.bool b, rfl, rfl⟩
    | float f =>
      cases Bounded.settled_inj.1 hok
      exact ⟨.float f, rfl, rfl⟩
    | integer i =>
      obtain ⟨j, hj, hok⟩ := Bounded.bind_eq_ok.1 hok
      cases Bounded.settled_inj.1 hok
      refine ⟨.integer i, rfl, ?_⟩
      rw [RustlyCore.convertRubyValue, Bounded.settled_inj.1 hj]
      rfl
    | symbol bytes =>
      obtain ⟨s, hs, hok⟩ := Bounded.bind_eq_ok.1 hok
      cases Bounded.settled_inj.1 hok
      refine ⟨.symbol bytes, rfl, ?_⟩
      rw [RustlyCore.convertRubyValue, Bounded.settled_inj.1 hs]
      rfl
    | ref a =>
      rw [convertWithin] at hok
      cases hslot : h[a]? with
      | none =>
        rw [hslot] at hok
        cases Bounded.settled_inj.1 hok
      | some slot =>
        rw [hslot] at hok
        cases slot with
        | string basic bytes =>
          obtain ⟨s, hs, hok⟩ := Bounded.bind_eq_ok.1 hok
          cases Bounded.settled_inj.1 hok
          refine ⟨.string basic bytes, ⟨a, rfl, hslot⟩, ?_⟩
          rw [RustlyCore.convertRubyValue, Bounded.settled_inj.1 hs]
          rfl
        | array basic items =>
          obtain ⟨outs, houts, hok⟩ := Bounded.bind_eq_ok.1 hok
          cases Bounded.settled_inj.1 hok
          obtain ⟨elements, helements, hconverted⟩ :=
            tree_of_convertArray (fun _ _ _ hok => ih hok) houts
          refine ⟨.array basic elements,
            Heap.unfolds_array_iff.2 ⟨a, items, rfl, hslot, helements⟩, ?_⟩
          rw [RustlyCore.convertRubyValue, hconverted]
          rfl
        | hash basic entries =>
          obtain ⟨outs, houts, hok⟩ := Bounded.bind_eq_ok.1 hok
          cases Bounded.settled_inj.1 hok
          obtain ⟨pairs, hpairs, hconverted⟩ :=
            tree_of_convertHash (fun _ _ _ hok => ih hok) houts
          refine ⟨.hash basic pairs,
            Heap.unfolds_hash_iff.2 ⟨a, entries, rfl, hslot, hpairs⟩, ?_⟩
          rw [RustlyCore.convertRubyValue, hconverted]
          rfl
        | object basic ivars => cases Bounded.settled_inj.1 hok

/-- A tree in memory is converted as the tree itself, with the same error if there is one. What is
converted was a tree. Where the conversion needs more frames than there are objects, no number of
frames is enough, and a container that the value leads to contains itself. -/
theorem convertRubyValue_memory (h : Heap) (v : Value) (path : List PathSegment) :
    (∀ t, h.Unfolds v t →
      convertRubyValue h path v = settled (RustlyCore.convertRubyValue path t)) ∧
    (∀ w, convertRubyValue h path v = settled (.ok w) →
      ∃ t, h.Unfolds v t ∧ RustlyCore.convertRubyValue path t = .ok w) ∧
    (∀ depth t, convertWithin h depth path v = settled t →
      convertRubyValue h path v = settled t) ∧
    (convertRubyValue h path v = exhausted →
      (∀ depth path, convertWithin h depth path v = exhausted) ∧
        ∃ u, h.Reaches v u ∧ ∃ w ∈ h.children u, h.Reaches w u) := by
  refine ⟨?_, fun w hok => tree_of_convertWithin hok, fun depth t => convertRubyValue_eq, ?_⟩
  · intro t ht
    obtain ⟨depth, hconverts⟩ := convertsAs_of_unfolds ht
    exact convertRubyValue_eq (hconverts depth (Nat.le_refl depth) path)
  · intro hx
    obtain ⟨u, hreach, hcycle⟩ := convertRubyValue_cycle hx
    obtain ⟨w, hvisits, hback⟩ := Relation.TransGen.head'_iff.1 hcycle
    exact ⟨convertRubyValue_exhausted_iff.1 hx, u, reaches_of_visits hreach, w,
      hvisits.mem_children, reaches_of_visits hback⟩

/-- An array that contains itself. -/
def loop : Heap := [.array ⟨"Array", false⟩ [.ref 0]]

/-- It is never converted. -/
theorem convertRubyValue_memory_loop (depth : Nat) (path : List PathSegment) :
    convertWithin loop depth path (.ref 0) = exhausted :=
  ((convertRubyValue_memory loop (.ref 0) []).2.2.2 rfl).1 depth path

end Objects
end RustlyCore
