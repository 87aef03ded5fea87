import RustlyCore.Lib.Pointwise
import RustlyCore.Schema.Reading

/-!
# Constraint slots

The options that a node of a kind reads its constraints from, slot by slot. Options are given here
by what they hold under a key.
-/

namespace RustlyCore.SchemaCompiler

/-- What a slot says. Two float bounds of one rank are equal. -/
inductive Constraint where
  | int (bound : Int64)
  | float (rank : Option Binary64.Rank)
  | size (bound : Nat)
  | format (format : StringFormat)
  | extra (behavior : ExtraBehavior)

def slotKeys : Kind → List String
  | .int | .float => ["min", "max"]
  | .string => ["min_size", "max_size", "format"]
  | .list | .dict => ["min_size", "max_size"]
  | .struct => ["extra"]
  | _ => []

/-- `none` for a value that the slot does not take. -/
def readSlot (kind : Kind) (key : String) (value : JsonValue) : Option Constraint :=
  match kind, key with
  | .int, _ => value.asI64.map .int
  | .float, _ => (readFloat value).map fun f => .float (Binary64.rank f.intoInner)
  | .struct, _ => (readExtra (some value)).map .extra
  | _, "format" => (readFormat value).map .format
  | _, _ => (readSize value).map .size

variable {kind : Kind} {options options' : String → Option JsonValue}

/-- Some slot holds what it does not take. -/
def IllFormed (kind : Kind) (options : String → Option JsonValue) : Prop :=
  ∃ k ∈ slotKeys kind, ∃ value, options k = some value ∧ readSlot kind k value = none

/-- Every slot says the same in both, or some slot is ill-formed in the one and some in the
other. -/
def SlotsAgree (kind : Kind) (options options' : String → Option JsonValue) : Prop :=
  (∀ k ∈ slotKeys kind, (options k).map (readSlot kind k) = (options' k).map (readSlot kind k)) ∨
    (IllFormed kind options ∧ IllFormed kind options')

def readSlots (kind : Kind) (options : String → Option JsonValue) :
    Option (List (Option Constraint)) :=
  (slotKeys kind).mapM fun k => slot (readSlot kind k) (options k)

theorem slot_eq_none {α : Type} {parse : JsonValue → Option α} {value : Option JsonValue} :
    slot parse value = none ↔ ∃ v, value = some v ∧ parse v = none := by
  cases value <;> simp [slot]

theorem slot_eq_some {α : Type} {parse : JsonValue → Option α} {value : Option JsonValue}
    {s : Option α} : slot parse value = some s ↔ value.map parse = s.map some := by
  cases value <;> cases s <;> simp [slot]

theorem slot_eq_of_map_eq {α : Type} {parse : JsonValue → Option α}
    {value value' : Option JsonValue} (h : value.map parse = value'.map parse) :
    slot parse value = slot parse value' := by
  cases value <;> cases value' <;> simp_all [slot]

theorem readSlots_eq_none : readSlots kind options = none ↔ IllFormed kind options := by
  have hall (keys : List String) : keys.mapM (fun k => slot (readSlot kind k) (options k)) = none ↔
      ∃ k ∈ keys, ∃ value, options k = some value ∧ readSlot kind k value = none := by
    induction keys with
    | nil => simp
    | cons key keys ih =>
      rw [List.exists_mem_cons_iff, ← slot_eq_none, ← ih, List.mapM_cons]
      cases slot (readSlot kind key) (options key) with
      | none => simp
      | some s => cases keys.mapM fun k => slot (readSlot kind k) (options k) <;> simp
  exact hall _

theorem readSlots_eq_iff :
    readSlots kind options = readSlots kind options' ↔ SlotsAgree kind options options' := by
  constructor
  · intro h
    cases hread : readSlots kind options with
    | none => exact .inr ⟨readSlots_eq_none.1 hread, readSlots_eq_none.1 (h.symm.trans hread)⟩
    | some slots =>
      have hall := forall₂_of_mapM hread
      have hall' := forall₂_of_mapM (h.symm.trans hread)
      have hsame : List.Forall₂ (fun k _ => (options k).map (readSlot kind k) =
          (options' k).map (readSlot kind k)) (slotKeys kind) slots := by
        refine List.Forall₂.mp ?_ hall hall'
        intro k s hs hs'
        rw [slot_eq_some.1 hs, slot_eq_some.1 hs']
      refine .inl fun k hk => ?_
      obtain ⟨_, -, h⟩ := forall₂_mem_left hsame k hk
      exact h
  · intro h
    obtain hsame | ⟨hill, hill'⟩ := h
    · rw [readSlots, readSlots]
      exact mapM_congr_mem fun k hk => slot_eq_of_map_eq (hsame k hk)
    · rw [readSlots_eq_none.2 hill, readSlots_eq_none.2 hill']

/-! ## The slots of the kinds -/

theorem slot_readSlot {α : Type} {key : String} {parse : JsonValue → Option α}
    {wrap : α → Constraint} (h : ∀ v, readSlot kind key v = (parse v).map wrap)
    (value : Option JsonValue) :
    slot (readSlot kind key) value = (slot parse value).map (·.map wrap) := by
  cases value with
  | none => rfl
  | some v =>
    rw [slot, slot, h]
    cases parse v <;> rfl

section
variable (options options' : JsonMap)

theorem readSlots_int : readSlots .int options.get =
    (readInts options).map fun c => [c.min.map .int, c.max.map .int] := by
  have hslot (k : String) : slot (readSlot .int k) (options.get k) =
      (slot JsonValue.asI64 (options.get k)).map (·.map .int) := slot_readSlot (fun _ => rfl) _
  simp only [readSlots, slotKeys, List.mapM_cons, List.mapM_nil, hslot, readInts]
  cases slot JsonValue.asI64 (options.get "min") <;>
    cases slot JsonValue.asI64 (options.get "max") <;> rfl

theorem readSlots_float : readSlots .float options.get = (readFloats options).map fun c =>
    [c.ranks.1.map .float, c.ranks.2.map .float] := by
  have hslot (k : String) : slot (readSlot .float k) (options.get k) =
      (slot readFloat (options.get k)).map (·.map fun f => .float (Binary64.rank f.intoInner)) :=
    slot_readSlot (fun _ => rfl) _
  simp only [readSlots, slotKeys, List.mapM_cons, List.mapM_nil, hslot, readFloats,
    FloatConstraints.ranks]
  cases slot readFloat (options.get "min") <;> cases slot readFloat (options.get "max") <;>
    simp [Function.comp_def]

theorem readSlots_string : readSlots .string options.get = (readStrings options).map fun c =>
    [c.minSize.map .size, c.maxSize.map .size, c.format.map .format] := by
  have hmin : slot (readSlot .string "min_size") (options.get "min_size") =
      (slot readSize (options.get "min_size")).map (·.map .size) := slot_readSlot (fun _ => rfl) _
  have hmax : slot (readSlot .string "max_size") (options.get "max_size") =
      (slot readSize (options.get "max_size")).map (·.map .size) := slot_readSlot (fun _ => rfl) _
  have hformat : slot (readSlot .string "format") (options.get "format") =
      (slot readFormat (options.get "format")).map (·.map .format) :=
    slot_readSlot (fun _ => rfl) _
  simp only [readSlots, slotKeys, List.mapM_cons, List.mapM_nil, hmin, hmax, hformat, readStrings]
  cases slot readSize (options.get "min_size") <;> cases slot readSize (options.get "max_size") <;>
    cases slot readFormat (options.get "format") <;> rfl

theorem readSlots_sizes (hkind : kind = .list ∨ kind = .dict) : readSlots kind options.get =
    (readCollections options).map fun c => [c.minSize.map .size, c.maxSize.map .size] := by
  have hmin : slot (readSlot kind "min_size") (options.get "min_size") =
      (slot readSize (options.get "min_size")).map (·.map .size) := by
    obtain rfl | rfl := hkind <;> exact slot_readSlot (fun _ => rfl) _
  have hmax : slot (readSlot kind "max_size") (options.get "max_size") =
      (slot readSize (options.get "max_size")).map (·.map .size) := by
    obtain rfl | rfl := hkind <;> exact slot_readSlot (fun _ => rfl) _
  have hkeys : slotKeys kind = ["min_size", "max_size"] := by obtain rfl | rfl := hkind <;> rfl
  simp only [readSlots, hkeys, List.mapM_cons, List.mapM_nil, hmin, hmax, readCollections]
  cases slot readSize (options.get "min_size") <;>
    cases slot readSize (options.get "max_size") <;> rfl

theorem readInts_eq_none : readInts options = none ↔ IllFormed .int options.get := by
  rw [← readSlots_eq_none, readSlots_int, Option.map_eq_none_iff]

theorem readFloats_eq_none : readFloats options = none ↔ IllFormed .float options.get := by
  rw [← readSlots_eq_none, readSlots_float, Option.map_eq_none_iff]

theorem readStrings_eq_none : readStrings options = none ↔ IllFormed .string options.get := by
  rw [← readSlots_eq_none, readSlots_string, Option.map_eq_none_iff]

theorem readCollections_eq_none (hkind : kind = .list ∨ kind = .dict) :
    readCollections options = none ↔ IllFormed kind options.get := by
  rw [← readSlots_eq_none, readSlots_sizes options hkind, Option.map_eq_none_iff]

theorem readExtra_eq_none :
    readExtra (options.get "extra") = none ↔ IllFormed .struct options.get := by
  simp only [IllFormed, slotKeys, List.mem_singleton, exists_eq_left, readSlot,
    Option.map_eq_none_iff]
  cases options.get "extra" with
  | none => simp [readExtra]
  | some value => simp

theorem readInts_eq_iff :
    readInts options = readInts options' ↔ SlotsAgree .int options.get options'.get := by
  rw [← readSlots_eq_iff, readSlots_int, readSlots_int]
  refine (Option.map_injective ?_).eq_iff.symm
  intro c d h
  have hint : Function.Injective Constraint.int := fun _ _ h => Constraint.int.inj h
  simp only [List.cons.injEq, and_true, (Option.map_injective hint).eq_iff] at h
  exact IntConstraints.ext h.1 h.2

theorem ranks_eq_iff : (readFloats options).map (·.ranks) = (readFloats options').map (·.ranks) ↔
    SlotsAgree .float options.get options'.get := by
  have hfloat : Function.Injective Constraint.float := fun _ _ h => Constraint.float.inj h
  have hranks (o : JsonMap) : readSlots .float o.get =
      ((readFloats o).map (·.ranks)).map fun r => [r.1.map .float, r.2.map .float] := by
    rw [readSlots_float, Option.map_map]
    rfl
  rw [← readSlots_eq_iff, hranks, hranks]
  refine (Option.map_injective ?_).eq_iff.symm
  intro r s h
  simp only [List.cons.injEq, and_true, (Option.map_injective hfloat).eq_iff] at h
  exact Prod.ext h.1 h.2

theorem readStrings_eq_iff :
    readStrings options = readStrings options' ↔ SlotsAgree .string options.get options'.get := by
  have hsize : Function.Injective Constraint.size := fun _ _ h => Constraint.size.inj h
  have hformat : Function.Injective Constraint.format := fun _ _ h => Constraint.format.inj h
  rw [← readSlots_eq_iff, readSlots_string, readSlots_string]
  refine (Option.map_injective ?_).eq_iff.symm
  intro c d h
  simp only [List.cons.injEq, and_true, (Option.map_injective hsize).eq_iff,
    (Option.map_injective hformat).eq_iff] at h
  exact StringConstraints.ext h.1 h.2.1 h.2.2

end

end RustlyCore.SchemaCompiler
