import Mathlib.Order.Compare
import Mathlib.Order.Lattice
import Mathlib.Data.Prod.Lex

/-!
# The order of binary64 numbers

IEEE comparison of `Float`s is read off a rank: `NaN` has none, every other number is placed by
its class (negative infinity, negative, zero, positive, infinity), then by exponent and mantissa.
The two zeros share a rank. Comparison facts then come from the linear order of ranks.
-/

namespace RustlyCore.Binary64
open Float.Model

/-- Class, exponent and mantissa, compared in this order. -/
abbrev Rank := ℤ ×ₗ ℤ ×ₗ ℤ

def unpackedRank : UnpackedFloat → Option Rank
  | .notANumber => none
  | .infinity .negative => some (toLex (-2, toLex (0, 0)))
  | .finite .negative m e _ => some (toLex (-1, toLex (-e, -m)))
  | .zero _ => some (toLex (0, toLex (0, 0)))
  | .finite .positive m e _ => some (toLex (1, toLex (e, m)))
  | .infinity .positive => some (toLex (2, toLex (0, 0)))

/-- The place of `x` in the IEEE order, `none` for `NaN`. -/
def rank (x : Float) : Option Rank := unpackedRank x.toModel.unpack

theorem compare_toLex {α β : Type*} [LinearOrder α] [LinearOrder β] (a a' : α) (b b' : β) :
    compare (toLex (a, b)) (toLex (a', b')) = (compare a a').then (compare b b') := by
  rcases lt_trichotomy a a' with h | rfl | h
  · rw [compare_lt_iff_lt.2 h, compare_lt_iff_lt.2 (Prod.Lex.toLex_lt_toLex.2 (.inl h))]
    rfl
  · rw [compare_eq_iff_eq.2 rfl, Ordering.then]
    have hlex (c d : β) (h : c < d) : toLex (a, c) < toLex (a, d) :=
      Prod.Lex.toLex_lt_toLex.2 (.inr ⟨rfl, h⟩)
    rcases lt_trichotomy b b' with h | rfl | h
    · rw [compare_lt_iff_lt.2 h, compare_lt_iff_lt.2 (hlex _ _ h)]
    · simp
    · rw [compare_gt_iff_gt.2 h, compare_gt_iff_gt.2 (hlex _ _ h)]
  · rw [compare_gt_iff_gt.2 h, compare_gt_iff_gt.2 (Prod.Lex.toLex_lt_toLex.2 (.inl h))]
    rfl

theorem compare_natCast (m n : Nat) : compare (m : ℤ) (n : ℤ) = compare m n := by
  rcases lt_trichotomy m n with h | rfl | h
  · rw [compare_lt_iff_lt.2 h, compare_lt_iff_lt.2 (by omega)]
  · simp
  · rw [compare_gt_iff_gt.2 h, compare_gt_iff_gt.2 (by omega)]

theorem compare_neg (m n : ℤ) : compare (-m) (-n) = (compare m n).swap := by
  rcases lt_trichotomy m n with h | rfl | h
  · rw [compare_lt_iff_lt.2 h, compare_gt_iff_gt.2 (by omega)]; rfl
  · simp
  · rw [compare_gt_iff_gt.2 h, compare_lt_iff_lt.2 (by omega)]; rfl

/-- The rank of positive numbers compares exponents, then mantissas. -/
theorem compare_positive (e e' : ℤ) (m m' : Nat) :
    compare (toLex (1, toLex (e, ↑m)) : Rank) (toLex (1, toLex (e', ↑m'))) =
      (compare e e').then (compare m m') := by
  rw [compare_toLex, compare_toLex, compare_eq_iff_eq.2 rfl, Ordering.then, compare_natCast]

/-- The rank of negative numbers compares them the other way. -/
theorem compare_negative (e e' : ℤ) (m m' : Nat) :
    compare (toLex (-1, toLex (-e, -↑m)) : Rank) (toLex (-1, toLex (-e', -↑m'))) =
      ((compare e e').then (compare m m')).swap := by
  rw [compare_toLex, compare_toLex, compare_eq_iff_eq.2 rfl, Ordering.then, compare_neg,
    compare_neg, compare_natCast, Ordering.swap_then]

theorem compare_eq_rank (a b : UnpackedFloat) : a.compare b =
    (unpackedRank a).bind fun x => (unpackedRank b).map fun y => compare x y := by
  -- Only two finite numbers of one sign need their exponents and mantissas.
  rcases a with (_ | _) | _ | (_ | _) | ⟨(_ | _), m, e, _⟩ <;>
    rcases b with (_ | _) | _ | (_ | _) | ⟨(_ | _), m', e', _⟩ <;>
    first
      | rfl
      | exact congrArg some (compare_positive e e' m m').symm
      | exact congrArg some (compare_negative e e' m m').symm

theorem lt_iff {x y : Float} : x < y ↔ ∃ a ∈ rank x, ∃ b ∈ rank y, a < b := by
  change decide ((x.toModel.unpack.compare y.toModel.unpack == some .lt) = true) = true ↔ _
  rw [decide_eq_true_iff, compare_eq_rank, rank, rank]
  cases unpackedRank x.toModel.unpack <;> cases unpackedRank y.toModel.unpack <;>
    simp [compare_lt_iff_lt, -Prod.exists, -Lex.exists]

theorem le_iff {x y : Float} : x ≤ y ↔ ∃ a ∈ rank x, ∃ b ∈ rank y, a ≤ b := by
  change decide ((x.toModel.unpack.compare y.toModel.unpack).any (·.isLE) = true) = true ↔ _
  rw [decide_eq_true_iff, compare_eq_rank, rank, rank]
  cases unpackedRank x.toModel.unpack <;> cases unpackedRank y.toModel.unpack <;>
    simp [← compare_le_iff_le, Ordering.isLE_iff_ne_gt, -Prod.exists, -Lex.exists]

theorem beq_iff {x y : Float} : (x == y) = true ↔ rank x ≠ none ∧ rank x = rank y := by
  change (x.toModel.unpack.compare y.toModel.unpack == some .eq) = true ↔ _
  rw [compare_eq_rank, rank, rank]
  cases unpackedRank x.toModel.unpack <;> cases unpackedRank y.toModel.unpack <;>
    simp [compare_eq_iff_eq]

theorem isNaN_iff {x : Float} : x.isNaN = true ↔ rank x = none := by
  change x.toModel.unpack.isNaN = true ↔ unpackedRank x.toModel.unpack = none
  rcases x.toModel.unpack with (_ | _) | _ | (_ | _) | ⟨(_ | _), m, e, _⟩ <;>
    first
      | exact iff_of_true rfl rfl
      | exact iff_of_false Bool.false_ne_true (Option.some_ne_none _)

/-- Among numbers, the absence of `<` is the presence of `≥`. -/
theorem le_iff_not_lt {x y : Float} (hx : x.isNaN = false) (hy : y.isNaN = false) :
    y ≤ x ↔ ¬ x < y := by
  have number {z : Float} (hz : z.isNaN = false) : ∃ a, rank z = some a := by
    cases hr : rank z with
    | some a => exact ⟨a, rfl⟩
    | none => cases hz.symm.trans (isNaN_iff.2 hr)
  obtain ⟨a, ha⟩ := number hx
  obtain ⟨b, hb⟩ := number hy
  simp [le_iff, lt_iff, ha, hb, -Prod.exists, -Lex.exists]

/-- `NaN` compares to nothing. -/
theorem isNaN_incomparable {x y : Float} (h : x.isNaN = true) :
    ¬ x < y ∧ ¬ y < x ∧ ¬ x ≤ y ∧ ¬ y ≤ x := by
  simp [le_iff, lt_iff, isNaN_iff.1 h]

theorem lt_of_lt_of_le {x y z : Float} (h : x < y) (h' : y ≤ z) : x < z := by
  obtain ⟨a, ha, b, hb, hab⟩ := lt_iff.1 h
  obtain ⟨b', hb', c, hc, hbc⟩ := le_iff.1 h'
  cases Option.mem_unique hb hb'
  exact lt_iff.2 ⟨a, ha, c, hc, hab.trans_le hbc⟩

theorem lt_of_le_of_lt {x y z : Float} (h : x ≤ y) (h' : y < z) : x < z := by
  obtain ⟨a, ha, b, hb, hab⟩ := le_iff.1 h
  obtain ⟨b', hb', c, hc, hbc⟩ := lt_iff.1 h'
  cases Option.mem_unique hb hb'
  exact lt_iff.2 ⟨a, ha, c, hc, hab.trans_lt hbc⟩

/-! ## Integers -/

/-- `i as f64`: to nearest, ties to even. -/
def ofI64 (i : Int64) : Float := .ofModel (.ofInt64 i)

/-- Of what is packed only `NaN` unpacks to `NaN`. -/
theorem unpack_pack_isNaN {spec : Format} {f : UnpackedFloat} (h : f.isNaN = false) :
    (UnpackedFloat.unpack spec (UnpackedFloat.pack spec f)).isNaN = false := by
  have hcomponents (s : UnpackedFloat.Sign) (e : BitVec spec.exponentBits)
      (m : BitVec spec.mantissaBitsWithoutImplicit) (hem : e = -1#_ → m = 0#_) :
      (UnpackedFloat.unpack spec (UnpackedFloat.packComponents spec s e m)).isNaN = false := by
    delta UnpackedFloat.unpack
    dsimp only
    by_cases he : UnpackedFloat.unpackExponent (UnpackedFloat.packComponents spec s e m) = -1#_
    · rw [if_pos he]
      rw [UnpackedFloat.unpackExponent_packComponents] at he
      rw [UnpackedFloat.unpackMantissa_packComponents, if_pos (hem he)]
      rfl
    · rw [if_neg he]
      by_cases hzero : UnpackedFloat.unpackExponent (UnpackedFloat.packComponents spec s e m) = 0#_
      · rw [if_pos hzero]
        by_cases hm : UnpackedFloat.unpackMantissa (UnpackedFloat.packComponents spec s e m) = 0#_
        · rw [dif_pos hm]
          rfl
        · rw [dif_neg hm]
          rfl
      · rw [if_neg hzero]
        rfl
  cases f with
  | notANumber => cases h
  | infinity s => exact hcomponents s _ _ fun _ => rfl
  | zero s => exact hcomponents s _ _ fun _ => rfl
  | finite s m e hm =>
    delta UnpackedFloat.pack
    dsimp only
    split
    · exact hcomponents s _ _ fun _ => rfl
    next hsmall =>
      split
      · refine hcomponents s _ _ fun he => ?_
        have hbits := congrArg BitVec.toNat he
        simp only [BitVec.neg_one_eq_allOnes, BitVec.toNat_ofNat, BitVec.toNat_allOnes] at hbits
        rw [Nat.mod_eq_of_lt (by omega)] at hbits
        omega
      · refine hcomponents s _ _ fun he => ?_
        have hbits := congrArg BitVec.toNat he
        have hpos := Nat.one_lt_two_pow spec.he.ne'
        simp [BitVec.neg_one_eq_allOnes] at hbits
        omega

theorem normalize_isNaN {spec : Format} (n e : ℤ) (s : UnpackedFloat.Sign) :
    (UnpackedFloat.normalize spec n e s).isNaN = false := by
  have hdite {c : Prop} [Decidable c] {x : ¬ c → UnpackedFloat} (s : UnpackedFloat.Sign)
      (hx : ∀ h, (x h).isNaN = false) : (if h : c then .zero s else x h).isNaN = false := by
    by_cases h : c
    · rw [dif_pos h]
      rfl
    · rw [dif_neg h]
      exact hx h
  have hround (s : UnpackedFloat.Sign) (m : Nat) (e : ℤ) :
      (UnpackedFloat.round spec s m e).isNaN = false :=
    hdite s fun _ => rfl
  rw [UnpackedFloat.normalize]
  cases compare n 0 with
  | lt => exact hround _ _ _
  | eq => rfl
  | gt => exact hround _ _ _

theorem ofI64_isNaN (i : Int64) : (ofI64 i).isNaN = false :=
  unpack_pack_isNaN (normalize_isNaN i.toInt 0 .positive)

end RustlyCore.Binary64

namespace RustlyCore
open Binary64

/-- A float under total equality: every `NaN` equals every other, and the two zeros are equal. -/
structure OrderedFloat where
  intoInner : Float

namespace OrderedFloat

instance : BEq OrderedFloat where
  beq a b := if a.intoInner.isNaN then b.intoInner.isNaN else a.intoInner == b.intoInner

theorem beq_iff {a b : OrderedFloat} :
    (a == b) = true ↔ rank a.intoInner = rank b.intoInner := by
  change (if a.intoInner.isNaN then b.intoInner.isNaN else a.intoInner == b.intoInner) = true ↔ _
  split
  next h => rw [isNaN_iff, isNaN_iff.1 h, eq_comm]
  next h =>
    rw [Binary64.beq_iff, and_iff_right]
    exact fun hn => h (isNaN_iff.2 hn)

instance : EquivBEq OrderedFloat where
  rfl := beq_iff.2 rfl
  symm h := beq_iff.2 (beq_iff.1 h).symm
  trans h h' := beq_iff.2 ((beq_iff.1 h).trans (beq_iff.1 h'))

theorem option_beq_iff {a b : Option OrderedFloat} :
    (a == b) = true ↔ a.map (rank ·.intoInner) = b.map (rank ·.intoInner) := by
  cases a <;> cases b <;> simp [beq_iff]

/-- Equal ordered floats bound the same numbers. -/
theorem lt_congr {a b : OrderedFloat} (h : (a == b) = true) (x : Float) :
    (x < a.intoInner ↔ x < b.intoInner) ∧ (a.intoInner < x ↔ b.intoInner < x) := by
  simp only [lt_iff, beq_iff.1 h, and_self]

end OrderedFloat
end RustlyCore
