import Mathlib.Algebra.Group.Nat.Defs
import Cadence.Decimal.Layout

/-!
# Finite floating-point numbers

A finite number is equal to itself, unlike the one that stands for no number.

A word of 64 bits is far below the largest floating-point number, so the number nearest to it is
finite. That is not the work of one rounding: a small word is converted and multiplied by one, a
large one is shifted and rounded. The numbers on both ways stay within bounds of one kind, which
every rounding may raise a little. The bounds are generous, since nothing depends on their size.

## Main definitions

* `SizeWithin` — a bound on the size of an unpacked number, by the length of its mantissa and its
  exponent

## Main results

* `SizeWithin.mul` — what a product is within
* `SizeWithin.unpack_pack` — a number within a bound is within it when it was packed
* `isFinite_ofNat` — the number nearest to a word is finite
* `beq_self_of_isFinite` — a finite number is equal to itself
-/

namespace Cadence

open Float.Model Float.Model.UnpackedFloat

/-- The number is zero, or its mantissa has at most `bits` bits and its exponent is at most
`top`. -/
def SizeWithin (bits : Nat) (top : Int) : UnpackedFloat → Prop
  | .zero _ => True
  | .finite _ m e _ => m < 2 ^ bits ∧ e ≤ top
  | .infinity _ => False
  | .notANumber => False

instance (bits : Nat) (top : Int) : DecidablePred (SizeWithin bits top)
  | .zero _ => inferInstanceAs (Decidable True)
  | .finite _ m e _ => inferInstanceAs (Decidable (m < 2 ^ bits ∧ e ≤ top))
  | .infinity _ => inferInstanceAs (Decidable False)
  | .notANumber => inferInstanceAs (Decidable False)

variable {spec : Format} {bits bits' m : Nat} {top top' e : Int} {x y : UnpackedFloat}

theorem SizeWithin.isFinite (h : SizeWithin bits top x) : x.isFinite = true := by
  cases x with
  | zero => rfl
  | finite => rfl
  | infinity => exact h.elim
  | notANumber => exact h.elim

theorem compare_self_of_isFinite (h : x.isFinite = true) : x.compare x = some .eq := by
  cases x with
  | zero => rfl
  | finite sign m e =>
    have hsize : (compare e e).then (compare m m) = .eq := by simp
    cases sign with
    | positive => exact congrArg some hsize
    | negative => exact congrArg (fun ordering => some ordering.swap) hsize
  | infinity => exact absurd h Bool.false_ne_true
  | notANumber => exact absurd h Bool.false_ne_true

theorem beq_self_of_isFinite {x : Float} (h : x.isFinite = true) : (x == x) = true := by
  have hcompare : x.toModel.unpack.compare x.toModel.unpack = some .eq :=
    compare_self_of_isFinite h
  change (x.toModel.unpack.compare x.toModel.unpack == some .eq) = true
  rw [hcompare]
  rfl

/-! ### Rounding -/

theorem mantissa_shiftRight_le (x : ExtendedMantissa) (n : Nat) :
    (x >>> n).mantissa ≤ x.mantissa := by
  change (Nat.repeat ExtendedMantissa.shiftRightOne n x).mantissa ≤ x.mantissa
  induction n with
  | zero => exact Nat.le_refl _
  | succ n ih => exact Nat.le_trans (Nat.div_le_self _ _) ih

theorem roundedMantissa_le (x : ExtendedMantissa) : x.roundedMantissa ≤ x.mantissa + 1 := by
  obtain ⟨m, roundBit, stickyBit⟩ := x
  cases roundBit <;> cases stickyBit <;>
    simp [ExtendedMantissa.roundedMantissa, ExtendedMantissa.accuracy, Accuracy.roundToNearestEven]
  omega

theorem mantissa_ofMantissaAndAccuracy (m : Nat) (accuracy : Accuracy) :
    (ExtendedMantissa.ofMantissaAndAccuracy m accuracy).mantissa = m := by
  rcases accuracy with _ | (_ | _ | _) <;> rfl

/-- The exponent that a mantissa of at most `bits` bits is shifted to is not much above its own. -/
theorem targetExponent_le (hm : m < 2 ^ bits) (he : e ≤ top) (hmin : spec.minExponent ≤ top) :
    spec.targetExponent (totalExponent m e) ≤ top + bits := by
  have hlog : m.log2 ≤ bits := by
    rcases Nat.eq_zero_or_pos m with rfl | hpos
    · simp
    · exact Nat.le_of_lt ((Nat.log2_lt (Nat.ne_of_gt hpos)).mpr hm)
  -- a mantissa has one bit that is not stored
  have hmantissa : 0 < spec.mantissaBits := Nat.add_pos_left Nat.one_pos _
  simp only [Format.targetExponent, totalExponent]
  exact Int.max_le.mpr ⟨by omega, by omega⟩

theorem mantissa_shiftToTargetExponent_le (spec : Format) (m : Nat) (e : Int)
    (accuracy : Accuracy) : (shiftToTargetExponent spec m e accuracy).1.mantissa ≤ m :=
  Nat.le_trans (mantissa_shiftRight_le _ _) (Nat.le_of_eq (mantissa_ofMantissaAndAccuracy m _))

theorem exponent_shiftToTargetExponent_le (accuracy : Accuracy) (hm : m < 2 ^ bits) (he : e ≤ top)
    (hmin : spec.minExponent ≤ top) :
    (shiftToTargetExponent spec m e accuracy).2 ≤ top + bits := by
  have htarget := targetExponent_le hm he hmin
  simp only [shiftToTargetExponent, shiftToExponent]
  omega

/-- Rounding shifts a number twice, the second time because the mantissa may have become one bit
longer. -/
theorem within_roundWithAccuracy (sign : Sign) (accuracy : Accuracy) (hm : m < 2 ^ bits)
    (he : e ≤ top) (hmin : spec.minExponent ≤ top) :
    SizeWithin (bits + 1) (top + 2 * bits + 1) (roundWithAccuracy spec sign m e accuracy) := by
  have hfirst := mantissa_shiftToTargetExponent_le spec m e accuracy
  have htop := exponent_shiftToTargetExponent_le accuracy hm he hmin
  generalize hshift : shiftToTargetExponent spec m e accuracy = first at hfirst htop
  obtain ⟨mantissa, exponent⟩ := first
  simp only at hfirst htop
  -- `mantissa + 1` may need a bit more than `mantissa`
  have hrounded : mantissa.roundedMantissa < 2 ^ (bits + 1) := by
    have := roundedMantissa_le mantissa
    rw [Nat.pow_succ]
    omega
  have hsecond := mantissa_shiftToTargetExponent_le spec mantissa.roundedMantissa exponent .exact
  have hmin' : spec.minExponent ≤ top + bits := by omega
  have htop' := exponent_shiftToTargetExponent_le .exact hrounded htop hmin'
  rw [roundWithAccuracy, hshift]
  dsimp only
  by_cases hzero :
      (shiftToTargetExponent spec mantissa.roundedMantissa exponent .exact).1.mantissa = 0
  · rw [dif_pos hzero]
    trivial
  · rw [dif_neg hzero]
    exact ⟨by omega, by push_cast at htop'; omega⟩

/-- The mantissas of a product are multiplied and its exponents are added before it is rounded. -/
theorem SizeWithin.mul (hx : SizeWithin bits top x) (hy : SizeWithin bits' top' y)
    (hmin : spec.minExponent ≤ top + top') :
    SizeWithin (bits + bits' + 1) (top + top' + 2 * (bits + bits') + 1) (x.mul spec y) := by
  cases x with
  | infinity => exact hx.elim
  | notANumber => exact hx.elim
  | zero =>
    cases y with
    | infinity => exact hy.elim
    | notANumber => exact hy.elim
    | zero => trivial
    | finite => trivial
  | finite sign =>
    cases y with
    | infinity => exact hy.elim
    | notANumber => exact hy.elim
    | zero => trivial
    | finite sign' =>
      have hm := Nat.mul_lt_mul'' hx.1 hy.1
      rw [← Nat.pow_add] at hm
      have hrounded :=
        within_roundWithAccuracy (sign * sign') .exact hm (Int.add_le_add hx.2 hy.2) hmin
      rw [Int.natCast_add] at hrounded
      exact hrounded

/-! ### Packing -/

/-- The exponent is packed with an offset, and with less than that if the number is subnormal. -/
theorem unpackExponent_pack_le (hx : SizeWithin bits top x) (hmin : -1074 ≤ top)
    (hmax : top ≤ 970) :
    ((unpackExponent (UnpackedFloat.pack Format.binary64 x)).toNat : Int) ≤ top + 1075 := by
  fun_cases UnpackedFloat.pack Format.binary64 x with
  | case1 => exact hx.elim
  | case2 => exact hx.elim
  | case3 sign =>
    simp only [packedZero, unpackExponent_packComponents, BitVec.ofNat_eq_ofNat, BitVec.toNat_zero]
    omega
  | case4 sign m e hm biased hbiased =>
    -- the number would be infinite, but its exponent is too small for that
    have hle : e ≤ top := hx.2
    have : 2 ^ 11 ≤ (e + 1023 + 52).toNat + 1 := hbiased
    omega
  | case5 sign m e hm length biased hbiased =>
    have hle : e ≤ top := hx.2
    have hoffset : biased = (e + 1023 + 52).toNat := rfl
    simp only [unpackExponent_packComponents, BitVec.toNat_ofNat]
    have := Nat.mod_le biased (2 ^ Format.binary64.exponentBits)
    omega
  | case6 sign m e hm length biased hbiased =>
    simp only [unpackExponent_packComponents, BitVec.toNat_zero]
    omega

/-- A packed number whose exponent is not the largest one is finite. -/
theorem within_unpack {b : BitVec Format.binary64.numBits}
    (htop : ((unpackExponent b).toNat : Int) ≤ top + 1075) (hmin : -1074 ≤ top) (hmax : top ≤ 970) :
    SizeWithin 53 top (UnpackedFloat.unpack Format.binary64 b) := by
  have hfinite : unpackExponent b ≠ -1#_ := by
    intro h
    rw [h] at htop
    have : ((-1#_ : BitVec Format.binary64.exponentBits).toNat : Int) = 2047 := rfl
    omega
  have hbias : Format.binary64.exponentBias = 1023 := rfl
  unfold UnpackedFloat.unpack
  dsimp only
  rw [if_neg hfinite]
  by_cases hzero : unpackExponent b = 0#_
  · rw [if_pos hzero]
    by_cases hmantissa : unpackMantissa b = 0#_
    · rw [dif_pos hmantissa]
      trivial
    · rw [dif_neg hmantissa]
      refine ⟨Nat.lt_trans (BitVec.isLt _) (by decide), ?_⟩
      rw [hzero]
      simp
      omega
  · rw [if_neg hzero]
    exact ⟨BitVec.isLt _, by omega⟩

/-- Packing keeps a number that is not too large, and so does unpacking. -/
theorem SizeWithin.unpack_pack (hx : SizeWithin bits top x) (hmin : -1074 ≤ top)
    (hmax : top ≤ 970) : SizeWithin 53 top (Float.Model.pack x).unpack :=
  within_unpack (unpackExponent_pack_le hx hmin hmax) hmin hmax

/-! ### Conversion -/

/-- A short mantissa is first made longer, but by no more bits than a mantissa has. -/
theorem within_round (sign : Sign) (hm : m < 2 ^ bits) (he : e ≤ top)
    (hmin : spec.minExponent ≤ top) :
    SizeWithin (bits + spec.mantissaBits + 1) (top + 2 * (bits + spec.mantissaBits) + 1)
      (UnpackedFloat.round spec sign m e) := by
  simp only [UnpackedFloat.round, decreaseExponent]
  generalize hshift : (e - spec.targetExponent (totalExponent m e)).toNat = shift
  have hle : shift ≤ spec.mantissaBits := by
    simp only [← hshift, Format.targetExponent, totalExponent]
    omega
  have hlonger : m <<< shift < 2 ^ (bits + spec.mantissaBits) := by
    rw [Nat.shiftLeft_eq, Nat.pow_add]
    exact Nat.mul_lt_mul_of_lt_of_le hm (Nat.pow_le_pow_right (by decide) hle) (Nat.two_pow_pos _)
  have hlower : e - shift ≤ top := by omega
  simpa using within_roundWithAccuracy sign .exact hlonger hlower hmin

variable {n : Nat}

theorem within_ofNat (hn : n < 2 ^ bits) (hmin : spec.minExponent ≤ 0) :
    SizeWithin (bits + spec.mantissaBits + 1) (2 * (bits + spec.mantissaBits) + 1)
      (UnpackedFloat.ofNat spec n) := by
  simp only [UnpackedFloat.ofNat, UnpackedFloat.ofInt, UnpackedFloat.normalize]
  split
  · next hneg =>
    rw [Int.compare_eq_lt] at hneg
    omega
  · trivial
  · simpa using within_round .positive hn (Int.le_refl 0) hmin

/-- A decimal without a power of ten is a product with one. -/
theorem within_ofScientific (hn : n < 2 ^ bits) (hmin : spec.minExponent ≤ -spec.mantissaBits) :
    SizeWithin (bits + spec.mantissaBits + 2) (2 * bits + spec.mantissaBits + 3)
      (UnpackedFloat.ofScientific spec n 0) := by
  have hpow : (0 : Int) < 2 ^ spec.exponentBits := Int.pow_pos (by decide)
  unfold UnpackedFloat.ofScientific
  by_cases hzero : n = 0
  · rw [dif_pos hzero]
    trivial
  · rw [dif_neg hzero, if_neg (by omega), if_neg (by omega), if_pos (Int.le_refl 0)]
    have hshifted : n <<< spec.mantissaBits < 2 ^ (bits + spec.mantissaBits) := by
      rw [Nat.shiftLeft_eq, Nat.pow_add]
      exact Nat.mul_lt_mul_of_pos_right hn (Nat.two_pow_pos _)
    have hone : 10 ^ (0 : Int).toNat < 2 ^ 1 := by decide
    have htop : (2 * bits + spec.mantissaBits + 3 : Int) =
        -spec.mantissaBits + 0 + 2 * ((bits + spec.mantissaBits : Nat) + (1 : Nat)) + 1 := by
      push_cast
      omega
    rw [htop]
    exact SizeWithin.mul ⟨hshifted, Int.le_refl _⟩ ⟨hone, Int.le_refl 0⟩ (by omega)

/-- The number nearest to a word is finite. -/
theorem isFinite_ofNat (hn : n < 2 ^ 64) : (Float.ofNat n).isFinite = true := by
  change (Float.ofScientific n false 0).isFinite = true
  by_cases hsmall : n < 2 ^ 53
  · -- the word itself is exact, but only the bounds matter for its product with one
    rw [Float.ofScientific, dif_pos ⟨hsmall, by decide⟩]
    have hword : SizeWithin 53 235 n.toUInt64.toFloat.toModel.unpack :=
      (within_ofNat n.toUInt64.toNat_lt (by decide)).unpack_pack (by decide) (by decide)
    have hone : SizeWithin 53 (-52) (Float.ofBits 0x3FF0000000000000).toModel.unpack := by decide
    have hproduct := hword.mul hone (show Format.binary64.minExponent ≤ 235 + -52 by decide)
    exact (hproduct.unpack_pack (by decide) (by decide)).isFinite
  · rw [Float.ofScientific, dif_neg fun h => hsmall h.1]
    exact ((within_ofScientific hn (by decide)).unpack_pack (by decide) (by decide)).isFinite

end Cadence
