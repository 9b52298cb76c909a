/-
The order of doubles, read off their parts.

* `Number.unpack_toModel` — the parts that `decode` finds in a double are those that comparisons of
  doubles look at;
* `Number.order?_swap`, `Number.order?_self` — the order of two numbers the other way round, and of
  a number with itself;
* `Number.lt_zero_iff`, `Number.zero_le_iff_not_lt` — the sign of a whole number is that of its
  whole part, whether `<` or `≤` is asked.

Design notes: a double is a bit pattern, and its order is defined by sign, exponent and mantissa.
Once `decode` is known to find these three, whatever is to be shown of `<`, `≤` and `==` is shown
by cases on the parts, without rounding and without assumptions.
-/
import DocQuery.Number.Binary
import DocQuery.Value.Compare
import Mathlib

namespace DocQuery.Number

open Float.Model Float.Model.UnpackedFloat

/-! ### The parts of a bit pattern -/

/-- The sign that a sign bit stands for. -/
def signOf (negative : Bool) : Sign := if negative then .negative else .positive

/-- What a bit pattern stands for, in the terms in which doubles are compared. -/
def Decoded.unpacked : Decoded → UnpackedFloat
  | .nan => .notANumber
  | .infinite negative => .infinity (signOf negative)
  | .finite b =>
    if h : b.mantissa = 0 then .zero (signOf b.negative)
    else .finite (signOf b.negative) b.mantissa b.exponent (Nat.pos_of_ne_zero h)

section Fields

variable (b : BitVec Format.binary64.numBits)

theorem toNat_unpackMantissa : (unpackMantissa b).toNat = b.toNat % 2 ^ 52 := by
  simp [unpackMantissa]

theorem toNat_unpackExponent : (unpackExponent b).toNat = b.toNat / 2 ^ 52 % 2 ^ 11 := by
  simp [unpackExponent, Nat.shiftRight_eq_div_pow]

theorem ofBitVec_unpackSign :
    Sign.ofBitVec (unpackSign b) = signOf (decide (2 ^ 63 ≤ b.toNat)) := by
  have hsign : (unpackSign b).toNat = b.toNat / 2 ^ 63 % 2 := by
    simp [unpackSign, Nat.shiftRight_eq_div_pow]
  have hlt : b.toNat < 2 ^ 64 := b.isLt
  have hzero : unpackSign b = 0#1 ↔ ¬ 2 ^ 63 ≤ b.toNat := by
    rw [← BitVec.toNat_inj, hsign, BitVec.toNat_zero]
    omega
  by_cases h : 2 ^ 63 ≤ b.toNat
  · rw [Sign.ofBitVec, if_neg (by rw [hzero]; exact not_not_intro h), decide_eq_true h]
    rfl
  · rw [Sign.ofBitVec, if_pos (hzero.mpr h), decide_eq_false h]
    rfl

end Fields

/-- A mantissa with its hidden bit. -/
theorem toNat_hidden_append (m : BitVec 52) : (1#1 ++ m).toNat = 2 ^ 52 + m.toNat := by
  rw [BitVec.toNat_append, ← Nat.shiftLeft_add_eq_or_of_lt m.isLt]
  rfl

/-- `decode` finds the parts that doubles are compared by. -/
theorem unpack_toModel (x : Float) : x.toModel.unpack = (decode x).unpacked := by
  let bits : BitVec Format.binary64.numBits := x.toModel.toBits.toBitVec
  have hmantissa := toNat_unpackMantissa bits
  have hexponent := toNat_unpackExponent bits
  have hsign := ofBitVec_unpackSign bits
  have hbits : x.toBits.toNat = bits.toNat := rfl
  have hhidden := toNat_hidden_append (unpackMantissa bits)
  have hones : (-1#11).toNat = 2047 := rfl
  have hbias : ((Format.binary64.exponentBias : Nat) : Int) + (52 : Nat) = 1075 := rfl
  rw [Float.Model.unpack, UnpackedFloat.unpack, decode]
  simp only [bits, hsign, ← BitVec.toNat_inj, hmantissa, hexponent, hbits, Nat.pow_eq, hhidden,
    hones, hbias, BitVec.toNat_zero]
  by_cases hfull : bits.toNat / 2 ^ 52 % 2 ^ 11 = 2047
  · -- infinite, or not a number
    rw [if_pos hfull, if_pos hfull]
    split <;> rfl
  rw [if_neg hfull, if_neg hfull]
  by_cases hzero : bits.toNat / 2 ^ 52 % 2 ^ 11 = 0
  · -- zero, or so small that there is no hidden bit
    rw [if_pos hzero, if_pos hzero, Decoded.unpacked]
    simp only [bits] at hzero
    simp only [hzero]
    rfl
  · rw [if_neg hzero, if_neg hzero, Decoded.unpacked, dif_neg (by simp)]

/-! ### The order of the parts -/

/-- Comparing the other way round gives the opposite. -/
theorem compare_swap (a b : UnpackedFloat) : (a.compare b).map Ordering.swap = b.compare a := by
  cases a with
  | notANumber => cases b <;> rfl
  | infinity s | zero s =>
    cases s <;> cases b with
    | notANumber => rfl
    | infinity t | zero t | finite t => cases t <;> rfl
  | finite s m e h =>
    cases s <;> cases b with
    | notANumber => rfl
    | infinity t | zero t => cases t <;> rfl
    | finite t m' e' h' =>
      have hparts : ((compare e e').then (compare m m')).swap =
          (compare e' e).then (compare m' m) := by
        rw [Ordering.swap_then, ← Std.OrientedCmp.eq_swap, ← Std.OrientedCmp.eq_swap]
      cases t <;> simp [UnpackedFloat.compare, hparts]

/-- Only what is not a number does not equal itself. -/
theorem compare_self (a : UnpackedFloat) :
    a.compare a = if a.isNaN then none else some .eq := by
  cases a with
  | notANumber => rfl
  | infinity s | zero s => cases s <;> rfl
  | finite s m e h => cases s <;> simp [UnpackedFloat.compare, UnpackedFloat.isNaN]

/-- The order of what two bit patterns stand for. -/
def Decoded.compare? (a b : Decoded) : Option Ordering := a.unpacked.compare b.unpacked

theorem Decoded.compare?_swap (a b : Decoded) :
    (a.compare? b).map Ordering.swap = b.compare? a :=
  compare_swap _ _

variable {x y : Float}

theorem lt_iff : x < y ↔ (decode x).compare? (decode y) = some .lt := by
  rw [Decoded.compare?, ← unpack_toModel, ← unpack_toModel]
  show decide (UnpackedFloat.lt _ _ = true) = true ↔ _
  simp [UnpackedFloat.lt]

theorem le_iff : x ≤ y ↔ ((decode x).compare? (decode y)).any Ordering.isLE := by
  rw [Decoded.compare?, ← unpack_toModel, ← unpack_toModel]
  show decide (UnpackedFloat.le _ _ = true) = true ↔ _
  rw [decide_eq_true_iff]
  rfl

theorem beq_iff : (x == y) = true ↔ (decode x).compare? (decode y) = some .eq := by
  rw [Decoded.compare?, ← unpack_toModel, ← unpack_toModel]
  show UnpackedFloat.beq _ _ = true ↔ _
  simp [UnpackedFloat.beq]

/-- The order of two numbers is that of their parts. -/
theorem order?_eq (x y : Float) : order? x y = (decode x).compare? (decode y) := by
  rw [order?]
  simp only [gt_iff_lt, lt_iff, beq_iff, ← Decoded.compare?_swap (decode x) (decode y)]
  rcases (decode x).compare? (decode y) with _ | o
  · rfl
  · cases o <;> rfl

/-- The order of two numbers the other way round is the opposite one. -/
theorem order?_swap (x y : Float) : order? y x = (order? x y).map Ordering.swap := by
  rw [order?_eq, order?_eq, Decoded.compare?_swap]

/-- A number equals itself, and what is not a number has no order. -/
theorem order?_self (x : Float) : order? x x = if x.isNaN then none else some .eq := by
  rw [order?_eq, Decoded.compare?, compare_self, ← unpack_toModel]
  rfl

/-- What is not a number, by its parts. -/
theorem isNaN_iff : x.isNaN ↔ decode x = .nan := by
  show x.toModel.unpack.isNaN = true ↔ _
  rw [unpack_toModel]
  rcases decode x with _ | negative | b
  · simp [Decoded.unpacked, UnpackedFloat.isNaN]
  · simp [Decoded.unpacked, UnpackedFloat.isNaN]
  · rw [Decoded.unpacked]
    split <;> simp [UnpackedFloat.isNaN]

/-! ### The sign of a whole number -/

/-- The parts of zero. -/
theorem decode_zero : decode 0 = .finite ⟨false, 0, -1074⟩ := by decide +kernel

/-- A finite number compared with zero. -/
theorem compare?_zero (b : Binary) : (Decoded.finite b).compare? (decode 0) =
    some (if b.mantissa = 0 then .eq else if b.negative then .lt else .gt) := by
  rw [decode_zero, Decoded.compare?, Decoded.unpacked]
  obtain ⟨negative, mantissa, exponent⟩ := b
  by_cases h : mantissa = 0
  · simp [h, Decoded.unpacked, UnpackedFloat.compare]
  · cases negative <;> simp [h, Decoded.unpacked, UnpackedFloat.compare, signOf]

/-- A whole number that is not zero has a whole part. -/
theorem Binary.wholePart_pos {b : Binary} (hwhole : b.isWhole) (hb : b.mantissa ≠ 0) :
    0 < b.wholePart := by
  have hdvd : Nat.pow 2 (-b.exponent).toNat ∣ b.mantissa :=
    Nat.dvd_of_mod_eq_zero (of_decide_eq_true hwhole)
  have hle : Nat.pow 2 (-b.exponent).toNat ≤ b.mantissa := Nat.le_of_dvd (by omega) hdvd
  have hscale : b.mantissa ≤ b.mantissa * Nat.pow 2 b.exponent.toNat :=
    Nat.le_mul_of_pos_right _ (Nat.two_pow_pos _)
  exact Nat.div_pos (Nat.le_trans hle hscale) (Nat.two_pow_pos _)

/-- The whole part of nothing. -/
theorem Binary.wholePart_eq_zero {b : Binary} (hb : b.mantissa = 0) : b.wholePart = 0 := by
  simp [Binary.wholePart, hb]

/-- A whole number is finite. -/
theorem exists_finite_of_isIntegral (h : isIntegral x) : ∃ b, decode x = .finite b ∧ b.isWhole := by
  rw [isIntegral] at h
  split at h
  · exact ⟨_, ‹_›, h⟩
  · cases h

/-- The sign of a whole number is that of its whole part. -/
theorem lt_zero_iff (h : isIntegral x) : x < 0 ↔ integerPart x < 0 := by
  obtain ⟨⟨negative, mantissa, exponent⟩, hx, hwhole⟩ := exists_finite_of_isIntegral h
  rw [lt_iff, integerPart, hx, compare?_zero]
  by_cases hb : mantissa = 0
  · simp only [hb, Binary.wholePart_eq_zero, if_true, reduceCtorEq, Option.some.injEq, false_iff]
    split <;> decide
  · have hpos := Binary.wholePart_pos hwhole hb
    cases negative with
    | false =>
      simp only [hb, if_false, Bool.false_eq_true, Option.some.injEq, reduceCtorEq, false_iff]
      omega
    | true =>
      simp only [hb, if_false, if_true, true_iff, Nat.pow_eq]
      omega

/-- A whole number is either negative or not, in whichever way one asks. -/
theorem zero_le_iff_not_lt (h : isIntegral x) : 0 ≤ x ↔ ¬ x < 0 := by
  obtain ⟨b, hx, -⟩ := exists_finite_of_isIntegral h
  rw [le_iff, lt_iff, ← Decoded.compare?_swap, hx, compare?_zero]
  split
  · decide
  · split <;> decide

end DocQuery.Number
