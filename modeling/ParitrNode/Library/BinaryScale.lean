import Mathlib.Algebra.Order.Ring.Nat

/-!
The whole part of a number times a power of two, with an exponent of either
sign: it grows with both, and each step of the exponent doubles it up to the bit
that comes in.
-/

namespace BinaryScale

/-- The whole part of `mantissa * 2 ^ exponent`. -/
def scaled (mantissa : Nat) (exponent : Int) : Nat :=
  if exponent < 0 then mantissa >>> (-exponent).toNat else mantissa <<< exponent.toNat

theorem scaled_of_neg {exponent : Int} (negative : exponent < 0) (mantissa : Nat) :
    scaled mantissa exponent = mantissa / 2 ^ (-exponent).toNat := by
  unfold scaled
  rw [if_pos negative, Nat.shiftRight_eq_div_pow]

theorem scaled_of_nonneg {exponent : Int} (nonneg : 0 ≤ exponent) (mantissa : Nat) :
    scaled mantissa exponent = mantissa * 2 ^ exponent.toNat := by
  unfold scaled
  rw [if_neg (Int.not_lt.mpr nonneg), Nat.shiftLeft_eq]

theorem scaled_le_scaled {first second : Nat} (below : first ≤ second) (exponent : Int) :
    scaled first exponent ≤ scaled second exponent := by
  by_cases negative : exponent < 0
  · rw [scaled_of_neg negative, scaled_of_neg negative]
    exact Nat.div_le_div_right below
  · rw [scaled_of_nonneg (Int.not_lt.mp negative), scaled_of_nonneg (Int.not_lt.mp negative)]
    exact Nat.mul_le_mul_right _ below

theorem scaled_two_mul (mantissa : Nat) (exponent : Int) :
    scaled (2 * mantissa) exponent = scaled mantissa (exponent + 1) := by
  by_cases negative : exponent < 0
  · have count : (-exponent).toNat = (-(exponent + 1)).toNat + 1 := by omega
    rw [scaled_of_neg negative, count, Nat.pow_succ', Nat.mul_div_mul_left _ _ (by decide)]
    by_cases last : exponent + 1 < 0
    · rw [scaled_of_neg last]
    · have zero : exponent + 1 = 0 := by omega
      rw [zero]
      exact Nat.div_one mantissa
  · have count : (exponent + 1).toNat = exponent.toNat + 1 := by omega
    rw [scaled_of_nonneg (by omega), scaled_of_nonneg (by omega), count, Nat.pow_succ', Nat.mul_comm 2,
      Nat.mul_assoc]

/-- One step of the exponent doubles the value and brings in at most one bit. -/
theorem scaled_succ (mantissa : Nat) (exponent : Int) :
    scaled mantissa (exponent + 1) = 2 * scaled mantissa exponent ∨
      scaled mantissa (exponent + 1) = 2 * scaled mantissa exponent + 1 := by
  rw [← scaled_two_mul]
  by_cases negative : exponent < 0
  · have count : (-exponent).toNat = (-exponent).toNat - 1 + 1 := by omega
    rw [scaled_of_neg negative, scaled_of_neg negative, count, Nat.pow_succ',
      Nat.mul_div_mul_left _ _ (by decide), Nat.mul_comm 2 (2 ^ _), ← Nat.div_div_eq_div_mul]
    omega
  · rw [scaled_of_nonneg (by omega), scaled_of_nonneg (by omega), Nat.mul_assoc]
    exact Or.inl rfl

theorem scaled_le_succ (mantissa : Nat) (exponent : Int) :
    scaled mantissa exponent ≤ scaled mantissa (exponent + 1) := by
  have step := scaled_succ mantissa exponent
  omega

theorem scaled_mono (mantissa : Nat) {first second : Int} (below : first ≤ second) :
    scaled mantissa first ≤ scaled mantissa second := by
  obtain ⟨count, rfl⟩ := Int.le.dest below
  induction count with
  | zero => exact Nat.le_of_eq (congrArg (scaled mantissa) (Int.add_zero first).symm)
  | succ count ih =>
    have next : first + (count + 1 : Nat) = first + count + 1 := by omega
    rw [next]
    exact Nat.le_trans (ih (by omega)) (scaled_le_succ mantissa _)

/-- A mantissa between `unit` and twice that carries into the exponent without a jump. -/
theorem scaled_carry {unit first second : Nat} (top : first ≤ 2 * unit) (bottom : unit ≤ second)
    {low high : Int} (below : low < high) : scaled first low ≤ scaled second high :=
  calc scaled first low ≤ scaled (2 * unit) low := scaled_le_scaled top low
    _ = scaled unit (low + 1) := scaled_two_mul unit low
    _ ≤ scaled unit high := scaled_mono unit below
    _ ≤ scaled second high := scaled_le_scaled bottom high

end BinaryScale
