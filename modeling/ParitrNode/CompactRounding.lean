import Mathlib.Order.Bounds.Basic
import ParitrNode.Retarget

/-!
A target in its compact form is the greatest one below it that has such a form:
rounding down is monotone, canonical and close.
-/

namespace ParitrNode
open ByteCodec

/-- `bitsToTarget` with its subtractions, shift counts and shifted value in place;
`none` is a panic or a lost bit. -/
def bitsToTargetChecked (bits : UInt32) : Option (Option Nat) :=
  let size := bits.toNat >>> 24
  let word := bits.toNat &&& 0x007fffff
  if word = 0 ∨ bits.toNat &&& 0x00800000 ≠ 0 ∨ size = 0 ∨ size > 33 ∨ (size = 33 ∧ word > 0xffff) then
    some none
  else do
    let target ←
      if size ≤ 3 then do
        let count := 8 * (3 - size)
        if count < 32 then some (word >>> count) else none
      else do
        let count := 8 * (size - 3)
        if count < 256 ∧ word <<< count < 2 ^ 256 then some (word <<< count) else none
    let again ← targetToBitsChecked target
    return if again = bits then some target else none

theorem bitsToTargetChecked_eq (bits : UInt32) :
    bitsToTargetChecked bits = some (bitsToTarget bits) := by
  have mantissa : bits.toNat &&& 0x007fffff < 2 ^ 23 := Nat.lt_succ_of_le Nat.and_le_right
  unfold bitsToTargetChecked bitsToTarget
  dsimp only
  generalize bits.toNat &&& 0x007fffff = word at mantissa
  generalize bits.toNat >>> 24 = size
  by_cases bad : word = 0 ∨ bits.toNat &&& 0x00800000 ≠ 0 ∨ size = 0 ∨ size > 33 ∨
      (size = 33 ∧ word > 0xffff)
  · rw [if_pos bad, if_pos bad]
  rw [if_neg bad, if_neg bad]
  simp only [not_or, not_and] at bad
  obtain ⟨_, _, sizePositive, sizeBound, last⟩ := bad
  by_cases short : size ≤ 3
  · have value : word >>> (8 * (3 - size)) ≤ MAX_U256 :=
      calc word >>> (8 * (3 - size)) ≤ word := Nat.shiftRight_le _ _
        _ ≤ 2 ^ 23 := Nat.le_of_lt mantissa
        _ ≤ MAX_U256 := by decide +kernel
    rw [if_pos short, if_pos short, if_pos (by omega), Option.bind_eq_bind, Option.bind_some,
      targetToBitsChecked_eq value]
    rfl
  · have inside : word <<< (8 * (size - 3)) < 2 ^ 256 := by
      rw [Nat.shiftLeft_eq]
      by_cases top : size = 33
      · have low : word < 2 ^ 16 := by have := last top; omega
        rw [top]
        calc word * 2 ^ 240 < 2 ^ 16 * 2 ^ 240 := Nat.mul_lt_mul_of_pos_right low (by decide)
          _ = 2 ^ 256 := by decide
      · calc word * 2 ^ (8 * (size - 3)) < 2 ^ 23 * 2 ^ (8 * (size - 3)) :=
              Nat.mul_lt_mul_of_pos_right mantissa (Nat.two_pow_pos _)
          _ ≤ 2 ^ 23 * 2 ^ 232 := Nat.mul_le_mul_left _ (Nat.pow_le_pow_right (by decide) (by omega))
          _ ≤ 2 ^ 256 := by decide
    have value : word <<< (8 * (size - 3)) ≤ MAX_U256 := by
      have limit : MAX_U256 = 2 ^ 256 - 1 := rfl
      omega
    rw [if_neg short, if_neg short, if_pos ⟨by omega, inside⟩, Nat.mod_eq_of_lt inside,
      Option.bind_eq_bind, Option.bind_some, targetToBitsChecked_eq value]
    rfl

theorem bitsToTarget_canonical {bits : UInt32} {target : Nat} (read : bitsToTarget bits = some target) :
    targetToBits target = bits := by
  unfold bitsToTarget at read
  simp only [Option.ite_none_left_eq_some, Option.ite_none_right_eq_some] at read
  obtain ⟨_, same, value⟩ := read
  rw [← Option.some.inj value]
  exact same

namespace Spans

variable {size target : Nat}

theorem dropped_lt (size more target : Nat) :
    (target - rounded size more target) * 256 ^ more < 256 ^ (size - 1) := by
  have unit : 0 < 256 ^ (size - 1) := Nat.pow_pos (by decide)
  have split := Nat.div_add_mod' (target * 256 ^ more) (256 ^ (size - 1))
  have rest := Nat.mod_lt (target * 256 ^ more) unit
  rw [Nat.sub_mul, rounded_mul]
  omega

/-- A mantissa of one byte below 128 and two more, or of one from 128 on and one
more, keeps the 15 leading bits. -/
theorem dropped_le (spans : Spans size target) :
    target - rounded size (trailing size target) target ≤ target / 2 ^ 15 := by
  have unit : 0 < 256 ^ (size - 1) := Nat.pow_pos (by decide)
  have drop := dropped_lt size (trailing size target) target
  have low := spans.low
  rw [Nat.le_div_iff_mul_le (by decide)]
  unfold trailing at drop ⊢
  by_cases lead : target / 256 ^ (size - 1) < 128
  · rw [if_pos lead] at drop ⊢
    omega
  · rw [if_neg lead] at drop ⊢
    rw [Nat.not_lt, Nat.le_div_iff_mul_le unit] at lead
    omega

theorem rounded_le_rounded (size more : Nat) {lower upper : Nat} (below : lower ≤ upper) :
    rounded size more lower ≤ rounded size more upper := by
  unfold rounded
  apply Nat.div_le_div_right
  apply Nat.mul_le_mul_right
  exact Nat.div_le_div_right (Nat.mul_le_mul_right _ below)

/-- Each class of lengths and leading bytes lies above the one before, and its
least target has a compact form. -/
theorem rounded_mono {other upper : Nat} (spans : Spans size target) (above : Spans other upper)
    (below : target ≤ upper) :
    rounded size (trailing size target) target ≤ rounded other (trailing other upper) upper := by
  have kept := rounded_le size (trailing size target) target
  rcases Nat.lt_trichotomy size other with shorter | same | longer
  · have shorterTarget : target < 256 ^ (other - 1) :=
      Nat.lt_of_lt_of_le spans.high (Nat.pow_le_pow_right (by decide) (by omega))
    have least := le_rounded (trailing other upper) ((Nat.one_mul _).trans_le above.low)
    omega
  · subst same
    have unit : 0 < 256 ^ (size - 1) := Nat.pow_pos (by decide)
    have leads := @Nat.div_le_div_right target upper (256 ^ (size - 1)) below
    by_cases small : upper / 256 ^ (size - 1) < 128
    · have both : trailing size target = trailing size upper := by
        unfold trailing
        rw [if_pos small, if_pos (by omega)]
      rw [both]
      exact rounded_le_rounded size _ below
    · by_cases carried : target / 256 ^ (size - 1) < 128
      · rw [Nat.not_lt, Nat.le_div_iff_mul_le unit] at small
        have least := le_rounded (trailing size upper) small
        rw [Nat.div_lt_iff_lt_mul unit] at carried
        omega
      · have both : trailing size target = trailing size upper := by
          unfold trailing
          rw [if_neg small, if_neg carried]
        rw [both]
        exact rounded_le_rounded size _ below
  · have shorterUpper : upper < 256 ^ (size - 1) :=
      Nat.lt_of_lt_of_le above.high (Nat.pow_le_pow_right (by decide) (by omega))
    have low := spans.low
    omega

end Spans

theorem rounding_mono {first second lower upper : Nat} (positive : 0 < first) (below : first ≤ second)
    (bound : second ≤ MAX_U256) (read : bitsToTarget (targetToBits first) = some lower)
    (readUpper : bitsToTarget (targetToBits second) = some upper) : lower ≤ upper := by
  obtain ⟨size, spans⟩ := exists_spans positive (Nat.le_trans below bound)
  obtain ⟨other, above⟩ := exists_spans (Nat.lt_of_lt_of_le positive below) bound
  rw [spans.bitsToTarget_targetToBits (Nat.le_trans below bound)] at read
  rw [above.bitsToTarget_targetToBits bound] at readUpper
  rw [← Option.some.inj read, ← Option.some.inj readUpper]
  exact spans.rounded_mono above below

theorem rounding_greatest {target lower : Nat} (bound : target ≤ MAX_U256)
    (read : bitsToTarget (targetToBits target) = some lower) (below : lower ≤ target) :
    IsGreatest { value | value ≤ target ∧ ∃ bits, bitsToTarget bits = some value } lower := by
  refine ⟨⟨below, _, read⟩, ?_⟩
  intro value inside
  obtain ⟨small, bits, spelled⟩ := inside
  have again : bitsToTarget (targetToBits value) = some value := by
    rw [bitsToTarget_canonical spelled]
    exact spelled
  exact rounding_mono (bitsToTarget_pos spelled) small bound again read

/-- Compact targets round down: to the greatest target with a compact form, which
keeps the form, the order and the 15 leading bits. Reading a word never leaves its
types, and no two words stand for one target. -/
theorem compact_rounds_down :
    (∀ target, 0 < target → target ≤ MAX_U256 → ∃ lower,
      bitsToTarget (targetToBits target) = some lower ∧
      IsGreatest { value | value ≤ target ∧ ∃ bits, bitsToTarget bits = some value } lower ∧
      target - lower < target / 2 ^ 15 + 1 ∧ targetToBits lower = targetToBits target) ∧
    (∀ first second lower upper, 0 < first → first ≤ second → second ≤ MAX_U256 →
      bitsToTarget (targetToBits first) = some lower →
      bitsToTarget (targetToBits second) = some upper → lower ≤ upper) ∧
    (∀ bits, bitsToTargetChecked bits = some (bitsToTarget bits)) ∧
    ∀ first second target, bitsToTarget first = some target → bitsToTarget second = some target →
      first = second := by
  refine ⟨fun target positive bound => ?_, fun _ _ _ _ => rounding_mono, bitsToTargetChecked_eq,
    fun first second target read again => ?_⟩
  · obtain ⟨size, spans⟩ := exists_spans positive bound
    have read := spans.bitsToTarget_targetToBits bound
    have kept := Spans.rounded_le size (trailing size target) target
    exact ⟨_, read, rounding_greatest bound read kept, Nat.lt_succ_of_le spans.dropped_le,
      bitsToTarget_canonical read⟩
  · rw [← bitsToTarget_canonical read, bitsToTarget_canonical again]

end ParitrNode
