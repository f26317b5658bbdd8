import ParitrNode.Library.BinaryScale
import ParitrNode.Retarget

/-!
The response of the schedule: the target after a parent is a function of one
fixed-point exponent, grows with it, and doubles every 65536 steps.
-/

namespace ParitrNode
open ByteCodec BinaryScale

/-- The cubic approximation of `65536 * 2 ^ (fraction / 65536)`. -/
def asertFactor (fraction : Int) : Int :=
  65536 + (195766423245049 * fraction + 971821376 * fraction * fraction +
    5127 * fraction * fraction * fraction + 2 ^ 47) / 2 ^ 48

def asertMantissa (fraction : Int) : Nat := (initialTarget * (asertFactor fraction).toNat) >>> 16

/-- The drift from the schedule in 65536ths of the half-life. -/
def asertExponent (parentHeight parentTimestamp launchTimestamp : UInt64) : Int :=
  driftAt parentHeight parentTimestamp launchTimestamp * 65536 / ASERT_HALF_LIFE

def asertTarget (exponent : Int) : Nat :=
  max (min (scaled (asertMantissa (exponent % 65536)) (exponent / 65536)) powLimit) 1

/-! The mantissa. -/

theorem asertFactor_mono {first second : Int} (low : 0 ≤ first) (below : first ≤ second) :
    asertFactor first ≤ asertFactor second := by
  have square : first * first ≤ second * second := Int.mul_le_mul below below low (by omega)
  have cube : first * first * first ≤ second * second * second :=
    Int.mul_le_mul square below low (Int.mul_nonneg (by omega) (by omega))
  have quadratic : ∀ fraction : Int, 971821376 * fraction * fraction = 971821376 * (fraction * fraction) :=
    fun fraction => Int.mul_assoc _ _ _
  have cubic : ∀ fraction : Int, 5127 * fraction * fraction * fraction =
      5127 * (fraction * fraction * fraction) := by
    intro fraction
    rw [Int.mul_assoc 5127, Int.mul_assoc 5127, Int.mul_assoc]
  unfold asertFactor
  rw [quadratic, quadratic, cubic, cubic]
  apply Int.add_le_add_left
  apply Int.ediv_le_ediv (by decide)
  omega

theorem asertMantissa_mono {first second : Int} (low : 0 ≤ first) (below : first ≤ second) :
    asertMantissa first ≤ asertMantissa second := by
  have factor := asertFactor_mono low below
  unfold asertMantissa
  rw [Nat.shiftRight_eq_div_pow, Nat.shiftRight_eq_div_pow]
  exact Nat.div_le_div_right (Nat.mul_le_mul_left _ (by omega))

theorem asertMantissa_bounds {fraction : Int} (low : 0 ≤ fraction) (high : fraction < 65536) :
    initialTarget ≤ asertMantissa fraction ∧ asertMantissa fraction ≤ 2 * initialTarget := by
  obtain ⟨bottom, top⟩ := asertFactor_bounds low high
  change 65536 ≤ asertFactor fraction at bottom
  change asertFactor fraction ≤ 131072 at top
  unfold asertMantissa
  rw [Nat.shiftRight_eq_div_pow]
  constructor
  · rw [Nat.le_div_iff_mul_le (by decide)]
    exact Nat.mul_le_mul_left _ (by omega)
  · calc initialTarget * (asertFactor fraction).toNat / 2 ^ 16
        ≤ initialTarget * 131072 / 2 ^ 16 := Nat.div_le_div_right (Nat.mul_le_mul_left _ (by omega))
      _ = 2 * initialTarget := by decide +kernel

/-! The target of an exponent. -/

/-- At a multiple of the half-life the fraction starts over where the power of two goes on. -/
theorem asertTarget_mono {first second : Int} (below : first ≤ second) :
    asertTarget first ≤ asertTarget second := by
  have value : scaled (asertMantissa (first % 65536)) (first / 65536) ≤
      scaled (asertMantissa (second % 65536)) (second / 65536) := by
    by_cases same : first / 65536 = second / 65536
    · rw [same]
      exact scaled_le_scaled (asertMantissa_mono (by omega) (by omega)) _
    · have top := (@asertMantissa_bounds (first % 65536) (by omega) (by omega)).2
      have bottom := (@asertMantissa_bounds (second % 65536) (by omega) (by omega)).1
      exact scaled_carry top bottom (by omega)
  unfold asertTarget
  omega

/-- A half-life more doubles a target that neither limit has cut. -/
theorem asertTarget_double {exponent : Int} (above : 1 < asertTarget exponent)
    (room : 2 * asertTarget exponent + 1 ≤ powLimit) :
    asertTarget (exponent + 65536) = 2 * asertTarget exponent ∨
      asertTarget (exponent + 65536) = 2 * asertTarget exponent + 1 := by
  have fraction : (exponent + 65536) % 65536 = exponent % 65536 := Int.add_emod_right ..
  have shifts : (exponent + 65536) / 65536 = exponent / 65536 + 1 := by omega
  have step := scaled_succ (asertMantissa (exponent % 65536)) (exponent / 65536)
  unfold asertTarget at above room ⊢
  rw [fraction, shifts]
  omega

theorem u512ToU256Clamped_eq {limit : Nat} (small : limit < 2 ^ 256) (value : Nat) :
    u512ToU256Clamped value limit = min value limit := by
  unfold u512ToU256Clamped
  split
  · omega
  · rfl

/-- The saturated shift count and the early returns leave the value of the formula. -/
theorem requiredTarget_asert {parentHeight : UInt64} (late : 2 ≤ parentHeight)
    (parentTimestamp launchTimestamp : UInt64) :
    requiredTarget parentHeight parentTimestamp launchTimestamp =
      asertTarget (asertExponent parentHeight parentTimestamp launchTimestamp) := by
  have early : ¬parentHeight ≤ 1 := by
    have two : (2 : UInt64).toNat = 2 := rfl
    have one : (1 : UInt64).toNat = 1 := rfl
    rw [UInt64.le_iff_toNat_le] at late ⊢
    omega
  have limit : powLimit = 2 ^ 248 - 1 := rfl
  have unfolded : requiredTarget parentHeight parentTimestamp launchTimestamp =
      let exponent := asertExponent parentHeight parentTimestamp launchTimestamp
      let target := asertMantissa (exponent % 65536)
      if exponent / 65536 < 0 then
        max (u512ToU256Clamped (target >>> min (-(exponent / 65536)).toNat 511) powLimit) 1
      else if exponent / 65536 ≥ 256 then powLimit
      else if target > powLimit >>> (exponent / 65536).toNat then powLimit
      else max (u512ToU256Clamped (target <<< (exponent / 65536).toNat) powLimit) 1 := if_neg early
  rw [unfolded]
  generalize asertExponent parentHeight parentTimestamp launchTimestamp = exponent
  have bounds := @asertMantissa_bounds (exponent % 65536) (by omega) (by omega)
  have initial : 0 < initialTarget ∧ 2 * initialTarget < 2 ^ 511 := by decide +kernel
  unfold asertTarget
  dsimp only
  generalize asertMantissa (exponent % 65536) = mantissa at bounds
  rw [u512ToU256Clamped_eq (by omega), u512ToU256Clamped_eq (by omega)]
  by_cases negative : exponent / 65536 < 0
  · rw [if_pos negative, scaled_of_neg negative, Nat.shiftRight_eq_div_pow]
    by_cases short : (-(exponent / 65536)).toNat ≤ 511
    · rw [Nat.min_eq_left short]
    · have wide : mantissa < 2 ^ (-(exponent / 65536)).toNat :=
        Nat.lt_of_lt_of_le (by omega) (Nat.pow_le_pow_right (by decide) (Nat.le_of_not_le short))
      rw [Nat.min_eq_right (Nat.le_of_not_le short), Nat.div_eq_of_lt (by omega),
        Nat.div_eq_of_lt wide]
  · rw [if_neg negative, scaled_of_nonneg (Int.not_lt.mp negative), Nat.shiftLeft_eq,
      Nat.shiftRight_eq_div_pow]
    by_cases far : exponent / 65536 ≥ 256
    · have huge : 2 ^ 256 ≤ mantissa * 2 ^ (exponent / 65536).toNat :=
        calc 2 ^ 256 ≤ 2 ^ (exponent / 65536).toNat := Nat.pow_le_pow_right (by decide) (by omega)
          _ ≤ mantissa * 2 ^ (exponent / 65536).toNat := Nat.le_mul_of_pos_left _ (by omega)
      rw [if_pos far]
      omega
    · rw [if_neg far]
      split
      next large =>
        have above := (Nat.div_lt_iff_lt_mul (Nat.two_pow_pos _)).mp large
        omega
      next => rfl

theorem asertExponent_timestamp_mono (parentHeight launchTimestamp : UInt64)
    {parentTimestamp later : UInt64} (after : parentTimestamp ≤ later) :
    asertExponent parentHeight parentTimestamp launchTimestamp ≤
      asertExponent parentHeight later launchTimestamp := by
  have times := UInt64.le_iff_toNat_le.mp after
  have halfLife : ASERT_HALF_LIFE = 7200 := rfl
  unfold asertExponent driftAt
  rw [halfLife]
  apply Int.ediv_le_ediv (by decide)
  omega

theorem asertExponent_height_anti (parentTimestamp launchTimestamp : UInt64)
    {parentHeight higher : UInt64} (above : parentHeight ≤ higher) :
    asertExponent higher parentTimestamp launchTimestamp ≤
      asertExponent parentHeight parentTimestamp launchTimestamp := by
  have heights := UInt64.le_iff_toNat_le.mp above
  have halfLife : ASERT_HALF_LIFE = 7200 := rfl
  have spacing : TARGET_BLOCK_TIME.toNat = 64 := rfl
  unfold asertExponent driftAt
  rw [halfLife, spacing]
  apply Int.ediv_le_ediv (by decide)
  omega

theorem asertExponent_half_life {parentTimestamp later : UInt64} (parentHeight launchTimestamp : UInt64)
    (after : later.toNat = parentTimestamp.toNat + 7200) :
    asertExponent parentHeight later launchTimestamp =
      asertExponent parentHeight parentTimestamp launchTimestamp + 65536 := by
  have halfLife : ASERT_HALF_LIFE = 7200 := rfl
  unfold asertExponent driftAt
  rw [halfLife]
  omega

/-- A slower chain never gets harder, only the time since the launch counts, and a
half-life of delay doubles the target up to its last bit. -/
theorem asert_responds {parentHeight : UInt64} (late : 2 ≤ parentHeight)
    (parentTimestamp launchTimestamp : UInt64) :
    (∀ later, parentTimestamp ≤ later →
      requiredTarget parentHeight parentTimestamp launchTimestamp ≤
        requiredTarget parentHeight later launchTimestamp) ∧
    (∀ higher, parentHeight ≤ higher →
      requiredTarget higher parentTimestamp launchTimestamp ≤
        requiredTarget parentHeight parentTimestamp launchTimestamp) ∧
    (∀ (shift : Int) (shiftedParent shiftedLaunch : UInt64),
      (shiftedParent.toNat : Int) = parentTimestamp.toNat + shift →
      (shiftedLaunch.toNat : Int) = launchTimestamp.toNat + shift →
      requiredTarget parentHeight shiftedParent shiftedLaunch =
        requiredTarget parentHeight parentTimestamp launchTimestamp) ∧
    ∀ later : UInt64, later.toNat = parentTimestamp.toNat + 7200 →
      1 < requiredTarget parentHeight parentTimestamp launchTimestamp →
      2 * requiredTarget parentHeight parentTimestamp launchTimestamp + 1 ≤ powLimit →
      requiredTarget parentHeight later launchTimestamp =
          2 * requiredTarget parentHeight parentTimestamp launchTimestamp ∨
        requiredTarget parentHeight later launchTimestamp =
          2 * requiredTarget parentHeight parentTimestamp launchTimestamp + 1 := by
  refine ⟨fun later after => ?_, fun higher above => ?_, fun shift parent launch moved same => ?_,
    fun later after => ?_⟩
  · rw [requiredTarget_asert late, requiredTarget_asert late]
    exact asertTarget_mono (asertExponent_timestamp_mono parentHeight launchTimestamp after)
  · rw [requiredTarget_asert late, requiredTarget_asert (UInt64.le_trans late above)]
    exact asertTarget_mono (asertExponent_height_anti parentTimestamp launchTimestamp above)
  · have drift : driftAt parentHeight parent launch = driftAt parentHeight parentTimestamp launchTimestamp := by
      unfold driftAt
      omega
    rw [requiredTarget_asert late, requiredTarget_asert late]
    unfold asertExponent
    rw [drift]
  · rw [requiredTarget_asert late, requiredTarget_asert late,
      asertExponent_half_life parentHeight launchTimestamp after]
    exact asertTarget_double

/-- After ten hours without a third block, two hours more double the target. -/
theorem asert_responds_slow :
    let target := requiredTarget 2 (GENESIS_TIMESTAMP + 36000) GENESIS_TIMESTAMP
    let later := requiredTarget 2 (GENESIS_TIMESTAMP + 43200) GENESIS_TIMESTAMP
    target ≤ later ∧ (later = 2 * target ∨ later = 2 * target + 1) := by
  obtain ⟨slower, _, _, doubled⟩ :=
    asert_responds (show 2 ≤ 2 by decide) (GENESIS_TIMESTAMP + 36000) GENESIS_TIMESTAMP
  exact ⟨slower _ (by decide), doubled _ (by decide) (by decide +kernel) (by decide +kernel)⟩

end ParitrNode
