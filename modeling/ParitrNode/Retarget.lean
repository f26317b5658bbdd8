import ParitrNode.ShareWork

/-!
The retarget arithmetic in the machine words of the source, and the bits it
demands: they stand for a target inside the limit, and the share bits above them
leave the share interval open.
-/

namespace ParitrNode
open ByteCodec Checked

/-- A value of the type `i128`; `none` is an overflow. -/
def i128 (value : Int) : Option Int :=
  if -2 ^ 127 ≤ value ∧ value < 2 ^ 127 then some value else none

theorem i128_some {value : Int} (low : -2 ^ 127 ≤ value) (high : value < 2 ^ 127) :
    i128 value = some value := if_pos ⟨low, high⟩

def asertFactorChecked (fraction : Int) : Option Int := do
  let linear ← i128 (195766423245049 * fraction)
  let second ← i128 (971821376 * fraction)
  let square ← i128 (second * fraction)
  let third ← i128 (5127 * fraction)
  let thirdSquare ← i128 (third * fraction)
  let cube ← i128 (thirdSquare * fraction)
  let quadratic ← i128 (linear + square)
  let cubic ← i128 (quadratic + cube)
  let rounded ← i128 (cubic + 2 ^ 47)
  i128 (65536 + rounded / 2 ^ 48)

/-- `requiredTarget` with each result in its machine type; `none` is an overflow
or a failing `expect`. -/
def requiredTargetChecked (parentHeight parentTimestamp launchTimestamp : UInt64) : Option Nat :=
  if parentHeight ≤ 1 then some initialTarget
  else do
    let steps ← checkedSub parentHeight 1
    let idealElapsed ← i128 ((steps.toNat : Int) * TARGET_BLOCK_TIME.toNat)
    let actualElapsed ← i128 ((parentTimestamp.toNat : Int) - launchTimestamp.toNat)
    let drift ← i128 (actualElapsed - idealElapsed)
    let scaled ← i128 (drift * 65536)
    let exponent := scaled / ASERT_HALF_LIFE
    let shifts := exponent / 65536
    let fraction := exponent % 65536
    let factor ← asertFactorChecked fraction
    let factor ← if 0 ≤ factor ∧ factor < 2 ^ 64 then some factor.toNat else none
    let product ← if initialTarget * factor ≤ MAX_U512 then some (initialTarget * factor) else none
    let target := product >>> 16
    if shifts < 0 then do
      let count ← i128 (-shifts)
      return max (u512ToU256Clamped (target >>> min count.toNat 511) powLimit) 1
    else if shifts ≥ 256 then return powLimit
    else if target > powLimit >>> shifts.toNat then return powLimit
    else return max (u512ToU256Clamped ((target <<< shifts.toNat) % 2 ^ 512) powLimit) 1

theorem asertFactorChecked_eq {fraction : Int} (low : 0 ≤ fraction) (high : fraction < 65536) :
    asertFactorChecked fraction = some (65536 + (195766423245049 * fraction +
      971821376 * fraction * fraction + 5127 * fraction * fraction * fraction + 2 ^ 47) / 2 ^ 48) := by
  have square : 0 ≤ fraction * fraction := Int.mul_nonneg low low
  have squareBound : fraction * fraction ≤ 65535 * 65535 :=
    Int.mul_le_mul (by omega) (by omega) low (by decide)
  have cube : 0 ≤ fraction * fraction * fraction := Int.mul_nonneg square low
  have cubeBound : fraction * fraction * fraction ≤ 65535 * 65535 * 65535 :=
    Int.mul_le_mul squareBound (by omega) low (by decide)
  have quadratic : 971821376 * fraction * fraction = 971821376 * (fraction * fraction) :=
    Int.mul_assoc _ _ _
  have cubicSquare : 5127 * fraction * fraction = 5127 * (fraction * fraction) := Int.mul_assoc _ _ _
  have cubic : 5127 * fraction * fraction * fraction = 5127 * (fraction * fraction * fraction) := by
    rw [cubicSquare, Int.mul_assoc]
  unfold asertFactorChecked
  simp only [Option.bind_eq_bind]
  rw [i128_some (by omega) (by omega), Option.bind_some,
    i128_some (by omega) (by omega), Option.bind_some,
    i128_some (by omega) (by omega), Option.bind_some,
    i128_some (by omega) (by omega), Option.bind_some,
    i128_some (by omega) (by omega), Option.bind_some,
    i128_some (by omega) (by omega), Option.bind_some,
    i128_some (by omega) (by omega), Option.bind_some,
    i128_some (by omega) (by omega), Option.bind_some,
    i128_some (by omega) (by omega), Option.bind_some]
  exact i128_some (by omega) (by omega)

/-- The schedule never leaves the machine types. -/
theorem requiredTargetChecked_eq (parentHeight parentTimestamp launchTimestamp : UInt64) :
    requiredTargetChecked parentHeight parentTimestamp launchTimestamp =
      some (requiredTarget parentHeight parentTimestamp launchTimestamp) := by
  unfold requiredTargetChecked requiredTarget
  by_cases early : parentHeight ≤ 1
  · rw [if_pos early, if_pos early]
  rw [if_neg early, if_neg early]
  have heightBound := parentHeight.toNat_lt
  have parentBound := parentTimestamp.toNat_lt
  have launchBound := launchTimestamp.toNat_lt
  have above : 1 < parentHeight.toNat := by
    rw [UInt64.le_iff_toNat_le] at early
    exact Nat.lt_of_not_le early
  have one : (1 : UInt64).toNat = 1 := rfl
  have spacing : TARGET_BLOCK_TIME.toNat = 64 := rfl
  have subtracted := checkedSub_of_le (a := parentHeight) (b := 1) (by omega)
  obtain ⟨_, steps⟩ := checkedSub_some subtracted
  have stepsInt : ((parentHeight - 1).toNat : Int) = (parentHeight.toNat : Int) - 1 := by omega
  simp only [Option.bind_eq_bind]
  rw [subtracted, Option.bind_some, stepsInt, spacing, i128_some (by omega) (by omega),
    Option.bind_some, i128_some (by omega) (by omega), Option.bind_some,
    i128_some (by omega) (by omega), Option.bind_some, i128_some (by omega) (by omega),
    Option.bind_some]
  generalize elapsed : (parentTimestamp.toNat : Int) - launchTimestamp.toNat -
    ((parentHeight.toNat : Int) - 1) * (64 : Nat) = drift
  have halfLife : ASERT_HALF_LIFE = 7200 := rfl
  rw [halfLife]
  generalize scaled : drift * 65536 / 7200 = exponent
  obtain ⟨low, high⟩ :=
    asertFactor_bounds (show 0 ≤ exponent % 65536 by omega) (show exponent % 65536 < 65536 by omega)
  rw [asertFactorChecked_eq (by omega) (by omega), Option.bind_some]
  generalize 65536 + (195766423245049 * (exponent % 65536) +
    971821376 * (exponent % 65536) * (exponent % 65536) +
    5127 * (exponent % 65536) * (exponent % 65536) * (exponent % 65536) + 2 ^ 47) / 2 ^ 48 =
      factor at low high ⊢
  rw [if_pos (by omega), Option.bind_some]
  have product : initialTarget * factor.toNat ≤ MAX_U512 := by
    calc initialTarget * factor.toNat ≤ initialTarget * 131072 := Nat.mul_le_mul_left _ (by omega)
      _ ≤ MAX_U512 := by decide +kernel
  rw [if_pos product, Option.bind_some]
  by_cases negative : exponent / 65536 < 0
  · rw [if_pos negative, if_pos negative, i128_some (by omega) (by omega), Option.bind_some]
    rfl
  rw [if_neg negative, if_neg negative]
  by_cases far : exponent / 65536 ≥ 256
  · rw [if_pos far, if_pos far]
    rfl
  rw [if_neg far, if_neg far]
  by_cases clamped : (initialTarget * factor.toNat) >>> 16 > powLimit >>> (exponent / 65536).toNat
  · rw [if_pos clamped, if_pos clamped]
    rfl
  rw [if_neg clamped, if_neg clamped]
  -- below the shifted limit no bit is shifted out
  have kept : (initialTarget * factor.toNat) >>> 16 <<< (exponent / 65536).toNat < 2 ^ 512 := by
    have limit : powLimit < 2 ^ 512 := by decide +kernel
    rw [gt_iff_lt, Nat.not_lt, Nat.shiftRight_eq_div_pow powLimit] at clamped
    rw [Nat.shiftLeft_eq]
    calc (initialTarget * factor.toNat) >>> 16 * 2 ^ (exponent / 65536).toNat
        ≤ powLimit / 2 ^ (exponent / 65536).toNat * 2 ^ (exponent / 65536).toNat :=
          Nat.mul_le_mul_right _ clamped
      _ ≤ powLimit := Nat.div_mul_le_self _ _
      _ < 2 ^ 512 := limit
  rw [Nat.mod_eq_of_lt kept]
  rfl

/-- `targetToBits` with its conversion, its index and its sum in place; `none` is
a panic. -/
def targetToBitsChecked (target : Nat) : Option UInt32 :=
  if target = 0 then some 0
  else do
    let significant := (leBytes 32 target).reverse.dropWhile (· = 0)
    let size ← if significant.length < 2 ^ 32 then some significant.length else none
    let first ← significant[0]?
    let byte := fun index => (significant.getD index 0).toNat
    if first.toNat &&& 0x80 ≠ 0 then do
      let size ← if size + 1 < 2 ^ 32 then some (size + 1) else none
      return UInt32.ofNat ((size <<< 24) ||| ((first.toNat <<< 8) ||| byte 1))
    else return UInt32.ofNat ((size <<< 24) ||| ((first.toNat <<< 16) ||| (byte 1 <<< 8) ||| byte 2))

theorem targetToBitsChecked_eq {target : Nat} (bound : target ≤ MAX_U256) :
    targetToBitsChecked target = some (targetToBits target) := by
  unfold targetToBitsChecked targetToBits
  by_cases zero : target = 0
  · rw [if_pos zero, if_pos zero]
  rw [if_neg zero, if_neg zero]
  obtain ⟨size, spans⟩ := exists_spans (Nat.pos_of_ne_zero zero) bound
  have positive := spans.positive
  have width := spans.width
  simp only [Option.bind_eq_bind, spans.significant, List.length_reverse, leBytes_length]
  cases first : (leBytes size target).reverse[0]? with
  | none =>
    rw [List.getElem?_eq_none_iff, List.length_reverse, leBytes_length] at first
    omega
  | some byte =>
    have lead : (leBytes size target).reverse.getD 0 0 = byte := by
      rw [List.getD_eq_getElem?_getD, first, Option.getD_some]
    rw [if_pos (by omega), Option.bind_some, Option.bind_some, lead]
    by_cases carried : byte.toNat &&& 0x80 ≠ 0
    · rw [if_pos carried, if_pos carried, if_pos (by omega), Option.bind_some]
      rfl
    · rw [if_neg carried, if_neg carried]
      rfl

def requiredBitsChecked (parentHeight parentTimestamp launchTimestamp : UInt64) : Option UInt32 := do
  let target ← requiredTargetChecked parentHeight parentTimestamp launchTimestamp
  targetToBitsChecked target

theorem requiredBitsChecked_eq (parentHeight parentTimestamp launchTimestamp : UInt64) :
    requiredBitsChecked parentHeight parentTimestamp launchTimestamp =
      some (requiredBits parentHeight parentTimestamp launchTimestamp) := by
  have limit : powLimit ≤ MAX_U256 := by decide +kernel
  have bound := requiredTarget_le parentHeight parentTimestamp launchTimestamp
  unfold requiredBitsChecked
  rw [requiredTargetChecked_eq]
  exact targetToBitsChecked_eq (Nat.le_trans bound limit)

/-! The bits that the schedule demands. -/

/-- A compact form keeps more than half of its target. -/
theorem Spans.half_lt_rounded {size target : Nat} (spans : Spans size target) (more : Nat) :
    target < 2 * rounded size more target := by
  have unit : 0 < 256 ^ (size - 1) := Nat.pow_pos (by decide)
  have lead : 1 ≤ target / 256 ^ (size - 1) := Nat.div_pos spans.low unit
  have kept := le_rounded more (Nat.div_mul_le_self target (256 ^ (size - 1)))
  calc target < (target / 256 ^ (size - 1) + 1) * 256 ^ (size - 1) := 
        (Nat.div_lt_iff_lt_mul unit).mp (Nat.lt_succ_self _)
    _ ≤ 2 * (target / 256 ^ (size - 1)) * 256 ^ (size - 1) := Nat.mul_le_mul_right _ (by omega)
    _ = 2 * (target / 256 ^ (size - 1) * 256 ^ (size - 1)) := Nat.mul_assoc _ _ _
    _ ≤ 2 * rounded size more target := Nat.mul_le_mul_left 2 kept

theorem requiredBits_target (parentHeight parentTimestamp launchTimestamp : UInt64) :
    ∃ target, bitsToTarget (requiredBits parentHeight parentTimestamp launchTimestamp) = some target ∧
      1 ≤ target ∧ target ≤ powLimit := by
  have limit : powLimit ≤ MAX_U256 := by decide +kernel
  have positive := requiredTarget_pos parentHeight parentTimestamp launchTimestamp
  have bound := requiredTarget_le parentHeight parentTimestamp launchTimestamp
  obtain ⟨size, more, spans, _, _, read⟩ :=
    bitsToTarget_targetToBits positive (Nat.le_trans bound limit)
  exact ⟨_, read, (spans.rounded_spans more).target_pos,
    Nat.le_trans (Spans.rounded_le size more _) bound⟩

theorem workshareBits_open {bits : UInt32} {target : Nat} (read : bitsToTarget bits = some target)
    (positive : 1 ≤ target) (bound : target ≤ powLimit) :
    ∃ shareBits shareTarget, workshareBits bits = some shareBits ∧
      bitsToTarget shareBits = some shareTarget ∧ target < shareTarget ∧ shareTarget ≤ 32 * target := by
  have top : MAX_U256 = 2 ^ 256 - 1 := rfl
  have limit : powLimit = 2 ^ 248 - 1 := rfl
  have multiplier : WORKSHARE_TARGET_MULTIPLIER = 32 := rfl
  have wide : max (u512ToU256Clamped (target * WORKSHARE_TARGET_MULTIPLIER) MAX_U256) 1 =
      32 * target := by
    unfold u512ToU256Clamped
    rw [multiplier, if_neg (by omega)]
    omega
  obtain ⟨size, more, spans, _, _, again⟩ :=
    @bitsToTarget_targetToBits (32 * target) (by omega) (by omega)
  have kept := spans.half_lt_rounded more
  refine ⟨targetToBits (32 * target), _, ?_, again, by omega, Spans.rounded_le size more _⟩
  unfold workshareBits
  rw [read]
  change some (targetToBits (max (u512ToU256Clamped (target * WORKSHARE_TARGET_MULTIPLIER) MAX_U256) 1))
    = _
  rw [wide]

/-- Every block has a target to meet, and every share of it an interval to fall in. -/
theorem required_bits_usable (parentHeight parentTimestamp launchTimestamp : UInt64) :
    requiredTargetChecked parentHeight parentTimestamp launchTimestamp =
        some (requiredTarget parentHeight parentTimestamp launchTimestamp) ∧
      requiredBitsChecked parentHeight parentTimestamp launchTimestamp =
        some (requiredBits parentHeight parentTimestamp launchTimestamp) ∧
      ∃ target shareBits shareTarget,
        bitsToTarget (requiredBits parentHeight parentTimestamp launchTimestamp) = some target ∧
        1 ≤ target ∧ target ≤ powLimit ∧
        workshareBits (requiredBits parentHeight parentTimestamp launchTimestamp) = some shareBits ∧
        bitsToTarget shareBits = some shareTarget ∧
        target < shareTarget ∧ shareTarget ≤ 32 * target := by
  obtain ⟨target, read, positive, bound⟩ :=
    requiredBits_target parentHeight parentTimestamp launchTimestamp
  obtain ⟨shareBits, shareTarget, shared, shareRead, above, below⟩ :=
    workshareBits_open read positive bound
  exact ⟨requiredTargetChecked_eq _ _ _, requiredBitsChecked_eq _ _ _, target, shareBits, shareTarget,
    read, positive, bound, shared, shareRead, above, below⟩

end ParitrNode
