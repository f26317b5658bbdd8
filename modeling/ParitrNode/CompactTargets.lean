import Mathlib.Data.Nat.Bitwise
import Mathlib.Data.Nat.Log
import ParitrNode.Difficulty

/-!
The compact form of a target: its length in bytes and its three leading bytes.
Every target of 1 to 256 bits has one, and reading it back never gives more.
-/

namespace ParitrNode
open ByteCodec

/-! Base-256 digits. -/

theorem leBytes_append (low high value : Nat) :
    leBytes (low + high) value = leBytes low value ++ leBytes high (value / 256 ^ low) := by
  induction low generalizing value with
  | zero => simp [leBytes]
  | succ low ih =>
    rw [Nat.succ_add, leBytes, leBytes, ih, Nat.div_div_eq_div_mul, ← Nat.pow_succ']
    rfl

theorem leBytes_zero (width : Nat) : leBytes width 0 = List.replicate width 0 := by
  induction width with
  | zero => rfl
  | succ width ih => rw [leBytes, Nat.zero_div, ih]; rfl

theorem getElem?_leBytes {width index : Nat} (inside : index < width) (value : Nat) :
    (leBytes width value)[index]? = some (UInt8.ofNat (value / 256 ^ index % 256)) := by
  induction width generalizing index value with
  | zero => omega
  | succ width ih =>
    cases index with
    | zero => simp [leBytes]
    | succ index =>
      rw [leBytes, List.getElem?_cons_succ, ih (by omega), Nat.div_div_eq_div_mul, ← Nat.pow_succ']

structure Spans (size target : Nat) : Prop where
  positive : 0 < size
  width : size ≤ 32
  low : 256 ^ (size - 1) ≤ target
  high : target < 256 ^ size

theorem exists_spans {target : Nat} (positive : 0 < target) (bound : target ≤ MAX_U256) :
    ∃ size, Spans size target := by
  have top : MAX_U256 < 256 ^ 32 := by decide +kernel
  have low := Nat.pow_log_le_self 256 (Nat.pos_iff_ne_zero.mp positive)
  have short : Nat.log 256 target < 32 := by
    apply (Nat.pow_lt_pow_iff_right (a := 256) (by decide)).mp
    omega
  exact ⟨Nat.log 256 target + 1, Nat.succ_pos _, short, low, Nat.lt_pow_succ_log_self (by decide) target⟩

namespace Spans

variable {size target : Nat}

theorem target_pos (spans : Spans size target) : 0 < target :=
  Nat.lt_of_lt_of_le (Nat.pow_pos (by decide)) spans.low

theorem significant (spans : Spans size target) :
    (leBytes 32 target).reverse.dropWhile (· = 0) = (leBytes size target).reverse := by
  have whole : 32 = size + (32 - size) := by have := spans.width; omega
  have empty : target / 256 ^ size = 0 := Nat.div_eq_of_lt spans.high
  have last : size = size - 1 + 1 := by have := spans.positive; omega
  have lead : 0 < target / 256 ^ (size - 1) := Nat.div_pos spans.low (Nat.pow_pos (by decide))
  have small : target / 256 ^ (size - 1) < 256 := by
    have high := spans.high
    rw [last, Nat.pow_succ'] at high
    exact (Nat.div_lt_iff_lt_mul (Nat.pow_pos (by decide))).mpr high
  have nonzero : UInt8.ofNat (target / 256 ^ (size - 1) % 256) ≠ 0 := by
    intro zero
    have value := congrArg UInt8.toNat zero
    rw [UInt8.toNat_ofNat', Nat.mod_eq_of_lt small, Nat.mod_eq_of_lt small] at value
    exact absurd value (Nat.pos_iff_ne_zero.mp lead)
  have head : (leBytes size target).reverse =
      UInt8.ofNat (target / 256 ^ (size - 1) % 256) :: (leBytes (size - 1) target).reverse := by
    rw [last, leBytes_append, List.reverse_append]
    simp [leBytes]
  rw [whole, leBytes_append, empty, leBytes_zero, List.reverse_append, List.reverse_replicate,
    List.dropWhile_append_of_pos (fun byte member => by simp [List.eq_of_mem_replicate member]),
    head, List.dropWhile_cons_of_neg (by simpa using nonzero)]

theorem byte (index : Nat) :
    ((leBytes size target).reverse.getD index 0).toNat =
      if index < size then target / 256 ^ (size - 1 - index) % 256 else 0 := by
  split
  next inside =>
    have back : size - 1 - index < size := by omega
    rw [List.getD_eq_getElem?_getD, List.getElem?_reverse (by simpa using inside), leBytes_length,
      getElem?_leBytes back, Option.getD_some, UInt8.toNat_ofNat']
    exact Nat.mod_mod _ _
  next outside =>
    rw [List.getD_eq_getElem?_getD, List.getElem?_eq_none (by simpa using outside)]
    rfl

theorem leading (spans : Spans size target) :
    let byte := fun index => ((leBytes size target).reverse.getD index 0).toNat
    byte 0 = target / 256 ^ (size - 1) ∧ byte 0 < 256 ∧ byte 1 < 256 ∧ byte 2 < 256 ∧
      byte 0 * 256 + byte 1 = target * 256 / 256 ^ (size - 1) ∧
      byte 0 * 65536 + byte 1 * 256 + byte 2 = target * 65536 / 256 ^ (size - 1) := by
  dsimp only
  have high := spans.high
  rw [byte 0, byte 1, byte 2]
  match size, spans.positive with
  | 1, _ => simp at high ⊢; omega
  | 2, _ => simp at high ⊢; omega
  | rest + 3, _ =>
    have two : rest + 3 - 1 = rest + 2 := rfl
    have one : rest + 2 - 1 = rest + 1 := rfl
    have none : rest + 2 - 2 = rest := rfl
    have unit : 0 < 256 ^ rest := Nat.pow_pos (by decide)
    have cut : target / 256 ^ rest < 16777216 := by
      rw [Nat.div_lt_iff_lt_mul unit, Nat.mul_comm, show 16777216 = 256 ^ 3 from rfl, ← Nat.pow_add]
      exact high
    have square : target * 65536 / (256 ^ rest * 65536) = target / 256 ^ rest :=
      Nat.mul_div_mul_right _ _ (by decide)
    have single : target * 256 / (256 ^ rest * 65536) = target / 256 ^ rest / 256 := by
      rw [show 256 ^ rest * 65536 = 256 ^ rest * 256 * 256 by omega,
        Nat.mul_div_mul_right _ _ (by decide), Nat.div_div_eq_div_mul]
    have first : target / (256 ^ rest * 65536) = target / 256 ^ rest / 65536 :=
      (Nat.div_div_eq_div_mul _ _ _).symm
    have second : target / (256 ^ rest * 256) = target / 256 ^ rest / 256 :=
      (Nat.div_div_eq_div_mul _ _ _).symm
    have power : 256 ^ (rest + 2) = 256 ^ rest * 65536 := by rw [Nat.pow_add]
    have powerOne : 256 ^ (rest + 1) = 256 ^ rest * 256 := by rw [Nat.pow_add]
    rw [two, one, none, Nat.sub_zero, power, powerOne, square, single, first, second,
      if_pos (by omega), if_pos (by omega), if_pos (by omega)]
    clear square single first second
    generalize target / 256 ^ rest = digits at cut ⊢
    omega

end Spans

/-! The compact form from a size and a mantissa. -/

def compact (size word : Nat) : UInt32 := UInt32.ofNat (size * 2 ^ 24 + word)

theorem high_bit : ∀ byte < 256, (byte &&& 0x80 ≠ 0 ↔ 128 ≤ byte) := by decide +kernel

theorem pack_two {size first second : Nat} (firstBound : first < 256) (secondBound : second < 256) :
    (size <<< 24) ||| ((first <<< 8) ||| second) = size * 2 ^ 24 + (first * 256 + second) := by
  rw [← Nat.shiftLeft_add_eq_or_of_lt (i := 8) secondBound, Nat.shiftLeft_eq first,
    ← Nat.shiftLeft_add_eq_or_of_lt (by omega), Nat.shiftLeft_eq]

theorem pack_three {size first second third : Nat} (firstBound : first < 256)
    (secondBound : second < 256) (thirdBound : third < 256) :
    (size <<< 24) ||| ((first <<< 16) ||| (second <<< 8) ||| third) =
      size * 2 ^ 24 + (first * 65536 + second * 256 + third) := by
  rw [Nat.or_assoc, ← Nat.shiftLeft_add_eq_or_of_lt (i := 8) thirdBound, Nat.shiftLeft_eq second,
    ← Nat.shiftLeft_add_eq_or_of_lt (a := first) (by omega), Nat.shiftLeft_eq first,
    ← Nat.shiftLeft_add_eq_or_of_lt (by omega), Nat.shiftLeft_eq]
  omega

/-- A mantissa of three bytes, or of two behind a zero byte when the top bit is set. -/
theorem targetToBits_eq {size target : Nat} (spans : Spans size target) :
    targetToBits target =
      if target / 256 ^ (size - 1) < 128 then compact size (target * 65536 / 256 ^ (size - 1))
      else compact (size + 1) (target * 256 / 256 ^ (size - 1)) := by
  obtain ⟨top, first, second, third, two, three⟩ := spans.leading
  dsimp only at top first second third two three
  have nonzero : target ≠ 0 := Nat.pos_iff_ne_zero.mp spans.target_pos
  have length : (leBytes size target).reverse.length = size := by simp
  unfold targetToBits
  rw [if_neg nonzero]
  simp only [spans.significant, length]
  rw [← top, ← two, ← three]
  by_cases high : ((leBytes size target).reverse.getD 0 0).toNat < 128
  · rw [if_pos high, if_neg (by rw [high_bit _ first]; omega), pack_three first second third]
    rfl
  · rw [if_neg high, if_pos ((high_bit _ first).mpr (by omega)), pack_two first second]
    rfl

theorem bitsToTarget_compact {size word : Nat} (sizePositive : 0 < size) (sizeBound : size ≤ 33)
    (wordPositive : 0 < word) (wordBound : word < 2 ^ 23) (fits : size = 33 → word ≤ 0xffff)
    {target : Nat} (bound : target ≤ MAX_U256)
    (value : (if size ≤ 3 then word >>> (8 * (3 - size)) else word <<< (8 * (size - 3))) = target)
    (canonical : targetToBits target = compact size word) :
    bitsToTarget (compact size word) = some target := by
  have packed : (compact size word).toNat = size * 2 ^ 24 + word := by
    unfold compact
    rw [UInt32.toNat_ofNat', Nat.mod_eq_of_lt (by omega)]
  have sizeBits : (compact size word).toNat >>> 24 = size := by
    rw [packed, Nat.shiftRight_eq_div_pow]
    omega
  have wordBits : (compact size word).toNat &&& 0x007fffff = word := by
    rw [packed, show 0x007fffff = 2 ^ 23 - 1 from rfl, Nat.and_two_pow_sub_one_eq_mod]
    omega
  have signBit : (compact size word).toNat &&& 0x00800000 = 0 := by
    rw [packed, show 0x00800000 = 2 ^ 23 from rfl, Nat.and_two_pow, Nat.testBit_eq_decide_div_mod_eq]
    have even : (size * 2 ^ 24 + word) / 2 ^ 23 % 2 = 0 := by omega
    rw [even]
    rfl
  have reduced : (if size ≤ 3 then word >>> (8 * (3 - size))
      else (word <<< (8 * (size - 3))) % 2 ^ 256) = target := by
    rw [← value]
    split
    next => rfl
    next long =>
      rw [if_neg long] at value
      have top : MAX_U256 = 2 ^ 256 - 1 := rfl
      rw [value, Nat.mod_eq_of_lt (by omega)]
  unfold bitsToTarget
  simp only [sizeBits, wordBits, signBit, reduced]
  rw [if_neg (by omega), if_pos canonical]

/-! Rounding a target down to its leading bytes. -/

/-- The target kept by a mantissa of one byte and `more` further ones. -/
def rounded (size more target : Nat) : Nat :=
  target * 256 ^ more / 256 ^ (size - 1) * 256 ^ (size - 1) / 256 ^ more

namespace Spans

variable {size target : Nat}

theorem rounded_mul (size more target : Nat) :
    rounded size more target * 256 ^ more =
      target * 256 ^ more / 256 ^ (size - 1) * 256 ^ (size - 1) := by
  apply Nat.div_mul_cancel
  by_cases long : more ≤ size - 1
  · exact Nat.dvd_mul_left_of_dvd (Nat.pow_dvd_pow 256 long) _
  · have divides : 256 ^ (size - 1) ∣ target * 256 ^ more :=
      Nat.dvd_mul_left_of_dvd (Nat.pow_dvd_pow 256 (by omega)) _
    rw [Nat.div_mul_cancel divides]
    exact Nat.dvd_mul_left _ _

theorem rounded_le (size more target : Nat) : rounded size more target ≤ target := by
  apply Nat.le_of_mul_le_mul_right _ (Nat.pow_pos (by decide) : 0 < 256 ^ more)
  rw [rounded_mul]
  exact Nat.div_mul_le_self _ _

theorem le_rounded {lead : Nat} (more : Nat) (above : lead * 256 ^ (size - 1) ≤ target) :
    lead * 256 ^ (size - 1) ≤ rounded size more target := by
  have unit : 0 < 256 ^ (size - 1) := Nat.pow_pos (by decide)
  have word : lead * 256 ^ more ≤ target * 256 ^ more / 256 ^ (size - 1) := by
    rw [Nat.le_div_iff_mul_le unit]
    calc lead * 256 ^ more * 256 ^ (size - 1) = lead * 256 ^ (size - 1) * 256 ^ more := by
          rw [Nat.mul_right_comm]
      _ ≤ target * 256 ^ more := Nat.mul_le_mul_right _ above
  apply Nat.le_of_mul_le_mul_right _ (Nat.pow_pos (by decide) : 0 < 256 ^ more)
  rw [rounded_mul]
  calc lead * 256 ^ (size - 1) * 256 ^ more = lead * 256 ^ more * 256 ^ (size - 1) := by
        rw [Nat.mul_right_comm]
    _ ≤ _ := Nat.mul_le_mul_right _ word

theorem rounded_word (size more target : Nat) :
    rounded size more target * 256 ^ more / 256 ^ (size - 1) =
      target * 256 ^ more / 256 ^ (size - 1) := by
  rw [rounded_mul, Nat.mul_div_cancel _ (Nat.pow_pos (by decide))]

theorem rounded_spans (spans : Spans size target) (more : Nat) :
    Spans size (rounded size more target) where
  positive := spans.positive
  width := spans.width
  low := by
    have low := le_rounded more ((Nat.one_mul _).trans_le spans.low)
    rwa [Nat.one_mul] at low
  high := Nat.lt_of_le_of_lt (rounded_le size more target) spans.high

theorem rounded_shift {width more : Nat} (spans : Spans size target) (placed : width + more = size + 2)
    (word : Nat) (same : word = target * 256 ^ more / 256 ^ (size - 1)) :
    (if width ≤ 3 then word >>> (8 * (3 - width)) else word <<< (8 * (width - 3))) =
      rounded size more target := by
  have positive := spans.positive
  have power : ∀ count, 2 ^ (8 * count) = 256 ^ count := fun count => by rw [Nat.pow_mul]
  unfold rounded
  rw [← same]
  split
  next short =>
    have total : more = (3 - width) + (size - 1) := by omega
    rw [Nat.shiftRight_eq_div_pow, power, total, Nat.pow_add,
      Nat.mul_div_mul_right _ _ (Nat.pow_pos (by decide))]
  next long =>
    have total : size - 1 = (width - 3) + more := by omega
    rw [Nat.shiftLeft_eq, power, total, Nat.pow_add, ← Nat.mul_assoc,
      Nat.mul_div_cancel _ (Nat.pow_pos (by decide))]

end Spans

def trailing (size target : Nat) : Nat := if target / 256 ^ (size - 1) < 128 then 2 else 1

theorem Spans.bitsToTarget_targetToBits {size target : Nat} (spans : Spans size target)
    (bound : target ≤ MAX_U256) :
    bitsToTarget (targetToBits target) = some (rounded size (trailing size target) target) := by
  have sizePositive := spans.positive
  have width := spans.width
  have unit : 0 < 256 ^ (size - 1) := Nat.pow_pos (by decide)
  have low := spans.low
  have top : target / 256 ^ (size - 1) < 256 := by
    rw [Nat.div_lt_iff_lt_mul unit, ← Nat.pow_succ', show (size - 1).succ = size by omega]
    exact spans.high
  have small : ∀ more, rounded size more target ≤ MAX_U256 :=
    fun more => Nat.le_trans (Spans.rounded_le size more target) bound
  have wordPositive : ∀ more, 0 < target * 256 ^ more / 256 ^ (size - 1) := fun more =>
    Nat.div_pos (Nat.le_trans low (Nat.le_mul_of_pos_right _ (Nat.pow_pos (by decide)))) unit
  have wordBelow : ∀ {lead : Nat} (more : Nat), target / 256 ^ (size - 1) < lead →
      target * 256 ^ more / 256 ^ (size - 1) < lead * 256 ^ more := by
    intro lead more below
    rw [Nat.div_lt_iff_lt_mul unit] at below ⊢
    calc target * 256 ^ more < lead * 256 ^ (size - 1) * 256 ^ more :=
          Nat.mul_lt_mul_of_pos_right below (Nat.pow_pos (by decide))
      _ = lead * 256 ^ more * 256 ^ (size - 1) := Nat.mul_right_comm _ _ _
  unfold trailing
  by_cases lead : target / 256 ^ (size - 1) < 128
  · have again : rounded size 2 target / 256 ^ (size - 1) < 128 :=
      Nat.lt_of_le_of_lt (Nat.div_le_div_right (Spans.rounded_le size 2 target)) lead
    have canonical := targetToBits_eq (spans.rounded_spans 2)
    rw [if_pos again, show 65536 = 256 ^ 2 from rfl, Spans.rounded_word] at canonical
    rw [if_pos lead, targetToBits_eq spans, if_pos lead]
    exact bitsToTarget_compact sizePositive (by omega) (wordPositive 2) (wordBelow 2 lead)
      (fun same => by omega) (small 2) (spans.rounded_shift rfl _ rfl) canonical
  · have again : ¬rounded size 1 target / 256 ^ (size - 1) < 128 := by
      rw [Nat.not_lt, Nat.le_div_iff_mul_le unit] at lead ⊢
      exact Spans.le_rounded 1 lead
    have canonical := targetToBits_eq (spans.rounded_spans 1)
    have word := wordBelow 1 top
    have mantissa := Spans.rounded_word size 1 target
    rw [Nat.pow_one] at mantissa
    rw [if_neg again, mantissa] at canonical
    rw [if_neg lead, targetToBits_eq spans, if_neg lead]
    have nonzero := wordPositive 1
    rw [Nat.pow_one] at word nonzero
    exact bitsToTarget_compact (Nat.succ_pos size) (by omega) nonzero (by omega) (fun _ => by omega)
      (small 1) (spans.rounded_shift (show size + 1 + 1 = size + 2 from rfl) _ (by rw [Nat.pow_one]))
      canonical

/-- Any target has a compact form, which stands for a target at most as large. -/
theorem bitsToTarget_targetToBits {target : Nat} (positive : 0 < target) (bound : target ≤ MAX_U256) :
    ∃ size more, Spans size target ∧ 1 ≤ more ∧ more ≤ 2 ∧
      bitsToTarget (targetToBits target) = some (rounded size more target) := by
  obtain ⟨size, spans⟩ := exists_spans positive bound
  have range : 1 ≤ trailing size target ∧ trailing size target ≤ 2 := by
    unfold trailing
    split
    · decide
    · decide
  exact ⟨size, trailing size target, spans, range.1, range.2, spans.bitsToTarget_targetToBits bound⟩

/-! Targets stay inside a 256-bit word and the schedule inside the limit. -/

theorem bitsToTarget_le {bits : UInt32} {target : Nat} (valid : bitsToTarget bits = some target) :
    target ≤ MAX_U256 := by
  unfold bitsToTarget at valid
  have word : bits.toNat &&& 0x007fffff ≤ 0x007fffff := Nat.and_le_right
  have small : ∀ shift, (bits.toNat &&& 0x007fffff) >>> shift ≤ MAX_U256 := by
    intro shift
    calc (bits.toNat &&& 0x007fffff) >>> shift ≤ bits.toNat &&& 0x007fffff := Nat.shiftRight_le _ _
      _ ≤ 0x007fffff := word
      _ ≤ MAX_U256 := by decide
  have cut : ∀ value, value % 2 ^ 256 ≤ MAX_U256 :=
    fun value => Nat.le_sub_one_of_lt (Nat.mod_lt value (by decide))
  dsimp only at valid
  by_cases bad : bits.toNat &&& 0x007fffff = 0 ∨ bits.toNat &&& 0x00800000 ≠ 0 ∨
      bits.toNat >>> 24 = 0 ∨ bits.toNat >>> 24 > 33 ∨
      (bits.toNat >>> 24 = 33 ∧ bits.toNat &&& 0x007fffff > 0xffff)
  · rw [if_pos bad] at valid
    cases valid
  · rw [if_neg bad] at valid
    by_cases short : bits.toNat >>> 24 ≤ 3
    · simp only [if_pos short, Option.ite_none_right_eq_some] at valid
      rw [← Option.some.inj valid.2]
      exact small _
    · simp only [if_neg short, Option.ite_none_right_eq_some] at valid
      rw [← Option.some.inj valid.2]
      exact cut _

theorem bitsToTarget_pos {bits : UInt32} {target : Nat} (valid : bitsToTarget bits = some target) :
    0 < target := by
  rw [Nat.pos_iff_ne_zero]
  intro zero
  unfold bitsToTarget at valid
  simp only [Option.ite_none_left_eq_some, Option.ite_none_right_eq_some] at valid
  obtain ⟨good, same, read⟩ := valid
  rw [Option.some.inj read, zero] at same
  rw [← same] at good
  exact good (Or.inl rfl)

theorem requiredTarget_le (parentHeight parentTimestamp launchTimestamp : UInt64) :
    requiredTarget parentHeight parentTimestamp launchTimestamp ≤ powLimit := by
  have limit : 1 ≤ powLimit := by decide +kernel
  have clamped : ∀ value, max (u512ToU256Clamped value powLimit) 1 ≤ powLimit := by
    intro value
    apply Nat.max_le.mpr ⟨?_, limit⟩
    unfold u512ToU256Clamped
    split
    · exact Nat.le_refl _
    · exact Nat.min_le_right _ _
  unfold requiredTarget
  split
  · decide +kernel
  · dsimp only
    split
    · exact clamped _
    · split
      · exact Nat.le_refl _
      · split
        · exact Nat.le_refl _
        · exact clamped _

theorem requiredTarget_pos (parentHeight parentTimestamp launchTimestamp : UInt64) :
    0 < requiredTarget parentHeight parentTimestamp launchTimestamp := by
  have limit : 0 < powLimit := by decide +kernel
  have raised : ∀ value : Nat, 0 < max value 1 := fun value => by omega
  unfold requiredTarget
  split
  · decide +kernel
  · dsimp only
    split
    · exact raised _
    · split
      · exact limit
      · split
        · exact limit
        · exact raised _

end ParitrNode
