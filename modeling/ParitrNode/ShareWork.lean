import Mathlib.Algebra.Group.Action.Defs
import Mathlib.Algebra.Order.BigOperators.Group.List
import ParitrNode.NearMiss
import ParitrNode.Replayed

/-!
The work of a share chain fits in 256 bits. A target low enough to overflow it
would come after a run of blocks whose own work overflows the checked sum.
-/

namespace ParitrNode
open ByteCodec OrderedMap Checked

/-! The schedule as a function of the drift. -/

def halfLives (drift : Int) : Int := drift * 65536 / ASERT_HALF_LIFE / 65536

def driftAt (parentHeight parentTimestamp launchTimestamp : UInt64) : Int :=
  (parentTimestamp.toNat : Int) - launchTimestamp.toNat -
    ((parentHeight.toNat : Int) - 1) * TARGET_BLOCK_TIME.toNat

theorem asertFactor_bounds {fraction : Int} (low : 0 ≤ fraction) (high : fraction < 65536) :
    let factor : Int := 65536 + (195766423245049 * fraction + 971821376 * fraction * fraction +
      5127 * fraction * fraction * fraction + 2 ^ 47) / 2 ^ 48
    65536 ≤ factor ∧ factor ≤ 131072 := by
  have square : 0 ≤ fraction * fraction := Int.mul_nonneg low low
  have squareBound : fraction * fraction ≤ 65535 * 65535 :=
    Int.mul_le_mul (by omega) (by omega) low (by decide)
  have cube : 0 ≤ fraction * fraction * fraction := Int.mul_nonneg square low
  have cubeBound : fraction * fraction * fraction ≤ 65535 * 65535 * 65535 :=
    Int.mul_le_mul squareBound (by omega) low (by decide)
  dsimp only
  rw [Int.mul_assoc 971821376, Int.mul_assoc 5127, Int.mul_assoc 5127]
  generalize fraction * fraction * fraction = third at *
  generalize fraction * fraction = second at *
  omega

theorem requiredTarget_eq {parentHeight : UInt64} (parentTimestamp launchTimestamp : UInt64)
    (later : ¬parentHeight ≤ 1) :
    ∃ start, initialTarget ≤ start ∧ start ≤ 2 * initialTarget ∧
      let shifts := halfLives (driftAt parentHeight parentTimestamp launchTimestamp)
      requiredTarget parentHeight parentTimestamp launchTimestamp =
        if shifts < 0 then max (u512ToU256Clamped (start >>> min (-shifts).toNat 511) powLimit) 1
        else if shifts ≥ 256 then powLimit
        else if start > powLimit >>> shifts.toNat then powLimit
        else max (u512ToU256Clamped (start <<< shifts.toNat) powLimit) 1 := by
  let exponent := driftAt parentHeight parentTimestamp launchTimestamp * 65536 / ASERT_HALF_LIFE
  let fraction := exponent % 65536
  let factor : Int := 65536 + (195766423245049 * fraction + 971821376 * fraction * fraction +
    5127 * fraction * fraction * fraction + 2 ^ 47) / 2 ^ 48
  obtain ⟨low, high⟩ := asertFactor_bounds (show 0 ≤ fraction by omega) (show fraction < 65536 by omega)
  have natural : 65536 ≤ factor.toNat ∧ factor.toNat ≤ 131072 := by
    have lowNat : 65536 ≤ factor := low
    have highNat : factor ≤ 131072 := high
    omega
  refine ⟨(initialTarget * factor.toNat) >>> 16, ?_, ?_, ?_⟩
  · rw [Nat.shiftRight_eq_div_pow, Nat.le_div_iff_mul_le (by decide)]
    exact Nat.mul_le_mul_left initialTarget natural.1
  · rw [Nat.shiftRight_eq_div_pow]
    apply Nat.div_le_of_le_mul
    calc initialTarget * factor.toNat ≤ initialTarget * 131072 := Nat.mul_le_mul_left _ natural.2
      _ = 2 ^ 16 * (2 * initialTarget) := by decide +kernel
  · unfold requiredTarget
    rw [if_neg later]
    rfl

/-- A target below 17 takes at least 238 half-lives ahead of schedule. -/
theorem halfLives_of_small {parentHeight parentTimestamp launchTimestamp : UInt64}
    (small : requiredTarget parentHeight parentTimestamp launchTimestamp ≤ 16) :
    ¬parentHeight ≤ 1 ∧
      halfLives (driftAt parentHeight parentTimestamp launchTimestamp) ≤ -238 := by
  have later : ¬parentHeight ≤ 1 := by
    intro early
    unfold requiredTarget at small
    rw [if_pos early] at small
    exact absurd small (by decide +kernel)
  refine ⟨later, ?_⟩
  obtain ⟨start, low, high, target⟩ := requiredTarget_eq parentTimestamp launchTimestamp later
  dsimp only at target
  generalize halfLives (driftAt parentHeight parentTimestamp launchTimestamp) = shifts at target ⊢
  rw [target] at small
  have limit : 16 < powLimit := by decide +kernel
  have initial : 16 < initialTarget := by decide +kernel
  -- a value above 16 stays above it when it is clamped
  have clamp : ∀ value, 16 < value → 16 < max (u512ToU256Clamped value powLimit) 1 := by
    intro value above
    unfold u512ToU256Clamped
    split
    · omega
    · omega
  by_cases negative : shifts < 0
  · rw [if_pos negative] at small
    by_contra near
    have count : min (-shifts).toNat 511 ≤ 237 := by omega
    have kept : 16 < start >>> min (-shifts).toNat 511 := by
      calc 16 < initialTarget >>> 237 := by decide +kernel
        _ ≤ initialTarget >>> min (-shifts).toNat 511 := by
          rw [Nat.shiftRight_eq_div_pow, Nat.shiftRight_eq_div_pow]
          exact Nat.div_le_div_left (Nat.pow_le_pow_right (by decide) count) (Nat.pow_pos (by decide))
        _ ≤ start >>> min (-shifts).toNat 511 := by
          rw [Nat.shiftRight_eq_div_pow, Nat.shiftRight_eq_div_pow]
          exact Nat.div_le_div_right low
    have above := clamp _ kept
    omega
  · rw [if_neg negative] at small
    have raised : 16 < start <<< shifts.toNat := by
      rw [Nat.shiftLeft_eq]
      have unit : 0 < 2 ^ shifts.toNat := Nat.pow_pos (by decide)
      have grown := Nat.le_mul_of_pos_right start unit
      omega
    have above := clamp _ raised
    split at small
    · omega
    · split at small
      · omega
      · omega

theorem small_of_halfLives {parentHeight parentTimestamp launchTimestamp : UInt64}
    (later : ¬parentHeight ≤ 1)
    (ahead : halfLives (driftAt parentHeight parentTimestamp launchTimestamp) ≤ -237) :
    requiredTarget parentHeight parentTimestamp launchTimestamp ≤ 63 := by
  obtain ⟨start, low, high, target⟩ := requiredTarget_eq parentTimestamp launchTimestamp later
  dsimp only at target
  generalize halfLives (driftAt parentHeight parentTimestamp launchTimestamp) = shifts at target ahead
  rw [target, if_pos (by omega)]
  have count : 237 ≤ min (-shifts).toNat 511 := by omega
  have cut : start >>> min (-shifts).toNat 511 ≤ 63 := by
    calc start >>> min (-shifts).toNat 511 ≤ (2 * initialTarget) >>> min (-shifts).toNat 511 := by
          rw [Nat.shiftRight_eq_div_pow, Nat.shiftRight_eq_div_pow]
          exact Nat.div_le_div_right high
      _ ≤ (2 * initialTarget) >>> 237 := by
          rw [Nat.shiftRight_eq_div_pow, Nat.shiftRight_eq_div_pow]
          exact Nat.div_le_div_left (Nat.pow_le_pow_right (by decide) count) (Nat.pow_pos (by decide))
      _ ≤ 63 := by decide +kernel
  have inside : start >>> min (-shifts).toNat 511 < 2 ^ 256 := Nat.lt_of_le_of_lt cut (by decide)
  unfold u512ToU256Clamped
  rw [if_neg (by omega)]
  omega

theorem halfLives_near {drift earlier : Int} (near : earlier ≤ drift + 4032)
    (ahead : halfLives drift ≤ -238) : halfLives earlier ≤ -237 := by
  unfold halfLives ASERT_HALF_LIFE at *
  omega

/-! Along a history. -/

section

variable [Crypto] {pow : PowVerifier} {history : List Block} {state : LedgerState}

omit [Crypto] in
theorem nextBits_eq {parent launch : Block} (last : history.getLast? = some parent)
    (second : history[1]? = some launch) :
    nextBits history = targetToBits
      (requiredTarget parent.header.height parent.header.timestamp launch.header.timestamp) := by
  unfold nextBits
  rw [last, second]
  rfl

theorem ValidHistory.drift (valid : ValidHistory pow history state) {index distance : Nat}
    {first second : Block} (launch : Block) (foundFirst : history[index]? = some first)
    (foundSecond : history[index + distance]? = some second) :
    driftAt first.header.height first.header.timestamp launch.header.timestamp ≤
      driftAt second.header.height second.header.timestamp launch.header.timestamp +
        63 * distance := by
  have times := valid.timestamp_add foundFirst foundSecond
  have firstHeight := (valid.linked _ _ foundFirst).height
  have secondHeight := (valid.linked _ _ foundSecond).height
  have spacing : TARGET_BLOCK_TIME.toNat = 64 := rfl
  unfold driftAt
  rw [firstHeight, secondHeight, spacing]
  omega

theorem ValidHistory.target_small (valid : ValidHistory pow history state) {index : Nat}
    {launch parent block : Block} (launched : history[1]? = some launch) (above : 2 ≤ index)
    (foundParent : history[index]? = some parent) (found : history[index + 1]? = some block)
    (ahead : halfLives (driftAt parent.header.height parent.header.timestamp
      launch.header.timestamp) ≤ -237) :
    ∃ target, bitsToTarget block.header.bits = some target ∧ target ≤ 63 := by
  obtain ⟨_, _, _, _, _, accepted⟩ := valid.acceptedAt found (Nat.succ_pos index)
  obtain ⟨other, last, follows⟩ := accepted.follows
  have bound := (List.getElem?_eq_some_iff.mp found).1
  rw [List.getLast?_eq_getElem?, List.length_take, Nat.min_eq_left (by omega),
    List.getElem?_take_of_lt (by omega), Nat.add_sub_cancel, foundParent] at last
  cases last
  have height := (valid.linked _ _ foundParent).height
  have later : ¬parent.header.height ≤ 1 := by
    intro early
    have low := UInt64.le_iff_toNat_le.mp early
    rw [height] at low
    change index ≤ 1 at low
    omega
  have small := small_of_halfLives later ahead
  have positive := requiredTarget_pos parent.header.height parent.header.timestamp
    launch.header.timestamp
  have inside : (63 : Nat) ≤ MAX_U256 := by decide +kernel
  have lastParent : (history.take (index + 1)).getLast? = some parent := by
    rw [List.getLast?_eq_getElem?, List.length_take, Nat.min_eq_left (by omega),
      List.getElem?_take_of_lt (by omega), Nat.add_sub_cancel, foundParent]
  have launchInside : (history.take (index + 1))[1]? = some launch := by
    rw [List.getElem?_take_of_lt (by omega), launched]
  obtain ⟨size, more, _, _, _, read⟩ := bitsToTarget_targetToBits positive (by omega)
  rw [follows.bits, nextBits_eq lastParent launchInside]
  exact ⟨_, read, Nat.le_trans (Spans.rounded_le _ _ _) small⟩

omit [Crypto] in
/-- The last blocks alone bound the work from below. -/
theorem cumulativeWork_ge {blocks : List Block} {work count : Nat} (short : count ≤ blocks.length)
    (summed : cumulativeWork blocks = .ok work)
    (small : ∀ index block, blocks.length - count ≤ index → blocks[index]? = some block →
      ∃ target, bitsToTarget block.header.bits = some target ∧ target ≤ 63) :
    count * 2 ^ 250 ≤ work := by
  obtain ⟨targets, each, total⟩ := cumulativeWork_total summed
  have length : targets.length = blocks.length := by
    have lengths := congrArg List.length each
    rw [List.length_map, List.length_map] at lengths
    exact lengths.symm
  have heavy : ∀ share ∈ (targets.drop (blocks.length - count)).map
      (fun target => 2 ^ 256 / (target + 1)), 2 ^ 250 ≤ share := by
    intro share member
    obtain ⟨target, inside, rfl⟩ := List.mem_map.mp member
    obtain ⟨offset, bound, item⟩ := List.mem_iff_getElem.mp inside
    rw [List.getElem_drop] at item
    have known : (targets.map some)[blocks.length - count + offset]? = some (some target) := by
      rw [List.length_drop] at bound
      rw [List.getElem?_map, List.getElem?_eq_getElem (by omega), item]
      rfl
    rw [← each, List.getElem?_map, Option.map_eq_some_iff] at known
    obtain ⟨block, found, read⟩ := known
    obtain ⟨other, again, low⟩ := small _ block (by omega) found
    rw [read] at again
    cases again
    rw [Nat.le_div_iff_mul_le (Nat.succ_pos target)]
    calc 2 ^ 250 * (target + 1) ≤ 2 ^ 250 * 64 := Nat.mul_le_mul_left _ (by omega)
      _ = 2 ^ 256 := by decide
  have sum := List.card_nsmul_le_sum _ _ heavy
  rw [List.length_map, List.length_drop, length, smul_eq_mul] at sum
  have split : totalWork targets =
      ((targets.take (blocks.length - count)).map (fun target => 2 ^ 256 / (target + 1))).sum +
        ((targets.drop (blocks.length - count)).map (fun target => 2 ^ 256 / (target + 1))).sum := by
    unfold totalWork
    rw [← List.sum_append, ← List.map_append, List.take_append_drop]
  rw [show blocks.length - (blocks.length - count) = count by omega] at sum
  omega

omit [Crypto] in
theorem cumulativeWork_le {blocks : List Block} {work : Nat}
    (summed : cumulativeWork blocks = .ok work) : work ≤ MAX_U256 := by
  cases blocks using List.reverseRecOn with
  | nil =>
    cases summed
    exact Nat.zero_le _
  | append_singleton blocks block =>
    obtain ⟨earlier, _, added⟩ := cumulativeWork_snoc.mp summed
    obtain ⟨target, _, bound, same⟩ := addWork_ok_iff.mp added
    rw [same]
    exact bound

/-- A history whose work fits in 256 bits asks for a target above 16 next. -/
theorem ValidHistory.target_large (valid : ValidHistory pow history state) {work : Nat}
    (summed : cumulativeWork history = .ok work) :
    ∃ target, nextBits history = targetToBits target ∧ 16 < target ∧ target ≤ powLimit := by
  have initial : 16 < initialTarget := by decide +kernel
  have limit : initialTarget ≤ powLimit := by decide +kernel
  obtain ⟨parent, last⟩ : ∃ parent, history.getLast? = some parent :=
    ⟨_, List.getLast?_eq_getLast_of_ne_nil valid.nonempty⟩
  have tip := valid.tipHeight last
  cases launched : history[1]? with
  | none =>
    -- only genesis: the initial target
    have short := List.getElem?_eq_none_iff.mp launched
    have ground : parent.header.height ≤ 1 :=
      UInt64.le_iff_toNat_le.mpr (show parent.header.height.toNat ≤ 1 by omega)
    refine ⟨initialTarget, ?_, initial, limit⟩
    unfold nextBits requiredBits requiredTarget
    rw [last]
    dsimp only
    rw [if_pos ground]
  | some launch =>
    refine ⟨_, nextBits_eq last launched, ?_, requiredTarget_le _ _ _⟩
    by_contra small
    obtain ⟨later, ahead⟩ := halfLives_of_small (Nat.not_lt.mp small)
    rw [List.getLast?_eq_getElem?] at last
    have bound := (List.getElem?_eq_some_iff.mp last).1
    -- so far ahead of schedule takes a long branch
    have two := (List.getElem?_eq_some_iff.mp launched).1
    have long : 100 ≤ history.length := by
      have position : history[1 + (history.length - 2)]? = some parent := by
        rw [show 1 + (history.length - 2) = history.length - 1 by omega]
        exact last
      have times := valid.timestamp_add launched position
      have spacing : TARGET_BLOCK_TIME.toNat = 64 := rfl
      unfold halfLives driftAt ASERT_HALF_LIFE at ahead
      rw [spacing] at ahead
      omega
    have small : ∀ index block, history.length - 64 ≤ index → history[index]? = some block →
        ∃ target, bitsToTarget block.header.bits = some target ∧ target ≤ 63 := by
      intro index block inside found
      have placed := (List.getElem?_eq_some_iff.mp found).1
      have before := List.getElem?_eq_getElem (show index - 1 < history.length by omega)
      have position : history[index - 1 + (history.length - index)]? = some parent := by
        rw [show index - 1 + (history.length - index) = history.length - 1 by omega]
        exact last
      have next : history[index - 1 + 1]? = some block := by
        rw [show index - 1 + 1 = index by omega]
        exact found
      have near := valid.drift launch before position
      have close : halfLives (driftAt history[index - 1].header.height
          history[index - 1].header.timestamp launch.header.timestamp) ≤ -237 :=
        halfLives_near (by omega) ahead
      exact valid.target_small launched (by omega) before next close
    have heavy := cumulativeWork_ge (show 64 ≤ history.length by omega) summed small
    have top := cumulativeWork_le summed
    have overflow : MAX_U256 < 64 * 2 ^ 250 := by decide +kernel
    omega

/-! The weight of one share. -/

omit [Crypto] in
/-- A share target exists for any block target, and rounding keeps it above 512
when the block target is above 16. -/
theorem workshareBits_target {bits : UInt32} {blockTarget : Nat}
    (read : bitsToTarget bits = some blockTarget) (positive : 0 < blockTarget) :
    ∃ shareBits shareTarget, workshareBits bits = some shareBits ∧
      bitsToTarget shareBits = some shareTarget ∧ (16 < blockTarget → 512 ≤ shareTarget) := by
  let wide := max (u512ToU256Clamped (blockTarget * WORKSHARE_TARGET_MULTIPLIER) MAX_U256) 1
  have top : MAX_U256 = 2 ^ 256 - 1 := rfl
  have multiplier : WORKSHARE_TARGET_MULTIPLIER = 32 := rfl
  have range : 0 < wide ∧ wide ≤ MAX_U256 ∧ (16 < blockTarget → 544 ≤ wide) := by
    simp only [wide, u512ToU256Clamped, multiplier]
    split
    · omega
    · omega
  obtain ⟨size, more, spans, _, _, again⟩ := bitsToTarget_targetToBits range.1 range.2.1
  refine ⟨targetToBits wide, _, ?_, again, ?_⟩
  · unfold workshareBits
    rw [read]
    rfl
  · intro large
    have above := range.2.2 large
    have sizePositive := spans.positive
    have high := spans.high
    by_cases one : size = 1
    · rw [one] at high
      omega
    · by_cases two : size = 2
      · have kept := Spans.le_rounded more
          (show 2 * 256 ^ (size - 1) ≤ wide by rw [two]; omega)
        rw [two] at kept ⊢
        omega
      · have low := (spans.rounded_spans more).low
        have power : 256 ^ 2 ≤ 256 ^ (size - 1) := Nat.pow_le_pow_right (by decide) (by omega)
        omega

omit [Crypto] in
theorem workshareWeight_open {bits : UInt32} {target : Nat} (read : bitsToTarget bits = some target) :
    ∃ weight, workshareWeight bits = .ok weight := by
  obtain ⟨shareBits, shareTarget, shared, shareRead, _⟩ :=
    workshareBits_target read (bitsToTarget_pos read)
  refine ⟨targetWork shareTarget, ?_⟩
  unfold workshareWeight
  simp only [bind_ok, okOr_ok]
  exact ⟨shareBits, shared, shareTarget, shareRead, rfl⟩

omit [Crypto] in
theorem workshareWeight_pos {bits : UInt32} {weight : Nat}
    (weighs : workshareWeight bits = .ok weight) : 0 < weight := by
  unfold workshareWeight at weighs
  simp only [bind_ok, okOr_ok] at weighs
  obtain ⟨_, _, target, _, result⟩ := weighs
  rw [← Except.ok.inj result]
  exact targetWork_pos target

theorem ValidHistory.weight_fits (valid : ValidHistory pow history state) {work : Nat}
    (summed : cumulativeWork history = .ok work) :
    ∃ weight, workshareWeight (nextBits history) = .ok weight ∧ 0 < weight ∧
      512 * weight ≤ MAX_U256 := by
  obtain ⟨target, bits, large, bound⟩ := valid.target_large summed
  have limit : powLimit ≤ MAX_U256 := by decide +kernel
  obtain ⟨size, more, spans, _, _, read⟩ :=
    bitsToTarget_targetToBits (Nat.zero_lt_of_lt large) (Nat.le_trans bound limit)
  have blockTarget : 16 < rounded size more target := by
    by_cases one : size = 1
    · have kept := Spans.le_rounded more
        (show 17 * 256 ^ (size - 1) ≤ target by rw [one]; omega)
      rw [one] at kept ⊢
      omega
    · have low := (spans.rounded_spans more).low
      have positive := spans.positive
      have power : 256 ^ 1 ≤ 256 ^ (size - 1) := Nat.pow_le_pow_right (by decide) (by omega)
      omega
  rw [bits]
  obtain ⟨shareBits, shareTarget, shared, shareRead, above⟩ :=
    workshareBits_target read (Nat.zero_lt_of_lt blockTarget)
  have shareLarge := above blockTarget
  refine ⟨targetWork shareTarget, ?_, targetWork_pos shareTarget, ?_⟩
  · unfold workshareWeight
    simp only [bind_ok, okOr_ok]
    exact ⟨shareBits, shared, shareTarget, shareRead, rfl⟩
  · rw [targetWork_eq (bitsToTarget_le shareRead)]
    have cut : 2 ^ 256 / (shareTarget + 1) ≤ 2 ^ 256 / 513 :=
      Nat.div_le_div_left (by omega) (by decide)
    calc 512 * (2 ^ 256 / (shareTarget + 1)) ≤ 512 * (2 ^ 256 / 513) := Nat.mul_le_mul_left _ cut
      _ ≤ MAX_U256 := by decide +kernel

end

end ParitrNode
