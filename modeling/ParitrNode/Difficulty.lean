import ParitrNode.Params
import ParitrNode.Crypto

/-!
Compact targets, ASERT and work. `U256` and `U512` values are natural numbers;
each operation that truncates or saturates says so.
-/

namespace ParitrNode
open ByteCodec

def targetToBits (target : Nat) : UInt32 :=
  if target = 0 then 0
  else
    let significant := (leBytes 32 target).reverse.dropWhile (· = 0)
    let byte := fun index => (significant.getD index 0).toNat
    let size := significant.length
    if byte 0 &&& 0x80 ≠ 0 then
      UInt32.ofNat (((size + 1) <<< 24) ||| ((byte 0 <<< 8) ||| byte 1))
    else UInt32.ofNat ((size <<< 24) ||| ((byte 0 <<< 16) ||| (byte 1 <<< 8) ||| byte 2))

def bitsToTarget (bits : UInt32) : Option Nat :=
  let size := bits.toNat >>> 24
  let word := bits.toNat &&& 0x007fffff
  if word = 0 ∨ bits.toNat &&& 0x00800000 ≠ 0 ∨ size = 0 ∨ size > 33 ∨ (size = 33 ∧ word > 0xffff) then
    none
  else
    let target := if size ≤ 3 then word >>> (8 * (3 - size)) else (word <<< (8 * (size - 3))) % 2 ^ 256
    if targetToBits target = bits then some target else none

def u512ToU256Clamped (value maximum : Nat) : Nat :=
  if value ≥ 2 ^ 256 then maximum else min value maximum

def requiredTarget (parentHeight parentTimestamp launchTimestamp : UInt64) : Nat :=
  if parentHeight ≤ 1 then initialTarget
  else
    let idealElapsed : Int := ((parentHeight.toNat : Int) - 1) * TARGET_BLOCK_TIME.toNat
    let actualElapsed : Int := (parentTimestamp.toNat : Int) - launchTimestamp.toNat
    let drift := actualElapsed - idealElapsed
    -- `/` and `%` on `Int` are Euclidean for a positive divisor, as in the source
    let exponent := drift * 65536 / ASERT_HALF_LIFE
    let shifts := exponent / 65536
    let fraction := exponent % 65536
    let factor : Int := 65536 + (195766423245049 * fraction + 971821376 * fraction * fraction +
      5127 * fraction * fraction * fraction + 2 ^ 47) / 2 ^ 48
    let target := (initialTarget * factor.toNat) >>> 16
    if shifts < 0 then
      max (u512ToU256Clamped (target >>> min (-shifts).toNat 511) powLimit) 1
    else if shifts ≥ 256 then powLimit
    else if target > powLimit >>> shifts.toNat then powLimit
    else max (u512ToU256Clamped (target <<< shifts.toNat) powLimit) 1

def requiredBits (parentHeight parentTimestamp launchTimestamp : UInt64) : UInt32 :=
  targetToBits (requiredTarget parentHeight parentTimestamp launchTimestamp)

def workshareBits (blockBits : UInt32) : Option UInt32 := do
  let blockTarget ← bitsToTarget blockBits
  let shareTarget := u512ToU256Clamped (blockTarget * WORKSHARE_TARGET_MULTIPLIER) MAX_U256
  return targetToBits (max shareTarget 1)

def targetWork (target : Nat) : Nat :=
  if target = MAX_U256 then 1 else (MAX_U256 - target) / (target + 1) + 1

/-- The RandomX output is a little-endian 256-bit integer. -/
def hashMeetsTarget (hash : Hash32) (target : Nat) : Prop := leValue hash.bytes ≤ target

instance (hash : Hash32) (target : Nat) : Decidable (hashMeetsTarget hash target) :=
  inferInstanceAs (Decidable (_ ≤ _))

/-- The initial target as its compact form stores it. -/
def launchTarget : Nat := 0x3ffff <<< 224

theorem bitsToTarget_launch : bitsToTarget (targetToBits initialTarget) = some launchTarget := by
  decide +kernel

theorem targetWork_pos (target : Nat) : 0 < targetWork target := by
  unfold targetWork
  split
  · decide
  · exact Nat.succ_pos _

end ParitrNode
