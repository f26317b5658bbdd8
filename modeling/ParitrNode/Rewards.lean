import ParitrNode.Types

/-!
The reward split of a block: the finder's part, and the workshare pool by
largest remainders over the shares of the preceding blocks.
-/

namespace ParitrNode
open OrderedMap Checked

structure RewardAllocation where
  finderAmount : UInt64
  workshareRewards : List (Address × UInt64)
  deriving DecidableEq

/-- `total`: the release build adds without an overflow check. -/
def RewardAllocation.total (allocation : RewardAllocation) : UInt64 :=
  allocation.workshareRewards.foldl (fun total entry => total + entry.2) allocation.finderAmount

def saturatingAddU512 (a b : Nat) : Nat := min (a + b) MAX_U512

def workshareWeight (blockBits : UInt32) : Except ConsensusError Nat := do
  let bits ← okOr .invalidTarget (workshareBits blockBits)
  return targetWork (← okOr .invalidTarget (bitsToTarget bits))

def addWeight (weights : BTreeMap Address Nat) (share : Workshare) :
    Except ConsensusError (BTreeMap Address Nat) := do
  let weight ← workshareWeight share.candidateHeader.bits
  let entry := (weights[share.miner]?).getD 0
  return weights.insert share.miner (saturatingAddU512 entry weight)

def rewardWindow (parentHistory : List Block) : List Block :=
  parentHistory.drop (parentHistory.length - REWARD_WINDOW)

def windowShares (parentHistory : List Block) : List Workshare :=
  (rewardWindow parentHistory).flatMap (fun block => block.workshareWitness.workshares)

structure Portion where
  address : Address
  amount : UInt64
  remainder : Nat
  deriving DecidableEq

/-- The floor share of one address. The 512-bit product panics on overflow. -/
def portionOf (pool : UInt64) (totalWeight : Nat) (entry : Address × Nat) :
    Except ConsensusError Portion :=
  let numerator := pool.toNat * entry.2
  if numerator > MAX_U512 then .error .panicked
  else .ok ⟨entry.1, UInt64.ofNat (numerator / totalWeight % 2 ^ 64), numerator % totalWeight⟩

def floorShares (pool : UInt64) (totalWeight : Nat) :
    List (Address × Nat) → UInt64 → Except ConsensusError (List Portion × UInt64)
  | [], distributed => .ok ([], distributed)
  | entry :: rest, distributed => do
    let portion ← portionOf pool totalWeight entry
    let distributed ← okOr .moneyRange (checkedAdd distributed portion.amount)
    let (portions, distributed) ← floorShares pool totalWeight rest distributed
    return (portion :: portions, distributed)

def byRemainder (left right : Portion) : Bool :=
  ((compare right.remainder left.remainder).then (compare left.address right.address)).isLE

def byAddress (left right : Portion) : Bool := (compare left.address right.address).isLE

/-- `iter_mut().take(count)`: one more unit for each of the first `count`. -/
def addUnits : Nat → List Portion → List Portion
  | _, [] => []
  | 0, portions => portions
  | count + 1, portion :: rest => { portion with amount := portion.amount + 1 } :: addUnits count rest

def nonzeroAmounts (portions : List Portion) : List (Address × UInt64) :=
  portions.filterMap fun portion =>
    if portion.amount > 0 then some (portion.address, portion.amount) else none

def finderBase (subsidy : UInt64) : UInt64 := subsidy * FINDER_SHARE_PERCENT / 100

/-- The pool among the weighted addresses, in address order. -/
def splitPool (pool : UInt64) (weights : List (Address × Nat)) (totalWeight : Nat) :
    Except ConsensusError (List (Address × UInt64)) := do
  let (portions, distributed) ← floorShares pool totalWeight weights 0
  let leftover ← okOr .moneyRange (checkedSub pool distributed)
  let ranked := addUnits leftover.toNat (portions.mergeSort byRemainder)
  return nonzeroAmounts (ranked.mergeSort byAddress)

/-- The finder's identity only matters to the caller's state transition. -/
def rewardAllocation (height : UInt64) (_finder : Address) (fees : UInt64)
    (parentHistory : List Block) : Except ConsensusError RewardAllocation :=
  let subsidy := blockSubsidy height
  if fees > MAX_MONEY ∨ checkedAdd subsidy fees = none then .error .moneyRange
  else do
    let pool := subsidy - finderBase subsidy
    let weights ← (windowShares parentHistory).foldlM addWeight ∅
    let entries := weights.toList
    let totalWeight := (entries.map Prod.snd).foldl saturatingAddU512 0
    if pool = 0 ∨ totalWeight = 0 then
      let amount ← okOr .moneyRange ((checkedAdd (finderBase subsidy) pool).bind (checkedAdd · fees))
      return ⟨amount, []⟩
    else
      let workshareRewards ← splitPool pool entries totalWeight
      let finderAmount ← okOr .moneyRange (checkedAdd (finderBase subsidy) fees)
      let result : RewardAllocation := ⟨finderAmount, workshareRewards⟩
      if result.total ≠ subsidy + fees then .error .rewardMismatch else return result

end ParitrNode
