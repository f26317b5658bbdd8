import ParitrNode.MoneySupply
import ParitrNode.NearMiss
import ParitrNode.NextBlock
import ParitrNode.Replayed
import ParitrNode.ScheduledShares

/-!
A chain of empty blocks at any increasing times can always be extended, at the
target that the times demand.
-/

namespace ParitrNode
open ByteCodec OrderedMap Checked

variable [Crypto]

def blockAt (timestamp : UInt64) (parent : Block) (claim : RewardClaim) (state : LedgerState)
    (bits : UInt32) (nonce : UInt64) : Block :=
  let block := blockOn parent claim state bits nonce
  { block with header := { block.header with timestamp } }

theorem blockAt_size (timestamp : UInt64) (parent : Block) (claim : RewardClaim) (state : LedgerState)
    (bits : UInt32) (nonce : UInt64) :
    (blockAt timestamp parent claim state bits nonce).consensusEncode.length ≤ MAX_BLOCK_BYTES := by
  simp [Block.consensusEncode, blockAt, blockOn, encodeTransactions, WorkshareWitness.consensusEncode,
    WorkshareWitness.empty, BlockHeader.ENCODED_LEN, MAX_BLOCK_BYTES]

/-- The clock only bounds the timestamp of the block. -/
theorem Accepted.at_clock {block : Block} {history : List Block} {state next : LedgerState}
    {pow : PowVerifier} {now clock : UInt64} (accepted : Accepted block history state pow now next)
    (present : block.header.timestamp ≤ saturatingAdd clock MAX_FUTURE_BLOCK_TIME) :
    Accepted block history state pow clock next := by
  obtain ⟨parent, seed, target, claim, transition, checks, result⟩ := accepted
  have follows := validateHeaderContext_ok_iff.mp checks.context
  exact ⟨parent, seed, target, claim, transition,
    { checks with context := validateHeaderContext_ok_iff.mpr { follows with notFuture := present } }, result⟩

theorem blockAt_accepted {pow : PowVerifier} {history : List Block} {state : LedgerState} {bound : Nat}
    (valid : ValidHistory pow history state)
    (before : ∀ block ∈ history, block.header.timestamp.toNat ≤ bound)
    (short : history.length ≤ 2 ^ 32) {parent : Block} (last : history.getLast? = some parent)
    {timestamp : UInt64} (later : bound < timestamp.toNat) (finder : Address) {nonce : UInt64}
    (meets : ∀ seed (header : BlockHeader), header.nonce = nonce →
      pow.hash seed header.consensusEncode = .ok Hash32.ZERO) :
    ∃ claim next, claim.finder = finder ∧
      Accepted (blockAt timestamp parent claim next (nextBits history) nonce) history state pow latest next := by
  obtain ⟨height, _⟩ := valid.nextTime short last
  have supply := valid.supply_bound
  have range : MAX_MONEY.toNat = 2 ^ 62 - 1 := rfl
  obtain ⟨maturedState, moved⟩ :=
    LedgerState.matured_succeeds state (parent.header.height + 1) (by omega)
  have nothing : applyTransactions maturedState [] = .ok (maturedState, 0) := rfl
  obtain ⟨allocation, _, transitions⟩ := valid.transition_succeeds (by omega) height moved nothing finder
  let claim : RewardClaim := ⟨RewardClaim.VERSION, parent.header.height + 1, finder,
    allocation.finderAmount, parent.header.height + 1⟩
  obtain ⟨next, transitioned⟩ := transitions claim rfl rfl
  obtain ⟨seed, seeded⟩ := randomxSeed_found valid.linked height
  obtain ⟨target, read, _, limit⟩ := nextBits_target history
  have clock : latest.toNat = 2 ^ 64 - 1 := rfl
  have allowance := le_saturatingAdd latest MAX_FUTURE_BLOCK_TIME
  have range := timestamp.toNat_lt
  have parentTime := before parent (List.mem_of_getLast? last)
  have median := medianTimePast_le before
  refine ⟨claim, next, rfl, parent, seed, target, claim, ⟨next, allocation, 0⟩, ?_, rfl⟩
  exact
    { parentLast := last
      context := validateHeaderContext_ok_iff.mpr
        { version := rfl
          protocol := rfl
          height := rfl
          previous := rfl
          bits := rfl
          withinLimit := ⟨target, read, limit⟩
          afterParent := UInt64.lt_iff_toNat_lt.mpr (Nat.lt_of_le_of_lt parentTime later)
          afterMedian := UInt64.lt_iff_toNat_lt.mpr (Nat.lt_of_le_of_lt median later)
          notFuture := UInt64.le_iff_toNat_le.mpr
            (show timestamp.toNat ≤ (saturatingAdd latest MAX_FUTURE_BLOCK_TIME).toNat by omega) }
      blockBytes := blockAt_size timestamp parent claim next (nextBits history) nonce
      transactionCount := Nat.zero_le _
      transactionsRoot := rfl
      witnessShape := rfl
      workshareRoot := rfl
      seedFound := seeded
      targetValid := read
      proofOfWork := verifyPow_ok.mpr ⟨Hash32.ZERO, meets seed _ rfl, Nat.zero_le _⟩
      claimPresent := rfl
      claimVersion := rfl
      claimHeight := rfl
      transitionOk := transitioned
      claimAmount := rfl
      stateRoot := rfl
      workshares := rfl }

def timedTarget (times : List UInt64) : Nat :=
  let last := times.getLast?.getD 0
  requiredTarget (UInt64.ofNat (times.length - 1)) last ((times[1]?).getD last)

structure TimedChain (chain : Chain) (times : List UInt64) (work : Nat) : Prop where
  reachable : chain.Reachable acceptAll
  replayed : chain.Replayed acceptAll latest
  times : chain.blocks.map (fun block => block.header.timestamp) = times
  work : chain.cumulativeWork = work

theorem TimedChain.length_eq {chain : Chain} {times : List UInt64} {work : Nat}
    (timed : TimedChain chain times work) : chain.blocks.length = times.length := by
  rw [← timed.times, List.length_map]

theorem timedChain_genesis : TimedChain Chain.genesis [GENESIS_TIMESTAMP] 16384 where
  reachable := .genesis
  replayed := replayed_genesis acceptAll latest
  times := rfl
  work := by rw [genesis_work, targetWork_launch]

theorem TimedChain.nextBits {chain : Chain} {times : List UInt64} {work : Nat}
    (timed : TimedChain chain times work) : nextBits chain.blocks = targetToBits (timedTarget times) := by
  have last := List.getLast?_eq_getLast_of_ne_nil chain.nonempty
  have length := timed.length_eq.symm
  have position : chain.tip.header.height.toNat + 1 = chain.blocks.length :=
    timed.reachable.valid.tipHeight last
  have height : UInt64.ofNat (times.length - 1) = chain.tip.header.height := by
    rw [length, ← position, Nat.add_sub_cancel, UInt64.ofNat_toNat]
  have launch : times[1]? = (chain.blocks[1]?).map fun block => block.header.timestamp := by
    rw [← timed.times, List.getElem?_map]
  have latestTime : times.getLast?.getD 0 = chain.tip.header.timestamp := by
    rw [← timed.times, List.getLast?_map, last]
    rfl
  unfold ParitrNode.nextBits timedTarget
  rw [last, height, launch, latestTime]
  cases chain.blocks[1]? with
  | none => rfl
  | some block => rfl

theorem TimedChain.extends_at {chain : Chain} {times : List UInt64} {work target : Nat}
    (timed : TimedChain chain times work)
    (heights : ∀ first second : BlockHeader, first.id = second.id → first.height = second.height)
    (short : times.length ≤ 2 ^ 32) {timestamp : UInt64} (later : ∀ time ∈ times, time < timestamp)
    (read : bitsToTarget (targetToBits (timedTarget times)) = some target)
    (room : work + targetWork target ≤ MAX_U256) (finder : Address) (nonce : UInt64) :
    ∃ (grown : Chain) (block : Block), grown.blocks = chain.blocks ++ [block] ∧
      chain.append block acceptAll latest = .ok (.extended block.id block.header.height, grown) ∧
      TimedChain grown (times ++ [timestamp]) (work + targetWork target) := by
  have valid := timed.reachable.valid
  have last := List.getLast?_eq_getLast_of_ne_nil chain.nonempty
  have length := timed.length_eq.symm
  have before : ∀ block ∈ chain.blocks, block.header.timestamp.toNat ≤ timestamp.toNat - 1 := by
    intro block member
    have listed : block.header.timestamp ∈ times := by
      rw [← timed.times]
      exact List.mem_map_of_mem member
    have less := UInt64.lt_iff_toNat_lt.mp (later _ listed)
    omega
  have positive : timestamp.toNat - 1 < timestamp.toNat := by
    have less := UInt64.lt_iff_toNat_lt.mp (later _ (timed.times ▸ List.mem_map_of_mem (List.mem_of_getLast? last)))
    omega
  obtain ⟨claim, next, _, accepted⟩ :=
    blockAt_accepted valid before (length ▸ short) last positive finder
      fun _ (header : BlockHeader) (_ : header.nonce = nonce) => rfl
  have height := (valid.nextTime (length ▸ short) last).1
  generalize built : blockAt timestamp _ claim next (ParitrNode.nextBits chain.blocks) nonce = block at accepted
  have blockHeight : block.header.height.toNat = chain.blocks.length := by
    rw [← built]
    exact height
  have above : block.header.height ≠ 0 := by
    intro ground
    have nonempty := List.length_pos_iff.mpr chain.nonempty
    rw [ground] at blockHeight
    change 0 = _ at blockHeight
    omega
  have bits : block.header.bits = targetToBits (timedTarget times) := by
    rw [← built, ← timed.nextBits]
    rfl
  have parent : block.header.previousBlock = chain.tip.id := by
    rw [← built]
    rfl
  have added : addWork chain.cumulativeWork block = .ok (work + targetWork target) := by
    rw [timed.work]
    exact addWork_ok_iff.mpr ⟨target, by rw [bits, read], room, rfl⟩
  have appended := append_extends (valid.unknown heights blockHeight) parent
    ((validateBlock_ok_iff above).mpr accepted) added
  refine ⟨_, block, rfl, appended, timed.reachable.append appended,
    timed.replayed.append (UInt64.le_refl latest) appended, ?_, rfl⟩
  rw [List.map_append, timed.times, ← built]
  rfl

theorem TimedChain.height_eq {chain : Chain} {times : List UInt64} {work : Nat}
    (timed : TimedChain chain times work) : chain.height.toNat = times.length - 1 := by
  rw [timed.reachable.height_eq, timed.length_eq]

theorem TimedChain.replaces {chain other : Chain} {times otherTimes : List UInt64} {work more : Nat}
    (timed : TimedChain chain times work) (heavier : TimedChain other otherTimes more) (above : work < more) :
    chain.considerChain other.blocks acceptAll latest = .ok (.reorganized chain.tip.id other.tip.id
      (Chain.forkIndex chain.blocks other.blocks), other) := by
  have heads : other.blocks.head? = chain.blocks.head? := by
    rw [timed.reachable.valid.head, heavier.reachable.valid.head]
  have replayed : Chain.fromBlocks other.blocks acceptAll latest = .ok other := heavier.replayed
  have preferred : Chain.preferred other.cumulativeWork other.tip.id chain.cumulativeWork chain.tip.id := by
    rw [timed.work, heavier.work]
    exact Or.inl above
  unfold Chain.considerChain
  rw [if_neg (not_not_intro heads), replayed]
  exact if_pos preferred

omit [Crypto] in
theorem TimedChain.extends_labelled {chain : Chain} {times : List UInt64} {work target : Nat}
    (timed : @TimedChain labelled chain times work) (timestamp : UInt64) (short : times.length ≤ 2 ^ 32)
    (later : (times.all fun time => decide (time < timestamp)) = true)
    (read : bitsToTarget (targetToBits (timedTarget times)) = some target)
    (room : work + targetWork target ≤ MAX_U256) (nonce : UInt64) :
    ∃ grown, @TimedChain labelled grown (times ++ [timestamp]) (work + targetWork target) := by
  let _ := labelled
  have heights : ∀ first second : BlockHeader, first.id = second.id → first.height = second.height :=
    fun first second same => (labelled_id_injective same).1
  have above : ∀ time ∈ times, time < timestamp :=
    fun time member => of_decide_eq_true (List.all_eq_true.mp later time member)
  obtain ⟨grown, _, _, _, extended⟩ :=
    timed.extends_at heights short above read room LedgerState.addressMin nonce
  exact ⟨grown, extended⟩

end ParitrNode
