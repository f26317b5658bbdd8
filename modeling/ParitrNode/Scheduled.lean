import Mathlib.Algebra.Order.BigOperators.Group.Finset
import ParitrNode.Conservation

/-!
A chain of empty blocks on the 64-second schedule can always be extended: its
target never moves, its rewards are the subsidies, and the ledger accepts them
while the supply stays in the money range.
-/

namespace ParitrNode
open ByteCodec OrderedMap Checked

/-- Zero drift leaves the target where it started. -/
theorem requiredTarget_steady {parentHeight parentTimestamp launchTimestamp : UInt64}
    (steady : 1 < parentHeight.toNat →
      parentTimestamp.toNat = launchTimestamp.toNat + (parentHeight.toNat - 1) * 64) :
    requiredTarget parentHeight parentTimestamp launchTimestamp = initialTarget := by
  unfold requiredTarget
  split
  next => rfl
  next later =>
    have above : 1 < parentHeight.toNat := by
      rw [UInt64.le_iff_toNat_le] at later
      change ¬parentHeight.toNat ≤ 1 at later
      omega
    have spacing : TARGET_BLOCK_TIME.toNat = 64 := rfl
    have drift : (parentTimestamp.toNat : Int) - launchTimestamp.toNat -
        ((parentHeight.toNat : Int) - 1) * TARGET_BLOCK_TIME.toNat = 0 := by
      have time := steady above
      rw [spacing]
      omega
    dsimp only
    rw [drift]
    decide +kernel

theorem medianTimePast_le {history : List Block} {bound : Nat}
    (each : ∀ block ∈ history, block.header.timestamp.toNat ≤ bound) :
    (medianTimePast history).toNat ≤ bound := by
  unfold medianTimePast
  dsimp only
  generalize sorted : (((history.drop (history.length - MEDIAN_TIME_SPAN)).map
    fun block => block.header.timestamp).mergeSort fun a b => decide (a ≤ b)) = timestamps
  rw [List.getD_eq_getElem?_getD]
  cases found : timestamps[timestamps.length / 2]? with
  | none => exact Nat.zero_le _
  | some timestamp =>
    have member := List.mem_of_getElem? found
    rw [← sorted, (List.mergeSort_perm _ _).mem_iff] at member
    obtain ⟨block, inside, rfl⟩ := List.mem_map.mp member
    exact each block (List.mem_of_mem_drop inside)

variable [Crypto]

theorem randomxSeed_found {pow : PowVerifier} {history : List Block} (linked : Linked pow history)
    {height : UInt64} (next : height.toNat = history.length) :
    ∃ seed, randomxSeed history height = .ok seed := by
  unfold randomxSeed
  split
  next => exact ⟨_, rfl⟩
  next late =>
    have epoch : RANDOMX_EPOCH_BLOCKS.toNat = 2048 := rfl
    have lag : RANDOMX_SEED_LAG.toNat = 64 := rfl
    have above : 2048 ≤ height.toNat := by
      rw [UInt64.lt_iff_toNat_lt, epoch] at late
      omega
    have bound := height.toNat_lt
    have start : (height / RANDOMX_EPOCH_BLOCKS * RANDOMX_EPOCH_BLOCKS).toNat =
        height.toNat / 2048 * 2048 := by
      rw [UInt64.toNat_mul, UInt64.toNat_div, epoch, Nat.mod_eq_of_lt (by omega)]
    have reference : (randomxSeedReferenceHeight height).toNat = height.toNat / 2048 * 2048 - 64 := by
      unfold randomxSeedReferenceHeight saturatingSub
      rw [if_neg late]
      dsimp only
      rw [checkedSub_of_le (by omega)]
      change (_ - _ : UInt64).toNat = _
      rw [UInt64.toNat_sub_of_le _ _ (UInt64.le_iff_toNat_le.mpr (by omega)), start, lag]
    dsimp only
    cases found : history.find? fun block =>
      decide (block.header.height = randomxSeedReferenceHeight height) with
    | some block => exact ⟨_, rfl⟩
    | none =>
      have inside : (randomxSeedReferenceHeight height).toNat < history.length := by omega
      have item := List.getElem?_eq_getElem inside
      have same := (linked _ _ item).height
      have absent := List.find?_eq_none.mp found _ (List.getElem_mem inside)
      rw [decide_eq_true_eq] at absent
      exact absurd (UInt64.toNat_inj.mp same) absent

omit [Crypto] in
theorem rewardAllocation_alone {history : List Block} (height : UInt64) (finder : Address)
    (quiet : windowShares history = []) :
    rewardAllocation height finder 0 history = .ok ⟨blockSubsidy height, []⟩ := by
  have bound := blockSubsidy_le height
  have base := finderBase_toNat bound
  have zero : (0 : UInt64).toNat = 0 := rfl
  have whole : finderBase (blockSubsidy height) + (blockSubsidy height - finderBase (blockSubsidy height)) =
      blockSubsidy height := by
    rw [UInt64.add_comm, UInt64.sub_add_cancel]
  have rest : (blockSubsidy height - finderBase (blockSubsidy height)).toNat =
      (blockSubsidy height).toNat - (finderBase (blockSubsidy height)).toNat :=
    UInt64.toNat_sub_of_le _ _ (UInt64.le_iff_toNat_le.mpr (by omega))
  have plain : checkedAdd (blockSubsidy height) 0 = some (blockSubsidy height) := by
    rw [checkedAdd_of_lt (by omega), UInt64.add_zero]
  have affordable : ¬((0 : UInt64) > MAX_MONEY ∨ checkedAdd (blockSubsidy height) 0 = none) := by
    rw [plain]
    rintro (high | absent)
    · exact absurd high (by decide)
    · cases absent
  have weightless : (([] : List (Address × Nat)).map Prod.snd).foldl saturatingAddU512 0 = 0 := rfl
  unfold rewardAllocation
  dsimp only
  rw [if_neg affordable, quiet]
  change (if _ then _ else _) = _
  rw [toList_empty, if_pos (Or.inr weightless)]
  rw [checkedAdd_of_lt (by omega), whole, Option.bind_some, plain]
  rfl

def blockOn (parent : Block) (claim : RewardClaim) (state : LedgerState) (bits : UInt32)
    (nonce : UInt64) : Block :=
  { header :=
      { version := HEADER_VERSION
        protocol := PROTOCOL_VERSION
        height := parent.header.height + 1
        previousBlock := parent.id
        transactionsRoot := merkleRoot [claim.id]
        stateRoot := state.root
        workshareRoot := WorkshareWitness.empty.root
        timestamp := GENESIS_TIMESTAMP + (parent.header.height + 1) * TARGET_BLOCK_TIME
        bits
        nonce }
    rewardClaim := some claim
    transactions := []
    workshareWitness := WorkshareWitness.empty }

theorem blockOn_size (parent : Block) (claim : RewardClaim) (state : LedgerState) (bits : UInt32)
    (nonce : UInt64) :
    (blockOn parent claim state bits nonce).consensusEncode.length ≤ MAX_BLOCK_BYTES := by
  simp [Block.consensusEncode, blockOn, encodeTransactions, WorkshareWitness.consensusEncode,
    WorkshareWitness.empty, BlockHeader.ENCODED_LEN, MAX_BLOCK_BYTES]

def nextBlock (finder : Address) (nonce : UInt64) (history : List Block) (state : LedgerState) :
    Except ConsensusError (Block × LedgerState) := do
  let parent ← okOr .wrongParent history.getLast?
  let height := parent.header.height + 1
  let allocation ← rewardAllocation height finder 0 history
  let claim : RewardClaim :=
    { version := RewardClaim.VERSION, height, finder, amount := allocation.finderAmount,
      extranonce := height }
  let transition ← transitionForCandidate height claim [] history state
  return (blockOn parent claim transition.state (nextBits history) nonce, transition.state)

/-- Every block is on the schedule, at the initial target, and without a body. -/
structure OnSchedule (history : List Block) : Prop where
  timestamp : ∀ block ∈ history,
    block.header.timestamp.toNat = 1788984000 + block.header.height.toNat * 64
  bits : ∀ block ∈ history, block.header.bits = targetToBits initialTarget
  quiet : ∀ block ∈ history, block.workshareWitness = WorkshareWitness.empty

theorem onSchedule_genesis : OnSchedule [Block.genesis] := by
  refine ⟨?_, ?_, ?_⟩ <;> intro block member <;> cases List.mem_singleton.mp member <;> rfl

omit [Crypto] in
theorem OnSchedule.windowShares {history : List Block} (scheduled : OnSchedule history) :
    windowShares history = [] := by
  unfold ParitrNode.windowShares
  rw [List.flatMap_eq_nil_iff]
  intro block member
  rw [scheduled.quiet block (List.mem_of_mem_drop member)]
  rfl

theorem ValidHistory.supply_bound {pow : PowVerifier} {history : List Block} {state : LedgerState}
    (valid : ValidHistory pow history state) : state.supply ≤ (history.length - 1) * 1000000000 := by
  rw [valid.supply_eq]
  calc ∑ height ∈ Finset.Ioc 0 (history.length - 1), (blockSubsidy (UInt64.ofNat height)).toNat
    _ ≤ ∑ _height ∈ Finset.Ioc 0 (history.length - 1), 1000000000 :=
      Finset.sum_le_sum (fun height _ => blockSubsidy_le _)
    _ = (history.length - 1) * 1000000000 := by
      rw [Finset.sum_const_nat (fun _ _ => rfl), Nat.card_Ioc, Nat.sub_zero]

theorem OnSchedule.nextBits {pow : PowVerifier} {history : List Block} {state : LedgerState}
    (scheduled : OnSchedule history) (valid : ValidHistory pow history state) :
    nextBits history = targetToBits initialTarget := by
  unfold ParitrNode.nextBits
  cases last : history.getLast? with
  | none => rfl
  | some parent =>
    have tip := valid.tipHeight last
    have inside := List.mem_of_getLast? last
    dsimp only
    unfold requiredBits
    rw [requiredTarget_steady]
    intro above
    have second : 1 < history.length := by omega
    rw [List.getElem?_eq_getElem second]
    have height := (valid.linked 1 _ (List.getElem?_eq_getElem second)).height
    have launch := scheduled.timestamp _ (List.getElem_mem second)
    have now := scheduled.timestamp _ inside
    dsimp only
    omega

theorem transition_empty {pow : PowVerifier} {history : List Block} {state : LedgerState}
    (valid : ValidHistory pow history state) (short : history.length ≤ 2 ^ 32)
    (quiet : windowShares history = []) {height : UInt64} (next : height.toNat = history.length)
    (claim : RewardClaim) (amount : claim.amount = blockSubsidy height) :
    ∃ final, transitionForCandidate height claim [] history state =
      .ok ⟨final, ⟨blockSubsidy height, []⟩, 0⟩ := by
  have supply := valid.supply_bound
  have subsidy := blockSubsidy_le height
  have range : MAX_MONEY.toNat = 2 ^ 62 - 1 := rfl
  have lag : REWARD_MATURITY.toNat = 100 := rfl
  obtain ⟨maturedState, maturedOk⟩ := LedgerState.matured_succeeds state height (by omega)
  obtain ⟨-, -, maturedSupply, -⟩ := LedgerState.matured_ok maturedOk
  have owed := maturedState.pendingAt_le_total (height + REWARD_MATURITY) claim.finder
  unfold LedgerState.supply at maturedSupply supply
  obtain ⟨final, scheduled⟩ := LedgerState.scheduleReward_succeeds maturedState
    (height + REWARD_MATURITY) claim.finder (blockSubsidy height) (by omega)
  refine ⟨final, transitionForCandidate_ok_iff.mpr ⟨maturedState, maturedState,
    height + REWARD_MATURITY, final, ?_⟩⟩
  exact
    { maturedOk
      appliedOk := rfl
      allocationOk := rewardAllocation_alone height claim.finder quiet
      claimAmount := amount
      maturityOk := checkedAdd_of_lt (by omega)
      finderOk := scheduled
      sharesOk := rfl }

def Lenient (pow : PowVerifier) : Prop :=
  ∀ seed input, ∃ hash, pow.hash seed input = .ok hash ∧ hashMeetsTarget hash launchTarget

def acceptAll : PowVerifier := ⟨fun _ _ => .ok Hash32.ZERO⟩

omit [Crypto] in
theorem acceptAll_lenient : Lenient acceptAll :=
  fun _ _ => ⟨Hash32.ZERO, rfl, by decide +kernel⟩

/-- An oracle under which every header with this nonce meets the launch target. -/
def LenientAt (pow : PowVerifier) (nonce : UInt64) : Prop :=
  ∀ seed (header : BlockHeader), header.nonce = nonce →
    ∃ hash, pow.hash seed header.consensusEncode = .ok hash ∧ hashMeetsTarget hash launchTarget

omit [Crypto] in
theorem Lenient.at {pow : PowVerifier} (lenient : Lenient pow) (nonce : UInt64) :
    LenientAt pow nonce := fun seed header _ => lenient seed header.consensusEncode

def blockWith (parent : Block) (claim : RewardClaim) (transactions : List Transaction)
    (state : LedgerState) (bits : UInt32) (nonce : UInt64) : Block :=
  { header :=
      { version := HEADER_VERSION
        protocol := PROTOCOL_VERSION
        height := parent.header.height + 1
        previousBlock := parent.id
        transactionsRoot := merkleRoot (claim.id :: transactions.map Transaction.id)
        stateRoot := state.root
        workshareRoot := WorkshareWitness.empty.root
        timestamp := GENESIS_TIMESTAMP + (parent.header.height + 1) * TARGET_BLOCK_TIME
        bits
        nonce }
    rewardClaim := some claim
    transactions
    workshareWitness := WorkshareWitness.empty }

theorem ValidHistory.nextTime {pow : PowVerifier} {history : List Block} {state : LedgerState}
    (valid : ValidHistory pow history state) (short : history.length ≤ 2 ^ 32) {parent : Block}
    (last : history.getLast? = some parent) :
    (parent.header.height + 1).toNat = history.length ∧
      (GENESIS_TIMESTAMP + (parent.header.height + 1) * TARGET_BLOCK_TIME).toNat =
        1788984000 + history.length * 64 := by
  have tip := valid.tipHeight last
  have one : (1 : UInt64).toNat = 1 := rfl
  have height : (parent.header.height + 1).toNat = history.length := by
    rw [toNat_add (by omega)]
    omega
  have spacing : TARGET_BLOCK_TIME.toNat = 64 := rfl
  have launch : GENESIS_TIMESTAMP.toNat = 1788984000 := rfl
  have offset : ((parent.header.height + 1) * TARGET_BLOCK_TIME).toNat = history.length * 64 := by
    rw [UInt64.toNat_mul, height, spacing, Nat.mod_eq_of_lt (by omega)]
  refine ⟨height, ?_⟩
  rw [toNat_add (by omega), offset, launch]

theorem blockWith_accepted {pow : PowVerifier} {history : List Block} {state : LedgerState}
    (valid : ValidHistory pow history state) (scheduled : OnSchedule history)
    (short : history.length ≤ 2 ^ 32) {parent : Block} (last : history.getLast? = some parent)
    {claim : RewardClaim} (version : claim.version = RewardClaim.VERSION)
    (claimed : claim.height = parent.header.height + 1) {transactions : List Transaction}
    {transition : Transition} (amount : claim.amount = transition.allocation.finderAmount)
    (transitioned : transitionForCandidate (parent.header.height + 1) claim transactions history state =
      .ok transition) {nonce : UInt64}
    (size : (blockWith parent claim transactions transition.state (nextBits history)
      nonce).consensusEncode.length ≤ MAX_BLOCK_BYTES)
    (few : transactions.length ≤ MAX_BLOCK_TRANSACTIONS) {now : UInt64} (lenient : LenientAt pow nonce)
    (late : 1788984000 + history.length * 64 ≤ now.toNat) :
    Accepted (blockWith parent claim transactions transition.state (nextBits history) nonce) history
      state pow now transition.state := by
  obtain ⟨height, time⟩ := valid.nextTime short last
  have bits := scheduled.nextBits valid
  obtain ⟨seed, seeded⟩ := randomxSeed_found valid.linked height
  obtain ⟨hash, hashed, meets⟩ := lenient seed
    (blockWith parent claim transactions transition.state (nextBits history) nonce).header rfl
  have before : ∀ block ∈ history, block.header.timestamp.toNat ≤
      1788984000 + (history.length - 1) * 64 := by
    intro block member
    obtain ⟨index, bound, same⟩ := List.mem_iff_getElem.mp member
    have position := (valid.linked index block (by rw [List.getElem?_eq_getElem bound, same])).height
    rw [scheduled.timestamp block member, position]
    omega
  have nonempty := List.length_pos_iff.mpr valid.nonempty
  have targetValid : bitsToTarget (nextBits history) = some launchTarget := by
    rw [bits, bitsToTarget_launch]
  have timestamp : (blockWith parent claim transactions transition.state (nextBits history)
      nonce).header.timestamp.toNat = 1788984000 + history.length * 64 := time
  have allowance := le_saturatingAdd now MAX_FUTURE_BLOCK_TIME
  have median := medianTimePast_le before
  have parentTime := before parent (List.mem_of_getLast? last)
  refine ⟨parent, seed, launchTarget, claim, transition, ?_, rfl⟩
  exact
    { parentLast := last
      context := validateHeaderContext_ok_iff.mpr
        { version := rfl
          protocol := rfl
          height := rfl
          previous := rfl
          bits := rfl
          withinLimit := ⟨launchTarget, targetValid, by decide +kernel⟩
          afterParent := UInt64.lt_iff_toNat_lt.mpr (by rw [timestamp]; omega)
          afterMedian := UInt64.lt_iff_toNat_lt.mpr (by rw [timestamp]; omega)
          notFuture := UInt64.le_iff_toNat_le.mpr (by rw [timestamp]; omega) }
      blockBytes := size
      transactionCount := few
      transactionsRoot := rfl
      witnessShape := rfl
      workshareRoot := rfl
      seedFound := seeded
      targetValid
      proofOfWork := verifyPow_ok.mpr ⟨hash, hashed, meets⟩
      claimPresent := rfl
      claimVersion := version
      claimHeight := claimed
      transitionOk := transitioned
      claimAmount := amount
      stateRoot := rfl
      workshares := rfl }

structure BuiltOn (history : List Block) (finder : Address) (nonce : UInt64) (block : Block) : Prop where
  height : block.header.height.toNat = history.length
  nonce : block.header.nonce = nonce
  previous : ∀ parent, history.getLast? = some parent → block.header.previousBlock = parent.id
  timestamp : block.header.timestamp.toNat = 1788984000 + history.length * 64
  bits : block.header.bits = targetToBits initialTarget
  witness : block.workshareWitness = WorkshareWitness.empty
  transactions : block.transactions = []
  claim : ∃ claim, block.rewardClaim = some claim ∧ claim.finder = finder

theorem BuiltOn.reward {history : List Block} {finder : Address} {nonce : UInt64}
    {block : Block} (built : BuiltOn history finder nonce block) (quiet : windowShares history = []) :
    blockReward history block finder = (blockSubsidy (UInt64.ofNat history.length)).toNat := by
  obtain ⟨claim, present, rfl⟩ := built.claim
  have same : UInt64.ofNat history.length = block.header.height := by
    rw [← built.height, UInt64.ofNat_toNat]
  unfold blockReward
  rw [present, built.transactions]
  rw [show templateFees [] = .ok 0 from rfl]
  dsimp only
  rw [rewardAllocation_alone _ _ quiet, same]
  exact if_pos rfl

theorem nextBlock_ok {pow : PowVerifier} {history : List Block} {state : LedgerState}
    (valid : ValidHistory pow history state) (scheduled : OnSchedule history)
    (short : history.length ≤ 2 ^ 32) (finder : Address) (nonce : UInt64) :
    ∃ block next, nextBlock finder nonce history state = .ok (block, next) ∧
      BuiltOn history finder nonce block ∧
      ∀ (now : UInt64), LenientAt pow nonce → 1788984000 + history.length * 64 ≤ now.toNat →
        Accepted block history state pow now next := by
  obtain ⟨parent, last⟩ := Option.isSome_iff_exists.mp
    (List.getLast?_isSome.mpr valid.nonempty)
  obtain ⟨height, time⟩ := valid.nextTime short last
  let claim : RewardClaim := ⟨RewardClaim.VERSION, parent.header.height + 1, finder,
    blockSubsidy (parent.header.height + 1), parent.header.height + 1⟩
  obtain ⟨final, transitioned⟩ := transition_empty valid short scheduled.windowShares height
    claim rfl
  have allocated := rewardAllocation_alone (parent.header.height + 1) finder scheduled.windowShares
  have built : nextBlock finder nonce history state =
      .ok (blockOn parent claim final (nextBits history) nonce, final) := by
    unfold nextBlock
    rw [last]
    change rewardAllocation (parent.header.height + 1) finder 0 history >>= _ = _
    rw [allocated]
    change transitionForCandidate (parent.header.height + 1) claim [] history state >>= _ = _
    rw [transitioned]
    rfl
  have bits := scheduled.nextBits valid
  refine ⟨_, final, built, ?_, ?_⟩
  · exact
      { height
        nonce := rfl
        previous := fun other same => by rw [last] at same; cases same; rfl
        timestamp := time
        bits
        witness := rfl
        transactions := rfl
        claim := ⟨claim, rfl, rfl⟩ }
  · intro now lenient late
    have same : blockOn parent claim final (nextBits history) nonce =
        blockWith parent claim [] final (nextBits history) nonce := rfl
    rw [same]
    exact blockWith_accepted valid scheduled short last rfl rfl rfl transitioned
      (blockOn_size parent claim final (nextBits history) nonce) (Nat.zero_le _) lenient late

omit [Crypto] in
theorem OnSchedule.add {history : List Block} {block : Block} (scheduled : OnSchedule history)
    (timestamp : block.header.timestamp.toNat = 1788984000 + block.header.height.toNat * 64)
    (bits : block.header.bits = targetToBits initialTarget)
    (witness : block.workshareWitness = WorkshareWitness.empty) : OnSchedule (history ++ [block]) := by
  refine ⟨?_, ?_, ?_⟩
  · intro other member
    rcases List.mem_append.mp member with earlier | new
    · exact scheduled.timestamp other earlier
    · rw [List.mem_singleton.mp new, timestamp]
  · intro other member
    rcases List.mem_append.mp member with earlier | new
    · exact scheduled.bits other earlier
    · rw [List.mem_singleton.mp new, bits]
  · intro other member
    rcases List.mem_append.mp member with earlier | new
    · exact scheduled.quiet other earlier
    · rw [List.mem_singleton.mp new, witness]

theorem OnSchedule.snoc {history : List Block} {finder : Address} {nonce : UInt64} {block : Block}
    (scheduled : OnSchedule history) (built : BuiltOn history finder nonce block) :
    OnSchedule (history ++ [block]) :=
  scheduled.add (by rw [built.timestamp, built.height]) built.bits built.witness

/-- `chain_with_blocks`: genesis and `count` empty blocks of one finder. -/
def chainWithBlocks (finder : Address) (nonce : UInt64) :
    Nat → Except ConsensusError (List Block × LedgerState)
  | 0 => .ok ([Block.genesis], default)
  | count + 1 => do
    let (history, state) ← chainWithBlocks finder nonce count
    let (block, next) ← nextBlock finder nonce history state
    return (history ++ [block], next)

def latest : UInt64 := UInt64.ofNat (2 ^ 64 - 1)

omit [Crypto] in
theorem targetWork_launch : targetWork launchTarget = 16384 := by decide +kernel

omit [Crypto] in
theorem OnSchedule.cumulativeWork {history : List Block} (scheduled : OnSchedule history)
    (short : history.length ≤ 2 ^ 33) :
    cumulativeWork history = .ok (history.length * 16384) := by
  induction history using List.reverseRecOn with
  | nil => rfl
  | append_singleton earlier block ih =>
    have before : OnSchedule earlier :=
      ⟨fun other member => scheduled.timestamp other (List.mem_append_left _ member),
        fun other member => scheduled.bits other (List.mem_append_left _ member),
        fun other member => scheduled.quiet other (List.mem_append_left _ member)⟩
    rw [List.length_append, List.length_singleton] at short ⊢
    have bits := scheduled.bits block (List.mem_append_right _ (List.mem_singleton_self _))
    refine cumulativeWork_snoc.mpr ⟨_, ih before (by omega), addWork_ok_iff.mpr
      ⟨launchTarget, by rw [bits, bitsToTarget_launch], ?_, ?_⟩⟩
    · have top : 2 ^ 64 ≤ MAX_U256 := by decide +kernel
      rw [targetWork_launch]
      omega
    · rw [targetWork_launch]
      omega

/-- Where the id of a header tells its height, the next block is not in the chain. -/
theorem ValidHistory.unknown {pow : PowVerifier} {chain : Chain}
    (valid : ValidHistory pow chain.blocks chain.state)
    (heights : ∀ first second : BlockHeader, first.id = second.id → first.height = second.height)
    {block : Block} (height : block.header.height.toNat = chain.blocks.length) :
    chain.blockByHash block.id = none := by
  unfold Chain.blockByHash
  rw [List.find?_eq_none]
  intro other member
  rw [decide_eq_true_eq]
  intro same
  obtain ⟨index, bound, item⟩ := List.mem_iff_getElem.mp member
  have position := (valid.linked index other (by rw [List.getElem?_eq_getElem bound, item])).height
  rw [heights _ _ same] at position
  omega

theorem Chain.Reachable.extends {pow : PowVerifier} {chain : Chain} (reachable : chain.Reachable pow)
    (heights : ∀ first second : BlockHeader, first.id = second.id → first.height = second.height)
    (work : chain.cumulativeWork = chain.blocks.length * 16384) (short : chain.blocks.length ≤ 2 ^ 32)
    {block : Block} {next : LedgerState} {now : UInt64}
    (height : block.header.height.toNat = chain.blocks.length)
    (previous : block.header.previousBlock = chain.tip.id)
    (bits : block.header.bits = targetToBits initialTarget)
    (accepted : Accepted block chain.blocks chain.state pow now next) :
    ∃ grown : Chain,
      chain.append block pow now = .ok (.extended block.id block.header.height, grown) ∧
      grown.blocks = chain.blocks ++ [block] ∧ grown.state = next ∧
      grown.cumulativeWork = grown.blocks.length * 16384 := by
  have valid := reachable.valid
  have nonempty := List.length_pos_iff.mpr valid.nonempty
  have above : block.header.height ≠ 0 := by
    intro ground
    rw [ground] at height
    change 0 = _ at height
    omega
  have unknown := valid.unknown heights height
  have state := (validateBlock_ok_iff above).mpr accepted
  have top : 2 ^ 64 ≤ MAX_U256 := by decide +kernel
  have added : addWork chain.cumulativeWork block = .ok (chain.cumulativeWork + 16384) :=
    addWork_ok_iff.mpr ⟨launchTarget, by rw [bits, bitsToTarget_launch],
      by rw [targetWork_launch]; omega, by rw [targetWork_launch]⟩
  refine ⟨_, append_extends unknown previous state added, rfl, rfl, ?_⟩
  change chain.cumulativeWork + 16384 = (chain.blocks ++ [block]).length * 16384
  rw [List.length_append, List.length_singleton]
  omega

theorem Chain.Reachable.grow {pow : PowVerifier} {chain : Chain} (reachable : chain.Reachable pow)
    (heights : ∀ first second : BlockHeader, first.id = second.id → first.height = second.height)
    (work : chain.cumulativeWork = chain.blocks.length * 16384) (short : chain.blocks.length ≤ 2 ^ 32)
    {block : Block} {next : LedgerState} {now : UInt64}
    (height : block.header.height.toNat = chain.blocks.length)
    (previous : ∀ parent, chain.blocks.getLast? = some parent → block.header.previousBlock = parent.id)
    (bits : block.header.bits = targetToBits initialTarget)
    (accepted : Accepted block chain.blocks chain.state pow now next) :
    ∃ grown : Chain, grown.Reachable pow ∧ grown.blocks = chain.blocks ++ [block] ∧
      grown.state = next ∧ grown.cumulativeWork = grown.blocks.length * 16384 := by
  have parent := previous chain.tip (List.getLast?_eq_getLast_of_ne_nil chain.nonempty)
  obtain ⟨grown, appended, result⟩ := reachable.extends heights work short height parent bits accepted
  exact ⟨grown, reachable.append appended, result⟩

/-- Where the id of a header tells its height, the empty blocks extend the
active chain one by one. -/
theorem reachable_quiet {pow : PowVerifier} {nonce : UInt64}
    (heights : ∀ first second : BlockHeader, first.id = second.id → first.height = second.height)
    (lenient : LenientAt pow nonce) (finder : Address) {count : Nat} (short : count ≤ 2 ^ 32) :
    ∃ chain : Chain, chain.Reachable pow ∧
      chainWithBlocks finder nonce count = .ok (chain.blocks, chain.state) ∧
      chain.blocks.length = count + 1 ∧ OnSchedule chain.blocks ∧
      chain.cumulativeWork = chain.blocks.length * 16384 ∧
      (∀ index, 1 ≤ index → index ≤ count →
        rewardAt chain.blocks index finder = (blockSubsidy (UInt64.ofNat index)).toNat) ∧
      (∀ block ∈ chain.blocks, block.transactions = []) ∧
      ∀ block ∈ chain.blocks, block = Block.genesis ∨ block.header.nonce = nonce := by
  induction count with
  | zero =>
    refine ⟨Chain.genesis, .genesis, rfl, rfl, onSchedule_genesis, ?_, fun index _ _ => by omega,
      fun block member => by cases List.mem_singleton.mp member; rfl,
      fun block member => Or.inl (List.mem_singleton.mp member)⟩
    rw [genesis_work, targetWork_launch]
    exact (Nat.one_mul 16384).symm
  | succ count ih =>
    obtain ⟨chain, reachable, earlier, length, scheduled, total, rewards, bare, nonces⟩ := ih (by omega)
    have valid := reachable.valid
    obtain ⟨block, next, mined, built, accepted⟩ :=
      nextBlock_ok valid scheduled (by omega) finder nonce
    have clock : latest.toNat = 2 ^ 64 - 1 := rfl
    obtain ⟨grown, reached, blocks, state, work⟩ := reachable.grow heights total (by omega)
      built.height built.previous built.bits (accepted latest lenient (by omega))
    refine ⟨grown, reached, ?_, ?_, ?_, work, ?_, ?_, ?_⟩
    · rw [chainWithBlocks, earlier, blocks, state]
      change nextBlock finder nonce chain.blocks chain.state >>= _ = _
      rw [mined]
      rfl
    · rw [blocks, List.length_append, List.length_singleton, length]
    · rw [blocks]
      exact scheduled.snoc built
    · intro index first last
      rw [blocks]
      rcases Nat.lt_or_ge index chain.blocks.length with earlier | new
      · rw [rewardAt_append earlier, rewards index first (by omega)]
      · have same : index = chain.blocks.length := by omega
        rw [same, rewardAt_length, built.reward scheduled.windowShares]
    · intro other member
      rw [blocks] at member
      cases List.mem_append.mp member with
      | inl inside => exact bare other inside
      | inr new => rw [List.mem_singleton.mp new, built.transactions]
    · intro other member
      rw [blocks] at member
      cases List.mem_append.mp member with
      | inl inside => exact nonces other inside
      | inr new =>
        rw [List.mem_singleton.mp new]
        exact Or.inr built.nonce

/-! Primitives under which the id of a header spells its height and nonce, and
any other hash the length of its input. -/

def labelHash (input : Bytes) : Hash32 :=
  if width : input.length = 32 then ⟨input, width⟩
  else if width : input.length = 160 then
    ⟨(input.drop 4).take 8 ++ (input.drop 152 ++ List.replicate 16 1), by simp [width]⟩
  else FixedBytes.ofNat 32 input.length

@[reducible] def labelled : Crypto := { (default : Crypto) with sha256 := labelHash }

omit [Crypto] in
theorem labelHash_self (hash : Hash32) : labelHash hash.bytes = hash := by
  unfold labelHash
  rw [dif_pos hash.length_eq]

omit [Crypto] in
theorem labelled_domainHash (domain : String) (data : Bytes) (length : Nat)
    (size : 4 + (ascii domain).length + 8 + data.length = length)
    (other : length ≠ 32 ∧ length ≠ 160) :
    @domainHash labelled domain data = FixedBytes.ofNat 32 length := by
  have whole : (leBytes 4 (ascii domain).length ++ ascii domain ++ leBytes 8 data.length ++
      data).length = length := by
    simp only [List.length_append, leBytes_length]
    exact size
  change labelHash (labelHash _).bytes = _
  rw [labelHash_self]
  unfold labelHash
  rw [dif_neg (by rw [whole]; exact other.1), dif_neg (by rw [whole]; exact other.2), whole]

omit [Crypto] in
theorem labelled_id (header : BlockHeader) : (@BlockHeader.id labelled header).bytes =
    Writer.u64 header.height ++ (Writer.u64 header.nonce ++ List.replicate 16 1) := by
  have width : header.consensusEncode.length = 160 := header.consensusEncode_length
  have height : (header.consensusEncode.drop 4).take 8 = Writer.u64 header.height := by
    have head : header.consensusEncode.drop 4 = Writer.u64 header.height ++
        header.consensusEncode.drop 12 := by
      simp [BlockHeader.consensusEncode, Writer.u16, Writer.u64, leBytes]
    rw [head, List.take_left' (Writer.u64_length _)]
  change (labelHash (labelHash header.consensusEncode).bytes).bytes = _
  have inner : labelHash header.consensusEncode =
      ⟨(header.consensusEncode.drop 4).take 8 ++
        (header.consensusEncode.drop 152 ++ List.replicate 16 1), by
          simp [width]⟩ := by
    unfold labelHash
    rw [dif_neg (by rw [width]; decide), dif_pos width]
  rw [labelHash_self, inner]
  change (header.consensusEncode.drop 4).take 8 ++ (header.consensusEncode.drop 152 ++ _) = _
  rw [height, header.drop_nonce]

omit [Crypto] in
theorem labelled_id_injective {first second : BlockHeader}
    (same : @BlockHeader.id labelled first = @BlockHeader.id labelled second) :
    first.height = second.height ∧ first.nonce = second.nonce := by
  have labels := congrArg FixedBytes.bytes same
  rw [labelled_id, labelled_id] at labels
  obtain ⟨heights, rest⟩ := List.append_inj labels (by simp)
  obtain ⟨nonces, -⟩ := List.append_inj rest (by simp)
  exact ⟨Writer.u64_injective heights, Writer.u64_injective nonces⟩

omit [Crypto] in
theorem reachable_chainWithBlocks {pow : PowVerifier} (lenient : Lenient pow) (finder : Address)
    (nonce : UInt64) {count : Nat} (short : count ≤ 2 ^ 32) :
    letI := labelled
    ∃ chain : Chain, chain.Reachable pow ∧
      chainWithBlocks finder nonce count = .ok (chain.blocks, chain.state) ∧
      chain.blocks.length = count + 1 ∧ OnSchedule chain.blocks ∧
      chain.cumulativeWork = chain.blocks.length * 16384 ∧
      ∀ index, 1 ≤ index → index ≤ count →
        rewardAt chain.blocks index finder = (blockSubsidy (UInt64.ofNat index)).toNat :=
  let _ := labelled
  have ⟨chain, reachable, built, length, scheduled, work, rewards, _⟩ := reachable_quiet
    (fun _ _ same => (labelled_id_injective same).1) (lenient.at nonce) finder short
  ⟨chain, reachable, built, length, scheduled, work, rewards⟩

end ParitrNode
