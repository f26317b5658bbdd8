import ParitrNode.FloodedCache
import ParitrNode.RewardReports

/-!
A miner that spends all it holds on the fees of its own blocks: the rewards of
twenty million such blocks add up to more than a word holds.
-/

namespace ParitrNode
open ByteCodec OrderedMap Checked

structure Spends [Crypto] (state : LedgerState) (transactions : List Transaction)
    (applied : LedgerState × UInt64) : Prop where
  applies : applyTransactions state transactions = .ok applied
  few : transactions.length ≤ 1
  size : (encodeTransactions transactions).length ≤ 2 ^ 16
  fees : state.balanceOf LedgerState.addressMin ≤ applied.2.toNat + 1
  sent : sentBy transactions LedgerState.addressMin = state.balanceOf LedgerState.addressMin
  received : receivedBy transactions LedgerState.addressMin = 0

theorem encode_bid [Crypto] (number index : Nat) (amount fee : UInt64) :
    (encodeTransactions [bid number index amount fee]).length ≤ 2 ^ 16 := by
  unfold encodeTransactions
  rw [List.flatMap_singleton, List.length_append, Writer.bytes_length, bid_length]
  change (Writer.count 1).length + (213 + 4) ≤ 2 ^ 16
  decide

theorem spend_all {state : LedgerState} {index : Nat}
    (nonce : (nonceOf state LedgerState.addressMin).toNat = index) (small : index < 2 ^ 64 - 1)
    (money : state.totalBalance ≤ MAX_MONEY.toNat) :
    ∃ transactions applied, @Spends spelled state transactions applied := by
  let _ := spelled
  have range : MAX_MONEY.toNat = 2 ^ 62 - 1 := rfl
  have held := state.balanceOf_le_total LedgerState.addressMin
  by_cases none : state.balanceOf LedgerState.addressMin = 0
  · refine ⟨[], (state, 0), rfl, Nat.zero_le _, ?_, ?_, none.symm, rfl⟩
    · change (Writer.count 0 ++ []).length ≤ _
      rw [List.append_nil]
      decide
    · rw [none]
      exact Nat.zero_le _
  · let fee := UInt64.ofNat (state.balanceOf LedgerState.addressMin - 1)
    have amount : fee.toNat = state.balanceOf LedgerState.addressMin - 1 := ofNat_toNat (by omega)
    let transfer := bid 0 index 1 fee
    have one : (1 : UInt64).toNat = 1 := rfl
    have slot : transfer.nonce = nonceOf state transfer.sender := by
      apply UInt64.toNat_inj.mp
      have own : transfer.nonce.toNat = index := payment_nonce 0 (by omega)
      rw [own]
      exact nonce.symm
    have pays : transfer.amount.toNat + transfer.fee.toNat ≤ state.balanceOf transfer.sender := by
      change 1 + fee.toNat ≤ state.balanceOf LedgerState.addressMin
      omega
    have relayable : Relayable transfer :=
      bid_relayable 0 small (by decide) (by decide) (by rw [amount]; omega)
    obtain ⟨next, applied, _⟩ := relayed_applies relayable
      (List.not_mem_nil : transfer.id ∉ []) slot pays money
    have sum : checkedAdd 0 transfer.fee = some transfer.fee := by
      have added := checkedAdd_of_lt (a := 0) (b := fee) (by rw [UInt64.toNat_zero]; omega)
      rw [UInt64.zero_add] at added
      exact added
    refine ⟨[transfer], (next, fee), applyFrom_cons_ok.mpr ⟨next, fee, applied, sum, ?_, rfl⟩,
      Nat.le_refl _, encode_bid 0 index 1 fee, ?_, ?_, ?_⟩
    · rw [UInt64.le_iff_toNat_le, amount]
      omega
    · change _ ≤ fee.toNat + 1
      omega
    · rw [sentBy_cons, if_pos (show transfer.sender = LedgerState.addressMin from rfl)]
      change 1 + fee.toNat + 0 = _
      omega
    · have elsewhere : ¬transfer.recipient = LedgerState.addressMin :=
        show ¬LedgerState.addressMax = LedgerState.addressMin by decide
      rw [receivedBy_cons, if_neg elsewhere]
      rfl

theorem blockWith_size [Crypto] (parent : Block) (claim : RewardClaim) {transactions : List Transaction}
    (size : (encodeTransactions transactions).length ≤ 2 ^ 16) (state : LedgerState) (bits : UInt32)
    (nonce : UInt64) :
    (blockWith parent claim transactions state bits nonce).consensusEncode.length ≤ MAX_BLOCK_BYTES := by
  simp [Block.consensusEncode, blockWith, WorkshareWitness.consensusEncode,
    WorkshareWitness.empty, BlockHeader.ENCODED_LEN, MAX_BLOCK_BYTES]
  omega

structure Mines [Crypto] (chain : Chain) (claim : RewardClaim) (transactions : List Transaction)
    (fees now : UInt64) (grown : Chain) : Prop where
  finder : claim.finder = LedgerState.addressMin
  allocated : ∃ allocation,
    rewardAllocation (chain.tip.header.height + 1) LedgerState.addressMin fees chain.blocks =
      .ok allocation ∧ claim.amount = allocation.finderAmount
  accepted : Accepted (blockWith chain.tip claim transactions grown.state (nextBits chain.blocks) 1)
    chain.blocks chain.state byNonce now grown.state
  appended : chain.append (blockWith chain.tip claim transactions grown.state (nextBits chain.blocks) 1)
    byNonce now = .ok (.extended
      (blockWith chain.tip claim transactions grown.state (nextBits chain.blocks) 1).id
      (chain.tip.header.height + 1), grown)
  blocks : grown.blocks = chain.blocks ++
    [blockWith chain.tip claim transactions grown.state (nextBits chain.blocks) 1]
  work : grown.cumulativeWork = grown.blocks.length * 16384
  scheduled : OnSchedule grown.blocks

theorem mines_transactions {chain : Chain} (reachable : @Chain.Reachable spelled byNonce chain)
    (scheduled : OnSchedule chain.blocks) (work : chain.cumulativeWork = chain.blocks.length * 16384)
    (short : chain.blocks.length ≤ 2 ^ 32) {maturedState : LedgerState}
    (moved : @matured spelled chain.state (chain.tip.header.height + 1) = .ok maturedState)
    {transactions : List Transaction} {applied : LedgerState × UInt64}
    (applies : @applyTransactions spelled maturedState transactions = .ok applied)
    (few : transactions.length ≤ MAX_BLOCK_TRANSACTIONS)
    (size : (@encodeTransactions spelled transactions).length ≤ 2 ^ 16) {now : UInt64}
    (late : 1788984000 + chain.blocks.length * 64 ≤ now.toNat) :
    ∃ claim grown, @Mines spelled chain claim transactions applied.2 now grown := by
  let _ := spelled
  have valid := reachable.valid
  have supply := valid.supply_bound
  have range : MAX_MONEY.toNat = 2 ^ 62 - 1 := rfl
  have last := List.getLast?_eq_getLast_of_ne_nil chain.nonempty
  obtain ⟨height, time⟩ := valid.nextTime short last
  obtain ⟨allocation, allocated, transitions⟩ := valid.transition_succeeds (by omega) height moved
    applies LedgerState.addressMin
  let claim : RewardClaim := ⟨RewardClaim.VERSION, chain.tip.header.height + 1, LedgerState.addressMin,
    allocation.finderAmount, 0⟩
  obtain ⟨final, transitioned⟩ := transitions claim rfl rfl
  have accepted := blockWith_accepted valid scheduled short last rfl rfl rfl transitioned
    (blockWith_size _ claim size final (nextBits chain.blocks) 1) few
    (byNonce_lenient (show (1 : UInt64) ≠ 0 by decide)) late
  have bits : nextBits chain.blocks = targetToBits initialTarget := scheduled.nextBits valid
  obtain ⟨grown, appended, blocks, state, total⟩ :=
    reachable.extends spelled_heights work short height rfl bits accepted
  refine ⟨claim, grown, rfl, ⟨allocation, allocated, rfl⟩, ?_, ?_, ?_, total, ?_⟩
  · rw [state]
    exact accepted
  · rw [state]
    exact appended
  · rw [state]
    exact blocks
  · rw [blocks]
    let block := blockWith chain.tip claim transactions final (nextBits chain.blocks) 1
    have placed : block.header.height.toNat = chain.blocks.length := height
    have timed : block.header.timestamp.toNat = 1788984000 + block.header.height.toNat * 64 := by
      rw [placed]
      exact time
    exact scheduled.add timed bits rfl

/-- A block with three transfers of one sender, after a hundred empty ones. -/
theorem three_nonces_counted :
    ∃ (_ : Crypto) (chain : Chain),
      chain.blocks.flatMap Block.transactions = payments 0 3 ∧
        (transactionsFrom LedgerState.addressMin (chain.blocks.flatMap Block.transactions)).map
          (fun transaction => transaction.nonce.toNat) = [0, 1, 2] ∧
        (chain.state.account LedgerState.addressMin).nonce.toNat = 3 ∧
        ((chain.blocks.flatMap Block.transactions).map Transaction.id).Nodup := by
  let _ := spelled
  obtain ⟨chain, funded⟩ := funded_chain
  obtain ⟨state, moved, balance, nonce, money⟩ := funded.ledger
  obtain ⟨applied, applies⟩ :=
    payments_apply 0 (show 3 < 2 ^ 64 by decide) nonce (by omega) money
  have above : chain.tip.header.height + 1 = 101 := by
    rw [funded.height]
    decide
  have size : (encodeTransactions (payments 0 3)).length ≤ 2 ^ 16 := by
    unfold encodeTransactions
    rw [List.length_append, payments_encoded, Writer.count_length]
    decide
  obtain ⟨claim, grown, mines⟩ := mines_transactions funded.reachable funded.scheduled funded.work
    (by rw [funded.length]; decide) (by rw [above]; exact moved) applies
    (show 3 ≤ MAX_BLOCK_TRANSACTIONS by decide) size
    (show 1788984000 + chain.blocks.length * 64 ≤ latest.toNat by rw [funded.length]; decide)
  have sent : grown.blocks.flatMap Block.transactions = payments 0 3 := by
    rw [mines.blocks, List.flatMap_append, List.flatMap_singleton, funded.bare]
    rfl
  obtain ⟨counts, _, ids⟩ := sender_nonces_count (funded.reachable.append mines.appended)
  have own : (transactionsFrom LedgerState.addressMin (payments 0 3)).length = 3 := by decide
  obtain ⟨nonces, account⟩ := counts LedgerState.addressMin
  rw [sent, own] at nonces account
  have free : CollisionFree (idInputs (payments 0 3)) := by
    intro first ⟨transfer, member, shape⟩ second ⟨transfer', member', shape'⟩ same
    obtain ⟨index, inside, rfl⟩ := List.mem_map.mp member
    obtain ⟨index', inside', rfl⟩ := List.mem_map.mp member'
    rw [shape, shape'] at same ⊢
    have small := List.mem_range.mp inside
    have small' := List.mem_range.mp inside'
    have names : spelling 0 index = spelling 0 index' :=
      (payment_id 0 index).symm.trans (same.trans (payment_id 0 index'))
    rw [ofNat_eq (by omega) (by omega) (spelling_eq names).2]
  refine ⟨spelled, grown, sent, ?_, account, ?_⟩
  · rw [sent]
    exact nonces
  · apply ids
    rw [sent]
    exact free

/-- A chain of one miner that has spent what it held, and whose rewards grow every hundred blocks. -/
structure Recycled (chain : Chain) : Prop where
  reachable : @Chain.Reachable spelled byNonce chain
  scheduled : OnSchedule chain.blocks
  work : chain.cumulativeWork = chain.blocks.length * 16384
  spent : chain.state.balanceOf LedgerState.addressMin = 0
  grows : ∀ index, 1 ≤ index → index < chain.blocks.length →
    49999999 * (1 + (index - 1) / 100) ≤ @rewardAt chain.blocks index LedgerState.addressMin

theorem recycled_genesis : Recycled (@Chain.genesis spelled) := by
  let _ := spelled
  refine ⟨.genesis, onSchedule_genesis, ?_, LedgerState.balanceOf_default _, ?_⟩
  · rw [genesis_work, targetWork_launch]
    exact (Nat.one_mul 16384).symm
  · intro index first last
    change index < 1 at last
    omega

theorem Recycled.step {chain : Chain} (recycled : Recycled chain)
    (short : chain.blocks.length ≤ 2 ^ 25) :
    ∃ grown, Recycled grown ∧ grown.blocks.length = chain.blocks.length + 1 := by
  let _ := spelled
  have valid := recycled.reachable.valid
  have nonempty := List.length_pos_iff.mpr valid.nonempty
  have supply := valid.supply_bound
  have range : MAX_MONEY.toNat = 2 ^ 62 - 1 := rfl
  have clock : latest.toNat = 2 ^ 64 - 1 := rfl
  have last := List.getLast?_eq_getLast_of_ne_nil chain.nonempty
  obtain ⟨height, _⟩ := valid.nextTime (by omega) last
  let above := (chain.blocks.getLast chain.nonempty).header.height + 1
  obtain ⟨maturedState, moved⟩ := LedgerState.matured_succeeds chain.state above (by omega)
  obtain ⟨balances, _, kept, _⟩ := LedgerState.matured_ok moved
  have held := balances LedgerState.addressMin
  have owed : chain.state.pendingAt above LedgerState.addressMin =
      rewardAt chain.blocks (chain.blocks.length - 100) LedgerState.addressMin := by
    rw [valid.closedForm.pending, height, if_pos ⟨by omega, by omega⟩]
  rw [recycled.spent, owed, Nat.zero_add] at held
  have few : (nonceOf maturedState LedgerState.addressMin).toNat < 2 ^ 64 - 1 := by
    have counted := congrArg List.length (valid.counts LedgerState.addressMin).1
    rw [List.length_map, List.length_range', Nat.sub_zero] at counted
    have part := List.length_filter_le (fun transaction : Transaction =>
      transaction.sender = LedgerState.addressMin) (chain.blocks.flatMap Block.transactions)
    have whole := valid.transactions_few
    rw [nonceOf_matured moved]
    unfold transactionsFrom at counted
    omega
  have money : maturedState.totalBalance ≤ MAX_MONEY.toNat := by
    unfold LedgerState.supply at kept supply
    omega
  obtain ⟨transactions, applied, spends⟩ := spend_all rfl few money
  have limit : transactions.length ≤ MAX_BLOCK_TRANSACTIONS := Nat.le_trans spends.few (by decide)
  obtain ⟨claim, grown, mines⟩ := mines_transactions recycled.reachable recycled.scheduled recycled.work
    (by omega) moved spends.applies limit spends.size
    (show 1788984000 + chain.blocks.length * 64 ≤ latest.toNat by omega)
  obtain ⟨allocation, allocated, claimed⟩ := mines.allocated
  obtain ⟨unshared, amount⟩ := rewardAllocation_unshared allocated recycled.scheduled.windowShares
  let block := blockWith chain.tip claim transactions grown.state (nextBits chain.blocks) 1
  obtain ⟨_, _, moves⟩ := accepted_moves mines.accepted
  have reward : blockReward chain.blocks block LedgerState.addressMin =
      (blockSubsidy above).toNat + applied.2.toNat := by
    have fees : templateFees transactions = .ok applied.2 := applyFrom_fees spends.applies
    unfold blockReward
    rw [show block.rewardClaim = some claim from rfl,
      show templateFees block.transactions = .ok applied.2 from fees]
    dsimp only
    rw [mines.finder]
    rw [show rewardAllocation block.header.height LedgerState.addressMin applied.2 chain.blocks =
      .ok allocation from allocated]
    change (if LedgerState.addressMin = LedgerState.addressMin then allocation.finderAmount.toNat else 0)
      + owedTo allocation.workshareRewards LedgerState.addressMin = _
    rw [if_pos rfl, unshared, amount]
    rfl
  refine ⟨grown, ⟨recycled.reachable.append mines.appended, mines.scheduled, mines.work, ?_, ?_⟩,
    by rw [mines.blocks, List.length_append, List.length_singleton]⟩
  · have after := moves.balance LedgerState.addressMin
    change grown.state.balanceOf LedgerState.addressMin + sentBy transactions LedgerState.addressMin =
      chain.state.balanceOf LedgerState.addressMin +
        chain.state.pendingAt above LedgerState.addressMin +
        receivedBy transactions LedgerState.addressMin at after
    rw [spends.sent, spends.received, recycled.spent, owed] at after
    omega
  · intro index first inside
    rw [mines.blocks, List.length_append, List.length_singleton] at inside
    rw [mines.blocks]
    by_cases old : index < chain.blocks.length
    · rw [rewardAt_append old]
      exact recycled.grows index first old
    · obtain rfl : index = chain.blocks.length := by omega
      rw [rewardAt_length]
      have subsidy : 50000000 ≤ (blockSubsidy above).toNat := by
        rw [blockSubsidy_toNat, if_neg (by rw [height]; omega)]
        exact Nat.le_max_right _ _
      have fees := spends.fees
      rw [held] at fees
      rw [reward]
      by_cases young : chain.blocks.length ≤ 100
      · omega
      · have earlier := recycled.grows (chain.blocks.length - 100) (by omega) (by omega)
        omega

theorem recycled_chain {count : Nat} (short : count ≤ 2 ^ 25) :
    ∃ chain, Recycled chain ∧ chain.blocks.length = count + 1 := by
  induction count with
  | zero => exact ⟨@Chain.genesis spelled, recycled_genesis, rfl⟩
  | succ count ih =>
    obtain ⟨chain, recycled, length⟩ := ih (by omega)
    obtain ⟨grown, again, longer⟩ := recycled.step (by omega)
    exact ⟨grown, again, by rw [longer, length]⟩

theorem Recycled.total {chain : Chain} (recycled : Recycled chain)
    (length : chain.blocks.length = 20000001) :
    2 ^ 64 ≤ ∑ index ∈ Finset.Icc 1 20000000, @rewardAt chain.blocks index LedgerState.addressMin := by
  have each : ∀ index ∈ Finset.Ioc 10000000 20000000,
      49999999 * 100000 ≤ @rewardAt chain.blocks index LedgerState.addressMin := by
    intro index member
    obtain ⟨low, high⟩ := Finset.mem_Ioc.mp member
    have grown := recycled.grows index (by omega) (by omega)
    omega
  have half := Finset.card_nsmul_le_sum _ _ _ each
  have inside : Finset.Ioc 10000000 20000000 ⊆ Finset.Icc 1 20000000 := by
    intro index member
    rw [Finset.mem_Ioc] at member
    rw [Finset.mem_Icc]
    omega
  rw [Nat.card_Ioc, smul_eq_mul] at half
  calc 2 ^ 64 ≤ (20000000 - 10000000) * (49999999 * 100000) := by decide
    _ ≤ ∑ index ∈ Finset.Ioc 10000000 20000000, rewardAt chain.blocks index LedgerState.addressMin := half
    _ ≤ ∑ index ∈ Finset.Icc 1 20000000, rewardAt chain.blocks index LedgerState.addressMin :=
      Finset.sum_le_sum_of_subset inside

/-- A miner that recycles its fees has mined more than its report can say. -/
theorem recycled_rewards_exceed : ∃ (_ : Crypto) (pow : PowVerifier) (node : Node) (address : Address),
    node.chain.Reachable pow ∧ node.chain.state.supply < 2 ^ 64 ∧
      (node.miningRewards address).1.toNat ≠
        ∑ index ∈ Finset.Icc 1 node.chain.height.toNat, rewardAt node.chain.blocks index address := by
  let _ := spelled
  obtain ⟨chain, recycled, length⟩ := recycled_chain (show 20000000 ≤ 2 ^ 25 by decide)
  have reachable := recycled.reachable
  have supply := reachable.valid.supply_bound
  have total := recycled.total length
  have height : chain.height.toNat = 20000000 := by rw [reachable.height_eq, length]
  refine ⟨spelled, byNonce, restingNode chain LedgerState.addressMin, LedgerState.addressMin, reachable,
    (show chain.state.supply < 2 ^ 64 by omega), ?_⟩
  change _ ≠ ∑ index ∈ Finset.Icc 1 chain.height.toNat, rewardAt chain.blocks index LedgerState.addressMin
  have word := ((restingNode chain LedgerState.addressMin).miningRewards
    LedgerState.addressMin).1.toNat_lt
  rw [height]
  omega

end ParitrNode
