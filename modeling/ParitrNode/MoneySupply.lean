import ParitrNode.Scheduled

/-! The supply and the ledger of every chain reached from genesis by extension. -/

namespace ParitrNode
open ByteCodec OrderedMap Checked

section

variable [Crypto]

theorem Chain.Reachable.height_eq {pow : PowVerifier} {chain : Chain} (reachable : chain.Reachable pow) :
    chain.height.toNat = chain.blocks.length - 1 := by
  have tip := reachable.valid.tipHeight (List.getLast?_eq_getLast_of_ne_nil chain.nonempty)
  change chain.tip.header.height.toNat = _
  change chain.tip.header.height.toNat + 1 = _ at tip
  omega

/-- No run of blocks creates or destroys a unit: balances and pending rewards
are the subsidies so far, and the schedule the node reports. -/
theorem total_supply_eq_scheduled {pow : PowVerifier} {chain : Chain}
    (reachable : chain.Reachable pow) :
    chain.state.totalBalance + chain.state.totalPending =
        ∑ height ∈ Finset.Icc 1 chain.height.toNat, (blockSubsidy (UInt64.ofNat height)).toNat ∧
      (∑ height ∈ Finset.Icc 1 chain.height.toNat, (blockSubsidy (UInt64.ofNat height)).toNat < 2 ^ 64 →
        (scheduledSupply chain.height).toNat =
          ∑ height ∈ Finset.Icc 1 chain.height.toNat, (blockSubsidy (UInt64.ofNat height)).toNat) := by
  have interval : Finset.Icc 1 chain.height.toNat = Finset.Ioc 0 chain.height.toNat := rfl
  rw [interval]
  refine ⟨?_, fun fits => scheduledSupply_eq fits⟩
  rw [reachable.height_eq]
  exact reachable.valid.supply_eq

end

/-- One empty block: the supply is the first subsidy. -/
theorem supply_after_one_block :
    ∃ (_ : Crypto) (chain : Chain), chain.blocks.length = 2 ∧
      chain.state.totalBalance + chain.state.totalPending = 1000000000 ∧
      (scheduledSupply chain.height).toNat = 1000000000 := by
  let _ := labelled
  obtain ⟨chain, reachable, -, length, -⟩ :=
    reachable_chainWithBlocks acceptAll_lenient LedgerState.addressMin 0 (show 1 ≤ 2 ^ 32 by decide)
  have height : chain.height.toNat = 1 := by rw [reachable.height_eq, length]
  have one : ∑ height ∈ Finset.Icc 1 1, (blockSubsidy (UInt64.ofNat height)).toNat = 1000000000 := rfl
  have supply := total_supply_eq_scheduled reachable
  rw [height, one] at supply
  exact ⟨labelled, chain, length, supply.1, supply.2 (by decide)⟩

section

variable [Crypto]

theorem Chain.Reachable.balance {pow : PowVerifier} {chain : Chain} (reachable : chain.Reachable pow)
    (address : Address) :
    chain.state.balanceOf address + sentBy (chain.blocks.flatMap Block.transactions) address =
      ∑ index ∈ Finset.Icc 1 (chain.height.toNat - 100), rewardAt chain.blocks index address +
        receivedBy (chain.blocks.flatMap Block.transactions) address := by
  have closed := reachable.valid.closedForm
  rw [← reachable.height_eq] at closed
  exact closed.balance address

/-- Pending rewards are exactly the rewards of the last hundred blocks, and a
balance is the matured rewards plus what the transactions moved. -/
theorem ledger_closed_form {pow : PowVerifier} {chain : Chain} (reachable : chain.Reachable pow)
    (address : Address) :
    (∀ (maturity amount : UInt64), chain.state.pendingRewards[(maturity, address)]? = some amount ↔
      ∃ index, 1 ≤ index ∧ index ≤ chain.height.toNat ∧ chain.height.toNat < index + 100 ∧
        maturity.toNat = index + 100 ∧ 0 < rewardAt chain.blocks index address ∧
        amount.toNat = rewardAt chain.blocks index address) ∧
    chain.state.balanceOf address + sentBy (chain.blocks.flatMap Block.transactions) address =
      ∑ index ∈ Finset.Icc 1 (chain.height.toNat - 100), rewardAt chain.blocks index address +
        receivedBy (chain.blocks.flatMap Block.transactions) address := by
  have closed := reachable.valid.closedForm
  rw [← reachable.height_eq] at closed
  refine ⟨?_, closed.balance address⟩
  intro maturity amount
  rw [LedgerState.pendingAt_eq_some closed.solid, closed.pending]
  constructor
  · rintro ⟨positive, entry⟩
    split at entry
    next inside =>
      have later : 100 < maturity.toNat := by
        rcases Nat.lt_or_ge 100 maturity.toNat with above | below
        · exact above
        · rw [Nat.sub_eq_zero_of_le below, reachable.valid.rewardAt_genesis] at entry
          omega
      exact ⟨maturity.toNat - 100, by omega, by omega, by omega, by omega, by omega, entry.symm⟩
    next => omega
  · rintro ⟨index, first, last, recent, due, positive, same⟩
    have position : maturity.toNat - 100 = index := by omega
    rw [if_pos (by omega), position]
    exact ⟨by omega, same.symm⟩

end

/-- One empty block: its finder is owed the subsidy at height 101 and holds nothing. -/
theorem ledger_after_one_block :
    ∃ (_ : Crypto) (chain : Chain), chain.blocks.length = 2 ∧
      chain.state.pendingRewards[((101 : UInt64), LedgerState.addressMin)]? = some 1000000000 ∧
      chain.state.balanceOf LedgerState.addressMin +
          sentBy (chain.blocks.flatMap Block.transactions) LedgerState.addressMin =
        0 + receivedBy (chain.blocks.flatMap Block.transactions) LedgerState.addressMin := by
  let _ := labelled
  obtain ⟨chain, reachable, -, length, -, -, rewards⟩ :=
    reachable_chainWithBlocks acceptAll_lenient LedgerState.addressMin 0 (show 1 ≤ 2 ^ 32 by decide)
  have height : chain.height.toNat = 1 := by rw [reachable.height_eq, length]
  have reward : rewardAt chain.blocks 1 LedgerState.addressMin = 1000000000 :=
    rewards 1 (by decide) (by decide)
  have closed := ledger_closed_form reachable LedgerState.addressMin
  rw [height] at closed
  exact ⟨labelled, chain, length,
    (closed.1 101 1000000000).mpr ⟨1, by decide, by decide, by decide, rfl, by omega, reward.symm⟩,
    closed.2⟩

end ParitrNode
