import Mathlib.Algebra.BigOperators.Intervals
import ParitrNode.Accounting

/-!
Money along a chain: each block adds its subsidy to the supply, and each
reward moves from what is owed to the balances exactly at its maturity.
-/

namespace ParitrNode
open ByteCodec OrderedMap Checked

/-! The transactions of a block, seen from one address. -/

def sentBy (transactions : List Transaction) (address : Address) : Nat :=
  (transactions.map fun transaction =>
    if transaction.sender = address then transaction.amount.toNat + transaction.fee.toNat else 0).sum

def receivedBy (transactions : List Transaction) (address : Address) : Nat :=
  (transactions.map fun transaction =>
    if transaction.recipient = address then transaction.amount.toNat else 0).sum

theorem sentBy_cons (transaction : Transaction) (rest : List Transaction) (address : Address) :
    sentBy (transaction :: rest) address =
      (if transaction.sender = address then transaction.amount.toNat + transaction.fee.toNat else 0) +
        sentBy rest address := by
  unfold sentBy
  rw [List.map_cons, List.sum_cons]

theorem receivedBy_cons (transaction : Transaction) (rest : List Transaction) (address : Address) :
    receivedBy (transaction :: rest) address =
      (if transaction.recipient = address then transaction.amount.toNat else 0) +
        receivedBy rest address := by
  unfold receivedBy
  rw [List.map_cons, List.sum_cons]

variable [Crypto]

theorem applyTransaction_moves {state next : LedgerState} {seen : List Hash32}
    {transaction : Transaction} (applied : applyTransaction state seen transaction = .ok next) :
    (∀ address, next.balanceOf address +
        (if transaction.sender = address then transaction.amount.toNat + transaction.fee.toNat else 0) =
      state.balanceOf address +
        (if transaction.recipient = address then transaction.amount.toNat else 0)) ∧
      next.pendingRewards = state.pendingRewards ∧
      next.totalBalance + transaction.fee.toNat = state.totalBalance := by
  obtain ⟨debit, debited, credited, nonce, steps, rfl⟩ := applyTransaction_ok_iff.mp applied
  have sum := checkedAdd_some steps.debitOk
  have out := LedgerState.debit_ok steps.debitedOk
  have into := LedgerState.credit_ok steps.creditedOk
  have bump := LedgerState.setNonce_posts credited transaction.sender nonce
  refine ⟨?_, ?_, ?_⟩
  · intro address
    have first := out.balance address
    have second := into.balance address
    have third := bump.balance address
    rw [sum] at first
    simp only [ite_self, Nat.add_zero] at first second third
    omega
  · rw [bump.pending, into.pending, out.pending]
  · have first := out.totalBalance
    have second := into.totalBalance
    have third := bump.totalBalance
    omega

theorem applyFrom_moves {state : LedgerState} {seen : List Hash32} {totalFees : UInt64}
    {transactions : List Transaction} {result : LedgerState × UInt64}
    (applied : applyFrom state seen totalFees transactions = .ok result) :
    (∀ address, result.1.balanceOf address + sentBy transactions address =
      state.balanceOf address + receivedBy transactions address) ∧
      result.1.pendingRewards = state.pendingRewards ∧
      result.1.totalBalance + result.2.toNat = state.totalBalance + totalFees.toNat := by
  induction transactions generalizing state seen totalFees with
  | nil =>
    cases applied
    exact ⟨fun address => rfl, rfl, rfl⟩
  | cons transaction rest ih =>
    obtain ⟨next, fees, one, added, -, later⟩ := applyFrom_cons_ok.mp applied
    obtain ⟨balance, pending, totals⟩ := applyTransaction_moves one
    obtain ⟨balances, pendings, total⟩ := ih later
    have sum := checkedAdd_some added
    refine ⟨?_, pendings.trans pending, by omega⟩
    intro address
    have head := balance address
    have tail := balances address
    rw [sentBy_cons, receivedBy_cons]
    omega

theorem applyFrom_fees {state : LedgerState} {seen : List Hash32} {totalFees : UInt64}
    {transactions : List Transaction} {result : LedgerState × UInt64}
    (applied : applyFrom state seen totalFees transactions = .ok result) :
    transactions.foldlM (fun sum transaction =>
      okOr ConsensusError.moneyRange (checkedAdd sum transaction.fee)) totalFees = .ok result.2 := by
  induction transactions generalizing state seen totalFees with
  | nil =>
    cases applied
    rfl
  | cons transaction rest ih =>
    obtain ⟨next, fees, -, added, -, later⟩ := applyFrom_cons_ok.mp applied
    rw [List.foldlM_cons, bind_ok]
    exact ⟨fees, okOr_ok.mpr added, ih later⟩

/-! One block. -/

/-- What a block pays an address: the finder's amount and its share rewards. -/
def rewardTo (finder : Address) (allocation : RewardAllocation) (address : Address) : Nat :=
  (if finder = address then allocation.finderAmount.toNat else 0) +
    owedTo allocation.workshareRewards address

structure BlockMoves (height maturity : UInt64) (transactions : List Transaction)
    (reward : Address → Nat) (before after : LedgerState) : Prop where
  balance : ∀ address, after.balanceOf address + sentBy transactions address =
    before.balanceOf address + before.pendingAt height address + receivedBy transactions address
  pending : ∀ due address, after.pendingAt due address =
    (if due = height then 0 else before.pendingAt due address) +
      (if due = maturity then reward address else 0)
  supply : after.supply = before.supply + (blockSubsidy height).toNat
  solid : before.NoEmptyPending → after.NoEmptyPending

theorem transition_moves {height : UInt64} {claim : RewardClaim} {transactions : List Transaction}
    {parentHistory : List Block} {parentState : LedgerState} {result : Transition}
    (accepted : transitionForCandidate height claim transactions parentHistory parentState =
      .ok result) :
    ∃ maturity, maturity.toNat = height.toNat + 100 ∧
      BlockMoves height maturity transactions (rewardTo claim.finder result.allocation) parentState
        result.state := by
  obtain ⟨maturedState, appliedState, maturity, finderState, steps⟩ :=
    transitionForCandidate_ok_iff.mp accepted
  obtain ⟨maturedBalance, maturedPending, maturedSupply, maturedSolid⟩ :=
    LedgerState.matured_ok steps.maturedOk
  obtain ⟨appliedBalance, appliedPending, appliedTotal⟩ := applyFrom_moves steps.appliedOk
  have finder := LedgerState.scheduleReward_ok steps.finderOk
  obtain ⟨sharesAccounts, sharesPending, sharesTotal, sharesSolid⟩ :=
    LedgerState.scheduleRewards_ok steps.sharesOk
  have allocated := rewardAllocation_total steps.allocationOk
  have accounts : result.state.accounts = appliedState.accounts :=
    sharesAccounts.trans finder.accounts
  have samePending : ∀ due address,
      appliedState.pendingAt due address = maturedState.pendingAt due address := by
    intro due address
    unfold LedgerState.pendingAt
    rw [appliedPending]
  refine ⟨maturity, checkedAdd_some steps.maturityOk, ?_, ?_, ?_, ?_⟩
  · intro address
    have balances := appliedBalance address
    have same : result.state.balanceOf address = appliedState.balanceOf address := by
      unfold LedgerState.balanceOf LedgerState.account
      rw [accounts]
    rw [same, ← maturedBalance address]
    exact balances
  · intro due address
    rw [sharesPending, finder.pendingAt, samePending, maturedPending]
    unfold rewardTo
    by_cases now : due = maturity
    · by_cases mine : claim.finder = address
      · simp only [now, mine, and_self, if_pos]
        omega
      · have different : ¬address = claim.finder := fun same => mine same.symm
        simp only [now, mine, different, and_false, if_pos, if_neg, not_false_eq_true]
        omega
    · simp only [now, false_and, if_neg, not_false_eq_true]
  · have sameBalance : result.state.totalBalance = appliedState.totalBalance := by
      unfold LedgerState.totalBalance
      rw [accounts]
    have sameTotal : appliedState.totalPending = maturedState.totalPending := by
      unfold LedgerState.totalPending
      rw [appliedPending]
    have scheduled := finder.totalPending
    have none : (0 : UInt64).toNat = 0 := rfl
    unfold LedgerState.supply at *
    dsimp only at appliedTotal
    omega
  · intro solid
    refine sharesSolid (finder.solid ?_)
    intro due address
    rw [appliedPending]
    exact maturedSolid solid due address

/-! The whole chain. -/

def blockReward (history : List Block) (block : Block) (address : Address) : Nat :=
  match block.rewardClaim, templateFees block.transactions with
  | some claim, .ok fees =>
    match rewardAllocation block.header.height claim.finder fees history with
    | .ok allocation => rewardTo claim.finder allocation address
    | .error _ => 0
  | _, _ => 0

def rewardAt (blocks : List Block) (index : Nat) (address : Address) : Nat :=
  match blocks[index]? with
  | some block => blockReward (blocks.take index) block address
  | none => 0

theorem accepted_moves {block : Block} {history : List Block} {state next : LedgerState}
    {pow : PowVerifier} {now : UInt64} (accepted : Accepted block history state pow now next) :
    ∃ maturity, maturity.toNat = block.header.height.toNat + 100 ∧
      BlockMoves block.header.height maturity block.transactions (blockReward history block) state
        next := by
  obtain ⟨parent, seed, target, claim, transition, checks, rfl⟩ := accepted
  obtain ⟨maturity, later, moves⟩ := transition_moves checks.transitionOk
  have reward : blockReward history block = rewardTo claim.finder transition.allocation := by
    obtain ⟨_, _, _, _, steps⟩ := transitionForCandidate_ok_iff.mp checks.transitionOk
    have fees : templateFees block.transactions = .ok transition.fees := applyFrom_fees steps.appliedOk
    funext address
    unfold blockReward
    rw [checks.claimPresent, fees]
    dsimp only
    rw [steps.allocationOk]
  rw [reward]
  exact ⟨maturity, later, moves⟩

namespace ValidHistory

variable {pow : PowVerifier} {history : List Block} {state : LedgerState}

theorem supply_eq (valid : ValidHistory pow history state) :
    state.supply = ∑ height ∈ Finset.Ioc 0 (history.length - 1),
      (blockSubsidy (UInt64.ofNat height)).toNat := by
  induction valid with
  | genesis => exact LedgerState.supply_default
  | @extend history state next block now earlier above accepted ih =>
    obtain ⟨maturity, -, moves⟩ := accepted_moves accepted
    have height := earlier.nextHeight above accepted
    have nonempty := List.length_pos_iff.mpr earlier.nonempty
    have same : UInt64.ofNat history.length = block.header.height := by
      rw [← height, UInt64.ofNat_toNat]
    have last : (history ++ [block]).length - 1 = (history.length - 1) + 1 := by
      rw [List.length_append, List.length_singleton]
      omega
    rw [last, Finset.sum_Ioc_succ_top (Nat.zero_le _), ← ih, moves.supply, Nat.sub_add_cancel nonempty,
      same]

end ValidHistory

omit [Crypto] in
theorem rewardAt_append {blocks : List Block} {index : Nat} (inside : index < blocks.length)
    (block : Block) (address : Address) :
    rewardAt (blocks ++ [block]) index address = rewardAt blocks index address := by
  unfold rewardAt
  rw [List.getElem?_append_left inside, List.take_append_of_le_length (by omega)]

omit [Crypto] in
theorem rewardAt_length (blocks : List Block) (block : Block) (address : Address) :
    rewardAt (blocks ++ [block]) blocks.length address = blockReward blocks block address := by
  unfold rewardAt
  rw [List.getElem?_concat_length, List.take_left]

omit [Crypto] in
theorem sentBy_append (first second : List Transaction) (address : Address) :
    sentBy (first ++ second) address = sentBy first address + sentBy second address := by
  unfold sentBy
  rw [List.map_append, List.sum_append]

omit [Crypto] in
theorem receivedBy_append (first second : List Transaction) (address : Address) :
    receivedBy (first ++ second) address = receivedBy first address + receivedBy second address := by
  unfold receivedBy
  rw [List.map_append, List.sum_append]

/-- The ledger of a history with tip height `height`, in closed form. -/
structure ClosedForm (blocks : List Block) (state : LedgerState) (height : Nat) : Prop where
  pending : ∀ (maturity : UInt64) (address : Address), state.pendingAt maturity address =
    if height < maturity.toNat ∧ maturity.toNat ≤ height + 100 then
      rewardAt blocks (maturity.toNat - 100) address
    else 0
  balance : ∀ address,
    state.balanceOf address + sentBy (blocks.flatMap Block.transactions) address =
      ∑ index ∈ Finset.Ioc 0 (height - 100), rewardAt blocks index address +
        receivedBy (blocks.flatMap Block.transactions) address
  solid : state.NoEmptyPending

namespace ValidHistory

variable {pow : PowVerifier} {history : List Block} {state : LedgerState}

theorem rewardAt_genesis (valid : ValidHistory pow history state) (address : Address) :
    rewardAt history 0 address = 0 := by
  have first := valid.head
  rw [List.head?_eq_getElem?] at first
  unfold rewardAt
  rw [first]
  rfl

theorem closedForm (valid : ValidHistory pow history state) :
    ClosedForm history state (history.length - 1) := by
  induction valid with
  | genesis =>
    refine ⟨?_, ?_, LedgerState.noEmptyPending_default⟩
    · intro maturity address
      rw [LedgerState.pendingAt_default]
      split
      next inside =>
        rw [Nat.sub_eq_zero_of_le (by simpa using inside.2)]
        rfl
      next => rfl
    · intro address
      rw [LedgerState.balanceOf_default]
      rfl
  | @extend history state next block now earlier above accepted ih =>
    obtain ⟨maturity, later, moves⟩ := accepted_moves accepted
    have height := earlier.nextHeight above accepted
    have nonempty := List.length_pos_iff.mpr earlier.nonempty
    have last : (history ++ [block]).length - 1 = history.length := by
      rw [List.length_append, List.length_singleton]
      omega
    rw [last]
    refine ⟨?_, ?_, moves.solid ih.solid⟩
    · intro due address
      rw [moves.pending, ih.pending]
      by_cases new : due = maturity
      · have value : due.toNat = history.length + 100 := by rw [new, later, height]
        have index : due.toNat - 100 = history.length := by omega
        have early : ¬(history.length - 1 < due.toNat ∧ due.toNat ≤ history.length - 1 + 100) := by
          omega
        have inside : history.length < due.toNat ∧ due.toNat ≤ history.length + 100 := by omega
        rw [index, rewardAt_length, if_pos new, if_neg early, ite_self, Nat.zero_add, if_pos inside]
      · have different : due.toNat ≠ maturity.toNat := fun same => new (UInt64.toNat_inj.mp same)
        rw [if_neg new, Nat.add_zero]
        by_cases now : due = block.header.height
        · rw [if_pos now, now, if_neg (by omega)]
        · have other : due.toNat ≠ block.header.height.toNat :=
            fun same => now (UInt64.toNat_inj.mp same)
          rw [if_neg now]
          by_cases inside : history.length < due.toNat ∧ due.toNat ≤ history.length + 100
          · rw [if_pos (by omega), if_pos inside, rewardAt_append (by omega)]
          · rw [if_neg (by omega), if_neg inside]
    · intro address
      have here := moves.balance address
      have before := ih.balance address
      rw [ih.pending, if_pos (by omega), height] at here
      have same : ∑ index ∈ Finset.Ioc 0 (history.length - 1 - 100),
          rewardAt (history ++ [block]) index address =
          ∑ index ∈ Finset.Ioc 0 (history.length - 1 - 100), rewardAt history index address := by
        refine Finset.sum_congr rfl ?_
        intro index member
        rw [Finset.mem_Ioc] at member
        exact rewardAt_append (by omega) block address
      -- the reward that matures at this height is the next term of the sum
      have step : ∑ index ∈ Finset.Ioc 0 (history.length - 100),
          rewardAt (history ++ [block]) index address =
          ∑ index ∈ Finset.Ioc 0 (history.length - 1 - 100), rewardAt history index address +
            rewardAt history (history.length - 100) address := by
        rw [← same]
        rcases Nat.lt_or_ge 100 history.length with long | short
        · have split : history.length - 100 = (history.length - 1 - 100) + 1 := by omega
          rw [split, Finset.sum_Ioc_succ_top (Nat.zero_le _), rewardAt_append (by omega)]
        · have none : history.length - 100 = 0 := by omega
          have none' : history.length - 1 - 100 = 0 := by omega
          rw [none, none', earlier.rewardAt_genesis]
          rfl
      rw [step, List.flatMap_append, sentBy_append, receivedBy_append, List.flatMap_singleton]
      omega

end ValidHistory

/-! The schedule loop of the status report. -/

def subsidyAfter (height : Nat) : Nat := max (1000000000 / 2 ^ (height / 1600000)) 50000000

/-- The loop of `scheduled_supply`: one halving interval in each round. -/
def scheduledLoop (remaining subsidy total : UInt64) : UInt64 :=
  if remaining > 0 then
    let span := min remaining HALVING_INTERVAL
    scheduledLoop (remaining - span) (max (subsidy / 2) MIN_SUBSIDY)
      (saturatingAdd total (saturatingMul span subsidy))
  else total
termination_by remaining.toNat
decreasing_by
  rename_i positive
  have nonzero : 0 < remaining.toNat := UInt64.lt_iff_toNat_lt.mp positive
  have interval : HALVING_INTERVAL.toNat = 1600000 := rfl
  have size := toNat_min remaining HALVING_INTERVAL
  rw [UInt64.toNat_sub_of_le _ _ (UInt64.le_iff_toNat_le.mpr (by omega))]
  omega

def scheduledSupply (height : UInt64) : UInt64 := scheduledLoop height INITIAL_SUBSIDY 0

omit [Crypto] in
theorem subsidyAfter_interval {count offset : Nat} (inside : offset < 1600000) :
    subsidyAfter (count * 1600000 + offset) = max (1000000000 / 2 ^ count) 50000000 := by
  have interval : (count * 1600000 + offset) / 1600000 = count := by omega
  unfold subsidyAfter
  rw [interval]

omit [Crypto] in
theorem halved_subsidy (count : Nat) :
    max (max (1000000000 / 2 ^ count) 50000000 / 2) 50000000 =
      max (1000000000 / 2 ^ (count + 1)) 50000000 := by
  rw [Nat.pow_succ, ← Nat.div_div_eq_div_mul]
  omega

omit [Crypto] in
/-- The loop after `count` whole intervals adds up the remaining subsidies. -/
theorem scheduledLoop_eq (count : Nat) (remaining subsidy total : UInt64)
    (current : subsidy.toNat = max (1000000000 / 2 ^ count) 50000000)
    (fits : total.toNat +
      ∑ offset ∈ Finset.range remaining.toNat, subsidyAfter (count * 1600000 + offset) < 2 ^ 64) :
    (scheduledLoop remaining subsidy total).toNat = total.toNat +
      ∑ offset ∈ Finset.range remaining.toNat, subsidyAfter (count * 1600000 + offset) := by
  induction remaining, subsidy, total using scheduledLoop.induct generalizing count with
  | case1 remaining subsidy total positive span ih =>
    have interval : HALVING_INTERVAL.toNat = 1600000 := rfl
    have minimum : MIN_SUBSIDY.toNat = 50000000 := rfl
    have size : span.toNat = min remaining.toNat 1600000 := toNat_min remaining HALVING_INTERVAL
    have rest : (remaining - span).toNat = remaining.toNat - span.toNat :=
      UInt64.toNat_sub_of_le _ _ (UInt64.le_iff_toNat_le.mpr (by omega))
    have whole : remaining.toNat = span.toNat + (remaining - span).toNat := by omega
    -- the rounds of this interval all pay the current subsidy
    have here : ∑ offset ∈ Finset.range span.toNat, subsidyAfter (count * 1600000 + offset) =
        span.toNat * subsidy.toNat := by
      rw [Finset.sum_const_nat (m := subsidy.toNat), Finset.card_range]
      intro offset member
      rw [Finset.mem_range] at member
      rw [subsidyAfter_interval (by omega), current]
    have later : ∑ offset ∈ Finset.range (remaining - span).toNat,
        subsidyAfter (count * 1600000 + (span.toNat + offset)) =
        ∑ offset ∈ Finset.range (remaining - span).toNat,
          subsidyAfter ((count + 1) * 1600000 + offset) := by
      refine Finset.sum_congr rfl ?_
      intro offset member
      rw [Finset.mem_range] at member
      have same : count * 1600000 + (span.toNat + offset) = (count + 1) * 1600000 + offset := by
        omega
      rw [same]
    rw [whole, Finset.sum_range_add, here, later] at fits ⊢
    have product := saturatingMul_of_lt (a := span) (b := subsidy) (by omega)
    have sum := saturatingAdd_of_lt (a := total) (b := saturatingMul span subsidy) (by omega)
    have halved : (max (subsidy / 2) MIN_SUBSIDY).toNat =
        max (1000000000 / 2 ^ (count + 1)) 50000000 := by
      rw [toNat_max, UInt64.toNat_div, current, minimum]
      exact halved_subsidy count
    rw [scheduledLoop, if_pos positive]
    dsimp only
    rw [ih (count + 1) halved (by omega), sum, product, Nat.add_assoc]
  | case2 remaining subsidy total empty =>
    have zero : remaining.toNat = 0 := by
      rw [gt_iff_lt, UInt64.lt_iff_toNat_lt] at empty
      change ¬0 < remaining.toNat at empty
      omega
    rw [scheduledLoop, if_neg empty, zero]
    rfl

omit [Crypto] in
theorem subsidies_eq {height : Nat} (bound : height < 2 ^ 64) :
    ∑ index ∈ Finset.Ioc 0 height, (blockSubsidy (UInt64.ofNat index)).toNat =
      ∑ offset ∈ Finset.range height, subsidyAfter offset := by
  induction height with
  | zero => rfl
  | succ height ih =>
    rw [Finset.sum_Ioc_succ_top (Nat.zero_le _), ih (by omega), Finset.sum_range_succ,
      blockSubsidy_toNat, ofNat_toNat bound]
    rfl

omit [Crypto] in
theorem scheduledSupply_eq {height : UInt64}
    (fits : ∑ index ∈ Finset.Ioc 0 height.toNat, (blockSubsidy (UInt64.ofNat index)).toNat < 2 ^ 64) :
    (scheduledSupply height).toNat =
      ∑ index ∈ Finset.Ioc 0 height.toNat, (blockSubsidy (UInt64.ofNat index)).toNat := by
  rw [subsidies_eq height.toNat_lt] at fits ⊢
  have start : INITIAL_SUBSIDY.toNat = max (1000000000 / 2 ^ 0) 50000000 := rfl
  have zero : (0 : UInt64).toNat = 0 := rfl
  have loop := scheduledLoop_eq 0 height INITIAL_SUBSIDY 0 start
  simp only [Nat.zero_mul, Nat.zero_add, zero] at loop
  exact loop fits

end ParitrNode
