import ParitrNode.Chain

/-!
What a successful validation has checked: one record or one equivalence for
each validator, so that no later proof unfolds it.
-/

namespace ParitrNode
open ByteCodec OrderedMap Checked

variable [Crypto]

structure FollowsParent (header : BlockHeader) (parent : Block) (parentHistory : List Block)
    (now : UInt64) : Prop where
  version : header.version = HEADER_VERSION
  protocol : header.protocol = PROTOCOL_VERSION
  height : header.height = parent.header.height + 1
  previous : header.previousBlock = parent.id
  bits : header.bits = nextBits parentHistory
  withinLimit : ∃ target, bitsToTarget header.bits = some target ∧ target ≤ powLimit
  afterParent : parent.header.timestamp < header.timestamp
  afterMedian : medianTimePast parentHistory < header.timestamp
  notFuture : header.timestamp ≤ saturatingAdd now MAX_FUTURE_BLOCK_TIME

theorem validateHeaderContext_ok_iff {header : BlockHeader} {parent : Block}
    {parentHistory : List Block} {now : UInt64} :
    validateHeaderContext header parent parentHistory now = .ok () ↔
      FollowsParent header parent parentHistory now := by
  have limit : ¬(bitsToTarget header.bits).all (fun target => decide (target > powLimit)) = true ↔
      ∃ target, bitsToTarget header.bits = some target ∧ target ≤ powLimit := by
    cases bitsToTarget header.bits <;> simp
  unfold validateHeaderContext
  simp only [guard_ok, not_or, Decidable.not_not, gt_iff_lt, UInt64.not_le, UInt64.not_lt]
  constructor
  · rintro ⟨versions, height, previous, target, time, future, -⟩
    exact ⟨versions.1, versions.2, height, previous, target.1, limit.mp target.2, time.1, time.2,
      future⟩
  · intro follows
    exact ⟨⟨follows.version, follows.protocol⟩, follows.height, follows.previous,
      ⟨follows.bits, limit.mpr follows.withinLimit⟩, ⟨follows.afterParent, follows.afterMedian⟩,
      follows.notFuture, trivial⟩

/-- Everything `validate_block` checks on a block above height zero. -/
structure AcceptedWith (block : Block) (parentHistory : List Block) (parentState : LedgerState)
    (pow : PowVerifier) (now : UInt64) (parent : Block) (seed : Bytes) (target : Nat)
    (claim : RewardClaim) (transition : Transition) : Prop where
  parentLast : parentHistory.getLast? = some parent
  context : validateHeaderContext block.header parent parentHistory now = .ok ()
  blockBytes : block.consensusEncode.length ≤ MAX_BLOCK_BYTES
  transactionCount : block.transactions.length ≤ MAX_BLOCK_TRANSACTIONS
  transactionsRoot : block.transactionRoot = block.header.transactionsRoot
  witnessShape : validateWitnessShape block.workshareWitness = .ok ()
  workshareRoot : block.workshareWitness.root = block.header.workshareRoot
  seedFound : randomxSeed parentHistory block.header.height = .ok seed
  targetValid : bitsToTarget block.header.bits = some target
  proofOfWork : verifyPow pow seed block.header target = .ok ()
  claimPresent : block.rewardClaim = some claim
  claimVersion : claim.version = RewardClaim.VERSION
  claimHeight : claim.height = block.header.height
  transitionOk : transitionForCandidate block.header.height claim block.transactions parentHistory
    parentState = .ok transition
  claimAmount : claim.amount = transition.allocation.finderAmount
  stateRoot : transition.state.root = block.header.stateRoot
  workshares : validateWorkshares block.workshareWitness parentHistory parentState pow
    block.header.timestamp = .ok ()

def Accepted (block : Block) (parentHistory : List Block) (parentState : LedgerState)
    (pow : PowVerifier) (now : UInt64) (next : LedgerState) : Prop :=
  ∃ parent seed target claim transition,
    AcceptedWith block parentHistory parentState pow now parent seed target claim transition ∧
      next = transition.state

theorem validateBlock_ok_iff {block : Block} {parentHistory : List Block} {parentState : LedgerState}
    {pow : PowVerifier} {now : UInt64} {next : LedgerState} (above : block.header.height ≠ 0) :
    validateBlock block parentHistory parentState pow now = .ok next ↔
      Accepted block parentHistory parentState pow now next := by
  unfold validateBlock
  rw [if_neg above]
  simp only [bind_ok, guard_ok, okOr_ok, not_or, Decidable.not_not, Nat.not_lt, gt_iff_lt]
  constructor
  · rintro ⟨parent, last, ⟨⟩, context, sizes, root, ⟨⟩, shape, witnessRoot, seed, seeded, target,
      targeted, ⟨⟩, work, claim, present, versions, transition, transitioned, amount, stateRoot, ⟨⟩,
      workshares, result⟩
    exact ⟨parent, seed, target, claim, transition,
      ⟨last, context, sizes.1, sizes.2, root, shape, witnessRoot, seeded, targeted, work, present,
        versions.1, versions.2, transitioned, amount, stateRoot, workshares⟩,
      (Except.ok.inj result).symm⟩
  · rintro ⟨parent, seed, target, claim, transition, checks, rfl⟩
    exact ⟨parent, checks.parentLast, (), checks.context,
      ⟨checks.blockBytes, checks.transactionCount⟩, checks.transactionsRoot, (), checks.witnessShape,
      checks.workshareRoot, seed, checks.seedFound, target, checks.targetValid, (),
      checks.proofOfWork, claim, checks.claimPresent, ⟨checks.claimVersion, checks.claimHeight⟩,
      transition, checks.transitionOk, checks.claimAmount, checks.stateRoot, (), checks.workshares,
      rfl⟩

/-- Height zero: the block is the genesis block, and nothing else is looked at. -/
theorem validateBlock_zero_iff {block : Block} {parentHistory : List Block}
    {parentState : LedgerState} {pow : PowVerifier} {now : UInt64} {next : LedgerState}
    (ground : block.header.height = 0) :
    validateBlock block parentHistory parentState pow now = .ok next ↔
      block = Block.genesis ∧ next = default := by
  unfold validateBlock validateGenesis
  rw [if_pos ground]
  by_cases same : block = Block.genesis
  · rw [if_pos same]
    exact ⟨fun h => ⟨same, (Except.ok.inj h).symm⟩, fun h => congrArg Except.ok h.2.symm⟩
  · rw [if_neg same]
    exact ⟨fun h => (nomatch h), fun h => absurd h.1 same⟩

omit [Crypto] in
theorem verifyPow_ok {pow : PowVerifier} {seed : Bytes} {header : BlockHeader} {target : Nat} :
    verifyPow pow seed header target = .ok () ↔
      ∃ hash, pow.hash seed header.consensusEncode = .ok hash ∧ hashMeetsTarget hash target := by
  unfold verifyPow powHash
  cases pow.hash seed header.consensusEncode with
  | error reason => exact ⟨fun h => (nomatch h), fun ⟨_, h, _⟩ => (nomatch h)⟩
  | ok hash =>
    change (if hashMeetsTarget hash target then _ else _) = _ ↔ _
    split
    next meets => exact ⟨fun _ => ⟨hash, rfl, meets⟩, fun _ => rfl⟩
    next misses =>
      refine ⟨fun h => (nomatch h), ?_⟩
      rintro ⟨other, same, meets⟩
      cases same
      exact absurd meets misses

namespace Accepted

variable {block : Block} {parentHistory : List Block} {parentState : LedgerState} {pow : PowVerifier}
  {now : UInt64} {next : LedgerState}

theorem follows (accepted : Accepted block parentHistory parentState pow now next) :
    ∃ parent, parentHistory.getLast? = some parent ∧
      FollowsParent block.header parent parentHistory now := by
  obtain ⟨parent, _, _, _, _, checks, -⟩ := accepted
  exact ⟨parent, checks.parentLast, validateHeaderContext_ok_iff.mp checks.context⟩

theorem worked (accepted : Accepted block parentHistory parentState pow now next) :
    ∃ seed target hash, randomxSeed parentHistory block.header.height = .ok seed ∧
      bitsToTarget block.header.bits = some target ∧
      pow.hash seed block.header.consensusEncode = .ok hash ∧ hashMeetsTarget hash target := by
  obtain ⟨_, seed, target, _, _, checks, -⟩ := accepted
  obtain ⟨hash, hashed, meets⟩ := verifyPow_ok.mp checks.proofOfWork
  exact ⟨seed, target, hash, checks.seedFound, checks.targetValid, hashed, meets⟩

end Accepted

/-! The transition of a block: mature, apply the transactions, schedule the rewards. -/

structure TransitionsTo (height : UInt64) (claim : RewardClaim) (transactions : List Transaction)
    (parentHistory : List Block) (parentState : LedgerState) (maturedState appliedState : LedgerState)
    (maturity : UInt64) (finderState : LedgerState) (result : Transition) : Prop where
  maturedOk : matured parentState height = .ok maturedState
  appliedOk : applyTransactions maturedState transactions = .ok (appliedState, result.fees)
  allocationOk : rewardAllocation height claim.finder result.fees parentHistory =
    .ok result.allocation
  claimAmount : claim.amount = result.allocation.finderAmount
  maturityOk : checkedAdd height REWARD_MATURITY = some maturity
  finderOk : appliedState.scheduleReward maturity claim.finder result.allocation.finderAmount =
    .ok finderState
  sharesOk : scheduleRewards maturity finderState result.allocation.workshareRewards =
    .ok result.state

theorem transitionForCandidate_ok_iff {height : UInt64} {claim : RewardClaim}
    {transactions : List Transaction} {parentHistory : List Block} {parentState : LedgerState}
    {result : Transition} :
    transitionForCandidate height claim transactions parentHistory parentState = .ok result ↔
      ∃ maturedState appliedState maturity finderState,
        TransitionsTo height claim transactions parentHistory parentState maturedState appliedState
          maturity finderState result := by
  unfold transitionForCandidate
  simp only [bind_ok, guard_ok, okOr_ok, Decidable.not_not, Prod.exists]
  constructor
  · rintro ⟨maturedState, maturedOk, appliedState, fees, appliedOk, allocation, allocationOk, amount,
      maturity, maturityOk, finderState, finderOk, state, sharesOk, result⟩
    cases result
    exact ⟨maturedState, appliedState, maturity, finderState,
      ⟨maturedOk, appliedOk, allocationOk, amount, maturityOk, finderOk, sharesOk⟩⟩
  · rintro ⟨maturedState, appliedState, maturity, finderState, steps⟩
    exact ⟨maturedState, steps.maturedOk, appliedState, result.fees, steps.appliedOk,
      result.allocation, steps.allocationOk, steps.claimAmount, maturity, steps.maturityOk,
      finderState, steps.finderOk, result.state, steps.sharesOk, rfl⟩

/-! One transaction. -/

structure WellFormed (transaction : Transaction) : Prop where
  version : transaction.version = Transaction.VERSION
  amountPositive : transaction.amount ≠ 0
  distinct : transaction.sender ≠ transaction.recipient
  keyLength : transaction.publicKey.length = 33 ∨ transaction.publicKey.length = 65
  signatureLength : transaction.signature.length = 64
  size : transaction.consensusEncode.length ≤ MAX_TRANSACTION_BYTES

theorem validateTransactionStructure_ok {transaction : Transaction}
    (accepted : validateTransactionStructure transaction = .ok ()) : WellFormed transaction := by
  unfold validateTransactionStructure at accepted
  simp only [guard_ok, not_or, Decidable.not_not, Nat.not_lt, gt_iff_lt] at accepted
  obtain ⟨⟨version, amount, -, -, distinct, key, signature, size⟩, -⟩ := accepted
  exact ⟨version, amount, distinct, by omega, signature, size⟩

structure Applies (state : LedgerState) (seen : List Hash32) (transaction : Transaction)
    (debit : UInt64) (debited credited : LedgerState) (nonce : UInt64) : Prop where
  wellFormed : validateTransactionStructure transaction = .ok ()
  fresh : transaction.id ∉ seen
  nonceOk : transaction.nonce = (state.account transaction.sender).nonce
  debitOk : checkedAdd transaction.amount transaction.fee = some debit
  covered : debit ≤ (state.account transaction.sender).balance
  signed : checkSignature transaction = .ok ()
  debitedOk : state.debit transaction.sender debit = .ok debited
  creditedOk : debited.credit transaction.recipient transaction.amount = .ok credited
  nonceNext : checkedAdd transaction.nonce 1 = some nonce

theorem applyTransaction_ok_iff {state : LedgerState} {seen : List Hash32} {transaction : Transaction}
    {next : LedgerState} :
    applyTransaction state seen transaction = .ok next ↔
      ∃ debit debited credited nonce, Applies state seen transaction debit debited credited nonce ∧
        next = credited.setNonce transaction.sender nonce := by
  unfold applyTransaction
  simp only [bind_ok, guard_ok, okOr_ok, Decidable.not_not, gt_iff_lt, UInt64.not_lt]
  constructor
  · rintro ⟨⟨⟩, wellFormed, fresh, nonceOk, debit, debitOk, covered, ⟨⟩, signed, debited, debitedOk,
      credited, creditedOk, nonce, nonceNext, result⟩
    exact ⟨debit, debited, credited, nonce,
      ⟨wellFormed, fresh, nonceOk, debitOk, covered, signed, debitedOk, creditedOk, nonceNext⟩,
      (Except.ok.inj result).symm⟩
  · rintro ⟨debit, debited, credited, nonce, steps, rfl⟩
    exact ⟨(), steps.wellFormed, steps.fresh, steps.nonceOk, debit, steps.debitOk, steps.covered, (),
      steps.signed, debited, steps.debitedOk, credited, steps.creditedOk, nonce, steps.nonceNext, rfl⟩

theorem applyFrom_cons_ok {state : LedgerState} {seen : List Hash32} {totalFees : UInt64}
    {transaction : Transaction} {rest : List Transaction} {result : LedgerState × UInt64} :
    applyFrom state seen totalFees (transaction :: rest) = .ok result ↔
      ∃ next fees, applyTransaction state seen transaction = .ok next ∧
        checkedAdd totalFees transaction.fee = some fees ∧ fees ≤ MAX_MONEY ∧
        applyFrom next (transaction.id :: seen) fees rest = .ok result := by
  rw [applyFrom]
  simp only [bind_ok, okOr_ok, Option.filter_eq_some_iff, decide_eq_true_eq]
  constructor
  · rintro ⟨next, applied, fees, ⟨added, bounded⟩, later⟩
    exact ⟨next, fees, applied, added, bounded, later⟩
  · rintro ⟨next, fees, applied, added, bounded, later⟩
    exact ⟨next, applied, fees, ⟨added, bounded⟩, later⟩

theorem applyFrom_ok {state : LedgerState} {seen : List Hash32} {totalFees : UInt64}
    {transactions : List Transaction} {result : LedgerState × UInt64}
    (accepted : applyFrom state seen totalFees transactions = .ok result) :
    (∀ transaction ∈ transactions, WellFormed transaction) ∧
      (transactions.map Transaction.id).Nodup ∧
      ∀ transaction ∈ transactions, transaction.id ∉ seen := by
  induction transactions generalizing state seen totalFees with
  | nil => simp
  | cons transaction rest ih =>
    obtain ⟨next, fees, applied, -, -, later⟩ := applyFrom_cons_ok.mp accepted
    obtain ⟨debit, debited, credited, nonce, steps, -⟩ := applyTransaction_ok_iff.mp applied
    obtain ⟨formed, distinct, unseen⟩ := ih later
    refine ⟨?_, ?_, ?_⟩
    · intro other member
      rcases List.mem_cons.mp member with rfl | inside
      · exact validateTransactionStructure_ok steps.wellFormed
      · exact formed other inside
    · rw [List.map_cons, List.nodup_cons]
      refine ⟨?_, distinct⟩
      intro repeated
      obtain ⟨other, inside, same⟩ := List.mem_map.mp repeated
      exact unseen other inside (same ▸ List.mem_cons_self)
    · intro other member
      rcases List.mem_cons.mp member with rfl | inside
      · exact steps.fresh
      · exact fun earlier => unseen other inside (List.mem_cons_of_mem _ earlier)

theorem transitionForCandidate_wellFormed {height : UInt64} {claim : RewardClaim}
    {transactions : List Transaction} {parentHistory : List Block} {parentState : LedgerState}
    {result : Transition}
    (accepted : transitionForCandidate height claim transactions parentHistory parentState =
      .ok result) :
    (∀ transaction ∈ transactions, WellFormed transaction) ∧
      (transactions.map Transaction.id).Nodup := by
  obtain ⟨_, _, _, _, steps⟩ := transitionForCandidate_ok_iff.mp accepted
  obtain ⟨formed, distinct, -⟩ := applyFrom_ok steps.appliedOk
  exact ⟨formed, distinct⟩

end ParitrNode
