import ParitrNode.Rewards

/-!
Block, transaction and workshare validation against a parent history and the
parent's ledger state. A clock reading is one `u64` per call.
-/

namespace ParitrNode
open ByteCodec OrderedMap Checked

/-- The trait `PowVerifier`: RandomX under a seed, or the reason it is unavailable. -/
structure PowVerifier where
  hash : Bytes → Bytes → Except String Hash32

/-- `next_bits`: the height-1 block of the branch anchors its schedule. -/
def nextBits (history : List Block) : UInt32 :=
  match history.getLast? with
  | none => targetToBits initialTarget
  | some parent =>
    let launchTimestamp := match history[1]? with
      | some block => block.header.timestamp
      | none => parent.header.timestamp
    requiredBits parent.header.height parent.header.timestamp launchTimestamp

def medianTimePast (history : List Block) : UInt64 :=
  let recent := history.drop (history.length - MEDIAN_TIME_SPAN)
  let timestamps := (recent.map (fun block => block.header.timestamp)).mergeSort (fun a b => a ≤ b)
  timestamps.getD (timestamps.length / 2) 0

section

variable [Crypto]

def validateGenesis (block : Block) : Except ConsensusError Unit :=
  if block = Block.genesis then .ok () else .error .invalidGenesis

def validateHeaderContext (header : BlockHeader) (parent : Block) (parentHistory : List Block)
    (now : UInt64) : Except ConsensusError Unit :=
  if header.version ≠ HEADER_VERSION ∨ header.protocol ≠ PROTOCOL_VERSION then
    .error .unsupportedVersion
  -- the release build wraps `parent.header.height + 1`
  else if header.height ≠ parent.header.height + 1 then .error .wrongHeight
  else if header.previousBlock ≠ parent.id then .error .wrongParent
  else if header.bits ≠ nextBits parentHistory ∨
      (bitsToTarget header.bits).all (fun target => decide (target > powLimit)) then
    .error .invalidTarget
  else if header.timestamp ≤ parent.header.timestamp ∨
      header.timestamp ≤ medianTimePast parentHistory then .error .invalidTimestamp
  else if header.timestamp > saturatingAdd now MAX_FUTURE_BLOCK_TIME then .error .futureTimestamp
  else .ok ()

def validateWitnessShape (witness : WorkshareWitness) : Except ConsensusError Unit :=
  if witness.version ≠ WorkshareWitness.VERSION ∨
      witness.consensusEncode.length > MAX_WORKSHARE_WITNESS_BYTES ∨
      witness.isCanonical = false then .error .nonCanonicalWitness
  else if witness.templates.any (fun template =>
      template.version ≠ BlockTemplate.VERSION ∨
        template.consensusEncode.length > MAX_TEMPLATE_BYTES) then .error .nonCanonicalWitness
  else .ok ()

def validateTransactionStructure (transaction : Transaction) : Except ConsensusError Unit :=
  if transaction.version ≠ Transaction.VERSION ∨ transaction.amount = 0 ∨
      transaction.amount > MAX_MONEY ∨ transaction.fee > MAX_MONEY ∨
      transaction.sender = transaction.recipient ∨
      ¬(transaction.publicKey.length = 33 ∨ transaction.publicKey.length = 65) ∨
      transaction.signature.length ≠ 64 ∨
      transaction.consensusEncode.length > MAX_TRANSACTION_BYTES then .error .invalidTransaction
  else .ok ()

def signatureArray (transaction : Transaction) : Option (FixedBytes 64) :=
  if length : transaction.signature.length = 64 then some ⟨transaction.signature, length⟩ else none

def checkSignature (transaction : Transaction) : Except ConsensusError Unit := do
  let signature ← okOr .invalidTransaction (signatureArray transaction)
  match parseAndValidateSignature transaction.sender transaction.publicKey signature
      transaction.signatureHash with
  | .ok () => return ()
  | .error error => .error (.crypto error)

def applyTransaction (state : LedgerState) (seen : List Hash32) (transaction : Transaction) :
    Except ConsensusError LedgerState := do
  validateTransactionStructure transaction
  if transaction.id ∈ seen then .error .duplicateTransaction
  else
    let account := state.account transaction.sender
    if transaction.nonce ≠ account.nonce then .error .invalidNonce
    else
      let debit ← okOr .moneyRange (checkedAdd transaction.amount transaction.fee)
      if debit > account.balance then .error .insufficientBalance
      else
        checkSignature transaction
        let debited ← state.debit transaction.sender debit
        let credited ← debited.credit transaction.recipient transaction.amount
        let nonce ← okOr .arithmeticOverflow (checkedAdd transaction.nonce 1)
        return credited.setNonce transaction.sender nonce

def applyFrom (state : LedgerState) (seen : List Hash32) (totalFees : UInt64) :
    List Transaction → Except ConsensusError (LedgerState × UInt64)
  | [] => .ok (state, totalFees)
  | transaction :: rest => do
    let next ← applyTransaction state seen transaction
    let fees ← okOr .moneyRange
      ((checkedAdd totalFees transaction.fee).filter (fun fees => decide (fees ≤ MAX_MONEY)))
    applyFrom next (transaction.id :: seen) fees rest

def applyTransactions (state : LedgerState) (transactions : List Transaction) :
    Except ConsensusError (LedgerState × UInt64) := applyFrom state [] 0 transactions

/-- `state.mature(height)?` on a clone: the error drops the clone. -/
def matured (state : LedgerState) (height : UInt64) : Except ConsensusError LedgerState :=
  match state.mature height with
  | (.error error, _) => .error error
  | (.ok _, left) => .ok left

def scheduleRewards (maturity : UInt64) (state : LedgerState) (rewards : List (Address × UInt64)) :
    Except ConsensusError LedgerState :=
  rewards.foldlM (fun state entry => state.scheduleReward maturity entry.1 entry.2) state

structure Transition where
  state : LedgerState
  allocation : RewardAllocation
  fees : UInt64

def transitionForCandidate (height : UInt64) (claim : RewardClaim) (transactions : List Transaction)
    (parentHistory : List Block) (parentState : LedgerState) : Except ConsensusError Transition := do
  let state ← matured parentState height
  let (state, fees) ← applyTransactions state transactions
  let allocation ← rewardAllocation height claim.finder fees parentHistory
  if claim.amount ≠ allocation.finderAmount then .error .rewardMismatch
  else
    let maturity ← okOr .arithmeticOverflow (checkedAdd height REWARD_MATURITY)
    let state ← state.scheduleReward maturity claim.finder allocation.finderAmount
    let state ← scheduleRewards maturity state allocation.workshareRewards
    return ⟨state, allocation, fees⟩

def validateTemplateTransactions (transactions : List Transaction) (parentState : LedgerState)
    (height : UInt64) : Except ConsensusError Unit :=
  if transactions.length > MAX_BLOCK_TRANSACTIONS then .error .sizeLimit
  else do
    let state ← matured parentState height
    let _ ← applyTransactions state transactions
    return ()

def randomxSeed (parentHistory : List Block) (height : UInt64) : Except ConsensusError Bytes :=
  if height < RANDOMX_EPOCH_BLOCKS then .ok (ascii RANDOMX_BOOTSTRAP_SEED)
  else
    let referenceHeight := randomxSeedReferenceHeight height
    match parentHistory.find? (fun block => block.header.height = referenceHeight) with
    | none => .error (.storageInvariant
        ("RandomX reference block " ++ toString referenceHeight ++ " unavailable"))
    | some reference =>
      .ok (domainHash "PARITR-P9-RANDOMX-EPOCH-v1"
        (Writer.bytes (ascii CHAIN_ID) ++ Writer.u64 (height / RANDOMX_EPOCH_BLOCKS) ++
          reference.id.bytes)).bytes

def powHash (pow : PowVerifier) (seed : Bytes) (header : BlockHeader) :
    Except ConsensusError Hash32 :=
  match pow.hash seed header.consensusEncode with
  | .ok hash => .ok hash
  | .error reason => .error (.powUnavailable reason)

def verifyPow (pow : PowVerifier) (seed : Bytes) (header : BlockHeader) (target : Nat) :
    Except ConsensusError Unit := do
  let hash ← powHash pow seed header
  if hashMeetsTarget hash target then return () else .error .invalidProofOfWork

/-! Workshares: one linear chain of candidate headers for the next height. -/

/-- What every share of a witness is checked against. -/
structure ShareContext where
  parentHistory : List Block
  parentState : LedgerState
  parent : Block
  templates : BTreeMap Hash32 BlockTemplate
  pow : PowVerifier
  seed : Bytes
  expectedBits : UInt32
  blockTarget : Nat
  shareTarget : Nat
  medianTime : UInt64
  settlingTimestamp : UInt64

def templatesById (templates : List BlockTemplate) : BTreeMap Hash32 BlockTemplate :=
  templates.foldl (fun map template => map.insert template.id template) ∅

def templateFees (transactions : List Transaction) : Except ConsensusError UInt64 :=
  transactions.foldlM (fun sum transaction => okOr .moneyRange (checkedAdd sum transaction.fee)) 0

/-- The reward claim rebuilt from the share's miner and extranonce. -/
def shareClaim (template : BlockTemplate) (share : Workshare) (finderAmount : UInt64) : RewardClaim :=
  { version := RewardClaim.VERSION
    height := template.height
    finder := share.miner
    amount := finderAmount
    extranonce := share.extranonce }

/-- The clauses on the share and its candidate header alone. -/
def shareMisplaced (context : ShareContext) (previous : Hash32) (share : Workshare) : Prop :=
  share.version ≠ Workshare.VERSION ∨ share.previousWorkshare ≠ previous ∨
  share.candidateHeader.version ≠ HEADER_VERSION ∨
  share.candidateHeader.protocol ≠ PROTOCOL_VERSION ∨
  share.candidateHeader.height ≠ context.parent.header.height + 1 ∨
  share.candidateHeader.previousBlock ≠ context.parent.id ∨
  share.candidateHeader.bits ≠ context.expectedBits ∨
  share.candidateHeader.timestamp ≤ context.parent.header.timestamp ∨
  share.candidateHeader.timestamp ≤ context.medianTime ∨
  share.candidateHeader.timestamp > context.settlingTimestamp

instance (context : ShareContext) (previous : Hash32) (share : Workshare) :
    Decidable (shareMisplaced context previous share) := by
  unfold shareMisplaced
  infer_instance

/-- The template a share refers to, valid for the parent. -/
def shareTemplate (context : ShareContext) (share : Workshare) : Except ConsensusError BlockTemplate := do
  let template ← okOr .invalidWorkshareChain context.templates[share.templateId]?
  if template.version ≠ BlockTemplate.VERSION ∨
      template.height ≠ context.parent.header.height + 1 ∨ template.parent ≠ context.parent.id then
    .error .invalidWorkshareChain
  else return template

/-- One turn of the loop, up to the update of `previous` and `prefix`. -/
def validateShare (context : ShareContext) (previous : Hash32) (before : WorkshareWitness)
    (share : Workshare) : Except ConsensusError BlockTemplate :=
  if shareMisplaced context previous share then .error .invalidWorkshareChain
  else do
    let template ← shareTemplate context share
    let fees ← templateFees template.transactions
    let allocation ← rewardAllocation template.height share.miner fees context.parentHistory
    let claim := shareClaim template share allocation.finderAmount
    let transition ← transitionForCandidate template.height claim template.transactions
      context.parentHistory context.parentState
    let txids := claim.id :: template.transactions.map Transaction.id
    if share.candidateHeader.transactionsRoot ≠ merkleRoot txids ∨
        share.candidateHeader.stateRoot ≠ transition.state.root ∨
        share.candidateHeader.workshareRoot ≠ before.root then .error .invalidWorkshareChain
    else
      let hash ← powHash context.pow context.seed share.candidateHeader
      -- the open lower bound: a full solution is a block, not a share
      if ¬hashMeetsTarget hash context.shareTarget ∨ hashMeetsTarget hash context.blockTarget then
        .error .invalidProofOfWork
      else return template

/-- `prefix` after one more share, its templates kept sorted by id. -/
def extendPrefix (before : WorkshareWitness) (share : Workshare) (template : BlockTemplate) :
    WorkshareWitness :=
  { before with
    workshares := before.workshares ++ [share]
    templates :=
      if before.templates.any (fun existing => existing.id = template.id) then before.templates
      else (before.templates ++ [template]).mergeSort (fun left right => (compare left.id right.id).isLE) }

def validateShares (context : ShareContext) (previous : Hash32) (before : WorkshareWitness) :
    List Workshare → Except ConsensusError Unit
  | [] => .ok ()
  | share :: rest => do
    let template ← validateShare context previous before share
    validateShares context share.id (extendPrefix before share template) rest

def validateWorkshares (witness : WorkshareWitness) (parentHistory : List Block)
    (parentState : LedgerState) (pow : PowVerifier) (settlingTimestamp : UInt64) :
    Except ConsensusError Unit :=
  if witness.workshares = [] then .ok ()
  else do
    let parent ← okOr .wrongParent parentHistory.getLast?
    let seed ← randomxSeed parentHistory (parent.header.height + 1)
    let expectedBits := nextBits parentHistory
    let blockTarget ← okOr .invalidTarget (bitsToTarget expectedBits)
    let shareBits ← okOr .invalidTarget (workshareBits expectedBits)
    let shareTarget ← okOr .invalidTarget (bitsToTarget shareBits)
    let context : ShareContext :=
      { parentHistory, parentState, parent, pow, seed, expectedBits, blockTarget, shareTarget,
        settlingTimestamp
        templates := templatesById witness.templates
        medianTime := medianTimePast parentHistory }
    validateShares context Hash32.ZERO WorkshareWitness.empty witness.workshares

def validateBlock (block : Block) (parentHistory : List Block) (parentState : LedgerState)
    (pow : PowVerifier) (now : UInt64) : Except ConsensusError LedgerState :=
  -- returns before any check against the parent
  if block.header.height = 0 then do
    validateGenesis block
    return default
  else do
    let parent ← okOr .wrongParent parentHistory.getLast?
    validateHeaderContext block.header parent parentHistory now
    if block.consensusEncode.length > MAX_BLOCK_BYTES ∨
        block.transactions.length > MAX_BLOCK_TRANSACTIONS then .error .sizeLimit
    else if block.transactionRoot ≠ block.header.transactionsRoot then .error .transactionRootMismatch
    else
      validateWitnessShape block.workshareWitness
      if block.workshareWitness.root ≠ block.header.workshareRoot then .error .workshareRootMismatch
      else
        let seed ← randomxSeed parentHistory block.header.height
        let target ← okOr .invalidTarget (bitsToTarget block.header.bits)
        verifyPow pow seed block.header target
        let claim ← okOr .rewardMismatch block.rewardClaim
        if claim.version ≠ RewardClaim.VERSION ∨ claim.height ≠ block.header.height then
          .error .rewardMismatch
        else
          let transition ← transitionForCandidate block.header.height claim block.transactions
            parentHistory parentState
          if claim.amount ≠ transition.allocation.finderAmount then .error .rewardMismatch
          else if transition.state.root ≠ block.header.stateRoot then .error .stateRootMismatch
          else
            validateWorkshares block.workshareWitness parentHistory parentState pow
              block.header.timestamp
            return transition.state

end

/-- `cumulative_work`, with the checked 256-bit sum. -/
def addWork (total : Nat) (block : Block) : Except ConsensusError Nat := do
  let target ← okOr .invalidTarget (bitsToTarget block.header.bits)
  if total + targetWork target > MAX_U256 then .error .arithmeticOverflow
  else return total + targetWork target

def cumulativeWork (blocks : List Block) : Except ConsensusError Nat := blocks.foldlM addWork 0

end ParitrNode
