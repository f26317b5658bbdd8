import ParitrNode.CompactTargets
import ParitrNode.ShareHeaders
import ParitrNode.SharePrefixes

/-!
A share against the block it was mined for: what `validate_workshares` implies
about that block, and the three checks of `validate_block` it leaves out.
-/

namespace ParitrNode
open ByteCodec OrderedMap Checked KeyOrder

variable [Crypto]

/-- The block behind a share: its header, the rebuilt claim, the transactions of
its template and the witness before it. -/
def candidateBlock (parentHistory : List Block) (template : BlockTemplate) (share : Workshare)
    (before : WorkshareWitness) : Except ConsensusError Block := do
  let fees ← templateFees template.transactions
  let allocation ← rewardAllocation template.height share.miner fees parentHistory
  return { header := share.candidateHeader
           rewardClaim := some (shareClaim template share allocation.finderAmount)
           transactions := template.transactions
           workshareWitness := before }

omit [Crypto] in
theorem candidateBlock_ok {parentHistory : List Block} {template : BlockTemplate} {share : Workshare}
    {before : WorkshareWitness} {block : Block}
    (built : candidateBlock parentHistory template share before = .ok block) :
    block.header = share.candidateHeader ∧ block.workshareWitness = before := by
  unfold candidateBlock at built
  simp only [bind_ok] at built
  obtain ⟨_, _, _, _, same⟩ := built
  cases same
  exact ⟨rfl, rfl⟩

/-- `validate_block` without the call of `verify_pow`. -/
def validateCandidate (block : Block) (parentHistory : List Block) (parentState : LedgerState)
    (pow : PowVerifier) (now : UInt64) : Except ConsensusError LedgerState :=
  if block.header.height = 0 then do
    validateGenesis block
    return default
  else do
    let parent ← okOr .wrongParent parentHistory.getLast?
    validateHeaderContext block.header parent parentHistory now
    if block.consensusEncode.length > MAX_BLOCK_BYTES ∨
        block.transactions.length > MAX_BLOCK_TRANSACTIONS then .error .sizeLimit
    else if block.transactionRoot ≠ block.header.transactionsRoot then .error .transactionRootMismatch
    else
      validateWitnessShape block.workshareWitness
      if block.workshareWitness.root ≠ block.header.workshareRoot then .error .workshareRootMismatch
      else
        let _ ← randomxSeed parentHistory block.header.height
        let _ ← okOr .invalidTarget (bitsToTarget block.header.bits)
        let claim ← okOr .rewardMismatch block.rewardClaim
        if claim.version ≠ RewardClaim.VERSION ∨ claim.height ≠ block.header.height then
          .error .rewardMismatch
        else
          let transition ← transitionForCandidate block.header.height claim block.transactions
            parentHistory parentState
          if claim.amount ≠ transition.allocation.finderAmount then .error .rewardMismatch
          else if transition.state.root ≠ block.header.stateRoot then .error .stateRootMismatch
          else
            validateWorkshares block.workshareWitness parentHistory parentState pow
              block.header.timestamp
            return transition.state

def Solved (header : BlockHeader) (parentHistory : List Block) (pow : PowVerifier) : Prop :=
  ∃ seed target, randomxSeed parentHistory header.height = .ok seed ∧
    bitsToTarget header.bits = some target ∧ verifyPow pow seed header target = .ok ()

structure CandidateWith (block : Block) (parentHistory : List Block) (parentState : LedgerState)
    (pow : PowVerifier) (now : UInt64) (parent : Block) (claim : RewardClaim)
    (transition : Transition) : Prop where
  parentLast : parentHistory.getLast? = some parent
  context : validateHeaderContext block.header parent parentHistory now = .ok ()
  blockBytes : block.consensusEncode.length ≤ MAX_BLOCK_BYTES
  transactionCount : block.transactions.length ≤ MAX_BLOCK_TRANSACTIONS
  transactionsRoot : block.transactionRoot = block.header.transactionsRoot
  witnessShape : validateWitnessShape block.workshareWitness = .ok ()
  workshareRoot : block.workshareWitness.root = block.header.workshareRoot
  seedFound : ∃ seed, randomxSeed parentHistory block.header.height = .ok seed
  targetValid : ∃ target, bitsToTarget block.header.bits = some target
  claimPresent : block.rewardClaim = some claim
  claimVersion : claim.version = RewardClaim.VERSION
  claimHeight : claim.height = block.header.height
  transitionOk : transitionForCandidate block.header.height claim block.transactions parentHistory
    parentState = .ok transition
  claimAmount : claim.amount = transition.allocation.finderAmount
  stateRoot : transition.state.root = block.header.stateRoot
  workshares : validateWorkshares block.workshareWitness parentHistory parentState pow
    block.header.timestamp = .ok ()

theorem validateCandidate_ok_iff {block : Block} {parentHistory : List Block}
    {parentState : LedgerState} {pow : PowVerifier} {now : UInt64} {next : LedgerState}
    (above : block.header.height ≠ 0) :
    validateCandidate block parentHistory parentState pow now = .ok next ↔
      ∃ parent claim transition, CandidateWith block parentHistory parentState pow now parent claim
        transition ∧ next = transition.state := by
  unfold validateCandidate
  rw [if_neg above]
  simp only [bind_ok, guard_ok, okOr_ok, not_or, Decidable.not_not, Nat.not_lt, gt_iff_lt]
  constructor
  · intro ⟨parent, last, _, context, sizes, root, _, shape, witnessRoot, seed, seeded, target,
      targeted, claim, present, versions, transition, transitioned, amount, stateRoot, _, workshares,
      result⟩
    exact ⟨parent, claim, transition,
      ⟨last, context, sizes.1, sizes.2, root, shape, witnessRoot, ⟨seed, seeded⟩, ⟨target, targeted⟩,
        present, versions.1, versions.2, transitioned, amount, stateRoot, workshares⟩,
      (Except.ok.inj result).symm⟩
  · intro ⟨parent, claim, transition, checks, result⟩
    obtain ⟨seed, seeded⟩ := checks.seedFound
    obtain ⟨target, targeted⟩ := checks.targetValid
    exact ⟨parent, checks.parentLast, (), checks.context,
      ⟨checks.blockBytes, checks.transactionCount⟩, checks.transactionsRoot, (), checks.witnessShape,
      checks.workshareRoot, seed, seeded, target, targeted, claim, checks.claimPresent,
      ⟨checks.claimVersion, checks.claimHeight⟩, transition, checks.transitionOk, checks.claimAmount,
      checks.stateRoot, (), checks.workshares, congrArg Except.ok result.symm⟩

theorem validateCandidate_zero_iff {block : Block} {parentHistory : List Block}
    {parentState : LedgerState} {pow : PowVerifier} {now : UInt64} {next : LedgerState}
    (ground : block.header.height = 0) :
    validateCandidate block parentHistory parentState pow now = .ok next ↔
      block = Block.genesis ∧ next = default := by
  have same : validateCandidate block parentHistory parentState pow now =
      validateBlock block parentHistory parentState pow now := by
    unfold validateCandidate validateBlock
    rw [if_pos ground, if_pos ground]
  rw [same]
  exact validateBlock_zero_iff ground

theorem validateBlock_ok_iff_candidate {block : Block} {parentHistory : List Block}
    {parentState : LedgerState} {pow : PowVerifier} {now : UInt64} {next : LedgerState}
    (above : block.header.height ≠ 0) :
    validateBlock block parentHistory parentState pow now = .ok next ↔
      validateCandidate block parentHistory parentState pow now = .ok next ∧
        Solved block.header parentHistory pow := by
  rw [validateBlock_ok_iff above, validateCandidate_ok_iff above]
  constructor
  · intro ⟨parent, seed, target, claim, transition, checks, result⟩
    exact ⟨⟨parent, claim, transition, { checks with
      seedFound := ⟨seed, checks.seedFound⟩, targetValid := ⟨target, checks.targetValid⟩ }, result⟩,
      seed, target, checks.seedFound, checks.targetValid, checks.proofOfWork⟩
  · intro ⟨⟨parent, claim, transition, checks, result⟩, seed, target, seeded, targeted, solved⟩
    exact ⟨parent, seed, target, claim, transition, { checks with
      seedFound := seeded, targetValid := targeted, proofOfWork := solved }, result⟩

/-! What the context of a share supplies. -/

omit [Crypto] in
theorem nextBits_target (history : List Block) :
    ∃ target, bitsToTarget (nextBits history) = some target ∧ 0 < target ∧ target ≤ powLimit := by
  have limit : powLimit ≤ MAX_U256 := by decide +kernel
  have scheduled : ∃ target, nextBits history = targetToBits target ∧ 0 < target ∧
      target ≤ powLimit := by
    unfold nextBits
    split
    · exact ⟨initialTarget, rfl, by decide +kernel, by decide +kernel⟩
    · exact ⟨_, rfl, requiredTarget_pos _ _ _, requiredTarget_le _ _ _⟩
  obtain ⟨target, bits, positive, bound⟩ := scheduled
  obtain ⟨size, more, spans, _, _, read⟩ :=
    bitsToTarget_targetToBits positive (Nat.le_trans bound limit)
  rw [bits]
  exact ⟨_, read, (spans.rounded_spans more).target_pos,
    Nat.le_trans (Spans.rounded_le size more target) bound⟩

theorem witnessesBefore_at {templates : BTreeMap Hash32 BlockTemplate} {before : WorkshareWitness}
    {carried earlier : List Workshare} (share : Workshare) (later : List Workshare)
    (keyed : Keyed (fun id => templates[id]?)) (carries : Carries (fun id => templates[id]?) carried before)
    (found : ∀ share ∈ earlier, ∃ template, templates[share.templateId]? = some template) :
    ∃ after, (witnessesBefore templates before (earlier ++ share :: later))[earlier.length]? =
      some after ∧ Carries (fun id => templates[id]?) (carried ++ earlier) after := by
  induction earlier generalizing before carried with
  | nil =>
    rw [List.append_nil]
    exact ⟨before, rfl, carries⟩
  | cons first earlier ih =>
    obtain ⟨template, stored⟩ := found first List.mem_cons_self
    have inside := fun share member => found share (List.mem_cons_of_mem first member)
    obtain ⟨after, listed, whole⟩ := ih (carries.extend keyed stored) inside
    rw [List.append_assoc] at whole
    refine ⟨after, ?_, whole⟩
    rw [List.cons_append, witnessesBefore, List.length_cons, List.getElem?_cons_succ, stored]
    exact listed

theorem witness_length_le {before witness : WorkshareWitness} (distinct : before.templates.Nodup)
    (templates : ∀ template ∈ before.templates, template ∈ witness.templates)
    {share : Workshare} {later : List Workshare}
    (shares : witness.workshares = before.workshares ++ share :: later) :
    before.consensusEncode.length + 263 ≤ witness.consensusEncode.length := by
  have fewer := flatMap_length_le
    (fun template : BlockTemplate => Writer.bytes template.consensusEncode) distinct templates
  have longer : (witness.workshares.flatMap
      (fun share => Writer.bytes share.consensusEncode)).length =
        (before.workshares.flatMap (fun share => Writer.bytes share.consensusEncode)).length +
          (263 + (later.flatMap (fun share => Writer.bytes share.consensusEncode)).length) := by
    rw [shares, List.flatMap_append, List.flatMap_cons, List.length_append, List.length_append,
      Writer.bytes_length, Workshare.consensusEncode_length]
  unfold WorkshareWitness.consensusEncode
  simp only [List.length_append, Writer.u16_length, Writer.count_length]
  omega

theorem prefix_shape {witness before : WorkshareWitness} (shape : WitnessShape witness)
    {earlier later : List Workshare} {share : Workshare}
    (split : witness.workshares = earlier ++ share :: later)
    (carries : Carries (fun id => (templatesById witness.templates)[id]?) earlier before)
    (found : ∀ share ∈ earlier,
      ∃ template, (templatesById witness.templates)[share.templateId]? = some template) :
    WitnessShape before ∧ before.consensusEncode.length + 263 ≤ MAX_WORKSHARE_WITNESS_BYTES := by
  have inside : ∀ template ∈ before.templates, template ∈ witness.templates := by
    intro template member
    obtain ⟨_, _, stored⟩ := (carries.templates template).mp member
    exact (get_templatesById stored).1
  have shorter := witness_length_le carries.sorted.nodup inside (carries.workshares ▸ split)
  have size := shape.size
  exact ⟨⟨carries.version, by omega,
    carries.canonical (keyed_templatesById witness.templates) found,
    fun template member => shape.templates template (inside template member)⟩, by omega⟩

theorem candidate_size {template : BlockTemplate} {share : Workshare} {before : WorkshareWitness}
    {claim : RewardClaim} (templateSize : template.consensusEncode.length ≤ MAX_TEMPLATE_BYTES)
    (witnessSize : before.consensusEncode.length + 263 ≤ MAX_WORKSHARE_WITNESS_BYTES) :
    (Block.mk share.candidateHeader (some claim) template.transactions
      before).consensusEncode.length ≤ MAX_BLOCK_BYTES := by
  unfold BlockTemplate.consensusEncode at templateSize
  simp only [List.length_append, Writer.u16_length, Writer.u64_length, FixedBytes.length_eq,
    MAX_TEMPLATE_BYTES] at templateSize
  unfold Block.consensusEncode
  simp only [List.length_append, BlockHeader.consensusEncode_length, BlockHeader.ENCODED_LEN,
    Writer.u8_length, RewardClaim.consensusEncode_length, Writer.bytes_length, MAX_BLOCK_BYTES]
  simp only [MAX_WORKSHARE_WITNESS_BYTES] at witnessSize
  omega

/-- The three checks of a block that a share can miss. -/
structure Fulfilled (earlier : List Workshare) (share : Workshare) (template : BlockTemplate) :
    Prop where
  transactionCount : template.transactions.length ≤ MAX_BLOCK_TRANSACTIONS
  settled : ∀ other ∈ earlier,
    other.candidateHeader.timestamp ≤ share.candidateHeader.timestamp
  height : share.candidateHeader.height ≠ 0

theorem genesis_no_claim {block : Block} {claim : RewardClaim} (claimed : block.rewardClaim = some claim) :
    block ≠ Block.genesis := by
  intro same
  rw [same] at claimed
  cases claimed

/-- The shares before one settle in its candidate exactly when none is stamped later. -/
theorem prefix_settles_iff {context : ShareContext} {witness before : WorkshareWitness}
    {history : List Block} {state : LedgerState} {pow : PowVerifier} {earlier : List Workshare}
    (settles : SettlesOn witness history state pow context)
    (accepted : validateShares context Hash32.ZERO WorkshareWitness.empty earlier = .ok ())
    (carries : Carries (fun id => context.templates[id]?) earlier before) (settling : UInt64) :
    validateWorkshares before history state pow settling = .ok () ↔
      ∀ other ∈ earlier, other.candidateHeader.timestamp ≤ settling := by
  have keyed : Keyed (fun id => context.templates[id]?) := by
    rw [settles.templates]
    exact keyed_templatesById witness.templates
  constructor
  · intro settled
    rw [← carries.workshares]
    exact validateWorkshares_inTime settled
  · intro inTime
    have same : ∀ share ∈ earlier, (templatesById before.templates)[share.templateId]? =
        context.templates[share.templateId]? := by
      intro share member
      obtain ⟨template, stored⟩ := validateShares_found accepted share member
      rw [carries.lookup keyed member stored, stored]
    have moved := validateShares_moved accepted same inTime
    apply validateWorkshares_ok_iff.mpr
    rw [carries.workshares]
    exact Or.inr ⟨{ context with
        templates := templatesById before.templates, settlingTimestamp := settling },
      ⟨settles.parentLast, settles.seed, settles.expectedBits, settles.blockTarget,
      settles.shareTarget, settles.history, settles.state, settles.oracle, rfl, settles.medianTime⟩,
      rfl, moved⟩

/-- A candidate block whose share passed is valid up to the full target exactly
when the share fulfils the three checks. -/
theorem share_candidate_iff {context : ShareContext} {witness before : WorkshareWitness}
    {history : List Block} {state : LedgerState} {pow : PowVerifier} {earlier later : List Workshare}
    {previous : Hash32} {share : Workshare} {template : BlockTemplate}
    (shape : WitnessShape witness) (settles : SettlesOn witness history state pow context)
    (split : witness.workshares = earlier ++ share :: later)
    (accepted : validateShares context Hash32.ZERO WorkshareWitness.empty earlier = .ok ())
    (carries : Carries (fun id => context.templates[id]?) earlier before)
    (checks : ShareChecks context previous before share template) :
    ∃ block, candidateBlock history template share before = .ok block ∧ ∀ now : UInt64,
      share.candidateHeader.timestamp ≤ saturatingAdd now MAX_FUTURE_BLOCK_TIME →
        ((∃ next, validateCandidate block history state pow now = .ok next) ↔
          Fulfilled earlier share template) := by
  obtain ⟨fees, allocation, transition, hash, feesOk, allocated, transitioned, transactionsRoot,
    stateRoot, workshareRoot, -, -, -⟩ := checks.rest
  obtain ⟨stored, -, templateHeight, -⟩ := shareTemplate_ok checks.templateOk
  rw [settles.history] at allocated transitioned
  rw [settles.state] at transitioned
  rw [settles.templates] at stored
  have found := validateShares_found accepted
  rw [settles.templates] at found
  have height : template.height = share.candidateHeader.height :=
    templateHeight.trans checks.height.symm
  obtain ⟨beforeShape, beforeSize⟩ := prefix_shape shape split (settles.templates ▸ carries) found
  obtain ⟨target, targeted, _, limit⟩ := nextBits_target history
  have bits : share.candidateHeader.bits = nextBits history :=
    checks.bits.trans settles.expectedBits
  let claim := shareClaim template share allocation.finderAmount
  let block : Block := ⟨share.candidateHeader, some claim, template.transactions, before⟩
  refine ⟨block, bind_ok.mpr ⟨fees, feesOk, bind_ok.mpr ⟨allocation, allocated, rfl⟩⟩, ?_⟩
  intro now admitted
  have settled := prefix_settles_iff settles accepted carries share.candidateHeader.timestamp
  constructor
  · intro ⟨next, valid⟩
    have above : block.header.height ≠ 0 := by
      intro ground
      exact genesis_no_claim rfl ((validateCandidate_zero_iff ground).mp valid).1
    obtain ⟨_, _, _, passed, _⟩ := (validateCandidate_ok_iff above).mp valid
    exact ⟨passed.transactionCount, settled.mp passed.workshares, above⟩
  · intro fulfilled
    obtain ⟨_, _, _, _, transitions⟩ := transitionForCandidate_ok_iff.mp transitioned
    refine ⟨transition.state, (validateCandidate_ok_iff fulfilled.height).mpr
      ⟨context.parent, claim, transition, ?_, rfl⟩⟩
    exact
      { parentLast := settles.parentLast
        context := validateHeaderContext_ok_iff.mpr
          { version := checks.headerVersion
            protocol := checks.protocol
            height := checks.height
            previous := checks.parent
            bits
            withinLimit := ⟨target, by rw [← targeted, ← bits], limit⟩
            afterParent := checks.afterParent
            afterMedian := settles.medianTime ▸ checks.afterMedian
            notFuture := admitted }
        blockBytes := candidate_size
          (shape.templates template (get_templatesById stored).1).2 beforeSize
        transactionCount := fulfilled.transactionCount
        transactionsRoot := transactionsRoot.symm
        witnessShape := validateWitnessShape_ok_iff.mpr beforeShape
        workshareRoot := workshareRoot.symm
        seedFound := ⟨context.seed, by rw [← settles.seed, ← checks.height]⟩
        targetValid := ⟨target, by rw [← targeted, ← bits]⟩
        claimPresent := rfl
        claimVersion := rfl
        claimHeight := height
        transitionOk := height ▸ transitioned
        claimAmount := transitions.claimAmount
        stateRoot := stateRoot.symm
        workshares := settled.mpr fulfilled.settled }

/-- Every share of a witness that validation accepts: its candidate block passes
`validate_block`, the full target aside, exactly when its template has at most
4,096 transactions, no earlier share is stamped after it, and its height has not
wrapped to zero. -/
theorem accepted_share_candidate_iff {witness : WorkshareWitness} {history : List Block}
    {state : LedgerState} {pow : PowVerifier} {settling : UInt64}
    (shaped : validateWitnessShape witness = .ok ())
    (accepted : validateWorkshares witness history state pow settling = .ok ())
    {index : Nat} {share : Workshare} (listed : witness.workshares[index]? = some share) :
    ∃ before template block, witness.prefixes[index]? = some before ∧
      template ∈ witness.templates ∧ template.id = share.templateId ∧
      candidateBlock history template share before = .ok block ∧ ∀ now : UInt64,
        share.candidateHeader.timestamp ≤ saturatingAdd now MAX_FUTURE_BLOCK_TIME →
          ((∃ next, validateCandidate block history state pow now = .ok next) ↔
            Fulfilled (witness.workshares.take index) share template) := by
  have shape := validateWitnessShape_ok_iff.mp shaped
  rcases validateWorkshares_ok_iff.mp accepted with none | ⟨context, settles, _, shares⟩
  · rw [none] at listed
    cases listed
  · obtain ⟨bound, same⟩ := List.getElem?_eq_some_iff.mp listed
    have split : witness.workshares = witness.workshares.take index ++ share ::
        witness.workshares.drop (index + 1) := by
      rw [← same, ← List.drop_eq_getElem_cons bound, List.take_append_drop]
    have length : (witness.workshares.take index).length = index := by
      rw [List.length_take]
      omega
    have keyed : Keyed (fun id => context.templates[id]?) := by
      rw [settles.templates]
      exact keyed_templatesById witness.templates
    have whole := shares
    rw [split] at whole
    obtain ⟨first, before, carries, last⟩ :=
      (validateShares_append_ok keyed (Carries.empty _)).mp whole
    rw [List.nil_append] at carries
    obtain ⟨template, checked, -⟩ := validateShares_cons_ok.mp last
    obtain ⟨-, checks⟩ := validateShare_ok_iff.mp checked
    obtain ⟨block, built, decides⟩ := share_candidate_iff shape settles split first carries checks
    obtain ⟨after, position, again⟩ := witnessesBefore_at share
      (witness.workshares.drop (index + 1)) keyed (Carries.empty _) (validateShares_found first)
    rw [List.nil_append] at again
    rw [← split, length, settles.templates] at position
    obtain ⟨stored, -, -, -⟩ := shareTemplate_ok checks.templateOk
    rw [settles.templates] at stored
    obtain ⟨inside, id⟩ := get_templatesById stored
    exact ⟨before, template, block, carries.unique again ▸ position, inside, id, built, decides⟩

omit [Crypto] in
/-- The second of two shares on genesis, and its candidate block, which settles the first. -/
theorem second_share_candidate :
    ∃ (_ : Crypto) (witness before : WorkshareWitness) (template : BlockTemplate) (share : Workshare)
      (block : Block), witness.workshares[1]? = some share ∧ before.workshares.length = 1 ∧
        candidateBlock [Block.genesis] template share before = .ok block ∧
        ∃ next, validateCandidate block [Block.genesis] default byNonce latest = .ok next := by
  let _ := labelled
  have valid : ValidHistory byNonce [Block.genesis] default := .genesis
  have last : [Block.genesis].getLast? = some Block.genesis := rfl
  have short : [Block.genesis].length ≤ 2 ^ 32 := show 1 ≤ 2 ^ 32 by decide
  obtain ⟨final, transitioned⟩ :=
    soleClaim_transition valid onSchedule_genesis short last LedgerState.addressMin
  let timestamp : UInt64 := 1789000000
  let witness := settlingWitness Block.genesis LedgerState.addressMin final.root timestamp 2
  have shape := settlingWitness_shape Block.genesis LedgerState.addressMin final.root timestamp
    (show 0 < 2 by decide) (by decide)
  have settles := settlingWitness_settles valid onSchedule_genesis short last transitioned
    (show 1788984000 + (1 - 1) * 64 < timestamp.toNat by decide) (UInt64.le_refl timestamp) 2
  have listed : witness.workshares[1]? = some _ := rfl
  obtain ⟨before, template, block, position, member, id, built, decides⟩ :=
    accepted_share_candidate_iff (validateWitnessShape_ok_iff.mpr shape) settles listed
  cases List.mem_singleton.mp member
  have one : before =
      settlingWitness Block.genesis LedgerState.addressMin final.root timestamp 1 := by
    rw [settling_prefixes] at position
    exact (Option.some.inj position).symm
  have admitted : timestamp ≤ saturatingAdd latest MAX_FUTURE_BLOCK_TIME := by decide
  have above : (0 : UInt64) + 1 ≠ 0 := by decide
  have settled : ∀ other ∈ witness.workshares.take 1, other.candidateHeader.timestamp ≤ timestamp := by
    intro other inside
    rw [List.mem_singleton.mp inside]
    exact UInt64.le_refl timestamp
  have passes := (decides latest admitted).mpr ⟨Nat.zero_le _, settled, above⟩
  refine ⟨labelled, witness, before, _, _, block, listed, ?_, built, passes⟩
  rw [one]
  exact emptyShares_length _ _ _ _ 1 _ _

/-! Two shares on genesis, the second stamped one second before the first. -/

def lateShare (miner : Address) (stateRoot : Hash32) : Workshare :=
  emptyShare Block.genesis miner stateRoot 1789000001 Hash32.ZERO WorkshareWitness.empty

def earlyShare (miner : Address) (stateRoot : Hash32) : Workshare :=
  emptyShare Block.genesis miner stateRoot 1789000000 (lateShare miner stateRoot).id
    (extendPrefix WorkshareWitness.empty (lateShare miner stateRoot) (emptyTemplate Block.genesis))

def backdatedWitness (miner : Address) (stateRoot : Hash32) : WorkshareWitness :=
  ⟨WorkshareWitness.VERSION, [emptyTemplate Block.genesis],
    [lateShare miner stateRoot, earlyShare miner stateRoot]⟩

theorem backdated_settles {miner : Address} {final : LedgerState}
    (transitioned : transitionForCandidate (Block.genesis.header.height + 1)
      (soleClaim Block.genesis miner) [] [Block.genesis] default =
        .ok ⟨final, ⟨blockSubsidy (Block.genesis.header.height + 1), []⟩, 0⟩) :
    validateWorkshares (backdatedWitness miner final.root) [Block.genesis] default byNonce
      1789000001 = .ok () := by
  have valid : ValidHistory byNonce [Block.genesis] default := .genesis
  have last : [Block.genesis].getLast? = some Block.genesis := rfl
  have short : [Block.genesis].length ≤ 2 ^ 32 := show 1 ≤ 2 ^ 32 by decide
  obtain ⟨context, settles, time, sameParent, ground⟩ := scheduled_settles valid onSchedule_genesis
    short last transitioned (show (backdatedWitness miner final.root).templates = _ from rfl)
    (show 1788984000 + (1 - 1) * 64 < (1789000000 : UInt64).toNat by decide) 1789000001
  have later : QuietContext context miner final 1789000001 :=
    { ground with
      afterParent := UInt64.lt_trans ground.afterParent (by decide)
      afterMedian := UInt64.lt_trans ground.afterMedian (by decide) }
  let share := emptyShare context.parent miner final.root 1789000001 Hash32.ZERO
    WorkshareWitness.empty
  have first := later.checks Hash32.ZERO WorkshareWitness.empty
  have second := ground.checks share.id
    (extendPrefix WorkshareWitness.empty share (emptyTemplate context.parent))
  apply validateWorkshares_ok_iff.mpr
  refine Or.inr ⟨context, settles, time, ?_⟩
  unfold backdatedWitness earlyShare lateShare
  rw [← sameParent]
  have inTime : (1789000001 : UInt64) ≤ context.settlingTimestamp := by rw [time]; decide
  have early : (1789000000 : UInt64) ≤ context.settlingTimestamp := by rw [time]; decide
  exact validateShares_cons_ok.mpr ⟨_, validateShare_ok_iff.mpr ⟨inTime, first⟩,
    validateShares_cons_ok.mpr ⟨_, validateShare_ok_iff.mpr ⟨early, second⟩, rfl⟩⟩

omit [Crypto] in
/-- The candidate of the second share carries a share from after its own time. -/
theorem backdated_share_unsettled :
    ¬∀ (_ : Crypto) (witness : WorkshareWitness) (history : List Block) (state : LedgerState)
      (pow : PowVerifier) (settling : UInt64), validateWitnessShape witness = .ok () →
      validateWorkshares witness history state pow settling = .ok () →
      ∀ (index : Nat) (share : Workshare), witness.workshares[index]? = some share →
        ∃ before template block, witness.prefixes[index]? = some before ∧
          template ∈ witness.templates ∧ template.id = share.templateId ∧
          candidateBlock history template share before = .ok block ∧ ∀ now : UInt64,
            share.candidateHeader.timestamp ≤ saturatingAdd now MAX_FUTURE_BLOCK_TIME →
              ∃ next, validateCandidate block history state pow now = .ok next := by
  intro always
  let _ := labelled
  have valid : ValidHistory byNonce [Block.genesis] default := .genesis
  have last : [Block.genesis].getLast? = some Block.genesis := rfl
  have short : [Block.genesis].length ≤ 2 ^ 32 := show 1 ≤ 2 ^ 32 by decide
  obtain ⟨final, transitioned⟩ :=
    soleClaim_transition valid onSchedule_genesis short last LedgerState.addressMin
  let witness := backdatedWitness LedgerState.addressMin final.root
  have sole : OnEmptyTemplate Block.genesis witness :=
    ⟨rfl, rfl, List.cons_ne_nil _ _, fun share member => by
      rcases List.mem_cons.mp member with rfl | second
      · rfl
      · rw [List.mem_singleton.mp second]
        rfl⟩
  have shape := validateWitnessShape_ok_iff.mpr (sole.shape (show 2 ≤ 15000 by decide))
  obtain ⟨before, template, block, position, member, _, built, decides⟩ :=
    always labelled witness _ _ byNonce _ shape (backdated_settles transitioned) 1
      (earlyShare LedgerState.addressMin final.root) rfl
  obtain ⟨next, passed⟩ := decides latest (show (1789000000 : UInt64) ≤ _ by decide)
  obtain ⟨header, carried⟩ := candidateBlock_ok built
  -- the witness before the second share is that of the first
  have found : ∀ share ∈ [lateShare LedgerState.addressMin final.root],
      ∃ template, (templatesById witness.templates)[share.templateId]? = some template := by
    intro share inside
    rw [List.mem_singleton.mp inside]
    exact ⟨_, get_templatesById_singleton (emptyTemplate Block.genesis)⟩
  obtain ⟨after, listed, carries⟩ := witnessesBefore_at
    (earlyShare LedgerState.addressMin final.root) [] (keyed_templatesById witness.templates)
    (Carries.empty _) found
  have same : before = after := Option.some.inj (position.symm.trans listed)
  have above : block.header.height ≠ 0 := by
    rw [header]
    exact show (0 : UInt64) + 1 ≠ 0 by decide
  obtain ⟨_, _, _, checks, _⟩ := (validateCandidate_ok_iff above).mp passed
  have inTime := validateWorkshares_inTime checks.workshares
  rw [header, carried, same, carries.workshares] at inTime
  have late := inTime (lateShare LedgerState.addressMin final.root) List.mem_cons_self
  have first : (lateShare LedgerState.addressMin final.root).candidateHeader.timestamp =
    1789000001 := rfl
  have second : (earlyShare LedgerState.addressMin final.root).candidateHeader.timestamp =
    1789000000 := rfl
  rw [first, second] at late
  exact absurd late (by decide)

end ParitrNode
