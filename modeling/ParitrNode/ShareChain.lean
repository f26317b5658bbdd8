import ParitrNode.Acceptance

/-!
What an accepted witness has checked: each share on the one before it, on a
template whose transactions apply to the parent state.
-/

namespace ParitrNode
open ByteCodec OrderedMap Checked

variable [Crypto]

/-- Every check of one share except its timestamp against the settling block. -/
structure ShareChecks (context : ShareContext) (previous : Hash32) (before : WorkshareWitness)
    (share : Workshare) (template : BlockTemplate) : Prop where
  version : share.version = Workshare.VERSION
  linked : share.previousWorkshare = previous
  headerVersion : share.candidateHeader.version = HEADER_VERSION
  protocol : share.candidateHeader.protocol = PROTOCOL_VERSION
  height : share.candidateHeader.height = context.parent.header.height + 1
  parent : share.candidateHeader.previousBlock = context.parent.id
  bits : share.candidateHeader.bits = context.expectedBits
  afterParent : context.parent.header.timestamp < share.candidateHeader.timestamp
  afterMedian : context.medianTime < share.candidateHeader.timestamp
  templateOk : shareTemplate context share = .ok template
  rest : ∃ fees allocation transition hash, templateFees template.transactions = .ok fees ∧
    rewardAllocation template.height share.miner fees context.parentHistory = .ok allocation ∧
    transitionForCandidate template.height (shareClaim template share allocation.finderAmount)
      template.transactions context.parentHistory context.parentState = .ok transition ∧
    share.candidateHeader.transactionsRoot =
      merkleRoot ((shareClaim template share allocation.finderAmount).id ::
        template.transactions.map Transaction.id) ∧
    share.candidateHeader.stateRoot = transition.state.root ∧
    share.candidateHeader.workshareRoot = before.root ∧
    powHash context.pow context.seed share.candidateHeader = .ok hash ∧
    hashMeetsTarget hash context.shareTarget ∧ ¬hashMeetsTarget hash context.blockTarget

theorem validateShare_ok_iff {context : ShareContext} {previous : Hash32} {before : WorkshareWitness}
    {share : Workshare} {template : BlockTemplate} :
    validateShare context previous before share = .ok template ↔
      share.candidateHeader.timestamp ≤ context.settlingTimestamp ∧
        ShareChecks context previous before share template := by
  unfold validateShare shareMisplaced
  simp only [guard_ok, bind_ok, not_or, Decidable.not_not, gt_iff_lt, UInt64.not_lt, UInt64.not_le]
  constructor
  · intro accepted
    obtain ⟨⟨version, linked, headerVersion, protocol, height, parent, bits, afterParent, afterMedian,
      settled⟩, template', templateOk, fees, feesOk, allocation, allocated, transition, transitioned,
      ⟨transactionsRoot, stateRoot, workshareRoot⟩, hash, hashed, ⟨meets, misses⟩, result⟩ := accepted
    cases result
    exact ⟨settled, version, linked, headerVersion, protocol, height, parent, bits, afterParent,
      afterMedian, templateOk, fees, allocation, transition, hash, feesOk, allocated, transitioned,
      transactionsRoot, stateRoot, workshareRoot, hashed, meets, misses⟩
  · intro accepted
    obtain ⟨settled, checks⟩ := accepted
    obtain ⟨fees, allocation, transition, hash, feesOk, allocated, transitioned, transactionsRoot,
      stateRoot, workshareRoot, hashed, meets, misses⟩ := checks.rest
    exact ⟨⟨checks.version, checks.linked, checks.headerVersion, checks.protocol, checks.height,
      checks.parent, checks.bits, checks.afterParent, checks.afterMedian, settled⟩, template,
      checks.templateOk, fees, feesOk, allocation, allocated, transition, transitioned,
      ⟨transactionsRoot, stateRoot, workshareRoot⟩, hash, hashed, ⟨meets, misses⟩, rfl⟩

omit [Crypto] in
theorem powHash_ok {pow : PowVerifier} {seed : Bytes} {header : BlockHeader} {hash : Hash32} :
    powHash pow seed header = .ok hash ↔ pow.hash seed header.consensusEncode = .ok hash := by
  unfold powHash
  cases pow.hash seed header.consensusEncode with
  | error reason => exact ⟨fun found => (nomatch found), fun found => (nomatch found)⟩
  | ok found => exact ⟨fun same => congrArg Except.ok (Except.ok.inj same),
      fun same => congrArg Except.ok (Except.ok.inj same)⟩

theorem validateShares_cons_ok {context : ShareContext} {previous : Hash32}
    {before : WorkshareWitness} {share : Workshare} {rest : List Workshare} :
    validateShares context previous before (share :: rest) = .ok () ↔
      ∃ template, validateShare context previous before share = .ok template ∧
        validateShares context share.id (extendPrefix before share template) rest = .ok () := by
  rw [validateShares]
  exact bind_ok

theorem validateShares_ok {context : ShareContext} {previous : Hash32} {before : WorkshareWitness}
    {shares : List Workshare} (accepted : validateShares context previous before shares = .ok ()) :
    ∀ share ∈ shares, ∃ previous before template,
      validateShare context previous before share = .ok template := by
  induction shares generalizing previous before with
  | nil => exact fun share inside => nomatch inside
  | cons first rest ih =>
    obtain ⟨template, head, tail⟩ := validateShares_cons_ok.mp accepted
    intro share member
    cases List.mem_cons.mp member with
    | inl same => exact ⟨previous, before, template, same ▸ head⟩
    | inr inside => exact ih tail share inside

/-- What the shares of a witness are checked against on top of a history. -/
structure SettlesOn (witness : WorkshareWitness) (parentHistory : List Block)
    (parentState : LedgerState) (pow : PowVerifier) (context : ShareContext) : Prop where
  parentLast : parentHistory.getLast? = some context.parent
  seed : randomxSeed parentHistory (context.parent.header.height + 1) = .ok context.seed
  expectedBits : context.expectedBits = nextBits parentHistory
  blockTarget : bitsToTarget context.expectedBits = some context.blockTarget
  shareTarget : ∃ bits, workshareBits context.expectedBits = some bits ∧
    bitsToTarget bits = some context.shareTarget
  history : context.parentHistory = parentHistory
  state : context.parentState = parentState
  oracle : context.pow = pow
  templates : context.templates = templatesById witness.templates
  medianTime : context.medianTime = medianTimePast parentHistory

theorem validateWorkshares_ok_iff {witness : WorkshareWitness} {parentHistory : List Block}
    {parentState : LedgerState} {pow : PowVerifier} {settlingTimestamp : UInt64} :
    validateWorkshares witness parentHistory parentState pow settlingTimestamp = .ok () ↔
      witness.workshares = [] ∨
        ∃ context, SettlesOn witness parentHistory parentState pow context ∧
          context.settlingTimestamp = settlingTimestamp ∧
          validateShares context Hash32.ZERO WorkshareWitness.empty witness.workshares = .ok () := by
  unfold validateWorkshares
  by_cases none : witness.workshares = []
  · rw [if_pos none]
    exact ⟨fun _ => Or.inl none, fun _ => rfl⟩
  · rw [if_neg none]
    simp only [bind_ok, okOr_ok]
    constructor
    · intro accepted
      obtain ⟨parent, last, seed, seeded, blockTarget, target, shareBits, bits, shareTarget, shared,
        shares⟩ := accepted
      exact Or.inr ⟨⟨parentHistory, parentState, parent, templatesById witness.templates, pow, seed,
        nextBits parentHistory, blockTarget, shareTarget, medianTimePast parentHistory,
        settlingTimestamp⟩,
        ⟨last, seeded, rfl, target, ⟨shareBits, bits, shared⟩, rfl, rfl, rfl, rfl, rfl⟩, rfl, shares⟩
    · intro accepted
      cases accepted with
      | inl empty => exact absurd empty none
      | inr settled =>
        obtain ⟨context, settles, time, shares⟩ := settled
        obtain ⟨last, seeded, expected, target, ⟨shareBits, bits, shared⟩, history, state, oracle,
          templates, median⟩ := settles
        obtain ⟨parentHistory', parentState', parent, templates', pow', seed, expectedBits,
          blockTarget, shareTarget, medianTime, settling⟩ := context
        dsimp only at *
        subst expected history state oracle templates median time
        exact ⟨parent, last, seed, seeded, blockTarget, target, shareBits, bits, shareTarget, shared,
          shares⟩

theorem validateWorkshares_bits {witness : WorkshareWitness} {history : List Block}
    {state : LedgerState} {pow : PowVerifier} {settling : UInt64}
    (accepted : validateWorkshares witness history state pow settling = .ok ()) :
    ∀ share ∈ witness.workshares, share.candidateHeader.bits = nextBits history := by
  intro share member
  rcases validateWorkshares_ok_iff.mp accepted with none | ⟨context, settles, _, shares⟩
  · rw [none] at member
    cases member
  · obtain ⟨_, _, _, checked⟩ := validateShares_ok shares share member
    exact (validateShare_ok_iff.mp checked).2.bits.trans settles.expectedBits

/-! Templates by id. -/

theorem get_templatesById {templates : List BlockTemplate} {id : Hash32} {template : BlockTemplate}
    (found : (templatesById templates)[id]? = some template) :
    template ∈ templates ∧ template.id = id := by
  have general : ∀ map : BTreeMap Hash32 BlockTemplate,
      (templates.foldl (fun map template => map.insert template.id template) map)[id]? =
        some template → map[id]? = some template ∨ template ∈ templates ∧ template.id = id := by
    clear found
    induction templates with
    | nil => exact fun map found => Or.inl found
    | cons first rest ih =>
      intro map found
      cases ih (map.insert first.id first) found with
      | inl earlier =>
        rw [get_insert] at earlier
        split at earlier
        next same =>
          cases earlier
          exact Or.inr ⟨List.mem_cons_self, same⟩
        next => exact Or.inl earlier
      | inr later => exact Or.inr ⟨List.mem_cons_of_mem _ later.1, later.2⟩
  cases general ∅ found with
  | inl impossible =>
    rw [get_empty] at impossible
    cases impossible
  | inr known => exact known

theorem shareTemplate_ok {context : ShareContext} {share : Workshare} {template : BlockTemplate}
    (accepted : shareTemplate context share = .ok template) :
    context.templates[share.templateId]? = some template ∧
      template.version = BlockTemplate.VERSION ∧
      template.height = context.parent.header.height + 1 ∧ template.parent = context.parent.id := by
  unfold shareTemplate at accepted
  simp only [bind_ok, okOr_ok, guard_ok, not_or, Decidable.not_not] at accepted
  obtain ⟨found, present, placed, result⟩ := accepted
  cases result
  exact ⟨present, placed⟩

/-! Canonical witnesses: strictly increasing template ids, all of them referenced. -/

omit [Crypto] in
theorem pairwise_of_zip_tail {ids : List Hash32}
    (neighbours : ∀ pair ∈ ids.zip ids.tail, pair.1 < pair.2) : ids.Pairwise (· < ·) := by
  induction ids with
  | nil => exact List.Pairwise.nil
  | cons first rest ih =>
    cases rest with
    | nil => exact List.pairwise_singleton _ _
    | cons second rest =>
      have tail := ih (fun pair member => neighbours pair (List.mem_cons_of_mem _ member))
      have head : first < second := neighbours (first, second) List.mem_cons_self
      refine List.Pairwise.cons ?_ tail
      intro other member
      cases List.mem_cons.mp member with
      | inl same => exact same ▸ head
      | inr inside =>
        exact FixedBytes.lt_trans head (List.rel_of_pairwise_cons tail inside)

theorem isCanonical_ok {witness : WorkshareWitness} (canonical : witness.isCanonical = true) :
    (witness.templates.map BlockTemplate.id).Pairwise (· < ·) ∧
      ∀ template ∈ witness.templates, template.id ∈ witness.workshares.map Workshare.templateId := by
  unfold WorkshareWitness.isCanonical at canonical
  dsimp only at canonical
  split at canonical
  · cases canonical
  · next sorted =>
    rw [Bool.and_eq_true, List.all_eq_true, List.all_eq_true] at canonical
    refine ⟨pairwise_of_zip_tail ?_, ?_⟩
    · intro pair member
      have order := fun unsorted => sorted (List.any_eq_true.mpr ⟨pair, member, unsorted⟩)
      cases relation : compare pair.1 pair.2 with
      | lt => exact relation
      | eq => exact absurd (by rw [relation]; rfl) order
      | gt => exact absurd (by rw [relation]; rfl) order
    · intro template member
      exact of_decide_eq_true (canonical.2 template.id (List.mem_map.mpr ⟨template, member, rfl⟩))

theorem isCanonical_nodup {witness : WorkshareWitness} (canonical : witness.isCanonical = true) :
    (witness.templates.map BlockTemplate.id).Nodup := by
  refine (isCanonical_ok canonical).1.imp ?_
  intro first second below same
  exact FixedBytes.lt_irrefl first (by rwa [same] at below ⊢)

structure WitnessShape (witness : WorkshareWitness) : Prop where
  version : witness.version = WorkshareWitness.VERSION
  size : witness.consensusEncode.length ≤ MAX_WORKSHARE_WITNESS_BYTES
  canonical : witness.isCanonical = true
  templates : ∀ template ∈ witness.templates, template.version = BlockTemplate.VERSION ∧
    template.consensusEncode.length ≤ MAX_TEMPLATE_BYTES

theorem validateWitnessShape_ok_iff {witness : WorkshareWitness} :
    validateWitnessShape witness = .ok () ↔ WitnessShape witness := by
  unfold validateWitnessShape
  simp only [guard_ok, not_or, Decidable.not_not, Nat.not_lt, gt_iff_lt, Bool.not_eq_false,
    List.any_eq_true, decide_eq_true_eq, not_exists, not_and, and_true]
  constructor
  · intro accepted
    obtain ⟨⟨version, size, canonical⟩, templates⟩ := accepted
    exact ⟨version, size, canonical, templates⟩
  · intro shape
    exact ⟨⟨shape.version, shape.size, shape.canonical⟩, shape.templates⟩

end ParitrNode
