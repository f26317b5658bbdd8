import ParitrNode.Scheduled
import ParitrNode.ShareChain

/-!
Shares on an empty template: any number of them can follow each other on a
scheduled history, and a block can settle them.
-/

namespace ParitrNode
open ByteCodec OrderedMap Checked

variable [Crypto]

def emptyTemplate (parent : Block) : BlockTemplate :=
  ⟨BlockTemplate.VERSION, parent.header.height + 1, parent.id, []⟩

def soleClaim (parent : Block) (miner : Address) : RewardClaim :=
  ⟨RewardClaim.VERSION, parent.header.height + 1, miner, blockSubsidy (parent.header.height + 1), 0⟩

def emptyShare (parent : Block) (miner : Address) (stateRoot : Hash32) (timestamp : UInt64)
    (previous : Hash32) (before : WorkshareWitness) : Workshare :=
  { version := Workshare.VERSION
    previousWorkshare := previous
    templateId := (emptyTemplate parent).id
    miner
    extranonce := 0
    candidateHeader :=
      { version := HEADER_VERSION
        protocol := PROTOCOL_VERSION
        height := parent.header.height + 1
        previousBlock := parent.id
        transactionsRoot := merkleRoot [(soleClaim parent miner).id]
        stateRoot
        workshareRoot := before.root
        timestamp
        bits := targetToBits initialTarget
        nonce := 0 } }

def emptyShares (parent : Block) (miner : Address) (stateRoot : Hash32) (timestamp : UInt64) :
    Nat → Hash32 → WorkshareWitness → List Workshare
  | 0, _, _ => []
  | count + 1, previous, before =>
    let share := emptyShare parent miner stateRoot timestamp previous before
    share :: emptyShares parent miner stateRoot timestamp count share.id
      (extendPrefix before share (emptyTemplate parent))

theorem emptyShares_length (parent : Block) (miner : Address) (stateRoot : Hash32) (timestamp : UInt64)
    (count : Nat) (previous : Hash32) (before : WorkshareWitness) :
    (emptyShares parent miner stateRoot timestamp count previous before).length = count := by
  induction count generalizing previous before with
  | zero => rfl
  | succ count ih => rw [emptyShares, List.length_cons, ih]

theorem emptyShares_template (parent : Block) (miner : Address) (stateRoot : Hash32)
    (timestamp : UInt64) (count : Nat) (previous : Hash32) (before : WorkshareWitness) :
    ∀ share ∈ emptyShares parent miner stateRoot timestamp count previous before,
      share.templateId = (emptyTemplate parent).id := by
  induction count generalizing previous before with
  | zero => exact fun share inside => nomatch inside
  | succ count ih =>
    intro share member
    rw [emptyShares] at member
    cases List.mem_cons.mp member with
    | inl same => exact same ▸ rfl
    | inr inside => exact ih _ _ share inside

theorem emptyShares_miner (parent : Block) (miner : Address) (stateRoot : Hash32) (timestamp : UInt64)
    (count : Nat) (previous : Hash32) (before : WorkshareWitness) :
    ∀ share ∈ emptyShares parent miner stateRoot timestamp count previous before, share.miner = miner := by
  induction count generalizing previous before with
  | zero => exact fun share inside => nomatch inside
  | succ count ih =>
    intro share member
    rw [emptyShares] at member
    cases List.mem_cons.mp member with
    | inl same => exact same ▸ rfl
    | inr inside => exact ih _ _ share inside

/-! A share is not a block: its hash lies between the two targets. -/

def launchShareTarget : Nat := 0x7fffe0 <<< 224

omit [Crypto] in
theorem workshareBits_launch : workshareBits (targetToBits initialTarget) = some 0x1f7fffe0 := by
  decide +kernel

omit [Crypto] in
theorem bitsToTarget_share : bitsToTarget 0x1f7fffe0 = some launchShareTarget := by decide +kernel

def shareHash : Hash32 := FixedBytes.ofNat 32 (launchTarget + 1)

omit [Crypto] in
theorem leValue_shareHash : leValue shareHash.bytes = launchTarget + 1 :=
  leValue_leBytes 32 (launchTarget + 1) (by decide +kernel)

/-- An oracle that tells headers apart by their nonce: zero is a share, anything
else a block. -/
def byNonce : PowVerifier :=
  ⟨fun _ input => .ok (if input.drop 152 = Writer.u64 0 then shareHash else Hash32.ZERO)⟩

omit [Crypto] in
theorem byNonce_share (seed : Bytes) {header : BlockHeader} (zero : header.nonce = 0) :
    byNonce.hash seed header.consensusEncode = .ok shareHash := by
  change Except.ok (if header.consensusEncode.drop 152 = Writer.u64 0 then shareHash else _) = _
  rw [header.drop_nonce, zero, if_pos rfl]

omit [Crypto] in
theorem byNonce_block (seed : Bytes) {header : BlockHeader} (nonzero : header.nonce ≠ 0) :
    byNonce.hash seed header.consensusEncode = .ok Hash32.ZERO := by
  change Except.ok (if header.consensusEncode.drop 152 = Writer.u64 0 then _ else Hash32.ZERO) = _
  rw [header.drop_nonce, if_neg (fun same => nonzero (Writer.u64_injective same))]

/-- What an empty share needs from the context it is checked in. -/
structure QuietContext (context : ShareContext) (miner : Address) (final : LedgerState)
    (timestamp : UInt64) : Prop where
  bits : context.expectedBits = targetToBits initialTarget
  quiet : windowShares context.parentHistory = []
  blockTarget : context.blockTarget = launchTarget
  shareTarget : context.shareTarget = launchShareTarget
  oracle : ∀ header : BlockHeader, header.nonce = 0 →
    context.pow.hash context.seed header.consensusEncode = .ok shareHash
  template : context.templates[(emptyTemplate context.parent).id]? = some (emptyTemplate context.parent)
  transition : transitionForCandidate (context.parent.header.height + 1)
    (soleClaim context.parent miner) [] context.parentHistory context.parentState =
      .ok ⟨final, ⟨blockSubsidy (context.parent.header.height + 1), []⟩, 0⟩
  afterParent : context.parent.header.timestamp < timestamp
  afterMedian : context.medianTime < timestamp

theorem QuietContext.checks {context : ShareContext} {miner : Address} {final : LedgerState}
    {timestamp : UInt64} (ground : QuietContext context miner final timestamp) (previous : Hash32)
    (before : WorkshareWitness) :
    ShareChecks context previous before
      (emptyShare context.parent miner final.root timestamp previous before)
      (emptyTemplate context.parent) where
  version := rfl
  linked := rfl
  headerVersion := rfl
  protocol := rfl
  height := rfl
  parent := rfl
  bits := ground.bits.symm
  afterParent := ground.afterParent
  afterMedian := ground.afterMedian
  templateOk := by
    unfold shareTemplate
    simp only [bind_ok, okOr_ok, guard_ok, not_or, Decidable.not_not]
    exact ⟨_, ground.template, ⟨rfl, rfl, rfl⟩, rfl⟩
  rest := by
    refine ⟨0, ⟨blockSubsidy (context.parent.header.height + 1), []⟩, _, shareHash, rfl,
      rewardAllocation_alone _ _ ground.quiet, ground.transition, rfl, rfl, rfl, ?_, ?_, ?_⟩
    · unfold powHash
      rw [ground.oracle _ rfl]
    · rw [ground.shareTarget]
      unfold hashMeetsTarget
      rw [leValue_shareHash]
      decide +kernel
    · rw [ground.blockTarget]
      unfold hashMeetsTarget
      rw [leValue_shareHash]
      omega

theorem QuietContext.shares_ok {context : ShareContext} {miner : Address} {final : LedgerState}
    {timestamp : UInt64} (ground : QuietContext context miner final timestamp)
    (settled : timestamp ≤ context.settlingTimestamp) (count : Nat) (previous : Hash32)
    (before : WorkshareWitness) :
    validateShares context previous before
      (emptyShares context.parent miner final.root timestamp count previous before) = .ok () := by
  induction count generalizing previous before with
  | zero => rfl
  | succ count ih =>
    exact validateShares_cons_ok.mpr ⟨emptyTemplate context.parent,
      validateShare_ok_iff.mpr ⟨settled, ground.checks previous before⟩, ih _ _⟩

theorem get_templatesById_singleton (template : BlockTemplate) :
    (templatesById [template])[template.id]? = some template :=
  get_insert_self ∅ template.id template

theorem tip_succ {pow : PowVerifier} {history : List Block} {state : LedgerState} {parent : Block}
    (valid : ValidHistory pow history state) (short : history.length ≤ 2 ^ 32)
    (last : history.getLast? = some parent) : (parent.header.height + 1).toNat = history.length := by
  have tip := valid.tipHeight last
  have one : (1 : UInt64).toNat = 1 := rfl
  rw [toNat_add (by omega)]
  omega

theorem soleClaim_transition {pow : PowVerifier} {history : List Block} {state : LedgerState}
    {parent : Block} (valid : ValidHistory pow history state) (scheduled : OnSchedule history)
    (short : history.length ≤ 2 ^ 32) (last : history.getLast? = some parent) (miner : Address) :
    ∃ final, transitionForCandidate (parent.header.height + 1) (soleClaim parent miner) [] history
      state = .ok ⟨final, ⟨blockSubsidy (parent.header.height + 1), []⟩, 0⟩ :=
  transition_empty valid short scheduled.windowShares (tip_succ valid short last)
    (soleClaim parent miner) rfl

theorem OnSchedule.timestamp_le {pow : PowVerifier} {history : List Block} {state : LedgerState}
    (scheduled : OnSchedule history) (valid : ValidHistory pow history state) :
    ∀ block ∈ history, block.header.timestamp.toNat ≤ 1788984000 + (history.length - 1) * 64 := by
  intro block member
  obtain ⟨index, bound, same⟩ := List.mem_iff_getElem.mp member
  have position := (valid.linked index block (by rw [List.getElem?_eq_getElem bound, same])).height
  rw [scheduled.timestamp block member, position]
  omega

/-- On a scheduled history an empty share with a late enough timestamp passes
every check, whatever block settles it. -/
theorem scheduled_settles {history : List Block} {state : LedgerState} {parent : Block}
    (valid : ValidHistory byNonce history state) (scheduled : OnSchedule history)
    (short : history.length ≤ 2 ^ 32) (last : history.getLast? = some parent) {miner : Address}
    {final : LedgerState}
    (transitioned : transitionForCandidate (parent.header.height + 1) (soleClaim parent miner) []
      history state = .ok ⟨final, ⟨blockSubsidy (parent.header.height + 1), []⟩, 0⟩)
    {witness : WorkshareWitness} (templates : witness.templates = [emptyTemplate parent])
    {timestamp : UInt64} (late : 1788984000 + (history.length - 1) * 64 < timestamp.toNat)
    (settling : UInt64) :
    ∃ context, SettlesOn witness history state byNonce context ∧
      context.settlingTimestamp = settling ∧ context.parent = parent ∧
      QuietContext context miner final timestamp := by
  have before := scheduled.timestamp_le valid
  have median := medianTimePast_le before
  have parentTime := before parent (List.mem_of_getLast? last)
  obtain ⟨seed, seeded⟩ := randomxSeed_found valid.linked (tip_succ valid short last)
  have bits := scheduled.nextBits valid
  refine ⟨⟨history, state, parent, templatesById witness.templates, byNonce, seed, nextBits history,
    launchTarget, launchShareTarget, medianTimePast history, settling⟩, ?_, rfl, rfl, ?_⟩
  · exact
      { parentLast := last
        seed := seeded
        expectedBits := rfl
        blockTarget := by rw [bits, bitsToTarget_launch]
        shareTarget := ⟨_, by rw [bits, workshareBits_launch], bitsToTarget_share⟩
        history := rfl
        state := rfl
        oracle := rfl
        templates := rfl
        medianTime := rfl }
  · exact
      { bits
        quiet := scheduled.windowShares
        blockTarget := rfl
        shareTarget := rfl
        oracle := fun header zero => byNonce_share seed zero
        template := by rw [templates, get_templatesById_singleton]
        transition := transitioned
        afterParent := UInt64.lt_iff_toNat_lt.mpr (by dsimp only; omega)
        afterMedian := UInt64.lt_iff_toNat_lt.mpr (by dsimp only; omega) }

/-! A block on genesis that settles a given number of shares of one empty template. -/

def settlingWitness (parent : Block) (miner : Address) (stateRoot : Hash32) (timestamp : UInt64)
    (count : Nat) : WorkshareWitness :=
  { version := WorkshareWitness.VERSION
    templates := [emptyTemplate parent]
    workshares := emptyShares parent miner stateRoot timestamp count Hash32.ZERO
      WorkshareWitness.empty }

def settlingBlock (parent : Block) (miner : Address) (stateRoot : Hash32) (timestamp : UInt64)
    (witness : WorkshareWitness) : Block :=
  { header :=
      { version := HEADER_VERSION
        protocol := PROTOCOL_VERSION
        height := parent.header.height + 1
        previousBlock := parent.id
        transactionsRoot := merkleRoot [(soleClaim parent miner).id]
        stateRoot
        workshareRoot := witness.root
        timestamp
        bits := targetToBits initialTarget
        nonce := 1 }
    rewardClaim := some (soleClaim parent miner)
    transactions := []
    workshareWitness := witness }

theorem settlingWitness_templates (parent : Block) (miner : Address) (stateRoot : Hash32)
    (timestamp : UInt64) (count : Nat) :
    (settlingWitness parent miner stateRoot timestamp count).templates = [emptyTemplate parent] := rfl

/-- The witness of shares that all refer to the empty template. -/
structure OnEmptyTemplate (parent : Block) (witness : WorkshareWitness) : Prop where
  version : witness.version = WorkshareWitness.VERSION
  templates : witness.templates = [emptyTemplate parent]
  nonempty : witness.workshares ≠ []
  each : ∀ share ∈ witness.workshares, share.templateId = (emptyTemplate parent).id

namespace OnEmptyTemplate

variable {parent : Block} {witness : WorkshareWitness}

theorem canonical (sole : OnEmptyTemplate parent witness) : witness.isCanonical = true := by
  obtain ⟨first, inside⟩ := List.exists_mem_of_ne_nil _ sole.nonempty
  unfold WorkshareWitness.isCanonical
  rw [sole.templates]
  dsimp only
  rw [if_neg (by simp), Bool.and_eq_true, List.all_eq_true, List.all_eq_true]
  constructor
  · intro id member
    obtain ⟨share, listed, rfl⟩ := List.mem_map.mp member
    rw [sole.each share listed]
    exact decide_eq_true (List.mem_map.mpr ⟨_, List.mem_singleton_self _, rfl⟩)
  · intro id member
    rw [List.map_singleton, List.mem_singleton] at member
    exact decide_eq_true
      (List.mem_map.mpr ⟨first, inside, (sole.each first inside).trans member.symm⟩)

theorem length (sole : OnEmptyTemplate parent witness) :
    witness.consensusEncode.length = 60 + witness.workshares.length * 263 := by
  have shares : (witness.workshares.flatMap
      fun share => Writer.bytes share.consensusEncode).length = witness.workshares.length * 263 := by
    rw [flatMap_length_const 263]
    intro share _
    simp
  have templates : (witness.templates.flatMap
      fun template => Writer.bytes template.consensusEncode).length = 50 := by
    simp [sole.templates, emptyTemplate, BlockTemplate.consensusEncode, encodeTransactions]
  unfold WorkshareWitness.consensusEncode
  simp only [List.length_append, Writer.u16_length, Writer.count_length, shares, templates]
  omega

theorem shape (sole : OnEmptyTemplate parent witness) (bound : witness.workshares.length ≤ 15000) :
    WitnessShape witness where
  version := sole.version
  size := by
    rw [sole.length]
    simp only [MAX_WORKSHARE_WITNESS_BYTES]
    omega
  canonical := sole.canonical
  templates := by
    intro template member
    rw [sole.templates] at member
    rw [List.mem_singleton.mp member]
    exact ⟨rfl, by simp [emptyTemplate, BlockTemplate.consensusEncode, encodeTransactions,
      MAX_TEMPLATE_BYTES]⟩

end OnEmptyTemplate

theorem settlingWitness_sole (parent : Block) (miner : Address) (stateRoot : Hash32)
    (timestamp : UInt64) {count : Nat} (positive : 0 < count) :
    OnEmptyTemplate parent (settlingWitness parent miner stateRoot timestamp count) where
  version := rfl
  templates := rfl
  nonempty := by
    apply List.ne_nil_of_length_pos
    change 0 < (emptyShares _ _ _ _ _ _ _).length
    rwa [emptyShares_length]
  each := emptyShares_template parent miner stateRoot timestamp count _ _

theorem settlingWitness_length (parent : Block) (miner : Address) (stateRoot : Hash32)
    (timestamp : UInt64) {count : Nat} (positive : 0 < count) :
    (settlingWitness parent miner stateRoot timestamp count).consensusEncode.length =
      60 + count * 263 := by
  rw [(settlingWitness_sole parent miner stateRoot timestamp positive).length, settlingWitness,
    emptyShares_length]

theorem settlingWitness_shape (parent : Block) (miner : Address) (stateRoot : Hash32)
    (timestamp : UInt64) {count : Nat} (positive : 0 < count) (bound : count ≤ 15000) :
    WitnessShape (settlingWitness parent miner stateRoot timestamp count) := by
  apply (settlingWitness_sole parent miner stateRoot timestamp positive).shape
  change (emptyShares _ _ _ _ _ _ _).length ≤ 15000
  rwa [emptyShares_length]

theorem settlingWitness_settles {history : List Block} {state : LedgerState} {parent : Block}
    (valid : ValidHistory byNonce history state) (scheduled : OnSchedule history)
    (short : history.length ≤ 2 ^ 32) (last : history.getLast? = some parent) {miner : Address}
    {final : LedgerState}
    (transitioned : transitionForCandidate (parent.header.height + 1) (soleClaim parent miner) []
      history state = .ok ⟨final, ⟨blockSubsidy (parent.header.height + 1), []⟩, 0⟩)
    {timestamp settling : UInt64} (late : 1788984000 + (history.length - 1) * 64 < timestamp.toNat)
    (settled : timestamp ≤ settling) (count : Nat) :
    validateWorkshares (settlingWitness parent miner final.root timestamp count) history state
      byNonce settling = .ok () := by
  obtain ⟨context, settles, time, sameParent, ground⟩ := scheduled_settles valid scheduled short last
    transitioned (settlingWitness_templates parent miner final.root timestamp count) late settling
  refine validateWorkshares_ok_iff.mpr (Or.inr ⟨context, settles, time, ?_⟩)
  rw [← sameParent]
  exact ground.shares_ok (time ▸ settled) count Hash32.ZERO WorkshareWitness.empty

/-- Validation accepts any number of shares that fits the witness size. -/
theorem settlingBlock_accepted {history : List Block} {state : LedgerState} {parent : Block}
    (valid : ValidHistory byNonce history state) (scheduled : OnSchedule history)
    (short : history.length ≤ 2 ^ 32) (last : history.getLast? = some parent) (miner : Address)
    {timestamp now : UInt64} (late : 1788984000 + (history.length - 1) * 64 < timestamp.toNat)
    (past : timestamp ≤ now) {count : Nat} (positive : 0 < count) (bound : count ≤ 15000) :
    ∃ final, Accepted (settlingBlock parent miner final.root timestamp
      (settlingWitness parent miner final.root timestamp count)) history state byNonce now final := by
  obtain ⟨final, transitioned⟩ := soleClaim_transition valid scheduled short last miner
  obtain ⟨seed, seeded⟩ := randomxSeed_found valid.linked (tip_succ valid short last)
  have before := scheduled.timestamp_le valid
  have median := medianTimePast_le before
  have parentTime := before parent (List.mem_of_getLast? last)
  have bits := scheduled.nextBits valid
  have size := settlingWitness_length parent miner final.root timestamp positive
  have shares := settlingWitness_settles valid scheduled short last transitioned late
    (UInt64.le_refl timestamp) count
  have allowance := le_saturatingAdd now MAX_FUTURE_BLOCK_TIME
  rw [UInt64.le_iff_toNat_le] at past
  refine ⟨final, parent, seed, launchTarget, soleClaim parent miner,
    ⟨final, ⟨blockSubsidy (parent.header.height + 1), []⟩, 0⟩, ?_, rfl⟩
  exact
    { parentLast := last
      context := validateHeaderContext_ok_iff.mpr
        { version := rfl
          protocol := rfl
          height := rfl
          previous := rfl
          bits := bits.symm
          withinLimit := ⟨launchTarget, bitsToTarget_launch, by decide +kernel⟩
          afterParent := UInt64.lt_iff_toNat_lt.mpr (by dsimp only [settlingBlock]; omega)
          afterMedian := UInt64.lt_iff_toNat_lt.mpr (by dsimp only [settlingBlock]; omega)
          notFuture := UInt64.le_iff_toNat_le.mpr (by dsimp only [settlingBlock]; omega) }
      blockBytes := by
        simp only [Block.consensusEncode, settlingBlock, encodeTransactions, List.length_append,
          BlockHeader.consensusEncode_length, BlockHeader.ENCODED_LEN, Writer.u8_length,
          RewardClaim.consensusEncode_length, Writer.count_length, List.flatMap_nil, List.length_nil,
          Writer.bytes_length, size, MAX_BLOCK_BYTES]
        omega
      transactionCount := Nat.zero_le _
      transactionsRoot := rfl
      witnessShape := validateWitnessShape_ok_iff.mpr
        (settlingWitness_shape parent miner final.root timestamp positive bound)
      workshareRoot := rfl
      seedFound := seeded
      targetValid := bitsToTarget_launch
      proofOfWork := verifyPow_ok.mpr
        ⟨Hash32.ZERO, byNonce_block seed (fun zero => nomatch zero), by decide +kernel⟩
      claimPresent := rfl
      claimVersion := rfl
      claimHeight := rfl
      transitionOk := transitioned
      claimAmount := rfl
      stateRoot := rfl
      workshares := shares }

end ParitrNode
