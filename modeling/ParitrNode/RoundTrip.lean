import ParitrNode.ScheduledShares
import ParitrNode.WireFormat

/-!
The wire format of accepted blocks: every object within the decoder's limits
decodes to itself, and a decoded block is within them.
-/

namespace ParitrNode
open ByteCodec OrderedMap Checked

variable [Crypto]

/-! What validation checks, seen from the decoder. -/

theorem WellFormed.fits {transaction : Transaction} (formed : WellFormed transaction) :
    transaction.Fits := by
  have key := formed.keyLength
  have signature := formed.signatureLength
  exact ⟨by omega, by omega⟩

theorem transactionsFit_of_wellFormed {transactions : List Transaction}
    (count : transactions.length ≤ MAX_BLOCK_TRANSACTIONS)
    (formed : ∀ transaction ∈ transactions, WellFormed transaction) :
    TransactionsFit transactions :=
  ⟨count, fun transaction member => (formed transaction member).fits⟩

structure WorkshareWitness.Bounded (witness : WorkshareWitness) : Prop where
  templates : witness.templates.length ≤ MAX_TEMPLATES_PER_BLOCK
  workshares : witness.workshares.length ≤ MAX_WORKSHARES_PER_BLOCK
  templateBytes : ∀ template ∈ witness.templates, template.consensusEncode.length ≤ MAX_TEMPLATE_BYTES
  transactions : ∀ template ∈ witness.templates,
    template.transactions.length ≤ MAX_BLOCK_TRANSACTIONS
  formed : ∀ template ∈ witness.templates, ∀ transaction ∈ template.transactions,
    WellFormed transaction

theorem WorkshareWitness.Bounded.fits {witness : WorkshareWitness} (bounded : witness.Bounded) :
    witness.Fits where
  templates := bounded.templates
  workshares := bounded.workshares
  transactions template member := transactionsFit_of_wellFormed
    (bounded.transactions template member) (bounded.formed template member)
  templateBytes := bounded.templateBytes

/-- The counts the decoder of a witness checks. -/
def WithinCounts (block : Block) : Prop :=
  block.workshareWitness.workshares.length ≤ MAX_WORKSHARES_PER_BLOCK ∧
    ∀ template ∈ block.workshareWitness.templates,
      template.transactions.length ≤ MAX_BLOCK_TRANSACTIONS

theorem Block.Fits.withinCounts {block : Block} (fits : block.Fits) : WithinCounts block :=
  ⟨fits.witness.workshares, fun template member => (fits.witness.transactions template member).count⟩

theorem decoded_withinCounts {bytes : Bytes} {block : Block}
    (decoded : Block.consensusDecode bytes = .ok block) : WithinCounts block := by
  obtain ⟨-, ran⟩ := consensusDecode_ok decoded
  exact (recodes_block.exact bytes block [] ran).1.withinCounts

/-! Accepted blocks. -/

/-- Every transaction inside a witness that passed both witness checks is well
formed: its template is the one some accepted share was checked on. -/
theorem witness_wellFormed {witness : WorkshareWitness} {parentHistory : List Block}
    {parentState : LedgerState} {pow : PowVerifier} {settlingTimestamp : UInt64}
    (canonical : witness.isCanonical = true)
    (accepted : validateWorkshares witness parentHistory parentState pow settlingTimestamp = .ok ()) :
    ∀ template ∈ witness.templates, ∀ transaction ∈ template.transactions, WellFormed transaction := by
  intro template member
  have referenced := (isCanonical_ok canonical).2 template member
  obtain ⟨share, listed, same⟩ := List.mem_map.mp referenced
  cases validateWorkshares_ok_iff.mp accepted with
  | inl empty =>
    rw [empty] at listed
    cases listed
  | inr settled =>
    obtain ⟨context, settles, -, shares⟩ := settled
    obtain ⟨previous, before, found, checked⟩ := validateShares_ok shares share listed
    have checks := (validateShare_ok_iff.mp checked).2
    have lookup := (shareTemplate_ok checks.templateOk).1
    rw [settles.templates] at lookup
    obtain ⟨inside, sameId⟩ := get_templatesById lookup
    -- template ids do not repeat, so this is the template we started from
    have equal : found = template := List.inj_on_of_nodup_map (isCanonical_nodup canonical) inside
      member (sameId.trans same)
    obtain ⟨fees, allocation, transition, hash, -, -, transitioned, -⟩ := checks.rest
    rw [equal] at transitioned
    exact (transitionForCandidate_wellFormed transitioned).1

theorem templates_le_workshares {witness : WorkshareWitness} (canonical : witness.isCanonical = true) :
    witness.templates.length ≤ witness.workshares.length := by
  have inside : witness.templates.map BlockTemplate.id ⊆
      witness.workshares.map Workshare.templateId := by
    intro id member
    obtain ⟨template, listed, rfl⟩ := List.mem_map.mp member
    exact (isCanonical_ok canonical).2 template listed
  have length := (List.subperm_of_subset (isCanonical_nodup canonical) inside).length_le
  simpa using length

theorem accepted_decodes {block : Block} {parentHistory : List Block} {parentState : LedgerState}
    {pow : PowVerifier} {now : UInt64} {next : LedgerState}
    (accepted : Accepted block parentHistory parentState pow now next) (within : WithinCounts block) :
    Block.consensusDecode block.consensusEncode = .ok block := by
  obtain ⟨parent, seed, target, claim, transition, checks, -⟩ := accepted
  have shape := validateWitnessShape_ok_iff.mp checks.witnessShape
  have formed := (transitionForCandidate_wellFormed checks.transitionOk).1
  have bounded : block.workshareWitness.Bounded :=
    { templates := Nat.le_trans (templates_le_workshares shape.canonical) within.1
      workshares := within.1
      templateBytes := fun template member => (shape.templates template member).2
      transactions := within.2
      formed := witness_wellFormed shape.canonical checks.workshares }
  have fits : block.Fits := ⟨transactionsFit_of_wellFormed checks.transactionCount formed,
    bounded.fits, shape.size⟩
  exact consensusDecode_of_reads (recodes_block.reads block fits) checks.blockBytes

theorem genesis_decodes :
    Block.consensusDecode Block.genesis.consensusEncode = .ok Block.genesis := by
  have bounded : Block.genesis.workshareWitness.Bounded :=
    ⟨Nat.zero_le _, Nat.zero_le _, List.forall_mem_nil _, List.forall_mem_nil _,
      List.forall_mem_nil _⟩
  have transactions : TransactionsFit Block.genesis.transactions :=
    ⟨Nat.zero_le _, List.forall_mem_nil _⟩
  refine consensusDecode_of_reads
    (recodes_block.reads Block.genesis ⟨transactions, bounded.fits, ?_⟩) ?_
  · simp [Block.genesis, WorkshareWitness.empty, WorkshareWitness.consensusEncode,
      MAX_WORKSHARE_WITNESS_BYTES]
  · simp [Block.consensusEncode, Block.genesis, encodeTransactions, WorkshareWitness.consensusEncode,
      WorkshareWitness.empty, BlockHeader.ENCODED_LEN, MAX_CONSENSUS_ALLOCATION]

/-- An accepted block decodes to itself exactly when its witness stays within
the counts the decoder checks, which validation does not. -/
theorem accepted_block_round_trips_iff {block : Block} {parentHistory : List Block}
    {parentState : LedgerState} {pow : PowVerifier} {now : UInt64} {next : LedgerState}
    (accepted : validateBlock block parentHistory parentState pow now = .ok next) :
    Block.consensusDecode block.consensusEncode = .ok block ↔ WithinCounts block := by
  constructor
  · intro decoded
    exact decoded_withinCounts decoded
  · intro within
    by_cases ground : block.header.height = 0
    · rw [((validateBlock_zero_iff ground).mp accepted).1]
      exact genesis_decodes
    · exact accepted_decodes ((validateBlock_ok_iff ground).mp accepted) within

omit [Crypto] in
/-- A block that settles three shares. -/
theorem three_shares_round_trip :
    ∃ (_ : Crypto) (block : Block), block.workshareWitness.workshares.length = 3 ∧
      (Block.consensusDecode block.consensusEncode = .ok block ↔ WithinCounts block) := by
  let _ : Crypto := default
  have late : 1788984000 + ([Block.genesis].length - 1) * 64 < (1788984064 : UInt64).toNat :=
    show 1788984000 < 1788984064 by decide
  obtain ⟨final, accepted⟩ := settlingBlock_accepted .genesis onSchedule_genesis
    (show 1 ≤ 2 ^ 32 by decide) rfl LedgerState.addressMin late (UInt64.le_refl _)
    (show 0 < 3 by decide) (by decide)
  have above : (settlingBlock Block.genesis LedgerState.addressMin final.root 1788984064
      (settlingWitness Block.genesis LedgerState.addressMin final.root 1788984064 3)).header.height ≠
        0 := fun zero => nomatch zero
  exact ⟨default, _, emptyShares_length _ _ _ _ 3 _ _,
    accepted_block_round_trips_iff ((validateBlock_ok_iff above).mpr accepted)⟩

omit [Crypto] in
/-- A block that settles 513 shares is accepted on genesis under any primitives,
and no peer decodes it. -/
theorem accepted_block_undecodable :
    ¬∃ _ : Crypto, ∀ (block : Block) (parentHistory : List Block) (parentState : LedgerState)
      (pow : PowVerifier) (now : UInt64) (next : LedgerState),
      validateBlock block parentHistory parentState pow now = .ok next →
        Block.consensusDecode block.consensusEncode = .ok block := by
  intro ⟨_, decodes⟩
  have late : 1788984000 + ([Block.genesis].length - 1) * 64 < (1788984064 : UInt64).toNat :=
    show 1788984000 < 1788984064 by decide
  obtain ⟨final, accepted⟩ := settlingBlock_accepted .genesis onSchedule_genesis
    (show 1 ≤ 2 ^ 32 by decide) rfl LedgerState.addressMin late (UInt64.le_refl _)
    (show 0 < 513 by decide) (by decide)
  have above : (settlingBlock Block.genesis LedgerState.addressMin final.root 1788984064
      (settlingWitness Block.genesis LedgerState.addressMin final.root 1788984064 513)).header.height ≠
        0 := fun zero => nomatch zero
  have decoded := decodes _ _ _ _ _ _ ((validateBlock_ok_iff above).mpr accepted)
  have within := (decoded_withinCounts decoded).1
  change (emptyShares _ _ _ _ 513 _ _).length ≤ MAX_WORKSHARES_PER_BLOCK at within
  rw [emptyShares_length] at within
  exact absurd within (by decide)

end ParitrNode
