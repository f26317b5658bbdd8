import ParitrNode.MempoolSelection
import ParitrNode.NextBlock
import ParitrNode.PathWork

/-!
The mining candidate of a node exists exactly when the template cache, which
peers fill, holds its own template or has room for it.
-/

namespace ParitrNode
open ByteCodec OrderedMap Checked

variable [Crypto]

/-! Templates of the tip. -/

/-- A template of the tip that applies to its ledger. -/
structure Offered (chain : Chain) (template : BlockTemplate) : Prop where
  version : template.version = BlockTemplate.VERSION
  size : template.consensusEncode.length ≤ MAX_TEMPLATE_BYTES
  height : template.height = saturatingAdd chain.height 1
  parent : template.parent = chain.tip.id
  valid : validateTemplateTransactions template.transactions chain.state template.height = .ok ()

/-! The node's own template. -/

def ownTemplate (chain : Chain) (transactions : List Transaction) : BlockTemplate :=
  ⟨BlockTemplate.VERSION, chain.tip.header.height + 1, chain.tip.id, transactions⟩

theorem selectFrom_length {pool : Mempool} {maximum count : Nat} {working : LedgerState}
    {included : List Hash32} {selected result : List Transaction}
    (chosen : pool.selectFrom maximum count working included selected = some result)
    (short : selected.length < maximum) : result.length ≤ maximum := by
  induction count generalizing working included selected with
  | zero =>
    cases chosen
    exact Nat.le_of_lt short
  | succ count ih =>
    rw [Mempool.selectFrom] at chosen
    split at chosen
    · cases chosen
      exact Nat.le_of_lt short
    · next id entry first =>
      simp only [Option.bind_eq_bind, Option.bind_eq_some_iff] at chosen
      obtain ⟨next, _, rest⟩ := chosen
      split at rest
      · cases rest
        rw [List.length_append, List.length_singleton]
        exact short
      · next more => exact ih rest (Nat.not_le.mp more)

theorem select_nothing (policy : RelayPolicy) (state : LedgerState) (maximum : Nat) :
    (Mempool.new policy).select state maximum = some [] := by
  unfold Mempool.select
  rw [show (Mempool.new policy).entries.size = 0 from Std.ExtTreeMap.size_empty]
  rfl

omit [Crypto] in
theorem flatMap_length_bound {α : Type} (encode : α → Bytes) {items : List α} {bound : Nat}
    (each : ∀ item ∈ items, (encode item).length ≤ bound) :
    (items.flatMap encode).length ≤ items.length * bound := by
  have below : ∀ length ∈ items.map (fun item => (encode item).length), length ≤ bound := by
    intro length member
    obtain ⟨item, inside, rfl⟩ := List.mem_map.mp member
    exact each item inside
  have sum := List.sum_le_card_nsmul _ _ below
  rw [List.length_map, smul_eq_mul] at sum
  rw [List.length_flatMap]
  exact sum

theorem WellFormed.length_le {transaction : Transaction} (formed : WellFormed transaction) :
    transaction.consensusEncode.length ≤ 213 := by
  have key := formed.keyLength
  have signature := formed.signatureLength
  simp only [Transaction.consensusEncode, List.length_append, Writer.u16_length,
    Address.asBytes_length, Writer.u64_length, Writer.bytes_length]
  omega

theorem template_length (template : BlockTemplate) : template.consensusEncode.length =
    46 + (template.transactions.flatMap
      (fun transaction => Writer.bytes transaction.consensusEncode)).length := by
  simp only [BlockTemplate.consensusEncode, encodeTransactions, List.length_append, Writer.u16_length,
    Writer.u64_length, FixedBytes.length_eq, Writer.count_length]
  omega

theorem template_fits {template : BlockTemplate}
    (count : template.transactions.length ≤ MAX_BLOCK_TRANSACTIONS)
    (formed : ∀ transaction ∈ template.transactions, WellFormed transaction) :
    template.consensusEncode.length ≤ MAX_TEMPLATE_BYTES := by
  have items := flatMap_length_bound
    (fun transaction : Transaction => Writer.bytes transaction.consensusEncode)
    (show ∀ transaction ∈ template.transactions,
      (Writer.bytes transaction.consensusEncode).length ≤ 217 by
        intro transaction member
        have size := (formed transaction member).length_le
        rw [Writer.bytes_length]
        omega)
  have limit : MAX_BLOCK_TRANSACTIONS = 4096 := rfl
  have room : MAX_TEMPLATE_BYTES = 4194304 := rfl
  rw [template_length]
  omega

theorem candidateFees_of_applied {state : LedgerState} {transactions : List Transaction}
    {result : LedgerState × UInt64} (applied : applyTransactions state transactions = .ok result) :
    Node.candidateFees transactions = .ok result.2 := by
  have general : ∀ (seen : List Hash32) (start : UInt64) (state : LedgerState),
      applyFrom state seen start transactions = .ok result →
        transactions.foldlM (fun total transaction => okOr ConsensusError.moneyRange
          ((checkedAdd total transaction.fee).filter (fun fees => decide (fees ≤ MAX_MONEY)))) start =
            .ok result.2 := by
    clear applied
    induction transactions with
    | nil =>
      intro seen start state applied
      cases applied
      rfl
    | cons transaction rest ih =>
      intro seen start state applied
      obtain ⟨next, fees, _, added, bounded, later⟩ := applyFrom_cons_ok.mp applied
      rw [List.foldlM_cons, bind_ok]
      exact ⟨fees, okOr_ok.mpr (Option.filter_eq_some_iff.mpr ⟨added, decide_eq_true bounded⟩),
        ih _ _ _ later⟩
  exact general [] 0 state applied

/-! Room in the cache. -/

def HasRoom (pool : WorksharePool) (template : BlockTemplate) : Prop :=
  (∃ stored, pool.templates[template.id]? = some stored) ∨
    pool.templates.size < MAX_TEMPLATES_PER_BLOCK ∧
      pool.templateBytes + template.consensusEncode.length ≤ 64 * 1024 * 1024

theorem registerTemplate_succeeds_iff {pool : WorksharePool} {template : BlockTemplate}
    (anchored : template.parent = pool.anchor) (version : template.version = BlockTemplate.VERSION)
    (size : template.consensusEncode.length ≤ MAX_TEMPLATE_BYTES) :
    (∃ next, pool.registerTemplate template = .ok next) ↔ HasRoom pool template := by
  constructor
  · intro ⟨next, registered⟩
    rcases (WorksharePool.registerTemplate_ok_iff.mp registered).2 with ⟨known, _⟩ | ⟨_, count, bytes, _⟩
    · exact Or.inl known
    · exact Or.inr ⟨count, bytes⟩
  · intro room
    cases present : pool.templates[template.id]? with
    | some stored => exact ⟨pool, WorksharePool.registerTemplate_ok_iff.mpr
        ⟨⟨anchored, version, size⟩, Or.inl ⟨⟨stored, present⟩, rfl⟩⟩⟩
    | none =>
      rcases room with ⟨stored, known⟩ | ⟨count, bytes⟩
      · rw [present] at known
        cases known
      · exact ⟨_, WorksharePool.registerTemplate_ok_iff.mpr
          ⟨⟨anchored, version, size⟩, Or.inr ⟨present, count, bytes, rfl⟩⟩⟩

variable {pow : PowVerifier} {rule : UInt64 → Workshare → Prop} {policy : RelayPolicy}

/-- A selection makes a candidate exactly when its template has room. -/
theorem candidate_exists_iff {node : Node} {now : UInt64} {miner : Address}
    (reached : node.chain.Reached pow) (supply : node.chain.state.supply ≤ MAX_MONEY.toNat)
    (mempool : Mempool.Reachable policy node.mempool) (payee : node.minerAddress = some miner)
    (run : LiveRun pow rule now node) (env : NodeEnv) (extranonce : UInt64)
    {selected : List Transaction}
    (chosen : node.mempool.select node.chain.state MAX_BLOCK_TRANSACTIONS = some selected) :
    (∃ candidate next, node.miningCandidate env extranonce = .ok (candidate, next)) ↔
      HasRoom node.workshares (ownTemplate node.chain selected) := by
  have valid := reached.valid
  have last : node.chain.blocks.getLast? = some node.chain.tip :=
    List.getLast?_eq_getLast_of_ne_nil node.chain.nonempty
  have long := valid.length_bound
  have height : (node.chain.tip.header.height + 1).toNat = node.chain.blocks.length := by
    have tip := valid.tipHeight last
    have one : (1 : UInt64).toNat = 1 := rfl
    rw [toNat_add (by omega)]
    omega
  obtain ⟨_, maturedState, applied, known, moved, applies⟩ :=
    select_matured mempool supply node.chain.tip.header.height
  cases Option.some.inj (chosen.symm.trans known)
  have formed := (applyFrom_ok applies).1
  have short : selected.length ≤ MAX_BLOCK_TRANSACTIONS := selectFrom_length chosen (by decide)
  obtain ⟨allocation, allocated, transitions⟩ :=
    valid.transition_succeeds supply height moved applies miner
  let claim : RewardClaim := ⟨RewardClaim.VERSION, node.chain.tip.header.height + 1, miner,
    allocation.finderAmount, extranonce⟩
  obtain ⟨final, transitioned⟩ := transitions claim rfl rfl
  obtain ⟨weight, weighs⟩ := nextBits_weight node.chain.blocks
  obtain ⟨witness, live⟩ := run.witness_found weighs
  obtain ⟨seed, seeded⟩ := randomxSeed_found valid.linked height
  obtain ⟨blockTarget, read, positive, _⟩ := nextBits_target node.chain.blocks
  obtain ⟨bits, shareTarget, shared, shareRead, _⟩ := workshareBits_target read positive
  have room : (∃ pool, node.workshares.registerTemplate (ownTemplate node.chain selected) = .ok pool) ↔
      HasRoom node.workshares (ownTemplate node.chain selected) :=
    registerTemplate_succeeds_iff (run.weighed weighs).anchor.symm rfl (template_fits short formed)
  rw [← room]
  constructor
  · intro ⟨candidate, next, mined⟩
    obtain ⟨_, _, _, _, pool, parts⟩ := Node.miningCandidate_ok_iff.mp ⟨next, mined⟩
    have same := parts.selected
    rw [chosen] at same
    refine ⟨pool, ?_⟩
    rw [ownTemplate, Option.some.inj same, ← parts.template]
    exact parts.registered
  · intro ⟨pool, registered⟩
    let header : BlockHeader := ⟨HEADER_VERSION, PROTOCOL_VERSION, node.chain.tip.header.height + 1,
      node.chain.tip.id, merkleRoot (claim.id :: selected.map Transaction.id), final.root,
      witness.root, Node.candidateTimestamp env.now node.chain, nextBits node.chain.blocks, 0⟩
    let candidate : MiningCandidate :=
      { block := ⟨header, some claim, selected, witness⟩
        template := ownTemplate node.chain selected
        seed
        blockTarget
        workshareTarget := shareTarget
        generation := node.generation }
    exact ⟨candidate, Node.miningCandidate_ok_iff.mpr ⟨claim, applied.2, allocation,
      ⟨final, allocation, applied.2⟩, pool,
      { selected := chosen
        summed := candidateFees_of_applied applies
        finder := payee
        allocated
        claimed := rfl
        transitioned
        witness := live
        template := rfl
        registered
        block := rfl
        seed := seeded
        blockTarget := read
        workshareTarget := ⟨bits, shared, shareRead⟩
        generation := rfl }⟩⟩

end ParitrNode
