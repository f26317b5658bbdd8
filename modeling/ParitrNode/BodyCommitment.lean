import ParitrNode.RoundTrip

/-!
A header commits to one body: the transaction root to the claim and the
transactions, and the workshare root to the witness.
-/

namespace ParitrNode
open ByteCodec OrderedMap Checked

variable [Crypto]

/-! Encodings of accepted objects determine them, whatever their counts. -/

theorem separates_claim : Separates (fun _ => True) RewardClaim.consensusEncode :=
  Separates.ofReads RewardClaim.decodeFrom recodes_claim.reads

theorem separates_transaction : Separates WellFormed Transaction.consensusEncode :=
  Separates.ofReads Transaction.decodeFrom
    (fun transaction formed => recodes_transaction.reads transaction formed.fits)

theorem separates_workshare : Separates (fun _ => True) Workshare.consensusEncode :=
  Separates.ofReads Workshare.decodeFrom recodes_workshare.reads

/-- A template short enough that its counts do not wrap. -/
structure BlockTemplate.Countable (template : BlockTemplate) : Prop where
  size : template.consensusEncode.length < 2 ^ 32
  formed : ∀ transaction ∈ template.transactions, WellFormed transaction

theorem BlockTemplate.Countable.count {template : BlockTemplate} (countable : template.Countable) :
    template.transactions.length < 2 ^ 32 := by
  have items := length_le_flatMap
    (fun transaction => Writer.bytes transaction.consensusEncode) template.transactions
    (fun transaction _ => by rw [Writer.bytes_length]; omega)
  have size := countable.size
  simp only [BlockTemplate.consensusEncode, encodeTransactions, List.length_append] at size
  omega

theorem separates_template : Separates BlockTemplate.Countable BlockTemplate.consensusEncode := by
  have transactions := separates_vector (separates_object separates_transaction)
  have fields := separates_u16.pair (separates_u64.pair ((separates_fixed 32).pair transactions))
  refine fields.comap
    (fun template => (template.version, template.height, template.parent, template.transactions))
    ?_ (fun _ _ => rfl) ?_
  · intro template countable
    refine ⟨trivial, trivial, trivial, countable.count, ?_⟩
    intro transaction member
    have formed := countable.formed transaction member
    have size := formed.size
    exact ⟨formed, by simp only [MAX_TRANSACTION_BYTES] at size; omega⟩
  · intro first second _ _ same
    cases first
    cases second
    cases same
    rfl

structure WorkshareWitness.Countable (witness : WorkshareWitness) : Prop where
  size : witness.consensusEncode.length < 2 ^ 32
  templates : ∀ template ∈ witness.templates, template.Countable

theorem WorkshareWitness.Countable.counts {witness : WorkshareWitness} (countable : witness.Countable) :
    witness.templates.length < 2 ^ 32 ∧ witness.workshares.length < 2 ^ 32 := by
  have templates := length_le_flatMap
    (fun template => Writer.bytes template.consensusEncode) witness.templates
    (fun template _ => by rw [Writer.bytes_length]; omega)
  have shares := length_le_flatMap
    (fun share => Writer.bytes share.consensusEncode) witness.workshares
    (fun share _ => by rw [Writer.bytes_length]; omega)
  have size := countable.size
  simp only [WorkshareWitness.consensusEncode, List.length_append] at size
  omega

theorem separates_witness : Separates WorkshareWitness.Countable WorkshareWitness.consensusEncode := by
  have templates := separates_vector (separates_object separates_template)
  have shares := separates_vector (separates_object separates_workshare)
  refine (separates_u16.pair (templates.pair shares)).comap
    (fun witness => (witness.version, witness.templates, witness.workshares)) ?_ ?_ ?_
  · intro witness countable
    refine ⟨trivial, ⟨countable.counts.1, ?_⟩, countable.counts.2, ?_⟩
    · intro template member
      have inside := countable.templates template member
      exact ⟨inside, inside.size⟩
    · intro share _
      rw [Workshare.consensusEncode_length]
      exact ⟨trivial, by decide⟩
  · intro witness _
    simp only [WorkshareWitness.consensusEncode, List.append_assoc]
  · intro first second _ _ same
    cases first
    cases second
    cases same
    rfl

theorem countable_of_accepted {block : Block} {parentHistory : List Block} {parentState : LedgerState}
    {pow : PowVerifier} {now : UInt64} {parent : Block} {seed : Bytes} {target : Nat}
    {claim : RewardClaim} {transition : Transition}
    (checks : AcceptedWith block parentHistory parentState pow now parent seed target claim transition) :
    block.workshareWitness.Countable := by
  have shape := validateWitnessShape_ok_iff.mp checks.witnessShape
  have size := shape.size
  simp only [MAX_WORKSHARE_WITNESS_BYTES] at size
  refine ⟨by omega, ?_⟩
  intro template member
  have templateSize := (shape.templates template member).2
  simp only [MAX_TEMPLATE_BYTES] at templateSize
  exact ⟨by omega, witness_wellFormed shape.canonical checks.workshares template member⟩

/-! What is hashed to commit to a body. -/

def Block.leaves (block : Block) : List Hash32 :=
  (block.rewardClaim.map RewardClaim.id).toList ++ block.transactions.map Transaction.id

/-- The hash inputs of the ids, the inner nodes and the witness root of a block. -/
inductive BodyQuery (block : Block) : String × Bytes → Prop where
  | claim {claim : RewardClaim} (present : block.rewardClaim = some claim) :
      BodyQuery block ("PARITR-P9-REWARD-CLAIM-v1", claim.consensusEncode)
  | transaction {transaction : Transaction} (member : transaction ∈ block.transactions) :
      BodyQuery block ("PARITR-P9-TXID-v1", transaction.consensusEncode)
  | node {pair : Hash32 × Hash32} (hashed : pair ∈ PairedMerkle.queries merkleNode block.leaves) :
      BodyQuery block ("PARITR-P9-MERKLE-NODE-v1", pair.1.bytes ++ pair.2.bytes)
  | witness : BodyQuery block ("PARITR-P9-WORKSHARE-WITNESS-v1", block.workshareWitness.consensusEncode)

def bodyQueries (block : Block) : Set (String × Bytes) := {query | BodyQuery block query}

theorem transactionRoot_eq {block : Block} {claim : RewardClaim}
    (present : block.rewardClaim = some claim) :
    block.transactionRoot = PairedMerkle.root merkleNode Hash32.ZERO block.leaves := by
  unfold Block.transactionRoot merkleRoot
  rw [if_neg (by rw [present]; exact List.cons_ne_nil _ _), merkleLoop_eq]
  rfl

theorem leaf_query {block : Block} {leaf : Hash32} (member : leaf ∈ block.leaves) :
    ∃ query ∈ bodyQueries block, leaf = domainHash query.1 query.2 ∧
      query.1 ≠ "PARITR-P9-MERKLE-NODE-v1" := by
  cases List.mem_append.mp member with
  | inl claimed =>
    rw [Option.mem_toList, Option.map_eq_some_iff] at claimed
    obtain ⟨claim, present, rfl⟩ := claimed
    exact ⟨_, BodyQuery.claim present, rfl,
      show "PARITR-P9-REWARD-CLAIM-v1" ≠ "PARITR-P9-MERKLE-NODE-v1" by decide⟩
  | inr paid =>
    obtain ⟨transaction, listed, rfl⟩ := List.mem_map.mp paid
    exact ⟨_, BodyQuery.transaction listed, rfl,
      show "PARITR-P9-TXID-v1" ≠ "PARITR-P9-MERKLE-NODE-v1" by decide⟩

/-- Neither a repeated transaction nor the claim can repeat a leaf. -/
theorem leaves_nodup {block : Block} {claim : RewardClaim} (present : block.rewardClaim = some claim)
    (distinct : (block.transactions.map Transaction.id).Nodup)
    (free : CollisionFree (bodyQueries block)) : block.leaves.Nodup := by
  unfold Block.leaves
  rw [present]
  refine List.nodup_cons.mpr ⟨?_, distinct⟩
  intro paid
  obtain ⟨transaction, listed, same⟩ := List.mem_map.mp paid
  have domains := free.domain_eq (BodyQuery.transaction listed) (BodyQuery.claim present) same
  exact absurd domains (by decide)

theorem merkleNode_injective {inputs : Set (String × Bytes)} (free : CollisionFree inputs)
    {pair other : Hash32 × Hash32}
    (left : ("PARITR-P9-MERKLE-NODE-v1", pair.1.bytes ++ pair.2.bytes) ∈ inputs)
    (right : ("PARITR-P9-MERKLE-NODE-v1", other.1.bytes ++ other.2.bytes) ∈ inputs)
    (same : merkleNode pair.1 pair.2 = merkleNode other.1 other.2) : pair = other := by
  have data := free.data_eq left right same
  obtain ⟨lefts, rights⟩ := List.append_inj data (by simp)
  exact Prod.ext (FixedBytes.ext lefts) (FixedBytes.ext rights)

theorem leaves_eq {first second : Block} {claim claim' : RewardClaim}
    (present : first.rewardClaim = some claim) (present' : second.rewardClaim = some claim')
    (distinct : (first.transactions.map Transaction.id).Nodup)
    (distinct' : (second.transactions.map Transaction.id).Nodup)
    (free : CollisionFree (bodyQueries first ∪ bodyQueries second))
    (same : first.transactionRoot = second.transactionRoot) : first.leaves = second.leaves := by
  have node : ∀ pair, pair ∈ PairedMerkle.queries merkleNode first.leaves ∨
      pair ∈ PairedMerkle.queries merkleNode second.leaves →
      ("PARITR-P9-MERKLE-NODE-v1", pair.1.bytes ++ pair.2.bytes) ∈
        bodyQueries first ∪ bodyQueries second := by
    intro pair hashed
    exact hashed.imp (fun inside => BodyQuery.node inside) (fun inside => BodyQuery.node inside)
  have leaf : ∀ entry, entry ∈ first.leaves ∨ entry ∈ second.leaves →
      ∃ query ∈ bodyQueries first ∪ bodyQueries second, entry = domainHash query.1 query.2 ∧
        query.1 ≠ "PARITR-P9-MERKLE-NODE-v1" := by
    intro entry inside
    cases inside with
    | inl member =>
      obtain ⟨query, known, rest⟩ := leaf_query member
      exact ⟨query, Or.inl known, rest⟩
    | inr member =>
      obtain ⟨query, known, rest⟩ := leaf_query member
      exact ⟨query, Or.inr known, rest⟩
  rw [transactionRoot_eq present, transactionRoot_eq present'] at same
  refine PairedMerkle.root_injective (by simp [Block.leaves, present]) (by simp [Block.leaves, present'])
    (leaves_nodup present distinct (free.mono (fun query inside => Or.inl inside)))
    (leaves_nodup present' distinct' (free.mono (fun query inside => Or.inr inside))) ?_ ?_ same
  · intro pair hashed other hashed' equal
    exact merkleNode_injective free (node pair hashed) (node other hashed') equal
  · intro entry inside pair hashed equal
    obtain ⟨query, known, value, different⟩ := leaf entry inside
    exact different (congrArg Prod.fst
      (free query known _ (node pair hashed) (value.symm.trans equal)))

/-- Two accepted blocks with one header are one block. -/
theorem header_commits_to_body {first second : Block} {parentHistory : List Block}
    {parentState : LedgerState} {pow : PowVerifier} {now : UInt64} {next next' : LedgerState}
    (above : first.header.height ≠ 0) (sameHeader : first.header = second.header)
    (accepted : validateBlock first parentHistory parentState pow now = .ok next)
    (accepted' : validateBlock second parentHistory parentState pow now = .ok next')
    (free : CollisionFree (bodyQueries first ∪ bodyQueries second)) : first = second := by
  have above' : second.header.height ≠ 0 := sameHeader ▸ above
  obtain ⟨_, _, _, claim, _, checks, -⟩ := (validateBlock_ok_iff above).mp accepted
  obtain ⟨_, _, _, claim', _, checks', -⟩ := (validateBlock_ok_iff above').mp accepted'
  obtain ⟨formed, distinct⟩ := transitionForCandidate_wellFormed checks.transitionOk
  obtain ⟨formed', distinct'⟩ := transitionForCandidate_wellFormed checks'.transitionOk
  have roots : first.transactionRoot = second.transactionRoot := by
    rw [checks.transactionsRoot, checks'.transactionsRoot, sameHeader]
  have leaves := leaves_eq checks.claimPresent checks'.claimPresent distinct distinct' free roots
  unfold Block.leaves at leaves
  rw [checks.claimPresent, checks'.claimPresent] at leaves
  obtain ⟨claimIds, transactionIds⟩ := List.cons.inj leaves
  have claims : claim = claim' := by
    have data := free.data_eq (Or.inl (BodyQuery.claim checks.claimPresent))
      (Or.inr (BodyQuery.claim checks'.claimPresent)) claimIds
    exact separates_claim.injective trivial trivial data
  have transactions : first.transactions = second.transactions := by
    refine PairedMerkle.map_injOn ?_ transactionIds
    intro transaction member other member' same
    have data := free.data_eq (Or.inl (BodyQuery.transaction member))
      (Or.inr (BodyQuery.transaction member')) same
    exact separates_transaction.injective (formed transaction member) (formed' other member') data
  have witnesses : first.workshareWitness = second.workshareWitness := by
    have witnessRoots : first.workshareWitness.root = second.workshareWitness.root := by
      rw [checks.workshareRoot, checks'.workshareRoot, sameHeader]
    have data := free.data_eq (Or.inl BodyQuery.witness) (Or.inr BodyQuery.witness) witnessRoots
    exact separates_witness.injective (countable_of_accepted checks) (countable_of_accepted checks') data
  have rewardClaims : first.rewardClaim = second.rewardClaim := by
    rw [checks.claimPresent, checks'.claimPresent, claims]
  cases first
  cases second
  cases sameHeader
  cases rewardClaims
  cases transactions
  cases witnesses
  rfl

omit [Crypto] in
theorem settlingBlock_collisionFree (stateRoot : Hash32) (timestamp : UInt64) :
    letI := labelled
    let block := settlingBlock Block.genesis LedgerState.addressMin stateRoot timestamp
      (settlingWitness Block.genesis LedgerState.addressMin stateRoot timestamp 1)
    CollisionFree (bodyQueries block ∪ bodyQueries block) := by
  let _ := labelled
  intro block
  have shape : ∀ query ∈ bodyQueries block,
      query = ("PARITR-P9-REWARD-CLAIM-v1",
        (soleClaim Block.genesis LedgerState.addressMin).consensusEncode) ∨
      query = ("PARITR-P9-WORKSHARE-WITNESS-v1", block.workshareWitness.consensusEncode) := by
    intro query known
    cases known with
    | claim present =>
      cases present
      exact Or.inl rfl
    | transaction member => cases member
    | node hashed =>
      have single : ¬block.leaves.length > 1 := show ¬1 > 1 by decide
      rw [PairedMerkle.queries, if_neg single] at hashed
      cases hashed
    | witness => exact Or.inr rfl
  have claimHash := labelled_domainHash "PARITR-P9-REWARD-CLAIM-v1"
    (soleClaim Block.genesis LedgerState.addressMin).consensusEncode 88
    (by rw [RewardClaim.consensusEncode_length]; decide) (by decide)
  have witnessHash := labelled_domainHash "PARITR-P9-WORKSHARE-WITNESS-v1"
    block.workshareWitness.consensusEncode 365
    (by
      change 4 + _ + 8 + (settlingWitness _ _ _ _ 1).consensusEncode.length = _
      rw [settlingWitness_length _ _ _ _ Nat.one_pos]
      decide) (by decide)
  have different : FixedBytes.ofNat 32 88 ≠ FixedBytes.ofNat 32 365 := by decide
  intro first member second member' same
  rcases shape first (member.elim id id) with rfl | rfl
  · rcases shape second (member'.elim id id) with rfl | rfl
    · rfl
    · dsimp only at same
      rw [claimHash, witnessHash] at same
      exact absurd same different
  · rcases shape second (member'.elim id id) with rfl | rfl
    · dsimp only at same
      rw [claimHash, witnessHash] at same
      exact absurd same.symm different
    · rfl

omit [Crypto] in
/-- A block that settles one share, against itself. -/
theorem one_share_committed :
    ∃ (_ : Crypto) (first second : Block), first.workshareWitness.workshares.length = 1 ∧
      CollisionFree (bodyQueries first ∪ bodyQueries second) ∧ first = second := by
  let _ := labelled
  have late : 1788984000 + ([Block.genesis].length - 1) * 64 < (1788984064 : UInt64).toNat :=
    show 1788984000 < 1788984064 by decide
  obtain ⟨final, accepted⟩ := settlingBlock_accepted .genesis onSchedule_genesis
    (show 1 ≤ 2 ^ 32 by decide) rfl LedgerState.addressMin late (UInt64.le_refl _)
    (show 0 < 1 by decide) (by decide)
  have above : (settlingBlock Block.genesis LedgerState.addressMin final.root 1788984064
      (settlingWitness Block.genesis LedgerState.addressMin final.root 1788984064 1)).header.height ≠
        0 := fun zero => nomatch zero
  have valid := (validateBlock_ok_iff above).mpr accepted
  have free := settlingBlock_collisionFree final.root 1788984064
  exact ⟨labelled, _, _, emptyShares_length _ _ _ _ 1 _ _, free,
    header_commits_to_body above rfl valid valid free⟩

end ParitrNode
