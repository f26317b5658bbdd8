import ParitrNode.DurableChain
import ParitrNode.MempoolOutcomes
import ParitrNode.RecycledFees
import ParitrNode.TransactionNonces

/-!
The transaction pool across a change of the active chain. Confirmed transactions
leave it by id; another transaction in a confirmed slot stays behind.
-/

namespace ParitrNode
open ByteCodec OrderedMap Checked

section
variable [Crypto]

/-! The slots a chain has used. -/

theorem ValidHistory.slot_used {pow : PowVerifier} {history : List Block} {state : LedgerState}
    (valid : ValidHistory pow history state) (sender : Address) (nonce : UInt64) :
    nonce < nonceOf state sender ↔ ∃ transaction ∈ Node.blockTransactions history,
      transaction.sender = sender ∧ transaction.nonce = nonce := by
  have counted := (valid.counts sender).1
  rw [Nat.sub_zero] at counted
  have listed : nonce.toNat ∈ (transactionsFrom sender (history.flatMap Block.transactions)).map
      (fun transaction => transaction.nonce.toNat) ↔ nonce < nonceOf state sender := by
    rw [counted, List.mem_range'_1, Nat.zero_add, UInt64.lt_iff_toNat_lt]
    exact and_iff_right (Nat.zero_le _)
  rw [← listed, List.mem_map]
  constructor
  · intro ⟨transaction, member, same⟩
    obtain ⟨inside, own⟩ := List.mem_filter.mp member
    exact ⟨transaction, inside, of_decide_eq_true own, UInt64.toNat_inj.mp same⟩
  · intro ⟨transaction, inside, own, same⟩
    exact ⟨transaction, List.mem_filter.mpr ⟨inside, decide_eq_true own⟩, congrArg UInt64.toNat same⟩

/-- Two chains with a common start: the nonces between their accounts are those of the new branch. -/
theorem ValidHistory.branch_slot {pow : PowVerifier} {old new branch : List Block}
    {state next : LedgerState} {kept : Nat} (before : ValidHistory pow old state)
    (later : ValidHistory pow new next) (shape : new = old.take kept ++ branch) {sender : Address}
    {nonce : UInt64} (fresh : nonceOf state sender ≤ nonce) :
    nonce < nonceOf next sender ↔ ∃ transaction ∈ Node.blockTransactions branch,
      transaction.sender = sender ∧ transaction.nonce = nonce := by
  rw [later.slot_used sender nonce, shape]
  unfold Node.blockTransactions
  rw [List.flatMap_append]
  constructor
  · intro ⟨transaction, member, slot⟩
    rcases List.mem_append.mp member with shared | own
    · -- a slot of the common start is below the old account
      have used := (before.slot_used sender nonce).mpr ⟨transaction, ?_, slot⟩
      · exact absurd used (UInt64.not_lt.mpr fresh)
      · obtain ⟨block, inside, listed⟩ := List.mem_flatMap.mp shared
        exact List.mem_flatMap.mpr ⟨block, List.mem_of_mem_take inside, listed⟩
    · exact ⟨transaction, own, slot⟩
  · intro ⟨transaction, own, slot⟩
    exact ⟨transaction, List.mem_append_right _ own, slot⟩

/-! Where the new branch leaves the active chain. -/

theorem walkBranch_ok {active : Chain} {storage : Storage} {disk : Disk} {seen : List Hash32}
    {oldest : Block} {later branch : List Block} {fork : UInt64}
    (walked : Node.walkBranch active storage disk seen oldest later = .ok (fork, branch)) :
    ∃ first rest parent, branch = first :: rest ∧
      active.blockByHash first.header.previousBlock = some parent ∧ fork = parent.header.height ∧
      ((first = oldest ∧ rest = later) ∨ ∃ child tail, rest = child :: tail ∧
        active.blockByHash child.header.previousBlock = none) := by
  fun_induction Node.walkBranch active storage disk seen oldest later with
  | case1 seen oldest later parentHash parent found =>
    cases walked
    exact ⟨oldest, later, parent, rfl, found, rfl, Or.inl ⟨rfl, rfl⟩⟩
  | case2 => cases walked
  | case3 => cases walked
  | case4 => cases walked
  | case5 seen oldest later parentHash absent _ parent _ ih =>
    obtain ⟨first, rest, base, shape, found, height, place⟩ := ih walked
    refine ⟨first, rest, base, shape, found, height, Or.inr ?_⟩
    rcases place with ⟨_, same⟩ | deeper
    · exact ⟨oldest, later, same, absent⟩
    · exact deeper

theorem forkIndex_take {old rest : List Block} {first : Block} {fork : Nat} (inside : fork < old.length)
    (apart : ∀ block ∈ old, block.id ≠ first.id) :
    Chain.forkIndex old (old.take (fork + 1) ++ first :: rest) = fork := by
  have width : (old.take (fork + 1)).length = fork + 1 := by
    rw [List.length_take]
    omega
  have parts : ((old.drop (fork + 1)).zip (first :: rest)).takeWhile
      (fun pair => decide (pair.1.id = pair.2.id)) = [] := by
    cases shape : old.drop (fork + 1) with
    | nil => rfl
    | cons block tail =>
      have member : block ∈ old := List.mem_of_mem_drop (i := fork + 1) (shape ▸ List.mem_cons_self)
      rw [List.zip_cons_cons, List.takeWhile_cons_of_neg]
      simpa using apart block member
  unfold Chain.forkIndex
  nth_rewrite 1 [← List.take_append_drop (fork + 1) old]
  rw [List.zip_append rfl, List.zip_eq_zipWith, List.zipWith_self, List.takeWhile_append_of_pos, parts,
    List.append_nil, List.length_map, width, Nat.add_sub_cancel]
  intro pair member
  obtain ⟨block, _, same⟩ := List.mem_map.mp member
  rw [← same]
  exact decide_eq_true rfl

/-! What a call moves. -/

namespace Node

def arriving (node : Node) (disk : Disk) (block : Block) : List Transaction :=
  if block.header.previousBlock = node.chain.tip.id then block.transactions
  else match walkBranch node.chain node.storage disk [] block [] with
    | .ok (_, branch) => blockTransactions branch
    | .error _ => []

def departing (node : Node) (disk : Disk) (block : Block) : List Transaction :=
  if block.header.previousBlock = node.chain.tip.id then []
  else match walkBranch node.chain node.storage disk [] block [] with
    | .ok (fork, _) => blockTransactions (node.chain.blocks.drop (fork.toNat + 1))
    | .error _ => []

end Node

/-- A call that changes the active chain keeps a start of it and adds a branch. -/
structure Moves (node : Node) (env : NodeEnv) (block : Block) (event : ChainEvent) (candidate : Chain) :
    Prop where
  valid : ValidHistory env.pow candidate.blocks candidate.state
  branch : ∃ (kept : Nat) (branch : List Block), candidate.blocks = node.chain.blocks.take kept ++ branch ∧
    node.arriving env.disk block = Node.blockTransactions branch
  moved : Node.movedTransactions node.chain candidate block event =
    (node.arriving env.disk block, node.departing env.disk block)

theorem Recorded.moves {node : Node} {env : NodeEnv} {block : Block} {storage : Storage}
    {event : ChainEvent} {candidate : Chain}
    (recorded : Recorded node env block storage event candidate) (active : event.Activates)
    (valid : ValidHistory env.pow node.chain.blocks node.chain.state)
    (heights : (candidate.blocks.map fun block => block.header.height).Nodup) :
    Moves node env block event candidate := by
  have placed := recorded.placed
  unfold Node.placeBlock at placed
  by_cases next : block.header.previousBlock = node.chain.tip.id
  · rw [if_pos next] at placed
    have arrives : node.arriving env.disk block = block.transactions := if_pos next
    have leaves : node.departing env.disk block = [] := if_pos next
    refine ⟨valid.append placed, ?_, ?_⟩
    · rcases append_ok placed with ⟨known, _⟩ | ⟨_, _, _, blocks, _⟩
      · rw [known] at active
        exact absurd active id
      · refine ⟨node.chain.blocks.length, [block], ?_, ?_⟩
        · rw [blocks, List.take_length]
        · rw [arrives]
          exact (List.flatMap_singleton ..).symm
    · rw [arrives, leaves]
      rcases append_ok placed with ⟨known, _⟩ | ⟨extended, _⟩
      · rw [known] at active
        exact absurd active id
      · rw [extended]
        rfl
  · rw [if_neg next] at placed
    obtain ⟨blocks, assembled, considered⟩ := bind_ok.mp placed
    obtain ⟨⟨fork, branch⟩, walked, kept⟩ := bind_ok.mp assembled
    have arrives : node.arriving env.disk block = Node.blockTransactions branch := by
      unfold Node.arriving
      rw [if_neg next, walked]
    have leaves : node.departing env.disk block =
        Node.blockTransactions (node.chain.blocks.drop (fork.toNat + 1)) := by
      unfold Node.departing
      rw [if_neg next, walked]
    dsimp only at kept
    by_cases inside : fork.toNat < node.chain.blocks.length
    · rw [if_pos inside] at kept
      cases kept
      unfold Chain.considerChain at considered
      simp only [guard_ok, bind_ok] at considered
      obtain ⟨_, validated, accepted, decided⟩ := considered
      split at decided
      next =>
        cases decided
        obtain ⟨_, _, same, _⟩ := fromBlocks_ok_iff.mp accepted
        rw [same] at heights
        have replaced := fromBlocks_valid accepted (fromBlocks_above accepted (Or.inl heights))
        obtain ⟨first, rest, parent, shape, _, _, place⟩ := walkBranch_ok walked
        have width : (node.chain.blocks.take (fork.toNat + 1)).length = fork.toNat + 1 := by
          rw [List.length_take]
          omega
        -- the branch starts at the submitted block or at a stored one, neither of them active
        have apart : ∀ other ∈ node.chain.blocks, other.id ≠ first.id := by
          intro other member equal
          have present := Chain.blockByHash_isSome member
          rw [equal] at present
          rcases place with ⟨own, _⟩ | ⟨child, tail, next, absent⟩
          · rw [own] at present
            exact recorded.unknown present
          · rw [shape, next] at same
            have second : candidate.blocks[fork.toNat + 2]? = some child := by
              rw [same, List.getElem?_append_right (by omega), width]
              simp
            obtain ⟨previous, found, parents, _⟩ :=
              (replaced.linked (fork.toNat + 2) child second).mined (by omega)
            rw [same, List.getElem?_append_right (by omega), width] at found
            simp only [Nat.add_one_sub_one, Nat.sub_self, List.getElem?_cons_zero,
              Option.some.injEq] at found
            rw [parents, ← found] at absent
            rw [absent] at present
            cases present
        have index : Chain.forkIndex node.chain.blocks
            (node.chain.blocks.take (fork.toNat + 1) ++ first :: rest) = fork.toNat :=
          forkIndex_take inside apart
        refine ⟨replaced, ⟨fork.toNat + 1, branch, same, arrives⟩, ?_⟩
        unfold Node.movedTransactions
        dsimp only
        rw [arrives, leaves, same, shape, index, List.drop_left' width]
      next =>
        cases decided
        exact absurd active id
    · rw [if_neg inside] at kept
      cases kept

/-! Entries below their account. -/

theorem relayed_nonce {transaction : Transaction} {policy : RelayPolicy} {state : LedgerState}
    (relayed : validateForRelay transaction policy state = .ok ()) :
    nonceOf state transaction.sender ≤ transaction.nonce := by
  unfold validateForRelay at relayed
  rw [guard_ok] at relayed
  obtain ⟨_, checked⟩ := relayed
  dsimp only at checked
  rw [guard_ok] at checked
  exact UInt64.not_lt.mp fun below => checked.1 (Or.inl below)

/-- What is in the pool after the resurrection was there before, or is above its account. -/
theorem resurrect_entries {confirmed detached : List Transaction} {pool : Mempool}
    {state : LedgerState} {now : UInt64} {id : Hash32} {entry : MempoolEntry}
    (found : (Node.resurrect pool confirmed detached state now).entries[id]? = some entry) :
    pool.entries[id]? = some entry ∨
      nonceOf state entry.transaction.sender ≤ entry.transaction.nonce := by
  induction detached generalizing pool with
  | nil => exact Or.inl found
  | cons transaction rest ih =>
    rcases ih found with earlier | above
    · dsimp only at earlier
      split at earlier
      · exact Or.inl earlier
      · rcases Mempool.accept_entries earlier with old | ⟨_, same, relayed⟩
        · exact Or.inl old
        · rw [same]
          exact Or.inr (relayed_nonce relayed)
    · exact Or.inr above

/-! Putting transactions back into a pool that has room for all of them. -/

namespace Mempool

/-- Nothing in the pool has expired, and it can take some bytes more. -/
structure Roomy (pool : Mempool) (now : UInt64) (spare : Nat) : Prop where
  indexed : pool.Indexed
  young : ∀ (id : Hash32) (entry : MempoolEntry), pool.entries[id]? = some entry →
    ¬Expired pool.policy now entry
  room : pool.bytes + spare ≤ pool.policy.maxMempoolBytes

theorem Roomy.less {pool : Mempool} {now : UInt64} {spare more : Nat} (roomy : pool.Roomy now more)
    (fewer : spare ≤ more) : pool.Roomy now spare :=
  ⟨roomy.indexed, roomy.young, Nat.le_trans (Nat.add_le_add_left fewer _) roomy.room⟩

theorem Roomy.removeAll {pool : Mempool} {now : UInt64} {spare : Nat} (roomy : pool.Roomy now spare)
    (ids : List Hash32) : (ids.foldl remove pool).Roomy now spare where
  indexed := roomy.indexed.removeAll ids
  young id entry found := by
    rw [removeAll_policy]
    exact roomy.young id entry (removeAll_entries found)
  room := by
    rw [removeAll_policy]
    exact Nat.le_trans (Nat.add_le_add_right (removeAll_bytes_le pool ids) spare) roomy.room

omit [Crypto] in
theorem vacated_removeAll (pool : Mempool) (transaction : Transaction) :
    pool.vacated transaction =
      (pool.bySenderNonce[(transaction.sender, transaction.nonce)]?).toList.foldl remove pool := by
  unfold vacated
  split
  next taken => rw [taken]; rfl
  next free => rw [free]; rfl

theorem Indexed.vacated_keeps {pool : Mempool} (indexed : pool.Indexed) {transaction : Transaction}
    {id : Hash32} {entry : MempoolEntry} (present : pool.entries[id]? = some entry)
    (elsewhere : entry.slot ≠ (transaction.sender, transaction.nonce)) :
    (pool.vacated transaction).entries[id]? = some entry := by
  rw [vacated_removeAll, get_removeAll, if_neg, present]
  intro member
  rw [Option.mem_toList] at member
  obtain ⟨existing, found, slot⟩ := (indexed.slots _ id).mp member
  rw [present] at found
  cases found
  exact elsewhere slot

theorem Roomy.inserted {pool : Mempool} {now : UInt64} {transaction : Transaction} {spare : Nat}
    (roomy : pool.Roomy now (transaction.consensusEncode.length + spare))
    (vacant : pool.Vacant transaction) : (pool.inserted transaction now).Roomy now spare where
  indexed := roomy.indexed.inserted vacant now
  young id entry found := by
    change (pool.entries.insert transaction.id _)[id]? = some entry at found
    rw [get_insert] at found
    split at found
    · cases found
      unfold Expired saturatingSub
      rw [checkedSub_of_le (Nat.le_refl _), UInt64.sub_self]
      exact UInt64.not_lt.mpr (UInt64.le_iff_toNat_le.mpr (Nat.zero_le _))
    · exact roomy.young id entry found
  room := by
    have room := roomy.room
    change pool.bytes + transaction.consensusEncode.length + spare ≤ pool.policy.maxMempoolBytes
    omega

theorem Roomy.accept {pool : Mempool} {now : UInt64} {transaction : Transaction} {spare : Nat}
    (roomy : pool.Roomy now (transaction.consensusEncode.length + spare)) (state : LedgerState) :
    (pool.accept transaction state now).2.Roomy now spare ∧
      ∀ (id : Hash32) (entry : MempoolEntry), pool.entries[id]? = some entry →
        entry.transaction.nonce < nonceOf state entry.transaction.sender →
        (pool.accept transaction state now).2.entries[id]? = some entry := by
  have unchanged : pool.Roomy now spare := roomy.less (Nat.le_add_left _ _)
  by_cases admits : pool.Admits transaction state
  · have vacant := roomy.indexed.vacant admits.fresh
    have freed : (pool.vacated transaction).Roomy now
        (transaction.consensusEncode.length + spare) := by
      rw [vacated_removeAll]
      exact roomy.removeAll _
    have keeps : ∀ (id : Hash32) (entry : MempoolEntry), pool.entries[id]? = some entry →
        entry.transaction.nonce < nonceOf state entry.transaction.sender →
        (pool.vacated transaction).entries[id]? = some entry := by
      intro id entry present below
      apply roomy.indexed.vacated_keeps present
      intro same
      obtain ⟨sender, nonce⟩ := Prod.mk.inj same
      rw [sender, nonce] at below
      exact UInt64.not_lt.mpr (relayed_nonce admits.relayed) below
    have added := freed.inserted vacant
    obtain ⟨funded, known⟩ := added.indexed.funding_known transaction.sender state
    rw [roomy.indexed.accept_admitted admits, insertFunded_eq, known]
    cases funded with
    | false =>
      dsimp only
      rw [inserted_remove vacant]
      exact ⟨freed.less (Nat.le_add_left _ _), keeps⟩
    | true =>
      dsimp only
      rw [expireAndTrim_rest added.young (Nat.le_trans (Nat.le_add_right _ _) added.room)]
      refine ⟨added, fun id entry present below => ?_⟩
      have kept := keeps id entry present below
      change ((pool.vacated transaction).entries.insert transaction.id _)[id]? = some entry
      rw [get_insert, if_neg, kept]
      intro same
      rw [← same, vacant.id] at kept
      cases kept
  · rcases roomy.indexed.accept_refused admits now with ⟨_, _, refused⟩ | ⟨_, _, known⟩
    · rw [refused]
      exact ⟨unchanged, fun _ _ present _ => present⟩
    · rw [known]
      exact ⟨unchanged, fun _ _ present _ => present⟩

end Mempool

def encodedBytes (transactions : List Transaction) : Nat :=
  (transactions.map fun transaction => transaction.consensusEncode.length).sum

/-- With room for all of them, putting transactions back evicts no stale entry. -/
theorem resurrect_keeps {confirmed detached : List Transaction} {pool : Mempool} {state : LedgerState}
    {now : UInt64} (roomy : pool.Roomy now (encodedBytes detached)) {id : Hash32} {entry : MempoolEntry}
    (present : pool.entries[id]? = some entry)
    (below : entry.transaction.nonce < nonceOf state entry.transaction.sender) :
    (Node.resurrect pool confirmed detached state now).entries[id]? = some entry := by
  induction detached generalizing pool with
  | nil => exact present
  | cons transaction rest ih =>
    have first : pool.Roomy now (transaction.consensusEncode.length + encodedBytes rest) := roomy
    unfold Node.resurrect
    rw [List.foldl_cons]
    by_cases again : transaction.id ∈ confirmed.map Transaction.id
    · rw [if_pos again]
      exact ih (first.less (Nat.le_add_left _ _)) present
    · rw [if_neg again]
      obtain ⟨left, kept⟩ := first.accept state
      exact ih left (kept id entry present below)

namespace Node

/-- No entry of the pool is below the account of its sender. -/
def Current (node : Node) : Prop :=
  ∀ (id : Hash32) (entry : MempoolEntry), node.mempool.entries[id]? = some entry →
    nonceOf node.chain.state entry.transaction.sender ≤ entry.transaction.nonce

/-- An entry in the slot of an arriving transaction, under the id of none of them. -/
structure Conflicting (node : Node) (disk : Disk) (block : Block) (id : Hash32) (entry : MempoolEntry) :
    Prop where
  present : node.mempool.entries[id]? = some entry
  other : id ∉ (node.arriving disk block).map Transaction.id
  slot : ∃ transaction ∈ node.arriving disk block,
    transaction.sender = entry.transaction.sender ∧ transaction.nonce = entry.transaction.nonce

end Node

theorem removeConfirmed_get {pool : Mempool} {transactions : List Transaction} {id : Hash32} :
    (pool.removeConfirmed transactions).entries[id]? =
      if id ∈ transactions.map Transaction.id then none else pool.entries[id]? := by
  rw [Mempool.removeConfirmed_eq, Mempool.get_removeAll]

/-- After a change of the active chain no entry is stale when each entry in the slot of
an arriving transaction has the id of one. That is needed too in an extension, and where
the pool has room for what departs. -/
theorem entries_current {node after : Node} {env : NodeEnv} {block : Block} {event : ChainEvent}
    (reached : node.chain.Reached env.pow) (current : node.Current)
    (submitted : node.submitBlock env block = (.ok event, after)) (active : event.Activates) :
    ((∀ (id : Hash32) (entry : MempoolEntry), ¬node.Conflicting env.disk block id entry) →
      after.Current) ∧
    (block.header.previousBlock = node.chain.tip.id ∨
        node.mempool.Roomy env.now (encodedBytes (node.departing env.disk block)) →
      after.Current →
      ∀ (id : Hash32) (entry : MempoolEntry), ¬node.Conflicting env.disk block id entry) := by
  have valid := reached.valid
  obtain ⟨storage, candidate, saved, recorded, stored, result⟩ := submitBlock_active submitted active
  have moves := recorded.moves active valid (Storage.saveChain_ok stored).1
  obtain ⟨kept, branch, shape, arrives⟩ := moves.branch
  have chain : after.chain = candidate := by
    rw [result]
    rfl
  have mempool : after.mempool = Node.resurrect
      (node.mempool.removeConfirmed (node.arriving env.disk block)) (node.arriving env.disk block)
      (node.departing env.disk block) candidate.state env.now := by
    rw [result]
    unfold Node.activate
    dsimp only
    rw [moves.moved]
    rfl
  have stale : ∀ {id : Hash32} {entry : MempoolEntry}, node.mempool.entries[id]? = some entry →
      (entry.transaction.nonce < nonceOf candidate.state entry.transaction.sender ↔
        ∃ transaction ∈ node.arriving env.disk block,
          transaction.sender = entry.transaction.sender ∧
            transaction.nonce = entry.transaction.nonce) := by
    intro id entry present
    rw [arrives]
    exact valid.branch_slot moves.valid shape (current id entry present)
  unfold Node.Current
  rw [mempool, chain]
  constructor
  · intro none id entry found
    rcases resurrect_entries found with earlier | above
    · rw [removeConfirmed_get] at earlier
      split at earlier
      next => cases earlier
      next other =>
        apply UInt64.not_lt.mp
        intro below
        exact none id entry ⟨earlier, other, (stale earlier).mp below⟩
    · exact above
  · intro quiet settled id entry conflict
    have below := (stale conflict.present).mpr conflict.slot
    have left : (node.mempool.removeConfirmed (node.arriving env.disk block)).entries[id]? =
        some entry := by
      rw [removeConfirmed_get, if_neg conflict.other]
      exact conflict.present
    apply UInt64.not_lt.mpr (settled id entry _) below
    rcases quiet with next | roomy
    · have leaves : node.departing env.disk block = [] := if_pos next
      rw [leaves]
      exact left
    · rw [Mempool.removeConfirmed_eq] at left ⊢
      exact resurrect_keeps (roomy.removeAll _) left below

end

/-! A transaction that is confirmed instead of the one in the pool. -/

structure Paid (chain : Chain) : Prop where
  reachable : @Chain.Reachable spelled byNonce chain
  scheduled : OnSchedule chain.blocks
  work : chain.cumulativeWork = chain.blocks.length * 16384
  length : chain.blocks.length = 102
  balance : chain.state.balanceOf LedgerState.addressMin = 1000000000
  nonce : nonceOf chain.state LedgerState.addressMin = 0

theorem paid_chain : ∃ chain, Paid chain := by
  let _ := spelled
  obtain ⟨chain, reachable, _, length, scheduled, work, rewards, bare, _⟩ :=
    reachable_quiet spelled_heights (byNonce_lenient (show (1 : UInt64) ≠ 0 by decide))
      LedgerState.addressMin (show 101 ≤ 2 ^ 32 by decide)
  have empty : chain.blocks.flatMap Block.transactions = [] := List.flatMap_eq_nil_iff.mpr bare
  refine ⟨chain, reachable, scheduled, work, length, ?_, reachable.valid.nonceOf_bare empty _⟩
  have height : chain.height.toNat = 101 := by
    rw [reachable.height_eq, length]
  have held := reachable.balance LedgerState.addressMin
  have reward : rewardAt chain.blocks 1 LedgerState.addressMin = 1000000000 :=
    rewards 1 (by decide) (by decide)
  rw [empty, height, show Finset.Icc 1 (101 - 100) = {1} from rfl, Finset.sum_singleton, reward] at held
  exact held

def bidPool [Crypto] : Mempool := (Mempool.new default).inserted (bid 0 0 1000 100000) 0

theorem bidPool_get [Crypto] {id : Hash32} {entry : MempoolEntry}
    (found : bidPool.entries[id]? = some entry) : entry.transaction = bid 0 0 1000 100000 := by
  change ((∅ : BTreeMap Hash32 MempoolEntry).insert _ _)[id]? = some entry at found
  rw [get_insert, get_empty] at found
  split at found
  · cases found
    rfl
  · cases found

theorem Paid.pool {chain : Chain} (paid : Paid chain) :
    @Mempool.Reachable spelled default (@bidPool spelled) := by
  let _ := spelled
  have covered : (1000 : UInt64) + 100000 ≤
      (chain.state.account LedgerState.addressMin).balance := by
    have balance : (chain.state.account LedgerState.addressMin).balance.toNat = 1000000000 := paid.balance
    rw [UInt64.le_iff_toNat_le, balance]
    decide
  have entered : (Mempool.new default).accept (bid 0 0 1000 100000) chain.state 0 =
      (.ok (bid 0 0 1000 100000).id, bidPool) :=
    Mempool.accept_bid paid.nonce (by decide) (by decide) (by decide) (by decide) (by decide) covered
  have step : Mempool.Reachable default
      ((Mempool.new default).accept (bid 0 0 1000 100000) chain.state 0).2 :=
    Mempool.Reachable.new.accept (bid 0 0 1000 100000) chain.state 0
  rwa [entered] at step

theorem Paid.mines {chain : Chain} (paid : Paid chain) (number : Nat) {fee : UInt64}
    (small : fee ≤ 200000) :
    ∃ claim grown, @Mines spelled chain claim [bid number 0 1000 fee] fee 1800000000 grown := by
  let _ := spelled
  have supply := paid.reachable.valid.supply_bound
  have range : MAX_MONEY.toNat = 2 ^ 62 - 1 := rfl
  have length := paid.length
  obtain ⟨maturedState, moved⟩ :=
    LedgerState.matured_succeeds chain.state (chain.tip.header.height + 1) (by omega)
  obtain ⟨balances, _, kept, _⟩ := LedgerState.matured_ok moved
  have balance := balances LedgerState.addressMin
  rw [paid.balance] at balance
  have slot : (bid number 0 1000 fee).nonce = nonceOf maturedState LedgerState.addressMin := by
    rw [nonceOf_matured moved]
    exact paid.nonce.symm
  have amount : (bid number 0 1000 fee).amount.toNat = 1000 := rfl
  have most : (200000 : UInt64).toNat = 200000 := rfl
  rw [UInt64.le_iff_toNat_le, most] at small
  have pays : (bid number 0 1000 fee).amount.toNat + (bid number 0 1000 fee).fee.toNat ≤
      maturedState.balanceOf LedgerState.addressMin := by
    change 1000 + fee.toNat ≤ _
    omega
  have money : maturedState.totalBalance ≤ MAX_MONEY.toNat := by
    unfold LedgerState.supply at kept supply
    omega
  obtain ⟨next, applied, _⟩ := relayed_applies
    (bid_relayable number (by decide) (by decide) (by decide) (by omega))
    (List.not_mem_nil : (bid number 0 1000 fee).id ∉ []) slot pays money
  have sum : checkedAdd 0 (bid number 0 1000 fee).fee = some fee := by
    change checkedAdd 0 fee = some fee
    rw [checkedAdd_of_lt (by change 0 + fee.toNat < _; omega), UInt64.zero_add]
  have limit : fee ≤ MAX_MONEY := by
    rw [UInt64.le_iff_toNat_le]
    omega
  have applies : applyTransactions maturedState [bid number 0 1000 fee] = .ok (next, fee) :=
    applyFrom_cons_ok.mpr ⟨next, fee, applied, sum, limit, rfl⟩
  have late : 1788984000 + chain.blocks.length * 64 ≤ (1800000000 : UInt64).toNat := by
    rw [length]
    decide
  exact mines_transactions paid.reachable paid.scheduled paid.work (by omega) moved applies
    (show 1 ≤ MAX_BLOCK_TRANSACTIONS by decide) (encode_bid number 0 1000 fee) late

structure Outbid [Crypto] (node after : Node) (env : NodeEnv) (block : Block) (event : ChainEvent) :
    Prop where
  reached : node.chain.Reached env.pow
  pool : Mempool.Reachable default node.mempool
  current : node.Current
  submitted : node.submitBlock env block = (.ok event, after)
  active : event.Activates
  stale : ¬after.Current

/-- An extension of a saved chain is adopted. -/
theorem submitBlock_extends [Crypto] {node : Node} {env : NodeEnv} {block : Block} {grown : Chain}
    (reachable : node.chain.Reachable env.pow)
    (appended : node.chain.append block env.pow env.now =
      .ok (.extended block.id block.header.height, grown))
    (short : grown.blocks.length ≤ 2 ^ 63) (clock : fitsI64 env.now) (reliable : env.disk = Disk.reliable) :
    ∃ storage, node.submitBlock env block = (.ok (.extended block.id block.header.height),
      { node with storage }.activate env block (.extended block.id block.header.height) grown) := by
  obtain ⟨_, saved, _, _, submitted⟩ :=
    submitBlock_appended reachable.valid reachable.ids_nodup appended short clock reliable
  exact ⟨saved, submitted⟩

section Extended

variable [Crypto] {node : Node} {env : NodeEnv} {block : Block} {grown : Chain} {id : Hash32}
  {height : UInt64}

theorem activate_extended {entry : MempoolEntry} {key : Hash32}
    (settled : (node.activate env block (.extended id height) grown).Current)
    (stays : (node.mempool.removeConfirmed block.transactions).entries[key]? = some entry) :
    nonceOf grown.state entry.transaction.sender ≤ entry.transaction.nonce := settled key entry stays

theorem extended_contains (key : Hash32) :
    (node.activate env block (.extended id height) grown).mempool.contains key =
      if key ∈ block.transactions.map Transaction.id then false else node.mempool.contains key := by
  change ((node.mempool.removeConfirmed block.transactions).entries[key]?).isSome = _
  rw [removeConfirmed_get]
  split
  · rfl
  · rfl

end Extended

theorem outbid_happens : ∃ (node after : Node) (env : NodeEnv) (block : Block) (event : ChainEvent),
    @Outbid spelled node after env block event := by
  let _ := spelled
  obtain ⟨chain, paid⟩ := paid_chain
  obtain ⟨claim, grown, mines⟩ := paid.mines 1 (UInt64.le_refl 200000)
  let block := blockWith chain.tip claim [bid 1 0 1000 200000] grown.state (nextBits chain.blocks) 1
  let env : NodeEnv := ⟨byNonce, 1800000000, Disk.reliable, default⟩
  let node : Node := { restingNode chain LedgerState.addressMin with mempool := bidPool }
  have length : grown.blocks.length = 103 := by
    rw [mines.blocks, List.length_append, paid.length]
    rfl
  have clock : fitsI64 env.now := of_decide_eq_true rfl
  have reachable : node.chain.Reachable env.pow := paid.reachable
  have appended : node.chain.append block env.pow env.now =
    .ok (.extended block.id block.header.height, grown) := mines.appended
  obtain ⟨storage, submitted⟩ := submitBlock_extends reachable appended (by omega) clock rfl
  have extended := reachable.append appended
  refine ⟨node, _, env, block, _, reachable.reached, paid.pool, ?_, submitted, trivial, ?_⟩
  · intro id entry found
    rw [bidPool_get found]
    exact UInt64.le_of_eq paid.nonce
  · intro settled
    have other : (bid 0 0 1000 100000).id ∉ [bid 1 0 1000 200000].map Transaction.id := by
      rw [List.map_singleton, List.mem_singleton, bid_id, bid_id]
      decide
    have stays : (bidPool.removeConfirmed [bid 1 0 1000 200000]).entries[(bid 0 0 1000 100000).id]? =
        some ⟨bid 0 0 1000 100000, 0, (bid 0 0 1000 100000).consensusEncode.length⟩ := by
      rw [removeConfirmed_get, if_neg other]
      exact get_insert_self _ _ _
    have member : bid 1 0 1000 200000 ∈ Node.blockTransactions grown.blocks := by
      rw [mines.blocks]
      unfold Node.blockTransactions
      rw [List.flatMap_append, List.flatMap_singleton]
      exact List.mem_append_right _ (List.mem_singleton_self _)
    have sender : (bid 1 0 1000 200000).sender = LedgerState.addressMin := rfl
    have nonce : (bid 1 0 1000 200000).nonce = 0 := rfl
    have confirmed := (extended.valid.slot_used LedgerState.addressMin 0).mpr
      ⟨bid 1 0 1000 200000, member, sender, nonce⟩
    have above := activate_extended settled stays
    exact UInt64.not_lt.mpr above confirmed

theorem outbid_entry_stays :
    ∃ (_ : Crypto) (node after : Node) (env : NodeEnv) (block : Block) (event : ChainEvent),
      node.chain.Reached env.pow ∧ Mempool.Reachable default node.mempool ∧ node.Current ∧
        node.submitBlock env block = (.ok event, after) ∧ event.Activates ∧ ¬after.Current := by
  let _ := spelled
  obtain ⟨node, after, env, block, event, outbid⟩ := outbid_happens
  exact ⟨spelled, node, after, env, block, event, outbid.reached, outbid.pool, outbid.current,
    outbid.submitted, outbid.active, outbid.stale⟩

def queuePool [Crypto] : Mempool := bidPool.inserted (bid 0 1 1000 100000) 0

theorem queuePool_get [Crypto] {id : Hash32} {entry : MempoolEntry}
    (found : queuePool.entries[id]? = some entry) :
    (id = (bid 0 1 1000 100000).id ∧ entry.transaction = bid 0 1 1000 100000) ∨
      id = (bid 0 0 1000 100000).id ∧ entry.transaction = bid 0 0 1000 100000 := by
  change (((∅ : BTreeMap Hash32 MempoolEntry).insert _ _).insert _ _)[id]? = some entry at found
  rw [get_insert] at found
  split at found
  next same =>
    cases found
    exact Or.inl ⟨same.symm, rfl⟩
  next =>
    rw [get_insert, get_empty] at found
    split at found
    next same =>
      cases found
      exact Or.inr ⟨same.symm, rfl⟩
    next => cases found

/-- A block with the first bid of a queue takes it out, and the second stays, at the
account nonce. -/
theorem confirmed_bid_leaves :
    ∃ (_ : Crypto) (node after : Node) (env : NodeEnv) (block : Block) (event : ChainEvent)
      (confirmed waiting : Transaction),
      node.submitBlock env block = (.ok event, after) ∧
        node.mempool.contains confirmed.id = true ∧ after.mempool.contains confirmed.id = false ∧
        after.mempool.contains waiting.id = true ∧ after.Current := by
  let _ := spelled
  obtain ⟨chain, paid⟩ := paid_chain
  obtain ⟨claim, grown, mines⟩ := paid.mines 0 (show (100000 : UInt64) ≤ 200000 by decide)
  let block := blockWith chain.tip claim [bid 0 0 1000 100000] grown.state (nextBits chain.blocks) 1
  let env : NodeEnv := ⟨byNonce, 1800000000, Disk.reliable, default⟩
  let node : Node := { restingNode chain LedgerState.addressMin with mempool := queuePool }
  have length : grown.blocks.length = 103 := by
    rw [mines.blocks, List.length_append, paid.length]
    rfl
  have clock : fitsI64 env.now := of_decide_eq_true rfl
  have reachable : node.chain.Reachable env.pow := paid.reachable
  have appended : node.chain.append block env.pow env.now =
    .ok (.extended block.id block.header.height, grown) := mines.appended
  obtain ⟨storage, submitted⟩ := submitBlock_extends reachable appended (by omega) clock rfl
  have apart : (bid 0 1 1000 100000).id ≠ (bid 0 0 1000 100000).id := by
    rw [bid_id, bid_id]
    decide
  have current : node.Current := by
    intro id entry found
    have account : nonceOf node.chain.state LedgerState.addressMin = 0 := paid.nonce
    rcases queuePool_get found with ⟨_, second⟩ | ⟨_, first⟩
    · rw [second]
      change nonceOf node.chain.state LedgerState.addressMin ≤ 1
      rw [account]
      decide
    · rw [first]
      change nonceOf node.chain.state LedgerState.addressMin ≤ 0
      rw [account]
      decide
  have arrives : node.arriving env.disk block = [bid 0 0 1000 100000] := if_pos rfl
  have free : ∀ (id : Hash32) (entry : MempoolEntry), ¬node.Conflicting env.disk block id entry := by
    intro id entry conflict
    have other := conflict.other
    obtain ⟨transaction, arriving, _, nonce⟩ := conflict.slot
    rw [arrives, List.mem_singleton] at arriving
    rw [arrives, List.map_singleton, List.mem_singleton] at other
    rcases queuePool_get conflict.present with ⟨_, second⟩ | ⟨first, _⟩
    · rw [arriving, second] at nonce
      exact absurd nonce (by decide)
    · exact other first
  have settled := (entries_current reachable.reached current submitted trivial).1 free
  have first : node.mempool.contains (bid 0 0 1000 100000).id = true := by
    change ((bidPool.entries.insert _ _)[(bid 0 0 1000 100000).id]?).isSome = true
    rw [get_insert, if_neg apart]
    exact congrArg Option.isSome (get_insert_self _ _ _)
  have second : node.mempool.contains (bid 0 1 1000 100000).id = true := by
    change ((bidPool.entries.insert _ _)[(bid 0 1 1000 100000).id]?).isSome = true
    rw [get_insert_self]
    rfl
  have brings : block.transactions = [bid 0 0 1000 100000] := rfl
  refine ⟨spelled, node, _, env, block, _, bid 0 0 1000 100000, bid 0 1 1000 100000, submitted,
    first, ?_, ?_, settled⟩
  · rw [extended_contains, brings, List.map_singleton, if_pos (List.mem_singleton_self _)]
  · rw [extended_contains, brings, List.map_singleton, if_neg (fun member =>
      apart (List.mem_singleton.mp member))]
    exact second

end ParitrNode
