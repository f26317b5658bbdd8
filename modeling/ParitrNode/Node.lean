import ParitrNode.Chain
import ParitrNode.Mempool
import ParitrNode.Storage
import ParitrNode.WorksharePool
import ParitrNode.Wire

/-!
The node: block submission, the workshare pool, mining candidates, and the
handler of peer messages. Each method runs to its end before the next one
starts; what it broadcasts is appended to `events`.
-/

namespace ParitrNode
open OrderedMap Checked

/-- The traversal of a hash map visits its entries in some order. -/
structure HashOrder where
  arrange : {α : Type} → List (Hash32 × α) → List (Hash32 × α)
  perm : ∀ {α : Type} (entries : List (Hash32 × α)), (arrange entries).Perm entries

instance : Inhabited HashOrder := ⟨⟨fun entries => entries, fun entries => List.Perm.refl entries⟩⟩

/-- What a call reads from outside the node: RandomX, the clock, the disk and
the order of hash-map traversals. -/
structure NodeEnv where
  pow : PowVerifier
  now : UInt64
  disk : Disk
  order : HashOrder

structure Node where
  storage : Storage
  chain : Chain
  mempool : Mempool
  workshares : WorksharePool
  minerAddress : Option Address
  syncQueues : BTreeMap Hash32 (List Hash32)
  /-- Orphan shares with the peer that sent them. -/
  pendingWorkshares : BTreeMap Hash32 (Hash32 × Workshare)
  generation : UInt64
  events : List WireMessage

structure MiningCandidate where
  block : Block
  template : BlockTemplate
  seed : ByteCodec.Bytes
  blockTarget : Nat
  workshareTarget : Nat
  generation : UInt64

namespace Node

def broadcast (node : Node) (message : WireMessage) : Node :=
  { node with events := node.events ++ [message] }

def storageError (reason : String) : ConsensusError := .storageInvariant reason

variable [Crypto]

def openFresh (disk : Disk) (now : UInt64) (minerAddress : Option Address) : Except String Node := do
  let storage ← (default : Storage).saveChain Chain.genesis disk now
  return { storage
           chain := Chain.genesis
           mempool := Mempool.new default
           workshares := WorksharePool.reset Chain.genesis.tip.id
           minerAddress
           syncQueues := ∅
           pendingWorkshares := ∅
           generation := 0
           events := [] }

/-- `Node::open` on the tables of an earlier run: only the chain comes back. -/
def reopen (storage : Storage) (disk : Disk) (pow : PowVerifier) (now : UInt64)
    (minerAddress : Option Address) : Except String Node := do
  match ← storage.loadActiveBlocks with
  | [] => started (← storage.saveChain Chain.genesis disk now) Chain.genesis
  | stored => match Chain.fromBlocks stored pow now with
    | .error _ => .error "stored active chain failed full validation"
    | .ok chain => started storage chain
where
  started (storage : Storage) (chain : Chain) : Except String Node :=
    .ok { storage
          chain
          mempool := Mempool.new default
          workshares := WorksharePool.reset chain.tip.id
          minerAddress
          syncQueues := ∅
          pendingWorkshares := ∅
          generation := 0
          events := [] }

/-- The active chain first, then storage, whose errors count as absence. -/
def blockByHash (node : Node) (disk : Disk) (hash : Hash32) : Option Block :=
  (node.chain.blockByHash hash).or
    (match node.storage.block hash disk with
      | .ok found => found
      | .error _ => none)

def submitTransaction (node : Node) (env : NodeEnv) (transaction : Transaction) :
    Except MempoolError Hash32 × Node :=
  match node.mempool.accept transaction node.chain.state env.now with
  | (.error error, mempool) => (.error error, { node with mempool })
  | (.ok id, mempool) =>
    (.ok id, { node with mempool }.broadcast (.inventory .transaction id))

/-! Block submission. -/

/-- The walk from a block to the active chain; `oldest :: later` is the branch
collected so far, oldest first. The result is the fork height and the branch. -/
def walkBranch (active : Chain) (storage : Storage) (disk : Disk) (seen : List Hash32)
    (oldest : Block) (later : List Block) : Except ConsensusError (UInt64 × List Block) :=
  let parentHash := oldest.header.previousBlock
  match active.blockByHash parentHash with
  | some parent => .ok (parent.header.height, oldest :: later)
  | none =>
    if parentHash ∈ seen ∨ later.length + 1 > 100000 then .error .wrongParent
    else match storage.block parentHash disk with
      | .error reason => .error (storageError reason)
      | .ok none => .error .wrongParent
      | .ok (some parent) =>
        walkBranch active storage disk (parentHash :: seen) parent (oldest :: later)
termination_by 100001 - later.length
decreasing_by
  simp only [List.length_cons]
  omega

def assembleCandidate (node : Node) (disk : Disk) (block : Block) :
    Except ConsensusError (List Block) := do
  let (forkHeight, branch) ← walkBranch node.chain node.storage disk [] block []
  -- `active.blocks()[..=fork_height]` panics past the end
  if forkHeight.toNat < node.chain.blocks.length then
    return node.chain.blocks.take (forkHeight.toNat + 1) ++ branch
  else .error .panicked

/-- The event and the chain after validating the block where it belongs. -/
def placeBlock (node : Node) (env : NodeEnv) (block : Block) :
    Except ConsensusError (ChainEvent × Chain) :=
  if block.header.previousBlock = node.chain.tip.id then node.chain.append block env.pow env.now
  else do
    let candidate ← node.assembleCandidate env.disk block
    node.chain.considerChain candidate env.pow env.now

def blockTransactions (blocks : List Block) : List Transaction :=
  blocks.flatMap (fun block => block.transactions)

/-- Transactions that enter and leave the active chain with an event. -/
def movedTransactions (old new : Chain) (block : Block) : ChainEvent →
    List Transaction × List Transaction
  | .extended _ _ => (block.transactions, [])
  | .reorganized _ _ forkHeight =>
    (blockTransactions (new.blocks.drop (forkHeight + 1)),
      blockTransactions (old.blocks.drop (forkHeight + 1)))
  | _ => ([], [])

/-- Resurrection of detached transactions is best effort: errors are dropped. -/
def resurrect (mempool : Mempool) (confirmed detached : List Transaction) (state : LedgerState)
    (now : UInt64) : Mempool :=
  detached.foldl (fun mempool transaction =>
    if transaction.id ∈ confirmed.map Transaction.id then mempool
    else (mempool.accept transaction state now).2) mempool

/-- The in-memory part of a change of the active chain. -/
def activate (node : Node) (env : NodeEnv) (block : Block) (event : ChainEvent) (candidate : Chain) :
    Node :=
  let (confirmed, detached) := movedTransactions node.chain candidate block event
  let mempool := resurrect (node.mempool.removeConfirmed confirmed) confirmed detached
    candidate.state env.now
  { node with
    mempool
    chain := candidate
    workshares := WorksharePool.reset candidate.tip.id
    pendingWorkshares := ∅
    generation := node.generation + 1 }.broadcast (.inventory .block candidate.tip.id)

def submitBlock (node : Node) (env : NodeEnv) (block : Block) :
    Except ConsensusError ChainEvent × Node :=
  if (node.chain.blockByHash block.id).isSome then (.ok .known, node)
  else match node.placeBlock env block with
    | .error error => (.error error, node)
    | .ok (event, candidate) =>
      match node.storage.storeSideBlock block env.disk env.now with
      | .error reason => (.error (storageError reason), node)
      | .ok storage =>
        let stored := { node with storage }
        match event with
        | .known => (.ok event, stored)
        | .sideChain => (.ok event, stored)
        | .extended _ _ | .reorganized _ _ _ =>
          match storage.saveChain candidate env.disk env.now with
          | .error reason => (.error (storageError reason), stored)
          | .ok saved => (.ok event, { stored with storage := saved }.activate env block event candidate)

/-! Templates, workshares and mining. -/

def registerTemplate (node : Node) (template : BlockTemplate) : Except ConsensusError (Hash32 × Node) :=
  if template.version ≠ BlockTemplate.VERSION ∨
      template.consensusEncode.length > MAX_TEMPLATE_BYTES then .error .sizeLimit
  else if template.height ≠ saturatingAdd node.chain.height 1 ∨
      template.parent ≠ node.chain.tip.id then .error .invalidWorkshareChain
  else if (node.workshares.templates[template.id]?).isSome then .ok (template.id, node)
  else do
    validateTemplateTransactions template.transactions node.chain.state template.height
    let workshares ← node.workshares.registerTemplate template
    return (template.id, { node with workshares }.broadcast (.inventory .template template.id))

/-- The share settles against the latest timestamp a block may carry now. -/
def submitWorkshare (node : Node) (env : NodeEnv) (share : Workshare) :
    Except ConsensusError (Bool × Node) := do
  let witness ← node.workshares.candidateWitness share
  validateWorkshares witness node.chain.blocks node.chain.state env.pow
    (saturatingAdd env.now MAX_FUTURE_BLOCK_TIME)
  let (changed, workshares) ← node.workshares.accept share
  let generation := if changed then node.generation + 1 else node.generation
  return (changed, { node with workshares, generation }.broadcast (.inventory .workshare share.id))

def candidateFees (transactions : List Transaction) : Except ConsensusError UInt64 :=
  transactions.foldlM (fun total transaction => okOr .moneyRange
    ((checkedAdd total transaction.fee).filter (fun fees => decide (fees ≤ MAX_MONEY)))) 0

/-- The clock, but after the parent and after the median time. The release
build wraps both additions. -/
def candidateTimestamp (now : UInt64) (chain : Chain) : UInt64 :=
  max (max now (chain.tip.header.timestamp + 1)) (medianTimePast chain.blocks + 1)

def miningCandidate (node : Node) (env : NodeEnv) (extranonce : UInt64) :
    Except ConsensusError (MiningCandidate × Node) := do
  let chain := node.chain
  let parent := chain.tip
  let height := parent.header.height + 1
  let transactions ← okOr .panicked (node.mempool.select chain.state MAX_BLOCK_TRANSACTIONS)
  let fees ← candidateFees transactions
  let finder ← okOr .rewardMismatch node.minerAddress
  let allocation ← rewardAllocation height finder fees chain.blocks
  let claim : RewardClaim :=
    { version := RewardClaim.VERSION, height, finder, amount := allocation.finderAmount, extranonce }
  let transition ← transitionForCandidate height claim transactions chain.blocks chain.state
  let witness ← okOr .panicked node.workshares.witness
  let bits := nextBits chain.blocks
  let header : BlockHeader :=
    { version := HEADER_VERSION
      protocol := PROTOCOL_VERSION
      height
      previousBlock := parent.id
      transactionsRoot := merkleRoot (claim.id :: transactions.map Transaction.id)
      stateRoot := transition.state.root
      workshareRoot := witness.root
      timestamp := candidateTimestamp env.now chain
      bits
      nonce := 0 }
  let template : BlockTemplate :=
    { version := BlockTemplate.VERSION, height, parent := parent.id, transactions }
  let workshares ← node.workshares.registerTemplate template
  let registered :=
    if (node.workshares.templates[template.id]?).isSome then { node with workshares }
    else { node with workshares }.broadcast (.inventory .template template.id)
  let seed ← randomxSeed chain.blocks height
  let blockTarget ← okOr .invalidTarget (bitsToTarget bits)
  let shareBits ← okOr .invalidTarget (workshareBits bits)
  let workshareTarget ← okOr .invalidTarget (bitsToTarget shareBits)
  return ({ block :=
              { header, rewardClaim := some claim, transactions, workshareWitness := witness }
            template, seed, blockTarget, workshareTarget, generation := node.generation },
    registered)

/-! Header synchronisation. -/

/-- The heights of the locator: ten single steps, then doubling ones, down to 0. -/
def locatorHeights (height step count : Nat) : List Nat :=
  if height = 0 then [0]
  else
    let next := height - max step 1
    height :: locatorHeights next (if count + 1 ≥ 10 then step * 2 else step) (count + 1)
termination_by height

/-- Heights of the active chain are its indices; a missing one is the failing `expect`. -/
def blockLocator (node : Node) : List Hash32 :=
  (locatorHeights node.chain.height.toNat 1 0).filterMap fun height =>
    node.chain.blocks[height]?.map Block.id

/-- The reply to `GetHeaders`: after the first locator hash of the active chain. -/
def headersAfter (node : Node) (locator : List Hash32) (stop : Hash32) : List BlockHeader :=
  let start := ((locator.findSome? node.chain.blockByHash).map
    (fun block => block.header.height + 1)).getD 0
  (((node.chain.blocks.drop start.toNat).take MAX_HEADERS).takeWhile
    (fun block => decide (stop = Hash32.ZERO ∨ block.id ≠ stop))).map Block.header

/-- The loop over received headers: linked to each other and to a known block.
The result is the ids not known yet; `none` drops the queue of the peer. -/
def unknownHeaders (node : Node) (disk : Disk) :
    Option (Hash32 × UInt64) → List BlockHeader → Option (List Hash32)
  | _, [] => some []
  | expected, header :: rest =>
    if header.version ≠ HEADER_VERSION ∨ header.protocol ≠ PROTOCOL_VERSION then none
    else
      let linked := match expected with
        | some (parent, height) => decide (header.previousBlock = parent ∧ header.height = height)
        | none => match node.blockByHash disk header.previousBlock with
          | some parent => decide (header.height = saturatingAdd parent.header.height 1)
          | none => false
      if linked = false then none
      else do
        let later ← unknownHeaders node disk (some (header.id, saturatingAdd header.height 1)) rest
        return if (node.blockByHash disk header.id).isNone then header.id :: later else later

def dropQueue (node : Node) (peer : Hash32) : Node :=
  { node with syncQueues := node.syncQueues.erase peer }

def handleHeaders (node : Node) (env : NodeEnv) (peer : Hash32) (headers : List BlockHeader) :
    Option WireMessage × Node :=
  if headers = [] ∨ headers.length > MAX_HEADERS then (none, node.dropQueue peer)
  else match node.unknownHeaders env.disk none headers with
    | none => (none, node.dropQueue peer)
    | some [] => (none, node)
    | some (next :: rest) =>
      (some (.getData .block next),
        { node with syncQueues := node.syncQueues.insert peer (next :: rest) })

/-- A delivered block: any error drops the queue of the peer, and so does a
block that is not at its front. -/
def handleBlock (node : Node) (env : NodeEnv) (peer : Hash32) (block : Block) :
    Option WireMessage × Node :=
  match node.submitBlock env block with
  | (.error _, after) => (none, after.dropQueue peer)
  | (.ok _, after) =>
    match after.syncQueues[peer]? with
    | none => (none, after)
    | some queue =>
      if queue.head? ≠ some block.id then (none, after.dropQueue peer)
      else match queue.tail with
        | next :: rest =>
          (some (.getData .block next),
            { after with syncQueues := after.syncQueues.insert peer (next :: rest) })
        | [] => (some (.getHeaders after.blockLocator Hash32.ZERO), after.dropQueue peer)

/-! Orphan workshares. -/

def shareReady (node : Node) (share : Workshare) : Bool :=
  (node.workshares.templates[share.templateId]?).isSome &&
    (decide (share.previousWorkshare = Hash32.ZERO) ||
      (node.workshares.shares[share.previousWorkshare]?).isSome)

/-- The loop takes one ready orphan out of the pool in each round. -/
def processPending (env : NodeEnv) : Nat → Node → Node
  | 0, node => node
  | count + 1, node =>
    match (env.order.arrange node.pendingWorkshares.toList).find?
        (fun entry => node.shareReady entry.2.2) with
    | none => node
    | some (id, _, share) =>
      let removed := { node with pendingWorkshares := node.pendingWorkshares.erase id }
      match removed.submitWorkshare env share with
      | .error _ => processPending env count removed
      | .ok (_, submitted) => processPending env count submitted

def processPendingWorkshares (node : Node) (env : NodeEnv) : Node :=
  processPending env node.pendingWorkshares.size node

def missingDependency (node : Node) (peer : Hash32) (entry : Hash32 × Hash32 × Workshare) :
    Option WireMessage :=
  let share := entry.2.2
  if entry.2.1 ≠ peer then none
  else if (node.workshares.templates[share.templateId]?).isNone then
    some (.getData .template share.templateId)
  else if share.previousWorkshare ≠ Hash32.ZERO ∧
      (node.workshares.shares[share.previousWorkshare]?).isNone then
    some (.getData .workshare share.previousWorkshare)
  else none

def pendingRequestFor (node : Node) (env : NodeEnv) (peer : Hash32) : Option WireMessage :=
  (env.order.arrange node.pendingWorkshares.toList).findSome? (node.missingDependency peer)

def handleTemplate (node : Node) (env : NodeEnv) (peer : Hash32) (template : BlockTemplate) :
    Option WireMessage × Node :=
  let after := match node.registerTemplate template with
    | .ok (_, registered) => registered.processPendingWorkshares env
    | .error _ => node
  (after.pendingRequestFor env peer, after)

def handleWorkshare (node : Node) (env : NodeEnv) (peer : Hash32) (share : Workshare) :
    Option WireMessage × Node :=
  if node.shareReady share then
    let submitted := match node.submitWorkshare env share with
      | .ok (_, submitted) => submitted
      | .error _ => node
    let after := submitted.processPendingWorkshares env
    (after.pendingRequestFor env peer, after)
  else
    let after :=
      if node.pendingWorkshares.size < 2048 then
        { node with pendingWorkshares := node.pendingWorkshares.insertIfNew share.id (peer, share) }
      else node
    (after.pendingRequestFor env peer, after)

def handleInventory (node : Node) (env : NodeEnv) (kind : ObjectKind) (id : Hash32) :
    Option WireMessage :=
  let wanted := match kind with
    | .block => (node.blockByHash env.disk id).isNone
    | .transaction => !node.mempool.contains id
    | .template => (node.workshares.templates[id]?).isNone
    | .workshare => (node.workshares.shares[id]?).isNone && (node.pendingWorkshares[id]?).isNone
  if wanted then some (.getData kind id) else none

def handleGetData (node : Node) (env : NodeEnv) (kind : ObjectKind) (id : Hash32) :
    Option WireMessage :=
  match kind with
  | .block => (node.blockByHash env.disk id).map .block
  | .transaction => (node.mempool.get id).map .transaction
  | .template => node.workshares.templates[id]?.map .template
  | .workshare => node.workshares.shares[id]?.map .workshare

def handleWire (node : Node) (env : NodeEnv) (peer : Hash32) :
    WireMessage → Option WireMessage × Node
  | .hello _ | .pong _ | .peers _ => (none, node)
  | .ping nonce => (some (.pong nonce), node)
  | .inventory kind id => (node.handleInventory env kind id, node)
  | .getData kind id => (node.handleGetData env kind id, node)
  | .block block => node.handleBlock env peer block
  | .transaction transaction => (none, (node.submitTransaction env transaction).2)
  | .template template => node.handleTemplate env peer template
  | .workshare share => node.handleWorkshare env peer share
  | .getHeaders locator stop => (some (.headers (node.headersAfter locator stop)), node)
  | .headers headers => node.handleHeaders env peer headers

end Node

/-- A node on a chain, freshly activated, with nothing in its mempool. -/
def restingNode [Crypto] (chain : Chain) (miner : Address) : Node :=
  { storage := default
    chain
    mempool := Mempool.new default
    workshares := WorksharePool.reset chain.tip.id
    minerAddress := some miner
    syncQueues := ∅
    pendingWorkshares := ∅
    generation := 0
    events := [] }

end ParitrNode
