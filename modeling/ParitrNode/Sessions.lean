import ParitrNode.DurableChain
import ParitrNode.ForkChoice
import ParitrNode.MessageBudget
import ParitrNode.WireFrames
import ParitrNode.Library.Registry

/-!
A node and its peers: sessions open, spend their message budgets and close in any
interleaving, beside the calls of the RPC server and the miner.
-/

namespace ParitrNode
open ByteCodec OrderedMap Checked Registry

/-! The node with its peers. -/

structure OpenSession where
  peer : Hash32
  inbound : Bool
  budget : MessageBudget

/-- The node, the fields that sessions share, and the sessions that are open. -/
structure Server where
  node : Node
  maxInboundPeers : Nat
  maxOutboundPeers : Nat
  /-- True for inbound and false for outbound. -/
  connectedPeers : BTreeMap Hash32 Bool
  sessions : Nat → Option OpenSession

/-- Who is at the other end, and who opened the connection. -/
def OpenSession.identity (current : OpenSession) : Hash32 × Bool := (current.peer, current.inbound)

namespace Server

def identities (server : Server) (session : Nat) : Option (Hash32 × Bool) :=
  (server.sessions session).map OpenSession.identity

def directionCount (server : Server) (inbound : Bool) : Nat :=
  ((server.connectedPeers.toList.map Prod.snd).filter fun direction => direction = inbound).length

def limit (server : Server) (inbound : Bool) : Nat :=
  if inbound then server.maxInboundPeers else server.maxOutboundPeers

def peerConnected (server : Server) (id : Hash32) (inbound : Bool) : Bool × Server :=
  if (server.connectedPeers[id]?).isSome then (false, server)
  else if server.directionCount inbound ≥ server.limit inbound then (false, server)
  else (true, { server with connectedPeers := server.connectedPeers.insert id inbound })

end Server

def Node.forget (node : Node) (id : Hash32) : Node :=
  { node with
    syncQueues := node.syncQueues.erase id
    pendingWorkshares := node.pendingWorkshares.filter fun _ entry => decide (entry.1 ≠ id) }

def Server.peerDisconnected (server : Server) (id : Hash32) : Server :=
  { server with
    connectedPeers := server.connectedPeers.erase id
    node := server.node.forget id }

section

variable [Crypto]

/-- Calls that come from the RPC server or the miner. -/
inductive LocalCall where
  | submitTransaction (transaction : Transaction)
  | submitBlock (block : Block)
  | registerTemplate (template : BlockTemplate)
  | submitWorkshare (share : Workshare)
  | miningCandidate (extranonce : UInt64)
  | requestSync

def orUnchanged {ε α : Type} (node : Node) : Except ε (α × Node) → Node
  | .ok (_, next) => next
  | .error _ => node

def LocalCall.perform (node : Node) (env : NodeEnv) : LocalCall → Node
  | .submitTransaction transaction => (node.submitTransaction env transaction).2
  | .submitBlock block => (node.submitBlock env block).2
  | .registerTemplate template => orUnchanged node (node.registerTemplate template)
  | .submitWorkshare share => orUnchanged node (node.submitWorkshare env share)
  | .miningCandidate extranonce => orUnchanged node (node.miningCandidate env extranonce)
  | .requestSync => node.broadcast (.getHeaders node.blockLocator Hash32.ZERO)

namespace Server

def close (server : Server) (session : Nat) (peer : Hash32) : Server :=
  { server.peerDisconnected peer with sessions := Function.update server.sessions session none }

/-- One frame of a session: a frame that does not decode or exceeds the budget ends it. -/
def receive (server : Server) (env : NodeEnv) (now again : Instant) (session : Nat) (current : OpenSession)
    (frame : Bytes) : Option WireMessage × Server :=
  match WireMessage.decodeFrame frame with
  | .error _ => (none, server.close session current.peer)
  | .ok message =>
    let (allowed, budget) := current.budget.allow ⟨now, again, message⟩
    if allowed = false then (none, server.close session current.peer)
    else
      let (response, node) := server.node.handleWire env current.peer message
      (response, { server with
        node, sessions := Function.update server.sessions session (some { current with budget }) })

/-- One event: a peer that finished the handshake is admitted or turned away, a
session receives a frame or ends, or the node is called locally. -/
inductive Step : Server → Server → Prop where
  | connect {server : Server} {session : Nat} {id : Hash32} {inbound : Bool} {now : Instant}
      (idle : server.sessions session = none)
      (admitted : (server.peerConnected id inbound).1 = true) :
      Step server { (server.peerConnected id inbound).2 with
        sessions := Function.update server.sessions session (some ⟨id, inbound, MessageBudget.new now⟩) }
  | receive {server : Server} {env : NodeEnv} {now again : Instant} {session : Nat} {current : OpenSession}
      {frame : Bytes} (serving : server.sessions session = some current) :
      Step server (server.receive env now again session current frame).2
  | close {server : Server} {session : Nat} {current : OpenSession}
      (serving : server.sessions session = some current) : Step server (server.close session current.peer)
  | call {server : Server} {env : NodeEnv} (call : LocalCall) :
      Step server { server with node := call.perform server.node env }

structure Opened (server : Server) : Prop where
  node : ∃ disk now miner, Node.openFresh disk now miner = .ok server.node
  peers : server.connectedPeers = ∅
  sessions : server.sessions = fun _ => none

def Runs : Server → Server → Prop := Relation.ReflTransGen Step

end Server

/-! What the handlers leave alone. -/

/-- Nothing that decides the active chain has changed. -/
structure Node.Beside (node next : Node) : Prop where
  storage : next.storage = node.storage
  chain : next.chain = node.chain

namespace Node.Beside

variable {node middle next : Node}

omit [Crypto] in
theorem refl (node : Node) : node.Beside node := ⟨rfl, rfl⟩

omit [Crypto] in
theorem trans (first : node.Beside middle) (second : middle.Beside next) : node.Beside next :=
  ⟨second.storage.trans first.storage, second.chain.trans first.chain⟩

end Node.Beside

namespace Node

variable {node next : Node} {env : NodeEnv} {peer : Hash32}

theorem submitTransaction_beside (node : Node) (env : NodeEnv) (transaction : Transaction) :
    node.Beside (node.submitTransaction env transaction).2 := by
  unfold submitTransaction
  split
  · exact ⟨rfl, rfl⟩
  · exact ⟨rfl, rfl⟩

theorem registerTemplate_beside {template : BlockTemplate} {id : Hash32}
    (registered : node.registerTemplate template = .ok (id, next)) :
    node.Beside next ∧ next.syncQueues = node.syncQueues ∧
      next.pendingWorkshares = node.pendingWorkshares := by
  unfold registerTemplate at registered
  rw [guard_ok, guard_ok] at registered
  obtain ⟨_, _, registered⟩ := registered
  split at registered
  · cases registered
    exact ⟨⟨rfl, rfl⟩, rfl, rfl⟩
  · simp only [bind_ok] at registered
    obtain ⟨_, _, pool, _, result⟩ := registered
    cases result
    exact ⟨⟨rfl, rfl⟩, rfl, rfl⟩

theorem submitWorkshare_beside {share : Workshare} {changed : Bool}
    (submitted : node.submitWorkshare env share = .ok (changed, next)) :
    node.Beside next ∧ next.syncQueues = node.syncQueues ∧
      next.pendingWorkshares = node.pendingWorkshares := by
  unfold submitWorkshare at submitted
  simp only [bind_ok] at submitted
  obtain ⟨_, _, _, _, _, _, result⟩ := submitted
  cases result
  exact ⟨⟨rfl, rfl⟩, rfl, rfl⟩

theorem miningCandidate_beside {extranonce : UInt64} {candidate : MiningCandidate}
    (mined : node.miningCandidate env extranonce = .ok (candidate, next)) :
    node.Beside next ∧ next.syncQueues = node.syncQueues ∧
      next.pendingWorkshares = node.pendingWorkshares := by
  unfold miningCandidate at mined
  simp only [bind_ok, okOr_ok] at mined
  obtain ⟨transactions, _, fees, _, finder, _, allocation, _, transition, _, witness, _,
    workshares, _, seed, _, blockTarget, _, shareBits, _, shareTarget, _, result⟩ := mined
  cases result
  split
  · exact ⟨⟨rfl, rfl⟩, rfl, rfl⟩
  · exact ⟨⟨rfl, rfl⟩, rfl, rfl⟩

/-- A handler that leaves the chain and the queues alone and takes in no orphan. -/
structure Calm (node next : Node) : Prop where
  beside : node.Beside next
  queues : next.syncQueues = node.syncQueues
  orphans : Within next.pendingWorkshares node.pendingWorkshares

omit [Crypto] in
theorem Calm.refl (node : Node) : node.Calm node := ⟨.refl node, rfl, fun _ _ found => found⟩

omit [Crypto] in
theorem Calm.trans {middle : Node} (first : node.Calm middle) (second : middle.Calm next) : node.Calm next :=
  ⟨first.beside.trans second.beside, second.queues.trans first.queues,
    fun id entry found => first.orphans id entry (second.orphans id entry found)⟩

omit [Crypto] in
theorem calm_orUnchanged {ε α : Type} {result : Except ε (α × Node)}
    (each : ∀ {value : α} {next : Node}, result = .ok (value, next) → node.Beside next ∧
      next.syncQueues = node.syncQueues ∧ next.pendingWorkshares = node.pendingWorkshares) :
    node.Calm (orUnchanged node result) := by
  cases result with
  | error _ => exact .refl node
  | ok found =>
    have ⟨beside, queues, orphans⟩ := each rfl
    refine ⟨beside, queues, ?_⟩
    change Within found.2.pendingWorkshares _
    rw [orphans]
    exact fun _ _ found => found

theorem processPending_calm (env : NodeEnv) (count : Nat) (node : Node) :
    node.Calm (processPending env count node) := by
  induction count generalizing node with
  | zero => exact .refl node
  | succ count ih =>
    rw [processPending]
    split
    next => exact .refl node
    next id _ share _ =>
      have removed : node.Calm { node with pendingWorkshares := node.pendingWorkshares.erase id } := by
        refine ⟨⟨rfl, rfl⟩, rfl, ?_⟩
        intro other entry found
        rw [get_erase] at found
        split at found
        · cases found
        · exact found
      dsimp only
      split
      next => exact removed.trans (ih _)
      next changed submitted result =>
        have ⟨beside, queues, orphans⟩ := submitWorkshare_beside result
        have calm : Calm _ submitted := ⟨beside, queues, by rw [orphans]; exact fun _ _ found => found⟩
        exact (removed.trans calm).trans (ih submitted)

theorem handleTemplate_calm (node : Node) (env : NodeEnv) (peer : Hash32) (template : BlockTemplate) :
    node.Calm (node.handleTemplate env peer template).2 := by
  unfold handleTemplate
  dsimp only
  split
  next id registered result =>
    have ⟨beside, queues, orphans⟩ := registerTemplate_beside result
    have calm : node.Calm registered := ⟨beside, queues, by rw [orphans]; exact fun _ _ found => found⟩
    exact calm.trans (processPending_calm env _ registered)
  next => exact .refl node

theorem handleWorkshare_ready (env : NodeEnv) (peer : Hash32) {share : Workshare}
    (ready : node.shareReady share = true) : node.Calm (node.handleWorkshare env peer share).2 := by
  unfold handleWorkshare
  rw [if_pos ready]
  dsimp only
  split
  next changed submitted result =>
    have ⟨beside, queues, orphans⟩ := submitWorkshare_beside result
    have calm : node.Calm submitted := ⟨beside, queues, by rw [orphans]; exact fun _ _ found => found⟩
    exact calm.trans (processPending_calm env _ submitted)
  next => exact processPending_calm env _ node

/-- Everything that is kept for a peer is kept for one of these, within the limits. -/
structure KeptFor (peers : Hash32 → Prop) (node : Node) : Prop where
  queues : ∀ (id : Hash32) (queue : List Hash32), node.syncQueues[id]? = some queue →
    peers id ∧ queue ≠ [] ∧ queue.length ≤ MAX_HEADERS
  orphans : ∀ (id : Hash32) (entry : Hash32 × Workshare), node.pendingWorkshares[id]? = some entry →
    peers entry.1
  bounded : node.pendingWorkshares.size ≤ 2048

section

variable {peers : Hash32 → Prop}

omit [Crypto] in
theorem KeptFor.calm (kept : node.KeptFor peers) (calm : node.Calm next) : next.KeptFor peers where
  queues := by
    rw [calm.queues]
    exact kept.queues
  orphans id entry found := kept.orphans id entry (calm.orphans id entry found)
  bounded := Nat.le_trans calm.orphans.size_le kept.bounded

omit [Crypto] in
theorem KeptFor.mono {more : Hash32 → Prop} (kept : node.KeptFor peers)
    (within : ∀ id, peers id → more id) : node.KeptFor more where
  queues id queue found :=
    have ⟨inside, rest⟩ := kept.queues id queue found
    ⟨within id inside, rest⟩
  orphans id entry found := within entry.1 (kept.orphans id entry found)
  bounded := kept.bounded

omit [Crypto] in
theorem KeptFor.forget (kept : node.KeptFor peers) (peer : Hash32) :
    (node.forget peer).KeptFor fun id => peers id ∧ peer ≠ id := by
  have fewer : Within (node.forget peer).pendingWorkshares node.pendingWorkshares := by
    intro id entry found
    change (node.pendingWorkshares.filter fun _ entry => decide (entry.1 ≠ peer))[id]? = _ at found
    rw [Std.ExtTreeMap.getElem?_filter'] at found
    exact (Option.filter_eq_some_iff.mp found).1
  refine ⟨?_, ?_, Nat.le_trans fewer.size_le kept.bounded⟩
  · intro id queue found
    change (node.syncQueues.erase peer)[id]? = some queue at found
    rw [get_erase] at found
    split at found
    next => cases found
    next apart =>
      have ⟨inside, rest⟩ := kept.queues id queue found
      exact ⟨⟨inside, apart⟩, rest⟩
  · intro id entry found
    refine ⟨kept.orphans id entry (fewer id entry found), ?_⟩
    change (node.pendingWorkshares.filter fun _ entry => decide (entry.1 ≠ peer))[id]? = _ at found
    rw [Std.ExtTreeMap.getElem?_filter', Option.filter_eq_some_iff] at found
    exact Ne.symm (of_decide_eq_true found.2)

omit [Crypto] in
theorem KeptFor.dropQueue (kept : node.KeptFor peers) (peer : Hash32) : (node.dropQueue peer).KeptFor peers where
  queues id queue found := by
    change (node.syncQueues.erase peer)[id]? = some queue at found
    rw [get_erase] at found
    split at found
    · cases found
    · exact kept.queues id queue found
  orphans := kept.orphans
  bounded := kept.bounded

omit [Crypto] in
theorem KeptFor.queued (kept : node.KeptFor peers) (inside : peers peer) {next : Hash32} {rest : List Hash32}
    (short : rest.length + 1 ≤ MAX_HEADERS) :
    KeptFor peers { node with syncQueues := node.syncQueues.insert peer (next :: rest) } where
  queues id queue found := by
    change (node.syncQueues.insert peer (next :: rest))[id]? = some queue at found
    rw [get_insert] at found
    split at found
    next same =>
      cases found
      exact ⟨same ▸ inside, List.cons_ne_nil _ _, short⟩
    next => exact kept.queues id queue found
  orphans := kept.orphans
  bounded := kept.bounded

theorem submitBlock_kept (kept : node.KeptFor peers) (env : NodeEnv) (block : Block) :
    (node.submitBlock env block).2.KeptFor peers := by
  have ⟨result, after, reached⟩ := submitBlock_reached node env block
  have returned : node.submitBlock env block = (result, after) := reached.knows
  have same : ∀ storage : Storage, KeptFor peers { node with storage } :=
    fun storage => ⟨kept.queues, kept.orphans, kept.bounded⟩
  rw [returned]
  cases reached with
  | tail _ step =>
    cases step with
    | known _ => exact kept
    | refused _ _ => exact kept
    | unrecorded _ _ _ => exact kept
    | settle _ => exact same _
    | unsaved _ _ => exact same _
    | activate =>
      refine ⟨kept.queues, ?_, Nat.zero_le _⟩
      intro id entry found
      change (∅ : BTreeMap Hash32 (Hash32 × Workshare))[id]? = some entry at found
      rw [get_empty] at found
      cases found

theorem unknownHeaders_length (node : Node) (disk : Disk) (expected : Option (Hash32 × UInt64))
    (headers : List BlockHeader) {ids : List Hash32}
    (found : node.unknownHeaders disk expected headers = some ids) : ids.length ≤ headers.length := by
  induction headers generalizing expected ids with
  | nil =>
    cases found
    exact Nat.le_refl _
  | cons header rest ih =>
    unfold unknownHeaders at found
    split at found
    · cases found
    · extract_lets linked at found
      split at found
      · cases found
      · simp only [Option.bind_eq_bind, Option.bind_eq_some_iff] at found
        obtain ⟨later, earlier, same⟩ := found
        have bound := ih _ earlier
        cases same
        rw [List.length_cons]
        split
        · rw [List.length_cons]
          omega
        · omega

theorem handleHeaders_kept (kept : node.KeptFor peers) (inside : peers peer) (env : NodeEnv)
    (headers : List BlockHeader) : (node.handleHeaders env peer headers).2.KeptFor peers := by
  unfold handleHeaders
  split
  next => exact kept.dropQueue peer
  next some_headers =>
    have few : headers.length ≤ MAX_HEADERS := Nat.le_of_not_lt fun many => some_headers (Or.inr many)
    split
    next => exact kept.dropQueue peer
    next => exact kept
    next first rest found =>
      have length := unknownHeaders_length node env.disk none headers found
      exact kept.queued inside (Nat.le_trans length few)

theorem handleBlock_kept (kept : node.KeptFor peers) (inside : peers peer) (env : NodeEnv) (block : Block) :
    (node.handleBlock env peer block).2.KeptFor peers := by
  have after := submitBlock_kept kept env block
  unfold handleBlock
  split
  next error later result =>
    rw [result] at after
    exact after.dropQueue peer
  next event later result =>
    rw [result] at after
    split
    next => exact after
    next queue waiting =>
      split
      next => exact after.dropQueue peer
      next =>
        split
        next first rest tail =>
          have short := (after.queues peer queue waiting).2.2
          have length := List.length_tail (l := queue)
          rw [tail, List.length_cons] at length
          apply after.queued inside
          omega
        next => exact after.dropQueue peer

theorem handleWorkshare_kept (kept : node.KeptFor peers) (inside : peers peer) (env : NodeEnv)
    (share : Workshare) : (node.handleWorkshare env peer share).2.KeptFor peers := by
  unfold handleWorkshare
  by_cases ready : node.shareReady share = true
  · exact kept.calm (handleWorkshare_ready env peer ready)
  · rw [if_neg ready]
    dsimp only
    by_cases room : node.pendingWorkshares.size < 2048
    · rw [if_pos room]
      refine ⟨kept.queues, ?_, ?_⟩
      · intro id entry found
        change (node.pendingWorkshares.insertIfNew share.id (peer, share))[id]? = some entry at found
        rw [get_insertIfNew] at found
        split at found
        · cases found
          exact inside
        · exact kept.orphans id entry found
      · change (node.pendingWorkshares.insertIfNew share.id (peer, share)).size ≤ 2048
        have grown := Std.ExtTreeMap.size_insertIfNew_le (t := node.pendingWorkshares) (k := share.id)
          (v := (peer, share))
        omega
    · rw [if_neg room]
      exact kept

theorem submitTransaction_kept (kept : node.KeptFor peers) (env : NodeEnv) (transaction : Transaction) :
    (node.submitTransaction env transaction).2.KeptFor peers := by
  unfold submitTransaction
  split
  · exact ⟨kept.queues, kept.orphans, kept.bounded⟩
  · exact ⟨kept.queues, kept.orphans, kept.bounded⟩

/-- Nothing is ever kept for a peer other than the one whose message it is. -/
theorem handleWire_kept (kept : node.KeptFor peers) (inside : peers peer) (env : NodeEnv)
    (message : WireMessage) : (node.handleWire env peer message).2.KeptFor peers := by
  cases message with
  | block block => exact handleBlock_kept kept inside env block
  | headers headers => exact handleHeaders_kept kept inside env headers
  | workshare share => exact handleWorkshare_kept kept inside env share
  | template template => exact kept.calm (handleTemplate_calm node env peer template)
  | transaction transaction => exact submitTransaction_kept kept env transaction
  | hello _ => exact kept
  | inventory _ _ => exact kept
  | getData _ _ => exact kept
  | getHeaders _ _ => exact kept
  | ping _ => exact kept
  | pong _ => exact kept
  | peers _ => exact kept

end

/-! Which calls can move the chain. -/

/-- At most one submission, and work beside it. -/
def Moves (env : NodeEnv) (node next : Node) : Prop :=
  node.Beside next ∨ ∃ block, (node.submitBlock env block).2.Beside next

theorem handleWire_moves (node : Node) (env : NodeEnv) (peer : Hash32) (message : WireMessage) :
    node.Moves env (node.handleWire env peer message).2 := by
  cases message with
  | block block =>
    refine Or.inr ⟨block, ?_⟩
    change Beside _ (node.handleBlock env peer block).2
    unfold handleBlock
    split
    next error later result =>
      rw [result]
      exact ⟨rfl, rfl⟩
    next event later result =>
      rw [result]
      split
      next => exact ⟨rfl, rfl⟩
      next queue waiting =>
        split
        next => exact ⟨rfl, rfl⟩
        next =>
          split
          next => exact ⟨rfl, rfl⟩
          next => exact ⟨rfl, rfl⟩
  | headers headers =>
    apply Or.inl
    change Beside _ (node.handleHeaders env peer headers).2
    unfold handleHeaders
    split
    next => exact ⟨rfl, rfl⟩
    next =>
      split
      next => exact ⟨rfl, rfl⟩
      next => exact ⟨rfl, rfl⟩
      next => exact ⟨rfl, rfl⟩
  | workshare share =>
    apply Or.inl
    change Beside _ (node.handleWorkshare env peer share).2
    by_cases ready : node.shareReady share = true
    · exact (handleWorkshare_ready env peer ready).beside
    · unfold handleWorkshare
      rw [if_neg ready]
      dsimp only
      split
      next => exact ⟨rfl, rfl⟩
      next => exact ⟨rfl, rfl⟩
  | template template => exact Or.inl (handleTemplate_calm node env peer template).beside
  | transaction transaction => exact Or.inl (submitTransaction_beside node env transaction)
  | hello _ => exact Or.inl (.refl node)
  | inventory _ _ => exact Or.inl (.refl node)
  | getData _ _ => exact Or.inl (.refl node)
  | getHeaders _ _ => exact Or.inl (.refl node)
  | ping _ => exact Or.inl (.refl node)
  | pong _ => exact Or.inl (.refl node)
  | peers _ => exact Or.inl (.refl node)

/-- A candidate that takes over is better than the chain it replaces. -/
theorem placeBlock_better {block : Block} {event : ChainEvent} {candidate : Chain}
    (placed : node.placeBlock env block = .ok (event, candidate)) (active : event.Activates) :
    candidate.Better node.chain := by
  unfold placeBlock at placed
  split at placed
  next =>
    rcases append_ok placed with ⟨quiet, _, _⟩ | ⟨_, _, _, _, _, added⟩
    · rw [quiet] at active
      exact absurd active id
    · exact Or.inl (addWork_lt added)
  next =>
    rw [bind_ok] at placed
    obtain ⟨blocks, _, considered⟩ := placed
    unfold Chain.considerChain at considered
    simp only [guard_ok, bind_ok] at considered
    obtain ⟨_, validated, _, decided⟩ := considered
    split at decided
    next better =>
      cases decided
      exact better
    next =>
      cases decided
      exact absurd active id

theorem submitBlock_improves (node : Node) (env : NodeEnv) (block : Block) :
    (node.submitBlock env block).2.chain = node.chain ∨
      (node.submitBlock env block).2.chain.Better node.chain := by
  have ⟨result, after, reached⟩ := submitBlock_reached node env block
  have returned : node.submitBlock env block = (result, after) := reached.knows
  rw [returned]
  cases reached with
  | tail earlier step =>
    cases step with
    | known _ => exact Or.inl rfl
    | refused _ _ => exact Or.inl rfl
    | unrecorded _ _ _ => exact Or.inl rfl
    | settle _ => exact Or.inl rfl
    | unsaved _ _ => exact Or.inl rfl
    | activate =>
      have ⟨active, _, recorded, _⟩ := Reached.knows earlier
      exact Or.inr (placeBlock_better recorded.placed active)

theorem Moves.improves (moves : node.Moves env next) :
    next.chain = node.chain ∨ next.chain.Better node.chain := by
  rcases moves with beside | ⟨block, beside⟩
  · exact Or.inl beside.chain
  · rw [beside.chain]
    exact submitBlock_improves node env block

theorem Moves.running (moves : node.Moves env next) (running : node.Running) : next.Running := by
  rcases moves with beside | ⟨block, beside⟩
  · exact .worked running beside.storage beside.chain
  · exact .worked (.submitted running) beside.storage beside.chain

end Node

theorem LocalCall.moves (node : Node) (env : NodeEnv) (call : LocalCall) :
    node.Moves env (call.perform node env) := by
  cases call with
  | submitTransaction transaction => exact Or.inl (Node.submitTransaction_beside node env transaction)
  | submitBlock block => exact Or.inr ⟨block, .refl _⟩
  | registerTemplate template => exact Or.inl (Node.calm_orUnchanged Node.registerTemplate_beside).beside
  | submitWorkshare share => exact Or.inl (Node.calm_orUnchanged Node.submitWorkshare_beside).beside
  | miningCandidate extranonce => exact Or.inl (Node.calm_orUnchanged Node.miningCandidate_beside).beside
  | requestSync => exact Or.inl ⟨rfl, rfl⟩

theorem LocalCall.kept {node : Node} {peers : Hash32 → Prop} (kept : node.KeptFor peers) (env : NodeEnv)
    (call : LocalCall) : (call.perform node env).KeptFor peers := by
  cases call with
  | submitTransaction transaction => exact Node.submitTransaction_kept kept env transaction
  | submitBlock block => exact Node.submitBlock_kept kept env block
  | registerTemplate template => exact kept.calm (Node.calm_orUnchanged Node.registerTemplate_beside)
  | submitWorkshare share => exact kept.calm (Node.calm_orUnchanged Node.submitWorkshare_beside)
  | miningCandidate extranonce => exact kept.calm (Node.calm_orUnchanged Node.miningCandidate_beside)
  | requestSync => exact ⟨kept.queues, kept.orphans, kept.bounded⟩

/-! Runs. -/

namespace Server

/-- Connected peers are the peers of the open sessions, one session each and not too
many of one direction, and nothing is kept for anyone else. -/
structure Accounted (server : Server) : Prop where
  registered : Registered server.connectedPeers server.identities
  limits : ∀ inbound, server.directionCount inbound ≤ server.limit inbound
  kept : server.node.KeptFor fun id => (server.connectedPeers[id]?).isSome

omit [Crypto] in
theorem identities_update (server : Server) (session : Nat) (value : Option OpenSession) :
    (fun other => (Function.update server.sessions session value other).map OpenSession.identity) =
      Function.update server.identities session (value.map OpenSession.identity) := by
  funext other
  by_cases here : other = session
  · rw [here, Function.update_self, Function.update_self]
  · rw [Function.update_of_ne here, Function.update_of_ne here]
    rfl

omit [Crypto] in
theorem directionCount_total (server : Server) (inbound : Bool) :
    server.directionCount inbound =
      total (fun direction => if direction = inbound then 1 else 0) server.connectedPeers := by
  unfold directionCount total
  induction server.connectedPeers.toList with
  | nil => rfl
  | cons entry rest ih =>
    rw [List.map_cons, List.filter_cons, List.map_cons, List.sum_cons, ← ih]
    dsimp only
    by_cases same : entry.2 = inbound
    · rw [if_pos (decide_eq_true same), if_pos same, List.length_cons, Nat.add_comm]
    · rw [if_neg (by simpa using same), if_neg same, Nat.zero_add]

theorem Opened.accounted {server : Server} (opened : server.Opened) : server.Accounted := by
  have ⟨disk, now, miner, open_ok⟩ := opened.node
  obtain ⟨storage, _, result⟩ := bind_ok.mp open_ok
  have node : server.node = _ := (Except.ok.inj result).symm
  refine ⟨?_, ?_, ?_⟩
  · have nobody : server.identities = fun _ => none := by
      funext session
      unfold identities
      rw [opened.sessions]
      rfl
    rw [opened.peers, nobody]
    exact registered_empty
  · intro inbound
    rw [directionCount_total, opened.peers]
    exact Nat.zero_le _
  · rw [node]
    refine ⟨?_, ?_, Nat.zero_le _⟩
    · intro id queue absent
      rw [get_empty] at absent
      cases absent
    · intro id entry absent
      rw [get_empty] at absent
      cases absent

omit [Crypto] in
theorem Accounted.worked {server : Server} (accounted : server.Accounted) {node : Node}
    (kept : node.KeptFor fun id => (server.connectedPeers[id]?).isSome) : { server with node }.Accounted :=
  ⟨accounted.registered, accounted.limits, kept⟩

omit [Crypto] in
theorem peerConnected_true {server : Server} {id : Hash32} {inbound : Bool}
    (admitted : (server.peerConnected id inbound).1 = true) :
    server.connectedPeers[id]? = none ∧ server.directionCount inbound < server.limit inbound ∧
      (server.peerConnected id inbound).2 =
        { server with connectedPeers := server.connectedPeers.insert id inbound } := by
  unfold peerConnected at admitted ⊢
  by_cases present : (server.connectedPeers[id]?).isSome = true
  · rw [if_pos present] at admitted
    cases admitted
  · rw [if_neg present] at admitted ⊢
    by_cases full : server.directionCount inbound ≥ server.limit inbound
    · rw [if_pos full] at admitted
      cases admitted
    · rw [if_neg full]
      exact ⟨by simpa using present, Nat.lt_of_not_ge full, rfl⟩

omit [Crypto] in
theorem Accounted.connect {server : Server} (accounted : server.Accounted) {session : Nat} {id : Hash32}
    {inbound : Bool} (budget : MessageBudget) (idle : server.sessions session = none)
    (absent : server.connectedPeers[id]? = none) (room : server.directionCount inbound < server.limit inbound) :
    Accounted { server with
      connectedPeers := server.connectedPeers.insert id inbound
      sessions := Function.update server.sessions session (some ⟨id, inbound, budget⟩) } := by
  have free : server.identities session = none := by
    unfold identities
    rw [idle]
    rfl
  refine ⟨?_, ?_, ?_⟩
  · change Registered _ fun other => (Function.update server.sessions session
      (some ⟨id, inbound, budget⟩) other).map OpenSession.identity
    rw [identities_update]
    exact accounted.registered.enter free absent
  · intro direction
    rw [directionCount_total]
    change total _ (server.connectedPeers.insert id inbound) ≤ server.limit direction
    rw [total_insert_fresh _ absent, ← directionCount_total]
    by_cases same : inbound = direction
    · rw [if_pos same, ← same]
      exact room
    · rw [if_neg same]
      exact accounted.limits direction
  · apply accounted.kept.mono
    intro other present
    dsimp only
    rw [get_insert]
    by_cases same : id = other
    · rw [if_pos same]
      rfl
    · rw [if_neg same]
      exact present

omit [Crypto] in
theorem Accounted.close {server : Server} (accounted : server.Accounted) {session : Nat}
    {current : OpenSession} (serving : server.sessions session = some current) :
    (server.close session current.peer).Accounted := by
  have held : server.identities session = some (current.peer, current.inbound) := by
    unfold identities
    rw [serving]
    rfl
  have fewer : Within (server.connectedPeers.erase current.peer) server.connectedPeers := by
    intro id inbound found
    rw [get_erase] at found
    split at found
    · cases found
    · exact found
  refine ⟨?_, ?_, ?_⟩
  · change Registered _ fun other => (Function.update server.sessions session none other).map
      OpenSession.identity
    rw [identities_update]
    exact accounted.registered.leave held
  · intro direction
    apply Nat.le_trans ?_ (accounted.limits direction)
    rw [directionCount_total, directionCount_total]
    exact fewer.total_le _
  · apply (accounted.kept.forget current.peer).mono
    intro id ⟨present, apart⟩
    change ((server.connectedPeers.erase current.peer)[id]?).isSome = true
    rw [get_erase, if_neg apart]
    exact present

omit [Crypto] in
theorem Accounted.respent {server : Server} (accounted : server.Accounted) {session : Nat}
    {current : OpenSession} (serving : server.sessions session = some current) (budget : MessageBudget) :
    Accounted { server with
      sessions := Function.update server.sessions session (some { current with budget }) } := by
  refine ⟨?_, accounted.limits, accounted.kept⟩
  have same : Function.update server.identities session (some current.identity) = server.identities := by
    rw [Function.update_eq_self_iff]
    unfold identities
    rw [serving]
    rfl
  change Registered _ fun other => (Function.update server.sessions session
    (some { current with budget }) other).map OpenSession.identity
  rw [identities_update]
  exact same.symm ▸ accounted.registered

theorem Accounted.receive {server : Server} (accounted : server.Accounted) {session : Nat}
    {current : OpenSession} (serving : server.sessions session = some current) (env : NodeEnv)
    (now again : Instant) (frame : Bytes) :
    (server.receive env now again session current frame).2.Accounted := by
  unfold Server.receive
  split
  next => exact accounted.close serving
  next message _ =>
    dsimp only
    split
    next => exact accounted.close serving
    next =>
      have inside : (server.connectedPeers[current.peer]?).isSome = true := by
        apply Option.isSome_iff_exists.mpr
        refine ⟨current.inbound, (accounted.registered.listed _ _).mpr ⟨session, ?_⟩⟩
        unfold identities
        rw [serving]
        rfl
      exact (accounted.respent serving _).worked (Node.handleWire_kept accounted.kept inside env message)

theorem Step.accounted {server next : Server} (step : Step server next) (accounted : server.Accounted) :
    next.Accounted := by
  cases step with
  | connect idle admitted =>
    have ⟨absent, room, result⟩ := peerConnected_true admitted
    rw [result]
    exact accounted.connect _ idle absent room
  | receive serving => exact accounted.receive serving _ _ _ _
  | close serving => exact accounted.close serving
  | call call => exact accounted.worked (call.kept accounted.kept _)

/-- In every run, connected peers and open sessions match one to one, neither direction
exceeds its limit, and queues and orphans belong to connected peers and stay small. -/
theorem runs_accounted {server later : Server} (opened : server.Opened) (runs : Runs server later) :
    later.Accounted := by
  induction runs with
  | refl => exact opened.accounted
  | tail _ step ih => exact step.accounted ih

/-- One event submits at most one block. -/
theorem Step.moves {server next : Server} (step : Step server next) :
    ∃ env, server.node.Moves env next.node := by
  have forgets : ∀ peer, server.node.Beside (server.node.forget peer) := fun _ => ⟨rfl, rfl⟩
  cases step with
  | connect _ admitted =>
    rw [(peerConnected_true admitted).2.2]
    exact ⟨⟨⟨fun _ _ => .error ""⟩, 0, Disk.reliable, default⟩, Or.inl (.refl _)⟩
  | @receive env now again session current frame serving =>
    refine ⟨env, ?_⟩
    unfold Server.receive
    split
    next => exact Or.inl (forgets _)
    next message _ =>
      dsimp only
      split
      next => exact Or.inl (forgets _)
      next => exact Node.handleWire_moves server.node env current.peer message
  | close _ => exact ⟨⟨⟨fun _ _ => .error ""⟩, 0, Disk.reliable, default⟩, Or.inl (forgets _)⟩
  | @call env call => exact ⟨env, call.moves server.node env⟩

theorem Runs.running {server later : Server} (opened : server.Opened) (runs : Runs server later) :
    later.node.Running := by
  induction runs with
  | refl =>
    have ⟨_, _, _, open_ok⟩ := opened.node
    exact .opened open_ok
  | tail _ step ih =>
    have ⟨_, moves⟩ := step.moves
    exact moves.running ih

theorem Runs.improves {server later : Server} (runs : Runs server later) :
    later.node.chain = server.node.chain ∨ later.node.chain.Better server.node.chain := by
  induction runs with
  | refl => exact Or.inl rfl
  | tail _ step ih =>
    have ⟨_, moves⟩ := step.moves
    rcases moves.improves with same | better
    · rw [same]
      exact ih
    · apply Or.inr
      rcases ih with unmoved | earlier
      · rw [← unmoved]
        exact better
      · exact better.trans earlier

/-- Whatever peers and callers do, the tables hold the active chain after each event, it is
only ever replaced by a better one, and a chain that was left is never active again. -/
theorem chain_improves {opened server later final : Server} (start : opened.Opened)
    (earlier : Runs opened server) (runs : Runs server later) (rest : Runs later final) :
    later.node.storage.Persists later.node.chain ∧
      (later.node.chain = server.node.chain ∨ later.node.chain.Better server.node.chain) ∧
      (later.node.chain ≠ server.node.chain → final.node.chain ≠ server.node.chain) := by
  refine ⟨(Runs.running start (earlier.trans runs)).persists, runs.improves, ?_⟩
  intro left back
  have forth := runs.improves.resolve_left left
  rcases Runs.improves rest with same | better
  · exact left (same.symm.trans back)
  · rw [back] at better
    exact Chain.better_irrefl _ (better.trans forth)

/-! A server with two peers. -/

omit [Crypto] in
theorem new_allows (message : WireMessage) :
    ((MessageBudget.new 0).allow ⟨0, 0, message⟩).1 = true := by
  have fresh : ¬(0 - (MessageBudget.new 0).started) / 1000000000 ≥ RATE_WINDOW_SECONDS := by decide
  unfold MessageBudget.allow
  dsimp only
  rw [if_neg fresh]
  apply decide_eq_true
  refine ⟨show saturatingSucc 0 ≤ _ by decide, ?_⟩
  split
  · exact show saturatingSucc 0 ≤ _ by decide
  · exact show 0 ≤ MAX_HEAVY_MESSAGES_PER_WINDOW by decide

theorem first_handled {server : Server} (env : NodeEnv) {session : Nat} {peer : Hash32} {inbound : Bool}
    (serving : server.sessions session = some ⟨peer, inbound, MessageBudget.new 0⟩) {message : WireMessage}
    (fits : message.Fits) {next : Node} (handled : (server.node.handleWire env peer message).2 = next) :
    ∃ budget, Step server { server with
      node := next, sessions := Function.update server.sessions session (some ⟨peer, inbound, budget⟩) } := by
  let incoming : Incoming := ⟨0, 0, message⟩
  have allowed : ((MessageBudget.new 0).allow incoming).1 = true := new_allows message
  have step : Step server (server.receive env 0 0 session ⟨peer, inbound, MessageBudget.new 0⟩
      message.encodeFrame).2 := .receive serving
  unfold Server.receive at step
  rw [WireMessage.decodeFrame_encodeFrame fits] at step
  dsimp only at step
  rw [if_neg (by rw [allowed]; decide)] at step
  refine ⟨((MessageBudget.new 0).allow incoming).2, ?_⟩
  rw [← handled]
  exact step

omit [Crypto] in
theorem admits (server : Server) (inbound : Bool) {id : Hash32} (unknown : server.connectedPeers[id]? = none)
    (room : server.directionCount inbound < server.limit inbound) :
    server.peerConnected id inbound =
      (true, { server with connectedPeers := server.connectedPeers.insert id inbound }) := by
  unfold peerConnected
  rw [unknown, if_neg (by decide), if_neg (Nat.not_le.mpr room)]

def secondPeer : Hash32 := ⟨List.replicate 32 1, rfl⟩

theorem two_sessions {node : Node} {disk : Disk} {clock : UInt64}
    (opened : Node.openFresh disk clock none = .ok node) :
    ∃ server connected : Server, server.Opened ∧ Runs server connected ∧ connected.node = node ∧
      connected.sessions 0 = some ⟨Hash32.ZERO, true, MessageBudget.new 0⟩ ∧
      connected.sessions 1 = some ⟨secondPeer, false, MessageBudget.new 0⟩ := by
  let server : Server := ⟨node, 8, 8, ∅, fun _ => none⟩
  let peers := (∅ : BTreeMap Hash32 Bool).insert Hash32.ZERO true
  let sessions := Function.update server.sessions 0 (some ⟨Hash32.ZERO, true, MessageBudget.new 0⟩)
  let middle : Server := { server with connectedPeers := peers, sessions }
  have enters : Step server middle := by
    have joined := admits server true (get_empty Hash32.ZERO) (by
      rw [directionCount_total]
      exact show 0 < 8 by decide)
    have idle : server.sessions 0 = none := rfl
    have step : Step server { (server.peerConnected Hash32.ZERO true).2 with sessions } :=
      .connect idle (congrArg Prod.fst joined)
    rwa [joined] at step
  have unknown : middle.connectedPeers[secondPeer]? = none := by
    change ((∅ : BTreeMap Hash32 Bool).insert Hash32.ZERO true)[secondPeer]? = none
    rw [get_insert, if_neg (by decide), get_empty]
  have joined := admits middle false unknown (by
    rw [directionCount_total]
    change total _ ((∅ : BTreeMap Hash32 Bool).insert Hash32.ZERO true) < 8
    rw [total_insert_fresh _ (get_empty Hash32.ZERO)]
    exact show 0 + 0 < 8 by decide)
  have idle : middle.sessions 1 = none := by
    change sessions 1 = none
    unfold sessions
    rw [Function.update_of_ne (by decide)]
  have step : Step middle { (middle.peerConnected secondPeer false).2 with
      sessions := Function.update sessions 1 (some ⟨secondPeer, false, MessageBudget.new 0⟩) } :=
    .connect idle (congrArg Prod.fst joined)
  rw [joined] at step
  refine ⟨server, _, ⟨⟨_, _, _, opened⟩, rfl, rfl⟩, (Relation.ReflTransGen.single enters).tail step, rfl,
    ?_, ?_⟩
  · have kept : Function.update sessions 1 (some ⟨secondPeer, false, MessageBudget.new 0⟩) 0 = sessions 0 :=
      Function.update_of_ne (by decide) _ sessions
    exact kept.trans (Function.update_self 0 _ server.sessions)
  · exact Function.update_self 1 _ sessions

theorem fresh_queues {node : Node} {disk : Disk} {clock : UInt64} {miner : Option Address}
    (opened : Node.openFresh disk clock miner = .ok node) {env : NodeEnv}
    (reads : env.disk.block = fun _ => none) (peer : Hash32) {header : BlockHeader}
    (version : header.version = HEADER_VERSION) (protocol : header.protocol = PROTOCOL_VERSION)
    (parent : header.previousBlock = Block.genesis.id) (height : header.height = 1)
    (other : Block.genesis.id ≠ header.id) :
    (node.handleWire env peer (.headers [header])).2 =
      { node with syncQueues := node.syncQueues.insert peer [header.id] } := by
  have ⟨chain, holds⟩ := openFresh_holds opened
  have ground : node.blockByHash env.disk Block.genesis.id = some Block.genesis := by
    have present : node.chain.blockByHash Block.genesis.id = some Block.genesis := by
      rw [chain]
      exact List.find?_cons_of_pos (decide_eq_true rfl)
    unfold Node.blockByHash
    rw [present]
    rfl
  have unknown : node.blockByHash env.disk header.id = none := by
    have absent : node.chain.blockByHash header.id = none := by
      rw [chain]
      exact List.find?_cons_of_neg (by simpa using other)
    unfold Node.blockByHash
    rw [absent, holds.block_none reads]
    · rfl
    · intro block only
      rw [Set.mem_singleton_iff.mp only]
      exact other
  have offered : node.unknownHeaders env.disk none [header] = some [header.id] := by
    have follows : header.height = saturatingAdd Block.genesis.header.height 1 := by
      rw [height]
      rfl
    unfold Node.unknownHeaders
    rw [if_neg (by rw [version, protocol]; decide), parent, ground]
    dsimp only
    rw [if_neg (by simpa using follows), unknown]
    rfl
  change (node.handleHeaders env peer [header]).2 = _
  unfold Node.handleHeaders
  have short : ¬[header].length > MAX_HEADERS := show ¬1 > MAX_HEADERS by decide
  rw [if_neg (not_or.mpr ⟨List.cons_ne_nil _ _, short⟩), offered]

theorem fresh_orphan (env : NodeEnv) (peer : Hash32) {node : Node} {share : Workshare}
    (templates : node.workshares.templates[share.templateId]? = none)
    (orphans : node.pendingWorkshares = ∅) :
    (node.handleWire env peer (.workshare share)).2 =
      { node with pendingWorkshares := node.pendingWorkshares.insertIfNew share.id (peer, share) } := by
  have waits : node.shareReady share = false := by
    unfold Node.shareReady
    rw [templates]
    rfl
  have room : node.pendingWorkshares.size < 2048 := by
    rw [orphans]
    exact show 0 < 2048 by decide
  change (node.handleWorkshare env peer share).2 = _
  unfold Node.handleWorkshare
  rw [waits, if_neg (by decide), if_pos room]

theorem two_sessions_kept (header : BlockHeader) (version : header.version = HEADER_VERSION)
    (protocol : header.protocol = PROTOCOL_VERSION) (parent : header.previousBlock = Block.genesis.id)
    (height : header.height = 1) (other : Block.genesis.id ≠ header.id) (share : Workshare) :
    ∃ server later : Server, server.Opened ∧ Runs server later ∧
      later.identities 0 = some (Hash32.ZERO, true) ∧ later.identities 1 = some (secondPeer, false) ∧
      later.node.syncQueues[Hash32.ZERO]? = some [header.id] ∧
      later.node.pendingWorkshares[share.id]? = some (secondPeer, share) := by
  let env : NodeEnv := ⟨⟨fun _ _ => .error ""⟩, 0, Disk.reliable, default⟩
  obtain ⟨node, opened⟩ := Node.openFresh_ok (of_decide_eq_true rfl : fitsI64 0) none
  obtain ⟨server, connected, fresh, runs, same, zero, one⟩ := two_sessions opened
  have queues := fresh_queues opened (show env.disk.block = _ from rfl) Hash32.ZERO version protocol parent
    height other
  have listed : (WireMessage.headers [header]).Fits := show 1 ≤ MAX_HEADERS by decide
  rw [← same] at queues opened
  obtain ⟨budget, offered⟩ := first_handled env zero listed queues
  let queued : Node :=
    { connected.node with syncQueues := connected.node.syncQueues.insert Hash32.ZERO [header.id] }
  have idle : queued.workshares.templates[share.templateId]? = none ∧ queued.pendingWorkshares = ∅ := by
    obtain ⟨storage, _, result⟩ := bind_ok.mp opened
    unfold queued
    rw [← Except.ok.inj result]
    exact ⟨get_empty _, rfl⟩
  have orphans := fresh_orphan env secondPeer idle.1 idle.2
  let asking : Server := { connected with
    node := queued, sessions := Function.update connected.sessions 0 (some ⟨Hash32.ZERO, true, budget⟩) }
  have still : asking.sessions 1 = some ⟨secondPeer, false, MessageBudget.new 0⟩ := by
    simp [asking, one]
  have fits : (WireMessage.workshare share).Fits := trivial
  obtain ⟨budget', sent⟩ := first_handled env still fits orphans
  refine ⟨server, _, fresh, (runs.tail offered).tail sent, ?_, ?_, get_insert_self _ _ _, ?_⟩
  · simp [identities, asking, OpenSession.identity]
  · simp [identities, OpenSession.identity]
  · change (queued.pendingWorkshares.insertIfNew share.id (secondPeer, share))[share.id]? = _
    rw [get_insertIfNew, idle.2, get_empty]
    exact if_pos ⟨rfl, rfl⟩

omit [Crypto] in
/-- Two peers are served, one has a queue and the other an orphan. -/
theorem two_sessions_accounted :
    let _ := labelled
    ∃ (server later : Server) (header : BlockHeader) (share : Workshare), server.Opened ∧
      Runs server later ∧ later.identities 0 = some (Hash32.ZERO, true) ∧
      later.identities 1 = some (secondPeer, false) ∧
      later.node.syncQueues[Hash32.ZERO]? = some [header.id] ∧
      later.node.pendingWorkshares[share.id]? = some (secondPeer, share) ∧ later.Accounted := by
  intro crypto
  let header : BlockHeader :=
    { Block.genesis.header with height := 1, previousBlock := Block.genesis.id, nonce := 1 }
  let share : Workshare := ⟨1, Hash32.ZERO, Hash32.ZERO, LedgerState.addressMin, 0, header⟩
  have other : Block.genesis.id ≠ header.id := by
    intro same
    have nonces : (0 : UInt64) = 1 := (labelled_id_injective same).2
    exact absurd nonces (by decide)
  obtain ⟨server, later, opened, runs, first, second, queue, orphan⟩ :=
    two_sessions_kept header rfl rfl rfl rfl other share
  exact ⟨server, later, header, share, opened, runs, first, second, queue, orphan,
    runs_accounted opened runs⟩

theorem submits {pow : PowVerifier} {start : UInt64} {tree : BlockTree pow start} {submitted : Set Block}
    {server : Server} {env : NodeEnv} {block : Block} (chosen : Chosen tree submitted server.node)
    (short : (tree.chainTo block).blocks.length ≤ 100000) (calm : Dependable pow start env)
    (member : block ∈ tree.blocks)
    (due : block = Block.genesis ∨ ∃ parent ∈ submitted, block.header.previousBlock = parent.id) :
    ∃ next, Step server next ∧ next.sessions = server.sessions ∧
      Chosen tree (insert block submitted) next.node ∧
      ((tree.chainTo block).Better server.node.chain ∧ next.node.chain = tree.chainTo block ∨
        ¬(tree.chainTo block).Better server.node.chain ∧ next.node.chain = server.node.chain) := by
  have near : tree.Near server.node.chain block :=
    Nat.le_trans (List.length_filter_le _ _) (Nat.le_succ_of_le short)
  obtain ⟨event, after, result, joined, _⟩ := chosen.submit near calm member due
  have step : Step server { server with node := (server.node.submitBlock env block).2 } :=
    .call (.submitBlock block)
  rw [result] at step
  exact ⟨_, step, rfl, joined, chosen.inserted joined member⟩

omit [Crypto] in
/-- Two peers are served while the node moves from one block on genesis to a better one,
and the first block comes again. -/
theorem replaced_chain_left :
    let _ := labelled
    ∃ opened server later final : Server, opened.Opened ∧ Runs opened server ∧ Runs server later ∧
      Runs later final ∧ later.identities 0 = some (Hash32.ZERO, true) ∧
      (∃ first second : Block, first ≠ second ∧ server.node.chain.blocks = [Block.genesis, first] ∧
        later.node.chain.blocks = [Block.genesis, second]) ∧
      later.node.storage.Persists later.node.chain ∧ later.node.chain.Better server.node.chain ∧
      final.node.chain ≠ server.node.chain := by
  intro crypto
  obtain ⟨tree, left, right, leftMember, rightMember, apart, leftAbove, rightAbove, leftNamed, rightNamed,
    lengths⟩ := forked_tree
  let env : NodeEnv :=
    { pow := acceptAll, now := GENESIS_TIMESTAMP, disk := Disk.reliable, order := default }
  have calm : Dependable acceptAll GENESIS_TIMESTAMP env :=
    ⟨rfl, rfl, UInt64.le_refl _, of_decide_eq_true rfl⟩
  have short : ∀ block ∈ tree.blocks, (tree.chainTo block).blocks.length ≤ 100000 :=
    fun block member => Nat.le_trans (lengths block member) (by decide)
  obtain ⟨node, opened⟩ := Node.openFresh_ok (of_decide_eq_true rfl : fitsI64 0) none
  have chosen : Chosen tree {Block.genesis} node := openFresh_chosen opened
  have ground := (openFresh_holds opened).1
  obtain ⟨server, connected, fresh, runs, same, zero, one⟩ := two_sessions opened
  -- the worse of the two blocks comes first
  obtain ⟨first, second, firstMember, secondMember, firstAbove, secondAbove, firstNamed, secondNamed,
      different, improves⟩ : ∃ first second : Block, first ∈ tree.blocks ∧ second ∈ tree.blocks ∧
      first ≠ Block.genesis ∧ second ≠ Block.genesis ∧ first.header.previousBlock = Block.genesis.id ∧
      second.header.previousBlock = Block.genesis.id ∧ first ≠ second ∧
      (tree.chainTo second).Better (tree.chainTo first) := by
    rcases tree.better_total leftMember rightMember apart with better | better
    · exact ⟨right, left, rightMember, leftMember, rightAbove, leftAbove, rightNamed, leftNamed,
        Ne.symm apart, better⟩
    · exact ⟨left, right, leftMember, rightMember, leftAbove, rightAbove, leftNamed, rightNamed, apart, better⟩
  have ⟨firstBlocks, firstBetter⟩ := tree.onGenesis firstMember firstAbove firstNamed
  have ⟨secondBlocks, _⟩ := tree.onGenesis secondMember secondAbove secondNamed
  rw [← same] at chosen ground
  obtain ⟨middle, moved, served, afterFirst, chosenFirst⟩ := submits chosen (short first firstMember) calm firstMember
    (Or.inr ⟨_, rfl, firstNamed⟩)
  rw [ground] at chosenFirst
  have atFirst := (chosenFirst.resolve_right fun worse => worse.1 firstBetter).2
  obtain ⟨later, replaced, still, afterSecond, chosenSecond⟩ := submits afterFirst
    (short second secondMember) calm secondMember (Or.inr ⟨_, Set.mem_insert_of_mem _ rfl, secondNamed⟩)
  rw [atFirst] at chosenSecond
  have atSecond := (chosenSecond.resolve_right fun worse => worse.1 improves).2
  obtain ⟨final, again, _⟩ := submits afterSecond (short first firstMember) calm firstMember
    (Or.inr ⟨_, Set.mem_insert_of_mem _ (Set.mem_insert_of_mem _ rfl), firstNamed⟩)
  have ⟨persists, better, never⟩ := chain_improves fresh (runs.tail moved) (.single replaced) (.single again)
  have left : later.node.chain ≠ middle.node.chain := by
    intro equal
    rw [atSecond, atFirst] at equal
    rw [equal] at improves
    exact Chain.better_irrefl _ improves
  refine ⟨server, middle, later, final, fresh, runs.tail moved, .single replaced, .single again, ?_,
    ⟨first, second, different, ?_, ?_⟩, persists, better.resolve_left left, never left⟩
  · unfold identities
    rw [still, served, zero]
    rfl
  · rw [atFirst, firstBlocks]
  · rw [atSecond, secondBlocks]

end Server

end

end ParitrNode
