import ParitrNode.HeaderSync
import ParitrNode.Lifetime
import ParitrNode.ShareWork
import ParitrNode.SideBranches
import ParitrNode.Library.QueuedFetch

/-!
A node that fetches the chain of a peer which keeps extending it: both nodes and the messages on
their way, in either direction in the order they were sent. The run refines the fetch of a growing
sequence.
-/

namespace ParitrNode
open ByteCodec OrderedMap Checked

variable [Crypto]

/-! The two nodes. -/

/-- A session of two nodes: the messages on their way, oldest first, and how many of its events
each node has sent to the other. -/
structure Link where
  requester : Node
  responder : Node
  up : List WireMessage
  down : List WireMessage
  told : Nat
  announced : Nat

/-- Tables that work, and a clock that puts none of these blocks in the future. -/
structure Admits (pow : PowVerifier) (blocks : List Block) (env : NodeEnv) : Prop where
  oracle : env.pow = pow
  disk : env.disk = Disk.reliable
  column : fitsI64 env.now
  present : ∀ block ∈ blocks, block.header.timestamp ≤ saturatingAdd env.now MAX_FUTURE_BLOCK_TIME

/-- The node has stored the tip of no chain that is better than its own. -/
def Node.Leads (pow : PowVerifier) (node : Node) : Prop :=
  ∀ (chain : Chain) (clock : UInt64), chain.Replayed pow clock → ValidHistory pow chain.blocks chain.state →
    chain.Better node.chain → node.storage.blocks[chain.tip.id]? = none

namespace Link

def answer (link : Link) (env : NodeEnv) (requesterId : Hash32) (message : WireMessage) : Link :=
  let (reply, responder) := link.responder.handleWire env requesterId message
  { link with responder, down := link.down ++ reply.toList }

def receive (link : Link) (env : NodeEnv) (responderId : Hash32) (message : WireMessage) : Link :=
  let (request, requester) := link.requester.handleWire env responderId message
  { link with requester, up := link.up ++ request.toList }

/-- The responder extends its chain, either node passes on its next event, or either node
handles the message that comes next. The requester can take the blocks of the responder. -/
inductive Step (pow : PowVerifier) (requesterId responderId : Hash32) (link : Link) : Link → Prop where
  | mined {env : NodeEnv} {block : Block} {id : Hash32} {height : UInt64} {next : Node}
      (oracle : env.pow = pow)
      (extended : link.responder.submitBlock env block = (.ok (.extended id height), next)) :
      Step pow requesterId responderId link { link with responder := next }
  | announced {message : WireMessage} (waiting : link.responder.events[link.announced]? = some message) :
      Step pow requesterId responderId link
        { link with down := link.down ++ [message], announced := link.announced + 1 }
  | told {message : WireMessage} (waiting : link.requester.events[link.told]? = some message) :
      Step pow requesterId responderId link
        { link with up := link.up ++ [message], told := link.told + 1 }
  | answered {env : NodeEnv} {message : WireMessage} {rest : List WireMessage}
      (first : link.up = message :: rest) :
      Step pow requesterId responderId link ({ link with up := rest }.answer env requesterId message)
  | received {env : NodeEnv} {message : WireMessage} {rest : List WireMessage}
      (admits : Admits pow link.responder.chain.blocks env) (first : link.down = message :: rest) :
      Step pow requesterId responderId link ({ link with down := rest }.receive env responderId message)

/-- The requester is behind on the responder's chain and has sent its first locator. -/
structure Opened (pow : PowVerifier) (responderId : Hash32) (link : Link) : Prop where
  requester : ∃ clock, link.requester.Lived pow clock
  responder : ∃ clock, link.responder.Lived pow clock
  behind : link.requester.chain.blocks <+: link.responder.chain.blocks
  leads : link.requester.Leads pow
  queue : link.requester.syncQueues[responderId]? = none
  up : link.up = [.getHeaders link.requester.blockLocator Hash32.ZERO]
  down : link.down = []
  told : link.told = link.requester.events.length
  announced : link.announced = link.responder.events.length

/-- A block that comes next while the requester has a queue is the one at its front. -/
def InTurn (responderId : Hash32) (link : Link) : Prop :=
  ∀ block rest queue, link.down = .block block :: rest →
    link.requester.syncQueues[responderId]? = some queue → queue.head? = some block.id

def OrderlyStep (pow : PowVerifier) (requesterId responderId : Hash32) (link next : Link) : Prop :=
  link.InTurn responderId ∧ Step pow requesterId responderId link next

structure Quiet (link : Link) : Prop where
  up : link.up = []
  down : link.down = []
  announced : link.announced = link.responder.events.length

end Link

/-! Chains of nodes. -/

structure Grown (pow : PowVerifier) (goal : Chain) : Prop where
  replayed : ∃ clock, goal.Replayed pow clock
  valid : ValidHistory pow goal.blocks goal.state
  distinct : (goal.blocks.map Block.id).Nodup
  short : goal.blocks.length ≤ 2 ^ 63

theorem Node.Lived.grown {pow : PowVerifier} {clock : UInt64} {node : Node} (lived : node.Lived pow clock) :
    Grown pow node.chain where
  replayed := ⟨clock, lived.keeps.replayed⟩
  valid := lived.valid
  distinct := lived.running.persists.distinct
  short := lived.valid.length_le lived.keeps.dated

structure Along (pow : PowVerifier) (goal : Chain) (height : Nat) (node : Node) : Prop where
  lived : ∃ clock, node.Lived pow clock
  blocks : node.chain.blocks = goal.blocks.take (height + 1)
  inside : height < goal.blocks.length

section

variable {pow : PowVerifier} {goal : Chain} {height index : Nat} {node : Node} {env : NodeEnv} {block : Block}

theorem Grown.index_unique (grown : Grown pow goal) {place : Nat} {other : Block}
    (here : goal.blocks[index]? = some block) (there : goal.blocks[place]? = some other)
    (same : block.id = other.id) : index = place := by
  have first : (goal.blocks.map Block.id)[index]? = some block.id := by rw [List.getElem?_map, here]; rfl
  have second : (goal.blocks.map Block.id)[place]? = some block.id := by
    rw [List.getElem?_map, there, same]
    rfl
  have bound := (List.getElem?_eq_some_iff.mp first).1
  exact (List.getElem?_inj bound grown.distinct).mp (first.trans second.symm)

theorem Along.lookup (along : Along pow goal height node) (grown : Grown pow goal)
    (here : goal.blocks[index]? = some block) :
    node.chain.blockByHash block.id = if index ≤ height then some block else none := by
  split
  next low =>
    have inside : block ∈ node.chain.blocks := by
      rw [along.blocks]
      apply List.mem_of_getElem? (i := index)
      rw [List.getElem?_take_of_lt (by omega), here]
    obtain ⟨found, lookup⟩ := Option.isSome_iff_exists.mp (Chain.blockByHash_isSome inside)
    obtain ⟨listed, same⟩ := Chain.blockByHash_some lookup
    rw [along.blocks] at listed
    obtain ⟨place, there⟩ := List.mem_iff_getElem?.mp (List.mem_of_mem_take listed)
    have equal := grown.index_unique here there same.symm
    rw [equal, there] at here
    rw [lookup, here]
  next high =>
    cases lookup : node.chain.blockByHash block.id with
    | none => rfl
    | some found =>
      obtain ⟨listed, same⟩ := Chain.blockByHash_some lookup
      rw [along.blocks] at listed
      obtain ⟨place, there⟩ := List.mem_iff_getElem?.mp listed
      have bound := (List.getElem?_eq_some_iff.mp there).1
      rw [List.length_take] at bound
      rw [List.getElem?_take_of_lt (by omega)] at there
      have equal := grown.index_unique here there same.symm
      omega

/-! What a block does that extends the chain. -/

structure Joins (node : Node) (block : Block) (after : Node) : Prop where
  parent : block.header.previousBlock = node.chain.tip.id
  blocks : after.chain.blocks = node.chain.blocks ++ [block]
  queues : after.syncQueues = node.syncQueues
  events : after.events = node.events ++ [.inventory .block block.id]

theorem submitBlock_joins {id : Hash32} {level : UInt64} {after : Node}
    (submitted : node.submitBlock env block = (.ok (.extended id level), after)) : Joins node block after := by
  obtain ⟨stored, candidate, saved, recorded, _, same⟩ := submitBlock_active submitted trivial
  have placed := recorded.placed
  unfold Node.placeBlock at placed
  split at placed
  next parent =>
    rcases append_ok placed with ⟨known, _⟩ | ⟨_, _, _, blocks, _⟩
    · cases known
    · have tip : candidate.tip = block := by
        unfold Chain.tip
        simp only [blocks, List.getLast_append_singleton]
      refine ⟨parent, ?_, ?_, ?_⟩
      · rw [same]
        exact blocks
      · rw [same]
        rfl
      · rw [same, ← tip]
        rfl
  next =>
    obtain ⟨branch, _, considered⟩ := bind_ok.mp placed
    unfold Chain.considerChain at considered
    simp only [guard_ok, bind_ok] at considered
    obtain ⟨_, validated, _, choice⟩ := considered
    split at choice
    · cases choice
    · cases choice

theorem Node.Lived.absent {clock : UInt64} {id : Hash32} (lived : node.Lived pow clock)
    (absent : node.storage.blocks[id]? = none) : node.storage.RowsOf fun block => block.id ≠ id := by
  intro other row found
  obtain ⟨block, _, same, data⟩ := lived.keeps.rows other row found
  refine ⟨block, ?_, same, data⟩
  intro equal
  rw [same] at equal
  rw [equal, absent] at found
  cases found

theorem Storage.RowsOf.absent {storage : Storage} {id : Hash32}
    (rows : storage.RowsOf fun block => block.id ≠ id) : storage.blocks[id]? = none := by
  cases found : storage.blocks[id]? with
  | none => rfl
  | some row =>
    obtain ⟨block, different, same, _⟩ := rows id row found
    exact absurd same different

theorem Along.tip (along : Along pow goal height node) :
    goal.blocks[height]? = some node.chain.tip := by
  have last : node.chain.blocks.getLast? = some node.chain.tip :=
    List.getLast?_eq_getLast_of_ne_nil node.chain.nonempty
  have bound := along.inside
  rw [List.getLast?_eq_getElem?, along.blocks, List.length_take, Nat.min_eq_left (by omega),
    Nat.add_sub_cancel, List.getElem?_take_of_lt (Nat.lt_succ_self _)] at last
  exact last

/-- The next block of the chain is accepted. -/
theorem Along.appends (along : Along pow goal height node) (grown : Grown pow goal)
    (place : goal.blocks[height + 1]? = some block) {now : UInt64}
    (present : block.header.timestamp ≤ saturatingAdd now MAX_FUTURE_BLOCK_TIME) :
    ∃ longer : Chain, longer.blocks = goal.blocks.take (height + 2) ∧
      node.chain.append block pow now = .ok (.extended block.id block.header.height, longer) := by
  obtain ⟨clock, lived⟩ := along.lived
  obtain ⟨other, replayed⟩ := grown.replayed
  have whole := replayed.later (le_max_second clock other)
  obtain ⟨longer, later, blocks⟩ := fromBlocks_take whole (height + 1)
  have shape : longer.blocks = node.chain.blocks ++ [block] := by
    rw [blocks, take_snoc place, along.blocks]
  have ⟨accepted, added⟩ := (lived.keeps.replayed.later (le_max_first clock other)).accepts later shape
  have unknown : node.chain.blockByHash block.id = none := by
    rw [along.lookup grown place, if_neg (by omega)]
  obtain ⟨parent, below, named, _⟩ := (grown.valid.linked _ block place).mined (Nat.le_add_left 1 height)
  rw [Nat.add_sub_cancel, along.tip] at below
  cases below
  refine ⟨longer, blocks, ?_⟩
  rw [append_extends unknown named (validateBlock_at_clock accepted present) added]
  cases longer
  cases shape
  rfl

theorem Along.extends (along : Along pow goal height node) (grown : Grown pow goal)
    (place : goal.blocks[height + 1]? = some block) (admits : Admits pow [block] env) :
    ∃ after, node.submitBlock env block = (.ok (.extended block.id block.header.height), after) ∧
      Along pow goal (height + 1) after ∧
      ∀ id, node.storage.blocks[id]? = none → (∀ other ∈ goal.blocks.take (height + 2), other.id ≠ id) →
        after.storage.blocks[id]? = none := by
  obtain ⟨clock, lived⟩ := along.lived
  obtain ⟨longer, blocks, appended⟩ :=
    along.appends grown place (admits.present block (List.mem_singleton_self block))
  have bound := (List.getElem?_eq_some_iff.mp place).1
  have few : longer.blocks.length ≤ 2 ^ 63 := by
    rw [blocks, List.length_take]
    exact Nat.le_trans (Nat.min_le_right _ _) grown.short
  rw [← admits.oracle] at appended
  obtain ⟨stored, saved, recorded, commits, submitted⟩ :=
    submitBlock_appended (admits.oracle ▸ lived.valid) lived.running.persists.distinct appended few
      admits.column admits.disk
  refine ⟨_, submitted, ⟨?_, blocks, bound⟩, ?_⟩
  · refine ⟨max clock env.now, ?_⟩
    have called := lived.called admits.oracle (.submitBlock block)
    rw [LocalCall.perform, submitted] at called
    exact called
  · intro id absent others
    have kept := recorded.stored
    rw [Storage.storeSideBlock, admits.disk] at kept
    have here : block.id ≠ id := by
      apply others block
      apply List.mem_of_getElem? (i := height + 1)
      rw [List.getElem?_take_of_lt (by omega), place]
    apply Storage.RowsOf.absent
    apply ((lived.absent absent).insertBlock here kept).saveChain ?_ commits
    rw [blocks]
    exact others

end

/-! The state of the fetch that a link shows. -/

def nth (blocks : List Block) (index : Nat) : Block := blocks.getD index Block.genesis

def Unsent (events : List WireMessage) (sent : Nat) (waiting : List WireMessage) : Prop :=
  ∃ past, past.length = sent ∧ events = past ++ waiting

def Lacking (goal : Chain) (held : Nat) (node : Node) : Prop :=
  ∀ index, held < index → index < goal.blocks.length →
    node.storage.blocks[(nth goal.blocks index).id]? = none

namespace Link

def notice (blocks : List Block) (index : Nat) : WireMessage := .inventory .block (nth blocks index).id

def request (blocks : List Block) : QueuedFetch.Request → WireMessage
  | .after held =>
    .getHeaders ((Node.locatorHeights held 1 0).map fun height => (nth blocks height).id) Hash32.ZERO
  | .want index => .getData .block (nth blocks index).id
  | .notice index => notice blocks index

def slice (blocks : List Block) (first last : Nat) : List Block := (blocks.drop (first + 1)).take (last - first)

def reply (blocks : List Block) : QueuedFetch.Reply → WireMessage
  | .offer first last => .headers ((slice blocks first last).map Block.header)
  | .item index => .block (nth blocks index)
  | .notice index => notice blocks index

/-- The nodes are on the chain up to what is held and made, and the messages name its blocks. -/
structure Mirrors (pow : PowVerifier) (goal : Chain) (responderId : Hash32) (state : QueuedFetch.State)
    (link : Link) : Prop where
  requester : Along pow goal state.held link.requester
  responder : Along pow goal state.made link.responder
  lacking : Lacking goal state.held link.requester
  queue : link.requester.syncQueues[responderId]? =
    state.queue.map fun last => (slice goal.blocks state.held last).map Block.id
  up : link.up = state.up.map (request goal.blocks)
  down : link.down = state.down.map (reply goal.blocks)
  own : Unsent link.requester.events link.told (state.own.map (notice goal.blocks))
  news : Unsent link.responder.events link.announced (state.news.map (notice goal.blocks))

end Link

section

variable {pow : PowVerifier} {goal : Chain} {held index first last : Nat} {node : Node} {env : NodeEnv}
  {peer : Hash32}

theorem nth_at {blocks : List Block} {block : Block} (here : blocks[index]? = some block) :
    nth blocks index = block := by
  unfold nth
  rw [List.getD_eq_getElem?_getD, here]
  rfl

theorem nth_inside {blocks : List Block} (bound : index < blocks.length) :
    blocks[index]? = some (nth blocks index) := by
  have here := List.getElem?_eq_getElem bound
  rw [nth_at here, here]

omit [Crypto] in
theorem Unsent.next {events waiting : List WireMessage} {sent : Nat} (unsent : Unsent events sent waiting) :
    events[sent]? = waiting.head? := by
  obtain ⟨past, length, shape⟩ := unsent
  rw [shape, List.getElem?_append_right (Nat.le_of_eq length), length, Nat.sub_self, List.head?_eq_getElem?]

omit [Crypto] in
theorem Unsent.pass {events waiting : List WireMessage} {message : WireMessage} {sent : Nat}
    (unsent : Unsent events sent (message :: waiting)) : Unsent events (sent + 1) waiting := by
  obtain ⟨past, length, shape⟩ := unsent
  refine ⟨past ++ [message], ?_, ?_⟩
  · rw [List.length_append, length, List.length_singleton]
  · rw [shape, List.append_assoc, List.singleton_append]

omit [Crypto] in
theorem Unsent.add {events waiting : List WireMessage} {sent : Nat} (unsent : Unsent events sent waiting)
    (message : WireMessage) : Unsent (events ++ [message]) sent (waiting ++ [message]) := by
  obtain ⟨past, length, shape⟩ := unsent
  exact ⟨past, length, by rw [shape, List.append_assoc]⟩

omit [Crypto] in
theorem Unsent.all_sent_iff {events waiting : List WireMessage} {sent : Nat} (unsent : Unsent events sent waiting) :
    sent = events.length ↔ waiting = [] := by
  obtain ⟨past, length, shape⟩ := unsent
  rw [shape, List.length_append, length, ← List.length_eq_zero_iff]
  omega

omit [Crypto] in
theorem locatorHeights_head (height : Nat) : ∃ rest, Node.locatorHeights height 1 0 = height :: rest := by
  unfold Node.locatorHeights
  split
  next ground => exact ⟨[], by rw [ground]⟩
  next => exact ⟨_, rfl⟩

/-! What either node makes of each message. -/

theorem Along.level (along : Along pow goal held node) (grown : Grown pow goal) :
    node.chain.height.toNat = held := by
  unfold Chain.height
  exact (grown.valid.linked held _ along.tip).height

theorem Along.locator (along : Along pow goal held node) (grown : Grown pow goal) :
    .getHeaders node.blockLocator Hash32.ZERO = Link.request goal.blocks (.after held) := by
  have each : ∀ height ∈ Node.locatorHeights held 1 0,
      node.chain.blocks[height]?.map Block.id = some (nth goal.blocks height).id := by
    intro height listed
    have low := le_of_mem_locatorHeights listed
    have bound := along.inside
    rw [along.blocks, List.getElem?_take_of_lt (by omega), nth_inside (by omega)]
    rfl
  unfold Node.blockLocator Link.request
  rw [along.level grown, List.filterMap_congr each, List.filterMap_eq_map']

theorem Along.finds (along : Along pow goal held node) (grown : Grown pow goal) (known : index ≤ held) :
    node.chain.blockByHash (nth goal.blocks index).id = some (nth goal.blocks index) := by
  have here := nth_inside (Nat.lt_of_le_of_lt known along.inside)
  rw [along.lookup grown here, if_pos known]

theorem Along.answers_after (along : Along pow goal held node) (grown : Grown pow goal) (known : first ≤ held) :
    node.handleWire env peer (Link.request goal.blocks (.after first)) =
      (some (Link.reply goal.blocks (.offer first (min (first + MAX_HEADERS) held))), node) := by
  have here := nth_inside (Nat.lt_of_le_of_lt known along.inside)
  have level := (grown.valid.linked first _ here).height
  obtain ⟨rest, locator⟩ := locatorHeights_head first
  have start : ((nth goal.blocks first).header.height + 1).toNat = first + 1 := by
    have bound := along.inside
    have short := grown.short
    rw [toNat_add (by rw [level]; change first + 1 < 2 ^ 64; omega), level]
    rfl
  have window : min MAX_HEADERS (held + 1 - (first + 1)) = min (first + MAX_HEADERS) held - first := by omega
  have sent : node.headersAfter ((Node.locatorHeights first 1 0).map fun height => (nth goal.blocks height).id)
      Hash32.ZERO = (Link.slice goal.blocks first (min (first + MAX_HEADERS) held)).map Block.header := by
    unfold Node.headersAfter Link.slice
    rw [locator, List.map_cons, List.findSome?_cons, along.finds grown known]
    dsimp only [Option.map_some, Option.getD_some]
    rw [start, along.blocks, List.drop_take, List.take_take, window, List.takeWhile_eq_self_iff.mpr]
    exact fun _ _ => decide_eq_true (Or.inl rfl)
  change (some (WireMessage.headers (node.headersAfter _ Hash32.ZERO)), node) = _
  rw [sent]
  rfl

theorem Along.answers_want (along : Along pow goal held node) (grown : Grown pow goal) (known : index ≤ held) :
    node.handleWire env peer (Link.request goal.blocks (.want index)) =
      (some (Link.reply goal.blocks (.item index)), node) := by
  change ((node.blockByHash env.disk (nth goal.blocks index).id).map WireMessage.block, node) = _
  rw [Node.blockByHash_of_chain (along.finds grown known)]
  rfl

theorem Along.answers_notice (along : Along pow goal held node) (grown : Grown pow goal) (known : index ≤ held) :
    node.handleWire env peer (Link.notice goal.blocks index) = (none, node) := by
  change (node.handleInventory env .block (nth goal.blocks index).id, node) = _
  unfold Node.handleInventory
  dsimp only
  rw [Node.blockByHash_of_chain (along.finds grown known)]
  rfl

theorem Along.lost (along : Along pow goal held node) (grown : Grown pow goal) (new : held < index)
    (inside : index < goal.blocks.length) (reliable : env.disk = Disk.reliable)
    (absent : node.storage.blocks[(nth goal.blocks index).id]? = none) :
    node.blockByHash env.disk (nth goal.blocks index).id = none := by
  have row : node.storage.block (nth goal.blocks index).id env.disk = .ok none := by
    unfold Storage.block
    rw [reliable, absent]
    rfl
  unfold Node.blockByHash
  rw [along.lookup grown (nth_inside inside), if_neg (by omega), row]
  rfl

theorem Along.wants (along : Along pow goal held node) (grown : Grown pow goal) (new : held < index)
    (inside : index < goal.blocks.length) (reliable : env.disk = Disk.reliable)
    (absent : node.storage.blocks[(nth goal.blocks index).id]? = none) :
    node.handleWire env peer (Link.notice goal.blocks index) =
      (some (Link.request goal.blocks (.want index)), node) := by
  change (node.handleInventory env .block (nth goal.blocks index).id, node) = _
  unfold Node.handleInventory
  dsimp only
  rw [along.lost grown new inside reliable absent]
  rfl

omit [Crypto] in
theorem slice_empty {blocks : List Block} (nothing : last ≤ first) : Link.slice blocks first last = [] := by
  unfold Link.slice
  rw [Nat.sub_eq_zero_of_le nothing, List.take_zero]

omit [Crypto] in
theorem slice_split {blocks : List Block} {middle : Nat} (low : first ≤ middle) (high : middle ≤ last) :
    Link.slice blocks first last = Link.slice blocks first middle ++ Link.slice blocks middle last := by
  unfold Link.slice
  rw [show last - first = (middle - first) + (last - middle) by omega, List.take_add, List.drop_drop,
    show first + 1 + (middle - first) = middle + 1 by omega]

theorem slice_next {blocks : List Block} (more : first < last) (inside : last < blocks.length) :
    Link.slice blocks first last = nth blocks (first + 1) :: Link.slice blocks (first + 1) last := by
  have bound : first + 1 < blocks.length := by omega
  have here := List.getElem?_eq_getElem bound
  unfold Link.slice
  rw [List.drop_eq_getElem_cons bound, show last - first = (last - (first + 1)) + 1 by omega,
    List.take_succ_cons, nth_at here]

theorem mem_slice {blocks : List Block} {block : Block} (member : block ∈ Link.slice blocks first last) :
    ∃ index, first < index ∧ index ≤ last ∧ nth blocks index = block := by
  obtain ⟨offset, here⟩ := List.mem_iff_getElem?.mp member
  have bound := (List.getElem?_eq_some_iff.mp here).1
  unfold Link.slice at here bound
  rw [List.length_take] at bound
  rw [List.getElem?_take_of_lt (by omega), List.getElem?_drop] at here
  exact ⟨first + 1 + offset, by omega, by omega, nth_at here⟩

theorem Along.takes_offer (along : Along pow goal held node) (grown : Grown pow goal) (known : first ≤ held)
    (more : first < last) (window : last ≤ first + MAX_HEADERS) (inside : last < goal.blocks.length) :
    node.handleWire env peer (Link.reply goal.blocks (.offer first last)) =
      match node.news env.disk (Link.slice goal.blocks first last) with
      | [] => (none, node)
      | next :: rest => (some (.getData .block next),
          { node with syncQueues := node.syncQueues.insert peer (next :: rest) }) := by
  have here := nth_inside (show first < goal.blocks.length by omega)
  have parent : node.blockByHash env.disk (nth goal.blocks first).id = some (nth goal.blocks first) :=
    Node.blockByHash_of_chain (along.finds grown known)
  apply Node.handleHeaders_eq parent ((grown.valid.successive here).take _)
  · change Link.slice goal.blocks first last ≠ []
    rw [slice_next more inside]
    exact List.cons_ne_nil _ _
  · rw [List.length_take]
    omega

theorem Along.news_known (along : Along pow goal held node) (grown : Grown pow goal) (known : last ≤ held) :
    node.news env.disk (Link.slice goal.blocks first last) = [] := by
  apply List.filter_eq_nil_iff.mpr
  intro id listed
  obtain ⟨block, member, same⟩ := List.mem_map.mp listed
  obtain ⟨index, _, high, here⟩ := mem_slice member
  unfold Node.knows
  rw [← same, ← here, Node.blockByHash_of_chain (along.finds grown (by omega))]
  exact Bool.false_ne_true

theorem Along.news_new (along : Along pow goal held node) (grown : Grown pow goal) (known : first ≤ held)
    (more : held ≤ last) (inside : last < goal.blocks.length) (reliable : env.disk = Disk.reliable)
    (lacking : Lacking goal held node) :
    node.news env.disk (Link.slice goal.blocks first last) = (Link.slice goal.blocks held last).map Block.id := by
  have low : node.news env.disk (Link.slice goal.blocks first held) = [] :=
    along.news_known grown (Nat.le_refl held)
  unfold Node.news at low ⊢
  rw [slice_split known more, List.map_append, List.filter_append, low, List.nil_append]
  apply List.filter_eq_self.mpr
  intro id listed
  obtain ⟨block, member, same⟩ := List.mem_map.mp listed
  obtain ⟨index, above, high, here⟩ := mem_slice member
  unfold Node.knows
  rw [← same, ← here, along.lost grown above (by omega) reliable (lacking index above (by omega))]
  rfl

/-! Blocks. -/

theorem Along.submits_known (along : Along pow goal held node) (grown : Grown pow goal) (known : index ≤ held) :
    node.submitBlock env (nth goal.blocks index) = (.ok .known, node) := by
  unfold Node.submitBlock
  rw [along.finds grown known]
  rfl

/-- A block whose parent is missing is an orphan. -/
theorem Along.submits_orphan (along : Along pow goal held node) (grown : Grown pow goal) (far : held + 1 < index)
    (inside : index < goal.blocks.length) (reliable : env.disk = Disk.reliable)
    (absent : node.storage.blocks[(nth goal.blocks (index - 1)).id]? = none) :
    node.submitBlock env (nth goal.blocks index) = (.error .wrongParent, node) := by
  have here := nth_inside inside
  have before := nth_inside (show index - 1 < goal.blocks.length by omega)
  obtain ⟨parent, below, named, _⟩ := (grown.valid.linked _ _ here).mined (by omega)
  rw [before] at below
  cases below
  have missing := along.lookup grown before
  rw [if_neg (by omega)] at missing
  have row : node.storage.block (nth goal.blocks (index - 1)).id env.disk = .ok none := by
    unfold Storage.block
    rw [reliable, absent]
    rfl
  have apart : (nth goal.blocks (index - 1)).id ≠ node.chain.tip.id := by
    intro same
    have equal := grown.index_unique before along.tip same
    omega
  have placed : node.placeBlock env (nth goal.blocks index) = .error .wrongParent := by
    unfold Node.placeBlock Node.assembleCandidate
    rw [named, if_neg apart, Node.walkBranch, named, missing]
    dsimp only
    rw [if_neg (by simp), row]
    rfl
  unfold Node.submitBlock
  rw [along.lookup grown here, if_neg (show ¬index ≤ held by omega), placed]
  rfl

end

omit [Crypto] in
theorem cumulativeWork_more {blocks more : List Block} {earlier work : Nat}
    (before : cumulativeWork blocks = .ok earlier) (summed : cumulativeWork (blocks ++ more) = .ok work)
    (some : more ≠ []) : earlier < work := by
  induction more using List.reverseRecOn generalizing work with
  | nil => exact absurd rfl some
  | append_singleton more block ih =>
    rw [← List.append_assoc] at summed
    obtain ⟨middle, sum, added⟩ := cumulativeWork_snoc.mp summed
    have last := addWork_lt added
    by_cases none : more = []
    · rw [none, List.append_nil, before] at sum
      cases sum
      exact last
    · exact (ih sum none).trans last

theorem Chain.Replayed.better {pow : PowVerifier} {clock earlier : UInt64} {chain initial : Chain}
    (replayed : chain.Replayed pow clock) (before : initial.Replayed pow earlier)
    (behind : initial.blocks <+: chain.blocks) (less : initial.blocks.length < chain.blocks.length) :
    chain.Better initial := by
  obtain ⟨more, shape⟩ := behind
  obtain ⟨_, _, _, _, summed⟩ := fromBlocks_ok_iff.mp replayed
  obtain ⟨_, _, _, _, total⟩ := fromBlocks_ok_iff.mp before
  rw [← shape] at summed
  apply Or.inl
  apply cumulativeWork_more total summed
  intro none
  rw [← shape, none, List.append_nil] at less
  exact Nat.lt_irrefl _ less

/-- A node that leads has none of the blocks above its tip. -/
theorem Along.lacking {pow : PowVerifier} {goal : Chain} {held : Nat} {node : Node}
    (along : Along pow goal held node) (grown : Grown pow goal) (leads : node.Leads pow) :
    Lacking goal held node := by
  intro index above inside
  have place := nth_inside inside
  obtain ⟨clock, replayed⟩ := grown.replayed
  obtain ⟨initial, shorter, blocks⟩ := fromBlocks_take replayed index
  obtain ⟨earlier, lived⟩ := along.lived
  have last : initial.blocks.getLast? = some (nth goal.blocks index) := by
    rw [blocks, take_snoc place, List.getLast?_concat]
  have tip : initial.tip = nth goal.blocks index :=
    Option.some.inj ((List.getLast?_eq_getLast_of_ne_nil initial.nonempty).symm.trans last)
  have valid : ValidHistory pow initial.blocks initial.state := by
    apply fromBlocks_valid shorter
    intro block listed
    apply grown.valid.linked.above block
    rw [blocks, List.tail_take_eq_take_tail] at listed
    exact List.mem_of_mem_take listed
  rw [← tip]
  have behind : node.chain.blocks <+: initial.blocks := by
    rw [along.blocks, blocks]
    exact List.take_prefix_take_left (by omega)
  apply leads initial clock shorter valid
  apply shorter.better lived.keeps.replayed behind
  rw [along.blocks, blocks, List.length_take, List.length_take]
  omega

/-! Each step of the link is a step of the fetch. -/

namespace Link

variable {pow : PowVerifier} {goal : Chain} {requesterId responderId : Hash32} {state : QueuedFetch.State}
  {link : Link} {env : NodeEnv} {index start : Nat}

theorem Mirrors.mined (mirrors : Mirrors pow goal responderId state link) {next : Node}
    (lived : ∃ clock, next.Lived pow clock) (inside : state.made + 1 < goal.blocks.length)
    (joins : Joins link.responder (nth goal.blocks (state.made + 1)) next) :
    Mirrors pow goal responderId
      { state with made := state.made + 1, news := state.news ++ [state.made + 1] }
      { link with responder := next } := by
  have blocks : next.chain.blocks = goal.blocks.take (state.made + 1 + 1) := by
    rw [joins.blocks, mirrors.responder.blocks, take_snoc (nth_inside inside)]
  have news := mirrors.news.add (notice goal.blocks (state.made + 1))
  rw [← List.map_singleton (f := notice goal.blocks), ← List.map_append] at news
  refine { mirrors with responder := ⟨lived, blocks, inside⟩, news := ?_ }
  change Unsent next.events _ _
  rw [joins.events]
  exact news

theorem Mirrors.announced (mirrors : Mirrors pow goal responderId state link) {rest : List Nat}
    (waiting : state.news = index :: rest) :
    Mirrors pow goal responderId ({ state with news := rest }.send (.notice index))
      { link with down := link.down ++ [notice goal.blocks index], announced := link.announced + 1 } := by
  have news := mirrors.news
  rw [waiting] at news
  refine { mirrors with news := news.pass, down := ?_ }
  change _ = (state.down ++ [QueuedFetch.Reply.notice index]).map (reply goal.blocks)
  rw [List.map_append, mirrors.down]
  rfl

theorem Mirrors.told (mirrors : Mirrors pow goal responderId state link) {rest : List Nat}
    (waiting : state.own = index :: rest) :
    Mirrors pow goal responderId ({ state with own := rest }.ask (.notice index))
      { link with up := link.up ++ [notice goal.blocks index], told := link.told + 1 } := by
  have own := mirrors.own
  rw [waiting] at own
  refine { mirrors with own := own.pass, up := ?_ }
  change _ = (state.up ++ [QueuedFetch.Request.notice index]).map (request goal.blocks)
  rw [List.map_append, mirrors.up]
  rfl

theorem answer_eq {message : WireMessage} {answers : Option WireMessage} (up : List WireMessage)
    (handled : link.responder.handleWire env requesterId message = (answers, link.responder)) :
    { link with up }.answer env requesterId message =
      { link with up, down := link.down ++ answers.toList } := by
  unfold answer
  rw [handled]

theorem Mirrors.answered (mirrors : Mirrors pow goal responderId state link) (grown : Grown pow goal)
    (within : QueuedFetch.Within MAX_HEADERS start state) {asked : QueuedFetch.Request}
    {rest : List QueuedFetch.Request} (first : state.up = asked :: rest) :
    Mirrors pow goal responderId ({ state with up := rest }.answer MAX_HEADERS asked)
      ({ link with up := rest.map (request goal.blocks) }.answer env requesterId (request goal.blocks asked)) := by
  have fits := within.up asked (by rw [first]; exact List.mem_cons_self)
  have high := within.high
  have sent : ∀ answers : QueuedFetch.Reply,
      Mirrors pow goal responderId ({ state with up := rest }.send answers)
        { link with
          up := rest.map (request goal.blocks)
          down := link.down ++ [reply goal.blocks answers] } := by
    intro answers
    refine { mirrors with up := rfl, down := ?_ }
    change _ = (state.down ++ [answers]).map (reply goal.blocks)
    rw [List.map_append, mirrors.down]
    rfl
  cases asked with
  | after held =>
    rw [answer_eq _ (mirrors.responder.answers_after grown (Nat.le_trans fits.2 high))]
    exact sent _
  | want index =>
    rw [answer_eq _ (mirrors.responder.answers_want grown fits)]
    exact sent _
  | notice index =>
    have quiet : link.responder.handleWire env requesterId (request goal.blocks (.notice index)) =
        (none, link.responder) := mirrors.responder.answers_notice grown (Nat.le_trans fits high)
    rw [answer_eq _ quiet]
    refine { mirrors with up := rfl, down := ?_ }
    change link.down ++ [] = _
    rw [List.append_nil]
    exact mirrors.down

theorem receive_eq {message : WireMessage} {asks : Option WireMessage} {next : Node} (down : List WireMessage)
    (handled : link.requester.handleWire env responderId message = (asks, next)) :
    { link with down }.receive env responderId message =
      { link with requester := next, up := link.up ++ asks.toList, down } := by
  unfold receive
  rw [handled]

/-- The requester after a message, with what it holds, queues and asks for. -/
theorem Mirrors.renewed (mirrors : Mirrors pow goal responderId state link) {next : Node} {held : Nat}
    {own : List Nat} (queue : Option Nat) (asks : List QueuedFetch.Request) (rest : List QueuedFetch.Reply)
    (along : Along pow goal held next) (lacking : Lacking goal held next)
    (queues : next.syncQueues[responderId]? = queue.map fun last => (slice goal.blocks held last).map Block.id)
    (events : Unsent next.events link.told (own.map (notice goal.blocks))) :
    Mirrors pow goal responderId { state with held, queue, own, up := state.up ++ asks, down := rest }
      { link with
        requester := next
        up := link.up ++ asks.map (request goal.blocks)
        down := rest.map (reply goal.blocks) } := by
  refine { mirrors with requester := along, lacking, queue := queues, own := events, up := ?_, down := rfl }
  change _ = (state.up ++ asks).map (request goal.blocks)
  rw [List.map_append, mirrors.up]

/-- The requester after a message that it answers with nothing. -/
theorem Mirrors.silent (mirrors : Mirrors pow goal responderId state link) {next : Node} {held : Nat}
    {own : List Nat} (queue : Option Nat) (rest : List QueuedFetch.Reply) (along : Along pow goal held next)
    (lacking : Lacking goal held next)
    (queues : next.syncQueues[responderId]? = queue.map fun last => (slice goal.blocks held last).map Block.id)
    (events : Unsent next.events link.told (own.map (notice goal.blocks))) :
    Mirrors pow goal responderId { state with held, queue, own, down := rest }
      { link with requester := next, up := link.up ++ [], down := rest.map (reply goal.blocks) } := by
  have kept := mirrors.renewed queue [] rest along lacking queues events
  rw [List.append_nil] at kept
  exact kept

theorem Mirrors.takes_notice (mirrors : Mirrors pow goal responderId state link) (grown : Grown pow goal)
    (fits : index ≤ state.made) {rest : List QueuedFetch.Reply}
    (admits : Admits pow link.responder.chain.blocks env) :
    Mirrors pow goal responderId ({ state with down := rest }.receive (.notice index))
      ({ link with down := rest.map (reply goal.blocks) }.receive env responderId (notice goal.blocks index)) := by
  have inside := mirrors.responder.inside
  unfold QueuedFetch.State.receive
  dsimp only
  split
  next known =>
    rw [receive_eq _ (mirrors.requester.answers_notice grown known)]
    exact mirrors.silent _ rest mirrors.requester mirrors.lacking mirrors.queue mirrors.own
  next unknown =>
    have above := Nat.lt_of_not_le unknown
    have absent := mirrors.lacking index above (by omega)
    rw [receive_eq _ (mirrors.requester.wants grown above (by omega) admits.disk absent)]
    exact mirrors.renewed _ [.want index] rest mirrors.requester mirrors.lacking mirrors.queue mirrors.own

theorem Mirrors.takes_offer (mirrors : Mirrors pow goal responderId state link) (grown : Grown pow goal)
    {first last : Nat} {rest : List QueuedFetch.Reply}
    (fits : QueuedFetch.Reply.Fits MAX_HEADERS start state.held state.made (.offer first last))
    (admits : Admits pow link.responder.chain.blocks env) :
    Mirrors pow goal responderId ({ state with down := rest }.receive (.offer first last))
      ({ link with down := rest.map (reply goal.blocks) }.receive env responderId
        (reply goal.blocks (.offer first last))) := by
  obtain ⟨⟨_, known⟩, _, window, high⟩ := fits
  have inside := mirrors.responder.inside
  have ⟨⟨clock, lived⟩, blocks, bound⟩ := mirrors.requester
  have heard := lived.received admits.oracle responderId (reply goal.blocks (.offer first last))
  unfold QueuedFetch.State.receive
  dsimp only
  split
  next nothing =>
    have handled : link.requester.handleWire env responderId (reply goal.blocks (.offer first last)) =
        (none, link.requester.dropQueue responderId) := by
      change link.requester.handleHeaders env responderId ((slice goal.blocks first last).map Block.header) = _
      rw [slice_empty nothing]
      rfl
    rw [handled] at heard
    rw [receive_eq _ handled]
    exact mirrors.silent none rest ⟨⟨_, heard⟩, blocks, bound⟩ mirrors.lacking (get_erase_self _ _) mirrors.own
  next some =>
    have handled : link.requester.handleWire env responderId _ = _ :=
      mirrors.requester.takes_offer grown known (Nat.lt_of_not_le some) window (by omega)
    split
    next all =>
      rw [mirrors.requester.news_known grown all] at handled
      rw [receive_eq _ handled]
      exact mirrors.silent _ rest mirrors.requester mirrors.lacking mirrors.queue mirrors.own
    next more =>
      have above := Nat.lt_of_not_le more
      rw [mirrors.requester.news_new grown known (Nat.le_of_lt above) (by omega) admits.disk mirrors.lacking,
        slice_next above (by omega), List.map_cons] at handled
      rw [handled] at heard
      rw [receive_eq _ handled]
      refine mirrors.renewed (.some last) [.want (state.held + 1)] rest ⟨⟨_, heard⟩, blocks, bound⟩
        mirrors.lacking ?_ mirrors.own
      change (link.requester.syncQueues.insert responderId _)[responderId]? = _
      rw [get_insert_self, Option.map_some, slice_next above (by omega)]
      rfl

/-- A block that the requester cannot append, or does not expect, ends the queue. -/
theorem Mirrors.turns_away (mirrors : Mirrors pow goal responderId state link) (grown : Grown pow goal)
    (within : QueuedFetch.Within MAX_HEADERS start state) (fits : index ≤ state.made)
    (late : index ≠ state.held + 1) (reliable : env.disk = Disk.reliable) :
    ∃ next, link.requester.handleWire env responderId (.block (nth goal.blocks index)) = (none, next) ∧
      next.chain = link.requester.chain ∧ next.storage = link.requester.storage ∧
      next.events = link.requester.events ∧ next.syncQueues[responderId]? = none := by
  have inside := mirrors.responder.inside
  change ∃ next, link.requester.handleBlock env responderId (nth goal.blocks index) = _ ∧ _
  unfold Node.handleBlock
  by_cases known : index ≤ state.held
  · rw [mirrors.requester.submits_known grown known]
    dsimp only
    rw [mirrors.queue]
    cases waiting : state.queue with
    | none =>
      refine ⟨_, rfl, rfl, rfl, rfl, ?_⟩
      rw [mirrors.queue, waiting]
      rfl
    | some last =>
      have ⟨ahead, high⟩ := within.queue last waiting
      have front : ((slice goal.blocks state.held last).map Block.id).head? ≠ some (nth goal.blocks index).id := by
        rw [slice_next ahead (by omega)]
        intro same
        have one := nth_inside (show state.held + 1 < goal.blocks.length by omega)
        have two := nth_inside (show index < goal.blocks.length by omega)
        exact late (grown.index_unique two one (Option.some.inj same).symm)
      dsimp only [Option.map_some]
      rw [if_pos front]
      exact ⟨_, rfl, rfl, rfl, rfl, get_erase_self _ _⟩
  · have absent := mirrors.lacking (index - 1) (by omega) (by omega)
    rw [mirrors.requester.submits_orphan grown (by omega) (by omega) reliable absent]
    exact ⟨_, rfl, rfl, rfl, rfl, get_erase_self _ _⟩

theorem Mirrors.lacking_next (mirrors : Mirrors pow goal responderId state link) (grown : Grown pow goal)
    {after : Node} (absent : ∀ id, link.requester.storage.blocks[id]? = none →
      (∀ other ∈ goal.blocks.take (state.held + 2), other.id ≠ id) → after.storage.blocks[id]? = none) :
    Lacking goal (state.held + 1) after := by
  intro index above inside
  apply absent _ (mirrors.lacking index (by omega) inside)
  intro other listed same
  obtain ⟨place, there⟩ := List.mem_iff_getElem?.mp listed
  have bound := (List.getElem?_eq_some_iff.mp there).1
  rw [List.length_take] at bound
  rw [List.getElem?_take_of_lt (by omega)] at there
  have equal := grown.index_unique there (nth_inside (by omega)) same
  omega

/-- The next block extends the chain, and then the next of the queue is asked for. -/
theorem Mirrors.takes_next (mirrors : Mirrors pow goal responderId state link) (grown : Grown pow goal)
    (within : QueuedFetch.Within MAX_HEADERS start state) (fits : state.held + 1 ≤ state.made)
    {rest : List QueuedFetch.Reply} (admits : Admits pow link.responder.chain.blocks env) :
    Mirrors pow goal responderId ({ state with down := rest }.receive (.item (state.held + 1)))
      ({ link with down := rest.map (reply goal.blocks) }.receive env responderId
        (.block (nth goal.blocks (state.held + 1)))) := by
  have inside := mirrors.responder.inside
  have place := nth_inside (show state.held + 1 < goal.blocks.length by omega)
  have ⟨⟨clock, lived⟩, _, _⟩ := mirrors.requester
  have heard := lived.received admits.oracle responderId (.block (nth goal.blocks (state.held + 1)))
  have listed : nth goal.blocks (state.held + 1) ∈ link.responder.chain.blocks := by
    rw [mirrors.responder.blocks]
    apply List.mem_of_getElem? (i := state.held + 1)
    rw [List.getElem?_take_of_lt (by omega), place]
  have own : Admits pow [nth goal.blocks (state.held + 1)] env :=
    { admits with present := List.forall_mem_singleton.mpr (admits.present _ listed) }
  obtain ⟨after, submitted, ⟨_, blocks, bound⟩, absent⟩ := mirrors.requester.extends grown place own
  have joins := submitBlock_joins submitted
  have lacking := mirrors.lacking_next grown absent
  have events := mirrors.own.add (notice goal.blocks (state.held + 1))
  rw [← List.map_singleton (f := notice goal.blocks), ← List.map_append] at events
  change Unsent (_ ++ [WireMessage.inventory _ _]) _ _ at events
  rw [← joins.events] at events
  have queues := mirrors.queue
  rw [← joins.queues] at queues
  have handled : link.requester.handleWire env responderId (.block (nth goal.blocks (state.held + 1))) =
      link.requester.handleBlock env responderId (nth goal.blocks (state.held + 1)) := rfl
  unfold Node.handleBlock at handled
  rw [submitted] at handled
  dsimp only at handled
  unfold QueuedFetch.State.receive
  simp only [if_true]
  cases waiting : state.queue with
  | none =>
    rw [waiting] at queues
    rw [queues] at handled
    dsimp only [Option.map_none] at handled
    rw [handled] at heard
    rw [receive_eq _ handled]
    exact mirrors.silent none rest ⟨⟨_, heard⟩, blocks, bound⟩ lacking queues events
  | some last =>
    have ⟨ahead, high⟩ := within.queue last waiting
    rw [waiting, Option.map_some, slice_next ahead (by omega), List.map_cons] at queues
    rw [queues] at handled
    dsimp only at handled
    rw [List.head?_cons, if_neg (not_not_intro rfl), List.tail_cons] at handled
    dsimp only
    split
    next more =>
      rw [slice_next more (by omega), List.map_cons] at handled
      dsimp only at handled
      rw [handled] at heard
      rw [receive_eq _ handled]
      refine mirrors.renewed (some last) [.want (state.held + 1 + 1)] rest ⟨⟨_, heard⟩, blocks, bound⟩ lacking
        ?_ events
      change (after.syncQueues.insert responderId _)[responderId]? = _
      rw [get_insert_self, Option.map_some, slice_next more (by omega)]
      rfl
    next done =>
      rw [slice_empty (by omega)] at handled
      change _ = (some (WireMessage.getHeaders after.blockLocator Hash32.ZERO), after.dropQueue responderId) at handled
      rw [handled] at heard
      have along : Along pow goal (state.held + 1) (after.dropQueue responderId) := ⟨⟨_, heard⟩, blocks, bound⟩
      have locator : .getHeaders after.blockLocator Hash32.ZERO =
          request goal.blocks (.after (state.held + 1)) := along.locator grown
      rw [locator] at handled
      rw [receive_eq _ handled]
      exact mirrors.renewed none [.after (state.held + 1)] rest along lacking (get_erase_self _ _) events

theorem Mirrors.takes_item (mirrors : Mirrors pow goal responderId state link) (grown : Grown pow goal)
    (within : QueuedFetch.Within MAX_HEADERS start state) (fits : index ≤ state.made)
    {rest : List QueuedFetch.Reply} (admits : Admits pow link.responder.chain.blocks env) :
    Mirrors pow goal responderId ({ state with down := rest }.receive (.item index))
      ({ link with down := rest.map (reply goal.blocks) }.receive env responderId
        (.block (nth goal.blocks index))) := by
  by_cases turn : index = state.held + 1
  · rw [turn] at fits ⊢
    exact mirrors.takes_next grown within fits admits
  · have ⟨⟨clock, lived⟩, blocks, bound⟩ := mirrors.requester
    have heard := lived.received admits.oracle responderId (.block (nth goal.blocks index))
    obtain ⟨next, handled, chain, storage, events, queues⟩ :=
      mirrors.turns_away grown within fits turn admits.disk
    have lacking : Lacking goal state.held next := by
      intro index
      rw [storage]
      exact mirrors.lacking index
    have own : Unsent next.events link.told (state.own.map (notice goal.blocks)) := by
      rw [events]
      exact mirrors.own
    rw [handled] at heard
    rw [receive_eq _ handled]
    unfold QueuedFetch.State.receive
    simp only [if_neg turn]
    exact mirrors.silent none rest ⟨⟨_, heard⟩, by rw [chain]; exact blocks, bound⟩ lacking queues own

theorem Mirrors.received (mirrors : Mirrors pow goal responderId state link) (grown : Grown pow goal)
    (within : QueuedFetch.Within MAX_HEADERS start state) {sent : QueuedFetch.Reply}
    {rest : List QueuedFetch.Reply} (first : state.down = sent :: rest)
    (admits : Admits pow link.responder.chain.blocks env) :
    Mirrors pow goal responderId ({ state with down := rest }.receive sent)
      ({ link with down := rest.map (reply goal.blocks) }.receive env responderId (reply goal.blocks sent)) := by
  have fits := within.down sent (by rw [first]; exact List.mem_cons_self)
  cases sent with
  | offer first last => exact mirrors.takes_offer grown fits admits
  | item index => exact mirrors.takes_item grown within fits admits
  | notice index => exact mirrors.takes_notice grown fits admits

theorem Mirrors.step (mirrors : Mirrors pow goal responderId state link) (grown : Grown pow goal)
    (within : QueuedFetch.Within MAX_HEADERS start state) {next : Link}
    (step : Step pow requesterId responderId link next)
    (ahead : next.responder.chain.blocks <+: goal.blocks) :
    ∃ after, QueuedFetch.Step MAX_HEADERS state after ∧ Mirrors pow goal responderId after next := by
  cases step with
  | @mined env block id height after oracle extended =>
    have joins := submitBlock_joins extended
    obtain ⟨clock, lived⟩ := mirrors.responder.lived
    have called := lived.called oracle (.submitBlock block)
    rw [LocalCall.perform, extended] at called
    have length : link.responder.chain.blocks.length = state.made + 1 := by
      have inside := mirrors.responder.inside
      rw [mirrors.responder.blocks, List.length_take]
      omega
    have last : after.chain.blocks[state.made + 1]? = some block := by
      rw [joins.blocks, ← length, List.getElem?_concat_length]
    have place : goal.blocks[state.made + 1]? = some block := by
      obtain ⟨rest, shape⟩ := ahead
      rw [← shape, List.getElem?_append_left (List.getElem?_eq_some_iff.mp last).1]
      exact last
    have inside := (List.getElem?_eq_some_iff.mp place).1
    rw [← nth_at place] at joins
    exact ⟨_, .made, mirrors.mined ⟨_, called⟩ inside joins⟩
  | @announced message waiting =>
    rw [mirrors.news.next] at waiting
    cases listed : state.news with
    | nil =>
      rw [listed] at waiting
      cases waiting
    | cons index rest =>
      rw [listed] at waiting
      cases waiting
      exact ⟨_, .announced listed, mirrors.announced listed⟩
  | @told message waiting =>
    rw [mirrors.own.next] at waiting
    cases listed : state.own with
    | nil =>
      rw [listed] at waiting
      cases waiting
    | cons index rest =>
      rw [listed] at waiting
      cases waiting
      exact ⟨_, .told listed, mirrors.told listed⟩
  | @answered env message rest first =>
    rw [mirrors.up] at first
    obtain ⟨asked, others, shape, one, tail⟩ := List.map_eq_cons_iff.mp first
    rw [← one, ← tail]
    exact ⟨_, .answered shape, mirrors.answered grown within shape⟩
  | @received env message rest admits first =>
    rw [mirrors.down] at first
    obtain ⟨sent, others, shape, one, tail⟩ := List.map_eq_cons_iff.mp first
    rw [← one, ← tail]
    exact ⟨_, .received shape, mirrors.received grown within shape admits⟩

theorem Mirrors.inTurn_iff (mirrors : Mirrors pow goal responderId state link) (grown : Grown pow goal)
    (within : QueuedFetch.Within MAX_HEADERS start state) : link.InTurn responderId ↔ state.inTurn = true := by
  have inside := mirrors.responder.inside
  have front : ∀ {last : Nat}, state.queue = some last →
      ((slice goal.blocks state.held last).map Block.id).head? = some (nth goal.blocks (state.held + 1)).id := by
    intro last waiting
    have ⟨ahead, high⟩ := within.queue last waiting
    rw [slice_next ahead (by omega)]
    rfl
  unfold QueuedFetch.State.inTurn
  constructor
  · intro turn
    split
    next index rest last down waiting =>
      have fits : index ≤ state.made := within.down (.item index) (by rw [down]; exact List.mem_cons_self)
      have high := (within.queue last waiting).2
      have ahead := (within.queue last waiting).1
      have same : ((slice goal.blocks state.held last).map Block.id).head? = some (nth goal.blocks index).id := by
        apply turn (nth goal.blocks index) (rest.map (reply goal.blocks))
        · rw [mirrors.down, down]
          rfl
        · rw [mirrors.queue, waiting]
          rfl
      rw [front waiting] at same
      apply decide_eq_true
      exact (grown.index_unique (nth_inside (by omega)) (nth_inside (by omega)) (Option.some.inj same)).symm
    next => rfl
  · intro turn block rest queue first waiting
    rw [mirrors.down] at first
    rw [mirrors.queue] at waiting
    obtain ⟨sent, others, shape, one, _⟩ := List.map_eq_cons_iff.mp first
    obtain ⟨last, listed, same⟩ := Option.map_eq_some_iff.mp waiting
    cases sent with
    | offer first last => cases one
    | notice index => cases one
    | item index =>
      cases one
      rw [shape, listed] at turn
      have next : index = state.held + 1 := of_decide_eq_true turn
      rw [next, ← same]
      exact front listed

/-- A step leaves the responder on its chain or extends it. -/
theorem Mirrors.extends_step (mirrors : Mirrors pow goal responderId state link) (grown : Grown pow goal)
    (within : QueuedFetch.Within MAX_HEADERS start state) {next : Link}
    (step : Step pow requesterId responderId link next) :
    (∃ clock, next.responder.Lived pow clock) ∧ link.responder.chain.blocks <+: next.responder.chain.blocks := by
  have same : (∃ clock, link.responder.Lived pow clock) ∧
      link.responder.chain.blocks <+: link.responder.chain.blocks :=
    ⟨mirrors.responder.lived, List.prefix_refl _⟩
  cases step with
  | @mined env block id height after oracle extended =>
    obtain ⟨clock, lived⟩ := mirrors.responder.lived
    have called := lived.called oracle (.submitBlock block)
    rw [LocalCall.perform, extended] at called
    refine ⟨⟨_, called⟩, ?_⟩
    change _ <+: after.chain.blocks
    rw [(submitBlock_joins extended).blocks]
    exact List.prefix_append _ _
  | announced waiting => exact same
  | told waiting => exact same
  | @answered env message rest first =>
    rw [mirrors.up] at first
    obtain ⟨asked, others, shape, one, tail⟩ := List.map_eq_cons_iff.mp first
    rw [← one, ← tail]
    have after : Along pow goal _ ({ link with up := others.map (request goal.blocks) }.answer env requesterId
        (request goal.blocks asked)).responder := (mirrors.answered grown within shape).responder
    refine ⟨after.lived, ?_⟩
    rw [after.blocks, mirrors.responder.blocks, QueuedFetch.State.answer_made]
  | received admits first => exact same

theorem Opened.mirrors (opened : Opened pow responderId link) (grown : Grown pow goal)
    (ahead : link.responder.chain.blocks <+: goal.blocks) :
    Mirrors pow goal responderId
      (.opening (link.requester.chain.blocks.length - 1) (link.responder.chain.blocks.length - 1)) link := by
  have along : ∀ {node : Node}, (∃ clock, node.Lived pow clock) → node.chain.blocks <+: goal.blocks →
      Along pow goal (node.chain.blocks.length - 1) node := by
    intro node lived initial
    have positive := List.length_pos_iff.mpr node.chain.nonempty
    have most := initial.length_le
    refine ⟨lived, ?_, by omega⟩
    rw [Nat.sub_add_cancel positive]
    exact List.prefix_iff_eq_take.mp initial
  have requester := along opened.requester (opened.behind.trans ahead)
  have responder := along opened.responder ahead
  refine ⟨requester, responder, requester.lacking grown opened.leads, opened.queue, ?_, opened.down, ?_, ?_⟩
  · rw [opened.up, requester.locator grown]
    rfl
  · exact ⟨_, opened.told.symm, (List.append_nil _).symm⟩
  · exact ⟨_, opened.announced.symm, (List.append_nil _).symm⟩

/-- What a run keeps: seen from any chain that goes on from the responder's, the link shows a
run of the fetch. -/
structure Shown (pow : PowVerifier) (responderId : Hash32) (first link : Link) : Prop where
  responder : ∃ clock, link.responder.Lived pow clock
  shows : ∀ goal : Chain, Grown pow goal → link.responder.chain.blocks <+: goal.blocks →
    ∃ state, Relation.ReflTransGen (QueuedFetch.OrderlyStep MAX_HEADERS)
        (.opening (first.requester.chain.blocks.length - 1) (first.responder.chain.blocks.length - 1)) state ∧
      Mirrors pow goal responderId state link

theorem Opened.shown {first : Link} (opened : Opened pow responderId first)
    (run : Relation.ReflTransGen (OrderlyStep pow requesterId responderId) first link) :
    Shown pow responderId first link := by
  have less : first.requester.chain.blocks.length - 1 ≤ first.responder.chain.blocks.length - 1 :=
    Nat.sub_le_sub_right opened.behind.length_le 1
  induction run with
  | refl =>
    exact ⟨opened.responder, fun goal grown ahead => ⟨_, .refl, opened.mirrors grown ahead⟩⟩
  | @tail link next _ taken ih =>
    obtain ⟨turn, step⟩ := taken
    obtain ⟨clock, lived⟩ := ih.responder
    obtain ⟨state, earlier, mirrors⟩ := ih.shows link.responder.chain lived.grown (List.prefix_refl _)
    have within := QueuedFetch.within_run (QueuedFetch.OrderlyStep.run earlier) less
    have ⟨later, longer⟩ := mirrors.extends_step lived.grown within step
    refine ⟨later, ?_⟩
    intro goal grown ahead
    obtain ⟨state, earlier, mirrors⟩ := ih.shows goal grown (longer.trans ahead)
    have within := QueuedFetch.within_run (QueuedFetch.OrderlyStep.run earlier) less
    obtain ⟨after, taken, kept⟩ := mirrors.step grown within step ahead
    exact ⟨after, earlier.tail ⟨(mirrors.inTurn_iff grown within).mp turn, taken⟩, kept⟩

theorem Mirrors.quiet_iff (mirrors : Mirrors pow goal responderId state link) :
    link.Quiet ↔ state.up = [] ∧ state.down = [] ∧ state.news = [] := by
  have up : link.up = [] ↔ state.up = [] := by rw [mirrors.up, List.map_eq_nil_iff]
  have down : link.down = [] ↔ state.down = [] := by rw [mirrors.down, List.map_eq_nil_iff]
  have news : link.announced = link.responder.events.length ↔ state.news = [] := by
    rw [mirrors.news.all_sent_iff, List.map_eq_nil_iff]
  rw [← up, ← down, ← news]
  exact ⟨fun quiet => ⟨quiet.up, quiet.down, quiet.announced⟩, fun ⟨above, below, told⟩ => ⟨above, below, told⟩⟩

/-! Runs of the fetch are runs of the link. -/

theorem Mirrors.lift (mirrors : Mirrors pow goal responderId state link) (grown : Grown pow goal)
    (within : QueuedFetch.Within MAX_HEADERS start state) (admits : Admits pow goal.blocks env)
    {after : QueuedFetch.State} (step : QueuedFetch.Step MAX_HEADERS state after) (near : after.made < goal.blocks.length) :
    ∃ next, Step pow requesterId responderId link next ∧ Mirrors pow goal responderId after next := by
  cases step with
  | made =>
    have place := nth_inside near
    have own : Admits pow [nth goal.blocks (state.made + 1)] env :=
      { admits with present := List.forall_mem_singleton.mpr (admits.present _ (List.mem_of_getElem? place)) }
    obtain ⟨next, submitted, ⟨lived, _, _⟩, _⟩ := mirrors.responder.extends grown place own
    exact ⟨_, .mined admits.oracle submitted, mirrors.mined lived near (submitBlock_joins submitted)⟩
  | @announced index rest waiting =>
    refine ⟨_, .announced ?_, mirrors.announced waiting⟩
    rw [mirrors.news.next, waiting]
    rfl
  | @told index rest waiting =>
    refine ⟨_, .told ?_, mirrors.told waiting⟩
    rw [mirrors.own.next, waiting]
    rfl
  | @answered asked rest first =>
    have queued : link.up = request goal.blocks asked :: rest.map (request goal.blocks) := by
      rw [mirrors.up, first]
      rfl
    have taken : Step pow requesterId responderId link ({ link with up := rest.map (request goal.blocks) }.answer
        env requesterId (request goal.blocks asked)) := .answered queued
    exact ⟨_, taken, mirrors.answered grown within first⟩
  | @received sent rest first =>
    have queued : link.down = reply goal.blocks sent :: rest.map (reply goal.blocks) := by
      rw [mirrors.down, first]
      rfl
    have present : Admits pow link.responder.chain.blocks env := by
      refine { admits with present := fun block listed => admits.present block ?_ }
      rw [mirrors.responder.blocks] at listed
      exact List.mem_of_mem_take listed
    exact ⟨_, .received present queued, mirrors.received grown within first present⟩

theorem Mirrors.lift_orderly (mirrors : Mirrors pow goal responderId state link) (grown : Grown pow goal)
    (within : QueuedFetch.Within MAX_HEADERS start state) (admits : Admits pow goal.blocks env)
    {after : QueuedFetch.State} (taken : QueuedFetch.OrderlyStep MAX_HEADERS state after)
    (near : after.made < goal.blocks.length) :
    ∃ next, OrderlyStep pow requesterId responderId link next ∧ Mirrors pow goal responderId after next := by
  obtain ⟨turn, step⟩ := taken
  obtain ⟨next, follows, shows⟩ := mirrors.lift grown within admits step near
  exact ⟨next, ⟨(mirrors.inTurn_iff grown within).mpr turn, follows⟩, shows⟩

/-- From steps to runs, for either kind of step. -/
theorem Mirrors.lift_run {follows : QueuedFetch.State → QueuedFetch.State → Prop} (moves : Link → Link → Prop)
    (steps : ∀ {state after}, follows state after → QueuedFetch.Step MAX_HEADERS state after)
    (lifts : ∀ {state after link}, Mirrors pow goal responderId state link →
      QueuedFetch.Within MAX_HEADERS start state → follows state after → after.made < goal.blocks.length →
      ∃ next, moves link next ∧ Mirrors pow goal responderId after next)
    {first : QueuedFetch.State} (mirrors : Mirrors pow goal responderId first link)
    (within : QueuedFetch.Within MAX_HEADERS start first) (run : Relation.ReflTransGen follows first state)
    (near : state.made < goal.blocks.length) :
    QueuedFetch.Within MAX_HEADERS start state ∧ ∃ next,
      Relation.ReflTransGen moves link next ∧ Mirrors pow goal responderId state next := by
  induction run with
  | refl => exact ⟨within, link, .refl, mirrors⟩
  | tail _ taken ih =>
    obtain ⟨kept, next, earlier, shown⟩ := ih (Nat.lt_of_le_of_lt (steps taken).made_le near)
    obtain ⟨later, moved, shows⟩ := lifts shown kept taken near
    exact ⟨kept.step (steps taken), later, earlier.tail moved, shows⟩

end Link

/-- While every block that arrives is the one the queue expects, the fetch is not lost: once
nothing is on its way, the requester is on the responder's chain. -/
theorem orderly_sync_completes {pow : PowVerifier} {requesterId responderId : Hash32} {first link : Link}
    (opened : first.Opened pow responderId)
    (run : Relation.ReflTransGen (Link.OrderlyStep pow requesterId responderId) first link)
    (few : link.responder.chain.blocks.length ≤ first.requester.chain.blocks.length + MAX_HEADERS)
    (quiet : link.Quiet) : link.requester.chain = link.responder.chain := by
  obtain ⟨⟨clock, lived⟩, shows⟩ := opened.shown run
  obtain ⟨state, fetched, mirrors⟩ := shows link.responder.chain lived.grown (List.prefix_refl _)
  have less : first.requester.chain.blocks.length - 1 ≤ first.responder.chain.blocks.length - 1 :=
    Nat.sub_le_sub_right opened.behind.length_le 1
  have within := QueuedFetch.within_run (QueuedFetch.OrderlyStep.run fetched) less
  have positive := List.length_pos_iff.mpr first.requester.chain.nonempty
  have length : state.made < link.responder.chain.blocks.length := mirrors.responder.inside
  have stage := QueuedFetch.orderly_run fetched less (by omega)
  obtain ⟨up, down, news⟩ := mirrors.quiet_iff.mp quiet
  have held := stage.complete within up down news
  have blocks : link.requester.chain.blocks = link.responder.chain.blocks := by
    rw [mirrors.requester.blocks, held, ← mirrors.responder.blocks]
  obtain ⟨other, behind⟩ := mirrors.requester.lived
  have one : Chain.fromBlocks link.requester.chain.blocks pow (max clock other) = .ok link.requester.chain :=
    behind.keeps.replayed.later (le_max_second clock other)
  have two : Chain.fromBlocks link.responder.chain.blocks pow (max clock other) = .ok link.responder.chain :=
    lived.keeps.replayed.later (le_max_first clock other)
  rw [blocks, two] at one
  exact (Except.ok.inj one).symm

/-! A chain of empty blocks. -/

section

variable {pow : PowVerifier} {goal : Chain} {env : NodeEnv}

theorem QuietBranch.grown {nonce : UInt64} {chain : Chain} (quiet : QuietBranch nonce chain)
    (heights : ∀ first second : BlockHeader, first.id = second.id → first.height = second.height)
    (few : chain.blocks.length ≤ 2 ^ 63) : Grown acceptAll chain where
  replayed := ⟨_, quiet.replayed⟩
  valid := quiet.valid
  distinct := by
    apply List.Nodup.map_on _ (List.Nodup.of_map _ quiet.valid.heights_nodup)
    intro one inside two among same
    exact quiet.valid.at_height inside among (heights one.header two.header same)
  short := few

theorem genesis_best {clock : UInt64} {chain : Chain} (replayed : chain.Replayed pow clock)
    (valid : ValidHistory pow chain.blocks chain.state)
    (level : chain.tip.header.height = Block.genesis.header.height) (same : chain.tip.id = Block.genesis.id) :
    ¬chain.Better Chain.genesis := by
  have height := valid.tipHeight (List.getLast?_eq_getLast_of_ne_nil chain.nonempty)
  change chain.tip.header.height.toNat + 1 = _ at height
  rw [level] at height
  have whole : chain.blocks = [Block.genesis] := by
    obtain ⟨only, single⟩ := List.length_eq_one_iff.mp height.symm
    have first := valid.head
    rw [single] at first ⊢
    rw [Option.some.inj first]
  obtain ⟨_, _, _, _, summed⟩ := fromBlocks_ok_iff.mp replayed
  rw [whole, cumulativeWork_genesis] at summed
  intro better
  have ground : Chain.genesis.tip.id = Block.genesis.id := rfl
  unfold Chain.Better at better
  rw [same, ← Except.ok.inj summed, ← ground] at better
  exact Chain.better_irrefl _ better

theorem fresh_along (grown : Grown pow goal)
    (heights : ∀ first second : BlockHeader, first.id = second.id → first.height = second.height) :
    ∃ node, Along pow goal 0 node ∧ node.syncQueues = ∅ ∧ node.Leads pow := by
  obtain ⟨node, opened⟩ := Node.openFresh_ok (of_decide_eq_true rfl : fitsI64 0) none
  have lived : node.Lived pow 0 := .opened opened
  obtain ⟨storage, saved, result⟩ := bind_ok.mp opened
  cases result
  have positive := List.length_pos_iff.mpr goal.nonempty
  have root : goal.blocks[0]? = some Block.genesis := by
    rw [← List.head?_eq_getElem?, grown.valid.head]
  refine ⟨_, ⟨⟨0, lived⟩, ?_, positive⟩, rfl, ?_⟩
  · change [Block.genesis] = _
    rw [take_snoc root]
    rfl
  · intro chain clock replayed valid better
    have absent : storage.RowsOf fun block => block.id ≠ chain.tip.id := by
      apply Storage.rowsOf_default.saveChain ?_ saved
      intro block listed same
      rw [List.mem_singleton.mp listed] at same
      have level := heights _ _ same
      exact genesis_best replayed valid level.symm same.symm better
    exact absent.absent

theorem Along.climbs (grown : Grown pow goal) (admits : Admits pow goal.blocks env) {node : Node}
    (along : Along pow goal 0 node) {height : Nat} (inside : height < goal.blocks.length) :
    ∃ after, Along pow goal height after := by
  induction height with
  | zero => exact ⟨node, along⟩
  | succ height ih =>
    obtain ⟨below, reached⟩ := ih (by omega)
    have place := nth_inside inside
    have own : Admits pow [nth goal.blocks (height + 1)] env :=
      { admits with present := List.forall_mem_singleton.mpr (admits.present _ (List.mem_of_getElem? place)) }
    obtain ⟨after, _, longer, _⟩ := reached.extends grown place own
    exact ⟨after, longer⟩

/-- A fresh node in a session with one on the first blocks of a chain. -/
theorem opened_link (grown : Grown pow goal) (admits : Admits pow goal.blocks env)
    (heights : ∀ first second : BlockHeader, first.id = second.id → first.height = second.height)
    {made : Nat} (inside : made < goal.blocks.length) (responderId : Hash32) :
    ∃ link : Link, link.Opened pow responderId ∧ link.requester.chain.blocks.length = 1 ∧
      link.responder.chain.blocks.length = made + 1 ∧
      link.Mirrors pow goal responderId (.opening 0 made) := by
  obtain ⟨requester, low, queues, leads⟩ := fresh_along grown heights
  obtain ⟨responder, high⟩ := low.climbs grown admits inside
  let link : Link :=
    { requester, responder, up := [.getHeaders requester.blockLocator Hash32.ZERO], down := []
      told := requester.events.length, announced := responder.events.length }
  have one : link.requester.chain.blocks.length = 1 := by
    change requester.chain.blocks.length = 1
    rw [low.blocks, List.length_take]
    omega
  have length : link.responder.chain.blocks.length = made + 1 := by
    change responder.chain.blocks.length = made + 1
    rw [high.blocks, List.length_take]
    omega
  have behind : link.requester.chain.blocks <+: link.responder.chain.blocks := by
    change requester.chain.blocks <+: responder.chain.blocks
    rw [low.blocks, high.blocks]
    exact List.take_prefix_take_left (by omega)
  have opened : link.Opened pow responderId :=
    { requester := low.lived
      responder := high.lived
      behind
      leads
      queue := by
        change requester.syncQueues[responderId]? = none
        rw [queues]
        exact get_empty _
      up := rfl
      down := rfl
      told := rfl
      announced := rfl }
  have ahead : link.responder.chain.blocks <+: goal.blocks := by
    change responder.chain.blocks <+: goal.blocks
    rw [high.blocks]
    exact List.take_prefix _ _
  have mirrors := opened.mirrors grown ahead
  rw [one, length] at mirrors
  exact ⟨link, opened, one, length, mirrors⟩

end

omit [Crypto] in
/-- Item 3 arrives between item 1 and item 2. -/
theorem overtaken_fetch : Relation.ReflTransGen (QueuedFetch.Step MAX_HEADERS) (.opening 0 2)
    { held := 2, queue := none, own := [], made := 3, news := [], up := [], down := [] } := by
  have moved : [.answer, .make, .announce, .receive, .receive, .answer, .answer, .receive, .receive,
      .answer, .receive, .tell, .tell, .answer, .answer].foldlM (QueuedFetch.State.move MAX_HEADERS)
        (.opening 0 2) = some
          { held := 2, queue := none, own := [], made := 3, news := [], up := [], down := [] } := by decide
  exact QueuedFetch.reached_by_moves QueuedFetch.Step.of_move moved

omit [Crypto] in
/-- Item 3 is made when items 1 and 2 are there. -/
theorem orderly_fetch : Relation.ReflTransGen (QueuedFetch.OrderlyStep MAX_HEADERS) (.opening 0 2)
    { held := 3, queue := none, own := [], made := 3, news := [], up := [], down := [] } := by
  have moved : [.answer, .receive, .answer, .receive, .answer, .receive, .make, .announce, .receive,
      .answer, .receive, .answer, .answer, .receive, .receive, .answer, .receive, .tell, .tell, .tell, .answer,
      .answer, .answer].foldlM (QueuedFetch.State.orderlyMove MAX_HEADERS) (.opening 0 2) = some
        { held := 3, queue := none, own := [], made := 3, news := [], up := [], down := [] } := by decide
  exact QueuedFetch.reached_by_moves QueuedFetch.OrderlyStep.of_move moved

omit [Crypto] in
/-- A fresh node in a session with one at height 2, and the block after that. -/
theorem three_block_link :
    let _ := labelled
    ∃ (goal : Chain) (first : Link), Grown acceptAll goal ∧ goal.blocks.length = 4 ∧
      Admits acceptAll goal.blocks ⟨acceptAll, 1800000000, Disk.reliable, default⟩ ∧
      first.Opened acceptAll Server.secondPeer ∧ first.requester.chain.blocks.length = 1 ∧
      first.responder.chain.blocks.length = 3 ∧ first.Mirrors acceptAll goal Server.secondPeer (.opening 0 2) := by
  intro crypto
  have heights : ∀ one two : BlockHeader, one.id = two.id → one.height = two.height :=
    fun _ _ same => (labelled_id_injective same).1
  obtain ⟨goal, quiet, length⟩ := quiet_branch 1 (show 3 ≤ 10000 by decide)
  have grown := quiet.grown heights (by omega)
  have admits : Admits acceptAll goal.blocks ⟨acceptAll, 1800000000, Disk.reliable, default⟩ :=
    ⟨rfl, rfl, of_decide_eq_true rfl, quiet.valid.dated_quiet quiet.scheduled (by omega)⟩
  obtain ⟨first, opened, one, three, mirrors⟩ :=
    opened_link grown admits heights (show 2 < goal.blocks.length by omega) Server.secondPeer
  exact ⟨goal, first, grown, length, admits, opened, one, three, mirrors⟩

omit [Crypto] in
/-- The announced third block arrives before the second, and the fetch stops there. -/
theorem announced_block_stalls_sync :
    let _ := labelled
    ∃ first link : Link, first.Opened acceptAll Server.secondPeer ∧
      Relation.ReflTransGen (Link.Step acceptAll Hash32.ZERO Server.secondPeer) first link ∧
      link.responder.chain.blocks.length ≤ first.requester.chain.blocks.length + MAX_HEADERS ∧
      link.Quiet ∧ link.told = link.requester.events.length ∧
      link.requester.chain.tip.id ≠ link.responder.chain.tip.id := by
  intro crypto
  obtain ⟨goal, first, grown, four, admits, opened, one, _, mirrors⟩ := three_block_link
  obtain ⟨_, link, run, shows⟩ := mirrors.lift_run (Link.Step acceptAll Hash32.ZERO Server.secondPeer) id
    (fun shown kept step near => shown.lift grown kept admits step near) (QueuedFetch.within_opening (Nat.zero_le 2)) overtaken_fetch
    (show 3 < goal.blocks.length by omega)
  have ahead : link.responder.chain.blocks.length = 4 := by
    rw [shows.responder.blocks, List.length_take, four]
    rfl
  refine ⟨first, link, opened, run, ?_, shows.quiet_iff.mpr ⟨rfl, rfl, rfl⟩, shows.own.all_sent_iff.mpr rfl, ?_⟩
  · rw [ahead, one]
    decide
  · intro same
    have equal := grown.index_unique shows.requester.tip shows.responder.tip same
    exact absurd equal (by decide)

omit [Crypto] in
/-- The third block is mined and announced while the requester asks for more headers. -/
theorem gossiped_sync_completes :
    let _ := labelled
    ∃ first link : Link, first.Opened acceptAll Server.secondPeer ∧
      Relation.ReflTransGen (Link.OrderlyStep acceptAll Hash32.ZERO Server.secondPeer) first link ∧
      first.requester.chain.blocks.length = 1 ∧ first.responder.chain.blocks.length = 3 ∧
      link.requester.chain.blocks.length = 4 ∧ link.requester.chain = link.responder.chain := by
  intro crypto
  obtain ⟨goal, first, grown, four, admits, opened, one, three, mirrors⟩ := three_block_link
  obtain ⟨_, link, run, shows⟩ := mirrors.lift_run (Link.OrderlyStep acceptAll Hash32.ZERO Server.secondPeer) And.right
    (fun shown kept taken near => shown.lift_orderly grown kept admits taken near)
    (QueuedFetch.within_opening (Nat.zero_le 2)) orderly_fetch (show 3 < goal.blocks.length by omega)
  have ahead : link.responder.chain.blocks.length = 4 := by
    rw [shows.responder.blocks, List.length_take, four]
    rfl
  have few : link.responder.chain.blocks.length ≤ first.requester.chain.blocks.length + MAX_HEADERS := by
    rw [ahead, one]
    decide
  have same := orderly_sync_completes opened run few (shows.quiet_iff.mpr ⟨rfl, rfl, rfl⟩)
  exact ⟨first, link, opened, run, one, three, by rw [same, ahead], same⟩

end ParitrNode
