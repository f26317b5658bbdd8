import ParitrNode.HeaderSync
import ParitrNode.Sessions

/-!
The whole exchange of header synchronisation with a peer on the chain to a block of a tree:
headers, the new blocks one by one, headers again, until nothing new is offered. It always
falls silent, and whether it ends on the peer's chain is decided by its first reply.
-/

namespace ParitrNode
open ByteCodec OrderedMap Checked BestSeen

variable [Crypto]

/-! The exchange. -/

structure Exchange where
  requester : Node
  responder : Node
  asked : Option WireMessage

namespace Exchange

def round (requesterId responderId : Hash32) (requesterEnv responderEnv : NodeEnv)
    (exchange : Exchange) : Exchange :=
  match exchange.asked with
  | none => exchange
  | some request =>
    let (answer, responder) := exchange.responder.handleWire responderEnv requesterId request
    match answer with
    | none => { exchange with responder, asked := none }
    | some answer =>
      let (asked, requester) := exchange.requester.handleWire requesterEnv responderId answer
      { requester, responder, asked }

/-- So many rounds, with other work of both nodes in between: anything that leaves the
responder's chain, the requester's blocks and its queue for the responder alone. -/
inductive Runs (pow : PowVerifier) (start : UInt64) (requesterId responderId : Hash32)
    (first : Exchange) : Nat → Exchange → Prop where
  | opened : Runs pow start requesterId responderId first 0 first
  | round {count : Nat} {exchange : Exchange} {requesterEnv : NodeEnv} (responderEnv : NodeEnv)
      (runs : Runs pow start requesterId responderId first count exchange)
      (calm : Dependable pow start requesterEnv) :
      Runs pow start requesterId responderId first (count + 1)
        (exchange.round requesterId responderId requesterEnv responderEnv)
  | worked {count : Nat} {exchange : Exchange} {requester responder : Node}
      (runs : Runs pow start requesterId responderId first count exchange)
      (beside : exchange.requester.Beside requester)
      (queue : requester.syncQueues[responderId]? = exchange.requester.syncQueues[responderId]?)
      (chain : responder.chain = exchange.responder.chain) :
      Runs pow start requesterId responderId first count { exchange with requester, responder }

end Exchange

def openingExchange (requester responder : Node) : Exchange :=
  { requester, responder, asked := some (.getHeaders requester.blockLocator Hash32.ZERO) }

def LastOffered (requester responder : Node) (last : Nat) : Prop :=
  ∃ common, CommonHeight requester responder common ∧
    last = min (common + MAX_HEADERS) (responder.chain.blocks.length - 1)

/-- The last block of the responder's first reply heads a chain better than the requester's. -/
def Outweighs {pow : PowVerifier} {start : UInt64} (tree : BlockTree pow start)
    (requester responder : Node) : Prop :=
  ∃ last reached, LastOffered requester responder last ∧
    responder.chain.blocks[last]? = some reached ∧ (tree.chainTo reached).Better requester.chain

/-! Chains of a tree by height. -/

namespace BlockTree

variable {pow : PowVerifier} {start : UInt64} (tree : BlockTree pow start) {goal : Block}

theorem height_at (member : goal ∈ tree.blocks) {index : Nat} {block : Block}
    (place : (tree.chainTo goal).blocks[index]? = some block) :
    block.header.height.toNat = index :=
  ((tree.history member).linked index block place).height

theorem chainTo_at (member : goal ∈ tree.blocks) {index : Nat} {block : Block}
    (place : (tree.chainTo goal).blocks[index]? = some block) :
    block ∈ tree.blocks ∧ (tree.chainTo block).blocks = (tree.chainTo goal).blocks.take (index + 1) := by
  have inside := List.mem_of_getElem? place
  have ⟨_, initial⟩ := tree.chainTo_take member inside
  rw [tree.height_at member place] at initial
  exact ⟨(tree.ancestors goal member block inside).1, initial.symm⟩

theorem grown_at (member : goal ∈ tree.blocks) {index : Nat} {parent block : Block}
    (below : (tree.chainTo goal).blocks[index]? = some parent)
    (place : (tree.chainTo goal).blocks[index + 1]? = some block) :
    block.header.previousBlock = parent.id ∧
      (tree.chainTo block).blocks = (tree.chainTo parent).blocks ++ [block] := by
  constructor
  · obtain ⟨previous, before, named, _⟩ :=
      ((tree.history member).linked _ block place).mined (Nat.le_add_left 1 _)
    rw [Nat.add_sub_cancel, below] at before
    cases before
    exact named
  · rw [(tree.chainTo_at member below).2, (tree.chainTo_at member place).2, List.take_add_one, place]
    rfl

theorem better_above (member : goal ∈ tree.blocks) {low high : Nat} {first second : Block}
    (below : (tree.chainTo goal).blocks[low]? = some first)
    (above : (tree.chainTo goal).blocks[high]? = some second) (higher : low < high) :
    (tree.chainTo second).Better (tree.chainTo first) := by
  induction high generalizing second with
  | zero => omega
  | succ high ih =>
    have bound := (List.getElem?_eq_some_iff.mp above).1
    have place := List.getElem?_eq_getElem (Nat.lt_of_succ_lt bound)
    have improves := tree.better_parent (tree.chainTo_at member above).1 (tree.chainTo_at member place).1
      (tree.grown_at member place above).2
    by_cases adjacent : low = high
    · rw [adjacent, place] at below
      cases below
      exact improves
    · exact improves.trans (ih place (by omega))

theorem last_at (member : goal ∈ tree.blocks) :
    (tree.chainTo goal).blocks[(tree.chainTo goal).blocks.length - 1]? = some goal := by
  rw [← List.getLast?_eq_getElem?]
  exact tree.chainTo_last member

theorem at_unique (member : goal ∈ tree.blocks) {low high : Nat} {block : Block}
    (first : (tree.chainTo goal).blocks[low]? = some block)
    (second : (tree.chainTo goal).blocks[high]? = some block) : low = high := by
  rw [← tree.height_at member first, tree.height_at member second]

end BlockTree

/-! What the requester knows. -/

section

variable {pow : PowVerifier} {start : UInt64} {tree : BlockTree pow start} {submitted : Set Block}
  {node next : Node} {env : NodeEnv} {block goal : Block} {top : Nat}

theorem Chosen.beside (chosen : Chosen tree submitted node) (beside : node.Beside next) :
    Chosen tree submitted next := by
  refine ⟨chosen.within, chosen.closed, ?_, ?_⟩
  · rw [beside.chain]
    exact chosen.best
  · rw [beside.storage]
    exact chosen.stored

theorem Chosen.mem_chain (chosen : Chosen tree submitted node) (inside : block ∈ node.chain.blocks) :
    block ∈ submitted := by
  obtain ⟨tip, among, chain, _⟩ := chosen.tip
  rw [chain] at inside
  exact chosen.closed tip among block inside

omit [Crypto] in
theorem filter_length_le {α : Type} {keep : α → Bool} {items : List α} {count : Nat}
    (dropped : ∀ item ∈ items.take count, keep item = false) :
    (items.filter keep).length ≤ items.length - count := by
  have none_kept : (items.take count).filter keep = [] :=
    List.filter_eq_nil_iff.mpr fun item inside => by rw [dropped item inside]; decide
  calc (items.filter keep).length
    _ = ((items.take count ++ items.drop count).filter keep).length := by rw [List.take_append_drop]
    _ = ((items.drop count).filter keep).length := by rw [List.filter_append, none_kept, List.nil_append]
    _ ≤ (items.drop count).length := List.length_filter_le _ _
    _ = items.length - count := List.length_drop

/-- The requester knows the chain to the goal up to a height and nothing of it above. -/
structure KnownTo (tree : BlockTree pow start) (goal : Block) (submitted : Set Block) (top : Nat) : Prop where
  bound : top < (tree.chainTo goal).blocks.length
  known : ∀ {index : Nat} {block : Block}, (tree.chainTo goal).blocks[index]? = some block →
    (block ∈ submitted ↔ index ≤ top)

theorem Chosen.knownTo (chosen : Chosen tree submitted node) (member : goal ∈ tree.blocks) :
    ∃ top, KnownTo tree goal submitted top := by
  classical
  let Held : Nat → Prop := fun index =>
    ∃ block ∈ submitted, (tree.chainTo goal).blocks[index]? = some block
  have ground : Held 0 := by
    obtain ⟨tip, among, _, _⟩ := chosen.tip
    have first := List.mem_of_head? (tree.history (chosen.within among)).head
    refine ⟨Block.genesis, chosen.closed tip among _ first, ?_⟩
    rw [← List.head?_eq_getElem?]
    exact (tree.history member).head
  let top := Nat.findGreatest Held ((tree.chainTo goal).blocks.length - 1)
  obtain ⟨highest, inside, place⟩ : Held top := Nat.findGreatest_spec (Nat.zero_le _) ground
  refine ⟨top, (List.getElem?_eq_some_iff.mp place).1, ?_⟩
  intro index block here
  constructor
  · intro held
    have bound := (List.getElem?_eq_some_iff.mp here).1
    exact Nat.le_findGreatest (by omega) ⟨block, held, here⟩
  · intro low
    apply chosen.closed highest inside block
    rw [(tree.chainTo_at member place).2]
    apply List.mem_of_getElem? (i := index)
    rw [List.getElem?_take_of_lt (by omega), here]

theorem KnownTo.insert (known : KnownTo tree goal submitted top) (member : goal ∈ tree.blocks)
    (place : (tree.chainTo goal).blocks[top + 1]? = some block) :
    KnownTo tree goal (insert block submitted) (top + 1) := by
  refine ⟨(List.getElem?_eq_some_iff.mp place).1, ?_⟩
  intro index other here
  rw [Set.mem_insert_iff, known.known here]
  constructor
  · intro inside
    rcases inside with same | earlier
    · rw [same] at here
      exact Nat.le_of_eq (tree.at_unique member here place)
    · omega
  · intro low
    by_cases last : index = top + 1
    · rw [last, place] at here
      exact Or.inl (Option.some.inj here).symm
    · exact Or.inr (by omega)

/-! The reply to a locator. -/

variable {responder : Node} {peer : Hash32}

theorem CommonHeight.congr {one two first second : Node} {common : Nat}
    (found : CommonHeight one first common) (same : two.chain = one.chain)
    (alike : second.chain = first.chain) : CommonHeight two second common := by
  have meets : ∀ height, Meets two second height ↔ Meets one first height := by
    intro height
    unfold Meets
    rw [same, alike]
  refine ⟨?_, (meets common).mpr found.meets, ?_⟩
  · rw [same]
    exact found.listed
  · intro height listed met
    rw [same] at listed
    exact found.highest height listed ((meets height).mp met)

theorem CommonHeight.unique {one first : Node} {low high : Nat} (left : CommonHeight one first low)
    (right : CommonHeight one first high) : low = high :=
  Nat.le_antisymm (right.highest low left.listed left.meets) (left.highest high right.listed right.meets)

theorem LastOffered.congr {one two first second : Node} {last : Nat} (offered : LastOffered one first last)
    (same : two.chain = one.chain) (alike : second.chain = first.chain) : LastOffered two second last := by
  obtain ⟨common, found, limit⟩ := offered
  refine ⟨common, found.congr same alike, ?_⟩
  rw [alike]
  exact limit

theorem LastOffered.unique {one first : Node} {low high : Nat} (left : LastOffered one first low)
    (right : LastOffered one first high) : low = high := by
  obtain ⟨common, found, limit⟩ := left
  obtain ⟨other, again, bound⟩ := right
  rw [limit, bound, found.unique again]

theorem CommonHeight.shared {common : Nat} (found : CommonHeight node responder common)
    (chosen : Chosen tree submitted node) (member : goal ∈ tree.blocks)
    (chain : responder.chain = tree.chainTo goal) :
    ∃ shared ∈ node.chain.blocks, (tree.chainTo goal).blocks[common]? = some shared := by
  obtain ⟨shared, place, met⟩ := found.meets
  obtain ⟨tip, among, active, _⟩ := chosen.tip
  have within := chosen.within among
  obtain ⟨other, lookup⟩ := Option.isSome_iff_exists.mp met
  rw [chain] at lookup
  obtain ⟨listed, same⟩ := Chain.blockByHash_some lookup
  have inside := List.mem_of_getElem? place
  have inTree := chosen.within (chosen.mem_chain inside)
  rw [tree.distinct other (tree.ancestors goal member other listed).1 shared inTree same] at listed
  refine ⟨shared, inside, ?_⟩
  obtain ⟨index, here⟩ := List.mem_iff_getElem?.mp listed
  rw [active] at place
  rw [← tree.height_at within place, tree.height_at member here]
  exact here

theorem Chosen.offered (chosen : Chosen tree submitted node) (member : goal ∈ tree.blocks)
    (chain : responder.chain = tree.chainTo goal)
    (bound : (tree.chainTo goal).blocks.length ≤ 2 ^ 63) :
    ∃ common shared, CommonHeight node responder common ∧ shared ∈ node.chain.blocks ∧
      (tree.chainTo goal).blocks[common]? = some shared ∧
      responder.headersAfter node.blockLocator Hash32.ZERO =
        (((tree.chainTo goal).blocks.drop (common + 1)).take MAX_HEADERS).map Block.header := by
  obtain ⟨tip, among, active, _⟩ := chosen.tip
  have valid := tree.history (chosen.within among)
  have valid' := tree.history member
  rw [← active] at valid
  rw [← chain] at valid'
  have identified : ∀ block ∈ node.chain.blocks, ∀ other ∈ responder.chain.blocks,
      block.id = other.id → block.header = other.header := by
    intro block inside other listed same
    rw [chain] at listed
    rw [tree.distinct block (chosen.within (chosen.mem_chain inside)) other
      (tree.ancestors goal member other listed).1 same]
  obtain ⟨common, mine, theirs, found, position, place, same, first⟩ :=
    locator_common valid valid' identified
  have height := (valid'.linked common theirs place).height
  rw [chain] at place
  have inside := List.mem_of_getElem? position
  have equal := tree.distinct mine (chosen.within (chosen.mem_chain inside)) theirs
    (tree.chainTo_at member place).1 same
  have below := (List.getElem?_eq_some_iff.mp place).1
  refine ⟨common, theirs, found, equal ▸ inside, place, ?_⟩
  rw [headersAfter_found first (by omega), height, chain]

theorem KnownTo.knows (known : KnownTo tree goal submitted top) (chosen : Chosen tree submitted node)
    (calm : Dependable pow start env) (member : goal ∈ tree.blocks) {index : Nat}
    (place : (tree.chainTo goal).blocks[index]? = some block) :
    node.knows env.disk block.id = decide (index ≤ top) := by
  have ⟨present, absent⟩ := chosen.blockByHash calm (tree.chainTo_at member place).1
  unfold Node.knows
  by_cases low : index ≤ top
  · rw [present ((known.known place).mpr low), decide_eq_true low]
    rfl
  · rw [absent fun inside => low ((known.known place).mp inside), decide_eq_false low]
    rfl

theorem KnownTo.news (known : KnownTo tree goal submitted top) (chosen : Chosen tree submitted node)
    (calm : Dependable pow start env) (member : goal ∈ tree.blocks) {common : Nat} (low : common ≤ top) :
    node.news env.disk (((tree.chainTo goal).blocks.drop (common + 1)).take MAX_HEADERS) =
      (((tree.chainTo goal).blocks.drop (top + 1)).take
        (min (common + MAX_HEADERS) ((tree.chainTo goal).blocks.length - 1) - top)).map Block.id := by
  have knows : ∀ (index : Nat) (block : Block), (tree.chainTo goal).blocks[index]? = some block →
      node.knows env.disk block.id = decide (index ≤ top) :=
    fun _ _ => known.knows chosen calm member
  generalize (tree.chainTo goal).blocks = blocks at knows ⊢
  have rest : ((blocks.drop (common + 1)).take MAX_HEADERS).drop (top - common) =
      (blocks.drop (top + 1)).take (min (common + MAX_HEADERS) (blocks.length - 1) - top) := by
    rw [List.drop_take, List.drop_drop, show common + 1 + (top - common) = top + 1 by omega,
      List.take_eq_take_iff, List.length_drop]
    omega
  have old : ∀ block ∈ ((blocks.drop (common + 1)).take MAX_HEADERS).take (top - common),
      node.knows env.disk block.id = true := by
    intro block inside
    obtain ⟨offset, here⟩ := List.mem_iff_getElem?.mp inside
    rw [List.take_take, List.getElem?_take, List.getElem?_drop] at here
    split at here
    next within =>
      rw [knows _ block here]
      exact decide_eq_true (by omega)
    next => cases here
  have new : ∀ block ∈ (blocks.drop (top + 1)).take
      (min (common + MAX_HEADERS) (blocks.length - 1) - top), node.knows env.disk block.id = false := by
    intro block inside
    obtain ⟨offset, here⟩ := List.mem_iff_getElem?.mp (List.mem_of_mem_take inside)
    rw [List.getElem?_drop] at here
    rw [knows _ block here]
    exact decide_eq_false (by omega)
  rw [← List.take_append_drop (top - common) ((blocks.drop (common + 1)).take MAX_HEADERS), rest]
  unfold Node.news
  rw [List.map_append, List.filter_append, List.filter_eq_nil_iff.mpr, List.filter_eq_self.mpr,
    List.nil_append]
  · intro id listed
    obtain ⟨block, inside, named⟩ := List.mem_map.mp listed
    rw [← named, new block inside]
    rfl
  · intro id listed
    obtain ⟨block, inside, named⟩ := List.mem_map.mp listed
    rw [← named, old block inside]
    decide

/-- A request for headers: the requester falls silent when it knows everything offered, and
else it asks for the lowest block it does not know. -/
theorem Chosen.asks (peer : Hash32) (chosen : Chosen tree submitted node)
    (known : KnownTo tree goal submitted top) (calm : Dependable pow start env) (member : goal ∈ tree.blocks)
    (chain : responder.chain = tree.chainTo goal) :
    ∃ last, LastOffered node responder last ∧ last < (tree.chainTo goal).blocks.length ∧
      (last ≤ top ∧ (∃ quiet, node.Beside quiet ∧ node.handleHeaders env peer
          (responder.headersAfter node.blockLocator Hash32.ZERO) = (none, quiet)) ∨
        top < last ∧ ∃ first, (tree.chainTo goal).blocks[top + 1]? = some first ∧ node.handleHeaders env peer
          (responder.headersAfter node.blockLocator Hash32.ZERO) = (some (.getData .block first.id),
            { node with
              syncQueues := node.syncQueues.insert peer
                ((((tree.chainTo goal).blocks.drop (top + 1)).take (last - top)).map Block.id) })) := by
  obtain ⟨common, shared, found, inside, place, reply⟩ :=
    chosen.offered member chain (tree.length_le calm member)
  have low : common ≤ top := (known.known place).mp (chosen.mem_chain inside)
  have news := known.news chosen calm member low
  have some_block := (List.getElem?_eq_some_iff.mp place).1
  refine ⟨_, ⟨common, found, by rw [chain]⟩, by omega, ?_⟩
  generalize limit : min (common + MAX_HEADERS) ((tree.chainTo goal).blocks.length - 1) = last at news ⊢
  by_cases ended : ((tree.chainTo goal).blocks.drop (common + 1)).take MAX_HEADERS = []
  · have none_left : (tree.chainTo goal).blocks.length ≤ common + 1 := by
      rw [List.take_eq_nil_iff, List.drop_eq_nil_iff] at ended
      exact ended.resolve_left (by decide)
    refine Or.inl ⟨by omega, node.dropQueue peer, ⟨rfl, rfl⟩, ?_⟩
    rw [reply, ended]
    rfl
  · have ⟨present, _⟩ := chosen.blockByHash calm (tree.chainTo_at member place).1
    have successive := ((tree.history member).successive place).take MAX_HEADERS
    rw [reply, Node.handleHeaders_eq (present (chosen.mem_chain inside)) successive ended
      (List.length_take_le _ _), news]
    by_cases more : top < last
    · have bound : top + 1 < (tree.chainTo goal).blocks.length := by omega
      have head : ((tree.chainTo goal).blocks.drop (top + 1)).take (last - top) =
          (tree.chainTo goal).blocks[top + 1] ::
            ((tree.chainTo goal).blocks.drop (top + 2)).take (last - top - 1) := by
        rw [List.drop_eq_getElem_cons bound, List.take_cons (by omega)]
      refine Or.inr ⟨more, _, List.getElem?_eq_getElem bound, ?_⟩
      rw [head]
      rfl
    · refine Or.inl ⟨by omega, node, .refl node, ?_⟩
      rw [show last - top = 0 by omega]
      rfl

/-! The delivery of a block. -/

theorem submitBlock_queues (node : Node) (env : NodeEnv) (block : Block) :
    (node.submitBlock env block).2.syncQueues = node.syncQueues := by
  obtain ⟨result, after, reached⟩ := submitBlock_reached node env block
  have returned : node.submitBlock env block = (result, after) := reached.knows
  rw [returned]
  cases reached with
  | tail _ step => cases step <;> rfl

theorem Chosen.near (chosen : Chosen tree submitted node) (member : goal ∈ tree.blocks)
    {index common : Nat} {shared : Block} (place : (tree.chainTo goal).blocks[index]? = some block)
    (below : (tree.chainTo goal).blocks[common]? = some shared) (inside : shared ∈ node.chain.blocks)
    (close : index ≤ common + 100001) : tree.Near node.chain block := by
  obtain ⟨tip, among, chain, _⟩ := chosen.tip
  unfold BlockTree.Near
  rw [(tree.chainTo_at member place).2]
  have dropped : ∀ other ∈ ((tree.chainTo goal).blocks.take (index + 1)).take (common + 1),
      decide (other ∉ node.chain.blocks) = false := by
    intro other listed
    rw [List.take_take] at listed
    have early : other ∈ (tree.chainTo shared).blocks := by
      rw [(tree.chainTo_at member below).2]
      exact (List.take_prefix_take_left (Nat.min_le_left _ _)).subset listed
    rw [chain] at inside ⊢
    have initial := (tree.ancestors tip (chosen.within among) shared inside).2
    exact decide_eq_false (not_not_intro (initial.subset early))
  have few := filter_length_le dropped
  have short := List.length_take_le (index + 1) (tree.chainTo goal).blocks
  omega

/-- The block at the front of the queue joins what is known, and the next one is asked for,
or headers again when the queue is empty. -/
theorem Chosen.fetches (chosen : Chosen tree submitted node) (known : KnownTo tree goal submitted top)
    (calm : Dependable pow start env) (member : goal ∈ tree.blocks)
    (place : (tree.chainTo goal).blocks[top + 1]? = some block) (near : tree.Near node.chain block)
    {last : Nat} (above : top < last) (limit : last < (tree.chainTo goal).blocks.length)
    (queue : node.syncQueues[peer]? =
      some ((((tree.chainTo goal).blocks.drop (top + 1)).take (last - top)).map Block.id)) :
    ∃ after, Chosen tree (insert block submitted) after ∧
      (last = top + 1 ∧ node.handleBlock env peer block =
          (some (.getHeaders after.blockLocator Hash32.ZERO), after) ∨
        top + 1 < last ∧ ∃ next, (tree.chainTo goal).blocks[top + 2]? = some next ∧
          node.handleBlock env peer block = (some (.getData .block next.id), after) ∧
          after.syncQueues[peer]? =
            some ((((tree.chainTo goal).blocks.drop (top + 2)).take (last - (top + 1))).map Block.id)) := by
  have ⟨inTree, initial⟩ := tree.chainTo_at member place
  have parentPlace := List.getElem?_eq_getElem known.bound
  have due : block = Block.genesis ∨ ∃ parent ∈ submitted, block.header.previousBlock = parent.id :=
    Or.inr ⟨_, (known.known parentPlace).mpr (Nat.le_refl top), (tree.grown_at member parentPlace place).1⟩
  obtain ⟨event, after, result, joined, _⟩ := chosen.submit near calm inTree due
  have kept : after.syncQueues = node.syncQueues := by
    have same := submitBlock_queues node env block
    rw [result] at same
    exact same
  have ⟨here, item⟩ := List.getElem?_eq_some_iff.mp place
  have front : ((tree.chainTo goal).blocks.drop (top + 1)).take (last - top) =
      block :: ((tree.chainTo goal).blocks.drop (top + 2)).take (last - (top + 1)) := by
    rw [List.drop_eq_getElem_cons here, List.take_cons (by omega), item, Nat.sub_sub]
  rw [front, List.map_cons, ← kept] at queue
  unfold Node.handleBlock
  rw [result]
  dsimp only
  rw [queue]
  dsimp only
  rw [List.head?_cons, if_neg (not_not_intro rfl), List.tail_cons]
  by_cases done : last = top + 1
  · refine ⟨after.dropQueue peer, joined.beside ⟨rfl, rfl⟩, Or.inl ⟨done, ?_⟩⟩
    rw [done, Nat.sub_self]
    rfl
  · have more : top + 2 < (tree.chainTo goal).blocks.length := by omega
    have second : ((tree.chainTo goal).blocks.drop (top + 2)).take (last - (top + 1)) =
        (tree.chainTo goal).blocks[top + 2] ::
          ((tree.chainTo goal).blocks.drop (top + 3)).take (last - (top + 2)) := by
      rw [List.drop_eq_getElem_cons more, List.take_cons (by omega), Nat.sub_sub]
    let asking : Node := { after with
      syncQueues := after.syncQueues.insert peer
        ((((tree.chainTo goal).blocks.drop (top + 2)).take (last - (top + 1))).map Block.id) }
    refine ⟨asking, joined.beside ⟨rfl, rfl⟩, Or.inr ⟨by omega, _, List.getElem?_eq_getElem more, ?_,
      get_insert_self _ _ _⟩⟩
    simp only [asking, second]
    rfl

/-! The stages of the exchange. -/

def Crossed (tree : BlockTree pow start) (goal : Block) (origin first : Node) (top : Nat) (node : Node) :
    Prop :=
  Outweighs tree origin first ∧
    ∃ tip, (tree.chainTo goal).blocks[top]? = some tip ∧ node.chain = tree.chainTo tip

structure Underway (tree : BlockTree pow start) (goal : Block) (first : Node) (submitted : Set Block)
    (top : Nat) (exchange : Exchange) : Prop where
  chosen : Chosen tree submitted exchange.requester
  known : KnownTo tree goal submitted top
  responder : exchange.responder.chain = first.chain

/-- Where the exchange is, and a bound on the rounds it can still take. The two nodes
named were its ends when it opened. -/
inductive SyncStage (tree : BlockTree pow start) (goal : Block) (peer : Hash32) (origin first : Node)
    (rest : Nat) (exchange : Exchange) : Prop where
  | asking {submitted : Set Block} {top : Nat} (underway : Underway tree goal first submitted top exchange)
      (chain : exchange.requester.chain = origin.chain ∨ Crossed tree goal origin first top exchange.requester)
      (asked : exchange.asked = some (.getHeaders exchange.requester.blockLocator Hash32.ZERO))
      (few : 2 * ((tree.chainTo goal).blocks.length - 1 - top) + 1 ≤ rest)
  | fetching {submitted : Set Block} {top last : Nat} {block : Block}
      (underway : Underway tree goal first submitted top exchange)
      (chain : exchange.requester.chain = origin.chain ∧ LastOffered origin first last ∨
        Crossed tree goal origin first top exchange.requester)
      (place : (tree.chainTo goal).blocks[top + 1]? = some block)
      (above : top < last) (limit : last < (tree.chainTo goal).blocks.length)
      (asked : exchange.asked = some (.getData .block block.id))
      (queue : exchange.requester.syncQueues[peer]? =
        some ((((tree.chainTo goal).blocks.drop (top + 1)).take (last - top)).map Block.id))
      (few : 2 * ((tree.chainTo goal).blocks.length - 1 - top) ≤ rest)
  | silent (asked : exchange.asked = none)
      (chain : exchange.requester.chain = first.chain ↔
        origin.chain = first.chain ∨ Outweighs tree origin first)

variable {origin first : Node} {rest : Nat} {exchange : Exchange}

theorem SyncStage.worked {requester responder : Node} (stage : SyncStage tree goal peer origin first rest exchange)
    (beside : exchange.requester.Beside requester)
    (queue : requester.syncQueues[peer]? = exchange.requester.syncQueues[peer]?)
    (chain : responder.chain = exchange.responder.chain) :
    SyncStage tree goal peer origin first rest { exchange with requester, responder } := by
  have crossed : ∀ {top : Nat}, Crossed tree goal origin first top exchange.requester →
      Crossed tree goal origin first top requester := by
    intro top ⟨outweighs, tip, place, same⟩
    exact ⟨outweighs, tip, place, beside.chain.trans same⟩
  cases stage with
  | asking underway place asked few =>
    refine .asking ⟨underway.chosen.beside beside, underway.known, chain.trans underway.responder⟩ ?_ ?_ few
    · exact place.imp beside.chain.trans crossed
    · change exchange.asked = _
      unfold Node.blockLocator
      rw [asked, beside.chain]
      rfl
  | fetching underway place here above limit asked waiting few =>
    refine .fetching ⟨underway.chosen.beside beside, underway.known, chain.trans underway.responder⟩ ?_
      here above limit asked (queue.trans waiting) few
    exact place.imp (fun ⟨same, reply⟩ => ⟨beside.chain.trans same, reply⟩) crossed
  | silent asked settled =>
    refine .silent asked ?_
    change requester.chain = first.chain ↔ _
    rw [beside.chain]
    exact settled

theorem handleGetData_own (member : goal ∈ tree.blocks) (chain : responder.chain = tree.chainTo goal)
    {index : Nat} (place : (tree.chainTo goal).blocks[index]? = some block) :
    responder.handleGetData env .block block.id = some (.block block) := by
  have found := tree.lookup_member member (List.mem_of_getElem? place)
  rw [← chain] at found
  change (responder.blockByHash env.disk block.id).map WireMessage.block = _
  rw [Node.blockByHash_of_chain found]
  rfl

theorem Crossed.settled (crossed : Crossed tree goal origin first top node) (member : goal ∈ tree.blocks)
    (chain : responder.chain = tree.chainTo goal) {last : Nat} (offered : LastOffered node responder last)
    (ended : last ≤ top) : node.chain = responder.chain := by
  obtain ⟨_, tip, place, active⟩ := crossed
  obtain ⟨common, found, limit⟩ := offered
  rw [chain] at limit
  have ⟨inTree, initial⟩ := tree.chainTo_at member place
  have height : node.chain.height.toNat = top := by
    rw [active]
    unfold Chain.height
    rw [tree.chainTo_tip inTree, tree.height_at member place]
  have listed : top ∈ Node.locatorHeights node.chain.height.toNat 1 0 := by
    rw [height]
    exact self_mem_locatorHeights top 1 0
  have met : Meets node responder top := by
    refine ⟨tip, ?_, ?_⟩
    · rw [active, initial, List.getElem?_take_of_lt (Nat.lt_succ_self top), place]
    · rw [chain]
      exact Chain.blockByHash_isSome (List.mem_of_getElem? place)
  have low := found.highest top listed met
  have bound := (List.getElem?_eq_some_iff.mp place).1
  have many : 0 < MAX_HEADERS := by decide
  have last : top = (tree.chainTo goal).blocks.length - 1 := by omega
  rw [last, tree.last_at member] at place
  cases place
  rw [active, chain]

theorem Chosen.unmoved (chosen : Chosen tree submitted node) (known : KnownTo tree goal submitted top)
    (chain : first.chain = tree.chainTo goal) (same : node.chain = origin.chain) {last : Nat}
    (offered : LastOffered origin first last) (ended : last ≤ top) : ¬Outweighs tree origin first := by
  intro ⟨other, reached, again, place, better⟩
  rw [again.unique offered, chain] at place
  rw [← same] at better
  have held := Set.mem_image_of_mem tree.chainTo ((known.known place).mpr ended)
  by_cases active : tree.chainTo reached = node.chain
  · rw [active] at better
    exact Chain.better_irrefl _ better
  · exact Chain.better_irrefl _ (better.trans (chosen.best.beats _ held active))

/-- The walk back from a fetched block is short: it was offered after a common block, or its
parent is the tip. -/
theorem Chosen.fetched_near (chosen : Chosen tree submitted node) (member : goal ∈ tree.blocks)
    (chain : first.chain = tree.chainTo goal) {last : Nat} (above : top < last)
    (held : node.chain = origin.chain ∧ LastOffered origin first last ∨ Crossed tree goal origin first top node)
    (place : (tree.chainTo goal).blocks[top + 1]? = some block) : tree.Near node.chain block := by
  rcases held with ⟨same, common, found, limit⟩ | ⟨_, tip, below, active⟩
  · obtain ⟨shared, inside, here⟩ := (found.congr same rfl).shared chosen member chain
    have few : MAX_HEADERS ≤ 100001 := by decide
    exact chosen.near member place here inside (by omega)
  · have inside : tip ∈ node.chain.blocks := by
      rw [active]
      exact tree.mem_chainTo (tree.chainTo_at member below).1
    exact chosen.near member place below inside (by omega)

/-- After a fetched block the node is on its first chain still or on that block. -/
theorem Chosen.crossing (chosen : Chosen tree submitted node)
    (joined : Chosen tree (insert block submitted) next) (member : goal ∈ tree.blocks)
    (chain : first.chain = tree.chainTo goal) {last : Nat} (above : top < last)
    (limit : last < (tree.chainTo goal).blocks.length)
    (held : node.chain = origin.chain ∧ LastOffered origin first last ∨ Crossed tree goal origin first top node)
    (place : (tree.chainTo goal).blocks[top + 1]? = some block) :
    next.chain = origin.chain ∧ LastOffered origin first last ∨
      Crossed tree goal origin first (top + 1) next := by
  have inTree := (tree.chainTo_at member place).1
  rcases chosen.inserted joined inTree with ⟨better, moved⟩ | ⟨worse, stays⟩
  · refine Or.inr ⟨?_, block, place, moved⟩
    rcases held with ⟨same, offered⟩ | ⟨outweighs, _⟩
    · have end_place := List.getElem?_eq_getElem limit
      refine ⟨last, _, offered, by rw [chain]; exact end_place, ?_⟩
      rw [← same]
      by_cases final : top + 1 = last
      · rw [final, end_place] at place
        cases place
        exact better
      · exact (tree.better_above member place end_place (by omega)).trans better
    · exact outweighs
  · rcases held with ⟨same, offered⟩ | ⟨_, tip, below, active⟩
    · exact Or.inl ⟨stays.trans same, offered⟩
    · rw [active] at worse
      exact absurd (tree.better_above member below place (Nat.lt_succ_self top)) worse

theorem round_fetching {requesterId : Hash32} {responderEnv : NodeEnv} (member : goal ∈ tree.blocks)
    (chain : exchange.responder.chain = tree.chainTo goal) {index : Nat}
    (place : (tree.chainTo goal).blocks[index]? = some block)
    (asked : exchange.asked = some (.getData .block block.id)) :
    exchange.round requesterId peer env responderEnv =
      { requester := (exchange.requester.handleBlock env peer block).2
        responder := exchange.responder
        asked := (exchange.requester.handleBlock env peer block).1 } := by
  have found : exchange.responder.handleGetData responderEnv .block block.id = some (.block block) :=
    handleGetData_own member chain place
  have answer : exchange.responder.handleWire responderEnv requesterId (.getData .block block.id) =
      (some (.block block), exchange.responder) := by
    change (exchange.responder.handleGetData responderEnv .block block.id, exchange.responder) = _
    rw [found]
  unfold Exchange.round
  rw [asked]
  dsimp only
  rw [answer]
  rfl

/-- One round lowers the bound, unless the exchange is over. -/
theorem SyncStage.round {requesterId : Hash32} {responderEnv : NodeEnv}
    (stage : SyncStage tree goal peer origin first rest exchange) (member : goal ∈ tree.blocks)
    (chain : first.chain = tree.chainTo goal)
    (calm : Dependable pow start env) :
    SyncStage tree goal peer origin first (rest - 1) (exchange.round requesterId peer env responderEnv) := by
  cases stage with
  | silent asked settled =>
    have same : exchange.round requesterId peer env responderEnv = exchange := by
      unfold Exchange.round
      rw [asked]
    rw [same]
    exact .silent asked settled
  | asking underway place asked few =>
    rename_i submitted top
    have ⟨chosen, known, responder⟩ := underway
    obtain ⟨last, offered, limit, reply⟩ :=
      chosen.asks peer known calm member (responder.trans chain)
    have next : exchange.round requesterId peer env responderEnv =
        let handled := exchange.requester.handleHeaders env peer
          (exchange.responder.headersAfter exchange.requester.blockLocator Hash32.ZERO)
        { requester := handled.2, responder := exchange.responder, asked := handled.1 } := by
      unfold Exchange.round
      rw [asked]
      rfl
    rw [next]
    rcases reply with ⟨ended, quiet, beside, handled⟩ | ⟨more, block, here, handled⟩
    · rw [handled]
      refine .silent rfl ?_
      change quiet.chain = first.chain ↔ _
      rw [beside.chain]
      rcases place with same | crossed
      · have never := chosen.unmoved known chain same (offered.congr same.symm responder.symm) ended
        rw [same]
        exact ⟨Or.inl, fun either => either.resolve_right never⟩
      · have final := crossed.settled member (responder.trans chain) offered ended
        exact ⟨fun _ => Or.inr crossed.1, fun _ => final.trans responder⟩
    · rw [handled]
      exact .fetching ⟨chosen.beside ⟨rfl, rfl⟩, known, responder⟩
        (place.imp (fun same => ⟨same, offered.congr same.symm responder.symm⟩) id) here more limit rfl
        (get_insert_self _ _ _) (by omega)
  | @fetching submitted top last block underway held place above limit asked queue few =>
    have ⟨chosen, known, responder⟩ := underway
    have near := chosen.fetched_near member chain above held place
    rw [round_fetching member (responder.trans chain) place asked]
    obtain ⟨after, joined, reply⟩ := chosen.fetches known calm member place near above limit queue
    have moved := chosen.crossing joined member chain above limit held place
    have grown := known.insert member place
    rcases reply with ⟨_, handled⟩ | ⟨more, second, following, handled, waiting⟩
    · rw [handled]
      exact .asking ⟨joined, grown, responder⟩ (moved.imp And.left id) rfl (by omega)
    · rw [handled]
      exact .fetching ⟨joined, grown, responder⟩ moved following more limit rfl waiting (by omega)

theorem SyncStage.over (stage : SyncStage tree goal peer origin first 0 exchange) :
    exchange.asked = none ∧ (exchange.requester.chain = first.chain ↔
      origin.chain = first.chain ∨ Outweighs tree origin first) := by
  cases stage with
  | asking _ _ _ few => omega
  | fetching _ _ _ above limit _ _ few => omega
  | silent asked settled => exact ⟨asked, settled⟩

theorem SyncStage.runs {requesterId : Hash32} {opening : Exchange} {count total : Nat}
    (stage : SyncStage tree goal peer origin first total opening)
    (runs : Exchange.Runs pow start requesterId peer opening count exchange) (member : goal ∈ tree.blocks)
    (chain : first.chain = tree.chainTo goal) :
    SyncStage tree goal peer origin first (total - count) exchange := by
  induction runs with
  | opened => exact stage
  | @round count exchange env responderEnv _ calm ih =>
    rw [← Nat.sub_sub]
    exact ih.round member chain calm
  | worked _ beside queue same ih => exact ih.worked beside queue same

/-- The exchange falls silent after at most two rounds for each block of the responder's chain,
and then the requester is on that chain exactly when the first reply outweighed its own. -/
theorem catch_up_iff {requester responder : Node} {requesterId responderId : Hash32} {rounds : Nat}
    {after : Exchange} (chosen : Chosen tree submitted requester) (member : goal ∈ tree.blocks)
    (chain : responder.chain = tree.chainTo goal)
    (runs : Exchange.Runs pow start requesterId responderId (openingExchange requester responder) rounds after)
    (enough : 2 * responder.chain.blocks.length ≤ rounds) :
    after.asked = none ∧ (after.requester.chain = responder.chain ↔
      requester.chain = responder.chain ∨ Outweighs tree requester responder) := by
  obtain ⟨top, known⟩ := chosen.knownTo member
  rw [chain] at enough
  have known_few := known.bound
  have opening : SyncStage tree goal responderId requester responder rounds
      (openingExchange requester responder) :=
    .asking ⟨chosen, known, rfl⟩ (Or.inl rfl) rfl (by omega)
  have final := opening.runs runs member chain
  rw [Nat.sub_self] at final
  exact final.over

end

omit [Crypto] in
/-- A fresh node catches up with a peer one block ahead. -/
theorem fresh_node_catches_up :
    let _ := labelled
    ∃ (tree : BlockTree acceptAll GENESIS_TIMESTAMP) (goal : Block) (requester responder : Node)
      (after : Exchange) (requesterId responderId : Hash32), requesterId ≠ responderId ∧
      requester.chain = Chain.genesis ∧ responder.chain = tree.chainTo goal ∧ goal ≠ Block.genesis ∧
      Exchange.Runs acceptAll GENESIS_TIMESTAMP requesterId responderId
        (openingExchange requester responder) 4 after ∧
      after.asked = none ∧ after.requester.chain = responder.chain := by
  intro crypto
  obtain ⟨tree, goal, _, member, _, _, above, _, named, _, lengths⟩ := forked_tree
  let env : NodeEnv :=
    { pow := acceptAll, now := GENESIS_TIMESTAMP, disk := Disk.reliable, order := default }
  have calm : Dependable acceptAll GENESIS_TIMESTAMP env :=
    ⟨rfl, rfl, UInt64.le_refl _, of_decide_eq_true rfl⟩
  obtain ⟨requester, opened⟩ := Node.openFresh_ok (of_decide_eq_true rfl : fitsI64 0) none
  have chosen : Chosen tree {Block.genesis} requester := openFresh_chosen opened
  have start := (openFresh_holds opened).1
  let responder := restingNode (tree.chainTo goal) LedgerState.addressMin
  let other : Hash32 := ⟨List.replicate 32 1, rfl⟩
  have once : ∀ {count : Nat} {exchange : Exchange},
      Exchange.Runs acceptAll GENESIS_TIMESTAMP Hash32.ZERO other (openingExchange requester responder)
        count exchange →
      Exchange.Runs acceptAll GENESIS_TIMESTAMP Hash32.ZERO other (openingExchange requester responder)
        (count + 1) (exchange.round Hash32.ZERO other env env) :=
    fun runs => .round env runs calm
  have runs := once (once (once (once .opened)))
  have ⟨two, better⟩ := tree.onGenesis member above named
  have length : responder.chain.blocks.length = 2 := congrArg List.length two
  have outweighs : Outweighs tree requester responder := by
    obtain ⟨common, _, found, _⟩ := chosen.offered member (show responder.chain = _ from rfl)
      (show responder.chain.blocks.length ≤ _ by rw [length]; decide)
    refine ⟨1, goal, ⟨common, found, ?_⟩, ?_, ?_⟩
    · rw [length]
      have many : 1 ≤ MAX_HEADERS := by decide
      omega
    · change (tree.chainTo goal).blocks[1]? = _
      rw [two]
      rfl
    · rw [start]
      exact better
  have ⟨silent, settled⟩ := catch_up_iff chosen member (show responder.chain = _ from rfl)
    runs (by rw [length])
  exact ⟨tree, goal, requester, responder, _, Hash32.ZERO, other, by decide, start, rfl, above, runs, silent,
    settled.mpr (Or.inr outweighs)⟩

end ParitrNode
