import Mathlib.Data.List.TakeWhile
import ParitrNode.Node
import ParitrNode.LinkedChain

/-!
One exchange of header synchronisation: the locator of the requester, the reply
of the responder, and what the requester asks for next.
-/

namespace ParitrNode
open ByteCodec OrderedMap Checked

/-! The heights of a locator. -/

theorem le_of_mem_locatorHeights {height step count other : Nat}
    (member : other ∈ Node.locatorHeights height step count) : other ≤ height := by
  induction height, step, count using Node.locatorHeights.induct with
  | case1 step count =>
    rw [Node.locatorHeights, if_pos rfl] at member
    exact Nat.le_of_eq (List.mem_singleton.mp member)
  | case2 height step count above next ih =>
    rw [Node.locatorHeights, if_neg above] at member
    cases List.mem_cons.mp member with
    | inl same => exact Nat.le_of_eq same
    | inr later =>
      have below := ih later
      omega

theorem self_mem_locatorHeights (height step count : Nat) :
    height ∈ Node.locatorHeights height step count := by
  unfold Node.locatorHeights
  split
  next ground => exact List.mem_singleton.mpr ground
  next => exact List.mem_cons_self

theorem zero_mem_locatorHeights (height step count : Nat) :
    0 ∈ Node.locatorHeights height step count := by
  induction height, step, count using Node.locatorHeights.induct with
  | case1 step count =>
    rw [Node.locatorHeights, if_pos rfl]
    exact List.mem_singleton_self 0
  | case2 height step count above next ih =>
    rw [Node.locatorHeights, if_neg above]
    exact List.mem_cons_of_mem height ih

theorem locatorHeights_sorted (height step count : Nat) :
    (Node.locatorHeights height step count).Pairwise (· > ·) := by
  induction height, step, count using Node.locatorHeights.induct with
  | case1 step count =>
    rw [Node.locatorHeights, if_pos rfl]
    exact List.pairwise_singleton _ _
  | case2 height step count above next ih =>
    rw [Node.locatorHeights, if_neg above]
    refine List.Pairwise.cons ?_ ih
    intro other member
    have below := le_of_mem_locatorHeights member
    omega

/-- In a sorted list the first hit is the highest. -/
theorem findSome_sorted {α : Type} {heights : List Nat} {look : Nat → Option α} {found : α}
    (sorted : heights.Pairwise (· > ·)) (first : heights.findSome? look = some found) :
    ∃ common ∈ heights, look common = some found ∧
      ∀ other ∈ heights, common < other → look other = none := by
  obtain ⟨before, common, after, shape, hit, missed⟩ := List.findSome?_eq_some_iff.mp first
  refine ⟨common, shape ▸ List.mem_append_right _ List.mem_cons_self, hit, ?_⟩
  intro other member above
  rw [shape] at member sorted
  cases List.mem_append.mp member with
  | inl earlier => exact missed other earlier
  | inr later =>
    have tail := (List.pairwise_append.mp sorted).2.1
    cases List.mem_cons.mp later with
    | inl same => omega
    | inr deeper =>
      have below := List.rel_of_pairwise_cons tail deeper
      omega

theorem findSome_filterMap {α β γ : Type} (pick : α → Option β) (look : β → Option γ)
    (items : List α) :
    (items.filterMap pick).findSome? look = items.findSome? fun item => (pick item).bind look := by
  induction items with
  | nil => rfl
  | cons item rest ih =>
    rw [List.filterMap_cons, List.findSome?_cons]
    cases pick item with
    | none => exact ih
    | some value =>
      rw [List.findSome?_cons, ih]
      rfl

variable [Crypto]

/-! Headers in a row. -/

theorem ValidHistory.versioned {pow : PowVerifier} {history : List Block} {state : LedgerState}
    (valid : ValidHistory pow history state) : ∀ block ∈ history,
      block.header.version = HEADER_VERSION ∧ block.header.protocol = PROTOCOL_VERSION := by
  induction valid with
  | genesis =>
    intro block member
    cases List.mem_singleton.mp member
    exact ⟨rfl, rfl⟩
  | extend earlier above accepted ih =>
    intro block member
    cases List.mem_append.mp member with
    | inl old => exact ih block old
    | inr new =>
      obtain ⟨parent, -, follows⟩ := accepted.follows
      rw [List.mem_singleton.mp new]
      exact ⟨follows.version, follows.protocol⟩

def Successive : Hash32 → UInt64 → List Block → Prop
  | _, _, [] => True
  | parent, height, block :: rest =>
    (block.header.version = HEADER_VERSION ∧ block.header.protocol = PROTOCOL_VERSION) ∧
      block.header.previousBlock = parent ∧ block.header.height = height ∧
        Successive block.id (saturatingAdd height 1) rest

theorem Successive.take {parent : Hash32} {height : UInt64} {blocks : List Block}
    (successive : Successive parent height blocks) (count : Nat) :
    Successive parent height (blocks.take count) := by
  induction blocks generalizing parent height count with
  | nil => rw [List.take_nil]; trivial
  | cons block rest ih =>
    cases count with
    | zero => trivial
    | succ count =>
      obtain ⟨versions, previous, level, later⟩ := successive
      exact ⟨versions, previous, level, ih later count⟩

theorem ValidHistory.successive {pow : PowVerifier} {history : List Block} {state : LedgerState}
    (valid : ValidHistory pow history state) {index : Nat} {block : Block}
    (found : history[index]? = some block) :
    Successive block.id (saturatingAdd block.header.height 1) (history.drop (index + 1)) := by
  induction remaining : history.length - (index + 1) generalizing index block with
  | zero =>
    rw [List.drop_eq_nil_of_le (by omega)]
    trivial
  | succ remaining ih =>
    have inside : index + 1 < history.length := by omega
    have next := List.getElem?_eq_getElem inside
    have height := (valid.linked index block found).height
    have linked := valid.linked (index + 1) _ next
    obtain ⟨previous, before, parent, -⟩ := linked.mined (by omega)
    rw [Nat.add_sub_cancel, found] at before
    cases before
    have one : (1 : UInt64).toNat = 1 := rfl
    have bound := toNat_lt history[index + 1].header.height
    have above := linked.height
    have level : history[index + 1].header.height = saturatingAdd block.header.height 1 := by
      apply UInt64.toNat_inj.mp
      rw [saturatingAdd_of_lt (by omega)]
      omega
    rw [List.drop_eq_getElem_cons inside]
    exact ⟨valid.versioned _ (List.getElem_mem inside), parent, level,
      level ▸ ih next (by omega)⟩

namespace Node

def knows (node : Node) (disk : Disk) (id : Hash32) : Bool := (node.blockByHash disk id).isSome

/-- What a requester finds new in a row of headers, oldest first. -/
def news (node : Node) (disk : Disk) (blocks : List Block) : List Hash32 :=
  (blocks.map Block.id).filter fun id => !node.knows disk id

theorem news_cons (node : Node) (disk : Disk) (block : Block) (rest : List Block) :
    node.news disk (block :: rest) =
      if (node.blockByHash disk block.id).isNone then block.id :: node.news disk rest
      else node.news disk rest := by
  unfold news knows
  rw [List.map_cons, List.filter_cons]
  cases node.blockByHash disk block.id with
  | none => rfl
  | some known => rfl

theorem unknownHeaders_successive (node : Node) (disk : Disk) {parent : Hash32} {height : UInt64}
    {blocks : List Block} (successive : Successive parent height blocks) :
    node.unknownHeaders disk (some (parent, height)) (blocks.map Block.header) =
      some (node.news disk blocks) := by
  induction blocks generalizing parent height with
  | nil => rfl
  | cons block rest ih =>
    obtain ⟨versions, previous, level, later⟩ := successive
    rw [List.map_cons, unknownHeaders, if_neg (by rw [versions.1, versions.2]; simp)]
    simp only [previous, level, decide_true, and_self, Bool.true_eq_false, if_false]
    change (node.unknownHeaders disk (some (block.id, saturatingAdd height 1)) _ >>= _) = _
    rw [ih later, news_cons]
    rfl

theorem unknownHeaders_from {node : Node} {disk : Disk} {id : Hash32} {parent : Block}
    {blocks : List Block} (known : node.blockByHash disk id = some parent)
    (successive : Successive id (saturatingAdd parent.header.height 1) blocks) :
    node.unknownHeaders disk none (blocks.map Block.header) = some (node.news disk blocks) := by
  cases blocks with
  | nil => rfl
  | cons block rest =>
    obtain ⟨versions, previous, level, later⟩ := successive
    rw [List.map_cons, unknownHeaders, if_neg (by rw [versions.1, versions.2]; simp)]
    simp only [previous, known, level, decide_true, Bool.true_eq_false, if_false]
    change (node.unknownHeaders disk
      (some (block.id, saturatingAdd (saturatingAdd parent.header.height 1) 1)) _ >>= _) = _
    rw [unknownHeaders_successive node disk later, news_cons]
    rfl

theorem news_head {node : Node} {disk : Disk} {parent id : Hash32} {height : UInt64}
    {blocks : List Block} {rest : List Hash32} (known : node.knows disk parent = true)
    (successive : Successive parent height blocks) (first : node.news disk blocks = id :: rest) :
    ∃ block ∈ blocks, block.id = id ∧ node.knows disk id = false ∧
      node.knows disk block.header.previousBlock = true := by
  induction blocks generalizing parent height with
  | nil => cases first
  | cons block later ih =>
    obtain ⟨-, previous, -, linked⟩ := successive
    rw [news_cons] at first
    by_cases new : (node.blockByHash disk block.id).isNone = true
    · rw [if_pos new] at first
      cases first
      refine ⟨block, List.mem_cons_self, rfl, ?_, previous ▸ known⟩
      rw [knows, Option.isNone_iff_eq_none.mp new]
      rfl
    · rw [if_neg new] at first
      have here : node.knows disk block.id = true := by
        unfold knows
        rw [Option.isNone_iff_eq_none] at new
        exact Option.isSome_iff_ne_none.mpr new
      obtain ⟨found, member, rest⟩ := ih here linked first
      exact ⟨found, List.mem_cons_of_mem block member, rest⟩

theorem mem_news {node : Node} {disk : Disk} {blocks : List Block} {id : Hash32} :
    id ∈ node.news disk blocks ↔ (∃ block ∈ blocks, block.id = id) ∧ node.knows disk id = false := by
  unfold news
  rw [List.mem_filter, List.mem_map]
  simp

theorem handleHeaders_eq {node : Node} {env : NodeEnv} {peer id : Hash32} {parent : Block}
    {blocks : List Block} (known : node.blockByHash env.disk id = some parent)
    (successive : Successive id (saturatingAdd parent.header.height 1) blocks)
    (nonempty : blocks ≠ []) (short : blocks.length ≤ MAX_HEADERS) :
    node.handleHeaders env peer (blocks.map Block.header) =
      match node.news env.disk blocks with
      | [] => (none, node)
      | next :: rest => (some (.getData .block next),
          { node with syncQueues := node.syncQueues.insert peer (next :: rest) }) := by
  unfold handleHeaders
  rw [if_neg, unknownHeaders_from known successive]
  · cases node.news env.disk blocks with
    | nil => rfl
    | cons next rest => rfl
  · rw [List.map_eq_nil_iff, List.length_map]
    exact fun bad => bad.elim nonempty (fun long => by omega)

end Node

/-! The exchange. -/

/-- The locator height `height` lies on the responder's active chain. -/
def Meets (requester responder : Node) (height : Nat) : Prop :=
  ∃ block, requester.chain.blocks[height]? = some block ∧
    (responder.chain.blockByHash block.id).isSome

/-- The highest height of the requester's locator that is on the responder's active chain. -/
structure CommonHeight (requester responder : Node) (common : Nat) : Prop where
  listed : common ∈ Node.locatorHeights requester.chain.height.toNat 1 0
  meets : Meets requester responder common
  highest : ∀ height ∈ Node.locatorHeights requester.chain.height.toNat 1 0,
    Meets requester responder height → height ≤ common

/-- The requester asks for a block it does not know on a parent it knows. -/
def Progresses (requester responder : Node) (requesterEnv responderEnv : NodeEnv)
    (requesterId responderId : Hash32) : Prop :=
  ∃ reply, ∃ block ∈ responder.chain.blocks, (responder.handleWire responderEnv requesterId
      (.getHeaders requester.blockLocator Hash32.ZERO)).1 = some reply ∧
    (requester.handleWire requesterEnv responderId reply).1 = some (.getData .block block.id) ∧
      requester.knows requesterEnv.disk block.id = false ∧
      requester.knows requesterEnv.disk block.header.previousBlock = true

theorem Node.blockByHash_of_chain {node : Node} {disk : Disk} {id : Hash32} {block : Block}
    (found : node.chain.blockByHash id = some block) : node.blockByHash disk id = some block := by
  unfold Node.blockByHash
  rw [found]
  rfl

theorem Node.knows_of_mem {node : Node} {disk : Disk} {block : Block}
    (member : block ∈ node.chain.blocks) : node.knows disk block.id = true := by
  obtain ⟨found, present⟩ := Option.isSome_iff_exists.mp (Chain.blockByHash_isSome member)
  unfold Node.knows
  rw [Node.blockByHash_of_chain present]
  rfl

theorem locator_common {requester responder : Node} {pow pow' : PowVerifier}
    (valid : ValidHistory pow requester.chain.blocks requester.chain.state)
    (valid' : ValidHistory pow' responder.chain.blocks responder.chain.state)
    (identified : ∀ block ∈ requester.chain.blocks, ∀ other ∈ responder.chain.blocks,
      block.id = other.id → block.header = other.header) :
    ∃ common mine theirs, CommonHeight requester responder common ∧
      requester.chain.blocks[common]? = some mine ∧ responder.chain.blocks[common]? = some theirs ∧
      mine.id = theirs.id ∧
      requester.blockLocator.findSome? responder.chain.blockByHash = some theirs := by
  let look : Nat → Option Block := fun height =>
    (requester.chain.blocks[height]?.map Block.id).bind responder.chain.blockByHash
  have first : requester.blockLocator.findSome? responder.chain.blockByHash =
      (Node.locatorHeights requester.chain.height.toNat 1 0).findSome? look := by
    unfold Node.blockLocator
    rw [findSome_filterMap]
  have ground : (look 0).isSome := by
    have start : requester.chain.blocks[0]? = some Block.genesis := by
      rw [← List.head?_eq_getElem?, valid.head]
    simp only [look, start]
    exact genesis_known valid'
  have hit : ((Node.locatorHeights requester.chain.height.toNat 1 0).findSome? look).isSome := by
    rw [List.findSome?_isSome_iff]
    exact ⟨0, zero_mem_locatorHeights _ _ _, ground⟩
  obtain ⟨theirs, found⟩ := Option.isSome_iff_exists.mp hit
  obtain ⟨common, listed, here, above⟩ := findSome_sorted (locatorHeights_sorted _ _ _) found
  have parts : ∃ mine, requester.chain.blocks[common]? = some mine ∧
      responder.chain.blockByHash mine.id = some theirs := by
    simp only [look, Option.bind_eq_some_iff, Option.map_eq_some_iff] at here
    obtain ⟨id, ⟨mine, position, rfl⟩, present⟩ := here
    exact ⟨mine, position, present⟩
  obtain ⟨mine, position, present⟩ := parts
  obtain ⟨inside, same⟩ := Chain.blockByHash_some present
  -- the same id is the same header, so the same height on both chains
  have height := (valid.linked common mine position).height
  rw [identified mine (List.mem_of_getElem? position) theirs inside same.symm] at height
  obtain ⟨index, bound, item⟩ := List.mem_iff_getElem.mp inside
  have place := List.getElem?_eq_getElem bound
  rw [item] at place
  have level := (valid'.linked index theirs place).height
  obtain rfl : index = common := by omega
  refine ⟨index, mine, theirs, ⟨listed, ⟨mine, position, ?_⟩, ?_⟩, position, place, same.symm,
    first.trans found⟩
  · rw [present]
    rfl
  · intro other member ⟨block, there, known⟩
    rcases Nat.lt_or_ge index other with higher | fine
    · have missed := above other member higher
      simp only [look, there, Option.map_some, Option.bind_some] at missed
      rw [missed] at known
      cases known
    · exact fine

theorem headersAfter_found {responder : Node} {locator : List Hash32} {block : Block}
    (found : locator.findSome? responder.chain.blockByHash = some block)
    (room : block.header.height.toNat + 1 < 2 ^ 64) :
    responder.headersAfter locator Hash32.ZERO =
      ((responder.chain.blocks.drop (block.header.height.toNat + 1)).take MAX_HEADERS).map
        Block.header := by
  have one : (1 : UInt64).toNat = 1 := rfl
  unfold Node.headersAfter
  rw [found]
  simp only [Option.map_some, Option.getD_some, true_or, decide_true]
  rw [toNat_add (by omega), one, List.takeWhile_eq_self_iff.mpr (fun _ _ => rfl)]

/-- The locator reaches the responder's chain, and the reply starts after the
highest common block. -/
theorem headersAfter_locator {requester responder : Node} {pow pow' : PowVerifier}
    (valid : ValidHistory pow requester.chain.blocks requester.chain.state)
    (valid' : ValidHistory pow' responder.chain.blocks responder.chain.state)
    (identified : ∀ block ∈ requester.chain.blocks, ∀ other ∈ responder.chain.blocks,
      block.id = other.id → block.header = other.header)
    (behind : ∀ block ∈ requester.chain.blocks, block.id ≠ responder.chain.tip.id) :
    ∃ common mine theirs, CommonHeight requester responder common ∧
      requester.chain.blocks[common]? = some mine ∧ responder.chain.blocks[common]? = some theirs ∧
      mine.id = theirs.id ∧ common + 1 < responder.chain.blocks.length ∧
      responder.headersAfter requester.blockLocator Hash32.ZERO =
        ((responder.chain.blocks.drop (common + 1)).take MAX_HEADERS).map Block.header := by
  obtain ⟨index, mine, theirs, meets, position, place, same, found⟩ :=
    locator_common valid valid' identified
  obtain ⟨bound, item⟩ := List.getElem?_eq_some_iff.mp place
  have level := (valid'.linked index theirs place).height
  have below : index + 1 < responder.chain.blocks.length := by
    rcases Nat.lt_or_ge (index + 1) responder.chain.blocks.length with below | last
    · exact below
    · have tip : responder.chain.tip = theirs := by
        unfold Chain.tip
        rw [List.getLast_eq_getElem, ← item]
        congr 1
        omega
      exact absurd (tip ▸ same) (behind mine (List.mem_of_getElem? position))
  have next := (valid'.linked (index + 1) _ (List.getElem?_eq_getElem below)).height
  have limit := toNat_lt responder.chain.blocks[index + 1].header.height
  refine ⟨index, mine, theirs, meets, position, place, same, below, ?_⟩
  rw [headersAfter_found found (by omega), level]

/-- The exchange makes progress exactly when one of the blocks the reply can
name is new to the requester. -/
theorem header_sync_progresses_iff {requester responder : Node} {pow pow' : PowVerifier}
    {requesterEnv responderEnv : NodeEnv} {requesterId responderId : Hash32}
    (valid : ValidHistory pow requester.chain.blocks requester.chain.state)
    (valid' : ValidHistory pow' responder.chain.blocks responder.chain.state)
    (identified : ∀ block ∈ requester.chain.blocks, ∀ other ∈ responder.chain.blocks,
      block.id = other.id → block.header = other.header)
    (unknownTip : requester.knows requesterEnv.disk responder.chain.tip.id = false) :
    Progresses requester responder requesterEnv responderEnv requesterId responderId ↔
      ∃ common index block, CommonHeight requester responder common ∧ common < index ∧
        index ≤ common + MAX_HEADERS ∧ responder.chain.blocks[index]? = some block ∧
        requester.knows requesterEnv.disk block.id = false := by
  have behind : ∀ block ∈ requester.chain.blocks, block.id ≠ responder.chain.tip.id := by
    intro block member same
    rw [← same, Node.knows_of_mem member] at unknownTip
    cases unknownTip
  obtain ⟨common, mine, theirs, meets, position, place, same, below, reply⟩ :=
    headersAfter_locator valid valid' identified behind
  obtain ⟨parent, known⟩ := Option.isSome_iff_exists.mp
    (Chain.blockByHash_isSome (List.mem_of_getElem? position))
  obtain ⟨inside, parentId⟩ := Chain.blockByHash_some known
  have header := identified parent inside theirs (List.mem_of_getElem? place) (parentId.trans same)
  have successive := (valid'.successive place).take MAX_HEADERS
  rw [← header, ← same] at successive
  have nonempty : (responder.chain.blocks.drop (common + 1)).take MAX_HEADERS ≠ [] := by
    rw [List.drop_eq_getElem_cons below]
    exact List.cons_ne_nil _ _
  have handled : ∀ reply, (responder.handleWire responderEnv requesterId
      (.getHeaders requester.blockLocator Hash32.ZERO)).1 = some reply →
      (requester.handleWire requesterEnv responderId reply).1 =
        (requester.news requesterEnv.disk
          ((responder.chain.blocks.drop (common + 1)).take MAX_HEADERS)).head?.map
            (WireMessage.getData .block) := by
    intro message sent
    obtain rfl := Option.some.inj sent
    change (requester.handleHeaders requesterEnv responderId
      (responder.headersAfter requester.blockLocator Hash32.ZERO)).1 = _
    rw [reply, Node.handleHeaders_eq (Node.blockByHash_of_chain known) successive nonempty
      (List.length_take_le _ _)]
    cases requester.news requesterEnv.disk _ with
    | nil => rfl
    | cons next rest => rfl
  constructor
  · intro ⟨message, block, _, sent, asked, unknown, _⟩
    rw [handled message sent, Option.map_eq_some_iff] at asked
    obtain ⟨id, head, same⟩ := asked
    cases same
    obtain ⟨⟨other, member, sameId⟩, -⟩ := Node.mem_news.mp (List.mem_of_head? head)
    obtain ⟨offset, found⟩ := List.mem_iff_getElem?.mp member
    have inWindow := (List.getElem?_eq_some_iff.mp found).1
    rw [List.length_take] at inWindow
    rw [List.getElem?_take_of_lt (by omega), List.getElem?_drop] at found
    exact ⟨common, common + 1 + offset, other, meets, by omega, by omega, found, sameId ▸ unknown⟩
  · intro ⟨common', index, block, meets', after, within, found, unknown⟩
    obtain rfl : common' = common := Nat.le_antisymm
      (meets.highest common' meets'.listed meets'.meets)
      (meets'.highest common meets.listed meets.meets)
    have listed : block.id ∈ requester.news requesterEnv.disk
        ((responder.chain.blocks.drop (common' + 1)).take MAX_HEADERS) := by
      refine Node.mem_news.mpr ⟨⟨block, ?_, rfl⟩, unknown⟩
      refine List.mem_iff_getElem?.mpr ⟨index - (common' + 1), ?_⟩
      rw [List.getElem?_take_of_lt (by omega), List.getElem?_drop, ← found]
      congr 1
      omega
    cases first : requester.news requesterEnv.disk
        ((responder.chain.blocks.drop (common' + 1)).take MAX_HEADERS) with
    | nil =>
      rw [first] at listed
      cases listed
    | cons id rest =>
      obtain ⟨next, member, rfl, new, onKnown⟩ :=
        Node.news_head (Node.knows_of_mem (List.mem_of_getElem? position)) successive first
      refine ⟨_, next, List.mem_of_mem_drop (List.mem_of_mem_take member), rfl, ?_, new, onKnown⟩
      rw [handled _ rfl, first]
      rfl

end ParitrNode
