import Mathlib.Logic.Relation
import ParitrNode.BlockStore
import ParitrNode.Node
import ParitrNode.WireFormat
import ParitrNode.Scheduled
import ParitrNode.Library.KeyOrder

/-!
The database under block submission: what `active_chain` holds between any two
steps of a call, and what a node finds there when it is opened again.
-/

namespace ParitrNode
open ByteCodec OrderedMap Checked

variable [Crypto]

/-! The rows of the active chain. -/

def Chain.Positioned (chain : Chain) : Prop :=
  ∀ (index : Nat) (block : Block), chain.blocks[index]? = some block →
    block.header.height.toNat = index

theorem Chain.Positioned.rows {chain : Chain} (positioned : chain.Positioned) :
    (chain.blocks.map fun block => (block.header.height, block.id)) =
      (chain.blocks.map Block.id).mapIdx fun index id => (UInt64.ofNat index, id) := by
  apply List.ext_getElem?
  intro index
  rw [List.getElem?_mapIdx, List.getElem?_map, List.getElem?_map]
  cases stored : chain.blocks[index]? with
  | none => rfl
  | some block =>
    have height := positioned index block stored
    simp only [Option.map_some, ← height, UInt64.ofNat_toNat]

theorem Block.header_of_encode {first second : Block}
    (same : first.consensusEncode = second.consensusEncode) : first.header = second.header := by
  have parts := (List.append_inj same (by rw [BlockHeader.consensusEncode_length,
    BlockHeader.consensusEncode_length])).1
  exact (Separates.ofReads BlockHeader.decodeFrom recodes_header.reads).injective trivial trivial parts

theorem Block.id_of_encode {first second : Block}
    (same : first.consensusEncode = second.consensusEncode) : first.id = second.id := by
  unfold Block.id
  rw [header_of_encode same]

theorem Block.consensusDecode_exact {data : Bytes} {block : Block}
    (decoded : Block.consensusDecode data = .ok block) : block.consensusEncode = data := by
  obtain ⟨_, ran⟩ := consensusDecode_ok decoded
  have same := (recodes_block.exact _ _ _ ran).2
  rw [List.append_nil] at same
  exact same.symm

theorem StoredBlock.load_ok {row : StoredBlock} {block : Block} (loaded : row.load = .ok block) :
    block.consensusEncode = row.data := by
  unfold StoredBlock.load at loaded
  split at loaded
  next decoded =>
    cases loaded
    exact Block.consensusDecode_exact decoded
  next => cases loaded

namespace Storage

/-- Each row of `blocks` is the encoding of a block with the row's hash. -/
def Encoded (storage : Storage) : Prop :=
  ∀ (id : Hash32) (row : StoredBlock), storage.blocks[id]? = some row →
    ∃ block : Block, block.id = id ∧ row.data = block.consensusEncode

/-- The table `active_chain` is this chain, in order and complete. -/
structure Persists (storage : Storage) (chain : Chain) : Prop where
  positioned : chain.Positioned
  distinct : (chain.blocks.map Block.id).Nodup
  rows : storage.activeChain.toList =
    chain.blocks.map fun block => (block.header.height, block.id)
  records : ∀ block ∈ chain.blocks, (storage.blocks[block.id]?).isSome
  encoded : storage.Encoded

theorem insertBlock_ok {storage next : Storage} {block : Block} {now : UInt64}
    (inserted : storage.insertBlock block now = .ok next) :
    next.activeChain = storage.activeChain ∧ (next.blocks[block.id]?).isSome ∧
      (∀ id : Hash32, (storage.blocks[id]?).isSome → (next.blocks[id]?).isSome) ∧
      (storage.Encoded → next.Encoded) := by
  unfold insertBlock at inserted
  split at inserted
  next => cases inserted
  next =>
    split at inserted
    next present =>
      cases inserted
      exact ⟨rfl, present, fun _ old => old, fun encoded => encoded⟩
    next =>
      cases inserted
      refine ⟨rfl, ?_, fun id old => ?_, fun encoded id row => ?_⟩
      · change ((storage.blocks.insert block.id _)[block.id]?).isSome = true
        rw [get_insert_self]
        rfl
      · change ((storage.blocks.insert block.id _)[id]?).isSome = true
        rw [get_insert]
        split
        · rfl
        · exact old
      · change (storage.blocks.insert block.id _)[id]? = some row → _
        rw [get_insert]
        split
        next same =>
          intro stored
          cases stored
          exact ⟨block, same, rfl⟩
        next => exact encoded id row

theorem insertBlocks_ok {blocks : List Block} {storage next : Storage} {now : UInt64}
    (inserted : blocks.foldlM (fun storage block => storage.insertBlock block now) storage = .ok next) :
    (∀ block ∈ blocks, (next.blocks[block.id]?).isSome) ∧
      (∀ id : Hash32, (storage.blocks[id]?).isSome → (next.blocks[id]?).isSome) ∧
      (storage.Encoded → next.Encoded) := by
  induction blocks generalizing storage with
  | nil =>
    cases inserted
    exact ⟨fun block member => (nomatch member), fun _ old => old, fun encoded => encoded⟩
  | cons block rest ih =>
    rw [List.foldlM_cons, bind_ok] at inserted
    obtain ⟨middle, first, later⟩ := inserted
    obtain ⟨_, own, kept, encodes⟩ := insertBlock_ok first
    obtain ⟨others, keeps, encodesRest⟩ := ih later
    refine ⟨fun other member => ?_, fun id old => keeps id (kept id old),
      fun encoded => encodesRest (encodes encoded)⟩
    rcases List.mem_cons.mp member with same | inside
    · rw [same]
      exact keeps block.id own
    · exact others other inside

theorem insertActives_rows {blocks : List Block} {storage next : Storage}
    (inserted : blocks.foldlM insertActive storage = .ok next) :
    next.blocks = storage.blocks ∧
      (∀ (height : UInt64) (id : Hash32), next.activeChain[height]? = some id ↔
        storage.activeChain[height]? = some id ∨
          ∃ block ∈ blocks, block.header.height = height ∧ block.id = id) ∧
      (blocks.map fun block => block.header.height).Nodup ∧ (blocks.map Block.id).Nodup ∧
      (∀ block ∈ blocks, storage.activeChain[block.header.height]? = none) ∧
      ∀ block ∈ blocks, ∀ height : UInt64, storage.activeChain[height]? ≠ some block.id := by
  induction blocks generalizing storage with
  | nil =>
    cases inserted
    exact ⟨rfl, fun _ _ => by simp, List.nodup_nil, List.nodup_nil, fun _ member => (nomatch member),
      fun _ member => (nomatch member)⟩
  | cons block rest ih =>
    rw [List.foldlM_cons, bind_ok] at inserted
    obtain ⟨middle, first, later⟩ := inserted
    obtain ⟨same, rows, heights, ids, noHeight, noId⟩ := ih later
    unfold insertActive at first
    simp only [guard_ok] at first
    obtain ⟨_, vacant, fresh, stored⟩ := first
    cases stored
    have free : storage.activeChain[block.header.height]? = none := by simpa using vacant
    have unseen : ∀ height : UInt64, storage.activeChain[height]? ≠ some block.id := by
      intro height present
      apply fresh
      rw [List.any_eq_true]
      exact ⟨(height, block.id), mem_toList.mpr present, decide_eq_true rfl⟩
    have written : ∀ (height : UInt64) (id : Hash32),
        (storage.activeChain.insert block.header.height block.id)[height]? = some id ↔
          storage.activeChain[height]? = some id ∨ (block.header.height = height ∧ block.id = id) := by
      intro height id
      rw [get_insert]
      by_cases here : block.header.height = height
      · rw [if_pos here, ← here, free]
        simp
      · rw [if_neg here]
        simp [here]
    refine ⟨same, fun height id => ?_, ?_, ?_, ?_, ?_⟩
    · rw [rows]
      change (storage.activeChain.insert block.header.height block.id)[height]? = some id ∨ _ ↔ _
      rw [written, or_assoc]
      simp only [List.mem_cons, exists_eq_or_imp]
    · rw [List.map_cons, List.nodup_cons]
      refine ⟨fun listed => ?_, heights⟩
      obtain ⟨other, member, equal⟩ := List.mem_map.mp listed
      have absent := noHeight other member
      change (storage.activeChain.insert block.header.height block.id)[other.header.height]? = none at absent
      rw [equal, get_insert_self] at absent
      cases absent
    · rw [List.map_cons, List.nodup_cons]
      refine ⟨fun listed => ?_, ids⟩
      obtain ⟨other, member, equal⟩ := List.mem_map.mp listed
      apply noId other member block.header.height
      change (storage.activeChain.insert block.header.height block.id)[block.header.height]? = _
      rw [get_insert_self, equal]
    · intro other member
      rcases List.mem_cons.mp member with equal | inside
      · rw [equal]
        exact free
      · have absent := noHeight other inside
        change (storage.activeChain.insert block.header.height block.id)[other.header.height]? = none at absent
        rw [get_insert] at absent
        split at absent
        · cases absent
        · exact absent
    · intro other member height present
      rcases List.mem_cons.mp member with equal | inside
      · rw [equal] at present
        exact unseen height present
      · exact noId other inside height ((written height other.id).mpr (Or.inl present))

theorem saveChain_ok {storage next : Storage} {chain : Chain} {disk : Disk} {now : UInt64}
    (saved : storage.saveChain chain disk now = .ok next) :
    (chain.blocks.map fun block => block.header.height).Nodup ∧
      (chain.Positioned → storage.Encoded → next.Persists chain) := by
  unfold saveChain at saved
  split at saved
  next => cases saved
  next =>
    simp only [bind_ok, guard_ok] at saved
    obtain ⟨stored, inserted, indexed, filled, _, result⟩ := saved
    cases result
    obtain ⟨own, _, encodes⟩ := insertBlocks_ok inserted
    obtain ⟨same, rows, heights, ids, _⟩ := insertActives_rows filled
    refine ⟨heights, fun positions encoded =>
      ⟨positions, ids, ?_, fun block member => ?_, fun id row found => ?_⟩⟩
    · change indexed.activeChain.toList = _
      have sorted : KeyOrder.Increasing Prod.fst indexed.activeChain.toList :=
        Std.ExtTreeMap.ordered_keys_toList
      have listed : KeyOrder.Increasing Prod.fst
          (chain.blocks.map fun block => (block.header.height, block.id)) := by
        unfold KeyOrder.Increasing
        rw [List.pairwise_map, List.pairwise_iff_getElem]
        intro first second inside bound before
        have left := positions first _ (List.getElem?_eq_getElem inside)
        have right := positions second _ (List.getElem?_eq_getElem bound)
        apply Std.compare_eq_lt.mpr
        apply UInt64.lt_iff_toNat_lt.mpr
        change chain.blocks[first].header.height.toNat < chain.blocks[second].header.height.toNat
        omega
      apply sorted.ext listed
      intro (height, id)
      rw [mem_toList, rows, List.mem_map]
      have none : ({ stored with activeChain := ∅ } : Storage).activeChain[height]? = none :=
        get_empty height
      rw [none]
      simp only [reduceCtorEq, false_or, Prod.mk.injEq]
    · change (indexed.blocks[block.id]?).isSome = true
      rw [same]
      exact own block member
    · apply encodes encoded id row
      rw [← found]
      change stored.blocks[id]? = indexed.blocks[id]?
      rw [same]

theorem storeSideBlock_ok {storage next : Storage} {block : Block} {disk : Disk} {now : UInt64}
    (stored : storage.storeSideBlock block disk now = .ok next) {chain : Chain}
    (persists : storage.Persists chain) : next.Persists chain := by
  unfold storeSideBlock at stored
  split at stored
  next => cases stored
  next =>
    obtain ⟨same, _, kept, encodes⟩ := insertBlock_ok stored
    refine ⟨persists.positioned, persists.distinct, ?_, fun other member =>
      kept other.id (persists.records other member), encodes persists.encoded⟩
    rw [same]
    exact persists.rows

theorem Encoded.load {storage : Storage} (encoded : storage.Encoded) {id : Hash32} {row : StoredBlock}
    (found : storage.blocks[id]? = some row) {block : Block} (loaded : row.load = .ok block) :
    block.id = id := by
  obtain ⟨written, same, data⟩ := encoded id row found
  rw [← same]
  apply Block.id_of_encode
  rw [StoredBlock.load_ok loaded, data]

theorem load_rows {storage : Storage} (encoded : storage.Encoded) {blocks loaded : List Block}
    (records : ∀ block ∈ blocks, (storage.blocks[block.id]?).isSome)
    (loads : (blocks.filterMap fun block => storage.blocks[block.id]?).mapM StoredBlock.load =
      .ok loaded) : loaded.map Block.id = blocks.map Block.id := by
  induction blocks generalizing loaded with
  | nil =>
    cases loads
    rfl
  | cons block rest ih =>
    obtain ⟨row, found⟩ := Option.isSome_iff_exists.mp (records block List.mem_cons_self)
    simp only [List.filterMap_cons, found, List.mapM_cons, bind_ok] at loads
    obtain ⟨first, load, later, others, result⟩ := loads
    cases result
    have ids := ih (fun other member => records other (List.mem_cons_of_mem _ member)) others
    rw [List.map_cons, List.map_cons, encoded.load found load, ids]

theorem Persists.loads {storage : Storage} {chain : Chain} (persists : storage.Persists chain)
    {loaded : List Block} (loads : storage.loadActiveBlocks = .ok loaded) :
    loaded.map Block.id = chain.blocks.map Block.id := by
  unfold loadActiveBlocks at loads
  rw [persists.rows, List.filterMap_map] at loads
  exact load_rows persists.encoded persists.records loads

end Storage

/-! Where a block goes. -/

theorem replay_genesis {pow : PowVerifier} {now : UInt64} {done rest : List Block}
    {state final : LedgerState} (replayed : Chain.replay pow now done state rest = .ok final) :
    ∀ block ∈ rest, block.header.height = 0 → block = Block.genesis := by
  induction rest generalizing done state with
  | nil => exact fun _ member => (nomatch member)
  | cons first rest ih =>
    obtain ⟨next, accepted, later⟩ := bind_ok.mp replayed
    intro block member zero
    rcases List.mem_cons.mp member with same | inside
    · rw [same] at zero ⊢
      exact ((validateBlock_zero_iff zero).mp accepted).1
    · exact ih later block inside zero

theorem fromBlocks_positioned {blocks : List Block} {pow : PowVerifier} {now : UInt64} {chain : Chain}
    (accepted : Chain.fromBlocks blocks pow now = .ok chain)
    (above : ∀ block ∈ blocks.tail, block.header.height ≠ 0) : chain.Positioned :=
  fun index block stored => ((fromBlocks_valid accepted above).linked index block stored).height

/-- With different heights, or with different ids, no later block is a second genesis. -/
theorem fromBlocks_above {blocks : List Block} {pow : PowVerifier} {now : UInt64} {chain : Chain}
    (accepted : Chain.fromBlocks blocks pow now = .ok chain)
    (apart : (blocks.map fun block => block.header.height).Nodup ∨ (blocks.map Block.id).Nodup) :
    ∀ block ∈ blocks.tail, block.header.height ≠ 0 := by
  obtain ⟨rest, shape, _, replayed, _⟩ := fromBlocks_ok_iff.mp accepted
  rw [shape, List.map_cons, List.map_cons, List.nodup_cons, List.nodup_cons] at apart
  intro block member zero
  rw [shape] at member
  rcases apart with ⟨heights, _⟩ | ⟨ids, _⟩
  · exact heights (List.mem_map.mpr ⟨block, member, zero⟩)
  · apply ids
    rw [← replay_genesis replayed block member zero]
    exact List.mem_map_of_mem member

theorem append_positioned {chain next : Chain} {block : Block} {pow : PowVerifier} {now : UInt64}
    {event : ChainEvent} (positioned : chain.Positioned)
    (appended : chain.append block pow now = .ok (event, next))
    (heights : (next.blocks.map fun block => block.header.height).Nodup) : next.Positioned := by
  rcases append_ok appended with ⟨_, same, _⟩ | ⟨_, _, _, blocks, accepted, _⟩
  · rw [same]
    exact positioned
  · have nonempty := List.length_pos_iff.mpr chain.nonempty
    have last := List.getLast?_eq_getLast_of_ne_nil chain.nonempty
    have first := positioned 0 _ (List.getElem?_eq_getElem nonempty)
    -- a second block of height zero would share its height with the first
    have above : block.header.height ≠ 0 := by
      intro zero
      rw [blocks, List.map_append, List.nodup_append] at heights
      apply heights.2.2 chain.blocks[0].header.height
        (List.mem_map.mpr ⟨_, List.getElem_mem nonempty, rfl⟩) block.header.height
        (List.mem_map.mpr ⟨block, List.mem_singleton_self block, rfl⟩)
      exact UInt64.toNat_inj.mp (first.trans (congrArg UInt64.toNat zero).symm)
    obtain ⟨parent, found, follows⟩ := ((validateBlock_ok_iff above).mp accepted).follows
    have tip : parent.header.height.toNat = chain.blocks.length - 1 := by
      rw [List.getLast?_eq_getElem?] at found
      exact positioned _ _ found
    have height := height_succ follows.height above
    intro index other stored
    rw [blocks] at stored
    by_cases old : index < chain.blocks.length
    · rw [List.getElem?_append_left old] at stored
      exact positioned index other stored
    · have bound := (List.getElem?_eq_some_iff.mp stored).1
      rw [List.length_append, List.length_singleton] at bound
      obtain rfl : index = chain.blocks.length := by omega
      rw [List.getElem?_concat_length] at stored
      rw [← Option.some.inj stored]
      omega

/-- A candidate of the call: the live chain again, or a chain that takes its place. -/
theorem placeBlock_ok {node : Node} {env : NodeEnv} {block : Block} {event : ChainEvent}
    {candidate : Chain} (placed : node.placeBlock env block = .ok (event, candidate))
    (positioned : node.chain.Positioned) :
    (candidate.blocks.map fun block => block.header.height).Nodup → candidate.Positioned := by
  intro heights
  unfold Node.placeBlock at placed
  split at placed
  next => exact append_positioned positioned placed heights
  next =>
    rw [bind_ok] at placed
    obtain ⟨blocks, _, considered⟩ := placed
    unfold Chain.considerChain at considered
    simp only [guard_ok, bind_ok] at considered
    obtain ⟨_, validated, accepted, decided⟩ := considered
    split at decided
    next =>
      cases decided
      obtain ⟨_, _, same, _⟩ := fromBlocks_ok_iff.mp accepted
      rw [same] at heights
      exact fromBlocks_positioned accepted (fromBlocks_above accepted (Or.inl heights))
    next =>
      cases decided
      exact positioned

/-! A node that stops and is opened again. -/

namespace Node

theorem openFresh_ok {now : UInt64} (clock : fitsI64 now) (miner : Option Address) :
    ∃ node, openFresh Disk.reliable now miner = .ok node := by
  have valid : ValidHistory ⟨fun _ _ => .error ""⟩ Chain.genesis.blocks Chain.genesis.state := .genesis
  have short : Chain.genesis.blocks.length ≤ 2 ^ 63 := of_decide_eq_true rfl
  have works : Disk.reliable.saveChain = none := rfl
  obtain ⟨saved, commits⟩ := (default : Storage).saveChain_succeeds works clock valid short
    (List.nodup_singleton _)
  unfold openFresh
  rw [commits]
  exact ⟨_, rfl⟩

theorem openFresh_persists {disk : Disk} {now : UInt64} {miner : Option Address} {node : Node}
    (opened : openFresh disk now miner = .ok node) : node.storage.Persists node.chain := by
  obtain ⟨storage, saved, result⟩ := bind_ok.mp opened
  cases result
  apply (Storage.saveChain_ok saved).2
  · intro index block stored
    cases index with
    | zero =>
      cases stored
      rfl
    | succ index => cases stored
  · intro id row found
    rw [show (default : Storage).blocks[id]? = none from get_empty id] at found
    cases found

/-- The chain of the reopened node has the ids that were written. -/
theorem reopen_persists {storage : Storage} {disk : Disk} {pow : PowVerifier} {now : UInt64}
    {miner : Option Address} {chain : Chain} {node : Node} (persists : storage.Persists chain)
    (opened : reopen storage disk pow now miner = .ok node) :
    node.storage.Persists node.chain := by
  unfold reopen at opened
  obtain ⟨stored, listed, later⟩ := bind_ok.mp opened
  have ids := persists.loads listed
  cases stored with
  | nil => exact absurd (List.map_eq_nil_iff.mp ids.symm) chain.nonempty
  | cons first rest =>
    dsimp only at later
    cases accepted : Chain.fromBlocks (first :: rest) pow now with
    | error reason =>
      rw [accepted] at later
      cases later
    | ok reopened =>
      rw [accepted] at later
      cases later
      obtain ⟨_, _, same, _⟩ := fromBlocks_ok_iff.mp accepted
      rw [← same] at ids
      have distinct : (reopened.blocks.map Block.id).Nodup := ids ▸ persists.distinct
      have positioned : reopened.Positioned := by
        apply fromBlocks_positioned accepted
        apply fromBlocks_above accepted
        rw [← same]
        exact Or.inr distinct
      refine ⟨positioned, distinct, ?_, fun block member => ?_, persists.encoded⟩
      · change storage.activeChain.toList = reopened.blocks.map _
        rw [persists.rows, persists.positioned.rows, positioned.rows, ids]
      · have listed := List.mem_map_of_mem (f := Block.id) member
        rw [ids] at listed
        obtain ⟨other, inside, equal⟩ := List.mem_map.mp listed
        rw [← equal]
        exact persists.records other inside

end Node

/-! The steps of one call. -/

/-- Where a call of `submit_block` can be stopped. -/
inductive Stage where
  | entered
  /-- The block record is committed; the call holds an event and a candidate. -/
  | recorded (storage : Storage) (event : ChainEvent) (candidate : Chain)
  /-- The candidate is committed; nothing in memory has changed. -/
  | saved (storage : Storage) (event : ChainEvent) (candidate : Chain)
  | returned (result : Except ConsensusError ChainEvent) (after : Node)

def Stage.storage (node : Node) : Stage → Storage
  | .entered => node.storage
  | .recorded storage _ _ => storage
  | .saved storage _ _ => storage
  | .returned _ after => after.storage

def ChainEvent.Activates : ChainEvent → Prop
  | .extended _ _ => True
  | .reorganized _ _ _ => True
  | .known => False
  | .sideChain => False

/-- One step of `submit_block`: a check, or one transaction, which commits or fails. -/
inductive SubmitStep (node : Node) (env : NodeEnv) (block : Block) : Stage → Stage → Prop where
  | known (present : (node.chain.blockByHash block.id).isSome) :
      SubmitStep node env block .entered (.returned (.ok .known) node)
  | refused {error : ConsensusError} (unknown : ¬(node.chain.blockByHash block.id).isSome)
      (placed : node.placeBlock env block = .error error) :
      SubmitStep node env block .entered (.returned (.error error) node)
  | unrecorded {event : ChainEvent} {candidate : Chain} {reason : String}
      (unknown : ¬(node.chain.blockByHash block.id).isSome)
      (placed : node.placeBlock env block = .ok (event, candidate))
      (failed : node.storage.storeSideBlock block env.disk env.now = .error reason) :
      SubmitStep node env block .entered (.returned (.error (Node.storageError reason)) node)
  | record {event : ChainEvent} {candidate : Chain} {storage : Storage}
      (unknown : ¬(node.chain.blockByHash block.id).isSome)
      (placed : node.placeBlock env block = .ok (event, candidate))
      (stored : node.storage.storeSideBlock block env.disk env.now = .ok storage) :
      SubmitStep node env block .entered (.recorded storage event candidate)
  | settle {event : ChainEvent} {candidate : Chain} {storage : Storage} (quiet : ¬event.Activates) :
      SubmitStep node env block (.recorded storage event candidate)
        (.returned (.ok event) { node with storage })
  | unsaved {event : ChainEvent} {candidate : Chain} {storage : Storage} {reason : String}
      (active : event.Activates)
      (failed : storage.saveChain candidate env.disk env.now = .error reason) :
      SubmitStep node env block (.recorded storage event candidate)
        (.returned (.error (Node.storageError reason)) { node with storage })
  | save {event : ChainEvent} {candidate : Chain} {storage saved : Storage} (active : event.Activates)
      (stored : storage.saveChain candidate env.disk env.now = .ok saved) :
      SubmitStep node env block (.recorded storage event candidate) (.saved saved event candidate)
  | activate {event : ChainEvent} {candidate : Chain} {storage : Storage} :
      SubmitStep node env block (.saved storage event candidate)
        (.returned (.ok event) ({ node with storage }.activate env block event candidate))

def Reached (node : Node) (env : NodeEnv) (block : Block) : Stage → Prop :=
  Relation.ReflTransGen (SubmitStep node env block) .entered

structure Recorded (node : Node) (env : NodeEnv) (block : Block) (storage : Storage) (event : ChainEvent)
    (candidate : Chain) : Prop where
  unknown : ¬(node.chain.blockByHash block.id).isSome
  placed : node.placeBlock env block = .ok (event, candidate)
  stored : node.storage.storeSideBlock block env.disk env.now = .ok storage

def Stage.Knows (node : Node) (env : NodeEnv) (block : Block) : Stage → Prop
  | .entered => True
  | .recorded storage event candidate => Recorded node env block storage event candidate
  | .saved storage event candidate => event.Activates ∧ ∃ earlier,
    Recorded node env block earlier event candidate ∧
      earlier.saveChain candidate env.disk env.now = .ok storage
  | .returned result after => node.submitBlock env block = (result, after)

section
variable {node : Node} {env : NodeEnv} {block : Block}

theorem SubmitStep.knows {stage next : Stage} (step : SubmitStep node env block stage next)
    (known : stage.Knows node env block) : next.Knows node env block := by
  cases step with
  | known present =>
    change node.submitBlock env block = _
    rw [Node.submitBlock, if_pos present]
  | refused unknown placed =>
    change node.submitBlock env block = _
    rw [Node.submitBlock, if_neg unknown, placed]
  | unrecorded unknown placed failed =>
    change node.submitBlock env block = _
    simp only [Node.submitBlock, if_neg unknown, placed, failed]
  | record unknown placed stored => exact ⟨unknown, placed, stored⟩
  | settle quiet =>
    rename_i event _ _
    have ⟨unknown, placed, stored⟩ : Recorded node env block _ _ _ := known
    change node.submitBlock env block = _
    simp only [Node.submitBlock, if_neg unknown, placed, stored]
    cases event with
    | known => rfl
    | sideChain => rfl
    | extended _ _ => exact absurd trivial quiet
    | reorganized _ _ _ => exact absurd trivial quiet
  | unsaved active failed =>
    rename_i event _ _ _
    have ⟨unknown, placed, stored⟩ : Recorded node env block _ _ _ := known
    change node.submitBlock env block = _
    simp only [Node.submitBlock, if_neg unknown, placed, stored, failed]
    cases event with
    | known => cases active
    | sideChain => cases active
    | extended _ _ => rfl
    | reorganized _ _ _ => rfl
  | save active saved => exact ⟨active, _, known, saved⟩
  | activate =>
    rename_i event _ _
    obtain ⟨active, _, ⟨unknown, placed, stored⟩, saved⟩ := known
    change node.submitBlock env block = _
    simp only [Node.submitBlock, if_neg unknown, placed, stored, saved]
    cases event with
    | known => cases active
    | sideChain => cases active
    | extended _ _ => rfl
    | reorganized _ _ _ => rfl

theorem Reached.knows {stage : Stage} (reached : Reached node env block stage) :
    stage.Knows node env block := by
  induction reached with
  | refl => trivial
  | tail _ step ih => exact step.knows ih

theorem submitBlock_reached (node : Node) (env : NodeEnv) (block : Block) :
    ∃ result after, Reached node env block (.returned result after) := by
  by_cases known : (node.chain.blockByHash block.id).isSome
  · exact ⟨_, _, .single (.known known)⟩
  · cases placed : node.placeBlock env block with
    | error error => exact ⟨_, _, .single (.refused known placed)⟩
    | ok found =>
      obtain ⟨event, candidate⟩ := found
      cases stored : node.storage.storeSideBlock block env.disk env.now with
      | error reason => exact ⟨_, _, .single (.unrecorded known placed stored)⟩
      | ok storage =>
        have recorded : Reached node env block (.recorded storage event candidate) :=
          .single (.record known placed stored)
        by_cases active : event.Activates
        · cases saved : storage.saveChain candidate env.disk env.now with
          | error reason => exact ⟨_, _, recorded.tail (.unsaved active saved)⟩
          | ok next => exact ⟨_, _, (recorded.tail (.save active saved)).tail .activate⟩
        · exact ⟨_, _, recorded.tail (.settle active)⟩

theorem SubmitStep.unchanged {stage : Stage} {error : ConsensusError} {after : Node}
    (step : SubmitStep node env block stage (.returned (.error error) after)) :
    after = { node with storage := after.storage } := by
  cases step with
  | refused _ _ => rfl
  | unrecorded _ _ _ => rfl
  | unsaved _ _ => rfl

theorem submitBlock_active {event : ChainEvent} {after : Node}
    (submitted : node.submitBlock env block = (.ok event, after)) (active : event.Activates) :
    ∃ storage candidate saved, Recorded node env block storage event candidate ∧
      storage.saveChain candidate env.disk env.now = .ok saved ∧
      after = { node with storage := saved }.activate env block event candidate := by
  obtain ⟨result, other, reached⟩ := submitBlock_reached node env block
  have returned : node.submitBlock env block = (result, other) := reached.knows
  rw [submitted] at returned
  cases returned
  cases reached with
  | tail earlier step =>
    have known := Reached.knows earlier
    cases step with
    | known _ => exact absurd active id
    | settle quiet => exact absurd active quiet
    | activate =>
      obtain ⟨_, storage, recorded, saved⟩ := known
      exact ⟨storage, _, _, recorded, saved, rfl⟩

/-- An extension of the chain is adopted where the disk works. -/
theorem submitBlock_appended {grown : Chain} (valid : ValidHistory env.pow node.chain.blocks node.chain.state)
    (distinct : (node.chain.blocks.map Block.id).Nodup)
    (appended : node.chain.append block env.pow env.now =
      .ok (.extended block.id block.header.height, grown))
    (short : grown.blocks.length ≤ 2 ^ 63) (clock : fitsI64 env.now) (reliable : env.disk = Disk.reliable) :
    ∃ stored saved, Recorded node env block stored (.extended block.id block.header.height) grown ∧
      stored.saveChain grown env.disk env.now = .ok saved ∧
      node.submitBlock env block = (.ok (.extended block.id block.header.height),
        { node with storage := saved }.activate env block (.extended block.id block.header.height) grown) := by
  have extended := valid.append appended
  rcases append_ok appended with ⟨known, _⟩ | ⟨_, absent, parent, blocks, _⟩
  · cases known
  · have unknown : ¬(node.chain.blockByHash block.id).isSome := by
      rw [absent]
      decide
    have placed : node.placeBlock env block =
        .ok (.extended block.id block.header.height, grown) := (if_pos parent).trans appended
    have fits : fitsI64 block.header.height := by
      apply extended.heights_fit short
      rw [blocks]
      exact List.mem_append_right _ (List.mem_singleton_self block)
    obtain ⟨stored, inserted⟩ := node.storage.insertBlock_succeeds fits clock
    have recorded : node.storage.storeSideBlock block env.disk env.now = .ok stored := by
      rw [reliable]
      exact inserted
    have works : env.disk.saveChain = none := by
      rw [reliable]
      rfl
    obtain ⟨saved, commits⟩ :=
      stored.saveChain_succeeds works clock extended short (append_distinct distinct appended)
    refine ⟨stored, saved, ⟨unknown, placed, recorded⟩, commits, ?_⟩
    simp only [Node.submitBlock, if_neg unknown, placed, recorded, commits]

/-! The invariant of the tables. -/

theorem Recorded.persists {storage : Storage} {event : ChainEvent} {candidate : Chain}
    (recorded : Recorded node env block storage event candidate)
    (persists : node.storage.Persists node.chain) : storage.Persists node.chain :=
  Storage.storeSideBlock_ok recorded.stored persists

theorem Recorded.saved_persists {storage next : Storage} {event : ChainEvent} {candidate : Chain}
    (recorded : Recorded node env block storage event candidate)
    (persists : node.storage.Persists node.chain)
    (saved : storage.saveChain candidate env.disk env.now = .ok next) : next.Persists candidate := by
  obtain ⟨heights, written⟩ := Storage.saveChain_ok saved
  apply written
  · exact placeBlock_ok recorded.placed persists.positioned heights
  · exact (recorded.persists persists).encoded

def Stage.chain (node : Node) : Stage → Chain
  | .entered => node.chain
  | .recorded _ _ _ => node.chain
  | .saved _ _ candidate => candidate
  | .returned _ after => after.chain

theorem SubmitStep.persists {stage next : Stage} (step : SubmitStep node env block stage next)
    (known : stage.Knows node env block) (persists : node.storage.Persists node.chain)
    (held : (stage.storage node).Persists (stage.chain node)) :
    (next.storage node).Persists (next.chain node) := by
  cases step with
  | known _ => exact persists
  | refused _ _ => exact persists
  | unrecorded _ _ _ => exact persists
  | record unknown placed stored => exact Recorded.persists ⟨unknown, placed, stored⟩ persists
  | settle _ => exact held
  | unsaved _ _ => exact held
  | save _ saved => exact Recorded.saved_persists known persists saved
  | activate => exact held

theorem Reached.persists {stage : Stage} (reached : Reached node env block stage)
    (persists : node.storage.Persists node.chain) :
    (stage.storage node).Persists (stage.chain node) := by
  induction reached with
  | refl => exact persists
  | tail earlier step ih => exact step.persists (Reached.knows earlier) persists ih

/-- The chain in the tables is the one before the call or the one after it. -/
theorem Reached.chain {stage : Stage} (reached : Reached node env block stage) :
    stage.chain node = node.chain ∨ stage.chain node = (node.submitBlock env block).2.chain := by
  have known := reached.knows
  cases stage with
  | entered => exact Or.inl rfl
  | recorded _ _ _ => exact Or.inl rfl
  | saved storage event candidate =>
    have step : SubmitStep node env block (.saved storage event candidate) _ := .activate
    have result : node.submitBlock env block = (_, _) := step.knows known
    rw [result]
    exact Or.inr rfl
  | returned result after =>
    have returned : node.submitBlock env block = (result, after) := known
    rw [returned]
    exact Or.inr rfl

end

namespace Node

/-- The nodes of a process that starts on an empty directory, is stopped at any
step of any call and opened again. Clocks, oracles and failures differ from call to call. -/
inductive Running : Node → Prop where
  | opened {node : Node} {disk : Disk} {now : UInt64} {miner : Option Address}
      (opened : openFresh disk now miner = .ok node) : Running node
  | submitted {node : Node} {env : NodeEnv} {block : Block} (running : Running node) :
      Running (node.submitBlock env block).2
  /-- Work that leaves the chain and these tables alone. -/
  | worked {node next : Node} (running : Running node) (storage : next.storage = node.storage)
      (chain : next.chain = node.chain) : Running next
  | recovered {node next : Node} {env : NodeEnv} {block : Block} {stage : Stage} {disk : Disk}
      {pow : PowVerifier} {now : UInt64} {miner : Option Address} (running : Running node)
      (stopped : Reached node env block stage)
      (opened : reopen (stage.storage node) disk pow now miner = .ok next) : Running next

theorem Running.persists {node : Node} (running : node.Running) :
    node.storage.Persists node.chain := by
  induction running with
  | opened opened => exact openFresh_persists opened
  | @submitted node env block _ ih =>
    obtain ⟨result, after, reached⟩ := submitBlock_reached node env block
    have returned : node.submitBlock env block = (result, after) := reached.knows
    rw [returned]
    exact reached.persists ih
  | worked _ storage chain ih => rwa [storage, chain]
  | recovered _ stopped opened ih => exact reopen_persists (stopped.persists ih) opened

/-- Wherever a call is stopped, `active_chain` is the chain before the call or
the chain after it; a call that fails changes nothing but the block table. -/
theorem no_half_applied_block {node : Node} (running : node.Running) (env : NodeEnv) (block : Block) :
    (∀ stage, Reached node env block stage →
      (stage.storage node).Persists node.chain ∨
        (stage.storage node).Persists (node.submitBlock env block).2.chain) ∧
    ∀ (error : ConsensusError) (after : Node), node.submitBlock env block = (.error error, after) →
      after.chain = node.chain ∧ after.mempool = node.mempool ∧
        after.workshares = node.workshares ∧ after.pendingWorkshares = node.pendingWorkshares ∧
        after.generation = node.generation ∧ after.storage.Persists after.chain := by
  constructor
  · intro stage reached
    have persists := reached.persists running.persists
    rcases reached.chain with before | later
    · exact Or.inl (before ▸ persists)
    · exact Or.inr (later ▸ persists)
  · intro error after failed
    obtain ⟨result, other, reached⟩ := submitBlock_reached node env block
    have returned : node.submitBlock env block = (result, other) := reached.knows
    rw [failed] at returned
    cases returned
    have persists := reached.persists running.persists
    cases reached with
    | tail _ step =>
      have same := step.unchanged
      rw [same]
      rw [same] at persists
      exact ⟨rfl, rfl, rfl, rfl, rfl, persists⟩

omit [Crypto] in
/-- The disk commits the record of a new block and then refuses to save the chain. -/
theorem no_half_applied_block_unsaved :
    ∃ (_ : Crypto) (node after : Node) (env : NodeEnv) (block : Block),
      openFresh Disk.reliable 0 none = .ok node ∧ env.disk.saveChain = some "disk full" ∧
      node.submitBlock env block = (.error (storageError "disk full"), after) ∧
      (after.storage.blocks[block.id]?).isSome = true ∧
      (∀ stage, Reached node env block stage →
        (stage.storage node).Persists node.chain ∨
          (stage.storage node).Persists (node.submitBlock env block).2.chain) ∧
      after.chain = node.chain ∧ after.mempool = node.mempool ∧
        after.workshares = node.workshares ∧ after.pendingWorkshares = node.pendingWorkshares ∧
        after.generation = node.generation ∧ after.storage.Persists after.chain := by
  let _ := labelled
  let env : NodeEnv := ⟨acceptAll, 1789000000, ⟨none, some "disk full", fun _ => none⟩, default⟩
  obtain ⟨node, opened⟩ := openFresh_ok (of_decide_eq_true rfl : fitsI64 0) none
  have ground : node.chain = Chain.genesis := by
    obtain ⟨storage, _, result⟩ := bind_ok.mp opened
    cases result
    rfl
  have start : ValidHistory acceptAll Chain.genesis.blocks Chain.genesis.state := .genesis
  obtain ⟨block, next, _, built, accepted⟩ := nextBlock_ok start
    onSchedule_genesis (show 1 ≤ 2 ^ 32 by decide) LedgerState.addressMin 0
  have work : Chain.genesis.cumulativeWork = Chain.genesis.blocks.length * 16384 := by
    rw [genesis_work, targetWork_launch]
    exact (Nat.one_mul 16384).symm
  obtain ⟨grown, appended, _⟩ := Chain.Reachable.genesis.extends
    (fun _ _ same => (labelled_id_injective same).1) work (show 1 ≤ 2 ^ 32 by decide) built.height
    (built.previous Block.genesis rfl) built.bits
    (accepted env.now (acceptAll_lenient.at 0) (show 1788984000 + 1 * 64 ≤ 1789000000 by decide))
  rw [← ground] at appended
  have height : fitsI64 block.header.height := by
    have one : block.header.height.toNat = 1 := built.height
    unfold fitsI64
    omega
  obtain ⟨stored, inserted⟩ := node.storage.insertBlock_succeeds height
    (of_decide_eq_true rfl : fitsI64 env.now)
  rcases append_ok appended with ⟨known, _⟩ | ⟨_, absent, parent, _⟩
  · cases known
  · have unknown : ¬(node.chain.blockByHash block.id).isSome := by
      rw [absent]
      decide
    have placed : node.placeBlock env block =
        .ok (.extended block.id block.header.height, grown) := (if_pos parent).trans appended
    have recorded : node.storage.storeSideBlock block env.disk env.now = .ok stored := inserted
    have submitted : node.submitBlock env block =
        (.error (storageError "disk full"), { node with storage := stored }) := by
      simp only [submitBlock, if_neg unknown, placed, recorded]
      rfl
    obtain ⟨stages, fails⟩ := no_half_applied_block (.opened opened) env block
    exact ⟨labelled, node, _, env, block, opened, rfl, submitted, (Storage.insertBlock_ok inserted).2.1,
      stages, fails _ _ submitted⟩

end Node

end ParitrNode
