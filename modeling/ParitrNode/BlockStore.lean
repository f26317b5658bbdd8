import Mathlib.Data.Set.Insert
import ParitrNode.Storage
import ParitrNode.LinkedChain

/-!
The block table as a set of blocks: what insertion adds, what a lookup returns,
and that writing a chain whose blocks are all there changes no block row.
-/

namespace ParitrNode
open ByteCodec OrderedMap Checked

variable [Crypto]

namespace Storage

def Holds (storage : Storage) (blocks : Set Block) : Prop :=
  ∀ (id : Hash32) (data : Bytes), (storage.blocks[id]?).map StoredBlock.data = some data ↔
    ∃ block ∈ blocks, block.id = id ∧ block.consensusEncode = data

def Distinct (blocks : Set Block) : Prop :=
  ∀ first ∈ blocks, ∀ second ∈ blocks, first.id = second.id → first = second

theorem holds_default : Holds default ∅ := by
  intro id data
  rw [show (default : Storage).blocks[id]? = none from get_empty id]
  exact ⟨fun h => (nomatch h), fun ⟨_, inside, _⟩ => (nomatch inside)⟩

theorem Holds.isSome {storage : Storage} {blocks : Set Block} (holds : storage.Holds blocks)
    {block : Block} (member : block ∈ blocks) : (storage.blocks[block.id]?).isSome := by
  have row := (holds block.id block.consensusEncode).mpr ⟨block, member, rfl, rfl⟩
  obtain ⟨stored, found, -⟩ := Option.map_eq_some_iff.mp row
  rw [found]
  rfl

theorem Holds.isNone {storage : Storage} {blocks : Set Block} (holds : storage.Holds blocks)
    {id : Hash32} (absent : ∀ block ∈ blocks, block.id ≠ id) : storage.blocks[id]? = none := by
  cases found : storage.blocks[id]? with
  | none => rfl
  | some row =>
    obtain ⟨block, member, same, -⟩ := (holds id row.data).mp (by rw [found]; rfl)
    exact absurd same (absent block member)

theorem Holds.block {storage : Storage} {blocks : Set Block} {disk : Disk}
    (holds : storage.Holds blocks) (reliable : disk.block = fun _ => none) {block : Block}
    (member : block ∈ blocks)
    (decodes : Block.consensusDecode block.consensusEncode = .ok block) :
    storage.block block.id disk = .ok (some block) := by
  have row := (holds block.id block.consensusEncode).mpr ⟨block, member, rfl, rfl⟩
  obtain ⟨stored, found, data⟩ := Option.map_eq_some_iff.mp row
  unfold Storage.block
  simp only [reliable, found, data, decodes]

theorem Holds.block_none {storage : Storage} {blocks : Set Block} {disk : Disk}
    (holds : storage.Holds blocks) (reliable : disk.block = fun _ => none) {id : Hash32}
    (absent : ∀ block ∈ blocks, block.id ≠ id) : storage.block id disk = .ok none := by
  unfold Storage.block
  simp only [reliable, holds.isNone absent]

theorem insertBlock_holds {storage : Storage} {blocks : Set Block} {block : Block} {now : UInt64}
    (holds : storage.Holds blocks)
    (distinct : ∀ other ∈ blocks, other.id = block.id → other = block)
    (height : fitsI64 block.header.height) (clock : fitsI64 now) :
    ∃ next, storage.insertBlock block now = .ok next ∧ next.Holds (insert block blocks) := by
  unfold insertBlock
  rw [if_neg (by simp [height, clock])]
  by_cases present : (storage.blocks[block.id]?).isSome = true
  · rw [if_pos present]
    refine ⟨storage, rfl, ?_⟩
    -- a row under this id is the row of this block
    have inside : block ∈ blocks := by
      obtain ⟨row, found⟩ := Option.isSome_iff_exists.mp present
      obtain ⟨other, member, same, -⟩ := (holds block.id row.data).mp (by rw [found]; rfl)
      exact distinct other member same ▸ member
    rwa [Set.insert_eq_of_mem inside]
  · rw [if_neg present]
    refine ⟨_, rfl, ?_⟩
    intro id data
    change (((storage.blocks.insert block.id _)[id]?).map StoredBlock.data = some data) ↔ _
    rw [get_insert]
    by_cases here : block.id = id
    · rw [if_pos here]
      constructor
      · intro same
        exact ⟨block, Set.mem_insert _ _, here, Option.some.inj same⟩
      · intro ⟨other, member, same, encoded⟩
        cases member with
        | inl equal => exact congrArg some (equal ▸ encoded)
        | inr earlier =>
          have row := holds.isSome earlier
          rw [same, ← here] at row
          exact absurd row present
    · rw [if_neg here, holds]
      constructor
      · intro ⟨other, member, rest⟩
        exact ⟨other, Set.mem_insert_of_mem _ member, rest⟩
      · intro ⟨other, member, same, encoded⟩
        cases member with
        | inl equal => exact absurd (equal ▸ same) here
        | inr earlier => exact ⟨other, earlier, same, encoded⟩

theorem storeSideBlock_holds {storage : Storage} {blocks : Set Block} {block : Block} {disk : Disk}
    {now : UInt64} (holds : storage.Holds blocks) (reliable : disk.storeSideBlock = none)
    (distinct : ∀ other ∈ blocks, other.id = block.id → other = block)
    (height : fitsI64 block.header.height) (clock : fitsI64 now) :
    ∃ next, storage.storeSideBlock block disk now = .ok next ∧ next.Holds (insert block blocks) := by
  unfold storeSideBlock
  rw [reliable]
  exact insertBlock_holds holds distinct height clock

/-- Insertions of stored blocks change nothing. -/
theorem insertBlocks_stored {storage : Storage} {now : UInt64} (clock : fitsI64 now) :
    ∀ blocks : List Block, (∀ block ∈ blocks, fitsI64 block.header.height ∧
      (storage.blocks[block.id]?).isSome) →
      blocks.foldlM (fun storage block => storage.insertBlock block now) storage = .ok storage
  | [], _ => rfl
  | block :: rest, present => by
    obtain ⟨height, row⟩ := present block List.mem_cons_self
    have same : storage.insertBlock block now = .ok storage := by
      unfold insertBlock
      rw [if_neg (by simp [height, clock]), if_pos row]
    rw [List.foldlM_cons, same]
    exact insertBlocks_stored clock rest fun other member =>
      present other (List.mem_cons_of_mem block member)

theorem insertActives_ok (blocks : List Block) {storage : Storage}
    (heights : (blocks.map fun block => block.header.height).Nodup)
    (ids : (blocks.map Block.id).Nodup) (fits : ∀ block ∈ blocks, fitsI64 block.header.height)
    (freshHeights : ∀ block ∈ blocks, storage.activeChain[block.header.height]? = none)
    (freshIds : ∀ block ∈ blocks, ∀ row ∈ storage.activeChain.toList, row.2 ≠ block.id) :
    ∃ next, blocks.foldlM insertActive storage = .ok next ∧ next.blocks = storage.blocks := by
  induction blocks generalizing storage with
  | nil => exact ⟨storage, rfl, rfl⟩
  | cons block rest ih =>
    rw [List.map_cons, List.nodup_cons] at heights ids
    have here : storage.insertActive block = .ok { storage with
        activeChain := storage.activeChain.insert block.header.height block.id } := by
      unfold insertActive
      rw [if_neg (not_not_intro (fits block List.mem_cons_self)),
        freshHeights block List.mem_cons_self, if_neg (by decide), if_neg]
      rw [List.any_eq_true]
      intro ⟨row, member, same⟩
      exact freshIds block List.mem_cons_self row member (of_decide_eq_true same)
    rw [List.foldlM_cons, here]
    refine ih heights.2 ids.2 (fun other member => fits other (List.mem_cons_of_mem _ member)) ?_ ?_
    · intro other member
      change (storage.activeChain.insert block.header.height block.id)[other.header.height]? = none
      rw [get_insert, if_neg, freshHeights other (List.mem_cons_of_mem _ member)]
      intro same
      exact heights.1 (List.mem_map.mpr ⟨other, member, same.symm⟩)
    · intro other member row inside
      have found := mem_toList.mp (show (row.1, row.2) ∈ _ from inside)
      change (storage.activeChain.insert block.header.height block.id)[row.1]? = some row.2 at found
      rw [get_insert] at found
      split at found
      · intro same
        exact ids.1 (List.mem_map.mpr ⟨other, member, (Option.some.inj found).trans same |>.symm⟩)
      · exact freshIds other (List.mem_cons_of_mem _ member) row (mem_toList.mpr found)

end Storage

/-! How late a block can be. -/

/-- The latest a block can be while the clock still fits the column `received_at`. -/
def Dated (block : Block) : Prop :=
  block.header.timestamp.toNat < 2 ^ 63 + MAX_FUTURE_BLOCK_TIME.toNat

section

variable {pow : PowVerifier} {now : UInt64}

theorem dated_genesis : Dated Block.genesis :=
  show GENESIS_TIMESTAMP.toNat < 2 ^ 63 + MAX_FUTURE_BLOCK_TIME.toNat by decide

theorem validateBlock_dated {block : Block} {history : List Block} {state next : LedgerState}
    (accepted : validateBlock block history state pow now = .ok next) (clock : fitsI64 now) :
    Dated block := by
  by_cases ground : block.header.height = 0
  · rw [((validateBlock_zero_iff ground).mp accepted).1]
    exact dated_genesis
  · obtain ⟨_, _, follows⟩ := ((validateBlock_ok_iff ground).mp accepted).follows
    have soon := UInt64.le_iff_toNat_le.mp follows.notFuture
    have allowance : MAX_FUTURE_BLOCK_TIME.toNat = 300 := rfl
    unfold fitsI64 at clock
    rw [saturatingAdd_of_lt (by omega)] at soon
    unfold Dated
    omega

theorem replay_dated {done rest : List Block} {state final : LedgerState}
    (replayed : Chain.replay pow now done state rest = .ok final) (clock : fitsI64 now) :
    ∀ block ∈ rest, Dated block := by
  induction rest generalizing done state with
  | nil => exact List.forall_mem_nil _
  | cons first rest ih =>
    obtain ⟨next, accepted, after⟩ := bind_ok.mp replayed
    exact List.forall_mem_cons.mpr ⟨validateBlock_dated accepted clock, ih after⟩

theorem fromBlocks_dated {blocks : List Block} {chain : Chain}
    (accepted : Chain.fromBlocks blocks pow now = .ok chain) (clock : fitsI64 now) :
    ∀ block ∈ blocks, Dated block := by
  obtain ⟨rest, shape, _, replayed, _⟩ := fromBlocks_ok_iff.mp accepted
  rw [shape]
  exact List.forall_mem_cons.mpr ⟨dated_genesis, replay_dated replayed clock⟩

/-- Each block is later than the one before it. -/
theorem ValidHistory.length_le {history : List Block} {state : LedgerState}
    (valid : ValidHistory pow history state) (dated : ∀ block ∈ history, Dated block) :
    history.length ≤ 2 ^ 63 := by
  have positive := List.length_pos_iff.mpr valid.nonempty
  have first : history[0]? = some Block.genesis := by
    rw [← List.head?_eq_getElem?, valid.head]
  have place := List.getElem?_eq_getElem (show 0 + (history.length - 1) < history.length by omega)
  have elapsed := valid.timestamp_add first place
  have latest := dated _ (List.mem_of_getElem? place)
  unfold Dated at latest
  have allowance : MAX_FUTURE_BLOCK_TIME.toNat = 300 := rfl
  have start : Block.genesis.header.timestamp.toNat = 1788984000 := rfl
  omega

end

theorem ValidHistory.heights_nodup {pow : PowVerifier} {history : List Block} {state : LedgerState}
    (valid : ValidHistory pow history state) :
    (history.map fun block => block.header.height).Nodup := by
  rw [List.Nodup, List.pairwise_map, List.pairwise_iff_getElem]
  intro first second inside bound before same
  have left := (valid.linked first _ (List.getElem?_eq_getElem inside)).height
  have right := (valid.linked second _ (List.getElem?_eq_getElem bound)).height
  rw [same, right] at left
  omega

theorem ValidHistory.heights_fit {pow : PowVerifier} {history : List Block} {state : LedgerState}
    (valid : ValidHistory pow history state) (short : history.length ≤ 2 ^ 63) :
    ∀ block ∈ history, fitsI64 block.header.height := by
  intro block member
  obtain ⟨index, found⟩ := List.mem_iff_getElem?.mp member
  have bound := (List.getElem?_eq_some_iff.mp found).1
  unfold fitsI64
  rw [(valid.linked index block found).height]
  omega

namespace Storage

theorem saveChain_commits {storage stored indexed : Storage} {chain : Chain} {disk : Disk}
    {now : UInt64} (reliable : disk.saveChain = none)
    (written : chain.blocks.foldlM (fun (storage : Storage) block => storage.insertBlock block now)
      storage = .ok stored)
    (listed : chain.blocks.foldlM insertActive { stored with activeChain := ∅ } = .ok indexed)
    (tip : fitsI64 chain.height) (clock : fitsI64 now) :
    ∃ saved, storage.saveChain chain disk now = .ok saved ∧ saved.blocks = indexed.blocks := by
  let snapshot : StateSnapshot :=
    ⟨chain.tip.id, chain.state.root, chain.state.consensusEncode, now⟩
  let saved : Storage := pruneSnapshots { indexed with
    stateSnapshots := indexed.stateSnapshots.insert chain.height snapshot
    tip := some chain.tip.id }
  unfold saveChain
  rw [reliable]
  refine ⟨saved, bind_ok.mpr ⟨stored, written, bind_ok.mpr ⟨indexed, listed, ?_⟩⟩, rfl⟩
  rw [if_neg (not_or.mpr ⟨not_not_intro tip, not_not_intro clock⟩)]
  rfl

theorem saveChain_inserted {storage stored : Storage} {chain : Chain} {disk : Disk} {now : UInt64}
    {pow : PowVerifier} (reliable : disk.saveChain = none) (clock : fitsI64 now)
    (valid : ValidHistory pow chain.blocks chain.state) (short : chain.blocks.length ≤ 2 ^ 63)
    (ids : (chain.blocks.map Block.id).Nodup)
    (written : chain.blocks.foldlM (fun (storage : Storage) block => storage.insertBlock block now)
      storage = .ok stored) :
    ∃ saved, storage.saveChain chain disk now = .ok saved ∧ saved.blocks = stored.blocks := by
  have fits := valid.heights_fit short
  let cleared : Storage := { stored with activeChain := ∅ }
  have noHeights : ∀ block ∈ chain.blocks, cleared.activeChain[block.header.height]? = none :=
    fun _ _ => get_empty _
  have noIds : ∀ block ∈ chain.blocks, ∀ row ∈ cleared.activeChain.toList, row.2 ≠ block.id := by
    intro block _ row member
    rw [show cleared.activeChain.toList = [] from toList_empty] at member
    cases member
  obtain ⟨indexed, listed, blocks⟩ :=
    insertActives_ok chain.blocks valid.heights_nodup ids fits noHeights noIds
  have tip : fitsI64 chain.height := fits chain.tip (List.getLast_mem chain.nonempty)
  obtain ⟨saved, commits, same⟩ := saveChain_commits reliable written listed tip clock
  exact ⟨saved, commits, same.trans blocks⟩

theorem saveChain_stored {storage : Storage} {chain : Chain} {disk : Disk} {now : UInt64}
    {pow : PowVerifier} (reliable : disk.saveChain = none) (clock : fitsI64 now)
    (valid : ValidHistory pow chain.blocks chain.state) (short : chain.blocks.length ≤ 2 ^ 63)
    (ids : (chain.blocks.map Block.id).Nodup)
    (stored : ∀ block ∈ chain.blocks, (storage.blocks[block.id]?).isSome) :
    ∃ saved, storage.saveChain chain disk now = .ok saved ∧ saved.blocks = storage.blocks := by
  apply saveChain_inserted reliable clock valid short ids
  exact insertBlocks_stored clock chain.blocks
    fun block member => ⟨valid.heights_fit short block member, stored block member⟩

theorem insertBlock_succeeds (storage : Storage) {block : Block} {now : UInt64}
    (height : fitsI64 block.header.height) (clock : fitsI64 now) :
    ∃ next, storage.insertBlock block now = .ok next := by
  unfold insertBlock
  rw [if_neg (by simp [height, clock])]
  split
  · exact ⟨_, rfl⟩
  · exact ⟨_, rfl⟩

theorem insertBlocks_succeed {now : UInt64} (clock : fitsI64 now) (blocks : List Block)
    (heights : ∀ block ∈ blocks, fitsI64 block.header.height) (storage : Storage) :
    ∃ next, blocks.foldlM (fun (storage : Storage) block => storage.insertBlock block now) storage =
      .ok next := by
  induction blocks generalizing storage with
  | nil => exact ⟨storage, rfl⟩
  | cons block rest ih =>
    obtain ⟨middle, first⟩ := storage.insertBlock_succeeds (heights block List.mem_cons_self) clock
    rw [List.foldlM_cons, first]
    exact ih (fun other member => heights other (List.mem_cons_of_mem _ member)) middle

theorem saveChain_succeeds (storage : Storage) {chain : Chain} {disk : Disk} {now : UInt64}
    {pow : PowVerifier} (reliable : disk.saveChain = none) (clock : fitsI64 now)
    (valid : ValidHistory pow chain.blocks chain.state) (short : chain.blocks.length ≤ 2 ^ 63)
    (ids : (chain.blocks.map Block.id).Nodup) :
    ∃ saved, storage.saveChain chain disk now = .ok saved := by
  obtain ⟨stored, written⟩ := insertBlocks_succeed clock chain.blocks (valid.heights_fit short) storage
  obtain ⟨saved, commits, _⟩ := saveChain_inserted reliable clock valid short ids written
  exact ⟨saved, commits⟩

end Storage

end ParitrNode
