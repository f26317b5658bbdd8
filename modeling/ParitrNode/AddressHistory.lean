import ParitrNode.AccountView
import ParitrNode.Library.Paging
import ParitrNode.RewardReports
import ParitrNode.TemplateRoom

/-!
The history of an address as a wallet reads it: what is pending in the pool,
then the blocks from the tip down, page by page.
-/

namespace ParitrNode
open ByteCodec OrderedMap Checked Paging

/-- `height` is null while the transfer is pending. -/
structure TransferEntry where
  txid : Hash32
  direction : String
  counterparty : Address
  amount : UInt64
  fee : UInt64
  timestamp : UInt64
  height : Option UInt64
  confirmations : UInt64
  status : String
  matured : Bool

inductive HistoryEntry where
  | transfer (entry : TransferEntry)
  | reward (report : RewardReport)

def transferSide (transaction : Transaction) (address : Address) : Option (String × Address) :=
  if transaction.sender = address then some ("out", transaction.recipient)
  else if transaction.recipient = address then some ("in", transaction.sender)
  else none

variable [Crypto]

def transferEntry (transaction : Transaction) (address : Address) (timestamp : UInt64)
    (height : Option UInt64) (confirmations : UInt64) (status : String) : Option HistoryEntry := do
  let (direction, counterparty) ← transferSide transaction address
  return .transfer
    { txid := transaction.id
      direction
      counterparty
      amount := transaction.amount
      fee := if direction = "out" then transaction.fee else 0
      timestamp
      height
      confirmations
      status
      matured := true }

/-- The selected transactions, last first; `clock` has the readings of `unix_time`. -/
def pendingEntries (selected : List Transaction) (address : Address) (clock : Nat → UInt64) :
    List HistoryEntry :=
  selected.reverse.zipIdx.filterMap fun entry =>
    transferEntry entry.1 address (clock entry.2) none 0 "pending"

def confirmedEntries (height : UInt64) (block : Block) (address : Address) : List HistoryEntry :=
  block.transactions.reverse.filterMap fun transaction =>
    transferEntry transaction address block.header.timestamp (some block.header.height)
      (saturatingAdd (saturatingSub height block.header.height) 1) "confirmed"

/-- One round over a block: its reward first, then its transactions, last first. -/
def blockEntries (chain : Chain) (address : Address) (entry : Block × Nat) : List HistoryEntry :=
  ((historicalReward chain.blocks entry.2 address (shareBlocks chain.blocks address)).map
      HistoryEntry.reward).toList ++
    confirmedEntries chain.height entry.1 address

/-- `none` is a selection that panics. -/
def Node.addressHistory (node : Node) (address : Address) (limit offset : UInt64)
    (clock : Nat → UInt64) : Option (List HistoryEntry) := do
  let selected ← node.mempool.select node.chain.state MAX_BLOCK_TRANSACTIONS
  let room := saturatingAdd offset (min limit 100)
  let entries := gatherUntil room.toNat (blockEntries node.chain address)
    node.chain.blocks.zipIdx.reverse (pendingEntries selected address clock)
  return page offset.toNat (min limit 100).toNat entries

def Node.fullHistory (node : Node) (address : Address) (clock : Nat → UInt64) :
    Option (List HistoryEntry) := do
  let selected ← node.mempool.select node.chain.state MAX_BLOCK_TRANSACTIONS
  return pendingEntries selected address clock ++
    node.chain.blocks.zipIdx.reverse.flatMap (blockEntries node.chain address)

/-! Reading in pages. -/

section Pages

variable {pow : PowVerifier} {node : Node} {address : Address}

theorem blockEntries_length (chain : Chain) (address : Address) :
    (chain.blocks.zipIdx.reverse.flatMap (blockEntries chain address)).length ≤
      chain.blocks.length + (chain.blocks.flatMap Block.transactions).length := by
  have one : ∀ entry ∈ chain.blocks.zipIdx,
      (blockEntries chain address entry).length ≤ 1 + entry.1.transactions.length := by
    intro entry _
    have reward := Option.length_toList_le (o := (historicalReward chain.blocks entry.2 address
      (shareBlocks chain.blocks address)).map HistoryEntry.reward)
    have transfers : (confirmedEntries chain.height entry.1 address).length ≤
        entry.1.transactions.length :=
      Nat.le_trans (List.length_filterMap_le _ _) (Nat.le_of_eq List.length_reverse)
    unfold blockEntries
    rw [List.length_append]
    omega
  have blocks : (chain.blocks.zipIdx.map fun entry => entry.1.transactions.length) =
      chain.blocks.map fun block => block.transactions.length := by
    conv_rhs => rw [← List.zipIdx_map_fst 0 chain.blocks, List.map_map]
    rfl
  rw [List.length_flatMap, List.map_reverse, List.sum_reverse]
  calc (chain.blocks.zipIdx.map fun entry => (blockEntries chain address entry).length).sum
      ≤ (chain.blocks.zipIdx.map fun entry => 1 + entry.1.transactions.length).sum :=
        List.sum_le_sum one
    _ = chain.blocks.length + (chain.blocks.flatMap Block.transactions).length := by
        rw [List.sum_map_add, blocks, List.length_flatMap, List.map_const', List.sum_replicate,
          List.length_zipIdx]
        simp

theorem pendingEntries_length (selected : List Transaction) (address : Address) (clock : Nat → UInt64) :
    (pendingEntries selected address clock).length ≤ selected.length := by
  have bound := List.length_filterMap_le (fun entry : Transaction × Nat =>
    transferEntry entry.1 address (clock entry.2) none 0 "pending") selected.reverse.zipIdx
  rw [List.length_zipIdx, List.length_reverse] at bound
  exact bound

theorem fullHistory_length (reached : node.chain.Reached pow)
    (fits : node.chain.state.supply < 2 ^ 64) {clock : Nat → UInt64} {full : List HistoryEntry}
    (read : node.fullHistory address clock = some full) : full.length < 2 ^ 64 - 1 := by
  obtain ⟨selected, chosen, shown⟩ := Option.bind_eq_some_iff.mp read
  cases shown
  have few := selectFrom_length chosen (by decide)
  have limit : MAX_BLOCK_TRANSACTIONS = 4096 := rfl
  have waiting := pendingEntries_length selected address clock
  have entries := blockEntries_length node.chain address
  have transactions := reached.valid.transactions_few
  have blocks := reached.valid.length_of_supply fits
  rw [List.length_append]
  omega

/-- A page is that part of the whole history, wherever the reading stops; pages of one size,
one after the other, give the whole. -/
theorem history_pages (reached : node.chain.Reached pow) (fits : node.chain.state.supply < 2 ^ 64)
    {clock : Nat → UInt64} {full : List HistoryEntry} (read : node.fullHistory address clock = some full) :
    (∀ limit offset : UInt64, node.addressHistory address limit offset clock =
      some ((full.drop offset.toNat).take (min limit.toNat 100))) ∧
    ∀ (limit : UInt64) (count : Nat), limit ≤ 100 → count * limit.toNat < 2 ^ 64 →
      full.length ≤ count * limit.toNat → ((List.range count).map fun number =>
        (node.addressHistory address limit (UInt64.ofNat (number * limit.toNat)) clock).getD []).flatten =
          full := by
  have short := fullHistory_length reached fits read
  obtain ⟨selected, chosen, shown⟩ := Option.bind_eq_some_iff.mp read
  have pages : ∀ limit offset : UInt64, node.addressHistory address limit offset clock =
      some (page offset.toNat (min limit.toNat 100) full) := by
    cases shown
    intro limit offset
    have size : (min limit 100).toNat = min limit.toNat 100 := UInt64.toNat_min ..
    have room := saturatingAdd_toNat offset (min limit 100)
    unfold Node.addressHistory
    rw [chosen]
    apply congrArg some
    rw [size] at room ⊢
    by_cases inside : offset.toNat + min limit.toNat 100 ≤ 2 ^ 64 - 1
    · apply page_gatherUntil
      rw [room]
      omega
    · -- the room is the last word, and the history is shorter
      rw [gatherUntil_whole]
      rw [room]
      omega
  refine ⟨pages, ?_⟩
  intro limit count small range enough
  have bound : limit.toNat ≤ 100 := UInt64.le_iff_toNat_le.mp small
  have each : ∀ number ∈ List.range count,
      (node.addressHistory address limit (UInt64.ofNat (number * limit.toNat)) clock).getD [] =
        page (number * limit.toNat) limit.toNat full := by
    intro number member
    have before := Nat.mul_le_mul_right limit.toNat (Nat.le_of_lt (List.mem_range.mp member))
    rw [pages, ofNat_toNat (by omega), Nat.min_eq_left bound]
    rfl
  rw [List.map_congr_left each, pages_flatten, List.take_of_length_le enough]

end Pages

omit [Crypto]

theorem quiet_wallet : let _ := labelled
    ∃ node : Node, node.chain.Reached acceptAll ∧ node.chain.state.supply < 2 ^ 64 ∧
      Mempool.Reachable default node.mempool ∧
      node.mempool.select node.chain.state MAX_BLOCK_TRANSACTIONS = some [] ∧
      node.chain.blocks.length = 102 ∧ node.chain.blocks.flatMap Block.transactions = [] ∧
      node.chain.state.balanceOf LedgerState.addressMin = 1000000000 := by
  let _ := labelled
  obtain ⟨chain, reachable, _, length, _, _, rewards, bare, _⟩ :=
    reachable_quiet (fun _ _ same => (labelled_id_injective same).1) (acceptAll_lenient.at 0)
      LedgerState.addressMin (show 101 ≤ 2 ^ 32 by decide)
  have supply := reachable.valid.supply_bound
  have held := reachable.balance LedgerState.addressMin
  have empty : chain.blocks.flatMap Block.transactions = [] := List.flatMap_eq_nil_iff.mpr bare
  have height : chain.height.toNat = 101 := by
    rw [reachable.height_eq, length]
  have reward : rewardAt chain.blocks 1 LedgerState.addressMin = 1000000000 :=
    rewards 1 (by decide) (by decide)
  have size : (Mempool.new default).entries.size = 0 := Std.ExtTreeMap.size_empty
  rw [empty, height, Nat.add_sub_cancel_left 100 1, Finset.Icc_self, Finset.sum_singleton, reward] at held
  refine ⟨restingNode chain LedgerState.addressMin, reachable.reached, ?_, .new, ?_, length, empty, held⟩
  · change chain.state.supply < 2 ^ 64
    omega
  · change (Mempool.new default).select chain.state MAX_BLOCK_TRANSACTIONS = some []
    rw [Mempool.select, size]
    rfl

/-- Two pages of a hundred hold the history of its hundred and one blocks. -/
theorem quiet_wallet_pages : ∃ (_ : Crypto) (node : Node) (full : List HistoryEntry),
    node.fullHistory LedgerState.addressMin (fun _ => 0) = some full ∧
    node.addressHistory LedgerState.addressMin 10 20 (fun _ => 0) = some ((full.drop 20).take 10) ∧
    ((List.range 2).map fun number => (node.addressHistory LedgerState.addressMin 100
      (UInt64.ofNat (number * 100)) fun _ => 0).getD []).flatten = full := by
  let _ := labelled
  have ⟨node, reached, fits, _, chosen, length, empty, _⟩ := quiet_wallet
  have read : node.fullHistory LedgerState.addressMin (fun _ => 0) =
      some (node.chain.blocks.zipIdx.reverse.flatMap (blockEntries node.chain LedgerState.addressMin)) := by
    unfold Node.fullHistory
    rw [chosen]
    rfl
  have short := blockEntries_length node.chain LedgerState.addressMin
  rw [length, empty] at short
  obtain ⟨pages, whole⟩ := history_pages reached fits read
  exact ⟨labelled, node, _, read, pages 10 20,
    whole 100 2 (by decide) (by decide) (Nat.le_trans short (by decide))⟩

end ParitrNode
