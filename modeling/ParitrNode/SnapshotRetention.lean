import ParitrNode.DurableChain
import ParitrNode.Library.Greatest
import ParitrNode.TimedChain

/-!
Which ledger snapshots the tables keep: those of the three greatest heights ever
saved. The snapshot of the tip is among them only while fewer than three greater
heights have been saved.
-/

namespace ParitrNode
open ByteCodec OrderedMap Checked Greatest

namespace Storage

def snapshotHeights (storage : Storage) : Finset Nat :=
  (storage.stateSnapshots.toList.map fun row => row.1.toNat).toFinset

theorem mem_snapshotHeights {storage : Storage} {height : UInt64} :
    height.toNat ∈ storage.snapshotHeights ↔ (storage.stateSnapshots[height]?).isSome := by
  unfold snapshotHeights
  rw [List.mem_toFinset, List.mem_map, Option.isSome_iff_exists]
  constructor
  · intro ⟨row, member, same⟩
    refine ⟨row.2, ?_⟩
    rw [← UInt64.toNat_inj.mp same]
    exact mem_toList.mp member
  · intro ⟨snapshot, found⟩
    exact ⟨(height, snapshot), mem_toList.mpr found, rfl⟩

theorem snapshotHeights_sorted (storage : Storage) :
    (storage.stateSnapshots.toList.map fun row => row.1.toNat).Pairwise (· < ·) := by
  rw [List.pairwise_map]
  apply Std.ExtTreeMap.ordered_keys_toList.imp
  intro first second below
  exact UInt64.lt_iff_toNat_lt.mp (Std.compare_eq_lt.mp below)

theorem get_pruneSnapshots (storage : Storage) (height : UInt64) :
    storage.pruneSnapshots.stateSnapshots[height]? =
      if height.toNat ∈ greatest 3 storage.snapshotHeights then storage.stateSnapshots[height]?
      else none := by
  have injective : Function.Injective UInt64.toNat := fun _ _ => UInt64.toNat_inj.mp
  have heights : (storage.stateSnapshots.toList.map fun row => row.1.toNat) =
      (storage.stateSnapshots.toList.map Prod.fst).map UInt64.toNat := by
    rw [List.map_map]
    rfl
  have kept : height ∈ (storage.stateSnapshots.toList.map Prod.fst).reverse.take 3 ↔
      height.toNat ∈ greatest 3 storage.snapshotHeights := by
    unfold snapshotHeights
    have last : ((storage.stateSnapshots.toList.map Prod.fst).map UInt64.toNat).reverse.take 3 =
        ((storage.stateSnapshots.toList.map Prod.fst).reverse.take 3).map UInt64.toNat := by
      rw [List.map_take, List.map_reverse]
    rw [← mem_take_reverse storage.snapshotHeights_sorted, heights, last,
      List.mem_map_of_injective injective]
  unfold pruneSnapshots
  dsimp only
  rw [Std.ExtTreeMap.getElem?_filter']
  cases storage.stateSnapshots[height]? with
  | none =>
    rw [ite_self]
    rfl
  | some row =>
    rw [Option.filter_some]
    by_cases listed : height.toNat ∈ greatest 3 storage.snapshotHeights
    · rw [if_pos listed, if_pos (decide_eq_true (kept.mpr listed))]
    · rw [if_neg listed, if_neg (fun taken => listed (kept.mp (of_decide_eq_true taken)))]

theorem pruneSnapshots_heights (storage : Storage) :
    storage.pruneSnapshots.snapshotHeights = greatest 3 storage.snapshotHeights := by
  ext height
  by_cases fits : height < 2 ^ 64
  · have same : (UInt64.ofNat height).toNat = height := UInt64.toNat_ofNat_of_lt' fits
    rw [← same, mem_snapshotHeights, get_pruneSnapshots]
    by_cases inside : (UInt64.ofNat height).toNat ∈ greatest 3 storage.snapshotHeights
    · rw [if_pos inside, ← mem_snapshotHeights]
      exact iff_of_true (greatest_subset inside) inside
    · rw [if_neg inside]
      exact iff_of_false (by simp) inside
  · have none : ∀ other : Storage, height ∉ other.snapshotHeights := by
      intro other member
      unfold snapshotHeights at member
      rw [List.mem_toFinset, List.mem_map] at member
      obtain ⟨row, _, same⟩ := member
      exact fits (same ▸ row.1.toNat_lt)
    exact iff_of_false (none _) fun inside => none _ (greatest_subset inside)

theorem insertSnapshot_heights (storage : Storage) (height : UInt64) (snapshot : StateSnapshot) :
    ({ storage with stateSnapshots := storage.stateSnapshots.insert height snapshot } : Storage).snapshotHeights =
      insert height.toNat storage.snapshotHeights := by
  unfold snapshotHeights
  ext other
  rw [Finset.mem_insert, List.mem_toFinset, List.mem_toFinset,
    ((toList_insert_perm storage.stateSnapshots height snapshot).map _).mem_iff, List.map_cons,
    List.mem_cons]
  apply or_congr_right'
  intro different
  rw [List.mem_map, List.mem_map]
  apply exists_congr
  intro (key, row)
  apply and_congr_left
  intro same
  have apart : height ≠ key := fun equal => different (by rw [← same, equal])
  rw [mem_toList, mem_toList, get_erase, if_neg apart]

variable [Crypto]

theorem insertBlock_snapshots {storage next : Storage} {block : Block} {now : UInt64}
    (inserted : storage.insertBlock block now = .ok next) :
    next.stateSnapshots = storage.stateSnapshots := by
  unfold insertBlock at inserted
  split at inserted
  · cases inserted
  · split at inserted
    · cases inserted
      rfl
    · cases inserted
      rfl

theorem insertActive_snapshots {storage next : Storage} {block : Block}
    (inserted : storage.insertActive block = .ok next) : next.stateSnapshots = storage.stateSnapshots := by
  unfold insertActive at inserted
  split at inserted
  · cases inserted
  · split at inserted
    · cases inserted
    · split at inserted
      · cases inserted
      · cases inserted
        rfl

omit [Crypto] in
theorem foldlM_snapshots (step : Storage → Block → Except String Storage)
    (each : ∀ {storage next : Storage} {block : Block}, step storage block = .ok next →
      next.stateSnapshots = storage.stateSnapshots)
    {blocks : List Block} {storage next : Storage} (folded : blocks.foldlM step storage = .ok next) :
    next.stateSnapshots = storage.stateSnapshots := by
  induction blocks generalizing storage with
  | nil =>
    cases folded
    rfl
  | cons block rest ih =>
    rw [List.foldlM_cons, bind_ok] at folded
    obtain ⟨middle, first, later⟩ := folded
    exact (ih later).trans (each first)

def snapshotOf (chain : Chain) (now : UInt64) : StateSnapshot :=
  ⟨chain.tip.id, chain.state.root, chain.state.consensusEncode, now⟩

theorem saveChain_snapshots {storage next : Storage} {chain : Chain} {disk : Disk} {now : UInt64}
    (saved : storage.saveChain chain disk now = .ok next) :
    next.stateSnapshots = (pruneSnapshots { storage with
      stateSnapshots := storage.stateSnapshots.insert chain.height (snapshotOf chain now) }).stateSnapshots := by
  unfold saveChain at saved
  split at saved
  next => cases saved
  next =>
    simp only [bind_ok, guard_ok] at saved
    obtain ⟨stored, inserted, indexed, filled, _, result⟩ := saved
    cases result
    have first : stored.stateSnapshots = storage.stateSnapshots :=
      foldlM_snapshots (fun storage block => storage.insertBlock block now) insertBlock_snapshots inserted
    have second := foldlM_snapshots insertActive insertActive_snapshots filled
    change indexed.stateSnapshots = stored.stateSnapshots at second
    unfold pruneSnapshots snapshotOf
    dsimp only
    rw [second, first]

def TipStored (storage : Storage) (chain : Chain) : Prop :=
  ∃ row, storage.stateSnapshots[chain.height]? = some row ∧ row.blockHash = chain.tip.id ∧
    row.stateRoot = chain.state.root ∧ row.data = chain.state.consensusEncode

theorem saveChain_tipStored {storage next : Storage} {chain : Chain} {disk : Disk} {now : UInt64}
    (saved : storage.saveChain chain disk now = .ok next) :
    next.TipStored chain ↔ chain.height.toNat ∈
      greatest 3 (insert chain.height.toNat storage.snapshotHeights) := by
  have found := get_pruneSnapshots { storage with
    stateSnapshots := storage.stateSnapshots.insert chain.height (snapshotOf chain now) } chain.height
  rw [← saveChain_snapshots saved, insertSnapshot_heights] at found
  unfold TipStored
  rw [found]
  by_cases kept : chain.height.toNat ∈ greatest 3 (insert chain.height.toNat storage.snapshotHeights)
  · rw [if_pos kept]
    exact iff_of_true ⟨_, get_insert_self _ _ _, rfl, rfl, rfl⟩ kept
  · rw [if_neg kept]
    exact iff_of_false (fun ⟨_, absent, _⟩ => nomatch absent) kept

theorem saveChain_heights {storage next : Storage} {chain : Chain} {disk : Disk} {now : UInt64}
    (saved : storage.saveChain chain disk now = .ok next) :
    next.snapshotHeights = greatest 3 (insert chain.height.toNat storage.snapshotHeights) := by
  rw [← insertSnapshot_heights storage chain.height (snapshotOf chain now), ← pruneSnapshots_heights]
  unfold snapshotHeights
  rw [saveChain_snapshots saved]

/-! Runs. -/

structure SaveCall where
  chain : Chain
  tables : Storage

/-- The successful calls of a run, first to last, and the tables they leave. -/
inductive SaveRun (pow : PowVerifier) : List SaveCall → Storage → Prop where
  | start : SaveRun pow [] default
  | save {calls : List SaveCall} {chain : Chain} {storage next : Storage} {disk : Disk} {now : UInt64}
      (earlier : SaveRun pow calls storage) (valid : ValidHistory pow chain.blocks chain.state)
      (saved : storage.saveChain chain disk now = .ok next) :
      SaveRun pow (calls ++ [⟨chain, next⟩]) next

def savedHeights (calls : List SaveCall) : Finset Nat :=
  (calls.map fun call => call.chain.height.toNat).toFinset

omit [Crypto] in
theorem savedHeights_snoc (calls : List SaveCall) (call : SaveCall) :
    savedHeights (calls ++ [call]) = insert call.chain.height.toNat (savedHeights calls) := by
  unfold savedHeights
  ext height
  simp only [List.map_append, List.map_cons, List.map_nil, List.toFinset_append, Finset.mem_union,
    Finset.mem_insert, List.mem_toFinset, List.mem_singleton]
  exact or_comm

/-- Whatever branches they were on, the three greatest heights ever saved are kept. -/
theorem SaveRun.heights {pow : PowVerifier} {calls : List SaveCall} {storage : Storage}
    (run : SaveRun pow calls storage) : storage.snapshotHeights = greatest 3 (savedHeights calls) := by
  induction run with
  | start =>
    unfold snapshotHeights
    rw [show (default : Storage).stateSnapshots.toList = [] from toList_empty]
    rfl
  | save earlier valid saved ih =>
    rw [saveChain_heights saved, ih, savedHeights_snoc, greatest_insert_greatest]

theorem SaveRun.tipStored {pow : PowVerifier} {calls : List SaveCall} {storage next : Storage}
    (run : SaveRun pow calls storage) {chain : Chain} {disk : Disk} {now : UInt64}
    (saved : storage.saveChain chain disk now = .ok next) :
    next.TipStored chain ↔ (above (savedHeights calls) chain.height.toNat).card < 3 := by
  have others : above (insert chain.height.toNat (savedHeights calls)) chain.height.toNat =
      above (savedHeights calls) chain.height.toNat := by
    unfold above
    rw [Finset.filter_insert, if_neg (lt_irrefl _)]
  rw [saveChain_tipStored saved, run.heights, greatest_insert_greatest, mem_greatest, others]
  exact and_iff_right (Finset.mem_insert_self _ _)

/-- After each call of a run the snapshot of the tip is stored exactly when fewer than
three greater heights had been saved before. -/
theorem tip_snapshots_kept_iff {pow : PowVerifier} {calls : List SaveCall} {storage : Storage}
    (run : SaveRun pow calls storage) (index : Nat) (call : SaveCall) (made : calls[index]? = some call) :
    call.tables.TipStored call.chain ↔
      (above (savedHeights (calls.take index)) call.chain.height.toNat).card < 3 := by
  induction run with
  | start => cases made
  | @save calls chain storage next disk now earlier valid saved ih =>
    by_cases before : index < calls.length
    · rw [List.getElem?_append_left before] at made
      rw [List.take_append_of_le_length (Nat.le_of_lt before)]
      exact ih made
    · have last : index = calls.length := by
        have bound := (List.getElem?_eq_some_iff.mp made).1
        rw [List.length_append, List.length_singleton] at bound
        omega
      rw [last, List.getElem?_concat_length] at made
      cases made
      rw [last, List.take_left]
      exact earlier.tipStored saved

theorem SaveRun.next {pow : PowVerifier} {calls : List SaveCall} {storage : Storage}
    (run : SaveRun pow calls storage) {chain : Chain} (reachable : chain.Reachable pow)
    (short : chain.blocks.length ≤ 2 ^ 63) :
    ∃ next, storage.saveChain chain Disk.reliable 0 = .ok next ∧
      SaveRun pow (calls ++ [⟨chain, next⟩]) next := by
  obtain ⟨next, saved⟩ := storage.saveChain_succeeds (show Disk.reliable.saveChain = none from rfl)
    (show fitsI64 0 by decide) reachable.valid short reachable.ids_nodup
  exact ⟨next, saved, run.save reachable.valid saved⟩

theorem SaveRun.of_chains {pow : PowVerifier} (chains : List Chain)
    (each : ∀ chain ∈ chains, chain.Reachable pow ∧ chain.blocks.length ≤ 2 ^ 63) :
    ∃ calls storage, SaveRun pow calls storage ∧ calls.map SaveCall.chain = chains := by
  induction chains using List.reverseRecOn with
  | nil => exact ⟨[], default, .start, rfl⟩
  | append_singleton earlier chain ih =>
    obtain ⟨calls, storage, run, saves⟩ := ih fun other member => each other (List.mem_append_left _ member)
    obtain ⟨reachable, short⟩ := each chain (List.mem_append_right _ List.mem_cons_self)
    obtain ⟨next, _, longer⟩ := run.next reachable short
    refine ⟨_, next, longer, ?_⟩
    rw [List.map_append, saves]
    rfl

omit [Crypto] in
/-- Six blocks, the last four of them easy after a long pause, and two blocks that
replace the last five with more work. -/
theorem heavier_branch :
    let _ := labelled
    ∃ (earlier : List Chain) (longer heavier : Chain),
      (∀ chain ∈ earlier ++ [longer, heavier], chain.Reachable acceptAll ∧
        chain.blocks.length ≤ 2 ^ 63) ∧
      (earlier ++ [longer]).map (fun chain => chain.height.toNat) = [0, 1, 2, 3, 4, 5, 6] ∧
      heavier.height.toNat = 3 ∧
      longer.considerChain heavier.blocks acceptAll latest = .ok (.reorganized longer.tip.id
        heavier.tip.id (Chain.forkIndex longer.blocks heavier.blocks), heavier) := by
  intro crypto
  let origin := GENESIS_TIMESTAMP
  have ground := timedChain_genesis
  obtain ⟨first, one⟩ := ground.extends_labelled (origin + 64) (by decide) (by decide)
    (show _ = some launchTarget by decide +kernel) (by decide +kernel) 1
  obtain ⟨second, two⟩ := one.extends_labelled (origin + 80000) (by decide) (by decide)
    (show _ = some launchTarget by decide +kernel) (by decide +kernel) 1
  obtain ⟨third, three⟩ := two.extends_labelled (origin + 80064) (by decide) (by decide)
    (show _ = some (0xffff <<< 232) by decide +kernel) (by decide +kernel) 1
  obtain ⟨fourth, four⟩ := three.extends_labelled (origin + 80128) (by decide) (by decide)
    (show _ = some (0xffff <<< 232) by decide +kernel) (by decide +kernel) 1
  obtain ⟨fifth, five⟩ := four.extends_labelled (origin + 80192) (by decide) (by decide)
    (show _ = some (0xffff <<< 232) by decide +kernel) (by decide +kernel) 1
  obtain ⟨longer, six⟩ := five.extends_labelled (origin + 80256) (by decide) (by decide)
    (show _ = some (0xffff <<< 232) by decide +kernel) (by decide +kernel) 1
  -- the other branch keeps to the schedule, so each of its blocks weighs as the first did
  obtain ⟨middle, side⟩ := one.extends_labelled (origin + 128) (by decide) (by decide)
    (show _ = some launchTarget by decide +kernel) (by decide +kernel) 2
  obtain ⟨heavier, tip⟩ := side.extends_labelled (origin + 192) (by decide) (by decide)
    (show _ = some launchTarget by decide +kernel) (by decide +kernel) 2
  have saves : ∀ {chain : Chain} {times : List UInt64} {work : Nat}, TimedChain chain times work →
      times.length ≤ 2 ^ 63 → chain.Reachable acceptAll ∧ chain.blocks.length ≤ 2 ^ 63 := by
    intro chain times work timed short
    exact ⟨timed.reachable, timed.length_eq ▸ short⟩
  refine ⟨[Chain.genesis, first, second, third, fourth, fifth], longer, heavier, ?_, ?_, tip.height_eq,
    six.replaces tip (by decide +kernel)⟩
  · simp only [List.cons_append, List.nil_append, List.forall_mem_cons]
    exact ⟨saves ground (by decide), saves one (by decide), saves two (by decide),
      saves three (by decide), saves four (by decide), saves five (by decide), saves six (by decide),
      saves tip (by decide), fun _ member => nomatch member⟩
  · simp only [List.cons_append, List.nil_append, List.map_cons, List.map_nil]
    rw [ground.height_eq, one.height_eq, two.height_eq, three.height_eq, four.height_eq,
      five.height_eq, six.height_eq]
    rfl

omit [Crypto] in
/-- After five saves of one branch, the oldest two of them pruned, the snapshot of a chain on
another branch is kept one height below the greatest. -/
theorem lower_branch_saved :
    let _ := labelled
    ∃ (calls : List SaveCall) (chain : Chain) (storage : Storage),
      SaveRun acceptAll (calls ++ [⟨chain, storage⟩]) storage ∧
      calls.map (fun call => call.chain.height.toNat) = [0, 1, 2, 3, 4] ∧ chain.height.toNat = 3 ∧
      storage.TipStored chain := by
  intro crypto
  obtain ⟨earlier, longer, heavier, each, heights, low, _⟩ := heavier_branch
  have reachable : ∀ chain ∈ (earlier ++ [longer]).take 5,
      chain.Reachable acceptAll ∧ chain.blocks.length ≤ 2 ^ 63 := by
    intro chain member
    apply each
    have whole : earlier ++ [longer, heavier] = earlier ++ [longer] ++ [heavier] := by simp
    rw [whole]
    exact List.mem_append_left _ (List.mem_of_mem_take member)
  obtain ⟨calls, before, run, saves⟩ := SaveRun.of_chains _ reachable
  obtain ⟨heavierReachable, short⟩ := each heavier (by simp)
  obtain ⟨storage, _, replaced⟩ := run.next heavierReachable short
  have saved : calls.map (fun call => call.chain.height.toNat) = [0, 1, 2, 3, 4] := by
    have mapped : calls.map (fun call => call.chain.height.toNat) =
        (calls.map SaveCall.chain).map fun chain => chain.height.toNat := by
      rw [List.map_map]
      rfl
    rw [mapped, saves, List.map_take, heights]
    rfl
  let last : SaveCall := ⟨heavier, storage⟩
  have few : (above (savedHeights ((calls ++ [last]).take calls.length)) heavier.height.toNat).card < 3 := by
    rw [List.take_left, savedHeights, saved, low]
    decide
  refine ⟨calls, heavier, storage, replaced, saved, low, ?_⟩
  exact (tip_snapshots_kept_iff replaced calls.length last List.getElem?_concat_length).mpr few

omit [Crypto] in
/-- The snapshot of the heavier chain, three heights below the one it replaces, is pruned
as it is written. -/
theorem heavier_branch_unsaved :
    let _ := labelled
    ∃ (longer heavier : Chain) (calls : List SaveCall) (tables storage : Storage),
      longer.considerChain heavier.blocks acceptAll latest = .ok (.reorganized longer.tip.id
        heavier.tip.id (Chain.forkIndex longer.blocks heavier.blocks), heavier) ∧
      SaveRun acceptAll (calls ++ [⟨longer, tables⟩] ++ [⟨heavier, storage⟩]) storage ∧
      ¬storage.TipStored heavier := by
  intro crypto
  obtain ⟨earlier, longer, heavier, each, heights, low, replaces⟩ := heavier_branch
  obtain ⟨calls, before, run, saves⟩ :=
    SaveRun.of_chains earlier fun chain member => each chain (List.mem_append_left _ member)
  obtain ⟨longerReachable, longerShort⟩ := each longer (by simp)
  obtain ⟨heavierReachable, heavierShort⟩ := each heavier (by simp)
  obtain ⟨tables, _, stored⟩ := run.next longerReachable longerShort
  obtain ⟨storage, saved, replaced⟩ := stored.next heavierReachable heavierShort
  refine ⟨longer, heavier, calls, tables, storage, replaces, replaced, ?_⟩
  have savedBefore : savedHeights (calls ++ [⟨longer, tables⟩]) = [0, 1, 2, 3, 4, 5, 6].toFinset := by
    unfold savedHeights
    rw [← heights, ← saves, List.map_append, List.map_append, List.map_map]
    rfl
  rw [stored.tipStored saved, savedBefore, low]
  decide

end Storage

end ParitrNode
