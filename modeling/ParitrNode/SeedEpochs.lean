import ParitrNode.FundedChain
import ParitrNode.SharedContext

/-!
The RandomX seed of a height: fixed for an epoch, and by a block at least 64 below its first.
Two branches hash a height under the same seed exactly when they agree up to that block, and a
chain is replayed with one context for each epoch.
-/

namespace ParitrNode
open ByteCodec Checked

/-- The height that names the seed, of an epoch that has one. -/
def referenceIndex (height : UInt64) : Nat := height.toNat / 2048 * 2048 - 64

theorem epochStart_toNat (height : UInt64) :
    (height / RANDOMX_EPOCH_BLOCKS * RANDOMX_EPOCH_BLOCKS).toNat = height.toNat / 2048 * 2048 := by
  have bound := height.toNat_lt
  have epoch : RANDOMX_EPOCH_BLOCKS.toNat = 2048 := rfl
  rw [UInt64.toNat_mul, UInt64.toNat_div, epoch, Nat.mod_eq_of_lt (by omega)]

theorem epoch_le_iff (height : UInt64) : RANDOMX_EPOCH_BLOCKS ≤ height ↔ 2048 ≤ height.toNat :=
  UInt64.le_iff_toNat_le

theorem randomxSeedReferenceHeight_toNat {height : UInt64} (late : RANDOMX_EPOCH_BLOCKS ≤ height) :
    (randomxSeedReferenceHeight height).toNat = referenceIndex height := by
  have above := (epoch_le_iff height).mp late
  have lag : RANDOMX_SEED_LAG.toNat = 64 := rfl
  have start := epochStart_toNat height
  have enough : RANDOMX_SEED_LAG.toNat ≤ (height / RANDOMX_EPOCH_BLOCKS * RANDOMX_EPOCH_BLOCKS).toNat := by
    omega
  unfold randomxSeedReferenceHeight saturatingSub
  rw [if_neg (UInt64.not_lt.mpr late)]
  dsimp only
  rw [checkedSub_of_le enough]
  change (_ - _ : UInt64).toNat = _
  rw [UInt64.toNat_sub_of_le _ _ (UInt64.le_iff_toNat_le.mpr enough), start, lag]
  rfl

/-- The reference block is at least 64 blocks below the epoch. -/
theorem referenceIndex_lag {height : UInt64} (late : RANDOMX_EPOCH_BLOCKS ≤ height) :
    referenceIndex height + 64 = height.toNat / 2048 * 2048 := by
  have above := (epoch_le_iff height).mp late
  unfold referenceIndex
  omega

section Seeds

variable [Crypto]

theorem randomxSeed_epoch (history : List Block) {height other : UInt64}
    (same : height.toNat / 2048 = other.toNat / 2048) : randomxSeed history height = randomxSeed history other := by
  have quotient : height / RANDOMX_EPOCH_BLOCKS = other / RANDOMX_EPOCH_BLOCKS := by
    apply UInt64.toNat_inj.mp
    rw [UInt64.toNat_div, UInt64.toNat_div]
    exact same
  have early : height < RANDOMX_EPOCH_BLOCKS ↔ other < RANDOMX_EPOCH_BLOCKS := by
    rw [UInt64.lt_iff_toNat_lt, UInt64.lt_iff_toNat_lt]
    change height.toNat < 2048 ↔ other.toNat < 2048
    omega
  unfold randomxSeed randomxSeedReferenceHeight
  simp only [quotient, early]

def epochInput (height : UInt64) (reference : Block) : Bytes :=
  Writer.bytes (ascii CHAIN_ID) ++ Writer.u64 (height / RANDOMX_EPOCH_BLOCKS) ++ reference.id.bytes

theorem randomxSeed_reference {pow : PowVerifier} {history : List Block} (linked : Linked pow history)
    {height : UInt64} (late : RANDOMX_EPOCH_BLOCKS ≤ height) {reference : Block}
    (found : history[referenceIndex height]? = some reference) :
    randomxSeed history height = .ok (domainHash "PARITR-P9-RANDOMX-EPOCH-v1" (epochInput height reference)).bytes := by
  have place := randomxSeedReferenceHeight_toNat late
  have first : history.find? (fun block => decide (block.header.height = randomxSeedReferenceHeight height)) =
      some reference := by
    cases search : history.find? fun block => decide (block.header.height = randomxSeedReferenceHeight height) with
    | none =>
      have absent := List.find?_eq_none.mp search reference (List.mem_of_getElem? found)
      rw [decide_eq_true_eq] at absent
      exact absurd (UInt64.toNat_inj.mp ((linked _ _ found).height.trans place.symm)) absent
    | some block =>
      have named : block.header.height = randomxSeedReferenceHeight height := by
        have holds := List.find?_some search
        exact of_decide_eq_true holds
      have ⟨index, there⟩ := List.mem_iff_getElem?.mp (List.mem_of_find?_eq_some search)
      have same : index = referenceIndex height := by
        rw [← (linked index block there).height, named, place]
      rw [same, found] at there
      exact there.symm
  unfold randomxSeed
  rw [if_neg (UInt64.not_lt.mpr late)]
  dsimp only
  rw [first]
  rfl

theorem epochInput_injective {height : UInt64} {first second : Block}
    (same : epochInput height first = epochInput height second) : first.id = second.id :=
  FixedBytes.ext (List.append_cancel_left same)

theorem same_up_to {pow pow' : PowVerifier} {first second : List Block} (linked : Linked pow first)
    (linked' : Linked pow' second)
    (distinct : ∀ one ∈ first, ∀ two ∈ second, one.id = two.id → one = two) {index : Nat} {block : Block}
    (here : first[index]? = some block) (there : second[index]? = some block) :
    first.take (index + 1) = second.take (index + 1) := by
  induction index generalizing block with
  | zero =>
    rw [List.take_add_one, List.take_add_one, here, there]
    rfl
  | succ index ih =>
    have ⟨before, found, link, _⟩ := (linked _ _ here).mined (Nat.succ_pos index)
    have ⟨before', found', link', _⟩ := (linked' _ _ there).mined (Nat.succ_pos index)
    have equal : before = before' := distinct before (List.mem_of_getElem? found) before'
      (List.mem_of_getElem? found') (link.symm.trans link')
    rw [← equal] at found'
    rw [List.take_add_one, ih found found', here, List.take_add_one (i := index + 1), there]

omit [Crypto] in
theorem getElem_of_take_eq {first second : List Block} {count index : Nat} (below : index < count)
    (same : first.take count = second.take count) : first[index]? = second[index]? := by
  rw [← List.getElem?_take_of_lt below, same, List.getElem?_take_of_lt below]

/-- A height has a seed on every valid history that reaches its reference block, at least 64
blocks below the epoch. Two histories have the same seed for it exactly when they are the
same up to that block. -/
theorem seeds_agree_iff {pow pow' : PowVerifier} {first second : List Block} {state state' : LedgerState}
    (valid : ValidHistory pow first state) (valid' : ValidHistory pow' second state') {height : UInt64}
    (late : RANDOMX_EPOCH_BLOCKS ≤ height) (long : referenceIndex height < first.length)
    (long' : referenceIndex height < second.length)
    (distinct : ∀ one ∈ first, ∀ two ∈ second, one.id = two.id → one = two)
    (free : ∀ one two, first[referenceIndex height]? = some one → second[referenceIndex height]? = some two →
      CollisionFree {("PARITR-P9-RANDOMX-EPOCH-v1", epochInput height one),
        ("PARITR-P9-RANDOMX-EPOCH-v1", epochInput height two)}) :
    referenceIndex height + 64 = height.toNat / 2048 * 2048 ∧
      (∃ seed, randomxSeed first height = .ok seed) ∧
      (randomxSeed first height = randomxSeed second height ↔
        first.take (referenceIndex height + 1) = second.take (referenceIndex height + 1)) := by
  have found := List.getElem?_eq_getElem long
  have found' := List.getElem?_eq_getElem long'
  have seed := randomxSeed_reference valid.linked late found
  have seed' := randomxSeed_reference valid'.linked late found'
  refine ⟨referenceIndex_lag late, ⟨_, seed⟩, ?_⟩
  rw [seed, seed']
  constructor
  · intro same
    have hashes := FixedBytes.ext (Except.ok.inj same)
    have inside := List.getElem_mem long
    have inside' := List.getElem_mem long'
    have inputs := free _ _ found found' _ (Set.mem_insert _ _) _ (Set.mem_insert_of_mem _ rfl) hashes
    have equal := distinct _ inside _ inside' (epochInput_injective (Prod.mk.inj inputs).2)
    rw [← equal] at found'
    exact same_up_to valid.linked valid'.linked distinct found found'
  · intro same
    have equal := getElem_of_take_eq (Nat.lt_succ_self _) same
    rw [found, found'] at equal
    rw [Option.some.inj equal]

omit [Crypto] in
/-- The seed of a later epoch, where the hash of an input is its last bytes. -/
theorem spelled_seed (height : UInt64) (reference : Block) :
    let _ := spelled
    domainHash "PARITR-P9-RANDOMX-EPOCH-v1" (epochInput height reference) = reference.id := by
  intro _
  apply spelled_ends _ rfl
  simp only [List.length_append, Writer.u64_length, FixedBytes.length_eq]
  decide

omit [Crypto] in
theorem spelled_seed_free (height : UInt64) (one two : Block) :
    let _ := spelled
    CollisionFree {("PARITR-P9-RANDOMX-EPOCH-v1", epochInput height one),
      ("PARITR-P9-RANDOMX-EPOCH-v1", epochInput height two)} := by
  intro crypto
  have inputs : ∀ block other : Block, domainHash "PARITR-P9-RANDOMX-EPOCH-v1" (epochInput height block) =
      domainHash "PARITR-P9-RANDOMX-EPOCH-v1" (epochInput height other) →
      epochInput height block = epochInput height other := by
    intro block other same
    rw [spelled_seed, spelled_seed] at same
    unfold epochInput
    rw [same]
  intro first inside second inside' same
  rcases inside with rfl | rfl <;> rcases inside' with rfl | rfl
  · rfl
  · rw [inputs one two same]
  · rw [inputs two one same]
  · rfl

theorem at_height {pow : PowVerifier} {history : List Block} (linked : Linked pow history) {block : Block}
    (inside : block ∈ history) : history[block.header.height.toNat]? = some block := by
  have ⟨index, there⟩ := List.mem_iff_getElem?.mp inside
  rw [(linked index block there).height]
  exact there

omit [Crypto] in
/-- Three branches that reach the second epoch: two part after its reference block and hash it
under one seed, the third parts from them at the first block and hashes it under another. -/
theorem three_branches_seeds :
    let _ := spelled
    ∃ (first second third : List Block), first.length = 2049 ∧ second.length = 2049 ∧
      third.length = 2049 ∧ first[2048]? ≠ second[2048]? ∧ first[1]? ≠ third[1]? ∧
      randomxSeed first 2048 = randomxSeed second 2048 ∧ randomxSeed first 2048 ≠ randomxSeed third 2048 := by
  intro crypto
  obtain ⟨base, baseReachable, _, baseLength, scheduled, work, _, _, baseNonces⟩ :=
    reachable_quiet spelled_heights (acceptAll_lenient.at 0) LedgerState.addressMin
      (show 2047 ≤ 2 ^ 32 by decide)
  obtain ⟨apart, apartReachable, _, apartLength, _, _, _, _, apartNonces⟩ :=
    reachable_quiet spelled_heights (acceptAll_lenient.at 1) LedgerState.addressMin
      (show 2048 ≤ 2 ^ 32 by decide)
  have valid := baseReachable.valid
  -- the last block of the first two branches has one or the other nonce
  have branch : ∀ nonce : UInt64, ∃ (grown : Chain) (block : Block), grown.Reachable acceptAll ∧
      grown.blocks = base.blocks ++ [block] ∧ block.header.height.toNat = 2048 ∧
      block.header.nonce = nonce := by
    intro nonce
    obtain ⟨block, next, _, built, accepted⟩ := nextBlock_ok valid scheduled (by omega)
      LedgerState.addressMin nonce
    have clock : latest.toNat = 2 ^ 64 - 1 := rfl
    obtain ⟨grown, reached, blocks, _⟩ := baseReachable.grow spelled_heights work (by omega) built.height
      built.previous built.bits (accepted latest (acceptAll_lenient.at nonce) (by omega))
    exact ⟨grown, block, reached, blocks, built.height.trans baseLength, built.nonce⟩
  obtain ⟨first, firstBlock, firstReachable, firstBlocks, firstHeight, firstNonce⟩ := branch 0
  obtain ⟨second, secondBlock, secondReachable, secondBlocks, secondHeight, secondNonce⟩ := branch 1
  have late : RANDOMX_EPOCH_BLOCKS ≤ 2048 := by decide
  have place : referenceIndex 2048 = 1984 := by decide
  have firstLength : first.blocks.length = 2049 := by
    rw [firstBlocks, List.length_append, baseLength]
    rfl
  have secondLength : second.blocks.length = 2049 := by
    rw [secondBlocks, List.length_append, baseLength]
    rfl
  have early : ∀ index < 2048, first.blocks[index]? = second.blocks[index]? := by
    intro index below
    rw [firstBlocks, secondBlocks, List.getElem?_append_left (by omega), List.getElem?_append_left (by omega)]
  have firstLinked := firstReachable.valid.linked
  have secondLinked := secondReachable.valid.linked
  have apartLinked := apartReachable.valid.linked
  have firstNonces : ∀ block ∈ first.blocks, block.header.nonce = 0 := by
    intro block inside
    rw [firstBlocks, List.mem_append, List.mem_singleton] at inside
    rcases inside with earlier | last
    · rcases baseNonces block earlier with ground | named
      · rw [ground]
        rfl
      · exact named
    · rw [last]
      exact firstNonce
  have similar : ∀ one ∈ first.blocks, ∀ two ∈ second.blocks, one.id = two.id → one = two := by
    intro one inside two inside' same
    have ⟨heights, nonces⟩ := spelled_id_injective same
    have here := at_height firstLinked inside
    have there := at_height secondLinked inside'
    rw [heights] at here
    rcases Nat.lt_or_ge two.header.height.toNat 2048 with below | last
    · rw [early _ below, there] at here
      exact (Option.some.inj here).symm
    · have bound := (List.getElem?_eq_some_iff.mp there).1
      have top : two.header.height.toNat = 2048 := by omega
      rw [secondBlocks, top, List.getElem?_append_right (by omega), baseLength] at there
      rw [← Option.some.inj there, secondNonce] at nonces
      rw [firstNonces one inside] at nonces
      exact absurd nonces (by decide)
  have foreign : ∀ one ∈ first.blocks, ∀ two ∈ apart.blocks, one.id = two.id → one = two := by
    intro one inside two inside' same
    have ⟨heights, nonces⟩ := spelled_id_injective same
    have here := at_height firstLinked inside
    rw [heights] at here
    rcases apartNonces two inside' with ground | named
    · rw [ground] at here ⊢
      have head := firstReachable.valid.head
      rw [List.head?_eq_getElem?] at head
      exact Option.some.inj (here.symm.trans head)
    · rw [named, firstNonces one inside] at nonces
      exact absurd nonces (by decide)
  have ⟨_, _, alike⟩ := seeds_agree_iff firstReachable.valid secondReachable.valid late (by omega) (by omega)
    similar fun one two _ _ => spelled_seed_free 2048 one two
  have ⟨_, _, unlike⟩ := seeds_agree_iff firstReachable.valid apartReachable.valid late (by omega) (by omega)
    foreign fun one two _ _ => spelled_seed_free 2048 one two
  have tops : first.blocks[2048]? ≠ second.blocks[2048]? := by
    intro same
    rw [firstBlocks, secondBlocks, List.getElem?_append_right (by omega),
      List.getElem?_append_right (by omega), baseLength] at same
    have blocks : firstBlock = secondBlock := Option.some.inj same
    rw [← blocks, firstNonce] at secondNonce
    exact absurd secondNonce (by decide)
  have firsts : first.blocks[1]? ≠ apart.blocks[1]? := by
    intro same
    have found := List.getElem?_eq_getElem (show 1 < first.blocks.length by omega)
    have found' := same.symm.trans found
    have nonce := firstNonces _ (List.mem_of_getElem? found)
    rcases apartNonces _ (List.mem_of_getElem? found') with ground | named
    · have height := (apartLinked 1 _ found').height
      rw [ground] at height
      exact absurd height (by decide)
    · rw [named] at nonce
      exact absurd nonce (by decide)
  refine ⟨first.blocks, second.blocks, apart.blocks, firstLength, secondLength, apartLength, tops, firsts,
    alike.mpr ?_, fun same => ?_⟩
  · rw [place, firstBlocks, secondBlocks, List.take_append_of_le_length (by omega),
      List.take_append_of_le_length (by omega)]
  · have prefixes := unlike.mp same
    exact firsts (getElem_of_take_eq (by omega) prefixes)

end Seeds

/-! One worker that asks for one hash after another. -/

namespace RandomX

def settled : KeyedCell.Phase Bytes Context Error → List Bytes
  | .installing seed _ | .leaving seed _ | .done seed _ => [seed]
  | _ => []

variable {Worker : Type} [DecidableEq Worker] {api : Api} {mode : Mode} {randomX next : RandomX Worker}

/-- The contexts after the first were made for calls, in the order of the calls. -/
def InOrder (randomX : RandomX Worker) (worker : Worker) : Prop :=
  (randomX.context.made.tail.map Context.seed).Sublist
    (randomX.answers.map Answer.seed ++ settled (randomX.context.phase worker))

theorem cell_inOrder {cell after : KeyedCell.Cell Worker Bytes Context Error} {worker : Worker}
    {asked : List Bytes} (started : cell.made ≠ [])
    (inside : ∀ seed outcome, cell.phase worker ≠ .done seed outcome)
    (moves : KeyedCell.Step Context.seed (Makes api mode) worker cell after)
    (ordered : (cell.made.tail.map Context.seed).Sublist (asked ++ settled (cell.phase worker))) :
    (after.made.tail.map Context.seed).Sublist (asked ++ settled (after.phase worker)) := by
  have moved (phase : KeyedCell.Phase Bytes Context Error) : (cell.move worker phase).phase worker = phase :=
    (cell.move_phase worker phase worker).trans (if_pos rfl)
  have nothing : ∀ {phase : KeyedCell.Phase Bytes Context Error}, cell.phase worker = phase → settled phase = [] →
      (cell.made.tail.map Context.seed).Sublist asked := by
    intro phase at_ empty
    rw [at_, empty, List.append_nil] at ordered
    exact ordered
  cases moves with
  | call seed idle =>
    rw [moved]
    exact (nothing idle rfl).trans (List.sublist_append_left _ _)
  | hit looks present =>
    rw [moved]
    exact (nothing looks rfl).trans (List.sublist_append_left _ _)
  | miss looks absent =>
    rw [moved]
    exact (nothing looks rfl).trans (List.sublist_append_left _ _)
  | lock waits free =>
    change (cell.made.tail.map Context.seed).Sublist (asked ++ settled ((cell.move worker _).phase worker))
    rw [moved]
    exact (nothing waits rfl).trans (List.sublist_append_left _ _)
  | found checks present =>
    rw [moved]
    exact (nothing checks rfl).trans (List.sublist_append_left _ _)
  | missing checks absent =>
    rw [moved]
    exact (nothing checks rfl).trans (List.sublist_append_left _ _)
  | @build seed context builds made =>
    change ((cell.made ++ [context]).tail.map Context.seed).Sublist
      (asked ++ settled ((cell.move worker _).phase worker))
    rw [moved, List.tail_append_of_ne_nil started, List.map_append, List.map_singleton,
      makes_named cell.made seed context made]
    exact (nothing builds rfl).append (List.Sublist.refl [seed])
  | fail error builds =>
    rw [moved]
    exact (nothing builds rfl).trans (List.sublist_append_left _ _)
  | keep installs present =>
    rw [moved]
    rw [installs] at ordered
    exact ordered
  | install installs absent =>
    change (cell.made.tail.map Context.seed).Sublist (asked ++ settled ((cell.move worker _).phase worker))
    rw [moved]
    rw [installs] at ordered
    exact ordered
  | unlock leaves =>
    change (cell.made.tail.map Context.seed).Sublist (asked ++ settled ((cell.move worker _).phase worker))
    rw [moved]
    rw [leaves] at ordered
    exact ordered
  | release ends => exact absurd ends (inside _ _)

theorem InOrder.step [Subsingleton Worker] {worker mover : Worker} (placed : Placed randomX)
    (ordered : InOrder randomX worker) (step : Step api mode mover randomX next) : InOrder next worker := by
  have one : mover = worker := Subsingleton.elim mover worker
  have answered : ∀ seed outcome result, randomX.context.phase mover = .done seed outcome →
      InOrder (randomX.answer mover seed result) worker := by
    intro seed outcome result done
    unfold InOrder at ordered ⊢
    change (randomX.context.made.tail.map Context.seed).Sublist
      ((randomX.answers ++ [_]).map Answer.seed ++ settled ((randomX.context.move mover .idle).phase worker))
    rw [one] at done
    rw [done] at ordered
    have silent : settled .idle = [] := rfl
    rw [KeyedCell.Cell.move_phase, if_pos one.symm, silent, List.append_nil, List.map_append]
    exact ordered
  cases step with
  | call seed input idle =>
    unfold InOrder at ordered ⊢
    change (randomX.context.made.tail.map Context.seed).Sublist
      (randomX.answers.map Answer.seed ++ settled ((randomX.context.move mover (.looking seed)).phase worker))
    rw [one] at idle
    rw [idle] at ordered
    rw [KeyedCell.Cell.move_phase, if_pos one.symm]
    exact ordered
  | context entered inside moves =>
    rw [one] at moves inside
    exact cell_inOrder (List.ne_nil_of_mem placed.coherent.present) inside moves ordered
  | noContext failed => exact answered _ _ _ failed
  | take available has waits taken => exact ordered
  | noVm available has waits failed => exact answered _ _ _ has
  | compute runs => exact ordered
  | @store seed context vm output has stores => exact answered seed _ (.ok output) has

theorem Reached.inOrder [Subsingleton Worker] (reached : Reached api mode randomX) (worker : Worker) :
    InOrder randomX worker := by
  induction reached with
  | load memory available loaded =>
    have ⟨context, _, _, _, cell, _⟩ := load_ok loaded
    unfold InOrder
    rw [cell]
    exact List.nil_sublist _
  | step earlier step ih => exact ih.step earlier.placed step

end RandomX

theorem length_le_of_increasing {epochs : List Nat} {top : Nat} (increasing : epochs.IsChain (· < ·))
    (below : ∀ epoch ∈ epochs, epoch ≤ top) : epochs.length ≤ top + 1 := by
  have distinct : epochs.Nodup := increasing.pairwise.imp Nat.ne_of_lt
  have inside : epochs ⊆ List.range (top + 1) := fun epoch listed =>
    List.mem_range.mpr (Nat.lt_succ_of_le (below epoch listed))
  have fewer := (List.subperm_of_subset distinct inside).length_le
  rwa [List.length_range] at fewer

/-- One worker that hashes the heights of a history in order makes one context for each epoch,
besides the one of the self-test. -/
theorem replay_contexts [Crypto] {Worker : Type} [DecidableEq Worker] [Unique Worker] {api : RandomX.Api}
    {mode : RandomX.Mode} {randomX : RandomX Worker} (reached : RandomX.Reached api mode randomX)
    (returned : ∀ worker, randomX.context.phase worker = .idle) {history : List Block} {heights : List UInt64}
    {top : UInt64} (asked : randomX.answers.map (fun answer => .ok answer.seed) = heights.map (randomxSeed history))
    (ordered : heights.Pairwise (· ≤ ·)) (below : ∀ height ∈ heights, height ≤ top) :
    randomX.context.made.length ≤ 2 + top.toNat / 2048 := by
  have sublist := reached.inOrder (default : Worker)
  unfold RandomX.InOrder at sublist
  have silent : RandomX.settled .idle = [] := rfl
  rw [returned, silent, List.append_nil] at sublist
  have calls := sublist.map (fun seed => (.ok seed : Except ConsensusError Bytes))
  rw [List.map_map, List.map_map] at calls
  have listed : List.Sublist _ (heights.map (randomxSeed history)) := asked ▸ calls
  have ⟨used, inside, seeds⟩ := List.sublist_map_iff.mp listed
  have changes := reached.placed.coherent.changes.tail
  -- the heights for which contexts were made lie in different epochs
  have increasing : (used.map fun height => height.toNat / 2048).IsChain (· < ·) := by
    have differ : used.IsChain fun earlier later => randomxSeed history earlier ≠ randomxSeed history later := by
      apply (List.isChain_map _).mp
      rw [← seeds]
      exact (List.isChain_map _).mpr (changes.imp fun _ _ different same => different (Except.ok.inj same))
    apply (List.isChain_map _).mpr
    apply List.isChain_iff_getElem.mpr
    intro index bound
    have apart := List.isChain_iff_getElem.mp differ index bound
    have rising : used[index] ≤ used[index + 1] :=
      List.pairwise_iff_getElem.mp (ordered.sublist inside) index (index + 1) _ bound (Nat.lt_succ_self index)
    apply Nat.lt_of_le_of_ne (Nat.div_le_div_right (UInt64.le_iff_toNat_le.mp rising))
    exact fun same => apart (randomxSeed_epoch history same)
  have last : ∀ epoch ∈ used.map fun height => height.toNat / 2048, epoch ≤ top.toNat / 2048 := by
    intro epoch listed
    have ⟨height, member, same⟩ := List.mem_map.mp listed
    rw [← same]
    exact Nat.div_le_div_right (UInt64.le_iff_toNat_le.mp (below height (inside.subset member)))
  have few := length_le_of_increasing increasing last
  have counted := congrArg List.length seeds
  simp only [List.length_map, List.length_tail] at counted few
  omega

namespace RandomX

variable {Worker : Type} [DecidableEq Worker] {api : Api} {mode : Mode} {randomX : RandomX Worker}

theorem Reached.finishes (reached : Reached api mode randomX) {worker : Worker} {seed : Bytes}
    {context : Context} (done : randomX.context.phase worker = .done seed (.ok context))
    (waits : randomX.use worker = .waiting) :
    ∃ next, Reached api mode next ∧ next.context.phase worker = .idle ∧
      next.answers.map Answer.seed = randomX.answers.map Answer.seed ++ [seed] := by
  obtain ⟨given, taken⟩ : ∃ given, context.takeVm (randomX.idleVms context.id) (randomX.created context.id)
      (fun _ => true) = .ok given := by
    unfold Context.takeVm
    split
    · exact ⟨_, rfl⟩
    · exact ⟨_, rfl⟩
  have holds := reached.step (.take (fun _ => true) done waits taken)
  have runs : Function.update randomX.use worker (.running given.1) worker = .running given.1 :=
    Function.update_self ..
  have computed := holds.step (.compute runs)
  have stored := computed.step (.store done (Function.update_self ..))
  refine ⟨_, stored, ?_, ?_⟩
  · exact (KeyedCell.Cell.move_phase ..).trans (if_pos rfl)
  · exact List.map_append ..

theorem Reached.returns [Unique Worker] (reached : Reached api .light randomX)
    (idle : ∀ worker, randomX.context.phase worker = .idle) (seed input : Bytes) :
    ∃ next : RandomX Worker, Reached api .light next ∧ (∀ worker, next.context.phase worker = .idle) ∧
      next.answers.map Answer.seed = randomX.answers.map Answer.seed ++ [seed] := by
  let worker : Worker := default
  have moved (cell : KeyedCell.Cell Worker Bytes Context Error) (phase : KeyedCell.Phase Bytes Context Error) :
      (cell.move worker phase).phase worker = phase :=
    (cell.move_phase worker phase worker).trans (if_pos rfl)
  have waits : randomX.use worker = .waiting := by
    apply use_waiting
    apply reached.placed.holds_nothing
    intro seed context
    rw [idle]
    exact nofun
  have unlocked : randomX.context.owner = none := by
    cases held : randomX.context.owner with
    | none => rfl
    | some owner =>
      have locked := (reached.placed.coherent.owned owner).mpr held
      rw [idle] at locked
      cases locked
  have called := reached.step (.call seed input (idle worker))
  have enough : ∀ context, (∃ seen : RandomX Worker, Reached api .light seen ∧
      seen.context.phase worker = .done seed (.ok context) ∧ seen.use worker = .waiting ∧
      seen.answers = randomX.answers) → ∃ next : RandomX Worker, Reached api .light next ∧
        (∀ worker, next.context.phase worker = .idle) ∧
        next.answers.map Answer.seed = randomX.answers.map Answer.seed ++ [seed] := by
    intro context ⟨seen, ran, done, free, same⟩
    obtain ⟨next, finished, rests, answers⟩ := ran.finishes done free
    rw [same] at answers
    refine ⟨next, finished, fun other => ?_, answers⟩
    rw [Subsingleton.elim other worker]
    exact rests
  by_cases present : randomX.context.current.seed = seed
  · have got := called.enters (by rw [moved]; rfl) (.hit (moved _ _) present)
    exact enough _ ⟨_, got, moved _ _, waits, rfl⟩
  · have missed := called.enters (by rw [moved]; rfl) (.miss (moved _ _) present)
    have locked := missed.enters (by rw [moved]; rfl) (.lock (moved _ _) unlocked)
    have checked := locked.enters (by rw [moved]; rfl) (.missing (moved _ _) present)
    have built := checked.enters (by rw [moved]; rfl) (.build (moved _ _) (makes_light api _ seed))
    have installed := built.enters (by rw [moved]; rfl) (.install (moved _ _) present)
    have left := installed.enters (by rw [moved]; rfl) (.unlock (moved _ _))
    exact enough _ ⟨_, left, moved _ _, waits, rfl⟩

theorem answered_run (seeds : List Bytes) : ∃ randomX : RandomX Unit, Reached selfTested .light randomX ∧
    (∀ worker, randomX.context.phase worker = .idle) ∧ randomX.answers.map Answer.seed = seeds := by
  induction seeds using List.reverseRecOn with
  | nil => exact ⟨_, .load ⟨true, true⟩ (fun _ => true) rfl, fun _ => rfl, rfl⟩
  | append_singleton seeds seed ih =>
    obtain ⟨randomX, reached, idle, asked⟩ := ih
    rw [← asked]
    exact reached.returns idle seed []

end RandomX

/-- Five calls, three in the first epoch and two in the second. -/
theorem two_epochs_contexts :
    let _ := spelled
    ∃ (history : List Block) (randomX : RandomX Unit), history.length = 2049 ∧
      RandomX.Reached RandomX.selfTested .light randomX ∧
      randomX.answers.map (fun answer => .ok answer.seed) =
        [1, 2047, 2047, 2048, 2048].map (randomxSeed history) ∧
      randomxSeed history 2047 ≠ randomxSeed history 2048 ∧ randomX.context.made.length ≤ 3 := by
  intro crypto
  obtain ⟨chain, reachable, _, length, _⟩ := reachable_quiet spelled_heights (acceptAll_lenient.at 0)
    LedgerState.addressMin (show 2048 ≤ 2 ^ 32 by decide)
  have reaches : referenceIndex 2048 < chain.blocks.length := by
    rw [length]
    decide
  have later := randomxSeed_reference reachable.valid.linked (by decide) (List.getElem?_eq_getElem reaches)
  generalize domainHash "PARITR-P9-RANDOMX-EPOCH-v1" (epochInput 2048 (chain.blocks[referenceIndex 2048])) =
    hash at later
  obtain ⟨randomX, reached, returned, asked⟩ := RandomX.answered_run
    [ascii RANDOMX_BOOTSTRAP_SEED, ascii RANDOMX_BOOTSTRAP_SEED, ascii RANDOMX_BOOTSTRAP_SEED,
      hash.bytes, hash.bytes]
  have seeds : randomX.answers.map (fun answer => .ok answer.seed) =
      [1, 2047, 2047, 2048, 2048].map (randomxSeed chain.blocks) := by
    change randomX.answers.map (Except.ok ∘ RandomX.Answer.seed) = _
    rw [← List.map_map, asked]
    simp only [List.map_cons, List.map_nil, later]
    rfl
  have differ : randomxSeed chain.blocks 2047 ≠ randomxSeed chain.blocks 2048 := by
    intro same
    rw [later] at same
    have widths := congrArg List.length (Except.ok.inj same)
    rw [hash.length_eq] at widths
    exact absurd widths (by decide)
  have below : ∀ height ∈ ([1, 2047, 2047, 2048, 2048] : List UInt64), height ≤ 2048 := by
    simp only [List.forall_mem_cons]
    exact ⟨by decide, by decide, by decide, by decide, by decide, List.forall_mem_nil _⟩
  exact ⟨chain.blocks, randomX, length, reached, seeds, differ,
    replay_contexts reached returned seeds (by decide) below⟩

end ParitrNode
