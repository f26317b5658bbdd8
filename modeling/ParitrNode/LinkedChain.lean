import ParitrNode.Acceptance

/-!
Histories: every block after genesis is accepted on the blocks before it. A
history is linked by parent ids, its heights are its indices, and each block
after the first was mined on its predecessor.
-/

namespace ParitrNode
open ByteCodec OrderedMap Checked

variable [Crypto]

/-- A block list with the ledger state after it. The clock may differ from one
block to the next. -/
inductive ValidHistory (pow : PowVerifier) : List Block → LedgerState → Prop where
  | genesis : ValidHistory pow [Block.genesis] default
  | extend {history : List Block} {state next : LedgerState} {block : Block} {now : UInt64}
      (earlier : ValidHistory pow history state) (above : block.header.height ≠ 0)
      (accepted : Accepted block history state pow now next) :
      ValidHistory pow (history ++ [block]) next

/-- The header hash met the target of the block under the seed of its height. -/
def ProofChecked (pow : PowVerifier) (history : List Block) (block : Block) : Prop :=
  ∃ seed target hash, randomxSeed history block.header.height = .ok seed ∧
    bitsToTarget block.header.bits = some target ∧
    pow.hash seed block.header.consensusEncode = .ok hash ∧ hashMeetsTarget hash target

structure LinkedAt (pow : PowVerifier) (blocks : List Block) (index : Nat) (block : Block) : Prop where
  height : block.header.height.toNat = index
  mined : 1 ≤ index → ∃ previous, blocks[index - 1]? = some previous ∧
    block.header.previousBlock = previous.id ∧ ProofChecked pow (blocks.take index) block

def Linked (pow : PowVerifier) (blocks : List Block) : Prop :=
  ∀ index block, blocks[index]? = some block → LinkedAt pow blocks index block

theorem LinkedAt.append {pow : PowVerifier} {blocks : List Block} {index : Nat} {block : Block}
    (linked : LinkedAt pow blocks index block) (inside : index ≤ blocks.length) (later : List Block) :
    LinkedAt pow (blocks ++ later) index block where
  height := linked.height
  mined positive := by
    obtain ⟨previous, found, parent, worked⟩ := linked.mined positive
    refine ⟨previous, ?_, parent, ?_⟩
    · rw [List.getElem?_append_left (by omega), found]
    · rwa [List.take_append_of_le_length inside]

omit [Crypto] in
/-- The next height does not wrap, since a wrapped height is zero. -/
theorem height_succ {header parent : BlockHeader} (follows : header.height = parent.height + 1)
    (above : header.height ≠ 0) : header.height.toNat = parent.height.toNat + 1 := by
  have bound := parent.height.toNat_lt
  have sum : header.height.toNat = (parent.height.toNat + 1) % 2 ^ 64 := by
    rw [follows, UInt64.toNat_add]
    rfl
  have nonzero : header.height.toNat ≠ 0 := fun zero => above (UInt64.toNat_inj.mp zero)
  omega

theorem Linked.snoc {pow : PowVerifier} {history : List Block} {state next : LedgerState}
    {block : Block} {now : UInt64} (linked : Linked pow history) (above : block.header.height ≠ 0)
    (accepted : Accepted block history state pow now next) : Linked pow (history ++ [block]) := by
  intro index item found
  rcases Nat.lt_or_ge index history.length with inside | outside
  · rw [List.getElem?_append_left inside] at found
    exact (linked index item found).append (by omega) [block]
  · -- the new block, on the last one of the history
    have same : index = history.length ∧ item = block := by
      have bound := (List.getElem?_eq_some_iff.mp found).1
      rw [List.length_append, List.length_singleton] at bound
      have last : index = history.length := by omega
      subst last
      rw [List.getElem?_concat_length] at found
      exact ⟨rfl, (Option.some.inj found).symm⟩
    obtain ⟨rfl, rfl⟩ := same
    obtain ⟨parent, last, follows⟩ := accepted.follows
    rw [List.getLast?_eq_getElem?] at last
    have bound := (List.getElem?_eq_some_iff.mp last).1
    have parentHeight := (linked _ parent last).height
    have height := height_succ follows.height above
    refine ⟨by omega, fun _ => ⟨parent, ?_, follows.previous, ?_⟩⟩
    · rw [List.getElem?_append_left (by omega), last]
    · rw [List.take_left]
      exact accepted.worked

namespace ValidHistory

variable {pow : PowVerifier} {history : List Block} {state : LedgerState}

theorem linked (valid : ValidHistory pow history state) : Linked pow history := by
  induction valid with
  | genesis =>
    intro index block found
    cases index with
    | zero =>
      cases found
      exact ⟨rfl, fun impossible => absurd impossible (by decide)⟩
    | succ index => simp at found
  | extend earlier above accepted ih => exact ih.snoc above accepted

theorem nonempty (valid : ValidHistory pow history state) : history ≠ [] := by
  cases valid with
  | genesis => exact List.cons_ne_nil _ _
  | extend earlier above accepted => exact List.append_ne_nil_of_right_ne_nil _ (List.cons_ne_nil _ _)

theorem head (valid : ValidHistory pow history state) : history.head? = some Block.genesis := by
  induction valid with
  | genesis => rfl
  | extend earlier above accepted ih => rw [List.head?_append, ih]; rfl

theorem tipHeight (valid : ValidHistory pow history state) {tip : Block}
    (last : history.getLast? = some tip) : tip.header.height.toNat + 1 = history.length := by
  rw [List.getLast?_eq_getElem?] at last
  have bound := (List.getElem?_eq_some_iff.mp last).1
  have height := (valid.linked _ tip last).height
  omega

/-- The parent named by an accepted header is the tip, so its height is the length. -/
theorem nextHeight (valid : ValidHistory pow history state) {block : Block} {now : UInt64}
    {next : LedgerState} (above : block.header.height ≠ 0)
    (accepted : Accepted block history state pow now next) :
    block.header.height.toNat = history.length := by
  obtain ⟨parent, last, follows⟩ := accepted.follows
  have tip := valid.tipHeight last
  have height := height_succ follows.height above
  omega

theorem acceptedAt (valid : ValidHistory pow history state) {index : Nat} {block : Block}
    (found : history[index]? = some block) (positive : 0 < index) :
    ∃ before next now, ValidHistory pow (history.take index) before ∧ block.header.height ≠ 0 ∧
      Accepted block (history.take index) before pow now next := by
  induction valid with
  | genesis =>
    have bound := (List.getElem?_eq_some_iff.mp found).1
    simp only [List.length_singleton] at bound
    omega
  | @extend history state next last now earlier above accepted ih =>
    rcases Nat.lt_or_ge index history.length with inside | outside
    · rw [List.getElem?_append_left inside] at found
      rw [List.take_append_of_le_length (Nat.le_of_lt inside)]
      exact ih found
    · have bound := (List.getElem?_eq_some_iff.mp found).1
      rw [List.length_append, List.length_singleton] at bound
      have same : index = history.length := by omega
      subst same
      rw [List.getElem?_concat_length] at found
      cases found
      rw [List.take_left]
      exact ⟨state, next, now, earlier, above, accepted⟩

theorem timestamp_add (valid : ValidHistory pow history state) {index distance : Nat}
    {first second : Block} (foundFirst : history[index]? = some first)
    (foundSecond : history[index + distance]? = some second) :
    first.header.timestamp.toNat + distance ≤ second.header.timestamp.toNat := by
  induction distance generalizing second with
  | zero =>
    rw [Nat.add_zero, foundFirst] at foundSecond
    cases foundSecond
    exact Nat.le_refl _
  | succ distance ih =>
    have bound := (List.getElem?_eq_some_iff.mp foundSecond).1
    have middle := List.getElem?_eq_getElem (show index + distance < history.length by omega)
    have below := ih middle
    obtain ⟨_, _, _, _, _, accepted⟩ := valid.acceptedAt foundSecond (by omega)
    obtain ⟨parent, last, follows⟩ := accepted.follows
    rw [List.getLast?_eq_getElem?, List.length_take, Nat.min_eq_left (by omega),
      List.getElem?_take_of_lt (by omega), show index + (distance + 1) - 1 = index + distance by omega,
      middle] at last
    cases last
    have step := UInt64.lt_iff_toNat_lt.mp follows.afterParent
    omega

end ValidHistory

/-! Work along a list of blocks. -/

omit [Crypto] in
theorem addWork_ok_iff {total : Nat} {block : Block} {work : Nat} :
    addWork total block = .ok work ↔ ∃ target, bitsToTarget block.header.bits = some target ∧
      total + targetWork target ≤ MAX_U256 ∧ work = total + targetWork target := by
  unfold addWork
  simp only [bind_ok, okOr_ok, guard_ok, gt_iff_lt, Nat.not_lt]
  constructor
  · rintro ⟨target, valid, bound, result⟩
    exact ⟨target, valid, bound, (Except.ok.inj result).symm⟩
  · rintro ⟨target, valid, bound, rfl⟩
    exact ⟨target, valid, bound, rfl⟩

omit [Crypto] in
theorem cumulativeWork_snoc {blocks : List Block} {block : Block} {work : Nat} :
    cumulativeWork (blocks ++ [block]) = .ok work ↔
      ∃ earlier, cumulativeWork blocks = .ok earlier ∧ addWork earlier block = .ok work := by
  unfold cumulativeWork
  rw [List.foldlM_append, bind_ok]
  simp only [List.foldlM_cons, List.foldlM_nil, bind_pure]

omit [Crypto] in
/-- The work of an accepted block is positive, so it strictly adds up. -/
theorem addWork_lt {total : Nat} {block : Block} {work : Nat} (added : addWork total block = .ok work) :
    total < work := by
  obtain ⟨target, -, -, rfl⟩ := addWork_ok_iff.mp added
  have positive := targetWork_pos target
  omega

theorem genesis_work : Chain.genesis.cumulativeWork = targetWork launchTarget := by
  have bits : Block.genesis.header.bits = targetToBits initialTarget := rfl
  unfold Chain.genesis Chain.genesis.initialTargetOfGenesis
  rw [bits, bitsToTarget_launch]
  rfl

theorem cumulativeWork_genesis : cumulativeWork [Block.genesis] = .ok Chain.genesis.cumulativeWork := by
  change cumulativeWork ([] ++ [Block.genesis]) = _
  refine cumulativeWork_snoc.mpr ⟨0, rfl, addWork_ok_iff.mpr ⟨launchTarget, bitsToTarget_launch, by decide +kernel, ?_⟩⟩
  rw [genesis_work, Nat.zero_add]

/-! Replay and extension stay inside the histories. -/

theorem replay_valid {pow : PowVerifier} {now : UInt64} {done : List Block} {state : LedgerState}
    {rest : List Block} {final : LedgerState} (valid : ValidHistory pow done state)
    (replayed : Chain.replay pow now done state rest = .ok final)
    (above : ∀ block ∈ rest, block.header.height ≠ 0) : ValidHistory pow (done ++ rest) final := by
  induction rest generalizing done state with
  | nil =>
    cases replayed
    rwa [List.append_nil]
  | cons block rest ih =>
    obtain ⟨next, accepted, later⟩ := bind_ok.mp replayed
    have here := above block List.mem_cons_self
    have step := valid.extend here ((validateBlock_ok_iff here).mp accepted)
    have whole := ih step later (fun other member => above other (List.mem_cons_of_mem _ member))
    rwa [List.append_assoc] at whole

theorem fromBlocks_ok_iff {blocks : List Block} {pow : PowVerifier} {now : UInt64} {chain : Chain} :
    Chain.fromBlocks blocks pow now = .ok chain ↔
      ∃ rest, blocks = Block.genesis :: rest ∧ chain.blocks = blocks ∧
        Chain.replay pow now [Block.genesis] default rest = .ok chain.state ∧
        cumulativeWork blocks = .ok chain.cumulativeWork := by
  unfold Chain.fromBlocks
  cases blocks with
  | nil => exact ⟨fun h => (nomatch h), fun ⟨_, h, _⟩ => (nomatch h)⟩
  | cons first rest =>
    simp only [guard_ok, bind_ok, Decidable.not_not]
    constructor
    · rintro ⟨rfl, state, replayed, work, summed, result⟩
      cases result
      exact ⟨rest, rfl, rfl, replayed, summed⟩
    · rintro ⟨_, sameList, same, replayed, summed⟩
      cases sameList
      refine ⟨rfl, chain.state, replayed, chain.cumulativeWork, summed, ?_⟩
      cases chain
      cases same
      rfl

theorem fromBlocks_valid {blocks : List Block} {pow : PowVerifier} {now : UInt64} {chain : Chain}
    (accepted : Chain.fromBlocks blocks pow now = .ok chain)
    (above : ∀ block ∈ blocks.tail, block.header.height ≠ 0) :
    ValidHistory pow chain.blocks chain.state := by
  obtain ⟨rest, rfl, same, replayed, -⟩ := fromBlocks_ok_iff.mp accepted
  rw [same]
  exact replay_valid .genesis replayed above

/-! The chains a node reaches by extension. -/

theorem append_ok {chain next : Chain} {block : Block} {pow : PowVerifier} {now : UInt64}
    {event : ChainEvent} (appended : chain.append block pow now = .ok (event, next)) :
    (event = .known ∧ next = chain ∧ (chain.blockByHash block.id).isSome) ∨
      (event = .extended block.id block.header.height ∧ chain.blockByHash block.id = none ∧
        block.header.previousBlock = chain.tip.id ∧ next.blocks = chain.blocks ++ [block] ∧
        validateBlock block chain.blocks chain.state pow now = .ok next.state ∧
        addWork chain.cumulativeWork block = .ok next.cumulativeWork) := by
  unfold Chain.append at appended
  split at appended
  next known =>
    cases appended
    exact Or.inl ⟨rfl, rfl, known⟩
  next unknown =>
    simp only [guard_ok, bind_ok, Decidable.not_not] at appended
    obtain ⟨parent, state, accepted, work, added, result⟩ := appended
    cases result
    exact Or.inr ⟨rfl, by simpa using unknown, parent, rfl, accepted, added⟩

theorem append_extends {chain : Chain} {block : Block} {pow : PowVerifier} {now : UInt64}
    {state : LedgerState} {work : Nat} (unknown : chain.blockByHash block.id = none)
    (parent : block.header.previousBlock = chain.tip.id)
    (accepted : validateBlock block chain.blocks chain.state pow now = .ok state)
    (added : addWork chain.cumulativeWork block = .ok work) :
    chain.append block pow now = .ok (.extended block.id block.header.height,
      { blocks := chain.blocks ++ [block], state, cumulativeWork := work, nonempty := by simp }) := by
  unfold Chain.append
  rw [unknown, if_neg (by simp), if_neg (not_not_intro parent), accepted]
  change addWork chain.cumulativeWork block >>= _ = _
  rw [added]
  rfl

/-- The chains reached from genesis by successful `append` calls, at any clock readings. -/
inductive Chain.Reachable (pow : PowVerifier) : Chain → Prop where
  | genesis : Chain.Reachable pow Chain.genesis
  | append {chain next : Chain} {block : Block} {now : UInt64} {event : ChainEvent}
      (earlier : Chain.Reachable pow chain)
      (appended : chain.append block pow now = .ok (event, next)) : Chain.Reachable pow next

theorem Chain.blockByHash_some {chain : Chain} {id : Hash32} {block : Block}
    (found : chain.blockByHash id = some block) : block ∈ chain.blocks ∧ block.id = id := by
  unfold Chain.blockByHash at found
  exact ⟨List.mem_of_find?_eq_some found, by simpa using List.find?_some found⟩

theorem Chain.blockByHash_isSome {chain : Chain} {block : Block} (member : block ∈ chain.blocks) :
    (chain.blockByHash block.id).isSome := by
  unfold Chain.blockByHash
  rw [List.find?_isSome]
  exact ⟨block, member, decide_eq_true rfl⟩

theorem genesis_known {pow : PowVerifier} {chain : Chain}
    (valid : ValidHistory pow chain.blocks chain.state) :
    (chain.blockByHash Block.genesis.id).isSome :=
  Chain.blockByHash_isSome (List.mem_of_head? valid.head)

theorem ValidHistory.append {pow : PowVerifier} {chain next : Chain} {block : Block} {now : UInt64}
    {event : ChainEvent} (valid : ValidHistory pow chain.blocks chain.state)
    (appended : chain.append block pow now = .ok (event, next)) :
    ValidHistory pow next.blocks next.state := by
  rcases append_ok appended with ⟨-, same, -⟩ | ⟨-, unknown, -, blocks, accepted, -⟩
  · rwa [same]
  · -- a block of height zero would be genesis, which the chain already contains
    have above : block.header.height ≠ 0 := by
      intro ground
      have known := genesis_known valid
      rw [← ((validateBlock_zero_iff ground).mp accepted).1, unknown] at known
      cases known
    rw [blocks]
    exact valid.extend above ((validateBlock_ok_iff above).mp accepted)

theorem append_distinct {chain next : Chain} {block : Block} {pow : PowVerifier} {now : UInt64}
    {event : ChainEvent} (distinct : (chain.blocks.map Block.id).Nodup)
    (appended : chain.append block pow now = .ok (event, next)) : (next.blocks.map Block.id).Nodup := by
  rcases append_ok appended with ⟨_, same, _⟩ | ⟨_, unknown, _, blocks, _⟩
  · rwa [same]
  · rw [blocks, List.map_append, List.nodup_append]
    refine ⟨distinct, List.nodup_singleton _, ?_⟩
    intro id old new fresh same
    obtain ⟨block, member, named⟩ := List.mem_map.mp old
    have known := Chain.blockByHash_isSome member
    rw [named, same, List.mem_singleton.mp fresh, unknown] at known
    cases known

theorem Chain.Reachable.ids_nodup {pow : PowVerifier} {chain : Chain}
    (reachable : Chain.Reachable pow chain) : (chain.blocks.map Block.id).Nodup := by
  induction reachable with
  | genesis => exact List.nodup_singleton _
  | append earlier appended ih => exact append_distinct ih appended

theorem Chain.Reachable.valid {pow : PowVerifier} {chain : Chain}
    (reachable : Chain.Reachable pow chain) : ValidHistory pow chain.blocks chain.state := by
  induction reachable with
  | genesis => exact .genesis
  | append earlier appended ih => exact ih.append appended

theorem Linked.above {blocks : List Block} {pow : PowVerifier} (linked : Linked pow blocks) :
    ∀ block ∈ blocks.tail, block.header.height ≠ 0 := by
  intro block member zero
  obtain ⟨index, found⟩ := List.mem_iff_getElem?.mp member
  rw [List.getElem?_tail] at found
  have height := (linked (index + 1) block found).height
  rw [zero] at height
  cases height

/-- A list accepted by `from_blocks` is a real chain exactly when no block after
the first claims height zero. -/
theorem fromBlocks_linked_iff {blocks : List Block} {pow : PowVerifier} {now : UInt64} {chain : Chain}
    (accepted : Chain.fromBlocks blocks pow now = .ok chain) :
    Linked pow blocks ↔ ∀ block ∈ blocks.tail, block.header.height ≠ 0 := by
  have same : chain.blocks = blocks := by
    obtain ⟨rest, -, same, -⟩ := fromBlocks_ok_iff.mp accepted
    exact same
  constructor
  · intro linked block member zero
    obtain ⟨index, found⟩ := List.mem_iff_getElem?.mp member
    rw [List.getElem?_tail] at found
    have height := (linked (index + 1) block found).height
    rw [zero] at height
    cases height
  · intro above
    rw [← same]
    exact (fromBlocks_valid accepted above).linked

omit [Crypto] in
/-- Genesis twice is accepted under any primitives: the second copy is at index
one with height zero. -/
theorem repeated_genesis_not_linked :
    ¬∃ _ : Crypto, ∀ (blocks : List Block) (pow : PowVerifier) (now : UInt64) (chain : Chain),
      Chain.fromBlocks blocks pow now = .ok chain → Linked pow blocks := by
  intro ⟨_, linked⟩
  let pow : PowVerifier := ⟨fun _ _ => .error ""⟩
  let twice : Chain :=
    { blocks := [Block.genesis, Block.genesis]
      state := default
      cumulativeWork := Chain.genesis.cumulativeWork + targetWork launchTarget
      nonempty := List.cons_ne_nil _ _ }
  have replayed : Chain.replay pow 0 [Block.genesis] default [Block.genesis] = .ok default :=
    bind_ok.mpr ⟨default, (validateBlock_zero_iff rfl).mpr ⟨rfl, rfl⟩, rfl⟩
  have bound : Chain.genesis.cumulativeWork + targetWork launchTarget ≤ MAX_U256 := by
    rw [genesis_work]
    decide +kernel
  have summed : cumulativeWork [Block.genesis, Block.genesis] = .ok twice.cumulativeWork :=
    cumulativeWork_snoc.mpr ⟨_, cumulativeWork_genesis,
      addWork_ok_iff.mpr ⟨launchTarget, bitsToTarget_launch, bound, rfl⟩⟩
  have accepted : Chain.fromBlocks [Block.genesis, Block.genesis] pow 0 = .ok twice :=
    fromBlocks_ok_iff.mpr ⟨[Block.genesis], rfl, rfl, replayed, summed⟩
  have second := linked _ pow 0 twice accepted 1 Block.genesis rfl
  cases second.height

end ParitrNode
