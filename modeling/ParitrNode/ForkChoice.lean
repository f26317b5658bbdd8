import Mathlib.Data.Set.Image
import ParitrNode.DurableChain
import ParitrNode.Replayed
import ParitrNode.RoundTrip
import ParitrNode.TimedChain
import ParitrNode.Library.BestSeen

/-!
Fork choice over a tree of blocks that arrive in any order, each after its parent:
the active chain is the best chain of all that arrived, whichever way the node got there.
-/

namespace ParitrNode
open ByteCodec OrderedMap Checked BestSeen

variable [Crypto]

/-! The preference is a strict order. -/

namespace Chain

def Better (first second : Chain) : Prop :=
  preferred first.cumulativeWork first.tip.id second.cumulativeWork second.tip.id

instance betterDecidable (first second : Chain) : Decidable (first.Better second) :=
  inferInstanceAs (Decidable (preferred _ _ _ _))

theorem better_irrefl (chain : Chain) : ¬chain.Better chain := by
  intro better
  rcases better with more | ⟨_, lower⟩
  · exact Nat.lt_irrefl _ more
  · exact FixedBytes.lt_irrefl _ lower

theorem Better.trans {first second third : Chain} (left : first.Better second)
    (right : second.Better third) : first.Better third := by
  unfold Better preferred at *
  rcases left with more | ⟨equal, lower⟩
  · apply Or.inl
    omega
  · rcases right with more | ⟨same, below⟩
    · apply Or.inl
      omega
    · exact Or.inr ⟨equal.trans same, FixedBytes.lt_trans lower below⟩

instance better_isStrictOrder : IsStrictOrder Chain Better where
  irrefl := better_irrefl
  trans _ _ _ := Better.trans

theorem better_total {first second : Chain} (different : first.tip.id ≠ second.tip.id) :
    first.Better second ∨ second.Better first := by
  unfold Better preferred
  rcases Nat.lt_trichotomy first.cumulativeWork second.cumulativeWork with less | equal | more
  · exact Or.inr (Or.inl less)
  · rcases FixedBytes.lt_trichotomy first.tip.id second.tip.id with below | same | above
    · exact Or.inl (Or.inr ⟨equal, below⟩)
    · exact absurd same different
    · exact Or.inr (Or.inr ⟨equal.symm, above⟩)
  · exact Or.inl (Or.inl more)

end Chain

/-! Trees of blocks. -/

/-- Blocks closed under parents down to genesis, with different ids, each with the
chain of its ancestors, which passes full validation at any clock from `start` on. -/
structure BlockTree (pow : PowVerifier) (start : UInt64) where
  blocks : Set Block
  chainTo : Block → Chain
  genesis : Block.genesis ∈ blocks
  ground : chainTo Block.genesis = Chain.genesis
  parent : ∀ block ∈ blocks, block ≠ Block.genesis → ∃ parent ∈ blocks,
    block.header.previousBlock = parent.id ∧ (chainTo block).blocks = (chainTo parent).blocks ++ [block]
  valid : ∀ block ∈ blocks, (chainTo block).Replayed pow start
  distinct : Storage.Distinct blocks
  decodes : ∀ block ∈ blocks, Block.consensusDecode block.consensusEncode = .ok block

namespace BlockTree

variable {pow : PowVerifier} {start : UInt64} (tree : BlockTree pow start)

/-- A property of genesis that every block takes over from its parent. -/
theorem descend {motive : Block → Prop} (ground : motive Block.genesis)
    (step : ∀ block ∈ tree.blocks, block ≠ Block.genesis → ∀ parent ∈ tree.blocks,
      block.header.previousBlock = parent.id →
      (tree.chainTo block).blocks = (tree.chainTo parent).blocks ++ [block] →
      motive parent → motive block) : ∀ block ∈ tree.blocks, motive block := by
  intro block member
  -- the induction is on the length of the chain to the block
  induction size : (tree.chainTo block).blocks.length using Nat.strongRecOn generalizing block with
  | _ length ih =>
    by_cases first : block = Block.genesis
    · rw [first]
      exact ground
    · obtain ⟨parent, inside, named, grown⟩ := tree.parent block member first
      apply step block member first parent inside named grown
      apply ih (tree.chainTo parent).blocks.length ?_ parent inside rfl
      rw [← size, grown, List.length_append]
      exact Nat.lt_succ_self _

theorem chainTo_last {block : Block} (member : block ∈ tree.blocks) :
    (tree.chainTo block).blocks.getLast? = some block := by
  by_cases first : block = Block.genesis
  · rw [first, tree.ground]
    rfl
  · obtain ⟨parent, _, _, grown⟩ := tree.parent block member first
    rw [grown, List.getLast?_concat]

theorem chainTo_tip {block : Block} (member : block ∈ tree.blocks) :
    (tree.chainTo block).tip = block := by
  have last := tree.chainTo_last member
  rw [List.getLast?_eq_getLast_of_ne_nil (tree.chainTo block).nonempty] at last
  exact Option.some.inj last

theorem mem_chainTo {block : Block} (member : block ∈ tree.blocks) :
    block ∈ (tree.chainTo block).blocks := List.mem_of_getLast? (tree.chainTo_last member)

theorem ancestors : ∀ block ∈ tree.blocks, ∀ ancestor ∈ (tree.chainTo block).blocks,
    ancestor ∈ tree.blocks ∧ (tree.chainTo ancestor).blocks <+: (tree.chainTo block).blocks := by
  apply tree.descend (motive := fun block => ∀ ancestor ∈ (tree.chainTo block).blocks,
    ancestor ∈ tree.blocks ∧ (tree.chainTo ancestor).blocks <+: (tree.chainTo block).blocks)
  · intro ancestor inside
    rw [tree.ground] at inside ⊢
    rw [List.mem_singleton.mp inside]
    exact ⟨tree.genesis, by rw [tree.ground]⟩
  · intro block member _ parent _ _ grown ih ancestor inside
    rw [grown, List.mem_append] at inside
    rcases inside with earlier | last
    · obtain ⟨among, initial⟩ := ih ancestor earlier
      rw [grown]
      exact ⟨among, initial.trans (List.prefix_append _ _)⟩
    · rw [List.mem_singleton.mp last]
      exact ⟨member, List.prefix_refl _⟩

theorem notMem_parent {block parent : Block} (inside : parent ∈ tree.blocks)
    (grown : (tree.chainTo block).blocks = (tree.chainTo parent).blocks ++ [block]) :
    block ∉ (tree.chainTo parent).blocks := by
  intro repeated
  have bound := (tree.ancestors parent inside block repeated).2.length_le
  rw [grown, List.length_append] at bound
  exact Nat.not_succ_le_self _ bound

theorem ids_nodup : ∀ block ∈ tree.blocks, ((tree.chainTo block).blocks.map Block.id).Nodup := by
  apply tree.descend (motive := fun block => ((tree.chainTo block).blocks.map Block.id).Nodup)
  · rw [tree.ground]
    exact List.nodup_singleton _
  · intro block member _ parent inside _ grown ih
    rw [grown, List.map_append, List.nodup_append]
    refine ⟨ih, List.nodup_singleton _, ?_⟩
    intro id earlier other last same
    obtain ⟨ancestor, among, named⟩ := List.mem_map.mp earlier
    have equal : ancestor.id = block.id := by rw [named, same, List.mem_singleton.mp last]
    have present := (tree.ancestors parent inside ancestor among).1
    have twice := tree.distinct ancestor present block member equal
    exact tree.notMem_parent inside grown (twice ▸ among)

theorem history {block : Block} (member : block ∈ tree.blocks) :
    ValidHistory pow (tree.chainTo block).blocks (tree.chainTo block).state := by
  apply fromBlocks_valid (tree.valid block member)
  exact fromBlocks_above (tree.valid block member) (Or.inr (tree.ids_nodup block member))

/-- The tip of the chain to a block is found by its height in it. -/
theorem chainTo_take {chain : Block} (member : chain ∈ tree.blocks) {block : Block}
    (inside : block ∈ (tree.chainTo chain).blocks) :
    block.header.height.toNat < (tree.chainTo chain).blocks.length ∧
      (tree.chainTo chain).blocks.take (block.header.height.toNat + 1) = (tree.chainTo block).blocks := by
  obtain ⟨among, initial⟩ := tree.ancestors chain member block inside
  have height := (tree.history among).tipHeight (tree.chainTo_last among)
  rw [height]
  have bound := initial.length_le
  exact ⟨by omega, (List.prefix_iff_eq_take.mp initial).symm⟩

theorem accepted {block parent : Block} (member : block ∈ tree.blocks) (inside : parent ∈ tree.blocks)
    (grown : (tree.chainTo block).blocks = (tree.chainTo parent).blocks ++ [block]) :
    validateBlock block (tree.chainTo parent).blocks (tree.chainTo parent).state pow start =
        .ok (tree.chainTo block).state ∧
      addWork (tree.chainTo parent).cumulativeWork block = .ok (tree.chainTo block).cumulativeWork :=
  (tree.valid parent inside).accepts (tree.valid block member) grown

theorem better_parent {block parent : Block} (member : block ∈ tree.blocks) (inside : parent ∈ tree.blocks)
    (grown : (tree.chainTo block).blocks = (tree.chainTo parent).blocks ++ [block]) :
    (tree.chainTo block).Better (tree.chainTo parent) :=
  Or.inl (addWork_lt (tree.accepted member inside grown).2)

theorem better_total {first second : Block} (one : first ∈ tree.blocks) (two : second ∈ tree.blocks)
    (different : first ≠ second) :
    (tree.chainTo first).Better (tree.chainTo second) ∨
      (tree.chainTo second).Better (tree.chainTo first) := by
  apply Chain.better_total
  rw [tree.chainTo_tip one, tree.chainTo_tip two]
  exact fun same => different (tree.distinct first one second two same)

/-! The walk from a block back to the active chain. -/

/-- A branch beside a better chain has at most 100,000 blocks. -/
def ShortForks : Prop :=
  ∀ side ∈ tree.blocks, ∀ tip ∈ tree.blocks, (tree.chainTo tip).Better (tree.chainTo side) →
    ((tree.chainTo side).blocks.filter
      (fun block => decide (block ∉ (tree.chainTo tip).blocks))).length ≤ 100000

/-- Few enough blocks of the chain to a block lie off a chain for the walk to count them. -/
def Near (chain : Chain) (block : Block) : Prop :=
  ((tree.chainTo block).blocks.filter fun other => decide (other ∉ chain.blocks)).length ≤ 100001

theorem lookup_member {tip block : Block} (member : tip ∈ tree.blocks)
    (inside : block ∈ (tree.chainTo tip).blocks) :
    (tree.chainTo tip).blockByHash block.id = some block := by
  obtain ⟨found, lookup⟩ := Option.isSome_iff_exists.mp (Chain.blockByHash_isSome inside)
  obtain ⟨listed, same⟩ := Chain.blockByHash_some lookup
  have one := (tree.ancestors tip member found listed).1
  have two := (tree.ancestors tip member block inside).1
  rw [lookup, tree.distinct found one block two same]

theorem lookup_absent {tip block : Block} (member : tip ∈ tree.blocks) (among : block ∈ tree.blocks)
    (outside : block ∉ (tree.chainTo tip).blocks) :
    (tree.chainTo tip).blockByHash block.id = none := by
  cases lookup : (tree.chainTo tip).blockByHash block.id with
  | none => rfl
  | some found =>
    obtain ⟨listed, same⟩ := Chain.blockByHash_some lookup
    have one := (tree.ancestors tip member found listed).1
    exact absurd (tree.distinct found one block among same ▸ listed) outside

theorem neighbours {block : Block} (member : block ∈ tree.blocks) {front later : List Block}
    {parent child : Block} (shape : (tree.chainTo block).blocks = front ++ parent :: child :: later) :
    child.header.previousBlock = parent.id ∧ (tree.chainTo parent).blocks = front ++ [parent] := by
  have linked := (tree.history member).linked
  have atParent : (tree.chainTo block).blocks[front.length]? = some parent := by
    rw [shape, List.getElem?_append_right (Nat.le_refl _), Nat.sub_self]
    rfl
  have atChild : (tree.chainTo block).blocks[front.length + 1]? = some child := by
    rw [shape, List.getElem?_append_right (Nat.le_add_right _ 1), Nat.add_sub_cancel_left]
    rfl
  obtain ⟨previous, before, named, _⟩ := (linked _ child atChild).mined (Nat.le_add_left 1 _)
  rw [Nat.add_sub_cancel, atParent] at before
  cases before
  have inside : parent ∈ (tree.chainTo block).blocks := List.mem_of_getElem? atParent
  refine ⟨named, ?_⟩
  rw [← (tree.chainTo_take member inside).2, (linked _ parent atParent).height, shape,
    List.take_length_add_append]
  rfl

theorem walkBranch_returns {tip block : Block} (active : tip ∈ tree.blocks)
    (near : tree.Near (tree.chainTo tip) block) (member : block ∈ tree.blocks) {storage : Storage} {disk : Disk}
    (stored : ∀ ancestor ∈ (tree.chainTo block).blocks, ancestor ≠ block →
      storage.block ancestor.id disk = .ok (some ancestor)) (front : List Block) :
    ∀ (oldest : Block) (later : List Block) (seen : List Hash32),
      (tree.chainTo block).blocks = front ++ oldest :: later →
      (∀ other ∈ oldest :: later, other ∉ (tree.chainTo tip).blocks) →
      (∀ id ∈ seen, ∃ other ∈ oldest :: later, other.id = id) →
      ∃ fork branch, Node.walkBranch (tree.chainTo tip) storage disk seen oldest later =
          .ok (fork.header.height, branch) ∧ fork ∈ (tree.chainTo tip).blocks ∧
        (tree.chainTo block).blocks = (tree.chainTo fork).blocks ++ branch := by
  induction front using List.reverseRecOn with
  | nil =>
    intro oldest later _ shape outside _
    -- the walk never passes genesis
    have head := (tree.history member).head
    rw [shape] at head
    cases head
    exact absurd (List.mem_of_head? (tree.history active).head) (outside _ List.mem_cons_self)
  | append_singleton front parent ih =>
    intro oldest later seen shape outside visited
    rw [List.append_assoc, List.singleton_append] at shape
    have ⟨named, initial⟩ := tree.neighbours member shape
    have inside : parent ∈ (tree.chainTo block).blocks := by
      rw [shape]
      simp
    have among := (tree.ancestors block member parent inside).1
    rw [Node.walkBranch, named]
    by_cases reached : parent ∈ (tree.chainTo tip).blocks
    · rw [tree.lookup_member active reached]
      refine ⟨parent, oldest :: later, rfl, reached, ?_⟩
      rw [shape, initial, List.append_assoc, List.singleton_append]
    · rw [tree.lookup_absent active among reached]
      have ids := tree.ids_nodup block member
      rw [shape, List.map_append, List.map_cons, List.nodup_append] at ids
      have unseen : parent.id ∉ seen := by
        intro earlier
        obtain ⟨other, listed, same⟩ := visited _ earlier
        exact (List.nodup_cons.mp ids.2.1).1 (List.mem_map.mpr ⟨other, listed, same⟩)
      have off : ∀ other ∈ parent :: oldest :: later, other ∉ (tree.chainTo tip).blocks := by
        intro other listed
        rcases List.mem_cons.mp listed with same | earlier
        · rw [same]
          exact reached
        · exact outside other earlier
      have count : later.length + 1 ≤ 100000 := by
        have bound := near
        rw [Near, shape, List.filter_append, List.length_append,
          List.filter_eq_self.mpr fun other listed => decide_eq_true (off other listed)] at bound
        simp only [List.length_cons] at bound
        omega
      have different : parent ≠ block := by
        intro same
        have last := tree.chainTo_last member
        rw [shape, List.getLast?_append_cons] at last
        have listed : block ∈ oldest :: later := by
          rw [List.getLast?_cons_cons] at last
          exact List.mem_of_getLast? last
        exact (List.nodup_cons.mp ids.2.1).1 (List.mem_map.mpr ⟨block, listed, by rw [same]⟩)
      dsimp only
      rw [if_neg (not_or.mpr ⟨unseen, Nat.not_lt.mpr count⟩), stored parent inside different]
      apply ih parent (oldest :: later) (parent.id :: seen) shape off
      intro id listed
      rcases List.mem_cons.mp listed with same | earlier
      · exact ⟨parent, List.mem_cons_self, same.symm⟩
      · obtain ⟨other, among, equal⟩ := visited id earlier
        exact ⟨other, List.mem_cons_of_mem _ among, equal⟩

end BlockTree

/-! Submission of the blocks of a tree. -/

/-- A call at a clock the tree is valid at, on a disk that works. -/
structure Dependable (pow : PowVerifier) (start : UInt64) (env : NodeEnv) : Prop where
  oracle : env.pow = pow
  disk : env.disk = Disk.reliable
  clock : start ≤ env.now
  column : fitsI64 env.now

theorem BlockTree.length_le {pow : PowVerifier} {start : UInt64} (tree : BlockTree pow start) {env : NodeEnv}
    (calm : Dependable pow start env) {block : Block} (member : block ∈ tree.blocks) :
    (tree.chainTo block).blocks.length ≤ 2 ^ 63 := by
  have clock : fitsI64 start := Nat.lt_of_le_of_lt (UInt64.le_iff_toNat_le.mp calm.clock) calm.column
  exact (tree.history member).length_le (fromBlocks_dated (tree.valid block member) clock)

/-- The node is on the best chain of the blocks submitted to it and has stored them all. -/
structure Chosen {pow : PowVerifier} {start : UInt64} (tree : BlockTree pow start) (submitted : Set Block)
    (node : Node) : Prop where
  within : submitted ⊆ tree.blocks
  closed : ∀ block ∈ submitted, ∀ ancestor ∈ (tree.chainTo block).blocks, ancestor ∈ submitted
  best : Best Chain.Better (tree.chainTo '' submitted) node.chain
  stored : node.storage.Holds submitted

section

variable {pow : PowVerifier} {start : UInt64} {tree : BlockTree pow start} {submitted : Set Block}
  {node : Node} {env : NodeEnv} {block parent : Block}

theorem Chosen.tip (chosen : Chosen tree submitted node) :
    ∃ tip ∈ submitted, node.chain = tree.chainTo tip ∧ node.chain.tip = tip := by
  obtain ⟨tip, member, same⟩ := chosen.best.member
  refine ⟨tip, member, same.symm, ?_⟩
  rw [← same, tree.chainTo_tip (chosen.within member)]

theorem BlockTree.onGenesis (member : block ∈ tree.blocks) (first : block ≠ Block.genesis)
    (named : block.header.previousBlock = Block.genesis.id) :
    (tree.chainTo block).blocks = [Block.genesis, block] ∧ (tree.chainTo block).Better Chain.genesis := by
  obtain ⟨parent, inside, same, grown⟩ := tree.parent block member first
  have ground := tree.distinct parent inside Block.genesis tree.genesis (same.symm.trans named)
  rw [ground] at inside grown
  have better := tree.better_parent member inside grown
  rw [tree.ground] at grown better
  exact ⟨grown, better⟩

theorem BlockTree.decided {tip : Block} (member : block ∈ tree.blocks) (active : tip ∈ tree.blocks)
    (different : block ≠ tip) (not : ¬(tree.chainTo block).Better (tree.chainTo tip)) :
    (tree.chainTo tip).Better (tree.chainTo block) :=
  (tree.better_total member active different).resolve_left not

theorem BlockTree.append_tip (member : block ∈ tree.blocks) (inside : parent ∈ tree.blocks)
    (named : block.header.previousBlock = parent.id)
    (grown : (tree.chainTo block).blocks = (tree.chainTo parent).blocks ++ [block]) {now : UInt64}
    (clock : start ≤ now) :
    (tree.chainTo parent).append block pow now =
      .ok (.extended block.id block.header.height, tree.chainTo block) := by
  have ⟨accepted, added⟩ := tree.accepted member inside grown
  have unknown := tree.lookup_absent inside member (tree.notMem_parent inside grown)
  have tip : block.header.previousBlock = (tree.chainTo parent).tip.id := by
    rw [named, tree.chainTo_tip inside]
  rw [append_extends unknown tip (validateBlock_later clock accepted) added]
  cases built : tree.chainTo block with
  | mk blocks state work nonempty =>
    rw [built] at grown
    cases grown
    rfl

/-- The other path: the chain to the block is assembled from the active chain and the
table, and replayed from genesis. -/
theorem BlockTree.assembled {tip : Block} (active : tip ∈ tree.blocks)
    (near : tree.Near (tree.chainTo tip) block) (member : block ∈ tree.blocks) (outside : block ∉ (tree.chainTo tip).blocks)
    (chain : node.chain = tree.chainTo tip)
    (stored : ∀ ancestor ∈ (tree.chainTo block).blocks, ancestor ≠ block →
      node.storage.block ancestor.id env.disk = .ok (some ancestor)) :
    node.assembleCandidate env.disk block = .ok (tree.chainTo block).blocks := by
  obtain ⟨front, shape⟩ := List.getLast?_eq_some_iff.mp (tree.chainTo_last member)
  have alone : ∀ other ∈ [block], other ∉ (tree.chainTo tip).blocks := by
    intro other same
    rw [List.mem_singleton.mp same]
    exact outside
  obtain ⟨fork, branch, walked, reached, whole⟩ := tree.walkBranch_returns active near member stored
    front block [] [] shape alone fun _ none => nomatch none
  have ⟨bound, initial⟩ := tree.chainTo_take active reached
  unfold Node.assembleCandidate
  rw [chain, walked]
  change (if _ then Except.ok _ else _) = _
  rw [if_pos bound, initial, ← whole]

theorem BlockTree.considered {tip : Block} (active : tip ∈ tree.blocks) (member : block ∈ tree.blocks)
    {now : UInt64} (clock : start ≤ now) :
    (tree.chainTo tip).considerChain (tree.chainTo block).blocks pow now =
      if (tree.chainTo block).Better (tree.chainTo tip) then
        .ok (.reorganized (tree.chainTo tip).tip.id (tree.chainTo block).tip.id
          (Chain.forkIndex (tree.chainTo tip).blocks (tree.chainTo block).blocks), tree.chainTo block)
      else .ok (.sideChain, tree.chainTo tip) := by
  have heads : (tree.chainTo block).blocks.head? = (tree.chainTo tip).blocks.head? := by
    rw [(tree.history member).head, (tree.history active).head]
  have replayed : Chain.fromBlocks (tree.chainTo block).blocks pow now = .ok (tree.chainTo block) :=
    fromBlocks_replayed (tree.valid block member) clock
  unfold Chain.considerChain
  rw [if_neg (not_not_intro heads), replayed]
  rfl

theorem Chosen.due_parent (chosen : Chosen tree submitted node) (member : block ∈ tree.blocks)
    (first : block ≠ Block.genesis)
    (due : block = Block.genesis ∨ ∃ parent ∈ submitted, block.header.previousBlock = parent.id) :
    ∃ parent ∈ submitted, block.header.previousBlock = parent.id ∧
      (tree.chainTo block).blocks = (tree.chainTo parent).blocks ++ [block] := by
  obtain ⟨parent, inTree, named, grown⟩ := tree.parent block member first
  obtain ⟨other, earlier, same⟩ := due.resolve_left first
  have equal := tree.distinct parent inTree other (chosen.within earlier) (named.symm.trans same)
  rw [equal] at named grown
  exact ⟨other, earlier, named, grown⟩

/-- The walk back from a block that is due stays within its bound: the parent is on the
active chain or on a branch beside it. -/
theorem Chosen.due_near (chosen : Chosen tree submitted node) (short : tree.ShortForks)
    (member : block ∈ tree.blocks)
    (due : block = Block.genesis ∨ ∃ parent ∈ submitted, block.header.previousBlock = parent.id) :
    tree.Near node.chain block := by
  obtain ⟨tip, among, chain, _⟩ := chosen.tip
  unfold BlockTree.Near
  by_cases first : block = Block.genesis
  · apply Nat.le_trans (List.length_filter_le _ _)
    rw [first, tree.ground]
    exact Nat.le_add_left 1 _
  · obtain ⟨parent, inside, _, grown⟩ := chosen.due_parent member first due
    have beside : ((tree.chainTo parent).blocks.filter
        fun other => decide (other ∉ node.chain.blocks)).length ≤ 100000 := by
      rw [chain]
      by_cases same : parent = tip
      · rw [same, List.filter_eq_nil_iff.mpr]
        · exact Nat.zero_le _
        · intro other listed off
          exact of_decide_eq_true off listed
      · apply short parent (chosen.within inside) tip (chosen.within among)
        rw [← chain]
        apply chosen.best.beats _ (Set.mem_image_of_mem _ inside)
        intro equal
        have ends := congrArg Chain.tip (equal.trans chain)
        rw [tree.chainTo_tip (chosen.within inside), tree.chainTo_tip (chosen.within among)] at ends
        exact same ends
    have one := List.length_filter_le (fun other => decide (other ∉ node.chain.blocks)) [block]
    rw [grown, List.filter_append, List.length_append]
    exact Nat.add_le_add beside one

/-- Either path ends in the same choice between the block and the tip. -/
theorem Chosen.placed (chosen : Chosen tree submitted node) (near : tree.Near node.chain block)
    (calm : Dependable pow start env) (member : block ∈ tree.blocks)
    (unknown : node.chain.blockByHash block.id = none) (inside : parent ∈ submitted)
    (named : block.header.previousBlock = parent.id)
    (grown : (tree.chainTo block).blocks = (tree.chainTo parent).blocks ++ [block]) :
    ∃ event candidate, node.placeBlock env block = .ok (event, candidate) ∧
      (event.Activates ∧ candidate = tree.chainTo block ∧ (tree.chainTo block).Better node.chain ∨
        ¬event.Activates ∧ candidate = node.chain ∧ ¬(tree.chainTo block).Better node.chain) := by
  obtain ⟨tip, among, chain, last⟩ := chosen.tip
  have active := chosen.within among
  have outside : block ∉ (tree.chainTo tip).blocks := by
    intro present
    rw [chain, tree.lookup_member active present] at unknown
    cases unknown
  unfold Node.placeBlock
  rw [calm.oracle, last]
  by_cases extends_tip : block.header.previousBlock = tip.id
  · rw [if_pos extends_tip]
    have same : parent = tip :=
      tree.distinct parent (chosen.within inside) tip active (named.symm.trans extends_tip)
    rw [same] at named grown
    rw [chain, tree.append_tip member active named grown calm.clock]
    exact ⟨_, _, rfl, Or.inl ⟨trivial, rfl, tree.better_parent member active grown⟩⟩
  · rw [if_neg extends_tip]
    have stored : ∀ ancestor ∈ (tree.chainTo block).blocks, ancestor ≠ block →
        node.storage.block ancestor.id env.disk = .ok (some ancestor) := by
      intro ancestor listed different
      rw [grown, List.mem_append, List.mem_singleton] at listed
      have earlier := chosen.closed parent inside ancestor (listed.resolve_right different)
      have reads : env.disk.block = fun _ => none := by rw [calm.disk]; rfl
      exact chosen.stored.block reads earlier (tree.decodes ancestor (chosen.within earlier))
    rw [tree.assembled active (chain ▸ near) member outside chain stored, chain]
    change ∃ event candidate, (tree.chainTo tip).considerChain _ _ _ = _ ∧ _
    rw [tree.considered active member calm.clock]
    by_cases better : (tree.chainTo block).Better (tree.chainTo tip)
    · rw [if_pos better]
      exact ⟨_, _, rfl, Or.inl ⟨trivial, rfl, better⟩⟩
    · rw [if_neg better]
      exact ⟨_, _, rfl, Or.inr ⟨id, rfl, better⟩⟩

/-- One call: the block joins what was submitted, and the node moves to its chain
exactly when that chain is better. -/
theorem Chosen.submit (chosen : Chosen tree submitted node) (near : tree.Near node.chain block)
    (calm : Dependable pow start env) (member : block ∈ tree.blocks)
    (due : block = Block.genesis ∨ ∃ parent ∈ submitted, block.header.previousBlock = parent.id) :
    ∃ event after, node.submitBlock env block = (.ok event, after) ∧
      Chosen tree (insert block submitted) after ∧
      (event.Activates ∧ after.chain.Better node.chain ∨
        ¬event.Activates ∧ after.chain = node.chain) := by
  obtain ⟨tip, among, chain, last⟩ := chosen.tip
  have active := chosen.within among
  have length := tree.length_le calm member
  by_cases known : (node.chain.blockByHash block.id).isSome
  · -- a block of the active chain was submitted before
    obtain ⟨found, lookup⟩ := Option.isSome_iff_exists.mp known
    rw [chain] at lookup
    obtain ⟨listed, same⟩ := Chain.blockByHash_some lookup
    have equal : found = block :=
      tree.distinct found (tree.ancestors tip active found listed).1 block member same
    rw [equal] at listed
    have already : insert block submitted = submitted :=
      Set.insert_eq_of_mem (chosen.closed tip among block listed)
    refine ⟨.known, node, ?_, ?_, Or.inr ⟨id, rfl⟩⟩
    · rw [Node.submitBlock, if_pos known]
    · rw [already]
      exact chosen
  · have unknown : node.chain.blockByHash block.id = none := by simpa using known
    have first : block ≠ Block.genesis := by
      intro same
      have present := genesis_known (tree.history active)
      rw [← chain, ← same, unknown] at present
      cases present
    obtain ⟨parent, inside, named, grown⟩ := chosen.due_parent member first due
    obtain ⟨event, candidate, placed, choice⟩ :=
      chosen.placed near calm member unknown inside named grown
    have heights : fitsI64 block.header.height :=
      (tree.history member).heights_fit length block (tree.mem_chainTo member)
    have works : env.disk.storeSideBlock = none := by rw [calm.disk]; rfl
    obtain ⟨storage, stored, holds⟩ := Storage.storeSideBlock_holds chosen.stored works
      (fun other earlier same => tree.distinct other (chosen.within earlier) block member same)
      heights calm.column
    have recorded : Reached node env block (.recorded storage event candidate) :=
      .single (.record known placed stored)
    have within : insert block submitted ⊆ tree.blocks := Set.insert_subset member chosen.within
    have closed : ∀ other ∈ insert block submitted, ∀ ancestor ∈ (tree.chainTo other).blocks,
        ancestor ∈ insert block submitted := by
      intro other inserted ancestor listed
      rcases Set.mem_insert_iff.mp inserted with same | earlier
      · rw [same, grown, List.mem_append, List.mem_singleton] at listed
        rcases listed with before | here
        · exact Set.mem_insert_of_mem block (chosen.closed parent inside ancestor before)
        · rw [here]
          exact Set.mem_insert block submitted
      · exact Set.mem_insert_of_mem block (chosen.closed other earlier ancestor listed)
    rcases choice with ⟨activates, same, better⟩ | ⟨quiet, same, worse⟩
    · have writes : env.disk.saveChain = none := by rw [calm.disk]; rfl
      have rows : ∀ other ∈ (tree.chainTo block).blocks, (storage.blocks[other.id]?).isSome :=
        fun other listed => holds.isSome (closed block (Set.mem_insert block submitted) other listed)
      obtain ⟨saved, commits, table⟩ := Storage.saveChain_stored writes calm.column
        (tree.history member) length (tree.ids_nodup block member) rows
      rw [← same] at commits
      have reached : Reached node env block (.returned (.ok event) _) :=
        (recorded.tail (.save activates commits)).tail .activate
      refine ⟨event, _, reached.knows, ⟨within, closed, ?_, ?_⟩, Or.inl ⟨activates, ?_⟩⟩
      · rw [Set.image_insert_eq]
        change Best Chain.Better _ candidate
        rw [same]
        exact chosen.best.replaced better
      · intro id data
        change (saved.blocks[id]?).map StoredBlock.data = some data ↔ _
        rw [table]
        exact holds id data
      · change candidate.Better node.chain
        rw [same]
        exact better
    · have reached : Reached node env block (.returned (.ok event) _) := recorded.tail (.settle quiet)
      refine ⟨event, _, reached.knows, ⟨within, closed, ?_, holds⟩, Or.inr ⟨quiet, rfl⟩⟩
      rw [Set.image_insert_eq]
      apply chosen.best.kept
      intro _
      have different : block ≠ tip := by
        intro equal
        rw [chain, equal, tree.lookup_member active (tree.mem_chainTo active)] at unknown
        cases unknown
      rw [chain] at worse ⊢
      exact tree.decided member active different worse

theorem Chosen.blockByHash (chosen : Chosen tree submitted node) (calm : Dependable pow start env)
    (member : block ∈ tree.blocks) :
    (block ∈ submitted → node.blockByHash env.disk block.id = some block) ∧
      (block ∉ submitted → node.blockByHash env.disk block.id = none) := by
  obtain ⟨tip, among, chain, _⟩ := chosen.tip
  have active := chosen.within among
  have reads : env.disk.block = fun _ => none := by
    rw [calm.disk]
    rfl
  unfold Node.blockByHash
  rw [chain]
  constructor
  · intro inside
    rw [chosen.stored.block reads inside (tree.decodes block member)]
    by_cases listed : block ∈ (tree.chainTo tip).blocks
    · rw [tree.lookup_member active listed]
      rfl
    · rw [tree.lookup_absent active member listed]
      rfl
  · intro outside
    have absent : ∀ other ∈ submitted, other.id ≠ block.id := by
      intro other inside same
      exact outside (tree.distinct other (chosen.within inside) block member same ▸ inside)
    rw [chosen.stored.block_none reads absent, tree.lookup_absent active member]
    · rfl
    · exact fun listed => outside (chosen.closed tip among block listed)

theorem Chosen.inserted {next : Node} (chosen : Chosen tree submitted node)
    (after : Chosen tree (insert block submitted) next) (member : block ∈ tree.blocks) :
    (tree.chainTo block).Better node.chain ∧ next.chain = tree.chainTo block ∨
      ¬(tree.chainTo block).Better node.chain ∧ next.chain = node.chain := by
  have final := after.best
  rw [Set.image_insert_eq] at final
  by_cases better : (tree.chainTo block).Better node.chain
  · exact Or.inl ⟨better, final.unique (chosen.best.replaced better)⟩
  · have worse : tree.chainTo block ≠ node.chain → node.chain.Better (tree.chainTo block) := by
      intro different
      obtain ⟨tip, among, chain, _⟩ := chosen.tip
      rw [chain] at better different ⊢
      apply tree.decided member (chosen.within among) _ better
      intro same
      rw [same] at different
      exact different rfl
    exact Or.inr ⟨better, final.unique (chosen.best.kept worse)⟩

/-! Runs. -/

theorem openFresh_holds {disk : Disk} {now : UInt64} {miner : Option Address}
    (opened : Node.openFresh disk now miner = .ok node) :
    node.chain = Chain.genesis ∧ node.storage.Holds {Block.genesis} := by
  obtain ⟨storage, saved, result⟩ := bind_ok.mp opened
  cases result
  refine ⟨rfl, ?_⟩
  change storage.Holds {Block.genesis}
  unfold Storage.saveChain at saved
  split at saved
  next => cases saved
  next =>
    simp only [bind_ok, guard_ok, not_or, Decidable.not_not] at saved
    obtain ⟨stored, inserted, indexed, filled, ⟨_, clock⟩, pruned⟩ := saved
    cases pruned
    have alone : ∀ other ∈ (∅ : Set Block), other.id = Block.genesis.id → other = Block.genesis :=
      fun _ none => nomatch none
    have ground : fitsI64 Block.genesis.header.height := of_decide_eq_true rfl
    obtain ⟨next, first, holds⟩ := Storage.insertBlock_holds Storage.holds_default alone ground clock
    have blocks : indexed.blocks = next.blocks := by
      change (List.foldlM _ _ [Block.genesis]) = _ at inserted
      rw [List.foldlM_cons, first] at inserted
      cases inserted
      exact (Storage.insertActives_rows filled).1
    rw [insert_empty_eq] at holds
    intro id data
    change (indexed.blocks[id]?).map StoredBlock.data = some data ↔ _
    rw [blocks]
    exact holds id data

theorem openFresh_chosen {disk : Disk} {now : UInt64} {miner : Option Address}
    (opened : Node.openFresh disk now miner = .ok node) : Chosen tree {Block.genesis} node := by
  obtain ⟨chain, holds⟩ := openFresh_holds opened
  refine ⟨Set.singleton_subset_iff.mpr tree.genesis, ?_, ?_, holds⟩
  · intro block same ancestor listed
    rw [Set.mem_singleton_iff.mp same, tree.ground] at listed
    exact Set.mem_singleton_iff.mpr (List.mem_singleton.mp listed)
  · rw [Set.image_singleton, tree.ground, chain]
    exact best_singleton _

/-- A node opened on an empty directory and sent blocks of the tree, each after its
parent and any number of times, with other work in between. -/
inductive Arrivals (tree : BlockTree pow start) : List Block → Node → Prop where
  | opened {node : Node} {disk : Disk} {now : UInt64} {miner : Option Address}
      (opened : Node.openFresh disk now miner = .ok node) : Arrivals tree [] node
  | submitted {earlier : List Block} {node : Node} {env : NodeEnv} {block : Block}
      (run : Arrivals tree earlier node) (calm : Dependable pow start env) (member : block ∈ tree.blocks)
      (due : block = Block.genesis ∨ ∃ parent ∈ Block.genesis :: earlier,
        block.header.previousBlock = parent.id) :
      Arrivals tree (earlier ++ [block]) (node.submitBlock env block).2
  | worked {earlier : List Block} {node next : Node} (run : Arrivals tree earlier node)
      (storage : next.storage = node.storage) (chain : next.chain = node.chain) :
      Arrivals tree earlier next

theorem Arrivals.chosen {blocks : List Block} (run : Arrivals tree blocks node) (short : tree.ShortForks) :
    Chosen tree {block | block ∈ Block.genesis :: blocks} node := by
  induction run with
  | opened opened =>
    have only : {block | block ∈ [Block.genesis]} = ({Block.genesis} : Set Block) := by
      ext block
      simp
    rw [only]
    exact openFresh_chosen opened
  | @submitted earlier node env block run calm member due ih =>
    obtain ⟨event, after, result, chosen, _⟩ :=
      ih.submit (ih.due_near short member due) calm member due
    have grown : {other | other ∈ Block.genesis :: (earlier ++ [block])} =
        insert block {other | other ∈ Block.genesis :: earlier} := by
      ext other
      simp only [Set.mem_ofPred_eq, Set.mem_insert_iff, List.mem_cons, List.mem_append, List.not_mem_nil,
        or_false]
      tauto
    rw [grown, result]
    exact chosen
  | worked run storage chain ih =>
    refine ⟨ih.within, ih.closed, ?_, ?_⟩
    · rw [chain]
      exact ih.best
    · rw [storage]
      exact ih.stored

theorem Arrivals.next {blocks : List Block} (run : Arrivals tree blocks node) (short : tree.ShortForks)
    (calm : Dependable pow start env) (member : block ∈ tree.blocks)
    (due : block = Block.genesis ∨ ∃ parent ∈ Block.genesis :: blocks,
      block.header.previousBlock = parent.id) :
    ∃ event after, node.submitBlock env block = (.ok event, after) ∧
      (event.Activates ∧ after.chain.Better node.chain ∨
        ¬event.Activates ∧ after.chain = node.chain) := by
  have chosen := run.chosen short
  obtain ⟨event, after, result, _, choice⟩ :=
    chosen.submit (chosen.due_near short member due) calm member due
  exact ⟨event, after, result, choice⟩

/-- Two nodes that were sent the same blocks, in whatever orders, are on the same chain:
the one of most work among all submitted, the lower id among equals. On the way there each
block that moved the node brought it more work, or as much and a lower tip id. -/
theorem arrivals_agree {first second : List Block} {one two : Node} (short : tree.ShortForks)
    (left : Arrivals tree first one) (right : Arrivals tree second two)
    (same : ∀ block, block ∈ first ↔ block ∈ second) :
    one.chain = two.chain ∧
      (∃ tip ∈ Block.genesis :: first, one.chain = tree.chainTo tip ∧
        ∀ block ∈ Block.genesis :: first, block ≠ tip →
          one.chain.cumulativeWork > (tree.chainTo block).cumulativeWork ∨
            (one.chain.cumulativeWork = (tree.chainTo block).cumulativeWork ∧ tip.id < block.id)) ∧
      ∀ (earlier : List Block) (node : Node) (env : NodeEnv) (block : Block),
        Arrivals tree earlier node → Dependable pow start env → block ∈ tree.blocks →
        (block = Block.genesis ∨ ∃ parent ∈ Block.genesis :: earlier,
          block.header.previousBlock = parent.id) →
        ∃ event after, node.submitBlock env block = (.ok event, after) ∧
          (event.Activates ∧ (after.chain.cumulativeWork > node.chain.cumulativeWork ∨
              (after.chain.cumulativeWork = node.chain.cumulativeWork ∧
                after.chain.tip.id < node.chain.tip.id)) ∨
            ¬event.Activates ∧ after.chain = node.chain) := by
  have chosen := left.chosen short
  have other := right.chosen short
  have equal : {block | block ∈ Block.genesis :: second} = {block | block ∈ Block.genesis :: first} := by
    ext block
    simp only [Set.mem_ofPred_eq, List.mem_cons, same]
  rw [equal] at other
  obtain ⟨tip, member, chain, last⟩ := chosen.tip
  refine ⟨chosen.best.unique other.best, ⟨tip, member, chain, ?_⟩,
    fun _ _ _ _ run calm among due => run.next short calm among due⟩
  intro block listed different
  have apart : tree.chainTo block ≠ one.chain := by
    intro same
    have ends := congrArg Chain.tip same
    rw [tree.chainTo_tip (chosen.within listed), last] at ends
    exact different ends
  have better := chosen.best.beats _ (Set.mem_image_of_mem _ listed) apart
  unfold Chain.Better Chain.preferred at better
  rw [last, tree.chainTo_tip (chosen.within listed)] at better
  exact better

end

/-! Two blocks on genesis. -/

theorem first_block (nonce : UInt64) : ∃ (chain : Chain) (block : Block), block.header.nonce = nonce ∧
    block.header.previousBlock = Block.genesis.id ∧ chain.blocks = [Block.genesis, block] ∧
    chain.Replayed acceptAll GENESIS_TIMESTAMP ∧
    Block.consensusDecode block.consensusEncode = .ok block := by
  have before : ∀ block ∈ [Block.genesis], block.header.timestamp.toNat ≤ GENESIS_TIMESTAMP.toNat := by
    intro block member
    rw [List.mem_singleton.mp member]
    exact Nat.le_refl _
  have later : GENESIS_TIMESTAMP.toNat < (GENESIS_TIMESTAMP + 64).toNat := by decide
  have tip : [Block.genesis].getLast? = some Block.genesis := rfl
  have ground : ValidHistory acceptAll [Block.genesis] default := .genesis
  obtain ⟨claim, next, _, accepted⟩ := blockAt_accepted ground before (show 1 ≤ 2 ^ 32 by decide) tip
    later LedgerState.addressMin fun _ (header : BlockHeader) (_ : header.nonce = nonce) => rfl
  generalize built : blockAt (GENESIS_TIMESTAMP + 64) Block.genesis claim next (nextBits [Block.genesis])
    nonce = block at accepted
  have time : block.header.timestamp = GENESIS_TIMESTAMP + 64 := by
    rw [← built]
    rfl
  have height : block.header.height = 1 := by
    rw [← built]
    rfl
  have bits : bitsToTarget block.header.bits = some launchTarget := by
    rw [← built]
    change bitsToTarget (nextBits Chain.genesis.blocks) = _
    rw [timedChain_genesis.nextBits]
    decide +kernel
  have within : WithinCounts block := by
    rw [← built]
    exact ⟨Nat.zero_le _, List.forall_mem_nil _⟩
  have present : block.header.timestamp ≤ saturatingAdd GENESIS_TIMESTAMP MAX_FUTURE_BLOCK_TIME := by
    rw [time]
    decide
  have checked := accepted.at_clock present
  have above : block.header.height ≠ 0 := by
    rw [height]
    decide
  have work : addWork Chain.genesis.cumulativeWork block =
      .ok (Chain.genesis.cumulativeWork + targetWork launchTarget) := by
    apply addWork_ok_iff.mpr ⟨launchTarget, bits, ?_, rfl⟩
    rw [genesis_work]
    decide +kernel
  let chain : Chain :=
    { blocks := [Block.genesis, block]
      state := next
      cumulativeWork := Chain.genesis.cumulativeWork + targetWork launchTarget
      nonempty := List.cons_ne_nil _ _ }
  have replayed : chain.Replayed acceptAll GENESIS_TIMESTAMP := by
    apply fromBlocks_ok_iff.mpr
    refine ⟨[block], rfl, rfl, ?_, cumulativeWork_snoc.mpr ⟨_, cumulativeWork_genesis, work⟩⟩
    exact bind_ok.mpr ⟨next, (validateBlock_ok_iff above).mpr checked, rfl⟩
  exact ⟨chain, block, by rw [← built]; rfl, by rw [← built]; rfl, rfl, replayed,
    accepted_decodes accepted within⟩

omit [Crypto] in
theorem forked_tree :
    let _ := labelled
    ∃ (tree : BlockTree acceptAll GENESIS_TIMESTAMP) (left right : Block),
      left ∈ tree.blocks ∧ right ∈ tree.blocks ∧ left ≠ right ∧ left ≠ Block.genesis ∧
      right ≠ Block.genesis ∧
      left.header.previousBlock = Block.genesis.id ∧ right.header.previousBlock = Block.genesis.id ∧
      ∀ block ∈ tree.blocks, (tree.chainTo block).blocks.length ≤ 2 := by
  intro crypto
  obtain ⟨leftChain, left, leftNonce, leftParent, leftBlocks, leftValid, leftDecodes⟩ := first_block 1
  obtain ⟨rightChain, right, rightNonce, rightParent, rightBlocks, rightValid, rightDecodes⟩ := first_block 2
  have nonceOf : ∀ first second : Block, first.id = second.id → first.header.nonce = second.header.nonce :=
    fun _ _ same => (labelled_id_injective same).2
  have groundNonce : Block.genesis.header.nonce = 0 := rfl
  have leftFirst : left ≠ Block.genesis := by
    intro same
    rw [same, groundNonce] at leftNonce
    exact absurd leftNonce (by decide)
  have rightFirst : right ≠ Block.genesis := by
    intro same
    rw [same, groundNonce] at rightNonce
    exact absurd rightNonce (by decide)
  have apart : left ≠ right := by
    intro same
    rw [same, rightNonce] at leftNonce
    exact absurd leftNonce (by decide)
  let chainTo : Block → Chain := fun block =>
    if block = left then leftChain else if block = right then rightChain else Chain.genesis
  have toLeft : chainTo left = leftChain := if_pos rfl
  have toRight : chainTo right = rightChain := (if_neg (Ne.symm apart)).trans (if_pos rfl)
  have toGround : chainTo Block.genesis = Chain.genesis :=
    (if_neg (Ne.symm leftFirst)).trans (if_neg (Ne.symm rightFirst))
  have cases : ∀ block ∈ ({Block.genesis, left, right} : Set Block),
      block = Block.genesis ∨ block = left ∨ block = right := fun _ member => member
  let tree : BlockTree acceptAll GENESIS_TIMESTAMP :=
    { blocks := {Block.genesis, left, right}
      chainTo
      genesis := Or.inl rfl
      ground := toGround
      parent := by
        intro block member first
        refine ⟨Block.genesis, Or.inl rfl, ?_⟩
        rw [toGround]
        rcases cases block member with same | same | same
        · exact absurd same first
        · rw [same, toLeft]
          exact ⟨leftParent, leftBlocks⟩
        · rw [same, toRight]
          exact ⟨rightParent, rightBlocks⟩
      valid := by
        intro block member
        rcases cases block member with same | same | same
        · rw [same, toGround]
          exact replayed_genesis acceptAll GENESIS_TIMESTAMP
        · rw [same, toLeft]
          exact leftValid
        · rw [same, toRight]
          exact rightValid
      distinct := by
        -- the nonces 0, 1 and 2 tell them apart
        intro first one second two same
        have nonces := nonceOf first second same
        rcases cases first one with here | here | here <;> rcases cases second two with there | there | there <;>
          rw [here, there] at nonces ⊢ <;>
          simp only [groundNonce, leftNonce, rightNonce] at nonces <;> exact absurd nonces (by decide)
      decodes := by
        intro block member
        rcases cases block member with same | same | same
        · rw [same]
          exact genesis_decodes
        · rw [same]
          exact leftDecodes
        · rw [same]
          exact rightDecodes }
  refine ⟨tree, left, right, Or.inr (Or.inl rfl), Or.inr (Or.inr rfl), apart, leftFirst, rightFirst,
    leftParent, rightParent, ?_⟩
  intro block member
  change (chainTo block).blocks.length ≤ 2
  rcases cases block member with same | same | same
  · rw [same, toGround]
    exact Nat.le_succ 1
  · rw [same, toLeft, leftBlocks]
    exact Nat.le_refl 2
  · rw [same, toRight, rightBlocks]
    exact Nat.le_refl 2

omit [Crypto] in
/-- Two competing blocks in either order: both nodes end on the same one, so one of them
moved when the second block arrived. -/
theorem two_orders_agree :
    let _ := labelled
    ∃ (tree : BlockTree acceptAll GENESIS_TIMESTAMP) (env : NodeEnv) (left right : Block)
      (lone other one two : Node) (leftEvent rightEvent : ChainEvent), left ≠ right ∧
      Arrivals tree [left] lone ∧ Arrivals tree [right] other ∧
      lone.submitBlock env right = (.ok rightEvent, one) ∧
      other.submitBlock env left = (.ok leftEvent, two) ∧
      one.chain = two.chain ∧ (leftEvent.Activates ∨ rightEvent.Activates) := by
  intro crypto
  obtain ⟨tree, left, right, leftMember, rightMember, apart, above, _, leftParent, rightParent, lengths⟩ :=
    forked_tree
  let env : NodeEnv :=
    { pow := acceptAll, now := GENESIS_TIMESTAMP, disk := Disk.reliable, order := default }
  have calm : Dependable acceptAll GENESIS_TIMESTAMP env :=
    ⟨rfl, rfl, UInt64.le_refl _, of_decide_eq_true rfl⟩
  obtain ⟨node, opened⟩ := Node.openFresh_ok (of_decide_eq_true rfl : fitsI64 0) none
  have start : Arrivals tree [] node := .opened opened
  have onGenesis : ∀ (earlier : List Block) (block : Block),
      block.header.previousBlock = Block.genesis.id →
      block = Block.genesis ∨ ∃ parent ∈ Block.genesis :: earlier,
        block.header.previousBlock = parent.id :=
    fun _ _ named => Or.inr ⟨_, List.mem_cons_self, named⟩
  have lone := start.submitted calm leftMember (onGenesis [] left leftParent)
  have other := start.submitted calm rightMember (onGenesis [] right rightParent)
  have both := lone.submitted calm rightMember (onGenesis _ right rightParent)
  have back := other.submitted calm leftMember (onGenesis _ left leftParent)
  have short : tree.ShortForks := by
    intro side inside tip _ _
    exact Nat.le_trans (List.length_filter_le _ _) (Nat.le_trans (lengths side inside) (by decide))
  have listed : ∀ block, block ∈ [left, right] ↔ block ∈ [right, left] := by
    intro block
    simp only [List.mem_cons, List.not_mem_nil, or_false]
    exact or_comm
  have ⟨equal, _, steps⟩ := arrivals_agree short both back listed
  obtain ⟨rightEvent, one, secondRight, rightChoice⟩ :=
    steps _ _ env right lone calm rightMember (onGenesis _ right rightParent)
  obtain ⟨leftEvent, two, secondLeft, leftChoice⟩ :=
    steps _ _ env left other calm leftMember (onGenesis _ left leftParent)
  rw [secondRight, secondLeft] at equal
  refine ⟨tree, env, left, right, _, _, one, two, leftEvent, rightEvent, apart, lone, other,
    secondRight, secondLeft, equal, ?_⟩
  by_contra still
  have ⟨leftStill, rightStill⟩ := not_or.mp still
  have atLeft := lone.chosen short
  have atRight := other.chosen short
  obtain ⟨tip, tipMember, tipChain, tipLast⟩ := atLeft.tip
  obtain ⟨final, finalMember, _, finalLast⟩ := atRight.tip
  -- if neither moved, both are on a chain that ends in neither block
  have unmoved := (rightChoice.resolve_left fun moved => rightStill moved.1).2
  have settled := (leftChoice.resolve_left fun moved => leftStill moved.1).2
  rw [unmoved, settled] at equal
  rw [← equal, tipLast] at finalLast
  rw [← finalLast] at finalMember
  have ground : tip = Block.genesis := by
    rcases List.mem_cons.mp tipMember with same | isLeft
    · exact same
    · rcases List.mem_cons.mp finalMember with same | isRight
      · exact same
      · exact absurd ((List.mem_singleton.mp isLeft).symm.trans (List.mem_singleton.mp isRight)) apart
  have better := (tree.onGenesis leftMember above leftParent).2
  rw [← tree.ground, ← ground, ← tipChain] at better
  apply Chain.better_irrefl (tree.chainTo left)
  apply better.trans
  apply atLeft.best.beats _ (Set.mem_image_of_mem _ (List.mem_cons_of_mem _ List.mem_cons_self))
  intro same
  rw [same] at better
  exact Chain.better_irrefl _ better

end ParitrNode
