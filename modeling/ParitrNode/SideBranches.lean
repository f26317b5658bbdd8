import ParitrNode.CatchUp

/-!
A requester that has stored the start of its peer's branch beside its own chain:
once it knows the first two thousand blocks of the branch, the reply to its
locator names nothing new.
-/

namespace ParitrNode
open ByteCodec OrderedMap Checked BestSeen

variable [Crypto]

/-! Chains as a tree. -/

section

variable {pow : PowVerifier} {start : UInt64}

theorem fromBlocks_snoc {blocks : List Block} {block : Block} {chain : Chain} (nonempty : blocks ≠ [])
    (accepted : Chain.fromBlocks (blocks ++ [block]) pow start = .ok chain) :
    ∃ initial, Chain.fromBlocks blocks pow start = .ok initial := by
  obtain ⟨rest, shape, _, replayed, summed⟩ := fromBlocks_ok_iff.mp accepted
  cases blocks with
  | nil => exact absurd rfl nonempty
  | cons first earlier =>
    obtain ⟨same, later⟩ := List.cons.inj shape
    rw [← later] at replayed
    obtain ⟨middle, before, _⟩ := replay_snoc.mp replayed
    obtain ⟨work, sum, _⟩ := cumulativeWork_snoc.mp summed
    let initial : Chain :=
      { blocks := first :: earlier, state := middle, cumulativeWork := work, nonempty }
    exact ⟨initial, fromBlocks_ok_iff.mpr ⟨earlier, by rw [same], rfl, before, sum⟩⟩

theorem fromBlocks_take {blocks : List Block} {chain : Chain}
    (accepted : Chain.fromBlocks blocks pow start = .ok chain) (index : Nat) :
    ∃ initial : Chain, initial.Replayed pow start ∧ initial.blocks = blocks.take (index + 1) := by
  induction blocks using List.reverseRecOn generalizing chain with
  | nil => cases accepted
  | append_singleton blocks block ih =>
    by_cases whole : blocks.length ≤ index
    · have all : (blocks ++ [block]).take (index + 1) = blocks ++ [block] := by
        apply List.take_of_length_le
        rw [List.length_append, List.length_singleton]
        omega
      obtain ⟨_, _, same, _⟩ := fromBlocks_ok_iff.mp accepted
      exact ⟨chain, fromBlocks_replayed accepted (UInt64.le_refl start), by rw [all, same]⟩
    · have nonempty : blocks ≠ [] := by
        apply List.ne_nil_of_length_pos
        omega
      obtain ⟨before, earlier⟩ := fromBlocks_snoc nonempty accepted
      obtain ⟨initial, replayed, same⟩ := ih earlier
      refine ⟨initial, replayed, ?_⟩
      rw [same, List.take_append_of_le_length (by omega)]

omit [Crypto] in
theorem take_snoc {blocks : List Block} {index : Nat} {block : Block} (here : blocks[index]? = some block) :
    blocks.take (index + 1) = blocks.take index ++ [block] := by
  rw [List.take_add_one, here]
  rfl

/-- Valid chains, with one block for each id. -/
structure Compatible (pow : PowVerifier) (start : UInt64) (chains : Set Chain) : Prop where
  replayed : ∀ chain ∈ chains, chain.Replayed pow start
  valid : ∀ chain ∈ chains, ValidHistory pow chain.blocks chain.state
  distinct : Storage.Distinct {block | ∃ chain ∈ chains, block ∈ chain.blocks}

variable {chains : Set Chain}

/-- Chains that share a block share everything below it. -/
theorem Compatible.shared (compatible : Compatible pow start chains) {one two : Chain} (first : one ∈ chains)
    (second : two ∈ chains) {index : Nat} {block : Block} (here : one.blocks[index]? = some block)
    (there : two.blocks[index]? = some block) :
    one.blocks.take (index + 1) = two.blocks.take (index + 1) := by
  have left := compatible.valid one first
  have right := compatible.valid two second
  induction index generalizing block with
  | zero => rw [take_snoc here, take_snoc there, List.take_zero, List.take_zero]
  | succ index ih =>
    obtain ⟨parent, below, named, _⟩ := (left.linked _ block here).mined (Nat.le_add_left 1 index)
    obtain ⟨other, under, called, _⟩ := (right.linked _ block there).mined (Nat.le_add_left 1 index)
    rw [Nat.add_sub_cancel] at below under
    have same : parent = other := by
      apply compatible.distinct parent ⟨one, first, List.mem_of_getElem? below⟩ other
        ⟨two, second, List.mem_of_getElem? under⟩
      rw [← named, called]
    rw [same] at below
    rw [take_snoc here, take_snoc there, ih below under]

/-- Compatible chains are the branches of a tree. -/
theorem Compatible.tree (compatible : Compatible pow start chains) (some : chains.Nonempty)
    (decodes : ∀ chain ∈ chains, ∀ block ∈ chain.blocks,
      Block.consensusDecode block.consensusEncode = .ok block) :
    ∃ tree : BlockTree pow start,
      tree.blocks = {block | ∃ chain ∈ chains, block ∈ chain.blocks} ∧
      ∀ chain ∈ chains, ∀ (index : Nat) (block : Block), chain.blocks[index]? = .some block →
        (tree.chainTo block).blocks = chain.blocks.take (index + 1) := by
  have each : ∀ block, (∃ chain ∈ chains, block ∈ chain.blocks) → ∃ initial : Chain,
      initial.Replayed pow start ∧ ∃ chain ∈ chains, ∃ index, chain.blocks[index]? = .some block ∧
        initial.blocks = chain.blocks.take (index + 1) := by
    intro block listed
    obtain ⟨chain, member, inside⟩ := listed
    obtain ⟨index, here⟩ := List.mem_iff_getElem?.mp inside
    obtain ⟨initial, replayed, same⟩ := fromBlocks_take (compatible.replayed chain member) index
    exact ⟨initial, replayed, chain, member, index, here, same⟩
  have : Nonempty Chain := ⟨Chain.genesis⟩
  choose! chainTo replayed found using each
  have initial : ∀ chain ∈ chains, ∀ (index : Nat) (block : Block), chain.blocks[index]? = .some block →
      (chainTo block).blocks = chain.blocks.take (index + 1) := by
    intro chain member index block here
    obtain ⟨other, among, place, there, same⟩ := found block ⟨chain, member, List.mem_of_getElem? here⟩
    have level := ((compatible.valid chain member).linked index block here).height
    have again := ((compatible.valid other among).linked place block there).height
    rw [show place = index by omega] at there same
    rw [same, compatible.shared member among here there]
  have root : ∀ chain ∈ chains, chain.blocks[0]? = .some Block.genesis := by
    intro chain member
    rw [← List.head?_eq_getElem?]
    exact (compatible.valid chain member).head
  obtain ⟨branch, member⟩ := some
  have ground : (∃ chain ∈ chains, Block.genesis ∈ chain.blocks) :=
    ⟨branch, member, List.mem_of_getElem? (root branch member)⟩
  let tree : BlockTree pow start :=
    { blocks := {block | ∃ chain ∈ chains, block ∈ chain.blocks}
      chainTo
      genesis := ground
      ground := by
        have blocks : (chainTo Block.genesis).blocks = [Block.genesis] := by
          rw [initial branch member 0 Block.genesis (root branch member),
            take_snoc (root branch member)]
          rfl
        have accepted := replayed Block.genesis ground
        unfold Chain.Replayed at accepted
        rw [blocks] at accepted
        exact Except.ok.inj (accepted.symm.trans (replayed_genesis pow start))
      parent := by
        intro block listed first
        obtain ⟨chain, among, inside⟩ := listed
        obtain ⟨index, here⟩ := List.mem_iff_getElem?.mp inside
        cases index with
        | zero =>
          rw [root chain among] at here
          exact absurd (Option.some.inj here).symm first
        | succ index =>
          obtain ⟨parent, below, named, _⟩ :=
            ((compatible.valid chain among).linked _ block here).mined (Nat.le_add_left 1 index)
          rw [Nat.add_sub_cancel] at below
          refine ⟨parent, ⟨chain, among, List.mem_of_getElem? below⟩, named, ?_⟩
          rw [initial chain among _ block here, initial chain among _ parent below, take_snoc here]
      valid := replayed
      distinct := compatible.distinct
      decodes := fun block ⟨chain, among, inside⟩ => decodes chain among block inside }
  exact ⟨tree, rfl, initial⟩

variable {tree : BlockTree pow start} {env : NodeEnv} {earlier : List Block} {node : Node}

theorem Arrivals.along (run : Arrivals tree earlier node) (calm : Dependable pow start env) :
    ∀ block ∈ tree.blocks, ∃ later, Arrivals tree (earlier ++ (tree.chainTo block).blocks) later := by
  apply tree.descend (motive := fun block =>
    ∃ later, Arrivals tree (earlier ++ (tree.chainTo block).blocks) later)
  · rw [tree.ground]
    exact ⟨_, run.submitted calm tree.genesis (Or.inl rfl)⟩
  · intro block member _ parent inside named grown ih
    obtain ⟨later, before⟩ := ih
    have due : block = Block.genesis ∨ ∃ below ∈ Block.genesis :: (earlier ++ (tree.chainTo parent).blocks),
        block.header.previousBlock = below.id := by
      refine Or.inr ⟨parent, List.mem_cons_of_mem _ (List.mem_append_right _ ?_), named⟩
      exact tree.mem_chainTo inside
    rw [grown, ← List.append_assoc]
    exact ⟨_, before.submitted calm member due⟩

theorem Chosen.chain_eq {submitted : Set Block} {goal : Block} (chosen : Chosen tree submitted node)
    (among : goal ∈ submitted) (best : ∀ block ∈ submitted, block ≠ goal →
      (tree.chainTo goal).Better (tree.chainTo block)) : node.chain = tree.chainTo goal := by
  obtain ⟨tip, inside, chain, last⟩ := chosen.tip
  by_cases same : tip = goal
  · rw [chain, same]
  · have better := best tip inside same
    have different : tree.chainTo goal ≠ node.chain := by
      intro equal
      rw [← chain, ← equal] at better
      exact Chain.better_irrefl _ better
    have worse := chosen.best.beats _ (Set.mem_image_of_mem _ among) different
    rw [← chain] at better
    exact absurd (better.trans worse) (Chain.better_irrefl _)

end

/-! Two branches of empty blocks on genesis. -/

theorem ValidHistory.decodes_quiet {pow : PowVerifier} {history : List Block} {state : LedgerState}
    (valid : ValidHistory pow history state) (scheduled : OnSchedule history) : ∀ block ∈ history,
    Block.consensusDecode block.consensusEncode = .ok block := by
  intro block member
  obtain ⟨index, here⟩ := List.mem_iff_getElem?.mp member
  cases index with
  | zero =>
    rw [← List.head?_eq_getElem?, valid.head] at here
    rw [← Option.some.inj here]
    exact genesis_decodes
  | succ index =>
    obtain ⟨_, _, _, _, _, accepted⟩ := valid.acceptedAt here (Nat.succ_pos index)
    apply accepted_decodes accepted
    unfold WithinCounts
    rw [scheduled.quiet block member]
    exact ⟨Nat.zero_le _, List.forall_mem_nil _⟩

theorem validateBlock_at_clock {block : Block} {history : List Block} {state next : LedgerState}
    {pow : PowVerifier} {now clock : UInt64} (accepted : validateBlock block history state pow now = .ok next)
    (present : block.header.timestamp ≤ saturatingAdd clock MAX_FUTURE_BLOCK_TIME) :
    validateBlock block history state pow clock = .ok next := by
  by_cases ground : block.header.height = 0
  · exact (validateBlock_zero_iff ground).mpr ((validateBlock_zero_iff ground).mp accepted)
  · exact (validateBlock_ok_iff ground).mpr (((validateBlock_ok_iff ground).mp accepted).at_clock present)

theorem replay_at_clock {pow : PowVerifier} {now clock : UInt64} {done rest : List Block}
    {state final : LedgerState} (replayed : Chain.replay pow now done state rest = .ok final)
    (present : ∀ block ∈ rest, block.header.timestamp ≤ saturatingAdd clock MAX_FUTURE_BLOCK_TIME) :
    Chain.replay pow clock done state rest = .ok final := by
  induction rest generalizing done state with
  | nil => exact replayed
  | cons block rest ih =>
    obtain ⟨next, accepted, after⟩ := bind_ok.mp replayed
    obtain ⟨here, later⟩ := List.forall_mem_cons.mp present
    exact bind_ok.mpr ⟨next, validateBlock_at_clock accepted here, ih after later⟩

theorem Chain.Replayed.at_clock {pow : PowVerifier} {now clock : UInt64} {chain : Chain}
    (replayed : chain.Replayed pow now)
    (present : ∀ block ∈ chain.blocks, block.header.timestamp ≤ saturatingAdd clock MAX_FUTURE_BLOCK_TIME) :
    chain.Replayed pow clock := by
  obtain ⟨rest, shape, same, before, summed⟩ := fromBlocks_ok_iff.mp replayed
  apply fromBlocks_ok_iff.mpr ⟨rest, shape, same, replay_at_clock before ?_, summed⟩
  intro block member
  apply present block
  rw [shape]
  exact List.mem_cons_of_mem _ member

/-- A chain of empty blocks with one nonce. -/
structure QuietBranch (nonce : UInt64) (chain : Chain) : Prop where
  valid : ValidHistory acceptAll chain.blocks chain.state
  replayed : chain.Replayed acceptAll 1800000000
  scheduled : OnSchedule chain.blocks
  nonces : ∀ block ∈ chain.blocks, block = Block.genesis ∨ block.header.nonce = nonce

theorem ValidHistory.dated_quiet {pow : PowVerifier} {history : List Block} {state : LedgerState}
    (valid : ValidHistory pow history state) (scheduled : OnSchedule history) (few : history.length ≤ 10001) :
    ∀ block ∈ history, block.header.timestamp ≤ saturatingAdd 1800000000 MAX_FUTURE_BLOCK_TIME := by
  intro block member
  obtain ⟨index, here⟩ := List.mem_iff_getElem?.mp member
  have level := (valid.linked index block here).height
  have bound := (List.getElem?_eq_some_iff.mp here).1
  have time := scheduled.timestamp block member
  have clock : (saturatingAdd 1800000000 MAX_FUTURE_BLOCK_TIME).toNat = 1800000300 := by decide
  rw [UInt64.le_iff_toNat_le]
  omega

omit [Crypto] in
theorem quiet_branch (nonce : UInt64) {count : Nat} (few : count ≤ 10000) :
    letI := labelled
    ∃ chain : Chain, QuietBranch nonce chain ∧ chain.blocks.length = count + 1 := by
  let _ := labelled
  obtain ⟨chain, reachable, _, length, scheduled, _, _, _, nonces⟩ := reachable_quiet
    (fun _ _ same => (labelled_id_injective same).1) (acceptAll_lenient.at nonce) LedgerState.addressMin
    (show count ≤ 2 ^ 32 by omega)
  have valid := reachable.valid
  have present := valid.dated_quiet scheduled (by omega)
  exact ⟨chain, ⟨valid, reachable.replayed.at_clock present, scheduled, nonces⟩, length⟩

/-- On one branch the height tells the block, and between two the nonce does. -/
theorem QuietBranch.same {nonce other : UInt64} {chain side : Chain} (first : QuietBranch nonce chain)
    (second : QuietBranch other side) (apart : nonce ≠ other ∧ nonce ≠ 0 ∧ other ≠ 0) {block twin : Block}
    (inside : block ∈ chain.blocks) (among : twin ∈ side.blocks) (nonces : block.header.nonce = twin.header.nonce) :
    block = Block.genesis ∧ twin = Block.genesis := by
  have ground : Block.genesis.header.nonce = 0 := rfl
  rcases first.nonces block inside with here | here
  · rcases second.nonces twin among with there | there
    · exact ⟨here, there⟩
    · rw [here, there, ground] at nonces
      exact absurd nonces.symm apart.2.2
  · rcases second.nonces twin among with there | there
    · rw [here, there, ground] at nonces
      exact absurd nonces apart.2.1
    · rw [here, there] at nonces
      exact absurd nonces apart.1

theorem ValidHistory.at_height {pow : PowVerifier} {history : List Block} {state : LedgerState}
    (valid : ValidHistory pow history state) {block twin : Block} (inside : block ∈ history)
    (among : twin ∈ history) (level : block.header.height = twin.header.height) : block = twin := by
  obtain ⟨index, here⟩ := List.mem_iff_getElem?.mp inside
  obtain ⟨place, there⟩ := List.mem_iff_getElem?.mp among
  have left := (valid.linked index block here).height
  have right := (valid.linked place twin there).height
  rw [level, right] at left
  rw [left, here] at there
  exact Option.some.inj there

omit [Crypto] in
/-- Two branches of empty blocks, 2,001 and 2,100 blocks long. -/
theorem two_branches :
    let _ := labelled
    ∃ (tree : BlockTree acceptAll 1800000000) (own goal : Block), own ∈ tree.blocks ∧ goal ∈ tree.blocks ∧
      (tree.chainTo own).blocks.length = 2002 ∧ (tree.chainTo goal).blocks.length = 2101 ∧
      (∀ block ∈ (tree.chainTo own).blocks, block ∈ (tree.chainTo goal).blocks → block = Block.genesis) ∧
      ∀ block ∈ tree.blocks, (tree.chainTo block).blocks.length ≤ 2101 ∧
        (tree.chainTo block).cumulativeWork = (tree.chainTo block).blocks.length * 16384 := by
  intro crypto
  obtain ⟨left, leftQuiet, leftLength⟩ := quiet_branch 1 (show 2001 ≤ 10000 by decide)
  obtain ⟨right, rightQuiet, rightLength⟩ := quiet_branch 2 (show 2100 ≤ 10000 by decide)
  have apart : (1 : UInt64) ≠ 2 ∧ (1 : UInt64) ≠ 0 ∧ (2 : UInt64) ≠ 0 := by decide
  have compatible : Compatible acceptAll 1800000000 {left, right} := by
    refine ⟨?_, ?_, ?_⟩
    · intro chain member
      rcases member with same | same <;> rw [same]
      · exact leftQuiet.replayed
      · exact rightQuiet.replayed
    · intro chain member
      rcases member with same | same <;> rw [same]
      · exact leftQuiet.valid
      · exact rightQuiet.valid
    · intro first one second two same
      obtain ⟨heights, nonces⟩ := labelled_id_injective same
      obtain ⟨chain, member, inside⟩ := one
      obtain ⟨side, among, beside⟩ := two
      rcases member with here | here <;> rcases among with there | there <;> rw [here] at inside <;>
        rw [there] at beside
      · exact leftQuiet.valid.at_height inside beside heights
      · obtain ⟨ground, root⟩ := leftQuiet.same rightQuiet apart inside beside nonces
        rw [ground, root]
      · obtain ⟨ground, root⟩ := leftQuiet.same rightQuiet apart beside inside nonces.symm
        rw [ground, root]
      · exact rightQuiet.valid.at_height inside beside heights
  have quiet : ∀ chain ∈ ({left, right} : Set Chain), OnSchedule chain.blocks ∧ chain.blocks.length ≤ 2101 := by
    intro chain member
    rcases member with same | same <;> rw [same]
    · exact ⟨leftQuiet.scheduled, by omega⟩
    · exact ⟨rightQuiet.scheduled, by omega⟩
  obtain ⟨tree, blocks, initial⟩ := compatible.tree ⟨left, Or.inl rfl⟩ fun chain member =>
    (compatible.valid chain member).decodes_quiet (quiet chain member).1
  have ends : ∀ chain ∈ ({left, right} : Set Chain), chain.tip ∈ tree.blocks ∧
      (tree.chainTo chain.tip).blocks = chain.blocks := by
    intro chain member
    have last := List.getLast?_eq_getLast_of_ne_nil chain.nonempty
    have listed : chain.tip ∈ chain.blocks := List.mem_of_getLast? last
    have positive := List.length_pos_iff.mpr chain.nonempty
    rw [List.getLast?_eq_getElem?] at last
    refine ⟨by rw [blocks]; exact ⟨chain, member, listed⟩, ?_⟩
    rw [initial chain member _ chain.tip last, Nat.sub_add_cancel positive, List.take_length]
  have ⟨leftMember, leftBlocks⟩ := ends left (Or.inl rfl)
  have ⟨rightMember, rightBlocks⟩ := ends right (Or.inr rfl)
  refine ⟨tree, left.tip, right.tip, leftMember, rightMember, by rw [leftBlocks, leftLength],
    by rw [rightBlocks, rightLength], ?_, ?_⟩
  · intro block inside beside
    rw [leftBlocks] at inside
    rw [rightBlocks] at beside
    exact (leftQuiet.same rightQuiet apart inside beside rfl).1
  · intro block member
    have listed := member
    rw [blocks] at listed
    obtain ⟨chain, among, inside⟩ := listed
    obtain ⟨index, here⟩ := List.mem_iff_getElem?.mp inside
    have ⟨scheduled, bound⟩ := quiet chain among
    have start := initial chain among index block here
    have short : (tree.chainTo block).blocks.length ≤ 2101 := by
      rw [start, List.length_take]
      omega
    refine ⟨short, ?_⟩
    have within : OnSchedule (tree.chainTo block).blocks := by
      rw [start]
      exact ⟨fun other listed => scheduled.timestamp other (List.mem_of_mem_take listed),
        fun other listed => scheduled.bits other (List.mem_of_mem_take listed),
        fun other listed => scheduled.quiet other (List.mem_of_mem_take listed)⟩
    obtain ⟨_, _, _, _, summed⟩ := fromBlocks_ok_iff.mp (tree.valid block member)
    have total := within.cumulativeWork (by omega)
    rw [summed] at total
    exact Except.ok.inj total

/-! The requester on one branch, with the start of the responder's. -/

theorem BlockTree.better_longer {pow : PowVerifier} {start : UInt64} {tree : BlockTree pow start}
    (works : ∀ block ∈ tree.blocks,
      (tree.chainTo block).cumulativeWork = (tree.chainTo block).blocks.length * 16384)
    {first second : Block} (one : first ∈ tree.blocks) (two : second ∈ tree.blocks)
    (longer : (tree.chainTo second).blocks.length < (tree.chainTo first).blocks.length) :
    (tree.chainTo first).Better (tree.chainTo second) := by
  apply Or.inl
  rw [works first one, works second two]
  omega

theorem BlockTree.shorter {pow : PowVerifier} {start : UInt64} (tree : BlockTree pow start) {goal block : Block}
    (member : goal ∈ tree.blocks) (inside : block ∈ (tree.chainTo goal).blocks) (different : block ≠ goal) :
    (tree.chainTo block).blocks.length < (tree.chainTo goal).blocks.length := by
  have ⟨among, initial⟩ := tree.ancestors goal member block inside
  apply Nat.lt_of_le_of_ne initial.length_le
  intro equal
  have last := tree.chainTo_last among
  rw [initial.eq_of_length equal, tree.chainTo_last member] at last
  exact different (Option.some.inj last).symm

/-- Two nodes on two branches; the first has stored some blocks of the other branch. -/
structure Parted (tree : BlockTree acceptAll 1800000000) (goal : Block) (blocks others : List Block)
    (requester responder : Node) (known : Nat) : Prop where
  member : goal ∈ tree.blocks
  sent : Arrivals tree blocks requester
  heard : Arrivals tree others responder
  chosen : Chosen tree {block | block ∈ Block.genesis :: blocks} requester
  stored : KnownTo tree goal {block | block ∈ Block.genesis :: blocks} known
  chain : responder.chain = tree.chainTo goal
  length : (tree.chainTo goal).blocks.length = 2101
  better : (tree.chainTo goal).Better requester.chain
  apart : ∀ block ∈ requester.chain.blocks, block ∈ (tree.chainTo goal).blocks → block = Block.genesis

section

variable {pow : PowVerifier} {start : UInt64} {tree : BlockTree pow start} {goal own highest : Block} {known : Nat}

theorem Chosen.longest {submitted : Set Block} {node : Node} (chosen : Chosen tree submitted node)
    (works : ∀ block ∈ tree.blocks,
      (tree.chainTo block).cumulativeWork = (tree.chainTo block).blocks.length * 16384)
    (among : goal ∈ submitted) (longest : ∀ block ∈ submitted, block ≠ goal →
      (tree.chainTo block).blocks.length < (tree.chainTo goal).blocks.length) :
    node.chain = tree.chainTo goal := by
  apply chosen.chain_eq among
  intro block listed different
  exact BlockTree.better_longer works (chosen.within among) (chosen.within listed)
    (longest block listed different)

/-- A block of the start of a branch is shorter than the tip of a longer one. -/
theorem BlockTree.start_shorter (member : goal ∈ tree.blocks)
    (initial : (tree.chainTo highest).blocks = (tree.chainTo goal).blocks.take (known + 1))
    {block : Block} (inside : block ∈ (tree.chainTo highest).blocks) :
    (tree.chainTo block).blocks.length ≤ known + 1 := by
  rw [initial] at inside
  obtain ⟨index, here⟩ := List.mem_iff_getElem?.mp inside
  have bound := (List.getElem?_eq_some_iff.mp here).1
  rw [List.length_take] at bound
  rw [List.getElem?_take_of_lt (by omega)] at here
  rw [(tree.chainTo_at member here).2, List.length_take]
  omega

/-- What is known of a branch after the blocks of another and the start of this one. -/
theorem BlockTree.knownTo (member : goal ∈ tree.blocks) (inside : known < (tree.chainTo goal).blocks.length)
    (initial : (tree.chainTo highest).blocks = (tree.chainTo goal).blocks.take (known + 1))
    (apart : ∀ block ∈ (tree.chainTo own).blocks, block ∈ (tree.chainTo goal).blocks → block = Block.genesis) :
    KnownTo tree goal
      {block | block ∈ Block.genesis :: ((tree.chainTo own).blocks ++ (tree.chainTo highest).blocks)} known := by
  have root : (tree.chainTo goal).blocks[0]? = some Block.genesis := by
    rw [← List.head?_eq_getElem?]
    exact (tree.history member).head
  refine ⟨inside, ?_⟩
  intro index block here
  constructor
  · intro listed
    have common : block = Block.genesis → index ≤ known := by
      intro ground
      rw [ground] at here
      rw [tree.at_unique member here root]
      exact Nat.zero_le known
    rcases List.mem_cons.mp listed with ground | beyond
    · exact common ground
    · rcases List.mem_append.mp beyond with mine | theirs
      · exact common (apart block mine (List.mem_of_getElem? here))
      · rw [initial] at theirs
        obtain ⟨position, there⟩ := List.mem_iff_getElem?.mp theirs
        have bound := (List.getElem?_eq_some_iff.mp there).1
        rw [List.length_take] at bound
        rw [List.getElem?_take_of_lt (by omega)] at there
        rw [tree.at_unique member here there]
        omega
  · intro low
    have present : block ∈ (tree.chainTo highest).blocks := by
      rw [initial]
      apply List.mem_of_getElem? (i := index)
      rw [List.getElem?_take_of_lt (by omega), here]
    exact List.mem_cons_of_mem _ (List.mem_append_right _ present)

end

omit [Crypto] in
theorem parted_nodes {known : Nat} (few : known ≤ 2000) :
    let _ := labelled
    ∃ (tree : BlockTree acceptAll 1800000000) (goal : Block) (blocks others : List Block)
      (requester responder : Node), Parted tree goal blocks others requester responder known := by
  intro crypto
  obtain ⟨tree, own, goal, ownMember, goalMember, ownLength, goalLength, apart, each⟩ := two_branches
  have works := fun block member => (each block member).2
  have short : tree.ShortForks := by
    intro side member _ _ _
    exact Nat.le_trans (List.length_filter_le _ _) (Nat.le_trans (each side member).1 (by decide))
  let env : NodeEnv := ⟨acceptAll, 1800000000, Disk.reliable, default⟩
  have calm : Dependable acceptAll 1800000000 env := ⟨rfl, rfl, UInt64.le_refl _, of_decide_eq_true rfl⟩
  obtain ⟨node, opened⟩ := Node.openFresh_ok (of_decide_eq_true rfl : fitsI64 0) none
  have start : Arrivals tree [] node := .opened opened
  have inside : known < (tree.chainTo goal).blocks.length := by omega
  have place := List.getElem?_eq_getElem inside
  generalize (tree.chainTo goal).blocks[known] = highest at place
  have ⟨highestMember, initial⟩ := tree.chainTo_at goalMember place
  obtain ⟨middle, first⟩ := start.along calm own ownMember
  obtain ⟨requester, second⟩ := first.along calm highest highestMember
  obtain ⟨responder, whole⟩ := start.along calm goal goalMember
  rw [List.nil_append] at second whole
  have chosen := second.chosen short
  have other := whole.chosen short
  have requesterChain : requester.chain = tree.chainTo own := by
    apply chosen.longest works (List.mem_cons_of_mem _ (List.mem_append_left _ (tree.mem_chainTo ownMember)))
    intro block listed different
    have root := List.mem_of_head? (tree.history ownMember).head
    rcases List.mem_cons.mp listed with ground | beyond
    · rw [ground] at different ⊢
      exact tree.shorter ownMember root different
    · rcases List.mem_append.mp beyond with mine | theirs
      · exact tree.shorter ownMember mine different
      · have early := BlockTree.start_shorter goalMember initial theirs
        omega
  have responderChain : responder.chain = tree.chainTo goal := by
    apply other.longest works (List.mem_cons_of_mem _ (tree.mem_chainTo goalMember))
    intro block listed different
    apply tree.shorter goalMember _ different
    rcases List.mem_cons.mp listed with ground | beyond
    · rw [ground]
      exact List.mem_of_head? (tree.history goalMember).head
    · exact beyond
  have better : (tree.chainTo goal).Better requester.chain := by
    rw [requesterChain]
    apply BlockTree.better_longer works goalMember ownMember
    omega
  refine ⟨tree, goal, _, _, requester, responder, goalMember, second, whole, chosen,
    BlockTree.knownTo goalMember inside initial apart, responderChain, goalLength, better, ?_⟩
  rw [requesterChain]
  exact apart

section

variable {tree : BlockTree acceptAll 1800000000} {goal : Block} {blocks others : List Block}
  {requester responder : Node} {known : Nat} {env : NodeEnv}

theorem Parted.unknown (parted : Parted tree goal blocks others requester responder known)
    (calm : Dependable acceptAll 1800000000 env) (few : known < 2100) :
    requester.knows env.disk responder.chain.tip.id = false := by
  rw [parted.chain, tree.chainTo_tip parted.member,
    parted.stored.knows parted.chosen calm parted.member (tree.last_at parted.member), parted.length]
  exact decide_eq_false (by omega)

theorem Parted.common (parted : Parted tree goal blocks others requester responder known) {common : Nat}
    (found : CommonHeight requester responder common) : common = 0 := by
  obtain ⟨shared, inside, place⟩ := found.shared parted.chosen parted.member parted.chain
  have root := (tree.history parted.member).head
  rw [List.head?_eq_getElem?] at root
  rw [parted.apart shared inside (List.mem_of_getElem? place)] at place
  exact tree.at_unique parted.member place root

theorem Parted.asks (parted : Parted tree goal blocks others requester responder known)
    (calm : Dependable acceptAll 1800000000 env) (peer : Hash32) :
    (2000 ≤ known ∧ (requester.handleHeaders env peer
        (responder.headersAfter requester.blockLocator Hash32.ZERO)).1 = none) ∨ known < 2000 := by
  obtain ⟨last, ⟨common, found, limit⟩, _, choice⟩ :=
    parted.chosen.asks peer parted.stored calm parted.member parted.chain
  rw [parted.common found, parted.chain, parted.length] at limit
  have window : last = 2000 := limit
  rcases choice with ⟨all, quiet, _, silent⟩ | ⟨some, _⟩
  · rw [silent]
    exact Or.inl ⟨window ▸ all, rfl⟩
  · exact Or.inr (window ▸ some)

end

omit [Crypto] in
/-- The requester knows the first 1,000 blocks of the branch and asks for the next. -/
theorem thousand_stored_progress :
    let _ := labelled
    ∃ (tree : BlockTree acceptAll 1800000000) (blocks others : List Block) (requester responder : Node)
      (env : NodeEnv), Arrivals tree blocks requester ∧ Arrivals tree others responder ∧
      (∀ index block, responder.chain.blocks[index]? = some block →
        requester.knows env.disk block.id = decide (index ≤ 1000)) ∧
      Progresses requester responder env env Hash32.ZERO Server.secondPeer := by
  intro crypto
  obtain ⟨tree, goal, blocks, others, requester, responder, parted⟩ := parted_nodes (show 1000 ≤ 2000 by decide)
  let env : NodeEnv := ⟨acceptAll, 1800000000, Disk.reliable, default⟩
  have calm : Dependable acceptAll 1800000000 env := ⟨rfl, rfl, UInt64.le_refl _, of_decide_eq_true rfl⟩
  have knows : ∀ index block, responder.chain.blocks[index]? = some block →
      requester.knows env.disk block.id = decide (index ≤ 1000) := by
    intro index block here
    rw [parted.chain] at here
    exact parted.stored.knows parted.chosen calm parted.member here
  obtain ⟨tip, among, chain, _⟩ := parted.chosen.tip
  have valid := tree.history (parted.chosen.within among)
  have valid' := tree.history parted.member
  rw [← chain] at valid
  rw [← parted.chain] at valid'
  have identified : ∀ block ∈ requester.chain.blocks, ∀ other ∈ responder.chain.blocks,
      block.id = other.id → block.header = other.header := by
    intro block inside other listed same
    rw [parted.chain] at listed
    rw [tree.distinct block (parted.chosen.within (parted.chosen.mem_chain inside)) other
      (tree.ancestors goal parted.member other listed).1 same]
  obtain ⟨common, _, found, _⟩ :=
    parted.chosen.offered parted.member parted.chain (tree.length_le calm parted.member)
  have inside : 1001 < responder.chain.blocks.length := by
    rw [parted.chain, parted.length]
    decide
  have place := List.getElem?_eq_getElem inside
  refine ⟨tree, blocks, others, requester, responder, env, parted.sent, parted.heard, knows, ?_⟩
  apply (header_sync_progresses_iff valid valid' identified (parted.unknown calm (by decide))).mpr
  refine ⟨0, 1001, _, parted.common found ▸ found, by decide, by decide, place, ?_⟩
  rw [knows 1001 _ place]
  rfl

omit [Crypto] in
/-- The requester knows the first 2,000 blocks of the better branch and asks for nothing. -/
theorem stored_batch_stalls :
    let _ := labelled
    ∃ (tree : BlockTree acceptAll 1800000000) (blocks others : List Block) (requester responder : Node)
      (env : NodeEnv), Arrivals tree blocks requester ∧ Arrivals tree others responder ∧
      responder.chain.Better requester.chain ∧
      requester.knows env.disk responder.chain.tip.id = false ∧
      ∀ requesterId responderId, ¬Progresses requester responder env env requesterId responderId := by
  intro crypto
  obtain ⟨tree, goal, blocks, others, requester, responder, parted⟩ := parted_nodes (show 2000 ≤ 2000 by decide)
  let env : NodeEnv := ⟨acceptAll, 1800000000, Disk.reliable, default⟩
  have calm : Dependable acceptAll 1800000000 env := ⟨rfl, rfl, UInt64.le_refl _, of_decide_eq_true rfl⟩
  have better : responder.chain.Better requester.chain := by
    rw [parted.chain]
    exact parted.better
  refine ⟨tree, blocks, others, requester, responder, env, parted.sent, parted.heard, better,
    parted.unknown calm (by decide), ?_⟩
  intro requesterId responderId progresses
  obtain ⟨reply, block, _, sent, asked, _⟩ := progresses
  have offered : reply = .headers (responder.headersAfter requester.blockLocator Hash32.ZERO) :=
    (Option.some.inj sent).symm
  rcases parted.asks calm responderId with ⟨_, silent⟩ | fewer
  · rw [offered] at asked
    have none_asked : (requester.handleHeaders env responderId
      (responder.headersAfter requester.blockLocator Hash32.ZERO)).1 = some (.getData .block block.id) := asked
    rw [silent] at none_asked
    cases none_asked
  · exact absurd fewer (by decide)

end ParitrNode
