import ParitrNode.Scheduled
import ParitrNode.CompactTargets

/-!
The state of a chain extended and reorganized in place is the state `from_blocks`
computes from its blocks, at any clock that is not behind.
-/

namespace ParitrNode
open ByteCodec OrderedMap Checked

/-! The work of one block, without the 257-bit intermediate. -/

/-- `!target / (target + 1) + 1` is the floor of `2^256 / (target + 1)`. -/
theorem targetWork_eq {target : Nat} (bound : target ≤ MAX_U256) :
    targetWork target = 2 ^ 256 / (target + 1) := by
  have top : MAX_U256 = 2 ^ 256 - 1 := rfl
  unfold targetWork
  split
  next same => rw [same]; decide +kernel
  next =>
    have whole : 2 ^ 256 = (MAX_U256 - target) + (target + 1) := by omega
    rw [whole, Nat.add_div_right _ (Nat.succ_pos target)]

def totalWork (targets : List Nat) : Nat := (targets.map (fun target => 2 ^ 256 / (target + 1))).sum

theorem cumulativeWork_total {blocks : List Block} {work : Nat}
    (summed : cumulativeWork blocks = .ok work) :
    ∃ targets, blocks.map (fun block => bitsToTarget block.header.bits) = targets.map some ∧
      work = totalWork targets := by
  induction blocks using List.reverseRecOn generalizing work with
  | nil =>
    cases summed
    exact ⟨[], rfl, rfl⟩
  | append_singleton blocks block ih =>
    obtain ⟨earlier, before, added⟩ := cumulativeWork_snoc.mp summed
    obtain ⟨targets, each, sum⟩ := ih before
    obtain ⟨target, valid, -, total⟩ := addWork_ok_iff.mp added
    have last : totalWork (targets ++ [target]) = totalWork targets + 2 ^ 256 / (target + 1) := by
      simp [totalWork]
    exact ⟨targets ++ [target], by simp [each, valid],
      by rw [total, sum, last, targetWork_eq (bitsToTarget_le valid)]⟩

section

variable [Crypto]

/-! A later clock admits every block an earlier one did. -/

omit [Crypto] in
theorem saturatingAdd_mono {now later : UInt64} (le : now ≤ later) (amount : UInt64) :
    saturatingAdd now amount ≤ saturatingAdd later amount := by
  rw [UInt64.le_iff_toNat_le] at le ⊢
  have small := (saturatingAdd now amount).toNat_lt
  unfold saturatingAdd checkedAdd at small ⊢
  have top : (UInt64.ofNat (2 ^ 64 - 1)).toNat = 2 ^ 64 - 1 := ofNat_toNat (by decide)
  by_cases fits : later.toNat + amount.toNat < 2 ^ 64
  · have fitsNow : now.toNat + amount.toNat < 2 ^ 64 := by omega
    rw [if_pos fits, if_pos fitsNow]
    simp only [Option.getD_some, toNat_add fits, toNat_add fitsNow]
    omega
  · rw [if_neg fits, Option.getD_none, top]
    omega

theorem FollowsParent.later {header : BlockHeader} {parent : Block} {history : List Block}
    {now later : UInt64} (follows : FollowsParent header parent history now) (le : now ≤ later) :
    FollowsParent header parent history later :=
  { follows with
    notFuture := UInt64.le_trans follows.notFuture (saturatingAdd_mono le MAX_FUTURE_BLOCK_TIME) }

theorem Accepted.later {block : Block} {history : List Block} {state next : LedgerState}
    {pow : PowVerifier} {now later : UInt64} (accepted : Accepted block history state pow now next)
    (le : now ≤ later) : Accepted block history state pow later next := by
  obtain ⟨parent, seed, target, claim, transition, checks, result⟩ := accepted
  have follows := validateHeaderContext_ok_iff.mp checks.context
  exact ⟨parent, seed, target, claim, transition,
    { checks with context := validateHeaderContext_ok_iff.mpr (follows.later le) }, result⟩

theorem validateBlock_later {block : Block} {history : List Block} {state next : LedgerState}
    {pow : PowVerifier} {now later : UInt64} (le : now ≤ later)
    (accepted : validateBlock block history state pow now = .ok next) :
    validateBlock block history state pow later = .ok next := by
  by_cases ground : block.header.height = 0
  · exact (validateBlock_zero_iff ground).mpr ((validateBlock_zero_iff ground).mp accepted)
  · exact (validateBlock_ok_iff ground).mpr (((validateBlock_ok_iff ground).mp accepted).later le)

theorem replay_later {pow : PowVerifier} {now later : UInt64} (le : now ≤ later)
    {done rest : List Block} {state final : LedgerState}
    (replayed : Chain.replay pow now done state rest = .ok final) :
    Chain.replay pow later done state rest = .ok final := by
  induction rest generalizing done state with
  | nil => exact replayed
  | cons block rest ih =>
    obtain ⟨next, accepted, after⟩ := bind_ok.mp replayed
    exact bind_ok.mpr ⟨next, validateBlock_later le accepted, ih after⟩

/-! Replay block by block. -/

theorem replay_snoc {pow : PowVerifier} {now : UInt64} {done rest : List Block} {block : Block}
    {state final : LedgerState} :
    Chain.replay pow now done state (rest ++ [block]) = .ok final ↔
      ∃ middle, Chain.replay pow now done state rest = .ok middle ∧
        validateBlock block (done ++ rest) middle pow now = .ok final := by
  induction rest generalizing done state with
  | nil =>
    rw [List.append_nil]
    constructor
    · intro replayed
      obtain ⟨next, accepted, last⟩ := bind_ok.mp replayed
      cases last
      exact ⟨state, rfl, accepted⟩
    · intro ⟨middle, same, accepted⟩
      cases same
      exact bind_ok.mpr ⟨final, accepted, rfl⟩
  | cons first rest ih =>
    have shift : done ++ first :: rest = done ++ [first] ++ rest := by simp
    rw [shift]
    constructor
    · intro replayed
      obtain ⟨next, accepted, after⟩ := bind_ok.mp replayed
      obtain ⟨middle, before, last⟩ := ih.mp after
      exact ⟨middle, bind_ok.mpr ⟨next, accepted, before⟩, last⟩
    · intro ⟨middle, before, last⟩
      obtain ⟨next, accepted, after⟩ := bind_ok.mp before
      exact bind_ok.mpr ⟨next, accepted, ih.mpr ⟨middle, after, last⟩⟩

/-- The chain is what `from_blocks` makes of its own blocks. -/
def Chain.Replayed (pow : PowVerifier) (now : UInt64) (chain : Chain) : Prop :=
  Chain.fromBlocks chain.blocks pow now = .ok chain

theorem replayed_genesis (pow : PowVerifier) (now : UInt64) : Chain.genesis.Replayed pow now :=
  fromBlocks_ok_iff.mpr ⟨[], rfl, rfl, rfl, cumulativeWork_genesis⟩

theorem fromBlocks_replayed {blocks : List Block} {pow : PowVerifier} {now later : UInt64}
    {chain : Chain} (accepted : Chain.fromBlocks blocks pow now = .ok chain) (le : now ≤ later) :
    chain.Replayed pow later := by
  obtain ⟨rest, sameList, same, replayed, summed⟩ := fromBlocks_ok_iff.mp accepted
  show Chain.fromBlocks chain.blocks pow later = .ok chain
  rw [same]
  exact fromBlocks_ok_iff.mpr ⟨rest, sameList, same, replay_later le replayed, summed⟩

theorem Chain.Replayed.append {pow : PowVerifier} {now later : UInt64} {chain next : Chain}
    {block : Block} {event : ChainEvent} (replayed : chain.Replayed pow later) (le : now ≤ later)
    (appended : chain.append block pow now = .ok (event, next)) : next.Replayed pow later := by
  rcases append_ok appended with ⟨_, same, _⟩ | ⟨_, _, _, blocks, accepted, added⟩
  · rw [same]
    exact replayed
  · obtain ⟨rest, sameList, _, before, summed⟩ := fromBlocks_ok_iff.mp replayed
    apply fromBlocks_ok_iff.mpr
    have whole : next.blocks = Block.genesis :: (rest ++ [block]) := by rw [blocks, sameList]; rfl
    have last := validateBlock_later le accepted
    rw [sameList] at last
    exact ⟨rest ++ [block], whole, rfl, replay_snoc.mpr ⟨chain.state, before, last⟩,
      by rw [blocks]; exact cumulativeWork_snoc.mpr ⟨_, summed, added⟩⟩

/-- A chain that is one block longer accepts the block. -/
theorem Chain.Replayed.accepts {pow : PowVerifier} {now : UInt64} {chain next : Chain} {block : Block}
    (replayed : chain.Replayed pow now) (later : next.Replayed pow now)
    (grown : next.blocks = chain.blocks ++ [block]) :
    validateBlock block chain.blocks chain.state pow now = .ok next.state ∧
      addWork chain.cumulativeWork block = .ok next.cumulativeWork := by
  obtain ⟨rest, shape, _, before, summed⟩ := fromBlocks_ok_iff.mp replayed
  obtain ⟨whole, longShape, _, after, total⟩ := fromBlocks_ok_iff.mp later
  have longer : whole = rest ++ [block] := by
    rw [grown, shape] at longShape
    exact (List.cons.inj longShape).2.symm
  rw [longer] at after
  obtain ⟨middle, earlier, last⟩ := replay_snoc.mp after
  rw [before] at earlier
  cases earlier
  rw [grown] at total
  obtain ⟨work, sum, added⟩ := cumulativeWork_snoc.mp total
  rw [summed] at sum
  cases sum
  rw [shape]
  exact ⟨last, added⟩

theorem considerChain_ok {chain next : Chain} {candidate : List Block} {pow : PowVerifier}
    {now : UInt64} {event : ChainEvent}
    (considered : chain.considerChain candidate pow now = .ok (event, next)) :
    next = chain ∨ Chain.fromBlocks candidate pow now = .ok next := by
  unfold Chain.considerChain at considered
  simp only [guard_ok, bind_ok] at considered
  obtain ⟨_, validated, accepted, choice⟩ := considered
  split at choice
  · cases choice
    exact Or.inr accepted
  · cases choice
    exact Or.inl rfl

theorem Chain.Replayed.considerChain {pow : PowVerifier} {now later : UInt64} {chain next : Chain}
    {candidate : List Block} {event : ChainEvent} (replayed : chain.Replayed pow later)
    (le : now ≤ later) (considered : chain.considerChain candidate pow now = .ok (event, next)) :
    next.Replayed pow later := by
  rcases considerChain_ok considered with same | accepted
  · rw [same]
    exact replayed
  · exact fromBlocks_replayed accepted le

/-- The chains reached from genesis by extension and by adopting other linked
chains, at any clock readings. -/
inductive Chain.Reached (pow : PowVerifier) : Chain → Prop where
  | genesis : Chain.Reached pow Chain.genesis
  | append {chain next : Chain} {block : Block} {now : UInt64} {event : ChainEvent}
      (earlier : Chain.Reached pow chain)
      (appended : chain.append block pow now = .ok (event, next)) : Chain.Reached pow next
  | considerChain {chain next : Chain} {candidate : List Block} {now : UInt64} {event : ChainEvent}
      (earlier : Chain.Reached pow chain)
      (considered : chain.considerChain candidate pow now = .ok (event, next))
      (linked : Linked pow next.blocks) : Chain.Reached pow next

theorem Chain.Reached.valid {pow : PowVerifier} {chain : Chain}
    (reached : Chain.Reached pow chain) : ValidHistory pow chain.blocks chain.state := by
  induction reached with
  | genesis => exact .genesis
  | append earlier appended ih => exact ih.append appended
  | considerChain earlier considered linked ih =>
    rcases considerChain_ok considered with same | accepted
    · rwa [same]
    · obtain ⟨_, _, blocks, _, _⟩ := fromBlocks_ok_iff.mp accepted
      rw [blocks] at linked
      exact fromBlocks_valid accepted linked.above

theorem Chain.Reached.summed {pow : PowVerifier} {chain : Chain}
    (reached : Chain.Reached pow chain) :
    ParitrNode.cumulativeWork chain.blocks = .ok chain.cumulativeWork := by
  induction reached with
  | genesis => exact cumulativeWork_genesis
  | append earlier appended ih =>
    rcases append_ok appended with ⟨_, same, _⟩ | ⟨_, _, _, blocks, _, added⟩
    · rwa [same]
    · rw [blocks]
      exact cumulativeWork_snoc.mpr ⟨_, ih, added⟩
  | considerChain earlier considered linked ih =>
    rcases considerChain_ok considered with same | accepted
    · rwa [same]
    · obtain ⟨_, _, blocks, _, work⟩ := fromBlocks_ok_iff.mp accepted
      rw [blocks]
      exact work

theorem Chain.Reachable.reached {pow : PowVerifier} {chain : Chain}
    (reachable : Chain.Reachable pow chain) : Chain.Reached pow chain := by
  induction reachable with
  | genesis => exact .genesis
  | append earlier appended ih => exact ih.append appended

/-! Runs: calls with a clock reading each, where a failed call changes nothing. -/

inductive ChainCall where
  | append (block : Block) (now : UInt64)
  | considerChain (candidate : List Block) (now : UInt64)

namespace ChainCall

def now : ChainCall → UInt64
  | append _ now => now
  | considerChain _ now => now

def outcome (pow : PowVerifier) (chain : Chain) : ChainCall →
    Except ConsensusError (ChainEvent × Chain)
  | append block now => chain.append block pow now
  | considerChain candidate now => chain.considerChain candidate pow now

def perform (pow : PowVerifier) (chain : Chain) (call : ChainCall) : Chain :=
  match call.outcome pow chain with
  | .ok (_, next) => next
  | .error _ => chain

end ChainCall

theorem Chain.Replayed.perform {pow : PowVerifier} {later : UInt64} {chain : Chain}
    (replayed : chain.Replayed pow later) {call : ChainCall} (le : call.now ≤ later) :
    (call.perform pow chain).Replayed pow later := by
  unfold ChainCall.perform
  split
  next event next performed =>
    cases call with
    | append block now => exact replayed.append le performed
    | considerChain candidate now => exact replayed.considerChain le performed
  next => exact replayed

theorem Chain.Replayed.run {pow : PowVerifier} {later : UInt64} {chain : Chain}
    (replayed : chain.Replayed pow later) {calls : List ChainCall}
    (le : ∀ call ∈ calls, call.now ≤ later) :
    (calls.foldl (ChainCall.perform pow) chain).Replayed pow later := by
  induction calls generalizing chain with
  | nil => exact replayed
  | cons call calls ih =>
    have step := replayed.perform (le call List.mem_cons_self)
    exact ih step (fun other member => le other (List.mem_cons_of_mem _ member))

/-- After any calls, `from_blocks` at any later clock gives the same chain back,
and its work is the plain sum over the blocks. -/
theorem from_blocks_reproduces {pow : PowVerifier} {calls : List ChainCall} {later : UInt64}
    (le : ∀ call ∈ calls, call.now ≤ later) :
    let chain := calls.foldl (ChainCall.perform pow) Chain.genesis
    Chain.fromBlocks chain.blocks pow later = .ok chain ∧
      ∃ targets, chain.blocks.map (fun block => bitsToTarget block.header.bits) = targets.map some ∧
        chain.cumulativeWork = totalWork targets := by
  intro chain
  have replayed : chain.Replayed pow later := (replayed_genesis pow later).run le
  obtain ⟨_, _, _, _, summed⟩ := fromBlocks_ok_iff.mp replayed
  exact ⟨replayed, cumulativeWork_total summed⟩

theorem perform_of_ok {pow : PowVerifier} {chain next : Chain} {call : ChainCall} {event : ChainEvent}
    (performed : call.outcome pow chain = .ok (event, next)) : call.perform pow chain = next := by
  unfold ChainCall.perform
  rw [performed]

theorem Chain.Reachable.calls {pow : PowVerifier} {chain : Chain}
    (reachable : Chain.Reachable pow chain) :
    ∃ calls : List ChainCall, calls.foldl (ChainCall.perform pow) Chain.genesis = chain := by
  induction reachable with
  | genesis => exact ⟨[], rfl⟩
  | @append chain next block now event _ appended ih =>
    obtain ⟨calls, same⟩ := ih
    have last : (ChainCall.append block now).perform pow chain = next := perform_of_ok appended
    exact ⟨calls ++ [.append block now], by rw [List.foldl_append, same]; exact last⟩

theorem considerChain_adopts {chain validated : Chain} {candidate : List Block} {pow : PowVerifier}
    {now : UInt64} (head : candidate.head? = chain.blocks.head?)
    (accepted : Chain.fromBlocks candidate pow now = .ok validated)
    (more : chain.cumulativeWork < validated.cumulativeWork) :
    (ChainCall.considerChain candidate now).perform pow chain = validated := by
  have better : Chain.preferred validated.cumulativeWork validated.tip.id chain.cumulativeWork
      chain.tip.id := Or.inl more
  have considered : chain.considerChain candidate pow now =
      .ok (.reorganized chain.tip.id validated.tip.id
        (Chain.forkIndex chain.blocks validated.blocks), validated) := by
    unfold Chain.considerChain
    rw [if_neg (not_not_intro head), accepted]
    exact if_pos better
  exact perform_of_ok considered

omit [Crypto] in
theorem le_latest (now : UInt64) : now ≤ latest := by
  have small := now.toNat_lt
  have top : latest.toNat = 2 ^ 64 - 1 := rfl
  rw [UInt64.le_iff_toNat_le]
  omega

theorem Chain.Reachable.replayed {chain : Chain} (reachable : Chain.Reachable acceptAll chain) :
    chain.Replayed acceptAll latest := by
  obtain ⟨calls, grown⟩ := reachable.calls
  have inTime : ∀ call ∈ calls, call.now ≤ latest := fun call _ => le_latest call.now
  have replayed := (replayed_genesis acceptAll latest).run inTime
  rwa [grown] at replayed

omit [Crypto] in
/-- Genesis and three blocks mined on it in a row. -/
theorem mined_blocks_linked :
    ∃ (_ : Crypto) (blocks : List Block) (chain : Chain),
      Chain.fromBlocks blocks acceptAll latest = .ok chain ∧ blocks.length = 4 ∧
        (Linked acceptAll blocks ↔ ∀ block ∈ blocks.tail, block.header.height ≠ 0) ∧
        Linked acceptAll blocks := by
  let _ := labelled
  obtain ⟨chain, reachable, -, length, -⟩ :=
    reachable_chainWithBlocks acceptAll_lenient LedgerState.addressMin 0 (show 3 ≤ 2 ^ 32 by decide)
  have accepted : Chain.fromBlocks chain.blocks acceptAll latest = .ok chain := reachable.replayed
  exact ⟨labelled, chain.blocks, chain, accepted, length, fromBlocks_linked_iff accepted,
    reachable.valid.linked⟩

omit [Crypto] in
/-- A chain extended by one block adopts a branch of two other blocks. -/
theorem reorganized_reproduces :
    ∃ (_ : Crypto) (before : List ChainCall) (candidate : List Block),
      let chain := (before ++ [ChainCall.considerChain candidate latest]).foldl
        (ChainCall.perform acceptAll) Chain.genesis
      (before.foldl (ChainCall.perform acceptAll) Chain.genesis).blocks.length = 2 ∧
        chain.blocks.length = 3 ∧ Chain.fromBlocks chain.blocks acceptAll latest = .ok chain ∧
        ∃ targets, chain.blocks.map (fun block => bitsToTarget block.header.bits) =
          targets.map some ∧ chain.cumulativeWork = totalWork targets := by
  let _ := labelled
  obtain ⟨short, shortReached, -, shortLength, -, shortWork, -⟩ :=
    reachable_chainWithBlocks acceptAll_lenient LedgerState.addressMin 0 (show 1 ≤ 2 ^ 32 by decide)
  obtain ⟨long, longReached, -, longLength, -, longWork, -⟩ :=
    reachable_chainWithBlocks acceptAll_lenient LedgerState.addressMin 1 (show 2 ≤ 2 ^ 32 by decide)
  obtain ⟨before, reached⟩ := shortReached.calls
  have accepted : Chain.fromBlocks long.blocks acceptAll latest = .ok long := longReached.replayed
  have head : long.blocks.head? = short.blocks.head? := by
    rw [longReached.valid.head, shortReached.valid.head]
  let calls := before ++ [ChainCall.considerChain long.blocks latest]
  have adopted : calls.foldl (ChainCall.perform acceptAll) Chain.genesis = long := by
    rw [List.foldl_append, reached]
    exact considerChain_adopts head accepted (by omega)
  have inTime : ∀ call ∈ calls, call.now ≤ latest := fun call _ => le_latest call.now
  exact ⟨labelled, before, long.blocks, by rw [reached]; exact shortLength,
    by rw [adopted]; exact longLength, from_blocks_reproduces inTime⟩

end

end ParitrNode
