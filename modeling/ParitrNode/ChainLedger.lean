import ParitrNode.Conservation
import ParitrNode.LargeSnapshots
import ParitrNode.SnapshotRetention

/-!
The ledger of a chain as the outcome of its state calls, block after block: what its
state roots commit to, and which of its snapshots can be restored.
-/

namespace ParitrNode
open ByteCodec OrderedMap Checked

variable [Crypto]

def transactionCalls (transaction : Transaction) : List StateCall :=
  [.debit transaction.sender (transaction.amount + transaction.fee),
    .credit transaction.recipient transaction.amount,
    .setNonce transaction.sender (transaction.nonce + 1)]

/-- The rewards of a block are scheduled for the finder first. -/
def rewardCalls (history : List Block) (block : Block) : List StateCall :=
  match block.rewardClaim, templateFees block.transactions with
  | some claim, .ok fees =>
    match rewardAllocation block.header.height claim.finder fees history with
    | .ok allocation => ((claim.finder, allocation.finderAmount) :: allocation.workshareRewards).map
        fun entry => .scheduleReward (block.header.height + REWARD_MATURITY) entry.1 entry.2
    | .error _ => []
  | _, _ => []

def blockCalls (history : List Block) (block : Block) : List StateCall :=
  .mature block.header.height :: block.transactions.flatMap transactionCalls ++ rewardCalls history block

def callsAfter (done : List Block) : List Block → List StateCall
  | [] => []
  | block :: rest => blockCalls done block ++ callsAfter (done ++ [block]) rest

def ledgerCalls (blocks : List Block) : List StateCall := callsAfter (blocks.take 1) blocks.tail

def leavesAll (state : LedgerState) (calls : List StateCall) : LedgerState :=
  calls.foldl StateCall.leaves state

theorem leavesAll_append (state : LedgerState) (first second : List StateCall) :
    leavesAll state (first ++ second) = leavesAll (leavesAll state first) second :=
  List.foldl_append

omit [Crypto] in
theorem callsAfter_snoc (done rest : List Block) (block : Block) :
    callsAfter done (rest ++ [block]) = callsAfter done rest ++ blockCalls (done ++ rest) block := by
  induction rest generalizing done with
  | nil =>
    rw [List.nil_append, List.append_nil]
    exact List.append_nil _
  | cons first rest ih =>
    rw [List.cons_append, callsAfter, callsAfter, ih, List.append_assoc, List.append_assoc]
    rfl

omit [Crypto] in
theorem ledgerCalls_snoc {blocks : List Block} (nonempty : blocks ≠ []) (block : Block) :
    ledgerCalls (blocks ++ [block]) = ledgerCalls blocks ++ blockCalls blocks block := by
  cases blocks with
  | nil => exact absurd rfl nonempty
  | cons first rest => exact callsAfter_snoc [first] rest block

/-! Each step of a transition is its calls. -/

omit [Crypto] in
theorem checkedAdd_eq {a b sum : UInt64} (added : checkedAdd a b = some sum) : a + b = sum := by
  unfold checkedAdd at added
  split at added
  · exact Option.some.inj added
  · cases added

theorem applyTransaction_calls {state next : LedgerState} {seen : List Hash32} {transaction : Transaction}
    (applied : applyTransaction state seen transaction = .ok next) :
    leavesAll state (transactionCalls transaction) = next := by
  have ⟨debit, debited, credited, nonce, steps, result⟩ := applyTransaction_ok_iff.mp applied
  have amount : transaction.amount + transaction.fee = debit := checkedAdd_eq steps.debitOk
  have following : transaction.nonce + 1 = nonce := checkedAdd_eq steps.nonceNext
  unfold leavesAll transactionCalls
  simp only [List.foldl_cons, List.foldl_nil, StateCall.leaves, amount, following, steps.debitedOk,
    steps.creditedOk, Except.toOption, Option.getD_some]
  exact result.symm

theorem applyFrom_calls {state : LedgerState} {seen : List Hash32} {totalFees : UInt64}
    {transactions : List Transaction} {result : LedgerState × UInt64}
    (applied : applyFrom state seen totalFees transactions = .ok result) :
    leavesAll state (transactions.flatMap transactionCalls) = result.1 := by
  induction transactions generalizing state seen totalFees with
  | nil =>
    cases applied
    rfl
  | cons transaction rest ih =>
    have ⟨next, fees, first, _, _, later⟩ := applyFrom_cons_ok.mp applied
    rw [List.flatMap_cons, leavesAll_append, applyTransaction_calls first]
    exact ih later

theorem scheduleRewards_calls {maturity : UInt64} {state next : LedgerState}
    {rewards : List (Address × UInt64)} (scheduled : scheduleRewards maturity state rewards = .ok next) :
    leavesAll state (rewards.map fun entry => .scheduleReward maturity entry.1 entry.2) = next := by
  induction rewards generalizing state with
  | nil =>
    cases scheduled
    rfl
  | cons entry rest ih =>
    obtain ⟨middle, first, later⟩ := bind_ok.mp scheduled
    have step : StateCall.leaves state (.scheduleReward maturity entry.1 entry.2) = middle := by
      change (state.scheduleReward maturity entry.1 entry.2).toOption.getD state = middle
      change state.scheduleReward maturity entry.1 entry.2 = .ok middle at first
      rw [first]
      rfl
    change leavesAll (StateCall.leaves state _) _ = next
    rw [step]
    exact ih later

theorem matured_calls {state next : LedgerState} {height : UInt64}
    (done : matured state height = .ok next) : leavesAll state [.mature height] = next := by
  unfold matured at done
  change (state.mature height).2 = next
  split at done
  next => cases done
  next left found =>
    cases done
    rw [found]

theorem accepted_calls {block : Block} {history : List Block} {state next : LedgerState}
    {pow : PowVerifier} {now : UInt64} (accepted : Accepted block history state pow now next) :
    leavesAll state (blockCalls history block) = next := by
  have ⟨parent, seed, target, claim, transition, checks, result⟩ := accepted
  have ⟨maturedState, appliedState, maturity, finderState, steps⟩ :=
    transitionForCandidate_ok_iff.mp checks.transitionOk
  have fees : templateFees block.transactions = .ok transition.fees := applyFrom_fees steps.appliedOk
  have due : block.header.height + REWARD_MATURITY = maturity := checkedAdd_eq steps.maturityOk
  have rewards : rewardCalls history block =
      ((claim.finder, transition.allocation.finderAmount) :: transition.allocation.workshareRewards).map
        fun entry => .scheduleReward maturity entry.1 entry.2 := by
    unfold rewardCalls
    rw [checks.claimPresent, fees]
    dsimp only
    rw [steps.allocationOk]
    dsimp only
    rw [due]
  have scheduled : scheduleRewards maturity appliedState
      ((claim.finder, transition.allocation.finderAmount) :: transition.allocation.workshareRewards) =
        .ok transition.state := bind_ok.mpr ⟨finderState, steps.finderOk, steps.sharesOk⟩
  calc leavesAll state (blockCalls history block)
      = leavesAll (leavesAll state [.mature block.header.height])
          (block.transactions.flatMap transactionCalls ++ rewardCalls history block) := rfl
    _ = leavesAll (leavesAll maturedState (block.transactions.flatMap transactionCalls))
          (rewardCalls history block) := by rw [matured_calls steps.maturedOk, leavesAll_append]
    _ = leavesAll appliedState (rewardCalls history block) := by rw [applyFrom_calls steps.appliedOk]
    _ = transition.state := by rw [rewards, scheduleRewards_calls scheduled]
    _ = next := result.symm

/-- The state of a valid history is what its calls leave behind. -/
theorem ValidHistory.ledger {pow : PowVerifier} {history : List Block} {state : LedgerState}
    (valid : ValidHistory pow history state) : afterCalls (ledgerCalls history) = state := by
  induction valid with
  | genesis => rfl
  | extend earlier above accepted ih =>
    rw [ledgerCalls_snoc earlier.nonempty]
    change leavesAll default (_ ++ _) = _
    rw [leavesAll_append]
    change leavesAll (afterCalls _) _ = _
    rw [ih]
    exact accepted_calls accepted

theorem ValidHistory.stateRoot {pow : PowVerifier} {history : List Block} {state : LedgerState}
    (valid : ValidHistory pow history state) {tip : Block} (last : history.getLast? = some tip) :
    tip.header.stateRoot = state.root := by
  cases valid with
  | genesis =>
    cases last
    rfl
  | extend earlier above accepted =>
    rw [List.getLast?_concat] at last
    cases last
    have ⟨_, _, _, _, _, checks, result⟩ := accepted
    rw [result]
    exact checks.stateRoot.symm

theorem ValidHistory.mirrored {pow : PowVerifier} {history : List Block} {state : LedgerState}
    (valid : ValidHistory pow history state) {keys : Set StateKey} (apart : HashesApart keys)
    (closed : ∀ maturity recipient, .pendingReward maturity recipient ∈ keys → .account recipient ∈ keys)
    (inside : touchedBy (ledgerCalls history) ⊆ keys) : LedgerState.Mirrored keys state := by
  rw [← valid.ledger]
  exact afterCalls_mirrored _ apart closed inside

/-! What a state root in a header says. -/

/-- Two branches whose tips name the same state root have the same ledger, and the same
ledger has the same root whichever blocks led to it. -/
theorem tip_roots_commit {pow pow' : PowVerifier} {first second : List Block} {state state' : LedgerState}
    (valid : ValidHistory pow first state) (valid' : ValidHistory pow' second state') {tip tip' : Block}
    (last : first.getLast? = some tip) (last' : second.getLast? = some tip')
    (keysFree : CollisionFree (keyInputs (touchedBy (ledgerCalls first ++ ledgerCalls second))))
    (treeFree : CollisionFree (treeInputs state ∪ treeInputs state')) :
    tip.header.stateRoot = tip'.header.stateRoot ↔
      state.accounts = state'.accounts ∧ state.pendingRewards = state'.pendingRewards := by
  have apart := hashesApart keysFree
  have closed : ∀ maturity recipient,
      .pendingReward maturity recipient ∈ touchedBy (ledgerCalls first ++ ledgerCalls second) →
        .account recipient ∈ touchedBy (ledgerCalls first ++ ledgerCalls second) :=
    fun _ _ => recipient_touched
  have mirrored := valid.mirrored apart closed
    fun key ⟨call, member, touched⟩ => ⟨call, List.mem_append_left _ member, touched⟩
  have mirrored' := valid'.mirrored apart closed
    fun key ⟨call, member, touched⟩ => ⟨call, List.mem_append_right _ member, touched⟩
  rw [valid.stateRoot last, valid'.stateRoot last']
  constructor
  · intro same
    unfold LedgerState.root at same
    rw [SparseMerkleTree.root_eq mirrored.coherent, SparseMerkleTree.root_eq mirrored'.coherent] at same
    have whole : keyBits.At 0 Hash32.ZERO := keyPrefix_zero Hash32.ZERO
    have free := treeHash_injOn treeFree (Set.image_union _ _ _).subset
    have values := SparseMerkle.root_binding whole free same
    exact LedgerState.maps_eq_of_encoding (mirrored.encoding_eq apart mirrored' values)
  · intro ⟨accounts, pending⟩
    exact mirrored.root_eq mirrored' accounts pending

/-! Empty blocks, the finder of each given by its height. -/

theorem BuiltOn.calls {history : List Block} {finder : Address} {nonce : UInt64} {block : Block}
    (built : BuiltOn history finder nonce block) (quiet : windowShares history = []) :
    blockCalls history block = [.mature (UInt64.ofNat history.length),
      .scheduleReward (UInt64.ofNat history.length + REWARD_MATURITY) finder
        (blockSubsidy (UInt64.ofNat history.length))] := by
  obtain ⟨claim, present, rfl⟩ := built.claim
  have height : block.header.height = UInt64.ofNat history.length := by
    rw [← built.height, UInt64.ofNat_toNat]
  unfold blockCalls rewardCalls
  rw [present, built.transactions, show templateFees [] = .ok 0 from rfl, height]
  dsimp only
  rw [rewardAllocation_alone _ _ quiet]
  rfl

def payingCalls (finders : Nat → Address) (count : Nat) : List StateCall :=
  (List.range count).flatMap fun index => [.mature (UInt64.ofNat (index + 1)),
    .scheduleReward (UInt64.ofNat (index + 1) + REWARD_MATURITY) (finders (index + 1))
      (blockSubsidy (UInt64.ofNat (index + 1)))]

theorem reachable_paying {pow : PowVerifier} {nonce : UInt64}
    (heights : ∀ first second : BlockHeader, first.id = second.id → first.height = second.height)
    (lenient : LenientAt pow nonce) (finders : Nat → Address) {count : Nat} (short : count ≤ 2 ^ 32) :
    ∃ chain : Chain, chain.Reachable pow ∧ OnSchedule chain.blocks ∧
      chain.cumulativeWork = chain.blocks.length * 16384 ∧ chain.blocks.length = count + 1 ∧
      (0 < count → chain.tip.header.nonce = nonce) ∧
      ledgerCalls chain.blocks = payingCalls finders count := by
  induction count with
  | zero =>
    refine ⟨Chain.genesis, .genesis, onSchedule_genesis, ?_, rfl, fun none => absurd none (by decide), rfl⟩
    rw [genesis_work, targetWork_launch]
    exact (Nat.one_mul 16384).symm
  | succ count ih =>
    obtain ⟨chain, reachable, scheduled, work, length, _, calls⟩ := ih (by omega)
    have valid := reachable.valid
    obtain ⟨block, next, _, built, accepted⟩ :=
      nextBlock_ok valid scheduled (by omega) (finders (count + 1)) nonce
    have clock : latest.toNat = 2 ^ 64 - 1 := rfl
    obtain ⟨grown, reached, blocks, _, total⟩ := reachable.grow heights work (by omega)
      built.height built.previous built.bits (accepted latest lenient (by omega))
    refine ⟨grown, reached, ?_, total, ?_, fun _ => ?_, ?_⟩
    · rw [blocks]
      exact scheduled.snoc built
    · rw [blocks, List.length_append, List.length_singleton, length]
    · have last : grown.tip = block := by
        unfold Chain.tip
        simp only [blocks, List.getLast_concat]
      rw [last]
      exact built.nonce
    · rw [blocks, ledgerCalls_snoc valid.nonempty, calls, built.calls scheduled.windowShares, length]
      unfold payingCalls
      rw [List.range_succ, List.flatMap_append, List.flatMap_singleton]

omit [Crypto] in
theorem tallied_heights (first second : BlockHeader)
    (same : @BlockHeader.id tallied first = @BlockHeader.id tallied second) :
    first.height = second.height := by
  have label : ∀ header : BlockHeader,
      @BlockHeader.id tallied header = @BlockHeader.id labelled header := by
    intro header
    have width : header.consensusEncode.length = 160 := header.consensusEncode_length
    have inner : tallyHash header.consensusEncode = labelHash header.consensusEncode := by
      unfold tallyHash
      rw [dif_neg (by omega), if_pos width]
    change tallyHash (tallyHash header.consensusEncode).bytes =
      labelHash (labelHash header.consensusEncode).bytes
    rw [inner, labelHash_self]
    exact dif_pos (FixedBytes.length_eq _)
  exact (labelled_id_injective ((label first).symm.trans (same.trans (label second)))).1

structure Sibling (finder : Address) (chain : Chain) : Prop where
  reachable : chain.Reachable acceptAll
  calls : ledgerCalls chain.blocks = payingCalls (fun _ => finder) 1

theorem Sibling.state {finder : Address} {chain : Chain} (sibling : Sibling finder chain) :
    chain.state = afterCalls (payingCalls (fun _ => finder) 1) := by
  rw [← sibling.calls]
  exact sibling.reachable.valid.ledger.symm

theorem Sibling.roots {first second : Address} {chain other : Chain} (sibling : Sibling first chain)
    (sibling' : Sibling second other)
    (distinct : ∀ key ∈ (payingCalls (fun _ => first) 1 ++ payingCalls (fun _ => second) 1).flatMap
      StateCall.keys, ∀ key' ∈ (payingCalls (fun _ => first) 1 ++
        payingCalls (fun _ => second) 1).flatMap StateCall.keys, key.hash = key'.hash → key = key')
    (free : ∀ {keys : Set StateKey}, HashesApart keys → LedgerState.Mirrored keys chain.state →
      LedgerState.Mirrored keys other.state →
        CollisionFree (treeInputs chain.state ∪ treeInputs other.state)) :
    CollisionFree (keyInputs (touchedBy (ledgerCalls chain.blocks ++ ledgerCalls other.blocks))) ∧
      CollisionFree (treeInputs chain.state ∪ treeInputs other.state) := by
  have keysFree : CollisionFree
      (keyInputs (touchedBy (ledgerCalls chain.blocks ++ ledgerCalls other.blocks))) := by
    rw [sibling.calls, sibling'.calls]
    exact keyInputs_free distinct
  have apart := hashesApart keysFree
  refine ⟨keysFree, free apart ?_ ?_⟩
  · exact sibling.reachable.valid.mirrored apart (fun _ _ => recipient_touched)
      fun key ⟨call, member, touched⟩ => ⟨call, List.mem_append_left _ member, touched⟩
  · exact sibling'.reachable.valid.mirrored apart (fun _ _ => recipient_touched)
      fun key ⟨call, member, touched⟩ => ⟨call, List.mem_append_right _ member, touched⟩

omit [Crypto] in
/-- Two siblings that pay one finder name one root, and a sibling that pays another finder
names another. -/
theorem sibling_roots :
    ∃ (_ : Crypto) (first twin other : Chain),
      ValidHistory acceptAll first.blocks first.state ∧ ValidHistory acceptAll twin.blocks twin.state ∧
        ValidHistory acceptAll other.blocks other.state ∧ first.tip ≠ twin.tip ∧
        first.state.pendingRewards.toList = [((101, LedgerState.addressMin), 1000000000)] ∧
        other.state.pendingRewards.toList = [((101, LedgerState.addressMax), 1000000000)] ∧
        first.tip.header.stateRoot = twin.tip.header.stateRoot ∧
        first.tip.header.stateRoot ≠ other.tip.header.stateRoot := by
  let _ := tallied
  obtain ⟨first, reachable, _, _, _, nonce, calls⟩ := reachable_paying tallied_heights
    (acceptAll_lenient.at 0) (fun _ => LedgerState.addressMin) (show 1 ≤ 2 ^ 32 by decide)
  obtain ⟨twin, twinReachable, _, _, _, twinNonce, twinCalls⟩ := reachable_paying tallied_heights
    (acceptAll_lenient.at 1) (fun _ => LedgerState.addressMin) (show 1 ≤ 2 ^ 32 by decide)
  obtain ⟨other, otherReachable, _, _, _, _, otherCalls⟩ := reachable_paying tallied_heights
    (acceptAll_lenient.at 0) (fun _ => LedgerState.addressMax) (show 1 ≤ 2 ^ 32 by decide)
  have one : Sibling LedgerState.addressMin first := ⟨reachable, calls⟩
  have two : Sibling LedgerState.addressMin twin := ⟨twinReachable, twinCalls⟩
  have three : Sibling LedgerState.addressMax other := ⟨otherReachable, otherCalls⟩
  have last : ∀ chain : Chain, chain.blocks.getLast? = some chain.tip :=
    fun chain => List.getLast?_eq_getLast_of_ne_nil chain.nonempty
  have pending : first.state.pendingRewards.toList = [((101, LedgerState.addressMin), 1000000000)] := by
    rw [one.state]
    decide +kernel
  have pending' : other.state.pendingRewards.toList = [((101, LedgerState.addressMax), 1000000000)] := by
    rw [three.state]
    decide +kernel
  have accounts : first.state.accounts.toList = [] := by
    rw [one.state]
    decide +kernel
  have same : first.state = twin.state := one.state.trans two.state.symm
  have apart : first.tip ≠ twin.tip := by
    intro equal
    have nonces : first.tip.header.nonce = twin.tip.header.nonce := by rw [equal]
    rw [nonce (by decide), twinNonce (by decide)] at nonces
    exact absurd nonces (by decide)
  obtain ⟨keysFree, treeFree⟩ := one.roots two (by decide +kernel) fun distinct mirrored mirrored' =>
    Tallied.free distinct mirrored mirrored' fun key value value' left right => by
      rw [same] at left
      exact Option.some.inj (left.symm.trans right)
  obtain ⟨keysFree', treeFree'⟩ := one.roots three (by decide +kernel) fun distinct mirrored mirrored' =>
    Tallied.free distinct mirrored mirrored' fun key value value' left right => by
      cases key with
      | account address =>
        obtain ⟨account, found, _⟩ := Option.map_eq_some_iff.mp left
        have member := mem_toList.mpr found
        rw [accounts] at member
        cases member
      | pendingReward maturity recipient =>
        obtain ⟨amount, found, _⟩ := Option.map_eq_some_iff.mp left
        obtain ⟨amount', found', _⟩ := Option.map_eq_some_iff.mp right
        have member := mem_toList.mpr found
        have member' := mem_toList.mpr found'
        rw [pending, List.mem_singleton] at member
        rw [pending', List.mem_singleton] at member'
        have lowest : recipient = LedgerState.addressMin := congrArg (fun entry => entry.1.2) member
        have highest : recipient = LedgerState.addressMax := congrArg (fun entry => entry.1.2) member'
        exact absurd (lowest.symm.trans highest) (by decide)
  refine ⟨tallied, first, twin, other, reachable.valid, twinReachable.valid, otherReachable.valid, apart,
    pending, pending', ?_, fun root => ?_⟩
  · apply (tip_roots_commit reachable.valid twinReachable.valid (last first) (last twin) keysFree
      treeFree).mpr
    rw [same]
    exact ⟨rfl, rfl⟩
  · have maps := (tip_roots_commit reachable.valid otherReachable.valid (last first) (last other)
      keysFree' treeFree').mp root
    rw [maps.2, pending'] at pending
    exact absurd pending (by decide)

/-! What a snapshot restores. -/

namespace LedgerState

/-- The ledger of a valid history comes back from its snapshot exactly when the
snapshot is within the cap on decoded input. -/
theorem restores_iff {pow : PowVerifier} {history : List Block} {state : LedgerState}
    (valid : ValidHistory pow history state)
    (keysFree : CollisionFree (keyInputs (touchedBy (ledgerCalls history)))) :
    (∃ restored, consensusDecode decodeFrom state.consensusEncode = .ok restored ∧
        restored.accounts = state.accounts ∧ restored.pendingRewards = state.pendingRewards ∧
        restored.root = state.root) ↔
      state.accounts.size + state.pendingRewards.size ≤ 204599 := by
  constructor
  · intro ⟨_, decoded, _⟩
    exact (fits_iff _).mp (consensusDecode_ok decoded).1
  · intro small
    have apart := hashesApart keysFree
    have mirrored := valid.mirrored apart (fun _ _ => recipient_touched) fun _ touched => touched
    have range : state.InRange := valid.ledger ▸ afterCalls_inRange (ledgerCalls history)
    have ⟨restored, reads, accounts, pending, root⟩ :=
      reads_back apart mirrored range (by omega) (by omega)
    exact ⟨restored, consensusDecode_of_reads reads ((fits_iff _).mpr small), accounts, pending, root⟩

end LedgerState

namespace Storage

theorem SaveRun.rows {pow : PowVerifier} {calls : List SaveCall} {storage : Storage}
    (run : SaveRun pow calls storage) {height : UInt64} {row : StateSnapshot}
    (found : storage.stateSnapshots[height]? = some row) :
    ∃ call ∈ calls, ∃ now, ValidHistory pow call.chain.blocks call.chain.state ∧
      call.chain.height = height ∧ row = snapshotOf call.chain now := by
  induction run with
  | start =>
    rw [show (default : Storage).stateSnapshots[height]? = none from get_empty height] at found
    cases found
  | @save calls chain storage next disk now earlier valid saved ih =>
    rw [saveChain_snapshots saved, get_pruneSnapshots] at found
    split at found
    next =>
      change (storage.stateSnapshots.insert chain.height (snapshotOf chain now))[height]? = _ at found
      rw [get_insert] at found
      split at found
      next same =>
        cases found
        exact ⟨⟨chain, next⟩, List.mem_append_right _ List.mem_cons_self, now, valid, same, rfl⟩
      next =>
        obtain ⟨call, member, written⟩ := ih found
        exact ⟨call, List.mem_append_left _ member, written⟩
    next => cases found

/-- After any run of saves, every snapshot in the table restores the ledger of the chain it
was written for, with the root of its row, if and only if it has at most 204,599 entries. -/
theorem stored_snapshots_restore {pow : PowVerifier} {calls : List SaveCall} {storage : Storage}
    (run : SaveRun pow calls storage)
    (keysFree : ∀ call ∈ calls, CollisionFree (keyInputs (touchedBy (ledgerCalls call.chain.blocks))))
    {height : UInt64} {row : StateSnapshot} (found : storage.stateSnapshots[height]? = some row) :
    ∃ call ∈ calls, call.chain.height = height ∧ row.blockHash = call.chain.tip.id ∧
      row.stateRoot = call.chain.tip.header.stateRoot ∧
      ((∃ restored, consensusDecode LedgerState.decodeFrom row.data = .ok restored ∧
          restored.accounts = call.chain.state.accounts ∧
          restored.pendingRewards = call.chain.state.pendingRewards ∧
          restored.root = row.stateRoot) ↔
        call.chain.state.accounts.size + call.chain.state.pendingRewards.size ≤ 204599) := by
  have ⟨call, member, now, valid, level, written⟩ := run.rows found
  have root := valid.stateRoot (List.getLast?_eq_getLast_of_ne_nil call.chain.nonempty)
  refine ⟨call, member, level, ?_, ?_, ?_⟩
  · rw [written]
    rfl
  · rw [written]
    exact root.symm
  · rw [written]
    exact LedgerState.restores_iff valid (keysFree call member)

omit [Crypto] in
/-- The third of three saves of a growing chain restores the two rewards that its blocks left
pending. -/
theorem two_rewards_restored :
    ∃ (_ : Crypto) (calls : List SaveCall) (storage : Storage) (row : StateSnapshot)
      (restored : LedgerState), SaveRun acceptAll calls storage ∧
      calls.map (fun call => call.chain.height.toNat) = [0, 1, 2] ∧
      storage.stateSnapshots[(2 : UInt64)]? = some row ∧
      consensusDecode LedgerState.decodeFrom row.data = .ok restored ∧
      restored.pendingRewards.toList = [((101, LedgerState.addressMin), 1000000000),
        ((102, LedgerState.addressMax), 1000000000)] ∧ restored.root = row.stateRoot := by
  let _ := tallied
  let finders : Nat → Address := fun index =>
    if index = 1 then LedgerState.addressMin else LedgerState.addressMax
  have grows : ∀ count ≤ 2, ∃ chain : Chain, chain.Reachable acceptAll ∧ chain.height.toNat = count ∧
      chain.blocks.length ≤ 2 ^ 63 ∧ ledgerCalls chain.blocks = payingCalls finders count := by
    intro count small
    obtain ⟨chain, reachable, _, _, length, _, calls⟩ := reachable_paying tallied_heights
      (acceptAll_lenient.at 0) finders (show count ≤ 2 ^ 32 by omega)
    exact ⟨chain, reachable, by rw [reachable.height_eq]; omega, by omega, calls⟩
  obtain ⟨ground, groundReachable, groundHeight, groundShort, groundCalls⟩ := grows 0 (by decide)
  obtain ⟨first, firstReachable, firstHeight, firstShort, firstCalls⟩ := grows 1 (by decide)
  obtain ⟨second, secondReachable, secondHeight, secondShort, secondCalls⟩ := grows 2 (by decide)
  have each : ∀ chain ∈ [ground, first, second], chain.Reachable acceptAll ∧ chain.blocks.length ≤ 2 ^ 63 := by
    simp only [List.forall_mem_cons]
    exact ⟨⟨groundReachable, groundShort⟩, ⟨firstReachable, firstShort⟩, ⟨secondReachable, secondShort⟩,
      fun _ member => nomatch member⟩
  obtain ⟨calls, storage, run, saves⟩ := SaveRun.of_chains [ground, first, second] each
  have chains : ∀ call ∈ calls, call.chain = ground ∨ call.chain = first ∨ call.chain = second := by
    intro call member
    have inside : call.chain ∈ calls.map SaveCall.chain := List.mem_map_of_mem member
    rw [saves] at inside
    simpa using inside
  have heights : calls.map (fun call => call.chain.height.toNat) = [0, 1, 2] := by
    have mapped : calls.map (fun call => call.chain.height.toNat) =
        (calls.map SaveCall.chain).map fun chain => chain.height.toNat := by
      rw [List.map_map]
      rfl
    rw [mapped, saves]
    simp only [List.map_cons, List.map_nil, groundHeight, firstHeight, secondHeight]
  have kept : (2 : UInt64).toNat ∈ storage.snapshotHeights := by
    rw [run.heights, savedHeights, heights]
    decide
  obtain ⟨row, found⟩ := Option.isSome_iff_exists.mp (mem_snapshotHeights.mp kept)
  have keysFree : ∀ call ∈ calls, CollisionFree (keyInputs (touchedBy (ledgerCalls call.chain.blocks))) := by
    intro call member
    rcases chains call member with same | same | same
    · rw [same, groundCalls]
      exact keyInputs_free (by decide +kernel)
    · rw [same, firstCalls]
      exact keyInputs_free (by decide +kernel)
    · rw [same, secondCalls]
      exact keyInputs_free (by decide +kernel)
  obtain ⟨call, member, level, _, _, restores⟩ := stored_snapshots_restore run keysFree found
  have last : call.chain = second := by
    have number : call.chain.height.toNat = 2 := by rw [level]; rfl
    rcases chains call member with same | same | same
    · rw [same] at number
      omega
    · rw [same] at number
      omega
    · exact same
  have state : call.chain.state = afterCalls (payingCalls finders 2) := by
    rw [last, ← secondCalls]
    exact secondReachable.valid.ledger.symm
  have few : call.chain.state.accounts.size + call.chain.state.pendingRewards.size ≤ 204599 := by
    rw [state]
    decide +kernel
  obtain ⟨restored, decoded, _, pending, root⟩ := restores.mpr few
  refine ⟨tallied, calls, storage, row, restored, run, heights, found, decoded, ?_, root⟩
  rw [pending, state]
  decide +kernel

end Storage

end ParitrNode
