import ParitrNode.FairRewards
import ParitrNode.MoneySupply
import ParitrNode.NextBlock
import ParitrNode.Node

/-!
The reward reports of the status interface: the replay of one block's reward,
and the total mined by an address as its flows account for it.
-/

namespace ParitrNode
open ByteCodec OrderedMap Checked

/-! What the node reports. -/

def shareBlocks (blocks : List Block) (address : Address) : List Nat :=
  blocks.zipIdx.filterMap fun entry =>
    if entry.1.workshareWitness.workshares.any (fun share => share.miner = address) then
      some entry.2
    else none

def partitionPoint (positions : List Nat) (index : Nat) : Nat :=
  (positions.takeWhile (fun position => position < index)).length

/-- Whether the last share of the address before `index` is in the window. -/
def shareEligible (index : Nat) (positions : List Nat) : Bool :=
  let point := partitionPoint positions index
  if point = 0 then false else decide (index - REWARD_WINDOW ≤ positions.getD (point - 1) 0)

structure RewardReport where
  txid : Hash32
  direction : String
  amount : UInt64
  finderAmount : UInt64
  workshareAmount : UInt64
  fee : UInt64
  timestamp : UInt64
  height : UInt64
  confirmations : UInt64
  status : String
  matured : Bool
  maturityHeight : UInt64

variable [Crypto]

/-- What `historical_reward` replays of the shares: without fees, which are the finder's. -/
def historicalShare (history : List Block) (index : Nat) (block : Block) (claim : RewardClaim)
    (address : Address) (shareBlocks : List Nat) : Option UInt64 :=
  if shareEligible index shareBlocks then do
    let allocation ← (rewardAllocation block.header.height claim.finder 0 (history.take index)).toOption
    return ((allocation.workshareRewards.find? (fun entry => entry.1 = address)).map Prod.snd).getD 0
  else some 0

/-- The reported entry, with the confirmations and maturity at a tip. -/
def rewardEntry (tip : BlockHeader) (block : Block) (address : Address)
    (finderAmount shareAmount : UInt64) : RewardReport :=
  let height := tip.height
  let maturity := saturatingAdd block.header.height REWARD_MATURITY
  { txid := domainHash "PARITR-REWARD-HISTORY-v1" (block.id.bytes ++ address.asBytes)
    direction := "reward"
    amount := finderAmount + shareAmount
    finderAmount
    workshareAmount := shareAmount
    fee := 0
    timestamp := block.header.timestamp
    height := block.header.height
    confirmations := saturatingAdd (saturatingSub height block.header.height) 1
    status := "confirmed"
    matured := decide (height ≥ maturity)
    maturityHeight := maturity }

/-- The callers pass an index of the history. -/
def historicalReward (history : List Block) (index : Nat) (address : Address)
    (shareBlocks : List Nat) : Option RewardReport := do
  let block ← history[index]?
  let claim ← block.rewardClaim
  let finderAmount := if claim.finder = address then claim.amount else 0
  let shareAmount ← historicalShare history index block claim address shareBlocks
  if finderAmount + shareAmount = 0 then none
  else do
    let last ← history.getLast?
    return rewardEntry last.header block address finderAmount shareAmount

def addU128 (a b : Nat) : Nat := (a + b) % 2 ^ 128

def countFlows (address : Address) (flows : Nat × Nat) (transaction : Transaction) : Nat × Nat :=
  let credited := if transaction.sender = address then
      addU128 flows.1 (transaction.amount.toNat + transaction.fee.toNat)
    else flows.1
  let received := if transaction.recipient = address then
      addU128 flows.2 transaction.amount.toNat
    else flows.2
  (credited, received)

def Node.miningRewards (node : Node) (address : Address) : UInt64 × UInt64 :=
  let chain := node.chain
  let pending := chain.state.pendingFor address
  let funds := (chain.state.account address).balance.toNat + pending.toNat
  let flows := (chain.blocks.flatMap Block.transactions).foldl (countFlows address) (funds, 0)
  let mined := flows.1 - flows.2
  (if mined < 2 ^ 64 then UInt64.ofNat mined else UInt64.ofNat (2 ^ 64 - 1), pending)

/-! The window test. -/

omit [Crypto]

/-- The last position before `index` decides for all of them. -/
theorem shareEligible_iff {positions : List Nat} (sorted : positions.Pairwise (· < ·)) (index : Nat) :
    shareEligible index positions = true ↔
      ∃ position ∈ positions, index - REWARD_WINDOW ≤ position ∧ position < index := by
  induction positions with
  | nil =>
    constructor
    · intro impossible
      cases impossible
    · intro ⟨position, member, _⟩
      cases member
  | cons first rest ih =>
    have tail := ih sorted.of_cons
    have next := (List.pairwise_cons.mp sorted).1
    by_cases before : first < index
    · have point : partitionPoint (first :: rest) index = partitionPoint rest index + 1 := by
        unfold partitionPoint
        rw [List.takeWhile_cons_of_pos (by simpa using before), List.length_cons]
      unfold shareEligible at tail ⊢
      rw [point]
      cases count : partitionPoint rest index with
      | zero =>
        rw [count] at tail
        simp only [if_true, Bool.false_eq_true, false_iff] at tail
        simp only [Nat.succ_ne_zero, if_false, Nat.add_sub_cancel, decide_eq_true_iff]
        constructor
        · exact fun inside => ⟨first, List.mem_cons_self, inside, before⟩
        · intro ⟨position, member, low, high⟩
          rcases List.mem_cons.mp member with same | later
          · exact same ▸ low
          · exact absurd ⟨position, later, low, high⟩ tail
      | succ count' =>
        rw [count] at tail
        simp only [Nat.succ_ne_zero, if_false, Nat.add_sub_cancel] at tail ⊢
        rw [List.getD_cons_succ, tail]
        constructor
        · exact fun ⟨position, member, inside⟩ => ⟨position, List.mem_cons_of_mem _ member, inside⟩
        · intro ⟨position, member, low, high⟩
          rcases List.mem_cons.mp member with same | later
          · -- a later position is before the index too
            cases rest with
            | nil => cases count
            | cons second others =>
              have inside : second < index := by
                by_contra past
                unfold partitionPoint at count
                rw [List.takeWhile_cons_of_neg (by simpa using past)] at count
                cases count
              have above := next second List.mem_cons_self
              exact ⟨second, List.mem_cons_self, by omega, inside⟩
          · exact ⟨position, later, low, high⟩
    · have point : partitionPoint (first :: rest) index = 0 := by
        unfold partitionPoint
        rw [List.takeWhile_cons_of_neg (by simpa using before)]
        rfl
      unfold shareEligible
      rw [point]
      simp only [if_true, Bool.false_eq_true, false_iff]
      intro ⟨position, member, _, high⟩
      rcases List.mem_cons.mp member with same | later
      · omega
      · have above := next position later
        omega

theorem shareBlocks_sorted (blocks : List Block) (address : Address) :
    (shareBlocks blocks address).Pairwise (· < ·) := by
  unfold shareBlocks
  rw [List.pairwise_filterMap]
  have positions : (blocks.zipIdx.map Prod.snd).Pairwise (· < ·) := by
    rw [List.zipIdx_map_snd]
    exact List.pairwise_lt_range'
  rw [List.pairwise_map] at positions
  apply positions.imp
  intro first second below left kept right kept'
  split at kept
  · split at kept'
    · cases kept
      cases kept'
      exact below
    · cases kept'
  · cases kept

theorem mem_shareBlocks {blocks : List Block} {address : Address} {position : Nat} :
    position ∈ shareBlocks blocks address ↔ ∃ block, blocks[position]? = some block ∧
      address ∈ block.workshareWitness.workshares.map Workshare.miner := by
  unfold shareBlocks
  rw [List.mem_filterMap]
  constructor
  · intro ⟨entry, member, kept⟩
    have stored := List.mem_zipIdx_iff_getElem?.mp member
    split at kept
    next mined =>
      cases kept
      obtain ⟨share, listed, same⟩ := List.any_eq_true.mp mined
      exact ⟨entry.1, stored, List.mem_map.mpr ⟨share, listed, of_decide_eq_true same⟩⟩
    next => cases kept
  · intro ⟨block, stored, mined⟩
    obtain ⟨share, listed, same⟩ := List.mem_map.mp mined
    refine ⟨(block, position), List.mem_zipIdx_iff_getElem?.mpr stored, if_pos ?_⟩
    exact List.any_eq_true.mpr ⟨share, listed, decide_eq_true same⟩

/-- The shortcut skips exactly the blocks whose window has no share of the address. -/
theorem shareEligible_window {blocks : List Block} {index : Nat} (inside : index ≤ blocks.length)
    (address : Address) : shareEligible index (shareBlocks blocks address) = true ↔
      address ∈ (windowShares (blocks.take index)).map Workshare.miner := by
  have length : (blocks.take index).length = index := by
    rw [List.length_take]
    omega
  rw [shareEligible_iff (shareBlocks_sorted blocks address)]
  constructor
  · intro ⟨position, member, low, high⟩
    obtain ⟨block, stored, mined⟩ := mem_shareBlocks.mp member
    obtain ⟨share, listed, same⟩ := List.mem_map.mp mined
    have window : block ∈ rewardWindow (blocks.take index) := by
      apply List.mem_of_getElem? (i := position - (index - REWARD_WINDOW))
      unfold rewardWindow
      rw [length, List.getElem?_drop, Nat.add_sub_cancel' low, List.getElem?_take_of_lt high]
      exact stored
    exact List.mem_map.mpr ⟨share, List.mem_flatMap.mpr ⟨block, window, listed⟩, same⟩
  · intro mined
    obtain ⟨share, listed, same⟩ := List.mem_map.mp mined
    obtain ⟨block, window, own⟩ := List.mem_flatMap.mp listed
    unfold rewardWindow at window
    obtain ⟨offset, stored⟩ := List.getElem?_of_mem window
    rw [length, List.getElem?_drop] at stored
    have short : index - REWARD_WINDOW + offset < index := by
      have bound := (List.getElem?_eq_some_iff.mp stored).1
      rwa [length] at bound
    rw [List.getElem?_take_of_lt short] at stored
    exact ⟨_, mem_shareBlocks.mpr ⟨block, stored, List.mem_map.mpr ⟨share, own, same⟩⟩,
      Nat.le_add_right _ _, short⟩

/-! The replayed share. -/

/-- The pool depends neither on the finder nor on the fees. -/
theorem rewardAllocation_pool {height : UInt64} {finder other : Address} {fees charged : UInt64}
    {history : List Block} {allocation replayed : RewardAllocation}
    (allocated : rewardAllocation height finder fees history = .ok allocation)
    (again : rewardAllocation height other charged history = .ok replayed) :
    replayed.workshareRewards = allocation.workshareRewards := by
  obtain ⟨weights, folded, outcome⟩ := rewardAllocation_cases allocated
  obtain ⟨weights', folded', outcome'⟩ := rewardAllocation_cases again
  rw [folded] at folded'
  cases folded'
  rcases outcome with ⟨nothing, unpaid⟩ | ⟨something, split, _⟩
  · rcases outcome' with ⟨_, unpaid'⟩ | ⟨something, _⟩
    · rw [unpaid, unpaid']
    · exact absurd nothing something
  · rcases outcome' with ⟨nothing, _⟩ | ⟨_, split', _⟩
    · exact absurd nothing something
    · rw [split] at split'
      exact (Except.ok.inj split').symm

theorem rewardAllocation_feeless {height : UInt64} {finder : Address} {fees : UInt64}
    {history : List Block} {allocation : RewardAllocation}
    (allocated : rewardAllocation height finder fees history = .ok allocation)
    (weighs : ∀ share ∈ windowShares history,
      ∃ weight, workshareWeight share.candidateHeader.bits = .ok weight)
    (few : (windowShares history).length ≤ 2 ^ 64) :
    ∃ replayed, rewardAllocation height finder 0 history = .ok replayed ∧
      replayed.workshareRewards = allocation.workshareRewards := by
  obtain ⟨replayed, again⟩ := rewardAllocation_succeeds height finder (show (0 : UInt64) ≤ MAX_MONEY by decide)
    weighs few
  exact ⟨replayed, again, rewardAllocation_pool allocated again⟩

theorem rewardAllocation_miners {height : UInt64} {finder : Address} {fees : UInt64}
    {history : List Block} {allocation : RewardAllocation}
    (allocated : rewardAllocation height finder fees history = .ok allocation)
    (weighs : ∀ share ∈ windowShares history,
      ∃ weight, workshareWeight share.candidateHeader.bits = .ok weight)
    (few : (windowShares history).length ≤ 2 ^ 64) :
    (allocation.workshareRewards.map Prod.fst).Nodup ∧
      ∀ address, address ∉ (windowShares history).map Workshare.miner →
        owedTo allocation.workshareRewards address = 0 := by
  by_cases none : windowShares history = []
  · rw [(rewardAllocation_unshared allocated none).1]
    exact ⟨List.nodup_nil, fun _ _ => rfl⟩
  · have fair := rewardAllocation_fairSplit allocated weighs few none
    have increasing : KeyOrder.Increasing Prod.fst allocation.workshareRewards := fair.increasing
    exact ⟨increasing.keys, fair.miners⟩

theorem find_owedTo {rewards : List (Address × UInt64)} (distinct : (rewards.map Prod.fst).Nodup)
    (address : Address) :
    (((rewards.find? fun entry => entry.1 = address).map Prod.snd).getD 0).toNat =
      owedTo rewards address := by
  cases found : rewards.find? (fun entry => entry.1 = address) with
  | none =>
    have absent : address ∉ rewards.map Prod.fst := by
      intro listed
      obtain ⟨entry, member, same⟩ := List.mem_map.mp listed
      exact List.find?_eq_none.mp found entry member (decide_eq_true same)
    rw [owedTo_of_not_mem absent]
    rfl
  | some entry =>
    have same : entry.1 = address := by
      simpa using List.find?_some found
    have member := List.mem_of_find?_eq_some found
    rw [← same]
    exact (owedTo_of_mem distinct member).symm

theorem rewardTo_lt {height : UInt64} {finder : Address} {fees : UInt64} {history : List Block}
    {allocation : RewardAllocation}
    (allocated : rewardAllocation height finder fees history = .ok allocation) (address : Address) :
    allocation.finderAmount.toNat + owedTo allocation.workshareRewards address < 2 ^ 64 := by
  have total := rewardAllocation_total allocated
  have bound := blockSubsidy_le height
  have one := owedTo_le_total allocation.workshareRewards address
  have money : fees.toNat ≤ MAX_MONEY.toNat := by
    unfold rewardAllocation at allocated
    simp only [guard_ok, not_or] at allocated
    exact UInt64.le_iff_toNat_le.mp (UInt64.not_lt.mp allocated.1.1)
  have range : MAX_MONEY.toNat = 2 ^ 62 - 1 := rfl
  omega

section Valid

variable [Crypto] {pow : PowVerifier} {history : List Block} {state : LedgerState}

/-- What a block of a valid history paid, and on which history. -/
structure PaidAt (pow : PowVerifier) (history : List Block) (index : Nat) (block : Block)
    (claim : RewardClaim) (fees : UInt64) (allocation : RewardAllocation) : Prop where
  claimed : block.rewardClaim = some claim
  allocated : rewardAllocation block.header.height claim.finder fees (history.take index) = .ok allocation
  amount : claim.amount = allocation.finderAmount
  reward : ∀ address, rewardAt history index address = rewardTo claim.finder allocation address
  height : block.header.height.toNat = index
  earlier : ∃ before, ValidHistory pow (history.take index) before

theorem ValidHistory.paidAt (valid : ValidHistory pow history state) {index : Nat} {block : Block}
    (stored : history[index]? = some block) (later : 1 ≤ index) :
    ∃ claim fees allocation, PaidAt pow history index block claim fees allocation := by
  induction valid with
  | genesis =>
    rw [List.getElem?_eq_none (by simpa using later)] at stored
    cases stored
  | @extend history state next last now earlier above accepted ih =>
    by_cases inside : index < history.length
    · rw [List.getElem?_append_left inside] at stored
      obtain ⟨claim, fees, allocation, paid⟩ := ih stored
      have same : (history ++ [last]).take index = history.take index :=
        List.take_append_of_le_length (by omega)
      refine ⟨claim, fees, allocation, paid.claimed, ?_, paid.amount, ?_, paid.height, ?_⟩
      · rw [same]
        exact paid.allocated
      · intro address
        rw [rewardAt_append inside]
        exact paid.reward address
      · rw [same]
        exact paid.earlier
    · have bound := (List.getElem?_eq_some_iff.mp stored).1
      rw [List.length_append, List.length_singleton] at bound
      obtain rfl : index = history.length := by omega
      rw [List.getElem?_concat_length] at stored
      obtain rfl := Option.some.inj stored
      have height := earlier.nextHeight above accepted
      obtain ⟨parent, seed, target, claim, transition, checks, rfl⟩ := accepted
      obtain ⟨_, _, _, _, steps⟩ := transitionForCandidate_ok_iff.mp checks.transitionOk
      have fees : templateFees last.transactions = .ok transition.fees := applyFrom_fees steps.appliedOk
      refine ⟨claim, transition.fees, transition.allocation, checks.claimPresent, ?_,
        steps.claimAmount, ?_, height, ?_⟩
      · rw [List.take_left]
        exact steps.allocationOk
      · intro address
        rw [rewardAt_length]
        unfold blockReward
        rw [checks.claimPresent, fees]
        dsimp only
        rw [steps.allocationOk]
      · rw [List.take_left]
        exact ⟨_, earlier⟩

theorem PaidAt.share {index : Nat} {block : Block} {claim : RewardClaim} {fees : UInt64}
    {allocation : RewardAllocation} (paid : PaidAt pow history index block claim fees allocation)
    (inside : index ≤ history.length) (address : Address) :
    ∃ amount, historicalShare history index block claim address (shareBlocks history address) =
        some amount ∧ amount.toNat = owedTo allocation.workshareRewards address := by
  obtain ⟨before, valid⟩ := paid.earlier
  obtain ⟨weighs, few⟩ := valid.window_weighs
  obtain ⟨distinct, elsewhere⟩ := rewardAllocation_miners paid.allocated weighs few
  have window := shareEligible_window inside address
  unfold historicalShare
  by_cases eligible : shareEligible index (shareBlocks history address) = true
  · obtain ⟨replayed, again, same⟩ := rewardAllocation_feeless paid.allocated weighs few
    rw [if_pos eligible, again]
    refine ⟨_, rfl, ?_⟩
    rw [same]
    exact find_owedTo distinct address
  · rw [if_neg eligible]
    refine ⟨0, rfl, ?_⟩
    rw [elsewhere address (fun mined => eligible (window.mpr mined))]
    rfl

theorem ValidHistory.historicalReward (valid : ValidHistory pow history state) {index : Nat}
    (later : 1 ≤ index) (inside : index < history.length) (address : Address) :
    let report := historicalReward history index address (shareBlocks history address)
    (report = none ↔ rewardAt history index address = 0) ∧
      ∀ entry, report = some entry → entry.amount.toNat = rewardAt history index address ∧
        (entry.matured = true ↔ index + 100 ≤ history.length - 1) := by
  intro report
  have stored := List.getElem?_eq_getElem inside
  obtain ⟨claim, fees, allocation, paid⟩ := valid.paidAt stored later
  obtain ⟨share, replayed, owed⟩ := paid.share (Nat.le_of_lt inside) address
  have long := valid.length_bound
  have fits := rewardTo_lt paid.allocated address
  have last := List.getLast?_eq_getLast_of_ne_nil valid.nonempty
  have tip := valid.tipHeight last
  have reward := paid.reward address
  unfold rewardTo at reward
  have amount : ((if claim.finder = address then claim.amount else 0) + share).toNat =
      rewardAt history index address := by
    rw [reward, ← owed, ← paid.amount]
    rw [← owed, ← paid.amount] at fits
    by_cases finder : claim.finder = address
    · rw [if_pos finder, if_pos finder]
      exact toNat_add fits
    · rw [if_neg finder, if_neg finder, Nat.zero_add]
      exact congrArg UInt64.toNat (UInt64.zero_add share)
  have unfolded : report = if (if claim.finder = address then claim.amount else 0) + share = 0 then
        none
      else some (rewardEntry (history.getLast valid.nonempty).header history[index] address
        (if claim.finder = address then claim.amount else 0) share) := by
    change ParitrNode.historicalReward _ _ _ _ = _
    unfold ParitrNode.historicalReward
    rw [stored, last]
    simp only [Option.bind_eq_bind, Option.bind_some, paid.claimed, replayed]
    rfl
  have zero : (if claim.finder = address then claim.amount else 0) + share = 0 ↔
      rewardAt history index address = 0 := by
    rw [← amount, ← UInt64.toNat_inj, UInt64.toNat_zero]
  rw [unfolded]
  by_cases nothing : (if claim.finder = address then claim.amount else 0) + share = 0
  · rw [if_pos nothing]
    exact ⟨⟨fun _ => zero.mp nothing, fun _ => rfl⟩, fun entry reported => nomatch reported⟩
  · rw [if_neg nothing]
    refine ⟨⟨fun reported => (nomatch reported), fun none => absurd (zero.mpr none) nothing⟩, ?_⟩
    intro entry reported
    rw [← Option.some.inj reported]
    refine ⟨amount, ?_⟩
    have lag : REWARD_MATURITY.toNat = 100 := rfl
    have due := saturatingAdd_of_lt (a := history[index].header.height) (b := REWARD_MATURITY)
      (by rw [paid.height]; omega)
    unfold rewardEntry
    rw [decide_eq_true_iff, ge_iff_le, UInt64.le_iff_toNat_le, due, paid.height]
    omega

end Valid

/-! The mined total. -/

theorem countFlows_foldl {address : Address} {transactions : List Transaction} {flows : Nat × Nat}
    (credited : flows.1 + sentBy transactions address < 2 ^ 128)
    (received : flows.2 + receivedBy transactions address < 2 ^ 128) :
    transactions.foldl (countFlows address) flows =
      (flows.1 + sentBy transactions address, flows.2 + receivedBy transactions address) := by
  induction transactions generalizing flows with
  | nil => rfl
  | cons transaction rest ih =>
    rw [sentBy_cons] at credited ⊢
    rw [receivedBy_cons] at received ⊢
    have step : countFlows address flows transaction =
        (flows.1 + (if transaction.sender = address then
            transaction.amount.toNat + transaction.fee.toNat else 0),
          flows.2 + (if transaction.recipient = address then transaction.amount.toNat else 0)) := by
      unfold countFlows addU128
      by_cases sender : transaction.sender = address
      · rw [if_pos sender] at credited ⊢
        by_cases recipient : transaction.recipient = address
        · rw [if_pos recipient] at received ⊢
          rw [if_pos sender, if_pos recipient, Nat.mod_eq_of_lt (by omega),
            Nat.mod_eq_of_lt (by omega)]
        · rw [if_pos sender, if_neg recipient, if_neg recipient, Nat.mod_eq_of_lt (by omega)]
          rfl
      · rw [if_neg sender, if_neg sender]
        by_cases recipient : transaction.recipient = address
        · rw [if_pos recipient] at received
          rw [if_pos recipient, if_pos recipient, Nat.mod_eq_of_lt (by omega)]
          rfl
        · rw [if_neg recipient, if_neg recipient]
          rfl
    rw [List.foldl_cons, step, ih (by dsimp only; omega) (by dsimp only; omega)]
    dsimp only
    rw [Nat.add_assoc, Nat.add_assoc]

theorem flows_le (transactions : List Transaction) (address : Address) :
    sentBy transactions address ≤ transactions.length * 2 ^ 65 ∧
      receivedBy transactions address ≤ transactions.length * 2 ^ 65 := by
  induction transactions with
  | nil => exact ⟨Nat.zero_le _, Nat.zero_le _⟩
  | cons transaction rest ih =>
    have amount := transaction.amount.toNat_lt
    have fee := transaction.fee.toNat_lt
    rw [sentBy_cons, receivedBy_cons, List.length_cons, Nat.add_mul, Nat.one_mul]
    constructor
    · split
      · omega
      · omega
    · split
      · omega
      · omega

theorem sum_transposed {ι α : Type} {indices : Finset ι} {items : List α} {weight : ι → α → Nat}
    {value : α → Nat} (once : ∀ item ∈ items, ∑ index ∈ indices, weight index item = value item) :
    ∑ index ∈ indices, (items.map (weight index)).sum = (items.map value).sum := by
  induction items with
  | nil => exact Finset.sum_const_zero
  | cons item rest ih =>
    simp only [List.map_cons, List.sum_cons]
    rw [Finset.sum_add_distrib, once item List.mem_cons_self,
      ih fun other member => once other (List.mem_cons_of_mem _ member)]

section Mined

variable [Crypto] {pow : PowVerifier} {history : List Block} {state : LedgerState}

theorem ValidHistory.pendingFor_eq (valid : ValidHistory pow history state)
    (fits : state.supply < 2 ^ 64) (address : Address) : (state.pendingFor address).toNat =
      ∑ index ∈ Finset.Ioc 0 (history.length - 1),
        state.pendingAt (UInt64.ofNat (index + 100)) address := by
  have closed := valid.closedForm
  have long := valid.length_bound
  let entries := state.pendingRewards.toList
  let owed : (UInt64 × Address) × UInt64 → Nat :=
    fun entry => if entry.1.2 = address then entry.2.toNat else 0
  have selected : (((entries.filter fun entry => entry.1.2 = address).map Prod.snd).map
      UInt64.toNat).sum = (entries.map owed).sum := by
    induction entries with
    | nil => rfl
    | cons entry rest ih =>
      rw [List.filter_cons, List.map_cons, List.sum_cons]
      by_cases own : entry.1.2 = address
      · rw [if_pos (decide_eq_true own), List.map_cons, List.map_cons, List.sum_cons, ih]
        simp only [owed, own, if_true]
      · rw [if_neg (by simpa using own), ih]
        simp only [owed, own, if_false, Nat.zero_add]
  have below : (entries.map owed).sum ≤ state.totalPending := by
    apply List.sum_le_sum
    intro entry _
    change (if entry.1.2 = address then entry.2.toNat else 0) ≤ entry.2.toNat
    split
    · exact Nat.le_refl _
    · exact Nat.zero_le _
  have counted : (state.pendingFor address).toNat = (entries.map owed).sum := by
    have zero : (0 : UInt64).toNat = 0 := rfl
    unfold LedgerState.supply at fits
    unfold LedgerState.pendingFor
    rw [foldl_saturatingAdd (by rw [selected, zero]; omega), selected, zero, Nat.zero_add]
  rw [counted]
  have each : ∀ index ∈ Finset.Ioc 0 (history.length - 1),
      state.pendingAt (UInt64.ofNat (index + 100)) address =
        (entries.map fun entry =>
          if entry.1 = (UInt64.ofNat (index + 100), address) then entry.2.toNat else 0).sum :=
    fun index _ => lookup_sum UInt64.toNat state.pendingRewards _
  rw [Finset.sum_congr rfl each]
  symm
  apply sum_transposed
  intro entry member
  change _ = if entry.1.2 = address then entry.2.toNat else 0
  by_cases own : entry.1.2 = address
  · rw [if_pos own]
    have stored : state.pendingRewards[(entry.1.1, address)]? = some entry.2 := by
      rw [← own]
      exact mem_toList.mp member
    obtain ⟨positive, amount⟩ := (LedgerState.pendingAt_eq_some closed.solid).mp stored
    rw [closed.pending] at amount
    -- the entry is the reward of one block
    by_cases inside : history.length - 1 < entry.1.1.toNat ∧
        entry.1.1.toNat ≤ history.length - 1 + 100
    · rw [if_pos inside] at amount
      have later : 100 < entry.1.1.toNat := by
        by_contra early
        rw [Nat.sub_eq_zero_of_le (by omega), valid.rewardAt_genesis] at amount
        omega
      have same : entry.1 = (UInt64.ofNat (entry.1.1.toNat - 100 + 100), address) := by
        rw [Nat.sub_add_cancel (by omega), UInt64.ofNat_toNat, ← own]
      rw [Finset.sum_eq_single (entry.1.1.toNat - 100)]
      · rw [if_pos same]
      · intro index listed different
        apply if_neg
        intro equal
        have position := congrArg (fun key => key.1.toNat) equal
        dsimp only at position
        have bound := (Finset.mem_Ioc.mp listed).2
        rw [ofNat_toNat (by omega)] at position
        omega
      · intro absent
        exact absurd (Finset.mem_Ioc.mpr ⟨by omega, by omega⟩) absent
    · rw [if_neg inside] at amount
      omega
  · rw [if_neg own]
    apply Finset.sum_eq_zero
    intro index _
    exact if_neg fun same => own (congrArg Prod.snd same)

theorem ValidHistory.transactions_few (valid : ValidHistory pow history state) :
    (history.flatMap Block.transactions).length ≤ history.length * 4096 := by
  induction valid with
  | genesis => exact Nat.zero_le _
  | @extend history state next last now earlier above accepted ih =>
    obtain ⟨_, _, _, _, _, checks, _⟩ := accepted
    have limit : last.transactions.length ≤ 4096 := checks.transactionCount
    rw [List.flatMap_append, List.length_append, List.length_append, List.flatMap_singleton,
      List.length_singleton]
    omega

theorem ValidHistory.length_of_supply (valid : ValidHistory pow history state)
    (fits : state.supply < 2 ^ 64) : history.length ≤ 2 ^ 40 := by
  have supply := valid.supply_eq
  have each : ∀ height ∈ Finset.Ioc 0 (history.length - 1),
      50000000 ≤ (blockSubsidy (UInt64.ofNat height)).toNat := by
    intro height member
    have inside := Finset.mem_Ioc.mp member
    have long := valid.length_bound
    rw [blockSubsidy_toNat, ofNat_toNat (by omega), if_neg (by omega)]
    exact Nat.le_max_right _ _
  have least := Finset.sum_le_sum each
  rw [Finset.sum_const, Nat.card_Ioc, smul_eq_mul] at least
  omega

/-- The flows of an address account for the rewards of all blocks. -/
theorem ValidHistory.mined_eq (valid : ValidHistory pow history state) (fits : state.supply < 2 ^ 64)
    (address : Address) :
    state.balanceOf address + (state.pendingFor address).toNat +
        sentBy (history.flatMap Block.transactions) address =
      ∑ index ∈ Finset.Ioc 0 (history.length - 1), rewardAt history index address +
        receivedBy (history.flatMap Block.transactions) address := by
  have closed := valid.closedForm
  have long := valid.length_bound
  have balance := closed.balance address
  have pending := valid.pendingFor_eq fits address
  have each : ∀ index ∈ Finset.Ioc 0 (history.length - 1),
      state.pendingAt (UInt64.ofNat (index + 100)) address =
        if history.length - 1 < index + 100 then rewardAt history index address else 0 := by
    intro index member
    have inside := Finset.mem_Ioc.mp member
    rw [closed.pending, ofNat_toNat (by omega), Nat.add_sub_cancel]
    by_cases recent : history.length - 1 < index + 100
    · rw [if_pos recent, if_pos ⟨recent, by omega⟩]
    · rw [if_neg recent, if_neg (fun both => recent both.1)]
  rw [Finset.sum_congr rfl each, ← Finset.sum_filter] at pending
  have split := Finset.sum_filter_add_sum_filter_not (Finset.Ioc 0 (history.length - 1))
    (fun index => history.length - 1 < index + 100) (fun index => rewardAt history index address)
  have matured : (Finset.Ioc 0 (history.length - 1)).filter
      (fun index => ¬history.length - 1 < index + 100) = Finset.Ioc 0 (history.length - 1 - 100) := by
    ext index
    rw [Finset.mem_filter, Finset.mem_Ioc, Finset.mem_Ioc]
    omega
  rw [matured] at split
  omega

theorem Chain.Reachable.take {chain : Chain} (reachable : chain.Reachable pow) {index : Nat}
    (inside : index < chain.blocks.length) :
    ∃ after : Chain, after.Reachable pow ∧ after.blocks = chain.blocks.take (index + 1) := by
  induction reachable with
  | genesis =>
    have first : index = 0 := Nat.lt_one_iff.mp inside
    exact ⟨Chain.genesis, .genesis, by rw [first]; rfl⟩
  | @append chain next block now event earlier appended ih =>
    rcases append_ok appended with ⟨_, same, _⟩ | ⟨_, _, _, blocks, _⟩
    · rw [same] at inside ⊢
      exact ih inside
    · by_cases before : index < chain.blocks.length
      · obtain ⟨after, reached, same⟩ := ih before
        refine ⟨after, reached, ?_⟩
        rw [same, blocks, List.take_append_of_le_length (by omega)]
      · refine ⟨next, earlier.append appended, ?_⟩
        rw [blocks, List.length_append, List.length_singleton] at inside
        rw [blocks, List.take_of_length_le]
        rw [List.length_append, List.length_singleton]
        omega

theorem Chain.Reachable.scheduled {chain : Chain} (reachable : chain.Reachable pow) {index : Nat}
    (inside : index < chain.blocks.length) (address : Address) :
    ∃ after : Chain, after.Reachable pow ∧ after.blocks = chain.blocks.take (index + 1) ∧
      after.state.pendingAt (UInt64.ofNat (index + 100)) address =
        rewardAt chain.blocks index address := by
  obtain ⟨after, reached, blocks⟩ := reachable.take inside
  refine ⟨after, reached, blocks, ?_⟩
  have closed := reached.valid.closedForm
  have long := reachable.valid.length_bound
  have length : after.blocks.length = index + 1 := by
    rw [blocks, List.length_take]
    omega
  rw [closed.pending, length, ofNat_toNat (by omega), Nat.add_sub_cancel, Nat.add_sub_cancel,
    if_pos ⟨by omega, Nat.le_refl _⟩]
  unfold rewardAt
  rw [blocks, List.getElem?_take_of_lt (Nat.lt_succ_self index), List.take_take,
    Nat.min_eq_left (Nat.le_succ index)]

/-- A report is the amount its block scheduled, matured once the ledger owes it no more; the
mined total is the sum of these amounts, or the last word when they exceed it. -/
theorem reward_reports_agree {node : Node} (reachable : node.chain.Reachable pow) (address : Address) :
    (∀ index ∈ Finset.Icc 1 node.chain.height.toNat,
      let amount := rewardAt node.chain.blocks index address
      let report := historicalReward node.chain.blocks index address
        (shareBlocks node.chain.blocks address)
      (∃ after : Chain, after.Reachable pow ∧ after.blocks = node.chain.blocks.take (index + 1) ∧
        after.state.pendingAt (UInt64.ofNat (index + 100)) address = amount) ∧
      (report = none ↔ amount = 0) ∧
      ∀ entry, report = some entry → entry.amount.toNat = amount ∧
        (entry.matured = true ↔
          node.chain.state.pendingRewards[(UInt64.ofNat (index + 100), address)]? = none)) ∧
      (node.chain.state.supply < 2 ^ 64 → (node.miningRewards address).1.toNat =
        min (∑ index ∈ Finset.Icc 1 node.chain.height.toNat, rewardAt node.chain.blocks index address)
          (2 ^ 64 - 1)) := by
  have valid := reachable.valid
  have closed := valid.closedForm
  have long := valid.length_bound
  have nonempty := List.length_pos_iff.mpr valid.nonempty
  constructor
  · intro index member amount report
    obtain ⟨first, last⟩ := Finset.mem_Icc.mp member
    rw [reachable.height_eq] at last
    have inside : index < node.chain.blocks.length := by omega
    obtain ⟨absent, present⟩ := valid.historicalReward first inside address
    refine ⟨reachable.scheduled inside address, absent, ?_⟩
    intro entry reported
    obtain ⟨value, mature⟩ := present entry reported
    have positive : rewardAt node.chain.blocks index address ≠ 0 := by
      intro zero
      cases reported.symm.trans (absent.mpr zero)
    refine ⟨value, mature.trans ?_⟩
    have owed := closed.pending (UInt64.ofNat (index + 100)) address
    rw [ofNat_toNat (by omega), Nat.add_sub_cancel] at owed
    unfold LedgerState.pendingAt at owed
    constructor
    · intro due
      rw [if_neg (by omega)] at owed
      cases entry : node.chain.state.pendingRewards[(UInt64.ofNat (index + 100), address)]? with
      | none => rfl
      | some value =>
        rw [entry, Option.map_some, Option.getD_some] at owed
        have zero : value = 0 := UInt64.toNat_inj.mp owed
        exact absurd (entry.trans (congrArg some zero)) (closed.solid _ _)
    · intro gone
      by_contra recent
      rw [gone, if_pos ⟨by omega, by omega⟩] at owed
      exact positive owed.symm
  · intro fits
    have total := valid.mined_eq fits address
    have few := valid.transactions_few
    have short := valid.length_of_supply fits
    obtain ⟨sent, received⟩ := flows_le (node.chain.blocks.flatMap Block.transactions) address
    have funds : (node.chain.state.account address).balance.toNat =
        node.chain.state.balanceOf address := rfl
    have balance := (node.chain.state.account address).balance.toNat_lt
    have pending := (node.chain.state.pendingFor address).toNat_lt
    have interval : Finset.Icc 1 node.chain.height.toNat =
        Finset.Ioc 0 (node.chain.blocks.length - 1) := by
      rw [reachable.height_eq]
      rfl
    unfold Node.miningRewards
    dsimp only
    rw [countFlows_foldl (by dsimp only; omega) (by dsimp only; omega), interval]
    dsimp only
    rw [Nat.zero_add, funds, total, Nat.add_sub_cancel]
    split
    next small => rw [ofNat_toNat small]; omega
    next large => rw [ofNat_toNat (by decide)]; omega

end Mined

/-- One empty block: its finder is reported the subsidy. -/
theorem reward_reports_one_block : ∃ (_ : Crypto) (node : Node), node.chain.blocks.length = 2 ∧
    (∃ entry, historicalReward node.chain.blocks 1 LedgerState.addressMin
        (shareBlocks node.chain.blocks LedgerState.addressMin) = some entry ∧
      entry.amount.toNat = 1000000000) ∧
    (node.miningRewards LedgerState.addressMin).1.toNat = 1000000000 := by
  let _ := labelled
  obtain ⟨chain, reachable, _, length, _, _, rewards⟩ :=
    reachable_chainWithBlocks acceptAll_lenient LedgerState.addressMin 0 (show 1 ≤ 2 ^ 32 by decide)
  let node := restingNode chain LedgerState.addressMin
  have own : node.chain.Reachable acceptAll := reachable
  have height : node.chain.height.toNat = 1 := by
    rw [own.height_eq]
    change chain.blocks.length - 1 = 1
    omega
  have reward : rewardAt node.chain.blocks 1 LedgerState.addressMin = 1000000000 :=
    rewards 1 (by decide) (by decide)
  have supply := own.valid.supply_bound
  have short : node.chain.blocks.length = 2 := length
  obtain ⟨each, total⟩ := reward_reports_agree own LedgerState.addressMin
  obtain ⟨_, absent, amounts⟩ := each 1 (Finset.mem_Icc.mpr ⟨by decide, by omega⟩)
  have mined := total (by omega)
  rw [height, Finset.Icc_self, Finset.sum_singleton, reward] at mined
  refine ⟨labelled, node, short, ?_, mined.trans (by decide)⟩
  cases report : historicalReward node.chain.blocks 1 LedgerState.addressMin
      (shareBlocks node.chain.blocks LedgerState.addressMin) with
  | none =>
    have nothing := absent.mp report
    rw [reward] at nothing
    cases nothing
  | some entry => exact ⟨entry, rfl, (amounts entry report).1.trans reward⟩

end ParitrNode
