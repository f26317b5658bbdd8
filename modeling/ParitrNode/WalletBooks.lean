import ParitrNode.AddressHistory
import ParitrNode.ShareHeaders
import ParitrNode.StaleEntries
import ParitrNode.TimedChain

/-!
The books of an address: its history accounts for its balance, for the rewards
it is still owed and for what the pool holds of it; and the next block owes it
what it was told.
-/

namespace ParitrNode
open ByteCodec OrderedMap Checked

/-! What an entry moves. -/

def HistoryEntry.spent (status : String) : HistoryEntry → Nat
  | .transfer entry =>
    if entry.status = status ∧ entry.direction = "out" then entry.amount.toNat + entry.fee.toNat else 0
  | .reward _ => 0

def HistoryEntry.received (status : String) : HistoryEntry → Nat
  | .transfer entry =>
    if entry.status = status ∧ entry.direction = "in" then entry.amount.toNat else 0
  | .reward _ => 0

def HistoryEntry.earned (matured : Bool) : HistoryEntry → Nat
  | .transfer _ => 0
  | .reward report => if report.matured = matured then report.amount.toNat else 0

def valueOf (measure : HistoryEntry → Nat) (entry : Option HistoryEntry) : Nat :=
  (entry.map measure).getD 0

def totalOf (measure : HistoryEntry → Nat) (entries : List HistoryEntry) : Nat :=
  (entries.map measure).sum

theorem totalOf_append (measure : HistoryEntry → Nat) (first second : List HistoryEntry) :
    totalOf measure (first ++ second) = totalOf measure first + totalOf measure second := by
  unfold totalOf
  rw [List.map_append, List.sum_append]

theorem totalOf_toList (measure : HistoryEntry → Nat) (entry : Option HistoryEntry) :
    totalOf measure entry.toList = valueOf measure entry := by
  cases entry with
  | none => rfl
  | some entry => exact Nat.add_zero _

theorem totalOf_filterMap {α : Type} (measure : HistoryEntry → Nat) (entry : α → Option HistoryEntry)
    (sources : List α) : totalOf measure (sources.filterMap entry) =
      (sources.map fun source => valueOf measure (entry source)).sum := by
  induction sources with
  | nil => rfl
  | cons source rest ih =>
    rw [List.map_cons, List.sum_cons, ← ih, List.filterMap_cons]
    cases entry source with
    | none => exact (Nat.zero_add _).symm
    | some entry => rfl

theorem totalOf_flatMap {α : Type} (measure : HistoryEntry → Nat) (entries : α → List HistoryEntry)
    (sources : List α) : totalOf measure (sources.flatMap entries) =
      (sources.map fun source => totalOf measure (entries source)).sum := by
  induction sources with
  | nil => rfl
  | cons source rest ih =>
    rw [List.flatMap_cons, totalOf_append, ih, List.map_cons, List.sum_cons]

section Transfers

variable [Crypto] {transaction : Transaction} {address : Address}

theorem transferEntry_spent (transaction : Transaction) (address : Address) (timestamp : UInt64)
    (height : Option UInt64) (confirmations : UInt64) (status asked : String) :
    valueOf (HistoryEntry.spent asked)
        (transferEntry transaction address timestamp height confirmations status) =
      if status = asked then
        if transaction.sender = address then transaction.amount.toNat + transaction.fee.toNat else 0
      else 0 := by
  unfold transferEntry transferSide
  by_cases sender : transaction.sender = address
  · rw [if_pos sender, if_pos sender]
    by_cases same : status = asked
    · rw [if_pos same]
      exact if_pos ⟨same, rfl⟩
    · rw [if_neg same]
      exact if_neg fun both => same both.1
  · rw [if_neg sender, if_neg sender, ite_self]
    by_cases recipient : transaction.recipient = address
    · rw [if_pos recipient]
      exact if_neg fun both => absurd both.2 (show "in" ≠ "out" by decide)
    · rw [if_neg recipient]
      rfl

theorem transferEntry_received (distinct : transaction.sender ≠ transaction.recipient)
    (address : Address) (timestamp : UInt64) (height : Option UInt64) (confirmations : UInt64)
    (status asked : String) :
    valueOf (HistoryEntry.received asked)
        (transferEntry transaction address timestamp height confirmations status) =
      if status = asked then
        if transaction.recipient = address then transaction.amount.toNat else 0
      else 0 := by
  unfold transferEntry transferSide
  by_cases sender : transaction.sender = address
  · have elsewhere : transaction.recipient ≠ address := fun same => distinct (sender.trans same.symm)
    rw [if_pos sender, if_neg elsewhere, ite_self]
    exact if_neg fun both => absurd both.2 (show "out" ≠ "in" by decide)
  · rw [if_neg sender]
    by_cases recipient : transaction.recipient = address
    · rw [if_pos recipient, if_pos recipient]
      by_cases same : status = asked
      · rw [if_pos same]
        exact if_pos ⟨same, rfl⟩
      · rw [if_neg same]
        exact if_neg fun both => same both.1
    · rw [if_neg recipient, if_neg recipient, ite_self]
      rfl

theorem transferEntry_earned (transaction : Transaction) (address : Address) (timestamp : UInt64)
    (height : Option UInt64) (confirmations : UInt64) (status : String) (matured : Bool) :
    valueOf (HistoryEntry.earned matured)
      (transferEntry transaction address timestamp height confirmations status) = 0 := by
  unfold transferEntry
  cases transferSide transaction address with
  | none => rfl
  | some side => rfl

end Transfers

section Sums

variable [Crypto] {measure : HistoryEntry → Nat} {address : Address} {value : Transaction → Nat}

theorem pendingEntries_totalOf {selected : List Transaction} (clock : Nat → UInt64)
    (each : ∀ transaction ∈ selected, ∀ timestamp, valueOf measure
      (transferEntry transaction address timestamp none 0 "pending") = value transaction) :
    totalOf measure (pendingEntries selected address clock) = (selected.map value).sum := by
  unfold pendingEntries
  rw [totalOf_filterMap]
  have same : selected.reverse.zipIdx.map (fun entry => valueOf measure
      (transferEntry entry.1 address (clock entry.2) none 0 "pending")) =
      (selected.map value).reverse := by
    rw [← List.map_reverse, ← List.zipIdx_map_fst 0 selected.reverse, List.map_map,
      List.zipIdx_map_fst]
    apply List.map_congr_left
    intro entry member
    exact each entry.1 (List.mem_reverse.mp (List.fst_mem_of_mem_zipIdx member)) _
  rw [same, List.sum_reverse]

theorem confirmedEntries_totalOf {block : Block} (height : UInt64)
    (each : ∀ transaction ∈ block.transactions, ∀ timestamp at' confirmations, valueOf measure
      (transferEntry transaction address timestamp at' confirmations "confirmed") = value transaction) :
    totalOf measure (confirmedEntries height block address) = (block.transactions.map value).sum := by
  unfold confirmedEntries
  rw [totalOf_filterMap, List.map_reverse, List.sum_reverse]
  apply congrArg
  apply List.map_congr_left
  intro transaction member
  exact each transaction member _ _ _

end Sums

section Books

variable [Crypto] {pow : PowVerifier} {node : Node} {address : Address} {measure : HistoryEntry → Nat}

def rewardIn (chain : Chain) (address : Address) (index : Nat) : Option HistoryEntry :=
  (historicalReward chain.blocks index address (shareBlocks chain.blocks address)).map HistoryEntry.reward

omit [Crypto] in
theorem sum_zipIdx_snd {α : Type} (sources : List α) (value : Nat → Nat) :
    (sources.zipIdx.map fun entry => value entry.2).sum =
      ∑ index ∈ Finset.range sources.length, value index := by
  have positions : sources.zipIdx.map (fun entry => value entry.2) =
      (List.range sources.length).map value := by
    change sources.zipIdx.map (value ∘ Prod.snd) = _
    rw [← List.map_map, List.zipIdx_map_snd, List.range_eq_range']
  rw [positions]
  rfl

theorem blockEntries_totalOf {chain : Chain} {value : Transaction → Nat}
    (each : ∀ transaction ∈ chain.blocks.flatMap Block.transactions,
      ∀ timestamp height confirmations, valueOf measure
        (transferEntry transaction address timestamp height confirmations "confirmed") =
          value transaction) :
    totalOf measure (chain.blocks.zipIdx.reverse.flatMap (blockEntries chain address)) =
      ((chain.blocks.flatMap Block.transactions).map value).sum +
        ∑ index ∈ Finset.range chain.blocks.length, valueOf measure (rewardIn chain address index) := by
  have one : ∀ entry ∈ chain.blocks.zipIdx, totalOf measure (blockEntries chain address entry) =
      (entry.1.transactions.map value).sum + valueOf measure (rewardIn chain address entry.2) := by
    intro entry member
    have listed := List.fst_mem_of_mem_zipIdx member
    unfold blockEntries
    rw [totalOf_append, totalOf_toList, Nat.add_comm, confirmedEntries_totalOf]
    · rfl
    · exact fun transaction inside => each transaction (List.mem_flatMap.mpr ⟨_, listed, inside⟩)
  have blocks : (chain.blocks.zipIdx.map fun entry => (entry.1.transactions.map value).sum).sum =
      ((chain.blocks.flatMap Block.transactions).map value).sum := by
    rw [List.map_flatMap, List.flatMap_def, List.sum_flatten, List.map_map,
      ← List.zipIdx_map_fst 0 chain.blocks, List.map_map, List.zipIdx_map_fst]
    rfl
  rw [totalOf_flatMap, List.map_reverse, List.sum_reverse, List.map_congr_left one, List.sum_map_add,
    blocks, sum_zipIdx_snd chain.blocks fun index => valueOf measure (rewardIn chain address index)]

/-! The rewards of an address, matured or not. -/

theorem rewardIn_earned (reached : node.chain.Reached pow) {index : Nat}
    (inside : index < node.chain.blocks.length) (matured : Bool) :
    valueOf (HistoryEntry.earned matured) (rewardIn node.chain address index) =
      if decide (index + 100 ≤ node.chain.blocks.length - 1) = matured then
        rewardAt node.chain.blocks index address
      else 0 := by
  have valid := reached.valid
  by_cases first : index = 0
  · have none : rewardIn node.chain address 0 = none := by
      have ground := valid.head
      rw [List.head?_eq_getElem?] at ground
      unfold rewardIn historicalReward
      rw [ground]
      rfl
    rw [first, none, valid.rewardAt_genesis, ite_self]
    rfl
  · obtain ⟨absent, present⟩ := valid.historicalReward (by omega) inside address
    unfold rewardIn
    cases report : historicalReward node.chain.blocks index address
        (shareBlocks node.chain.blocks address) with
    | none =>
      rw [absent.mp report, ite_self]
      rfl
    | some entry =>
      obtain ⟨amount, mature⟩ := present entry report
      have flag : entry.matured = decide (index + 100 ≤ node.chain.blocks.length - 1) := by
        cases matures : entry.matured with
        | true => exact (decide_eq_true (mature.mp matures)).symm
        | false =>
          have early : ¬index + 100 ≤ node.chain.blocks.length - 1 := by
            intro deep
            rw [mature.mpr deep] at matures
            cases matures
          exact (decide_eq_false early).symm
      rw [← flag, ← amount]
      rfl

def earnedIn (chain : Chain) (address : Address) (matured : Bool) : Nat :=
  ∑ index ∈ Finset.range chain.blocks.length,
    valueOf (HistoryEntry.earned matured) (rewardIn chain address index)

/-- The matured rewards are those of the blocks deep enough; the others are the rest. -/
theorem earnedIn_sums (reached : node.chain.Reached pow) (address : Address) :
    earnedIn node.chain address true = ∑ index ∈ Finset.Ioc 0 (node.chain.blocks.length - 1 - 100),
        rewardAt node.chain.blocks index address ∧
      earnedIn node.chain address true + earnedIn node.chain address false =
        ∑ index ∈ Finset.Ioc 0 (node.chain.blocks.length - 1),
          rewardAt node.chain.blocks index address := by
  let reward := fun index => rewardAt node.chain.blocks index address
  have valid := reached.valid
  have nonempty := List.length_pos_iff.mpr valid.nonempty
  have each : ∀ matured, earnedIn node.chain address matured = ∑ index ∈ Finset.range node.chain.blocks.length,
      if decide (index + 100 ≤ node.chain.blocks.length - 1) = matured then reward index else 0 :=
    fun matured => Finset.sum_congr rfl fun index member =>
      rewardIn_earned reached (Finset.mem_range.mp member) matured
  have zero : reward 0 = 0 := valid.rewardAt_genesis address
  rw [each true, each false]
  constructor
  · symm
    calc ∑ index ∈ Finset.Ioc 0 (node.chain.blocks.length - 1 - 100), reward index
        = ∑ index ∈ Finset.Ioc 0 (node.chain.blocks.length - 1 - 100),
            if decide (index + 100 ≤ node.chain.blocks.length - 1) = true then reward index else 0 := by
          apply Finset.sum_congr rfl
          intro index member
          have range := Finset.mem_Ioc.mp member
          rw [if_pos (decide_eq_true (by omega))]
      _ = _ := by
          apply Finset.sum_subset
          · intro index member
            have range := Finset.mem_Ioc.mp member
            exact Finset.mem_range.mpr (by omega)
          · intro index _ outside
            rw [Finset.mem_Ioc] at outside
            by_cases first : index = 0
            · rw [first, zero, ite_self]
            · rw [if_neg (by rw [decide_eq_true_iff]; omega)]
  · rw [← Finset.sum_add_distrib]
    symm
    calc ∑ index ∈ Finset.Ioc 0 (node.chain.blocks.length - 1), reward index
        = ∑ index ∈ Finset.range node.chain.blocks.length, reward index := by
          apply Finset.sum_subset
          · intro index member
            have range := Finset.mem_Ioc.mp member
            exact Finset.mem_range.mpr (by omega)
          · intro index member outside
            have range := Finset.mem_range.mp member
            rw [Finset.mem_Ioc] at outside
            obtain rfl : index = 0 := by omega
            exact zero
      _ = _ := by
          apply Finset.sum_congr rfl
          intro index _
          by_cases deep : index + 100 ≤ node.chain.blocks.length - 1
          · rw [decide_eq_true deep]
            simp
          · rw [decide_eq_false deep]
            simp

/-! The account view. -/

omit [Crypto] in
/-- One round leaves the account and what is owed alone, and adds the flows of the transaction. -/
theorem AccountView.count_flows (address : Address) (view : AccountView) (transaction : Transaction) :
    (view.count address transaction).account = view.account ∧
      (view.count address transaction).pendingRewards = view.pendingRewards ∧
      (view.count address transaction).pendingIn.toNat = min (view.pendingIn.toNat +
        if transaction.recipient = address then transaction.amount.toNat else 0) (2 ^ 64 - 1) ∧
      (view.count address transaction).pendingOut.toNat = min (view.pendingOut.toNat +
        if transaction.sender = address then transaction.amount.toNat + transaction.fee.toNat else 0)
          (2 ^ 64 - 1) := by
  have into := view.pendingIn.toNat_lt
  have out := view.pendingOut.toNat_lt
  have credit := saturatingAdd_toNat view.pendingIn transaction.amount
  have debit := saturatingAdd_toNat view.pendingOut transaction.amount
  have fee := saturatingAdd_toNat (saturatingAdd view.pendingOut transaction.amount) transaction.fee
  unfold AccountView.count
  by_cases recipient : transaction.recipient = address
  · by_cases sender : transaction.sender = address
    · simp only [if_pos recipient, if_pos sender, true_and]
      omega
    · simp only [if_pos recipient, if_neg sender, true_and]
      omega
  · by_cases sender : transaction.sender = address
    · simp only [if_neg recipient, if_pos sender, true_and]
      omega
    · simp only [if_neg recipient, if_neg sender, true_and]
      omega

omit [Crypto] in
theorem AccountView.counted_flows (address : Address) (transactions : List Transaction)
    (view : AccountView) : let after := transactions.foldl (AccountView.count address) view
    after.account = view.account ∧ after.pendingRewards = view.pendingRewards ∧
      after.pendingIn.toNat =
        min (view.pendingIn.toNat + receivedBy transactions address) (2 ^ 64 - 1) ∧
      after.pendingOut.toNat =
        min (view.pendingOut.toNat + sentBy transactions address) (2 ^ 64 - 1) := by
  induction transactions generalizing view with
  | nil =>
    have into := view.pendingIn.toNat_lt
    have out := view.pendingOut.toNat_lt
    refine ⟨rfl, rfl, ?_, ?_⟩
    · change view.pendingIn.toNat = min (view.pendingIn.toNat + 0) _
      omega
    · change view.pendingOut.toNat = min (view.pendingOut.toNat + 0) _
      omega
  | cons transaction rest ih =>
    have ⟨account, owed, into, out⟩ := ih (view.count address transaction)
    have ⟨sameAccount, sameOwed, intoStep, outStep⟩ := view.count_flows address transaction
    rw [List.foldl_cons, sentBy_cons, receivedBy_cons]
    refine ⟨account.trans sameAccount, owed.trans sameOwed, ?_, ?_⟩
    · rw [into, intoStep]
      omega
    · rw [out, outStep]
      omega

/-! The totals of the whole history. -/

theorem fullHistory_totalOf {chain : Chain} {selected : List Transaction} {clock : Nat → UInt64}
    {pending confirmed : Transaction → Nat}
    (waiting : ∀ transaction ∈ selected, ∀ timestamp, valueOf measure
      (transferEntry transaction address timestamp none 0 "pending") = pending transaction)
    (settled : ∀ transaction ∈ chain.blocks.flatMap Block.transactions,
      ∀ timestamp height confirmations, valueOf measure
        (transferEntry transaction address timestamp height confirmations "confirmed") =
          confirmed transaction) :
    totalOf measure (pendingEntries selected address clock ++
        chain.blocks.zipIdx.reverse.flatMap (blockEntries chain address)) =
      (selected.map pending).sum + (((chain.blocks.flatMap Block.transactions).map confirmed).sum +
        ∑ index ∈ Finset.range chain.blocks.length, valueOf measure (rewardIn chain address index)) := by
  rw [totalOf_append, pendingEntries_totalOf clock waiting, blockEntries_totalOf settled]

theorem rewardIn_valueOf (still : ∀ report, measure (.reward report) = 0) (chain : Chain)
    (address : Address) (index : Nat) : valueOf measure (rewardIn chain address index) = 0 := by
  unfold rewardIn
  cases historicalReward chain.blocks index address (shareBlocks chain.blocks address) with
  | none => rfl
  | some report => exact still report

omit [Crypto] in
theorem sum_if {α : Type} (condition : Prop) [Decidable condition] (value : α → Nat) (sources : List α) :
    (sources.map fun source => if condition then value source else 0).sum =
      if condition then (sources.map value).sum else 0 := by
  by_cases holds : condition
  · simp only [if_pos holds]
  · simp only [if_neg holds, List.map_const', List.sum_replicate, smul_eq_mul, Nat.mul_zero]

theorem fullHistory_spent (chain : Chain) (address : Address) (selected : List Transaction)
    (clock : Nat → UInt64) (asked : String) :
    totalOf (HistoryEntry.spent asked) (pendingEntries selected address clock ++
        chain.blocks.zipIdx.reverse.flatMap (blockEntries chain address)) =
      (if "pending" = asked then sentBy selected address else 0) +
        if "confirmed" = asked then sentBy (chain.blocks.flatMap Block.transactions) address else 0 := by
  rw [fullHistory_totalOf (fun _ _ _ => transferEntry_spent ..) fun _ _ _ _ _ => transferEntry_spent ..,
    sum_if, sum_if, Finset.sum_eq_zero]
  · rfl
  · exact fun index _ => rewardIn_valueOf (fun _ => rfl) chain address index

theorem fullHistory_received {chain : Chain} {selected : List Transaction} (address : Address)
    (clock : Nat → UInt64) (asked : String)
    (waiting : ∀ transaction ∈ selected, transaction.sender ≠ transaction.recipient)
    (settled : ∀ transaction ∈ chain.blocks.flatMap Block.transactions,
      transaction.sender ≠ transaction.recipient) :
    totalOf (HistoryEntry.received asked) (pendingEntries selected address clock ++
        chain.blocks.zipIdx.reverse.flatMap (blockEntries chain address)) =
      (if "pending" = asked then receivedBy selected address else 0) +
        if "confirmed" = asked then receivedBy (chain.blocks.flatMap Block.transactions) address
        else 0 := by
  rw [fullHistory_totalOf
      (fun _ member _ => transferEntry_received (waiting _ member) ..)
      fun _ member _ _ _ => transferEntry_received (settled _ member) ..,
    sum_if, sum_if, Finset.sum_eq_zero]
  · rfl
  · exact fun index _ => rewardIn_valueOf (fun _ => rfl) chain address index

theorem fullHistory_earned (chain : Chain) (address : Address) (selected : List Transaction)
    (clock : Nat → UInt64) (matured : Bool) :
    totalOf (HistoryEntry.earned matured) (pendingEntries selected address clock ++
        chain.blocks.zipIdx.reverse.flatMap (blockEntries chain address)) =
      earnedIn chain address matured := by
  rw [fullHistory_totalOf (fun _ _ _ => transferEntry_earned ..) fun _ _ _ _ _ => transferEntry_earned ..]
  simp only [List.map_const', List.sum_replicate, smul_eq_mul, Nat.mul_zero, Nat.zero_add]
  rfl

/-- The history accounts for the view: what was received and earned is what was spent and what is
left, the owed rewards are the unmatured ones, and the pending flows those of the pool. -/
theorem wallet_reconciles {policy : RelayPolicy} (reached : node.chain.Reached pow)
    (fits : node.chain.state.supply < 2 ^ 64) (pooled : Mempool.Reachable policy node.mempool)
    {view : AccountView} (viewed : node.accountView address = some view) (clock : Nat → UInt64) :
    ∃ full, node.fullHistory address clock = some full ∧
      view.account.balance.toNat + totalOf (HistoryEntry.spent "confirmed") full =
        totalOf (HistoryEntry.received "confirmed") full + totalOf (HistoryEntry.earned true) full ∧
      view.pendingRewards.toNat = totalOf (HistoryEntry.earned false) full ∧
      view.pendingIn.toNat = min (totalOf (HistoryEntry.received "pending") full) (2 ^ 64 - 1) ∧
      view.pendingOut.toNat = min (totalOf (HistoryEntry.spent "pending") full) (2 ^ 64 - 1) := by
  have valid := reached.valid
  obtain ⟨selected, chosen, shown⟩ := Option.bind_eq_some_iff.mp viewed
  cases shown
  obtain ⟨account, owed, into, out⟩ := AccountView.counted_flows address selected
    ⟨node.chain.state.account address, node.chain.state.pendingFor address, 0, 0,
      (node.chain.state.account address).nonce⟩
  obtain ⟨last, picks, _⟩ := pooled.select_picks (by decide) chosen
  have apart : ∀ transaction ∈ selected, transaction.sender ≠ transaction.recipient := by
    intro transaction member
    obtain ⟨id, entry, present, same⟩ := picks.mem transaction member
    exact same ▸ (pooled.sound id entry present).2.distinct
  have settled : ∀ transaction ∈ node.chain.blocks.flatMap Block.transactions,
      transaction.sender ≠ transaction.recipient :=
    fun transaction member => (valid.wellFormed transaction member).distinct
  obtain ⟨deep, all⟩ := earnedIn_sums reached address
  have balance := valid.closedForm.balance address
  have mined := valid.mined_eq fits address
  have funds : (node.chain.state.account address).balance.toNat = node.chain.state.balanceOf address := rfl
  have read : node.fullHistory address clock = some (pendingEntries selected address clock ++
      node.chain.blocks.zipIdx.reverse.flatMap (blockEntries node.chain address)) := by
    unfold Node.fullHistory
    rw [chosen]
    rfl
  have other : "pending" ≠ "confirmed" := by decide
  refine ⟨_, read, ?_, ?_, ?_, ?_⟩
  · rw [account, fullHistory_spent, fullHistory_received address clock "confirmed" apart settled,
      fullHistory_earned, if_neg other, if_pos rfl, if_neg other, if_pos rfl, deep]
    dsimp only
    omega
  · rw [owed, fullHistory_earned]
    dsimp only
    omega
  · rw [into, fullHistory_received address clock "pending" apart settled, if_pos rfl, if_neg other.symm,
      Nat.add_zero]
    exact congrArg (min · _) (Nat.zero_add _)
  · rw [out, fullHistory_spent, if_pos rfl, if_neg other.symm, Nat.add_zero]
    exact congrArg (min · _) (Nat.zero_add _)

end Books

/-- The first of these rewards has matured. -/
theorem quiet_wallet_reconciles : ∃ (_ : Crypto) (node : Node) (view : AccountView)
    (full : List HistoryEntry), node.accountView LedgerState.addressMin = some view ∧
    node.fullHistory LedgerState.addressMin (fun _ => 0) = some full ∧
    view.account.balance.toNat = 1000000000 ∧
    1000000000 + totalOf (HistoryEntry.spent "confirmed") full =
      totalOf (HistoryEntry.received "confirmed") full + totalOf (HistoryEntry.earned true) full := by
  let _ := labelled
  have ⟨node, reached, fits, pooled, chosen, _, _, held⟩ := quiet_wallet
  have viewed : node.accountView LedgerState.addressMin =
      some ⟨node.chain.state.account LedgerState.addressMin,
        node.chain.state.pendingFor LedgerState.addressMin, 0, 0,
        (node.chain.state.account LedgerState.addressMin).nonce⟩ := by
    unfold Node.accountView
    rw [chosen]
    rfl
  obtain ⟨full, read, money, _⟩ := wallet_reconciles reached fits pooled viewed fun _ => 0
  exact ⟨labelled, node, _, full, viewed, read, held, held ▸ money⟩

/-! What the next block will owe. -/

/-- The part of the next pool, whoever finds the block. -/
def Node.nextWorkshareEntitlement (node : Node) (address : Address) : UInt64 :=
  let allocated := rewardAllocation (saturatingAdd node.chain.height 1) address 0 node.chain.blocks
  (allocated.toOption.bind fun allocation =>
    (allocation.workshareRewards.find? fun entry => entry.1 = address).map Prod.snd).getD 0

section Entitlement

variable [Crypto] {pow : PowVerifier}

/-- A replay of the pool without fees finds what any allocation at that height gives. -/
theorem entitlement_eq {node : Node} {height : UInt64} {finder : Address} {fees : UInt64}
    {allocation : RewardAllocation} (reached : node.chain.Reached pow)
    (above : height.toNat = node.chain.blocks.length)
    (allocated : rewardAllocation height finder fees node.chain.blocks = .ok allocation)
    (address : Address) :
    (node.nextWorkshareEntitlement address).toNat = owedTo allocation.workshareRewards address := by
  have valid := reached.valid
  have long := valid.length_bound
  have nonempty := List.length_pos_iff.mpr valid.nonempty
  obtain ⟨weighs, few⟩ := valid.window_weighs
  have tip := valid.tipHeight (List.getLast?_eq_getLast_of_ne_nil node.chain.nonempty)
  have one : (1 : UInt64).toNat = 1 := rfl
  have same : saturatingAdd node.chain.height 1 = height := by
    apply UInt64.toNat_inj.mp
    change (saturatingAdd node.chain.tip.header.height 1).toNat = _
    rw [saturatingAdd_toNat, above]
    change min ((node.chain.blocks.getLast node.chain.nonempty).header.height.toNat + _) _ = _
    omega
  obtain ⟨replayed, again⟩ := rewardAllocation_succeeds height address
    (show (0 : UInt64) ≤ MAX_MONEY by decide) weighs few
  have distinct := (rewardAllocation_miners allocated weighs few).1
  unfold Node.nextWorkshareEntitlement
  rw [same, again]
  change (((replayed.workshareRewards.find? fun entry => entry.1 = address).map Prod.snd).getD 0).toNat = _
  rw [rewardAllocation_pool allocated again]
  exact find_owedTo distinct address

/-- A block that extends the chain owes each address what it was told, and its claim to its finder. -/
theorem entitlement_owed {node after : Node} {env : NodeEnv} {block : Block} {id : Hash32}
    {height : UInt64} (reached : node.chain.Reached env.pow)
    (submitted : node.submitBlock env block = (.ok (.extended id height), after)) :
    ∃ claim, block.rewardClaim = some claim ∧ ∀ address,
      after.chain.state.pendingAt (UInt64.ofNat (node.chain.blocks.length + 100)) address =
        (node.nextWorkshareEntitlement address).toNat +
          if claim.finder = address then claim.amount.toNat else 0 := by
  obtain ⟨storage, candidate, saved, recorded, _, rfl⟩ := submitBlock_active submitted trivial
  have placed := recorded.placed
  unfold Node.placeBlock at placed
  split at placed
  next own =>
    have grown : candidate.Reached env.pow := reached.append placed
    rcases append_ok placed with ⟨known, _⟩ | ⟨_, _, _, blocks, _⟩
    · cases known
    have valid := grown.valid
    have long := valid.length_bound
    have length : candidate.blocks.length = node.chain.blocks.length + 1 := by
      rw [blocks, List.length_append, List.length_singleton]
    have stored : candidate.blocks[node.chain.blocks.length]? = some block := by
      rw [blocks, List.getElem?_concat_length]
    obtain ⟨claim, fees, allocation, paid⟩ :=
      valid.paidAt stored (List.length_pos_iff.mpr node.chain.nonempty)
    have allocated := paid.allocated
    rw [blocks, List.take_left] at allocated
    refine ⟨claim, paid.claimed, ?_⟩
    intro address
    change candidate.state.pendingAt _ _ = _
    rw [valid.closedForm.pending, ofNat_toNat (by omega), Nat.add_sub_cancel, if_pos (by omega),
      paid.reward, entitlement_eq reached paid.height allocated, paid.amount]
    exact Nat.add_comm _ _
  next elsewhere =>
    -- a reorganization does not extend
    simp only [bind_ok] at placed
    obtain ⟨branch, _, considered⟩ := placed
    unfold Chain.considerChain at considered
    simp only [guard_ok, bind_ok] at considered
    obtain ⟨_, validated, _, choice⟩ := considered
    split at choice
    · cases choice
    · cases choice

end Entitlement

theorem FairSplit.sole {subsidy fees : Nat} {shares : List Workshare} {allocation : RewardAllocation}
    (fair : FairSplit subsidy fees shares allocation) (positive : 0 < sharesWeight shares)
    {miner : Address} (own : ∀ share ∈ shares, share.miner = miner) :
    owedTo allocation.workshareRewards miner = subsidy - subsidy * 5 / 100 := by
  have weight : minerWeight shares miner = sharesWeight shares := by
    unfold minerWeight sharesWeight
    congr 1
    apply List.map_congr_left
    intro share member
    exact if_pos (own share member)
  have most : owedTo allocation.workshareRewards miner ≤ subsidy - subsidy * 5 / 100 :=
    fair.whole ▸ owedTo_le_total _ miner
  have floors := fair.floors miner
  dsimp only at floors
  rw [weight, Nat.mul_div_cancel _ positive] at floors
  rcases floors with whole | above
  · exact whole
  · omega

/-- A chain that settled shares of one miner alone, and a block of another finder on it. -/
theorem settled_extends :
    letI := labelled
    ∃ (chain grown : Chain) (block : Block) (claim : RewardClaim), chain.Reachable byNonce ∧
      chain.blocks.length = 2 ∧ (windowShares chain.blocks).length = 3 ∧
      (∀ share ∈ windowShares chain.blocks, share.miner = LedgerState.addressMin) ∧
      chain.append block byNonce 1788984128 = .ok (.extended block.id block.header.height, grown) ∧
      grown.blocks.length = 3 ∧ block.rewardClaim = some claim ∧ claim.finder = LedgerState.addressMax := by
  let _ := labelled
  obtain ⟨chain, stateRoot, reachable, blocks, work⟩ :=
    reachable_settling (show 1788984000 < (1788984064 : UInt64).toNat by decide) (show 0 < 3 by decide)
      (by decide)
  generalize settled : settlingBlock Block.genesis LedgerState.addressMin stateRoot 1788984064
    (settlingWitness Block.genesis LedgerState.addressMin stateRoot 1788984064 3) = tip at blocks
  have valid := reachable.valid
  have length : chain.blocks.length = 2 := by
    rw [blocks]
    rfl
  have shares : windowShares chain.blocks = tip.workshareWitness.workshares := by
    have all : [Block.genesis, tip].length - REWARD_WINDOW = 0 :=
      Nat.sub_eq_zero_of_le (show 2 ≤ REWARD_WINDOW by decide)
    unfold windowShares rewardWindow
    rw [blocks, all, List.drop_zero, List.flatMap_cons, List.flatMap_singleton]
    exact List.nil_append _
  have three : tip.workshareWitness.workshares.length = 3 := by
    rw [← settled]
    exact emptyShares_length _ _ _ _ 3 _ _
  have own : ∀ share ∈ windowShares chain.blocks, share.miner = LedgerState.addressMin := by
    rw [shares, ← settled]
    exact emptyShares_miner _ _ _ _ 3 _ _
  have last : chain.blocks.getLast? = some tip := by
    rw [blocks]
    rfl
  have before : ∀ block ∈ chain.blocks, block.header.timestamp.toNat ≤ 1788984064 := by
    intro block member
    rw [blocks, List.mem_cons, List.mem_singleton] at member
    rcases member with rfl | rfl
    · decide
    · rw [← settled]
      exact Nat.le_refl _
  have later : 1788984064 < (1788984128 : UInt64).toNat := by decide
  have answers : ∀ seed (header : BlockHeader), header.nonce = 1 →
      byNonce.hash seed header.consensusEncode = .ok Hash32.ZERO := by
    intro seed header nonce
    apply byNonce_block
    rw [nonce]
    decide
  obtain ⟨claim, next, finder, accepted⟩ :=
    blockAt_accepted valid before (by omega) last later LedgerState.addressMax answers
  have demanded : nextBits chain.blocks = targetToBits (requiredTarget 1 1788984064 1788984064) := by
    rw [blocks, ← settled]
    rfl
  generalize built : blockAt 1788984128 tip claim next (nextBits chain.blocks) 1 = block at accepted
  have height : block.header.height = 2 := by
    rw [← built, ← settled]
    rfl
  have above : block.header.height ≠ 0 := by
    rw [height]
    decide
  have bits : bitsToTarget block.header.bits = some launchTarget := by
    rw [← built]
    change bitsToTarget (nextBits chain.blocks) = _
    rw [demanded]
    decide +kernel
  have added : addWork chain.cumulativeWork block = .ok (32768 + targetWork launchTarget) := by
    rw [work]
    apply addWork_ok_iff.mpr ⟨launchTarget, bits, ?_, rfl⟩
    decide +kernel
  have unknown : chain.blockByHash block.id = none := by
    apply valid.unknown fun _ _ same => (labelled_id_injective same).1
    rw [height, length]
    rfl
  have parent : block.header.previousBlock = chain.tip.id := by
    have ends : chain.tip = tip :=
      Option.some.inj ((List.getLast?_eq_some_getLast chain.nonempty).symm.trans last)
    rw [ends, ← built]
    rfl
  have present : block.header.timestamp ≤ saturatingAdd 1788984128 MAX_FUTURE_BLOCK_TIME := by
    rw [← built]
    exact show (1788984128 : UInt64) ≤ saturatingAdd 1788984128 MAX_FUTURE_BLOCK_TIME by decide
  have appended := append_extends unknown parent
    ((validateBlock_ok_iff above).mpr (accepted.at_clock present)) added
  have grown : (chain.blocks ++ [block]).length = 3 := by rw [List.length_append, length, List.length_singleton]
  exact ⟨chain, _, block, claim, reachable, length, by rw [shares, three], own, appended, grown,
    by rw [← built]; rfl, finder⟩

theorem sole_miner_entitled [Crypto] {pow : PowVerifier} {node : Node} (reached : node.chain.Reached pow)
    (length : node.chain.blocks.length = 2) (mined : windowShares node.chain.blocks ≠ [])
    {miner : Address} (own : ∀ share ∈ windowShares node.chain.blocks, share.miner = miner) :
    (node.nextWorkshareEntitlement miner).toNat = 950000000 := by
  obtain ⟨weighs, few⟩ := reached.valid.window_weighs
  obtain ⟨allocation, allocated⟩ := rewardAllocation_succeeds 2 miner
    (show (0 : UInt64) ≤ MAX_MONEY by decide) weighs few
  have positive : 0 < sharesWeight (windowShares node.chain.blocks) := by
    apply sharesWeight_pos mined
    intro share member
    obtain ⟨weight, weighed⟩ := weighs share member
    rw [shareWeight_eq weighed]
    exact workshareWeight_pos weighed
  have pool := (rewardAllocation_fairSplit allocated weighs few mined).sole positive own
  have above : (2 : UInt64).toNat = node.chain.blocks.length := length.symm
  rw [entitlement_eq reached above allocated, pool]
  decide

/-- The next block after one that settled three shares, by another finder. -/
theorem sole_miner_owed : ∃ (_ : Crypto) (node after : Node) (env : NodeEnv) (block : Block)
    (claim : RewardClaim), (windowShares node.chain.blocks).length = 3 ∧
    node.submitBlock env block = (.ok (.extended block.id block.header.height), after) ∧
    block.rewardClaim = some claim ∧ claim.finder = LedgerState.addressMax ∧
    (node.nextWorkshareEntitlement LedgerState.addressMin).toNat = 950000000 ∧
    ∀ address, after.chain.state.pendingAt 102 address =
      (node.nextWorkshareEntitlement address).toNat +
        if claim.finder = address then claim.amount.toNat else 0 := by
  let _ := labelled
  obtain ⟨chain, grown, block, claim, reachable, length, shares, own, appended, longer, claimed, finder⟩ :=
    settled_extends
  have ⟨node, fresh⟩ : ∃ node : Node, node.chain = chain :=
    ⟨restingNode chain LedgerState.addressMin, rfl⟩
  subst fresh
  have mined : windowShares node.chain.blocks ≠ [] := by
    apply List.ne_nil_of_length_pos
    rw [shares]
    decide
  let env : NodeEnv := ⟨byNonce, 1788984128, Disk.reliable, default⟩
  have clock : fitsI64 env.now := of_decide_eq_true rfl
  have kept : node.chain.Reachable env.pow := reachable
  have placed : node.chain.append block env.pow env.now =
      .ok (.extended block.id block.header.height, grown) := appended
  have ⟨_, submitted⟩ : ∃ storage, node.submitBlock env block = (.ok (.extended block.id
      block.header.height), { node with storage }.activate env block
        (.extended block.id block.header.height) grown) :=
    submitBlock_extends kept placed (by omega) clock rfl
  obtain ⟨paid, same, owed⟩ := entitlement_owed reachable.reached submitted
  rw [claimed] at same
  cases same
  rw [length] at owed
  exact ⟨labelled, node, _, env, block, claim, shares, submitted, claimed, finder,
    sole_miner_entitled reachable.reached length mined own, owed⟩

end ParitrNode
