import ParitrNode.Library.AscendingReads
import ParitrNode.StateCommitment
import ParitrNode.WireFormat

/-!
The snapshot of the ledger state. The decoder rebuilds both maps and the tree
entry by entry, in key order, and compares the root it gets with the one at the
end of the bytes. What it accepts is what the encoder writes, up to the size
every decoder stops at.
-/

namespace ParitrNode
open ByteCodec OrderedMap KeyOrder Checked AscendingReads

def Account.decodeFrom : Reader Account := do
  let balance ← Reader.u64
  let nonce ← Reader.u64
  return ⟨balance, nonce⟩

section Codec

variable [Crypto]

def PendingReward.decodeFrom : Reader PendingReward := do
  let maturityHeight ← Reader.u64
  let recipient ← Address.decodeFrom
  let amount ← Reader.u64
  return ⟨maturityHeight, recipient, amount⟩

namespace LedgerState

/-- One turn of the accounts loop: the order is checked before the account is
read. -/
def decodeAccount (state : LedgerState) (previousAddress : Option Address) :
    Reader (LedgerState × Address) := do
  let address ← Address.decodeFrom
  if previousAddress.any (fun previous => (compare previous address).isGE) then
    throw (.nonCanonical "accounts not strictly sorted")
  else
    let account ← Account.decodeFrom
    if account = default ∨ account.balance > MAX_MONEY then
      throw (.nonCanonical "invalid empty/out-of-range account")
    else return (state.setAccount address account, address)

def decodeReward (state : LedgerState) (previousReward : Option (UInt64 × Address)) :
    Reader (LedgerState × (UInt64 × Address)) := do
  let reward ← PendingReward.decodeFrom
  let rewardKey := (reward.maturityHeight, reward.recipient)
  if previousReward.any (fun previous => (compare previous rewardKey).isGE) ∨ reward.amount = 0 ∨
      reward.amount > MAX_MONEY then
    throw (.nonCanonical "invalid or unsorted pending reward")
  else match state.scheduleReward reward.maturityHeight reward.recipient reward.amount with
    | .error _ => throw (.nonCanonical "pending reward overflow")
    | .ok next => return (next, rewardKey)

def decodeFrom : Reader LedgerState := do
  let version ← Reader.u16
  if version ≠ SNAPSHOT_VERSION then throw (.nonCanonical "unsupported state snapshot version")
  else
    let accountCount ← Reader.vectorLen 2000000
    let state ← turns decodeAccount accountCount default none
    let rewardCount ← Reader.vectorLen 4000000
    let state ← turns decodeReward rewardCount state none
    let committedRoot ← Reader.fixed 32
    if committedRoot ≠ state.root then throw (.nonCanonical "state snapshot root mismatch")
    else return state

end LedgerState

omit [Crypto] in
theorem recodes_account :
    Recodes Account.decodeFrom (fun _ => True) Account.consensusEncode := by
  refine Recodes.bind Account.balance recodes_u64 (fun _ _ => trivial) fun balance _ => ?_
  refine Recodes.last Account.nonce (fun nonce => ⟨balance, nonce⟩) recodes_u64 (fun _ _ => rfl)
    ?_ ?_
  · intro nonce _
    exact ⟨⟨trivial, rfl⟩, rfl⟩
  · intro account inside
    obtain ⟨-, rfl⟩ := inside
    exact ⟨trivial, rfl⟩

theorem recodes_pendingReward :
    Recodes PendingReward.decodeFrom (fun _ => True) PendingReward.consensusEncode := by
  refine Recodes.bind PendingReward.maturityHeight recodes_u64 (fun _ _ => trivial)
    fun maturityHeight _ => ?_
  refine Recodes.bind PendingReward.recipient recodes_address (fun _ _ => trivial)
    fun recipient _ => ?_
  refine Recodes.last PendingReward.amount (fun amount => ⟨maturityHeight, recipient, amount⟩)
    recodes_u64 (fun _ _ => rfl) ?_ ?_
  · intro amount _
    exact ⟨⟨⟨trivial, rfl⟩, rfl⟩, rfl⟩
  · intro reward inside
    obtain ⟨⟨-, rfl⟩, rfl⟩ := inside
    exact ⟨trivial, rfl⟩

end Codec

/-! What the decoder asks of every entry holds of every state the calls build. -/

def Account.Stored (account : Account) : Prop := account ≠ default ∧ account.balance ≤ MAX_MONEY

def Owed (amount : UInt64) : Prop := amount ≠ 0 ∧ amount ≤ MAX_MONEY

namespace LedgerState

/-- Every entry of the two maps passes the checks of the decoder. -/
structure InRange (state : LedgerState) : Prop where
  account : ∀ (address : Address) (account : Account),
    state.accounts[address]? = some account → account.Stored
  reward : ∀ (key : UInt64 × Address) (amount : UInt64),
    state.pendingRewards[key]? = some amount → Owed amount

theorem inRange_default : (default : LedgerState).InRange where
  account address account found := by
    have absent : (default : LedgerState).accounts[address]? = none := get_empty address
    rw [absent] at found
    cases found
  reward key amount found := by
    have absent : (default : LedgerState).pendingRewards[key]? = none := get_empty key
    rw [absent] at found
    cases found

theorem InRange.balance_le {state : LedgerState} (range : state.InRange) (address : Address) :
    (state.account address).balance ≤ MAX_MONEY := by
  unfold LedgerState.account
  cases found : state.accounts[address]? with
  | none => decide
  | some account => exact (range.account address account found).2

variable [Crypto]

theorem InRange.setAccount {state : LedgerState} (range : state.InRange) (address : Address)
    {account : Account} (bound : account.balance ≤ MAX_MONEY) :
    (state.setAccount address account).InRange where
  account other stored found := by
    rw [setAccount_accounts] at found
    by_cases absent : account = default
    · rw [if_pos absent, get_erase] at found
      split at found
      · cases found
      · exact range.account other stored found
    · rw [if_neg absent, get_insert] at found
      split at found
      · cases found
        exact ⟨absent, bound⟩
      · exact range.account other stored found
  reward key amount found := by
    rw [setAccount_pendingRewards] at found
    exact range.reward key amount found

theorem InRange.credit {state next : LedgerState} (range : state.InRange) {address : Address}
    {amount : UInt64} (credited : state.credit address amount = .ok next) : next.InRange := by
  unfold LedgerState.credit at credited
  simp only [bind_ok, okOr_ok, Option.filter_eq_some_iff, decide_eq_true_eq] at credited
  obtain ⟨balance, ⟨_, bound⟩, result⟩ := credited
  rw [← Except.ok.inj result]
  exact range.setAccount address bound

theorem InRange.debit {state next : LedgerState} (range : state.InRange) {address : Address}
    {amount : UInt64} (debited : state.debit address amount = .ok next) : next.InRange := by
  unfold LedgerState.debit at debited
  simp only [bind_ok, okOr_ok] at debited
  obtain ⟨balance, subtracted, result⟩ := debited
  have difference := checkedSub_some subtracted
  have before := UInt64.le_iff_toNat_le.mp (range.balance_le address)
  rw [← Except.ok.inj result]
  apply range.setAccount address
  change balance ≤ MAX_MONEY
  rw [UInt64.le_iff_toNat_le]
  omega

theorem InRange.withReward {state : LedgerState} (range : state.InRange) (key : UInt64 × Address)
    {amount : UInt64} (owed : Owed amount) : (state.withReward key amount).InRange where
  account := range.account
  reward other stored found := by
    change (state.pendingRewards.insert key amount)[other]? = some stored at found
    rw [get_insert] at found
    split at found
    · cases found
      exact owed
    · exact range.reward other stored found

theorem InRange.scheduleReward {state next : LedgerState} (range : state.InRange)
    {maturity : UInt64} {recipient : Address} {amount : UInt64}
    (scheduled : state.scheduleReward maturity recipient amount = .ok next) : next.InRange := by
  unfold LedgerState.scheduleReward at scheduled
  by_cases zero : amount = 0
  · rw [if_pos zero] at scheduled
    cases scheduled
    exact range
  · rw [if_neg zero] at scheduled
    simp only [bind_ok, okOr_ok, Option.filter_eq_some_iff, decide_eq_true_eq] at scheduled
    obtain ⟨merged, ⟨added, bound⟩, result⟩ := scheduled
    have sum := checkedAdd_some added
    have positive : merged ≠ 0 := by
      intro nothing
      apply zero
      apply UInt64.toNat_inj.mp
      rw [nothing] at sum
      have none : (0 : UInt64).toNat = 0 := rfl
      omega
    rw [← Except.ok.inj result]
    exact range.withReward (maturity, recipient) ⟨positive, bound⟩

theorem InRange.removePending {state : LedgerState} (range : state.InRange) (height : UInt64)
    (address : Address) : (state.removePending height address).InRange where
  account := range.account
  reward other stored found := by
    change (state.pendingRewards.erase (height, address))[other]? = some stored at found
    rw [get_erase] at found
    split at found
    · cases found
    · exact range.reward other stored found

theorem InRange.leaves {state : LedgerState} (range : state.InRange) (call : StateCall) :
    (call.leaves state).InRange := by
  cases call with
  | credit address amount =>
    simp only [StateCall.leaves]
    cases result : state.credit address amount with
    | error error => exact range
    | ok next => exact range.credit result
  | debit address amount =>
    simp only [StateCall.leaves]
    cases result : state.debit address amount with
    | error error => exact range
    | ok next => exact range.debit result
  | setNonce address nonce => exact range.setAccount address (range.balance_le address)
  | scheduleReward maturity recipient amount =>
    simp only [StateCall.leaves]
    cases result : state.scheduleReward maturity recipient amount with
    | error error => exact range
    | ok next => exact range.scheduleReward result
  | mature height =>
    apply mature_keeps
    apply matureAll_keeps _ range
    · exact fun entry _ _ before => before.removePending height entry.1
    · exact fun entry _ _ _ before credited => before.credit credited

end LedgerState

theorem afterCalls_inRange [Crypto] (calls : List StateCall) : (afterCalls calls).InRange :=
  List.foldlRecOn calls StateCall.leaves LedgerState.inRange_default
    fun _ range call _ => range.leaves call

/-! The two loops read increasing lists of entries in range. -/

namespace LedgerState

variable [Crypto]

def addAccount (state : LedgerState) (entry : Address × Account) : LedgerState :=
  state.setAccount entry.1 entry.2

def addReward (state : LedgerState) (entry : (UInt64 × Address) × UInt64) : LedgerState :=
  state.withReward entry.1 entry.2

def accountBytes (entry : Address × Account) : Bytes := entry.1.asBytes ++ entry.2.consensusEncode

def rewardBytes (entry : (UInt64 × Address) × UInt64) : Bytes :=
  PendingReward.consensusEncode ⟨entry.1.1, entry.1.2, entry.2⟩

/-- No reward is pending beyond the key read last. -/
def NoneAfter (state : LedgerState) (last : Option (UInt64 × Address)) : Prop :=
  ∀ key, After last key → state.pendingRewards[key]? = none

omit [Crypto] in
theorem stored_iff {account : Account} :
    account.Stored ↔ ¬(account = default ∨ account.balance > MAX_MONEY) := by
  rw [not_or, UInt64.not_lt, Account.Stored]

theorem scans_accounts : Scans decodeAccount (fun _ _ => True) Prod.fst
    (fun entry => entry.2.Stored) addAccount accountBytes where
  keeps _ _ _ := trivial
  reads {state last entry} _ after stored := by
    have order := any_isGE_iff.mpr after
    have body : Reads (do
        let account ← Account.decodeFrom
        if account = default ∨ account.balance > MAX_MONEY then
          throw (.nonCanonical "invalid empty/out-of-range account")
        else return (state.setAccount entry.1 account, entry.1) : Reader (LedgerState × Address))
        entry.2.consensusEncode (addAccount state entry, entry.1) := by
      rw [← List.append_nil entry.2.consensusEncode]
      refine (recodes_account.reads entry.2 trivial).bind ?_
      rw [if_neg (stored_iff.mp stored)]
      exact Reads.pure _
    refine (recodes_address.reads entry.1 trivial).bind ?_
    rw [order]
    exact body
  exact {state last input next rest} _ ran := by
    obtain ⟨address, middle, began, later⟩ := run_bind_ok.mp ran
    obtain ⟨-, start⟩ := recodes_address.exact input address middle began
    split at later
    · cases later
    · next order =>
      obtain ⟨account, after, read, wrapped⟩ := run_bind_ok.mp later
      obtain ⟨-, remaining⟩ := recodes_account.exact middle account after read
      split at wrapped
      · cases wrapped
      · next solid =>
        cases wrapped
        refine ⟨(address, account), any_isGE_iff.mp (Bool.eq_false_iff.mpr order),
          stored_iff.mpr solid, rfl, ?_⟩
        rw [accountBytes, List.append_assoc, ← remaining]
        exact start

theorem scheduleReward_fresh {state : LedgerState} {maturity : UInt64} {recipient : Address}
    {amount : UInt64} (fresh : state.pendingRewards[(maturity, recipient)]? = none)
    (owed : Owed amount) :
    state.scheduleReward maturity recipient amount =
      .ok (state.withReward (maturity, recipient) amount) := by
  have sum : checkedAdd 0 amount = some amount := by
    have small := amount.toNat_lt
    have zero : (0 : UInt64).toNat = 0 := rfl
    have added := checkedAdd_of_lt (a := 0) (b := amount) (by omega)
    rwa [UInt64.zero_add] at added
  unfold scheduleReward
  rw [if_neg owed.1]
  apply bind_ok.mpr
  refine ⟨amount, okOr_ok.mpr (Option.filter_eq_some_iff.mpr ⟨?_, decide_eq_true owed.2⟩), rfl⟩
  rw [fresh]
  exact sum

theorem scans_rewards : Scans decodeReward NoneAfter Prod.fst (fun entry => Owed entry.2)
    addReward rewardBytes where
  keeps {state last entry} clear after _ := by
    intro key beyond
    have above := after_some.mp beyond
    have different : entry.1 ≠ key := by
      intro same
      have self : compare key key = Ordering.eq := Std.ReflCmp.compare_self
      rw [same, self] at above
      cases above
    change (state.pendingRewards.insert entry.1 entry.2)[key]? = none
    rw [get_insert, if_neg different]
    apply clear key
    exact fun previous seen => Std.TransCmp.lt_trans (after previous seen) above
  reads {state last entry} clear after owed := by
    have order := any_isGE_iff.mpr after
    have free : ¬(last.any (fun previous => (compare previous entry.1).isGE) = true ∨
        entry.2 = 0 ∨ entry.2 > MAX_MONEY) := by
      rw [order, not_or, not_or, UInt64.not_lt]
      exact ⟨Bool.false_ne_true, owed⟩
    rw [← List.append_nil (rewardBytes entry)]
    refine (recodes_pendingReward.reads ⟨entry.1.1, entry.1.2, entry.2⟩ trivial).bind ?_
    rw [if_neg free, scheduleReward_fresh (clear entry.1 after) owed]
    exact Reads.pure _
  exact {state last input next rest} clear ran := by
    obtain ⟨reward, middle, began, later⟩ := run_bind_ok.mp ran
    obtain ⟨-, start⟩ := recodes_pendingReward.exact input reward middle began
    dsimp only at later
    split at later
    · cases later
    · next checks =>
      rw [not_or, not_or, UInt64.not_lt] at checks
      have after : After last (reward.maturityHeight, reward.recipient) :=
        any_isGE_iff.mp (Bool.eq_false_iff.mpr checks.1)
      rw [scheduleReward_fresh (clear _ after) checks.2] at later
      cases later
      exact ⟨((reward.maturityHeight, reward.recipient), reward.amount), after, checks.2, rfl, start⟩

/-! The state the two loops build from the entries of a snapshot. -/

def rebuilt (accounts : List (Address × Account)) (rewards : List ((UInt64 × Address) × UInt64)) :
    LedgerState := rewards.foldl addReward (accounts.foldl addAccount default)

theorem addAccounts_accounts {entries : List (Address × Account)}
    (stored : ∀ entry ∈ entries, entry.2.Stored) (state : LedgerState) :
    (entries.foldl addAccount state).accounts =
      entries.foldl (fun map entry => map.insert entry.1 entry.2) state.accounts := by
  induction entries generalizing state with
  | nil => rfl
  | cons entry rest ih =>
    have here : (addAccount state entry).accounts = state.accounts.insert entry.1 entry.2 := by
      rw [addAccount, setAccount_accounts, if_neg (stored entry List.mem_cons_self).1]
    rw [List.foldl_cons, List.foldl_cons, ih, here]
    exact fun other member => stored other (List.mem_cons_of_mem entry member)

theorem addAccounts_pendingRewards (entries : List (Address × Account)) (state : LedgerState) :
    (entries.foldl addAccount state).pendingRewards = state.pendingRewards := by
  induction entries generalizing state with
  | nil => rfl
  | cons entry rest ih => rw [List.foldl_cons, ih, addAccount, setAccount_pendingRewards]

theorem addRewards_accounts (entries : List ((UInt64 × Address) × UInt64)) (state : LedgerState) :
    (entries.foldl addReward state).accounts = state.accounts := by
  induction entries generalizing state with
  | nil => rfl
  | cons entry rest ih =>
    rw [List.foldl_cons, ih]
    rfl

theorem addRewards_pendingRewards (entries : List ((UInt64 × Address) × UInt64))
    (state : LedgerState) : (entries.foldl addReward state).pendingRewards =
      entries.foldl (fun map entry => map.insert entry.1 entry.2) state.pendingRewards := by
  induction entries generalizing state with
  | nil => rfl
  | cons entry rest ih =>
    rw [List.foldl_cons, List.foldl_cons, ih]
    rfl

theorem rebuilt_accounts {accounts : List (Address × Account)}
    (increasing : Increasing Prod.fst accounts) (stored : ∀ entry ∈ accounts, entry.2.Stored)
    (rewards : List ((UInt64 × Address) × UInt64)) :
    (rebuilt accounts rewards).accounts.toList = accounts := by
  rw [rebuilt, addRewards_accounts, addAccounts_accounts stored]
  have bare : (default : LedgerState).accounts.toList = [] := toList_empty
  rw [toList_foldl_insert, bare, List.nil_append]
  rw [bare, List.nil_append]
  exact increasing

theorem rebuilt_pendingRewards {rewards : List ((UInt64 × Address) × UInt64)}
    (increasing : Increasing Prod.fst rewards) (accounts : List (Address × Account)) :
    (rebuilt accounts rewards).pendingRewards.toList = rewards := by
  rw [rebuilt, addRewards_pendingRewards, addAccounts_pendingRewards]
  have bare : (default : LedgerState).pendingRewards.toList = [] := toList_empty
  rw [toList_foldl_insert, bare, List.nil_append]
  rw [bare, List.nil_append]
  exact increasing

theorem rebuilt_mirrored {keys : Set StateKey} (apart : HashesApart keys)
    {accounts : List (Address × Account)} {rewards : List ((UInt64 × Address) × UInt64)}
    (accountKeys : ∀ entry ∈ accounts, .account entry.1 ∈ keys)
    (rewardKeys : ∀ entry ∈ rewards, .pendingReward entry.1.1 entry.1.2 ∈ keys) :
    Mirrored keys (rebuilt accounts rewards) := by
  have first : Mirrored keys (accounts.foldl addAccount default) :=
    List.foldlRecOn accounts addAccount (mirrored_default keys)
      fun _ mirrored entry member => mirrored.setAccount apart (accountKeys entry member) entry.2
  exact List.foldlRecOn rewards addReward first
    fun _ mirrored entry member => mirrored.withReward apart (rewardKeys entry member) entry.2

def snapshotBytes (accounts : List (Address × Account))
    (rewards : List ((UInt64 × Address) × UInt64)) (root : Hash32) : Bytes :=
  Writer.u16 SNAPSHOT_VERSION ++ (Writer.count accounts.length ++ (accounts.flatMap accountBytes ++
    (Writer.count rewards.length ++ (rewards.flatMap rewardBytes ++ root.bytes))))

theorem consensusEncode_eq (state : LedgerState) : state.consensusEncode =
    snapshotBytes state.accounts.toList state.pendingRewards.toList state.root := by
  unfold consensusEncode snapshotBytes
  simp only [List.append_assoc]
  rfl

theorem noneAfter_addAccounts (accounts : List (Address × Account)) :
    NoneAfter (accounts.foldl addAccount default) none := by
  intro key _
  rw [addAccounts_pendingRewards]
  exact get_empty key

theorem reads_snapshot {accounts : List (Address × Account)}
    {rewards : List ((UInt64 × Address) × UInt64)}
    (accountCount : accounts.length ≤ 2000000) (rewardCount : rewards.length ≤ 4000000)
    (accountOrder : Increasing Prod.fst accounts) (rewardOrder : Increasing Prod.fst rewards)
    (stored : ∀ entry ∈ accounts, entry.2.Stored) (owed : ∀ entry ∈ rewards, Owed entry.2) :
    Reads decodeFrom (snapshotBytes accounts rewards (rebuilt accounts rewards).root)
      (rebuilt accounts rewards) := by
  have first : Reads (turns decodeAccount accounts.length default none) (accounts.flatMap accountBytes)
      (accounts.foldl addAccount default) :=
    scans_accounts.reads_all trivial (beyond_none.mpr accountOrder) stored
  have second := scans_rewards.reads_all (noneAfter_addAccounts accounts)
    (beyond_none.mpr rewardOrder) owed
  have last : Reads (do
      let committedRoot ← Reader.fixed 32
      if committedRoot ≠ (rebuilt accounts rewards).root then
        throw (.nonCanonical "state snapshot root mismatch")
      else return rebuilt accounts rewards : Reader LedgerState)
      (rebuilt accounts rewards).root.bytes (rebuilt accounts rewards) := by
    rw [← List.append_nil (rebuilt accounts rewards).root.bytes]
    refine (reads_fixed _).bind ?_
    rw [if_neg (not_not_intro rfl)]
    exact Reads.pure _
  refine (reads_u16 SNAPSHOT_VERSION).bind ?_
  rw [if_neg (not_not_intro rfl)]
  refine (reads_vectorLen accountCount (by decide)).bind (first.bind ?_)
  exact (reads_vectorLen rewardCount (by decide)).bind (second.bind last)

/-- And the decoder accepts nothing else. -/
theorem decodeFrom_exact {input rest : Bytes} {restored : LedgerState}
    (ran : decodeFrom.run input = .ok (restored, rest)) :
    input = restored.consensusEncode ++ rest := by
  obtain ⟨version, afterVersion, began, ran⟩ := run_bind_ok.mp ran
  obtain ⟨-, start⟩ := recodes_u16.exact input version afterVersion began
  split at ran
  · cases ran
  · next known =>
    obtain ⟨accountCount, afterCount, counted, ran⟩ := run_bind_ok.mp ran
    obtain ⟨-, accountStart⟩ := (recodes_vectorLen (by decide)).exact _ _ _ counted
    obtain ⟨state, afterAccounts, scanned, ran⟩ := run_bind_ok.mp ran
    obtain ⟨accounts, rfl, accountOrder, stored, rfl, accountBytes⟩ :=
      scans_accounts.exact_all trivial scanned
    obtain ⟨rewardCount, afterCount', counted', ran⟩ := run_bind_ok.mp ran
    obtain ⟨-, rewardStart⟩ := (recodes_vectorLen (by decide)).exact _ _ _ counted'
    obtain ⟨state, afterRewards, scanned', ran⟩ := run_bind_ok.mp ran
    obtain ⟨rewards, rfl, rewardOrder, owed, rfl, rewardBytes⟩ :=
      scans_rewards.exact_all (noneAfter_addAccounts accounts) scanned'
    obtain ⟨root, afterRoot, read, ran⟩ := run_bind_ok.mp ran
    obtain ⟨-, rootBytes⟩ := (recodes_fixed 32).exact _ _ _ read
    split at ran
    · cases ran
    · next matching =>
      cases ran
      have listed := rebuilt_accounts (beyond_none.mp accountOrder) stored rewards
      have listed' := rebuilt_pendingRewards (beyond_none.mp rewardOrder) accounts
      rw [Decidable.not_not] at known matching
      change input = (rebuilt accounts rewards).consensusEncode ++ rest
      rw [consensusEncode_eq, listed, listed', snapshotBytes, start, accountStart, accountBytes,
        rewardStart, rewardBytes, rootBytes, known, matching]
      simp only [List.append_assoc]
      rfl

end LedgerState

end ParitrNode
