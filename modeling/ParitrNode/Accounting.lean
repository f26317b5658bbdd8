import ParitrNode.LinkedChain
import ParitrNode.RewardSplit

/-!
The ledger as books: what each address holds and what it is still owed at each
height. Every operation is one posting, and the supply is balances plus
pending rewards.
-/

namespace ParitrNode
open ByteCodec OrderedMap Checked

namespace LedgerState

def balanceOf (state : LedgerState) (address : Address) : Nat := (state.account address).balance.toNat

def pendingAt (state : LedgerState) (maturity : UInt64) (address : Address) : Nat :=
  ((state.pendingRewards[(maturity, address)]?).map UInt64.toNat).getD 0

def totalBalance (state : LedgerState) : Nat :=
  total (fun account : Account => account.balance.toNat) state.accounts

def totalPending (state : LedgerState) : Nat := total UInt64.toNat state.pendingRewards

def supply (state : LedgerState) : Nat := state.totalBalance + state.totalPending

def NoEmptyPending (state : LedgerState) : Prop :=
  ∀ (maturity : UInt64) (address : Address), state.pendingRewards[(maturity, address)]? ≠ some 0

theorem pendingAt_eq_some {state : LedgerState} (solid : state.NoEmptyPending) {maturity : UInt64}
    {address : Address} {amount : UInt64} :
    state.pendingRewards[(maturity, address)]? = some amount ↔
      0 < amount.toNat ∧ state.pendingAt maturity address = amount.toNat := by
  unfold pendingAt
  cases entry : state.pendingRewards[(maturity, address)]? with
  | none =>
    simp only [Option.map_none, Option.getD_none]
    exact ⟨fun h => (nomatch h), fun h => by omega⟩
  | some value =>
    simp only [Option.map_some, Option.getD_some, Option.some.injEq]
    constructor
    · rintro rfl
      have nonzero : value.toNat ≠ 0 := by
        intro zero
        exact solid maturity address (entry.trans (congrArg some (UInt64.toNat_inj.mp zero)))
      exact ⟨by omega, rfl⟩
    · intro h
      exact UInt64.toNat_inj.mp h.2

theorem balanceOf_le_total (state : LedgerState) (address : Address) :
    state.balanceOf address ≤ state.totalBalance := by
  unfold balanceOf account
  cases entry : state.accounts[address]? with
  | none => exact Nat.zero_le _
  | some account => exact weight_le_total (fun account : Account => account.balance.toNat) entry

theorem pendingAt_le_total (state : LedgerState) (maturity : UInt64) (address : Address) :
    state.pendingAt maturity address ≤ state.totalPending := by
  unfold pendingAt
  cases entry : state.pendingRewards[(maturity, address)]? with
  | none => exact Nat.zero_le _
  | some amount => exact weight_le_total UInt64.toNat entry

theorem supply_default : (default : LedgerState).supply = 0 := by
  change total (fun account : Account => account.balance.toNat) ∅ + total UInt64.toNat ∅ = 0
  rw [total_empty, total_empty]

theorem balanceOf_default (address : Address) : (default : LedgerState).balanceOf address = 0 := by
  change (((∅ : BTreeMap Address Account)[address]?).getD default).balance.toNat = 0
  rw [get_empty]
  rfl

theorem pendingAt_default (maturity : UInt64) (address : Address) :
    (default : LedgerState).pendingAt maturity address = 0 := by
  change (((∅ : BTreeMap (UInt64 × Address) UInt64)[(maturity, address)]?).map _).getD 0 = 0
  rw [get_empty]
  rfl

theorem noEmptyPending_default : (default : LedgerState).NoEmptyPending := by
  intro maturity address
  change (∅ : BTreeMap (UInt64 × Address) UInt64)[(maturity, address)]? ≠ some 0
  rw [get_empty]
  exact fun h => (nomatch h)

variable [Crypto]

/-! Account writes. -/

theorem account_setAccount (state : LedgerState) (address other : Address) (account : Account) :
    (state.setAccount address account).account other =
      if address = other then account else state.account other := by
  unfold setAccount LedgerState.account
  split
  next absent =>
    simp only [get_erase]
    split
    · rw [absent]; rfl
    · rfl
  next =>
    simp only [get_insert]
    split <;> rfl

theorem setAccount_accounts (state : LedgerState) (address : Address) (account : Account) :
    (state.setAccount address account).accounts =
      if account = default then state.accounts.erase address
      else state.accounts.insert address account := by
  unfold setAccount
  split <;> rfl

theorem setAccount_pendingRewards (state : LedgerState) (address : Address) (account : Account) :
    (state.setAccount address account).pendingRewards = state.pendingRewards := by
  unfold setAccount
  split <;> rfl

theorem setAccount_totalBalance (state : LedgerState) (address : Address) (account : Account) :
    (state.setAccount address account).totalBalance + state.balanceOf address =
      state.totalBalance + account.balance.toNat := by
  have old : ((state.accounts[address]?).map fun account : Account => account.balance.toNat).getD 0 =
      state.balanceOf address := by
    unfold balanceOf LedgerState.account
    cases state.accounts[address]? <;> rfl
  unfold setAccount
  split
  next absent =>
    have removed := total_erase_add (fun account : Account => account.balance.toNat) state.accounts
      address
    rw [old] at removed
    rw [absent]
    exact removed
  next =>
    have written := total_insert_add (fun account : Account => account.balance.toNat) state.accounts
      address account
    rw [old] at written
    exact written

/-- A posting of `gain` and `loss` to one address that leaves everything else alone. -/
structure Posts (before after : LedgerState) (address : Address) (gain loss : Nat) : Prop where
  balance : ∀ other, after.balanceOf other + (if address = other then loss else 0) =
    before.balanceOf other + (if address = other then gain else 0)
  pending : after.pendingRewards = before.pendingRewards
  totalBalance : after.totalBalance + loss = before.totalBalance + gain

theorem setAccount_posts {state : LedgerState} {address : Address} {account : Account}
    {gain loss : Nat} (moved : account.balance.toNat + loss = state.balanceOf address + gain) :
    Posts state (state.setAccount address account) address gain loss where
  balance other := by
    unfold balanceOf
    rw [account_setAccount]
    by_cases same : address = other
    · subst same
      simp only [if_pos]
      exact moved
    · simp only [if_neg same]
  pending := state.setAccount_pendingRewards address account
  totalBalance := by
    have written := state.setAccount_totalBalance address account
    omega

theorem credit_ok {state next : LedgerState} {address : Address} {amount : UInt64}
    (credited : state.credit address amount = .ok next) :
    Posts state next address amount.toNat 0 := by
  unfold credit at credited
  simp only [bind_ok, okOr_ok, Option.filter_eq_some_iff] at credited
  obtain ⟨balance, ⟨added, -⟩, result⟩ := credited
  rw [← Except.ok.inj result]
  exact setAccount_posts (checkedAdd_some added)

theorem debit_ok {state next : LedgerState} {address : Address} {amount : UInt64}
    (debited : state.debit address amount = .ok next) :
    Posts state next address 0 amount.toNat := by
  unfold debit at debited
  simp only [bind_ok, okOr_ok] at debited
  obtain ⟨balance, subtracted, result⟩ := debited
  obtain ⟨covered, difference⟩ := checkedSub_some subtracted
  rw [← Except.ok.inj result]
  refine setAccount_posts ?_
  change balance.toNat + amount.toNat = (state.account address).balance.toNat + 0
  omega

theorem setNonce_posts (state : LedgerState) (address : Address) (nonce : UInt64) :
    Posts state (state.setNonce address nonce) address 0 0 := setAccount_posts rfl

theorem credit_succeeds (state : LedgerState) (address : Address) (amount : UInt64)
    (bound : state.balanceOf address + amount.toNat ≤ MAX_MONEY.toNat) :
    ∃ next, state.credit address amount = .ok next := by
  unfold balanceOf at bound
  have range : MAX_MONEY.toNat < 2 ^ 64 := MAX_MONEY.toNat_lt
  have added := checkedAdd_of_lt (a := (state.account address).balance) (b := amount) (by omega)
  have sum := checkedAdd_some added
  refine ⟨_, bind_ok.mpr ⟨_, okOr_ok.mpr (Option.filter_eq_some_iff.mpr ⟨added, ?_⟩), rfl⟩⟩
  rw [decide_eq_true_eq, UInt64.le_iff_toNat_le]
  omega

/-! Pending rewards. -/

/-- A posting of `amount` to what one address is owed at one height. -/
structure Owes (before after : LedgerState) (maturity : UInt64) (address : Address) (amount : Nat) :
    Prop where
  accounts : after.accounts = before.accounts
  pendingAt : ∀ height other, after.pendingAt height other = before.pendingAt height other +
    (if height = maturity ∧ other = address then amount else 0)
  totalPending : after.totalPending = before.totalPending + amount
  solid : before.NoEmptyPending → after.NoEmptyPending

omit [Crypto] in
theorem Owes.zero (state : LedgerState) (maturity : UInt64) (address : Address) :
    Owes state state maturity address 0 where
  accounts := rfl
  pendingAt height other := by rw [ite_self, Nat.add_zero]
  totalPending := rfl
  solid := id

omit [Crypto] in
theorem pendingAt_getD (state : LedgerState) (maturity : UInt64) (address : Address) :
    ((state.pendingRewards[(maturity, address)]?).getD 0).toNat = state.pendingAt maturity address := by
  unfold LedgerState.pendingAt
  cases state.pendingRewards[(maturity, address)]? <;> rfl

theorem scheduleReward_ok {state next : LedgerState} {maturity : UInt64} {address : Address}
    {amount : UInt64} (scheduled : state.scheduleReward maturity address amount = .ok next) :
    Owes state next maturity address amount.toNat := by
  unfold scheduleReward at scheduled
  split at scheduled
  next nothing =>
    rw [← Except.ok.inj scheduled, nothing]
    exact Owes.zero state maturity address
  next something =>
    simp only [bind_ok, okOr_ok, Option.filter_eq_some_iff] at scheduled
    obtain ⟨merged, ⟨added, -⟩, result⟩ := scheduled
    have sum := checkedAdd_some added
    rw [pendingAt_getD] at sum
    have positive : amount.toNat ≠ 0 := fun zero => something (UInt64.toNat_inj.mp zero)
    rw [← Except.ok.inj result]
    refine ⟨rfl, ?_, ?_, ?_⟩
    · intro height other
      unfold LedgerState.pendingAt at *
      simp only [get_insert, Prod.mk.injEq]
      by_cases same : maturity = height ∧ address = other
      · obtain ⟨rfl, rfl⟩ := same
        simp only [and_self, if_pos, Option.map_some, Option.getD_some]
        exact sum
      · have different : ¬(height = maturity ∧ other = address) :=
          fun equal => same ⟨equal.1.symm, equal.2.symm⟩
        rw [if_neg same, if_neg different, Nat.add_zero]
    · have written := total_insert_add UInt64.toNat state.pendingRewards (maturity, address) merged
      change total UInt64.toNat (state.pendingRewards.insert (maturity, address) merged) =
        total UInt64.toNat state.pendingRewards + amount.toNat
      unfold LedgerState.pendingAt at sum
      omega
    · intro solid height other
      simp only [get_insert]
      split
      · intro zero
        rw [Option.some.inj zero] at sum
        have none : (0 : UInt64).toNat = 0 := rfl
        omega
      · exact solid height other

theorem scheduleReward_succeeds (state : LedgerState) (maturity : UInt64) (address : Address)
    (amount : UInt64) (bound : state.pendingAt maturity address + amount.toNat ≤ MAX_MONEY.toNat) :
    ∃ next, state.scheduleReward maturity address amount = .ok next := by
  unfold scheduleReward
  split
  · exact ⟨state, rfl⟩
  · rw [← pendingAt_getD] at bound
    have range : MAX_MONEY.toNat < 2 ^ 64 := MAX_MONEY.toNat_lt
    have added := checkedAdd_of_lt (a := (state.pendingRewards[(maturity, address)]?).getD 0)
      (b := amount) (by omega)
    have sum := checkedAdd_some added
    refine ⟨_, bind_ok.mpr ⟨_, okOr_ok.mpr (Option.filter_eq_some_iff.mpr ⟨added, ?_⟩), rfl⟩⟩
    rw [decide_eq_true_eq, UInt64.le_iff_toNat_le]
    omega

theorem scheduleRewards_ok {maturity : UInt64} {state next : LedgerState}
    {rewards : List (Address × UInt64)} (scheduled : scheduleRewards maturity state rewards = .ok next) :
    next.accounts = state.accounts ∧
      (∀ height other, next.pendingAt height other = state.pendingAt height other +
        (if height = maturity then owedTo rewards other else 0)) ∧
      next.totalPending = state.totalPending + owedTotal rewards ∧
      (state.NoEmptyPending → next.NoEmptyPending) := by
  induction rewards generalizing state with
  | nil =>
    cases scheduled
    refine ⟨rfl, ?_, rfl, id⟩
    intro height other
    change _ = _ + (if height = maturity then 0 else 0)
    rw [ite_self, Nat.add_zero]
  | cons entry rest ih =>
    obtain ⟨middle, first, later⟩ := bind_ok.mp scheduled
    have head := scheduleReward_ok first
    obtain ⟨accounts, pending, totals, solid⟩ := ih later
    refine ⟨accounts.trans head.accounts, ?_, ?_, fun start => solid (head.solid start)⟩
    · intro height other
      rw [pending, head.pendingAt, owedTo_cons]
      by_cases due : height = maturity
      · by_cases same : entry.1 = other
        · simp only [due, same, and_self, if_pos]
          omega
        · have different : ¬other = entry.1 := fun equal => same equal.symm
          simp only [due, different, same, and_false, if_pos, if_neg, not_false_eq_true]
          omega
      · simp only [due, false_and, if_neg, not_false_eq_true]
    · rw [totals, head.totalPending, owedTotal_cons]
      omega

/-! Maturation moves what is owed at one height into the balances. -/

omit [Crypto] in
theorem addressMin_le (address : Address) : (compare addressMin address).isLE := by
  have below := FixedBytes.replicate_zero_le address.keyHash.bytes
  rw [address.keyHash.length_eq] at below
  exact below

omit [Crypto] in
theorem le_addressMax (address : Address) : (compare address addressMax).isLE := by
  have above := FixedBytes.le_replicate_max address.keyHash.bytes
  rw [address.keyHash.length_eq] at above
  exact above

omit [Crypto] in
theorem inRange_iff {height maturity : UInt64} {address : Address} :
    ((compare (height, addressMin) (maturity, address)).isLE &&
      (compare (maturity, address) (height, addressMax)).isLE) = true ↔ maturity = height := by
  have lower : compare (height, addressMin) (maturity, address) =
      (compare height maturity).then (compare addressMin address) := rfl
  have upper : compare (maturity, address) (height, addressMax) =
      (compare maturity height).then (compare address addressMax) := rfl
  rw [lower, upper]
  constructor
  · intro inside
    cases order : compare height maturity with
    | lt =>
      have reverse : compare maturity height = Ordering.gt := Std.OrientedCmp.gt_iff_lt.mpr order
      rw [order, reverse] at inside
      simp at inside
    | eq => exact (Std.LawfulEqOrd.eq_of_compare order).symm
    | gt =>
      rw [order] at inside
      simp at inside
  · rintro rfl
    have self : compare maturity maturity = Ordering.eq := Std.ReflCmp.compare_self
    rw [self]
    simpa using ⟨addressMin_le address, le_addressMax address⟩

omit [Crypto] in
theorem mem_maturing {state : LedgerState} {height : UInt64} {address : Address} {amount : UInt64} :
    (address, amount) ∈ state.maturing height ↔
      state.pendingRewards[(height, address)]? = some amount := by
  unfold maturing
  simp only [List.mem_map, List.mem_filter, inRange_iff, Prod.exists, Prod.mk.injEq]
  constructor
  · rintro ⟨maturity, other, value, ⟨member, rfl⟩, rfl, rfl⟩
    exact mem_toList.mp member
  · intro entry
    exact ⟨height, address, amount, ⟨mem_toList.mpr entry, rfl⟩, rfl, rfl⟩

omit [Crypto] in
theorem maturing_nodup (state : LedgerState) (height : UInt64) :
    ((state.maturing height).map Prod.fst).Nodup := by
  unfold maturing
  rw [List.map_map, List.Nodup, List.pairwise_map]
  have distinct := keys_nodup state.pendingRewards
  rw [List.Nodup, List.pairwise_map] at distinct
  refine List.Pairwise.imp_of_mem ?_ (distinct.filter _)
  intro first second left right different same
  have dueLeft := (List.mem_filter.mp left).2
  have dueRight := (List.mem_filter.mp right).2
  rw [inRange_iff] at dueLeft dueRight
  exact different (Prod.ext (dueLeft.trans dueRight.symm) same)

omit [Crypto] in
theorem owedTo_maturing (state : LedgerState) (height : UInt64) (address : Address) :
    owedTo (state.maturing height) address = state.pendingAt height address := by
  unfold LedgerState.pendingAt
  cases entry : state.pendingRewards[(height, address)]? with
  | none =>
    refine owedTo_of_not_mem ?_
    intro listed
    obtain ⟨⟨other, amount⟩, member, same⟩ := List.mem_map.mp listed
    cases same
    rw [mem_maturing.mp member] at entry
    cases entry
  | some amount =>
    exact owedTo_of_mem (maturing_nodup state height) (mem_maturing.mpr entry)

theorem get_removePending (state : LedgerState) (height maturity : UInt64) (address other : Address) :
    (state.removePending height address).pendingRewards[(maturity, other)]? =
      if height = maturity ∧ address = other then none
      else state.pendingRewards[(maturity, other)]? := by
  unfold removePending
  simp only [get_erase, Prod.mk.injEq]

theorem removePending_totalPending (state : LedgerState) (height : UInt64) (address : Address) :
    (state.removePending height address).totalPending + state.pendingAt height address =
      state.totalPending :=
  total_erase_add UInt64.toNat state.pendingRewards (height, address)

/-- Some of the entries due at a height have moved into the balances. -/
structure Matures (height : UInt64) (due : List (Address × UInt64)) (before after : LedgerState) :
    Prop where
  balance : ∀ address, after.balanceOf address = before.balanceOf address + owedTo due address
  pending : ∀ (maturity : UInt64) (address : Address),
    after.pendingRewards[(maturity, address)]? =
      if maturity = height ∧ address ∈ due.map Prod.fst then none
      else before.pendingRewards[(maturity, address)]?
  supply : after.supply = before.supply

theorem matureAll_ok {height : UInt64} {due : List (Address × UInt64)} {state next : LedgerState}
    (distinct : (due.map Prod.fst).Nodup)
    (present : ∀ address amount, (address, amount) ∈ due →
      state.pendingRewards[(height, address)]? = some amount)
    (moved : matureAll height due state = (.ok (), next)) : Matures height due state next := by
  induction due generalizing state with
  | nil =>
    cases moved
    exact ⟨fun address => rfl, fun maturity address => by simp, rfl⟩
  | cons entry rest ih =>
    obtain ⟨address, amount⟩ := entry
    rw [List.map_cons, List.nodup_cons] at distinct
    rw [matureAll] at moved
    cases credited : (state.removePending height address).credit address amount with
    | error error => rw [credited] at moved; cases moved
    | ok middle =>
      rw [credited] at moved
      have posted := credit_ok credited
      have entryHere := present address amount List.mem_cons_self
      have stillPresent : ∀ other value, (other, value) ∈ rest →
          middle.pendingRewards[(height, other)]? = some value := by
        intro other value member
        have different : address ≠ other := by
          rintro rfl
          exact distinct.1 (List.mem_map.mpr ⟨_, member, rfl⟩)
        rw [posted.pending, get_removePending, if_neg (fun same => different same.2)]
        exact present other value (List.mem_cons_of_mem _ member)
      obtain ⟨balance, pending, supply⟩ := ih distinct.2 stillPresent moved
      refine ⟨?_, ?_, ?_⟩
      · intro other
        have here := posted.balance other
        have before : (state.removePending height address).balanceOf other = state.balanceOf other :=
          rfl
        rw [ite_self] at here
        rw [balance other, owedTo_cons]
        dsimp only
        omega
      · intro maturity other
        rw [pending, posted.pending, get_removePending]
        simp only [List.map_cons, List.mem_cons]
        by_cases due : maturity = height
        · by_cases same : other = address
          · simp only [due, same, and_self, if_pos, true_or, ite_self]
          · have different : ¬address = other := fun equal => same equal.symm
            simp only [due, same, different, true_and, and_false, if_neg, false_or,
              not_false_eq_true]
        · have notDue : ¬height = maturity := fun equal => due equal.symm
          simp only [due, notDue, false_and, if_neg, not_false_eq_true]
      · have removed := state.removePending_totalPending height address
        have owed : state.pendingAt height address = amount.toNat := by
          unfold LedgerState.pendingAt
          rw [entryHere]
          rfl
        have balances : (state.removePending height address).totalBalance = state.totalBalance := rfl
        have pendings : middle.totalPending = (state.removePending height address).totalPending := by
          unfold totalPending
          rw [posted.pending]
        have credits := posted.totalBalance
        rw [supply]
        unfold LedgerState.supply
        omega

theorem matured_ok {state next : LedgerState} {height : UInt64}
    (moved : matured state height = .ok next) :
    (∀ address, next.balanceOf address = state.balanceOf address + state.pendingAt height address) ∧
      (∀ maturity address, next.pendingAt maturity address =
        if maturity = height then 0 else state.pendingAt maturity address) ∧
      next.supply = state.supply ∧ (state.NoEmptyPending → next.NoEmptyPending) := by
  have all : matureAll height (state.maturing height) state = (.ok (), next) := by
    unfold matured mature at moved
    cases loop : matureAll height (state.maturing height) state with
    | mk result left =>
      rw [loop] at moved
      cases result with
      | error error => cases moved
      | ok => cases moved; rfl
  have steps := matureAll_ok (maturing_nodup state height)
    (fun address amount member => mem_maturing.mp member) all
  refine ⟨?_, ?_, steps.supply, ?_⟩
  · intro address
    rw [steps.balance, owedTo_maturing]
  · intro maturity address
    unfold LedgerState.pendingAt
    rw [steps.pending]
    by_cases due : maturity = height
    · subst due
      rw [if_pos rfl]
      by_cases listed : address ∈ (state.maturing maturity).map Prod.fst
      · rw [if_pos ⟨rfl, listed⟩]
        rfl
      · have absent : state.pendingRewards[(maturity, address)]? = none := by
          cases entry : state.pendingRewards[(maturity, address)]? with
          | none => rfl
          | some amount =>
            exact absurd (List.mem_map.mpr ⟨_, mem_maturing.mpr entry, rfl⟩) listed
        rw [if_neg (fun h => listed h.2), absent]
        rfl
    · rw [if_neg (fun h => due h.1), if_neg due]
  · intro solid maturity address
    rw [steps.pending]
    split
    · exact fun zero => (nomatch zero)
    · exact solid maturity address

theorem matureAll_succeeds {height : UInt64} {due : List (Address × UInt64)} {state : LedgerState}
    (distinct : (due.map Prod.fst).Nodup)
    (present : ∀ address amount, (address, amount) ∈ due →
      state.pendingRewards[(height, address)]? = some amount)
    (bound : state.supply ≤ MAX_MONEY.toNat) : ∃ next, matureAll height due state = (.ok (), next) := by
  induction due generalizing state with
  | nil => exact ⟨state, rfl⟩
  | cons entry rest ih =>
    obtain ⟨address, amount⟩ := entry
    rw [List.map_cons, List.nodup_cons] at distinct
    have owed : state.pendingAt height address = amount.toNat := by
      unfold LedgerState.pendingAt
      rw [present address amount List.mem_cons_self]
      rfl
    have removed := state.removePending_totalPending height address
    have balances : (state.removePending height address).totalBalance = state.totalBalance := rfl
    have held := (state.removePending height address).balanceOf_le_total address
    unfold supply at bound
    obtain ⟨middle, credited⟩ := credit_succeeds (state.removePending height address) address
      amount (by omega)
    have posted := credit_ok credited
    have stillPresent : ∀ other value, (other, value) ∈ rest →
        middle.pendingRewards[(height, other)]? = some value := by
      intro other value member
      have different : address ≠ other := by
        rintro rfl
        exact distinct.1 (List.mem_map.mpr ⟨_, member, rfl⟩)
      rw [posted.pending, get_removePending, if_neg (fun same => different same.2)]
      exact present other value (List.mem_cons_of_mem _ member)
    have pendings : middle.totalPending = (state.removePending height address).totalPending := by
      unfold totalPending
      rw [posted.pending]
    have credits := posted.totalBalance
    have range : middle.supply ≤ MAX_MONEY.toNat := by
      unfold supply
      omega
    obtain ⟨next, later⟩ := ih distinct.2 stillPresent range
    exact ⟨next, by rw [matureAll, credited]; exact later⟩

theorem matured_succeeds (state : LedgerState) (height : UInt64)
    (bound : state.supply ≤ MAX_MONEY.toNat) : ∃ next, matured state height = .ok next := by
  obtain ⟨next, all⟩ := matureAll_succeeds (maturing_nodup state height)
    (fun address amount member => mem_maturing.mp member) bound
  refine ⟨next, ?_⟩
  unfold matured mature
  rw [all]

end LedgerState

end ParitrNode
