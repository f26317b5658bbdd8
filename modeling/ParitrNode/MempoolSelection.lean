import ParitrNode.Mempool
import ParitrNode.MoneySupply
import ParitrNode.TransactionNonces

/-!
What the pool selects is a valid block body. Every entry passed the relay
checks; the selection walks a ledger that the matured ledger of the next block
follows with the same nonces and no smaller balances.
-/

namespace ParitrNode
open ByteCodec OrderedMap Checked

variable [Crypto]

/-- The relay checks that do not depend on a ledger. -/
structure Relayable (transaction : Transaction) : Prop where
  version : transaction.version = Transaction.VERSION
  amountPositive : transaction.amount ≠ 0
  amountRange : transaction.amount.toNat ≤ MAX_MONEY.toNat
  feeRange : transaction.fee.toNat ≤ MAX_MONEY.toNat
  nonceBelow : transaction.nonce.toNat < 2 ^ 64 - 1
  distinct : transaction.sender ≠ transaction.recipient
  keyLength : transaction.publicKey.length = 33 ∨ transaction.publicKey.length = 65
  signatureLength : transaction.signature.length = 64
  signed : checkSignature transaction = .ok ()

theorem validateForRelay_ok {transaction : Transaction} {policy : RelayPolicy} {state : LedgerState}
    (accepted : validateForRelay transaction policy state = .ok ()) : Relayable transaction := by
  unfold validateForRelay at accepted
  simp only [guard_ok, not_or, Decidable.not_not, gt_iff_lt, UInt64.not_lt] at accepted
  obtain ⟨⟨version, positive, amount, fee, nonce, -, -, distinct, key, signature⟩, -, rest⟩ :=
    accepted
  have signed : checkSignature transaction = .ok () := by
    cases checked : checkSignature transaction with
    | error error =>
      rw [checked] at rest
      cases rest
    | ok => rfl
  refine ⟨version, positive, UInt64.le_iff_toNat_le.mp amount, UInt64.le_iff_toNat_le.mp fee, ?_,
    distinct, by omega, signature, signed⟩
  have range := transaction.nonce.toNat_lt
  have top : transaction.nonce.toNat ≠ 2 ^ 64 - 1 := by
    intro same
    exact nonce (UInt64.toNat_inj.mp (by rw [same]; rfl))
  omega

theorem Relayable.structure_ok {transaction : Transaction} (relayable : Relayable transaction) :
    validateTransactionStructure transaction = .ok () := by
  have key := relayable.keyLength
  have signature := relayable.signatureLength
  have size : transaction.consensusEncode.length ≤ MAX_TRANSACTION_BYTES := by
    simp only [Transaction.consensusEncode, List.length_append, Writer.u16_length,
      Address.asBytes_length, Writer.u64_length, Writer.bytes_length, MAX_TRANSACTION_BYTES]
    omega
  unfold validateTransactionStructure
  simp only [guard_ok, not_or, Decidable.not_not, gt_iff_lt, UInt64.not_lt, Nat.not_lt]
  exact ⟨⟨relayable.version, relayable.amountPositive,
    UInt64.le_iff_toNat_le.mpr relayable.amountRange,
    UInt64.le_iff_toNat_le.mpr relayable.feeRange, relayable.distinct, by omega, signature, size⟩,
    trivial⟩

theorem Relayable.fits {transaction : Transaction} (relayable : Relayable transaction) :
    transaction.amount.toNat + transaction.fee.toNat < 2 ^ 64 ∧
      transaction.nonce.toNat + 1 < 2 ^ 64 := by
  have amount := relayable.amountRange
  have fee := relayable.feeRange
  have nonce := relayable.nonceBelow
  have range : MAX_MONEY.toNat = 2 ^ 62 - 1 := rfl
  exact ⟨by omega, by omega⟩

/-! The pool only holds relayed transactions under their ids. -/

def Mempool.Sound (pool : Mempool) : Prop :=
  ∀ (id : Hash32) (entry : MempoolEntry), pool.entries[id]? = some entry →
    entry.transaction.id = id ∧ Relayable entry.transaction

namespace Mempool

omit [Crypto] in
theorem remove_entries {pool : Mempool} {id other : Hash32} {entry : MempoolEntry}
    (found : (pool.remove id).entries[other]? = some entry) :
    pool.entries[other]? = some entry := by
  unfold remove at found
  split at found
  · exact found
  · dsimp only at found
    rw [get_erase] at found
    split at found
    · cases found
    · exact found

omit [Crypto] in
theorem removeAll_entries {pool : Mempool} {ids : List Hash32} {id : Hash32} {entry : MempoolEntry}
    (found : (ids.foldl Mempool.remove pool).entries[id]? = some entry) :
    pool.entries[id]? = some entry := by
  induction ids generalizing pool with
  | nil => exact found
  | cons first rest ih => exact remove_entries (ih found)

omit [Crypto] in
theorem trim_entries {pool : Mempool} {count : Nat} {id : Hash32} {entry : MempoolEntry}
    (found : (Mempool.trim count pool).entries[id]? = some entry) :
    pool.entries[id]? = some entry := by
  induction count generalizing pool with
  | zero => exact found
  | succ count ih =>
    rw [Mempool.trim] at found
    split at found
    · split at found
      · exact remove_entries (ih found)
      · exact found
    · exact found

omit [Crypto] in
theorem expireAndTrim_entries {pool : Mempool} {now : UInt64} {id : Hash32} {entry : MempoolEntry}
    (found : (pool.expireAndTrim now).entries[id]? = some entry) : pool.entries[id]? = some entry :=
  removeAll_entries (trim_entries found)

theorem removeConfirmed_entries {pool : Mempool} {transactions : List Transaction} {id : Hash32}
    {entry : MempoolEntry} (found : (pool.removeConfirmed transactions).entries[id]? = some entry) :
    pool.entries[id]? = some entry := by
  unfold Mempool.removeConfirmed at found
  rw [← List.foldl_map] at found
  exact removeAll_entries found

theorem insertFunded_entries {pool : Mempool} {transaction : Transaction} {state : LedgerState}
    {now : UInt64} {id : Hash32} {entry : MempoolEntry}
    (found : (pool.insertFunded transaction state now).2.entries[id]? = some entry) :
    pool.entries[id]? = some entry ∨ (transaction.id = id ∧ entry.transaction = transaction) := by
  have inserted : (pool.entries.insert transaction.id
      ⟨transaction, now, transaction.consensusEncode.length⟩)[id]? = some entry := by
    unfold Mempool.insertFunded at found
    dsimp only at found
    split at found
    · exact found
    · exact remove_entries found
    · exact expireAndTrim_entries found
  rw [get_insert] at inserted
  split at inserted
  next same =>
    cases inserted
    exact Or.inr ⟨same, rfl⟩
  next => exact Or.inl inserted

theorem accept_entries {pool : Mempool} {transaction : Transaction} {state : LedgerState}
    {now : UInt64} {id : Hash32} {entry : MempoolEntry}
    (found : (pool.accept transaction state now).2.entries[id]? = some entry) :
    pool.entries[id]? = some entry ∨ (transaction.id = id ∧ entry.transaction = transaction ∧
      validateForRelay transaction pool.policy state = .ok ()) := by
  unfold Mempool.accept at found
  split at found
  · exact Or.inl found
  · next relayed =>
    split at found
    · exact Or.inl found
    · split at found
      · rcases insertFunded_entries found with old | ⟨same, new⟩
        · exact Or.inl old
        · exact Or.inr ⟨same, new, relayed⟩
      · split at found
        · exact Or.inl found
        · split at found
          · exact Or.inl found
          · rcases insertFunded_entries found with old | ⟨same, new⟩
            · exact Or.inl (remove_entries old)
            · exact Or.inr ⟨same, new, relayed⟩

/-- The pools a node can hold, whatever ledgers and clocks the calls saw. -/
inductive Reachable (policy : RelayPolicy) : Mempool → Prop
  | new : Reachable policy (Mempool.new policy)
  | accept {pool : Mempool} (earlier : Reachable policy pool) (transaction : Transaction)
      (state : LedgerState) (now : UInt64) :
      Reachable policy (pool.accept transaction state now).2
  | removeConfirmed {pool : Mempool} (earlier : Reachable policy pool)
      (transactions : List Transaction) : Reachable policy (pool.removeConfirmed transactions)
  | expireAndTrim {pool : Mempool} (earlier : Reachable policy pool) (now : UInt64) :
      Reachable policy (pool.expireAndTrim now)

theorem Reachable.sound {policy : RelayPolicy} {pool : Mempool} (reachable : Reachable policy pool) :
    pool.Sound := by
  induction reachable with
  | new =>
    intro id entry found
    change (∅ : BTreeMap Hash32 MempoolEntry)[id]? = some entry at found
    rw [get_empty] at found
    cases found
  | accept earlier transaction state now ih =>
    intro id entry found
    rcases accept_entries found with old | ⟨same, new, relayed⟩
    · exact ih id entry old
    · rw [new]
      exact ⟨same, validateForRelay_ok relayed⟩
  | removeConfirmed earlier transactions ih =>
    exact fun id entry found => ih id entry (removeConfirmed_entries found)
  | expireAndTrim earlier now ih =>
    exact fun id entry found => ih id entry (expireAndTrim_entries found)

end Mempool

/-! One selected transaction. -/

/-- A relayed transaction that its account covers applies, and the selection
makes the same ledger writes. -/
theorem relayed_applies {state : LedgerState} {seen : List Hash32} {transaction : Transaction}
    (relayable : Relayable transaction) (fresh : transaction.id ∉ seen)
    (nonce : transaction.nonce = nonceOf state transaction.sender)
    (covered : transaction.amount.toNat + transaction.fee.toNat ≤
      state.balanceOf transaction.sender)
    (bound : state.totalBalance ≤ MAX_MONEY.toNat) :
    ∃ next, applyTransaction state seen transaction = .ok next ∧
      Mempool.execute state transaction = some next := by
  obtain ⟨debitFits, nonceFits⟩ := relayable.fits
  have debitOk := checkedAdd_of_lt debitFits
  have sum := checkedAdd_some debitOk
  have nonceNext := checkedAdd_of_lt (a := transaction.nonce) (b := 1) nonceFits
  have within : transaction.amount + transaction.fee ≤
      (state.account transaction.sender).balance := by
    rw [UInt64.le_iff_toNat_le, sum]
    exact covered
  obtain ⟨debited, debitedOk⟩ : ∃ debited,
      state.debit transaction.sender (transaction.amount + transaction.fee) = .ok debited :=
    ⟨_, bind_ok.mpr ⟨_, okOr_ok.mpr (checkedSub_of_le (UInt64.le_iff_toNat_le.mp within)), rfl⟩⟩
  have posted := LedgerState.debit_ok debitedOk
  have held := debited.balanceOf_le_total transaction.recipient
  have totals := posted.totalBalance
  obtain ⟨credited, creditedOk⟩ := LedgerState.credit_succeeds debited transaction.recipient
    transaction.amount (by omega)
  refine ⟨credited.setNonce transaction.sender (transaction.nonce + 1),
    applyTransaction_ok_iff.mpr ⟨_, debited, credited, _,
      ⟨relayable.structure_ok, fresh, nonce, debitOk, within, relayable.signed, debitedOk,
        creditedOk, nonceNext⟩, rfl⟩, ?_⟩
  unfold Mempool.execute
  rw [debitedOk]
  change (Except.toOption (debited.credit transaction.recipient transaction.amount)).bind _ = _
  rw [creditedOk]
  rfl

/-- The ledger of the next block during the selection: the same nonces, and at
least the balances the selection counts on. -/
structure Backs (working strict : LedgerState) : Prop where
  nonce : ∀ address, nonceOf strict address = nonceOf working address
  balance : ∀ address, working.balanceOf address ≤ strict.balanceOf address

theorem Backs.step {working strict working' strict' : LedgerState} {seen seen' : List Hash32}
    {transaction : Transaction} (backs : Backs working strict)
    (selected : applyTransaction working seen transaction = .ok working')
    (applied : applyTransaction strict seen' transaction = .ok strict') : Backs working' strict' where
  nonce address := by
    have left := (nonceOf_applyTransaction selected).2 address
    have right := (nonceOf_applyTransaction applied).2 address
    have same := backs.nonce address
    apply UInt64.toNat_inj.mp
    rw [left, right, same]
  balance address := by
    have left := (applyTransaction_moves selected).1 address
    have right := (applyTransaction_moves applied).1 address
    have below := backs.balance address
    omega

theorem Backs.matured {state next : LedgerState} {height : UInt64}
    (moved : ParitrNode.matured state height = .ok next) : Backs state next where
  nonce address := nonceOf_matured moved address
  balance address := by
    rw [(LedgerState.matured_ok moved).1 address]
    exact Nat.le_add_right _ _

/-! The selection, one transaction after another. -/

theorem candidate_ok {pool : Mempool} (sound : pool.Sound) {working : LedgerState}
    {included : List Hash32} {id : Hash32} {entry : MempoolEntry}
    (first : (pool.candidates working included).head? = some (id, entry)) :
    entry.transaction.id = id ∧ Relayable entry.transaction ∧ id ∉ included ∧
      entry.transaction.nonce = nonceOf working entry.transaction.sender ∧
      entry.transaction.amount.toNat + entry.transaction.fee.toNat ≤
        working.balanceOf entry.transaction.sender := by
  have member := List.mem_of_head? first
  unfold Mempool.candidates at member
  rw [List.mem_mergeSort, List.mem_filter] at member
  obtain ⟨listed, eligible⟩ := member
  obtain ⟨fresh, nonce, funded⟩ := of_decide_eq_true eligible
  obtain ⟨named, relayable⟩ := sound id entry (mem_toList.mp listed)
  have sum := saturatingAdd_of_lt relayable.fits.1
  have covered := UInt64.le_iff_toNat_le.mp funded
  rw [sum] at covered
  exact ⟨named, relayable, fresh, nonce.symm, covered⟩

theorem selectFrom_applies {pool : Mempool} (sound : pool.Sound) (maximum count : Nat)
    {working strict : LedgerState} (included : List Hash32) (selected : List Transaction)
    {fees : UInt64} (backs : Backs working strict)
    (small : working.totalBalance ≤ MAX_MONEY.toNat)
    (money : fees.toNat + strict.totalBalance ≤ MAX_MONEY.toNat) :
    ∃ rest, pool.selectFrom maximum count working included selected = some (selected ++ rest) ∧
      (∀ transaction ∈ rest, Relayable transaction) ∧
      ∃ result, applyFrom strict included fees rest = .ok result := by
  induction count generalizing working strict included selected fees with
  | zero =>
    refine ⟨[], ?_, List.forall_mem_nil _, _, rfl⟩
    rw [List.append_nil]
    rfl
  | succ count ih =>
    rw [Mempool.selectFrom]
    cases first : (pool.candidates working included).head? with
    | none =>
      refine ⟨[], ?_, List.forall_mem_nil _, _, rfl⟩
      rw [List.append_nil]
    | some item =>
      obtain ⟨id, entry⟩ := item
      obtain ⟨named, relayable, fresh, nonce, covered⟩ := candidate_ok sound first
      rw [← named] at fresh
      obtain ⟨working', walked, executed⟩ :=
        relayed_applies relayable fresh nonce covered small
      have strictNonce := nonce.trans (backs.nonce entry.transaction.sender).symm
      have strictCovered := Nat.le_trans covered (backs.balance entry.transaction.sender)
      obtain ⟨strict', applied, -⟩ := relayed_applies relayable fresh strictNonce strictCovered
        (Nat.le_trans (Nat.le_add_left _ _) money)
      have workingTotal := (applyTransaction_moves walked).2.2
      have strictTotal := (applyTransaction_moves applied).2.2
      have range : MAX_MONEY.toNat < 2 ^ 64 := MAX_MONEY.toNat_lt
      have added := checkedAdd_of_lt (a := fees) (b := entry.transaction.fee) (by omega)
      have sum := checkedAdd_some added
      have feesRange : fees + entry.transaction.fee ≤ MAX_MONEY :=
        UInt64.le_iff_toNat_le.mpr (by omega)
      dsimp only
      rw [executed]
      change ∃ rest, (if (selected ++ [entry.transaction]).length ≥ maximum then
        some (selected ++ [entry.transaction])
        else pool.selectFrom maximum count working' (id :: included)
          (selected ++ [entry.transaction])) = _ ∧ _
      split
      · refine ⟨[entry.transaction], rfl, ?_, _,
          applyFrom_cons_ok.mpr ⟨strict', _, applied, added, feesRange, rfl⟩⟩
        intro transaction member
        exact List.mem_singleton.mp member ▸ relayable
      · obtain ⟨rest, continued, all, result, later⟩ :=
          ih (id :: included) (selected ++ [entry.transaction]) (backs.step walked applied)
            (by omega) (show (fees + entry.transaction.fee).toNat + strict'.totalBalance ≤
              MAX_MONEY.toNat by omega)
        rw [← named] at later
        refine ⟨entry.transaction :: rest, ?_, ?_, result,
          applyFrom_cons_ok.mpr ⟨strict', _, applied, added, feesRange, later⟩⟩
        · rw [continued, List.append_assoc]
          rfl
        · intro transaction member
          cases List.mem_cons.mp member with
          | inl same => exact same ▸ relayable
          | inr inside => exact all transaction inside

/-- A selection ends, and applies after the rewards that mature with the block. -/
theorem select_matured {policy : RelayPolicy} {pool : Mempool} (reached : Mempool.Reachable policy pool)
    {state : LedgerState} (supply : state.supply ≤ MAX_MONEY.toNat) (height : UInt64) :
    ∃ selected next applied, pool.select state MAX_BLOCK_TRANSACTIONS = some selected ∧
      matured state (height + 1) = .ok next ∧ applyTransactions next selected = .ok applied := by
  obtain ⟨next, moved⟩ := LedgerState.matured_succeeds state (height + 1) supply
  have kept := (LedgerState.matured_ok moved).2.2.1
  unfold LedgerState.supply at supply kept
  have money : (0 : UInt64).toNat + next.totalBalance ≤ MAX_MONEY.toNat := by
    rw [UInt64.toNat_zero]
    omega
  obtain ⟨selected, chosen, _, applied, accepted⟩ := selectFrom_applies reached.sound
    MAX_BLOCK_TRANSACTIONS pool.entries.size [] [] (Backs.matured moved) (by omega) money
  exact ⟨selected, next, applied, chosen, moved, accepted⟩

/-- Whatever a pool selects on a ledger within the money range applies to the
matured ledger of the next block, in its order and without an overflow. -/
theorem select_applies {policy : RelayPolicy} {pool : Mempool}
    (reached : Mempool.Reachable policy pool) {state : LedgerState}
    (supply : state.supply ≤ MAX_MONEY.toNat) (height : UInt64) :
    ∃ selected, pool.select state MAX_BLOCK_TRANSACTIONS = some selected ∧
      (∀ transaction ∈ selected, transaction.amount.toNat + transaction.fee.toNat < 2 ^ 64 ∧
        transaction.nonce.toNat + 1 < 2 ^ 64) ∧
      ∃ next applied, matured state (height + 1) = .ok next ∧
        applyTransactions next selected = .ok applied := by
  obtain ⟨next, moved⟩ := LedgerState.matured_succeeds state (height + 1) supply
  have kept := (LedgerState.matured_ok moved).2.2.1
  unfold LedgerState.supply at supply kept
  have money : (0 : UInt64).toNat + next.totalBalance ≤ MAX_MONEY.toNat := by
    rw [UInt64.toNat_zero]
    omega
  obtain ⟨selected, chosen, all, applied, accepted⟩ := selectFrom_applies reached.sound
    MAX_BLOCK_TRANSACTIONS pool.entries.size [] [] (Backs.matured moved) (by omega) money
  exact ⟨selected, chosen, fun transaction member => (all transaction member).fits, next, applied,
    moved, accepted⟩

section Transfer

/-- Primitives under which every signature is good and every key is one address. -/
@[reducible] def permissive : Crypto :=
  { (default : Crypto) with
    publicKeyFromSlice := fun _ => some (FixedBytes.zero 65)
    signatureFromCompact := some
    verifyEcdsa := fun _ _ _ => true }

def transfer : Transaction :=
  { version := Transaction.VERSION
    sender := LedgerState.addressMin
    recipient := LedgerState.addressMax
    amount := 100000
    fee := 100000
    nonce := 0
    publicKey := List.replicate 33 0
    signature := List.replicate 64 0 }

omit [Crypto] in
/-- A pool after one transfer, on the ledger that funds it. -/
theorem transfer_selected :
    ∃ (_ : Crypto) (state : LedgerState) (selected : List Transaction),
      state.balanceOf transfer.sender = 1000000 ∧
      ((Mempool.new default).accept transfer state 0).2.select state MAX_BLOCK_TRANSACTIONS =
        some selected ∧
      ∃ next applied, matured state (0 + 1) = .ok next ∧
        applyTransactions next selected = .ok applied := by
  let _ := permissive
  let state := (default : LedgerState).setAccount transfer.sender ⟨1000000, 0⟩
  have balance : state.balanceOf transfer.sender = 1000000 := by
    unfold LedgerState.balanceOf
    rw [LedgerState.account_setAccount, if_pos rfl]
    rfl
  have totals := (default : LedgerState).setAccount_totalBalance transfer.sender ⟨1000000, 0⟩
  rw [LedgerState.balanceOf_default] at totals
  have nothing := LedgerState.supply_default
  have pending : state.totalPending = (default : LedgerState).totalPending := by
    unfold LedgerState.totalPending
    rw [LedgerState.setAccount_pendingRewards]
  have supply : state.supply ≤ MAX_MONEY.toNat := by
    have amount : (1000000 : UInt64).toNat = 1000000 := rfl
    have range : MAX_MONEY.toNat = 2 ^ 62 - 1 := rfl
    change state.totalBalance + 0 = _ + (1000000 : UInt64).toNat at totals
    unfold LedgerState.supply at nothing ⊢
    omega
  obtain ⟨selected, chosen, -, applies⟩ :=
    select_applies (Mempool.Reachable.new.accept transfer state 0) supply 0
  exact ⟨permissive, state, selected, balance, chosen, applies⟩

end Transfer

end ParitrNode
