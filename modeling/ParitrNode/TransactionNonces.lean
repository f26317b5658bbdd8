import ParitrNode.BodyCommitment

/-!
No replay. The nonce of an account counts the transactions its address has
sent, and each of them carried the count before it.
-/

namespace ParitrNode
open ByteCodec OrderedMap Checked

def nonceOf (state : LedgerState) (address : Address) : UInt64 := (state.account address).nonce

def transactionsFrom (sender : Address) (transactions : List Transaction) : List Transaction :=
  transactions.filter (fun transaction => transaction.sender = sender)

theorem transactionsFrom_append (sender : Address) (first second : List Transaction) :
    transactionsFrom sender (first ++ second) =
      transactionsFrom sender first ++ transactionsFrom sender second := List.filter_append ..

theorem transactionsFrom_cons (sender : Address) (transaction : Transaction)
    (rest : List Transaction) : transactionsFrom sender (transaction :: rest) =
      if transaction.sender = sender then transaction :: transactionsFrom sender rest
      else transactionsFrom sender rest := by
  unfold transactionsFrom
  rw [List.filter_cons]
  by_cases own : transaction.sender = sender
  · rw [if_pos (decide_eq_true own), if_pos own]
  · rw [if_neg (by simpa using own), if_neg own]

def Counts (start stop : Nat) (transactions : List Transaction) : Prop :=
  transactions.map (fun transaction => transaction.nonce.toNat) = List.range' start (stop - start) ∧
    start ≤ stop

theorem Counts.nil (start : Nat) : Counts start start [] := by
  refine ⟨?_, Nat.le_refl start⟩
  rw [Nat.sub_self]
  rfl

theorem Counts.append {start middle stop : Nat} {first second : List Transaction}
    (left : Counts start middle first) (right : Counts middle stop second) :
    Counts start stop (first ++ second) := by
  obtain ⟨nonces, below⟩ := left
  obtain ⟨nonces', below'⟩ := right
  refine ⟨?_, Nat.le_trans below below'⟩
  have split : stop - start = (middle - start) + (stop - middle) := by omega
  have shift : start + (middle - start) = middle := by omega
  rw [List.map_append, nonces, nonces', split, ← List.range'_append_1, shift]

theorem Counts.length {stop : Nat} {transactions : List Transaction}
    (counts : Counts 0 stop transactions) : transactions.length = stop := by
  have lengths := congrArg List.length counts.1
  rw [List.length_map, List.length_range'] at lengths
  exact lengths

section Nonces

variable [Crypto]

/-! Only an accepted transaction moves a nonce. -/

theorem nonceOf_setAccount (state : LedgerState) (address other : Address) (account : Account) :
    nonceOf (state.setAccount address account) other =
      if address = other then account.nonce else nonceOf state other := by
  unfold nonceOf
  rw [LedgerState.account_setAccount]
  split <;> rfl

theorem nonceOf_balance (state : LedgerState) (address other : Address) (balance : UInt64) :
    nonceOf (state.setAccount address { state.account address with balance }) other =
      nonceOf state other := by
  rw [nonceOf_setAccount]
  split
  next same => rw [← same]; rfl
  next => rfl

theorem nonceOf_credit {state next : LedgerState} {address : Address} {amount : UInt64}
    (credited : state.credit address amount = .ok next) (other : Address) :
    nonceOf next other = nonceOf state other := by
  unfold LedgerState.credit at credited
  simp only [bind_ok] at credited
  obtain ⟨balance, -, result⟩ := credited
  rw [← Except.ok.inj result]
  exact nonceOf_balance state address other balance

theorem nonceOf_debit {state next : LedgerState} {address : Address} {amount : UInt64}
    (debited : state.debit address amount = .ok next) (other : Address) :
    nonceOf next other = nonceOf state other := by
  unfold LedgerState.debit at debited
  simp only [bind_ok] at debited
  obtain ⟨balance, -, result⟩ := debited
  rw [← Except.ok.inj result]
  exact nonceOf_balance state address other balance

theorem nonceOf_matureAll {height : UInt64} {due : List (Address × UInt64)} {state next : LedgerState}
    (moved : LedgerState.matureAll height due state = (.ok (), next)) (other : Address) :
    nonceOf next other = nonceOf state other := by
  induction due generalizing state with
  | nil =>
    cases moved
    rfl
  | cons entry rest ih =>
    rw [LedgerState.matureAll] at moved
    cases credited : (state.removePending height entry.1).credit entry.1 entry.2 with
    | error error =>
      rw [credited] at moved
      cases moved
    | ok middle =>
      rw [credited] at moved
      rw [ih moved, nonceOf_credit credited]
      rfl

theorem nonceOf_matured {state next : LedgerState} {height : UInt64}
    (moved : matured state height = .ok next) (other : Address) :
    nonceOf next other = nonceOf state other := by
  unfold matured LedgerState.mature at moved
  cases loop : LedgerState.matureAll height (state.maturing height) state with
  | mk result left =>
    rw [loop] at moved
    cases result with
    | error error => cases moved
    | ok =>
      cases moved
      exact nonceOf_matureAll loop other

theorem nonceOf_applyTransaction {state next : LedgerState} {seen : List Hash32}
    {transaction : Transaction} (applied : applyTransaction state seen transaction = .ok next) :
    transaction.nonce = nonceOf state transaction.sender ∧
      ∀ sender, (nonceOf next sender).toNat =
        (nonceOf state sender).toNat + if transaction.sender = sender then 1 else 0 := by
  obtain ⟨debit, debited, credited, nonce, steps, rfl⟩ := applyTransaction_ok_iff.mp applied
  have kept : ∀ sender, nonceOf credited sender = nonceOf state sender := by
    intro sender
    rw [nonceOf_credit steps.creditedOk, nonceOf_debit steps.debitedOk]
  refine ⟨steps.nonceOk, ?_⟩
  intro sender
  unfold LedgerState.setNonce
  rw [nonceOf_setAccount]
  by_cases own : transaction.sender = sender
  · have next := checkedAdd_some steps.nonceNext
    rw [if_pos own, if_pos own, ← own, next, steps.nonceOk]
    rfl
  · rw [if_neg own, if_neg own, kept]
    rfl

theorem applyFrom_counts {state : LedgerState} {seen : List Hash32} {totalFees : UInt64}
    {transactions : List Transaction} {result : LedgerState × UInt64}
    (accepted : applyFrom state seen totalFees transactions = .ok result) (sender : Address) :
    Counts (nonceOf state sender).toNat (nonceOf result.1 sender).toNat
      (transactionsFrom sender transactions) := by
  induction transactions generalizing state seen totalFees with
  | nil =>
    cases accepted
    exact Counts.nil _
  | cons transaction rest ih =>
    obtain ⟨next, fees, applied, -, -, later⟩ := applyFrom_cons_ok.mp accepted
    obtain ⟨carried, moved⟩ := nonceOf_applyTransaction applied
    have tail := ih later
    rw [moved sender] at tail
    rw [transactionsFrom_cons]
    by_cases own : transaction.sender = sender
    · rw [if_pos own] at tail ⊢
      have head : Counts (nonceOf state sender).toNat ((nonceOf state sender).toNat + 1)
          [transaction] := by
        refine ⟨?_, Nat.le_add_right _ 1⟩
        rw [Nat.add_sub_cancel_left, List.map_singleton, carried, own]
        rfl
      exact head.append tail
    · rw [if_neg own] at tail ⊢
      exact tail

omit [Crypto] in
theorem nonceOf_of_accounts {state next : LedgerState} (accounts : next.accounts = state.accounts)
    (sender : Address) : nonceOf next sender = nonceOf state sender := by
  unfold nonceOf LedgerState.account
  rw [accounts]

theorem accepted_counts {block : Block} {history : List Block} {state next : LedgerState}
    {pow : PowVerifier} {now : UInt64} (accepted : Accepted block history state pow now next)
    (sender : Address) :
    Counts (nonceOf state sender).toNat (nonceOf next sender).toNat
      (transactionsFrom sender block.transactions) := by
  obtain ⟨parent, seed, target, claim, transition, checks, rfl⟩ := accepted
  obtain ⟨maturedState, appliedState, maturity, finderState, steps⟩ :=
    transitionForCandidate_ok_iff.mp checks.transitionOk
  have before := nonceOf_matured steps.maturedOk sender
  have finder := (LedgerState.scheduleReward_ok steps.finderOk).accounts
  have shares := (LedgerState.scheduleRewards_ok steps.sharesOk).1
  have after := nonceOf_of_accounts (shares.trans finder) sender
  rw [← before, after]
  exact applyFrom_counts steps.appliedOk sender

/-- The invariant of a history: one nonce after another for each sender. -/
theorem ValidHistory.counts {pow : PowVerifier} {history : List Block} {state : LedgerState}
    (valid : ValidHistory pow history state) (sender : Address) :
    Counts 0 (nonceOf state sender).toNat
      (transactionsFrom sender (history.flatMap Block.transactions)) := by
  induction valid with
  | genesis =>
    have fresh : nonceOf default sender = 0 := by
      unfold nonceOf LedgerState.account
      change (((∅ : BTreeMap Address Account)[sender]?).getD default).nonce = 0
      rw [get_empty]
      rfl
    rw [fresh]
    exact Counts.nil 0
  | extend earlier above accepted ih =>
    rw [List.flatMap_append, transactionsFrom_append, List.flatMap_singleton]
    exact ih.append (accepted_counts accepted sender)

theorem ValidHistory.nonceOf_bare {pow : PowVerifier} {history : List Block} {state : LedgerState}
    (valid : ValidHistory pow history state) (bare : history.flatMap Block.transactions = [])
    (sender : Address) : nonceOf state sender = 0 := by
  have counted := (valid.counts sender).1
  rw [bare] at counted
  have sent := congrArg List.length counted
  change 0 = (List.range' 0 _).length at sent
  rw [List.length_range'] at sent
  exact UInt64.toNat_inj.mp sent.symm

/-- Consecutive nonces are different, so sender and nonce name one transaction. -/
theorem ValidHistory.slots_nodup {pow : PowVerifier} {history : List Block} {state : LedgerState}
    (valid : ValidHistory pow history state) :
    ((history.flatMap Block.transactions).map
      (fun transaction => (transaction.sender, transaction.nonce))).Nodup := by
  rw [List.Nodup, List.pairwise_map, List.pairwise_iff_forall_sublist]
  intro first second sublist same
  obtain ⟨senders, nonces⟩ := Prod.mk.inj same
  have own := sublist.filter (fun transaction => decide (transaction.sender = first.sender))
  rw [List.filter_cons, if_pos (decide_eq_true rfl), List.filter_cons,
    if_pos (decide_eq_true senders.symm), List.filter_nil] at own
  have distinct : ((transactionsFrom first.sender (history.flatMap Block.transactions)).map
      (fun transaction => transaction.nonce.toNat)).Nodup := by
    rw [(valid.counts first.sender).1]
    exact List.nodup_range'
  have pair := distinct.sublist (own.map fun transaction => transaction.nonce.toNat)
  rw [List.map_cons, List.map_cons, List.nodup_cons] at pair
  exact pair.1 (by rw [nonces]; exact List.mem_cons_self)

theorem ValidHistory.wellFormed {pow : PowVerifier} {history : List Block} {state : LedgerState}
    (valid : ValidHistory pow history state) :
    ∀ transaction ∈ history.flatMap Block.transactions, WellFormed transaction := by
  induction valid with
  | genesis => exact fun transaction inside => nomatch inside
  | extend earlier above accepted ih =>
    intro transaction member
    rw [List.flatMap_append, List.flatMap_singleton] at member
    cases List.mem_append.mp member with
    | inl earlier => exact ih transaction earlier
    | inr new =>
      obtain ⟨_, _, _, _, _, checks, -⟩ := accepted
      exact (transitionForCandidate_wellFormed checks.transitionOk).1 transaction new

def idInputs (transactions : List Transaction) : Set (String × Bytes) :=
  { query | ∃ transaction ∈ transactions,
      query = ("PARITR-P9-TXID-v1", transaction.consensusEncode) }

theorem ids_nodup {transactions : List Transaction}
    (formed : ∀ transaction ∈ transactions, WellFormed transaction)
    (slots : (transactions.map
      (fun transaction => (transaction.sender, transaction.nonce))).Nodup)
    (free : CollisionFree (idInputs transactions)) :
    (transactions.map Transaction.id).Nodup := by
  rw [List.Nodup, List.pairwise_map] at slots ⊢
  refine List.Pairwise.imp_of_mem ?_ slots
  intro first second left right different same
  have encoded := free.data_eq ⟨first, left, rfl⟩ ⟨second, right, rfl⟩ same
  rw [separates_transaction.injective (formed first left) (formed second right) encoded] at different
  exact different rfl

/-- No replay: each sender's nonces count up from zero in chain order, its
account holds the count, and no slot or id is used twice. -/
theorem sender_nonces_count {pow : PowVerifier} {chain : Chain} (reachable : chain.Reachable pow) :
    (∀ sender,
      (transactionsFrom sender (chain.blocks.flatMap Block.transactions)).map
          (fun transaction => transaction.nonce.toNat) =
        List.range (transactionsFrom sender (chain.blocks.flatMap Block.transactions)).length ∧
      (chain.state.account sender).nonce.toNat =
        (transactionsFrom sender (chain.blocks.flatMap Block.transactions)).length) ∧
    ((chain.blocks.flatMap Block.transactions).map
      (fun transaction => (transaction.sender, transaction.nonce))).Nodup ∧
    (CollisionFree (idInputs (chain.blocks.flatMap Block.transactions)) →
      ((chain.blocks.flatMap Block.transactions).map Transaction.id).Nodup) := by
  have valid := reachable.valid
  refine ⟨?_, valid.slots_nodup, ids_nodup valid.wellFormed valid.slots_nodup⟩
  intro sender
  have counts := valid.counts sender
  refine ⟨?_, counts.length.symm⟩
  rw [counts.length, counts.1, Nat.sub_zero, List.range_eq_range']

end Nonces

end ParitrNode
