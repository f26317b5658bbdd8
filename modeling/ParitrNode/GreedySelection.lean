import ParitrNode.Library.Greedy
import ParitrNode.MempoolOutcomes

/-!
The selection of the pool is the greedy one. Whatever order the hash map is
walked in, each round takes the transaction of the highest fee rate among those
that the working ledger can execute, so the entries and the ledger decide the
result.
-/

namespace ParitrNode
open OrderedMap Checked

namespace Mempool

/-! The loop over a hash map. -/

def candidatesIn (order : List (Hash32 × MempoolEntry)) (working : LedgerState)
    (included : List Hash32) : List (Hash32 × MempoolEntry) :=
  (order.filter fun (id, entry) =>
    decide (id ∉ included ∧
      (working.account entry.transaction.sender).nonce = entry.transaction.nonce ∧
      (working.account entry.transaction.sender).balance ≥
        saturatingAdd entry.transaction.amount entry.transaction.fee)).mergeSort byRate

variable [Crypto]

/-- The selection loop with the walk of every round given; `none` is a failing
`expect`, or a loop that has not ended after the rounds it was given. -/
def selectOrdered (orders : Nat → List (Hash32 × MempoolEntry)) (maximum : Nat) : Nat →
    LedgerState → List Hash32 → List Transaction → Option (List Transaction)
  | 0, _, _, _ => none
  | rounds + 1, working, included, selected =>
    match (candidatesIn (orders selected.length) working included).head? with
    | none => some selected
    | some (id, entry) => do
      let next ← execute working entry.transaction
      let selected := selected ++ [entry.transaction]
      if selected.length ≥ maximum then some selected
      else selectOrdered orders maximum rounds next (id :: included) selected

/-! What it is meant to pick. -/

omit [Crypto] in
def transactions (pool : Mempool) : Set Transaction :=
  {transaction | ∃ (id : Hash32) (entry : MempoolEntry),
    pool.entries[id]? = some entry ∧ entry.transaction = transaction}

structure Eligible (working : LedgerState) (transaction : Transaction) : Prop where
  nonce : transaction.nonce = nonceOf working transaction.sender
  covered : transaction.amount.toNat + transaction.fee.toNat ≤ working.balanceOf transaction.sender

/-- A higher fee for its size than the other, or the same and no higher id. -/
def Outbids (transaction other : Transaction) : Prop :=
  other.fee.toNat * transaction.consensusEncode.length <
      transaction.fee.toNat * other.consensusEncode.length ∨
    (other.fee.toNat * transaction.consensusEncode.length =
        transaction.fee.toNat * other.consensusEncode.length ∧
      (compare transaction.id other.id).isLE = true)

abbrev Picks (items : Set Transaction) (state : LedgerState) (picked : List Transaction)
    (last : LedgerState) : Prop := Greedy.Picks Eligible Outbids execute items state picked last

/-- Eligible transactions executed one after another, in any order. -/
abbrev Walks (items : Set Transaction) (state : LedgerState) (picked : List Transaction)
    (last : LedgerState) : Prop := Greedy.Picks Eligible (fun _ _ => True) execute items state picked last

/-- In whichever order pool transactions are executed, the next credit is within the money range. -/
def CreditsFit (pool : Mempool) (state : LedgerState) : Prop :=
  ∀ (executed : List Transaction) (working debited : LedgerState) (transaction : Transaction),
    Walks pool.transactions state executed working →
    transaction ∈ Greedy.rest pool.transactions executed → Eligible working transaction →
    working.debit transaction.sender (transaction.amount + transaction.fee) = .ok debited →
    ∃ credited, debited.credit transaction.recipient transaction.amount = .ok credited

/-! One executed transaction. -/

theorem execute_some {working next : LedgerState} {transaction : Transaction} :
    execute working transaction = some next ↔ ∃ debited credited,
      working.debit transaction.sender (transaction.amount + transaction.fee) = .ok debited ∧
        debited.credit transaction.recipient transaction.amount = .ok credited ∧
        credited.setNonce transaction.sender (transaction.nonce + 1) = next := by
  have answers : ∀ {outcome : Except ConsensusError LedgerState} {state : LedgerState},
      outcome.toOption = some state ↔ outcome = .ok state := by
    intro outcome state
    cases outcome with
    | error error => exact ⟨fun impossible => (nomatch impossible), fun impossible => (nomatch impossible)⟩
    | ok found => exact ⟨fun same => congrArg Except.ok (Option.some.inj same), fun same => same ▸ rfl⟩
  unfold execute
  simp only [Option.bind_eq_bind, Option.bind_eq_some_iff, answers, Option.pure_def, Option.some.injEq]
  constructor
  · intro ⟨debited, out, credited, into, result⟩
    exact ⟨debited, credited, out, into, result⟩
  · intro ⟨debited, credited, out, into, result⟩
    exact ⟨debited, out, credited, into, result⟩

theorem execute_applies {working next : LedgerState} {transaction : Transaction}
    (relayable : Relayable transaction) (eligible : Eligible working transaction)
    (executed : execute working transaction = some next) :
    applyTransaction working [] transaction = .ok next := by
  obtain ⟨debitFits, nonceFits⟩ := relayable.fits
  have debitOk := checkedAdd_of_lt debitFits
  have sum := checkedAdd_some debitOk
  have nonceNext := checkedAdd_of_lt (a := transaction.nonce) (b := 1) nonceFits
  have covered : transaction.amount + transaction.fee ≤ (working.account transaction.sender).balance := by
    rw [UInt64.le_iff_toNat_le, sum]
    exact eligible.covered
  obtain ⟨debited, credited, debitedOk, creditedOk, result⟩ := execute_some.mp executed
  exact applyTransaction_ok_iff.mpr ⟨_, debited, credited, _, ⟨relayable.structure_ok, List.not_mem_nil,
    eligible.nonce, debitOk, covered, relayable.signed, debitedOk, creditedOk, nonceNext⟩, result.symm⟩

theorem CreditsFit.executes {pool : Mempool} {state working : LedgerState} {executed : List Transaction}
    {transaction : Transaction} (fits : pool.CreditsFit state) (sound : pool.Sound)
    (walked : Walks pool.transactions state executed working)
    (left : transaction ∈ Greedy.rest pool.transactions executed)
    (eligible : Eligible working transaction) : ∃ next, execute working transaction = some next := by
  obtain ⟨id, entry, present, same⟩ := left.1
  have relayable : Relayable transaction := same ▸ (sound id entry present).2
  have sum := checkedAdd_some (checkedAdd_of_lt relayable.fits.1)
  have within : transaction.amount + transaction.fee ≤ (working.account transaction.sender).balance := by
    rw [UInt64.le_iff_toNat_le, sum]
    exact eligible.covered
  have debitedOk : ∃ debited,
      working.debit transaction.sender (transaction.amount + transaction.fee) = .ok debited :=
    ⟨_, bind_ok.mpr ⟨_, okOr_ok.mpr (checkedSub_of_le (UInt64.le_iff_toNat_le.mp within)), rfl⟩⟩
  obtain ⟨debited, debitedOk⟩ := debitedOk
  obtain ⟨credited, creditedOk⟩ := fits executed working debited transaction walked left eligible debitedOk
  exact ⟨_, execute_some.mpr ⟨debited, credited, debitedOk, creditedOk, rfl⟩⟩

/-- Executing pool transactions only ever takes their fees out of the ledger. -/
theorem Walks.totalBalance_le {pool : Mempool} (sound : pool.Sound) {state working : LedgerState}
    {executed : List Transaction} (walked : Walks pool.transactions state executed working) :
    working.totalBalance ≤ state.totalBalance := by
  apply walked.invariant (fun _ working => working.totalBalance ≤ state.totalBalance) (Nat.le_refl _)
  intro earlier middle next transaction below left eligible moved
  obtain ⟨id, entry, present, same⟩ := left.1
  have relayable : Relayable transaction := same ▸ (sound id entry present).2
  have total := (applyTransaction_moves (execute_applies relayable eligible moved)).2.2
  omega

theorem creditsFit_of_total {pool : Mempool} (sound : pool.Sound) {state : LedgerState}
    (bound : state.totalBalance ≤ MAX_MONEY.toNat) : pool.CreditsFit state := by
  intro executed working debited transaction walked left eligible debitedOk
  have relayable : Relayable transaction := by
    obtain ⟨id, entry, present, same⟩ := left.1
    exact same ▸ (sound id entry present).2
  have sum := checkedAdd_some (checkedAdd_of_lt relayable.fits.1)
  have below := Walks.totalBalance_le sound walked
  have totals := (LedgerState.debit_ok debitedOk).totalBalance
  have held := debited.balanceOf_le_total transaction.recipient
  exact debited.credit_succeeds transaction.recipient transaction.amount (by omega)

/-! One round. -/

theorem mem_transactions {pool : Mempool} (indexed : pool.Indexed) {transaction : Transaction} :
    transaction ∈ pool.transactions ↔ ∃ entry : MempoolEntry,
      pool.entries[transaction.id]? = some entry ∧ entry.transaction = transaction := by
  constructor
  · intro ⟨id, entry, present, same⟩
    have named := (indexed.keyed id entry present).1
    rw [same] at named
    rw [← named] at present
    exact ⟨entry, present, same⟩
  · intro ⟨entry, present, same⟩
    exact ⟨transaction.id, entry, present, same⟩

theorem Indexed.id_injective {pool : Mempool} (indexed : pool.Indexed) {first second : Transaction}
    (left : first ∈ pool.transactions) (right : second ∈ pool.transactions)
    (same : first.id = second.id) : first = second := by
  obtain ⟨entry, present, own⟩ := (mem_transactions indexed).mp left
  obtain ⟨other, present', own'⟩ := (mem_transactions indexed).mp right
  rw [same, present'] at present
  cases present
  exact own.symm.trans own'

omit [Crypto] in
theorem byRate_eq : byRate = fun left right => (CrossOrder.rankDown
    (fun item : Hash32 × MempoolEntry => item.2.transaction.fee.toNat) (fun item => item.2.size)
      Prod.fst left right).isLE := rfl

theorem Indexed.outbids {pool : Mempool} (indexed : pool.Indexed) {id other : Hash32}
    {entry rival : MempoolEntry} (present : pool.entries[id]? = some entry)
    (beside : pool.entries[other]? = some rival) :
    Outbids entry.transaction rival.transaction ↔ byRate (id, entry) (other, rival) = true := by
  obtain ⟨named, size⟩ := indexed.keyed id entry present
  obtain ⟨named', size'⟩ := indexed.keyed other rival beside
  rw [byRate_eq]
  dsimp only
  rw [CrossOrder.rankDown_eq, CrossOrder.rank_isLE]
  unfold Outbids
  rw [named, named', ← size, ← size']
  rfl

theorem outbids_iff {transaction other : Transaction} : Outbids transaction other ↔
    (CrossOrder.rankDown (fun item : Transaction => item.fee.toNat)
      (fun item => item.consensusEncode.length) Transaction.id transaction other).isLE = true := by
  rw [CrossOrder.rankDown_eq, CrossOrder.rank_isLE]
  rfl

theorem Outbids.trans {first second third : Transaction} (high : Outbids first second)
    (low : Outbids second third) : Outbids first third := by
  have positive : ∀ transaction : Transaction, 0 < transaction.consensusEncode.length := by
    intro transaction
    simp only [Transaction.consensusEncode, List.length_append, Writer.u16_length]
    omega
  rw [outbids_iff] at high low ⊢
  exact CrossOrder.rankDown_trans (positive first) (positive second) (positive third) high low

theorem outbids_total (first second : Transaction) : Outbids first second ∨ Outbids second first := by
  rw [outbids_iff, outbids_iff, ← Bool.or_eq_true]
  exact CrossOrder.rankDown_total first second

theorem Indexed.outbids_antisymm {pool : Mempool} (indexed : pool.Indexed) :
    ∀ first ∈ pool.transactions, ∀ second ∈ pool.transactions,
      Outbids first second → Outbids second first → first = second := by
  intro first left second right above below
  obtain ⟨entry, present, rfl⟩ := (mem_transactions indexed).mp left
  obtain ⟨rival, beside, rfl⟩ := (mem_transactions indexed).mp right
  rw [indexed.outbids present beside, byRate_eq] at above
  rw [indexed.outbids beside present, byRate_eq] at below
  have same := CrossOrder.rankDown_antisymm above below
  exact indexed.id_injective left right same

section Round

variable {pool : Mempool} (sound : pool.Sound) (indexed : pool.Indexed)
  {order : List (Hash32 × MempoolEntry)} (walk : order.Perm pool.entries.toList)
  {working : LedgerState} {selected : List Transaction}
include sound indexed walk

theorem mem_candidatesIn (held : ∀ transaction ∈ selected, transaction ∈ pool.transactions)
    {id : Hash32} {entry : MempoolEntry} :
    (id, entry) ∈ candidatesIn order working (selected.map Transaction.id).reverse ↔
      pool.entries[id]? = some entry ∧
        entry.transaction ∈ Greedy.rest pool.transactions selected ∧ Eligible working entry.transaction := by
  unfold candidatesIn
  rw [List.mem_mergeSort, List.mem_filter, walk.mem_iff, mem_toList, decide_eq_true_iff, List.mem_reverse]
  apply and_congr_right
  intro present
  obtain ⟨named, relayable⟩ := sound id entry present
  have sum := saturatingAdd_of_lt relayable.fits.1
  have member : entry.transaction ∈ pool.transactions := ⟨id, entry, present, rfl⟩
  have included : id ∈ selected.map Transaction.id ↔ entry.transaction ∈ selected := by
    rw [List.mem_map, ← named]
    constructor
    · intro ⟨other, inside, same⟩
      rw [← indexed.id_injective (held other inside) member same]
      exact inside
    · intro inside
      exact ⟨_, inside, rfl⟩
  rw [included, ge_iff_le, UInt64.le_iff_toNat_le, sum]
  constructor
  · intro ⟨fresh, nonce, covered⟩
    exact ⟨⟨member, fresh⟩, nonce.symm, covered⟩
  · intro ⟨left, eligible⟩
    exact ⟨left.2, eligible.nonce.symm, eligible.covered⟩

theorem round_none (held : ∀ transaction ∈ selected, transaction ∈ pool.transactions)
    (ended : (candidatesIn order working (selected.map Transaction.id).reverse).head? = none) :
    Greedy.Exhausted Eligible (Greedy.rest pool.transactions selected) working := by
  rw [List.head?_eq_none_iff] at ended
  intro transaction left eligible
  obtain ⟨id, entry, present, same⟩ := left.1
  rw [← same] at left eligible
  have candidate := (mem_candidatesIn sound indexed walk held).mpr ⟨present, left, eligible⟩
  rw [ended] at candidate
  cases candidate

theorem round_some (held : ∀ transaction ∈ selected, transaction ∈ pool.transactions)
    {id : Hash32} {entry : MempoolEntry}
    (chosen : (candidatesIn order working (selected.map Transaction.id).reverse).head? =
      some (id, entry)) :
    entry.transaction.id = id ∧ Greedy.First Eligible Outbids (Greedy.rest pool.transactions selected)
      working entry.transaction := by
  obtain ⟨present, left, eligible⟩ :=
    (mem_candidatesIn sound indexed walk held).mp (List.mem_of_head? chosen)
  refine ⟨(indexed.keyed id entry present).1, left, eligible, ?_⟩
  intro other beside also
  obtain ⟨key, rival, stored, same⟩ := beside.1
  rw [← same] at beside also ⊢
  have listed := (mem_candidatesIn sound indexed walk held).mpr ⟨stored, beside, also⟩
  have positive : ∀ item ∈ order.filter fun (id, entry) =>
      decide (id ∉ (selected.map Transaction.id).reverse ∧
        (working.account entry.transaction.sender).nonce = entry.transaction.nonce ∧
        (working.account entry.transaction.sender).balance ≥
          saturatingAdd entry.transaction.amount entry.transaction.fee), 0 < item.2.size :=
    fun item inside => indexed.size_pos (mem_toList.mp (walk.mem_iff.mp (List.mem_of_mem_filter inside)))
  unfold candidatesIn at chosen listed
  rw [List.mem_mergeSort] at listed
  rw [byRate_eq] at chosen
  rw [indexed.outbids present stored, byRate_eq]
  exact CrossOrder.rankDown_head positive chosen _ listed

end Round

theorem Indexed.length_le {pool : Mempool} (indexed : pool.Indexed) {selected : List Transaction}
    (distinct : selected.Nodup) (held : ∀ transaction ∈ selected, transaction ∈ pool.transactions) :
    selected.length ≤ pool.entries.size := by
  have keys : (selected.map Transaction.id).Nodup :=
    distinct.map_on fun first left second right same =>
      indexed.id_injective (held first left) (held second right) same
  have subset : selected.map Transaction.id ⊆ pool.entries.toList.map Prod.fst := by
    intro id member
    obtain ⟨transaction, inside, rfl⟩ := List.mem_map.mp member
    obtain ⟨entry, present, _⟩ := (mem_transactions indexed).mp (held transaction inside)
    exact List.mem_map.mpr ⟨_, mem_toList.mpr present, rfl⟩
  have fewer := (List.subperm_of_subset keys subset).length_le
  rwa [List.length_map, List.length_map, Std.ExtTreeMap.length_toList] at fewer

/-! The loop. -/

section Loop

variable {pool : Mempool} (sound : pool.Sound) (indexed : pool.Indexed) {state : LedgerState}
  {orders : Nat → List (Hash32 × MempoolEntry)} {maximum : Nat}
include sound indexed

omit sound indexed in
theorem included_cons {id : Hash32} {transaction : Transaction} (named : transaction.id = id)
    (selected : List Transaction) : id :: (selected.map Transaction.id).reverse =
      ((selected ++ [transaction]).map Transaction.id).reverse := by
  rw [List.map_append, List.reverse_append, ← named]
  rfl

omit sound indexed in
theorem Walks.snoc {items : Set Transaction} {working next : LedgerState} {selected : List Transaction}
    {transaction : Transaction} (walked : Walks items state selected working)
    (first : Greedy.First Eligible Outbids (Greedy.rest items selected) working transaction)
    (moved : execute working transaction = some next) : Walks items state (selected ++ [transaction]) next :=
  walked.append (Greedy.Picks.pick ⟨first.mem, first.admitted, fun _ _ _ => trivial⟩ moved
    (Greedy.Picks.done _ _))

/-- What a loop that ends adds to the transactions selected so far are greedy
picks, up to the maximum or until nothing is eligible. -/
theorem selectOrdered_picks (walks : ∀ round, (orders round).Perm pool.entries.toList) {rounds : Nat}
    {working : LedgerState} {selected result : List Transaction}
    (walked : Walks pool.transactions state selected working) (short : selected.length < maximum)
    (ended : selectOrdered orders maximum rounds working (selected.map Transaction.id).reverse selected =
      some result) :
    ∃ later last, result = selected ++ later ∧
      Picks (Greedy.rest pool.transactions selected) working later last ∧ result.length ≤ maximum ∧
      (result.length < maximum →
        Greedy.Exhausted Eligible (Greedy.rest pool.transactions result) last) := by
  induction rounds generalizing working selected with
  | zero => cases ended
  | succ rounds ih =>
    rw [selectOrdered] at ended
    cases chosen : (candidatesIn (orders selected.length) working
        (selected.map Transaction.id).reverse).head? with
    | none =>
      rw [chosen] at ended
      cases ended
      refine ⟨[], working, (List.append_nil _).symm, Greedy.Picks.done _ _, Nat.le_of_lt short, ?_⟩
      exact fun _ => round_none sound indexed (walks _) walked.mem chosen
    | some item =>
      obtain ⟨id, entry⟩ := item
      obtain ⟨named, first⟩ := round_some sound indexed (walks _) walked.mem chosen
      rw [chosen] at ended
      obtain ⟨next, moved, later⟩ := Option.bind_eq_some_iff.mp ended
      dsimp only at later
      rw [included_cons named] at later
      by_cases full : (selected ++ [entry.transaction]).length ≥ maximum
      · rw [if_pos full] at later
        cases later
        have counted : (selected ++ [entry.transaction]).length = selected.length + 1 :=
          List.length_append
        refine ⟨[entry.transaction], next, rfl, Greedy.Picks.pick first moved (Greedy.Picks.done _ _), ?_, ?_⟩
        · omega
        · intro less
          omega
      · rw [if_neg full] at later
        obtain ⟨more, last, same, picks, bound, ends⟩ :=
          ih (walked.snoc first moved) (Nat.not_le.mp full) later
        rw [List.append_assoc] at same
        refine ⟨entry.transaction :: more, last, same, Greedy.Picks.pick first moved ?_, bound, ends⟩
        rw [Greedy.rest_rest]
        exact picks

/-- Where the credits fit the loop ends, within a round for each entry that is left. -/
theorem selectOrdered_ends (walks : ∀ round, (orders round).Perm pool.entries.toList)
    (fits : pool.CreditsFit state) {rounds : Nat} {working : LedgerState} {selected : List Transaction}
    (walked : Walks pool.transactions state selected working)
    (enough : pool.entries.size < selected.length + rounds) :
    ∃ result, selectOrdered orders maximum rounds working (selected.map Transaction.id).reverse selected =
      some result := by
  induction rounds generalizing working selected with
  | zero =>
    have fewer := indexed.length_le walked.nodup walked.mem
    omega
  | succ rounds ih =>
    rw [selectOrdered]
    cases chosen : (candidatesIn (orders selected.length) working
        (selected.map Transaction.id).reverse).head? with
    | none => exact ⟨selected, rfl⟩
    | some item =>
      obtain ⟨id, entry⟩ := item
      obtain ⟨named, first⟩ := round_some sound indexed (walks _) walked.mem chosen
      obtain ⟨next, moved⟩ := fits.executes sound walked first.mem first.admitted
      dsimp only
      rw [moved, included_cons named]
      change ∃ result, (if (selected ++ [entry.transaction]).length ≥ maximum then
        some (selected ++ [entry.transaction]) else _) = some result
      by_cases full : (selected ++ [entry.transaction]).length ≥ maximum
      · rw [if_pos full]
        exact ⟨_, rfl⟩
      · rw [if_neg full]
        apply ih (walked.snoc first moved)
        rw [List.length_append, List.length_singleton]
        omega

/-- The loop of `select` needs no round for the empty list of candidates at its end. -/
theorem selectFrom_eq {rounds : Nat} {working : LedgerState} {selected : List Transaction}
    (walked : Walks pool.transactions state selected working)
    (enough : pool.entries.size ≤ selected.length + rounds) :
    pool.selectFrom maximum rounds working (selected.map Transaction.id).reverse selected =
      selectOrdered (fun _ => pool.entries.toList) maximum (rounds + 1) working
        (selected.map Transaction.id).reverse selected := by
  have walk : pool.entries.toList.Perm pool.entries.toList := List.Perm.refl _
  induction rounds generalizing working selected with
  | zero =>
    rw [selectOrdered]
    cases chosen : (candidatesIn pool.entries.toList working
        (selected.map Transaction.id).reverse).head? with
    | none => rfl
    | some item =>
      -- one transaction more than the pool holds
      obtain ⟨id, entry⟩ := item
      obtain ⟨_, first⟩ := round_some sound indexed walk walked.mem chosen
      have distinct : (entry.transaction :: selected).Nodup :=
        List.nodup_cons.mpr ⟨first.mem.2, walked.nodup⟩
      have fewer := indexed.length_le distinct
        (List.forall_mem_cons.mpr ⟨first.mem.1, walked.mem⟩)
      rw [List.length_cons] at fewer
      omega
  | succ rounds ih =>
    rw [selectOrdered, selectFrom, show pool.candidates working (selected.map Transaction.id).reverse =
      candidatesIn pool.entries.toList working (selected.map Transaction.id).reverse from rfl]
    cases chosen : (candidatesIn pool.entries.toList working
        (selected.map Transaction.id).reverse).head? with
    | none => rfl
    | some item =>
      obtain ⟨id, entry⟩ := item
      obtain ⟨named, first⟩ := round_some sound indexed walk walked.mem chosen
      dsimp only
      cases moved : execute working entry.transaction with
      | none => rfl
      | some next =>
        rw [included_cons named]
        change (if (selected ++ [entry.transaction]).length ≥ maximum then
          some (selected ++ [entry.transaction]) else _) =
            if (selected ++ [entry.transaction]).length ≥ maximum then
              some (selected ++ [entry.transaction]) else _
        by_cases full : (selected ++ [entry.transaction]).length ≥ maximum
        · rw [if_pos full, if_pos full]
        · rw [if_neg full, if_neg full]
          apply ih (walked.snoc first moved)
          rw [List.length_append, List.length_singleton]
          omega

end Loop

section Selected

variable {policy : RelayPolicy} {pool : Mempool} (reachable : Reachable policy pool)
  {state : LedgerState} {maximum : Nat}
include reachable

theorem Reachable.ordered_picks {orders : Nat → List (Hash32 × MempoolEntry)} {rounds : Nat}
    {selected : List Transaction} (positive : 1 ≤ maximum)
    (walks : ∀ round, (orders round).Perm pool.entries.toList)
    (ended : selectOrdered orders maximum rounds state [] [] = some selected) :
    ∃ last, Picks pool.transactions state selected last ∧ selected.length ≤ maximum ∧
      (selected.length < maximum →
        Greedy.Exhausted Eligible (Greedy.rest pool.transactions selected) last) := by
  have start : Walks pool.transactions state [] state := Greedy.Picks.done _ _
  obtain ⟨later, last, same, picks, bound, ends⟩ :=
    selectOrdered_picks reachable.sound reachable.consistent.indexed walks start positive ended
  rw [List.nil_append] at same
  rw [Greedy.rest_nil, ← same] at picks
  exact ⟨last, picks, bound, ends⟩

theorem Reachable.select_eq : pool.select state maximum =
    selectOrdered (fun _ => pool.entries.toList) maximum (pool.entries.size + 1) state [] [] := by
  have start : Walks pool.transactions state [] state := Greedy.Picks.done _ _
  apply selectFrom_eq reachable.sound reachable.consistent.indexed start
  rw [List.length_nil, Nat.zero_add]

theorem Reachable.select_picks {selected : List Transaction} (positive : 1 ≤ maximum)
    (chosen : pool.select state maximum = some selected) :
    ∃ last, Picks pool.transactions state selected last ∧ selected.length ≤ maximum ∧
      (selected.length < maximum →
        Greedy.Exhausted Eligible (Greedy.rest pool.transactions selected) last) := by
  rw [reachable.select_eq] at chosen
  exact reachable.ordered_picks positive (fun _ => List.Perm.refl _) chosen

theorem Reachable.ordered_ends (fits : pool.CreditsFit state)
    {orders : Nat → List (Hash32 × MempoolEntry)} {rounds : Nat}
    (walks : ∀ round, (orders round).Perm pool.entries.toList) (enough : pool.entries.size < rounds) :
    ∃ selected, selectOrdered orders maximum rounds state [] [] = some selected := by
  have start : Walks pool.transactions state [] state := Greedy.Picks.done _ _
  apply selectOrdered_ends reachable.sound reachable.consistent.indexed walks fits start
  rwa [List.length_nil, Nat.zero_add]

theorem Reachable.select_some (fits : pool.CreditsFit state) :
    ∃ selected, pool.select state maximum = some selected := by
  rw [reachable.select_eq]
  exact reachable.ordered_ends fits (fun _ => List.Perm.refl _) (Nat.lt_succ_self _)

end Selected

/-- The selection is the greedy one, and the transactions of the pool and the
ledger decide it. -/
theorem selection_greedy {policy : RelayPolicy} {pool : Mempool} (reachable : Reachable policy pool)
    {state : LedgerState} (fits : pool.CreditsFit state) {maximum : Nat} (positive : 1 ≤ maximum) :
    ∃ selected : List Transaction, pool.select state maximum = some selected ∧
      (∀ (orders : Nat → List (Hash32 × MempoolEntry)) (rounds : Nat),
        (∀ round, (orders round).Perm pool.entries.toList) → pool.entries.size < rounds →
        selectOrdered orders maximum rounds state [] [] = some selected) ∧
      selected.Nodup ∧ selected.length ≤ maximum ∧
      (∀ (index : Nat) (transaction : Transaction), selected[index]? = some transaction →
        ∃ working, (selected.take index).foldlM execute state = some working ∧
          Greedy.First Eligible Outbids (Greedy.rest pool.transactions (selected.take index))
            working transaction) ∧
      (selected.length < maximum → ∃ working, selected.foldlM execute state = some working ∧
        Greedy.Exhausted Eligible (Greedy.rest pool.transactions selected) working) ∧
      ∀ (policy' : RelayPolicy) (other : Mempool), Reachable policy' other →
        other.transactions = pool.transactions → other.select state maximum = some selected := by
  have antisymm := reachable.consistent.indexed.outbids_antisymm
  have chosen : ∃ selected, pool.select state maximum = some selected := reachable.select_some fits
  obtain ⟨selected, result⟩ := chosen
  obtain ⟨last, picks, bound, ended⟩ := reachable.select_picks positive result
  refine ⟨selected, result, ?_, picks.nodup, bound, ?_, ?_, ?_⟩
  · intro orders rounds walks enough
    obtain ⟨other, result'⟩ := reachable.ordered_ends fits walks enough
    obtain ⟨finish, others, bound', ended'⟩ := reachable.ordered_picks positive walks result'
    rw [result', picks.unique antisymm others bound bound' ended ended']
  · intro index transaction found
    obtain ⟨working, head, first⟩ := picks.at found
    exact ⟨working, head.advances, first⟩
  · intro short
    exact ⟨last, picks.advances, ended short⟩
  · intro policy' other reachable' same
    have fits' : other.CreditsFit state := by
      unfold CreditsFit at fits ⊢
      rwa [same]
    obtain ⟨chosen, result'⟩ := reachable'.select_some fits'
    obtain ⟨finish, others, bound', ended'⟩ := reachable'.select_picks positive result'
    rw [same] at others ended'
    rw [result', picks.unique antisymm others bound bound' ended ended']

end Mempool

end ParitrNode
