import ParitrNode.GreedySelection
import ParitrNode.StaleEntries

/-!
The queue of a sender. The transactions of an address at consecutive nonces from
its account nonce on are affordable together, whatever was accepted, replaced,
trimmed or removed, and the selection takes all of them.
-/

namespace ParitrNode
open OrderedMap Checked

def Transaction.cost (transaction : Transaction) : Nat :=
  transaction.amount.toNat + transaction.fee.toNat

def totalCost (transactions : List Transaction) : Nat := (transactions.map Transaction.cost).sum

theorem totalCost_cons (transaction : Transaction) (rest : List Transaction) :
    totalCost (transaction :: rest) = transaction.cost + totalCost rest := List.sum_cons

theorem totalCost_append (first second : List Transaction) :
    totalCost (first ++ second) = totalCost first + totalCost second := by
  unfold totalCost
  rw [List.map_append, List.sum_append]

namespace Mempool

/-- The transactions of a sender at consecutive nonces from one on, as far as the pool has them. -/
inductive Run (pool : Mempool) (sender : Address) : Nat → List Transaction → Prop
  | stop {nonce : Nat} (free : ∀ transaction ∈ pool.transactions, transaction.sender = sender →
      transaction.nonce.toNat ≠ nonce) : Run pool sender nonce []
  | next {nonce : Nat} {transaction : Transaction} {rest : List Transaction}
      (held : transaction ∈ pool.transactions) (own : transaction.sender = sender)
      (slot : transaction.nonce.toNat = nonce) (more : Run pool sender (nonce + 1) rest) :
      Run pool sender nonce (transaction :: rest)

section Runs

variable {pool : Mempool} {sender : Address} {nonce : Nat} {run : List Transaction}

theorem exists_run (pool : Mempool) (sender : Address) (nonce : Nat) :
    ∃ run, Run pool sender nonce run := by
  have below : ∀ count nonce : Nat, 2 ^ 64 ≤ nonce + count → ∃ run, Run pool sender nonce run := by
    intro count
    induction count with
    | zero =>
      intro nonce above
      refine ⟨[], Run.stop fun transaction _ _ same => ?_⟩
      have range := transaction.nonce.toNat_lt
      omega
    | succ count ih =>
      intro nonce above
      by_cases taken : ∃ transaction ∈ pool.transactions, transaction.sender = sender ∧
          transaction.nonce.toNat = nonce
      · obtain ⟨transaction, held, own, slot⟩ := taken
        obtain ⟨rest, more⟩ := ih (nonce + 1) (by omega)
        exact ⟨transaction :: rest, Run.next held own slot more⟩
      · exact ⟨[], Run.stop fun transaction held own slot => taken ⟨transaction, held, own, slot⟩⟩
  exact below (2 ^ 64) nonce (Nat.le_add_left _ _)

theorem Run.mem (queued : Run pool sender nonce run) {index : Nat} {transaction : Transaction}
    (found : run[index]? = some transaction) : transaction ∈ pool.transactions ∧
      transaction.sender = sender ∧ transaction.nonce.toNat = nonce + index := by
  induction queued generalizing index with
  | stop free => cases found
  | next held own slot more ih =>
    cases index with
    | zero =>
      cases found
      exact ⟨held, own, slot⟩
    | succ index =>
      obtain ⟨inside, same, place⟩ := ih found
      exact ⟨inside, same, by omega⟩

theorem Run.free (queued : Run pool sender nonce run) {transaction : Transaction}
    (held : transaction ∈ pool.transactions) (own : transaction.sender = sender) :
    transaction.nonce.toNat ≠ nonce + run.length := by
  induction queued with
  | stop free => exact free transaction held own
  | next _ _ _ _ ih =>
    rw [List.length_cons]
    omega

theorem Run.drop (queued : Run pool sender nonce run) {taken rest : List Transaction}
    (split : run = taken ++ rest) : Run pool sender (nonce + taken.length) rest := by
  induction taken generalizing nonce run with
  | nil =>
    rw [List.nil_append] at split
    exact split ▸ queued
  | cons first taken ih =>
    cases queued with
    | stop free => cases split
    | next held own slot more =>
      obtain ⟨_, same⟩ := List.cons.inj split
      have later := ih more same
      rwa [List.length_cons, ← Nat.add_assoc, Nat.add_right_comm]

variable [Crypto]

theorem Indexed.slot_injective (indexed : pool.Indexed) {first second : Transaction}
    (left : first ∈ pool.transactions) (right : second ∈ pool.transactions)
    (senders : first.sender = second.sender) (nonces : first.nonce.toNat = second.nonce.toNat) :
    first = second := by
  obtain ⟨id, entry, present, same⟩ := left
  obtain ⟨other, rival, beside, same'⟩ := right
  have slots : entry.slot = rival.slot := by
    unfold MempoolEntry.slot
    rw [same, same', senders, UInt64.toNat_inj.mp nonces]
  have ids := indexed.unique present beside slots
  rw [ids, beside] at present
  cases present
  exact same.symm.trans same'

theorem Run.shorter {fewer : Mempool} (indexed : pool.Indexed)
    (within : fewer.transactions ⊆ pool.transactions) {cut : List Transaction}
    (queued : Run pool sender nonce run) (kept : Run fewer sender nonce cut) : cut <+: run := by
  induction kept generalizing run with
  | stop free => exact List.nil_prefix
  | next held own slot more ih =>
    cases queued with
    | stop free => exact absurd slot (free _ (within held) own)
    | next held' own' slot' more' =>
      have same := indexed.slot_injective (within held) held' (own.trans own'.symm) (slot.trans slot'.symm)
      rw [same]
      exact List.cons_prefix_cons.mpr ⟨rfl, ih more'⟩

theorem Run.unique (indexed : pool.Indexed) {other : List Transaction}
    (queued : Run pool sender nonce run) (again : Run pool sender nonce other) : run = other := by
  have below := Run.shorter indexed (Set.Subset.refl _) again queued
  have above := Run.shorter indexed (Set.Subset.refl _) queued again
  exact below.eq_of_length_le above.length_le

end Runs

/-! The funding check. -/

theorem mem_senderQueue {pool : Mempool} {sender : Address} {nonce : UInt64}
    {item : (Address × UInt64) × Hash32} : item ∈ pool.senderQueue sender nonce ↔
      pool.bySenderNonce[item.1]? = some item.2 ∧ item.1.1 = sender ∧ nonce ≤ item.1.2 := by
  obtain ⟨⟨other, slot⟩, id⟩ := item
  have lower : compare (sender, nonce) (other, slot) = (compare sender other).then (compare nonce slot) := rfl
  have upper : compare (other, slot) (sender, UInt64.ofNat (2 ^ 64 - 1)) =
      (compare other sender).then (compare slot (UInt64.ofNat (2 ^ 64 - 1))) := rfl
  have top : slot ≤ UInt64.ofNat (2 ^ 64 - 1) := by
    have bound := slot.toNat_lt
    rw [UInt64.le_iff_toNat_le]
    change slot.toNat ≤ 2 ^ 64 - 1
    omega
  unfold senderQueue
  rw [List.mem_filter, mem_toList]
  apply and_congr_right
  intro _
  dsimp only
  rw [Bool.and_eq_true, lower, upper]
  by_cases same : other = sender
  · subst same
    have self : compare other other = Ordering.eq := Std.ReflCmp.compare_self
    rw [self]
    change (compare nonce slot).isLE = true ∧ (compare slot _).isLE = true ↔ _
    rw [Std.isLE_compare, Std.isLE_compare]
    exact ⟨fun both => ⟨rfl, both.1⟩, fun both => ⟨both.2, top⟩⟩
  · constructor
    · intro ⟨low, high⟩
      -- two addresses that are below each other are the same
      cases order : compare sender other with
      | eq => exact absurd (Std.LawfulEqOrd.eq_of_compare order).symm same
      | gt =>
        rw [order] at low
        cases low
      | lt =>
        rw [Std.OrientedCmp.gt_iff_lt.mpr order] at high
        cases high
    · intro both
      exact absurd both.1 same

structure QueueFrom (pool : Mempool) (sender : Address) (nonce : UInt64)
    (queue : List ((Address × UInt64) × Hash32)) : Prop where
  sorted : queue.Pairwise fun left right => left.1.2 < right.1.2
  listed : ∀ item : (Address × UInt64) × Hash32, item ∈ queue ↔
    pool.bySenderNonce[item.1]? = some item.2 ∧ item.1.1 = sender ∧ nonce ≤ item.1.2

theorem senderQueue_queueFrom (pool : Mempool) (sender : Address) (nonce : UInt64) :
    QueueFrom pool sender nonce (pool.senderQueue sender nonce) := by
  refine ⟨?_, fun _ => mem_senderQueue⟩
  have sorted : (pool.senderQueue sender nonce).Pairwise fun left right => compare left.1 right.1 = .lt :=
    Std.ExtTreeMap.ordered_keys_toList.filter _
  apply List.Pairwise.imp_of_mem _ sorted
  intro left right inside inside' below
  obtain ⟨_, own, _⟩ := mem_senderQueue.mp inside
  obtain ⟨_, own', _⟩ := mem_senderQueue.mp inside'
  have parts : compare left.1 right.1 =
      (compare left.1.1 right.1.1).then (compare left.1.2 right.1.2) := rfl
  have self : compare sender sender = Ordering.eq := Std.ReflCmp.compare_self
  rw [parts, own, own', self] at below
  exact Std.compare_eq_lt.mp below

section Queue

variable {pool : Mempool} {sender : Address} {nonce : UInt64}
  {queue : List ((Address × UInt64) × Hash32)}

theorem QueueFrom.tail {id : Hash32} (slots : QueueFrom pool sender nonce (((sender, nonce), id) :: queue))
    (bound : nonce.toNat + 1 < 2 ^ 64) : QueueFrom pool sender (nonce + 1) queue := by
  obtain ⟨below, sorted⟩ := List.pairwise_cons.mp slots.sorted
  have following : (nonce + 1).toNat = nonce.toNat + 1 :=
    checkedAdd_some (checkedAdd_of_lt (b := 1) bound)
  refine ⟨sorted, fun item => ?_⟩
  rw [UInt64.le_iff_toNat_le, following]
  constructor
  · intro inside
    obtain ⟨stored, sent, _⟩ := (slots.listed item).mp (List.mem_cons_of_mem _ inside)
    exact ⟨stored, sent, UInt64.lt_iff_toNat_lt.mp (below item inside)⟩
  · intro ⟨stored, sent, higher⟩
    have inside := (slots.listed item).mpr ⟨stored, sent, UInt64.le_iff_toNat_le.mpr (by omega)⟩
    rcases List.mem_cons.mp inside with first | behind
    · rw [first] at higher
      dsimp only at higher
      omega
    · exact behind

variable [Crypto] (indexed : pool.Indexed)
include indexed

theorem QueueFrom.slot_mem (slots : QueueFrom pool sender nonce queue) {transaction : Transaction}
    (held : transaction ∈ pool.transactions) (own : transaction.sender = sender)
    (slot : transaction.nonce.toNat = nonce.toNat) : ((sender, nonce), transaction.id) ∈ queue := by
  obtain ⟨entry, present, same⟩ := (mem_transactions indexed).mp held
  apply (slots.listed _).mpr
  refine ⟨(indexed.slots _ _).mpr ⟨entry, present, ?_⟩, rfl, UInt64.le_refl nonce⟩
  unfold MempoolEntry.slot
  rw [same, own, UInt64.toNat_inj.mp slot]

theorem QueueFrom.run_nil {item : (Address × UInt64) × Hash32}
    (slots : QueueFrom pool sender nonce (item :: queue)) (other : item.1.2 ≠ nonce)
    {run : List Transaction} (queued : Run pool sender nonce.toNat run) : run = [] := by
  cases queued with
  | stop free => rfl
  | next held own slot more =>
    obtain ⟨_, _, above⟩ := (slots.listed item).mp List.mem_cons_self
    rcases List.mem_cons.mp (slots.slot_mem indexed held own slot) with first | behind
    · exact absurd (congrArg (fun item => item.1.2) first).symm other
    · have higher := List.rel_of_pairwise_cons slots.sorted behind
      dsimp only at higher
      rw [UInt64.lt_iff_toNat_lt] at higher
      rw [UInt64.le_iff_toNat_le] at above
      omega

/-- The walk over the queue adds up the run: it ends where the run does. -/
theorem fundedFrom_run (sound : pool.Sound) (slots : QueueFrom pool sender nonce queue)
    {run : List Transaction} (queued : Run pool sender nonce.toNat run) (balance : UInt64) :
    pool.fundedFrom sender nonce balance queue = some (decide (totalCost run ≤ balance.toNat)) := by
  induction queue generalizing nonce balance run with
  | nil =>
    cases queued with
    | stop free => rfl
    | next held own slot more =>
      exact absurd (slots.slot_mem indexed held own slot) List.not_mem_nil
  | cons item rest ih =>
    obtain ⟨⟨entrySender, entryNonce⟩, id⟩ := item
    obtain ⟨taken, same, _⟩ := (slots.listed _).mp List.mem_cons_self
    dsimp only at taken same
    subst same
    rw [fundedFrom]
    by_cases here : entryNonce = nonce
    · subst here
      obtain ⟨entry, present, slot⟩ := (indexed.slots _ _).mp taken
      obtain ⟨_, relayable⟩ := sound id entry present
      have held : entry.transaction ∈ pool.transactions := ⟨id, entry, present, rfl⟩
      have own : entry.transaction.sender = entrySender := congrArg Prod.fst slot
      have place : entry.transaction.nonce = entryNonce := congrArg Prod.snd slot
      have debit := checkedAdd_of_lt relayable.fits.1
      have sum : _ = entry.transaction.cost := checkedAdd_some debit
      rw [if_neg (by simp), present, Option.bind_eq_bind, Option.bind_some, debit]
      dsimp only
      cases queued with
      | stop free => exact absurd (congrArg UInt64.toNat place) (free _ held own)
      | next held' own' slot' more =>
        -- the slot holds the first transaction of the run
        have only := indexed.slot_injective held held' (own.trans own'.symm)
          ((congrArg UInt64.toNat place).trans slot'.symm)
        subst only
        rw [totalCost_cons, ← sum]
        by_cases poor : entry.transaction.amount + entry.transaction.fee > balance
        · rw [if_pos poor, decide_eq_false]
          rw [gt_iff_lt, UInt64.lt_iff_toNat_lt] at poor
          omega
        · rw [if_neg poor]
          rw [gt_iff_lt, UInt64.lt_iff_toNat_lt] at poor
          have left : (balance - (entry.transaction.amount + entry.transaction.fee)).toNat =
              balance.toNat - (entry.transaction.amount + entry.transaction.fee).toNat :=
            UInt64.toNat_sub_of_le _ _ (UInt64.le_iff_toNat_le.mpr (Nat.not_lt.mp poor))
          have bound := relayable.fits.2
          rw [place] at bound
          have following : (entryNonce + 1).toNat = entryNonce.toNat + 1 :=
            checkedAdd_some (checkedAdd_of_lt (b := 1) bound)
          rw [← following] at more
          rw [ih (slots.tail bound) more, left]
          congr 1
          rw [decide_eq_decide]
          omega
    · rw [if_pos (Or.inr here), slots.run_nil indexed here queued]
      rfl

theorem senderIsFunded_run (sound : pool.Sound) {state : LedgerState} {run : List Transaction}
    (queued : Run pool sender (nonceOf state sender).toNat run) :
    pool.senderIsFunded sender state = some (decide (totalCost run ≤ state.balanceOf sender)) :=
  fundedFrom_run indexed sound (senderQueue_queueFrom pool sender _) queued _

end Queue

/-! Every call. -/

def Funded [Crypto] (pool : Mempool) (state : LedgerState) : Prop :=
  ∀ (sender : Address) (run : List Transaction),
    Run pool sender (nonceOf state sender).toNat run → totalCost run ≤ state.balanceOf sender

/-- The pools that calls against one ledger lead to. -/
inductive ReachableOn [Crypto] (policy : RelayPolicy) (state : LedgerState) : Mempool → Prop
  | new : ReachableOn policy state (Mempool.new policy)
  | accept {pool : Mempool} (earlier : ReachableOn policy state pool) (transaction : Transaction)
      (now : UInt64) : ReachableOn policy state (pool.accept transaction state now).2
  | removeConfirmed {pool : Mempool} (earlier : ReachableOn policy state pool)
      (transactions : List Transaction) : ReachableOn policy state (pool.removeConfirmed transactions)
  | expireAndTrim {pool : Mempool} (earlier : ReachableOn policy state pool) (now : UInt64) :
      ReachableOn policy state (pool.expireAndTrim now)

section Calls

variable [Crypto] {policy : RelayPolicy} {state : LedgerState} {pool : Mempool}

theorem ReachableOn.reachable (reached : ReachableOn policy state pool) : Reachable policy pool := by
  induction reached with
  | new => exact Reachable.new
  | accept earlier transaction now ih => exact ih.accept transaction state now
  | removeConfirmed earlier transactions ih => exact ih.removeConfirmed transactions
  | expireAndTrim earlier now ih => exact ih.expireAndTrim now

theorem Funded.fewer {fewer : Mempool} (funded : Funded pool state) (indexed : pool.Indexed)
    (within : ∀ (id : Hash32) (entry : MempoolEntry), fewer.entries[id]? = some entry →
      pool.entries[id]? = some entry) : Funded fewer state := by
  intro sender cut kept
  obtain ⟨run, queued⟩ := exists_run pool sender (nonceOf state sender).toNat
  obtain ⟨rest, whole⟩ := queued.shorter indexed
    (fun transaction ⟨id, entry, present, same⟩ => ⟨id, entry, within id entry present, same⟩) kept
  have paid := funded sender run queued
  rw [← whole, totalCost_append] at paid
  exact Nat.le_trans (Nat.le_add_right _ _) paid

theorem transactions_inserted {transaction other : Transaction} {now : UInt64}
    (held : other ∈ (pool.inserted transaction now).transactions) :
    other = transaction ∨ other ∈ pool.transactions := by
  obtain ⟨id, entry, present, same⟩ := held
  change (pool.entries.insert transaction.id _)[id]? = some entry at present
  rw [get_insert] at present
  split at present
  · cases present
    exact Or.inl same.symm
  · exact Or.inr ⟨id, entry, present, same⟩

theorem Sound.inserted (sound : pool.Sound) {transaction : Transaction} {state : LedgerState}
    (relayed : validateForRelay transaction policy state = .ok ()) (now : UInt64) :
    (pool.inserted transaction now).Sound := by
  intro id entry present
  change (pool.entries.insert transaction.id _)[id]? = some entry at present
  rw [get_insert] at present
  split at present
  · next same =>
    cases present
    exact ⟨same, validateForRelay_ok relayed⟩
  · exact sound id entry present

theorem Vacant.held {transaction other : Transaction} {now : UInt64} (vacant : pool.Vacant transaction)
    (held : other = transaction ∨ other ∈ pool.transactions) :
    other ∈ (pool.inserted transaction now).transactions := by
  rcases held with same | ⟨id, entry, present, same⟩
  · exact ⟨transaction.id, ⟨transaction, now, _⟩, get_insert_self _ _ _, same.symm⟩
  · refine ⟨id, entry, ?_, same⟩
    change (pool.entries.insert transaction.id _)[id]? = some entry
    rw [get_insert, if_neg, present]
    intro taken
    rw [← taken, vacant.id] at present
    cases present

theorem Run.of_inserted {transaction : Transaction} {now : UInt64} {sender : Address} {nonce : Nat}
    {run : List Transaction} (vacant : pool.Vacant transaction) (other : transaction.sender ≠ sender)
    (queued : Run (pool.inserted transaction now) sender nonce run) : Run pool sender nonce run := by
  induction queued with
  | stop free =>
    apply Run.stop
    intro kept among
    exact free kept (vacant.held (Or.inr among))
  | next held own slot more ih =>
    refine Run.next ?_ own slot ih
    rcases transactions_inserted held with same | old
    · rw [same] at own
      exact absurd own other
    · exact old

theorem Funded.accept (funded : Funded pool state) (sound : pool.Sound) (indexed : pool.Indexed)
    (transaction : Transaction) (now : UInt64) : Funded (pool.accept transaction state now).2 state := by
  by_cases admits : pool.Admits transaction state
  · have vacant := indexed.vacant admits.fresh
    have freed : Funded (pool.vacated transaction) state := by
      apply funded.fewer indexed
      intro id entry present
      rw [vacated_removeAll] at present
      exact removeAll_entries present
    have grown := (indexed.vacated transaction).inserted vacant now
    have emptied : (pool.vacated transaction).Sound := by
      intro id entry present
      rw [vacated_removeAll] at present
      exact sound id entry (removeAll_entries present)
    obtain ⟨run, queued⟩ := exists_run ((pool.vacated transaction).inserted transaction now)
      transaction.sender (nonceOf state transaction.sender).toNat
    have checked := senderIsFunded_run grown (emptied.inserted admits.relayed now) queued
    by_cases paid : totalCost run ≤ state.balanceOf transaction.sender
    · rw [decide_eq_true paid] at checked
      rw [indexed.accept_funded admits checked]
      have inserted : Funded ((pool.vacated transaction).inserted transaction now) state := by
        intro sender other also
        by_cases own : transaction.sender = sender
        · subst own
          rw [also.unique grown queued]
          exact paid
        · exact freed sender other (also.of_inserted vacant own)
      exact inserted.fewer grown fun id entry => expireAndTrim_entries
    · rw [decide_eq_false paid] at checked
      rw [indexed.accept_unfunded admits checked]
      exact freed
  · rcases indexed.accept_refused admits now with ⟨error, _, refused⟩ | ⟨_, _, known⟩
    · rwa [refused]
    · rwa [known]

omit [Crypto] in
/-- A second bid that the rest of the purse does not cover leaves the first one queued. -/
theorem unfunded_bid_leaves_queue :
    let _ := spelled
    let pool := (Mempool.new default).inserted (bid 0 0 100000 100000) 0
    let rejected := pool.accept (bid 0 1 100000 100000) (purse 300000) 0
    pool.get (bid 0 0 100000 100000).id = some (bid 0 0 100000 100000) ∧
      rejected.1 = .error .balance ∧ rejected.2 = pool := by
  intro crypto pool rejected
  let held := bid 0 0 100000 100000
  let second := bid 0 1 100000 100000
  have account := @purse_account spelled 300000
  have reachable : Reachable default pool := by
    have entered : (Mempool.new default).accept held (purse 300000) 0 = (.ok held.id, pool) :=
      accept_purse (by decide) (by decide) (by decide) (by decide) (by decide) (by decide)
    have step : Reachable default ((Mempool.new default).accept held (purse 300000) 0).2 :=
      Reachable.new.accept held (purse 300000) 0
    rwa [entered] at step
  have indexed := reachable.consistent.indexed
  have present : pool.entries[held.id]? = some ⟨held, 0, held.consensusEncode.length⟩ :=
    get_insert_self _ _ _
  have free : pool.occupant second = none := by
    unfold occupant
    change (((∅ : BTreeMap (Address × UInt64) Hash32).insert (held.sender, held.nonce) held.id)[
      (second.sender, second.nonce)]?).bind _ = none
    rw [get_insert, if_neg (by decide), get_empty]
    rfl
  have admits : pool.Admits second (purse 300000) := by
    refine ⟨bid_relayed 0 DEFAULT_MAX_MEMPOOL_BYTES (congrArg Account.nonce account) (by decide)
      (by decide) (by decide) (by decide) (by decide), ?_, ?_⟩
    · unfold contains
      change (((∅ : BTreeMap Hash32 MempoolEntry).insert held.id _)[second.id]?).isSome = false
      rw [get_insert, if_neg, get_empty]
      · rfl
      · rw [bid_id, bid_id]
        decide
    · intro existing occupied
      rw [free] at occupied
      cases occupied
  have vacant : pool.Vacant second := by
    have freed := indexed.vacant admits.fresh
    rwa [indexed.vacated_free free] at freed
  have grown := indexed.inserted vacant 0
  have nonce : (nonceOf (purse 300000) LedgerState.addressMin).toNat = 0 := by
    unfold nonceOf
    rw [account]
    rfl
  have queued : Run (pool.inserted second 0) LedgerState.addressMin
      (nonceOf (purse 300000) LedgerState.addressMin).toNat [held, second] := by
    rw [nonce]
    apply Run.next (vacant.held (Or.inr ⟨held.id, _, present, rfl⟩)) rfl rfl
    apply Run.next (vacant.held (Or.inl rfl)) rfl rfl
    apply Run.stop
    intro other among _
    rcases transactions_inserted among with same | ⟨id, entry, found, same⟩
    · rw [same]
      decide
    · change ((∅ : BTreeMap Hash32 MempoolEntry).insert held.id _)[id]? = some entry at found
      rw [get_insert, get_empty] at found
      split at found
      · cases found
        rw [← same]
        decide
      · cases found
  have balance : (purse 300000).balanceOf LedgerState.addressMin = 300000 :=
    congrArg (fun account => account.balance.toNat) account
  have short : ¬totalCost [held, second] ≤ (purse 300000).balanceOf LedgerState.addressMin := by
    rw [balance]
    decide
  have unfunded := senderIsFunded_run grown (reachable.sound.inserted admits.relayed 0) queued
  rw [decide_eq_false short] at unfunded
  have vacated := indexed.vacated_free free
  have refused := congrArg Prod.fst (indexed.accept_unfunded admits (by rw [vacated]; exact unfunded))
  refine ⟨?_, refused, (rejected_unchanged_iff reachable second _ 0).mpr ?_ .balance refused⟩
  · unfold get
    rw [present]
    rfl
  · intro failing
    obtain ⟨existing, found⟩ := failing.occupied
    rw [free] at found
    cases found

theorem ReachableOn.funded (reached : ReachableOn policy state pool) : Funded pool state := by
  induction reached with
  | new =>
    intro sender run queued
    cases queued with
    | stop free => exact Nat.zero_le _
    | next held own slot more =>
      obtain ⟨id, entry, present, _⟩ := held
      change (∅ : BTreeMap Hash32 MempoolEntry)[id]? = some entry at present
      rw [get_empty] at present
      cases present
  | accept earlier transaction now ih =>
    exact ih.accept earlier.reachable.sound earlier.reachable.consistent.indexed transaction now
  | removeConfirmed earlier transactions ih =>
    exact ih.fewer earlier.reachable.consistent.indexed fun id entry => removeConfirmed_entries
  | expireAndTrim earlier now ih =>
    exact ih.fewer earlier.reachable.consistent.indexed fun id entry => expireAndTrim_entries

end Calls

/-! The selection and the runs. -/

/-- What has been executed of a sender is the start of its run, and it has paid
for no more than that. -/
structure Follows [Crypto] (state : LedgerState) (sender : Address) (run executed : List Transaction)
    (working : LedgerState) : Prop where
  taken : transactionsFrom sender executed <+: run
  nonce : (nonceOf working sender).toNat =
    (nonceOf state sender).toNat + (transactionsFrom sender executed).length
  balance : state.balanceOf sender ≤
    working.balanceOf sender + totalCost (transactionsFrom sender executed)

section Selection

variable [Crypto] {pool : Mempool} (sound : pool.Sound) (indexed : pool.Indexed)
  {state working : LedgerState} {executed : List Transaction} {sender : Address}
  {run : List Transaction} (queued : Run pool sender (nonceOf state sender).toNat run)
include sound indexed queued

theorem Walks.follows (walked : Walks pool.transactions state executed working) :
    Follows state sender run executed working := by
  apply walked.invariant (Follows state sender run)
  · exact ⟨List.nil_prefix, (Nat.add_zero _).symm, Nat.le_add_right _ _⟩
  · intro earlier middle next transaction follows left eligible moved
    obtain ⟨id, entry, present, same⟩ := left.1
    have relayable : Relayable transaction := same ▸ (sound id entry present).2
    have applied := execute_applies relayable eligible moved
    have balance := (applyTransaction_moves applied).1 sender
    have counted := (nonceOf_applyTransaction applied).2 sender
    have tail : transactionsFrom sender [transaction] =
        if transaction.sender = sender then [transaction] else [] := transactionsFrom_cons sender transaction []
    by_cases own : transaction.sender = sender
    · rw [if_pos own] at balance counted tail
      -- the run goes on with the transaction at the working nonce
      obtain ⟨others, whole⟩ := follows.taken
      have slot : transaction.nonce.toNat =
          (nonceOf state sender).toNat + (transactionsFrom sender earlier).length := by
        rw [← follows.nonce, ← own, eligible.nonce]
      have behind := queued.drop whole.symm
      cases behind with
      | stop free => exact absurd slot (free transaction left.1 own)
      | @next _ _ rest held own' slot' more =>
        have only := indexed.slot_injective left.1 held (own.trans own'.symm) (slot.trans slot'.symm)
        subst only
        refine ⟨⟨rest, ?_⟩, ?_, ?_⟩
        · rw [transactionsFrom_append, tail, List.append_assoc]
          exact whole
        · rw [transactionsFrom_append, tail, List.length_append, counted, follows.nonce]
          rfl
        · have paid := follows.balance
          have cost : totalCost [transaction] = transaction.amount.toNat + transaction.fee.toNat := rfl
          rw [transactionsFrom_append, tail, totalCost_append, cost]
          omega
    · rw [if_neg own] at balance counted tail
      have kept : transactionsFrom sender (earlier ++ [transaction]) = transactionsFrom sender earlier := by
        rw [transactionsFrom_append, tail, List.append_nil]
      have paid := follows.balance
      refine ⟨?_, ?_, ?_⟩
      · rw [kept]
        exact follows.taken
      · rw [kept, counted, follows.nonce, Nat.add_zero]
      · rw [kept]
        omega

/-- While an affordable run has not been executed to its end, its next transaction is eligible. -/
theorem Walks.next (walked : Walks pool.transactions state executed working)
    (affordable : totalCost run ≤ state.balanceOf sender)
    (unfinished : transactionsFrom sender executed ≠ run) :
    ∃ transaction ∈ run, transaction ∈ Greedy.rest pool.transactions executed ∧
      Eligible working transaction := by
  have follows := walked.follows sound indexed queued
  obtain ⟨rest, whole⟩ := follows.taken
  have behind := queued.drop whole.symm
  rw [← follows.nonce] at behind
  cases behind with
  | stop free => exact absurd ((List.append_nil _).symm.trans whole) unfinished
  | @next _ transaction rest held own slot more =>
    have fresh : transaction ∉ executed := by
      intro done
      have again : transaction ∈ transactionsFrom sender executed :=
        List.mem_filter.mpr ⟨done, decide_eq_true own⟩
      obtain ⟨index, inside, found⟩ := List.getElem_of_mem again
      have early : run[index]? = some transaction := by
        rw [← whole, List.getElem?_append_left inside, List.getElem?_eq_getElem inside, found]
      have place := (queued.mem early).2.2
      rw [slot, follows.nonce] at place
      omega
    refine ⟨transaction, ?_, ⟨held, fresh⟩, ?_, ?_⟩
    · rw [← whole]
      exact List.mem_append_right _ List.mem_cons_self
    · rw [own]
      exact UInt64.toNat_inj.mp slot
    · have paid := follows.balance
      rw [← whole, totalCost_append, totalCost_cons] at affordable
      unfold Transaction.cost at affordable
      rw [own]
      omega

/-- With nothing eligible left, an affordable run has been executed to its end. -/
theorem Walks.complete (walked : Walks pool.transactions state executed working)
    (affordable : totalCost run ≤ state.balanceOf sender)
    (exhausted : Greedy.Exhausted Eligible (Greedy.rest pool.transactions executed) working) :
    transactionsFrom sender executed = run := by
  by_contra unfinished
  obtain ⟨transaction, _, left, eligible⟩ :=
    walked.next sound indexed queued affordable unfinished
  exact exhausted transaction left eligible

end Selection

section Mined

variable [Crypto] {policy : RelayPolicy} {state : LedgerState} {pool : Mempool}

theorem Indexed.exhausted_of_length (indexed : pool.Indexed) {selected : List Transaction}
    (distinct : selected.Nodup) (held : ∀ transaction ∈ selected, transaction ∈ pool.transactions)
    (whole : pool.entries.size ≤ selected.length) (working : LedgerState) :
    Greedy.Exhausted Eligible (Greedy.rest pool.transactions selected) working := by
  intro transaction left _
  have fewer := indexed.length_le (List.nodup_cons.mpr ⟨left.2, distinct⟩)
    (List.forall_mem_cons.mpr ⟨left.1, held⟩)
  rw [List.length_cons] at fewer
  omega

theorem Reachable.select_whole (reachable : Reachable policy pool) (fits : pool.CreditsFit state)
    {maximum : Nat} (room : pool.entries.size ≤ maximum) :
    ∃ selected last, Picks pool.transactions state selected last ∧
      pool.select state maximum = some selected ∧
      Greedy.Exhausted Eligible (Greedy.rest pool.transactions selected) last := by
  have indexed := reachable.consistent.indexed
  by_cases positive : 1 ≤ maximum
  · have chosen : ∃ selected, pool.select state maximum = some selected := reachable.select_some fits
    obtain ⟨selected, result⟩ := chosen
    obtain ⟨last, picks, bound, ended⟩ := reachable.select_picks positive result
    refine ⟨selected, last, picks, result, ?_⟩
    by_cases short : selected.length < maximum
    · exact ended short
    · exact indexed.exhausted_of_length picks.nodup picks.mem (by omega) last
  · have empty : pool.entries.size = 0 := by omega
    refine ⟨[], state, Greedy.Picks.done _ _, ?_, ?_⟩
    · unfold select
      rw [empty]
      rfl
    · exact indexed.exhausted_of_length List.nodup_nil (List.forall_mem_nil _) (Nat.le_of_eq empty) state

/-- Every run of a sender is affordable, and the selection takes all of it. -/
theorem queued_runs_mined (reached : ReachableOn policy state pool) :
    (∀ (sender : Address) (run : List Transaction), Run pool sender (nonceOf state sender).toNat run →
      totalCost run ≤ state.balanceOf sender) ∧
    (pool.CreditsFit state → ∀ maximum, pool.entries.size ≤ maximum →
      ∃ selected, pool.select state maximum = some selected ∧
        ∀ (sender : Address) (run : List Transaction),
          Run pool sender (nonceOf state sender).toNat run → ∀ transaction ∈ run, transaction ∈ selected) := by
  have funded := reached.funded
  refine ⟨funded, ?_⟩
  intro fits maximum room
  have sound := reached.reachable.sound
  have indexed := reached.reachable.consistent.indexed
  obtain ⟨selected, last, picks, result, exhausted⟩ := reached.reachable.select_whole fits room
  refine ⟨selected, result, ?_⟩
  intro sender run queued transaction member
  have walked : Walks pool.transactions state selected last := picks.weaken fun _ _ _ => trivial
  rw [← walked.complete sound indexed queued (funded sender run queued) exhausted] at member
  exact List.mem_of_mem_filter member

end Mined

end Mempool

end ParitrNode
