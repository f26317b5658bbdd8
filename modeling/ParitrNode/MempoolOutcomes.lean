import ParitrNode.BodyCommitment
import ParitrNode.FundedChain
import ParitrNode.Library.CrossOrder
import ParitrNode.MempoolIndex

/-!
What the answer of the pool says about the pool: when a rejected transaction has
left it as it was, and when an accepted one is in it.
-/

namespace ParitrNode
open ByteCodec OrderedMap Checked

namespace Mempool

section Rejection

variable [Crypto]

/-- The transaction takes the slot of an entry that it outbids, and its sender
cannot fund the queue with it. -/
structure FailsReplacement (pool : Mempool) (transaction : Transaction) (state : LedgerState)
    (now : UInt64) : Prop where
  admits : pool.Admits transaction state
  occupied : ∃ existing, pool.occupant transaction = some existing
  unfunded : ((pool.vacated transaction).inserted transaction now).senderIsFunded
    transaction.sender state = some false

omit [Crypto] in
theorem vacated_occupied {pool : Mempool} {transaction : Transaction} {existing : MempoolEntry}
    (occupied : pool.occupant transaction = some existing) :
    ∃ id : Hash32, pool.entries[id]? = some existing ∧ (pool.vacated transaction).entries[id]? = none := by
  unfold occupant at occupied
  obtain ⟨id, taken, present⟩ := Option.bind_eq_some_iff.mp occupied
  refine ⟨id, present, ?_⟩
  unfold Mempool.vacated
  rw [taken]
  dsimp only
  rw [get_remove, if_pos rfl]

theorem Indexed.vacated_free {pool : Mempool} (indexed : pool.Indexed) {transaction : Transaction}
    (free : pool.occupant transaction = none) : pool.vacated transaction = pool := by
  unfold Mempool.vacated
  cases taken : pool.bySenderNonce[(transaction.sender, transaction.nonce)]? with
  | none => rfl
  | some id =>
    obtain ⟨existing, _, occupied⟩ := indexed.occupant_some taken
    rw [free] at occupied
    cases occupied

/-- An admitted transaction is refused exactly when its sender cannot fund it, and
the pool is then the one with its slot freed. -/
theorem Indexed.accept_unfunded {pool : Mempool} (indexed : pool.Indexed) {transaction : Transaction}
    {state : LedgerState} (admits : pool.Admits transaction state) {now : UInt64}
    (unfunded : ((pool.vacated transaction).inserted transaction now).senderIsFunded
      transaction.sender state = some false) :
    pool.accept transaction state now = (.error .balance, pool.vacated transaction) := by
  rw [indexed.accept_admitted admits, insertFunded_eq, unfunded]
  dsimp only
  rw [inserted_remove (indexed.vacant admits.fresh)]

theorem Indexed.accept_funded {pool : Mempool} (indexed : pool.Indexed) {transaction : Transaction}
    {state : LedgerState} (admits : pool.Admits transaction state) {now : UInt64}
    (funded : ((pool.vacated transaction).inserted transaction now).senderIsFunded
      transaction.sender state = some true) :
    pool.accept transaction state now = (.ok transaction.id,
      ((pool.vacated transaction).inserted transaction now).expireAndTrim now) := by
  rw [indexed.accept_admitted admits, insertFunded_eq, funded]

/-- A rejection leaves the pool as it was, but for the failed replacements. -/
theorem rejected_unchanged_iff {policy : RelayPolicy} {pool : Mempool}
    (reachable : Reachable policy pool) (transaction : Transaction) (state : LedgerState)
    (now : UInt64) :
    (∀ error, (pool.accept transaction state now).1 = .error error →
      (pool.accept transaction state now).2 = pool) ↔
        ¬FailsReplacement pool transaction state now := by
  have indexed := reachable.consistent.indexed
  by_cases admits : pool.Admits transaction state
  · obtain ⟨funded, known⟩ := ((indexed.vacated transaction).inserted
      (indexed.vacant admits.fresh) now).funding_known transaction.sender state
    cases funded with
    | true =>
      rw [indexed.accept_funded admits known]
      refine ⟨fun _ failing => ?_, fun _ error refused => (nomatch refused)⟩
      rw [failing.unfunded] at known
      cases known
    | false =>
      rw [indexed.accept_unfunded admits known]
      cases occupied : pool.occupant transaction with
      | none =>
        rw [indexed.vacated_free occupied]
        refine ⟨fun _ failing => ?_, fun _ error refused => rfl⟩
        obtain ⟨existing, found⟩ := failing.occupied
        rw [occupied] at found
        cases found
      | some existing =>
        -- the entry that was to be replaced is gone
        obtain ⟨id, present, gone⟩ := vacated_occupied occupied
        constructor
        · intro same
          have restored : pool.vacated transaction = pool := same .balance rfl
          rw [restored, present] at gone
          cases gone
        · intro succeeds
          exact absurd ⟨admits, ⟨existing, occupied⟩, known⟩ succeeds
  · have fine : ¬FailsReplacement pool transaction state now := fun failing => admits failing.admits
    rcases indexed.accept_refused admits now with ⟨error, _, refused⟩ | ⟨_, _, known⟩
    · rw [refused]
      exact ⟨fun _ => fine, fun _ _ _ => rfl⟩
    · rw [known]
      exact ⟨fun _ => fine, fun _ _ _ => rfl⟩

end Rejection

/-! One transaction in an empty pool. -/

theorem queue_bounds (sender : Address) (nonce : UInt64) :
    ((compare (sender, nonce) (sender, nonce)).isLE &&
      (compare (sender, nonce) (sender, UInt64.ofNat (2 ^ 64 - 1))).isLE) = true := by
  have self : compare (sender, nonce) (sender, nonce) = Ordering.eq := Std.ReflCmp.compare_self
  have upper : compare (sender, nonce) (sender, UInt64.ofNat (2 ^ 64 - 1)) =
      (compare sender sender).then (compare nonce (UInt64.ofNat (2 ^ 64 - 1))) := rfl
  have same : compare sender sender = Ordering.eq := Std.ReflCmp.compare_self
  have top : nonce ≤ UInt64.ofNat (2 ^ 64 - 1) := by
    have bound := nonce.toNat_lt
    rw [UInt64.le_iff_toNat_le]
    change nonce.toNat ≤ 2 ^ 64 - 1
    omega
  rw [self, upper, same]
  exact Std.isLE_compare.mpr top

section Alone

variable [Crypto] (policy : RelayPolicy) (transaction : Transaction) (now : UInt64)

theorem alone_vacant : (Mempool.new policy).Vacant transaction :=
  ⟨get_empty (ν := MempoolEntry) transaction.id,
    get_empty (ν := Hash32) (transaction.sender, transaction.nonce)⟩

theorem alone_occupant : (Mempool.new policy).occupant transaction = none := by
  unfold occupant
  rw [(alone_vacant policy transaction).slot, Option.bind_none]

variable {transaction}

theorem alone_admits {state : LedgerState}
    (relayed : validateForRelay transaction policy state = .ok ()) :
    (Mempool.new policy).Admits transaction state where
  relayed := relayed
  fresh := by
    unfold contains
    rw [(alone_vacant policy transaction).id]
    rfl
  outbids existing occupied := by
    rw [alone_occupant] at occupied
    cases occupied

theorem alone_funded {state : LedgerState}
    (nonce : transaction.nonce = (state.account transaction.sender).nonce)
    (small : transaction.amount.toNat + transaction.fee.toNat < 2 ^ 64) :
    ((Mempool.new policy).inserted transaction now).senderIsFunded transaction.sender state =
      some (decide (transaction.amount + transaction.fee ≤
        (state.account transaction.sender).balance)) := by
  have queue : ((Mempool.new policy).inserted transaction now).senderQueue transaction.sender
      (state.account transaction.sender).nonce =
        [((transaction.sender, transaction.nonce), transaction.id)] := by
    unfold senderQueue
    change (((∅ : BTreeMap (Address × UInt64) Hash32).insert _ _).toList.filter _) = _
    rw [toList_singleton, List.filter_cons_of_pos]
    · rfl
    · rw [← nonce]
      exact queue_bounds transaction.sender transaction.nonce
  have stored : ((Mempool.new policy).inserted transaction now).entries[transaction.id]? =
      some ⟨transaction, now, transaction.consensusEncode.length⟩ := get_insert_self _ _ _
  unfold senderIsFunded
  dsimp only
  rw [queue, fundedFrom, if_neg (by rw [nonce]; simp), stored, Option.bind_eq_bind, Option.bind_some,
    checkedAdd_of_lt small]
  dsimp only
  by_cases covered : transaction.amount + transaction.fee ≤ (state.account transaction.sender).balance
  · rw [if_neg (UInt64.not_lt.mpr covered), fundedFrom, decide_eq_true covered]
  · rw [if_pos (UInt64.not_le.mp covered), decide_eq_false covered]

end Alone

/-! A bid for a slot that the sender cannot fund. -/

def sized (maxMempoolBytes : Nat) : RelayPolicy := { (default : RelayPolicy) with maxMempoolBytes }

theorem bid_relayed (number : Nat) {index : Nat} {amount fee : UInt64} {state : LedgerState}
    (maxMempoolBytes : Nat) (nonce : (state.account LedgerState.addressMin).nonce = 0)
    (gap : index ≤ 64) (dust : 1000 ≤ amount) (amountRange : amount ≤ MAX_MONEY)
    (relay : 100000 ≤ fee) (feeRange : fee ≤ MAX_MONEY) :
    @validateForRelay spelled (bid number index amount fee) (sized maxMempoolBytes) state = .ok () := by
  let _ := spelled
  have signed := bid_signed number index amount fee
  have positive : amount ≠ 0 := by
    intro zero
    rw [zero] at dust
    exact absurd dust (by decide)
  have value : (bid number index amount fee).nonce.toNat = index := payment_nonce number (by omega)
  have below : (bid number index amount fee).nonce ≠ UInt64.ofNat (2 ^ 64 - 1) := by
    intro top
    have range := congrArg UInt64.toNat top
    rw [value] at range
    change index = 2 ^ 64 - 1 at range
    omega
  have distinct : LedgerState.addressMin ≠ LedgerState.addressMax := by decide
  have near : ¬((bid number index amount fee).nonce < 0 ∨
      (bid number index amount fee).nonce > saturatingAdd 0 (sized maxMempoolBytes).maxNonceGap) := by
    have limit : saturatingAdd 0 (sized maxMempoolBytes).maxNonceGap = 64 := rfl
    have zero : (0 : UInt64).toNat = 0 := rfl
    have last : (64 : UInt64).toNat = 64 := rfl
    rw [limit, gt_iff_lt, UInt64.lt_iff_toNat_lt, UInt64.lt_iff_toNat_lt, value, zero, last]
    omega
  unfold validateForRelay
  rw [if_neg]
  · dsimp only
    rw [show (bid number index amount fee).sender = LedgerState.addressMin from rfl, nonce, if_neg near,
      signed]
  · simp only [not_or, Decidable.not_not, gt_iff_lt, UInt64.not_lt]
    exact ⟨rfl, positive, amountRange, feeRange, below, dust, relay, distinct,
      fun other => other.2 (List.length_replicate ..), payment_signature number index⟩

def purse [Crypto] (balance : UInt64) : LedgerState :=
  (default : LedgerState).setAccount LedgerState.addressMin ⟨balance, 0⟩

theorem purse_account [Crypto] (balance : UInt64) :
    (purse balance).account LedgerState.addressMin = ⟨balance, 0⟩ := by
  unfold purse
  rw [LedgerState.account_setAccount, if_pos rfl]

theorem expireAndTrim_rest {pool : Mempool} {now : UInt64}
    (prompt : ∀ (id : Hash32) (entry : MempoolEntry), pool.entries[id]? = some entry →
      ¬saturatingSub now entry.receivedAt > pool.policy.ttlSeconds)
    (within : pool.bytes ≤ pool.policy.maxMempoolBytes) : pool.expireAndTrim now = pool := by
  have none : pool.expired now = [] := by
    unfold expired
    rw [List.map_eq_nil_iff, List.filter_eq_nil_iff]
    intro (id, entry) member
    rw [decide_eq_true_iff]
    exact prompt id entry (mem_toList.mp member)
  unfold expireAndTrim
  rw [none]
  change trim pool.entries.size pool = pool
  cases pool.entries.size with
  | zero => rfl
  | succ count => rw [trim, if_neg (Nat.not_lt.mpr within)]

theorem alone_rest [Crypto] {policy : RelayPolicy} {transaction : Transaction} {now : UInt64}
    (within : transaction.consensusEncode.length ≤ policy.maxMempoolBytes) :
    ((Mempool.new policy).inserted transaction now).expireAndTrim now =
      (Mempool.new policy).inserted transaction now := by
  apply expireAndTrim_rest
  · intro id entry found
    change ((∅ : BTreeMap Hash32 MempoolEntry).insert _ _)[id]? = some entry at found
    rw [get_insert, get_empty] at found
    split at found
    · cases found
      unfold saturatingSub
      rw [checkedSub_of_le (Nat.le_refl _), UInt64.sub_self]
      exact UInt64.not_lt.mpr (UInt64.le_iff_toNat_le.mpr (Nat.zero_le _))
    · cases found
  · change 0 + transaction.consensusEncode.length ≤ policy.maxMempoolBytes
    rwa [Nat.zero_add]

theorem accept_bid {amount fee : UInt64} {state : LedgerState}
    (account : (state.account LedgerState.addressMin).nonce = 0) (dust : 1000 ≤ amount)
    (amountRange : amount ≤ MAX_MONEY) (relay : 100000 ≤ fee) (feeRange : fee ≤ MAX_MONEY)
    (small : amount.toNat + fee.toNat < 2 ^ 64)
    (covered : amount + fee ≤ (state.account LedgerState.addressMin).balance) :
    let _ := spelled
    (Mempool.new default).accept (bid 0 0 amount fee) state 0 =
      (.ok (bid 0 0 amount fee).id, (Mempool.new default).inserted (bid 0 0 amount fee) 0) := by
  let _ := spelled
  have admits := alone_admits default
    (bid_relayed 0 DEFAULT_MAX_MEMPOOL_BYTES account (Nat.zero_le 64) dust amountRange relay feeRange)
  have free := (indexed_new default).vacated_free (alone_occupant default (bid 0 0 amount fee))
  have funded : ((Mempool.new default).inserted (bid 0 0 amount fee) 0).senderIsFunded
      LedgerState.addressMin state =
        some (decide (amount + fee ≤ (state.account LedgerState.addressMin).balance)) :=
    alone_funded default 0 account.symm small
  rw [decide_eq_true covered] at funded
  have rest : ((Mempool.new default).inserted (bid 0 0 amount fee) 0).expireAndTrim 0 =
      (Mempool.new default).inserted (bid 0 0 amount fee) 0 := by
    apply alone_rest
    rw [bid_length]
    decide
  have entered := (indexed_new default).accept_funded admits (by rw [free]; exact funded)
  rw [free, rest] at entered
  exact entered

theorem accept_purse {amount fee balance : UInt64} (dust : 1000 ≤ amount)
    (amountRange : amount ≤ MAX_MONEY) (relay : 100000 ≤ fee) (feeRange : fee ≤ MAX_MONEY)
    (small : amount.toNat + fee.toNat < 2 ^ 64) (covered : amount + fee ≤ balance) :
    let _ := spelled
    (Mempool.new default).accept (bid 0 0 amount fee) (purse balance) 0 =
      (.ok (bid 0 0 amount fee).id, (Mempool.new default).inserted (bid 0 0 amount fee) 0) := by
  have account := @purse_account spelled balance
  exact accept_bid (congrArg Account.nonce account) dust amountRange relay feeRange small
    (by rw [account]; exact covered)

/-- A bid that the ledger does not cover throws out the bid it wanted to replace. -/
theorem unfunded_replacement_evicts :
    ∃ (_ : Crypto) (pool : Mempool) (held transaction : Transaction) (state : LedgerState),
      Reachable default pool ∧ pool.get held.id = some held ∧
      (pool.accept transaction state 0).1 = .error .balance ∧
      (pool.accept transaction state 0).2.get held.id = none ∧
      (pool.accept transaction state 0).2 ≠ pool := by
  let crypto : Crypto := spelled
  let held := bid 0 0 100000 100000
  let transaction := bid 1 0 2000000 300000
  let state := purse 1000000
  let pool := (Mempool.new default).inserted held 0
  have account := purse_account (1000000 : UInt64)
  have entered : (Mempool.new default).accept held state 0 = (.ok held.id, pool) :=
    accept_purse (by decide) (by decide) (by decide) (by decide) (by decide) (by decide)
  have reachable : Reachable default pool := by
    have step : Reachable default ((Mempool.new default).accept held state 0).2 :=
      Reachable.new.accept held state 0
    rwa [entered] at step
  have indexed := reachable.consistent.indexed
  have present : pool.entries[held.id]? = some ⟨held, 0, held.consensusEncode.length⟩ :=
    get_insert_self _ _ _
  have taken : pool.bySenderNonce[(transaction.sender, transaction.nonce)]? = some held.id :=
    get_insert_self _ _ _
  have freed : pool.vacated transaction = Mempool.new default := by
    unfold vacated
    rw [taken]
    exact inserted_remove (alone_vacant default held) 0
  have apart : held.id ≠ transaction.id := by
    rw [bid_id, bid_id]
    decide
  have admits : pool.Admits transaction state := by
    refine ⟨bid_relayed 1 DEFAULT_MAX_MEMPOOL_BYTES (congrArg Account.nonce account) (Nat.zero_le 64)
      (by decide) (by decide) (by decide) (by decide), ?_, ?_⟩
    · unfold contains
      change (((∅ : BTreeMap Hash32 MempoolEntry).insert held.id _)[transaction.id]?).isSome = false
      rw [get_insert, if_neg apart, get_empty]
      rfl
    · intro existing occupied
      unfold occupant at occupied
      rw [taken, Option.bind_some, present] at occupied
      rw [← Option.some.inj occupied]
      decide
  have unfunded : ((pool.vacated transaction).inserted transaction 0).senderIsFunded
      transaction.sender state = some false := by
    rw [freed]
    have check : ((Mempool.new default).inserted transaction 0).senderIsFunded
        LedgerState.addressMin state =
          some (decide (transaction.amount + transaction.fee ≤
            (state.account LedgerState.addressMin).balance)) :=
      alone_funded default 0 (congrArg Account.nonce account).symm
        (show (2000000 : UInt64).toNat + (300000 : UInt64).toNat < 2 ^ 64 by decide)
    have short : ¬transaction.amount + transaction.fee ≤
        (state.account LedgerState.addressMin).balance := by
      rw [account]
      exact show ¬(2000000 : UInt64) + 300000 ≤ 1000000 by decide
    rw [decide_eq_false short] at check
    exact check
  have refused := indexed.accept_unfunded admits unfunded
  rw [freed] at refused
  have gone : (Mempool.new default).get held.id = none := by
    unfold get
    rw [(alone_vacant default held).id]
    rfl
  refine ⟨crypto, pool, held, transaction, state, reachable, ?_, ?_, ?_, ?_⟩
  · unfold get
    rw [present]
    rfl
  · rw [refused]
  · rw [refused]
    exact gone
  · rw [refused]
    intro same
    rw [← same, (alone_vacant default held).id] at present
    cases present

section Room

variable [Crypto]

/-! Trimming by rate. -/

/-- The entries of the pool that trimming takes out no earlier than this one. -/
def outranking (pool : Mempool) (item : Hash32 × MempoolEntry) : List (Hash32 × MempoolEntry) :=
  pool.entries.toList.filter fun other => (compareRate item other).isLE

def outrankingBytes (pool : Mempool) (item : Hash32 × MempoolEntry) : Nat :=
  ((pool.outranking item).map fun other => other.2.size).sum

omit [Crypto] in
theorem compareRate_eq : compareRate = CrossOrder.rank
    (fun item : Hash32 × MempoolEntry => item.2.transaction.fee.toNat) (fun item => item.2.size)
      Prod.fst := rfl

theorem Indexed.size_pos {pool : Mempool} (indexed : pool.Indexed) {id : Hash32} {entry : MempoolEntry}
    (present : pool.entries[id]? = some entry) : 0 < entry.size := by
  rw [(indexed.keyed id entry present).2]
  simp only [Transaction.consensusEncode, List.length_append, Writer.u16_length]
  omega

theorem Indexed.lowest_ranks {pool : Mempool} (indexed : pool.Indexed) {id : Hash32}
    (lowest : pool.lowest = some id) : ∃ entry, pool.entries[id]? = some entry ∧
      ∀ item ∈ pool.entries.toList, (compareRate (id, entry) item).isLE = true := by
  unfold Mempool.lowest at lowest
  obtain ⟨⟨first, entry⟩, head, rfl⟩ := Option.map_eq_some_iff.mp lowest
  have member := List.mem_mergeSort.mp (List.mem_of_head? head)
  refine ⟨entry, mem_toList.mp member, ?_⟩
  rw [compareRate_eq] at head ⊢
  exact CrossOrder.rank_head
    (fun item inside => indexed.size_pos (mem_toList.mp inside)) head

omit [Crypto] in
theorem trim_absent {pool : Mempool} {id : Hash32} (absent : pool.entries[id]? = none) (count : Nat) :
    (trim count pool).entries[id]? = none := by
  induction count generalizing pool with
  | zero => exact absent
  | succ count ih =>
    rw [trim]
    split
    · split
      · apply ih
        rw [get_remove, absent, ite_self]
      · exact absent
    · exact absent

omit [Crypto] in
theorem outrankingBytes_le (pool : Mempool) (item : Hash32 × MempoolEntry) :
    pool.outrankingBytes item ≤ total MempoolEntry.size pool.entries :=
  (List.filter_sublist.map _).sum_le_sum fun _ _ => Nat.zero_le _

omit [Crypto] in
theorem outrankingBytes_remove {pool : Mempool} {low : Hash32} {lowEntry : MempoolEntry}
    (present : pool.entries[low]? = some lowEntry) {item : Hash32 × MempoolEntry}
    (lower : (compareRate item (low, lowEntry)).isLE = false) :
    (pool.remove low).outrankingBytes item = pool.outrankingBytes item := by
  have listed := toList_insert_perm pool.entries low lowEntry
  rw [insert_erase_self present] at listed
  have kept := listed.filter fun other => (compareRate item other).isLE
  rw [List.filter_cons_of_neg (by rw [lower]; decide)] at kept
  unfold outrankingBytes outranking
  rw [remove_present present]
  exact ((kept.map _).sum_nat).symm

/-- An entry survives exactly when it fits together with all that outrank it. -/
theorem Indexed.trim_get {pool : Mempool} (indexed : pool.Indexed) {count : Nat}
    (enough : pool.entries.size ≤ count) {id : Hash32} {entry : MempoolEntry}
    (present : pool.entries[id]? = some entry) :
    (Mempool.trim count pool).entries[id]? =
      if pool.outrankingBytes (id, entry) ≤ pool.policy.maxMempoolBytes then some entry else none := by
  induction count generalizing pool with
  | zero =>
    have empty := Std.ExtTreeMap.eq_empty_iff_size_eq_zero.mpr (Nat.le_zero.mp enough)
    rw [empty, get_empty] at present
    cases present
  | succ count ih =>
    rw [Mempool.trim]
    by_cases crowded : pool.bytes > pool.policy.maxMempoolBytes
    · rw [if_pos crowded]
      cases lowest : pool.lowest with
      | none =>
        rw [indexed.counted, lowest_none lowest] at crowded
        omega
      | some low =>
        obtain ⟨lowEntry, found, ranks⟩ := indexed.lowest_ranks lowest
        have fewer := remove_size found
        dsimp only
        by_cases here : low = id
        · -- everything outranks the lowest entry
          subst here
          rw [present] at found
          cases found
          have all : pool.outrankingBytes (low, entry) = pool.bytes := by
            unfold outrankingBytes outranking
            rw [List.filter_eq_self.mpr ranks, indexed.counted]
            rfl
          rw [all, if_neg (Nat.not_le.mpr crowded)]
          apply trim_absent
          rw [get_remove, if_pos rfl]
        · have lower : (compareRate (id, entry) (low, lowEntry)).isLE = false := by
            rw [Bool.eq_false_iff]
            intro also
            have below := ranks _ (mem_toList.mpr present)
            rw [compareRate_eq] at also below
            exact here (CrossOrder.rank_antisymm below also)
          have still : (pool.remove low).entries[id]? = some entry := by
            rw [get_remove, if_neg here, present]
          rw [ih (indexed.remove low) (by omega) still, outrankingBytes_remove found lower,
            remove_policy]
    · rw [if_neg crowded, present, if_pos]
      have part := pool.outrankingBytes_le (id, entry)
      rw [← indexed.counted] at part
      omega

/-! The room of a new entry. -/

def Expired (policy : RelayPolicy) (now : UInt64) (entry : MempoolEntry) : Prop :=
  saturatingSub now entry.receivedAt > policy.ttlSeconds

instance (policy : RelayPolicy) (now : UInt64) (entry : MempoolEntry) :
    Decidable (Expired policy now entry) := inferInstanceAs (Decidable (_ > _))

omit [Crypto] in
theorem get_removeAll (pool : Mempool) (ids : List Hash32) (id : Hash32) :
    (ids.foldl Mempool.remove pool).entries[id]? = if id ∈ ids then none else pool.entries[id]? := by
  induction ids generalizing pool with
  | nil => rw [if_neg List.not_mem_nil]; rfl
  | cons first rest ih =>
    rw [List.foldl_cons, ih, get_remove]
    by_cases later : id ∈ rest
    · rw [if_pos later, if_pos (List.mem_cons_of_mem first later)]
    · rw [if_neg later]
      by_cases same : first = id
      · rw [if_pos same, if_pos (same ▸ List.mem_cons_self)]
      · rw [if_neg same, if_neg]
        intro member
        cases List.mem_cons.mp member with
        | inl equal => exact same equal.symm
        | inr inside => exact later inside

omit [Crypto] in
theorem mem_expired {pool : Mempool} {now : UInt64} {id : Hash32} : id ∈ pool.expired now ↔
    ∃ entry, pool.entries[id]? = some entry ∧ Expired pool.policy now entry := by
  unfold expired
  rw [List.mem_map]
  constructor
  · intro ⟨(other, entry), member, same⟩
    cases same
    obtain ⟨listed, old⟩ := List.mem_filter.mp member
    exact ⟨entry, mem_toList.mp listed, of_decide_eq_true old⟩
  · intro ⟨entry, present, old⟩
    exact ⟨(id, entry), List.mem_filter.mpr ⟨mem_toList.mpr present, decide_eq_true old⟩, rfl⟩

def entryOf (transaction : Transaction) (now : UInt64) : MempoolEntry :=
  ⟨transaction, now, transaction.consensusEncode.length⟩

/-- The bytes of the transaction and of the unexpired entries that outrank it. -/
def roomNeeded (pool : Mempool) (transaction : Transaction) (now : UInt64) : Nat :=
  transaction.consensusEncode.length +
    (((pool.vacated transaction).entries.toList.filter fun item =>
      decide (¬Expired pool.policy now item.2) &&
        (compareRate (transaction.id, entryOf transaction now) item).isLE).map
          fun item => item.2.size).sum

theorem Indexed.expireAndTrim_get {pool : Mempool} (indexed : pool.Indexed)
    {transaction : Transaction} (fresh : pool.contains transaction.id = false) (now : UInt64) :
    (((pool.vacated transaction).inserted transaction now).expireAndTrim now).entries[transaction.id]? =
      if pool.roomNeeded transaction now ≤ pool.policy.maxMempoolBytes
      then some (entryOf transaction now) else none := by
  have vacant := indexed.vacant fresh
  let filled := (pool.vacated transaction).inserted transaction now
  have inserted : filled.Indexed := (indexed.vacated transaction).inserted vacant now
  have samePolicy : filled.policy = pool.policy := pool.vacated_policy transaction
  have present : filled.entries[transaction.id]? = some (entryOf transaction now) :=
    get_insert_self _ _ _
  let kept := (filled.expired now).foldl Mempool.remove filled
  have keptPolicy : kept.policy = pool.policy := (removeAll_policy _ _).trans samePolicy
  have prompt : ¬Expired pool.policy now (entryOf transaction now) := by
    unfold Expired entryOf saturatingSub
    rw [checkedSub_of_le (Nat.le_refl _), UInt64.sub_self]
    exact UInt64.not_lt.mpr (UInt64.le_iff_toNat_le.mpr (Nat.zero_le _))
  have stored : ∀ (id : Hash32) (entry : MempoolEntry), kept.entries[id]? = some entry ↔
      filled.entries[id]? = some entry ∧ ¬Expired pool.policy now entry := by
    intro id entry
    rw [get_removeAll]
    by_cases old : id ∈ filled.expired now
    · obtain ⟨other, found, expired⟩ := mem_expired.mp old
      rw [if_pos old, found]
      constructor
      · intro impossible
        cases impossible
      · intro ⟨same, young⟩
        cases same
        exact absurd (samePolicy ▸ expired) young
    · rw [if_neg old]
      constructor
      · intro found
        refine ⟨found, fun expired => old (mem_expired.mpr ⟨entry, found, ?_⟩)⟩
        rwa [samePolicy]
      · intro ⟨found, _⟩
        exact found
  have survives := (inserted.removeAll (filled.expired now)).trim_get (Nat.le_refl _)
    ((stored _ _).mpr ⟨present, prompt⟩)
  rw [keptPolicy] at survives
  have own : (compareRate (transaction.id, entryOf transaction now)
      (transaction.id, entryOf transaction now)).isLE = true := by
    rw [compareRate_eq, CrossOrder.rank_isLE]
    refine Or.inr ⟨rfl, ?_⟩
    have self : compare transaction.id transaction.id = Ordering.eq := Std.ReflCmp.compare_self
    rw [self]
    rfl
  -- what outranks the new entry is itself and unexpired old entries
  have room : (kept.outranking (transaction.id, entryOf transaction now)).Perm
      ((transaction.id, entryOf transaction now) ::
        (pool.vacated transaction).entries.toList.filter fun item =>
          decide (¬Expired pool.policy now item.2) &&
            (compareRate (transaction.id, entryOf transaction now) item).isLE) := by
    have outside : (transaction.id, entryOf transaction now) ∉
        (pool.vacated transaction).entries.toList := by
      rw [mem_toList, vacant.id]
      exact fun impossible => nomatch impossible
    unfold outranking
    rw [List.perm_ext_iff_of_nodup ((toList_nodup _).filter _) (List.nodup_cons.mpr
      ⟨fun member => outside (List.mem_of_mem_filter member), (toList_nodup _).filter _⟩)]
    intro (id, entry)
    rw [List.mem_cons, List.mem_filter, List.mem_filter, mem_toList, mem_toList, stored, Bool.and_eq_true,
      decide_eq_true_iff]
    have lookup : filled.entries[id]? = if transaction.id = id then some (entryOf transaction now)
        else (pool.vacated transaction).entries[id]? := get_insert _ _ _ _
    rw [lookup]
    by_cases same : transaction.id = id
    · subst same
      rw [if_pos rfl, vacant.id]
      constructor
      · intro ⟨⟨found, _⟩, _⟩
        cases found
        exact Or.inl rfl
      · intro either
        rcases either with equal | ⟨impossible, _⟩
        · cases equal
          exact ⟨⟨rfl, prompt⟩, own⟩
        · cases impossible
    · rw [if_neg same]
      constructor
      · intro ⟨⟨found, young⟩, above⟩
        exact Or.inr ⟨found, young, above⟩
      · intro either
        rcases either with equal | ⟨found, young, above⟩
        · cases equal
          exact absurd rfl same
        · exact ⟨⟨found, young⟩, above⟩
  have bytes : kept.outrankingBytes (transaction.id, entryOf transaction now) =
      pool.roomNeeded transaction now := by
    unfold outrankingBytes roomNeeded
    rw [(room.map _).sum_nat, List.map_cons, List.sum_cons]
    rfl
  rw [bytes] at survives
  exact survives

def hashInputs (pool : Mempool) (transaction : Transaction) : Set (String × Bytes) :=
  {input | ∃ other, input = ("PARITR-P9-TXID-v1", Transaction.consensusEncode other) ∧
    (other = transaction ∨ ∃ (id : Hash32) (entry : MempoolEntry),
      pool.entries[id]? = some entry ∧ entry.transaction = other)}

/-- The transaction is admitted and funded, but the entries that outrank it leave
it no room. -/
structure CrowdedOut (pool : Mempool) (transaction : Transaction) (state : LedgerState)
    (now : UInt64) : Prop where
  admits : pool.Admits transaction state
  funded : ((pool.vacated transaction).inserted transaction now).senderIsFunded
    transaction.sender state = some true
  crowded : pool.policy.maxMempoolBytes < pool.roomNeeded transaction now

theorem Indexed.accept_get {pool : Mempool} (indexed : pool.Indexed) {transaction : Transaction}
    {state : LedgerState} (admits : pool.Admits transaction state) {now : UInt64}
    (funded : ((pool.vacated transaction).inserted transaction now).senderIsFunded
      transaction.sender state = some true) :
    (pool.accept transaction state now).1 = .ok transaction.id ∧
      (pool.accept transaction state now).2.get transaction.id =
        if pool.roomNeeded transaction now ≤ pool.policy.maxMempoolBytes then some transaction
        else none := by
  rw [indexed.accept_funded admits funded]
  refine ⟨rfl, ?_⟩
  unfold get
  rw [indexed.expireAndTrim_get admits.fresh]
  split
  · rfl
  · rfl

/-- An accepted transaction is in the pool, but for those that are crowded out. -/
theorem accepted_present_iff {policy : RelayPolicy} {pool : Mempool}
    (reachable : Reachable policy pool) (transaction : Transaction) (state : LedgerState)
    (now : UInt64) (free : CollisionFree (pool.hashInputs transaction)) :
    (∀ id, (pool.accept transaction state now).1 = .ok id →
      (pool.accept transaction state now).2.get id = some transaction) ↔
        ¬CrowdedOut pool transaction state now := by
  have indexed := reachable.consistent.indexed
  by_cases admits : pool.Admits transaction state
  · obtain ⟨funded, known⟩ := ((indexed.vacated transaction).inserted
      (indexed.vacant admits.fresh) now).funding_known transaction.sender state
    cases funded with
    | false =>
      rw [indexed.accept_unfunded admits known]
      refine ⟨fun _ crowded => ?_, fun _ id accepted => (nomatch accepted)⟩
      rw [crowded.funded] at known
      cases known
    | true =>
      obtain ⟨answer, present⟩ := indexed.accept_get admits known
      rw [answer]
      constructor
      · intro kept crowded
        have inside := kept transaction.id rfl
        rw [present, if_neg (Nat.not_le.mpr crowded.crowded)] at inside
        cases inside
      · intro roomy id same
        cases same
        rw [present, if_pos]
        exact Nat.le_of_not_lt fun crowded => roomy ⟨admits, known, crowded⟩
  · have roomy : ¬CrowdedOut pool transaction state now := fun crowded => admits crowded.admits
    refine ⟨fun _ => roomy, fun _ id accepted => ?_⟩
    rcases indexed.accept_refused admits now with
      ⟨error, _, refused⟩ | ⟨relayed, known, answer⟩
    · rw [refused] at accepted
      cases accepted
    · -- the pool holds a transaction of this id, which is this one
      rw [answer] at accepted ⊢
      cases accepted
      obtain ⟨entry, present⟩ := Option.isSome_iff_exists.mp known
      obtain ⟨same, relayable⟩ := reachable.sound transaction.id entry present
      have formed := validateTransactionStructure_ok (validateForRelay_ok relayed).structure_ok
      have formed' := validateTransactionStructure_ok relayable.structure_ok
      have encoded := free.data_eq ⟨entry.transaction, rfl, Or.inr ⟨_, entry, present, rfl⟩⟩
        ⟨transaction, rfl, Or.inl rfl⟩ same
      unfold get
      rw [present, ← separates_transaction.injective formed' formed encoded]
      rfl

end Room

/-! A pool with room for one transfer. -/

theorem funded_ahead [Crypto] {pool : Mempool} {sender : Address} {state : LedgerState}
    (ahead : pool.bySenderNonce[(sender, (state.account sender).nonce)]? = none) :
    pool.senderIsFunded sender state = some true := by
  unfold senderIsFunded
  dsimp only
  cases queue : pool.senderQueue sender (state.account sender).nonce with
  | nil => rfl
  | cons item rest =>
    obtain ⟨⟨entrySender, nonce⟩, id⟩ := item
    rw [fundedFrom, if_pos]
    by_contra next
    rw [not_or, Decidable.not_not, Decidable.not_not] at next
    have member : ((entrySender, nonce), id) ∈ pool.senderQueue sender (state.account sender).nonce :=
      queue ▸ List.mem_cons_self
    have listed := mem_toList.mp (List.mem_of_mem_filter member)
    rw [next.1, next.2, ahead] at listed
    cases listed

theorem alone_roomNeeded [Crypto] (transaction : Transaction) (now : UInt64) (policy : RelayPolicy) :
    (Mempool.new policy).roomNeeded transaction now = transaction.consensusEncode.length := by
  unfold roomNeeded
  rw [(indexed_new policy).vacated_free (alone_occupant policy transaction)]
  change _ + (((∅ : BTreeMap Hash32 MempoolEntry).toList.filter _).map _).sum = _
  rw [toList_empty]
  rfl

/-- The bid of the higher fee stays, the accepted one is gone. -/
theorem accepted_bid_dropped :
    ∃ (_ : Crypto) (pool : Mempool) (held transaction : Transaction) (state : LedgerState),
      Reachable (sized 300) pool ∧ CollisionFree (pool.hashInputs transaction) ∧
      pool.get held.id = some held ∧
      (pool.accept transaction state 0).1 = .ok transaction.id ∧
      (pool.accept transaction state 0).2.get transaction.id = none := by
  let crypto : Crypto := spelled
  let held := bid 0 1 100000 300000
  let transaction := bid 0 2 100000 100000
  let state := purse 0
  let empty := Mempool.new (sized 300)
  let pool := empty.inserted held 0
  have account : state.account LedgerState.addressMin = ⟨0, 0⟩ := purse_account 0
  have nonce : (state.account LedgerState.addressMin).nonce = 0 := congrArg Account.nonce account
  have apart : held.id ≠ transaction.id := by
    rw [bid_id, bid_id]
    decide
  have held_slot : ∀ (number : UInt64) (id : Hash32), number ≠ 1 →
      ((∅ : BTreeMap (Address × UInt64) Hash32).insert (LedgerState.addressMin, 1) id)[
        (LedgerState.addressMin, number)]? = none := by
    intro number id other
    rw [get_insert, get_empty, if_neg]
    exact fun same => other (congrArg Prod.snd same).symm
  have entered : empty.accept held state 0 = (.ok held.id, pool) := by
    have admits := alone_admits (sized 300) (bid_relayed 0 300 nonce (by decide) (by decide)
      (by decide) (by decide) (by decide) : validateForRelay held (sized 300) state = .ok ())
    have free := (indexed_new (sized 300)).vacated_free (alone_occupant (sized 300) held)
    have funded : (empty.inserted held 0).senderIsFunded LedgerState.addressMin state = some true :=
      funded_ahead (by rw [nonce]; exact held_slot 0 held.id (by decide))
    have rest : (empty.inserted held 0).expireAndTrim 0 = pool := alone_rest (by
      rw [bid_length]
      decide)
    have entered := (indexed_new (sized 300)).accept_funded admits (by rw [free]; exact funded)
    rw [free, rest] at entered
    exact entered
  have reachable : Reachable (sized 300) pool := by
    have step : Reachable (sized 300) (empty.accept held state 0).2 := Reachable.new.accept held state 0
    rwa [entered] at step
  have indexed := reachable.consistent.indexed
  have present : pool.entries[held.id]? = some (entryOf held 0) := get_insert_self _ _ _
  have free : pool.occupant transaction = none := by
    unfold occupant
    rw [show pool.bySenderNonce[(transaction.sender, transaction.nonce)]? = none from
      held_slot 2 held.id (by decide)]
    rfl
  have admits : pool.Admits transaction state := by
    refine ⟨bid_relayed 0 300 nonce (by decide) (by decide) (by decide) (by decide) (by decide), ?_,
      fun existing occupied => ?_⟩
    · unfold contains
      change (((∅ : BTreeMap Hash32 MempoolEntry).insert held.id _)[transaction.id]?).isSome = false
      rw [get_insert, if_neg apart, get_empty]
      rfl
    · rw [free] at occupied
      cases occupied
  have vacated := indexed.vacated_free free
  have funded : ((pool.vacated transaction).inserted transaction 0).senderIsFunded
      transaction.sender state = some true := by
    rw [vacated]
    apply funded_ahead
    change (((∅ : BTreeMap (Address × UInt64) Hash32).insert (LedgerState.addressMin, 1) held.id).insert
      (LedgerState.addressMin, 2) transaction.id)[(LedgerState.addressMin,
        (state.account LedgerState.addressMin).nonce)]? = none
    rw [nonce, get_insert, if_neg (by decide)]
    exact held_slot 0 held.id (by decide)
  have room : pool.roomNeeded transaction 0 = 426 := by
    have listed : pool.entries.toList = [(held.id, entryOf held 0)] := toList_singleton _ _
    unfold roomNeeded
    rw [vacated, listed, List.filter_cons_of_pos]
    · change transaction.consensusEncode.length + (held.consensusEncode.length + 0) = 426
      rw [bid_length, bid_length]
    · rw [Bool.and_eq_true, decide_eq_true_iff, compareRate_eq, CrossOrder.rank_isLE]
      refine ⟨show ¬saturatingSub 0 0 > DEFAULT_MEMPOOL_TTL_SECONDS by decide, Or.inl ?_⟩
      change 100000 * held.consensusEncode.length < 300000 * transaction.consensusEncode.length
      rw [bid_length, bid_length]
      decide
  obtain ⟨answer, dropped⟩ := indexed.accept_get admits funded
  rw [room, if_neg (by decide)] at dropped
  refine ⟨crypto, pool, held, transaction, state, reachable, ?_, ?_, answer, dropped⟩
  · have either : ∀ input ∈ pool.hashInputs transaction,
        input = ("PARITR-P9-TXID-v1", held.consensusEncode) ∨
          input = ("PARITR-P9-TXID-v1", transaction.consensusEncode) := by
      intro input ⟨other, shape, source⟩
      rcases source with same | ⟨id, entry, found, same⟩
      · exact Or.inr (same ▸ shape)
      · change ((∅ : BTreeMap Hash32 MempoolEntry).insert held.id _)[id]? = some entry at found
        rw [get_insert, get_empty] at found
        split at found
        · cases found
          have named : held = other := same
          exact Or.inl (named ▸ shape)
        · cases found
    intro first left second right same
    rcases either first left with rfl | rfl
    · rcases either second right with rfl | rfl
      · rfl
      · exact absurd same apart
    · rcases either second right with rfl | rfl
      · exact absurd same.symm apart
      · rfl
  · unfold get
    rw [present]
    rfl

/-- A funded bid in an empty pool of the default size stays. -/
theorem accepted_bid_kept :
    let _ := spelled
    let accepted := (Mempool.new default).accept (bid 0 0 100000 100000) (purse 1000000) 0
    accepted.1 = .ok (bid 0 0 100000 100000).id ∧
      accepted.2.get (bid 0 0 100000 100000).id = some (bid 0 0 100000 100000) := by
  let _ := spelled
  have answer := congrArg Prod.fst (@accept_purse 100000 100000 1000000 (by decide) (by decide)
    (by decide) (by decide) (by decide) (by decide))
  have sole : ∀ input ∈ (Mempool.new default).hashInputs (bid 0 0 100000 100000),
      input = ("PARITR-P9-TXID-v1", (bid 0 0 100000 100000).consensusEncode) := by
    intro input ⟨other, shape, source⟩
    rcases source with same | ⟨id, entry, found, _⟩
    · exact same ▸ shape
    · change (∅ : BTreeMap Hash32 MempoolEntry)[id]? = some entry at found
      rw [get_empty] at found
      cases found
  have free : CollisionFree ((Mempool.new default).hashInputs (bid 0 0 100000 100000)) :=
    fun first left second right _ => (sole first left).trans (sole second right).symm
  refine ⟨answer, (accepted_present_iff Reachable.new _ (purse 1000000) 0 free).mpr ?_ _ answer⟩
  intro crowded
  have room := crowded.crowded
  rw [alone_roomNeeded, bid_length] at room
  exact absurd room (show ¬DEFAULT_MAX_MEMPOOL_BYTES < 213 by decide)

end Mempool

end ParitrNode
