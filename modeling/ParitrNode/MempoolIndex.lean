import ParitrNode.MempoolSelection

/-!
The three structures of the pool agree: entries under their ids, at most one
entry for a sender and nonce, and the byte count. Every call keeps them so, and
every call that returns leaves the pool within its limit.
-/

namespace ParitrNode
open OrderedMap Checked

def MempoolEntry.slot (entry : MempoolEntry) : Address × UInt64 :=
  (entry.transaction.sender, entry.transaction.nonce)

namespace Mempool

variable [Crypto]

structure Indexed (pool : Mempool) : Prop where
  keyed : ∀ (id : Hash32) (entry : MempoolEntry), pool.entries[id]? = some entry →
    entry.transaction.id = id ∧ entry.size = entry.transaction.consensusEncode.length
  slots : ∀ (slot : Address × UInt64) (id : Hash32), pool.bySenderNonce[slot]? = some id ↔
    ∃ entry, pool.entries[id]? = some entry ∧ entry.slot = slot
  counted : pool.bytes = total MempoolEntry.size pool.entries

theorem Indexed.unique {pool : Mempool} (indexed : pool.Indexed) {first second : Hash32}
    {entry other : MempoolEntry} (left : pool.entries[first]? = some entry)
    (right : pool.entries[second]? = some other) (same : entry.slot = other.slot) :
    first = second := by
  have one := (indexed.slots other.slot first).mpr ⟨entry, left, same⟩
  have two := (indexed.slots other.slot second).mpr ⟨other, right, rfl⟩
  rw [one] at two
  exact Option.some.inj two

theorem indexed_new (policy : RelayPolicy) : (Mempool.new policy).Indexed where
  keyed id entry found := by
    change (∅ : BTreeMap Hash32 MempoolEntry)[id]? = some entry at found
    rw [get_empty] at found
    cases found
  slots slot id := by
    change (∅ : BTreeMap (Address × UInt64) Hash32)[slot]? = some id ↔
      ∃ entry, (∅ : BTreeMap Hash32 MempoolEntry)[id]? = some entry ∧ entry.slot = slot
    rw [get_empty, get_empty]
    exact ⟨fun found => (nomatch found), fun ⟨_, found, _⟩ => (nomatch found)⟩
  counted := (total_empty MempoolEntry.size).symm

/-! Removal. -/

omit [Crypto] in
theorem remove_present {pool : Mempool} {id : Hash32} {entry : MempoolEntry}
    (present : pool.entries[id]? = some entry) :
    pool.remove id = { pool with
      entries := pool.entries.erase id
      bytes := pool.bytes - entry.size
      bySenderNonce := pool.bySenderNonce.erase entry.slot } := by
  unfold remove
  rw [present]
  rfl

omit [Crypto] in
theorem remove_absent {pool : Mempool} {id : Hash32} (absent : pool.entries[id]? = none) :
    pool.remove id = pool := by
  unfold remove
  rw [absent]

omit [Crypto] in
theorem get_remove (pool : Mempool) (id other : Hash32) :
    (pool.remove id).entries[other]? = if id = other then none else pool.entries[other]? := by
  cases present : pool.entries[id]? with
  | none =>
    rw [remove_absent present]
    split
    next same => rw [← same, present]
    next => rfl
  | some entry =>
    rw [remove_present present]
    exact get_erase _ _ _

omit [Crypto] in
theorem remove_policy (pool : Mempool) (id : Hash32) : (pool.remove id).policy = pool.policy := by
  unfold remove
  split
  · rfl
  · rfl

theorem Indexed.remove {pool : Mempool} (indexed : pool.Indexed) (id : Hash32) :
    (pool.remove id).Indexed := by
  cases present : pool.entries[id]? with
  | none => rwa [remove_absent present]
  | some entry =>
    rw [remove_present present]
    refine ⟨?_, ?_, ?_⟩
    · intro other kept found
      change (pool.entries.erase id)[other]? = some kept at found
      rw [get_erase] at found
      split at found
      · cases found
      · exact indexed.keyed other kept found
    · intro slot other
      change (pool.bySenderNonce.erase entry.slot)[slot]? = some other ↔
        ∃ kept, (pool.entries.erase id)[other]? = some kept ∧ kept.slot = slot
      rw [get_erase, get_erase]
      by_cases freed : entry.slot = slot
      · -- the freed slot had no other entry
        rw [if_pos freed]
        constructor
        · intro found
          cases found
        · intro ⟨kept, found, same⟩
          split at found
          · cases found
          · next different =>
            exact absurd (indexed.unique present found (freed.trans same.symm)) different
      · rw [if_neg freed, indexed.slots]
        constructor
        · intro ⟨kept, found, same⟩
          refine ⟨kept, ?_, same⟩
          rw [if_neg, found]
          intro equal
          rw [← equal, present] at found
          cases found
          exact freed same
        · intro ⟨kept, found, same⟩
          split at found
          · cases found
          · exact ⟨kept, found, same⟩
    · change pool.bytes - entry.size = total MempoolEntry.size (pool.entries.erase id)
      rw [indexed.counted, total_erase MempoolEntry.size present, Nat.add_sub_cancel_left]

theorem Indexed.removeAll {pool : Mempool} (indexed : pool.Indexed) (ids : List Hash32) :
    (ids.foldl Mempool.remove pool).Indexed := by
  induction ids generalizing pool with
  | nil => exact indexed
  | cons id rest ih => exact ih (indexed.remove id)

omit [Crypto] in
theorem remove_bytes_le (pool : Mempool) (id : Hash32) : (pool.remove id).bytes ≤ pool.bytes := by
  unfold Mempool.remove
  split
  · exact Nat.le_refl _
  · exact Nat.sub_le _ _

omit [Crypto] in
theorem removeAll_bytes_le (pool : Mempool) (ids : List Hash32) :
    (ids.foldl Mempool.remove pool).bytes ≤ pool.bytes := by
  induction ids generalizing pool with
  | nil => exact Nat.le_refl _
  | cons id rest ih => exact Nat.le_trans (ih (pool.remove id)) (pool.remove_bytes_le id)

omit [Crypto] in
theorem removeAll_policy (pool : Mempool) (ids : List Hash32) :
    (ids.foldl Mempool.remove pool).policy = pool.policy := by
  induction ids generalizing pool with
  | nil => rfl
  | cons id rest ih => exact (ih (pool.remove id)).trans (pool.remove_policy id)

theorem removeConfirmed_eq (pool : Mempool) (transactions : List Transaction) :
    pool.removeConfirmed transactions =
      (transactions.map Transaction.id).foldl Mempool.remove pool := by
  unfold removeConfirmed
  rw [List.foldl_map]

/-! Trimming. -/

omit [Crypto] in
theorem lowest_mem {pool : Mempool} {id : Hash32} (found : pool.lowest = some id) :
    ∃ entry, pool.entries[id]? = some entry := by
  unfold lowest at found
  obtain ⟨⟨first, entry⟩, head, rfl⟩ := Option.map_eq_some_iff.mp found
  have member := List.mem_of_head? head
  rw [List.mem_mergeSort] at member
  exact ⟨entry, mem_toList.mp member⟩

omit [Crypto] in
theorem lowest_none {pool : Mempool} (found : pool.lowest = none) :
    total MempoolEntry.size pool.entries = 0 := by
  unfold lowest at found
  rw [Option.map_eq_none_iff, List.head?_eq_none_iff] at found
  have sorted := (List.mergeSort_perm pool.entries.toList
    fun left right => (compareRate left right).isLE)
  rw [found] at sorted
  unfold total
  rw [sorted.symm.eq_nil]
  rfl

theorem Indexed.trim {pool : Mempool} (indexed : pool.Indexed) (count : Nat) :
    (Mempool.trim count pool).Indexed := by
  induction count generalizing pool with
  | zero => exact indexed
  | succ count ih =>
    rw [Mempool.trim]
    split
    · split
      · exact ih (indexed.remove _)
      · exact indexed
    · exact indexed

omit [Crypto] in
theorem trim_policy (pool : Mempool) (count : Nat) : (Mempool.trim count pool).policy = pool.policy := by
  induction count generalizing pool with
  | zero => rfl
  | succ count ih =>
    rw [Mempool.trim]
    split
    · split
      · exact (ih _).trans (pool.remove_policy _)
      · rfl
    · rfl

omit [Crypto] in
theorem remove_size {pool : Mempool} {id : Hash32} {entry : MempoolEntry}
    (present : pool.entries[id]? = some entry) :
    (pool.remove id).entries.size < pool.entries.size := by
  rw [remove_present present]
  have within : Within (pool.entries.erase id) pool.entries := by
    intro other kept found
    rw [get_erase] at found
    split at found
    · cases found
    · exact found
  exact within.size_lt (get_erase_self _ id) present

/-- The loop ends below the limit: each round takes out one entry, and a pool
without entries counts no bytes. -/
theorem trim_bytes_le {pool : Mempool} (indexed : pool.Indexed) {count : Nat}
    (enough : pool.entries.size ≤ count) :
    (Mempool.trim count pool).bytes ≤ pool.policy.maxMempoolBytes := by
  induction count generalizing pool with
  | zero =>
    have empty := Std.ExtTreeMap.eq_empty_iff_size_eq_zero.mpr (Nat.le_zero.mp enough)
    change pool.bytes ≤ _
    rw [indexed.counted, empty, total_empty]
    exact Nat.zero_le _
  | succ count ih =>
    rw [Mempool.trim]
    by_cases crowded : pool.bytes > pool.policy.maxMempoolBytes
    · rw [if_pos crowded]
      cases lowest : pool.lowest with
      | none =>
        rw [indexed.counted, lowest_none lowest] at crowded
        omega
      | some id =>
        obtain ⟨entry, present⟩ := lowest_mem lowest
        have fewer := remove_size present
        have later := ih (indexed.remove id) (by omega)
        rwa [remove_policy] at later
    · rw [if_neg crowded]
      exact Nat.le_of_not_gt crowded

theorem Indexed.expireAndTrim {pool : Mempool} (indexed : pool.Indexed) (now : UInt64) :
    (pool.expireAndTrim now).Indexed := (indexed.removeAll _).trim _

theorem expireAndTrim_bytes_le {pool : Mempool} (indexed : pool.Indexed) (now : UInt64) :
    (pool.expireAndTrim now).bytes ≤ pool.policy.maxMempoolBytes := by
  have trimmed := trim_bytes_le (indexed.removeAll (pool.expired now)) (Nat.le_refl _)
  rwa [removeAll_policy] at trimmed

omit [Crypto] in
theorem expireAndTrim_policy (pool : Mempool) (now : UInt64) :
    (pool.expireAndTrim now).policy = pool.policy := by
  unfold Mempool.expireAndTrim
  rw [trim_policy, removeAll_policy]

/-! Insertion. -/

def inserted (pool : Mempool) (transaction : Transaction) (now : UInt64) : Mempool :=
  { pool with
    bytes := pool.bytes + transaction.consensusEncode.length
    bySenderNonce := pool.bySenderNonce.insert (transaction.sender, transaction.nonce) transaction.id
    entries := pool.entries.insert transaction.id
      ⟨transaction, now, transaction.consensusEncode.length⟩ }

theorem insertFunded_eq (pool : Mempool) (transaction : Transaction) (state : LedgerState)
    (now : UInt64) :
    pool.insertFunded transaction state now =
      match (pool.inserted transaction now).senderIsFunded transaction.sender state with
      | none => (.error .panicked, pool.inserted transaction now)
      | some false => (.error .balance, (pool.inserted transaction now).remove transaction.id)
      | some true => (.ok transaction.id, (pool.inserted transaction now).expireAndTrim now) := rfl

structure Vacant (pool : Mempool) (transaction : Transaction) : Prop where
  id : pool.entries[transaction.id]? = none
  slot : pool.bySenderNonce[(transaction.sender, transaction.nonce)]? = none

theorem Indexed.inserted {pool : Mempool} (indexed : pool.Indexed) {transaction : Transaction}
    (vacant : pool.Vacant transaction) (now : UInt64) : (pool.inserted transaction now).Indexed where
  keyed id entry found := by
    change (pool.entries.insert transaction.id _)[id]? = some entry at found
    rw [get_insert] at found
    split at found
    · next same =>
      cases found
      exact ⟨same, rfl⟩
    · exact indexed.keyed id entry found
  slots slot id := by
    change (pool.bySenderNonce.insert (transaction.sender, transaction.nonce) transaction.id)[slot]? =
      some id ↔ ∃ entry, (pool.entries.insert transaction.id _)[id]? = some entry ∧ entry.slot = slot
    rw [get_insert, get_insert]
    by_cases own : transaction.id = id
    · rw [if_pos own]
      constructor
      · intro found
        split at found
        · next here => exact ⟨_, rfl, here⟩
        · obtain ⟨entry, present, _⟩ := (indexed.slots slot id).mp found
          rw [← own, vacant.id] at present
          cases present
      · intro ⟨entry, found, same⟩
        cases found
        rw [if_pos (show (transaction.sender, transaction.nonce) = slot from same), own]
    · rw [if_neg own]
      by_cases here : (transaction.sender, transaction.nonce) = slot
      · rw [if_pos here]
        constructor
        · intro found
          exact absurd (Option.some.inj found) own
        · intro other
          have taken := (indexed.slots slot id).mpr other
          rw [← here, vacant.slot] at taken
          cases taken
      · rw [if_neg here]
        exact indexed.slots slot id
  counted := by
    change pool.bytes + _ = total MempoolEntry.size (pool.entries.insert transaction.id _)
    rw [total_insert_fresh MempoolEntry.size vacant.id, ← indexed.counted]

theorem inserted_remove {pool : Mempool} {transaction : Transaction}
    (vacant : pool.Vacant transaction) (now : UInt64) :
    (pool.inserted transaction now).remove transaction.id = pool := by
  have present : (pool.inserted transaction now).entries[transaction.id]? =
      some ⟨transaction, now, transaction.consensusEncode.length⟩ := get_insert_self _ _ _
  have entries : (pool.entries.insert transaction.id
      ⟨transaction, now, transaction.consensusEncode.length⟩).erase transaction.id = pool.entries :=
    erase_insert_of_none vacant.id _
  have slots : (pool.bySenderNonce.insert (transaction.sender, transaction.nonce)
      transaction.id).erase (transaction.sender, transaction.nonce) = pool.bySenderNonce :=
    erase_insert_of_none vacant.slot _
  rw [remove_present present]
  unfold Mempool.inserted MempoolEntry.slot
  dsimp only
  rw [entries, slots, Nat.add_sub_cancel]

theorem Indexed.funding_known {pool : Mempool} (indexed : pool.Indexed) (sender : Address)
    (state : LedgerState) : ∃ funded, pool.senderIsFunded sender state = some funded := by
  have stored : ∀ item ∈ pool.senderQueue sender (state.account sender).nonce,
      ∃ entry, pool.entries[item.2]? = some entry := by
    intro (slot, id) member
    have listed := mem_toList.mp (List.mem_of_mem_filter member)
    obtain ⟨entry, present, _⟩ := (indexed.slots slot id).mp listed
    exact ⟨entry, present⟩
  unfold senderIsFunded
  dsimp only
  generalize pool.senderQueue sender (state.account sender).nonce = queue at stored
  generalize (state.account sender).nonce = nonce
  generalize (state.account sender).balance = balance
  induction queue generalizing nonce balance with
  | nil => exact ⟨true, rfl⟩
  | cons item rest ih =>
    obtain ⟨⟨entrySender, entryNonce⟩, id⟩ := item
    obtain ⟨entry, present⟩ := stored _ List.mem_cons_self
    rw [fundedFrom]
    split
    · exact ⟨true, rfl⟩
    · rw [present, Option.bind_eq_bind, Option.bind_some]
      split
      · exact ⟨false, rfl⟩
      · split
        · exact ⟨false, rfl⟩
        · exact ih (fun other member => stored other (List.mem_cons_of_mem _ member)) _ _

/-! Acceptance. -/

theorem validateForRelay_no_panic {transaction : Transaction} {policy : RelayPolicy}
    {state : LedgerState} : validateForRelay transaction policy state ≠ .error .panicked := by
  unfold validateForRelay
  intro panicked
  split at panicked
  · cases panicked
  · dsimp only at panicked
    split at panicked
    · cases panicked
    · split at panicked
      · cases panicked
      · cases panicked

def occupant (pool : Mempool) (transaction : Transaction) : Option MempoolEntry :=
  pool.bySenderNonce[(transaction.sender, transaction.nonce)]?.bind (pool.entries[·]?)

def vacated (pool : Mempool) (transaction : Transaction) : Mempool :=
  match pool.bySenderNonce[(transaction.sender, transaction.nonce)]? with
  | some id => pool.remove id
  | none => pool

structure Admits (pool : Mempool) (transaction : Transaction) (state : LedgerState) : Prop where
  relayed : validateForRelay transaction pool.policy state = .ok ()
  fresh : pool.contains transaction.id = false
  outbids : ∀ existing, pool.occupant transaction = some existing →
    replacementFee pool.policy existing.transaction ≤ transaction.fee

theorem Indexed.occupant_some {pool : Mempool} (indexed : pool.Indexed) {transaction : Transaction}
    {id : Hash32} (taken : pool.bySenderNonce[(transaction.sender, transaction.nonce)]? = some id) :
    ∃ existing, pool.entries[id]? = some existing ∧ pool.occupant transaction = some existing := by
  obtain ⟨existing, present, _⟩ := (indexed.slots _ id).mp taken
  refine ⟨existing, present, ?_⟩
  unfold occupant
  rw [taken]
  exact present

theorem Indexed.vacated {pool : Mempool} (indexed : pool.Indexed) (transaction : Transaction) :
    (pool.vacated transaction).Indexed := by
  unfold Mempool.vacated
  split
  · exact indexed.remove _
  · exact indexed

omit [Crypto] in
theorem vacated_policy (pool : Mempool) (transaction : Transaction) :
    (pool.vacated transaction).policy = pool.policy := by
  unfold vacated
  split
  · exact remove_policy _ _
  · rfl

theorem Indexed.vacant {pool : Mempool} (indexed : pool.Indexed) {transaction : Transaction}
    (fresh : pool.contains transaction.id = false) :
    (pool.vacated transaction).Vacant transaction := by
  have absent : pool.entries[transaction.id]? = none := by
    unfold contains at fresh
    rwa [Option.isSome_eq_false_iff, Option.isNone_iff_eq_none] at fresh
  unfold Mempool.vacated
  cases taken : pool.bySenderNonce[(transaction.sender, transaction.nonce)]? with
  | none => exact ⟨absent, taken⟩
  | some id =>
    obtain ⟨existing, present, same⟩ := (indexed.slots _ id).mp taken
    refine ⟨?_, ?_⟩
    · dsimp only
      rw [get_remove, absent, ite_self]
    · dsimp only
      rw [remove_present present]
      change (pool.bySenderNonce.erase existing.slot)[(transaction.sender, transaction.nonce)]? = none
      rw [same, get_erase_self]

theorem Indexed.accept_admitted {pool : Mempool} (indexed : pool.Indexed) {transaction : Transaction}
    {state : LedgerState} (admits : pool.Admits transaction state) (now : UInt64) :
    pool.accept transaction state now =
      (pool.vacated transaction).insertFunded transaction state now := by
  unfold accept Mempool.vacated
  rw [admits.relayed, admits.fresh]
  cases taken : pool.bySenderNonce[(transaction.sender, transaction.nonce)]? with
  | none => rfl
  | some id =>
    obtain ⟨existing, present, occupied⟩ := indexed.occupant_some taken
    have enough := UInt64.not_lt.mpr (admits.outbids existing occupied)
    dsimp only
    rw [present]
    dsimp only
    rw [if_neg enough]
    rfl

theorem Indexed.accept_refused {pool : Mempool} (indexed : pool.Indexed) {transaction : Transaction}
    {state : LedgerState} (refused : ¬pool.Admits transaction state) (now : UInt64) :
    (∃ error, error ≠ .panicked ∧ pool.accept transaction state now = (.error error, pool)) ∨
      (validateForRelay transaction pool.policy state = .ok () ∧
        pool.contains transaction.id = true ∧
        pool.accept transaction state now = (.ok transaction.id, pool)) := by
  unfold accept
  cases relayed : validateForRelay transaction pool.policy state with
  | error error =>
    refine Or.inl ⟨error, ?_, rfl⟩
    intro panicked
    exact validateForRelay_no_panic (panicked ▸ relayed)
  | ok =>
    dsimp only
    by_cases known : pool.contains transaction.id = true
    · rw [if_pos known]
      exact Or.inr ⟨rfl, known, rfl⟩
    rw [if_neg known]
    have fresh : pool.contains transaction.id = false := by rwa [Bool.not_eq_true] at known
    cases taken : pool.bySenderNonce[(transaction.sender, transaction.nonce)]? with
    | none =>
      refine absurd ⟨relayed, fresh, ?_⟩ refused
      intro existing occupied
      unfold occupant at occupied
      rw [taken] at occupied
      cases occupied
    | some id =>
      obtain ⟨existing, present, occupied⟩ := indexed.occupant_some taken
      dsimp only
      rw [present]
      dsimp only
      by_cases low : transaction.fee < replacementFee pool.policy existing.transaction
      · rw [if_pos low]
        exact Or.inl ⟨.replacementFee, by decide, rfl⟩
      · refine absurd ⟨relayed, fresh, ?_⟩ refused
        intro other same
        rw [occupied] at same
        rw [← Option.some.inj same]
        exact UInt64.not_lt.mp low

/-! Every call. -/

structure Consistent (policy : RelayPolicy) (pool : Mempool) : Prop where
  policy_eq : pool.policy = policy
  indexed : pool.Indexed
  within : pool.bytes ≤ policy.maxMempoolBytes

theorem Consistent.remove {policy : RelayPolicy} {pool : Mempool} (consistent : Consistent policy pool)
    (id : Hash32) : Consistent policy (pool.remove id) where
  policy_eq := (pool.remove_policy id).trans consistent.policy_eq
  indexed := consistent.indexed.remove id
  within := Nat.le_trans (pool.remove_bytes_le id) consistent.within

theorem Consistent.vacated {policy : RelayPolicy} {pool : Mempool}
    (consistent : Consistent policy pool) (transaction : Transaction) :
    Consistent policy (pool.vacated transaction) := by
  unfold Mempool.vacated
  split
  · exact consistent.remove _
  · exact consistent

theorem Consistent.removeAll {policy : RelayPolicy} {pool : Mempool}
    (consistent : Consistent policy pool) (ids : List Hash32) :
    Consistent policy (ids.foldl Mempool.remove pool) := by
  induction ids generalizing pool with
  | nil => exact consistent
  | cons id rest ih => exact ih (consistent.remove id)

/-- What expiry and trimming leave is within the limit, whatever it was before. -/
theorem Indexed.consistent {policy : RelayPolicy} {pool : Mempool} (indexed : pool.Indexed)
    (same : pool.policy = policy) (now : UInt64) : Consistent policy (pool.expireAndTrim now) where
  policy_eq := (pool.expireAndTrim_policy now).trans same
  indexed := indexed.expireAndTrim now
  within := by
    rw [← same]
    exact expireAndTrim_bytes_le indexed now

theorem Consistent.insertFunded {policy : RelayPolicy} {pool : Mempool}
    (consistent : Consistent policy pool) {transaction : Transaction}
    (vacant : pool.Vacant transaction) (state : LedgerState) (now : UInt64) :
    Consistent policy (pool.insertFunded transaction state now).2 ∧
      (pool.insertFunded transaction state now).1 ≠ .error .panicked := by
  have indexed := consistent.indexed.inserted vacant now
  obtain ⟨funded, known⟩ := indexed.funding_known transaction.sender state
  rw [insertFunded_eq, known]
  cases funded with
  | false =>
    dsimp only
    rw [inserted_remove vacant]
    exact ⟨consistent, by decide⟩
  | true => exact ⟨indexed.consistent consistent.policy_eq now, fun panicked => nomatch panicked⟩

theorem Consistent.accept {policy : RelayPolicy} {pool : Mempool}
    (consistent : Consistent policy pool) (transaction : Transaction) (state : LedgerState)
    (now : UInt64) : Consistent policy (pool.accept transaction state now).2 ∧
      (pool.accept transaction state now).1 ≠ .error .panicked := by
  by_cases admits : pool.Admits transaction state
  · rw [consistent.indexed.accept_admitted admits]
    exact (consistent.vacated transaction).insertFunded (consistent.indexed.vacant admits.fresh) state now
  · rcases consistent.indexed.accept_refused admits now with ⟨error, other, refused⟩ | ⟨_, _, known⟩
    · rw [refused]
      exact ⟨consistent, fun panicked => other (Except.error.inj panicked)⟩
    · rw [known]
      exact ⟨consistent, fun panicked => nomatch panicked⟩

theorem Reachable.consistent {policy : RelayPolicy} {pool : Mempool}
    (reachable : Reachable policy pool) : Consistent policy pool := by
  induction reachable with
  | new => exact ⟨rfl, indexed_new policy, Nat.zero_le _⟩
  | accept earlier transaction state now ih => exact (ih.accept transaction state now).1
  | removeConfirmed earlier transactions ih =>
    rw [removeConfirmed_eq]
    exact ih.removeAll _
  | expireAndTrim earlier now ih => exact ih.indexed.consistent ih.policy_eq now

/-- After every call the entries, their index and the byte count agree, the pool
is within its limit, and no further call looks up an id that is not there. -/
theorem pool_representation {policy : RelayPolicy} {pool : Mempool}
    (reachable : Reachable policy pool) :
    (∀ (id : Hash32) (entry : MempoolEntry), pool.entries[id]? = some entry →
      entry.transaction.id = id) ∧
    (∀ (sender : Address) (nonce : UInt64) (id : Hash32),
      pool.bySenderNonce[(sender, nonce)]? = some id ↔ ∃ entry, pool.entries[id]? = some entry ∧
        entry.transaction.sender = sender ∧ entry.transaction.nonce = nonce) ∧
    pool.bytes = total (fun entry => entry.transaction.consensusEncode.length) pool.entries ∧
    pool.bytes ≤ policy.maxMempoolBytes ∧
    ∀ (transaction : Transaction) (state : LedgerState) (now : UInt64),
      (pool.accept transaction state now).1 ≠ .error .panicked := by
  have consistent := reachable.consistent
  have indexed := consistent.indexed
  refine ⟨fun id entry found => (indexed.keyed id entry found).1, ?_, ?_, consistent.within,
    fun transaction state now => (consistent.accept transaction state now).2⟩
  · intro sender nonce id
    rw [indexed.slots]
    apply exists_congr
    intro entry
    unfold MempoolEntry.slot
    rw [Prod.mk.injEq]
  · rw [indexed.counted]
    unfold total
    apply congrArg List.sum
    apply List.map_congr_left
    intro (id, entry) member
    exact (indexed.keyed id entry (mem_toList.mp member)).2

omit [Crypto] in
/-- The pool after a first transfer, on a ledger that funds it. -/
theorem pool_after_transfer :
    let _ := permissive
    let state := (default : LedgerState).setAccount transfer.sender ⟨1000000, 0⟩
    let pool := ((Mempool.new default).accept transfer state 0).2
    pool.bytes = total (fun entry => entry.transaction.consensusEncode.length) pool.entries ∧
      pool.bytes ≤ DEFAULT_MAX_MEMPOOL_BYTES := by
  intro crypto state pool
  have reachable : Reachable default pool := Reachable.new.accept transfer state 0
  obtain ⟨_, _, counted, within, _⟩ := pool_representation reachable
  exact ⟨counted, within⟩

end Mempool

end ParitrNode
