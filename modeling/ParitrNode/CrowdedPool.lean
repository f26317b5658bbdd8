import ParitrNode.AccountView
import ParitrNode.RotatingFinders

/-!
A pool with more transactions than a block has room for. Sixty-five miners queue
as many payments as the relay policy lets them, and the cheapest of them is told
to use a nonce that its first payment has.
-/

namespace ParitrNode
open ByteCodec OrderedMap Checked

/-! Primitives under which the end of a public key is the key hash of its address. -/

@[reducible] def keyed : Crypto :=
  { spelled with
    ripemd160 := fun data => ⟨(List.replicate 20 0 ++ data).drop data.length, by
      rw [List.length_drop, List.length_append, List.length_replicate, Nat.add_sub_cancel]⟩
    publicKeyFromSlice := fun key => if width : key.length = 65 then some ⟨key, width⟩ else none }

theorem keyed_heights (first second : BlockHeader)
    (same : @BlockHeader.id keyed first = @BlockHeader.id keyed second) : first.height = second.height :=
  spelled_heights first second same

def memberKey (number : Nat) : Bytes := List.replicate 45 0 ++ (member number).keyHash.bytes

theorem memberKey_length (number : Nat) : (memberKey number).length = 65 := by
  unfold memberKey
  rw [List.length_append, List.length_replicate, FixedBytes.length_eq]

theorem memberKey_address (number : Nat) :
    @Address.fromPublicKey keyed ⟨memberKey number, memberKey_length number⟩ = member number := by
  let tail : Hash32 := ⟨List.replicate 12 0 ++ (member number).keyHash.bytes, by
    rw [List.length_append, List.length_replicate, FixedBytes.length_eq]⟩
  have hashed : spellHash (memberKey number) = tail := by
    unfold spellHash
    rw [if_neg (by rw [memberKey_length]; decide)]
    exact lastBytes_append (List.replicate 33 0) tail
  apply Address.ext
  apply FixedBytes.ext
  change (List.replicate 20 0 ++ (spellHash (memberKey number)).bytes).drop
    (spellHash (memberKey number)).bytes.length = _
  rw [hashed, FixedBytes.length_eq]
  change (List.replicate 20 0 ++ (List.replicate 12 0 ++ (member number).keyHash.bytes)).drop 32 = _
  rw [← List.append_assoc]
  apply List.drop_left'
  rfl

/-! The payments. -/

/-- The first miner pays half the fee of the others. -/
def orderFee (number : Nat) : UInt64 := if number = 0 then 100000 else 200000

theorem orderFee_range (number : Nat) : 100000 ≤ orderFee number ∧ orderFee number ≤ 200000 := by
  unfold orderFee
  split
  · exact ⟨by decide, by decide⟩
  · exact ⟨by decide, by decide⟩

def order (number index : Nat) : Transaction :=
  { bid number index 1000 (orderFee number) with
    sender := member number
    publicKey := memberKey number }

theorem order_nonce (number : Nat) {index : Nat} (small : index < 2 ^ 64) :
    (order number index).nonce.toNat = index := payment_nonce number small

theorem order_cost_le (number index : Nat) : (order number index).cost ≤ 201000 := by
  have fee := UInt64.le_iff_toNat_le.mp (orderFee_range number).2
  have most : (200000 : UInt64).toNat = 200000 := rfl
  have amount : (order number index).amount.toNat = 1000 := rfl
  unfold Transaction.cost
  change _ + (orderFee number).toNat ≤ 201000
  omega

theorem order_length (number index : Nat) :
    (@Transaction.consensusEncode keyed (order number index)).length = 213 := by
  let _ := keyed
  have key : (order number index).publicKey.length = 65 := memberKey_length number
  have signature : (order number index).signature.length = 64 := payment_signature number index
  simp only [Transaction.consensusEncode, List.length_append, Writer.u16_length, Address.asBytes_length,
    Writer.u64_length, Writer.bytes_length, key, signature]

theorem order_id (number index : Nat) :
    @Transaction.id keyed (order number index) = spelling number index := by
  let _ := keyed
  have ends : ∃ head : Bytes,
      (order number index).consensusEncode = head ++ (spelling number index).bytes := by
    refine ⟨Writer.u16 Transaction.VERSION ++ ((member number).asBytes ++
      (LedgerState.addressMax.asBytes ++ (Writer.u64 (order number index).amount ++
      (Writer.u64 (order number index).fee ++ (Writer.u64 (UInt64.ofNat index) ++
      (Writer.bytes (memberKey number) ++ (Writer.u32 64 ++ List.replicate 32 0))))))), ?_⟩
    simp only [List.append_assoc]
    rfl
  obtain ⟨head, ends⟩ := ends
  apply spelled_ends "PARITR-P9-TXID-v1" ends
  rw [order_length]
  decide

theorem member_ne_max {number : Nat} (small : number < 65) : member number ≠ LedgerState.addressMax := by
  intro same
  have bytes : (leBytes 20 number).head? = some 0xff :=
    congrArg (fun address : Address => address.keyHash.bytes.head?) same
  change some (UInt8.ofNat (number % 256)) = some 0xff at bytes
  have values := congrArg UInt8.toNat (Option.some.inj bytes)
  rw [UInt8.toNat_ofNat_of_lt' (by change _ < 256; omega)] at values
  change number % 256 = 255 at values
  omega

theorem order_signed (number index : Nat) : @checkSignature keyed (order number index) = .ok () := by
  let _ := keyed
  have width : (order number index).signature.length = 64 := payment_signature number index
  have owned : ¬Address.fromPublicKey ⟨memberKey number, memberKey_length number⟩ ≠ member number :=
    not_not_intro (memberKey_address number)
  unfold checkSignature signatureArray
  rw [dif_pos width]
  apply bind_ok.mpr
  refine ⟨_, rfl, ?_⟩
  have parsed : ∀ digest signature, parseAndValidateSignature (member number) (memberKey number)
      signature digest = .ok () := by
    intro digest signature
    have low : ¬Crypto.normalizeS signature ≠ signature := not_not_intro rfl
    unfold parseAndValidateSignature
    rw [show Crypto.publicKeyFromSlice (memberKey number) =
      some ⟨memberKey number, memberKey_length number⟩ from dif_pos (memberKey_length number)]
    dsimp only
    rw [if_neg owned, show Crypto.signatureFromCompact signature = some signature from rfl]
    dsimp only
    rw [if_neg low]
    rfl
  rw [show (order number index).sender = member number from rfl,
    show (order number index).publicKey = memberKey number from rfl, parsed]
  rfl

theorem order_relayed {number index : Nat} (small : number < 65) (gap : index < 65) {state : LedgerState}
    (nonce : nonceOf state (member number) = 0) :
    @validateForRelay keyed (order number index) default state = .ok () := by
  let _ := keyed
  have value : (order number index).nonce.toNat = index := order_nonce number (by omega)
  have below : (order number index).nonce ≠ UInt64.ofNat (2 ^ 64 - 1) := by
    intro top
    have range := congrArg UInt64.toNat top
    rw [value] at range
    change index = 2 ^ 64 - 1 at range
    omega
  have near : ¬((order number index).nonce < 0 ∨
      (order number index).nonce > saturatingAdd 0 (default : RelayPolicy).maxNonceGap) := by
    have limit : saturatingAdd 0 (default : RelayPolicy).maxNonceGap = 64 := rfl
    have zero : (0 : UInt64).toNat = 0 := rfl
    have last : (64 : UInt64).toNat = 64 := rfl
    rw [limit, gt_iff_lt, UInt64.lt_iff_toNat_lt, UInt64.lt_iff_toNat_lt, value, zero, last]
    omega
  obtain ⟨least, most⟩ := orderFee_range number
  have range : orderFee number ≤ MAX_MONEY := UInt64.le_trans most (by decide)
  unfold validateForRelay
  rw [if_neg]
  · dsimp only
    rw [show (order number index).sender = member number from rfl,
      show (state.account (member number)).nonce = 0 from nonce, if_neg near, order_signed]
  · simp only [not_or, Decidable.not_not, gt_iff_lt, UInt64.not_lt]
    have key := memberKey_length number
    exact ⟨rfl, show (1000 : UInt64) ≠ 0 by decide, show (1000 : UInt64) ≤ MAX_MONEY by decide, range,
      below, show DEFAULT_DUST_LIMIT ≤ 1000 by decide, least, member_ne_max small,
      fun other => other.2 key, payment_signature number index⟩

/-! The pool. The miners queue one after another. -/

def orderAt (place : Nat) : Transaction := order (place / 65) (place % 65)

/-- Different places have different signatures, and different slots. -/
theorem orderAt_spelling {place other : Nat} (small : place < 4225) (small' : other < 4225)
    (same : spelling (place / 65) (place % 65) = spelling (other / 65) (other % 65)) : place = other := by
  obtain ⟨numbers, indices⟩ := spelling_eq same
  have number := ofNat_eq (by omega) (by omega) numbers
  have index := ofNat_eq (by omega) (by omega) indices
  omega

theorem orderAt_slot {place other : Nat} (small : place < 4225) (small' : other < 4225)
    (senders : (orderAt place).sender = (orderAt other).sender)
    (nonces : (orderAt place).nonce = (orderAt other).nonce) : place = other := by
  have wide : 65 < 256 ^ 20 := by decide
  have number : place / 65 = other / 65 := member_injective (by omega) (by omega) senders
  have values := congrArg UInt64.toNat nonces
  unfold orderAt at values
  rw [order_nonce _ (by omega), order_nonce _ (by omega)] at values
  omega

namespace Mempool

def crowd [Crypto] : Nat → Mempool
  | 0 => Mempool.new default
  | count + 1 => (crowd count).inserted (orderAt count) 0

theorem crowd_get {count : Nat} (small : count ≤ 4225) (id : Hash32) (entry : MempoolEntry) :
    let _ := keyed
    (crowd count).entries[id]? = some entry ↔
      ∃ place < count, id = (orderAt place).id ∧ entry = entryOf (orderAt place) 0 := by
  intro crypto
  induction count with
  | zero =>
    change (∅ : BTreeMap Hash32 MempoolEntry)[id]? = some entry ↔ _
    rw [get_empty]
    exact ⟨fun impossible => (nomatch impossible), fun ⟨_, before, _⟩ => absurd before (Nat.not_lt_zero _)⟩
  | succ count ih =>
    change ((crowd count).entries.insert (orderAt count).id (entryOf (orderAt count) 0))[id]? = some entry ↔ _
    rw [get_insert]
    by_cases same : (orderAt count).id = id
    · rw [if_pos same]
      constructor
      · intro found
        cases found
        exact ⟨count, Nat.lt_succ_self count, same.symm, rfl⟩
      · intro ⟨place, before, named, shape⟩
        have spelled : spelling (count / 65) (count % 65) = spelling (place / 65) (place % 65) := by
          rw [← order_id, ← order_id]
          exact same.trans named
        rw [shape, orderAt_spelling (by omega) (by omega) spelled]
    · rw [if_neg same, ih (by omega)]
      constructor
      · intro ⟨place, before, found⟩
        exact ⟨place, Nat.lt_succ_of_lt before, found⟩
      · intro ⟨place, before, named, shape⟩
        rcases Nat.lt_succ_iff_lt_or_eq.mp before with earlier | last
        · exact ⟨place, earlier, named, shape⟩
        · rw [last] at named
          exact absurd named.symm same

theorem mem_crowd {count : Nat} (small : count ≤ 4225) {transaction : Transaction} :
    let _ := keyed
    transaction ∈ (crowd count).transactions ↔ ∃ place < count, transaction = orderAt place := by
  intro crypto
  constructor
  · intro ⟨id, entry, present, same⟩
    obtain ⟨place, before, _, shape⟩ := (crowd_get small id entry).mp present
    rw [shape] at same
    exact ⟨place, before, same.symm⟩
  · intro ⟨place, before, same⟩
    exact ⟨(orderAt place).id, entryOf (orderAt place) 0,
      (crowd_get small _ _).mpr ⟨place, before, rfl, rfl⟩, same.symm⟩

def Endowed (state : LedgerState) : Prop :=
  ∀ number < 65, nonceOf state (member number) = 0 ∧ 65 * 201000 ≤ state.balanceOf (member number)

theorem crowd_run {count : Nat} (small : count ≤ 4225) {number : Nat} {run : List Transaction}
    (queued : @Run (@crowd keyed count) (member number) 0 run) :
    run.length ≤ 65 ∧ totalCost run ≤ 65 * 201000 := by
  let _ := keyed
  have orders : ∀ (index : Nat) (transaction : Transaction), run[index]? = some transaction →
      index < 65 ∧ transaction.cost ≤ 201000 := by
    intro index transaction found
    obtain ⟨held, _, slot⟩ := queued.mem found
    obtain ⟨place, before, same⟩ := (mem_crowd small).mp held
    rw [same] at slot ⊢
    unfold orderAt at slot ⊢
    rw [order_nonce _ (by omega)] at slot
    exact ⟨by omega, order_cost_le _ _⟩
  have short : run.length ≤ 65 := by
    by_contra long
    have found := orders 65 _ (List.getElem?_eq_getElem (by omega))
    omega
  refine ⟨short, ?_⟩
  have each : ∀ cost ∈ run.map Transaction.cost, cost ≤ 201000 := by
    intro cost member
    obtain ⟨transaction, inside, same⟩ := List.mem_map.mp member
    obtain ⟨index, bound, found⟩ := List.getElem_of_mem inside
    rw [← same, ← found]
    exact (orders index _ (List.getElem?_eq_getElem bound)).2
  have sum := List.sum_le_card_nsmul _ 201000 each
  rw [List.length_map, smul_eq_mul] at sum
  exact Nat.le_trans sum (Nat.mul_le_mul_right _ short)

theorem crowd_fresh {count : Nat} (small : count < 4225) :
    let _ := keyed
    (crowd count).entries[(orderAt count).id]? = none := by
  intro crypto
  cases present : (crowd count).entries[(orderAt count).id]? with
  | none => rfl
  | some entry =>
    obtain ⟨place, before, named, _⟩ := (crowd_get (by omega) _ _).mp present
    have spelled : spelling (count / 65) (count % 65) = spelling (place / 65) (place % 65) := by
      rw [← order_id, ← order_id]
      exact named
    have same := orderAt_spelling (by omega) (by omega) spelled
    omega

theorem crowd_size {count : Nat} (small : count ≤ 4225) : (@crowd keyed count).entries.size = count := by
  let _ := keyed
  induction count with
  | zero => exact Std.ExtTreeMap.size_empty
  | succ count ih =>
    change ((crowd count).entries.insert (orderAt count).id _).size = count + 1
    rw [size_insert_fresh (crowd_fresh (by omega)), ih (by omega)]

section Accepted

theorem Roomy.accept_inserted [Crypto] {pool : Mempool} {now : UInt64} {transaction : Transaction}
    {spare : Nat} (roomy : pool.Roomy now (transaction.consensusEncode.length + spare))
    {state : LedgerState} (admits : pool.Admits transaction state)
    (free : pool.occupant transaction = none)
    (funded : (pool.inserted transaction now).senderIsFunded transaction.sender state = some true) :
    pool.accept transaction state now = (.ok transaction.id, pool.inserted transaction now) := by
  have same := roomy.indexed.vacated_free free
  have added := roomy.inserted (same ▸ roomy.indexed.vacant admits.fresh)
  have rest := expireAndTrim_rest added.young (Nat.le_trans (Nat.le_add_right _ _) added.room)
  have entered := roomy.indexed.accept_funded admits (by rw [same]; exact funded)
  rw [same, rest] at entered
  exact entered

/-- The queues are accepted one payment after another, on the same ledger. -/
theorem crowd_reached {state : LedgerState} (endowed : Endowed state) {count : Nat} (small : count ≤ 4225) :
    let _ := keyed
    ReachableOn default state (crowd count) ∧ (crowd count).Roomy 0 (213 * (4225 - count)) := by
  intro crypto
  induction count with
  | zero =>
    refine ⟨ReachableOn.new, indexed_new default, ?_, ?_⟩
    · intro id entry found
      change (∅ : BTreeMap Hash32 MempoolEntry)[id]? = some entry at found
      rw [get_empty] at found
      cases found
    · change 0 + 213 * 4225 ≤ DEFAULT_MAX_MEMPOOL_BYTES
      decide
  | succ count ih =>
    obtain ⟨reached, roomy⟩ := ih (by omega)
    have indexed := roomy.indexed
    have number : count / 65 < 65 := by omega
    have index : count % 65 < 65 := by omega
    have room : 213 * (4225 - count) = (orderAt count).consensusEncode.length + 213 * (4225 - (count + 1)) := by
      rw [show (orderAt count).consensusEncode.length = 213 from order_length _ _]
      omega
    rw [room] at roomy
    have fresh : (crowd count).entries[(orderAt count).id]? = none := crowd_fresh (by omega)
    have slot : (crowd count).bySenderNonce[((orderAt count).sender, (orderAt count).nonce)]? = none := by
      cases taken : (crowd count).bySenderNonce[((orderAt count).sender, (orderAt count).nonce)]? with
      | none => rfl
      | some id =>
        obtain ⟨entry, present, same⟩ := (indexed.slots _ id).mp taken
        obtain ⟨place, before, _, shape⟩ := (crowd_get (by omega) _ _).mp present
        rw [shape] at same
        have places := orderAt_slot (by omega) (by omega) (congrArg Prod.fst same) (congrArg Prod.snd same)
        omega
    have free : (crowd count).occupant (orderAt count) = none := by
      unfold occupant
      rw [slot]
      rfl
    have admits : (crowd count).Admits (orderAt count) state := by
      refine ⟨?_, ?_, ?_⟩
      · rw [reached.reachable.consistent.policy_eq]
        exact order_relayed number index (endowed _ number).1
      · unfold contains
        rw [fresh]
        rfl
      · intro existing occupied
        rw [free] at occupied
        cases occupied
    have added := roomy.inserted ⟨fresh, slot⟩
    have sound : (crowd (count + 1)).Sound := by
      intro id entry present
      obtain ⟨place, before, named, shape⟩ := (crowd_get (by omega) id entry).mp present
      have nonce := (endowed (place / 65) (by omega)).1
      have relayed := order_relayed (show place / 65 < 65 by omega) (Nat.mod_lt place (by decide)) nonce
      rw [named, shape]
      exact ⟨rfl, validateForRelay_ok relayed⟩
    have funded : ((crowd count).inserted (orderAt count) 0).senderIsFunded (orderAt count).sender state =
        some true := by
      obtain ⟨run, queued⟩ := exists_run (crowd (count + 1)) (orderAt count).sender
        (nonceOf state (orderAt count).sender).toNat
      have checked := senderIsFunded_run added.indexed sound queued
      obtain ⟨nonce, holds⟩ := endowed _ number
      rw [show nonceOf state (orderAt count).sender = 0 from nonce] at queued
      have covered : totalCost run ≤ state.balanceOf (orderAt count).sender :=
        Nat.le_trans (crowd_run small queued).2 holds
      rw [decide_eq_true covered] at checked
      exact checked
    have step : ReachableOn default state ((crowd count).accept (orderAt count) state 0).2 :=
      reached.accept (orderAt count) 0
    rw [roomy.accept_inserted admits free funded] at step
    exact ⟨step, added⟩

end Accepted

/-! What a block takes of it. -/

theorem crowd_queue {count number length : Nat} (small : count ≤ 4225) (few : number < 65)
    (size : length = min 65 (count - 65 * number)) :
    let _ := keyed
    Run (crowd count) (member number) 0 ((List.range length).map (order number)) := by
  intro crypto
  have held : ∀ index < length, order number index ∈ (crowd count).transactions := by
    intro index inside
    refine (mem_crowd small).mpr ⟨65 * number + index, by omega, ?_⟩
    unfold orderAt
    rw [Nat.mul_add_div (by decide), Nat.mul_add_mod, Nat.div_eq_of_lt (by omega),
      Nat.mod_eq_of_lt (by omega), Nat.add_zero]
  have onward : ∀ rest start : Nat, start + rest = length →
      Run (crowd count) (member number) start ((List.range' start rest).map (order number)) := by
    intro rest
    induction rest with
    | zero =>
      intro start last
      apply Run.stop
      intro transaction inside own same
      obtain ⟨place, before, shape⟩ := (mem_crowd small).mp inside
      rw [shape] at same own
      have wide : 65 < 256 ^ 20 := by decide
      have queue : place / 65 = number := member_injective (by omega) (by omega) own
      unfold orderAt at same
      rw [order_nonce _ (by omega)] at same
      omega
    | succ rest ih =>
      intro start last
      exact Run.next (held start (by omega)) rfl (order_nonce number (by omega)) (ih (start + 1) (by omega))
  rw [List.range_eq_range']
  exact onward length 0 (Nat.zero_add length)

/-- Among fewer transactions than the dear queues have, one of these queues is not complete. -/
theorem crowd_unfinished {executed : List Transaction} (short : executed.length < 4160) :
    ∃ number, 1 ≤ number ∧ number < 65 ∧
      transactionsFrom (member number) executed ≠ (List.range 65).map (order number) := by
  by_contra none
  have all : ((List.range' 65 4160).map orderAt) ⊆ executed := by
    intro transaction listed
    obtain ⟨place, range, same⟩ := List.mem_map.mp listed
    rw [List.mem_range'_1] at range
    have complete : transactionsFrom (member (place / 65)) executed =
        (List.range 65).map (order (place / 65)) := by
      by_contra other
      exact none ⟨place / 65, by omega, by omega, other⟩
    have inside : orderAt place ∈ (List.range 65).map (order (place / 65)) :=
      List.mem_map.mpr ⟨place % 65, List.mem_range.mpr (by omega), rfl⟩
    rw [← complete] at inside
    exact same ▸ List.mem_of_mem_filter inside
  have distinct : ((List.range' 65 4160).map orderAt).Nodup := by
    apply List.Nodup.map_on _ (List.nodup_range' 1)
    intro first left second right same
    rw [List.mem_range'_1] at left right
    exact orderAt_slot (by omega) (by omega) (congrArg Transaction.sender same)
      (congrArg Transaction.nonce same)
  have fewer := (List.subperm_of_subset distinct all).length_le
  rw [List.length_map, List.length_range'] at fewer
  omega

theorem crowd_left_out {state last : LedgerState} (endowed : Endowed state) {selected : List Transaction}
    (short : selected.length ≤ MAX_BLOCK_TRANSACTIONS) :
    let _ := keyed
    Picks (crowd 4225).transactions state selected last →
      transactionsFrom (member 0) selected = [] := by
  intro crypto picks
  obtain ⟨reached, _⟩ := crowd_reached endowed (Nat.le_refl 4225)
  have sound := reached.reachable.sound
  have indexed := reached.reachable.consistent.indexed
  rw [List.eq_nil_iff_forall_not_mem]
  intro transaction cheap
  obtain ⟨inside, own⟩ := List.mem_filter.mp cheap
  have own := of_decide_eq_true own
  obtain ⟨index, bound, found⟩ := List.getElem_of_mem inside
  obtain ⟨middle, head, first⟩ := picks.at (List.getElem?_eq_some_iff.mpr ⟨bound, found⟩)
  have walked : Walks (crowd 4225).transactions state (selected.take index) middle :=
    head.weaken fun _ _ _ => trivial
  have few : (selected.take index).length < 4160 := by
    have limit : MAX_BLOCK_TRANSACTIONS = 4096 := rfl
    rw [List.length_take]
    omega
  obtain ⟨number, dear, small, unfinished⟩ := crowd_unfinished few
  obtain ⟨nonce, holds⟩ := endowed number small
  have queued : Run (crowd 4225) (member number) 0 ((List.range 65).map (order number)) :=
    crowd_queue (Nat.le_refl _) small (by omega)
  have affordable := Nat.le_trans (crowd_run (Nat.le_refl _) queued).2 holds
  rw [show 0 = (nonceOf state (member number)).toNat from (congrArg UInt64.toNat nonce).symm] at queued
  -- the next payment of that queue pays more for the same size
  obtain ⟨rival, listed, left, eligible⟩ := walked.next sound indexed queued affordable unfinished
  obtain ⟨place, _, named⟩ := List.mem_map.mp listed
  obtain ⟨position, before, shape⟩ := (mem_crowd (Nat.le_refl _)).mp (picks.mem transaction inside)
  have lowest : position / 65 = 0 := by
    have wide : 65 < 256 ^ 20 := by decide
    rw [shape] at own
    exact member_injective (by omega) (by omega) own
  have length := order_length number place
  have length' := order_length (position / 65) (position % 65)
  have fee : (order number place).fee.toNat = 200000 := by
    change (orderFee number).toNat = 200000
    unfold orderFee
    rw [if_neg (by omega)]
    rfl
  have fee' : (order (position / 65) (position % 65)).fee.toNat = 100000 := by
    change (orderFee (position / 65)).toNat = 100000
    unfold orderFee
    rw [if_pos lowest]
    rfl
  have outbids := first.least rival left eligible
  rw [shape, ← named] at outbids
  unfold Outbids orderAt at outbids
  rw [length, length', fee, fee'] at outbids
  omega

end Mempool

open Mempool

theorem endowed_chain : ∃ chain, @Chain.Reachable keyed byNonce chain ∧ Endowed chain.state ∧
    chain.state.totalBalance ≤ MAX_MONEY.toNat := by
  let _ := keyed
  obtain ⟨chain, rotating, length⟩ := reachable_rotating keyed_heights
    (byNonce_lenient (show (1 : UInt64) ≠ 0 by decide)) (fun index => member (index - 1))
    (show 165 ≤ 2 ^ 32 by decide)
  have supply := rotating.reachable.valid.supply_bound
  have range : MAX_MONEY.toNat = 2 ^ 62 - 1 := rfl
  refine ⟨chain, rotating.reachable, ?_, ?_⟩
  · intro number small
    refine ⟨rotating.nonce _, ?_⟩
    have held : chain.state.balanceOf (member (number + 1 - 1)) = _ :=
      rotating.balance (Nat.le_add_left 1 number) (by omega) (by
        intro other positive matured same
        have wide : 65 < 256 ^ 20 := by decide
        have places := member_injective (by omega) (by omega) same
        omega)
    rw [Nat.add_sub_cancel] at held
    have least := blockSubsidy_ge (show 0 < (UInt64.ofNat (number + 1)).toNat by
      rw [Checked.ofNat_toNat (by omega)]
      exact Nat.succ_pos number)
    rw [held]
    exact Nat.le_trans (by decide) least
  · unfold LedgerState.supply at supply
    omega

/-- The cheapest miner is told to use the nonce of its first queued payment. -/
theorem queued_nonce_advertised :
    ∃ (_ : Crypto) (pow : PowVerifier) (node : Node) (address : Address) (run : List Transaction)
      (view : AccountView), node.chain.Reachable pow ∧
      ReachableOn default node.chain.state node.mempool ∧
      Run node.mempool address (nonceOf node.chain.state address).toNat run ∧
      totalCost run ≤ node.chain.state.balanceOf address ∧
      node.accountView address = some view ∧
      (∃ transaction ∈ run, transaction.nonce = view.nextNonce) ∧
      ¬IsLeast (node.freeNonces address) view.nextNonce.toNat := by
  let crypto : Crypto := keyed
  obtain ⟨chain, reachable, endowed, money⟩ := endowed_chain
  let node : Node := { restingNode chain (member 0) with mempool := crowd 4225 }
  obtain ⟨reached, _⟩ := crowd_reached endowed (Nat.le_refl 4225)
  obtain ⟨nonce, holds⟩ := endowed 0 (by decide)
  have pooled : Mempool.Reachable default node.mempool := reached.reachable
  have listed : Run (crowd 4225) (member 0) 0 ((List.range 65).map (order 0)) :=
    crowd_queue (Nat.le_refl _) (by decide) (by decide)
  have affordable := Nat.le_trans (crowd_run (Nat.le_refl _) listed).2 holds
  have zero : (nonceOf node.chain.state (member 0)).toNat = 0 := congrArg UInt64.toNat nonce
  have queued : Run node.mempool (member 0) (nonceOf node.chain.state (member 0)).toNat
      ((List.range 65).map (order 0)) := by
    rw [zero]
    exact listed
  have fits := creditsFit_of_total pooled.sound money
  have chosen : ∃ selected, node.mempool.select chain.state MAX_BLOCK_TRANSACTIONS = some selected :=
    pooled.select_some fits
  obtain ⟨selected, chosen⟩ := chosen
  obtain ⟨last, picks, short, _⟩ := pooled.select_picks (by decide) chosen
  have none := crowd_left_out endowed short picks
  have viewed : ∃ view, node.accountView (member 0) = some view := by
    unfold Node.accountView
    rw [show node.mempool.select node.chain.state MAX_BLOCK_TRANSACTIONS = some selected from chosen]
    exact ⟨_, rfl⟩
  obtain ⟨view, viewed⟩ := viewed
  obtain ⟨again, same, _, next⟩ := accountView_nextNonce pooled queued viewed
  cases chosen.symm.trans same
  rw [none] at next
  have first : view.nextNonce.toNat = 0 := next.trans zero
  have held : order 0 0 ∈ (List.range 65).map (order 0) :=
    List.mem_map.mpr ⟨0, List.mem_range.mpr (by decide), rfl⟩
  refine ⟨crypto, byNonce, node, member 0, _, view, reachable, reached, queued, affordable, viewed,
    ⟨order 0 0, held, ?_⟩, ?_⟩
  · apply UInt64.toNat_inj.mp
    rw [first]
    rfl
  · intro least
    refine least.1.2 (order 0 0) ?_ rfl ?_
    · have front : order 0 0 = orderAt 0 := rfl
      exact (mem_crowd (Nat.le_refl _)).mpr ⟨0, Nat.succ_pos _, front⟩
    · rw [first]
      rfl

/-! A smaller crowd, which a block has room for: the sixty-five payments of the first miner and
two of the second, which pay twice the fee. -/

structure Pair (state : LedgerState) : Prop where
  endowed : Endowed state
  money : state.totalBalance ≤ MAX_MONEY.toNat

section Pair

variable {state : LedgerState} (pair : Pair state)
include pair

theorem Pair.reached : @ReachableOn keyed default state (@crowd keyed 67) :=
  (crowd_reached pair.endowed (show 67 ≤ 4225 by decide)).1

theorem Pair.fits : @CreditsFit keyed (@crowd keyed 67) state :=
  let _ := keyed
  creditsFit_of_total pair.reached.reachable.sound pair.money

theorem Pair.queue {number length : Nat} (few : number < 65) (size : length = min 65 (67 - 65 * number)) :
    @Run (@crowd keyed 67) (member number) (nonceOf state (member number)).toNat
      ((List.range length).map (order number)) := by
  rw [(pair.endowed number few).1]
  exact crowd_queue (by decide) few size

end Pair

theorem paired_chain : ∃ chain, @Chain.Reachable keyed byNonce chain ∧ Pair chain.state := by
  obtain ⟨chain, reachable, endowed, money⟩ := endowed_chain
  exact ⟨chain, reachable, endowed, money⟩

/-- The second miner is told the nonce after its two payments. -/
theorem second_queue_free :
    ∃ (_ : Crypto) (node : Node) (address : Address) (run : List Transaction) (view : AccountView),
      ReachableOn default node.chain.state node.mempool ∧ node.mempool.entries.size = 67 ∧
      Run node.mempool address (nonceOf node.chain.state address).toNat run ∧ run.length = 2 ∧
      node.accountView address = some view ∧ view.nextNonce.toNat = 2 ∧
      IsLeast (node.freeNonces address) view.nextNonce.toNat := by
  let crypto : Crypto := keyed
  obtain ⟨chain, _, pair⟩ := paired_chain
  let node : Node := { restingNode chain (member 1) with mempool := crowd 67 }
  have pooled : Mempool.Reachable default node.mempool := pair.reached.reachable
  have queued : Run node.mempool (member 1) (nonceOf node.chain.state (member 1)).toNat
      ((List.range 2).map (order 1)) := pair.queue (by decide) (by decide)
  obtain ⟨nonce, holds⟩ := pair.endowed 1 (by decide)
  have zero : (nonceOf node.chain.state (member 1)).toNat = 0 := congrArg UInt64.toNat nonce
  have affordable : totalCost ((List.range 2).map (order 1)) ≤ node.chain.state.balanceOf (member 1) := by
    have listed := queued
    rw [zero] at listed
    exact Nat.le_trans (crowd_run (show 67 ≤ 4225 by decide) listed).2 holds
  have chosen : ∃ selected, node.mempool.select node.chain.state MAX_BLOCK_TRANSACTIONS = some selected :=
    pooled.select_some pair.fits
  obtain ⟨selected, chosen⟩ := chosen
  have viewed : ∃ view, node.accountView (member 1) = some view := by
    unfold Node.accountView
    rw [chosen]
    exact ⟨_, rfl⟩
  obtain ⟨view, viewed⟩ := viewed
  have size : node.mempool.entries.size = 67 := crowd_size (show 67 ≤ 4225 by decide)
  have free := (next_nonce_free pooled queued affordable viewed).1 (by rw [size]; decide)
  have told : view.nextNonce.toNat = 2 := by
    rw [free.unique queued.least_free, zero]
    rfl
  exact ⟨crypto, node, member 1, _, view, pair.reached, size, queued, rfl, viewed, told, free⟩

/-- Both queues are mined to their ends. -/
theorem two_queues_mined :
    ∃ (_ : Crypto) (state : LedgerState) (pool : Mempool) (selected : List Transaction),
      ReachableOn default state pool ∧ pool.entries.size = 67 ∧
      pool.select state MAX_BLOCK_TRANSACTIONS = some selected ∧
      (∀ index < 65, order 0 index ∈ selected) ∧ ∀ index < 2, order 1 index ∈ selected := by
  let crypto : Crypto := keyed
  obtain ⟨chain, _, pair⟩ := paired_chain
  have size : (crowd 67).entries.size = 67 := crowd_size (show 67 ≤ 4225 by decide)
  obtain ⟨selected, chosen, taken⟩ := (queued_runs_mined pair.reached).2 pair.fits
    MAX_BLOCK_TRANSACTIONS (by rw [size]; decide)
  have cheap : Run (crowd 67) (member 0) (nonceOf chain.state (member 0)).toNat
      ((List.range 65).map (order 0)) := pair.queue (by decide) (by decide)
  have dear : Run (crowd 67) (member 1) (nonceOf chain.state (member 1)).toNat
      ((List.range 2).map (order 1)) := pair.queue (by decide) (by decide)
  have first := taken _ _ cheap
  have second := taken _ _ dear
  refine ⟨crypto, chain.state, crowd 67, selected, pair.reached, size, chosen, ?_, ?_⟩
  · exact fun index small => first _ (List.mem_map.mpr ⟨index, List.mem_range.mpr small, rfl⟩)
  · exact fun index small => second _ (List.mem_map.mpr ⟨index, List.mem_range.mpr small, rfl⟩)

/-- Three picks from the two queues: the dearer one goes first, though it came last. -/
theorem dearer_queue_first :
    ∃ (_ : Crypto) (state : LedgerState) (pool : Mempool) (selected : List Transaction),
      ReachableOn default state pool ∧ pool.entries.size = 67 ∧
      pool.select state 3 = some selected ∧ selected.length = 3 ∧
      selected.head? = some (order 1 0) ∧
      (∀ (orders : Nat → List (Hash32 × MempoolEntry)) (rounds : Nat),
        (∀ round, (orders round).Perm pool.entries.toList) → pool.entries.size < rounds →
        selectOrdered orders 3 rounds state [] [] = some selected) ∧
      selected.Nodup ∧
      (∀ (index : Nat) (transaction : Transaction), selected[index]? = some transaction →
        ∃ working, (selected.take index).foldlM execute state = some working ∧
          Greedy.First Eligible Outbids (Greedy.rest pool.transactions (selected.take index))
            working transaction) ∧
      ∀ (policy : RelayPolicy) (other : Mempool), Mempool.Reachable policy other →
        other.transactions = pool.transactions → other.select state 3 = some selected := by
  let crypto : Crypto := keyed
  obtain ⟨chain, _, pair⟩ := paired_chain
  have reachable := pair.reached.reachable
  have size : (crowd 67).entries.size = 67 := crowd_size (show 67 ≤ 4225 by decide)
  obtain ⟨selected, chosen, walks, distinct, bound, greedy, _, others⟩ :=
    selection_greedy reachable pair.fits (show 1 ≤ 3 by decide)
  have full : selected.length = 3 := by
    by_contra short
    obtain ⟨last, picks, _, ended⟩ := reachable.select_picks (by decide) chosen
    have walked : Walks (crowd 67).transactions chain.state selected last :=
      picks.weaken fun _ _ _ => trivial
    have queued : Run (crowd 67) (member 0) (nonceOf chain.state (member 0)).toNat
        ((List.range 65).map (order 0)) := pair.queue (by decide) (by decide)
    obtain ⟨nonce, holds⟩ := pair.endowed 0 (by decide)
    have listed := queued
    rw [show nonceOf chain.state (member 0) = 0 from nonce] at listed
    have affordable := Nat.le_trans (crowd_run (show 67 ≤ 4225 by decide) listed).2 holds
    have complete := congrArg List.length (walked.complete reachable.sound
      reachable.consistent.indexed queued affordable (ended (by omega)))
    have fewer := List.length_filter_le (fun transaction : Transaction =>
      decide (transaction.sender = member 0)) selected
    rw [List.length_map, List.length_range] at complete
    unfold transactionsFrom at complete
    omega
  have head : selected.head? = some (order 1 0) := by
    obtain ⟨first, rest, rfl⟩ := List.exists_cons_of_length_pos (show 0 < selected.length by omega)
    obtain ⟨working, start, best⟩ := greedy 0 first rfl
    cases start
    obtain ⟨nonce, holds⟩ := pair.endowed 1 (by decide)
    have held : order 1 0 ∈ Greedy.rest (crowd 67).transactions [] :=
      ⟨(mem_crowd (show 67 ≤ 4225 by decide)).mpr ⟨65, by decide, rfl⟩, List.not_mem_nil⟩
    have eligible : Eligible chain.state (order 1 0) :=
      ⟨nonce.symm, Nat.le_trans (order_cost_le 1 0)
        (show 201000 ≤ chain.state.balanceOf (member 1) by omega)⟩
    have outbids := best.least (order 1 0) held eligible
    obtain ⟨place, before, shape⟩ := (mem_crowd (show 67 ≤ 4225 by decide)).mp best.mem.1
    have slot : place % 65 = 0 := by
      have own := best.admitted.nonce
      rw [shape] at own
      change (order (place / 65) (place % 65)).nonce = nonceOf chain.state (member (place / 65)) at own
      rw [(pair.endowed (place / 65) (by omega)).1] at own
      have value := congrArg UInt64.toNat own
      rwa [order_nonce _ (by omega)] at value
    rcases (show place = 0 ∨ place = 65 by omega) with rfl | rfl
    · rw [shape] at outbids
      unfold Outbids orderAt at outbids
      rw [order_length, order_length] at outbids
      rcases outbids with more | ⟨same, _⟩
      · exact absurd more (by decide)
      · exact absurd same (by decide)
    · exact congrArg some shape
  exact ⟨crypto, chain.state, crowd 67, selected, pair.reached, size, chosen, full, head, walks, distinct,
    greedy, others⟩

end ParitrNode
