import ParitrNode.MempoolSelection
import ParitrNode.ScheduledShares

/-!
A chain with money to spend, under primitives that spell ids out: a hundred
empty blocks of one finder, and the payments of that finder.
-/

namespace ParitrNode
open ByteCodec OrderedMap Checked

/-! Primitives under which an id is the last 32 bytes of what it is taken of;
the id of a header spells its height and nonce. -/

def lastBytes (input : Bytes) : Hash32 :=
  ⟨(List.replicate 32 0 ++ input).drop input.length, by
    rw [List.length_drop, List.length_append, List.length_replicate, Nat.add_sub_cancel]⟩

theorem lastBytes_bytes (input : Bytes) :
    (lastBytes input).bytes = (List.replicate 32 0 ++ input).drop input.length := rfl

theorem lastBytes_append (head : Bytes) (tail : Hash32) : lastBytes (head ++ tail.bytes) = tail := by
  apply FixedBytes.ext
  rw [lastBytes_bytes, ← List.append_assoc]
  apply List.drop_left'
  rw [List.length_append, List.length_append, List.length_replicate, tail.length_eq, Nat.add_comm]

theorem lastBytes_self (hash : Hash32) : lastBytes hash.bytes = hash := lastBytes_append [] hash

theorem lastBytes_getLast {input : Bytes} {byte : UInt8} (last : input.getLast? = some byte) :
    (lastBytes input).bytes.getLast? = some byte := by
  rw [lastBytes_bytes, List.getLast?_drop, if_neg (by rw [List.length_append, List.length_replicate]; omega),
    List.getLast?_append, last]
  rfl

def spellHash (input : Bytes) : Hash32 :=
  if input.length = 160 then labelHash input else lastBytes input

/-- Every signature is good and every key is one address. -/
@[reducible] def spelled : Crypto := { permissive with sha256 := spellHash }

theorem spellHash_self (hash : Hash32) : spellHash hash.bytes = hash := by
  unfold spellHash
  rw [if_neg (by rw [hash.length_eq]; decide), lastBytes_self]

theorem spelled_sha256d (data : Bytes) : @sha256d spelled data = spellHash data :=
  spellHash_self (spellHash data)

theorem labelled_sha256d (data : Bytes) : @sha256d labelled data = labelHash data :=
  labelHash_self (labelHash data)

theorem spelled_id (header : BlockHeader) : @BlockHeader.id spelled header = @BlockHeader.id labelled header := by
  have width : header.consensusEncode.length = 160 := header.consensusEncode_length
  unfold BlockHeader.id
  rw [spelled_sha256d, labelled_sha256d, spellHash, if_pos width]

theorem spelled_id_injective {first second : BlockHeader}
    (same : @BlockHeader.id spelled first = @BlockHeader.id spelled second) :
    first.height = second.height ∧ first.nonce = second.nonce :=
  labelled_id_injective ((spelled_id first).symm.trans (same.trans (spelled_id second)))

theorem spelled_heights (first second : BlockHeader)
    (same : @BlockHeader.id spelled first = @BlockHeader.id spelled second) :
    first.height = second.height := (spelled_id_injective same).1

theorem spelled_domainHash (domain : String) (data : Bytes)
    (other : 12 + (ascii domain).length + data.length ≠ 160) :
    @domainHash spelled domain data = lastBytes
      (leBytes 4 (ascii domain).length ++ ascii domain ++ leBytes 8 data.length ++ data) := by
  unfold domainHash
  rw [spelled_sha256d, spellHash, if_neg]
  simp only [List.length_append, leBytes_length]
  omega

theorem spelled_ends (domain : String) {data head : Bytes} {tail : Hash32}
    (ends : data = head ++ tail.bytes) (other : 12 + (ascii domain).length + data.length ≠ 160) :
    @domainHash spelled domain data = tail := by
  rw [spelled_domainHash domain data other, ends, ← List.append_assoc, lastBytes_append]

/-! The payments of the finder. Their signatures end in the number of their
template and their own number. -/

def spelling (template index : Nat) : Hash32 :=
  ⟨Writer.u64 (UInt64.ofNat template) ++ (Writer.u64 (UInt64.ofNat index) ++ List.replicate 16 7),
    by simp⟩

theorem spelling_eq {template index other place : Nat}
    (same : spelling template index = spelling other place) :
    UInt64.ofNat template = UInt64.ofNat other ∧ UInt64.ofNat index = UInt64.ofNat place := by
  obtain ⟨templates, rest⟩ := List.append_inj (congrArg FixedBytes.bytes same) (by simp)
  obtain ⟨indices, _⟩ := List.append_inj rest (by simp)
  exact ⟨Writer.u64_injective templates, Writer.u64_injective indices⟩

theorem ofNat_eq {first second : Nat} (small : first < 2 ^ 64) (other : second < 2 ^ 64)
    (same : UInt64.ofNat first = UInt64.ofNat second) : first = second := by
  have values := congrArg UInt64.toNat same
  rw [UInt64.toNat_ofNat_of_lt' small, UInt64.toNat_ofNat_of_lt' other] at values
  exact values

def payment (template index : Nat) : Transaction :=
  { version := Transaction.VERSION
    sender := LedgerState.addressMin
    recipient := LedgerState.addressMax
    amount := 1
    fee := 0
    nonce := UInt64.ofNat index
    publicKey := List.replicate 65 0
    signature := List.replicate 32 0 ++ (spelling template index).bytes }

/-- A transfer of the sender of the payments; the number tells bids of one nonce apart. -/
def bid (number index : Nat) (amount fee : UInt64) : Transaction :=
  { payment number index with amount, fee }

theorem bid_ends [Crypto] (number index : Nat) (amount fee : UInt64) : ∃ head : Bytes,
    head.length = 181 ∧ (bid number index amount fee).consensusEncode = head ++ (spelling number index).bytes := by
  refine ⟨Writer.u16 Transaction.VERSION ++ (LedgerState.addressMin.asBytes ++
    (LedgerState.addressMax.asBytes ++ (Writer.u64 amount ++ (Writer.u64 fee ++
    (Writer.u64 (UInt64.ofNat index) ++ (Writer.bytes (List.replicate 65 0) ++
    (Writer.u32 64 ++ List.replicate 32 0))))))), ?_, ?_⟩
  · simp only [List.length_append, Writer.u16_length, Address.asBytes_length, Writer.u64_length,
      Writer.bytes_length, Writer.u32_length, List.length_replicate]
  · simp only [List.append_assoc]
    rfl

theorem bid_length [Crypto] (number index : Nat) (amount fee : UInt64) :
    (bid number index amount fee).consensusEncode.length = 213 := by
  obtain ⟨head, length, ends⟩ := bid_ends number index amount fee
  rw [ends, List.length_append, length, FixedBytes.length_eq]

theorem bid_id (number index : Nat) (amount fee : UInt64) :
    @Transaction.id spelled (bid number index amount fee) = spelling number index := by
  let _ := spelled
  obtain ⟨head, _, ends⟩ := bid_ends number index amount fee
  apply spelled_ends "PARITR-P9-TXID-v1" ends
  rw [bid_length]
  decide

theorem payment_length [Crypto] (template index : Nat) :
    (payment template index).consensusEncode.length = 213 :=
  bid_length template index 1 0

theorem payment_id (template index : Nat) :
    @Transaction.id spelled (payment template index) = spelling template index :=
  bid_id template index 1 0

def payments (template count : Nat) : List Transaction := (List.range count).map (payment template)

theorem payment_signature (template index : Nat) : (payment template index).signature.length = 64 := by
  change (List.replicate 32 0 ++ (spelling template index).bytes).length = 64
  rw [List.length_append, List.length_replicate, FixedBytes.length_eq]

theorem payment_nonce (template : Nat) {index : Nat} (small : index < 2 ^ 64) :
    (payment template index).nonce.toNat = index := by
  change (UInt64.ofNat index).toNat = index
  exact UInt64.toNat_ofNat_of_lt' small

theorem spelled_signature (key : Bytes) (signature : FixedBytes 64) (digest : Hash32) :
    @parseAndValidateSignature spelled LedgerState.addressMin key signature digest = .ok () := by
  let _ := spelled
  have owned : ¬Address.fromPublicKey (FixedBytes.zero 65) ≠ LedgerState.addressMin := not_not_intro rfl
  have low : ¬Crypto.normalizeS signature ≠ signature := not_not_intro rfl
  unfold parseAndValidateSignature
  rw [show Crypto.publicKeyFromSlice key = some (FixedBytes.zero 65) from rfl]
  dsimp only
  rw [if_neg owned, show Crypto.signatureFromCompact signature = some signature from rfl]
  dsimp only
  rw [if_neg low]
  rfl

theorem bid_signed (number index : Nat) (amount fee : UInt64) :
    @checkSignature spelled (bid number index amount fee) = .ok () := by
  let _ := spelled
  have width : (bid number index amount fee).signature.length = 64 := payment_signature number index
  unfold checkSignature signatureArray
  rw [dif_pos width]
  apply bind_ok.mpr
  refine ⟨_, rfl, ?_⟩
  rw [show (bid number index amount fee).sender = LedgerState.addressMin from rfl, spelled_signature]
  rfl

theorem bid_relayable (number : Nat) {index : Nat} {amount fee : UInt64} (small : index < 2 ^ 64 - 1)
    (positive : amount ≠ 0) (amountRange : amount.toNat ≤ MAX_MONEY.toNat)
    (feeRange : fee.toNat ≤ MAX_MONEY.toNat) : @Relayable spelled (bid number index amount fee) :=
  let _ := spelled
  { version := rfl
    amountPositive := positive
    amountRange
    feeRange
    nonceBelow := by
      have nonce : (bid number index amount fee).nonce.toNat = index :=
        payment_nonce number (Nat.lt_of_lt_of_le small (Nat.sub_le _ _))
      rw [nonce]
      exact small
    distinct := show LedgerState.addressMin ≠ LedgerState.addressMax by decide
    keyLength := Or.inr (List.length_replicate ..)
    signatureLength := payment_signature number index
    signed := bid_signed number index amount fee }

theorem payment_relayable (template : Nat) {index : Nat} (small : index < 2 ^ 64 - 1) :
    @Relayable spelled (payment template index) :=
  bid_relayable template small (by decide) (by decide) (by decide)

theorem payments_apply_from (template : Nat) {count start : Nat} {state : LedgerState}
    {seen : List Hash32} {fees : UInt64} (small : start + count < 2 ^ 64)
    (earlier : ∀ id ∈ seen, ∃ index < start, id = spelling template index)
    (nonce : (nonceOf state LedgerState.addressMin).toNat = start)
    (covered : count ≤ state.balanceOf LedgerState.addressMin)
    (money : state.totalBalance ≤ MAX_MONEY.toNat) (range : fees ≤ MAX_MONEY) :
    let _ := spelled
    ∃ result, applyFrom state seen fees ((List.range' start count).map (payment template)) =
      .ok result := by
  let _ := spelled
  induction count generalizing start state seen with
  | zero => exact ⟨_, rfl⟩
  | succ count ih =>
    have one : (payment template start).amount.toNat = 1 := rfl
    have nothing : (payment template start).fee.toNat = 0 := rfl
    have fresh : (payment template start).id ∉ seen := by
      intro repeated
      obtain ⟨index, before, same⟩ := earlier _ repeated
      rw [payment_id] at same
      exact Nat.ne_of_gt before (ofNat_eq (by omega) (by omega) (spelling_eq same).2)
    have slot : (payment template start).nonce = nonceOf state (payment template start).sender := by
      apply UInt64.toNat_inj.mp
      rw [payment_nonce template (by omega)]
      exact nonce.symm
    have pays : (payment template start).amount.toNat + (payment template start).fee.toNat ≤
        state.balanceOf (payment template start).sender := by
      rw [one, nothing]
      exact Nat.le_trans (Nat.succ_le_succ (Nat.zero_le count)) covered
    obtain ⟨next, applied, _⟩ := relayed_applies (payment_relayable template (by omega)) fresh slot pays money
    obtain ⟨moved, _, total⟩ := applyTransaction_moves applied
    have left := moved LedgerState.addressMin
    rw [if_pos (show (payment template start).sender = LedgerState.addressMin from rfl), one, nothing] at left
    have counted := (nonceOf_applyTransaction applied).2 LedgerState.addressMin
    rw [if_pos (show (payment template start).sender = LedgerState.addressMin from rfl), nonce] at counted
    have numbered : ∀ id ∈ (payment template start).id :: seen,
        ∃ index < start + 1, id = spelling template index := by
      intro id member
      cases List.mem_cons.mp member with
      | inl same => exact ⟨start, Nat.lt_succ_self start, same.trans (payment_id template start)⟩
      | inr inside =>
        obtain ⟨index, before, named⟩ := earlier id inside
        exact ⟨index, Nat.lt_succ_of_lt before, named⟩
    obtain ⟨result, rest⟩ := ih (by omega) numbered counted (by omega) (by omega)
    refine ⟨result, applyFrom_cons_ok.mpr ⟨next, fees, applied, ?_, range, rest⟩⟩
    have unchanged := checkedAdd_of_lt (a := fees) (b := 0) fees.toNat_lt
    rw [UInt64.add_zero] at unchanged
    exact unchanged

theorem payments_apply (template : Nat) {count : Nat} {state : LedgerState} (small : count < 2 ^ 64)
    (nonce : nonceOf state LedgerState.addressMin = 0)
    (covered : count ≤ state.balanceOf LedgerState.addressMin)
    (money : state.totalBalance ≤ MAX_MONEY.toNat) :
    let _ := spelled
    ∃ result, applyTransactions state (payments template count) = .ok result := by
  unfold payments applyTransactions
  rw [List.range_eq_range']
  exact payments_apply_from template (by omega) (fun id inside => nomatch inside)
    (congrArg UInt64.toNat nonce) covered money (by decide)

/-! The chain. -/

theorem byNonce_lenient {nonce : UInt64} (nonzero : nonce ≠ 0) : LenientAt byNonce nonce := by
  intro seed header same
  exact ⟨Hash32.ZERO, byNonce_block seed (same ▸ nonzero), by decide +kernel⟩

structure Funded (chain : Chain) : Prop where
  reachable : @Chain.Reachable spelled byNonce chain
  scheduled : OnSchedule chain.blocks
  work : chain.cumulativeWork = chain.blocks.length * 16384
  bare : chain.blocks.flatMap Block.transactions = []
  length : chain.blocks.length = 101
  height : chain.tip.header.height = 100
  ledger : ∃ state, @matured spelled chain.state 101 = .ok state ∧
    1000000000 ≤ state.balanceOf LedgerState.addressMin ∧
    nonceOf state LedgerState.addressMin = 0 ∧ state.totalBalance ≤ MAX_MONEY.toNat

theorem funded_chain : ∃ chain, Funded chain := by
  let _ := spelled
  obtain ⟨chain, reachable, _, length, scheduled, work, rewards, bare, _⟩ :=
    reachable_quiet spelled_heights
      (byNonce_lenient (show (1 : UInt64) ≠ 0 by decide)) LedgerState.addressMin
      (show 100 ≤ 2 ^ 32 by decide)
  have supply := reachable.valid.supply_bound
  have range : MAX_MONEY.toNat = 2 ^ 62 - 1 := rfl
  have height : chain.height.toNat = 100 := by
    rw [reachable.height_eq, length]
  have closed := reachable.valid.closedForm
  obtain ⟨state, moved⟩ := LedgerState.matured_succeeds chain.state 101 (by omega)
  obtain ⟨balance, _, kept, _⟩ := LedgerState.matured_ok moved
  have empty : chain.blocks.flatMap Block.transactions = [] := List.flatMap_eq_nil_iff.mpr bare
  refine ⟨chain, reachable, scheduled, work, empty, length, UInt64.toNat_inj.mp height, state, moved, ?_, ?_, ?_⟩
  · have reward : rewardAt chain.blocks 1 LedgerState.addressMin = 1000000000 :=
      rewards 1 (by decide) (by decide)
    have held := reachable.balance LedgerState.addressMin
    rw [empty, height] at held
    have nothing : chain.state.balanceOf LedgerState.addressMin = 0 := held
    have pending : chain.state.pendingAt 101 LedgerState.addressMin = 1000000000 := by
      have due : (101 : UInt64).toNat = 101 := rfl
      rw [closed.pending, if_pos (by omega)]
      exact reward
    rw [balance, nothing, pending]
  · rw [nonceOf_matured moved]
    exact reachable.valid.nonceOf_bare empty LedgerState.addressMin
  · unfold LedgerState.supply at kept supply
    omega

end ParitrNode
