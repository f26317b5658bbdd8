import ParitrNode.Library.Recodes
import ParitrNode.Types

/-!
The consensus objects as canonical formats: within the limits of its decoder an
object decodes to itself, and the decoder accepts no other bytes for it.
-/

namespace ParitrNode
open ByteCodec

/-! Primitives. -/

section Primitives

theorem recodes_take (count : Nat) :
    Recodes (Reader.take count) (fun bytes => bytes.length = count) (fun bytes => bytes) where
  reads bytes length := reads_take bytes count length
  exact input bytes rest ran := by
    change (if input.length < count then _ else _) = _ at ran
    split at ran
    · cases ran
    · next enough =>
      cases ran
      exact ⟨List.length_take_of_le (Nat.le_of_not_lt enough),
        (List.take_append_drop count input).symm⟩

theorem recodes_word {α : Type} (width : Nat) (wrap : Nat → α) (unwrap : α → Nat)
    (bound : ∀ value, unwrap value < 256 ^ width) (wraps : ∀ value, wrap (unwrap value) = value)
    (unwraps : ∀ number, number < 256 ^ width → unwrap (wrap number) = number) :
    Recodes (do return wrap (leValue (← Reader.take width))) (fun _ => True)
      (fun value => leBytes width (unwrap value)) := by
  refine Recodes.last (fun value => leBytes width (unwrap value))
    (fun bytes => wrap (leValue bytes)) (recodes_take width) (fun _ _ => rfl) ?_ ?_
  · intro bytes length
    have number := leValue_lt bytes
    rw [length] at number
    refine ⟨trivial, ?_⟩
    rw [unwraps _ number, ← length, leBytes_leValue]
  · intro value _
    refine ⟨leBytes_length _ _, ?_⟩
    rw [leValue_leBytes _ _ (bound value), wraps]

theorem recodes_u8 : Recodes Reader.u8 (fun _ => True) Writer.u8 := by
  have word := recodes_word 1 UInt8.ofNat UInt8.toNat UInt8.toNat_lt (fun _ => UInt8.ofNat_toNat)
    (fun number bound => by rw [UInt8.toNat_ofNat', Nat.mod_eq_of_lt (by omega)])
  have same : (fun value : UInt8 => leBytes 1 value.toNat) = Writer.u8 := by
    funext value
    have small := value.toNat_lt
    change [UInt8.ofNat (value.toNat % 256)] = [value]
    rw [Nat.mod_eq_of_lt small, UInt8.ofNat_toNat]
  rw [← same]
  exact word

theorem recodes_u16 : Recodes Reader.u16 (fun _ => True) Writer.u16 :=
  recodes_word 2 UInt16.ofNat UInt16.toNat UInt16.toNat_lt (fun _ => UInt16.ofNat_toNat)
    (fun number bound => by rw [UInt16.toNat_ofNat', Nat.mod_eq_of_lt (by omega)])

theorem recodes_u32 : Recodes Reader.u32 (fun _ => True) Writer.u32 :=
  recodes_word 4 UInt32.ofNat UInt32.toNat UInt32.toNat_lt (fun _ => UInt32.ofNat_toNat)
    (fun number bound => by rw [UInt32.toNat_ofNat', Nat.mod_eq_of_lt (by omega)])

theorem recodes_u64 : Recodes Reader.u64 (fun _ => True) Writer.u64 :=
  recodes_word 8 UInt64.ofNat UInt64.toNat UInt64.toNat_lt (fun _ => UInt64.ofNat_toNat)
    (fun number bound => by rw [UInt64.toNat_ofNat', Nat.mod_eq_of_lt (by omega)])

theorem recodes_fixed (width : Nat) :
    Recodes (Reader.fixed width) (fun _ => True) FixedBytes.bytes where
  reads value _ := reads_fixed value
  exact input value rest ran := by
    change (if _ : width ≤ input.length then _ else _) = _ at ran
    split at ran
    · cases ran
      exact ⟨trivial, (List.take_append_drop width input).symm⟩
    · cases ran

theorem recodes_vectorLen {max : Nat} (fits : max < 2 ^ 32) :
    Recodes (Reader.vectorLen max) (· ≤ max) Writer.count where
  reads length within := reads_vectorLen within fits
  exact input length rest ran := by
    obtain ⟨word, middle, began, later⟩ := run_bind_ok.mp ran
    obtain ⟨-, bytes⟩ := recodes_u32.exact input word middle began
    dsimp only at later
    split at later
    · cases later
    · next within =>
      cases later
      refine ⟨Nat.le_of_not_lt within, ?_⟩
      rw [Writer.count, UInt32.ofNat_toNat]
      exact bytes

theorem recodes_bytes {max : Nat} (fits : max ≤ MAX_CONSENSUS_ALLOCATION) :
    Recodes (Reader.bytes max) (fun bytes => bytes.length ≤ max) Writer.bytes where
  reads bytes within := reads_bytes within fits
  exact input bytes rest ran := by
    obtain ⟨word, middle, began, later⟩ := run_bind_ok.mp ran
    obtain ⟨-, start⟩ := recodes_u32.exact input word middle began
    dsimp only at later
    split at later
    · cases later
    · next within =>
      obtain ⟨length, remaining⟩ := (recodes_take _).exact middle bytes rest later
      refine ⟨by omega, ?_⟩
      rw [Writer.bytes, Writer.count, length, UInt32.ofNat_toNat, List.append_assoc, ← remaining]
      exact start

end Primitives

/-! An object behind its byte length, and a counted vector. -/

section Containers

variable {α : Type} {reader : Reader α} {domain : α → Prop} {encode : α → Bytes}

theorem consensusDecode_ok {decodeFrom : Reader α} {input : Bytes} {value : α}
    (decoded : consensusDecode decodeFrom input = .ok value) :
    input.length ≤ MAX_CONSENSUS_ALLOCATION ∧ decodeFrom.run input = .ok (value, []) := by
  unfold consensusDecode at decoded
  split at decoded
  · cases decoded
  · next small =>
    cases ran : decodeFrom.run input with
    | error error =>
      rw [ran] at decoded
      cases decoded
    | ok result =>
      rw [ran] at decoded
      dsimp only at decoded
      split at decoded
      · next finished =>
        cases decoded
        refine ⟨Nat.le_of_not_lt small, ?_⟩
        rw [← List.eq_nil_of_length_eq_zero finished]
      · cases decoded

theorem recodes_nested (format : Recodes reader domain encode) {max : Nat}
    (fits : max ≤ MAX_CONSENSUS_ALLOCATION) :
    Recodes (Reader.nested max reader) (fun value => domain value ∧ (encode value).length ≤ max)
      (fun value => Writer.bytes (encode value)) where
  reads value inside := reads_nested (format.reads value inside.1) inside.2 fits
  exact input value rest ran := by
    obtain ⟨outer, middle, began, later⟩ := run_bind_ok.mp ran
    obtain ⟨within, start⟩ := (recodes_bytes fits).exact input outer middle began
    split at later
    · cases later
    · next inner decoded =>
      cases later
      obtain ⟨-, consumed⟩ := consensusDecode_ok decoded
      obtain ⟨inside, bytes⟩ := format.exact _ _ _ consumed
      rw [List.append_nil] at bytes
      rw [bytes] at within start
      exact ⟨⟨inside, within⟩, start⟩

def readVector (max : Nat) (reader : Reader α) : Reader (List α) :=
  Reader.vectorLen max >>= fun count => readMany reader count

theorem recodes_vector (item : Recodes reader domain encode) {max : Nat} (fits : max < 2 ^ 32) :
    Recodes (readVector max reader)
      (fun items : List α => items.length ≤ max ∧ ∀ value ∈ items, domain value)
      (fun items => Writer.count items.length ++ items.flatMap encode) := by
  refine Recodes.bind List.length (recodes_vectorLen fits) (fun items within => within.1) ?_
  intro count within
  refine (item.many count).congr ?_
  intro items
  constructor
  · intro both
    exact ⟨both.2, both.1.2⟩
  · intro all
    exact ⟨⟨by rw [all.1]; exact within, all.2⟩, all.1⟩

end Containers

/-! The limits of the decoders, and the objects within them. -/

section Objects

variable [Crypto]

/-- A parsed address has the version and the checksum it was parsed from. -/
theorem Address.asBytes_of_fromBytes {bytes : FixedBytes 25} {address : Address}
    (parsed : Address.fromBytes bytes = .ok address) : address.asBytes = bytes.bytes := by
  unfold Address.fromBytes at parsed
  split at parsed
  · cases parsed
  · next version =>
    split at parsed
    · cases parsed
    · next checksum =>
      cases parsed
      rw [Decidable.not_not] at version checksum
      have length := bytes.length_eq
      have payload : ADDRESS_VERSION :: (bytes.bytes.drop 1).take 20 = bytes.bytes.take 21 := by
        cases whole : bytes.bytes with
        | nil =>
          rw [whole] at length
          cases length
        | cons byte rest =>
          rw [whole] at version
          rw [← version]
          rfl
      change (ADDRESS_VERSION :: (bytes.bytes.drop 1).take 20) ++
        (sha256d (ADDRESS_VERSION :: (bytes.bytes.drop 1).take 20)).bytes.take 4 = bytes.bytes
      rw [payload, checksum, List.take_append_drop]

theorem recodes_address : Recodes Address.decodeFrom (fun _ => True) Address.asBytes where
  reads address _ := address.reads
  exact input address rest ran := by
    obtain ⟨bytes, middle, began, later⟩ := run_bind_ok.mp ran
    obtain ⟨-, start⟩ := (recodes_fixed 25).exact input bytes middle began
    split at later
    · next parsed checked =>
      cases later
      refine ⟨trivial, ?_⟩
      rw [Address.asBytes_of_fromBytes checked]
      exact start
    · cases later

structure Transaction.Fits (transaction : Transaction) : Prop where
  publicKey : transaction.publicKey.length ≤ 65
  signature : transaction.signature.length ≤ 64

theorem Transaction.Fits.size {transaction : Transaction} (fits : transaction.Fits) :
    transaction.consensusEncode.length ≤ MAX_TRANSACTION_BYTES := by
  have key := fits.publicKey
  have signature := fits.signature
  simp only [Transaction.consensusEncode, List.length_append, Writer.u16_length,
    Address.asBytes_length, Writer.u64_length, Writer.bytes_length, MAX_TRANSACTION_BYTES]
  omega

theorem recodes_transaction :
    Recodes Transaction.decodeFrom Transaction.Fits Transaction.consensusEncode := by
  refine Recodes.bind Transaction.version recodes_u16 (fun _ _ => trivial) fun version _ => ?_
  refine Recodes.bind Transaction.sender recodes_address (fun _ _ => trivial) fun sender _ => ?_
  refine Recodes.bind Transaction.recipient recodes_address (fun _ _ => trivial)
    fun recipient _ => ?_
  refine Recodes.bind Transaction.amount recodes_u64 (fun _ _ => trivial) fun amount _ => ?_
  refine Recodes.bind Transaction.fee recodes_u64 (fun _ _ => trivial) fun fee _ => ?_
  refine Recodes.bind Transaction.nonce recodes_u64 (fun _ _ => trivial) fun nonce _ => ?_
  refine Recodes.bind Transaction.publicKey (recodes_bytes (by decide))
    (fun transaction inside => inside.1.1.1.1.1.1.publicKey) fun publicKey key => ?_
  refine Recodes.last Transaction.signature
    (fun signature => ⟨version, sender, recipient, amount, fee, nonce, publicKey, signature⟩)
    (recodes_bytes (by decide)) ?_ ?_ ?_
  · intro signature length
    have fits : (Transaction.mk version sender recipient amount fee nonce publicKey
      signature).Fits := ⟨key, length⟩
    exact if_neg (Nat.not_lt.mpr fits.size)
  · intro signature length
    exact ⟨⟨⟨⟨⟨⟨⟨⟨⟨key, length⟩, rfl⟩, rfl⟩, rfl⟩, rfl⟩, rfl⟩, rfl⟩, rfl⟩, rfl⟩
  · intro transaction inside
    obtain ⟨⟨⟨⟨⟨⟨⟨fits, rfl⟩, rfl⟩, rfl⟩, rfl⟩, rfl⟩, rfl⟩, rfl⟩ := inside
    exact ⟨fits.signature, rfl⟩

theorem recodes_claim :
    Recodes RewardClaim.decodeFrom (fun _ => True) RewardClaim.consensusEncode := by
  refine Recodes.bind RewardClaim.version recodes_u16 (fun _ _ => trivial) fun version _ => ?_
  refine Recodes.bind RewardClaim.height recodes_u64 (fun _ _ => trivial) fun height _ => ?_
  refine Recodes.bind RewardClaim.finder recodes_address (fun _ _ => trivial) fun finder _ => ?_
  refine Recodes.bind RewardClaim.amount recodes_u64 (fun _ _ => trivial) fun amount _ => ?_
  refine Recodes.last RewardClaim.extranonce
    (fun extranonce => ⟨version, height, finder, amount, extranonce⟩) recodes_u64
    (fun _ _ => rfl) ?_ ?_
  · intro extranonce _
    exact ⟨⟨⟨⟨⟨trivial, rfl⟩, rfl⟩, rfl⟩, rfl⟩, rfl⟩
  · intro claim inside
    obtain ⟨⟨⟨⟨-, rfl⟩, rfl⟩, rfl⟩, rfl⟩ := inside
    exact ⟨trivial, rfl⟩

omit [Crypto] in
theorem recodes_header :
    Recodes BlockHeader.decodeFrom (fun _ => True) BlockHeader.consensusEncode := by
  refine Recodes.bind BlockHeader.version recodes_u16 (fun _ _ => trivial) fun version _ => ?_
  refine Recodes.bind BlockHeader.protocol recodes_u16 (fun _ _ => trivial) fun protocol _ => ?_
  refine Recodes.bind BlockHeader.height recodes_u64 (fun _ _ => trivial) fun height _ => ?_
  refine Recodes.bind BlockHeader.previousBlock (recodes_fixed 32) (fun _ _ => trivial)
    fun previousBlock _ => ?_
  refine Recodes.bind BlockHeader.transactionsRoot (recodes_fixed 32) (fun _ _ => trivial)
    fun transactionsRoot _ => ?_
  refine Recodes.bind BlockHeader.stateRoot (recodes_fixed 32) (fun _ _ => trivial)
    fun stateRoot _ => ?_
  refine Recodes.bind BlockHeader.workshareRoot (recodes_fixed 32) (fun _ _ => trivial)
    fun workshareRoot _ => ?_
  refine Recodes.bind BlockHeader.timestamp recodes_u64 (fun _ _ => trivial) fun timestamp _ => ?_
  refine Recodes.bind BlockHeader.bits recodes_u32 (fun _ _ => trivial) fun bits _ => ?_
  refine Recodes.last BlockHeader.nonce
    (fun nonce => ⟨version, protocol, height, previousBlock, transactionsRoot, stateRoot,
      workshareRoot, timestamp, bits, nonce⟩) recodes_u64 (fun _ _ => rfl) ?_ ?_
  · intro nonce _
    exact ⟨⟨⟨⟨⟨⟨⟨⟨⟨⟨trivial, rfl⟩, rfl⟩, rfl⟩, rfl⟩, rfl⟩, rfl⟩, rfl⟩, rfl⟩, rfl⟩, rfl⟩
  · intro header inside
    obtain ⟨⟨⟨⟨⟨⟨⟨⟨⟨-, rfl⟩, rfl⟩, rfl⟩, rfl⟩, rfl⟩, rfl⟩, rfl⟩, rfl⟩, rfl⟩ := inside
    exact ⟨trivial, rfl⟩

theorem recodes_workshare :
    Recodes Workshare.decodeFrom (fun _ => True) Workshare.consensusEncode := by
  refine Recodes.bind Workshare.version recodes_u16 (fun _ _ => trivial) fun version _ => ?_
  refine Recodes.bind Workshare.previousWorkshare (recodes_fixed 32) (fun _ _ => trivial)
    fun previousWorkshare _ => ?_
  refine Recodes.bind Workshare.templateId (recodes_fixed 32) (fun _ _ => trivial)
    fun templateId _ => ?_
  refine Recodes.bind Workshare.miner recodes_address (fun _ _ => trivial) fun miner _ => ?_
  refine Recodes.bind Workshare.extranonce recodes_u64 (fun _ _ => trivial) fun extranonce _ => ?_
  refine Recodes.last Workshare.candidateHeader
    (fun header => ⟨version, previousWorkshare, templateId, miner, extranonce, header⟩)
    recodes_header (fun _ _ => rfl) ?_ ?_
  · intro header _
    exact ⟨⟨⟨⟨⟨⟨trivial, rfl⟩, rfl⟩, rfl⟩, rfl⟩, rfl⟩, rfl⟩
  · intro share inside
    obtain ⟨⟨⟨⟨⟨-, rfl⟩, rfl⟩, rfl⟩, rfl⟩, rfl⟩ := inside
    exact ⟨trivial, rfl⟩

/-- What the decoder of a counted transaction list checks. -/
structure TransactionsFit (transactions : List Transaction) : Prop where
  count : transactions.length ≤ MAX_BLOCK_TRANSACTIONS
  each : ∀ transaction ∈ transactions, transaction.Fits

theorem recodes_transactions :
    Recodes decodeTransactions TransactionsFit encodeTransactions := by
  refine (recodes_vector (recodes_nested recodes_transaction (by decide)) (by decide)).congr ?_
  intro transactions
  constructor
  · intro fit
    exact ⟨fit.count, fun transaction member =>
      ⟨fit.each transaction member, (fit.each transaction member).size⟩⟩
  · intro inside
    exact ⟨inside.1, fun transaction member => (inside.2 transaction member).1⟩

theorem recodes_template :
    Recodes BlockTemplate.decodeFrom (fun template => TransactionsFit template.transactions)
      BlockTemplate.consensusEncode := by
  refine Recodes.bind BlockTemplate.version recodes_u16 (fun _ _ => trivial) fun version _ => ?_
  refine Recodes.bind BlockTemplate.height recodes_u64 (fun _ _ => trivial) fun height _ => ?_
  refine Recodes.bind BlockTemplate.parent (recodes_fixed 32) (fun _ _ => trivial)
    fun parent _ => ?_
  refine Recodes.last BlockTemplate.transactions
    (fun transactions => ⟨version, height, parent, transactions⟩) recodes_transactions
    (fun _ _ => rfl) ?_ ?_
  · intro transactions fit
    exact ⟨⟨⟨⟨fit, rfl⟩, rfl⟩, rfl⟩, rfl⟩
  · intro template inside
    obtain ⟨⟨⟨fit, rfl⟩, rfl⟩, rfl⟩ := inside
    exact ⟨fit, rfl⟩

/-- What the decoder of a witness checks. -/
structure WorkshareWitness.Fits (witness : WorkshareWitness) : Prop where
  templates : witness.templates.length ≤ MAX_TEMPLATES_PER_BLOCK
  workshares : witness.workshares.length ≤ MAX_WORKSHARES_PER_BLOCK
  transactions : ∀ template ∈ witness.templates, TransactionsFit template.transactions
  templateBytes : ∀ template ∈ witness.templates,
    template.consensusEncode.length ≤ MAX_TEMPLATE_BYTES

theorem recodes_witness :
    Recodes WorkshareWitness.decodeFrom WorkshareWitness.Fits WorkshareWitness.consensusEncode := by
  have templateList := recodes_vector (recodes_nested recodes_template
    (show MAX_TEMPLATE_BYTES ≤ MAX_CONSENSUS_ALLOCATION by decide))
    (show MAX_TEMPLATES_PER_BLOCK < 2 ^ 32 by decide)
  have shareList := recodes_vector (recodes_nested recodes_workshare
    (show 512 ≤ MAX_CONSENSUS_ALLOCATION by decide))
    (show MAX_WORKSHARES_PER_BLOCK < 2 ^ 32 by decide)
  -- each count with the items behind it is one vector
  have grouped : WorkshareWitness.decodeFrom = (do
      let version ← Reader.u16
      let templates ← readVector MAX_TEMPLATES_PER_BLOCK
        (Reader.nested MAX_TEMPLATE_BYTES BlockTemplate.decodeFrom)
      let workshares ← readVector MAX_WORKSHARES_PER_BLOCK (Reader.nested 512 Workshare.decodeFrom)
      return ⟨version, templates, workshares⟩) := by
    unfold WorkshareWitness.decodeFrom readVector
    simp only [bind_assoc]
  have encoded : WorkshareWitness.consensusEncode = fun witness =>
      Writer.u16 witness.version ++
        ((Writer.count witness.templates.length ++ witness.templates.flatMap
            (fun template => Writer.bytes template.consensusEncode)) ++
          (Writer.count witness.workshares.length ++ witness.workshares.flatMap
            (fun share => Writer.bytes share.consensusEncode))) := by
    funext witness
    simp only [WorkshareWitness.consensusEncode, List.append_assoc]
  rw [grouped, encoded]
  refine Recodes.bind WorkshareWitness.version recodes_u16 (fun _ _ => trivial) fun version _ => ?_
  refine Recodes.bind WorkshareWitness.templates templateList ?_ fun templates known => ?_
  · intro witness inside
    exact ⟨inside.1.templates, fun template member =>
      ⟨inside.1.transactions template member, inside.1.templateBytes template member⟩⟩
  refine Recodes.last WorkshareWitness.workshares
    (fun workshares => ⟨version, templates, workshares⟩) shareList (fun _ _ => rfl) ?_ ?_
  · intro workshares all
    exact ⟨⟨⟨⟨known.1, all.1, fun template member => (known.2 template member).1,
      fun template member => (known.2 template member).2⟩, rfl⟩, rfl⟩, rfl⟩
  · intro witness inside
    obtain ⟨⟨fits, rfl⟩, rfl⟩ := inside
    refine ⟨⟨fits.workshares, ?_⟩, rfl⟩
    intro share _
    refine ⟨trivial, ?_⟩
    rw [Workshare.consensusEncode_length]
    decide

def encodeClaim (claim : Option RewardClaim) : Bytes :=
  match claim with
  | some claim => Writer.u8 1 ++ claim.consensusEncode
  | none => Writer.u8 0

theorem recodes_optionalClaim : Recodes Block.decodeClaim (fun _ => True) encodeClaim where
  reads claim _ := by
    cases claim with
    | none =>
      rw [← List.append_nil (encodeClaim none)]
      exact (reads_u8 0).bind (Reads.pure none)
    | some claim => exact (reads_u8 1).bind ((recodes_claim.reads claim trivial).map some)
  exact input claim rest ran := by
    obtain ⟨tag, middle, began, later⟩ := run_bind_ok.mp ran
    obtain ⟨-, start⟩ := recodes_u8.exact input tag middle began
    refine ⟨trivial, ?_⟩
    split at later
    · cases later
      exact start
    · obtain ⟨inner, rfl, -, remaining⟩ := recodes_claim.wrapped later
      rw [encodeClaim, List.append_assoc, ← remaining]
      exact start
    · cases later

structure Block.Fits (block : Block) : Prop where
  transactions : TransactionsFit block.transactions
  witness : block.workshareWitness.Fits
  witnessBytes : block.workshareWitness.consensusEncode.length ≤ MAX_WORKSHARE_WITNESS_BYTES

theorem recodes_block : Recodes Block.decodeFrom Block.Fits Block.consensusEncode := by
  refine Recodes.bind Block.header recodes_header (fun _ _ => trivial) fun header _ => ?_
  refine Recodes.bind Block.rewardClaim recodes_optionalClaim (fun _ _ => trivial)
    fun rewardClaim _ => ?_
  refine Recodes.bind Block.transactions recodes_transactions
    (fun block inside => inside.1.1.transactions) fun transactions listed => ?_
  refine Recodes.last Block.workshareWitness
    (fun witness => ⟨header, rewardClaim, transactions, witness⟩)
    (recodes_nested recodes_witness (by decide)) (fun _ _ => rfl) ?_ ?_
  · intro witness inside
    exact ⟨⟨⟨⟨⟨listed, inside.1, inside.2⟩, rfl⟩, rfl⟩, rfl⟩, rfl⟩
  · intro block inside
    obtain ⟨⟨⟨fits, rfl⟩, rfl⟩, rfl⟩ := inside
    exact ⟨⟨fits.witness, fits.witnessBytes⟩, rfl⟩

end Objects

end ParitrNode
