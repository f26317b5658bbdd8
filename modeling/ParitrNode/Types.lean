import ParitrNode.Library.PairedMerkle
import ParitrNode.Difficulty
import ParitrNode.State

/-!
Transactions, headers, templates, workshares and blocks with their encodings,
their ids and the transaction Merkle root.
-/

namespace ParitrNode
open ByteCodec

structure Transaction where
  version : UInt16
  sender : Address
  recipient : Address
  amount : UInt64
  fee : UInt64
  nonce : UInt64
  publicKey : Bytes
  signature : Bytes
  deriving DecidableEq

namespace Transaction

def VERSION : UInt16 := 1

variable [Crypto]

def signingBytes (transaction : Transaction) : Bytes :=
  Writer.bytes (ascii CHAIN_ID) ++ (Writer.u16 transaction.version ++
    (transaction.sender.asBytes ++ (transaction.recipient.asBytes ++
    (Writer.u64 transaction.amount ++ (Writer.u64 transaction.fee ++ Writer.u64 transaction.nonce)))))

def signatureHash (transaction : Transaction) : Hash32 :=
  domainHash "PARITR-P9-TX-SIGN-v1" transaction.signingBytes

def consensusEncode (transaction : Transaction) : Bytes :=
  Writer.u16 transaction.version ++ (transaction.sender.asBytes ++ (transaction.recipient.asBytes ++
    (Writer.u64 transaction.amount ++ (Writer.u64 transaction.fee ++ (Writer.u64 transaction.nonce ++
    (Writer.bytes transaction.publicKey ++ Writer.bytes transaction.signature))))))

def decodeFrom : Reader Transaction := do
  let version ← Reader.u16
  let sender ← Address.decodeFrom
  let recipient ← Address.decodeFrom
  let amount ← Reader.u64
  let fee ← Reader.u64
  let nonce ← Reader.u64
  let publicKey ← Reader.bytes 65
  let signature ← Reader.bytes 64
  let value : Transaction := ⟨version, sender, recipient, amount, fee, nonce, publicKey, signature⟩
  if value.consensusEncode.length > MAX_TRANSACTION_BYTES then
    throw (.limitExceeded value.consensusEncode.length MAX_TRANSACTION_BYTES)
  else return value

def id (transaction : Transaction) : Hash32 :=
  domainHash "PARITR-P9-TXID-v1" transaction.consensusEncode

end Transaction

structure RewardClaim where
  version : UInt16
  height : UInt64
  finder : Address
  amount : UInt64
  extranonce : UInt64
  deriving DecidableEq

namespace RewardClaim

def VERSION : UInt16 := 1

variable [Crypto]

def consensusEncode (claim : RewardClaim) : Bytes :=
  Writer.u16 claim.version ++ (Writer.u64 claim.height ++ (claim.finder.asBytes ++
    (Writer.u64 claim.amount ++ Writer.u64 claim.extranonce)))

def decodeFrom : Reader RewardClaim := do
  let version ← Reader.u16
  let height ← Reader.u64
  let finder ← Address.decodeFrom
  let amount ← Reader.u64
  let extranonce ← Reader.u64
  return ⟨version, height, finder, amount, extranonce⟩

def id (claim : RewardClaim) : Hash32 :=
  domainHash "PARITR-P9-REWARD-CLAIM-v1" claim.consensusEncode

@[simp] theorem consensusEncode_length (claim : RewardClaim) : claim.consensusEncode.length = 51 := by
  simp [consensusEncode]

end RewardClaim

structure BlockHeader where
  version : UInt16
  protocol : UInt16
  height : UInt64
  previousBlock : Hash32
  transactionsRoot : Hash32
  stateRoot : Hash32
  workshareRoot : Hash32
  timestamp : UInt64
  bits : UInt32
  nonce : UInt64
  deriving DecidableEq

namespace BlockHeader

def ENCODED_LEN : Nat := 160

def consensusEncode (header : BlockHeader) : Bytes :=
  Writer.u16 header.version ++ (Writer.u16 header.protocol ++ (Writer.u64 header.height ++
    (header.previousBlock.bytes ++ (header.transactionsRoot.bytes ++ (header.stateRoot.bytes ++
    (header.workshareRoot.bytes ++ (Writer.u64 header.timestamp ++ (Writer.u32 header.bits ++
    Writer.u64 header.nonce))))))))

def decodeFrom : Reader BlockHeader := do
  let version ← Reader.u16
  let protocol ← Reader.u16
  let height ← Reader.u64
  let previousBlock ← Reader.fixed 32
  let transactionsRoot ← Reader.fixed 32
  let stateRoot ← Reader.fixed 32
  let workshareRoot ← Reader.fixed 32
  let timestamp ← Reader.u64
  let bits ← Reader.u32
  let nonce ← Reader.u64
  return ⟨version, protocol, height, previousBlock, transactionsRoot, stateRoot, workshareRoot,
    timestamp, bits, nonce⟩

/-- Block identifiers are SHA256d of the header, without a domain. -/
def id [Crypto] (header : BlockHeader) : Hash32 := sha256d header.consensusEncode

@[simp] theorem consensusEncode_length (header : BlockHeader) :
    header.consensusEncode.length = ENCODED_LEN := by
  simp [consensusEncode, ENCODED_LEN]

theorem drop_nonce (header : BlockHeader) :
    header.consensusEncode.drop 152 = Writer.u64 header.nonce := by
  simp [consensusEncode, List.drop_append, List.drop_eq_nil_of_le]

end BlockHeader

structure BlockTemplate where
  version : UInt16
  height : UInt64
  parent : Hash32
  transactions : List Transaction
  deriving DecidableEq

def encodeTransactions [Crypto] (transactions : List Transaction) : Bytes :=
  Writer.count transactions.length ++
    transactions.flatMap (fun transaction => Writer.bytes transaction.consensusEncode)

def decodeTransactions [Crypto] : Reader (List Transaction) := do
  let count ← Reader.vectorLen MAX_BLOCK_TRANSACTIONS
  readMany (Reader.nested MAX_TRANSACTION_BYTES Transaction.decodeFrom) count

namespace BlockTemplate

def VERSION : UInt16 := 1

variable [Crypto]

def consensusEncode (template : BlockTemplate) : Bytes :=
  Writer.u16 template.version ++ (Writer.u64 template.height ++ (template.parent.bytes ++
    encodeTransactions template.transactions))

def decodeFrom : Reader BlockTemplate := do
  let version ← Reader.u16
  let height ← Reader.u64
  let parent ← Reader.fixed 32
  let transactions ← decodeTransactions
  return ⟨version, height, parent, transactions⟩

def id (template : BlockTemplate) : Hash32 :=
  domainHash "PARITR-P9-TEMPLATE-v1" template.consensusEncode

end BlockTemplate

structure Workshare where
  version : UInt16
  previousWorkshare : Hash32
  templateId : Hash32
  miner : Address
  extranonce : UInt64
  candidateHeader : BlockHeader
  deriving DecidableEq

namespace Workshare

def VERSION : UInt16 := 1

variable [Crypto]

def consensusEncode (share : Workshare) : Bytes :=
  Writer.u16 share.version ++ (share.previousWorkshare.bytes ++ (share.templateId.bytes ++
    (share.miner.asBytes ++ (Writer.u64 share.extranonce ++ share.candidateHeader.consensusEncode))))

def decodeFrom : Reader Workshare := do
  let version ← Reader.u16
  let previousWorkshare ← Reader.fixed 32
  let templateId ← Reader.fixed 32
  let miner ← Address.decodeFrom
  let extranonce ← Reader.u64
  let candidateHeader ← BlockHeader.decodeFrom
  return ⟨version, previousWorkshare, templateId, miner, extranonce, candidateHeader⟩

def id (share : Workshare) : Hash32 :=
  domainHash "PARITR-P9-WORKSHARE-v1" share.consensusEncode

@[simp] theorem consensusEncode_length (share : Workshare) : share.consensusEncode.length = 259 := by
  simp [consensusEncode, BlockHeader.ENCODED_LEN]

end Workshare

structure WorkshareWitness where
  version : UInt16
  templates : List BlockTemplate
  workshares : List Workshare
  deriving DecidableEq

namespace WorkshareWitness

def VERSION : UInt16 := 1

def empty : WorkshareWitness := ⟨VERSION, [], []⟩

variable [Crypto]

def consensusEncode (witness : WorkshareWitness) : Bytes :=
  Writer.u16 witness.version ++ (Writer.count witness.templates.length ++
    (witness.templates.flatMap (fun template => Writer.bytes template.consensusEncode) ++
    (Writer.count witness.workshares.length ++
    witness.workshares.flatMap (fun share => Writer.bytes share.consensusEncode))))

def decodeFrom : Reader WorkshareWitness := do
  let version ← Reader.u16
  let templateCount ← Reader.vectorLen MAX_TEMPLATES_PER_BLOCK
  let templates ← readMany (Reader.nested MAX_TEMPLATE_BYTES BlockTemplate.decodeFrom) templateCount
  let shareCount ← Reader.vectorLen MAX_WORKSHARES_PER_BLOCK
  let workshares ← readMany (Reader.nested 512 Workshare.decodeFrom) shareCount
  return ⟨version, templates, workshares⟩

def root (witness : WorkshareWitness) : Hash32 :=
  domainHash "PARITR-P9-WORKSHARE-WITNESS-v1" witness.consensusEncode

/-- Template ids strictly increase, and they are the ids the shares refer to. -/
def isCanonical (witness : WorkshareWitness) : Bool :=
  let ids := witness.templates.map BlockTemplate.id
  if (ids.zip ids.tail).any (fun pair => (compare pair.1 pair.2).isGE) then false
  else
    let referenced := witness.workshares.map Workshare.templateId
    referenced.all (fun id => decide (id ∈ ids)) && ids.all (fun id => decide (id ∈ referenced))

end WorkshareWitness

structure Block where
  header : BlockHeader
  rewardClaim : Option RewardClaim
  transactions : List Transaction
  workshareWitness : WorkshareWitness
  deriving DecidableEq

/-! The transaction Merkle tree: an odd last hash is paired with itself. -/

def merkleNode [Crypto] (left right : Hash32) : Hash32 :=
  domainHash "PARITR-P9-MERKLE-NODE-v1" (left.bytes ++ right.bytes)

def padLevel (level : List Hash32) : List Hash32 :=
  if level.length % 2 = 1 then level ++ level.getLast?.toList else level

/-- The hashes of `as_chunks::<2>()`. -/
def hashPairs [Crypto] : List Hash32 → List Hash32
  | left :: right :: rest => merkleNode left right :: hashPairs rest
  | _ => []

theorem hashPairs_eq [Crypto] : ∀ level : List Hash32,
    hashPairs level = (PairedMerkle.pairs level).map fun pair => merkleNode pair.1 pair.2
  | [] => rfl
  | [_] => rfl
  | _ :: _ :: rest => by
    rw [hashPairs, PairedMerkle.pairs, List.map_cons, hashPairs_eq rest]

theorem nextLevel_eq [Crypto] (level : List Hash32) :
    hashPairs (padLevel level) = PairedMerkle.parents merkleNode level := hashPairs_eq _

def merkleLoop [Crypto] (level : List Hash32) : Hash32 :=
  if level.length > 1 then merkleLoop (hashPairs (padLevel level)) else level.headD Hash32.ZERO
termination_by level.length
decreasing_by
  rw [nextLevel_eq, PairedMerkle.parents_length]
  omega

theorem merkleLoop_eq [Crypto] (level : List Hash32) :
    merkleLoop level = PairedMerkle.root merkleNode Hash32.ZERO level := by
  induction level using merkleLoop.induct with
  | case1 level long ih =>
    rw [merkleLoop, if_pos long, ih, nextLevel_eq, ← PairedMerkle.root_of_long long]
  | case2 level short => rw [merkleLoop, if_neg short, PairedMerkle.root, if_neg short]

def merkleRoot [Crypto] (leaves : List Hash32) : Hash32 :=
  if leaves = [] then domainHash "PARITR-P9-MERKLE-EMPTY-v1" [] else merkleLoop leaves

namespace Block

variable [Crypto]

def consensusEncode (block : Block) : Bytes :=
  block.header.consensusEncode ++ ((match block.rewardClaim with
    | some claim => Writer.u8 1 ++ claim.consensusEncode
    | none => Writer.u8 0) ++ (encodeTransactions block.transactions ++
    Writer.bytes block.workshareWitness.consensusEncode))

def decodeClaim : Reader (Option RewardClaim) := do
  match ← Reader.u8 with
  | 0 => return none
  | 1 => return some (← RewardClaim.decodeFrom)
  | tag => throw (.invalidTag tag)

def decodeFrom : Reader Block := do
  let header ← BlockHeader.decodeFrom
  let rewardClaim ← decodeClaim
  let transactions ← decodeTransactions
  let witness ← Reader.nested MAX_WORKSHARE_WITNESS_BYTES WorkshareWitness.decodeFrom
  return ⟨header, rewardClaim, transactions, witness⟩

def consensusDecode (bytes : Bytes) : Except CodecError Block :=
  ParitrNode.consensusDecode decodeFrom bytes

def id (block : Block) : Hash32 := block.header.id

def transactionRoot (block : Block) : Hash32 :=
  merkleRoot ((block.rewardClaim.map RewardClaim.id).toList ++ block.transactions.map Transaction.id)

def genesis : Block :=
  { header :=
      { version := HEADER_VERSION
        protocol := PROTOCOL_VERSION
        height := 0
        previousBlock := Hash32.ZERO
        transactionsRoot := domainHash "PARITR-P9-GENESIS-v1" (ascii GENESIS_MESSAGE)
        stateRoot := (default : LedgerState).root
        workshareRoot := WorkshareWitness.empty.root
        timestamp := GENESIS_TIMESTAMP
        bits := targetToBits initialTarget
        nonce := 0 }
    rewardClaim := none
    transactions := []
    workshareWitness := WorkshareWitness.empty }

end Block

end ParitrNode
