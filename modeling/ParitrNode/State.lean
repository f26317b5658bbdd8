import ParitrNode.Library.OrderedMap
import ParitrNode.Params
import ParitrNode.Crypto

/-!
The ledger state: account and pending-reward maps, and the cached 256-level
sparse Merkle tree that commits to both. A `&mut self` method returns the state
it leaves behind, on the error path too.
-/

namespace ParitrNode
open ByteCodec OrderedMap Checked

/-- `panicked` is not a constructor of the source: it is the outcome of a call
that panics there. -/
inductive ConsensusError where
  | codec (error : CodecError)
  | crypto (error : CryptoError)
  | invalidGenesis
  | unsupportedVersion
  | wrongParent
  | wrongHeight
  | invalidTimestamp
  | futureTimestamp
  | invalidTarget
  | invalidProofOfWork
  | powUnavailable (reason : String)
  | sizeLimit
  | transactionRootMismatch
  | stateRootMismatch
  | workshareRootMismatch
  | nonCanonicalWitness
  | invalidWorkshareChain
  | duplicateTransaction
  | invalidTransaction
  | invalidNonce
  | insufficientBalance
  | moneyRange
  | rewardMismatch
  | arithmeticOverflow
  | differentGenesis
  | insufficientWork
  | storageInvariant (reason : String)
  | panicked
  deriving DecidableEq, Repr

structure Account where
  balance : UInt64
  nonce : UInt64
  deriving DecidableEq

instance : Inhabited Account := ⟨⟨0, 0⟩⟩

def Account.consensusEncode (account : Account) : Bytes :=
  Writer.u64 account.balance ++ Writer.u64 account.nonce

structure PendingReward where
  maturityHeight : UInt64
  recipient : Address
  amount : UInt64
  deriving DecidableEq

def PendingReward.consensusEncode [Crypto] (reward : PendingReward) : Bytes :=
  Writer.u64 reward.maturityHeight ++ (reward.recipient.asBytes ++ Writer.u64 reward.amount)

inductive StateKey where
  | account (address : Address)
  | pendingReward (maturity : UInt64) (recipient : Address)
  deriving DecidableEq

def StateKey.preimage [Crypto] : StateKey → Bytes
  | .account address => Writer.u8 0 ++ address.asBytes
  | .pendingReward maturity recipient => Writer.u8 1 ++ (Writer.u64 maturity ++ recipient.asBytes)

def StateKey.hash [Crypto] (key : StateKey) : Hash32 :=
  domainHash "PARITR-P9-STATE-KEY-v1" key.preimage

/-! The 256 bits of a key, most significant first. -/

def bit (key : Hash32) (depth : Nat) : UInt8 :=
  (key.bytes.getD (depth / 8) 0 >>> UInt8.ofNat (7 - depth % 8)) &&& 1

def toggleBit (key : Hash32) (depth : Nat) : Hash32 :=
  ⟨key.bytes.modify (depth / 8) (· ^^^ ((1 : UInt8) <<< UInt8.ofNat (7 - depth % 8))), by simp⟩

/-- `prefix`: the first `depth` bits, the rest cleared. -/
def keyPrefix (key : Hash32) (depth : Nat) : Hash32 :=
  let fullBytes := depth / 8
  let remaining := depth % 8
  if fullBytes < 32 then
    if remaining = 0 then
      ⟨key.bytes.mapIdx fun index byte => if index ≥ fullBytes then 0 else byte, by simp⟩
    else
      ⟨key.bytes.mapIdx fun index byte =>
        if index = fullBytes then byte &&& ((0xff : UInt8) <<< UInt8.ofNat (8 - remaining))
        else if index ≥ fullBytes + 1 then 0 else byte, by simp⟩
  else key

structure NodeIndex where
  depth : Nat
  path : Hash32
  deriving DecidableEq

instance : Ord NodeIndex := ⟨compareOn fun index => (index.depth, index.path)⟩

instance : Std.TransOrd NodeIndex :=
  inferInstanceAs (Std.TransCmp (compareOn fun index : NodeIndex => (index.depth, index.path)))

instance : Std.LawfulEqOrd NodeIndex where
  eq_of_compare {first second} same := by
    have parts : (first.depth, first.path) = (second.depth, second.path) :=
      Std.LawfulEqOrd.eq_of_compare same
    cases first
    cases second
    cases parts
    rfl

def nodeHash [Crypto] (left right : Hash32) : Hash32 :=
  domainHash "PARITR-P9-SMT-NODE-v1" (left.bytes ++ right.bytes)

def leafHash [Crypto] (key : Hash32) (value : Bytes) : Hash32 :=
  domainHash "PARITR-P9-SMT-LEAF-v1" (key.bytes ++ value)

/-- The hash of an empty subtree with `height` levels below its root. -/
def emptyHash [Crypto] : Nat → Hash32
  | 0 => domainHash "PARITR-P9-SMT-EMPTY-LEAF-v1" []
  | height + 1 => nodeHash (emptyHash height) (emptyHash height)

structure SparseMerkleTree where
  values : BTreeMap Hash32 Bytes
  nodes : BTreeMap NodeIndex Hash32

namespace SparseMerkleTree

instance : Inhabited SparseMerkleTree := ⟨⟨∅, ∅⟩⟩

variable [Crypto]

def empty (depth : Nat) : Hash32 := emptyHash (256 - depth)

def root (tree : SparseMerkleTree) : Hash32 :=
  (tree.nodes[(⟨0, Hash32.ZERO⟩ : NodeIndex)]?).getD (empty 0)

def node (tree : SparseMerkleTree) (depth : Nat) (path : Hash32) : Hash32 :=
  (tree.nodes[(⟨depth, path⟩ : NodeIndex)]?).getD (empty depth)

def setLeaf (tree : SparseMerkleTree) (key : Hash32) (value : Option Bytes) : SparseMerkleTree :=
  let leafIndex : NodeIndex := ⟨256, key⟩
  match value with
  | some value =>
    if value ≠ [] then
      { values := tree.values.insert key value
        nodes := tree.nodes.insert leafIndex (leafHash key value) }
    else { values := tree.values.erase key, nodes := tree.nodes.erase leafIndex }
  | none => { values := tree.values.erase key, nodes := tree.nodes.erase leafIndex }

/-- One round of the loop: the parent of the path node one level down. -/
def rehash (key : Hash32) (tree : SparseMerkleTree) (parentDepth : Nat) : SparseMerkleTree :=
  let childDepth := parentDepth + 1
  let childPrefix := keyPrefix key childDepth
  let siblingPrefix := toggleBit childPrefix parentDepth
  let child := tree.node childDepth childPrefix
  let sibling := tree.node childDepth siblingPrefix
  let pair := if bit key parentDepth = 0 then (child, sibling) else (sibling, child)
  let hash := nodeHash pair.1 pair.2
  let parentIndex : NodeIndex := ⟨parentDepth, keyPrefix key parentDepth⟩
  if hash = empty parentDepth then { tree with nodes := tree.nodes.erase parentIndex }
  else { tree with nodes := tree.nodes.insert parentIndex hash }

def update (tree : SparseMerkleTree) (key : Hash32) (value : Option Bytes) : SparseMerkleTree :=
  (List.range 256).reverse.foldl (rehash key) (tree.setLeaf key value)

end SparseMerkleTree

structure LedgerState where
  accounts : BTreeMap Address Account
  pendingRewards : BTreeMap (UInt64 × Address) UInt64
  tree : SparseMerkleTree

namespace LedgerState

def SNAPSHOT_VERSION : UInt16 := 1

instance : Inhabited LedgerState := ⟨⟨∅, ∅, default⟩⟩

def account (state : LedgerState) (address : Address) : Account :=
  (state.accounts[address]?).getD default

/-- `pending_for`: saturating, over the entries of one recipient. -/
def pendingFor (state : LedgerState) (address : Address) : UInt64 :=
  ((state.pendingRewards.toList.filter (fun entry => entry.1.2 = address)).map Prod.snd).foldl
    saturatingAdd 0

variable [Crypto]

def root (state : LedgerState) : Hash32 := state.tree.root

def setAccount (state : LedgerState) (address : Address) (account : Account) : LedgerState :=
  let key := (StateKey.account address).hash
  if account = default then
    { state with accounts := state.accounts.erase address, tree := state.tree.update key none }
  else
    { state with
      accounts := state.accounts.insert address account
      tree := state.tree.update key (some account.consensusEncode) }

def credit (state : LedgerState) (address : Address) (amount : UInt64) :
    Except ConsensusError LedgerState := do
  let account := state.account address
  let balance ← okOr .moneyRange
    ((checkedAdd account.balance amount).filter (fun balance => decide (balance ≤ MAX_MONEY)))
  return state.setAccount address { account with balance }

def debit (state : LedgerState) (address : Address) (amount : UInt64) :
    Except ConsensusError LedgerState := do
  let account := state.account address
  let balance ← okOr .insufficientBalance (checkedSub account.balance amount)
  return state.setAccount address { account with balance }

def setNonce (state : LedgerState) (address : Address) (nonce : UInt64) : LedgerState :=
  state.setAccount address { state.account address with nonce }

def scheduleReward (state : LedgerState) (maturity : UInt64) (recipient : Address)
    (amount : UInt64) : Except ConsensusError LedgerState :=
  if amount = 0 then return state
  else do
    let key := (maturity, recipient)
    let next ← okOr .moneyRange
      ((checkedAdd ((state.pendingRewards[key]?).getD 0) amount).filter
        (fun amount => decide (amount ≤ MAX_MONEY)))
    return { state with
      pendingRewards := state.pendingRewards.insert key next
      tree := state.tree.update (StateKey.pendingReward maturity recipient).hash
        (some (PendingReward.consensusEncode ⟨maturity, recipient, next⟩)) }

def addressMin : Address := Address.fromPublicKeyHash (FixedBytes.zero 20)

def addressMax : Address := Address.fromPublicKeyHash ⟨List.replicate 20 0xff, by simp⟩

/-- The entries of the key range `(height, address_min())..=(height, address_max())`. -/
def maturing (state : LedgerState) (height : UInt64) : List (Address × UInt64) :=
  (state.pendingRewards.toList.filter fun entry =>
    (compare (height, addressMin) entry.1).isLE && (compare entry.1 (height, addressMax)).isLE).map
      fun entry => (entry.1.2, entry.2)

def removePending (state : LedgerState) (height : UInt64) (address : Address) : LedgerState :=
  { state with
    pendingRewards := state.pendingRewards.erase (height, address)
    tree := state.tree.update (StateKey.pendingReward height address).hash none }

/-- The loop of `mature`. A failing credit leaves the entries before it moved
and its own entry removed. -/
def matureAll (height : UInt64) : List (Address × UInt64) → LedgerState →
    Except ConsensusError Unit × LedgerState
  | [], state => (.ok (), state)
  | (address, amount) :: rest, state =>
    let removed := state.removePending height address
    match removed.credit address amount with
    | .error error => (.error error, removed)
    | .ok credited => matureAll height rest credited

def mature (state : LedgerState) (height : UInt64) :
    Except ConsensusError (List (Address × UInt64)) × LedgerState :=
  match matureAll height (state.maturing height) state with
  | (.error error, left) => (.error error, left)
  | (.ok (), left) => (.ok (state.maturing height), left)

/-- The snapshot written next to the active chain. -/
def consensusEncode (state : LedgerState) : Bytes :=
  Writer.u16 SNAPSHOT_VERSION ++ Writer.count state.accounts.toList.length ++
    state.accounts.toList.flatMap (fun entry => entry.1.asBytes ++ entry.2.consensusEncode) ++
    Writer.count state.pendingRewards.toList.length ++
    state.pendingRewards.toList.flatMap (fun entry =>
      PendingReward.consensusEncode ⟨entry.1.1, entry.1.2, entry.2⟩) ++ state.root.bytes

end LedgerState

end ParitrNode
