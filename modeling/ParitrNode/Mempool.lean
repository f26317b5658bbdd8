import ParitrNode.Validation

/-!
The transaction pool under a relay policy. `entries` is a hash map in the
source; every traversal of it sorts or takes a minimum by a total order, so the
order of the traversal does not matter here.
-/

namespace ParitrNode
open OrderedMap Checked

def DEFAULT_MIN_RELAY_FEE : UInt64 := 100000
def DEFAULT_DUST_LIMIT : UInt64 := 1000
def DEFAULT_MAX_MEMPOOL_BYTES : Nat := 64 * 1024 * 1024
def DEFAULT_MAX_NONCE_GAP : UInt64 := 64
def DEFAULT_MEMPOOL_TTL_SECONDS : UInt64 := 24 * 60 * 60
def RBF_PERCENT : UInt64 := 10

structure RelayPolicy where
  minRelayFee : UInt64
  dustLimit : UInt64
  maxMempoolBytes : Nat
  maxNonceGap : UInt64
  ttlSeconds : UInt64

instance : Inhabited RelayPolicy :=
  ⟨⟨DEFAULT_MIN_RELAY_FEE, DEFAULT_DUST_LIMIT, DEFAULT_MAX_MEMPOOL_BYTES, DEFAULT_MAX_NONCE_GAP,
    DEFAULT_MEMPOOL_TTL_SECONDS⟩⟩

structure MempoolEntry where
  transaction : Transaction
  receivedAt : UInt64
  size : Nat

/-- `panicked` stands for an index that is not in the map. -/
inductive MempoolError where
  | policy
  | invalid
  | nonce
  | balance
  | replacementFee
  | panicked
  deriving DecidableEq, Repr

structure Mempool where
  policy : RelayPolicy
  entries : BTreeMap Hash32 MempoolEntry
  bySenderNonce : BTreeMap (Address × UInt64) Hash32
  bytes : Nat

/-- Cross-multiplied fee rates, then ids. -/
def compareRate (left right : Hash32 × MempoolEntry) : Ordering :=
  (compare (left.2.transaction.fee.toNat * right.2.size)
    (right.2.transaction.fee.toNat * left.2.size)).then (compare left.1 right.1)

/-- Highest rate first; equal rates by the lower id. -/
def byRate (left right : Hash32 × MempoolEntry) : Bool :=
  ((compare (right.2.transaction.fee.toNat * left.2.size)
    (left.2.transaction.fee.toNat * right.2.size)).then (compare left.1 right.1)).isLE

def validateForRelay [Crypto] (transaction : Transaction) (policy : RelayPolicy)
    (state : LedgerState) : Except MempoolError Unit :=
  if transaction.version ≠ Transaction.VERSION ∨ transaction.amount = 0 ∨
      transaction.amount > MAX_MONEY ∨ transaction.fee > MAX_MONEY ∨
      transaction.nonce = UInt64.ofNat (2 ^ 64 - 1) ∨ transaction.amount < policy.dustLimit ∨
      transaction.fee < policy.minRelayFee ∨ transaction.sender = transaction.recipient ∨
      ¬(transaction.publicKey.length = 33 ∨ transaction.publicKey.length = 65) ∨
      transaction.signature.length ≠ 64 then .error .policy
  else
    let account := state.account transaction.sender
    if transaction.nonce < account.nonce ∨
        transaction.nonce > saturatingAdd account.nonce policy.maxNonceGap then .error .nonce
    else match checkSignature transaction with
      | .ok () => .ok ()
      | .error _ => .error .invalid

namespace Mempool

def new (policy : RelayPolicy) : Mempool := ⟨policy, ∅, ∅, 0⟩

def contains (pool : Mempool) (id : Hash32) : Bool := (pool.entries[id]?).isSome

def get (pool : Mempool) (id : Hash32) : Option Transaction :=
  (pool.entries[id]?).map MempoolEntry.transaction

def remove (pool : Mempool) (id : Hash32) : Mempool :=
  match pool.entries[id]? with
  | none => pool
  | some entry =>
    { pool with
      entries := pool.entries.erase id
      bytes := pool.bytes - entry.size
      bySenderNonce := pool.bySenderNonce.erase (entry.transaction.sender, entry.transaction.nonce) }

/-- The queue of one sender from its account nonce on. -/
def senderQueue (pool : Mempool) (sender : Address) (nonce : UInt64) :
    List ((Address × UInt64) × Hash32) :=
  pool.bySenderNonce.toList.filter fun entry =>
    (compare (sender, nonce) entry.1).isLE &&
      (compare entry.1 (sender, UInt64.ofNat (2 ^ 64 - 1))).isLE

/-- The loop of `sender_is_funded`; `none` is the failing index. -/
def fundedFrom (pool : Mempool) (sender : Address) (expectedNonce balance : UInt64) :
    List ((Address × UInt64) × Hash32) → Option Bool
  | [] => some true
  | ((entrySender, nonce), id) :: rest =>
    if entrySender ≠ sender ∨ nonce ≠ expectedNonce then some true
    else do
      let entry ← pool.entries[id]?
      match checkedAdd entry.transaction.amount entry.transaction.fee with
      | none => some false
      | some needed =>
        if needed > balance then some false
        else fundedFrom pool sender (expectedNonce + 1) (balance - needed) rest

def senderIsFunded (pool : Mempool) (sender : Address) (state : LedgerState) : Option Bool :=
  let account := state.account sender
  fundedFrom pool sender account.nonce account.balance (pool.senderQueue sender account.nonce)

def expired (pool : Mempool) (now : UInt64) : List Hash32 :=
  (pool.entries.toList.filter fun entry =>
    saturatingSub now entry.2.receivedAt > pool.policy.ttlSeconds).map Prod.fst

def lowest (pool : Mempool) : Option Hash32 :=
  (pool.entries.toList.mergeSort (fun left right => (compareRate left right).isLE)).head?.map Prod.fst

/-- The `while` loop, at most once for each entry. -/
def trim : Nat → Mempool → Mempool
  | 0, pool => pool
  | count + 1, pool =>
    if pool.bytes > pool.policy.maxMempoolBytes then
      match pool.lowest with
      | some id => trim count (pool.remove id)
      | none => pool
    else pool

def expireAndTrim (pool : Mempool) (now : UInt64) : Mempool :=
  let kept := (pool.expired now).foldl remove pool
  trim kept.entries.size kept

variable [Crypto]

def removeConfirmed (pool : Mempool) (transactions : List Transaction) : Mempool :=
  transactions.foldl (fun pool transaction => pool.remove transaction.id) pool

def replacementFee (policy : RelayPolicy) (existing : Transaction) : UInt64 :=
  saturatingAdd existing.fee (max policy.minRelayFee
    (saturatingAdd (saturatingMul existing.fee RBF_PERCENT) 99 / 100))

/-- The entry is in place before the funding check, which takes it out again. -/
def insertFunded (pool : Mempool) (transaction : Transaction) (state : LedgerState) (now : UInt64) :
    Except MempoolError Hash32 × Mempool :=
  let id := transaction.id
  let slot := (transaction.sender, transaction.nonce)
  let size := transaction.consensusEncode.length
  let inserted : Mempool :=
    { pool with
      bytes := pool.bytes + size
      bySenderNonce := pool.bySenderNonce.insert slot id
      entries := pool.entries.insert id ⟨transaction, now, size⟩ }
  match inserted.senderIsFunded slot.1 state with
  | none => (.error .panicked, inserted)
  | some false => (.error .balance, inserted.remove id)
  | some true => (.ok id, inserted.expireAndTrim now)

def accept (pool : Mempool) (transaction : Transaction) (state : LedgerState) (now : UInt64) :
    Except MempoolError Hash32 × Mempool :=
  match validateForRelay transaction pool.policy state with
  | .error error => (.error error, pool)
  | .ok () =>
    if pool.contains transaction.id then (.ok transaction.id, pool)
    else match pool.bySenderNonce[(transaction.sender, transaction.nonce)]? with
      | none => pool.insertFunded transaction state now
      | some existingId =>
        match pool.entries[existingId]? with
        | none => (.error .panicked, pool)
        | some existing =>
          if transaction.fee < replacementFee pool.policy existing.transaction then
            (.error .replacementFee, pool)
          else (pool.remove existingId).insertFunded transaction state now

/-- The entries that fit the working state, best rate first. -/
def candidates (pool : Mempool) (working : LedgerState) (included : List Hash32) :
    List (Hash32 × MempoolEntry) :=
  (pool.entries.toList.filter fun (id, entry) =>
    decide (id ∉ included ∧
      (working.account entry.transaction.sender).nonce = entry.transaction.nonce ∧
      (working.account entry.transaction.sender).balance ≥
        saturatingAdd entry.transaction.amount entry.transaction.fee)).mergeSort byRate

def execute (working : LedgerState) (transaction : Transaction) : Option LedgerState := do
  let debited ← (working.debit transaction.sender (transaction.amount + transaction.fee)).toOption
  let credited ← (debited.credit transaction.recipient transaction.amount).toOption
  return credited.setNonce transaction.sender (transaction.nonce + 1)

/-- The selection loop, at most once for each entry. -/
def selectFrom (pool : Mempool) (maximum : Nat) : Nat → LedgerState → List Hash32 →
    List Transaction → Option (List Transaction)
  | 0, _, _, selected => some selected
  | count + 1, working, included, selected =>
    match (pool.candidates working included).head? with
    | none => some selected
    | some (id, entry) => do
      let next ← execute working entry.transaction
      let selected := selected ++ [entry.transaction]
      if selected.length ≥ maximum then some selected
      else selectFrom pool maximum count next (id :: included) selected

def select (pool : Mempool) (state : LedgerState) (maximum : Nat) : Option (List Transaction) :=
  selectFrom pool maximum pool.entries.size state [] []

end Mempool

end ParitrNode
