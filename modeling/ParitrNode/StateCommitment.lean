import ParitrNode.StateTree
import ParitrNode.Scheduled

/-!
The state root as a commitment. Whatever calls built a state, failing ones
included, its tree holds exactly the encodings of its two maps; so the root is
a function of the maps and, unless hashes collide, the maps of the root.
-/

namespace ParitrNode
open ByteCodec OrderedMap Checked

inductive StateCall where
  | credit (address : Address) (amount : UInt64)
  | debit (address : Address) (amount : UInt64)
  | setNonce (address : Address) (nonce : UInt64)
  | scheduleReward (maturity : UInt64) (recipient : Address) (amount : UInt64)
  | mature (height : UInt64)

namespace StateCall

/-- The keys whose values the call may set; a matured reward was scheduled
before, and its recipient's account counts with the scheduling call. -/
def touched : StateCall → Set StateKey
  | credit address _ => {.account address}
  | debit address _ => {.account address}
  | setNonce address _ => {.account address}
  | scheduleReward maturity recipient _ => {.pendingReward maturity recipient, .account recipient}
  | mature _ => ∅

/-- The state the call leaves behind, whether it returns `Ok` or `Err`. -/
def leaves [Crypto] (state : LedgerState) : StateCall → LedgerState
  | credit address amount => (state.credit address amount).toOption.getD state
  | debit address amount => (state.debit address amount).toOption.getD state
  | setNonce address nonce => state.setNonce address nonce
  | scheduleReward maturity recipient amount =>
    (state.scheduleReward maturity recipient amount).toOption.getD state
  | mature height => (state.mature height).2

end StateCall

def afterCalls [Crypto] (calls : List StateCall) : LedgerState :=
  calls.foldl StateCall.leaves default

def touchedBy (calls : List StateCall) : Set StateKey := {key | ∃ call ∈ calls, key ∈ call.touched}

/-- A pending key comes with the account that will be credited. -/
theorem recipient_touched {calls : List StateCall} {maturity : UInt64} {recipient : Address}
    (pending : .pendingReward maturity recipient ∈ touchedBy calls) :
    .account recipient ∈ touchedBy calls := by
  obtain ⟨call, member, inside⟩ := pending
  refine ⟨call, member, ?_⟩
  cases call with
  | credit address amount => cases inside
  | debit address amount => cases inside
  | setNonce address nonce => cases inside
  | scheduleReward maturity' recipient' amount =>
    cases inside with
    | inl same =>
      cases same
      exact Or.inr rfl
    | inr same => cases same
  | mature height => cases inside

section Commitment

variable [Crypto]

theorem StateKey.preimage_injective {first second : StateKey}
    (same : first.preimage = second.preimage) : first = second := by
  cases first with
  | account address =>
    cases second with
    | account address' =>
      rw [Address.asBytes_injective (List.cons.inj same).2]
    | pendingReward maturity recipient => exact absurd (List.cons.inj same).1 (by decide)
  | pendingReward maturity recipient =>
    cases second with
    | account address => exact absurd (List.cons.inj same).1 (by decide)
    | pendingReward maturity' recipient' =>
      have rest : Writer.u64 maturity ++ recipient.asBytes =
          Writer.u64 maturity' ++ recipient'.asBytes := (List.cons.inj same).2
      obtain ⟨heights, recipients⟩ := List.append_inj rest (by simp)
      rw [Writer.u64_injective heights, Address.asBytes_injective recipients]

def keyInputs (keys : Set StateKey) : Set (String × Bytes) :=
  {input | ∃ key ∈ keys, input = ("PARITR-P9-STATE-KEY-v1", key.preimage)}

def treeInputs (state : LedgerState) : Set (String × Bytes) :=
  Set.image SparseMerkleTree.treeInput (SparseMerkle.queries keyBits SparseMerkleTree.treeHash
    (fun key : Hash32 => state.tree.values[key]?) 256 Hash32.ZERO)

def HashesApart (keys : Set StateKey) : Prop :=
  ∀ first ∈ keys, ∀ second ∈ keys, first.hash = second.hash → first = second

theorem hashesApart {keys : Set StateKey} (free : CollisionFree (keyInputs keys)) :
    HashesApart keys := by
  intro first inside second inside' same
  exact StateKey.preimage_injective (free.data_eq ⟨first, inside, rfl⟩ ⟨second, inside', rfl⟩ same)

namespace LedgerState

def encoding (state : LedgerState) : StateKey → Option Bytes
  | .account address => (state.accounts[address]?).map Account.consensusEncode
  | .pendingReward maturity recipient => (state.pendingRewards[(maturity, recipient)]?).map
      fun amount => PendingReward.consensusEncode ⟨maturity, recipient, amount⟩

theorem encoding_default (key : StateKey) : (default : LedgerState).encoding key = none := by
  cases key with
  | account address =>
    have absent : (default : LedgerState).accounts[address]? = none := get_empty address
    rw [encoding, absent]
    rfl
  | pendingReward maturity recipient =>
    have absent : (default : LedgerState).pendingRewards[(maturity, recipient)]? = none :=
      get_empty (maturity, recipient)
    rw [encoding, absent]
    rfl

omit [Crypto] in
theorem account_encode_injective {first second : Account}
    (same : first.consensusEncode = second.consensusEncode) : first = second := by
  obtain ⟨balances, nonces⟩ := List.append_inj same (by simp)
  cases first
  cases second
  cases Writer.u64_injective balances
  cases Writer.u64_injective nonces
  rfl

theorem pending_encode_injective {maturity : UInt64} {recipient : Address} {first second : UInt64}
    (same : PendingReward.consensusEncode ⟨maturity, recipient, first⟩ =
      PendingReward.consensusEncode ⟨maturity, recipient, second⟩) : first = second :=
  Writer.u64_injective (List.append_cancel_left (List.append_cancel_left same))

theorem maps_eq_of_encoding {first second : LedgerState}
    (same : ∀ key, first.encoding key = second.encoding key) :
    first.accounts = second.accounts ∧ first.pendingRewards = second.pendingRewards := by
  constructor
  · apply OrderedMap.ext
    intro address
    exact Option.map_injective (fun _ _ => account_encode_injective) (same (.account address))
  · apply OrderedMap.ext
    intro key
    exact Option.map_injective (fun _ _ => pending_encode_injective)
      (same (.pendingReward key.1 key.2))

theorem encoding_eq_of_maps {first second : LedgerState}
    (accounts : first.accounts = second.accounts)
    (pending : first.pendingRewards = second.pendingRewards) (key : StateKey) :
    first.encoding key = second.encoding key := by
  cases key with
  | account address => rw [encoding, encoding, accounts]
  | pendingReward maturity recipient => rw [encoding, encoding, pending]

/-- The invariant: the tree holds the encodings of the maps, each under the
hash of its key, and nothing else. -/
structure Mirrored (keys : Set StateKey) (state : LedgerState) : Prop where
  coherent : state.tree.Coherent
  known : ∀ key value, state.encoding key = some value → key ∈ keys
  values : ∀ hash value, state.tree.values[hash]? = some value ↔
    ∃ key : StateKey, state.encoding key = some value ∧ key.hash = hash

theorem mirrored_default (keys : Set StateKey) : Mirrored keys default where
  coherent := SparseMerkleTree.coherent_default
  known key value found := by
    rw [encoding_default] at found
    cases found
  values hash value := by
    have absent : (default : LedgerState).tree.values[hash]? = none := get_empty hash
    rw [absent]
    constructor
    · exact fun impossible => nomatch impossible
    · intro ⟨key, found, _⟩
      rw [encoding_default] at found
      cases found

/-- A step that writes one key in its map and, under its hash, in the tree. -/
theorem Mirrored.write {keys : Set StateKey} {before after : LedgerState} {key : StateKey}
    (apart : HashesApart keys) (mirrored : Mirrored keys before)
    (member : key ∈ keys) (value : Option Bytes) (solid : SparseMerkleTree.kept value = value)
    (tree : after.tree = before.tree.update key.hash value)
    (maps : ∀ other, after.encoding other = if key = other then value else before.encoding other) :
    Mirrored keys after where
  coherent := by
    rw [tree]
    exact SparseMerkleTree.coherent_update mirrored.coherent _ _
  known other found present := by
    rw [maps] at present
    by_cases same : key = other
    · exact same ▸ member
    · rw [if_neg same] at present
      exact mirrored.known other found present
  values hash found := by
    rw [tree, SparseMerkleTree.get_update, solid]
    by_cases here : key.hash = hash
    · rw [if_pos here]
      constructor
      · intro stored
        exact ⟨key, by rw [maps, if_pos rfl, stored], here⟩
      · intro ⟨other, present, hashed⟩
        have same : key = other := by
          by_cases same : key = other
          · exact same
          · rw [maps, if_neg same] at present
            exact apart key member other (mirrored.known other found present)
              (here.trans hashed.symm)
        rwa [maps, if_pos same] at present
    · rw [if_neg here, mirrored.values]
      constructor
      · intro ⟨other, present, hashed⟩
        have different : key ≠ other := fun same => here (same ▸ hashed)
        exact ⟨other, by rwa [maps, if_neg different], hashed⟩
      · intro ⟨other, present, hashed⟩
        have different : key ≠ other := fun same => here (same ▸ hashed)
        exact ⟨other, by rwa [maps, if_neg different] at present, hashed⟩

omit [Crypto] in
theorem kept_append {first second : Bytes} (long : 0 < first.length) :
    SparseMerkleTree.kept (some (first ++ second)) = some (first ++ second) := by
  have nonempty : first ++ second ≠ [] := by
    intro empty
    have length := congrArg List.length empty
    rw [List.length_append] at length
    simp only [List.length_nil] at length
    omega
  simp only [SparseMerkleTree.kept, Option.filter, nonempty, ne_eq, not_false_eq_true, decide_true,
    if_true]

theorem Mirrored.setAccount {keys : Set StateKey} {state : LedgerState} (apart : HashesApart keys)
    (mirrored : Mirrored keys state) {address : Address} (member : .account address ∈ keys)
    (account : Account) : Mirrored keys (state.setAccount address account) := by
  unfold LedgerState.setAccount
  by_cases absent : account = default
  · simp only [absent, if_true]
    refine mirrored.write apart member none rfl (by simp only) ?_
    intro other
    cases other with
    | account other =>
      simp only [encoding, get_erase, StateKey.account.injEq]
      split
      · rfl
      · rfl
    | pendingReward maturity recipient => rfl
  · simp only [absent, if_false]
    refine mirrored.write apart member (some account.consensusEncode) (kept_append (by simp))
      (by simp only) ?_
    intro other
    cases other with
    | account other =>
      simp only [encoding, get_insert, StateKey.account.injEq]
      split
      · rfl
      · rfl
    | pendingReward maturity recipient => rfl

theorem Mirrored.credit {keys : Set StateKey} {state next : LedgerState} (apart : HashesApart keys)
    (mirrored : Mirrored keys state) {address : Address} (member : .account address ∈ keys)
    {amount : UInt64} (credited : state.credit address amount = .ok next) :
    Mirrored keys next := by
  unfold LedgerState.credit at credited
  simp only [bind_ok] at credited
  obtain ⟨balance, _, result⟩ := credited
  rw [← Except.ok.inj result]
  exact mirrored.setAccount apart member _

theorem Mirrored.debit {keys : Set StateKey} {state next : LedgerState} (apart : HashesApart keys)
    (mirrored : Mirrored keys state) {address : Address} (member : .account address ∈ keys)
    {amount : UInt64} (debited : state.debit address amount = .ok next) : Mirrored keys next := by
  unfold LedgerState.debit at debited
  simp only [bind_ok] at debited
  obtain ⟨balance, _, result⟩ := debited
  rw [← Except.ok.inj result]
  exact mirrored.setAccount apart member _

def withReward (state : LedgerState) (key : UInt64 × Address) (amount : UInt64) : LedgerState :=
  { state with
    pendingRewards := state.pendingRewards.insert key amount
    tree := state.tree.update (StateKey.pendingReward key.1 key.2).hash
      (some (PendingReward.consensusEncode ⟨key.1, key.2, amount⟩)) }

theorem Mirrored.withReward {keys : Set StateKey} {state : LedgerState} (apart : HashesApart keys)
    (mirrored : Mirrored keys state) {key : UInt64 × Address}
    (member : .pendingReward key.1 key.2 ∈ keys) (amount : UInt64) :
    Mirrored keys (state.withReward key amount) := by
  refine mirrored.write apart member
    (some (PendingReward.consensusEncode ⟨key.1, key.2, amount⟩)) (kept_append (by simp))
    (by simp only [LedgerState.withReward]) ?_
  intro other
  cases other with
  | account address => rfl
  | pendingReward maturity recipient =>
    simp only [encoding, LedgerState.withReward, get_insert, StateKey.pendingReward.injEq,
      Prod.ext_iff]
    split
    next same =>
      rw [← same.1, ← same.2]
      rfl
    next => rfl

theorem Mirrored.scheduleReward {keys : Set StateKey} {state next : LedgerState}
    (apart : HashesApart keys) (mirrored : Mirrored keys state) {maturity : UInt64}
    {recipient : Address} (member : .pendingReward maturity recipient ∈ keys) {amount : UInt64}
    (scheduled : state.scheduleReward maturity recipient amount = .ok next) :
    Mirrored keys next := by
  unfold LedgerState.scheduleReward at scheduled
  by_cases zero : amount = 0
  · rw [if_pos zero] at scheduled
    cases scheduled
    exact mirrored
  · rw [if_neg zero] at scheduled
    simp only [bind_ok] at scheduled
    obtain ⟨merged, _, result⟩ := scheduled
    rw [← Except.ok.inj result]
    have written : Mirrored keys (state.withReward (maturity, recipient) merged) :=
      mirrored.withReward apart member merged
    exact written

theorem Mirrored.removePending {keys : Set StateKey} {state : LedgerState}
    (apart : HashesApart keys) (mirrored : Mirrored keys state) {height : UInt64}
    {address : Address} (member : .pendingReward height address ∈ keys) :
    Mirrored keys (state.removePending height address) := by
  refine mirrored.write apart member none rfl (by simp only [LedgerState.removePending]) ?_
  intro other
  cases other with
  | account address => rfl
  | pendingReward maturity recipient =>
    unfold LedgerState.removePending
    simp only [encoding, get_erase, StateKey.pendingReward.injEq, Prod.mk.injEq]
    split
    · rfl
    · rfl

/-- What removing and crediting keep, `mature` keeps: each entry is removed and
credited, and the first failing credit stops. -/
theorem matureAll_keeps {keeps : LedgerState → Prop} {height : UInt64}
    (entries : List (Address × UInt64)) {state : LedgerState} (start : keeps state)
    (removes : ∀ entry ∈ entries, ∀ before : LedgerState, keeps before →
      keeps (before.removePending height entry.1))
    (credits : ∀ entry ∈ entries, ∀ before after : LedgerState, keeps before →
      before.credit entry.1 entry.2 = .ok after → keeps after) :
    keeps (LedgerState.matureAll height entries state).2 := by
  induction entries generalizing state with
  | nil => exact start
  | cons entry rest ih =>
    have removed := removes entry List.mem_cons_self state start
    unfold LedgerState.matureAll
    simp only
    cases credited : (state.removePending height entry.1).credit entry.1 entry.2 with
    | error error => exact removed
    | ok next =>
      apply ih (credits entry List.mem_cons_self _ next removed credited)
      · exact fun other member => removes other (List.mem_cons_of_mem entry member)
      · exact fun other member => credits other (List.mem_cons_of_mem entry member)

theorem mature_keeps {keeps : LedgerState → Prop} {height : UInt64} {state : LedgerState}
    (left : keeps (LedgerState.matureAll height (state.maturing height) state).2) :
    keeps (state.mature height).2 := by
  unfold LedgerState.mature
  cases run : LedgerState.matureAll height (state.maturing height) state with
  | mk result state' =>
    rw [run] at left
    cases result with
    | error error => exact left
    | ok done => exact left

theorem Mirrored.mature {keys : Set StateKey} {state : LedgerState} (apart : HashesApart keys)
    (closed : ∀ maturity recipient, .pendingReward maturity recipient ∈ keys →
      .account recipient ∈ keys)
    (mirrored : Mirrored keys state) (height : UInt64) : Mirrored keys (state.mature height).2 := by
  have members : ∀ entry ∈ state.maturing height,
      .pendingReward height entry.1 ∈ keys ∧ .account entry.1 ∈ keys := by
    intro entry member
    have present : state.encoding (.pendingReward height entry.1) =
        some (PendingReward.consensusEncode ⟨height, entry.1, entry.2⟩) := by
      rw [encoding, mem_maturing.mp member]
      rfl
    have pending := mirrored.known _ _ present
    exact ⟨pending, closed height entry.1 pending⟩
  apply mature_keeps
  apply matureAll_keeps _ mirrored
  · exact fun entry member _ before => before.removePending apart (members entry member).1
  · exact fun entry member _ _ before credited =>
      before.credit apart (members entry member).2 credited

theorem Mirrored.leaves {keys : Set StateKey} {state : LedgerState} (apart : HashesApart keys)
    (closed : ∀ maturity recipient, .pendingReward maturity recipient ∈ keys →
      .account recipient ∈ keys)
    (mirrored : Mirrored keys state) {call : StateCall} (inside : call.touched ⊆ keys) :
    Mirrored keys (call.leaves state) := by
  cases call with
  | credit address amount =>
    simp only [StateCall.leaves]
    cases result : state.credit address amount with
    | error error => exact mirrored
    | ok next => exact mirrored.credit apart (inside rfl) result
  | debit address amount =>
    simp only [StateCall.leaves]
    cases result : state.debit address amount with
    | error error => exact mirrored
    | ok next => exact mirrored.debit apart (inside rfl) result
  | setNonce address nonce => exact mirrored.setAccount apart (inside rfl) _
  | scheduleReward maturity recipient amount =>
    simp only [StateCall.leaves]
    cases result : state.scheduleReward maturity recipient amount with
    | error error => exact mirrored
    | ok next => exact mirrored.scheduleReward apart (inside (Or.inl rfl)) result
  | mature height => exact mirrored.mature apart closed height

end LedgerState

theorem afterCalls_mirrored (calls : List StateCall) {keys : Set StateKey}
    (apart : HashesApart keys)
    (closed : ∀ maturity recipient, .pendingReward maturity recipient ∈ keys →
      .account recipient ∈ keys)
    (inside : touchedBy calls ⊆ keys) : LedgerState.Mirrored keys (afterCalls calls) := by
  have run : ∀ (rest : List StateCall) (state : LedgerState), touchedBy rest ⊆ keys →
      LedgerState.Mirrored keys state →
        LedgerState.Mirrored keys (rest.foldl StateCall.leaves state) := by
    intro rest
    induction rest with
    | nil => exact fun state _ mirrored => mirrored
    | cons call rest ih =>
      intro state within mirrored
      apply ih
      · exact fun key ⟨other, member, touched⟩ =>
          within ⟨other, List.mem_cons_of_mem call member, touched⟩
      · exact mirrored.leaves apart closed
          fun key touched => within ⟨call, List.mem_cons_self, touched⟩
  exact run calls default inside (LedgerState.mirrored_default keys)

namespace LedgerState

theorem Mirrored.values_eq {keys : Set StateKey} {first second : LedgerState}
    (mirrored : Mirrored keys first) (mirrored' : Mirrored keys second)
    (same : ∀ key, first.encoding key = second.encoding key) :
    (fun hash : Hash32 => first.tree.values[hash]?) = fun hash => second.tree.values[hash]? := by
  funext hash
  apply Option.ext
  intro value
  rw [mirrored.values, mirrored'.values]
  simp only [same]

theorem Mirrored.encoding_eq {keys : Set StateKey} {first second : LedgerState}
    (apart : HashesApart keys) (mirrored : Mirrored keys first) (mirrored' : Mirrored keys second)
    (same : (fun hash : Hash32 => first.tree.values[hash]?) =
      fun hash => second.tree.values[hash]?) (key : StateKey) :
    first.encoding key = second.encoding key := by
  have carried : ∀ {left right : LedgerState}, Mirrored keys left → Mirrored keys right →
      (∀ hash : Hash32, left.tree.values[hash]? = right.tree.values[hash]?) →
        ∀ value, left.encoding key = some value → right.encoding key = some value := by
    intro left right mirrored mirrored' same value found
    have stored := (mirrored.values key.hash value).mpr ⟨key, found, rfl⟩
    rw [same] at stored
    obtain ⟨other, present, hashed⟩ := (mirrored'.values key.hash value).mp stored
    have equal := apart other (mirrored'.known other value present) key
      (mirrored.known key value found) hashed
    rwa [equal] at present
  apply Option.ext
  intro value
  constructor
  · exact carried mirrored mirrored' (congrFun same) value
  · exact carried mirrored' mirrored (fun hash => (congrFun same hash).symm) value

end LedgerState

theorem treeHash_injOn {inputs : Set (String × Bytes)} (free : CollisionFree inputs)
    {queries : Set (SparseMerkle.Query Hash32 Bytes Hash32)}
    (inside : Set.image SparseMerkleTree.treeInput queries ⊆ inputs) :
    Set.InjOn SparseMerkleTree.treeHash queries := by
  intro first member second member' same
  apply SparseMerkleTree.treeInput_injective
  exact free _ (inside ⟨first, member, rfl⟩) _ (inside ⟨second, member', rfl⟩) same

/-- Equal maps have equal roots, whatever the history; and equal roots come
from equal maps when the tree's hashes do not collide. Two keys of one hash would
share a leaf, which the later write wins: so the keys are apart in both halves. -/
theorem state_root_commits (first second : List StateCall)
    (keysFree : CollisionFree (keyInputs (touchedBy (first ++ second)))) :
    ((afterCalls first).accounts = (afterCalls second).accounts ∧
        (afterCalls first).pendingRewards = (afterCalls second).pendingRewards →
      (afterCalls first).root = (afterCalls second).root) ∧
    (CollisionFree (treeInputs (afterCalls first) ∪ treeInputs (afterCalls second)) →
      (afterCalls first).root = (afterCalls second).root →
        (afterCalls first).accounts = (afterCalls second).accounts ∧
          (afterCalls first).pendingRewards = (afterCalls second).pendingRewards) := by
  have apart := hashesApart keysFree
  have mirrored : LedgerState.Mirrored (touchedBy (first ++ second)) (afterCalls first) :=
    afterCalls_mirrored _ apart (fun _ _ => recipient_touched)
      fun key ⟨call, member, touched⟩ => ⟨call, List.mem_append_left _ member, touched⟩
  have mirrored' : LedgerState.Mirrored (touchedBy (first ++ second)) (afterCalls second) :=
    afterCalls_mirrored _ apart (fun _ _ => recipient_touched)
      fun key ⟨call, member, touched⟩ => ⟨call, List.mem_append_right _ member, touched⟩
  have root := SparseMerkleTree.root_eq mirrored.coherent
  have root' := SparseMerkleTree.root_eq mirrored'.coherent
  constructor
  · intro ⟨accounts, pending⟩
    have values := mirrored.values_eq mirrored'
      (LedgerState.encoding_eq_of_maps accounts pending)
    unfold LedgerState.root
    rw [root, root', values]
  · intro treeFree same
    unfold LedgerState.root at same
    rw [root, root'] at same
    have whole : keyBits.At 0 Hash32.ZERO := keyPrefix_zero Hash32.ZERO
    have free := treeHash_injOn treeFree (Set.image_union _ _ _).subset
    have values := SparseMerkle.root_binding whole free same
    exact LedgerState.maps_eq_of_encoding (mirrored.encoding_eq apart mirrored' values)

end Commitment

/-! A hash of tree nodes that keeps count: 512 times a bit for each key with a value below
the node, plus its height. The hash of a state key is a number below 240. -/

def tallyHash (input : Bytes) : Hash32 :=
  if fits : input.length = 32 then ⟨input, fits⟩
  else if input.length = 160 then labelHash input
  else if input.length = 97 then
    let left := leValue ((input.drop 33).take 32)
    let right := leValue (input.drop 65)
    FixedBytes.ofNat 32 (512 * (left / 512 ||| right / 512) + (left % 512 + 1))
  else if input.length = 81 ∨ input.length = 106 then
    FixedBytes.ofNat 32 (512 * 2 ^ leValue ((input.drop 33).take 32))
  else if input.length = 39 then FixedBytes.ofNat 32 0
  else FixedBytes.ofNat 32 ((input.map UInt8.toNat).sum % 240)

@[reducible] def tallied : Crypto := { (default : Crypto) with sha256 := tallyHash }

namespace Tallied

theorem domainHash_eq (domain : String) (data : Bytes) : @domainHash tallied domain data =
    tallyHash (leBytes 4 (ascii domain).length ++ ascii domain ++ leBytes 8 data.length ++ data) :=
  dif_pos (FixedBytes.length_eq _)

theorem key_small (key : StateKey) : leValue (@StateKey.hash tallied key).bytes < 240 := by
  let _ := tallied
  have front : (ascii "PARITR-P9-STATE-KEY-v1").length = 22 := by decide
  have width : key.preimage.length = 26 ∨ key.preimage.length = 34 := by
    cases key with
    | account address => exact Or.inl (by simp [StateKey.preimage])
    | pendingReward maturity recipient => exact Or.inr (by simp [StateKey.preimage])
  unfold StateKey.hash
  rw [domainHash_eq]
  have length : ∀ input : Bytes, input.length = 60 ∨ input.length = 68 →
      leValue (tallyHash input).bytes < 240 := by
    intro input size
    have small := Nat.mod_lt (input.map UInt8.toNat).sum (show 0 < 240 by decide)
    unfold tallyHash
    rw [dif_neg (by omega), if_neg (by omega), if_neg (by omega), if_neg (by omega), if_neg (by omega)]
    change leValue (leBytes 32 _) < 240
    rw [leValue_leBytes 32 _ (by omega)]
    exact small
  apply length
  simp only [List.length_append, leBytes_length, front]
  omega

theorem emptyLeaf : @SparseMerkleTree.treeHash tallied .emptyLeaf = FixedBytes.ofNat 32 0 := by
  decide

theorem leaf {key : Hash32} {value : Bytes} (width : value.length = 16 ∨ value.length = 41) :
    @SparseMerkleTree.treeHash tallied (.leaf key value) =
      FixedBytes.ofNat 32 (512 * 2 ^ leValue key.bytes) := by
  have counted : ∀ head : Bytes, head.length = 33 → tallyHash (head ++ (key.bytes ++ value)) =
      FixedBytes.ofNat 32 (512 * 2 ^ leValue key.bytes) := by
    intro head front
    have length : (head ++ (key.bytes ++ value)).length = 65 + value.length := by
      rw [List.length_append, List.length_append, front, key.length_eq]
      omega
    unfold tallyHash
    rw [dif_neg (by omega), if_neg (by omega), if_neg (by omega), if_pos (by omega),
      List.drop_left' front, List.take_left' key.length_eq]
  have front : (ascii "PARITR-P9-SMT-LEAF-v1").length = 21 := by decide
  unfold SparseMerkleTree.treeHash
  rw [domainHash_eq]
  apply counted
  simp only [SparseMerkleTree.treeInput, List.length_append, leBytes_length, front]

theorem node {left right : Nat} (small : left < 256 ^ 32) (small' : right < 256 ^ 32) :
    @SparseMerkleTree.treeHash tallied
        (.node (FixedBytes.ofNat 32 left) (FixedBytes.ofNat 32 right)) =
      FixedBytes.ofNat 32 (512 * (left / 512 ||| right / 512) + (left % 512 + 1)) := by
  have counted : ∀ head : Bytes, head.length = 33 →
      tallyHash (head ++ (leBytes 32 left ++ leBytes 32 right)) =
        FixedBytes.ofNat 32 (512 * (left / 512 ||| right / 512) + (left % 512 + 1)) := by
    intro head front
    have length : (head ++ (leBytes 32 left ++ leBytes 32 right)).length = 97 := by
      rw [List.length_append, List.length_append, front, leBytes_length, leBytes_length]
    have second : (head ++ (leBytes 32 left ++ leBytes 32 right)).drop 65 = leBytes 32 right := by
      rw [← List.append_assoc]
      apply List.drop_left'
      rw [List.length_append, front, leBytes_length]
    unfold tallyHash
    rw [dif_neg (by omega), if_neg (by omega), if_pos length, second, List.drop_left' front,
      List.take_left' (leBytes_length 32 left), leValue_leBytes 32 left small,
      leValue_leBytes 32 right small']
  have front : (ascii "PARITR-P9-SMT-NODE-v1").length = 21 := by decide
  unfold SparseMerkleTree.treeHash
  rw [domainHash_eq]
  apply counted
  simp only [SparseMerkleTree.treeInput, List.length_append, leBytes_length, front]

/-- The values of a tree whose nodes keep count. -/
structure Countable (values : Hash32 → Option Bytes) : Prop where
  width : ∀ key value, values key = some value → value.length = 16 ∨ value.length = 41
  small : ∀ key value, values key = some value → leValue key.bytes < 240

theorem subtree_eq {values : Hash32 → Option Bytes} (countable : Countable values)
    {depth height : Nat} {path : Hash32} (bottom : depth + height = 256) (here : keyBits.At depth path) :
    ∃ count < 2 ^ 240,
      SparseMerkle.subtree keyBits (@SparseMerkleTree.treeHash tallied) values height path =
        FixedBytes.ofNat 32 (512 * count + height) ∧
      ∀ place, count.testBit place = true ↔
        ∃ entry ∈ SparseMerkle.entriesBelow keyBits values depth path, leValue entry.1.bytes = place := by
  induction height generalizing depth path with
  | zero =>
    obtain rfl : depth = 256 := bottom
    have only : ∀ key, keyBits.truncate key 256 = path ↔ key = path := by
      intro key
      rw [keyBits.truncate_levels]
    rw [SparseMerkle.subtree, SparseMerkle.leafQuery]
    cases stored : values path with
    | none =>
      refine ⟨0, by decide, emptyLeaf, fun place => ?_⟩
      rw [Nat.zero_testBit]
      constructor
      · intro impossible
        cases impossible
      · intro inside
        obtain ⟨entry, ⟨found, below⟩, _⟩ := inside
        rw [(only entry.1).mp below, stored] at found
        cases found
    | some value =>
      have small := countable.small path value stored
      have power : 2 ^ leValue path.bytes < 2 ^ 240 := Nat.pow_lt_pow_right (by decide) small
      refine ⟨2 ^ leValue path.bytes, power, leaf (countable.width path value stored), fun place => ?_⟩
      rw [Nat.testBit_two_pow, decide_eq_true_iff]
      constructor
      · exact fun same => ⟨(path, value), ⟨stored, (only path).mpr rfl⟩, same⟩
      · intro inside
        obtain ⟨entry, ⟨_, below⟩, same⟩ := inside
        rwa [(only entry.1).mp below] at same
  | succ height ih =>
    have inside : depth < 256 := by omega
    have position : 256 - (height + 1) = depth := by omega
    obtain ⟨left, small, label, bits⟩ := ih (by omega) (here.left keyBits)
    obtain ⟨right, small', label', bits'⟩ := ih (by omega) (here.right keyBits inside)
    have top : (512 * 2 ^ 240 + 512 : Nat) ≤ 256 ^ 32 := by decide +kernel
    refine ⟨left ||| right, Nat.or_lt_two_pow small small', ?_, fun place => ?_⟩
    · rw [SparseMerkle.subtree, position, label, label', node (by omega) (by omega)]
      have half : (512 * left + height) / 512 = left := by omega
      have half' : (512 * right + height) / 512 = right := by omega
      have rest : (512 * left + height) % 512 = height := by omega
      rw [half, half', rest]
    · rw [Nat.testBit_or, Bool.or_eq_true, bits, bits']
      constructor
      · intro entries
        rcases entries with ⟨entry, below, same⟩ | ⟨entry, below, same⟩
        · exact ⟨entry, (SparseMerkle.mem_entriesBelow_succ inside here).mpr (Or.inl below), same⟩
        · exact ⟨entry, (SparseMerkle.mem_entriesBelow_succ inside here).mpr (Or.inr below), same⟩
      · intro entries
        obtain ⟨entry, below, same⟩ := entries
        rcases (SparseMerkle.mem_entriesBelow_succ inside here).mp below with lower | lower
        · exact Or.inl ⟨entry, lower, same⟩
        · exact Or.inr ⟨entry, lower, same⟩

theorem telling {trees : Set (Hash32 → Option Bytes)} (countable : ∀ values ∈ trees, Countable values)
    (agree : ∀ first ∈ trees, ∀ second ∈ trees, ∀ key value other, first key = some value →
      second key = some other → value = other) :
    SparseMerkle.Telling keyBits (@SparseMerkleTree.treeHash tallied) trees := by
  intro first member second member' depth depth' height height' path path' bottom bottom' here here' same
  obtain ⟨count, small, label, bits⟩ := subtree_eq (countable first member) bottom here
  obtain ⟨count', small', label', bits'⟩ := subtree_eq (countable second member') bottom' here'
  have top : (512 * 2 ^ 240 + 512 : Nat) ≤ 256 ^ 32 := by decide +kernel
  have equal : 512 * count + height = 512 * count' + height' := by
    apply leBytes_injective (show 512 * count + height < 256 ^ 32 by omega)
      (show 512 * count' + height' < 256 ^ 32 by omega)
    exact congrArg FixedBytes.bytes (label.symm.trans (same.trans label'))
  obtain rfl : count = count' := by omega
  refine ⟨by omega, ?_⟩
  have carried : ∀ {values others : Hash32 → Option Bytes}, values ∈ trees → others ∈ trees →
      ∀ {depth depth' : Nat} {path path' : Hash32},
        (∀ place, (∃ entry ∈ SparseMerkle.entriesBelow keyBits values depth path,
            leValue entry.1.bytes = place) →
          ∃ entry ∈ SparseMerkle.entriesBelow keyBits others depth' path',
            leValue entry.1.bytes = place) →
        SparseMerkle.entriesBelow keyBits values depth path ⊆
          SparseMerkle.entriesBelow keyBits others depth' path' := by
    intro values others member member' depth depth' path path' places entry inside
    obtain ⟨other, inside', number⟩ := places _ ⟨entry, inside, rfl⟩
    have keys : other.1 = entry.1 := by
      apply FixedBytes.ext
      have widths : other.1.bytes.length = entry.1.bytes.length :=
        other.1.length_eq.trans entry.1.length_eq.symm
      calc other.1.bytes = leBytes other.1.bytes.length (leValue other.1.bytes) :=
            (leBytes_leValue _).symm
        _ = leBytes entry.1.bytes.length (leValue entry.1.bytes) := by rw [widths, number]
        _ = entry.1.bytes := leBytes_leValue _
    have found := inside'.1
    rw [keys] at found
    have value : entry.2 = other.2 := agree values member others member' entry.1 _ _ inside.1 found
    have pair : entry = other := Prod.ext keys.symm value
    rwa [pair]
  apply Set.Subset.antisymm
  · exact carried member member' fun place => (bits place).symm.trans (bits' place) |>.mp
  · exact carried member' member fun place => (bits' place).symm.trans (bits place) |>.mp

theorem countable {keys : Set StateKey} {state : LedgerState}
    (mirrored : @LedgerState.Mirrored tallied keys state) :
    Countable fun hash => state.tree.values[hash]? := by
  let _ := tallied
  constructor
  · intro hash value stored
    obtain ⟨key, found, _⟩ := (mirrored.values hash value).mp stored
    cases key with
    | account address =>
      obtain ⟨account, _, encoded⟩ := Option.map_eq_some_iff.mp found
      rw [← encoded]
      exact Or.inl (by simp [Account.consensusEncode])
    | pendingReward maturity recipient =>
      obtain ⟨amount, _, encoded⟩ := Option.map_eq_some_iff.mp found
      rw [← encoded]
      exact Or.inr (by simp [PendingReward.consensusEncode])
  · intro hash value stored
    obtain ⟨key, _, hashed⟩ := (mirrored.values hash value).mp stored
    rw [← hashed]
    exact key_small key

theorem free {keys : Set StateKey} {first second : LedgerState} (apart : @HashesApart tallied keys)
    (mirrored : @LedgerState.Mirrored tallied keys first)
    (mirrored' : @LedgerState.Mirrored tallied keys second)
    (agree : ∀ key value other, @LedgerState.encoding tallied first key = some value →
      @LedgerState.encoding tallied second key = some other → value = other) :
    @CollisionFree tallied (@treeInputs tallied first ∪ @treeInputs tallied second) := by
  let _ := tallied
  let trees : Set (Hash32 → Option Bytes) :=
    {fun hash => first.tree.values[hash]?, fun hash => second.tree.values[hash]?}
  have stored : ∀ {left right : LedgerState}, LedgerState.Mirrored keys left →
      LedgerState.Mirrored keys right →
        (∀ key value other, left.encoding key = some value → right.encoding key = some other →
          value = other) →
        ∀ (hash : Hash32) (value other : Bytes), left.tree.values[hash]? = some value →
          right.tree.values[hash]? = some other → value = other := by
    intro left right leftMirrored rightMirrored same hash value other found found'
    obtain ⟨key, holds, hashed⟩ := (leftMirrored.values hash value).mp found
    obtain ⟨key', holds', hashed'⟩ := (rightMirrored.values hash other).mp found'
    have equal := apart key (leftMirrored.known key value holds) key'
      (rightMirrored.known key' other holds') (hashed.trans hashed'.symm)
    rw [← equal] at holds'
    exact same key value other holds holds'
  have itself : ∀ (state : LedgerState) key value other, state.encoding key = some value →
      state.encoding key = some other → value = other :=
    fun _ _ _ _ left right => Option.some.inj (left.symm.trans right)
  have countableAll : ∀ values ∈ trees, Countable values := by
    intro values member
    rcases member with rfl | rfl
    · exact countable mirrored
    · exact countable mirrored'
  have told : SparseMerkle.Telling keyBits SparseMerkleTree.treeHash trees := by
    apply telling countableAll
    intro left member right member'
    rcases member with rfl | rfl
    · rcases member' with rfl | rfl
      · exact stored mirrored mirrored (itself first)
      · exact stored mirrored mirrored' agree
    · rcases member' with rfl | rfl
      · exact stored mirrored' mirrored
          fun key value other left right => (agree key other value right left).symm
      · exact stored mirrored' mirrored' (itself second)
  have injective := told.injOn (keyPrefix_zero Hash32.ZERO)
  have shape : ∀ input ∈ treeInputs first ∪ treeInputs second, ∃ query,
      (∃ values ∈ trees, query ∈ SparseMerkle.queries keyBits SparseMerkleTree.treeHash values 256
        Hash32.ZERO) ∧ SparseMerkleTree.treeInput query = input := by
    intro input member
    rcases member with ⟨query, inside, same⟩ | ⟨query, inside, same⟩
    · exact ⟨query, ⟨_, Or.inl rfl, inside⟩, same⟩
    · exact ⟨query, ⟨_, Or.inr rfl, inside⟩, same⟩
  intro input member input' member' same
  obtain ⟨query, inside, rfl⟩ := shape input member
  obtain ⟨query', inside', rfl⟩ := shape input' member'
  exact congrArg SparseMerkleTree.treeInput (injective inside inside' same)

end Tallied

def StateCall.keys : StateCall → List StateKey
  | credit address _ => [.account address]
  | debit address _ => [.account address]
  | setNonce address _ => [.account address]
  | scheduleReward maturity recipient _ => [.pendingReward maturity recipient, .account recipient]
  | mature _ => []

theorem StateCall.mem_keys {call : StateCall} {key : StateKey} (touched : key ∈ call.touched) :
    key ∈ call.keys := by
  cases call with
  | credit address amount => exact List.mem_singleton.mpr touched
  | debit address amount => exact List.mem_singleton.mpr touched
  | setNonce address nonce => exact List.mem_singleton.mpr touched
  | scheduleReward maturity recipient amount =>
    cases touched with
    | inl pending => exact List.mem_cons.mpr (Or.inl pending)
    | inr account => exact List.mem_cons_of_mem _ (List.mem_singleton.mpr account)
  | mature height => cases touched

theorem keyInputs_free [Crypto] {calls : List StateCall}
    (distinct : ∀ key ∈ calls.flatMap StateCall.keys, ∀ other ∈ calls.flatMap StateCall.keys,
      key.hash = other.hash → key = other) : CollisionFree (keyInputs (touchedBy calls)) := by
  have listed : ∀ key ∈ touchedBy calls, key ∈ calls.flatMap StateCall.keys :=
    fun key ⟨call, member, touched⟩ => List.mem_flatMap.mpr ⟨call, member, StateCall.mem_keys touched⟩
  intro first ⟨key, inside, shape⟩ second ⟨key', inside', shape'⟩ same
  rw [shape, shape'] at same ⊢
  rw [distinct key (listed key inside) key' (listed key' inside') same]

/-- Two histories of one ledger with two accounts and a pending reward; in the second an
account is paid by a reward that matures, and the last debit fails. -/
theorem two_histories_one_root :
    ∃ (_ : Crypto) (first second : List StateCall),
      (afterCalls first).accounts.toList =
          [(LedgerState.addressMin, ⟨5, 0⟩), (LedgerState.addressMax, ⟨7, 0⟩)] ∧
        (afterCalls first).pendingRewards.toList = [((10, LedgerState.addressMin), 3)] ∧
        first ≠ second ∧ (afterCalls first).root = (afterCalls second).root ∧
        (afterCalls first).accounts = (afterCalls second).accounts ∧
          (afterCalls first).pendingRewards = (afterCalls second).pendingRewards := by
  let _ := tallied
  let first : List StateCall := [.credit LedgerState.addressMin 5, .credit LedgerState.addressMax 7,
    .scheduleReward 10 LedgerState.addressMin 3]
  let second : List StateCall := [.scheduleReward 10 LedgerState.addressMin 3,
    .scheduleReward 4 LedgerState.addressMax 7, .credit LedgerState.addressMin 6, .mature 4,
    .debit LedgerState.addressMin 1, .debit LedgerState.addressMin 9]
  have accounts : (afterCalls first).accounts.toList =
      [(LedgerState.addressMin, ⟨5, 0⟩), (LedgerState.addressMax, ⟨7, 0⟩)] := by decide +kernel
  have accounts' : (afterCalls second).accounts.toList =
      [(LedgerState.addressMin, ⟨5, 0⟩), (LedgerState.addressMax, ⟨7, 0⟩)] := by decide +kernel
  have pending : (afterCalls first).pendingRewards.toList = [((10, LedgerState.addressMin), 3)] := by
    decide +kernel
  have pending' : (afterCalls second).pendingRewards.toList = [((10, LedgerState.addressMin), 3)] := by
    decide +kernel
  have distinct : ∀ key ∈ (first ++ second).flatMap StateCall.keys,
      ∀ other ∈ (first ++ second).flatMap StateCall.keys, key.hash = other.hash → key = other := by
    decide +kernel
  have keysFree := keyInputs_free distinct
  have maps : (afterCalls first).accounts = (afterCalls second).accounts ∧
      (afterCalls first).pendingRewards = (afterCalls second).pendingRewards :=
    ⟨Std.ExtTreeMap.ext_toList (.of_eq (accounts.trans accounts'.symm)),
      Std.ExtTreeMap.ext_toList (.of_eq (pending.trans pending'.symm))⟩
  have apart := hashesApart keysFree
  have mirrored := afterCalls_mirrored first apart (fun _ _ => recipient_touched)
    fun key ⟨call, member, touched⟩ => ⟨call, List.mem_append_left _ member, touched⟩
  have mirrored' := afterCalls_mirrored second apart (fun _ _ => recipient_touched)
    fun key ⟨call, member, touched⟩ => ⟨call, List.mem_append_right _ member, touched⟩
  have treeFree : CollisionFree (treeInputs (afterCalls first) ∪ treeInputs (afterCalls second)) := by
    apply Tallied.free apart mirrored mirrored'
    intro key value other left right
    rw [LedgerState.encoding_eq_of_maps maps.1 maps.2 key] at left
    exact Option.some.inj (left.symm.trans right)
  have commits := state_root_commits first second keysFree
  have roots := commits.1 maps
  exact ⟨tallied, first, second, accounts, pending, fun same => absurd (congrArg List.length same)
    (by decide), roots, commits.2 treeFree roots⟩

end ParitrNode
