import ParitrNode.SnapshotCodec
import ParitrNode.RotatingFinders

/-!
Which snapshots can be restored. The limits the decoder states for its two
lists are far beyond the size of input it reads at all.
-/

namespace ParitrNode
open ByteCodec OrderedMap KeyOrder

namespace LedgerState

variable [Crypto]

theorem accountBytes_length (entry : Address × Account) : (accountBytes entry).length = 41 := by
  simp only [accountBytes, Account.consensusEncode, List.length_append, Address.asBytes_length,
    Writer.u64_length]

theorem rewardBytes_length (entry : (UInt64 × Address) × UInt64) :
    (rewardBytes entry).length = 41 := by
  simp only [rewardBytes, PendingReward.consensusEncode, List.length_append,
    Address.asBytes_length, Writer.u64_length]

theorem consensusEncode_length (state : LedgerState) : state.consensusEncode.length =
    42 + 41 * (state.accounts.size + state.pendingRewards.size) := by
  rw [consensusEncode_eq, snapshotBytes]
  simp only [List.length_append, Writer.u16_length, Writer.count_length, FixedBytes.length_eq]
  rw [flatMap_length_const 41 _ fun entry _ => accountBytes_length entry,
    flatMap_length_const 41 _ fun entry _ => rewardBytes_length entry,
    Std.ExtTreeMap.length_toList, Std.ExtTreeMap.length_toList]
  omega

theorem fits_iff (state : LedgerState) :
    state.consensusEncode.length ≤ MAX_CONSENSUS_ALLOCATION ↔
      state.accounts.size + state.pendingRewards.size ≤ 204599 := by
  rw [consensusEncode_length, MAX_CONSENSUS_ALLOCATION]
  omega

theorem Mirrored.root_eq {keys : Set StateKey} {first second : LedgerState}
    (mirrored : Mirrored keys first) (mirrored' : Mirrored keys second)
    (accounts : first.accounts = second.accounts)
    (pending : first.pendingRewards = second.pendingRewards) : first.root = second.root := by
  have values := mirrored.values_eq mirrored' (encoding_eq_of_maps accounts pending)
  unfold root
  rw [SparseMerkleTree.root_eq mirrored.coherent, SparseMerkleTree.root_eq mirrored'.coherent,
    values]

/-- A state in range whose tree mirrors its maps is read back from its own
bytes, as the state rebuilt in key order. -/
theorem reads_back {keys : Set StateKey} {state : LedgerState} (apart : HashesApart keys)
    (mirrored : Mirrored keys state) (range : state.InRange)
    (accountCount : state.accounts.size ≤ 2000000)
    (rewardCount : state.pendingRewards.size ≤ 4000000) :
    ∃ restored, Reads decodeFrom state.consensusEncode restored ∧
      restored.accounts = state.accounts ∧ restored.pendingRewards = state.pendingRewards ∧
        restored.root = state.root := by
  let restored := rebuilt state.accounts.toList state.pendingRewards.toList
  have accountOrder : Increasing Prod.fst state.accounts.toList :=
    Std.ExtTreeMap.ordered_keys_toList
  have rewardOrder : Increasing Prod.fst state.pendingRewards.toList :=
    Std.ExtTreeMap.ordered_keys_toList
  have stored : ∀ entry ∈ state.accounts.toList, entry.2.Stored :=
    fun entry member => range.account entry.1 entry.2 (mem_toList.mp member)
  have owed : ∀ entry ∈ state.pendingRewards.toList, Owed entry.2 :=
    fun entry member => range.reward entry.1 entry.2 (mem_toList.mp member)
  have accounts : restored.accounts = state.accounts :=
    Std.ExtTreeMap.toList_inj.mp (rebuilt_accounts accountOrder stored _)
  have pending : restored.pendingRewards = state.pendingRewards :=
    Std.ExtTreeMap.toList_inj.mp (rebuilt_pendingRewards rewardOrder _)
  have copied : Mirrored keys restored := by
    apply rebuilt_mirrored apart
    · intro entry member
      apply mirrored.known _ entry.2.consensusEncode
      rw [encoding, mem_toList.mp member]
      rfl
    · intro entry member
      apply mirrored.known _ (rewardBytes entry)
      rw [encoding, mem_toList.mp member]
      rfl
  have root : restored.root = state.root := copied.root_eq mirrored accounts pending
  refine ⟨restored, ?_, accounts, pending, root⟩
  rw [consensusEncode_eq, ← root]
  rw [← Std.ExtTreeMap.length_toList] at accountCount rewardCount
  exact reads_snapshot accountCount rewardCount accountOrder rewardOrder stored owed

theorem consensusDecode_canonical {input : Bytes} {restored : LedgerState}
    (decoded : consensusDecode decodeFrom input = .ok restored) :
    restored.consensusEncode = input := by
  have bytes := decodeFrom_exact (consensusDecode_ok decoded).2
  rw [List.append_nil] at bytes
  exact bytes.symm

end LedgerState

/-! A state with one account for each of many members. -/

def creditEach (count : Nat) : List StateCall :=
  (List.range count).map fun number => .credit (member number) 1

/-- The members of the run hold one coin each, and nobody else has an entry. -/
structure Credited [Crypto] (count : Nat) (state : LedgerState) : Prop where
  size : state.accounts.size = count
  pending : state.pendingRewards.size = 0
  others : ∀ number, count ≤ number → number < 256 ^ 20 → state.accounts[member number]? = none

theorem creditEach_credited [Crypto] {count : Nat} (small : count ≤ 256 ^ 20) :
    Credited count (afterCalls (creditEach count)) := by
  induction count with
  | zero => exact ⟨rfl, rfl, fun number _ _ => get_empty (member number)⟩
  | succ count ih =>
    have before := ih (by omega)
    have absent := before.others count (Nat.le_refl count) (by omega)
    have account : (afterCalls (creditEach count)).account (member count) = default := by
      rw [LedgerState.account, absent]
      rfl
    have credited : (afterCalls (creditEach count)).credit (member count) 1 =
        .ok ((afterCalls (creditEach count)).setAccount (member count) ⟨1, 0⟩) := by
      unfold LedgerState.credit
      rw [account]
      rfl
    have step : afterCalls (creditEach (count + 1)) =
        (afterCalls (creditEach count)).setAccount (member count) ⟨1, 0⟩ := by
      rw [creditEach, List.range_succ, List.map_append, afterCalls, List.foldl_append]
      change ((afterCalls (creditEach count)).credit (member count) 1).toOption.getD _ = _
      rw [credited]
      rfl
    have accounts : (afterCalls (creditEach (count + 1))).accounts =
        (afterCalls (creditEach count)).accounts.insert (member count) ⟨1, 0⟩ := by
      rw [step, LedgerState.setAccount_accounts, if_neg (by decide)]
    constructor
    · rw [accounts, size_insert_fresh absent, before.size]
    · rw [step, LedgerState.setAccount_pendingRewards]
      exact before.pending
    · intro number above bound
      have different : member count ≠ member number := by
        intro same
        have equal := member_injective (by omega) bound same
        omega
      rw [accounts, get_insert, if_neg different]
      exact before.others number (by omega) bound

theorem spelled_account_key (address : Address) :
    (@StateKey.hash spelled (.account address)).bytes =
      List.replicate 6 0 ++ @StateKey.preimage spelled (.account address) := by
  let _ := spelled
  have domain : (ascii "PARITR-P9-STATE-KEY-v1").length = 22 := by decide
  have width : (StateKey.account address).preimage.length = 26 := by
    rw [StateKey.preimage, List.length_append, Address.asBytes_length]
    rfl
  let tail : Hash32 := ⟨List.replicate 6 0 ++ (StateKey.account address).preimage, by
    rw [List.length_append, List.length_replicate, width]⟩
  have count : leBytes 8 26 = [26, 0] ++ List.replicate 6 0 := by decide
  have hash : (StateKey.account address).hash = tail := by
    rw [StateKey.hash, spelled_domainHash _ _ (by rw [domain, width]; decide), width, count]
    rw [show leBytes 4 (ascii "PARITR-P9-STATE-KEY-v1").length ++ ascii "PARITR-P9-STATE-KEY-v1" ++
        ([26, 0] ++ List.replicate 6 0) ++ (StateKey.account address).preimage =
      (leBytes 4 (ascii "PARITR-P9-STATE-KEY-v1").length ++ ascii "PARITR-P9-STATE-KEY-v1" ++
        [26, 0]) ++ tail.bytes by simp only [List.append_assoc, tail]]
    exact lastBytes_append _ tail
  rw [hash]

theorem creditEach_free (count : Nat) :
    @CollisionFree spelled (@keyInputs spelled (touchedBy (creditEach count))) := by
  let _ := spelled
  have account : ∀ key ∈ touchedBy (creditEach count), ∃ address, key = .account address := by
    intro key ⟨call, member, touched⟩
    obtain ⟨number, _, rfl⟩ := List.mem_map.mp member
    exact ⟨_, touched⟩
  intro first ⟨key, inside, shape⟩ second ⟨key', inside', shape'⟩ same
  obtain ⟨address, rfl⟩ := account key inside
  obtain ⟨address', rfl⟩ := account key' inside'
  rw [shape, shape'] at same ⊢
  have hashes : (StateKey.account address).hash = (StateKey.account address').hash := same
  have spelling := congrArg FixedBytes.bytes hashes
  rw [spelled_account_key, spelled_account_key] at spelling
  rw [List.append_cancel_left spelling]

/-- A snapshot within the two limits of the decoder is restored if and only if
it has at most 204,599 entries; and no other bytes stand for a state. -/
theorem snapshot_restores_iff [Crypto] (calls : List StateCall)
    (keysFree : CollisionFree (keyInputs (touchedBy calls)))
    (accountCount : (afterCalls calls).accounts.size ≤ 2000000)
    (rewardCount : (afterCalls calls).pendingRewards.size ≤ 4000000) :
    ((∃ restored, consensusDecode LedgerState.decodeFrom (afterCalls calls).consensusEncode =
          .ok restored ∧ restored.accounts = (afterCalls calls).accounts ∧
          restored.pendingRewards = (afterCalls calls).pendingRewards ∧
          restored.root = (afterCalls calls).root) ↔
      (afterCalls calls).accounts.size + (afterCalls calls).pendingRewards.size ≤ 204599) ∧
    ∀ (input : Bytes) (restored : LedgerState),
      consensusDecode LedgerState.decodeFrom input = .ok restored →
        restored.consensusEncode = input := by
  have apart := hashesApart keysFree
  have mirrored := afterCalls_mirrored calls apart (fun _ _ => recipient_touched)
    fun _ touched => touched
  obtain ⟨restored, reads, accounts, pending, root⟩ :=
    LedgerState.reads_back apart mirrored (afterCalls_inRange calls) accountCount rewardCount
  refine ⟨⟨?_, ?_⟩, fun _ _ => LedgerState.consensusDecode_canonical⟩
  · intro ⟨_, decoded, _⟩
    exact (LedgerState.fits_iff _).mp (consensusDecode_ok decoded).1
  · intro small
    have decoded := consensusDecode_of_reads reads ((LedgerState.fits_iff _).mpr small)
    exact ⟨restored, decoded, accounts, pending, root⟩

theorem few_accounts_restored :
    let _ := spelled
    ∃ restored, consensusDecode LedgerState.decodeFrom (afterCalls (creditEach 3)).consensusEncode =
        .ok restored ∧ restored.accounts = (afterCalls (creditEach 3)).accounts ∧
        restored.pendingRewards = (afterCalls (creditEach 3)).pendingRewards ∧
        restored.root = (afterCalls (creditEach 3)).root := by
  let _ := spelled
  have credited : Credited 3 (afterCalls (creditEach 3)) := creditEach_credited (by decide)
  have size := credited.size
  have pending := credited.pending
  have restores := snapshot_restores_iff (creditEach 3) (creditEach_free 3) (by omega) (by omega)
  exact restores.1.mpr (by omega)

/-- One account more than fits, far within the limits of the decoder. -/
theorem many_accounts_unrestored :
    let _ := spelled
    let state := afterCalls (creditEach 204600)
    CollisionFree (keyInputs (touchedBy (creditEach 204600))) ∧ state.accounts.size = 204600 ∧
      state.pendingRewards.size = 0 ∧ consensusDecode LedgerState.decodeFrom state.consensusEncode =
        .error (.limitExceeded 8388642 8388608) := by
  let _ := spelled
  intro _ state
  have credited : Credited 204600 state := creditEach_credited (by decide)
  have length : state.consensusEncode.length = 8388642 := by
    rw [state.consensusEncode_length, credited.size, credited.pending]
  refine ⟨creditEach_free 204600, credited.size, credited.pending, ?_⟩
  unfold consensusDecode
  rw [length, if_pos (by decide)]
  rfl

end ParitrNode
