import ParitrNode.StateTree

/-!
The cached tree against its definition: the map that a run of updates leaves,
hashed by dividing its entries at each bit of their keys.
-/

namespace ParitrNode
open ByteCodec OrderedMap

namespace SparseMerkleTree

/-- The map after one write; an absent or empty value removes the key. -/
def written (values : BTreeMap Hash32 Bytes) (write : Hash32 × Option Bytes) :
    BTreeMap Hash32 Bytes :=
  match write.2 with
  | some value => if value = [] then values.erase write.1 else values.insert write.1 value
  | none => values.erase write.1

variable [Crypto]

def entriesHash : Nat → List (Hash32 × Bytes) → Hash32
  | 0, [] => domainHash "PARITR-P9-SMT-EMPTY-LEAF-v1" []
  | 0, (key, value) :: _ => domainHash "PARITR-P9-SMT-LEAF-v1" (key.bytes ++ value)
  | height + 1, entries =>
    let left := entries.filter fun entry => bit entry.1 (256 - (height + 1)) = 0
    let right := entries.filter fun entry => bit entry.1 (256 - (height + 1)) ≠ 0
    domainHash "PARITR-P9-SMT-NODE-v1"
      ((entriesHash height left).bytes ++ (entriesHash height right).bytes)

theorem entriesHash_eq (height : Nat) (entries : List (Hash32 × Bytes)) :
    entriesHash height entries = SparseMerkle.divided keyBits treeHash height entries := by
  induction height generalizing entries with
  | zero =>
    cases entries with
    | nil => rfl
    | cons entry rest => rfl
  | succ height ih =>
    have clear : (fun entry : Hash32 × Bytes => decide (bit entry.1 (256 - (height + 1)) = 0)) =
        fun entry => !keyBits.bit entry.1 (256 - (height + 1)) := by
      funext entry
      change _ = !keyBit entry.1 (256 - (height + 1))
      cases side : keyBit entry.1 (256 - (height + 1)) with
      | false => exact decide_eq_true ((bit_eq_zero_iff entry.1 _).mpr side)
      | true =>
        apply decide_eq_false
        rw [bit_eq_zero_iff, side]
        exact Bool.noConfusion
    have set : (fun entry : Hash32 × Bytes => decide (bit entry.1 (256 - (height + 1)) ≠ 0)) =
        fun entry => keyBits.bit entry.1 (256 - (height + 1)) := by
      funext entry
      rw [decide_not, congrFun clear entry, Bool.not_not]
    rw [entriesHash, SparseMerkle.divided, clear, set, ih, ih]
    rfl

omit [Crypto] in
theorem get_written (values : BTreeMap Hash32 Bytes) (write : Hash32 × Option Bytes)
    (other : Hash32) :
    (written values write)[other]? = if write.1 = other then kept write.2 else values[other]? := by
  unfold written
  cases write.2 with
  | none => exact get_erase values write.1 other
  | some value =>
    by_cases void : value = []
    · simp only [void, if_true]
      exact get_erase values write.1 other
    · simp only [void, if_false]
      rw [get_insert, show kept (some value) = some value by simp [kept, void]]

theorem values_update (tree : SparseMerkleTree) (key : Hash32) (value : Option Bytes) :
    (tree.update key value).values = written tree.values (key, value) := by
  apply OrderedMap.ext
  intro other
  rw [get_update, get_written]

def updates (tree : SparseMerkleTree) (writes : List (Hash32 × Option Bytes)) :
    SparseMerkleTree :=
  writes.foldl (fun tree write => tree.update write.1 write.2) tree

theorem updates_coherent (writes : List (Hash32 × Option Bytes)) {tree : SparseMerkleTree}
    (coherent : Coherent tree) : Coherent (tree.updates writes) ∧
      (tree.updates writes).values = writes.foldl written tree.values := by
  induction writes generalizing tree with
  | nil => exact ⟨coherent, rfl⟩
  | cons write rest ih =>
    have later := ih (coherent_update coherent write.1 write.2)
    rw [values_update] at later
    exact later

/-- A coherent tree reads, at every depth and prefix, the hash of the entries below it. -/
theorem Coherent.node_eq {tree : SparseMerkleTree} (coherent : Coherent tree) {depth : Nat}
    (bound : depth ≤ 256) {path : Hash32} (here : keyPrefix path depth = path) :
    tree.node depth path = entriesHash (256 - depth)
      (tree.values.toList.filter fun entry => keyPrefix entry.1 depth = path) := by
  have cached : tree.node depth path = SparseMerkle.subtree keyBits treeHash
      (fun key : Hash32 => tree.values[key]?) (256 - depth) path := coherent depth bound path here
  have whole : depth + (256 - depth) = 256 := by omega
  rw [cached, entriesHash_eq]
  symm
  apply SparseMerkle.divided_eq whole (show keyBits.At depth path from here)
  intro key value
  rw [List.mem_filter, mem_toList, decide_eq_true_iff]
  exact Iff.rfl

theorem Coherent.root_entries {tree : SparseMerkleTree} (coherent : Coherent tree) :
    tree.root = entriesHash 256 tree.values.toList := by
  have whole : (tree.values.toList.filter fun entry => keyPrefix entry.1 0 = Hash32.ZERO) =
      tree.values.toList := by
    apply List.filter_eq_self.mpr
    intro entry _
    exact decide_eq_true (keyPrefix_zero entry.1)
  have top := coherent.node_eq (Nat.zero_le 256) (keyPrefix_zero Hash32.ZERO)
  rw [whole] at top
  exact top

/-- After every run of updates the tree holds the written map, its root is the recursive
hash of that map, and so is each cached or empty node of the entries below it. -/
theorem updates_refine (writes : List (Hash32 × Option Bytes)) :
    let map := writes.foldl written ∅
    let tree := updates default writes
    tree.values = map ∧ tree.root = entriesHash 256 map.toList ∧
      ∀ depth ≤ 256, ∀ path, keyPrefix path depth = path →
        tree.node depth path = entriesHash (256 - depth)
          (map.toList.filter fun entry => keyPrefix entry.1 depth = path) := by
  intro map tree
  have run := updates_coherent writes coherent_default
  have coherent : Coherent tree := run.1
  have values : tree.values = map := run.2
  refine ⟨values, ?_, fun depth bound path here => ?_⟩
  · rw [← values]
    exact coherent.root_entries
  · rw [← values]
    exact coherent.node_eq bound here

end SparseMerkleTree

end ParitrNode
