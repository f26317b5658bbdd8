import ParitrNode.State
import ParitrNode.Library.SparseMerkle

/-!
The ledger's tree as the general sparse Merkle tree: the bits of its 32-byte
keys, the node cache after an update, and the root as a function of the values.
-/

namespace ParitrNode
open ByteCodec OrderedMap

theorem testBit_shifted {byte : UInt8} {place : Nat} (inside : place < 8) :
    (byte >>> UInt8.ofNat place) &&& 1 = 0 ↔ byte.toNat.testBit place = false := by
  rw [← UInt8.toNat_inj, UInt8.toNat_and, UInt8.toNat_shiftRight, UInt8.toNat_ofNat', Nat.testBit]
  rw [Nat.mod_eq_of_lt (show place < 2 ^ 8 by omega), Nat.mod_eq_of_lt inside, Nat.and_comm]
  simp

theorem testBit_one_shiftLeft {place other : Nat} (inside : place < 8) :
    ((1 : UInt8) <<< UInt8.ofNat place).toNat.testBit other = decide (place = other) := by
  rw [UInt8.toNat_shiftLeft, UInt8.toNat_ofNat', show (1 : UInt8).toNat = 1 from rfl]
  rw [Nat.mod_eq_of_lt (show place < 2 ^ 8 by omega), Nat.mod_eq_of_lt inside]
  rw [Nat.testBit_mod_two_pow, Nat.shiftLeft_eq, Nat.one_mul, Nat.testBit_two_pow]
  by_cases same : place = other
  · subst same
    simp [inside]
  · simp [same]

theorem testBit_high_mask {low other : Nat} (inside : low < 8) (bound : other < 8) :
    ((0xff : UInt8) <<< UInt8.ofNat low).toNat.testBit other = decide (low ≤ other) := by
  rw [UInt8.toNat_shiftLeft, UInt8.toNat_ofNat', show (0xff : UInt8).toNat = 2 ^ 8 - 1 from rfl]
  rw [Nat.mod_eq_of_lt (show low < 2 ^ 8 by omega), Nat.mod_eq_of_lt inside]
  rw [Nat.testBit_mod_two_pow, Nat.testBit_shiftLeft, Nat.testBit_two_pow_sub_one]
  by_cases above : low ≤ other
  · simp [above, bound, show other - low < 8 by omega]
  · simp [above]

theorem byte_ext {first second : UInt8}
    (same : ∀ place < 8, first.toNat.testBit place = second.toNat.testBit place) :
    first = second := by
  apply UInt8.toNat_inj.mp
  apply Nat.eq_of_testBit_eq
  intro place
  by_cases inside : place < 8
  · exact same place inside
  · have small : 2 ^ 8 ≤ 2 ^ place := Nat.pow_le_pow_right (by decide) (by omega)
    rw [Nat.testBit_lt_two_pow (Nat.lt_of_lt_of_le first.toNat_lt small),
      Nat.testBit_lt_two_pow (Nat.lt_of_lt_of_le second.toNat_lt small)]

/-- Bit `depth` of a key, counted from the most significant bit of its first byte. -/
def keyBit (key : Hash32) (depth : Nat) : Bool :=
  (key.bytes.getD (depth / 8) 0).toNat.testBit (7 - depth % 8)

theorem bit_eq_zero_iff (key : Hash32) (depth : Nat) :
    bit key depth = 0 ↔ keyBit key depth = false :=
  testBit_shifted (by omega)

theorem keyBit_toggleBit (key : Hash32) {depth other : Nat} (within : other < 256) :
    keyBit (toggleBit key depth) other =
      if depth = other then !keyBit key other else keyBit key other := by
  have present : other / 8 < key.bytes.length := by rw [key.length_eq]; omega
  unfold keyBit toggleBit
  simp only [List.getD_eq_getElem?_getD, List.getElem?_modify, List.getElem?_eq_getElem present]
  by_cases byte : depth / 8 = other / 8
  · simp only [byte, if_true, Option.map_eq_map, Option.map_some, Option.getD_some, UInt8.toNat_xor,
      Nat.testBit_xor]
    rw [testBit_one_shiftLeft (by omega)]
    by_cases same : depth = other
    · subst same
      simp
    · have place : ¬7 - depth % 8 = 7 - other % 8 := by omega
      simp [same, place]
  · have apart : ¬depth = other := by omega
    simp [byte, apart]

theorem keyBit_keyPrefix (key : Hash32) {depth other : Nat} (within : other < 256) :
    keyBit (keyPrefix key depth) other = (decide (other < depth) && keyBit key other) := by
  have present : other / 8 < key.bytes.length := by rw [key.length_eq]; omega
  unfold keyBit keyPrefix
  by_cases inside : depth / 8 < 32
  · rw [if_pos inside]
    by_cases whole : depth % 8 = 0
    · rw [if_pos whole]
      simp only [List.getD_eq_getElem?_getD, List.getElem?_mapIdx, List.getElem?_eq_getElem present,
        Option.map_some, Option.getD_some]
      by_cases above : other < depth
      · simp [above, show ¬depth / 8 ≤ other / 8 by omega]
      · simp [above, show depth / 8 ≤ other / 8 by omega]
    · rw [if_neg whole]
      simp only [List.getD_eq_getElem?_getD, List.getElem?_mapIdx, List.getElem?_eq_getElem present,
        Option.map_some, Option.getD_some]
      by_cases byte : other / 8 = depth / 8
      · rw [if_pos byte, UInt8.toNat_and, Nat.testBit_and, testBit_high_mask (by omega) (by omega),
          Bool.and_comm]
        congr 2
        exact propext (by omega)
      · rw [if_neg byte]
        by_cases above : other < depth
        · simp [above, show ¬depth / 8 + 1 ≤ other / 8 by omega]
        · simp [above, show depth / 8 + 1 ≤ other / 8 by omega]
  · rw [if_neg inside]
    simp [show other < depth by omega]

theorem key_ext {first second : Hash32}
    (same : ∀ depth < 256, keyBit first depth = keyBit second depth) : first = second := by
  apply FixedBytes.ext
  apply List.ext_getElem (by rw [first.length_eq, second.length_eq])
  intro index inside inside'
  apply byte_ext
  intro place bound
  have limit : index < 32 := by rwa [first.length_eq] at inside
  have equal := same (8 * index + (7 - place)) (by omega)
  unfold keyBit at equal
  rw [show (8 * index + (7 - place)) / 8 = index by omega,
    show 7 - (8 * index + (7 - place)) % 8 = place by omega] at equal
  simpa only [List.getD_eq_getElem?_getD, List.getElem?_eq_getElem inside,
    List.getElem?_eq_getElem inside', Option.getD_some] using equal

def keyBits : SparseMerkle.BitKeys Hash32 256 where
  bit := keyBit
  toggle := toggleBit
  truncate := keyPrefix
  bit_toggle := fun key _ _ _ => keyBit_toggleBit key
  bit_truncate := fun key _ _ => keyBit_keyPrefix key
  ext := key_ext

theorem keyPrefix_zero (key : Hash32) : keyPrefix key 0 = Hash32.ZERO := by
  apply key_ext
  intro depth inside
  rw [keyBit_keyPrefix key inside]
  have zero : Hash32.ZERO.bytes.getD (depth / 8) 0 = 0 := by
    have bound : depth / 8 < 32 := by omega
    rw [List.getD_eq_getElem?_getD, show Hash32.ZERO.bytes = List.replicate 32 0 from rfl]
    rw [List.getElem?_replicate, if_pos bound]
    rfl
  rw [keyBit, keyBit, zero]
  simp

namespace SparseMerkleTree

/-- The input of `domain_hash` for each hash of the tree. -/
def treeInput : SparseMerkle.Query Hash32 Bytes Hash32 → String × Bytes
  | .emptyLeaf => ("PARITR-P9-SMT-EMPTY-LEAF-v1", [])
  | .leaf key value => ("PARITR-P9-SMT-LEAF-v1", key.bytes ++ value)
  | .node left right => ("PARITR-P9-SMT-NODE-v1", left.bytes ++ right.bytes)

theorem treeInput_injective : Function.Injective treeInput := by
  intro first second same
  cases first with
  | emptyLeaf =>
    cases second with
    | emptyLeaf => rfl
    | leaf key value => simp [treeInput] at same
    | node left right => simp [treeInput] at same
  | leaf key value =>
    cases second with
    | emptyLeaf => simp [treeInput] at same
    | leaf key' value' =>
      obtain ⟨keys, values⟩ := List.append_inj (congrArg Prod.snd same)
        (by rw [key.length_eq, key'.length_eq])
      rw [FixedBytes.ext keys, values]
    | node left right => simp [treeInput] at same
  | node left right =>
    cases second with
    | emptyLeaf => simp [treeInput] at same
    | leaf key value => simp [treeInput] at same
    | node left' right' =>
      obtain ⟨lefts, rights⟩ := List.append_inj (congrArg Prod.snd same)
        (by rw [left.length_eq, left'.length_eq])
      rw [FixedBytes.ext lefts, FixedBytes.ext rights]

variable [Crypto]

def treeHash (query : SparseMerkle.Query Hash32 Bytes Hash32) : Hash32 :=
  domainHash (treeInput query).1 (treeInput query).2

theorem emptyHash_eq (height : Nat) : emptyHash height = SparseMerkle.emptyAt treeHash height := by
  induction height with
  | zero => rfl
  | succ height ih =>
    rw [emptyHash, ih]
    rfl

/-- The cached nodes are those of the stored values. -/
def Coherent (tree : SparseMerkleTree) : Prop :=
  SparseMerkle.Caches keyBits treeHash tree.node (fun key : Hash32 => tree.values[key]?)

theorem coherent_default : Coherent default := by
  have view : node default = fun depth _ => SparseMerkle.emptyAt treeHash (256 - depth) := by
    funext depth path
    change ((∅ : BTreeMap NodeIndex Hash32)[(⟨depth, path⟩ : NodeIndex)]?).getD (empty depth) = _
    rw [get_empty, Option.getD_none, empty, emptyHash_eq]
  have values : (fun key : Hash32 => (default : SparseMerkleTree).values[key]?) = fun _ => none := by
    funext key
    exact get_empty key
  unfold Coherent
  rw [view, values]
  exact SparseMerkle.caches_none

theorem rehash_eq (tree : SparseMerkleTree) (key : Hash32) (depth : Nat) :
    rehash key tree depth =
      let hash := SparseMerkle.combined keyBits treeHash key tree.node depth
      let index : NodeIndex := ⟨depth, keyPrefix key depth⟩
      if hash = empty depth then { tree with nodes := tree.nodes.erase index }
      else { tree with nodes := tree.nodes.insert index hash } := by
  unfold rehash SparseMerkle.combined
  cases side : keyBit key depth with
  | false =>
    have zero : bit key depth = 0 := (bit_eq_zero_iff key depth).mpr side
    have left : keyBits.bit key depth = false := side
    simp only [zero, left, if_true, Bool.false_eq_true, if_false]
    rfl
  | true =>
    have one : ¬bit key depth = 0 := by
      intro zero
      cases side.symm.trans ((bit_eq_zero_iff key depth).mp zero)
    have right : keyBits.bit key depth = true := side
    simp only [one, right, if_true, if_false]
    rfl

omit [Crypto] in
theorem index_eq_iff {depth other : Nat} {path key : Hash32} :
    (⟨depth, key⟩ : NodeIndex) = ⟨other, path⟩ ↔ other = depth ∧ path = key := by
  rw [NodeIndex.mk.injEq, eq_comm, and_congr_right_iff]
  exact fun _ => eq_comm

theorem node_insert (tree : SparseMerkleTree) (values : BTreeMap Hash32 Bytes) (depth other : Nat)
    (key path hash : Hash32) : (mk values (tree.nodes.insert ⟨depth, key⟩ hash)).node other path =
      if other = depth ∧ path = key then hash else tree.node other path := by
  unfold node
  rw [get_insert]
  by_cases same : other = depth ∧ path = key
  · rw [if_pos (index_eq_iff.mpr same), if_pos same]
    rfl
  · rw [if_neg (fun equal => same (index_eq_iff.mp equal)), if_neg same]

theorem node_erase (tree : SparseMerkleTree) (values : BTreeMap Hash32 Bytes) (depth other : Nat)
    (key path : Hash32) : (mk values (tree.nodes.erase ⟨depth, key⟩)).node other path =
      if other = depth ∧ path = key then empty depth else tree.node other path := by
  unfold node
  rw [get_erase]
  by_cases same : other = depth ∧ path = key
  · rw [if_pos (index_eq_iff.mpr same), if_pos same, same.1]
    rfl
  · rw [if_neg (fun equal => same (index_eq_iff.mp equal)), if_neg same]

theorem node_rehash (tree : SparseMerkleTree) (key : Hash32) (depth : Nat) :
    (rehash key tree depth).node = SparseMerkle.rehashed keyBits treeHash key tree.node depth := by
  funext other path
  rw [rehash_eq]
  unfold SparseMerkle.rehashed
  simp only
  by_cases none : SparseMerkle.combined keyBits treeHash key tree.node depth = empty depth
  · rw [if_pos none, node_erase, none]
    rfl
  · rw [if_neg none, node_insert]
    rfl

theorem values_rehash (tree : SparseMerkleTree) (key : Hash32) (depth : Nat) :
    (rehash key tree depth).values = tree.values := by
  rw [rehash_eq]
  simp only
  split
  · rfl
  · rfl

theorem node_foldl_rehash (key : Hash32) (depths : List Nat) (tree : SparseMerkleTree) :
    (depths.foldl (rehash key) tree).node =
      depths.foldl (SparseMerkle.rehashed keyBits treeHash key) tree.node := by
  induction depths generalizing tree with
  | nil => rfl
  | cons depth rest ih => rw [List.foldl_cons, List.foldl_cons, ih, node_rehash]

theorem values_foldl_rehash (key : Hash32) (depths : List Nat) (tree : SparseMerkleTree) :
    (depths.foldl (rehash key) tree).values = tree.values := by
  induction depths generalizing tree with
  | nil => rfl
  | cons depth rest ih => rw [List.foldl_cons, ih, values_rehash]

def kept (value : Option Bytes) : Option Bytes := value.filter (· ≠ [])

theorem get_setLeaf (tree : SparseMerkleTree) (key other : Hash32) (value : Option Bytes) :
    (tree.setLeaf key value).values[other]? =
      if key = other then kept value else tree.values[other]? := by
  cases value with
  | none => exact get_erase tree.values key other
  | some value =>
    by_cases none : value = []
    · subst none
      exact get_erase tree.values key other
    · have whole : kept (some value) = some value := by simp [kept, none]
      unfold setLeaf
      simp only [ne_eq, none, not_false_eq_true, if_true]
      rw [get_insert, whole]

theorem node_setLeaf (tree : SparseMerkleTree) (key : Hash32) (value : Option Bytes) (depth : Nat)
    (path : Hash32) : (tree.setLeaf key value).node depth path =
      if depth = 256 ∧ path = key then treeHash (SparseMerkle.leafQuery (fun _ => kept value) key)
      else tree.node depth path := by
  cases value with
  | none => exact node_erase tree _ 256 depth key path
  | some value =>
    by_cases none : value = []
    · subst none
      exact node_erase tree _ 256 depth key path
    · have whole : kept (some value) = some value := by simp [kept, none]
      unfold setLeaf
      simp only [ne_eq, none, not_false_eq_true, if_true]
      rw [node_insert, whole]
      rfl

/-- A value is stored; an absent or empty one removes the key. -/
theorem get_update (tree : SparseMerkleTree) (key other : Hash32) (value : Option Bytes) :
    (tree.update key value).values[other]? =
      if key = other then kept value else tree.values[other]? := by
  unfold update
  rw [values_foldl_rehash, get_setLeaf]

theorem coherent_update {tree : SparseMerkleTree} (coherent : Coherent tree) (key : Hash32)
    (value : Option Bytes) : Coherent (tree.update key value) := by
  have stale : SparseMerkle.CachesBelow keyBits treeHash key 256 (tree.setLeaf key value).node
      (fun other => (tree.update key value).values[other]?) := by
    apply SparseMerkle.Caches.setLeaf coherent
    · intro other different
      rw [get_update, if_neg (fun same => different same.symm)]
    · have stored : (tree.update key value).values[key]? = kept value := by
        rw [get_update, if_pos rfl]
      rw [node_setLeaf, if_pos ⟨rfl, rfl⟩]
      unfold SparseMerkle.leafQuery
      simp only [stored]
    · intro depth path apart
      rw [node_setLeaf, if_neg (by tauto)]
  unfold Coherent
  conv => arg 3; unfold update
  rw [node_foldl_rehash]
  exact stale.rehash_path (Nat.le_refl 256)

/-- The tree of a set of values does not depend on how it was built. -/
theorem root_eq {tree : SparseMerkleTree} (coherent : Coherent tree) : tree.root =
    SparseMerkle.subtree keyBits treeHash (fun key : Hash32 => tree.values[key]?) 256 Hash32.ZERO :=
  coherent 0 (Nat.zero_le _) Hash32.ZERO (keyPrefix_zero _)

end SparseMerkleTree

end ParitrNode
