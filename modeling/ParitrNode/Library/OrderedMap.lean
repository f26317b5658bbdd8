import Mathlib.Algebra.Order.BigOperators.Group.Finset
import Mathlib.Algebra.Order.Ring.Nat
import Mathlib.Data.List.Perm.Subperm
import Mathlib.Data.Nat.Log

/-!
Ordered maps keyed by a total order: lookups after an update, the weight of
all values, and the entries in key order.
-/

/-- Pairs compare lexicographically, first component first. -/
instance instOrdPair {α β : Type} [Ord α] [Ord β] : Ord (α × β) := lexOrd

namespace OrderedMap

abbrev BTreeMap (κ ν : Type) [Ord κ] := Std.ExtTreeMap κ ν compare

variable {κ ν : Type} [Ord κ] [Std.TransOrd κ] [Std.LawfulEqOrd κ]

theorem get_insert (map : BTreeMap κ ν) (key other : κ) (value : ν) [Decidable (key = other)] :
    (map.insert key value)[other]? = if key = other then some value else map[other]? := by
  rw [Std.ExtTreeMap.getElem?_insert]
  by_cases same : key = other
  · rw [if_pos same, if_pos (Std.LawfulEqCmp.compare_eq_iff_eq.mpr same)]
  · rw [if_neg same, if_neg (fun equal => same (Std.LawfulEqCmp.compare_eq_iff_eq.mp equal))]

theorem get_erase (map : BTreeMap κ ν) (key other : κ) [Decidable (key = other)] :
    (map.erase key)[other]? = if key = other then none else map[other]? := by
  rw [Std.ExtTreeMap.getElem?_erase]
  by_cases same : key = other
  · rw [if_pos same, if_pos (Std.LawfulEqCmp.compare_eq_iff_eq.mpr same)]
  · rw [if_neg same, if_neg (fun equal => same (Std.LawfulEqCmp.compare_eq_iff_eq.mp equal))]

theorem get_insertIfNew (map : BTreeMap κ ν) (key : κ) (value : ν) (other : κ)
    [Decidable (key = other ∧ map[key]? = none)] :
    (map.insertIfNew key value)[other]? =
      if key = other ∧ map[key]? = none then some value else map[other]? := by
  rw [Std.ExtTreeMap.getElem?_insertIfNew]
  have absent : key ∉ map ↔ map[key]? = none := by
    rw [Std.ExtTreeMap.mem_iff_isSome_getElem?, Bool.not_eq_true, Option.isSome_eq_false_iff,
      Option.isNone_iff_eq_none]
  by_cases fresh : key = other ∧ map[key]? = none
  · rw [if_pos fresh, if_pos ⟨Std.LawfulEqCmp.compare_eq_iff_eq.mpr fresh.1, absent.mpr fresh.2⟩]
  · rw [if_neg fresh, if_neg]
    intro ⟨same, missing⟩
    exact fresh ⟨Std.LawfulEqCmp.compare_eq_iff_eq.mp same, absent.mp missing⟩

@[simp] theorem get_insert_self (map : BTreeMap κ ν) (key : κ) (value : ν) :
    (map.insert key value)[key]? = some value := by
  classical rw [get_insert, if_pos rfl]

@[simp] theorem get_erase_self (map : BTreeMap κ ν) (key : κ) : (map.erase key)[key]? = none := by
  classical rw [get_erase, if_pos rfl]

omit [Std.LawfulEqOrd κ] in
@[simp] theorem get_empty (key : κ) : (∅ : BTreeMap κ ν)[key]? = none :=
  Std.ExtTreeMap.getElem?_empty

theorem ext {first second : BTreeMap κ ν} (same : ∀ key : κ, first[key]? = second[key]?) :
    first = second :=
  Std.ExtTreeMap.ext_getElem? (same ·)

theorem mem_toList {map : BTreeMap κ ν} {key : κ} {value : ν} :
    (key, value) ∈ map.toList ↔ map[key]? = some value :=
  Std.ExtTreeMap.mem_toList_iff_getElem?_eq_some

theorem keys_nodup (map : BTreeMap κ ν) : (map.toList.map Prod.fst).Nodup := by
  have distinct := Std.ExtTreeMap.distinct_keys_toList (t := map)
  rw [List.Nodup, List.pairwise_map]
  refine distinct.imp ?_
  intro first second different same
  exact different (Std.LawfulEqCmp.compare_eq_iff_eq.mpr same)

theorem toList_nodup (map : BTreeMap κ ν) : map.toList.Nodup := by
  have distinct := keys_nodup map
  rw [List.Nodup, List.pairwise_map] at distinct
  exact distinct.imp (fun different same => different (congrArg Prod.fst same))

theorem erase_of_none {map : BTreeMap κ ν} {key : κ} (absent : map[key]? = none) :
    map.erase key = map := by
  classical
  apply ext
  intro other
  rw [get_erase]
  split
  next same => rw [← same, absent]
  next => rfl

theorem erase_insert_of_none {map : BTreeMap κ ν} {key : κ} (absent : map[key]? = none) (value : ν) :
    (map.insert key value).erase key = map := by
  classical
  apply ext
  intro other
  rw [get_erase, get_insert]
  by_cases same : key = other
  · rw [if_pos same, ← same, absent]
  · rw [if_neg same, if_neg same]

theorem toList_insert_perm (map : BTreeMap κ ν) (key : κ) (value : ν) :
    (map.insert key value).toList.Perm ((key, value) :: (map.erase key).toList) := by
  classical
  have fresh : (key, value) ∉ (map.erase key).toList := by
    rw [mem_toList, get_erase_self]
    exact fun impossible => nomatch impossible
  rw [List.perm_ext_iff_of_nodup (toList_nodup _) (List.nodup_cons.mpr ⟨fresh, toList_nodup _⟩)]
  rintro ⟨other, found⟩
  rw [List.mem_cons, mem_toList, mem_toList, get_insert, get_erase]
  by_cases same : key = other
  · subst same
    simp [eq_comm]
  · have different : other ≠ key := fun equal => same equal.symm
    simp [same, different]

/-- Maps that agree on some keys list the entries of these keys alike. -/
theorem filter_toList_congr {first second : BTreeMap κ ν} {selects : κ → Bool}
    (agree : ∀ key, selects key = true → first[key]? = second[key]?) :
    first.toList.filter (fun entry => selects entry.1) =
      second.toList.filter (fun entry => selects entry.1) := by
  have sorted : ∀ map : BTreeMap κ ν, (map.toList.filter fun entry => selects entry.1).Pairwise
      fun left right => compare left.1 right.1 = .lt :=
    fun map => Std.ExtTreeMap.ordered_keys_toList.filter _
  have same : (first.toList.filter fun entry => selects entry.1).Perm
      (second.toList.filter fun entry => selects entry.1) := by
    rw [List.perm_ext_iff_of_nodup ((toList_nodup first).filter _) ((toList_nodup second).filter _)]
    intro (key, value)
    rw [List.mem_filter, List.mem_filter, mem_toList, mem_toList]
    exact and_congr_left fun selected => by rw [agree key selected]
  refine same.eq_of_pairwise ?_ (sorted first) (sorted second)
  intro left right _ _ below above
  exact absurd (Std.TransCmp.lt_trans below above) (by simp [Std.ReflCmp.compare_self])

def total (weight : ν → Nat) (map : BTreeMap κ ν) : Nat :=
  (map.toList.map (fun entry => weight entry.2)).sum

theorem toList_empty : (∅ : BTreeMap κ ν).toList = [] := by
  rw [List.eq_nil_iff_forall_not_mem]
  rintro ⟨key, value⟩ member
  rw [mem_toList, get_empty] at member
  cases member

@[simp] theorem total_empty (weight : ν → Nat) : total weight (∅ : BTreeMap κ ν) = 0 := by
  rw [total, toList_empty]
  rfl

theorem toList_singleton (key : κ) (value : ν) :
    ((∅ : BTreeMap κ ν).insert key value).toList = [(key, value)] := by
  have entries := toList_insert_perm (∅ : BTreeMap κ ν) key value
  rw [erase_of_none (get_empty key), toList_empty] at entries
  exact List.perm_singleton.mp entries

theorem toList_insert_beyond {map : BTreeMap κ ν} {key : κ}
    (beyond : ∀ entry ∈ map.toList, compare entry.1 key = .lt) (value : ν) :
    (map.insert key value).toList = map.toList ++ [(key, value)] := by
  have absent : map[key]? = none := by
    cases present : map[key]? with
    | none => rfl
    | some old =>
      have below := beyond (key, old) (mem_toList.mpr present)
      have self : compare key key = Ordering.eq := Std.ReflCmp.compare_self
      rw [self] at below
      cases below
  have same := toList_insert_perm map key value
  rw [erase_of_none absent] at same
  have sorted : (map.toList ++ [(key, value)]).Pairwise
      fun left right => compare left.1 right.1 = .lt := by
    apply List.pairwise_append.mpr
    refine ⟨Std.ExtTreeMap.ordered_keys_toList, List.pairwise_singleton _ _, ?_⟩
    intro entry member other last
    rw [List.mem_singleton.mp last]
    exact beyond entry member
  refine (same.trans (List.perm_append_singleton _ _).symm).eq_of_pairwise ?_
    Std.ExtTreeMap.ordered_keys_toList sorted
  intro left right _ _ below above
  exact absurd (Std.TransCmp.lt_trans below above) (by simp [Std.ReflCmp.compare_self])

theorem toList_foldl_insert {entries : List (κ × ν)} {map : BTreeMap κ ν}
    (sorted : (map.toList ++ entries).Pairwise fun left right => compare left.1 right.1 = .lt) :
    (entries.foldl (fun map entry => map.insert entry.1 entry.2) map).toList =
      map.toList ++ entries := by
  induction entries generalizing map with
  | nil => exact (List.append_nil _).symm
  | cons entry rest ih =>
    have beyond : ∀ other ∈ map.toList, compare other.1 entry.1 = .lt :=
      fun other member => (List.pairwise_append.mp sorted).2.2 other member entry List.mem_cons_self
    have listed := toList_insert_beyond beyond entry.2
    rw [List.foldl_cons, ih, listed, List.append_assoc]
    · rfl
    · rw [listed, List.append_assoc]
      exact sorted

theorem total_insert (weight : ν → Nat) (map : BTreeMap κ ν) (key : κ) (value : ν) :
    total weight (map.insert key value) = weight value + total weight (map.erase key) := by
  unfold total
  rw [((toList_insert_perm map key value).map _).sum_nat, List.map_cons, List.sum_cons]

theorem insert_erase_self {map : BTreeMap κ ν} {key : κ} {value : ν}
    (present : map[key]? = some value) : map.insert key value = map := by
  classical
  apply ext
  intro other
  rw [get_insert]
  split
  next same => rw [← same, present]
  next => rfl

theorem total_erase (weight : ν → Nat) {map : BTreeMap κ ν} {key : κ} {value : ν}
    (present : map[key]? = some value) :
    total weight map = weight value + total weight (map.erase key) := by
  conv_lhs => rw [← insert_erase_self present]
  exact total_insert weight map key value

/-- An update at one key, with the old value (absent: weight zero) taken out. -/
theorem total_insert_add (weight : ν → Nat) (map : BTreeMap κ ν) (key : κ) (value : ν) :
    total weight (map.insert key value) + (map[key]?.map weight).getD 0 =
      total weight map + weight value := by
  rw [total_insert]
  cases present : map[key]? with
  | none =>
    rw [erase_of_none present]
    simp only [Option.map_none, Option.getD_none]
    omega
  | some old =>
    rw [total_erase weight present]
    simp only [Option.map_some, Option.getD_some]
    omega

theorem total_erase_add (weight : ν → Nat) (map : BTreeMap κ ν) (key : κ) :
    total weight (map.erase key) + (map[key]?.map weight).getD 0 = total weight map := by
  cases present : map[key]? with
  | none => rw [erase_of_none present]; simp
  | some old =>
    rw [total_erase weight present]
    simp only [Option.map_some, Option.getD_some]
    omega

theorem weight_le_total (weight : ν → Nat) {map : BTreeMap κ ν} {key : κ} {value : ν}
    (present : map[key]? = some value) : weight value ≤ total weight map := by
  rw [total_erase weight present]
  omega

/-- One entry of the map as a sum over all of them. -/
theorem lookup_sum (weight : ν → Nat) (map : BTreeMap κ ν) (key : κ) [DecidableEq κ] :
    ((map[key]?).map weight).getD 0 =
      (map.toList.map fun entry => if entry.1 = key then weight entry.2 else 0).sum := by
  have elsewhere : ∀ entries : List (κ × ν), (∀ entry ∈ entries, entry.1 ≠ key) →
      (entries.map fun entry => if entry.1 = key then weight entry.2 else 0).sum = 0 := by
    intro entries apart
    apply List.sum_eq_zero_iff_forall_eq_nat.mpr
    intro value listed
    obtain ⟨entry, member, rfl⟩ := List.mem_map.mp listed
    exact if_neg (apart entry member)
  cases present : map[key]? with
  | none =>
    rw [elsewhere]
    · rfl
    · intro entry member same
      rw [← same, mem_toList.mp member] at present
      cases present
  | some value =>
    have split := toList_insert_perm map key value
    rw [insert_erase_self present] at split
    have rest : ∀ entry ∈ (map.erase key).toList, entry.1 ≠ key := by
      intro entry member same
      have stored := mem_toList.mp member
      rw [same, get_erase_self] at stored
      cases stored
    rw [(split.map _).sum_nat, List.map_cons, List.sum_cons, if_pos rfl, elsewhere _ rest]
    rfl

/-! Maps inside other maps. -/

def Within (first second : BTreeMap κ ν) : Prop :=
  ∀ (key : κ) (value : ν), first[key]? = some value → second[key]? = some value

theorem Within.antisymm {first second : BTreeMap κ ν} (within : Within first second)
    (above : Within second first) : first = second := by
  apply ext
  intro key
  cases below : first[key]? with
  | some value => exact (within key value below).symm
  | none =>
    cases other : second[key]? with
    | none => rfl
    | some value =>
      rw [above key value other] at below
      cases below

theorem Within.subperm {first second : BTreeMap κ ν} (within : Within first second) :
    first.toList.Subperm second.toList := by
  apply List.subperm_of_subset (toList_nodup first)
  intro (key, value) member
  exact mem_toList.mpr (within key value (mem_toList.mp member))

theorem Within.size_le {first second : BTreeMap κ ν} (within : Within first second) :
    first.size ≤ second.size := by
  rw [← Std.ExtTreeMap.length_toList, ← Std.ExtTreeMap.length_toList]
  exact within.subperm.length_le

theorem Within.total_le {first second : BTreeMap κ ν} (within : Within first second)
    (weight : ν → Nat) : total weight first ≤ total weight second := by
  obtain ⟨kept, permuted, sub⟩ := within.subperm
  obtain ⟨others, whole⟩ := sub.exists_perm_append
  unfold total
  rw [← (permuted.map _).sum_nat, (whole.map _).sum_nat, List.map_append, List.sum_append]
  exact Nat.le_add_right _ _

omit [Std.LawfulEqOrd κ] in
theorem size_insert_fresh {map : BTreeMap κ ν} {key : κ} (absent : map[key]? = none) (value : ν) :
    (map.insert key value).size = map.size + 1 := by
  have missing : map.contains key = false := by
    rw [Std.ExtTreeMap.contains_eq_isSome_getElem?, absent]
    rfl
  rw [Std.ExtTreeMap.size_insert, missing]
  rfl

theorem Within.insert {first second : BTreeMap κ ν} (within : Within first second) {key : κ}
    {value : ν} (inside : second[key]? = some value) : Within (first.insert key value) second := by
  classical
  intro other found stored
  rw [get_insert] at stored
  split at stored
  · next same =>
    cases stored
    rw [← same]
    exact inside
  · exact within other found stored

theorem Within.size_lt {first second : BTreeMap κ ν} (within : Within first second) {key : κ}
    {value : ν} (absent : first[key]? = none) (inside : second[key]? = some value) :
    first.size < second.size := by
  have grown := (within.insert inside).size_le
  rw [size_insert_fresh absent] at grown
  exact grown

theorem size_lt_of_keys {μ : Type} {first : BTreeMap κ ν} {second : BTreeMap κ μ}
    (within : ∀ (key : κ) (value : ν), first[key]? = some value → ∃ other, second[key]? = some other)
    {key : κ} {value : μ} (absent : first[key]? = none) (inside : second[key]? = some value) :
    first.size < second.size := by
  have distinct : (key :: first.toList.map Prod.fst).Nodup := by
    refine List.nodup_cons.mpr ⟨?_, keys_nodup first⟩
    intro member
    obtain ⟨⟨other, found⟩, listed, same⟩ := List.mem_map.mp member
    cases same
    rw [mem_toList.mp listed] at absent
    cases absent
  have subset : key :: first.toList.map Prod.fst ⊆ second.toList.map Prod.fst := by
    intro other member
    rcases List.mem_cons.mp member with rfl | old
    · exact List.mem_map.mpr ⟨_, mem_toList.mpr inside, rfl⟩
    · obtain ⟨⟨other, found⟩, listed, rfl⟩ := List.mem_map.mp old
      obtain ⟨stored, present⟩ := within _ found (mem_toList.mp listed)
      exact List.mem_map.mpr ⟨_, mem_toList.mpr present, rfl⟩
  have fewer := (List.subperm_of_subset distinct subset).length_le
  rw [List.length_cons, List.length_map, List.length_map, Std.ExtTreeMap.length_toList,
    Std.ExtTreeMap.length_toList] at fewer
  exact fewer

theorem total_insert_fresh (weight : ν → Nat) {map : BTreeMap κ ν} {key : κ}
    (absent : map[key]? = none) (value : ν) :
    total weight (map.insert key value) = total weight map + weight value := by
  rw [total_insert, erase_of_none absent, Nat.add_comm]

end OrderedMap
