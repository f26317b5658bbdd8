import Mathlib.Algebra.Order.BigOperators.Group.Finset
import Mathlib.Algebra.Order.Ring.Nat
import Mathlib.Data.Nat.Log
import Mathlib.Order.OrderDual

/-!
Items ranked by a fraction, compared by cross multiplication, and then by a key.
With positive denominators this is a total preorder, and items of one rank share
their key.
-/

namespace CrossOrder

variable {α κ : Type} [Ord κ] (above below : α → Nat) (key : α → κ)

def rank (first second : α) : Ordering :=
  (compare (above first * below second) (above second * below first)).then
    (compare (key first) (key second))

variable {above below key} {first second third : α}

theorem rank_isLE : (rank above below key first second).isLE = true ↔
    above first * below second < above second * below first ∨
      (above first * below second = above second * below first ∧
        (compare (key first) (key second)).isLE = true) := by
  unfold rank
  cases order : compare (above first * below second) (above second * below first) with
  | lt =>
    have less := Nat.compare_eq_lt.mp order
    exact ⟨fun _ => Or.inl less, fun _ => rfl⟩
  | eq =>
    have same := Nat.compare_eq_eq.mp order
    constructor
    · intro keys
      exact Or.inr ⟨same, keys⟩
    · intro either
      rcases either with less | ⟨_, keys⟩
      · omega
      · exact keys
  | gt =>
    have more := Nat.compare_eq_gt.mp order
    constructor
    · intro impossible
      cases impossible
    · intro either
      omega

variable [Std.TransOrd κ]

theorem rank_total (first second : α) :
    (rank above below key first second).isLE || (rank above below key second first).isLE := by
  rw [Bool.or_eq_true, rank_isLE, rank_isLE]
  rcases Nat.lt_trichotomy (above first * below second) (above second * below first) with
    less | same | more
  · exact Or.inl (Or.inl less)
  · cases order : compare (key first) (key second) with
    | lt => exact Or.inl (Or.inr ⟨same, rfl⟩)
    | eq => exact Or.inl (Or.inr ⟨same, rfl⟩)
    | gt =>
      rw [Std.OrientedCmp.gt_iff_lt.mp order]
      exact Or.inr (Or.inr ⟨same.symm, rfl⟩)
  · exact Or.inr (Or.inl more)

theorem rank_trans (firstPositive : 0 < below first) (secondPositive : 0 < below second)
    (thirdPositive : 0 < below third) (low : (rank above below key first second).isLE = true)
    (high : (rank above below key second third).isLE = true) :
    (rank above below key first third).isLE = true := by
  rw [rank_isLE] at low high ⊢
  -- both steps at one denominator
  have left : above first * below third * below second = above first * below second * below third :=
    Nat.mul_right_comm _ _ _
  have middle : above second * below first * below third = above second * below third * below first :=
    Nat.mul_right_comm _ _ _
  have right : above third * below second * below first = above third * below first * below second :=
    Nat.mul_right_comm _ _ _
  rcases low with less | ⟨same, keys⟩
  · have strict := Nat.mul_lt_mul_of_pos_right less thirdPositive
    have weak : above second * below third * below first ≤ above third * below second * below first := by
      apply Nat.mul_le_mul_right
      omega
    refine Or.inl (Nat.lt_of_mul_lt_mul_right (a := below second) ?_)
    omega
  · have equal : above first * below second * below third = above second * below first * below third :=
      congrArg (· * below third) same
    rcases high with less | ⟨same', keys'⟩
    · have strict := Nat.mul_lt_mul_of_pos_right less firstPositive
      refine Or.inl (Nat.lt_of_mul_lt_mul_right (a := below second) ?_)
      omega
    · have equal' : above second * below third * below first =
          above third * below second * below first := congrArg (· * below first) same'
      refine Or.inr ⟨Nat.eq_of_mul_eq_mul_right secondPositive (by omega), ?_⟩
      exact Std.TransCmp.isLE_trans keys keys'

theorem rank_antisymm [Std.LawfulEqOrd κ] (low : (rank above below key first second).isLE = true)
    (high : (rank above below key second first).isLE = true) : key first = key second := by
  rw [rank_isLE] at low high
  rcases low with less | ⟨same, keys⟩
  · omega
  · rcases high with less' | ⟨_, keys'⟩
    · omega
    · exact Std.LawfulEqOrd.eq_of_compare (Std.OrientedCmp.isLE_antisymm keys keys')

/-- Sorting by an order that is transitive on the items puts a least one first. -/
theorem mergeSort_head {le : α → α → Bool} {good : α → Prop} {items : List α}
    (total : ∀ first second, (le first second || le second first) = true)
    (trans : ∀ first second third, good first → good second → good third →
      le first second = true → le second third = true → le first third = true)
    (all : ∀ item ∈ items, good item) (head : (items.mergeSort le).head? = some first) :
    ∀ item ∈ items, le first item = true := by
  let within : {item : α // good item} → {item : α // good item} → Bool :=
    fun left right => le left.val right.val
  let kept := items.attachWith good all
  have values : kept.map Subtype.val = items := List.attachWith_map_subtype_val _
  have sorted : (kept.mergeSort within).Pairwise (fun left right => within left right) :=
    List.pairwise_mergeSort
      (fun left middle right => trans left.val middle.val right.val left.2 middle.2 right.2)
      (fun left right => total left.val right.val) kept
  have mapped : (kept.mergeSort within).map Subtype.val = items.mergeSort le := by
    rw [List.map_mergeSort (s := le) (fun _ _ _ _ => rfl), values]
  intro item member
  rw [← mapped, List.head?_map, Option.map_eq_some_iff] at head
  obtain ⟨lowest, found, rfl⟩ := head
  have inside : item ∈ kept.map Subtype.val := values ▸ member
  obtain ⟨other, listed, rfl⟩ := List.mem_map.mp inside
  have listed : other ∈ kept.mergeSort within := List.mem_mergeSort.mpr listed
  cases shape : kept.mergeSort within with
  | nil =>
    rw [shape] at listed
    cases listed
  | cons start rest =>
    rw [shape] at found listed sorted
    cases found
    cases List.mem_cons.mp listed with
    | inl same =>
      rw [same]
      have either := total lowest.val lowest.val
      rwa [Bool.or_self] at either
    | inr later => exact List.rel_of_pairwise_cons sorted later

theorem rank_head {items : List α} (positive : ∀ item ∈ items, 0 < below item)
    (head : (items.mergeSort fun left right => (rank above below key left right).isLE).head? =
      some first) : ∀ item ∈ items, (rank above below key first item).isLE = true :=
  mergeSort_head rank_total (fun _ _ _ left middle right => rank_trans left middle right) positive head

/-! The highest fraction first. -/

instance instTransOrdDual : Std.TransOrd κᵒᵈ :=
  inferInstanceAs (Std.TransCmp fun left right : κ => compare right left)

instance instLawfulEqOrdDual [Std.LawfulEqOrd κ] : Std.LawfulEqOrd κᵒᵈ where
  eq_of_compare {left right} same :=
    (Std.LawfulEqOrd.eq_of_compare (α := κ) (a := right) (b := left) same).symm

variable (above below key) in
/-- Equal fractions still go by the lower key. -/
def rankDown (first second : α) : Ordering :=
  (compare (above second * below first) (above first * below second)).then
    (compare (key first) (key second))

omit [Std.TransOrd κ] in
theorem rankDown_eq : rankDown above below key first second =
    rank above below (fun item => OrderDual.toDual (key item)) second first := rfl

theorem rankDown_total (first second : α) :
    (rankDown above below key first second).isLE || (rankDown above below key second first).isLE := by
  rw [rankDown_eq, rankDown_eq]
  exact rank_total second first

theorem rankDown_trans (firstPositive : 0 < below first) (secondPositive : 0 < below second)
    (thirdPositive : 0 < below third) (high : (rankDown above below key first second).isLE = true)
    (low : (rankDown above below key second third).isLE = true) :
    (rankDown above below key first third).isLE = true := by
  rw [rankDown_eq] at high low ⊢
  exact rank_trans thirdPositive secondPositive firstPositive low high

theorem rankDown_head {items : List α} (positive : ∀ item ∈ items, 0 < below item)
    (head : (items.mergeSort fun left right => (rankDown above below key left right).isLE).head? =
      some first) : ∀ item ∈ items, (rankDown above below key first item).isLE = true := by
  apply mergeSort_head rankDown_total _ positive head
  exact fun _ _ _ left middle right => rankDown_trans left middle right

theorem rankDown_antisymm [Std.LawfulEqOrd κ]
    (low : (rankDown above below key first second).isLE = true)
    (high : (rankDown above below key second first).isLE = true) : key first = key second := by
  rw [rankDown_eq] at low high
  have same := rank_antisymm high low
  exact OrderDual.toDual.injective same

end CrossOrder
