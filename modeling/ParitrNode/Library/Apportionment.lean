import Mathlib.Algebra.Order.BigOperators.Group.List
import Mathlib.Algebra.Order.Ring.Nat

/-!
Shares of a pool in proportion to weights, rounded down: what they leave over is
less than one unit for each weight.
-/

namespace Apportionment

def floors (pool total : Nat) (weights : List Nat) : List Nat :=
  weights.map (fun weight => pool * weight / total)

theorem floors_remainders (pool total : Nat) (weights : List Nat) :
    total * (floors pool total weights).sum +
      (weights.map (fun weight => pool * weight % total)).sum = pool * weights.sum := by
  induction weights with
  | nil => rfl
  | cons weight rest ih =>
    have division := Nat.div_add_mod (pool * weight) total
    unfold floors at *
    simp only [List.map_cons, List.sum_cons, Nat.mul_add]
    omega

variable (pool : Nat) {total : Nat} {weights : List Nat}

theorem floors_le (whole : weights.sum = total) (positive : 0 < total) :
    (floors pool total weights).sum ≤ pool := by
  have split := floors_remainders pool total weights
  rw [whole] at split
  apply Nat.le_of_mul_le_mul_left _ positive
  calc total * (floors pool total weights).sum ≤ pool * total := by omega
    _ = total * pool := Nat.mul_comm _ _

theorem leftover_lt (whole : weights.sum = total) (positive : 0 < total) :
    pool - (floors pool total weights).sum < weights.length := by
  have split := floors_remainders pool total weights
  rw [whole] at split
  have below : (weights.map (fun weight => pool * weight % total)).sum + weights.length ≤
      weights.length * total := by
    clear split whole
    induction weights with
    | nil => exact Nat.zero_le _
    | cons weight rest ih =>
      have small := Nat.mod_lt (pool * weight) positive
      simp only [List.map_cons, List.sum_cons, List.length_cons, Nat.add_mul, Nat.one_mul]
      omega
  have nonempty : 0 < weights.length := by
    cases weights with
    | nil => rw [List.sum_nil] at whole; omega
    | cons weight rest => exact Nat.succ_pos _
  apply Nat.lt_of_mul_lt_mul_left (a := total)
  calc total * (pool - (floors pool total weights).sum)
      = pool * total - total * (floors pool total weights).sum := by
        rw [Nat.mul_sub, Nat.mul_comm total pool]
    _ = (weights.map (fun weight => pool * weight % total)).sum := by omega
    _ < weights.length * total := by omega
    _ = total * weights.length := Nat.mul_comm _ _

theorem floor_le {weight : Nat} (member : weight ∈ weights) (whole : weights.sum = total)
    (positive : 0 < total) : pool * weight / total ≤ pool := by
  have one : pool * weight / total ≤ (floors pool total weights).sum :=
    List.single_le_sum (fun _ _ => Nat.zero_le _) _ (List.mem_map.mpr ⟨weight, member, rfl⟩)
  exact Nat.le_trans one (floors_le pool whole positive)

end Apportionment
