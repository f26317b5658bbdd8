import Mathlib.Algebra.Order.BigOperators.Group.Finset
import Mathlib.Algebra.Order.Ring.Nat
import Mathlib.Data.Nat.Log

/-!
Checked and saturating arithmetic on 64-bit machine words, and the outcome of
a fallible computation written with `Except`.
-/

namespace Checked

def checkedAdd (a b : UInt64) : Option UInt64 :=
  if a.toNat + b.toNat < 2 ^ 64 then some (a + b) else none

def checkedSub (a b : UInt64) : Option UInt64 :=
  if b.toNat ≤ a.toNat then some (a - b) else none

def saturatingAdd (a b : UInt64) : UInt64 := (checkedAdd a b).getD (UInt64.ofNat (2 ^ 64 - 1))

def saturatingSub (a b : UInt64) : UInt64 := (checkedSub a b).getD 0

def saturatingMul (a b : UInt64) : UInt64 :=
  if a.toNat * b.toNat < 2 ^ 64 then a * b else UInt64.ofNat (2 ^ 64 - 1)

theorem toNat_lt (a : UInt64) : a.toNat < 2 ^ 64 := UInt64.toNat_lt a

theorem ofNat_toNat {value : Nat} (bound : value < 2 ^ 64) : (UInt64.ofNat value).toNat = value := by
  rw [UInt64.toNat_ofNat', Nat.mod_eq_of_lt bound]

theorem toNat_add {a b : UInt64} (bound : a.toNat + b.toNat < 2 ^ 64) :
    (a + b).toNat = a.toNat + b.toNat := by
  rw [UInt64.toNat_add, Nat.mod_eq_of_lt bound]

theorem toNat_max (a b : UInt64) : (max a b).toNat = max a.toNat b.toNat := by
  have choice : max a b = if a ≤ b then b else a := rfl
  rw [choice]
  split
  next le => rw [Nat.max_eq_right (UInt64.le_iff_toNat_le.mp le)]
  next gt =>
    rw [UInt64.le_iff_toNat_le] at gt
    rw [Nat.max_eq_left (by omega)]

theorem le_max_first (a b : UInt64) : a ≤ max a b := by
  rw [UInt64.le_iff_toNat_le, toNat_max]
  exact Nat.le_max_left _ _

theorem le_max_second (a b : UInt64) : b ≤ max a b := by
  rw [UInt64.le_iff_toNat_le, toNat_max]
  exact Nat.le_max_right _ _

theorem toNat_min (a b : UInt64) : (min a b).toNat = min a.toNat b.toNat := by
  have choice : min a b = if a ≤ b then a else b := rfl
  rw [choice]
  split
  next le => rw [Nat.min_eq_left (UInt64.le_iff_toNat_le.mp le)]
  next gt =>
    rw [UInt64.le_iff_toNat_le] at gt
    rw [Nat.min_eq_right (by omega)]

theorem checkedAdd_some {a b sum : UInt64} (h : checkedAdd a b = some sum) :
    sum.toNat = a.toNat + b.toNat := by
  unfold checkedAdd at h
  split at h
  next bound => rw [← Option.some.inj h, toNat_add bound]
  next => cases h

theorem checkedAdd_of_lt {a b : UInt64} (bound : a.toNat + b.toNat < 2 ^ 64) :
    checkedAdd a b = some (a + b) := if_pos bound

theorem checkedSub_some {a b difference : UInt64} (h : checkedSub a b = some difference) :
    b.toNat ≤ a.toNat ∧ difference.toNat = a.toNat - b.toNat := by
  unfold checkedSub at h
  split at h
  next bound =>
    refine ⟨bound, ?_⟩
    rw [← Option.some.inj h]
    exact UInt64.toNat_sub_of_le a b (UInt64.le_iff_toNat_le.mpr bound)
  next => cases h

theorem checkedSub_of_le {a b : UInt64} (bound : b.toNat ≤ a.toNat) :
    checkedSub a b = some (a - b) := if_pos bound

theorem saturatingAdd_of_lt {a b : UInt64} (bound : a.toNat + b.toNat < 2 ^ 64) :
    (saturatingAdd a b).toNat = a.toNat + b.toNat := by
  unfold saturatingAdd
  rw [checkedAdd_of_lt bound]
  exact toNat_add bound

theorem saturatingAdd_toNat (a b : UInt64) :
    (saturatingAdd a b).toNat = min (a.toNat + b.toNat) (2 ^ 64 - 1) := by
  by_cases fits : a.toNat + b.toNat < 2 ^ 64
  · rw [saturatingAdd_of_lt fits]
    omega
  · have top : (UInt64.ofNat (2 ^ 64 - 1)).toNat = 2 ^ 64 - 1 := ofNat_toNat (by decide)
    unfold saturatingAdd checkedAdd
    rw [if_neg fits, Option.getD_none, top]
    omega

theorem le_saturatingAdd (a b : UInt64) : a.toNat ≤ (saturatingAdd a b).toNat := by
  have bound := a.toNat_lt
  unfold saturatingAdd checkedAdd
  split
  next fits => exact Nat.le_trans (Nat.le_add_right _ _) (Nat.le_of_eq (toNat_add fits).symm)
  next =>
    have top : (UInt64.ofNat (2 ^ 64 - 1)).toNat = 2 ^ 64 - 1 := ofNat_toNat (by decide)
    simp only [Option.getD_none, top]
    omega

theorem foldl_saturatingAdd {amounts : List UInt64} {start : UInt64}
    (fits : start.toNat + (amounts.map UInt64.toNat).sum < 2 ^ 64) :
    (amounts.foldl saturatingAdd start).toNat = start.toNat + (amounts.map UInt64.toNat).sum := by
  induction amounts generalizing start with
  | nil => rfl
  | cons amount rest ih =>
    rw [List.map_cons, List.sum_cons] at fits ⊢
    have first := saturatingAdd_of_lt (a := start) (b := amount) (by omega)
    rw [List.foldl_cons, ih (by omega), first, Nat.add_assoc]

theorem saturatingMul_of_lt {a b : UInt64} (bound : a.toNat * b.toNat < 2 ^ 64) :
    (saturatingMul a b).toNat = a.toNat * b.toNat := by
  unfold saturatingMul
  rw [if_pos bound, UInt64.toNat_mul, Nat.mod_eq_of_lt bound]

/-! Inverting a successful computation, one step at a time. -/

section Outcomes

variable {ε α β : Type}

theorem bind_ok {x : Except ε α} {f : α → Except ε β} {b : β} :
    x >>= f = .ok b ↔ ∃ a, x = .ok a ∧ f a = .ok b := by
  cases x with
  | error e => exact ⟨fun h => (by cases h), fun ⟨_, h, _⟩ => (by cases h)⟩
  | ok a => exact ⟨fun h => ⟨a, rfl, h⟩, fun ⟨a', same, h⟩ => (by cases same; exact h)⟩

/-- The guard `if p { return Err(e) }` in front of the rest of a function. -/
theorem guard_ok {p : Prop} [Decidable p] {e : ε} {rest : Except ε β} {b : β} :
    (if p then Except.error e else rest) = .ok b ↔ ¬p ∧ rest = .ok b := by
  split
  next holds => exact ⟨fun h => (by cases h), fun h => absurd holds h.1⟩
  next fails => exact ⟨fun h => ⟨fails, h⟩, fun h => h.2⟩

def okOr (e : ε) : Option α → Except ε α
  | some a => .ok a
  | none => .error e

@[simp] theorem okOr_some (e : ε) (a : α) : okOr e (some a) = .ok a := rfl

@[simp] theorem okOr_none (e : ε) : okOr e (none : Option α) = .error e := rfl

theorem okOr_ok {e : ε} {x : Option α} {a : α} : okOr e x = .ok a ↔ x = some a := by
  cases x <;> simp [okOr]

/-- A fold whose steps commute does not depend on the order of its items. -/
theorem foldlM_perm {step : β → α → Except ε β} {first second : List α}
    (commutes : ∀ state left right, (step state left >>= fun next => step next right) =
      (step state right >>= fun next => step next left))
    (same : first.Perm second) (start : β) : first.foldlM step start = second.foldlM step start := by
  induction same generalizing start with
  | nil => rfl
  | cons item _ ih =>
    rw [List.foldlM_cons, List.foldlM_cons]
    exact bind_congr ih
  | swap left right rest =>
    simp only [List.foldlM_cons, ← bind_assoc]
    rw [commutes]
  | trans _ _ ih ih' => exact (ih start).trans (ih' start)

end Outcomes

end Checked
