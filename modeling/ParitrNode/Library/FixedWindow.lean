import Mathlib.Algebra.Order.BigOperators.Group.Finset
import Mathlib.Algebra.Order.Ring.Nat

/-!
A limit on what is spent in one window of time, where the first charge after the
window is over opens the next one. Any stretch shorter than a window meets at most
two of them.
-/

namespace FixedWindow

/-- A charge reads the clock, and once more when it opens a window. -/
structure Charge where
  now : Nat
  again : Nat
  cost : Nat

structure Window where
  started : Nat
  spent : Nat

def Window.charge (span : Nat) (window : Window) (charge : Charge) : Window :=
  if span ≤ charge.now - window.started then ⟨charge.again, charge.cost⟩
  else ⟨window.started, window.spent + charge.cost⟩

/-- No charge of the run goes over the limit. -/
def Within (span limit : Nat) : Window → List Charge → Prop
  | _, [] => True
  | window, charge :: rest =>
    (window.charge span charge).spent ≤ limit ∧ Within span limit (window.charge span charge) rest

variable {span limit : Nat} {window : Window} {charges : List Charge}

theorem Within.later {first second : List Charge} (within : Within span limit window (first ++ second))
    (start : window.spent ≤ limit) :
    Within span limit (first.foldl (Window.charge span) window) second ∧
      (first.foldl (Window.charge span) window).spent ≤ limit := by
  induction first generalizing window with
  | nil => exact ⟨within, start⟩
  | cons charge rest ih => exact ih within.2 within.1

theorem Within.same_window (within : Within span limit window charges) (positive : 0 < span)
    (start : window.spent ≤ limit) (inside : ∀ charge ∈ charges, charge.now < window.started + span) :
    window.spent + (charges.map Charge.cost).sum ≤ limit := by
  induction charges generalizing window with
  | nil => exact start
  | cons charge rest ih =>
    have early := inside charge List.mem_cons_self
    have stays : window.charge span charge = ⟨window.started, window.spent + charge.cost⟩ := by
      unfold Window.charge
      rw [if_neg (by omega)]
    have ⟨head, tail⟩ := within
    rw [stays] at head tail
    have total := ih tail head fun other member => inside other (List.mem_cons_of_mem _ member)
    rw [List.map_cons, List.sum_cons, ← Nat.add_assoc]
    exact total

/-- In a stretch shorter than a window at most one window opens. -/
theorem Within.stretch (within : Within span limit window charges) (positive : 0 < span)
    (start : window.spent ≤ limit) (readings : ∀ charge ∈ charges, charge.now ≤ charge.again)
    (brief : ∀ first ∈ charges, ∀ second ∈ charges, second.now < first.now + span) :
    window.spent + (charges.map Charge.cost).sum ≤ 2 * limit := by
  induction charges generalizing window with
  | nil =>
    rw [List.map_nil, List.sum_nil]
    omega
  | cons charge rest ih =>
    have ⟨head, tail⟩ := within
    have others : ∀ other ∈ rest, other ∈ charge :: rest := fun _ => List.mem_cons_of_mem charge
    rw [List.map_cons, List.sum_cons, ← Nat.add_assoc]
    by_cases over_now : span ≤ charge.now - window.started
    · have opens : window.charge span charge = ⟨charge.again, charge.cost⟩ := if_pos over_now
      rw [opens] at head tail
      have total := tail.same_window positive head fun other member => by
        have near := brief charge List.mem_cons_self other (others other member)
        have reading := readings charge List.mem_cons_self
        exact Nat.lt_of_lt_of_le near (Nat.add_le_add_right reading span)
      dsimp only at total
      omega
    · have stays : window.charge span charge = ⟨window.started, window.spent + charge.cost⟩ :=
        if_neg over_now
      rw [stays] at head tail
      exact ih tail head (fun other member => readings other (others other member))
        fun first one second two => brief first (others first one) second (others second two)

theorem Within.earlier {first second : List Charge} (within : Within span limit window (first ++ second)) :
    Within span limit window first := by
  induction first generalizing window with
  | nil => exact trivial
  | cons charge rest ih => exact ⟨within.1, ih within.2⟩

/-- A stretch in the middle of a run, shorter than a window, spends at most two limits. -/
theorem Within.stretch_le {before stretch after : List Charge}
    (within : Within span limit window (before ++ stretch ++ after)) (positive : 0 < span)
    (start : window.spent ≤ limit) (readings : ∀ charge ∈ stretch, charge.now ≤ charge.again)
    (brief : ∀ first ∈ stretch, ∀ second ∈ stretch, second.now < first.now + span) :
    (stretch.map Charge.cost).sum ≤ 2 * limit := by
  rw [List.append_assoc] at within
  have ⟨rest, open_spent⟩ := within.later start
  have total := rest.earlier.stretch positive open_spent readings brief
  omega

end FixedWindow
