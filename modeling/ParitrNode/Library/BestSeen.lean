import Mathlib.Data.Set.Insert
import Mathlib.Order.Defs.Unbundled

/-!
The best of what has been seen, under a strict preference. A process that moves to
a new arrival exactly when it prefers it is always at the best of all arrivals.
-/

namespace BestSeen

variable {α : Type} {better : α → α → Prop} {seen : Set α}

structure Best (better : α → α → Prop) (seen : Set α) (best : α) : Prop where
  member : best ∈ seen
  beats : ∀ other ∈ seen, other ≠ best → better best other

theorem best_singleton (only : α) : Best better {only} only where
  member := Set.mem_singleton only
  beats _ inside different := absurd (Set.mem_singleton_iff.mp inside) different

/-- Arrivals in any order end at the same best. -/
theorem Best.unique [IsStrictOrder α better] {first second : α} (one : Best better seen first)
    (two : Best better seen second) : first = second := by
  by_contra different
  have forth := one.beats second two.member (Ne.symm different)
  have back := two.beats first one.member different
  exact irrefl (r := better) first (IsTrans.trans first second first forth back)

theorem Best.replaced [IsStrictOrder α better] {old new : α} (best : Best better seen old)
    (improves : better new old) : Best better (insert new seen) new where
  member := Set.mem_insert new seen
  beats other inside different := by
    have earlier := Set.mem_of_mem_insert_of_ne inside different
    by_cases same : other = old
    · rw [same]
      exact improves
    · exact IsTrans.trans new old other improves (best.beats other earlier same)

theorem Best.kept {old new : α} (best : Best better seen old) (worse : new ≠ old → better old new) :
    Best better (insert new seen) old where
  member := Set.mem_insert_of_mem new best.member
  beats other inside different := by
    rcases Set.mem_insert_iff.mp inside with same | earlier
    · rw [same] at different ⊢
      exact worse different
    · exact best.beats other earlier different

end BestSeen
