import Mathlib.Data.List.Basic

/-!
Reading a list in pages. The list is put together chunk by chunk, and the
gathering ends as soon as the page is full.
-/

namespace Paging

variable {α β : Type}

/-- Chunks are added until there are `room` items. -/
def gatherUntil (room : Nat) (chunk : α → List β) : List α → List β → List β
  | [], items => items
  | source :: rest, items =>
    if items.length ≥ room then items else gatherUntil room chunk rest (items ++ chunk source)

def page (offset count : Nat) (items : List β) : List β := (items.drop offset).take count

theorem gatherUntil_take {room count : Nat} (chunk : α → List β) (enough : count ≤ room)
    (sources : List α) (items : List β) :
    (gatherUntil room chunk sources items).take count = (items ++ sources.flatMap chunk).take count := by
  induction sources generalizing items with
  | nil =>
    rw [List.flatMap_nil, List.append_nil]
    rfl
  | cons source rest ih =>
    rw [gatherUntil]
    by_cases full : items.length ≥ room
    · rw [if_pos full, List.take_append_of_le_length (Nat.le_trans enough full)]
    · rw [if_neg full, ih, List.flatMap_cons, List.append_assoc]

theorem gatherUntil_whole {room : Nat} {chunk : α → List β} {sources : List α} {items : List β}
    (fits : (items ++ sources.flatMap chunk).length ≤ room) :
    gatherUntil room chunk sources items = items ++ sources.flatMap chunk := by
  induction sources generalizing items with
  | nil =>
    rw [List.flatMap_nil, List.append_nil]
    rfl
  | cons source rest ih =>
    rw [List.flatMap_cons, ← List.append_assoc] at fits ⊢
    rw [gatherUntil]
    by_cases full : items.length ≥ room
    · have nothing : chunk source ++ rest.flatMap chunk = [] := by
        rw [List.append_assoc, List.length_append] at fits
        exact List.eq_nil_of_length_eq_zero (by omega)
      rw [if_pos full, List.append_assoc, nothing, List.append_nil]
    · rw [if_neg full, ih fits]

theorem page_gatherUntil {room offset count : Nat} (chunk : α → List β) (enough : offset + count ≤ room)
    (sources : List α) (items : List β) :
    page offset count (gatherUntil room chunk sources items) =
      page offset count (items ++ sources.flatMap chunk) := by
  unfold page
  rw [List.take_drop, List.take_drop, gatherUntil_take chunk enough]

/-- Pages of one size, one after the other, are the start of the list. -/
theorem pages_flatten (count pages : Nat) (items : List β) :
    ((List.range pages).map fun number => page (number * count) count items).flatten =
      items.take (pages * count) := by
  induction pages with
  | zero => rw [Nat.zero_mul, List.take_zero]; rfl
  | succ pages ih =>
    rw [List.range_succ, List.map_append, List.flatten_append, ih, Nat.succ_mul]
    change _ ++ (page (pages * count) count items ++ []) = _
    rw [List.append_nil, List.take_add]
    rfl

end Paging
