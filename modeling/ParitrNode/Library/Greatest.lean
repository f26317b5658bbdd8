import Mathlib.Data.Finset.Card
import Mathlib.Data.Finset.Max

/-!
The greatest members of a finite set. Dropping all others after each insertion
keeps the greatest of everything that was ever inserted.
-/

namespace Greatest

variable {α : Type} [LinearOrder α]

def above (items : Finset α) (item : α) : Finset α := items.filter (item < ·)

def greatest (count : Nat) (items : Finset α) : Finset α :=
  items.filter fun item => (above items item).card < count

variable {count : Nat} {items : Finset α} {item kept : α}

theorem mem_above {other : α} : other ∈ above items item ↔ other ∈ items ∧ item < other :=
  Finset.mem_filter

theorem mem_greatest : item ∈ greatest count items ↔ item ∈ items ∧ (above items item).card < count :=
  Finset.mem_filter

theorem above_mono {fewer : Finset α} (within : fewer ⊆ items) (item : α) :
    above fewer item ⊆ above items item :=
  Finset.filter_subset_filter _ within

theorem above_anti {high : α} (below : item ≤ high) : above items high ⊆ above items item := by
  intro other member
  rw [mem_above] at member ⊢
  exact ⟨member.1, lt_of_le_of_lt below member.2⟩

theorem greatest_subset : greatest count items ⊆ items := Finset.filter_subset _ _

theorem dropped_lt (member : item ∈ items) (dropped : item ∉ greatest count items)
    (keeps : kept ∈ greatest count items) : item < kept := by
  by_contra reversed
  have fewer : above items kept ⊇ above items item := above_anti (not_lt.mp reversed)
  have more := Finset.card_le_card fewer
  have few := (mem_greatest.mp keeps).2
  exact dropped (mem_greatest.mpr ⟨member, lt_of_le_of_lt more few⟩)

theorem le_card_greatest (member : item ∈ items) (dropped : item ∉ greatest count items) :
    count ≤ (greatest count items).card := by
  have nonempty : (items \ greatest count items).Nonempty := ⟨item, Finset.mem_sdiff.mpr ⟨member, dropped⟩⟩
  have best := Finset.mem_sdiff.mp (Finset.max'_mem _ nonempty)
  have inside : above items ((items \ greatest count items).max' nonempty) ⊆ greatest count items := by
    intro other higher
    rw [mem_above] at higher
    by_contra lost
    exact absurd (Finset.le_max' _ other (Finset.mem_sdiff.mpr ⟨higher.1, lost⟩)) (not_le.mpr higher.2)
  calc count ≤ (above items ((items \ greatest count items).max' nonempty)).card := by
        by_contra few
        exact best.2 (mem_greatest.mpr ⟨best.1, not_le.mp few⟩)
    _ ≤ (greatest count items).card := Finset.card_le_card inside

/-- What was dropped does not decide how many lie above a member. -/
theorem above_insert_greatest (added : α) (item : α) :
    (above (insert added (greatest count items)) item).card < count ↔
      (above (insert added items) item).card < count := by
  have within : above (insert added (greatest count items)) item ⊆ above (insert added items) item :=
    above_mono (Finset.insert_subset_insert added greatest_subset) item
  constructor
  · intro few
    have same : above (insert added items) item ⊆ above (insert added (greatest count items)) item := by
      intro other higher
      rw [mem_above, Finset.mem_insert] at higher ⊢
      refine ⟨?_, higher.2⟩
      rcases higher.1 with own | member
      · exact Or.inl own
      · by_contra lost
        have dropped : other ∉ greatest count items := fun keeps => lost (Or.inr keeps)
        have all : greatest count items ⊆ above (insert added (greatest count items)) item := by
          intro kept keeps
          rw [mem_above, Finset.mem_insert]
          exact ⟨Or.inr keeps, lt_trans higher.2 (dropped_lt member dropped keeps)⟩
        have enough := le_card_greatest member dropped
        have fits := Finset.card_le_card all
        omega
    exact lt_of_le_of_lt (Finset.card_le_card same) few
  · intro few
    exact lt_of_le_of_lt (Finset.card_le_card within) few

/-- Keeping the greatest after each insertion keeps the greatest of all. -/
theorem greatest_insert_greatest (added : α) :
    greatest count (insert added (greatest count items)) = greatest count (insert added items) := by
  ext item
  rw [mem_greatest, mem_greatest, above_insert_greatest]
  apply and_congr_left
  intro few
  rw [Finset.mem_insert, Finset.mem_insert]
  apply or_congr_right
  constructor
  · exact fun keeps => greatest_subset keeps
  · intro member
    have fewer := Finset.card_le_card (above_mono (Finset.subset_insert added items) item)
    exact mem_greatest.mpr ⟨member, lt_of_le_of_lt fewer few⟩

/-! The greatest members of an increasing list are its last. -/

theorem card_above_split {before after : List α} (sorted : (before ++ item :: after).Pairwise (· < ·)) :
    (above (before ++ item :: after).toFinset item).card = after.length := by
  obtain ⟨_, rest, across⟩ := List.pairwise_append.mp sorted
  obtain ⟨higher, ordered⟩ := List.pairwise_cons.mp rest
  have same : above (before ++ item :: after).toFinset item = after.toFinset := by
    ext other
    rw [mem_above, List.mem_toFinset, List.mem_toFinset, List.mem_append, List.mem_cons]
    constructor
    · intro member
      rcases member.1 with lower | own | inside
      · exact absurd (across other lower item List.mem_cons_self) (not_lt.mpr (le_of_lt member.2))
      · exact absurd own.symm (ne_of_lt member.2)
      · exact inside
    · intro inside
      exact ⟨Or.inr (Or.inr inside), higher other inside⟩
  rw [same, List.toFinset_card_of_nodup (ordered.imp ne_of_lt)]

omit [LinearOrder α] in
theorem mem_take_split {first rest : List α} (absent : item ∉ first) :
    item ∈ (first ++ item :: rest).take count ↔ first.length < count := by
  rw [List.take_append, List.mem_append]
  constructor
  · intro taken
    by_contra few
    rcases taken with early | late
    · exact absent (List.mem_of_mem_take early)
    · rw [Nat.sub_eq_zero_of_le (Nat.le_of_not_lt few), List.take_zero] at late
      cases late
  · intro room
    apply Or.inr
    have more : count - first.length = count - first.length - 1 + 1 := by omega
    rw [more, List.take_succ_cons]
    exact List.mem_cons_self

theorem mem_take_reverse {items : List α} (sorted : items.Pairwise (· < ·)) :
    item ∈ items.reverse.take count ↔ item ∈ greatest count items.toFinset := by
  rw [mem_greatest, List.mem_toFinset]
  by_cases member : item ∈ items
  · obtain ⟨before, after, rfl⟩ := List.append_of_mem member
    have rest := (List.pairwise_append.mp sorted).2.1
    have absent : item ∉ after.reverse := by
      intro inside
      exact lt_irrefl item ((List.pairwise_cons.mp rest).1 item (List.mem_reverse.mp inside))
    have reversed : (before ++ item :: after).reverse = after.reverse ++ item :: before.reverse := by
      simp
    rw [card_above_split sorted, reversed, mem_take_split absent, List.length_reverse]
    exact (and_iff_right member).symm
  · constructor
    · exact fun taken => absurd (List.mem_reverse.mp (List.mem_of_mem_take taken)) member
    · exact fun keeps => absurd keeps.1 member

end Greatest
