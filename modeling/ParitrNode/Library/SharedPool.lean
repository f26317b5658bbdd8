import Mathlib.Data.List.Perm.Subperm
import Mathlib.Logic.Function.Basic

/-!
A pool of interchangeable items: a holder takes the newest idle one, or a new one when none
is idle, and gives it back.
-/

namespace SharedPool

variable {Holder Item : Type}

/-- Each of the items is idle or held, by one holder and in one place. -/
structure Exclusive (items idle : List Item) (held : Holder → Option Item) : Prop where
  distinct : idle.Nodup
  apart : ∀ holder item, held holder = some item → item ∉ idle
  single : ∀ first second item, held first = some item → held second = some item → first = second
  covers : ∀ item, item ∈ items ↔ item ∈ idle ∨ ∃ holder, held holder = some item

variable {items idle : List Item} {held : Holder → Option Item}

theorem Exclusive.empty : Exclusive ([] : List Item) [] fun _ : Holder => none where
  distinct := .nil
  apart _ _ holds := nomatch holds
  single _ _ _ holds := nomatch holds
  covers _ := iff_of_false List.not_mem_nil fun found => found.elim List.not_mem_nil nofun

variable [DecidableEq Holder] {holder : Holder} {item : Item}

theorem update_some {found : Item} {other : Holder}
    (holds : Function.update held holder (some item) other = some found) :
    (other = holder ∧ item = found) ∨ (other ≠ holder ∧ held other = some found) := by
  rw [Function.update_apply] at holds
  split at holds
  next same => exact .inl ⟨same, Option.some.inj holds⟩
  next different => exact .inr ⟨different, holds⟩

theorem update_none {found : Item} {other : Holder}
    (holds : Function.update held holder none other = some found) :
    other ≠ holder ∧ held other = some found := by
  rw [Function.update_apply] at holds
  split at holds
  next => cases holds
  next different => exact ⟨different, holds⟩

theorem holds_update {found : Item} (free : held holder = none) :
    (∃ other, Function.update held holder (some item) other = some found) ↔
      item = found ∨ ∃ other, held other = some found := by
  constructor
  · intro ⟨other, holds⟩
    rcases update_some holds with ⟨_, same⟩ | ⟨_, before⟩
    · exact .inl same
    · exact .inr ⟨other, before⟩
  · intro found
    rcases found with same | ⟨other, before⟩
    · exact ⟨holder, by rw [Function.update_self, same]⟩
    · have different : other ≠ holder := fun equal => by
        rw [equal, free] at before
        cases before
      exact ⟨other, by rw [Function.update_of_ne different, before]⟩

theorem Exclusive.take (exclusive : Exclusive items (idle ++ [item]) held) (free : held holder = none) :
    Exclusive items idle (Function.update held holder (some item)) where
  distinct := (List.nodup_append.mp exclusive.distinct).1
  apart other found holds listed := by
    rcases update_some holds with ⟨_, same⟩ | ⟨_, before⟩
    · have apart := (List.nodup_append.mp exclusive.distinct).2.2
      exact apart found listed item List.mem_cons_self same.symm
    · exact exclusive.apart other found before (List.mem_append_left _ listed)
  single first second found one two := by
    rcases update_some one with ⟨here, same⟩ | ⟨_, before⟩
    · rcases update_some two with ⟨there, _⟩ | ⟨_, also⟩
      · rw [here, there]
      · exact absurd (List.mem_append_right _ (List.mem_singleton.mpr same.symm))
          (exclusive.apart second found also)
    · rcases update_some two with ⟨_, same⟩ | ⟨_, also⟩
      · exact absurd (List.mem_append_right _ (List.mem_singleton.mpr same.symm))
          (exclusive.apart first found before)
      · exact exclusive.single first second found before also
  covers found := by
    rw [exclusive.covers, holds_update free, List.mem_append, List.mem_singleton, or_assoc, eq_comm]

theorem Exclusive.create (exclusive : Exclusive items idle held) (free : held holder = none)
    (new : item ∉ items) : Exclusive (items ++ [item]) idle (Function.update held holder (some item)) where
  distinct := exclusive.distinct
  apart other found holds listed := by
    rcases update_some holds with ⟨_, same⟩ | ⟨_, before⟩
    · exact new ((exclusive.covers item).mpr (.inl (same ▸ listed)))
    · exact exclusive.apart other found before listed
  single first second found one two := by
    have fresh : ∀ other, held other ≠ some item := fun other holds =>
      new ((exclusive.covers item).mpr (.inr ⟨other, holds⟩))
    rcases update_some one with ⟨here, same⟩ | ⟨_, before⟩
    · rcases update_some two with ⟨there, _⟩ | ⟨_, also⟩
      · rw [here, there]
      · rw [← same] at also
        exact absurd also (fresh second)
    · rcases update_some two with ⟨_, same⟩ | ⟨_, also⟩
      · rw [← same] at before
        exact absurd before (fresh first)
      · exact exclusive.single first second found before also
  covers found := by
    rw [List.mem_append, List.mem_singleton, exclusive.covers, holds_update free, eq_comm (a := found)]
    tauto

theorem Exclusive.give (exclusive : Exclusive items idle held) (holds : held holder = some item) :
    Exclusive items (idle ++ [item]) (Function.update held holder none) where
  distinct := by
    apply List.nodup_append.mpr ⟨exclusive.distinct, List.pairwise_singleton _ item, _⟩
    intro other listed _ last same
    rw [List.mem_singleton] at last
    rw [same, last] at listed
    exact exclusive.apart holder item holds listed
  apart other found still listed := by
    have ⟨different, before⟩ := update_none still
    rcases List.mem_append.mp listed with earlier | last
    · exact exclusive.apart other found before earlier
    · rw [List.mem_singleton.mp last] at before
      exact different (exclusive.single other holder item before holds)
  single first second found one two :=
    exclusive.single first second found (update_none one).2 (update_none two).2
  covers found := by
    rw [exclusive.covers, List.mem_append, List.mem_singleton]
    constructor
    · intro there
      rcases there with listed | ⟨other, before⟩
      · exact .inl (.inl listed)
      · by_cases same : other = holder
        · rw [same, holds] at before
          exact .inl (.inr (Option.some.inj before).symm)
        · exact .inr ⟨other, by rw [Function.update_of_ne same, before]⟩
    · intro there
      rcases there with (listed | last) | ⟨other, after⟩
      · exact .inl listed
      · exact .inr ⟨holder, by rw [holds, last]⟩
      · exact .inr ⟨other, (update_none after).2⟩

omit [DecidableEq Holder] in
/-- When nobody holds an item, each is idle, once. -/
theorem Exclusive.whole (exclusive : Exclusive items idle held) (distinct : items.Nodup)
    (nobody : ∀ holder, held holder = none) : idle.Perm items := by
  apply (List.perm_ext_iff_of_nodup exclusive.distinct distinct).mpr
  intro item
  rw [exclusive.covers]
  constructor
  · exact .inl
  · intro there
    rcases there with listed | ⟨holder, holds⟩
    · exact listed
    · rw [nobody holder] at holds
      cases holds

end SharedPool
