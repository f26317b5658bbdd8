import Mathlib.Data.List.Flatten
import Mathlib.Data.List.Nodup
import Mathlib.Data.List.Perm.Subperm

/-!
Lists in strictly increasing order of a key: such a list is determined by its
members, and sorting any list with distinct keys gives one.
-/

namespace KeyOrder

variable {α κ : Type} [Ord κ] [Std.TransOrd κ] (key : α → κ)

def Increasing (items : List α) : Prop :=
  items.Pairwise (fun first second => compare (key first) (key second) = Ordering.lt)

variable {key}

theorem Increasing.keys {items : List α} (increasing : Increasing key items) :
    (items.map key).Nodup := by
  rw [List.Nodup, List.pairwise_map]
  apply increasing.imp
  intro first second below same
  have self : compare (key second) (key second) = Ordering.eq := Std.ReflCmp.compare_self
  rw [same, self] at below
  cases below

theorem Increasing.nodup {items : List α} (increasing : Increasing key items) : items.Nodup :=
  List.Nodup.of_map key increasing.keys

theorem Increasing.ext {first second : List α} (increasing : Increasing key first)
    (other : Increasing key second) (same : ∀ item, item ∈ first ↔ item ∈ second) :
    first = second := by
  apply List.Perm.eq_of_pairwise _ increasing other
    ((List.perm_ext_iff_of_nodup increasing.nodup other.nodup).mpr same)
  intro left right _ _ below above
  have self : compare (key left) (key left) = Ordering.eq := Std.ReflCmp.compare_self
  rw [Std.TransCmp.lt_trans below above] at self
  cases self

def After (last : Option κ) (next : κ) : Prop :=
  ∀ previous ∈ last, compare previous next = Ordering.lt

omit [Std.TransOrd κ] in
theorem after_none (next : κ) : After none next := fun _ impossible => nomatch impossible

omit [Std.TransOrd κ] in
theorem after_some {previous next : κ} :
    After (some previous) next ↔ compare previous next = Ordering.lt := by
  constructor
  · exact fun after => after previous rfl
  · intro below other member
    cases member
    exact below

omit [Std.TransOrd κ] in
theorem any_isGE_iff {last : Option κ} {next : κ} :
    last.any (fun previous => (compare previous next).isGE) = false ↔ After last next := by
  cases last with
  | none => exact ⟨fun _ => after_none next, fun _ => rfl⟩
  | some previous =>
    rw [after_some, Option.any_some]
    cases compare previous next with
    | lt => decide
    | eq => decide
    | gt => decide

/-- An increasing list that starts after the last key seen. -/
def Beyond (key : α → κ) (last : Option κ) (items : List α) : Prop :=
  Increasing key items ∧ ∀ item ∈ items, After last (key item)

omit [Std.TransOrd κ] in
theorem beyond_nil {last : Option κ} : Beyond key last [] :=
  ⟨List.Pairwise.nil, fun _ impossible => nomatch impossible⟩

omit [Std.TransOrd κ] in
theorem beyond_none {items : List α} : Beyond key none items ↔ Increasing key items :=
  ⟨And.left, fun increasing => ⟨increasing, fun item _ => after_none (key item)⟩⟩

theorem beyond_cons {last : Option κ} {item : α} {rest : List α} :
    Beyond key last (item :: rest) ↔
      After last (key item) ∧ Beyond key (some (key item)) rest := by
  constructor
  · intro ⟨increasing, after⟩
    obtain ⟨below, sorted⟩ := List.pairwise_cons.mp increasing
    exact ⟨after item List.mem_cons_self, sorted, fun other member => after_some.mpr (below other member)⟩
  · intro ⟨after, sorted, below⟩
    have above : ∀ other ∈ rest, compare (key item) (key other) = Ordering.lt :=
      fun other member => after_some.mp (below other member)
    refine ⟨List.pairwise_cons.mpr ⟨above, sorted⟩, ?_⟩
    intro other member
    rcases List.mem_cons.mp member with rfl | inside
    · exact after
    · exact fun previous seen => Std.TransCmp.lt_trans (after previous seen) (above other inside)

theorem sorted_mergeSort (order : α → α → Ordering) [Std.TransCmp order] (items : List α) :
    (items.mergeSort fun first second => (order first second).isLE).Pairwise
      (fun first second => (order first second).isLE = true) := by
  apply List.pairwise_mergeSort
  · exact fun _ _ _ left right => Std.TransCmp.isLE_trans left right
  · intro first second
    cases towards : order first second with
    | lt => rfl
    | eq => rfl
    | gt => rw [Std.OrientedCmp.gt_iff_lt.mp towards]; rfl

theorem increasing_mergeSort [Std.LawfulEqOrd κ] {items : List α} (distinct : (items.map key).Nodup) :
    Increasing key (items.mergeSort (fun first second => (compare (key first) (key second)).isLE)) := by
  let le : α → α → Bool := fun first second => (compare (key first) (key second)).isLE
  have sorted : (items.mergeSort le).Pairwise (fun first second => le first second) :=
    sorted_mergeSort (compareOn key) items
  have apart := ((List.mergeSort_perm items le).map key).nodup_iff.mpr distinct
  rw [List.Nodup, List.pairwise_map] at apart
  have both := sorted.and apart
  apply both.imp
  intro first second ⟨below, other⟩
  cases order : compare (key first) (key second) with
  | lt => rfl
  | eq => exact absurd (Std.LawfulEqOrd.eq_of_compare order) other
  | gt => simp only [le, order] at below; cases below

theorem flatMap_length_le {β : Type} (encode : α → List β) {items others : List α}
    (distinct : items.Nodup) (within : ∀ item ∈ items, item ∈ others) :
    (items.flatMap encode).length ≤ (others.flatMap encode).length := by
  have fewer : items.Subperm others := List.subperm_of_subset distinct within
  obtain ⟨kept, permuted, sub⟩ := fewer
  rw [(permuted.flatMap_right encode).length_eq.symm]
  exact (sub.flatMap encode).length_le

end KeyOrder
