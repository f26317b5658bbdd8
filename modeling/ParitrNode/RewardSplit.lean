import ParitrNode.Rewards

/-!
The reward split pays out exactly the subsidy and the fees: the floor shares
never exceed the pool, and each leftover unit is handed out at most once.
-/

namespace ParitrNode
open OrderedMap Checked

def owedTo (rewards : List (Address × UInt64)) (address : Address) : Nat :=
  (rewards.map fun entry => if entry.1 = address then entry.2.toNat else 0).sum

def owedTotal (rewards : List (Address × UInt64)) : Nat :=
  (rewards.map fun entry => entry.2.toNat).sum

theorem owedTo_cons (entry : Address × UInt64) (rest : List (Address × UInt64)) (address : Address) :
    owedTo (entry :: rest) address =
      (if entry.1 = address then entry.2.toNat else 0) + owedTo rest address := by
  unfold owedTo
  rw [List.map_cons, List.sum_cons]

theorem owedTotal_cons (entry : Address × UInt64) (rest : List (Address × UInt64)) :
    owedTotal (entry :: rest) = entry.2.toNat + owedTotal rest := by
  unfold owedTotal
  rw [List.map_cons, List.sum_cons]

theorem owedTo_of_not_mem {rewards : List (Address × UInt64)} {address : Address}
    (absent : address ∉ rewards.map Prod.fst) : owedTo rewards address = 0 := by
  refine List.sum_eq_zero_iff_forall_eq_nat.mpr ?_
  intro value listed
  obtain ⟨entry, member, rfl⟩ := List.mem_map.mp listed
  exact if_neg (fun same => absent (List.mem_map.mpr ⟨entry, member, same⟩))

theorem owedTo_of_mem {rewards : List (Address × UInt64)} (distinct : (rewards.map Prod.fst).Nodup)
    {address : Address} {amount : UInt64} (member : (address, amount) ∈ rewards) :
    owedTo rewards address = amount.toNat := by
  induction rewards with
  | nil => cases member
  | cons entry rest ih =>
    rw [List.map_cons, List.nodup_cons] at distinct
    rcases List.mem_cons.mp member with rfl | inside
    · have elsewhere : owedTo rest address = 0 := owedTo_of_not_mem distinct.1
      rw [owedTo_cons, if_pos rfl, elsewhere, Nat.add_zero]
    · have different : entry.1 ≠ address := by
        rintro rfl
        exact distinct.1 (List.mem_map.mpr ⟨_, inside, rfl⟩)
      rw [owedTo_cons, if_neg different, Nat.zero_add, ih distinct.2 inside]

/-! The subsidy as a number. -/

theorem blockSubsidy_toNat (height : UInt64) : (blockSubsidy height).toNat =
    if height.toNat = 0 then 0
    else max (1000000000 / 2 ^ ((height.toNat - 1) / 1600000)) 50000000 := by
  unfold blockSubsidy
  by_cases zero : height = 0
  · rw [if_pos zero, zero]
    rfl
  · have nonzero : height.toNat ≠ 0 := fun same => zero (UInt64.toNat_inj.mp same)
    have one : (1 : UInt64).toNat = 1 := rfl
    have interval : HALVING_INTERVAL.toNat = 1600000 := rfl
    have minimum : MIN_SUBSIDY.toNat = 50000000 := rfl
    have halvings : ((height - 1) / HALVING_INTERVAL).toNat = (height.toNat - 1) / 1600000 := by
      rw [UInt64.toNat_div, interval, UInt64.toNat_sub_of_le _ _ (UInt64.le_iff_toNat_le.mpr (by omega)),
        one]
    rw [if_neg zero, if_neg nonzero]
    dsimp only
    generalize (height - 1) / HALVING_INTERVAL = count at *
    rw [← halvings]
    by_cases late : count ≥ 64
    · have exponent : 64 ≤ count.toNat := UInt64.le_iff_toNat_le.mp late
      have power : 2 ^ 64 ≤ 2 ^ count.toNat := Nat.pow_le_pow_right (by decide) exponent
      rw [if_pos late, minimum, Nat.div_eq_of_lt (by omega)]
      rfl
    · have exponent : count.toNat < 64 := by
        rw [ge_iff_le, UInt64.le_iff_toNat_le] at late
        change ¬64 ≤ count.toNat at late
        omega
      have shifted : (INITIAL_SUBSIDY >>> count).toNat = 1000000000 / 2 ^ count.toNat := by
        rw [UInt64.toNat_shiftRight, Nat.mod_eq_of_lt exponent, Nat.shiftRight_eq_div_pow]
        rfl
      rw [if_neg late, toNat_max, shifted, minimum]

theorem blockSubsidy_le (height : UInt64) : (blockSubsidy height).toNat ≤ 1000000000 := by
  rw [blockSubsidy_toNat]
  split
  · omega
  · have quotient := Nat.div_le_self 1000000000 (2 ^ ((height.toNat - 1) / 1600000))
    omega

theorem finderBase_toNat {subsidy : UInt64} (bound : subsidy.toNat ≤ 1000000000) :
    (finderBase subsidy).toNat = subsidy.toNat * 5 / 100 := by
  have percent : FINDER_SHARE_PERCENT.toNat = 5 := rfl
  have whole : (100 : UInt64).toNat = 100 := rfl
  unfold finderBase
  rw [UInt64.toNat_div, UInt64.toNat_mul, percent, whole, Nat.mod_eq_of_lt (by omega)]

/-! Portions. -/

def portionTotal (portions : List Portion) : Nat :=
  (portions.map fun portion => portion.amount.toNat).sum

theorem portionTotal_cons (portion : Portion) (rest : List Portion) :
    portionTotal (portion :: rest) = portion.amount.toNat + portionTotal rest := by
  unfold portionTotal
  rw [List.map_cons, List.sum_cons]

theorem portionTotal_mergeSort (portions : List Portion) (before : Portion → Portion → Bool) :
    portionTotal (portions.mergeSort before) = portionTotal portions :=
  ((List.mergeSort_perm portions before).map _).sum_nat

theorem floorShares_ok {pool : UInt64} {totalWeight : Nat} {entries : List (Address × Nat)}
    {distributed result : UInt64} {portions : List Portion}
    (split : floorShares pool totalWeight entries distributed = .ok (portions, result)) :
    result.toNat = distributed.toNat + portionTotal portions := by
  induction entries generalizing distributed portions with
  | nil =>
    cases split
    rfl
  | cons entry rest ih =>
    rw [floorShares] at split
    simp only [bind_ok, okOr_ok, Prod.exists] at split
    obtain ⟨portion, -, sum, added, later, total, tail, whole⟩ := split
    cases whole
    have sums := checkedAdd_some added
    have rests := ih tail
    rw [portionTotal_cons]
    omega

theorem addUnits_le (count : Nat) (portions : List Portion) :
    portionTotal (addUnits count portions) ≤ portionTotal portions + count := by
  induction portions generalizing count with
  | nil =>
    cases count <;> exact Nat.zero_le _
  | cons portion rest ih =>
    cases count with
    | zero => exact Nat.le_refl _
    | succ count =>
      have tail := ih count
      have unit : (portion.amount + 1).toNat ≤ portion.amount.toNat + 1 := by
        rw [UInt64.toNat_add]
        exact Nat.mod_le _ _
      rw [addUnits, portionTotal_cons, portionTotal_cons]
      change (portion.amount + 1).toNat + _ ≤ _
      omega

theorem owedTotal_nonzeroAmounts (portions : List Portion) :
    owedTotal (nonzeroAmounts portions) = portionTotal portions := by
  induction portions with
  | nil => rfl
  | cons portion rest ih =>
    unfold nonzeroAmounts at *
    rw [List.filterMap_cons, portionTotal_cons]
    by_cases positive : portion.amount > 0
    · rw [if_pos positive]
      change owedTotal ((portion.address, portion.amount) :: _) = _
      rw [owedTotal_cons, ih]
    · rw [if_neg positive]
      have zero : portion.amount.toNat = 0 := by
        rw [gt_iff_lt, UInt64.lt_iff_toNat_lt] at positive
        change ¬0 < portion.amount.toNat at positive
        omega
      rw [zero, Nat.zero_add]
      exact ih

theorem splitPool_le {pool : UInt64} {weights : List (Address × Nat)} {totalWeight : Nat}
    {rewards : List (Address × UInt64)} (split : splitPool pool weights totalWeight = .ok rewards) :
    owedTotal rewards ≤ pool.toNat := by
  unfold splitPool at split
  simp only [bind_ok, okOr_ok, Prod.exists] at split
  obtain ⟨portions, distributed, floors, leftover, subtracted, result⟩ := split
  have sums := floorShares_ok floors
  obtain ⟨within, difference⟩ := checkedSub_some subtracted
  have units := addUnits_le leftover.toNat (portions.mergeSort byRemainder)
  rw [portionTotal_mergeSort] at units
  have none : (0 : UInt64).toNat = 0 := rfl
  rw [← Except.ok.inj result, owedTotal_nonzeroAmounts, portionTotal_mergeSort]
  omega

theorem total_toNat (allocation : RewardAllocation) : allocation.total.toNat =
    (allocation.finderAmount.toNat + owedTotal allocation.workshareRewards) % 2 ^ 64 := by
  obtain ⟨finder, rewards⟩ := allocation
  change (rewards.foldl (fun total entry => total + entry.2) finder).toNat = _
  induction rewards generalizing finder with
  | nil => exact (Nat.mod_eq_of_lt finder.toNat_lt).symm
  | cons entry rest ih =>
    rw [List.foldl_cons, ih, owedTotal_cons, UInt64.toNat_add]
    dsimp only
    omega

/-- The finder's amount and the pool together are the subsidy and the fees. -/
theorem rewardAllocation_total {height : UInt64} {finder : Address} {fees : UInt64}
    {parentHistory : List Block} {allocation : RewardAllocation}
    (allocated : rewardAllocation height finder fees parentHistory = .ok allocation) :
    allocation.finderAmount.toNat + owedTotal allocation.workshareRewards =
      (blockSubsidy height).toNat + fees.toNat := by
  have bound := blockSubsidy_le height
  have base := finderBase_toNat bound
  have pool : (blockSubsidy height - finderBase (blockSubsidy height)).toNat =
      (blockSubsidy height).toNat - (finderBase (blockSubsidy height)).toNat := by
    refine UInt64.toNat_sub_of_le _ _ ?_
    rw [UInt64.le_iff_toNat_le]
    omega
  unfold rewardAllocation at allocated
  simp only [guard_ok, bind_ok, not_or] at allocated
  obtain ⟨⟨-, affordable⟩, weights, -, split⟩ := allocated
  obtain ⟨sum, summed⟩ := Option.ne_none_iff_exists'.mp affordable
  have sums := checkedAdd_some summed
  have sumBound := sum.toNat_lt
  split at split
  next nothing =>
    simp only [bind_ok, okOr_ok, Option.bind_eq_some_iff] at split
    obtain ⟨amount, ⟨subsidy, first, second⟩, result⟩ := split
    have firsts := checkedAdd_some first
    have seconds := checkedAdd_some second
    rw [← Except.ok.inj result]
    change amount.toNat + 0 = _
    omega
  next something =>
    simp only [bind_ok, okOr_ok, guard_ok, Decidable.not_not] at split
    obtain ⟨rewards, shared, finderAmount, added, balanced, result⟩ := split
    have shares := splitPool_le shared
    have finders := checkedAdd_some added
    have totals := congrArg UInt64.toNat balanced
    rw [total_toNat, UInt64.toNat_add] at totals
    rw [← Except.ok.inj result]
    change finderAmount.toNat + owedTotal rewards = _
    change (finderAmount.toNat + owedTotal rewards) % 2 ^ 64 = _ at totals
    omega

end ParitrNode
