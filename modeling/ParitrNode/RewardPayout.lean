import ParitrNode.CompactTargets
import ParitrNode.Library.Apportionment
import ParitrNode.RewardSplit

/-!
The reward split never fails on shares with valid bits: the weights add up, the
floor shares leave less than one unit for each miner, and every unit is paid.
-/

namespace ParitrNode
open OrderedMap Checked Apportionment

/-! The pool in floor shares. -/

def floorPortion (pool : UInt64) (totalWeight : Nat) (entry : Address × Nat) : Portion :=
  ⟨entry.1, UInt64.ofNat (pool.toNat * entry.2 / totalWeight % 2 ^ 64),
    pool.toNat * entry.2 % totalWeight⟩

theorem floorPortion_amount {pool : UInt64} {totalWeight : Nat} {entry : Address × Nat}
    (small : pool.toNat * entry.2 / totalWeight ≤ pool.toNat) :
    (floorPortion pool totalWeight entry).amount.toNat = pool.toNat * entry.2 / totalWeight := by
  have bound := pool.toNat_lt
  unfold floorPortion
  dsimp only
  rw [ofNat_toNat (Nat.mod_lt _ (by decide)), Nat.mod_eq_of_lt (by omega)]

theorem floorShares_succeeds {pool : UInt64} {totalWeight : Nat} {entries : List (Address × Nat)}
    (distributed : UInt64) (fits : ∀ entry ∈ entries, pool.toNat * entry.2 ≤ MAX_U512)
    (small : ∀ entry ∈ entries, pool.toNat * entry.2 / totalWeight ≤ pool.toNat)
    (sum : distributed.toNat + (floors pool.toNat totalWeight (entries.map Prod.snd)).sum < 2 ^ 64) :
    ∃ result, floorShares pool totalWeight entries distributed =
        .ok (entries.map (floorPortion pool totalWeight), result) ∧
      result.toNat =
        distributed.toNat + (floors pool.toNat totalWeight (entries.map Prod.snd)).sum := by
  induction entries generalizing distributed with
  | nil => exact ⟨distributed, rfl, rfl⟩
  | cons entry rest ih =>
    have amount := floorPortion_amount (small entry List.mem_cons_self)
    unfold floors at *
    simp only [List.map_cons, List.sum_cons] at sum ⊢
    have added := checkedAdd_of_lt (a := distributed) (b := (floorPortion pool totalWeight entry).amount)
      (by omega)
    have sums := checkedAdd_some added
    obtain ⟨result, later, total⟩ := ih (distributed + (floorPortion pool totalWeight entry).amount)
      (fun other member => fits other (List.mem_cons_of_mem _ member))
      (fun other member => small other (List.mem_cons_of_mem _ member)) (by omega)
    refine ⟨result, ?_, by omega⟩
    rw [floorShares]
    simp only [bind_ok, okOr_ok]
    refine ⟨floorPortion pool totalWeight entry, ?_, _, added, _, later, rfl⟩
    unfold portionOf
    exact if_neg (Nat.not_lt.mpr (fits entry List.mem_cons_self))

theorem portionTotal_floors {pool : UInt64} {totalWeight : Nat} {entries : List (Address × Nat)}
    (small : ∀ entry ∈ entries, pool.toNat * entry.2 / totalWeight ≤ pool.toNat) :
    portionTotal (entries.map (floorPortion pool totalWeight)) =
      (floors pool.toNat totalWeight (entries.map Prod.snd)).sum := by
  unfold portionTotal floors
  rw [List.map_map, List.map_map]
  apply congrArg List.sum
  apply List.map_congr_left
  intro entry member
  exact floorPortion_amount (small entry member)

theorem addUnits_total {count : Nat} {portions : List Portion} (enough : count ≤ portions.length)
    (room : ∀ portion ∈ portions, portion.amount.toNat + 1 < 2 ^ 64) :
    portionTotal (addUnits count portions) = portionTotal portions + count := by
  induction portions generalizing count with
  | nil =>
    have none : count = 0 := Nat.le_zero.mp enough
    rw [none]
    rfl
  | cons portion rest ih =>
    cases count with
    | zero => rfl
    | succ count =>
      have tail := ih (Nat.le_of_succ_le_succ enough)
        (fun other member => room other (List.mem_cons_of_mem _ member))
      have unit : (portion.amount + 1).toNat = portion.amount.toNat + 1 :=
        toNat_add (room portion List.mem_cons_self)
      rw [addUnits, portionTotal_cons, portionTotal_cons]
      change (portion.amount + 1).toNat + _ = _
      omega

/-- A pool among positive weights is paid out to the last unit. -/
theorem splitPool_succeeds (pool : UInt64) {entries : List (Address × Nat)} {totalWeight : Nat}
    (whole : (entries.map Prod.snd).sum = totalWeight) (positive : 0 < totalWeight)
    (poolBound : pool.toNat + 1 < 2 ^ 64) (fits : pool.toNat * totalWeight ≤ MAX_U512) :
    ∃ rewards, splitPool pool entries totalWeight = .ok rewards ∧ owedTotal rewards = pool.toNat := by
  have small : ∀ entry ∈ entries, pool.toNat * entry.2 / totalWeight ≤ pool.toNat :=
    fun entry member => floor_le pool.toNat (List.mem_map.mpr ⟨entry, member, rfl⟩) whole positive
  have below : ∀ entry ∈ entries, pool.toNat * entry.2 ≤ MAX_U512 := by
    intro entry member
    have one : entry.2 ≤ totalWeight := by
      rw [← whole]
      exact List.single_le_sum (fun _ _ => Nat.zero_le _) _ (List.mem_map.mpr ⟨entry, member, rfl⟩)
    exact Nat.le_trans (Nat.mul_le_mul_left _ one) fits
  have within := floors_le pool.toNat whole positive
  have left := leftover_lt pool.toNat whole positive
  rw [List.length_map] at left
  have zero : (0 : UInt64).toNat = 0 := rfl
  obtain ⟨distributed, shares, sum⟩ :=
    floorShares_succeeds 0 below small (by omega)
  have subtracted := checkedSub_of_le (a := pool) (b := distributed) (by omega)
  obtain ⟨_, difference⟩ := checkedSub_some subtracted
  let portions := entries.map (floorPortion pool totalWeight)
  have units : portionTotal (addUnits (pool - distributed).toNat (portions.mergeSort byRemainder)) =
      portionTotal portions + (pool - distributed).toNat := by
    rw [addUnits_total, portionTotal_mergeSort]
    · rw [(List.mergeSort_perm _ _).length_eq, List.length_map]
      omega
    · intro portion member
      rw [List.mem_mergeSort] at member
      obtain ⟨entry, inside, rfl⟩ := List.mem_map.mp member
      have bound := small entry inside
      rw [floorPortion_amount bound]
      omega
  refine ⟨nonzeroAmounts ((addUnits (pool - distributed).toNat
    (portions.mergeSort byRemainder)).mergeSort byAddress), ?_, ?_⟩
  · unfold splitPool
    simp only [bind_ok, okOr_ok]
    exact ⟨_, shares, _, subtracted, rfl⟩
  · rw [owedTotal_nonzeroAmounts, portionTotal_mergeSort, units, portionTotal_floors small]
    omega

/-! The weights of the window. -/

theorem windowShares_length {history : List Block} {bound : Nat}
    (few : ∀ block ∈ rewardWindow history, block.workshareWitness.workshares.length ≤ bound) :
    (windowShares history).length ≤ 1440 * bound := by
  have bounded : ∀ count ∈ (rewardWindow history).map
      (fun block => block.workshareWitness.workshares.length), count ≤ bound := by
    intro count member
    obtain ⟨block, inside, rfl⟩ := List.mem_map.mp member
    exact few block inside
  have sum := List.sum_le_card_nsmul _ _ bounded
  have window : (rewardWindow history).length ≤ 1440 := by
    unfold rewardWindow
    rw [List.length_drop]
    change history.length - (history.length - 1440) ≤ 1440
    omega
  rw [List.length_map] at sum
  change _ ≤ (rewardWindow history).length * bound at sum
  unfold windowShares
  rw [List.length_flatMap]
  exact Nat.le_trans sum (Nat.mul_le_mul_right _ window)

theorem workshareWeight_le {bits : UInt32} {weight : Nat} (weighs : workshareWeight bits = .ok weight) :
    weight ≤ 2 ^ 256 := by
  unfold workshareWeight at weighs
  simp only [bind_ok, okOr_ok] at weighs
  obtain ⟨shareBits, _, target, _, result⟩ := weighs
  rw [← Except.ok.inj result]
  have top : MAX_U256 = 2 ^ 256 - 1 := rfl
  have quotient := Nat.div_le_self (MAX_U256 - target) (target + 1)
  unfold targetWork
  split
  · decide
  · omega

theorem addWeight_ok (weights : BTreeMap Address Nat) {share : Workshare} {weight : Nat}
    (weighs : workshareWeight share.candidateHeader.bits = .ok weight)
    (room : total id weights + weight ≤ MAX_U512) :
    ∃ next, addWeight weights share = .ok next ∧ total id next = total id weights + weight := by
  have written := total_insert_add (ν := Nat) id weights share.miner
    (saturatingAddU512 ((weights[share.miner]?).getD 0) weight)
  have own : (weights[share.miner]?).getD 0 ≤ total id weights := by
    cases present : weights[share.miner]? with
    | none => exact Nat.zero_le _
    | some value => exact weight_le_total id present
  have same : ((weights[share.miner]?).map id).getD 0 = (weights[share.miner]?).getD 0 := by
    rw [Option.map_id]
    rfl
  have exactly : saturatingAddU512 ((weights[share.miner]?).getD 0) weight =
      (weights[share.miner]?).getD 0 + weight := Nat.min_eq_left (by omega)
  rw [same] at written
  refine ⟨_, bind_ok.mpr ⟨weight, weighs, rfl⟩, ?_⟩
  dsimp only [id] at written
  omega

theorem addWeights_ok {shares : List Workshare} (weights : BTreeMap Address Nat)
    (weighs : ∀ share ∈ shares, ∃ weight, workshareWeight share.candidateHeader.bits = .ok weight)
    (room : total id weights + shares.length * 2 ^ 256 ≤ MAX_U512) :
    ∃ next, shares.foldlM addWeight weights = .ok next ∧
      total id next ≤ total id weights + shares.length * 2 ^ 256 := by
  induction shares generalizing weights with
  | nil => exact ⟨weights, rfl, by omega⟩
  | cons share rest ih =>
    obtain ⟨weight, weighed⟩ := weighs share List.mem_cons_self
    have bound := workshareWeight_le weighed
    rw [List.length_cons] at room
    obtain ⟨middle, added, sum⟩ := addWeight_ok weights weighed (by omega)
    obtain ⟨next, later, below⟩ := ih middle
      (fun other member => weighs other (List.mem_cons_of_mem _ member)) (by omega)
    refine ⟨next, ?_, by rw [List.length_cons]; omega⟩
    rw [List.foldlM_cons, bind_ok]
    exact ⟨middle, added, later⟩

theorem saturatingSum_eq (weights : List Nat) (start : Nat) (room : start + weights.sum ≤ MAX_U512) :
    weights.foldl saturatingAddU512 start = start + weights.sum := by
  induction weights generalizing start with
  | nil => rfl
  | cons weight rest ih =>
    rw [List.sum_cons] at room ⊢
    have first : saturatingAddU512 start weight = start + weight := Nat.min_eq_left (by omega)
    rw [List.foldl_cons, first, ih _ (by omega)]
    omega

/-- The split succeeds for any number of shares a window can hold. -/
theorem rewardAllocation_succeeds (height : UInt64) (finder : Address) {fees : UInt64}
    {parentHistory : List Block} (money : fees ≤ MAX_MONEY)
    (weighs : ∀ share ∈ windowShares parentHistory,
      ∃ weight, workshareWeight share.candidateHeader.bits = .ok weight)
    (few : (windowShares parentHistory).length ≤ 2 ^ 64) :
    ∃ allocation, rewardAllocation height finder fees parentHistory = .ok allocation := by
  have bound := blockSubsidy_le height
  have base := finderBase_toNat bound
  have feesBound := UInt64.le_iff_toNat_le.mp money
  have range : MAX_MONEY.toNat = 2 ^ 62 - 1 := rfl
  have pool : (blockSubsidy height - finderBase (blockSubsidy height)).toNat =
      (blockSubsidy height).toNat - (finderBase (blockSubsidy height)).toNat := by
    apply UInt64.toNat_sub_of_le
    rw [UInt64.le_iff_toNat_le]
    omega
  have none : total id (∅ : BTreeMap Address Nat) = 0 := total_empty _
  have together : (windowShares parentHistory).length * 2 ^ 256 ≤ 2 ^ 64 * 2 ^ 256 :=
    Nat.mul_le_mul_right _ few
  have room : 2 ^ 64 * 2 ^ 256 ≤ MAX_U512 := by decide +kernel
  obtain ⟨weights, folded, sum⟩ := addWeights_ok ∅ weighs (by
    rw [none, Nat.zero_add]
    exact Nat.le_trans together room)
  rw [none, Nat.zero_add] at sum
  have heavy : (weights.toList.map Prod.snd).sum ≤ 2 ^ 64 * 2 ^ 256 := Nat.le_trans sum together
  have totals := saturatingSum_eq (weights.toList.map Prod.snd) 0 (by
    rw [Nat.zero_add]
    exact Nat.le_trans heavy room)
  rw [Nat.zero_add] at totals
  have affordable : checkedAdd (blockSubsidy height) fees ≠ Option.none := by
    rw [checkedAdd_of_lt (by omega)]
    exact Option.some_ne_none _
  have base' := checkedAdd_of_lt (a := finderBase (blockSubsidy height)) (b := fees) (by omega)
  unfold rewardAllocation
  dsimp only
  rw [if_neg (not_or.mpr ⟨UInt64.not_lt.mpr money, affordable⟩)]
  simp only [bind_ok]
  by_cases nothing : blockSubsidy height - finderBase (blockSubsidy height) = 0 ∨
      (weights.toList.map Prod.snd).sum = 0
  · have first := checkedAdd_of_lt (a := finderBase (blockSubsidy height))
      (b := blockSubsidy height - finderBase (blockSubsidy height)) (by omega)
    have firsts := checkedAdd_some first
    have second := checkedAdd_of_lt (a := finderBase (blockSubsidy height) +
      (blockSubsidy height - finderBase (blockSubsidy height))) (b := fees) (by omega)
    refine ⟨⟨finderBase (blockSubsidy height) +
      (blockSubsidy height - finderBase (blockSubsidy height)) + fees, []⟩, weights, folded, ?_⟩
    rw [totals, if_pos nothing, first, Option.bind_some, second]
    rfl
  · obtain ⟨_, something⟩ := not_or.mp nothing
    obtain ⟨rewards, shared, paid⟩ := splitPool_succeeds
      (blockSubsidy height - finderBase (blockSubsidy height)) rfl
      (Nat.pos_of_ne_zero something) (by omega) (by
        calc (blockSubsidy height - finderBase (blockSubsidy height)).toNat *
              (weights.toList.map Prod.snd).sum ≤ 2 ^ 30 * (2 ^ 64 * 2 ^ 256) :=
                Nat.mul_le_mul (by omega) heavy
          _ ≤ MAX_U512 := by decide +kernel)
    have finders := checkedAdd_some base'
    have balanced : (RewardAllocation.mk (finderBase (blockSubsidy height) + fees) rewards).total =
        blockSubsidy height + fees := by
      apply UInt64.toNat_inj.mp
      rw [total_toNat]
      dsimp only
      rw [finders, paid, pool, UInt64.toNat_add]
      have whole : (finderBase (blockSubsidy height)).toNat + fees.toNat +
          ((blockSubsidy height).toNat - (finderBase (blockSubsidy height)).toNat) =
            (blockSubsidy height).toNat + fees.toNat := by omega
      rw [whole]
    refine ⟨⟨finderBase (blockSubsidy height) + fees, rewards⟩, weights, folded, ?_⟩
    rw [totals, if_neg nothing]
    simp only [bind_ok, okOr_ok]
    refine ⟨rewards, shared, _, base', ?_⟩
    rw [if_neg (by rw [Decidable.not_not]; exact balanced)]
    rfl

end ParitrNode
