import ParitrNode.RewardPayout
import ParitrNode.ShareWork

/-!
What the reward split pays: every miner of the window its proportional floor or
one unit more, the units going to the largest remainders. The order of the
shares and the finder do not matter.
-/

namespace ParitrNode
open OrderedMap Checked Apportionment

/-! The leftover units. -/

def Portion.raised (portion : Portion) : Portion := { portion with amount := portion.amount + 1 }

theorem addUnits_eq (count : Nat) (portions : List Portion) : addUnits count portions =
    (portions.take count).map Portion.raised ++ portions.drop count := by
  induction portions generalizing count with
  | nil =>
    cases count with
    | zero => rfl
    | succ count => rfl
  | cons portion rest ih =>
    cases count with
    | zero => rfl
    | succ count =>
      rw [addUnits, ih]
      rfl

/-- The larger remainder is raised first, then the lower address. -/
def Portion.Before (first second : Portion) : Prop :=
  second.remainder < first.remainder ∨
    (first.remainder = second.remainder ∧ compare first.address second.address = Ordering.lt)

theorem byRemainder_sorted (portions : List Portion) :
    (portions.mergeSort byRemainder).Pairwise (fun first second => byRemainder first second = true) := by
  let larger : Portion → Portion → Ordering := fun left right => compare right.remainder left.remainder
  have remainders : Std.TransCmp larger := @Std.TransCmp.opposite _ (compareOn Portion.remainder) _
  exact KeyOrder.sorted_mergeSort (compareLex larger (compareOn Portion.address)) portions

theorem byRemainder_before {first second : Portion} (ranked : byRemainder first second = true)
    (apart : first.address ≠ second.address) : first.Before second := by
  unfold byRemainder at ranked
  cases remainders : compare second.remainder first.remainder with
  | lt => exact Or.inl (Nat.compare_eq_lt.mp remainders)
  | eq =>
    rw [remainders] at ranked
    refine Or.inr ⟨(Nat.compare_eq_eq.mp remainders).symm, ?_⟩
    cases addresses : compare first.address second.address with
    | lt => rfl
    | eq => exact absurd (Std.LawfulEqOrd.eq_of_compare addresses) apart
    | gt => rw [addresses] at ranked; cases ranked
  | gt => rw [remainders] at ranked; cases ranked

/-- Every raised portion comes before every portion that is not. -/
theorem raised_before {portions : List Portion}
    (distinct : (portions.map Portion.address).Nodup) {count : Nat} {first second : Portion}
    (raised : first ∈ (portions.mergeSort byRemainder).take count)
    (kept : second ∈ (portions.mergeSort byRemainder).drop count) : first.Before second := by
  have sorted := byRemainder_sorted portions
  have addresses := ((List.mergeSort_perm portions byRemainder).map Portion.address).nodup_iff.mpr
    distinct
  rw [← List.take_append_drop count (portions.mergeSort byRemainder)] at sorted addresses
  rw [List.map_append, List.nodup_append] at addresses
  apply byRemainder_before ((List.pairwise_append.mp sorted).2.2 first raised second kept)
  exact addresses.2.2 _ (List.mem_map_of_mem raised) _ (List.mem_map_of_mem kept)

/-! The list that is paid. -/

theorem nonzeroAmounts_positive {portions : List Portion} :
    ∀ entry ∈ nonzeroAmounts portions, 0 < entry.2.toNat := by
  intro entry member
  obtain ⟨portion, _, paid⟩ := List.mem_filterMap.mp member
  by_cases positive : portion.amount > 0
  · rw [if_pos positive] at paid
    cases paid
    exact UInt64.lt_iff_toNat_lt.mp positive
  · rw [if_neg positive] at paid
    cases paid

theorem nonzeroAmounts_increasing {portions : List Portion}
    (distinct : (portions.map Portion.address).Nodup) :
    (nonzeroAmounts (portions.mergeSort byAddress)).Pairwise
      (fun first second => compare first.1 second.1 = Ordering.lt) := by
  unfold nonzeroAmounts
  rw [List.pairwise_filterMap]
  apply (KeyOrder.increasing_mergeSort distinct).imp
  intro first second below left paid right paid'
  by_cases positive : first.amount > 0
  · by_cases positive' : second.amount > 0
    · rw [if_pos positive] at paid
      rw [if_pos positive'] at paid'
      cases paid
      cases paid'
      exact below
    · rw [if_neg positive'] at paid'
      cases paid'
  · rw [if_neg positive] at paid
    cases paid

theorem owedTo_nonzeroAmounts {portions : List Portion}
    (distinct : (portions.map Portion.address).Nodup) {portion : Portion} (member : portion ∈ portions) :
    owedTo (nonzeroAmounts portions) portion.address = portion.amount.toNat := by
  induction portions with
  | nil => cases member
  | cons first rest ih =>
    rw [List.map_cons, List.nodup_cons] at distinct
    have elsewhere : ∀ address, address ∉ rest.map Portion.address →
        owedTo (nonzeroAmounts rest) address = 0 := by
      intro address absent
      apply owedTo_of_not_mem
      intro listed
      obtain ⟨entry, inside, same⟩ := List.mem_map.mp listed
      obtain ⟨other, present, paid⟩ := List.mem_filterMap.mp inside
      split at paid
      · cases paid
        exact absent (List.mem_map.mpr ⟨other, present, same⟩)
      · cases paid
    have head : owedTo (nonzeroAmounts (first :: rest)) portion.address =
        (if first.address = portion.address then first.amount.toNat else 0) +
          owedTo (nonzeroAmounts rest) portion.address := by
      unfold nonzeroAmounts
      rw [List.filterMap_cons]
      by_cases positive : first.amount > 0
      · rw [if_pos positive]
        exact owedTo_cons (first.address, first.amount) _ portion.address
      · have zero : first.amount.toNat = 0 := by
          rw [gt_iff_lt, UInt64.lt_iff_toNat_lt] at positive
          change ¬0 < first.amount.toNat at positive
          omega
        rw [if_neg positive, zero, ite_self, Nat.zero_add]
    rw [head]
    rcases List.mem_cons.mp member with same | inside
    · rw [same, if_pos rfl, elsewhere first.address distinct.1, Nat.add_zero]
    · have other : first.address ≠ portion.address :=
        fun same => distinct.1 (same ▸ List.mem_map_of_mem inside)
      rw [if_neg other, Nat.zero_add, ih distinct.2 inside]

/-! The split of a pool. -/

theorem floorShares_portions {pool : UInt64} {totalWeight : Nat} {entries : List (Address × Nat)}
    {distributed result : UInt64} {portions : List Portion}
    (split : floorShares pool totalWeight entries distributed = .ok (portions, result)) :
    portions = entries.map (floorPortion pool totalWeight) := by
  induction entries generalizing distributed portions with
  | nil =>
    cases split
    rfl
  | cons entry rest ih =>
    rw [floorShares] at split
    simp only [bind_ok, okOr_ok, Prod.exists] at split
    obtain ⟨portion, one, sum, _, later, total, tail, whole⟩ := split
    unfold portionOf at one
    simp only [guard_ok, Except.ok.injEq] at one
    cases whole
    rw [List.map_cons, ← ih tail, ← one.2]
    rfl

theorem splitPool_shares {pool : UInt64} {entries : List (Address × Nat)} {totalWeight : Nat}
    {rewards : List (Address × UInt64)} (split : splitPool pool entries totalWeight = .ok rewards)
    (distinct : (entries.map Prod.fst).Nodup) (poolBound : pool.toNat + 1 < 2 ^ 64)
    (small : ∀ entry ∈ entries, pool.toNat * entry.2 / totalWeight ≤ pool.toNat) :
    rewards.Pairwise (fun first second => compare first.1 second.1 = Ordering.lt) ∧
      (∀ entry ∈ rewards, 0 < entry.2.toNat) ∧
      (∀ address, address ∉ entries.map Prod.fst → owedTo rewards address = 0) ∧
      ∃ raised kept : List Portion, (∀ first ∈ raised, ∀ second ∈ kept, first.Before second) ∧
        ∀ entry ∈ entries,
          (floorPortion pool totalWeight entry ∈ raised ∧
            owedTo rewards entry.1 = pool.toNat * entry.2 / totalWeight + 1) ∨
          (floorPortion pool totalWeight entry ∈ kept ∧
            owedTo rewards entry.1 = pool.toNat * entry.2 / totalWeight) := by
  unfold splitPool at split
  simp only [bind_ok, okOr_ok, Prod.exists] at split
  obtain ⟨portions, distributed, shares, leftover, _, result⟩ := split
  have floors := floorShares_portions shares
  have addresses : portions.map Portion.address = entries.map Prod.fst := by
    rw [floors, List.map_map]
    rfl
  let ranked := portions.mergeSort byRemainder
  let units := addUnits leftover.toNat ranked
  have parts : units = (ranked.take leftover.toNat).map Portion.raised ++ ranked.drop leftover.toNat :=
    addUnits_eq _ _
  have same : (units.map Portion.address).Perm (entries.map Prod.fst) := by
    have kept : units.map Portion.address = ranked.map Portion.address := by
      have unchanged : Portion.address ∘ Portion.raised = Portion.address := rfl
      rw [parts, List.map_append, List.map_map, unchanged, ← List.map_append, List.take_append_drop]
    rw [kept, ← addresses]
    exact (List.mergeSort_perm portions byRemainder).map _
  have unitsDistinct := same.nodup_iff.mpr distinct
  have sortedDistinct := ((List.mergeSort_perm units byAddress).map Portion.address).nodup_iff.mpr
    unitsDistinct
  have paid : rewards = nonzeroAmounts (units.mergeSort byAddress) := (Except.ok.inj result).symm
  have owed : ∀ portion ∈ units, owedTo rewards portion.address = portion.amount.toNat := by
    intro portion member
    rw [paid]
    exact owedTo_nonzeroAmounts sortedDistinct (List.mem_mergeSort.mpr member)
  refine ⟨?_, ?_, ?_, ranked.take leftover.toNat, ranked.drop leftover.toNat, ?_, ?_⟩
  · rw [paid]
    exact nonzeroAmounts_increasing unitsDistinct
  · rw [paid]
    exact nonzeroAmounts_positive
  · intro address absent
    apply owedTo_of_not_mem
    intro listed
    apply absent
    rw [paid] at listed
    obtain ⟨entry, inside, rfl⟩ := List.mem_map.mp listed
    obtain ⟨portion, present, amount⟩ := List.mem_filterMap.mp inside
    split at amount
    · cases amount
      exact same.mem_iff.mp (List.mem_map_of_mem (List.mem_mergeSort.mp present))
    · cases amount
  · intro first raised second kept
    exact raised_before (addresses ▸ distinct) raised kept
  · intro entry member
    have amount := floorPortion_amount (small entry member)
    have bound := small entry member
    have listed : floorPortion pool totalWeight entry ∈ ranked := by
      rw [List.mem_mergeSort, floors]
      exact List.mem_map_of_mem member
    rw [← List.take_append_drop leftover.toNat ranked] at listed
    rcases List.mem_append.mp listed with first | later
    · have present : (floorPortion pool totalWeight entry).raised ∈ units := by
        rw [parts]
        exact List.mem_append_left _ (List.mem_map_of_mem first)
      have unit : ((floorPortion pool totalWeight entry).amount + 1).toNat =
          (floorPortion pool totalWeight entry).amount.toNat + 1 := toNat_add (by
        rw [amount]
        exact Nat.lt_of_le_of_lt (Nat.add_le_add_right bound 1) poolBound)
      exact Or.inl ⟨first, (owed _ present).trans (unit.trans (by rw [amount]))⟩
    · have present : floorPortion pool totalWeight entry ∈ units := by
        rw [parts]
        exact List.mem_append_right _ later
      exact Or.inr ⟨later, (owed _ present).trans amount⟩

/-! The weights of the window. -/

def shareWeight (share : Workshare) : Nat :=
  (workshareWeight share.candidateHeader.bits).toOption.getD 0

def minerWeight (shares : List Workshare) (address : Address) : Nat :=
  (shares.map fun share => if share.miner = address then shareWeight share else 0).sum

def sharesWeight (shares : List Workshare) : Nat := (shares.map shareWeight).sum

theorem minerWeight_cons (share : Workshare) (rest : List Workshare) (address : Address) :
    minerWeight (share :: rest) address =
      (if share.miner = address then shareWeight share else 0) + minerWeight rest address := by
  unfold minerWeight
  rw [List.map_cons, List.sum_cons]

theorem sharesWeight_cons (share : Workshare) (rest : List Workshare) :
    sharesWeight (share :: rest) = shareWeight share + sharesWeight rest := by
  unfold sharesWeight
  rw [List.map_cons, List.sum_cons]

theorem shareWeight_eq {share : Workshare} {weight : Nat}
    (weighs : workshareWeight share.candidateHeader.bits = .ok weight) : shareWeight share = weight := by
  unfold shareWeight
  rw [weighs]
  rfl

theorem addWeights_get {shares : List Workshare} {weights next : BTreeMap Address Nat}
    (weighs : ∀ share ∈ shares, ∃ weight, workshareWeight share.candidateHeader.bits = .ok weight)
    (room : total id weights + shares.length * 2 ^ 256 ≤ MAX_U512)
    (folded : shares.foldlM addWeight weights = .ok next) :
    total id next = total id weights + sharesWeight shares ∧ ∀ address : Address,
      (next[address]?).getD 0 = (weights[address]?).getD 0 + minerWeight shares address ∧
      (next[address]? ≠ none ↔ weights[address]? ≠ none ∨ address ∈ shares.map Workshare.miner) := by
  induction shares generalizing weights with
  | nil =>
    cases folded
    refine ⟨rfl, fun address => ⟨rfl, ?_⟩⟩
    rw [List.map_nil]
    exact ⟨Or.inl, fun either => either.resolve_right List.not_mem_nil⟩
  | cons share rest ih =>
    obtain ⟨weight, weighed⟩ := weighs share List.mem_cons_self
    have bound := workshareWeight_le weighed
    have same := shareWeight_eq weighed
    rw [List.length_cons] at room
    obtain ⟨middle, added, sum⟩ := addWeight_ok weights weighed (by omega)
    rw [List.foldlM_cons, added] at folded
    obtain ⟨totals, each⟩ := ih (fun other member => weighs other (List.mem_cons_of_mem _ member))
      (by omega) folded
    have own : (weights[share.miner]?).getD 0 ≤ total id weights := by
      cases present : weights[share.miner]? with
      | none => exact Nat.zero_le _
      | some value => exact weight_le_total id present
    have exactly : saturatingAddU512 ((weights[share.miner]?).getD 0) weight =
        (weights[share.miner]?).getD 0 + weight := Nat.min_eq_left (by omega)
    have written : middle = weights.insert share.miner ((weights[share.miner]?).getD 0 + weight) := by
      unfold addWeight at added
      rw [weighed] at added
      rw [← exactly]
      exact (Except.ok.inj added).symm
    refine ⟨by rw [totals, sum, sharesWeight_cons, same, Nat.add_assoc], fun address => ?_⟩
    rw [(each address).1, (each address).2, written, get_insert, minerWeight_cons, same,
      List.map_cons, List.mem_cons]
    by_cases mined : share.miner = address
    · rw [if_pos mined, if_pos mined, Option.getD_some, ← mined]
      exact ⟨Nat.add_assoc _ _ _, by simp⟩
    · rw [if_neg mined, if_neg mined, Nat.zero_add]
      refine ⟨rfl, ?_⟩
      have other : ¬address = share.miner := fun equal => mined equal.symm
      simp only [other, false_or]

theorem addWeights_entries {shares : List Workshare} {weights : BTreeMap Address Nat}
    (weighs : ∀ share ∈ shares, ∃ weight, workshareWeight share.candidateHeader.bits = .ok weight)
    (room : shares.length * 2 ^ 256 ≤ MAX_U512) (folded : shares.foldlM addWeight ∅ = .ok weights) :
    (weights.toList.map Prod.snd).sum = sharesWeight shares ∧
      (∀ address, address ∈ weights.toList.map Prod.fst ↔ address ∈ shares.map Workshare.miner) ∧
      ∀ entry ∈ weights.toList, entry.2 = minerWeight shares entry.1 := by
  have none : total id (∅ : BTreeMap Address Nat) = 0 := total_empty _
  obtain ⟨totals, each⟩ := addWeights_get weighs (by rw [none, Nat.zero_add]; exact room) folded
  rw [none, Nat.zero_add] at totals
  refine ⟨totals, fun address => ?_, fun entry member => ?_⟩
  · have listed := (each address).2
    rw [get_empty] at listed
    simp only [ne_eq, not_true_eq_false, false_or] at listed
    rw [← listed, List.mem_map]
    constructor
    · intro ⟨entry, member, same⟩
      rw [← same, mem_toList.mp member]
      exact Option.some_ne_none _
    · intro present
      obtain ⟨weight, stored⟩ := Option.ne_none_iff_exists'.mp present
      exact ⟨(address, weight), mem_toList.mpr stored, rfl⟩
  · have stored := (each entry.1).1
    rw [mem_toList.mp member, get_empty, Option.getD_some, Option.getD_none, Nat.zero_add] at stored
    exact stored

theorem addWeights_total {shares : List Workshare} {weights : BTreeMap Address Nat}
    (weighs : ∀ share ∈ shares, ∃ weight, workshareWeight share.candidateHeader.bits = .ok weight)
    (room : shares.length * 2 ^ 256 ≤ MAX_U512) (folded : shares.foldlM addWeight ∅ = .ok weights) :
    total id weights ≤ shares.length * 2 ^ 256 := by
  have none : total id (∅ : BTreeMap Address Nat) = 0 := total_empty _
  obtain ⟨next, again, bound⟩ := addWeights_ok ∅ weighs (by rw [none, Nat.zero_add]; exact room)
  rw [folded] at again
  rw [none, Nat.zero_add] at bound
  rw [Except.ok.inj again]
  exact bound

theorem sharesWeight_pos {shares : List Workshare} (some : shares ≠ [])
    (weighs : ∀ share ∈ shares, 0 < shareWeight share) : 0 < sharesWeight shares := by
  cases shares with
  | nil => exact absurd rfl some
  | cons share rest =>
    rw [sharesWeight_cons]
    exact Nat.add_pos_left (weighs share List.mem_cons_self) _

theorem minerWeight_le (shares : List Workshare) (address : Address) :
    minerWeight shares address ≤ sharesWeight shares := by
  apply List.sum_le_sum
  intro share _
  split
  · exact Nat.le_refl _
  · exact Nat.zero_le _

def addEntry (weights : BTreeMap Address Nat) (entry : Address × UInt32) :
    Except ConsensusError (BTreeMap Address Nat) := do
  let weight ← workshareWeight entry.2
  return weights.insert entry.1 (saturatingAddU512 ((weights[entry.1]?).getD 0) weight)

theorem workshareWeight_error {bits : UInt32} {error : ConsensusError}
    (fails : workshareWeight bits = .error error) : error = .invalidTarget := by
  unfold workshareWeight at fails
  cases shared : workshareBits bits with
  | none =>
    rw [shared] at fails
    cases fails
    rfl
  | some shareBits =>
    rw [shared] at fails
    cases read : bitsToTarget shareBits with
    | none =>
      simp only [okOr_some] at fails
      change (okOr ConsensusError.invalidTarget (bitsToTarget shareBits) >>= _) = _ at fails
      rw [read] at fails
      cases fails
      rfl
    | some target =>
      change (okOr ConsensusError.invalidTarget (bitsToTarget shareBits) >>= _) = _ at fails
      rw [read] at fails
      cases fails

theorem saturatingAddU512_comm (total first second : Nat) :
    saturatingAddU512 (saturatingAddU512 total first) second =
      saturatingAddU512 (saturatingAddU512 total second) first := by
  unfold saturatingAddU512
  omega

theorem insertWeight_comm (weights : BTreeMap Address Nat) {first second : Address}
    (apart : first ≠ second) (left right : Nat) :
    (weights.insert first left).insert second right =
      (weights.insert second right).insert first left := by
  apply OrderedMap.ext
  intro address
  rw [get_insert, get_insert, get_insert, get_insert]
  by_cases same : second = address
  · subst same
    simp [apart]
  · simp [same]

/-- Shares may be added in any order. -/
theorem addEntry_comm (weights : BTreeMap Address Nat) (first second : Address × UInt32) :
    (addEntry weights first >>= fun next => addEntry next second) =
      (addEntry weights second >>= fun next => addEntry next first) := by
  unfold addEntry
  cases left : workshareWeight first.2 with
  | error error =>
    cases right : workshareWeight second.2 with
    | error other =>
      rw [workshareWeight_error left, workshareWeight_error right]
      rfl
    | ok weight => rfl
  | ok weight =>
    cases right : workshareWeight second.2 with
    | error other => rfl
    | ok other =>
      change Except.ok _ = Except.ok _
      congr 1
      by_cases same : first.1 = second.1
      · rw [same, get_insert_self, get_insert_self, Option.getD_some, Option.getD_some,
          saturatingAddU512_comm]
        apply OrderedMap.ext
        intro address
        rw [get_insert, get_insert, get_insert, get_insert]
        split
        · rfl
        · rfl
      · rw [get_insert, get_insert, if_neg same, if_neg (Ne.symm same)]
        exact insertWeight_comm weights same _ _

/-! The whole allocation. -/

/-- How the miners of some shares are paid next to the finder. -/
structure FairSplit (subsidy fees : Nat) (shares : List Workshare) (allocation : RewardAllocation) :
    Prop where
  finder : allocation.finderAmount.toNat = subsidy * 5 / 100 + fees
  increasing : allocation.workshareRewards.Pairwise
    (fun first second => compare first.1 second.1 = Ordering.lt)
  positive : ∀ entry ∈ allocation.workshareRewards, 0 < entry.2.toNat
  whole : owedTotal allocation.workshareRewards = subsidy - subsidy * 5 / 100
  /-- Nobody else is paid. -/
  miners : ∀ address, address ∉ shares.map Workshare.miner →
    owedTo allocation.workshareRewards address = 0
  floors : ∀ address,
    let exactly := (subsidy - subsidy * 5 / 100) * minerWeight shares address
    owedTo allocation.workshareRewards address = exactly / sharesWeight shares ∨
      owedTo allocation.workshareRewards address = exactly / sharesWeight shares + 1
  /-- The extra units go to the largest remainders, and among equals to the lower address. -/
  remainders : ∀ first ∈ shares.map Workshare.miner, ∀ second ∈ shares.map Workshare.miner,
    let exactly := fun address => (subsidy - subsidy * 5 / 100) * minerWeight shares address
    owedTo allocation.workshareRewards first = exactly first / sharesWeight shares + 1 →
    owedTo allocation.workshareRewards second = exactly second / sharesWeight shares →
    exactly second % sharesWeight shares < exactly first % sharesWeight shares ∨
      (exactly first % sharesWeight shares = exactly second % sharesWeight shares ∧
        compare first second = Ordering.lt)

theorem rewardAllocation_cases {height : UInt64} {finder : Address} {fees : UInt64}
    {parentHistory : List Block} {allocation : RewardAllocation}
    (allocated : rewardAllocation height finder fees parentHistory = .ok allocation) :
    let subsidy := blockSubsidy height
    let pool := subsidy - finderBase subsidy
    ∃ weights, (windowShares parentHistory).foldlM addWeight ∅ = .ok weights ∧
      let totalWeight := (weights.toList.map Prod.snd).foldl saturatingAddU512 0
      ((pool = 0 ∨ totalWeight = 0) ∧ allocation.workshareRewards = [] ∨
        ¬(pool = 0 ∨ totalWeight = 0) ∧
          splitPool pool weights.toList totalWeight = .ok allocation.workshareRewards ∧
          allocation.finderAmount.toNat = (finderBase subsidy).toNat + fees.toNat) := by
  intro subsidy pool
  unfold rewardAllocation at allocated
  simp only [guard_ok, bind_ok] at allocated
  obtain ⟨_, weights, folded, split⟩ := allocated
  refine ⟨weights, folded, ?_⟩
  intro totalWeight
  by_cases nothing : pool = 0 ∨ totalWeight = 0
  · rw [if_pos nothing] at split
    simp only [bind_ok, okOr_ok] at split
    obtain ⟨amount, _, result⟩ := split
    rw [← Except.ok.inj result]
    exact Or.inl ⟨nothing, rfl⟩
  · rw [if_neg nothing] at split
    simp only [bind_ok, okOr_ok, guard_ok] at split
    obtain ⟨rewards, shared, finderAmount, added, _, result⟩ := split
    rw [← Except.ok.inj result]
    exact Or.inr ⟨nothing, shared, checkedAdd_some added⟩

theorem minerWeight_absent {shares : List Workshare} {address : Address}
    (absent : address ∉ shares.map Workshare.miner) : minerWeight shares address = 0 := by
  apply List.sum_eq_zero_iff_forall_eq_nat.mpr
  intro value listed
  obtain ⟨share, member, rfl⟩ := List.mem_map.mp listed
  exact if_neg fun same => absent (List.mem_map.mpr ⟨share, member, same⟩)

theorem fairSplit_of_pool {subsidy pool fees : UInt64} {shares : List Workshare}
    {weights : BTreeMap Address Nat} {allocation : RewardAllocation}
    (poolNumber : pool.toNat = subsidy.toNat - subsidy.toNat * 5 / 100)
    (poolBound : pool.toNat + 1 < 2 ^ 64)
    (listed : ∀ address, address ∈ weights.toList.map Prod.fst ↔ address ∈ shares.map Workshare.miner)
    (weighed : ∀ entry ∈ weights.toList, entry.2 = minerWeight shares entry.1)
    (finder : allocation.finderAmount.toNat = subsidy.toNat * 5 / 100 + fees.toNat)
    (whole : owedTotal allocation.workshareRewards = pool.toNat)
    (split : splitPool pool weights.toList (sharesWeight shares) = .ok allocation.workshareRewards) :
    FairSplit subsidy.toNat fees.toNat shares allocation := by
  have small : ∀ entry ∈ weights.toList, pool.toNat * entry.2 / sharesWeight shares ≤ pool.toNat := by
    intro entry member
    rw [weighed entry member]
    apply Nat.div_le_of_le_mul
    rw [Nat.mul_comm (sharesWeight shares)]
    exact Nat.mul_le_mul_left _ (minerWeight_le shares entry.1)
  obtain ⟨increasing, amounts, elsewhere, raised, kept, before, each⟩ :=
    splitPool_shares split (keys_nodup weights) poolBound small
  have own : ∀ address ∈ shares.map Workshare.miner,
      (address, minerWeight shares address) ∈ weights.toList := by
    intro address member
    obtain ⟨entry, inside, same⟩ := List.mem_map.mp ((listed address).mpr member)
    rw [← same, ← weighed entry inside]
    exact inside
  have miners : ∀ address, address ∉ shares.map Workshare.miner →
      owedTo allocation.workshareRewards address = 0 :=
    fun address absent => elsewhere address (fun present => absent ((listed address).mp present))
  refine ⟨finder, increasing, amounts, whole.trans poolNumber, miners, fun address => ?_, ?_⟩
  · rw [← poolNumber]
    by_cases member : address ∈ shares.map Workshare.miner
    · exact (each _ (own address member)).symm.imp And.right And.right
    · rw [minerWeight_absent member, miners address member, Nat.mul_zero]
      exact Or.inl (Nat.zero_div _).symm
  · rw [← poolNumber]
    intro first member second other exactly more floor
    -- the first address is among the raised ones, the second is not
    have left := (each _ (own first member)).resolve_right fun lower =>
      Nat.succ_ne_self _ (more.symm.trans lower.2)
    have right := (each _ (own second other)).resolve_left fun upper =>
      Nat.succ_ne_self _ (upper.2.symm.trans floor)
    exact before _ left.1 _ right.1

/-- The split depends on the miners and bits of the shares, in any order, and on no finder. -/
theorem rewardAllocation_perm (height : UInt64) (finder other : Address) (fees : UInt64)
    {history others : List Block}
    (same : ((windowShares history).map fun share => (share.miner, share.candidateHeader.bits)).Perm
      ((windowShares others).map fun share => (share.miner, share.candidateHeader.bits))) :
    rewardAllocation height finder fees history = rewardAllocation height other fees others := by
  have folds : (windowShares history).foldlM addWeight ∅ = (windowShares others).foldlM addWeight ∅ := by
    have byEntry : ∀ shares : List Workshare, shares.foldlM addWeight ∅ =
        (shares.map fun share => (share.miner, share.candidateHeader.bits)).foldlM addEntry ∅ := by
      intro shares
      rw [List.foldlM_map]
      rfl
    rw [byEntry, byEntry]
    exact foldlM_perm addEntry_comm same ∅
  unfold rewardAllocation
  rw [folds]

section Allocated

variable {height : UInt64} {finder : Address} {fees : UInt64} {history : List Block}
  {allocation : RewardAllocation}

theorem rewardAllocation_fairSplit
    (allocated : rewardAllocation height finder fees history = .ok allocation)
    (weighs : ∀ share ∈ windowShares history,
      ∃ weight, workshareWeight share.candidateHeader.bits = .ok weight)
    (few : (windowShares history).length ≤ 2 ^ 64) (some : windowShares history ≠ []) :
    FairSplit (blockSubsidy height).toNat fees.toNat (windowShares history) allocation := by
  have above : 0 < sharesWeight (windowShares history) := by
    apply sharesWeight_pos some
    intro share member
    obtain ⟨weight, weighed⟩ := weighs share member
    rw [shareWeight_eq weighed]
    exact workshareWeight_pos weighed
  have total := rewardAllocation_total allocated
  obtain ⟨weights, folded, outcome⟩ := rewardAllocation_cases allocated
  have room : (windowShares history).length * 2 ^ 256 ≤ MAX_U512 :=
    Nat.le_trans (Nat.mul_le_mul_right _ few) (by decide +kernel)
  obtain ⟨sum, listed, weighed⟩ := addWeights_entries weighs room folded
  have saturated := saturatingSum_eq (weights.toList.map Prod.snd) 0 (by
    rw [Nat.zero_add]
    exact Nat.le_trans (addWeights_total weighs room folded) room)
  rw [Nat.zero_add, sum] at saturated
  rw [saturated] at outcome
  have bound := blockSubsidy_le height
  have base := finderBase_toNat bound
  have pool : (blockSubsidy height - finderBase (blockSubsidy height)).toNat =
      (blockSubsidy height).toNat - (finderBase (blockSubsidy height)).toNat := by
    apply UInt64.toNat_sub_of_le
    rw [UInt64.le_iff_toNat_le]
    omega
  rcases outcome with ⟨nothing, unpaid⟩ | ⟨_, split, paid⟩
  · -- only the genesis height has no pool
    have empty : blockSubsidy height - finderBase (blockSubsidy height) = 0 :=
      nothing.resolve_right (Nat.ne_of_gt above)
    have none : owedTotal ([] : List (Address × UInt64)) = 0 := rfl
    rw [empty, UInt64.toNat_zero] at pool
    rw [unpaid, none] at total
    have zero : (blockSubsidy height).toNat - (blockSubsidy height).toNat * 5 / 100 = 0 := by omega
    constructor
    · omega
    · rw [unpaid]
      exact List.Pairwise.nil
    · rw [unpaid]
      exact fun entry member => nomatch member
    · rw [unpaid, none, zero]
    · rw [unpaid]
      exact fun _ _ => rfl
    · intro address
      rw [unpaid, zero, Nat.zero_mul]
      exact Or.inl (Nat.zero_div _).symm
    · intro first _ second _ exactly more _
      rw [unpaid] at more
      cases more
  · rw [paid, base] at total
    exact fairSplit_of_pool (by omega) (by omega) listed weighed (by omega) (by omega) split

theorem rewardAllocation_unshared
    (allocated : rewardAllocation height finder fees history = .ok allocation)
    (none : windowShares history = []) : allocation.workshareRewards = [] ∧
      allocation.finderAmount.toNat = (blockSubsidy height).toNat + fees.toNat := by
  have total := rewardAllocation_total allocated
  obtain ⟨weights, folded, outcome⟩ := rewardAllocation_cases allocated
  rw [none] at folded
  cases folded
  rcases outcome with ⟨_, unpaid⟩ | ⟨something, _⟩
  · have zero : owedTotal ([] : List (Address × UInt64)) = 0 := rfl
    rw [unpaid, zero] at total
    exact ⟨unpaid, total⟩
  · apply absurd _ something
    rw [toList_empty]
    exact Or.inr rfl

end Allocated

/-- With valid bits and at most 512 shares in a block the split succeeds, is fair, and stays
the same under any other order of the shares and any other finder. -/
theorem rewardAllocation_fair (height : UInt64) (finder : Address) (fees : UInt64)
    (parentHistory : List Block) (money : fees ≤ MAX_MONEY)
    (bits : ∀ block ∈ parentHistory, ∀ share ∈ block.workshareWitness.workshares,
      ∃ target, bitsToTarget share.candidateHeader.bits = some target)
    (few : ∀ block ∈ parentHistory, block.workshareWitness.workshares.length ≤ 512) :
    ∃ allocation, rewardAllocation height finder fees parentHistory = .ok allocation ∧
      (windowShares parentHistory ≠ [] →
        FairSplit (blockSubsidy height).toNat fees.toNat (windowShares parentHistory) allocation) ∧
      (windowShares parentHistory = [] → allocation.workshareRewards = [] ∧
        allocation.finderAmount.toNat = (blockSubsidy height).toNat + fees.toNat) ∧
      ∀ (other : Address) (others : List Block),
        ((windowShares parentHistory).map fun share => (share.miner, share.candidateHeader.bits)).Perm
          ((windowShares others).map fun share => (share.miner, share.candidateHeader.bits)) →
        rewardAllocation height other fees others = .ok allocation := by
  have weighs : ∀ share ∈ windowShares parentHistory,
      ∃ weight, workshareWeight share.candidateHeader.bits = .ok weight := by
    intro share member
    obtain ⟨block, inside, listed⟩ := List.mem_flatMap.mp member
    obtain ⟨target, read⟩ := bits block (List.mem_of_mem_drop inside) share listed
    exact workshareWeight_open read
  have count : (windowShares parentHistory).length ≤ 2 ^ 64 :=
    Nat.le_trans (windowShares_length fun block inside => few block (List.mem_of_mem_drop inside))
      (by decide)
  obtain ⟨allocation, allocated⟩ := rewardAllocation_succeeds height finder money weighs count
  exact ⟨allocation, allocated, rewardAllocation_fairSplit allocated weighs count,
    rewardAllocation_unshared allocated,
    fun other others same => (rewardAllocation_perm height finder other fees same).symm.trans allocated⟩

def minedBy (byte : UInt8) : Workshare :=
  { version := Workshare.VERSION
    previousWorkshare := Hash32.ZERO
    templateId := Hash32.ZERO
    miner := ⟨⟨List.replicate 20 byte, rfl⟩⟩
    extranonce := 0
    candidateHeader := ⟨1, 1, 1, Hash32.ZERO, Hash32.ZERO, Hash32.ZERO, Hash32.ZERO, 0,
      targetToBits initialTarget, 0⟩ }

def blockOfMiners (miners : List UInt8) : Block :=
  ⟨(minedBy 0).candidateHeader, none, [], ⟨WorkshareWitness.VERSION, [], miners.map minedBy⟩⟩

/-- Three shares of two miners split the first subsidy. -/
theorem rewardAllocation_fair_two : ∃ allocation,
    rewardAllocation 2 (minedBy 3).miner 7 [blockOfMiners [1, 2, 1]] = .ok allocation ∧
      FairSplit 1000000000 7 [minedBy 1, minedBy 2, minedBy 1] allocation := by
  obtain ⟨allocation, allocated, split, _⟩ :=
    rewardAllocation_fair 2 (minedBy 3).miner 7 [blockOfMiners [1, 2, 1]] (by decide)
      (by
        intro block member share listed
        rw [List.mem_singleton.mp member] at listed
        obtain ⟨byte, _, rfl⟩ := List.mem_map.mp listed
        exact ⟨_, bitsToTarget_launch⟩)
      (by
        intro block member
        rw [List.mem_singleton.mp member]
        decide)
  have window : windowShares [blockOfMiners [1, 2, 1]] = [minedBy 1, minedBy 2, minedBy 1] := rfl
  have subsidy : (blockSubsidy 2).toNat = 1000000000 := by decide
  rw [window, subsidy] at split
  exact ⟨allocation, allocated, split (List.cons_ne_nil _ _)⟩

end ParitrNode
