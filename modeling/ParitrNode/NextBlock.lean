import ParitrNode.Conservation
import ParitrNode.RewardPayout
import ParitrNode.ShareWork

/-!
The state transition of the next block never fails for a money reason: the
rewards still owed at the tip leave room for the next subsidy and all fees.
-/

namespace ParitrNode
open ByteCodec OrderedMap Checked

/-! Lists of rewards that owe each address at most what another list owes it. -/

theorem owedTotal_eq_sum (rewards : List (Address × UInt64)) {addresses : Finset Address}
    (cover : ∀ entry ∈ rewards, entry.1 ∈ addresses) :
    owedTotal rewards = ∑ address ∈ addresses, owedTo rewards address := by
  induction rewards with
  | nil => exact (Finset.sum_eq_zero (fun _ _ => rfl)).symm
  | cons entry rest ih =>
    have first := cover entry List.mem_cons_self
    rw [owedTotal_cons, ih (fun other member => cover other (List.mem_cons_of_mem _ member))]
    simp only [owedTo_cons]
    rw [Finset.sum_add_distrib, Finset.sum_ite_eq, if_pos first]

theorem owedTotal_mono {first second : List (Address × UInt64)}
    (below : ∀ address, owedTo first address ≤ owedTo second address) :
    owedTotal first ≤ owedTotal second := by
  let addresses := ((first ++ second).map Prod.fst).toFinset
  have cover : ∀ entry ∈ first ++ second, entry.1 ∈ addresses :=
    fun entry member => List.mem_toFinset.mpr (List.mem_map.mpr ⟨entry, member, rfl⟩)
  rw [owedTotal_eq_sum first (fun entry member => cover entry (List.mem_append_left _ member)),
    owedTotal_eq_sum second (fun entry member => cover entry (List.mem_append_right _ member))]
  exact Finset.sum_le_sum (fun address _ => below address)

theorem owedTotal_maturing_le (state : LedgerState) (maturity : UInt64) :
    owedTotal (state.maturing maturity) ≤ state.totalPending := by
  unfold owedTotal LedgerState.maturing LedgerState.totalPending total
  rw [List.map_map]
  exact (List.filter_sublist.map _).sum_le_sum (fun _ _ => Nat.zero_le _)

/-! The subsidy does not grow. -/

theorem blockSubsidy_antitone {first second : UInt64} (above : 0 < first.toNat)
    (le : first.toNat ≤ second.toNat) :
    (blockSubsidy second).toNat ≤ (blockSubsidy first).toNat := by
  have fewer : (first.toNat - 1) / 1600000 ≤ (second.toNat - 1) / 1600000 :=
    Nat.div_le_div_right (by omega)
  have power : 2 ^ ((first.toNat - 1) / 1600000) ≤ 2 ^ ((second.toNat - 1) / 1600000) :=
    Nat.pow_le_pow_right (by decide) fewer
  have quotient : 1000000000 / 2 ^ ((second.toNat - 1) / 1600000) ≤
      1000000000 / 2 ^ ((first.toNat - 1) / 1600000) :=
    Nat.div_le_div_left power (Nat.pow_pos (by decide))
  rw [blockSubsidy_toNat, blockSubsidy_toNat, if_neg (by omega), if_neg (by omega)]
  omega

variable [Crypto]

/-! The reward window of a valid history. -/

omit [Crypto] in
theorem nextBits_weight (history : List Block) :
    ∃ weight, workshareWeight (nextBits history) = .ok weight := by
  obtain ⟨target, read, _⟩ := nextBits_target history
  exact workshareWeight_open read

namespace ValidHistory

variable {pow : PowVerifier} {history : List Block} {state : LedgerState}

theorem shares_weigh (valid : ValidHistory pow history state) :
    ∀ block ∈ history, block.workshareWitness.workshares.length ≤ 2 ^ 22 ∧
      ∀ share ∈ block.workshareWitness.workshares,
        ∃ weight, workshareWeight share.candidateHeader.bits = .ok weight := by
  induction valid with
  | genesis =>
    intro block member
    rw [List.mem_singleton.mp member]
    exact ⟨Nat.zero_le _, fun share inside => nomatch inside⟩
  | @extend history state next last now earlier above accepted ih =>
    intro block member
    rcases List.mem_append.mp member with before | same
    · exact ih block before
    · rw [List.mem_singleton.mp same]
      obtain ⟨_, _, _, _, _, checks, _⟩ := accepted
      constructor
      · have size := (validateWitnessShape_ok_iff.mp checks.witnessShape).size
        have items := length_le_flatMap (fun share : Workshare => Writer.bytes share.consensusEncode)
          last.workshareWitness.workshares (fun share _ => by rw [Writer.bytes_length]; omega)
        unfold WorkshareWitness.consensusEncode at size
        simp only [List.length_append, MAX_WORKSHARE_WITNESS_BYTES] at size
        omega
      · intro share inside
        rw [validateWorkshares_bits checks.workshares share inside]
        exact nextBits_weight history

theorem window_weighs (valid : ValidHistory pow history state) :
    (∀ share ∈ windowShares history,
      ∃ weight, workshareWeight share.candidateHeader.bits = .ok weight) ∧
      (windowShares history).length ≤ 2 ^ 64 := by
  have each : ∀ block ∈ rewardWindow history, block ∈ history :=
    fun block member => List.mem_of_mem_drop member
  constructor
  · intro share member
    obtain ⟨block, inside, listed⟩ := List.mem_flatMap.mp member
    exact (valid.shares_weigh block (each block inside)).2 share listed
  · exact Nat.le_trans
      (windowShares_length fun block inside => (valid.shares_weigh block (each block inside)).1)
      (by decide)

/-! What the tip's own reward leaves for the next block. -/

/-- After maturation for the next height the reward of the tip is still owed. -/
theorem tip_reward_owed (valid : ValidHistory pow history state) {height : UInt64}
    (next : height.toNat = history.length) {maturedState : LedgerState}
    (moved : matured state height = .ok maturedState) (long : 1 < history.length) :
    (blockSubsidy height).toNat ≤ maturedState.totalPending := by
  cases valid with
  | genesis =>
    simp only [List.length_singleton] at long
    omega
  | @extend history before state block now earlier above accepted =>
    have position := earlier.nextHeight above accepted
    obtain ⟨_, _, _, claim, transition, checks, rfl⟩ := accepted
    obtain ⟨maturity, later, moves⟩ := transition_moves checks.transitionOk
    obtain ⟨_, _, _, _, steps⟩ := transitionForCandidate_ok_iff.mp checks.transitionOk
    have paid := rewardAllocation_total steps.allocationOk
    obtain ⟨_, kept, _, _⟩ := LedgerState.matured_ok moved
    rw [List.length_append, List.length_singleton] at next
    have apart : maturity ≠ height := by
      intro same
      rw [same] at later
      omega
    have owed : ∀ address,
        owedTo ((claim.finder, transition.allocation.finderAmount) ::
          transition.allocation.workshareRewards) address ≤
            owedTo (maturedState.maturing maturity) address := by
      intro address
      rw [LedgerState.owedTo_maturing, kept, if_neg apart, moves.pending, if_pos rfl, owedTo_cons]
      unfold rewardTo
      dsimp only
      omega
    have sum := owedTotal_mono owed
    have part := owedTotal_maturing_le maturedState maturity
    have positive : block.header.height.toNat ≠ 0 := by
      intro zero
      exact above (UInt64.toNat_inj.mp zero)
    have less : (blockSubsidy height).toNat ≤ (blockSubsidy block.header.height).toNat :=
      blockSubsidy_antitone (by omega) (by omega)
    rw [owedTotal_cons] at sum
    dsimp only at sum
    omega

theorem next_reward_fits (valid : ValidHistory pow history state)
    (supply : state.supply ≤ MAX_MONEY.toNat) {height : UInt64}
    (next : height.toNat = history.length) {maturedState : LedgerState}
    (moved : matured state height = .ok maturedState) {fees : Nat}
    (covered : fees ≤ maturedState.totalBalance) :
    (blockSubsidy height).toNat + fees ≤ MAX_MONEY.toNat := by
  obtain ⟨_, _, kept, _⟩ := LedgerState.matured_ok moved
  rcases Nat.lt_or_ge 1 history.length with long | short
  · have owed := valid.tip_reward_owed next moved long
    unfold LedgerState.supply at *
    omega
  · have bound := valid.supply_bound
    have subsidy := blockSubsidy_le height
    have range : MAX_MONEY.toNat = 2 ^ 62 - 1 := rfl
    rw [show history.length - 1 = 0 by omega, Nat.zero_mul] at bound
    unfold LedgerState.supply at *
    omega

/-- Timestamps grow, so heights stay far below 2^64. -/
theorem length_bound (valid : ValidHistory pow history state) :
    history.length + 1000 < 2 ^ 64 := by
  have nonempty := List.length_pos_iff.mpr valid.nonempty
  have first : history[0]? = some Block.genesis := by
    rw [← List.head?_eq_getElem?]
    exact valid.head
  have inside : 0 + (history.length - 1) < history.length := by omega
  have last := List.getElem?_eq_getElem inside
  have apart := valid.timestamp_add first last
  have top := history[0 + (history.length - 1)].header.timestamp.toNat_lt
  have start : Block.genesis.header.timestamp.toNat = 1788984000 := rfl
  omega

theorem nothing_owed (valid : ValidHistory pow history state) {height maturity : UInt64}
    (next : height.toNat = history.length) (later : maturity.toNat = height.toNat + 100)
    (address : Address) : state.pendingAt maturity address = 0 := by
  have nonempty := List.length_pos_iff.mpr valid.nonempty
  rw [valid.closedForm.pending, if_neg (by omega)]

end ValidHistory

omit [Crypto] in
theorem owedTo_le_total (rewards : List (Address × UInt64)) (address : Address) :
    owedTo rewards address ≤ owedTotal rewards := by
  induction rewards with
  | nil => exact Nat.le_refl _
  | cons entry rest ih =>
    rw [owedTo_cons, owedTotal_cons]
    split
    · omega
    · omega

theorem scheduleRewards_succeeds {maturity : UInt64} {rewards : List (Address × UInt64)}
    {state : LedgerState} (bound : ∀ address,
      state.pendingAt maturity address + owedTo rewards address ≤ MAX_MONEY.toNat) :
    ∃ next, scheduleRewards maturity state rewards = .ok next := by
  induction rewards generalizing state with
  | nil => exact ⟨state, rfl⟩
  | cons entry rest ih =>
    have own := bound entry.1
    rw [owedTo_cons, if_pos rfl] at own
    obtain ⟨middle, first⟩ :=
      LedgerState.scheduleReward_succeeds state maturity entry.1 entry.2 (by omega)
    have posted := LedgerState.scheduleReward_ok first
    obtain ⟨next, later⟩ := ih (by
      intro address
      have before := bound address
      rw [owedTo_cons] at before
      rw [posted.pendingAt]
      by_cases same : address = entry.1
      · rw [if_pos ⟨rfl, same⟩]
        rw [if_pos same.symm] at before
        omega
      · rw [if_neg (fun both => same both.2)]
        omega)
    exact ⟨next, bind_ok.mpr ⟨middle, first, later⟩⟩

theorem ValidHistory.transition_succeeds {pow : PowVerifier} {history : List Block}
    {state : LedgerState} (valid : ValidHistory pow history state)
    (supply : state.supply ≤ MAX_MONEY.toNat) {height : UInt64}
    (next : height.toNat = history.length) {maturedState : LedgerState}
    (moved : matured state height = .ok maturedState) {transactions : List Transaction}
    {applied : LedgerState × UInt64} (applies : applyTransactions maturedState transactions = .ok applied)
    (finder : Address) :
    ∃ allocation, rewardAllocation height finder applied.2 history = .ok allocation ∧
      ∀ claim : RewardClaim, claim.finder = finder → claim.amount = allocation.finderAmount →
        ∃ final, transitionForCandidate height claim transactions history state =
          .ok ⟨final, allocation, applied.2⟩ := by
  obtain ⟨_, pending, total⟩ := applyFrom_moves applies
  obtain ⟨_, kept, _, _⟩ := LedgerState.matured_ok moved
  rw [UInt64.toNat_zero, Nat.add_zero] at total
  have money := valid.next_reward_fits supply next moved (show applied.2.toNat ≤ _ by omega)
  obtain ⟨weighs, few⟩ := valid.window_weighs
  obtain ⟨allocation, allocated⟩ := rewardAllocation_succeeds height finder
    (UInt64.le_iff_toNat_le.mpr (show applied.2.toNat ≤ _ by omega)) weighs few
  refine ⟨allocation, allocated, ?_⟩
  intro claim own amount
  have paid := rewardAllocation_total allocated
  have long := valid.length_bound
  have lag : REWARD_MATURITY.toNat = 100 := rfl
  have added := checkedAdd_of_lt (a := height) (b := REWARD_MATURITY) (by omega)
  have later := checkedAdd_some added
  have none : ∀ address, applied.1.pendingAt (height + REWARD_MATURITY) address = 0 := by
    intro address
    have same : applied.1.pendingAt (height + REWARD_MATURITY) address =
        maturedState.pendingAt (height + REWARD_MATURITY) address := by
      unfold LedgerState.pendingAt
      rw [pending]
    rw [same, kept, valid.nothing_owed next (by omega), ite_self]
  obtain ⟨finderState, first⟩ := LedgerState.scheduleReward_succeeds applied.1
    (height + REWARD_MATURITY) claim.finder allocation.finderAmount (by rw [none]; omega)
  have posted := LedgerState.scheduleReward_ok first
  obtain ⟨final, rest⟩ := scheduleRewards_succeeds (show ∀ address,
      finderState.pendingAt (height + REWARD_MATURITY) address +
        owedTo allocation.workshareRewards address ≤ MAX_MONEY.toNat by
    intro address
    have part := owedTo_le_total allocation.workshareRewards address
    rw [posted.pendingAt, none]
    split
    · omega
    · omega)
  refine ⟨final, transitionForCandidate_ok_iff.mpr ⟨maturedState, applied.1,
    height + REWARD_MATURITY, finderState, ?_⟩⟩
  exact
    { maturedOk := moved
      appliedOk := applies
      allocationOk := own ▸ allocated
      claimAmount := amount
      maturityOk := added
      finderOk := first
      sharesOk := rest }

end ParitrNode
