import ParitrNode.FundedChain

/-!
Empty blocks of many finders. Each reward that has matured is the balance of
the finder of its block.
-/

namespace ParitrNode
open ByteCodec OrderedMap Checked

section

variable [Crypto]

theorem BuiltOn.reward_other {history : List Block} {finder : Address} {nonce : UInt64}
    {block : Block} (built : BuiltOn history finder nonce block) (quiet : windowShares history = [])
    (address : Address) : blockReward history block address =
      if finder = address then (blockSubsidy (UInt64.ofNat history.length)).toNat else 0 := by
  obtain ⟨claim, present, rfl⟩ := built.claim
  have same : UInt64.ofNat history.length = block.header.height := by
    rw [← built.height, UInt64.ofNat_toNat]
  unfold blockReward
  rw [present, built.transactions]
  rw [show templateFees [] = .ok 0 from rfl]
  dsimp only
  rw [rewardAllocation_alone _ _ quiet, same]
  rfl

structure Rotating (pow : PowVerifier) (finders : Nat → Address) (chain : Chain) : Prop where
  reachable : chain.Reachable pow
  scheduled : OnSchedule chain.blocks
  work : chain.cumulativeWork = chain.blocks.length * 16384
  rewards : ∀ (index : Nat) (address : Address), 1 ≤ index → index < chain.blocks.length →
    rewardAt chain.blocks index address =
      if finders index = address then (blockSubsidy (UInt64.ofNat index)).toNat else 0
  bare : ∀ block ∈ chain.blocks, block.transactions = []

theorem reachable_rotating {pow : PowVerifier} {nonce : UInt64}
    (heights : ∀ first second : BlockHeader, first.id = second.id → first.height = second.height)
    (lenient : LenientAt pow nonce) (finders : Nat → Address) {count : Nat} (short : count ≤ 2 ^ 32) :
    ∃ chain : Chain, Rotating pow finders chain ∧ chain.blocks.length = count + 1 := by
  induction count with
  | zero =>
    refine ⟨Chain.genesis, ⟨.genesis, onSchedule_genesis, ?_, ?_, ?_⟩, rfl⟩
    · rw [genesis_work, targetWork_launch]
      exact (Nat.one_mul 16384).symm
    · intro index address first last
      change index < 1 at last
      omega
    · intro block member
      cases List.mem_singleton.mp member
      rfl
  | succ count ih =>
    obtain ⟨chain, rotating, length⟩ := ih (by omega)
    obtain ⟨block, next, _, built, accepted⟩ :=
      nextBlock_ok rotating.reachable.valid rotating.scheduled (by omega) (finders (count + 1)) nonce
    have clock : latest.toNat = 2 ^ 64 - 1 := rfl
    obtain ⟨grown, reached, blocks, _, work⟩ := rotating.reachable.grow heights rotating.work (by omega)
      built.height built.previous built.bits (accepted latest lenient (by omega))
    refine ⟨grown, ⟨reached, ?_, work, ?_, ?_⟩, ?_⟩
    · rw [blocks]
      exact rotating.scheduled.snoc built
    · intro index address first last
      rw [blocks] at last ⊢
      rw [List.length_append, List.length_singleton] at last
      rcases Nat.lt_or_ge index chain.blocks.length with earlier | new
      · rw [rewardAt_append earlier, rotating.rewards index address first earlier]
      · have same : index = chain.blocks.length := by omega
        rw [same, rewardAt_length, built.reward_other rotating.scheduled.windowShares, length]
    · intro other member
      rw [blocks] at member
      cases List.mem_append.mp member with
      | inl inside => exact rotating.bare other inside
      | inr new => rw [List.mem_singleton.mp new, built.transactions]
    · rw [blocks, List.length_append, List.length_singleton, length]

omit [Crypto] in
theorem blockSubsidy_ge {height : UInt64} (above : 0 < height.toNat) :
    50000000 ≤ (blockSubsidy height).toNat := by
  rw [blockSubsidy_toNat, if_neg (Nat.ne_of_gt above)]
  exact Nat.le_max_right _ _

theorem Rotating.balance {pow : PowVerifier} {finders : Nat → Address} {chain : Chain}
    (rotating : Rotating pow finders chain) {index : Nat} (positive : 1 ≤ index)
    (matured : index + 100 < chain.blocks.length)
    (apart : ∀ other, 1 ≤ other → other + 100 < chain.blocks.length → finders other = finders index →
      other = index) :
    chain.state.balanceOf (finders index) = (blockSubsidy (UInt64.ofNat index)).toNat := by
  have held := rotating.reachable.balance (finders index)
  have empty : chain.blocks.flatMap Block.transactions = [] := List.flatMap_eq_nil_iff.mpr rotating.bare
  rw [empty, rotating.reachable.height_eq] at held
  have paid : chain.state.balanceOf (finders index) =
      ∑ other ∈ Finset.Icc 1 (chain.blocks.length - 1 - 100), rewardAt chain.blocks other (finders index) :=
    held
  rw [paid, Finset.sum_eq_single index]
  · rw [rotating.rewards index _ positive (by omega), if_pos rfl]
  · intro other inside different
    rw [Finset.mem_Icc] at inside
    rw [rotating.rewards other _ inside.1 (by omega), if_neg]
    exact fun same => different (apart other inside.1 (by omega) same)
  · intro outside
    rw [Finset.mem_Icc] at outside
    omega

theorem Rotating.nonce {pow : PowVerifier} {finders : Nat → Address} {chain : Chain}
    (rotating : Rotating pow finders chain) (address : Address) : nonceOf chain.state address = 0 :=
  rotating.reachable.valid.nonceOf_bare (List.flatMap_eq_nil_iff.mpr rotating.bare) address

end

/-! One address for each number. -/

/-- The address whose key hash spells a number. -/
def member (number : Nat) : Address := ⟨FixedBytes.ofNat 20 number⟩

theorem member_injective {first second : Nat} (small : first < 256 ^ 20) (small' : second < 256 ^ 20)
    (same : member first = member second) : first = second :=
  leBytes_injective small small' (congrArg (fun address : Address => address.keyHash.bytes) same)

end ParitrNode
