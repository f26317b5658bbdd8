import ParitrNode.FloodedCache
import ParitrNode.ShareAdmission

/-!
The size of a live witness. The pool bounds paths and templates one by one, a
block bounds the encoding of the templates on one path together.
-/

namespace ParitrNode
open ByteCodec OrderedMap Checked KeyOrder

section Shape

variable [Crypto]

theorem witness_length (witness : WorkshareWitness) : witness.consensusEncode.length =
    10 + witness.workshares.length * 263 +
      (witness.templates.map fun template => 4 + template.consensusEncode.length).sum := by
  have templates : (witness.templates.flatMap
      fun template => Writer.bytes template.consensusEncode).length =
        (witness.templates.map fun template => 4 + template.consensusEncode.length).sum := by
    rw [List.length_flatMap]
    congr 1
    apply List.map_congr_left
    intro template _
    exact (Writer.bytes_length _).trans (Nat.add_comm _ _)
  have shares : (witness.workshares.flatMap
      fun share => Writer.bytes share.consensusEncode).length = witness.workshares.length * 263 := by
    rw [flatMap_length_const 263]
    intro share _
    rw [Writer.bytes_length, share.consensusEncode_length]
  simp only [WorkshareWitness.consensusEncode, List.length_append, Writer.u16_length,
    Writer.count_length, templates, shares]
  omega

/-- What the distinct templates a path refers to take in a witness. -/
def referencedBytes (pool : WorksharePool) (path : List Workshare) : Nat :=
  ∑ template ∈ (path.filterMap fun share => pool.templates[share.templateId]?).toFinset,
    (4 + template.consensusEncode.length)

theorem Carries.bytes {pool : WorksharePool} {path : List Workshare} {witness : WorkshareWitness}
    (carries : Carries (fun id => pool.templates[id]?) path witness) :
    (witness.templates.map fun template => 4 + template.consensusEncode.length).sum =
      referencedBytes pool path := by
  unfold referencedBytes
  rw [← List.sum_toFinset _ carries.sorted.nodup]
  apply Finset.sum_congr _ (fun _ _ => rfl)
  ext template
  rw [List.mem_toFinset, List.mem_toFinset, carries.templates, List.mem_filterMap]

variable {pow : PowVerifier} {rule : UInt64 → Workshare → Prop} {now : UInt64} {node : Node}

/-- Everything else about the shape of a stored path holds in every run. -/
theorem LiveRun.shape_iff (run : LiveRun pow rule now node) {share : Workshare}
    {path : List Workshare} (walked : PathTo (fun id => node.workshares.shares[id]?) share path)
    {template : BlockTemplate} (known : node.workshares.templates[share.templateId]? = some template)
    {witness : WorkshareWitness}
    (same : witness = ⟨WorkshareWitness.VERSION, node.workshares.referencedTemplates path, path⟩) :
    validateWitnessShape witness = .ok () ↔
      10 + path.length * 263 + referencedBytes node.workshares path ≤ MAX_WORKSHARE_WITNESS_BYTES := by
  obtain ⟨weight, weighs⟩ := nextBits_weight node.chain.blocks
  have weighed := run.weighed weighs
  have carries := WorksharePool.carries_referenced weighed.filed path
  rw [← same] at carries
  have length := witness_length witness
  rw [carries.workshares, carries.bytes] at length
  rw [validateWitnessShape_ok_iff, ← length]
  constructor
  · intro shape
    exact shape.size
  · intro size
    refine ⟨carries.version, size, carries.canonical weighed.filed ?_, ?_⟩
    · intro other member
      rcases walked.members other member with last | ⟨id, stored⟩
      · rw [last]
        exact ⟨template, known⟩
      · obtain ⟨_, own⟩ := run.settled.rooted id other stored
        exact (WorksharePool.candidateWitness_ok.mp own).2.1
    · intro other member
      obtain ⟨referring, _, stored⟩ := (carries.templates other).mp member
      have shaped := weighed.shape _ _ stored
      exact ⟨shaped.1, shaped.2.1⟩

end Shape

/-! A path of shares on full templates of the funded chain. -/

section Crowded

structure FundedContext (chain : Chain) (context : ShareContext) : Prop where
  settles : @SettlesOn spelled WorkshareWitness.empty chain.blocks chain.state byNonce context
  parent : context.parent = chain.tip
  blockTarget : context.blockTarget = launchTarget
  shareTarget : context.shareTarget = launchShareTarget

theorem Funded.context {chain : Chain} (funded : Funded chain) :
    ∃ context, FundedContext chain context := by
  let _ := spelled
  have last : chain.blocks.getLast? = some chain.tip :=
    List.getLast?_eq_getLast_of_ne_nil chain.nonempty
  have height : (chain.tip.header.height + 1).toNat = chain.blocks.length := by
    rw [funded.height, funded.length]
    rfl
  obtain ⟨seed, seeded⟩ := randomxSeed_found funded.reachable.valid.linked height
  have bits := funded.scheduled.nextBits funded.reachable.valid
  refine ⟨⟨chain.blocks, chain.state, chain.tip, templatesById [], byNonce, seed,
    nextBits chain.blocks, launchTarget, launchShareTarget, medianTimePast chain.blocks, 0⟩,
    ?_, rfl, rfl, rfl⟩
  exact
    { parentLast := last
      seed := seeded
      expectedBits := rfl
      blockTarget := by rw [bits, bitsToTarget_launch]
      shareTarget := ⟨_, by rw [bits, workshareBits_launch], bitsToTarget_share⟩
      history := rfl
      state := rfl
      oracle := rfl
      templates := rfl
      medianTime := rfl }

theorem Funded.share {chain : Chain} (funded : Funded chain) {context : ShareContext}
    (ground : FundedContext chain context) (template : Nat) {count : Nat}
    (short : count ≤ MAX_BLOCK_TRANSACTIONS) {templates : BTreeMap Hash32 BlockTemplate}
    (known : templates[@BlockTemplate.id spelled (@paymentTemplate spelled chain template count)]? =
      some (@paymentTemplate spelled chain template count))
    (previous : Hash32) (before : WorkshareWitness) {timestamp : UInt64}
    (late : 1788990400 < timestamp.toNat) :
    let _ := spelled
    ∃ share, share.previousWorkshare = previous ∧
      share.templateId = (paymentTemplate chain template count).id ∧
      share.candidateHeader.timestamp = timestamp ∧
      ShareChecks { context with templates } previous before share
        (paymentTemplate chain template count) := by
  let _ := spelled
  have valid := funded.reachable.valid
  obtain ⟨state, moved, balance, nonce, money⟩ := funded.ledger
  have limit : MAX_BLOCK_TRANSACTIONS = 4096 := rfl
  have small : count < 2 ^ 64 := by omega
  obtain ⟨applied, applies⟩ := payments_apply template small nonce (by omega) money
  have supply : chain.state.supply ≤ MAX_MONEY.toNat := by
    have bound := valid.supply_bound
    have range : MAX_MONEY.toNat = 2 ^ 62 - 1 := rfl
    have length := funded.length
    omega
  have height : (101 : UInt64).toNat = chain.blocks.length := by
    rw [funded.length]
    rfl
  obtain ⟨allocation, allocated, transitions⟩ :=
    valid.transition_succeeds supply height moved applies LedgerState.addressMin
  let claim : RewardClaim := ⟨RewardClaim.VERSION, 101, LedgerState.addressMin,
    allocation.finderAmount, 0⟩
  obtain ⟨final, transitioned⟩ := transitions claim rfl rfl
  let header : BlockHeader := ⟨HEADER_VERSION, PROTOCOL_VERSION, 101, chain.tip.id,
    merkleRoot (claim.id :: (payments template count).map Transaction.id), final.root, before.root,
    timestamp, nextBits chain.blocks, 0⟩
  let share : Workshare := ⟨Workshare.VERSION, previous, (paymentTemplate chain template count).id,
    LedgerState.addressMin, 0, header⟩
  have next : chain.tip.header.height + 1 = 101 := by
    rw [funded.height]
    rfl
  have rebuilt : shareClaim (paymentTemplate chain template count) share allocation.finderAmount =
      claim := by
    change (⟨RewardClaim.VERSION, chain.tip.header.height + 1, LedgerState.addressMin,
      allocation.finderAmount, 0⟩ : RewardClaim) = claim
    rw [next]
  have before := funded.scheduled.timestamp_le valid
  have median := medianTimePast_le before
  have last : chain.blocks.getLast? = some chain.tip :=
    List.getLast?_eq_getLast_of_ne_nil chain.nonempty
  have parentTime := before chain.tip (List.mem_of_getLast? last)
  rw [funded.length] at median parentTime
  have placed : shareTemplate { context with templates } share =
      .ok (paymentTemplate chain template count) := by
    unfold shareTemplate
    apply bind_ok.mpr
    refine ⟨_, okOr_ok.mpr known, if_neg ?_⟩
    rw [ground.parent]
    simp [paymentTemplate, ownTemplate]
  refine ⟨share, rfl, rfl, rfl, ?_⟩
  exact
    { version := rfl
      linked := rfl
      headerVersion := rfl
      protocol := rfl
      height := by
        rw [ground.parent]
        exact next.symm
      parent := by
        rw [ground.parent]
      bits := ground.settles.expectedBits.symm
      afterParent := by
        rw [ground.parent, UInt64.lt_iff_toNat_lt]
        change _ < timestamp.toNat
        omega
      afterMedian := by
        change context.medianTime < timestamp
        rw [ground.settles.medianTime, UInt64.lt_iff_toNat_lt]
        omega
      templateOk := placed
      rest := by
        refine ⟨applied.2, allocation, ⟨final, allocation, applied.2⟩, shareHash,
          applyFrom_fees applies, ?_, ?_, ?_, rfl, rfl, ?_, ?_, ?_⟩
        · change rewardAllocation (chain.tip.header.height + 1) _ _ context.parentHistory = _
          rw [next, ground.settles.history]
          exact allocated
        · rw [rebuilt]
          change transitionForCandidate (chain.tip.header.height + 1) _ _ context.parentHistory
            context.parentState = _
          rw [next, ground.settles.history, ground.settles.state]
          exact transitioned
        · rw [rebuilt]
          rfl
        · apply powHash_ok.mpr
          change context.pow.hash context.seed header.consensusEncode = _
          rw [ground.settles.oracle]
          exact byNonce_share _ rfl
        · change hashMeetsTarget shareHash context.shareTarget
          rw [ground.shareTarget]
          unfold hashMeetsTarget
          rw [leValue_shareHash]
          decide +kernel
        · change ¬hashMeetsTarget shareHash context.blockTarget
          rw [ground.blockTarget]
          unfold hashMeetsTarget
          rw [leValue_shareHash]
          exact Nat.not_succ_le_self _ }

theorem spelled_share_id (share : Workshare) : ∃ front : Bytes, front.length = 12 ∧
    (@Workshare.id spelled share).bytes = front ++ (Writer.u64 share.candidateHeader.timestamp ++
      (Writer.u32 share.candidateHeader.bits ++ Writer.u64 share.candidateHeader.nonce)) := by
  let _ := spelled
  let header := share.candidateHeader
  let root := header.workshareRoot.bytes
  let times := Writer.u64 header.timestamp ++ (Writer.u32 header.bits ++ Writer.u64 header.nonce)
  have front : (root.drop 20).length = 12 := by
    rw [List.length_drop, FixedBytes.length_eq]
  have width : (root.drop 20 ++ times).length = 32 := by
    rw [List.length_append, front]
    simp only [times, List.length_append, Writer.u64_length, Writer.u32_length]
  let start := Writer.u16 share.version ++ (share.previousWorkshare.bytes ++ (share.templateId.bytes ++
    (share.miner.asBytes ++ (Writer.u64 share.extranonce ++ (Writer.u16 header.version ++
    (Writer.u16 header.protocol ++ (Writer.u64 header.height ++ (header.previousBlock.bytes ++
    (header.transactionsRoot.bytes ++ header.stateRoot.bytes)))))))))
  have ends : share.consensusEncode = (start ++ root.take 20) ++
      (⟨root.drop 20 ++ times, width⟩ : Hash32).bytes := by
    have whole : share.consensusEncode = start ++ (root ++ times) := by
      simp only [start, root, times, header, Workshare.consensusEncode, BlockHeader.consensusEncode,
        List.append_assoc]
    change share.consensusEncode = (start ++ root.take 20) ++ (root.drop 20 ++ times)
    rw [whole, List.append_assoc start, ← List.append_assoc (root.take 20), List.take_append_drop]
  refine ⟨root.drop 20, front, congrArg FixedBytes.bytes
    (spelled_ends "PARITR-P9-WORKSHARE-v1" ends ?_)⟩
  rw [share.consensusEncode_length]
  decide

theorem spelled_share_time {first second : Workshare}
    (same : @Workshare.id spelled first = @Workshare.id spelled second) :
    first.candidateHeader.timestamp = second.candidateHeader.timestamp := by
  obtain ⟨front, length, left⟩ := spelled_share_id first
  obtain ⟨front', length', right⟩ := spelled_share_id second
  rw [same, right] at left
  obtain ⟨_, rest⟩ := List.append_inj left (length'.trans length.symm)
  exact (Writer.u64_injective (List.append_inj_left rest (by simp))).symm

theorem spelled_share_named {share : Workshare} (late : share.candidateHeader.timestamp ≠ 0) :
    @Workshare.id spelled share ≠ Hash32.ZERO := by
  intro zero
  obtain ⟨front, length, ends⟩ := spelled_share_id share
  have split : Hash32.ZERO.bytes = List.replicate 12 0 ++ (Writer.u64 0 ++ List.replicate 12 0) := by
    decide
  rw [zero, split] at ends
  obtain ⟨_, rest⟩ := List.append_inj ends (by rw [length]; rfl)
  exact late (Writer.u64_injective (List.append_inj_left rest (by simp))).symm

structure Stacked (chain : Chain) (stocked node : Node) (now : UInt64) (count : Nat)
    (path : List Workshare) : Prop where
  run : @LiveRun spelled byNonce (fun _ _ => True) now node
  tip : node.chain = chain
  templates : node.workshares.templates = stocked.workshares.templates
  size : node.workshares.shares.size = count
  length : path.length = count
  base : ∀ share : Workshare, share.previousWorkshare = @lastId spelled Hash32.ZERO path →
    Extends node.workshares share path
  references : path.map Workshare.templateId = (List.range count).map fun index => spelling index 4095
  earlier : ∀ (id : Hash32) (share : Workshare), node.workshares.shares[id]? = some share →
    share.candidateHeader.timestamp.toNat ≤ 1788990400 + count

theorem Stacked.next {chain : Chain} (funded : Funded chain) {stocked node : Node} {now : UInt64}
    {count number : Nat} {path : List Workshare} (stacked : Stacked chain stocked node now count path)
    (more : count < number) (few : number ≤ 512) (roomy : 1788990400 + number ≤ now.toNat)
    (known : ∀ index < number, stocked.workshares.templates[spelling index 4095]? =
      some (@paymentTemplate spelled chain index 4096)) :
    let _ := spelled
    ∃ (share : Workshare) (env : NodeEnv) (changed : Bool) (next : Node), env.pow = byNonce ∧
      env.now = now ∧ node.submitWorkshare env share = .ok (changed, next) ∧
      Extends node.workshares share path ∧
      Stacked chain stocked next now (count + 1) (path ++ [share]) := by
  let _ := spelled
  obtain ⟨context, ground⟩ := funded.context
  have size := now.toNat_lt
  have time : (UInt64.ofNat (1788990401 + count)).toNat = 1788990401 + count :=
    UInt64.toNat_ofNat_of_lt' (show 1788990401 + count < 2 ^ 64 by omega)
  have named : (paymentTemplate chain count 4096).id = spelling count 4095 :=
    paymentTemplate_id chain count 4095
  have cached : node.workshares.templates[(paymentTemplate chain count 4096).id]? =
      some (paymentTemplate chain count 4096) := by
    rw [named, stacked.templates]
    exact known count more
  have reached : node.chain.Reached byNonce := by
    rw [stacked.tip]
    exact funded.reachable.reached
  obtain ⟨weight, weighs⟩ := nextBits_weight node.chain.blocks
  have weighed := stacked.run.weighed weighs
  have carries := WorksharePool.carries_referenced weighed.filed path
  obtain ⟨share, linked, onto, stamped, checks⟩ := funded.share ground count (Nat.le_refl 4096) cached
    (lastId Hash32.ZERO path) ⟨WorkshareWitness.VERSION, node.workshares.referencedTemplates path, path⟩
    (show 1788990400 < (UInt64.ofNat (1788990401 + count)).toNat by omega)
  let env : NodeEnv := ⟨byNonce, now, Disk.reliable, default⟩
  have base := stacked.base share linked
  have stored : node.workshares.templates[share.templateId]? =
      some (paymentTemplate chain count 4096) := by
    rw [onto]
    exact cached
  have settles : SettlesOn WorkshareWitness.empty node.chain.blocks node.chain.state byNonce context := by
    rw [stacked.tip]
    exact ground.settles
  have allowance := le_saturatingAdd now MAX_FUTURE_BLOCK_TIME
  have soon : share.candidateHeader.timestamp ≤ saturatingAdd now MAX_FUTURE_BLOCK_TIME := by
    rw [stamped, UInt64.le_iff_toNat_le]
    omega
  obtain ⟨changed, next, submitted⟩ := stacked.run.admits reached.valid reached.summed (show env.pow = byNonce from rfl)
    (UInt64.le_refl now) (by rw [stacked.size]; omega) base
    (by rw [stacked.length]; exact Nat.lt_of_lt_of_le more few) stored carries settles
    (by rw [linked]; exact checks) soon
  refine ⟨share, env, changed, next, rfl, rfl, submitted, base, ?_⟩
  obtain ⟨_, _, _, accepted, still⟩ := Node.submitWorkshare_ok submitted
  have fresh : node.workshares.shares[share.id]? = none := by
    cases present : node.workshares.shares[share.id]? with
    | none => rfl
    | some other =>
      have before := stacked.earlier _ _ present
      rw [spelled_share_time (weighed.named _ _ present), stamped] at before
      omega
  obtain ⟨shares, templates⟩ :
      next.workshares.shares = node.workshares.shares.insert share.id share ∧
        next.workshares.templates = node.workshares.templates := by
    rcases WorksharePool.accept_cases accepted with ⟨⟨_, present⟩, _⟩ | ⟨_, _, _, _, _, same⟩
    · rw [fresh] at present
      cases present
    · rw [same]
      exact ⟨rfl, rfl⟩
  have grows := WorksharePool.accept_grows accepted
  have last : lastId Hash32.ZERO (path ++ [share]) = share.id := by
    rw [lastId, List.getLast?_append]
    rfl
  exact
    { run := stacked.run.step (.share rfl (UInt64.le_refl now) trivial submitted)
      tip := still.trans stacked.tip
      templates := templates.trans stacked.templates
      size := by
        rw [shares, size_insert_fresh fresh, stacked.size]
      length := by
        rw [List.length_append, List.length_singleton, stacked.length]
      base := by
        intro other named
        rw [last] at named
        have found : next.workshares.shares[other.previousWorkshare]? = some share := by
          rw [named, shares]
          exact get_insert_self _ _ _
        have apart : share.candidateHeader.timestamp ≠ 0 := by
          intro zero
          rw [stamped] at zero
          rw [zero] at time
          change 0 = _ at time
          omega
        exact .step (by rw [named]; exact spelled_share_named apart) found
          (base.pathTo.mono grows.shares)
      references := by
        rw [List.map_append, stacked.references, List.range_succ, List.map_append, List.map_singleton,
          List.map_singleton, onto, named]
      earlier := by
        intro id other found
        rw [shares, get_insert] at found
        split at found
        · cases found
          rw [stamped]
          omega
        · exact Nat.le_succ_of_le (stacked.earlier id other found) }

theorem Funded.stack {chain : Chain} (funded : Funded chain) {stocked : Node} {now : UInt64}
    {number : Nat} (few : number ≤ 512) (roomy : 1788990400 + number ≤ now.toNat)
    (known : ∀ index < number, stocked.workshares.templates[spelling index 4095]? =
      some (@paymentTemplate spelled chain index 4096))
    (start : Stacked chain stocked stocked now 0 []) {count : Nat} (enough : count ≤ number) :
    ∃ node path, Stacked chain stocked node now count path := by
  induction count with
  | zero => exact ⟨stocked, [], start⟩
  | succ count ih =>
    obtain ⟨node, path, stacked⟩ := ih (Nat.le_of_succ_le enough)
    obtain ⟨share, _, _, next, _, _, _, _, later⟩ := stacked.next funded enough few roomy known
    exact ⟨next, path ++ [share], later⟩

theorem Stacked.bytes {chain : Chain} {stocked node : Node} {now : UInt64} {count number : Nat}
    {path : List Workshare} (stacked : Stacked chain stocked node now count path)
    (few : number ≤ 512) (enough : count ≤ number)
    (known : ∀ index < number, stocked.workshares.templates[spelling index 4095]? =
      some (@paymentTemplate spelled chain index 4096)) :
    @referencedBytes spelled node.workshares path = count * 888882 := by
  let _ := spelled
  have listed : path.filterMap (fun share => node.workshares.templates[share.templateId]?) =
      (List.range count).map fun index => paymentTemplate chain index 4096 := by
    change path.filterMap ((fun id => node.workshares.templates[id]?) ∘ Workshare.templateId) = _
    rw [← List.filterMap_map, stacked.references, List.filterMap_map, ← List.filterMap_eq_map]
    apply List.filterMap_congr
    intro index member
    change node.workshares.templates[spelling index 4095]? = some _
    rw [stacked.templates]
    exact known index (Nat.lt_of_lt_of_le (List.mem_range.mp member) enough)
  have distinct : ((List.range count).map fun index => paymentTemplate chain index 4096).Nodup := by
    rw [List.nodup_map_iff_inj_on List.nodup_range]
    intro first below second close same
    have ids := congrArg BlockTemplate.id same
    rw [paymentTemplate_id chain first 4095, paymentTemplate_id chain second 4095] at ids
    have small := List.mem_range.mp below
    have near := List.mem_range.mp close
    exact ofNat_eq (by omega) (by omega) (spelling_eq ids).1
  unfold referencedBytes
  rw [listed, List.sum_toFinset _ distinct, List.map_map]
  have each : ((fun template : BlockTemplate => 4 + template.consensusEncode.length) ∘
      fun index => paymentTemplate chain index 4096) = fun _ => 888882 := by
    funext index
    exact congrArg (4 + ·) (paymentTemplate_length chain index 4096)
  rw [each, List.map_const', List.length_range, List.sum_replicate, smul_eq_mul]

/-- A node on the funded chain after `number` full templates. -/
theorem funded_start {number : Nat} (few : number ≤ 5) (now : UInt64) :
    let _ := spelled
    ∃ chain stocked, Funded chain ∧
      (restingNode chain LedgerState.addressMin).registerAll (peerTemplates chain number 4096) =
        .ok stocked ∧
      (∀ index < number, stocked.workshares.templates[spelling index 4095]? =
        some (paymentTemplate chain index 4096)) ∧
      Stacked chain stocked stocked now 0 [] := by
  let _ := spelled
  obtain ⟨chain, funded⟩ := funded_chain
  obtain ⟨stocked, registered, kept⟩ := peerTemplates_stocked funded LedgerState.addressMin
    (show number ≤ MAX_TEMPLATES_PER_BLOCK from Nat.le_trans few (by decide))
    (show 4095 + 1 ≤ MAX_BLOCK_TRANSACTIONS by decide)
    (Nat.le_trans (Nat.mul_le_mul_right _ few) (by decide))
  have empty : stocked.workshares.shares = ∅ := kept.shares
  refine ⟨chain, stocked, funded, registered, ?_, ?_⟩
  · intro index below
    rw [← paymentTemplate_id chain index 4095]
    exact kept.cached _ (List.mem_map.mpr ⟨index, List.mem_range.mpr below, rfl⟩)
  · exact
      { run := (LiveRun.activated now rfl).registerAll registered
        tip := kept.chain
        templates := rfl
        size := by
          rw [empty]
          exact Std.ExtTreeMap.size_empty
        length := rfl
        base := fun _ first => .root first
        references := rfl
        earlier := by
          intro id share found
          rw [empty, get_empty] at found
          cases found }

/-- After every accepted share of every run, the witness that settles its path
has the shape a block needs exactly when the path and the templates it refers
to fit in the size of a witness. -/
theorem candidate_witness_shape_iff [Crypto] {pow : PowVerifier} {rule : UInt64 → Workshare → Prop}
    {now : UInt64} {node next : Node} {env : NodeEnv} {share : Workshare} {changed : Bool}
    (run : LiveRun pow rule now node)
    (submitted : node.submitWorkshare env share = .ok (changed, next)) :
    ∃ path witness, PathTo (fun id => node.workshares.shares[id]?) share path ∧
      next.workshares.candidateWitness share = .ok witness ∧
      (validateWitnessShape witness = .ok () ↔
        10 + path.length * 263 + referencedBytes node.workshares path ≤
          MAX_WORKSHARE_WITNESS_BYTES) := by
  obtain ⟨witness, found, _, accepted, _⟩ := Node.submitWorkshare_ok submitted
  obtain ⟨_, ⟨template, known⟩, path, walked, _, same⟩ := WorksharePool.candidateWitness_iff.mp found
  exact ⟨path, witness, walked,
    WorksharePool.candidateWitness_grows run.settled.rooted (WorksharePool.accept_grows accepted) found,
    run.shape_iff walked known same⟩

/-- One share on one full template fits. -/
theorem lone_share_fits :
    ∃ (_ : Crypto) (node next : Node) (env : NodeEnv) (share : Workshare) (changed : Bool)
      (witness : WorkshareWitness), node.submitWorkshare env share = .ok (changed, next) ∧
        next.workshares.candidateWitness share = .ok witness ∧ validateWitnessShape witness = .ok () := by
  let crypto : Crypto := spelled
  obtain ⟨now, late⟩ : ∃ now : UInt64, 1788990400 + 1 ≤ now.toNat := ⟨1789000000, by decide⟩
  obtain ⟨chain, stocked, funded, _, known, start⟩ := funded_start (show 1 ≤ 5 by decide) now
  obtain ⟨share, env, changed, next, _, _, submitted, base, full⟩ :=
    start.next funded Nat.zero_lt_one (by decide) late known
  obtain ⟨path, witness, walked, found, shape⟩ := candidate_witness_shape_iff start.run submitted
  have bytes := full.bytes (show 1 ≤ 512 by decide) (Nat.le_refl 1) known
  refine ⟨crypto, stocked, next, env, share, changed, witness, submitted, found, shape.mpr ?_⟩
  unfold referencedBytes at bytes ⊢
  rw [full.templates] at bytes
  have limit : MAX_WORKSHARE_WITNESS_BYTES = 4194304 := rfl
  rw [walked.unique base.pathTo, bytes, List.nil_append, List.length_singleton, limit]
  omega

/-- Five shares on five full templates: the last one is accepted, and no block
can carry its path. -/
theorem crowded_witness_oversized :
    ∃ (_ : Crypto) (fresh stocked node next : Node) (templates : List BlockTemplate) (now : UInt64)
      (env : NodeEnv) (share : Workshare) (changed : Bool) (witness : WorkshareWitness),
      fresh.chain.Reached byNonce ∧ fresh.workshares = WorksharePool.reset fresh.chain.tip.id ∧
      fresh.registerAll templates = .ok stocked ∧ LiveRun byNonce (fun _ _ => True) now node ∧
      env.pow = byNonce ∧ env.now = now ∧ node.submitWorkshare env share = .ok (changed, next) ∧
      next.workshares.candidateWitness share = .ok witness ∧
      witness.workshares.length = 5 ∧ validateWitnessShape witness ≠ .ok () := by
  let crypto : Crypto := spelled
  obtain ⟨now, late⟩ : ∃ now : UInt64, 1788990400 + 5 ≤ now.toNat := ⟨1789000000, by decide⟩
  obtain ⟨chain, stocked, funded, registered, known, start⟩ := funded_start (Nat.le_refl 5) now
  obtain ⟨node, path, stacked⟩ := funded.stack (show 5 ≤ 512 by decide) late known start
    (show 4 ≤ 5 by decide)
  obtain ⟨share, env, changed, next, oracle, clock, submitted, base, full⟩ :=
    stacked.next funded (show 4 < 5 by decide) (by decide) late known
  obtain ⟨witness, found, _, accepted, _⟩ := Node.submitWorkshare_ok submitted
  obtain ⟨_, ⟨template, cached⟩, walk, walked, _, same⟩ := WorksharePool.candidateWitness_iff.mp found
  have still := WorksharePool.candidateWitness_grows stacked.run.settled.rooted
    (WorksharePool.accept_grows accepted) found
  have own : walk = path ++ [share] := walked.unique base.pathTo
  have bytes : referencedBytes node.workshares walk = 5 * 888882 := by
    have later := full.bytes (show 5 ≤ 512 by decide) (Nat.le_refl 5) known
    unfold referencedBytes at later ⊢
    rw [own, stacked.templates, ← full.templates]
    exact later
  refine ⟨crypto, restingNode chain LedgerState.addressMin, stocked, node, next, _, now, env, share,
    changed, witness, funded.reachable.reached, rfl, registered, stacked.run, oracle, clock, submitted,
    still, ?_, ?_⟩
  · rw [same, own, full.length]
  · rw [ne_eq, stacked.run.shape_iff walked cached same, bytes]
    have limit : MAX_WORKSHARE_WITNESS_BYTES = 4194304 := rfl
    omega

end Crowded

end ParitrNode
