import ParitrNode.ScheduledShares

/-!
No proof of work counts twice. A share commits to the witness before it, and
these witnesses get longer from share to share; the height separates blocks and
the open target interval separates a share from a block.
-/

namespace ParitrNode
open ByteCodec OrderedMap Checked

section

variable [Crypto]

/-- The witnesses that the shares of a list commit to, each before its share. -/
def witnessesBefore (templates : BTreeMap Hash32 BlockTemplate) (before : WorkshareWitness) :
    List Workshare → List WorkshareWitness
  | [] => []
  | share :: rest => before :: match templates[share.templateId]? with
    | some template => witnessesBefore templates (extendPrefix before share template) rest
    | none => []

def WorkshareWitness.prefixes (witness : WorkshareWitness) : List WorkshareWitness :=
  witnessesBefore (templatesById witness.templates) WorkshareWitness.empty witness.workshares

/-- What is hashed into the workshare roots of the shares of these blocks. -/
def prefixInputs (blocks : List Block) : Set (String × Bytes) :=
  { query | ∃ block ∈ blocks, ∃ witness ∈ block.workshareWitness.prefixes,
      query = ("PARITR-P9-WORKSHARE-WITNESS-v1", witness.consensusEncode) }

omit [Crypto] in
theorem flatMap_length_perm {α : Type} (encode : α → Bytes) {first second : List α}
    (permuted : first.Perm second) :
    (first.flatMap encode).length = (second.flatMap encode).length :=
  (permuted.flatMap_right encode).length_eq

/-- One more share makes a longer witness, whatever happens to the templates. -/
theorem extendPrefix_length (before : WorkshareWitness) (share : Workshare)
    (template : BlockTemplate) :
    before.consensusEncode.length < (extendPrefix before share template).consensusEncode.length := by
  have templates : (before.templates.flatMap
        (fun template => Writer.bytes template.consensusEncode)).length ≤
      ((extendPrefix before share template).templates.flatMap
        (fun template => Writer.bytes template.consensusEncode)).length := by
    unfold extendPrefix
    dsimp only
    split
    · exact Nat.le_refl _
    · rw [flatMap_length_perm _ (List.mergeSort_perm _ _), List.flatMap_append, List.length_append]
      exact Nat.le_add_right _ _
  have shares : ((extendPrefix before share template).workshares.flatMap
        (fun share => Writer.bytes share.consensusEncode)).length =
      (before.workshares.flatMap (fun share => Writer.bytes share.consensusEncode)).length + 263 := by
    change ((before.workshares ++ [share]).flatMap _).length = _
    rw [List.flatMap_append, List.length_append, List.flatMap_singleton, Writer.bytes_length,
      Workshare.consensusEncode_length]
  unfold WorkshareWitness.consensusEncode
  simp only [List.length_append, Writer.u16_length, Writer.count_length]
  omega

theorem witnessesBefore_lengths (templates : BTreeMap Hash32 BlockTemplate)
    (before : WorkshareWitness) (shares : List Workshare) :
    ((witnessesBefore templates before shares).map
      (fun witness => witness.consensusEncode.length)).Pairwise (· < ·) ∧
      ∀ witness ∈ witnessesBefore templates before shares,
        before.consensusEncode.length ≤ witness.consensusEncode.length := by
  induction shares generalizing before with
  | nil => exact ⟨List.Pairwise.nil, fun witness inside => nomatch inside⟩
  | cons share rest ih =>
    rw [witnessesBefore]
    cases templates[share.templateId]? with
    | none =>
      refine ⟨List.pairwise_singleton _ _, ?_⟩
      intro witness member
      rw [List.mem_singleton.mp member]
    | some template =>
      obtain ⟨increasing, above⟩ := ih (extendPrefix before share template)
      have step := extendPrefix_length before share template
      constructor
      · rw [List.map_cons, List.pairwise_cons]
        refine ⟨?_, increasing⟩
        intro length member
        obtain ⟨witness, listed, rfl⟩ := List.mem_map.mp member
        exact Nat.lt_of_lt_of_le step (above witness listed)
      · intro witness member
        cases List.mem_cons.mp member with
        | inl same => rw [same]
        | inr later => exact Nat.le_of_lt (Nat.lt_of_lt_of_le step (above witness later))

theorem validateShares_roots {context : ShareContext} {previous : Hash32}
    {before : WorkshareWitness} {shares : List Workshare}
    (accepted : validateShares context previous before shares = .ok ()) :
    shares.map (fun share => share.candidateHeader.workshareRoot) =
      (witnessesBefore context.templates before shares).map WorkshareWitness.root := by
  induction shares generalizing previous before with
  | nil => rfl
  | cons share rest ih =>
    obtain ⟨template, head, tail⟩ := validateShares_cons_ok.mp accepted
    obtain ⟨-, checks⟩ := validateShare_ok_iff.mp head
    obtain ⟨_, _, _, _, -, -, -, -, -, root, -⟩ := checks.rest
    rw [witnessesBefore, (shareTemplate_ok checks.templateOk).1, List.map_cons, List.map_cons, root,
      ih tail]

/-- What an accepted block says about the headers of its shares. -/
structure SharesApart (block : Block) : Prop where
  roots : block.workshareWitness.workshares.map
      (fun share => share.candidateHeader.workshareRoot) =
    block.workshareWitness.prefixes.map WorkshareWitness.root
  height : ∀ share ∈ block.workshareWitness.workshares,
    share.candidateHeader.height = block.header.height
  unsolved : ∀ share ∈ block.workshareWitness.workshares, share.candidateHeader ≠ block.header

/-- A share on the same height and seed as the block misses the target the block meets. -/
theorem accepted_sharesApart {block : Block} {history : List Block} {state next : LedgerState}
    {pow : PowVerifier} {now : UInt64} (accepted : Accepted block history state pow now next) :
    SharesApart block := by
  obtain ⟨parent, seed, target, claim, transition, checks, -⟩ := accepted
  have follows := validateHeaderContext_ok_iff.mp checks.context
  rcases validateWorkshares_ok_iff.mp checks.workshares with none | ⟨context, settles, -, shares⟩
  · have prefixes : block.workshareWitness.prefixes = [] := by
      rw [WorkshareWitness.prefixes, none]
      rfl
    refine ⟨by rw [none, prefixes]; rfl, ?_, ?_⟩
    · rw [none]
      exact fun share inside => nomatch inside
    · rw [none]
      exact fun share inside => nomatch inside
  · have parents : context.parent = parent :=
      Option.some.inj (settles.parentLast.symm.trans checks.parentLast)
    refine ⟨?_, ?_, ?_⟩
    · rw [validateShares_roots shares, settles.templates]
      rfl
    · intro share member
      obtain ⟨_, _, template, checked⟩ := validateShares_ok shares share member
      rw [(validateShare_ok_iff.mp checked).2.height, follows.height, parents]
    · intro share member same
      obtain ⟨_, _, template, checked⟩ := validateShares_ok shares share member
      obtain ⟨_, _, _, hash, -, -, -, -, -, -, hashed, -, misses⟩ :=
        (validateShare_ok_iff.mp checked).2.rest
      obtain ⟨solution, solved, meets⟩ := verifyPow_ok.mp checks.proofOfWork
      have seeds : context.seed = seed := by
        have found := settles.seed
        rw [parents, ← follows.height, checks.seedFound] at found
        exact (Except.ok.inj found).symm
      have targets : context.blockTarget = target := by
        have found := settles.blockTarget
        rw [settles.expectedBits, ← follows.bits, checks.targetValid] at found
        exact (Option.some.inj found).symm
      have hashes : hash = solution := by
        unfold powHash at hashed
        rw [same, settles.oracle, seeds, solved] at hashed
        exact (Except.ok.inj hashed).symm
      rw [targets, hashes] at misses
      exact misses meets

/-- Different lengths are different roots, so different headers. -/
theorem SharesApart.distinct {block : Block} (apart : SharesApart block)
    (free : CollisionFree (prefixInputs [block])) :
    (block.workshareWitness.workshares.map Workshare.candidateHeader).Nodup := by
  have lengths := (witnessesBefore_lengths (templatesById block.workshareWitness.templates)
    WorkshareWitness.empty block.workshareWitness.workshares).1
  rw [List.pairwise_map] at lengths
  have roots : (block.workshareWitness.workshares.map
      (fun share => share.candidateHeader.workshareRoot)).Nodup := by
    rw [apart.roots, List.Nodup, List.pairwise_map]
    refine List.Pairwise.imp_of_mem ?_ lengths
    intro first second left right shorter same
    have block_mem : block ∈ [block] := List.mem_singleton_self block
    have encoded := free.data_eq ⟨block, block_mem, first, left, rfl⟩
      ⟨block, block_mem, second, right, rfl⟩ same
    rw [encoded] at shorter
    exact Nat.lt_irrefl _ shorter
  have headers : block.workshareWitness.workshares.map
        (fun share => share.candidateHeader.workshareRoot) =
      (block.workshareWitness.workshares.map Workshare.candidateHeader).map
        BlockHeader.workshareRoot := by rw [List.map_map]; rfl
  rw [headers] at roots
  exact List.Nodup.of_map _ roots

def shareHeaders (blocks : List Block) : List BlockHeader :=
  (blocks.flatMap (fun block => block.workshareWitness.workshares)).map Workshare.candidateHeader

omit [Crypto] in
theorem shareHeaders_append (blocks : List Block) (block : Block) :
    shareHeaders (blocks ++ [block]) = shareHeaders blocks ++
      block.workshareWitness.workshares.map Workshare.candidateHeader := by
  unfold shareHeaders
  rw [List.flatMap_append, List.flatMap_singleton, List.map_append]

/-- The invariant of a history: heights bound the headers, and none repeats. -/
structure WorkApart (blocks : List Block) : Prop where
  below : ∀ header ∈ shareHeaders blocks, header.height.toNat < blocks.length
  distinct : (shareHeaders blocks).Nodup
  unsolved : ∀ header ∈ shareHeaders blocks, ∀ block ∈ blocks, header ≠ block.header

theorem ValidHistory.workApart {pow : PowVerifier} {history : List Block} {state : LedgerState}
    (valid : ValidHistory pow history state) (free : CollisionFree (prefixInputs history)) :
    WorkApart history := by
  induction valid with
  | genesis =>
    exact ⟨fun header inside => (nomatch inside), List.nodup_nil,
      fun header inside => (nomatch inside)⟩
  | @extend history state next block now earlier above accepted ih =>
    have before := ih (free.mono (by
      intro query listed
      obtain ⟨other, member, known⟩ := listed
      exact ⟨other, List.mem_append_left _ member, known⟩))
    have apart := accepted_sharesApart accepted
    have own := apart.distinct (free.mono (by
      intro query listed
      obtain ⟨other, member, known⟩ := listed
      exact ⟨other, List.mem_append_right _ member, known⟩))
    have height := earlier.nextHeight above accepted
    -- the shares of the new block sit at its height, above everything before it
    have newest : ∀ header ∈ block.workshareWitness.workshares.map Workshare.candidateHeader,
        header.height.toNat = history.length := by
      intro header member
      obtain ⟨share, listed, rfl⟩ := List.mem_map.mp member
      rw [apart.height share listed, height]
    refine ⟨?_, ?_, ?_⟩
    · intro header member
      rw [List.length_append, List.length_singleton]
      rw [shareHeaders_append] at member
      cases List.mem_append.mp member with
      | inl old => exact Nat.lt_succ_of_lt (before.below header old)
      | inr new => rw [newest header new]; exact Nat.lt_succ_self _
    · rw [shareHeaders_append, List.nodup_append]
      refine ⟨before.distinct, own, ?_⟩
      intro header old other new same
      have bound := before.below header old
      rw [same, newest other new] at bound
      exact Nat.lt_irrefl _ bound
    · intro header member other listed same
      rw [shareHeaders_append] at member
      cases List.mem_append.mp member with
      | inl old =>
        cases List.mem_append.mp listed with
        | inl earlierBlock => exact before.unsolved header old other earlierBlock same
        | inr newBlock =>
          have bound := before.below header old
          rw [same, List.mem_singleton.mp newBlock, height] at bound
          exact Nat.lt_irrefl _ bound
      | inr new =>
        cases List.mem_append.mp listed with
        | inl earlierBlock =>
          obtain ⟨index, bound, item⟩ := List.mem_iff_getElem.mp earlierBlock
          have position :=
            (earlier.linked index other (by rw [List.getElem?_eq_getElem bound, item])).height
          have heights := newest header new
          rw [same] at heights
          omega
        | inr newBlock =>
          obtain ⟨share, inside, rfl⟩ := List.mem_map.mp new
          rw [List.mem_singleton.mp newBlock] at same
          exact apart.unsolved share inside same

/-- No proof of work is credited twice: the rewarded share headers of a chain
are all different, and none of them is the header of a block. -/
theorem share_headers_distinct {pow : PowVerifier} {chain : Chain}
    (reachable : chain.Reachable pow) (free : CollisionFree (prefixInputs chain.blocks)) :
    ((chain.blocks.flatMap (fun block => block.workshareWitness.workshares)).map
        Workshare.candidateHeader).Nodup ∧
      ∀ share ∈ chain.blocks.flatMap (fun block => block.workshareWitness.workshares),
        ∀ block ∈ chain.blocks, share.candidateHeader ≠ block.header := by
  have apart := reachable.valid.workApart free
  refine ⟨apart.distinct, ?_⟩
  intro share member block listed
  exact apart.unsolved share.candidateHeader (List.mem_map.mpr ⟨share, member, rfl⟩) block listed

end

/-! A block on genesis that settles two shares. -/

/-- The block and its chain, under primitives that label a header by its height. -/
theorem reachable_settling {timestamp : UInt64} (late : 1788984000 < timestamp.toNat) {count : Nat}
    (positive : 0 < count) (bound : count ≤ 15000) :
    letI := labelled
    ∃ (chain : Chain) (stateRoot : Hash32), chain.Reachable byNonce ∧
      chain.blocks = [Block.genesis, settlingBlock Block.genesis LedgerState.addressMin stateRoot
        timestamp (settlingWitness Block.genesis LedgerState.addressMin stateRoot timestamp
          count)] ∧
      chain.cumulativeWork = 32768 := by
  let _ := labelled
  obtain ⟨final, accepted⟩ := settlingBlock_accepted .genesis onSchedule_genesis
    (show 1 ≤ 2 ^ 32 by decide) rfl LedgerState.addressMin late (UInt64.le_refl _) positive bound
  let block := settlingBlock Block.genesis LedgerState.addressMin final.root timestamp
    (settlingWitness Block.genesis LedgerState.addressMin final.root timestamp count)
  have above : block.header.height ≠ 0 := fun zero => nomatch zero
  have unknown : Chain.genesis.blockByHash block.id = none := by
    unfold Chain.blockByHash
    rw [List.find?_eq_none]
    intro other member
    rw [decide_eq_true_eq, List.mem_singleton.mp member]
    intro same
    exact absurd (labelled_id_injective same).1 (fun zero => nomatch zero)
  have top : 2 ^ 64 ≤ MAX_U256 := by decide +kernel
  have added : addWork Chain.genesis.cumulativeWork block = .ok (16384 + 16384) := by
    refine addWork_ok_iff.mpr ⟨launchTarget, bitsToTarget_launch, ?_, ?_⟩
    · rw [genesis_work, targetWork_launch]
      omega
    · rw [genesis_work, targetWork_launch]
  have appended := append_extends unknown rfl ((validateBlock_ok_iff above).mpr accepted) added
  exact ⟨_, final.root, Chain.Reachable.genesis.append appended, rfl, rfl⟩

theorem settling_prefixes [Crypto] (parent : Block) (miner : Address) (stateRoot : Hash32)
    (timestamp : UInt64) :
    (settlingWitness parent miner stateRoot timestamp 2).prefixes =
      [WorkshareWitness.empty, settlingWitness parent miner stateRoot timestamp 1] := by
  have template := get_templatesById_singleton (emptyTemplate parent)
  unfold WorkshareWitness.prefixes settlingWitness
  simp only [emptyShares, witnessesBefore, emptyShare, template]
  simp only [extendPrefix, WorkshareWitness.empty, List.any_nil, Bool.false_eq_true, if_false,
    List.nil_append, List.mergeSort_singleton]

theorem settling_collisionFree (stateRoot : Hash32) :
    letI := labelled
    CollisionFree (prefixInputs [Block.genesis, settlingBlock Block.genesis LedgerState.addressMin
      stateRoot 1788984064 (settlingWitness Block.genesis LedgerState.addressMin stateRoot 1788984064
        2)]) := by
  let _ := labelled
  have shape : ∀ query ∈ prefixInputs [Block.genesis, settlingBlock Block.genesis
      LedgerState.addressMin stateRoot 1788984064 (settlingWitness Block.genesis
        LedgerState.addressMin stateRoot 1788984064 2)],
      query = ("PARITR-P9-WORKSHARE-WITNESS-v1", WorkshareWitness.empty.consensusEncode) ∨
      query = ("PARITR-P9-WORKSHARE-WITNESS-v1", (settlingWitness Block.genesis
        LedgerState.addressMin stateRoot 1788984064 1).consensusEncode) := by
    intro query listed
    obtain ⟨block, member, witness, prior, rfl⟩ := listed
    rcases List.mem_cons.mp member with rfl | inside
    · cases prior
    · rw [List.mem_singleton.mp inside] at prior
      change witness ∈ (settlingWitness _ _ _ _ 2).prefixes at prior
      rw [settling_prefixes] at prior
      rcases List.mem_cons.mp prior with rfl | later
      · exact Or.inl rfl
      · rw [List.mem_singleton.mp later]
        exact Or.inr rfl
  have first := labelled_domainHash "PARITR-P9-WORKSHARE-WITNESS-v1"
    WorkshareWitness.empty.consensusEncode 52 rfl (by decide)
  have second := labelled_domainHash "PARITR-P9-WORKSHARE-WITNESS-v1"
    (settlingWitness Block.genesis LedgerState.addressMin stateRoot 1788984064 1).consensusEncode 365
    (by rw [settlingWitness_length _ _ _ _ Nat.one_pos]; decide) (by decide)
  have different : FixedBytes.ofNat 32 52 ≠ FixedBytes.ofNat 32 365 := by decide
  intro left member right member' same
  rcases shape left member with rfl | rfl
  · rcases shape right member' with rfl | rfl
    · rfl
    · dsimp only at same
      rw [first, second] at same
      exact absurd same different
  · rcases shape right member' with rfl | rfl
    · dsimp only at same
      rw [first, second] at same
      exact absurd same.symm different
    · rfl

/-- Two shares of one miner on genesis and the block that settles them. -/
theorem two_shares_distinct :
    ∃ (_ : Crypto) (chain : Chain), chain.blocks.length = 2 ∧
      (chain.blocks.flatMap (fun block => block.workshareWitness.workshares)).length = 2 ∧
      ((chain.blocks.flatMap (fun block => block.workshareWitness.workshares)).map
        Workshare.candidateHeader).Nodup := by
  let _ := labelled
  obtain ⟨chain, stateRoot, reachable, blocks, _⟩ :=
    reachable_settling (show 1788984000 < (1788984064 : UInt64).toNat by decide)
      (show 0 < 2 by decide) (by decide)
  have free := settling_collisionFree stateRoot
  rw [← blocks] at free
  refine ⟨labelled, chain, by rw [blocks]; rfl, by rw [blocks]; rfl, ?_⟩
  exact (share_headers_distinct reachable free).1

end ParitrNode
