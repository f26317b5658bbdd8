import ParitrNode.Miner
import ParitrNode.ShareAdmission
import ParitrNode.FloodedCache
import ParitrNode.Lifetime
import ParitrNode.WitnessSize

/-!
The miner and the validator build the same witness: a share found on a
candidate is admitted at any later moment of the same tip.
-/

namespace ParitrNode
open ByteCodec OrderedMap Checked KeyOrder

variable [Crypto] {pow : PowVerifier} {rule : UInt64 → Workshare → Prop}

omit [Crypto] in
theorem WorksharePool.Grows.trans {pool middle larger : WorksharePool} (first : pool.Grows middle)
    (second : middle.Grows larger) : pool.Grows larger where
  anchor := second.anchor.trans first.anchor
  templates id template found := second.templates id template (first.templates id template found)
  shares id share found := second.shares id share (first.shares id share found)

/-! From one moment of a tip to a later one. -/

inductive LiveFrom (pow : PowVerifier) (rule : UInt64 → Workshare → Prop) (start : UInt64)
    (origin : Node) : UInt64 → Node → Prop
  | here : LiveFrom pow rule start origin start origin
  | step {now later : UInt64} {node next : Node} (run : LiveFrom pow rule start origin now node)
      (step : LiveStep pow rule now node later next) : LiveFrom pow rule start origin later next

theorem LiveStep.keeps {now later : UInt64} {node next : Node}
    (step : LiveStep pow rule now node later next) :
    next.chain = node.chain ∧ node.workshares.Grows next.workshares := by
  cases step with
  | template registered =>
    obtain ⟨chain, pool⟩ := Node.registerTemplate_ok registered
    refine ⟨chain, ?_⟩
    rcases pool with same | ⟨_, stored⟩
    · rw [same]
      exact .refl _
    · exact WorksharePool.registerTemplate_grows stored
  | share oracle later admitted submitted =>
    obtain ⟨_, _, _, accepted, chain⟩ := Node.submitWorkshare_ok submitted
    exact ⟨chain, WorksharePool.accept_grows accepted⟩
  | mined built =>
    obtain ⟨_, _, chain, stored⟩ := Node.miningCandidate_ok built
    exact ⟨chain, WorksharePool.registerTemplate_grows stored⟩
  | elsewhere chain pool =>
    refine ⟨chain, ?_⟩
    rw [pool]
    exact .refl _

namespace LiveFrom

variable {start now : UInt64} {origin node : Node}

theorem liveRun (between : LiveFrom pow rule start origin now node)
    (run : LiveRun pow rule start origin) : LiveRun pow rule now node := by
  induction between with
  | here => exact run
  | step _ step ih => exact .step ih step

theorem keeps (between : LiveFrom pow rule start origin now node) :
    node.chain = origin.chain ∧ origin.workshares.Grows node.workshares := by
  induction between with
  | here => exact ⟨rfl, .refl _⟩
  | step _ step ih =>
    obtain ⟨chain, grows⟩ := step.keeps
    exact ⟨chain.trans ih.1, ih.2.trans grows⟩

end LiveFrom

/-! The witness of a candidate. -/

omit [Crypto] in
theorem witness_some_path {pool : WorksharePool} {witness : WorkshareWitness}
    (found : pool.witness = some witness) : witness = WorkshareWitness.empty ∨
      ∃ share path, pool.tip ≠ Hash32.ZERO ∧ pool.shares[pool.tip]? = some share ∧
        PathTo (fun id => pool.shares[id]?) share path ∧
        witness = ⟨WorkshareWitness.VERSION, pool.referencedTemplates path, path⟩ := by
  by_cases zero : pool.tip = Hash32.ZERO
  · rw [WorksharePool.witness, if_pos zero] at found
    exact Or.inl (Option.some.inj found).symm
  · rcases witness_some found with empty | ⟨share, stored, candidate⟩
    · exact Or.inl empty
    · obtain ⟨_, _, path, walked, _, same⟩ := WorksharePool.candidateWitness_iff.mp candidate
      exact Or.inr ⟨share, path, zero, stored, walked, same⟩

theorem LiveRun.template_known {now : UInt64} {node : Node} (run : LiveRun pow rule now node)
    {id : Hash32} {share : Workshare} (stored : node.workshares.shares[id]? = some share) :
    ∃ template, node.workshares.templates[share.templateId]? = some template := by
  obtain ⟨_, own⟩ := run.settled.rooted id share stored
  exact (WorksharePool.candidateWitness_ok.mp own).2.1

/-- In every larger pool a share on the witness extends its path, and the
witness still carries that path. -/
theorem LiveRun.witness_extends {now : UInt64} {node : Node} (run : LiveRun pow rule now node)
    {weight : Nat} (weighs : workshareWeight (nextBits node.chain.blocks) = .ok weight)
    {witness : WorkshareWitness} (live : node.workshares.witness = some witness)
    {larger : WorksharePool} (grows : node.workshares.Grows larger) {share : Workshare}
    (linked : share.previousWorkshare = lastId Hash32.ZERO witness.workshares) :
    Extends larger share witness.workshares ∧
      Carries (fun id => larger.templates[id]?) witness.workshares witness := by
  have weighed := run.weighed weighs
  rcases witness_some_path live with empty | ⟨tip, path, named, stored, walked, same⟩
  · rw [empty] at linked ⊢
    exact ⟨.root linked, Carries.empty _⟩
  · rw [same] at linked ⊢
    dsimp only at linked ⊢
    obtain ⟨before, last⟩ := walked.last
    have tipName : share.previousWorkshare = node.workshares.tip := by
      rw [linked, last, lastId, List.getLast?_append]
      exact weighed.named _ _ stored
    constructor
    · have found : larger.shares[share.previousWorkshare]? = some tip := by
        rw [tipName]
        exact grows.shares _ _ stored
      exact .step (by rw [tipName]; exact named) found (walked.mono grows.shares)
    · apply (WorksharePool.carries_referenced weighed.filed path).congr
      intro other member
      obtain ⟨id, inside⟩ : ∃ id : Hash32, node.workshares.shares[id]? = some other := by
        rcases walked.members other member with end_ | known
        · exact ⟨_, end_ ▸ stored⟩
        · exact known
      obtain ⟨template, known⟩ := run.template_known inside
      rw [known, grows.templates _ _ known]

/-! The candidate's own checks. -/

theorem candidateTimestamp_after {chain : Chain} (valid : ValidHistory pow chain.blocks chain.state)
    (now : UInt64) (more : chain.tip.header.timestamp.toNat < 2 ^ 64 - 1) :
    chain.tip.header.timestamp < Node.candidateTimestamp now chain ∧
      medianTimePast chain.blocks < Node.candidateTimestamp now chain := by
  have last : chain.blocks.getLast? = some chain.tip :=
    List.getLast?_eq_getLast_of_ne_nil chain.nonempty
  have before : ∀ block ∈ chain.blocks,
      block.header.timestamp.toNat ≤ chain.tip.header.timestamp.toNat := by
    intro block member
    obtain ⟨index, bound, same⟩ := List.mem_iff_getElem.mp member
    rw [List.getLast?_eq_getElem?,
      show chain.blocks.length - 1 = index + (chain.blocks.length - 1 - index) by omega] at last
    have times := valid.timestamp_add (List.getElem?_eq_getElem bound) last
    rw [same] at times
    omega
  have median := medianTimePast_le before
  have one : (1 : UInt64).toNat = 1 := rfl
  have parentNext := toNat_add (a := chain.tip.header.timestamp) (b := 1) (by omega)
  have medianNext := toNat_add (a := medianTimePast chain.blocks) (b := 1) (by omega)
  unfold Node.candidateTimestamp
  constructor
  · rw [UInt64.lt_iff_toNat_lt, toNat_max, toNat_max]
    omega
  · rw [UInt64.lt_iff_toNat_lt, toNat_max, toNat_max]
    omega

def candidateContext (chain : Chain) (candidate : MiningCandidate) (pow : PowVerifier)
    (templates : BTreeMap Hash32 BlockTemplate) : ShareContext :=
  { parentHistory := chain.blocks
    parentState := chain.state
    parent := chain.tip
    templates
    pow
    seed := candidate.seed
    expectedBits := nextBits chain.blocks
    blockTarget := candidate.blockTarget
    shareTarget := candidate.workshareTarget
    medianTime := medianTimePast chain.blocks
    settlingTimestamp := 0 }

namespace Node.CandidateOf

variable {node : Node} {env : NodeEnv} {extranonce : UInt64} {candidate : MiningCandidate}
  {claim : RewardClaim} {fees : UInt64} {allocation : RewardAllocation} {transition : Transition}
  {pool : WorksharePool}

theorem settles
    (built : node.CandidateOf env extranonce candidate claim fees allocation transition pool) :
    SettlesOn WorkshareWitness.empty node.chain.blocks node.chain.state pow
      (candidateContext node.chain candidate pow (templatesById [])) where
  parentLast := List.getLast?_eq_getLast_of_ne_nil node.chain.nonempty
  seed := built.seed
  expectedBits := rfl
  blockTarget := built.blockTarget
  shareTarget := built.workshareTarget
  history := rfl
  state := rfl
  oracle := rfl
  templates := rfl
  medianTime := rfl

theorem checks
    (built : node.CandidateOf env extranonce candidate claim fees allocation transition pool)
    (valid : ValidHistory pow node.chain.blocks node.chain.state)
    (more : node.chain.tip.header.timestamp.toNat < 2 ^ 64 - 1) {nonce : UInt64} {share : Workshare}
    (found : candidate.tryNonce pow extranonce nonce = .workshare share)
    {templates : BTreeMap Hash32 BlockTemplate}
    (known : templates[candidate.template.id]? = some candidate.template) :
    ShareChecks (candidateContext node.chain candidate pow templates) share.previousWorkshare
      candidate.block.workshareWitness share candidate.template := by
  obtain ⟨hash, paid, hashed, misses, meets, present, rfl⟩ :=
    MiningCandidate.tryNonce_workshare_iff.mp found
  have header := congrArg Block.header built.block
  have claimed := congrArg Block.rewardClaim built.block
  dsimp only at header claimed
  rw [present] at claimed
  cases claimed
  have times := candidateTimestamp_after valid env.now more
  have height : candidate.template.height = node.chain.tip.header.height + 1 :=
    congrArg BlockTemplate.height built.template
  obtain ⟨_, _, _, _, steps⟩ := transitionForCandidate_ok_iff.mp built.transitioned
  have summed : templateFees candidate.template.transactions = .ok transition.fees :=
    applyFrom_fees steps.appliedOk
  have same : fees = transition.fees := by
    have other := candidateFees_of_applied steps.appliedOk
    rw [built.summed] at other
    exact Except.ok.inj other
  have rebuilt : shareClaim candidate.template (candidate.workshare extranonce
      { candidate.block.header with nonce } claim) allocation.finderAmount = claim := by
    unfold shareClaim MiningCandidate.workshare
    rw [height]
    exact built.claimed.symm
  have placed : shareTemplate (candidateContext node.chain candidate pow templates)
      (candidate.workshare extranonce { candidate.block.header with nonce } claim) =
        .ok candidate.template := by
    unfold shareTemplate
    apply bind_ok.mpr
    refine ⟨candidate.template, okOr_ok.mpr known, if_neg ?_⟩
    rw [built.template]
    simp [candidateContext]
  refine
    { version := rfl
      linked := rfl
      headerVersion := congrArg BlockHeader.version header
      protocol := congrArg BlockHeader.protocol header
      height := congrArg BlockHeader.height header
      parent := congrArg BlockHeader.previousBlock header
      bits := congrArg BlockHeader.bits header
      afterParent := ?_
      afterMedian := ?_
      templateOk := placed
      rest := ⟨transition.fees, allocation, transition, hash, summed, ?_, ?_, ?_,
        congrArg BlockHeader.stateRoot header, congrArg BlockHeader.workshareRoot header, ?_, meets,
        misses⟩ }
  · change _ < candidate.block.header.timestamp
    rw [header]
    exact times.1
  · change _ < candidate.block.header.timestamp
    rw [header]
    exact times.2
  · rw [height, ← same]
    exact built.allocated
  · rw [rebuilt, height]
    exact built.transitioned
  · rw [rebuilt]
    exact congrArg BlockHeader.transactionsRoot header
  · exact powHash_ok.mpr hashed

end Node.CandidateOf

/-! Producer and validator agree. -/

def templateInputs (template : BlockTemplate) (pool : WorksharePool) : Set (String × Bytes) :=
  { input | ∃ other : BlockTemplate, (other = template ∨
      ∃ id : Hash32, pool.templates[id]? = some other) ∧
        input = ("PARITR-P9-TEMPLATE-v1", other.consensusEncode) }

variable {start now : UInt64} {origin mined node : Node} {env : NodeEnv} {extranonce : UInt64}
  {candidate : MiningCandidate}

theorem candidate_template_known (run : LiveRun pow rule start origin) {weight : Nat}
    (weighs : workshareWeight (nextBits origin.chain.blocks) = .ok weight)
    (built : origin.miningCandidate env extranonce = .ok (candidate, mined))
    (between : LiveFrom pow rule start mined now node)
    (free : CollisionFree (templateInputs candidate.template node.workshares)) :
    node.workshares.templates[candidate.template.id]? = some candidate.template := by
  obtain ⟨_, _, _, _, pool, parts⟩ := Node.miningCandidate_ok_iff.mp ⟨mined, built⟩
  obtain ⟨_, _, sameChain, registered⟩ := Node.miningCandidate_ok built
  obtain ⟨⟨_, _, size⟩, cached⟩ := WorksharePool.registerTemplate_ok_iff.mp registered
  obtain ⟨chain, grows⟩ := between.keeps
  have formed := (transitionForCandidate_wellFormed parts.transitioned).1
  obtain ⟨stored, known⟩ : ∃ stored, mined.workshares.templates[candidate.template.id]? = some stored := by
    rcases cached with ⟨known, same⟩ | ⟨_, _, _, same⟩
    · rw [same]
      exact known
    · rw [same]
      exact ⟨_, get_insert_self _ _ _⟩
  have found := grows.templates _ _ known
  have weighed := (between.liveRun (run.step (.mined built))).weighed (by rw [chain, sameChain]; exact weighs)
  have left : ("PARITR-P9-TEMPLATE-v1", stored.consensusEncode) ∈
      templateInputs candidate.template node.workshares := ⟨stored, Or.inr ⟨_, found⟩, rfl⟩
  have right : ("PARITR-P9-TEMPLATE-v1", candidate.template.consensusEncode) ∈
      templateInputs candidate.template node.workshares := ⟨candidate.template, Or.inl rfl, rfl⟩
  have same := free.data_eq left right (weighed.filed _ _ found)
  rw [found, separates_template.injective (weighed.shape _ _ found).2.2
    (countable_of_size size formed) same]

/-- On the launch target the nonce zero is a share of the labelling oracle. -/
theorem zero_nonce_share (bits : nextBits origin.chain.blocks = targetToBits initialTarget)
    (built : origin.miningCandidate env extranonce = .ok (candidate, mined)) :
    ∃ share, candidate.tryNonce byNonce extranonce 0 = .workshare share ∧
      share.candidateHeader.timestamp = Node.candidateTimestamp env.now origin.chain := by
  obtain ⟨claim, _, _, _, _, parts⟩ := Node.miningCandidate_ok_iff.mp ⟨mined, built⟩
  have present := congrArg Block.rewardClaim parts.block
  have blockTarget := parts.blockTarget
  obtain ⟨shareBits, shared, shareTarget⟩ := parts.workshareTarget
  rw [bits, bitsToTarget_launch] at blockTarget
  rw [bits, workshareBits_launch] at shared
  rw [← Option.some.inj shared, bitsToTarget_share] at shareTarget
  refine ⟨candidate.workshare extranonce { candidate.block.header with nonce := 0 } claim,
    MiningCandidate.tryNonce_workshare_iff.mpr
      ⟨shareHash, claim, byNonce_share _ rfl, ?_, ?_, present, rfl⟩,
    congrArg (fun block : Block => block.header.timestamp) parts.block⟩
  · rw [← Option.some.inj blockTarget]
    unfold hashMeetsTarget
    rw [leValue_shareHash]
    exact Nat.not_succ_le_self _
  · rw [← Option.some.inj shareTarget]
    unfold hashMeetsTarget
    rw [leValue_shareHash]
    decide +kernel

theorem collisionFree_oneTemplate {parent : Block} {pool : WorksharePool}
    (templates : pool.templates = (oneTemplate parent).templates) :
    CollisionFree (templateInputs (emptyTemplate parent) pool) := by
  have own : ∀ input ∈ templateInputs (emptyTemplate parent) pool,
      input = ("PARITR-P9-TEMPLATE-v1", (emptyTemplate parent).consensusEncode) := by
    intro input ⟨other, known, same⟩
    rcases known with new | ⟨id, found⟩
    · rw [same, new]
    · rw [templates, oneTemplate] at found
      dsimp only at found
      rw [get_insert, get_empty] at found
      split at found
      · rw [same, Option.some.inj found]
      · cases found
  intro first left second right _
  rw [own first left, own second right]

theorem resting_node_mines {chain : Chain} (reached : chain.Reached pow)
    (supply : chain.state.supply ≤ MAX_MONEY.toNat) (miner : Address) (env : NodeEnv)
    (extranonce : UInt64) : ∃ candidate mined,
      (restingNode chain miner).miningCandidate env extranonce = .ok (candidate, mined) ∧
        candidate.block.workshareWitness = WorkshareWitness.empty ∧
        candidate.template = emptyTemplate chain.tip ∧
        mined.chain = chain ∧ mined.workshares = oneTemplate chain.tip := by
  have run : LiveRun pow (fun _ _ => True) 0 (restingNode chain miner) := .activated 0 rfl
  have nothing := select_nothing default chain.state MAX_BLOCK_TRANSACTIONS
  have empty : (restingNode chain miner).workshares.templates.size = 0 := Std.ExtTreeMap.size_empty
  have room : HasRoom (restingNode chain miner).workshares (ownTemplate chain []) :=
    Or.inr ⟨by rw [empty]; decide, by
      rw [template_length]
      change 0 + (46 + 0) ≤ _
      decide⟩
  obtain ⟨candidate, mined, built⟩ := (candidate_exists_iff reached supply
    (.new : Mempool.Reachable default (restingNode chain miner).mempool) rfl run env extranonce
    nothing).mpr room
  obtain ⟨witness, _, still, registered⟩ := Node.miningCandidate_ok built
  obtain ⟨_, _, _, _, _, parts⟩ := Node.miningCandidate_ok_iff.mp ⟨mined, built⟩
  have own : candidate.template = emptyTemplate chain.tip := by
    have none : candidate.template.transactions = [] :=
      (Option.some.inj (nothing.symm.trans parts.selected)).symm
    have shape := parts.template
    rw [none] at shape
    exact shape
  rw [own] at registered
  have stocked := (register_first chain.tip).symm.trans registered
  exact ⟨candidate, mined, built, (Option.some.inj witness).symm, own, still, (Except.ok.inj stocked).symm⟩

/-- On every chain a node has, the live witness is always found, and whatever templates
and shares arrive after a candidate with fewer than 512 shares was built, a share mined
on it is accepted. -/
theorem mined_share_accepted {host : Node} {clock : UInt64} (lived : host.Lived pow clock)
    (tip : origin.chain = host.chain) (run : LiveRun pow rule start origin) :
    (∃ witness, origin.workshares.witness = some witness) ∧
    ∀ {env : NodeEnv} {extranonce : UInt64} {candidate : MiningCandidate} {mined : Node},
      origin.miningCandidate env extranonce = .ok (candidate, mined) →
      candidate.block.workshareWitness.workshares.length < MAX_WORKSHARES_PER_BLOCK →
      ∀ {now : UInt64} {node : Node}, LiveFrom pow rule start mined now node →
      CollisionFree (templateInputs candidate.template node.workshares) →
      ∀ {nonce : UInt64} {share : Workshare},
        candidate.tryNonce pow extranonce nonce = .workshare share →
        node.workshares.shares.size < 8192 →
      ∀ {later : NodeEnv}, later.pow = pow → now ≤ later.now →
        share.candidateHeader.timestamp ≤ saturatingAdd later.now MAX_FUTURE_BLOCK_TIME →
        ∃ changed next, node.submitWorkshare later share = .ok (changed, next) := by
  have valid := lived.valid
  have summed := lived.summed
  have dated := lived.tip_dated
  rw [← tip] at valid summed dated
  obtain ⟨weight, weighs, _, _⟩ := valid.weight_fits summed
  refine ⟨run.witness_found weighs, ?_⟩
  intro env extranonce candidate mined built short now node between free nonce share found room
    later oracle after soon
  obtain ⟨_, _, sameChain, registered⟩ := Node.miningCandidate_ok built
  obtain ⟨chain, grows⟩ := between.keeps
  have kept : node.chain = origin.chain := chain.trans sameChain
  -- the candidate's timestamp does not wrap
  have more : origin.chain.tip.header.timestamp.toNat < 2 ^ 64 - 1 := Nat.lt_trans dated (by decide)
  obtain ⟨_, _, _, _, pool, parts⟩ := Node.miningCandidate_ok_iff.mp ⟨mined, built⟩
  have known := candidate_template_known run weighs built between free
  obtain ⟨_, claim, _, _, _, _, same⟩ := MiningCandidate.tryNonce_workshare_iff.mp found
  have growth := (WorksharePool.registerTemplate_grows registered).trans grows
  have linked : share.previousWorkshare =
      lastId Hash32.ZERO candidate.block.workshareWitness.workshares := by
    rw [same]
    rfl
  obtain ⟨base, carries⟩ := run.witness_extends weighs parts.witness growth linked
  have live := between.liveRun (run.step (.mined built))
  have stored : node.workshares.templates[share.templateId]? = some candidate.template := by
    rw [same]
    exact known
  have settles : SettlesOn WorkshareWitness.empty node.chain.blocks node.chain.state pow
      (candidateContext origin.chain candidate pow (templatesById [])) := by
    rw [kept]
    exact parts.settles
  exact live.admits (by rw [kept]; exact valid) (by rw [kept]; exact summed) oracle after room base short
    stored carries settles (parts.checks valid more found known) soon

theorem candidateTimestamp_genesis {now : UInt64} (late : 1788984000 < now.toNat) :
    Node.candidateTimestamp now Chain.genesis = now := by
  have start : Chain.genesis.tip.header.timestamp.toNat = 1788984000 := rfl
  have one : (1 : UInt64).toNat = 1 := rfl
  have median : (medianTimePast Chain.genesis.blocks).toNat ≤ 1788984000 := by
    apply medianTimePast_le
    intro block member
    rw [List.mem_singleton.mp member]
    exact Nat.le_of_eq start
  rw [← UInt64.toNat_inj, Node.candidateTimestamp, toNat_max, toNat_max, toNat_add (by omega),
    toNat_add (by omega)]
  omega

omit [Crypto] in
/-- Another miner's share comes in first, and the share mined on the earlier candidate
is new to the pool and accepted. -/
theorem second_share_accepted :
    ∃ (_ : Crypto) (host : Node) (clock : UInt64) (env later : NodeEnv) (candidate : MiningCandidate)
      (mined node next : Node) (rival share : Workshare) (stored changed : Bool),
      host.Lived byNonce clock ∧
        (restingNode host.chain LedgerState.addressMin).miningCandidate env 0 =
          .ok (candidate, mined) ∧
        mined.submitWorkshare later rival = .ok (stored, node) ∧
        node.workshares.shares[rival.id]? = some rival ∧
        candidate.tryNonce byNonce 0 0 = .workshare share ∧
        node.workshares.shares[share.id]? = none ∧
        node.submitWorkshare later share = .ok (changed, next) := by
  let crypto : Crypto := spelled
  obtain ⟨host, opened⟩ := Node.openFresh_ok (of_decide_eq_true rfl : fitsI64 0) none
  have lived : host.Lived byNonce 0 := .opened opened
  have ground : host.chain = Chain.genesis := by
    obtain ⟨_, _, result⟩ := bind_ok.mp opened
    cases result
    rfl
  let origin := restingNode host.chain LedgerState.addressMin
  have tip : origin.chain = host.chain := rfl
  have reached : host.chain.Reached byNonce := ground ▸ .genesis
  have supply : host.chain.state.supply ≤ MAX_MONEY.toNat := by
    rw [ground, show Chain.genesis.state = default from rfl, LedgerState.supply_default]
    decide
  have run : LiveRun byNonce (fun _ _ => True) 0 origin := .activated 0 rfl
  have bits : nextBits origin.chain.blocks = targetToBits initialTarget := by
    rw [tip, ground]
    rfl
  -- two candidates of different times on the same tip
  let env : NodeEnv := ⟨byNonce, 1789000000, Disk.reliable, default⟩
  let soon : NodeEnv := ⟨byNonce, 1789000001, Disk.reliable, default⟩
  obtain ⟨candidate, mined, built, empty, own, still, pool⟩ :=
    resting_node_mines reached supply LedgerState.addressMin env 0
  obtain ⟨other, twin, builtOther, emptyOther, ownOther, stillOther, poolOther⟩ :=
    resting_node_mines reached supply LedgerState.addressMin soon 0
  obtain ⟨share, found, time⟩ := zero_nonce_share bits built
  obtain ⟨rival, foundOther, timeOther⟩ := zero_nonce_share bits builtOther
  have first : share.candidateHeader.timestamp = 1789000000 := by
    rw [time, tip, ground]
    exact candidateTimestamp_genesis (show 1788984000 < (1789000000 : UInt64).toNat by decide)
  have second : rival.candidateHeader.timestamp = 1789000001 := by
    rw [timeOther, tip, ground]
    exact candidateTimestamp_genesis (show 1788984000 < (1789000001 : UInt64).toNat by decide)
  have none : mined.workshares.shares = ∅ := by
    rw [pool]
    rfl
  have accepts : ∃ stored node, mined.submitWorkshare soon rival = .ok (stored, node) := by
    -- the twin that built the rival's candidate has the same chain and the same pool
    have beside : LiveFrom byNonce (fun _ _ => True) 0 twin 0 mined :=
      .step .here (.elsewhere (still.trans stillOther.symm) (pool.trans poolOther.symm))
    apply (mined_share_accepted lived tip run).2 builtOther _ beside _ foundOther _ rfl
    · exact UInt64.le_iff_toNat_le.mpr (Nat.zero_le _)
    · rw [second]
      decide
    · rw [emptyOther]
      decide
    · rw [ownOther]
      exact collisionFree_oneTemplate (by rw [pool])
    · rw [none]
      exact Nat.lt_of_le_of_lt (Nat.le_of_eq Std.ExtTreeMap.size_empty) (by decide)
  obtain ⟨stored, node, submitted⟩ := accepts
  obtain ⟨_, _, _, accepted, _⟩ := Node.submitWorkshare_ok submitted
  obtain ⟨shares, templates⟩ :
      node.workshares.shares = (∅ : BTreeMap Hash32 Workshare).insert rival.id rival ∧
        node.workshares.templates = mined.workshares.templates := by
    rcases WorksharePool.accept_cases accepted with ⟨⟨_, present⟩, _⟩ | ⟨_, _, _, _, _, same⟩
    · rw [none, get_empty] at present
      cases present
    · rw [same, ← none]
      exact ⟨rfl, rfl⟩
  have fresh : node.workshares.shares[share.id]? = Option.none := by
    rw [shares, get_insert, if_neg, get_empty]
    intro same
    have times := spelled_share_time same
    rw [first, second] at times
    exact absurd times (by decide)
  have between : LiveFrom byNonce (fun _ _ => True) 0 mined soon.now node :=
    .step .here (.share rfl (UInt64.le_iff_toNat_le.mpr (Nat.zero_le _)) trivial submitted)
  have again : ∃ changed next, node.submitWorkshare soon share = .ok (changed, next) := by
    apply (mined_share_accepted lived tip run).2 built _ between _ found _ rfl (UInt64.le_refl _)
    · rw [first]
      decide
    · rw [empty]
      decide
    · rw [own]
      exact collisionFree_oneTemplate (by rw [templates, pool])
    · rw [shares, size_insert_fresh (get_empty rival.id)]
      exact Nat.lt_of_le_of_lt (Nat.le_of_eq (congrArg (· + 1) Std.ExtTreeMap.size_empty)) (by decide)
  obtain ⟨changed, next, last⟩ := again
  refine ⟨crypto, host, 0, env, soon, candidate, mined, node, next, rival, share, stored, changed, lived,
    built, submitted, ?_, found, fresh, last⟩
  rw [shares]
  exact get_insert_self _ _ _

end ParitrNode
