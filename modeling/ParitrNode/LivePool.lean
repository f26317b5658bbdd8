import ParitrNode.Node
import ParitrNode.ScheduledShares
import ParitrNode.SharePrefixes

/-!
The live pool while one tip stays active. Shares and templates only accumulate,
so the witness of a stored share stays what it was when the share was admitted;
what a later block changes is the timestamp the witness settles against.
-/

namespace ParitrNode
open ByteCodec OrderedMap Checked

namespace WorksharePool

structure Grows (pool larger : WorksharePool) : Prop where
  anchor : larger.anchor = pool.anchor
  templates : ∀ (id : Hash32) (template : BlockTemplate),
    pool.templates[id]? = some template → larger.templates[id]? = some template
  shares : ∀ (id : Hash32) (share : Workshare),
    pool.shares[id]? = some share → larger.shares[id]? = some share

theorem Grows.refl (pool : WorksharePool) : Grows pool pool :=
  ⟨rfl, fun _ _ found => found, fun _ _ found => found⟩

theorem get_insert_of_absent {ν : Type} {map : BTreeMap Hash32 ν} {key other : Hash32}
    {value found : ν} (absent : map[key]? = none) (present : map[other]? = some found) :
    (map.insert key value)[other]? = some found := by
  rw [get_insert]
  split
  next same =>
    rw [← same, absent] at present
    cases present
  next => exact present

theorem walkBack_mem {shares : BTreeMap Hash32 Workshare} {seen : List Hash32} {oldest : Workshare}
    {later path : List Workshare} (found : walkBack shares seen oldest later = .ok path) :
    ∀ share ∈ path, share = oldest ∨ share ∈ later ∨ ∃ id : Hash32, shares[id]? = some share := by
  induction seen, oldest, later using walkBack.induct shares with
  | case1 seen oldest later previous zero =>
    rw [walkBack, if_pos zero] at found
    cases found
    intro share member
    cases List.mem_cons.mp member with
    | inl same => exact Or.inl same
    | inr inside => exact Or.inr (Or.inl inside)
  | case2 seen oldest later previous linked stop =>
    rw [walkBack, if_neg linked, if_pos stop] at found
    cases found
  | case3 seen oldest later previous linked go missing =>
    rw [walkBack, if_neg linked, if_neg go, missing] at found
    cases found
  | case4 seen oldest later previous linked go share present ih =>
    rw [walkBack, if_neg linked, if_neg go, present] at found
    intro other member
    rcases ih found other member with same | inside | stored
    · exact Or.inr (Or.inr ⟨_, same ▸ present⟩)
    · cases List.mem_cons.mp inside with
      | inl same => exact Or.inl same
      | inr deeper => exact Or.inr (Or.inl deeper)
    · exact Or.inr (Or.inr stored)

theorem walkBack_grows {shares larger : BTreeMap Hash32 Workshare}
    (within : ∀ (id : Hash32) (share : Workshare), shares[id]? = some share → larger[id]? = some share)
    {seen : List Hash32} {oldest : Workshare} {later path : List Workshare}
    (found : walkBack shares seen oldest later = .ok path) :
    walkBack larger seen oldest later = .ok path := by
  induction seen, oldest, later using walkBack.induct shares with
  | case1 seen oldest later previous zero =>
    rw [walkBack, if_pos zero] at found ⊢
    exact found
  | case2 seen oldest later previous linked stop =>
    rw [walkBack, if_neg linked, if_pos stop] at found
    cases found
  | case3 seen oldest later previous linked go missing =>
    rw [walkBack, if_neg linked, if_neg go, missing] at found
    cases found
  | case4 seen oldest later previous linked go share present ih =>
    rw [walkBack, if_neg linked, if_neg go, present] at found
    rw [walkBack, if_neg linked, if_neg go, within _ share present]
    exact ih found

theorem candidateWitness_ok {pool : WorksharePool} {share : Workshare} {witness : WorkshareWitness} :
    pool.candidateWitness share = .ok witness ↔
      share.candidateHeader.previousBlock = pool.anchor ∧
        (∃ template, pool.templates[share.templateId]? = some template) ∧
          ∃ path, walkBack pool.shares [] share [] = .ok path ∧
            witness = ⟨WorkshareWitness.VERSION, pool.referencedTemplates path, path⟩ := by
  unfold candidateWitness
  simp only [guard_ok, bind_ok, not_or, Decidable.not_not, Option.isNone_iff_eq_none,
    Option.ne_none_iff_exists']
  constructor
  · intro ⟨⟨anchored, template⟩, path, walked, result⟩
    exact ⟨anchored, template, path, walked, (Except.ok.inj result).symm⟩
  · intro ⟨anchored, template, path, walked, result⟩
    exact ⟨⟨anchored, template⟩, path, walked, congrArg Except.ok result.symm⟩

theorem referencedTemplates_eq (pool : WorksharePool) (path : List Workshare) :
    pool.referencedTemplates path = (pool.templates.toList.filter fun entry =>
      decide (entry.1 ∈ path.map Workshare.templateId)).map Prod.snd := by
  unfold referencedTemplates
  induction pool.templates.toList with
  | nil => rfl
  | cons entry rest ih =>
    rw [List.filterMap_cons, List.filter_cons]
    by_cases referenced : entry.1 ∈ path.map Workshare.templateId
    · rw [if_pos referenced, if_pos (decide_eq_true referenced), List.map_cons, ih]
    · rw [if_neg referenced, if_neg (by rw [decide_eq_true_eq]; exact referenced), ih]

def Rooted (pool : WorksharePool) : Prop :=
  ∀ (id : Hash32) (share : Workshare), pool.shares[id]? = some share →
    ∃ witness, pool.candidateWitness share = .ok witness

/-- The witness of a share does not change as the pool grows. -/
theorem candidateWitness_grows {pool larger : WorksharePool} (rooted : Rooted pool)
    (grows : Grows pool larger) {share : Workshare} {witness : WorkshareWitness}
    (found : pool.candidateWitness share = .ok witness) :
    larger.candidateWitness share = .ok witness := by
  obtain ⟨anchored, ⟨template, present⟩, path, walked, result⟩ := candidateWitness_ok.mp found
  refine candidateWitness_ok.mpr ⟨anchored.trans grows.anchor.symm,
    ⟨template, grows.templates _ _ present⟩, path, walkBack_grows grows.shares walked, ?_⟩
  rw [result, referencedTemplates_eq, referencedTemplates_eq]
  have referenced : ∀ id, decide (id ∈ path.map Workshare.templateId) = true →
      pool.templates[id]? = larger.templates[id]? := by
    intro id selected
    obtain ⟨other, member, rfl⟩ := List.mem_map.mp (of_decide_eq_true selected)
    have known : ∃ template, pool.templates[other.templateId]? = some template := by
      rcases walkBack_mem walked other member with same | impossible | ⟨key, stored⟩
      · exact ⟨template, same ▸ present⟩
      · cases impossible
      · obtain ⟨_, own⟩ := rooted key other stored
        exact (candidateWitness_ok.mp own).2.1
    obtain ⟨known, stored⟩ := known
    rw [stored, grows.templates _ _ stored]
  rw [filter_toList_congr referenced]

variable [Crypto]

theorem accept_ok {pool next : WorksharePool} {share : Workshare} {changed : Bool}
    (accepted : pool.accept share = .ok (changed, next)) :
    next = pool ∨ pool.shares[share.id]? = none ∧ next.anchor = pool.anchor ∧
      next.templates = pool.templates ∧ next.shares = pool.shares.insert share.id share := by
  unfold accept at accepted
  cases present : pool.shares[share.id]? with
  | some stored =>
    simp only [present, Option.isSome_some, if_true] at accepted
    cases accepted
    exact Or.inl rfl
  | none =>
    simp only [present, Option.isSome_none, Bool.false_eq_true, if_false, guard_ok,
      bind_ok] at accepted
    obtain ⟨-, parentWork, -, weight, -, -, chosen⟩ := accepted
    split at chosen
    · cases chosen
      exact Or.inr ⟨rfl, rfl, rfl, rfl⟩
    · cases chosen
      exact Or.inr ⟨rfl, rfl, rfl, rfl⟩

theorem registerTemplate_ok_iff {pool next : WorksharePool} {template : BlockTemplate} :
    pool.registerTemplate template = .ok next ↔
      (template.parent = pool.anchor ∧ template.version = BlockTemplate.VERSION ∧
        template.consensusEncode.length ≤ MAX_TEMPLATE_BYTES) ∧
      ((∃ stored, pool.templates[template.id]? = some stored) ∧ next = pool ∨
        pool.templates[template.id]? = none ∧ pool.templates.size < MAX_TEMPLATES_PER_BLOCK ∧
          pool.templateBytes + template.consensusEncode.length ≤ 64 * 1024 * 1024 ∧
          next = { pool with
            templateBytes := pool.templateBytes + template.consensusEncode.length
            templates := pool.templates.insert template.id template }) := by
  unfold registerTemplate
  simp only [guard_ok, not_or, Decidable.not_not, Nat.not_lt, gt_iff_lt]
  apply and_congr_right
  intro _
  cases present : pool.templates[template.id]? with
  | some stored =>
    simp only [Option.isSome_some, if_true]
    constructor
    · intro same
      exact Or.inl ⟨⟨stored, rfl⟩, (Except.ok.inj same).symm⟩
    · intro known
      rcases known with ⟨_, same⟩ | ⟨impossible, _⟩
      · exact congrArg Except.ok same.symm
      · cases impossible
  | none =>
    simp only [Option.isSome_none, Bool.false_eq_true, if_false, guard_ok, not_or, Nat.not_le,
      Nat.not_lt, ge_iff_le]
    constructor
    · intro ⟨room, same⟩
      exact Or.inr ⟨trivial, room.1, room.2, (Except.ok.inj same).symm⟩
    · intro known
      rcases known with ⟨⟨_, impossible⟩, _⟩ | ⟨_, count, bytes, same⟩
      · cases impossible
      · exact ⟨⟨count, bytes⟩, congrArg Except.ok same.symm⟩

theorem registerTemplate_ok {pool next : WorksharePool} {template : BlockTemplate}
    (registered : pool.registerTemplate template = .ok next) :
    next = pool ∨ pool.templates[template.id]? = none ∧ next.anchor = pool.anchor ∧
      next.templates = pool.templates.insert template.id template ∧ next.shares = pool.shares := by
  rcases (registerTemplate_ok_iff.mp registered).2 with ⟨_, same⟩ | ⟨absent, _, _, same⟩
  · exact Or.inl same
  · rw [same]
    exact Or.inr ⟨absent, rfl, rfl, rfl⟩

theorem accept_grows {pool next : WorksharePool} {share : Workshare} {changed : Bool}
    (accepted : pool.accept share = .ok (changed, next)) : Grows pool next := by
  rcases accept_ok accepted with rfl | ⟨absent, anchor, templates, shares⟩
  · exact Grows.refl next
  · refine ⟨anchor, fun id template found => by rw [templates]; exact found, ?_⟩
    intro id other found
    rw [shares]
    exact get_insert_of_absent absent found

theorem registerTemplate_grows {pool next : WorksharePool} {template : BlockTemplate}
    (registered : pool.registerTemplate template = .ok next) : Grows pool next := by
  rcases registerTemplate_ok registered with rfl | ⟨absent, anchor, templates, shares⟩
  · exact Grows.refl next
  · refine ⟨anchor, ?_, fun id share found => by rw [shares]; exact found⟩
    intro id other found
    rw [templates]
    exact get_insert_of_absent absent found

end WorksharePool

/-! Runs on one tip. -/

section Runs

variable [Crypto]

namespace Node

theorem submitWorkshare_ok {node next : Node} {env : NodeEnv} {share : Workshare} {changed : Bool}
    (submitted : node.submitWorkshare env share = .ok (changed, next)) :
    ∃ witness, node.workshares.candidateWitness share = .ok witness ∧
      validateWorkshares witness node.chain.blocks node.chain.state env.pow
        (saturatingAdd env.now MAX_FUTURE_BLOCK_TIME) = .ok () ∧
      node.workshares.accept share = .ok (changed, next.workshares) ∧ next.chain = node.chain := by
  unfold submitWorkshare at submitted
  simp only [bind_ok] at submitted
  obtain ⟨witness, found, _, valid, ⟨changed', pool⟩, accepted, result⟩ := submitted
  cases result
  exact ⟨witness, found, valid, accepted, rfl⟩

theorem registerTemplate_ok {node next : Node} {template : BlockTemplate} {id : Hash32}
    (registered : node.registerTemplate template = .ok (id, next)) :
    next.chain = node.chain ∧ (next.workshares = node.workshares ∨
      validateTemplateTransactions template.transactions node.chain.state template.height = .ok () ∧
      node.workshares.registerTemplate template = .ok next.workshares) := by
  unfold registerTemplate at registered
  rw [guard_ok, guard_ok] at registered
  obtain ⟨-, -, registered⟩ := registered
  split at registered
  · cases registered
    exact ⟨rfl, Or.inl rfl⟩
  · simp only [bind_ok] at registered
    obtain ⟨_, valid, pool, stored, result⟩ := registered
    cases result
    exact ⟨rfl, Or.inr ⟨valid, stored⟩⟩

/-- How a candidate was put together: the mempool's transactions, the miner's
claim on their fees, the state after both, the live witness and the targets. -/
structure CandidateOf (node : Node) (env : NodeEnv) (extranonce : UInt64) (candidate : MiningCandidate)
    (claim : RewardClaim) (fees : UInt64) (allocation : RewardAllocation) (transition : Transition)
    (pool : WorksharePool) : Prop where
  selected : node.mempool.select node.chain.state MAX_BLOCK_TRANSACTIONS =
    some candidate.template.transactions
  summed : candidateFees candidate.template.transactions = .ok fees
  finder : node.minerAddress = some claim.finder
  allocated : rewardAllocation (node.chain.tip.header.height + 1) claim.finder fees
    node.chain.blocks = .ok allocation
  claimed : claim = ⟨RewardClaim.VERSION, node.chain.tip.header.height + 1, claim.finder,
    allocation.finderAmount, extranonce⟩
  transitioned : transitionForCandidate (node.chain.tip.header.height + 1) claim
    candidate.template.transactions node.chain.blocks node.chain.state = .ok transition
  witness : node.workshares.witness = some candidate.block.workshareWitness
  template : candidate.template = ⟨BlockTemplate.VERSION, node.chain.tip.header.height + 1,
    node.chain.tip.id, candidate.template.transactions⟩
  registered : node.workshares.registerTemplate candidate.template = .ok pool
  block : candidate.block = ⟨⟨HEADER_VERSION, PROTOCOL_VERSION, node.chain.tip.header.height + 1,
    node.chain.tip.id,
    merkleRoot (claim.id :: candidate.template.transactions.map Transaction.id),
    transition.state.root, candidate.block.workshareWitness.root,
    candidateTimestamp env.now node.chain, nextBits node.chain.blocks, 0⟩, some claim,
    candidate.template.transactions, candidate.block.workshareWitness⟩
  seed : randomxSeed node.chain.blocks (node.chain.tip.header.height + 1) = .ok candidate.seed
  blockTarget : bitsToTarget (nextBits node.chain.blocks) = some candidate.blockTarget
  workshareTarget : ∃ bits, workshareBits (nextBits node.chain.blocks) = some bits ∧
    bitsToTarget bits = some candidate.workshareTarget
  generation : candidate.generation = node.generation

theorem miningCandidate_ok_iff {node : Node} {env : NodeEnv} {extranonce : UInt64}
    {candidate : MiningCandidate} :
    (∃ next, node.miningCandidate env extranonce = .ok (candidate, next)) ↔
      ∃ claim fees allocation transition pool,
        node.CandidateOf env extranonce candidate claim fees allocation transition pool := by
  unfold miningCandidate
  simp only [bind_ok, okOr_ok]
  constructor
  · intro ⟨next, transactions, selected, fees, summed, finder, payee, allocation, allocated,
      transition, transitioned, witness, live, pool, registered, seed, seeded, blockTarget, target,
      bits, shared, workshareTarget, shareTarget, result⟩
    cases result
    exact ⟨_, fees, allocation, transition, pool, selected, summed, payee, allocated, rfl,
      transitioned, live, rfl, registered, rfl, seeded, target, ⟨bits, shared, shareTarget⟩, rfl⟩
  · intro ⟨claim, fees, allocation, transition, pool, built⟩
    obtain ⟨selected, summed, payee, allocated, sameClaim, transitioned, live, sameTemplate,
      registered, sameBlock, seeded, target, ⟨bits, shared, shareTarget⟩, generation⟩ := built
    obtain ⟨⟨header, rewardClaim, transactions, witness⟩, ⟨version, height, parent, listed⟩, seed,
      blockTarget, workshareTarget, counter⟩ := candidate
    dsimp only at *
    cases sameTemplate
    cases sameBlock
    subst generation
    generalize claim.finder = finder at *
    subst sameClaim
    exact ⟨_, _, selected, fees, summed, finder, payee, allocation, allocated, transition,
      transitioned, witness, live, pool, registered, seed, seeded, blockTarget, target, bits, shared,
      workshareTarget, shareTarget, rfl⟩

theorem miningCandidate_ok {node next : Node} {env : NodeEnv} {extranonce : UInt64}
    {candidate : MiningCandidate}
    (mined : node.miningCandidate env extranonce = .ok (candidate, next)) :
    node.workshares.witness = some candidate.block.workshareWitness ∧
      candidate.block.header.timestamp = candidateTimestamp env.now node.chain ∧
      next.chain = node.chain ∧
      node.workshares.registerTemplate candidate.template = .ok next.workshares := by
  unfold miningCandidate at mined
  simp only [bind_ok, okOr_ok] at mined
  obtain ⟨transactions, -, fees, -, finder, -, allocation, -, transition, -, witness, found,
    workshares, registered, seed, -, blockTarget, -, shareBits, -, shareTarget, -, result⟩ := mined
  cases result
  refine ⟨found, rfl, ?_, ?_⟩
  · split
    · rfl
    · rfl
  · rw [registered]
    split
    · rfl
    · rfl

end Node

/-- What a node does while its tip stays, with the clock reading before and after:
templates and admitted shares come in, candidates are built, and everything else
leaves the chain and the pool alone. -/
inductive LiveStep (pow : PowVerifier) (rule : UInt64 → Workshare → Prop) (now : UInt64)
    (node : Node) : UInt64 → Node → Prop
  | template {next : Node} {template : BlockTemplate} {id : Hash32}
      (registered : node.registerTemplate template = .ok (id, next)) :
      LiveStep pow rule now node now next
  | share {next : Node} {env : NodeEnv} {share : Workshare} {changed : Bool}
      (oracle : env.pow = pow) (later : now ≤ env.now) (admitted : rule env.now share)
      (submitted : node.submitWorkshare env share = .ok (changed, next)) :
      LiveStep pow rule now node env.now next
  | mined {next : Node} {env : NodeEnv} {extranonce : UInt64} {candidate : MiningCandidate}
      (built : node.miningCandidate env extranonce = .ok (candidate, next)) :
      LiveStep pow rule now node now next
  | elsewhere {next : Node} (chain : next.chain = node.chain)
      (pool : next.workshares = node.workshares) : LiveStep pow rule now node now next

/-- A node while one tip stays active, with its last clock reading. The pool is
empty when the tip becomes active. -/
inductive LiveRun (pow : PowVerifier) (rule : UInt64 → Workshare → Prop) : UInt64 → Node → Prop
  | activated {node : Node} (now : UInt64)
      (empty : node.workshares = WorksharePool.reset node.chain.tip.id) : LiveRun pow rule now node
  | step {now later : UInt64} {node next : Node} (run : LiveRun pow rule now node)
      (step : LiveStep pow rule now node later next) : LiveRun pow rule later next

/-- The invariant of such a run: each stored share has been validated with its
path on this chain, and was admitted by the rule. -/
structure Settled (chain : Chain) (pow : PowVerifier) (rule : UInt64 → Workshare → Prop)
    (now : UInt64) (pool : WorksharePool) : Prop where
  validated : ∀ (id : Hash32) (share : Workshare), pool.shares[id]? = some share →
    ∃ witness settling, pool.candidateWitness share = .ok witness ∧
      validateWorkshares witness chain.blocks chain.state pow settling = .ok ()
  admitted : ∀ (id : Hash32) (share : Workshare), pool.shares[id]? = some share →
    ∃ earlier ≤ now, rule earlier share

variable {pow : PowVerifier} {rule : UInt64 → Workshare → Prop}

theorem Settled.rooted {chain : Chain} {now : UInt64} {pool : WorksharePool}
    (settled : Settled chain pow rule now pool) : pool.Rooted := by
  intro id share stored
  obtain ⟨witness, _, found, _⟩ := settled.validated id share stored
  exact ⟨witness, found⟩

theorem settled_reset (chain : Chain) (now : UInt64) (anchor : Hash32) :
    Settled chain pow rule now (WorksharePool.reset anchor) where
  validated id share stored := by
    change (∅ : BTreeMap Hash32 Workshare)[id]? = some share at stored
    rw [get_empty] at stored
    cases stored
  admitted id share stored := by
    change (∅ : BTreeMap Hash32 Workshare)[id]? = some share at stored
    rw [get_empty] at stored
    cases stored

theorem Settled.template {chain : Chain} {now : UInt64} {pool next : WorksharePool}
    {template : BlockTemplate} (settled : Settled chain pow rule now pool)
    (registered : pool.registerTemplate template = .ok next) : Settled chain pow rule now next := by
  have grows := WorksharePool.registerTemplate_grows registered
  have shares : next.shares = pool.shares := by
    rcases WorksharePool.registerTemplate_ok registered with rfl | ⟨-, -, -, shares⟩
    · rfl
    · exact shares
  refine ⟨?_, fun id share stored => settled.admitted id share (shares ▸ stored)⟩
  intro id share stored
  obtain ⟨witness, settling, found, valid⟩ := settled.validated id share (shares ▸ stored)
  exact ⟨witness, settling,
    WorksharePool.candidateWitness_grows settled.rooted grows found, valid⟩

theorem Settled.share {chain : Chain} {now later settling : UInt64} {pool next : WorksharePool}
    {share : Workshare} {changed : Bool} {witness : WorkshareWitness}
    (settled : Settled chain pow rule now pool) (after : now ≤ later) (admitted : rule later share)
    (found : pool.candidateWitness share = .ok witness)
    (valid : validateWorkshares witness chain.blocks chain.state pow settling = .ok ())
    (accepted : pool.accept share = .ok (changed, next)) : Settled chain pow rule later next := by
  have grows := WorksharePool.accept_grows accepted
  -- a stored share is an earlier one or the new one
  have cases_of : ∀ (id : Hash32) (other : Workshare), next.shares[id]? = some other →
      pool.shares[id]? = some other ∨ other = share := by
    intro id other stored
    rcases WorksharePool.accept_ok accepted with rfl | ⟨-, -, -, shares⟩
    · exact Or.inl stored
    · rw [shares, get_insert] at stored
      split at stored
      · cases stored
        exact Or.inr rfl
      · exact Or.inl stored
  constructor
  · intro id other stored
    cases cases_of id other stored with
    | inl earlier =>
      obtain ⟨own, time, path, checked⟩ := settled.validated id other earlier
      exact ⟨own, time, WorksharePool.candidateWitness_grows settled.rooted grows path, checked⟩
    | inr new =>
      subst new
      exact ⟨witness, settling, WorksharePool.candidateWitness_grows settled.rooted grows found,
        valid⟩
  · intro id other stored
    cases cases_of id other stored with
    | inl earlier =>
      obtain ⟨time, before, ruled⟩ := settled.admitted id other earlier
      exact ⟨time, UInt64.le_trans before after, ruled⟩
    | inr new => exact ⟨later, UInt64.le_refl later, new ▸ admitted⟩

theorem LiveStep.settled {now later : UInt64} {node next : Node}
    (step : LiveStep pow rule now node later next)
    (settled : Settled node.chain pow rule now node.workshares) :
    Settled next.chain pow rule later next.workshares := by
  cases step with
  | template registered =>
    obtain ⟨chain, pool⟩ := Node.registerTemplate_ok registered
    rw [chain]
    cases pool with
    | inl same => exact same ▸ settled
    | inr stored => exact settled.template stored.2
  | share oracle later admitted submitted =>
    obtain ⟨witness, found, valid, accepted, chain⟩ := Node.submitWorkshare_ok submitted
    rw [oracle] at valid
    rw [chain]
    exact settled.share later admitted found valid accepted
  | mined built =>
    obtain ⟨-, -, chain, stored⟩ := Node.miningCandidate_ok built
    rw [chain]
    exact settled.template stored
  | elsewhere chain pool =>
    rw [chain, pool]
    exact settled

theorem LiveRun.settled {now : UInt64} {node : Node} (run : LiveRun pow rule now node) :
    Settled node.chain pow rule now node.workshares := by
  induction run with
  | activated now empty =>
    rw [empty]
    exact settled_reset _ _ _
  | step _ step ih => exact step.settled ih

omit [Crypto] in
theorem witness_some {pool : WorksharePool} {witness : WorkshareWitness}
    (found : pool.witness = some witness) : witness = WorkshareWitness.empty ∨
      ∃ share, pool.shares[pool.tip]? = some share ∧ pool.candidateWitness share = .ok witness := by
  unfold WorksharePool.witness at found
  split at found
  · exact Or.inl (Option.some.inj found).symm
  · simp only [Option.bind_eq_bind, Option.bind_eq_some_iff] at found
    obtain ⟨share, stored, path⟩ := found
    refine Or.inr ⟨share, stored, ?_⟩
    cases walked : pool.candidateWitness share with
    | error error => rw [walked] at path; cases path
    | ok own => rw [walked] at path; cases path; rfl

/-- The live witness was valid when its newest share was admitted. -/
theorem LiveRun.witness_validated {now : UInt64} {node : Node} (run : LiveRun pow rule now node)
    {witness : WorkshareWitness} (found : node.workshares.witness = some witness) :
    ∃ settling, validateWorkshares witness node.chain.blocks node.chain.state pow settling = .ok () := by
  rcases witness_some found with rfl | ⟨share, stored, path⟩
  · exact ⟨0, validateWorkshares_empty _ _ _ _⟩
  · obtain ⟨own, settling, found', valid⟩ := run.settled.validated _ share stored
    rw [path] at found'
    cases found'
    exact ⟨settling, valid⟩

omit [Crypto] in
/-- What the clock, the parent and the median time make of a candidate's timestamp. -/
theorem le_candidateTimestamp {now timestamp : UInt64} {chain : Chain} :
    timestamp ≤ Node.candidateTimestamp now chain ↔ timestamp ≤ now ∨
      timestamp ≤ chain.tip.header.timestamp + 1 ∨ timestamp ≤ medianTimePast chain.blocks + 1 := by
  unfold Node.candidateTimestamp
  simp only [UInt64.le_iff_toNat_le, toNat_max]
  omega

/-- A mined block settles its witness exactly when no share on the live path is
stamped after the clock, the parent and the median time allow. -/
theorem candidate_settles_iff {now : UInt64} {node next : Node} {env : NodeEnv}
    {extranonce : UInt64} {candidate : MiningCandidate} (run : LiveRun pow rule now node)
    (oracle : env.pow = pow)
    (mined : node.miningCandidate env extranonce = .ok (candidate, next)) :
    validateWorkshares candidate.block.workshareWitness node.chain.blocks node.chain.state env.pow
        candidate.block.header.timestamp = .ok () ↔
      ∀ witness ∈ node.workshares.witness, ∀ share ∈ witness.workshares,
        share.candidateHeader.timestamp ≤ env.now ∨
        share.candidateHeader.timestamp ≤ node.chain.tip.header.timestamp + 1 ∨
        share.candidateHeader.timestamp ≤ medianTimePast node.chain.blocks + 1 := by
  obtain ⟨live, timestamp, -, -⟩ := Node.miningCandidate_ok mined
  obtain ⟨settling, valid⟩ := run.witness_validated live
  rw [oracle, timestamp, validateWorkshares_settling_iff valid, live]
  simp only [Option.mem_some_iff, forall_eq', le_candidateTimestamp]

omit [Crypto] in
theorem stored_of_witness {pool : WorksharePool} {witness : WorkshareWitness}
    (live : pool.witness = some witness) :
    ∀ share ∈ witness.workshares, ∃ id : Hash32, pool.shares[id]? = some share := by
  rcases witness_some live with rfl | ⟨newest, stored, found⟩
  · exact fun share inside => nomatch inside
  · obtain ⟨-, -, path, walked, rfl⟩ := WorksharePool.candidateWitness_ok.mp found
    intro share member
    rcases WorksharePool.walkBack_mem walked share member with same | impossible | earlier
    · exact ⟨_, same ▸ stored⟩
    · cases impossible
    · exact earlier

/-- Shares stamped no later than the clock that admitted them never spoil a block. -/
theorem prompt_shares_settle {now : UInt64} {node next : Node} {env : NodeEnv}
    {extranonce : UInt64} {candidate : MiningCandidate}
    (run : LiveRun pow (fun admitted share => share.candidateHeader.timestamp ≤ admitted) now node)
    (oracle : env.pow = pow) (later : now ≤ env.now)
    (mined : node.miningCandidate env extranonce = .ok (candidate, next)) :
    validateWorkshares candidate.block.workshareWitness node.chain.blocks node.chain.state env.pow
      candidate.block.header.timestamp = .ok () := by
  obtain ⟨live, timestamp, -, -⟩ := Node.miningCandidate_ok mined
  obtain ⟨settling, valid⟩ := run.witness_validated live
  rw [oracle, timestamp, validateWorkshares_settling_iff valid]
  intro share member
  obtain ⟨id, stored⟩ := stored_of_witness live share member
  obtain ⟨admitted, before, prompt⟩ := run.settled.admitted id share stored
  exact le_candidateTimestamp.mpr (Or.inl (UInt64.le_trans prompt (UInt64.le_trans before later)))

end Runs

/-! A share from the future on genesis. -/

section FutureShare

variable [Crypto]

def openedNode (miner : Address) : Node := restingNode Chain.genesis miner

def oneTemplate (parent : Block) : WorksharePool :=
  { WorksharePool.reset parent.id with
    templates := (∅ : BTreeMap Hash32 BlockTemplate).insert (emptyTemplate parent).id
      (emptyTemplate parent)
    templateBytes := (emptyTemplate parent).consensusEncode.length }

theorem emptyTemplate_length (parent : Block) : (emptyTemplate parent).consensusEncode.length = 46 := by
  simp [emptyTemplate, BlockTemplate.consensusEncode, encodeTransactions]

theorem register_first (parent : Block) :
    (WorksharePool.reset parent.id).registerTemplate (emptyTemplate parent) =
      .ok (oneTemplate parent) := by
  have absent : (WorksharePool.reset parent.id).templates[(emptyTemplate parent).id]? = none :=
    get_empty _
  have size : (WorksharePool.reset parent.id).templates.size = 0 := Std.ExtTreeMap.size_empty
  unfold WorksharePool.registerTemplate
  rw [emptyTemplate_length, absent, size, if_neg (by simp [emptyTemplate, MAX_TEMPLATE_BYTES,
    WorksharePool.reset]), if_neg (by decide), if_neg]
  · rw [oneTemplate, emptyTemplate_length]
    rfl
  · simp [WorksharePool.reset, MAX_TEMPLATES_PER_BLOCK]

theorem register_again (pool : WorksharePool) {parent : Block} (anchor : pool.anchor = parent.id)
    (present : pool.templates[(emptyTemplate parent).id]? = some (emptyTemplate parent)) :
    pool.registerTemplate (emptyTemplate parent) = .ok pool := by
  unfold WorksharePool.registerTemplate
  rw [emptyTemplate_length, if_neg, present]
  · rfl
  · simp [emptyTemplate, MAX_TEMPLATE_BYTES, anchor]

theorem mining_on_genesis {node : Node} {env : NodeEnv} {miner : Address} {pool : WorksharePool}
    {witness : WorkshareWitness} (chain : node.chain = Chain.genesis)
    (mempool : node.mempool = Mempool.new default) (payee : node.minerAddress = some miner)
    (live : node.workshares.witness = some witness)
    (registered : node.workshares.registerTemplate (emptyTemplate Block.genesis) = .ok pool) :
    ∃ candidate next, node.miningCandidate env 0 = .ok (candidate, next) := by
  have valid : ValidHistory env.pow [Block.genesis] default := .genesis
  have last : [Block.genesis].getLast? = some Block.genesis := rfl
  have short : [Block.genesis].length ≤ 2 ^ 32 := show 1 ≤ 2 ^ 32 by decide
  obtain ⟨final, transitioned⟩ := soleClaim_transition valid onSchedule_genesis short last miner
  obtain ⟨seed, seeded⟩ := randomxSeed_found valid.linked (tip_succ valid short last)
  have bits := onSchedule_genesis.nextBits valid
  have selected : node.mempool.select node.chain.state MAX_BLOCK_TRANSACTIONS = some [] := by
    have size : (Mempool.new default).entries.size = 0 := Std.ExtTreeMap.size_empty
    rw [mempool, Mempool.select, size]
    rfl
  have allocated := rewardAllocation_alone (Block.genesis.header.height + 1) miner
    onSchedule_genesis.windowShares
  apply Exists.intro
  apply Exists.intro
  unfold Node.miningCandidate
  simp only [bind_ok, okOr_ok, chain]
  exact ⟨[], chain ▸ selected, 0, rfl, miner, payee, _, allocated, _, transitioned, witness, live,
    pool, registered, seed, seeded, launchTarget, (congrArg bitsToTarget bits).trans
    bitsToTarget_launch, _, (congrArg workshareBits bits).trans workshareBits_launch,
    launchShareTarget, bitsToTarget_share, rfl⟩

omit [Crypto] in
theorem workshareWeight_launch :
    workshareWeight (targetToBits initialTarget) = .ok (targetWork launchShareTarget) := by
  unfold workshareWeight
  simp only [bind_ok, okOr_ok]
  exact ⟨_, workshareBits_launch, _, bitsToTarget_share, rfl⟩

theorem accept_first {pool : WorksharePool} {share : Workshare} (none : pool.shares = ∅)
    (noWork : pool.pathWork = ∅) (noTip : pool.tip = Hash32.ZERO)
    (first : share.previousWorkshare = Hash32.ZERO)
    (bits : share.candidateHeader.bits = targetToBits initialTarget)
    (named : share.id ≠ Hash32.ZERO) :
    ∃ next, pool.accept share = .ok (true, next) ∧ next.tip = share.id ∧
      next.shares[share.id]? = some share := by
  have absent : pool.shares[share.id]? = Option.none := by
    rw [none]
    exact get_empty share.id
  have size : pool.shares.size = 0 := by
    rw [none]
    exact Std.ExtTreeMap.size_empty
  have work : targetWork launchShareTarget = 512 := by decide +kernel
  have weight := workshareWeight_launch
  rw [← bits, work] at weight
  have top : 512 ≤ MAX_U256 := by decide +kernel
  have tipWork : (pool.pathWork.insert share.id (0 + 512))[pool.tip]? = Option.none := by
    rw [get_insert, noTip, noWork, if_neg named]
    exact get_empty Hash32.ZERO
  refine ⟨{ pool with
    shares := pool.shares.insert share.id share
    pathWork := pool.pathWork.insert share.id (0 + 512)
    tip := share.id }, ?_, rfl, get_insert_self _ _ _⟩
  unfold WorksharePool.accept WorksharePool.parentWork
  rw [absent, size, if_neg (by decide), if_neg (by decide), if_pos first]
  simp only [bind_ok]
  refine ⟨0, rfl, 512, weight, ?_⟩
  rw [if_neg (by omega)]
  simp only [tipWork]
  rfl

theorem witness_of_first {pool : WorksharePool} {parent : Block} {miner : Address}
    {stateRoot : Hash32} {timestamp : UInt64} (anchor : pool.anchor = parent.id)
    (templates : pool.templates = (oneTemplate parent).templates) :
    pool.candidateWitness (emptyShare parent miner stateRoot timestamp Hash32.ZERO
      WorkshareWitness.empty) = .ok (settlingWitness parent miner stateRoot timestamp 1) := by
  refine WorksharePool.candidateWitness_ok.mpr ⟨anchor.symm, ⟨emptyTemplate parent, ?_⟩,
    [emptyShare parent miner stateRoot timestamp Hash32.ZERO WorkshareWitness.empty], ?_, ?_⟩
  · rw [templates]
    exact get_insert_self ∅ _ _
  · rw [WorksharePool.walkBack]
    exact if_pos rfl
  · have referenced : pool.referencedTemplates [emptyShare parent miner stateRoot timestamp
        Hash32.ZERO WorkshareWitness.empty] = [emptyTemplate parent] := by
      unfold WorksharePool.referencedTemplates
      rw [templates, oneTemplate, toList_singleton, List.filterMap_cons, if_pos]
      · rfl
      · exact List.mem_singleton_self _
    rw [referenced]
    rfl

omit [Crypto] in
theorem witness_of_tip {pool : WorksharePool} {share : Workshare} {witness : WorkshareWitness}
    (named : pool.tip ≠ Hash32.ZERO) (stored : pool.shares[pool.tip]? = some share)
    (found : pool.candidateWitness share = .ok witness) : pool.witness = some witness := by
  unfold WorksharePool.witness
  rw [if_neg named, stored]
  change (pool.candidateWitness share).toOption = some witness
  rw [found]
  rfl

def stockedNode (miner : Address) : Node :=
  { openedNode miner with workshares := oneTemplate Block.genesis }.broadcast
    (.inventory .template (emptyTemplate Block.genesis).id)

theorem openedNode_registers (miner : Address) :
    (openedNode miner).registerTemplate (emptyTemplate Block.genesis) =
      .ok ((emptyTemplate Block.genesis).id, stockedNode miner) := by
  have absent : (openedNode miner).workshares.templates[(emptyTemplate Block.genesis).id]? = none :=
    get_empty _
  have transactions : validateTemplateTransactions (emptyTemplate Block.genesis).transactions
      (openedNode miner).chain.state (emptyTemplate Block.genesis).height = .ok () := by
    obtain ⟨matured, maturedOk⟩ := LedgerState.matured_succeeds default
      (emptyTemplate Block.genesis).height (by rw [LedgerState.supply_default]; decide)
    unfold validateTemplateTransactions
    rw [if_neg (by simp [emptyTemplate])]
    exact bind_ok.mpr ⟨matured, maturedOk, rfl⟩
  unfold Node.registerTemplate
  rw [emptyTemplate_length, if_neg (by simp [emptyTemplate, MAX_TEMPLATE_BYTES]), if_neg, absent, if_neg (by decide), transactions]
  · exact bind_ok.mpr ⟨(), rfl, bind_ok.mpr ⟨_, register_first Block.genesis, rfl⟩⟩
  · exact fun misplaced => misplaced.elim (fun height => height rfl) (fun parent => parent rfl)

end FutureShare

theorem share_then_candidate (timestamp now : UInt64) (late : 1788984000 < timestamp.toNat)
    (soon : timestamp ≤ saturatingAdd now MAX_FUTURE_BLOCK_TIME) :
    let _ := labelled
    ∃ (node next : Node) (env : NodeEnv) (candidate : MiningCandidate) (miner : Address)
      (stateRoot : Hash32), LiveRun byNonce (fun _ _ => True) now node ∧ env.pow = byNonce ∧
        env.now = now ∧ node.chain = Chain.genesis ∧
        node.miningCandidate env 0 = .ok (candidate, next) ∧
        node.workshares.witness =
          some (settlingWitness Block.genesis miner stateRoot timestamp 1) := by
  let _ := labelled
  intro _
  let miner := LedgerState.addressMin
  let env : NodeEnv := ⟨byNonce, now, Disk.reliable, default⟩
  have valid : ValidHistory byNonce [Block.genesis] default := .genesis
  have last : [Block.genesis].getLast? = some Block.genesis := rfl
  have short : [Block.genesis].length ≤ 2 ^ 32 := show 1 ≤ 2 ^ 32 by decide
  obtain ⟨final, transitioned⟩ := soleClaim_transition valid onSchedule_genesis short last miner
  let share := emptyShare Block.genesis miner final.root timestamp Hash32.ZERO
    WorkshareWitness.empty
  have named : share.id ≠ Hash32.ZERO := by
    have label : share.id = FixedBytes.ofNat 32 293 :=
      labelled_domainHash "PARITR-P9-WORKSHARE-v1" share.consensusEncode 293 (by simp; decide)
        (by decide)
    rw [label]
    decide
  let stocked := stockedNode miner
  have found : stocked.workshares.candidateWitness share =
      .ok (settlingWitness Block.genesis miner final.root timestamp 1) := witness_of_first rfl rfl
  have settles := settlingWitness_settles valid onSchedule_genesis short last transitioned late soon 1
  have first : ∃ pool, stocked.workshares.accept share = .ok (true, pool) ∧ pool.tip = share.id ∧
      pool.shares[share.id]? = some share := accept_first rfl rfl rfl rfl rfl named
  obtain ⟨pool, accepted, tip, stored⟩ := first
  let loaded : Node := { stocked with workshares := pool, generation := 1 }.broadcast
    (.inventory .workshare share.id)
  have submitted : stocked.submitWorkshare env share = .ok (true, loaded) :=
    bind_ok.mpr ⟨_, found, bind_ok.mpr ⟨(), settles, bind_ok.mpr ⟨_, accepted, rfl⟩⟩⟩
  have before : LiveRun byNonce (fun _ _ => True) now stocked :=
    (LiveRun.activated now rfl).step (.template (openedNode_registers miner))
  have run : LiveRun byNonce (fun _ _ => True) env.now loaded :=
    before.step (.share rfl (UInt64.le_refl now) trivial submitted)
  have grown := WorksharePool.accept_grows accepted
  have live : pool.witness = some (settlingWitness Block.genesis miner final.root timestamp 1) :=
    witness_of_tip (tip ▸ named) (tip ▸ stored)
      (WorksharePool.candidateWitness_grows before.settled.rooted grown found)
  have template := grown.templates _ _ (get_insert_self ∅ (emptyTemplate Block.genesis).id
    (emptyTemplate Block.genesis))
  have mining : ∃ candidate next, loaded.miningCandidate env 0 = .ok (candidate, next) :=
    mining_on_genesis rfl rfl rfl live (register_again pool grown.anchor template)
  obtain ⟨candidate, next, mined⟩ := mining
  exact ⟨loaded, next, env, candidate, miner, final.root, run, rfl, rfl, rfl, mined, live⟩

/-- A share stamped now does not keep the next block from settling it. -/
theorem present_share_settles :
    let _ := labelled
    ∃ (node next : Node) (env : NodeEnv) (candidate : MiningCandidate),
      node.miningCandidate env 0 = .ok (candidate, next) ∧
        candidate.block.workshareWitness.workshares ≠ [] ∧
        validateWorkshares candidate.block.workshareWitness node.chain.blocks node.chain.state
          env.pow candidate.block.header.timestamp = .ok () := by
  let _ := labelled
  intro _
  have scenario := share_then_candidate 1789000000 1789000000 (by decide) (by decide)
  obtain ⟨node, next, env, candidate, miner, stateRoot, run, oracle, clock, chain, mined, live⟩ :=
    scenario
  refine ⟨node, next, env, candidate, mined, ?_, (candidate_settles_iff run oracle mined).mpr ?_⟩
  · rw [Option.some.inj ((Node.miningCandidate_ok mined).1.symm.trans live)]
    exact List.cons_ne_nil _ _
  · intro witness member share inside
    rw [live] at member
    cases member
    cases List.mem_singleton.mp inside
    exact Or.inl (UInt64.le_of_eq clock.symm)

/-- A share from five minutes ahead is admitted and then spoils the block. -/
theorem future_share_unsettled :
    let _ := labelled
    ¬∀ (pow : PowVerifier) (now : UInt64) (node next : Node) (env : NodeEnv) (extranonce : UInt64)
      (candidate : MiningCandidate), LiveRun pow (fun _ _ => True) now node → env.pow = pow →
        now ≤ env.now → node.miningCandidate env extranonce = .ok (candidate, next) →
        validateWorkshares candidate.block.workshareWitness node.chain.blocks node.chain.state
          env.pow candidate.block.header.timestamp = .ok () := by
  let _ := labelled
  intro _ always
  have scenario := share_then_candidate 1789000300 1789000000 (by decide) (by decide)
  obtain ⟨node, next, env, candidate, miner, stateRoot, run, oracle, clock, chain, mined, live⟩ :=
    scenario
  have settles := always byNonce 1789000000 node next env 0 candidate run oracle
    (UInt64.le_of_eq clock.symm) mined
  obtain ⟨found, timestamp, -, -⟩ := Node.miningCandidate_ok mined
  obtain ⟨settling, valid⟩ := run.witness_validated live
  rw [live] at found
  rw [← Option.some.inj found, oracle, validateWorkshares_settling_iff valid, timestamp,
    clock, chain] at settles
  have above := settles _ (List.mem_singleton_self _)
  rw [le_candidateTimestamp] at above
  have median : (medianTimePast [Block.genesis]).toNat ≤ 1788984000 := by
    apply medianTimePast_le
    intro block member
    cases List.mem_singleton.mp member
    decide
  have one : (1 : UInt64).toNat = 1 := rfl
  rcases above with clock | parent | middle
  · exact absurd clock (show ¬(1789000300 : UInt64) ≤ 1789000000 by decide)
  · exact absurd parent (show ¬(1789000300 : UInt64) ≤ GENESIS_TIMESTAMP + 1 by decide)
  · have bound := UInt64.le_iff_toNat_le.mp middle
    change 1789000300 ≤ (medianTimePast [Block.genesis] + 1).toNat at bound
    rw [toNat_add (by omega)] at bound
    omega

end ParitrNode
