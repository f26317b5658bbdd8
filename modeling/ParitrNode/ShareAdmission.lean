import ParitrNode.PathWork

/-!
A share on a stored path and a stored template is admitted by the live pool as
soon as its own checks pass: its path settles again at every later clock.
-/

namespace ParitrNode
open ByteCodec OrderedMap Checked KeyOrder

variable [Crypto]

/-- One chain gives its shares one context, up to the templates and the settling time. -/
theorem SettlesOn.agree {witness other : WorkshareWitness} {history : List Block}
    {state : LedgerState} {pow : PowVerifier} {context second : ShareContext}
    (settles : SettlesOn witness history state pow context)
    (again : SettlesOn other history state pow second) :
    second = { context with
      templates := second.templates, settlingTimestamp := second.settlingTimestamp } := by
  obtain ⟨shareBits, shared, shareRead⟩ := settles.shareTarget
  obtain ⟨otherBits, otherShared, otherRead⟩ := again.shareTarget
  have parent := settles.parentLast.symm.trans again.parentLast
  have bits := settles.expectedBits.trans again.expectedBits.symm
  have seed := settles.seed
  rw [Option.some.inj parent, again.seed] at seed
  have target := settles.blockTarget
  rw [bits, again.blockTarget] at target
  rw [bits, otherShared] at shared
  rw [← Option.some.inj shared, otherRead] at shareRead
  have state := settles.state.trans again.state.symm
  have past := settles.history.trans again.history.symm
  have oracle := settles.oracle.trans again.oracle.symm
  have median := settles.medianTime.trans again.medianTime.symm
  cases context
  cases second
  dsimp only at *
  cases parent
  cases bits
  cases seed
  cases target
  cases shareRead
  rw [state, past, oracle, median]

theorem SettlesOn.carrying {witness : WorkshareWitness} {history : List Block} {state : LedgerState}
    {pow : PowVerifier} {context : ShareContext} (settles : SettlesOn witness history state pow context)
    (other : WorkshareWitness) (settling : UInt64) :
    SettlesOn other history state pow { context with
      templates := templatesById other.templates, settlingTimestamp := settling } where
  parentLast := settles.parentLast
  seed := settles.seed
  expectedBits := settles.expectedBits
  blockTarget := settles.blockTarget
  shareTarget := settles.shareTarget
  history := settles.history
  state := settles.state
  oracle := settles.oracle
  templates := rfl
  medianTime := settles.medianTime

theorem ShareChecks.withTemplates {context : ShareContext} {previous : Hash32}
    {before : WorkshareWitness} {share : Workshare} {template : BlockTemplate}
    (checks : ShareChecks context previous before share template)
    {templates : BTreeMap Hash32 BlockTemplate} (settling : UInt64)
    (same : templates[share.templateId]? = context.templates[share.templateId]?) :
    ShareChecks { context with templates, settlingTimestamp := settling } previous before share
      template where
  version := checks.version
  linked := checks.linked
  headerVersion := checks.headerVersion
  protocol := checks.protocol
  height := checks.height
  parent := checks.parent
  bits := checks.bits
  afterParent := checks.afterParent
  afterMedian := checks.afterMedian
  templateOk := by
    rw [← checks.templateOk]
    unfold shareTemplate
    dsimp only
    rw [same]
  rest := checks.rest

inductive Extends (pool : WorksharePool) (share : Workshare) : List Workshare → Prop
  | root (first : share.previousWorkshare = Hash32.ZERO) : Extends pool share []
  | step {parent : Workshare} {path : List Workshare}
      (linked : share.previousWorkshare ≠ Hash32.ZERO)
      (found : pool.shares[share.previousWorkshare]? = some parent)
      (earlier : PathTo (fun id => pool.shares[id]?) parent path) : Extends pool share path

namespace Extends

omit [Crypto] in
theorem pathTo {pool : WorksharePool} {share : Workshare} {path : List Workshare}
    (base : Extends pool share path) : PathTo (fun id => pool.shares[id]?) share (path ++ [share]) := by
  cases base with
  | root first => exact .root first
  | step linked found earlier => exact .step linked found earlier

omit [Crypto] in
theorem stored {pool : WorksharePool} {share : Workshare} {path : List Workshare}
    (base : Extends pool share path) : ∀ other ∈ path, ∃ id : Hash32, pool.shares[id]? = some other := by
  intro other member
  cases base with
  | root => cases member
  | step _ found earlier =>
    rcases earlier.members other member with same | known
    · exact ⟨_, same ▸ found⟩
    · exact known

theorem lastId {pool : WorksharePool} {share : Workshare} {path : List Workshare}
    (base : Extends pool share path)
    (named : ∀ (id : Hash32) (other : Workshare), pool.shares[id]? = some other → other.id = id) :
    ParitrNode.lastId Hash32.ZERO path = share.previousWorkshare := by
  cases base with
  | root first => exact first.symm
  | step _ found earlier =>
    obtain ⟨before, last⟩ := earlier.last
    rw [last, ParitrNode.lastId, List.getLast?_append]
    exact named _ _ found

end Extends

variable {pow : PowVerifier} {rule : UInt64 → Workshare → Prop} {now : UInt64} {node : Node}

/-- A stored path settles again, whatever templates are at hand besides its own. -/
theorem LiveRun.path_settles (run : LiveRun pow rule now node) {later : UInt64} (after : now ≤ later)
    (filed : node.workshares.Filed) {share : Workshare} {path : List Workshare}
    (base : Extends node.workshares share path) {witness : WorkshareWitness} {context : ShareContext}
    (settles : SettlesOn witness node.chain.blocks node.chain.state pow context)
    (lookup : ∀ other ∈ path, context.templates[other.templateId]? =
      node.workshares.templates[other.templateId]?)
    (settling : context.settlingTimestamp = saturatingAdd later MAX_FUTURE_BLOCK_TIME) :
    validateShares context Hash32.ZERO WorkshareWitness.empty path = .ok () := by
  cases base with
  | root => rfl
  | @step parent path linked found earlier =>
    obtain ⟨own, settled, candidate, valid⟩ := run.settled.validated _ parent found
    obtain ⟨_, _, ownPath, walked, _, same⟩ := WorksharePool.candidateWitness_iff.mp candidate
    rw [walked.unique earlier] at same
    have carries := WorksharePool.carries_referenced filed path
    rw [← same] at carries
    rcases validateWorkshares_ok_iff.mp valid with none | ⟨other, settlesOwn, _, shares⟩
    · rw [carries.workshares] at none
      exact absurd none (List.ne_nil_of_length_pos earlier.positive)
    · rw [carries.workshares] at shares
      have agree := settlesOwn.agree settles
      rw [agree]
      apply validateShares_moved shares
      · intro share member
        obtain ⟨template, known⟩ := validateShares_found shares share member
        rw [settlesOwn.templates] at known ⊢
        have listed := get_templatesById known
        obtain ⟨referring, _, stored⟩ := (carries.templates template).mp listed.1
        have place : share.templateId = referring.templateId := by
          rw [← listed.2]
          exact filed _ _ stored
        rw [lookup share member, known, place]
        exact stored
      · intro share member
        rw [settling]
        obtain ⟨id, stored⟩ := (Extends.step linked found earlier).stored share member
        exact run.inTime after stored

theorem LiveRun.admits (run : LiveRun pow rule now node)
    (history : ValidHistory pow node.chain.blocks node.chain.state)
    (summed : cumulativeWork node.chain.blocks = .ok node.chain.cumulativeWork) {env : NodeEnv} (oracle : env.pow = pow) (after : now ≤ env.now)
    (room : node.workshares.shares.size < 8192) {share : Workshare} {path : List Workshare}
    (base : Extends node.workshares share path) (short : path.length < MAX_WORKSHARES_PER_BLOCK)
    {template : BlockTemplate} (known : node.workshares.templates[share.templateId]? = some template)
    {before : WorkshareWitness}
    (carries : Carries (fun id => node.workshares.templates[id]?) path before)
    {witness : WorkshareWitness} {context : ShareContext}
    (settles : SettlesOn witness node.chain.blocks node.chain.state pow context)
    (checks : ShareChecks { context with templates := node.workshares.templates }
      share.previousWorkshare before share template)
    (soon : share.candidateHeader.timestamp ≤ saturatingAdd env.now MAX_FUTURE_BLOCK_TIME) :
    ∃ changed next, node.submitWorkshare env share = .ok (changed, next) := by
  obtain ⟨weight, weighs, positive, fits⟩ := history.weight_fits summed
  have weighed := run.weighed weighs
  have walked := base.pathTo
  have length : (path ++ [share]).length = path.length + 1 := by
    rw [List.length_append, List.length_singleton]
  have whole := WorksharePool.carries_referenced weighed.filed (path ++ [share])
  have anchored : share.candidateHeader.previousBlock = node.workshares.anchor := by
    rw [checks.parent, weighed.anchor]
    have last : node.chain.blocks.getLast? = some node.chain.tip :=
      List.getLast?_eq_getLast_of_ne_nil node.chain.nonempty
    rw [Option.some.inj (settles.parentLast.symm.trans last)]
  have candidate : node.workshares.candidateWitness share = .ok
      ⟨WorkshareWitness.VERSION, node.workshares.referencedTemplates (path ++ [share]),
        path ++ [share]⟩ :=
    WorksharePool.candidateWitness_iff.mpr ⟨anchored, ⟨template, known⟩, path ++ [share], walked,
      by omega, rfl⟩
  -- every share of the path finds in its witness what it finds in the pool
  have lookup : ∀ other ∈ path ++ [share], (templatesById
      (node.workshares.referencedTemplates (path ++ [share])))[other.templateId]? =
        node.workshares.templates[other.templateId]? := by
    intro other member
    obtain ⟨found, stored⟩ : ∃ found, node.workshares.templates[other.templateId]? = some found := by
      rcases List.mem_append.mp member with earlier | last
      · obtain ⟨id, inside⟩ := base.stored other earlier
        obtain ⟨_, own⟩ := run.settled.rooted id other inside
        exact (WorksharePool.candidateWitness_ok.mp own).2.1
      · rw [List.mem_singleton.mp last]
        exact ⟨template, known⟩
    rw [stored]
    exact whole.lookup weighed.filed member stored
  have valid : validateWorkshares ⟨WorkshareWitness.VERSION,
      node.workshares.referencedTemplates (path ++ [share]), path ++ [share]⟩ node.chain.blocks
      node.chain.state env.pow (saturatingAdd env.now MAX_FUTURE_BLOCK_TIME) = .ok () := by
    rw [oracle]
    have placed := settles.carrying ⟨WorkshareWitness.VERSION,
      node.workshares.referencedTemplates (path ++ [share]), path ++ [share]⟩
      (saturatingAdd env.now MAX_FUTURE_BLOCK_TIME)
    refine validateWorkshares_ok_iff.mpr (Or.inr ⟨_, placed, rfl, ?_⟩)
    apply (validateShares_append_ok (keyed_templatesById _) (Carries.empty _)).mpr
    constructor
    · exact run.path_settles after weighed.filed base placed
        (fun other member => lookup other (List.mem_append_left _ member)) rfl
    · refine ⟨before, ?_, ?_⟩
      · exact carries.congr fun other member => (lookup other (List.mem_append_left _ member)).symm
      · rw [base.lastId weighed.named]
        refine validateShares_cons_ok.mpr ⟨template, validateShare_ok_iff.mpr ⟨soon, ?_⟩, rfl⟩
        exact checks.withTemplates _
          (lookup share (List.mem_append_right _ (List.mem_singleton_self _)))
  cases present : node.workshares.shares[share.id]? with
  | some stored =>
    refine ⟨false, _, bind_ok.mpr ⟨_, candidate, bind_ok.mpr ⟨(), valid,
      bind_ok.mpr ⟨(false, node.workshares), ?_, rfl⟩⟩⟩⟩
    unfold WorksharePool.accept
    rw [present]
    rfl
  | none =>
    have parent : node.workshares.parentWork share = .ok (path.length * weight) := by
      unfold WorksharePool.parentWork
      cases base with
      | root first =>
        rw [if_pos first, List.length_nil, Nat.zero_mul]
      | step linked found earlier =>
        rw [if_neg linked, weighed.work _ _ _ found earlier]
        rfl
    have sum : path.length * weight + weight ≤ MAX_U256 := by
      have most : (path.length + 1) * weight ≤ 512 * weight := Nat.mul_le_mul_right weight short
      rw [Nat.add_mul, Nat.one_mul] at most
      omega
    have bits : share.candidateHeader.bits = nextBits node.chain.blocks :=
      checks.bits.trans settles.expectedBits
    obtain ⟨changed, accepted⟩ :=
      WorksharePool.accept_new present room parent (by rw [bits]; exact weighs) sum
    exact ⟨changed, _, bind_ok.mpr ⟨_, candidate, bind_ok.mpr ⟨(), valid,
      bind_ok.mpr ⟨(changed, _), accepted, rfl⟩⟩⟩⟩

end ParitrNode
