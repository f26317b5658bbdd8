import ParitrNode.BodyCommitment
import ParitrNode.ShareWork
import ParitrNode.SharePaths

/-!
The work of paths and the preferred tip: what one admission makes of them, and
what holds of the live pool in every run on one tip.
-/

namespace ParitrNode
open ByteCodec OrderedMap Checked

namespace WorksharePool

/-- The tip has the most path work, and the lowest id among those. -/
def Leads (pool : WorksharePool) : Prop :=
  (∀ id : Hash32, pool.pathWork[id]? = none) ∧ pool.tip = Hash32.ZERO ∨
    ∃ work, pool.pathWork[pool.tip]? = some work ∧ ∀ (id : Hash32) (other : Nat),
      pool.pathWork[id]? = some other → other < work ∨ other = work ∧ ¬id < pool.tip

def leader (pool : WorksharePool) (id : Hash32) (work : Nat) : Hash32 :=
  let tipWork := ((pool.pathWork.insert id work)[pool.tip]?).getD 0
  if work > tipWork ∨ (work = tipWork ∧ id < pool.tip) then id else pool.tip

theorem leader_or (pool : WorksharePool) (id : Hash32) (work : Nat) :
    pool.leader id work = id ∨ pool.leader id work = pool.tip := by
  unfold leader
  dsimp only
  split
  · exact Or.inl rfl
  · exact Or.inr rfl

theorem leader_leads {pool : WorksharePool} (leads : pool.Leads) {id : Hash32} {work : Nat}
    (fresh : pool.pathWork[id]? = none) (positive : 0 < work) :
    Leads { pool with pathWork := pool.pathWork.insert id work, tip := pool.leader id work } := by
  apply Or.inr
  dsimp only
  have others : ∀ (other : Hash32) (found : Nat), (pool.pathWork.insert id work)[other]? = some found →
      other = id ∧ found = work ∨ pool.pathWork[other]? = some found := by
    intro other found stored
    rw [get_insert] at stored
    split at stored
    · next same => exact Or.inl ⟨same.symm, (Option.some.inj stored).symm⟩
    · exact Or.inr stored
  rcases leads with ⟨none, zero⟩ | ⟨best, stored, ahead⟩
  · -- the first share leads, even one named like the empty tip
    have first : pool.leader id work = id := by
      unfold leader
      rw [zero, get_insert]
      split
      · next same => rw [same]; exact ite_self _
      · rw [none, Option.getD_none, if_pos (Or.inl positive)]
    rw [first]
    refine ⟨work, get_insert_self _ _ _, ?_⟩
    intro other found inside
    rcases others other found inside with ⟨same, equal⟩ | old
    · rw [same, equal]
      exact Or.inr ⟨rfl, FixedBytes.lt_irrefl id⟩
    · rw [none] at old
      cases old
  · have apart : id ≠ pool.tip := by
      intro same
      rw [← same, fresh] at stored
      cases stored
    have tipWork : (pool.pathWork.insert id work)[pool.tip]? = some best := by
      rw [get_insert, if_neg apart, stored]
    have chosen : pool.leader id work =
        if work > best ∨ (work = best ∧ id < pool.tip) then id else pool.tip := by
      unfold leader
      rw [tipWork]
      rfl
    rw [chosen]
    split
    next better =>
      refine ⟨work, get_insert_self _ _ _, ?_⟩
      intro other found inside
      rcases others other found inside with ⟨same, equal⟩ | old
      · rw [same, equal]
        exact Or.inr ⟨rfl, FixedBytes.lt_irrefl id⟩
      · rcases better with more | ⟨tie, lower⟩
        · rcases ahead other found old with less | ⟨equal, _⟩
          · exact Or.inl (by omega)
          · exact Or.inl (by omega)
        · rcases ahead other found old with less | ⟨equal, above⟩
          · exact Or.inl (by omega)
          · exact Or.inr ⟨by omega, fun below => above (FixedBytes.lt_trans below lower)⟩
    next worse =>
      rw [not_or] at worse
      refine ⟨best, tipWork, ?_⟩
      intro other found inside
      rcases others other found inside with ⟨same, equal⟩ | old
      · rw [same, equal]
        rcases Nat.lt_or_ge work best with less | more
        · exact Or.inl less
        · have tie : work = best := by omega
          exact Or.inr ⟨tie, fun below => worse.2 ⟨tie, below⟩⟩
      · exact ahead other found old

variable [Crypto]

theorem accept_new {pool : WorksharePool} {share : Workshare} {before weight : Nat}
    (absent : pool.shares[share.id]? = none) (room : pool.shares.size < 8192)
    (parent : pool.parentWork share = .ok before)
    (weighs : workshareWeight share.candidateHeader.bits = .ok weight)
    (fits : before + weight ≤ MAX_U256) :
    ∃ changed, pool.accept share = .ok (changed, { pool with
      shares := pool.shares.insert share.id share
      pathWork := pool.pathWork.insert share.id (before + weight)
      tip := pool.leader share.id (before + weight) }) := by
  unfold accept leader
  rw [absent, if_neg (by simp), if_neg (by omega), parent]
  simp only [bind_ok, weighs]
  by_cases better : before + weight >
        ((pool.pathWork.insert share.id (before + weight))[pool.tip]?).getD 0 ∨
      (before + weight = ((pool.pathWork.insert share.id (before + weight))[pool.tip]?).getD 0 ∧
        share.id < pool.tip)
  · exact ⟨true, before, rfl, weight, rfl, by
      rw [if_neg (by omega), if_pos better, if_pos better]
      rfl⟩
  · exact ⟨false, before, rfl, weight, rfl, by
      rw [if_neg (by omega), if_neg better, if_neg better]
      rfl⟩

theorem accept_cases {pool next : WorksharePool} {share : Workshare} {changed : Bool}
    (accepted : pool.accept share = .ok (changed, next)) :
    (∃ stored, pool.shares[share.id]? = some stored) ∧ next = pool ∨
      pool.shares[share.id]? = none ∧ ∃ before weight, pool.parentWork share = .ok before ∧
      workshareWeight share.candidateHeader.bits = .ok weight ∧
      next = { pool with
        shares := pool.shares.insert share.id share
        pathWork := pool.pathWork.insert share.id (before + weight)
        tip := pool.leader share.id (before + weight) } := by
  cases present : pool.shares[share.id]? with
  | some stored =>
    unfold accept at accepted
    simp only [present, Option.isSome_some, if_true] at accepted
    cases accepted
    exact Or.inl ⟨⟨stored, rfl⟩, rfl⟩
  | none =>
    have again := accepted
    unfold accept at again
    simp only [present, Option.isSome_none, Bool.false_eq_true, if_false, guard_ok, bind_ok] at again
    obtain ⟨room, before, parent, weight, weighs, fits, -⟩ := again
    obtain ⟨changed', same⟩ :=
      accept_new present (Nat.not_le.mp room) parent weighs (Nat.not_lt.mp fits)
    rw [accepted] at same
    cases same
    exact Or.inr ⟨rfl, before, weight, parent, weighs, rfl⟩

end WorksharePool

section

variable [Crypto]

theorem validateTemplateTransactions_wellFormed {transactions : List Transaction}
    {state : LedgerState} {height : UInt64}
    (valid : validateTemplateTransactions transactions state height = .ok ()) :
    ∀ transaction ∈ transactions, WellFormed transaction := by
  unfold validateTemplateTransactions at valid
  simp only [guard_ok, bind_ok] at valid
  obtain ⟨-, _, -, _, applied, -⟩ := valid
  exact (applyFrom_ok applied).1

/-! The pool of one tip. -/

/-- The live pool of a tip on which one share has some weight: objects filed by
their ids, a preferred tip that is stored, and the work of every path. -/
structure Weighed (chain : Chain) (weight : Nat) (pool : WorksharePool) : Prop where
  anchor : pool.anchor = chain.tip.id
  filed : pool.Filed
  shape : ∀ (id : Hash32) (template : BlockTemplate), pool.templates[id]? = some template →
    template.version = BlockTemplate.VERSION ∧
      template.consensusEncode.length ≤ MAX_TEMPLATE_BYTES ∧ template.Countable
  named : ∀ (id : Hash32) (share : Workshare), pool.shares[id]? = some share → share.id = id
  tip : pool.tip = Hash32.ZERO ∨ ∃ share, pool.shares[pool.tip]? = some share
  work : ∀ (id : Hash32) (share : Workshare) (path : List Workshare),
    pool.shares[id]? = some share → PathTo (fun id => pool.shares[id]?) share path →
      pool.pathWork[id]? = some (path.length * weight)

theorem countable_of_size {template : BlockTemplate}
    (size : template.consensusEncode.length ≤ MAX_TEMPLATE_BYTES)
    (formed : ∀ transaction ∈ template.transactions, WellFormed transaction) : template.Countable := by
  have limit : MAX_TEMPLATE_BYTES < 2 ^ 32 := by decide
  exact ⟨Nat.lt_of_le_of_lt size limit, formed⟩

theorem weighed_reset (chain : Chain) (weight : Nat) :
    Weighed chain weight (WorksharePool.reset chain.tip.id) where
  anchor := rfl
  filed id template found := by
    change (∅ : BTreeMap Hash32 BlockTemplate)[id]? = some template at found
    rw [get_empty] at found
    cases found
  shape id template found := by
    change (∅ : BTreeMap Hash32 BlockTemplate)[id]? = some template at found
    rw [get_empty] at found
    cases found
  named id share found := by
    change (∅ : BTreeMap Hash32 Workshare)[id]? = some share at found
    rw [get_empty] at found
    cases found
  tip := Or.inl rfl
  work id share path found := by
    change (∅ : BTreeMap Hash32 Workshare)[id]? = some share at found
    rw [get_empty] at found
    cases found

namespace Weighed

variable {chain : Chain} {weight : Nat} {pool next : WorksharePool}

theorem template (weighed : Weighed chain weight pool) {template : BlockTemplate}
    (registered : pool.registerTemplate template = .ok next)
    (formed : ∀ transaction ∈ template.transactions, WellFormed transaction) :
    Weighed chain weight next := by
  obtain ⟨⟨_, version, size⟩, kept⟩ := WorksharePool.registerTemplate_ok_iff.mp registered
  rcases kept with ⟨_, same⟩ | ⟨_, _, _, same⟩
  · rw [same]
    exact weighed
  · rw [same]
    have either : ∀ (id : Hash32) (other : BlockTemplate),
        (pool.templates.insert template.id template)[id]? = some other →
          template.id = id ∧ template = other ∨ pool.templates[id]? = some other := by
      intro id other found
      rw [get_insert] at found
      split at found
      · next own => exact Or.inl ⟨own, Option.some.inj found⟩
      · exact Or.inr found
    exact
      { anchor := weighed.anchor
        filed := by
          intro id other found
          rcases either id other found with ⟨own, new⟩ | old
          · exact new ▸ own
          · exact weighed.filed id other old
        shape := by
          intro id other found
          rcases either id other found with ⟨_, new⟩ | old
          · exact new ▸ ⟨version, size, countable_of_size size formed⟩
          · exact weighed.shape id other old
        named := weighed.named
        tip := weighed.tip
        work := weighed.work }

theorem share (weighed : Weighed chain weight pool) (rooted : pool.Rooted) {share : Workshare}
    {changed : Bool} {witness : WorkshareWitness} (found : pool.candidateWitness share = .ok witness)
    (weighs : workshareWeight share.candidateHeader.bits = .ok weight)
    (accepted : pool.accept share = .ok (changed, next)) : Weighed chain weight next := by
  have grows := WorksharePool.accept_grows accepted
  rcases WorksharePool.accept_cases accepted with ⟨_, same⟩ | ⟨absent, before, weight', parent, weighs', same⟩
  · rw [same]
    exact weighed
  · rw [weighs] at weighs'
    cases weighs'
    have either : ∀ (id : Hash32) (other : Workshare), next.shares[id]? = some other →
        share.id = id ∧ share = other ∨ pool.shares[id]? = some other := by
      intro id other stored
      rw [same] at stored
      dsimp only at stored
      rw [get_insert] at stored
      split at stored
      · next own => exact Or.inl ⟨own, Option.some.inj stored⟩
      · exact Or.inr stored
    -- a path in the larger pool is the one the share had before
    have older : ∀ {other : Workshare} {path own : List Workshare},
        PathTo (fun id => next.shares[id]?) other path →
          PathTo (fun id => pool.shares[id]?) other own → path = own :=
      fun walked earlier => walked.unique (earlier.mono grows.shares)
    obtain ⟨_, _, path, walked, _, _⟩ := WorksharePool.candidateWitness_iff.mp found
    have length : before + weight = path.length * weight := by
      unfold WorksharePool.parentWork at parent
      cases walked with
      | root zero =>
        rw [if_pos zero] at parent
        cases parent
        rw [List.length_singleton, Nat.one_mul, Nat.zero_add]
      | @step _ last earlier linked stored above =>
        rw [if_neg linked, okOr_ok, weighed.work _ _ _ stored above] at parent
        cases parent
        rw [List.length_append, List.length_singleton, Nat.add_mul, Nat.one_mul]
    exact
      { anchor := by
          rw [same]
          exact weighed.anchor
        filed := by
          intro id template stored
          rw [same] at stored
          exact weighed.filed id template stored
        shape := by
          intro id template stored
          rw [same] at stored
          exact weighed.shape id template stored
        named := by
          intro id other stored
          rcases either id other stored with ⟨own, new⟩ | old
          · exact new ▸ own
          · exact weighed.named id other old
        tip := by
          rw [same]
          dsimp only
          rcases WorksharePool.leader_or pool share.id (before + weight) with new | kept
          · rw [new]
            exact Or.inr ⟨share, get_insert_self _ _ _⟩
          · rw [kept]
            rcases weighed.tip with zero | ⟨best, stored⟩
            · exact Or.inl zero
            · exact Or.inr ⟨best, WorksharePool.get_insert_of_absent absent stored⟩
        work := by
          intro id other otherPath stored otherWalked
          rcases either id other stored with ⟨own, new⟩ | old
          · subst own
            subst new
            rw [same, older otherWalked walked, ← length]
            exact get_insert_self _ _ _
          · obtain ⟨_, own⟩ := rooted id other old
            obtain ⟨_, _, ownPath, ownWalked, _, _⟩ := WorksharePool.candidateWitness_iff.mp own
            have apart : share.id ≠ id := by
              intro clash
              rw [← clash, absent] at old
              cases old
            rw [same, older otherWalked ownWalked]
            change (pool.pathWork.insert share.id (before + weight))[id]? = _
            rw [get_insert, if_neg apart, weighed.work id other ownPath old ownWalked] }

end Weighed

/-! In every run on one tip. -/

variable {pow : PowVerifier} {rule : UInt64 → Workshare → Prop} {now : UInt64} {node : Node}

omit [Crypto] in
theorem candidateWitness_member {pool : WorksharePool} {share : Workshare} {witness : WorkshareWitness}
    (found : pool.candidateWitness share = .ok witness) : share ∈ witness.workshares := by
  obtain ⟨_, _, path, walked, _, same⟩ := WorksharePool.candidateWitness_iff.mp found
  obtain ⟨before, last⟩ := walked.last
  rw [same, last]
  exact List.mem_append_right _ (List.mem_singleton_self _)

theorem LiveStep.weighed {later : UInt64} {next : Node}
    (step : LiveStep pow rule now node later next) (rooted : node.workshares.Rooted) {weight : Nat}
    (weighs : workshareWeight (nextBits next.chain.blocks) = .ok weight)
    (before : workshareWeight (nextBits node.chain.blocks) = .ok weight →
      Weighed node.chain weight node.workshares) : Weighed next.chain weight next.workshares := by
  cases step with
  | template registered =>
    obtain ⟨chain, pool⟩ := Node.registerTemplate_ok registered
    rw [chain] at weighs ⊢
    rcases pool with same | ⟨valid, stored⟩
    · rw [same]
      exact before weighs
    · exact (before weighs).template stored (validateTemplateTransactions_wellFormed valid)
  | share oracle later admitted submitted =>
    obtain ⟨witness, found, valid, accepted, chain⟩ := Node.submitWorkshare_ok submitted
    rw [chain] at weighs ⊢
    have bits := validateWorkshares_bits valid _ (candidateWitness_member found)
    exact (before weighs).share rooted found (by rw [bits, weighs]) accepted
  | mined built =>
    obtain ⟨-, -, chain, stored⟩ := Node.miningCandidate_ok built
    obtain ⟨_, _, _, _, _, parts⟩ := Node.miningCandidate_ok_iff.mp ⟨_, built⟩
    rw [chain] at weighs ⊢
    exact (before weighs).template stored (transitionForCandidate_wellFormed parts.transitioned).1
  | elsewhere chain pool =>
    rw [chain] at weighs ⊢
    rw [pool]
    exact before weighs

theorem LiveRun.weighed (run : LiveRun pow rule now node) {weight : Nat}
    (weighs : workshareWeight (nextBits node.chain.blocks) = .ok weight) :
    Weighed node.chain weight node.workshares := by
  induction run with
  | activated now empty =>
    rw [empty]
    exact weighed_reset _ _
  | step run step ih => exact step.weighed run.settled.rooted weighs ih

theorem LiveRun.prompt (run : LiveRun pow rule now node) :
    LiveRun pow (fun clock share => rule clock share ∧
      share.candidateHeader.timestamp ≤ saturatingAdd clock MAX_FUTURE_BLOCK_TIME) now node := by
  induction run with
  | activated now empty => exact .activated now empty
  | step _ step ih =>
    apply ih.step
    cases step with
    | template registered => exact .template registered
    | share oracle later admitted submitted =>
      obtain ⟨witness, found, valid, _, _⟩ := Node.submitWorkshare_ok submitted
      have soon := validateWorkshares_inTime valid _ (candidateWitness_member found)
      exact .share oracle later ⟨admitted, soon⟩ submitted
    | mined built => exact .mined built
    | elsewhere chain pool => exact .elsewhere chain pool

theorem LiveRun.inTime (run : LiveRun pow rule now node) {later : UInt64} (after : now ≤ later)
    {id : Hash32} {share : Workshare} (stored : node.workshares.shares[id]? = some share) :
    share.candidateHeader.timestamp ≤ saturatingAdd later MAX_FUTURE_BLOCK_TIME := by
  obtain ⟨admitted, before, _, soon⟩ := run.prompt.settled.admitted id share stored
  exact UInt64.le_trans soon (saturatingAdd_mono (UInt64.le_trans before after) _)

/-- The preferred tip always has its path, so the walk to it never fails. -/
theorem LiveRun.witness_found (run : LiveRun pow rule now node) {weight : Nat}
    (weighs : workshareWeight (nextBits node.chain.blocks) = .ok weight) :
    ∃ witness, node.workshares.witness = some witness := by
  by_cases zero : node.workshares.tip = Hash32.ZERO
  · exact ⟨WorkshareWitness.empty, if_pos zero⟩
  · rcases (run.weighed weighs).tip with none | ⟨share, stored⟩
    · exact absurd none zero
    · obtain ⟨witness, found⟩ := run.settled.rooted _ share stored
      exact ⟨witness, witness_of_tip zero stored found⟩

end

end ParitrNode
