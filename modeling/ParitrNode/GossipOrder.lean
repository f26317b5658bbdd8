import ParitrNode.PathWork

/-!
Templates and shares of one tip, delivered in any order and any number of times.
A share waits in the orphan pool until its template and its predecessor are
there; once everything has arrived the pool is the whole set and its tip the
best share.
-/

namespace ParitrNode
open ByteCodec OrderedMap Checked

/-- A finite set of templates and shares, filed by id. -/
structure GossipSet where
  templates : BTreeMap Hash32 BlockTemplate
  shares : BTreeMap Hash32 Workshare

namespace GossipSet

def pool (set : GossipSet) (anchor : Hash32) : WorksharePool :=
  { WorksharePool.reset anchor with templates := set.templates, shares := set.shares }

def Path (set : GossipSet) (share : Workshare) (path : List Workshare) : Prop :=
  PathTo (fun id => set.shares[id]?) share path

def pathWork (path : List Workshare) : Except ConsensusError Nat :=
  path.foldlM (fun total share => do
    let weight ← workshareWeight share.candidateHeader.bits
    return total + weight) 0

variable [Crypto]

/-- Every template is valid for the tip, every share has its path in the set and
settles at all clock readings in use, and the limits of the pool are kept. -/
structure Admissible (set : GossipSet) (chain : Chain) (pow : PowVerifier) (clocks : UInt64 → Prop) :
    Prop where
  templateIds : ∀ (id : Hash32) (template : BlockTemplate), set.templates[id]? = some template →
    template.id = id
  shareIds : ∀ (id : Hash32) (share : Workshare), set.shares[id]? = some share → share.id = id
  templateShape : ∀ (id : Hash32) (template : BlockTemplate), set.templates[id]? = some template →
    template.version = BlockTemplate.VERSION ∧
      template.consensusEncode.length ≤ MAX_TEMPLATE_BYTES ∧
      template.height = saturatingAdd chain.height 1 ∧ template.parent = chain.tip.id
  templateValid : ∀ (id : Hash32) (template : BlockTemplate), set.templates[id]? = some template →
    validateTemplateTransactions template.transactions chain.state template.height = .ok ()
  shareValid : ∀ (id : Hash32) (share : Workshare), set.shares[id]? = some share →
    ∃ witness, (set.pool chain.tip.id).candidateWitness share = .ok witness ∧
      ∀ now, clocks now → validateWorkshares witness chain.blocks chain.state pow
        (saturatingAdd now MAX_FUTURE_BLOCK_TIME) = .ok ()
  templateCount : set.templates.size ≤ MAX_TEMPLATES_PER_BLOCK
  templateBytes : total (fun template => template.consensusEncode.length) set.templates ≤
    64 * 1024 * 1024
  shareCount : set.shares.size ≤ 8192

end GossipSet

/-! The pool between the empty one and the whole set. -/

section

variable [Crypto]

structure Gossip (set : GossipSet) (chain : Chain) (pow : PowVerifier) (clocks : UInt64 → Prop)
    (weight : Nat) : Prop where
  admissible : set.Admissible chain pow clocks
  weighs : workshareWeight (nextBits chain.blocks) = .ok weight
  positive : 0 < weight
  fits : 512 * weight ≤ MAX_U256

structure FilledFrom (set : GossipSet) (anchor : Hash32) (weight : Nat) (pool : WorksharePool) :
    Prop where
  anchor : pool.anchor = anchor
  templates : Within pool.templates set.templates
  shares : Within pool.shares set.shares
  bytes : pool.templateBytes = total (fun template => template.consensusEncode.length) pool.templates
  closed : ∀ (id : Hash32) (share : Workshare), pool.shares[id]? = some share →
    (∃ template, pool.templates[share.templateId]? = some template) ∧
      (share.previousWorkshare = Hash32.ZERO ∨
        ∃ parent, pool.shares[share.previousWorkshare]? = some parent)
  work : ∀ (id : Hash32) (share : Workshare) (path : List Workshare),
    pool.shares[id]? = some share → set.Path share path →
      pool.pathWork[id]? = some (path.length * weight)
  noWork : ∀ id : Hash32, pool.shares[id]? = none → pool.pathWork[id]? = none
  leads : pool.Leads

def Ready (pool : WorksharePool) (share : Workshare) : Prop :=
  (∃ template, pool.templates[share.templateId]? = some template) ∧
    (share.previousWorkshare = Hash32.ZERO ∨
      ∃ parent, pool.shares[share.previousWorkshare]? = some parent)

omit [Crypto] in
theorem shareReady_iff {node : Node} {share : Workshare} :
    node.shareReady share = true ↔ Ready node.workshares share := by
  unfold Node.shareReady Ready
  simp only [Bool.and_eq_true, Bool.or_eq_true, decide_eq_true_eq, Option.isSome_iff_exists]

theorem FilledFrom.path {set : GossipSet} {anchor : Hash32} {weight : Nat} {pool : WorksharePool}
    (filled : FilledFrom set anchor weight pool) {share : Workshare} {path : List Workshare}
    (walked : set.Path share path) (ready : Ready pool share) :
    PathTo (fun id => pool.shares[id]?) share path := by
  unfold GossipSet.Path at walked
  induction walked with
  | root zero => exact .root zero
  | @step share parent path linked found earlier ih =>
    rcases ready.2 with zero | ⟨stored, inside⟩
    · exact absurd zero linked
    · have same := filled.shares _ _ inside
      rw [show set.shares[share.previousWorkshare]? = some parent from found] at same
      cases same
      exact .step linked inside (ih (filled.closed _ _ inside))

theorem FilledFrom.witness {set : GossipSet} {anchor : Hash32} {weight : Nat} {pool : WorksharePool}
    (filled : FilledFrom set anchor weight pool) {share : Workshare} {witness : WorkshareWitness}
    (whole : (set.pool anchor).candidateWitness share = .ok witness) (ready : Ready pool share) :
    pool.candidateWitness share = .ok witness := by
  obtain ⟨anchored, _, path, walked, bound, same⟩ := WorksharePool.candidateWitness_iff.mp whole
  have own := filled.path walked ready
  refine WorksharePool.candidateWitness_iff.mpr
    ⟨anchored.trans filled.anchor.symm, ready.1, path, own, bound, ?_⟩
  rw [same, WorksharePool.referencedTemplates_eq, WorksharePool.referencedTemplates_eq]
  have referenced : ∀ id, decide (id ∈ path.map Workshare.templateId) = true →
      (set.pool anchor).templates[id]? = pool.templates[id]? := by
    intro id selected
    obtain ⟨other, member, rfl⟩ := List.mem_map.mp (of_decide_eq_true selected)
    have known : ∃ template, pool.templates[other.templateId]? = some template := by
      rcases own.members other member with rfl | ⟨key, stored⟩
      · exact ready.1
      · exact (filled.closed key other stored).1
    obtain ⟨template, stored⟩ := known
    rw [stored]
    exact filled.templates _ _ stored
  rw [filter_toList_congr referenced]

namespace Gossip

variable {set : GossipSet} {chain : Chain} {pow : PowVerifier} {clocks : UInt64 → Prop}
  {weight : Nat}

theorem path (gossip : Gossip set chain pow clocks weight) {id : Hash32} {share : Workshare}
    (inside : set.shares[id]? = some share) {now : UInt64} (read : clocks now) :
    ∃ path witness, set.Path share path ∧ path.length ≤ MAX_WORKSHARES_PER_BLOCK ∧
      (set.pool chain.tip.id).candidateWitness share = .ok witness ∧ witness.workshares = path ∧
      validateWorkshares witness chain.blocks chain.state pow
        (saturatingAdd now MAX_FUTURE_BLOCK_TIME) = .ok () ∧
      ∀ other ∈ path, workshareWeight other.candidateHeader.bits = .ok weight := by
  obtain ⟨witness, found, valid⟩ := gossip.admissible.shareValid id share inside
  obtain ⟨_, _, path, walked, bound, same⟩ := WorksharePool.candidateWitness_iff.mp found
  have settles := valid now read
  refine ⟨path, witness, walked, bound, found, by rw [same], settles, ?_⟩
  intro other member
  rw [validateWorkshares_bits settles other (by rw [same]; exact member), gossip.weighs]

theorem accepts (gossip : Gossip set chain pow clocks weight) {pool : WorksharePool}
    (filled : FilledFrom set chain.tip.id weight pool) {share : Workshare}
    (inside : set.shares[share.id]? = some share) (ready : Ready pool share) {now : UInt64}
    (read : clocks now) (absent : pool.shares[share.id]? = none) :
    ∃ changed next, pool.accept share = .ok (changed, next) ∧
      FilledFrom set chain.tip.id weight next ∧ next.templates = pool.templates ∧
      next.shares = pool.shares.insert share.id share := by
  obtain ⟨path, witness, walked, bound, _, _, _, weighs⟩ := gossip.path inside read
  have own := walked
  obtain ⟨before, parent, length⟩ : ∃ before, pool.parentWork share = .ok before ∧
      before + weight = path.length * weight := by
    unfold GossipSet.Path at walked
    unfold WorksharePool.parentWork
    cases walked with
    | root zero => exact ⟨0, if_pos zero, by rw [List.length_singleton]; omega⟩
    | @step _ parent path linked found earlier =>
      rcases ready.2 with zero | ⟨stored, present⟩
      · exact absurd zero linked
      · have same := filled.shares _ _ present
        rw [show set.shares[share.previousWorkshare]? = some parent from found] at same
        cases same
        refine ⟨path.length * weight, ?_, ?_⟩
        · rw [if_neg linked, filled.work _ _ _ present earlier]
          rfl
        · rw [List.length_append, List.length_singleton, Nat.add_mul]
          omega
  have fits : before + weight ≤ MAX_U256 := by
    rw [length]
    exact Nat.le_trans (Nat.mul_le_mul_right weight bound) gossip.fits
  have room : pool.shares.size < 8192 :=
    Nat.lt_of_lt_of_le (filled.shares.size_lt absent inside) gossip.admissible.shareCount
  obtain ⟨_, last⟩ := walked.last
  have own : share ∈ path := by
    rw [last]
    exact List.mem_append_right _ (List.mem_singleton_self _)
  obtain ⟨changed, accepted⟩ :=
    WorksharePool.accept_new absent room parent (weighs share own) fits
  have noWork := filled.noWork share.id absent
  refine ⟨changed, _, accepted, ?_, rfl, rfl⟩
  exact
    { anchor := filled.anchor
      templates := filled.templates
      shares := filled.shares.insert inside
      bytes := filled.bytes
      closed := by
        intro id other stored
        have later : ∀ {parent : Workshare}, pool.shares[other.previousWorkshare]? = some parent →
            ∃ parent, (pool.shares.insert share.id share)[other.previousWorkshare]? = some parent :=
          fun found => ⟨_, WorksharePool.get_insert_of_absent absent found⟩
        have known : Ready pool other := by
          dsimp only at stored
          rw [get_insert] at stored
          split at stored
          · cases stored
            exact ready
          · exact filled.closed id other stored
        refine ⟨known.1, ?_⟩
        rcases known.2 with zero | ⟨parent, found⟩
        · exact Or.inl zero
        · exact Or.inr (later found)
      work := by
        intro id other otherPath stored otherWalked
        dsimp only at stored ⊢
        rw [get_insert] at stored ⊢
        split at stored
        · next same =>
          cases stored
          rw [if_pos same, otherWalked.unique walked, length]
        · next different =>
          rw [if_neg different]
          exact filled.work id other otherPath stored otherWalked
      noWork := by
        intro id missing
        dsimp only at missing ⊢
        rw [get_insert] at missing ⊢
        split at missing
        · cases missing
        · next different =>
          rw [if_neg different]
          exact filled.noWork id missing
      leads := WorksharePool.leader_leads filled.leads noWork (by have := gossip.positive; omega) }

/-- What one call leaves behind: the same chain, a pool that is still filled
from the set and has lost nothing. -/
structure Keeps (set : GossipSet) (chain : Chain) (weight : Nat) (node next : Node) : Prop where
  sameChain : next.chain = chain
  filled : FilledFrom set chain.tip.id weight next.workshares
  templates : Within node.workshares.templates next.workshares.templates
  shares : Within node.workshares.shares next.workshares.shares

theorem Keeps.trans {node middle next : Node} (first : Keeps set chain weight node middle)
    (second : Keeps set chain weight middle next) : Keeps set chain weight node next where
  sameChain := second.sameChain
  filled := second.filled
  templates id template found := second.templates id template (first.templates id template found)
  shares id share found := second.shares id share (first.shares id share found)

theorem Ready.keeps {node next : Node} {share : Workshare} (ready : Ready node.workshares share)
    (keeps : Keeps set chain weight node next) : Ready next.workshares share := by
  obtain ⟨⟨template, known⟩, previous⟩ := ready
  refine ⟨⟨template, keeps.templates _ _ known⟩, ?_⟩
  rcases previous with zero | ⟨parent, found⟩
  · exact Or.inl zero
  · exact Or.inr ⟨parent, keeps.shares _ _ found⟩

theorem submits (gossip : Gossip set chain pow clocks weight) {node : Node} {env : NodeEnv}
    (own : node.chain = chain) (filled : FilledFrom set chain.tip.id weight node.workshares)
    (oracle : env.pow = pow) (read : clocks env.now) {share : Workshare}
    (inside : set.shares[share.id]? = some share) (ready : Ready node.workshares share) :
    ∃ changed next, node.submitWorkshare env share = .ok (changed, next) ∧
      Keeps set chain weight node next ∧ next.pendingWorkshares = node.pendingWorkshares ∧
      next.workshares.shares[share.id]? = some share := by
  obtain ⟨path, witness, _, _, found, _, valid, _⟩ := gossip.path inside read
  have candidate := filled.witness found ready
  have settles : validateWorkshares witness node.chain.blocks node.chain.state env.pow
      (saturatingAdd env.now MAX_FUTURE_BLOCK_TIME) = .ok () := by
    rw [own, oracle]
    exact valid
  -- a share that is already stored changes nothing
  obtain ⟨changed, pool, accepted, still, templates, shares, stored⟩ : ∃ changed pool,
      node.workshares.accept share = .ok (changed, pool) ∧
      FilledFrom set chain.tip.id weight pool ∧ pool.templates = node.workshares.templates ∧
      Within node.workshares.shares pool.shares ∧ pool.shares[share.id]? = some share := by
    cases present : node.workshares.shares[share.id]? with
    | some stored =>
      have same : stored = share := by
        have other := filled.shares _ _ present
        rw [inside] at other
        exact (Option.some.inj other).symm
      refine ⟨false, node.workshares, ?_, filled, rfl, fun _ _ found => found, same ▸ present⟩
      unfold WorksharePool.accept
      rw [present]
      rfl
    | none =>
      obtain ⟨changed, pool, accepted, still, templates, shares⟩ :=
        gossip.accepts filled inside ready read present
      refine ⟨changed, pool, accepted, still, templates, ?_, ?_⟩
      · intro id other found
        rw [shares]
        exact WorksharePool.get_insert_of_absent present found
      · rw [shares]
        exact get_insert_self _ _ _
  refine ⟨changed, _, bind_ok.mpr ⟨witness, candidate, bind_ok.mpr ⟨(), settles,
    bind_ok.mpr ⟨(changed, pool), accepted, rfl⟩⟩⟩, ?_, rfl, stored⟩
  exact ⟨own, still, fun id template found => by rw [← templates] at found; exact found, shares⟩

theorem registers (gossip : Gossip set chain pow clocks weight) {node : Node}
    (own : node.chain = chain) (filled : FilledFrom set chain.tip.id weight node.workshares)
    {template : BlockTemplate} (inside : set.templates[template.id]? = some template) :
    ∃ id next, node.registerTemplate template = .ok (id, next) ∧
      Keeps set chain weight node next ∧ next.pendingWorkshares = node.pendingWorkshares ∧
      next.workshares.templates[template.id]? = some template := by
  subst own
  obtain ⟨version, size, height, parent⟩ := gossip.admissible.templateShape _ _ inside
  have transactions := gossip.admissible.templateValid _ _ inside
  unfold Node.registerTemplate
  rw [if_neg (by rw [not_or]; exact ⟨not_not_intro version, Nat.not_lt.mpr size⟩),
    if_neg (by rw [not_or]; exact ⟨not_not_intro height, not_not_intro parent⟩)]
  cases present : node.workshares.templates[template.id]? with
  | some stored =>
    have same : stored = template := by
      have other := filled.templates _ _ present
      rw [inside] at other
      exact (Option.some.inj other).symm
    refine ⟨template.id, node, if_pos rfl, ⟨rfl, filled, fun _ _ found => found,
      fun _ _ found => found⟩, rfl, same ▸ present⟩
  | none =>
    have grown := filled.templates.insert inside
    have count : node.workshares.templates.size < MAX_TEMPLATES_PER_BLOCK :=
      Nat.lt_of_lt_of_le (filled.templates.size_lt present inside) gossip.admissible.templateCount
    have bytes := grown.total_le (fun template => template.consensusEncode.length)
    rw [total_insert_fresh _ present, ← filled.bytes] at bytes
    have limit := gossip.admissible.templateBytes
    let pool : WorksharePool := { node.workshares with
      templateBytes := node.workshares.templateBytes + template.consensusEncode.length
      templates := node.workshares.templates.insert template.id template }
    have poolBytes : pool.templateBytes =
        total (fun template => template.consensusEncode.length) pool.templates := by
      change node.workshares.templateBytes + _ =
        total _ (node.workshares.templates.insert template.id template)
      rw [total_insert_fresh _ present, ← filled.bytes]
    have registered : node.workshares.registerTemplate template = .ok pool := by
      unfold WorksharePool.registerTemplate
      rw [if_neg (by
        rw [not_or, not_or]
        exact ⟨not_not_intro (parent.trans filled.anchor.symm), not_not_intro version,
          Nat.not_lt.mpr size⟩), present]
      simp only [Option.isSome_none, Bool.false_eq_true, if_false]
      rw [if_neg (by omega)]
    have later : ∀ {id : Hash32} {other : BlockTemplate},
        node.workshares.templates[id]? = some other → pool.templates[id]? = some other :=
      fun found => WorksharePool.get_insert_of_absent present found
    refine ⟨template.id, ({ node with workshares := pool }.broadcast
      (.inventory .template template.id)), ?_, ⟨rfl, ?_, fun _ _ found => later found,
      fun _ _ found => found⟩, rfl, get_insert_self _ _ _⟩
    · simp only [Option.isSome_none, Bool.false_eq_true, if_false]
      exact bind_ok.mpr ⟨(), transactions, bind_ok.mpr ⟨pool, registered, rfl⟩⟩
    · exact
        { anchor := filled.anchor
          templates := grown
          shares := filled.shares
          bytes := poolBytes
          closed := by
            intro id share stored
            obtain ⟨⟨known, found⟩, previous⟩ := filled.closed id share stored
            exact ⟨⟨known, later found⟩, previous⟩
          work := filled.work
          noWork := filled.noWork
          leads := filled.leads }

/-! The orphan pool. -/

def Orphans (set : GossipSet) (node : Node) : Prop :=
  ∀ (id : Hash32) (entry : Hash32 × Workshare), node.pendingWorkshares[id]? = some entry →
    set.shares[id]? = some entry.2

def Drained (node : Node) : Prop :=
  ∀ (id : Hash32) (entry : Hash32 × Workshare), node.pendingWorkshares[id]? = some entry →
    ¬Ready node.workshares entry.2

structure Absorbs (set : GossipSet) (chain : Chain) (weight : Nat) (node next : Node) : Prop where
  keeps : Keeps set chain weight node next
  orphans : Orphans set next
  drained : Drained next
  kept : ∀ (id : Hash32) (entry : Hash32 × Workshare), node.pendingWorkshares[id]? = some entry →
    next.pendingWorkshares[id]? = some entry ∨ next.workshares.shares[id]? = some entry.2

/-- The loop over ready orphans ends with none left, whichever it takes first. -/
theorem processes (gossip : Gossip set chain pow clocks weight) {env : NodeEnv}
    (oracle : env.pow = pow) (read : clocks env.now) {count : Nat} {node : Node}
    (own : node.chain = chain) (filled : FilledFrom set chain.tip.id weight node.workshares)
    (orphans : Orphans set node) (enough : node.pendingWorkshares.size ≤ count) :
    Absorbs set chain weight node (Node.processPending env count node) := by
  induction count generalizing node with
  | zero =>
    have none : node.pendingWorkshares = ∅ :=
      Std.ExtTreeMap.eq_empty_iff_size_eq_zero.mpr (Nat.le_zero.mp enough)
    refine ⟨⟨own, filled, fun _ _ found => found, fun _ _ found => found⟩, orphans, ?_,
      fun _ _ found => Or.inl found⟩
    intro id entry found
    rw [Node.processPending, none, get_empty] at found
    cases found
  | succ count ih =>
    rw [Node.processPending]
    have listed : ∀ {entry : Hash32 × Hash32 × Workshare},
        entry ∈ env.order.arrange node.pendingWorkshares.toList ↔
          node.pendingWorkshares[entry.1]? = some entry.2 :=
      (env.order.perm _).mem_iff.trans mem_toList
    split
    next none =>
      refine ⟨⟨own, filled, fun _ _ found => found, fun _ _ found => found⟩, orphans, ?_,
        fun _ _ found => Or.inl found⟩
      intro id entry found ready
      have quiet := List.find?_eq_none.mp none (id, entry) (listed.mpr found)
      exact quiet (shareReady_iff.mpr ready)
    next id peer share chosen =>
      have waiting : node.pendingWorkshares[id]? = some (peer, share) :=
        listed.mp (List.mem_of_find?_eq_some chosen)
      have ready : Ready node.workshares share :=
        shareReady_iff.mp (List.find?_some
          (p := fun entry : Hash32 × Hash32 × Workshare => node.shareReady entry.2.2) chosen)
      have inside := orphans id _ waiting
      have named := gossip.admissible.shareIds id share inside
      subst named
      let removed : Node := { node with pendingWorkshares := node.pendingWorkshares.erase share.id }
      obtain ⟨changed, next, submitted, keeps, pending, stored⟩ :=
        gossip.submits (show removed.chain = chain from own) filled oracle read inside ready
      have fewer : next.pendingWorkshares.size ≤ count := by
        have within : Within (node.pendingWorkshares.erase share.id) node.pendingWorkshares := by
          intro other entry found
          rw [get_erase] at found
          split at found
          · cases found
          · exact found
        have less := within.size_lt (get_erase_self _ share.id) waiting
        rw [pending]
        change (node.pendingWorkshares.erase share.id).size ≤ count
        omega
      have left : ∀ (other : Hash32) (entry : Hash32 × Workshare),
          next.pendingWorkshares[other]? = some entry →
            node.pendingWorkshares[other]? = some entry := by
        intro other entry found
        rw [pending] at found
        change (node.pendingWorkshares.erase share.id)[other]? = _ at found
        rw [get_erase] at found
        split at found
        · cases found
        · exact found
      have later := ih keeps.sameChain keeps.filled
        (fun other entry found => orphans other entry (left other entry found)) fewer
      have whole : Keeps set chain weight node next :=
        ⟨keeps.sameChain, keeps.filled, keeps.templates, keeps.shares⟩
      dsimp only
      rw [show Node.submitWorkshare { node with
        pendingWorkshares := node.pendingWorkshares.erase share.id } env share = .ok (changed, next)
          from submitted]
      refine ⟨whole.trans later.keeps, later.orphans, later.drained, ?_⟩
      intro other entry found
      by_cases same : share.id = other
      · subst same
        rw [waiting] at found
        cases found
        exact Or.inr (later.keeps.shares _ _ stored)
      · have still : next.pendingWorkshares[other]? = some entry := by
          rw [pending]
          change (node.pendingWorkshares.erase share.id)[other]? = _
          rw [get_erase, if_neg same, found]
        exact later.kept other entry still

/-! Messages. -/

def Brings (set : GossipSet) : WireMessage → Prop
  | .template template => set.templates[template.id]? = some template
  | .workshare share => set.shares[share.id]? = some share
  | _ => False

/-- What has been heard is in the pool, or an orphan waits for what has not. -/
structure Converging (set : GossipSet) (chain : Chain) (weight : Nat) (heard : WireMessage → Prop)
    (node : Node) : Prop where
  sameChain : node.chain = chain
  filled : FilledFrom set chain.tip.id weight node.workshares
  orphans : Orphans set node
  drained : Drained node
  templates : ∀ template, heard (.template template) →
    node.workshares.templates[template.id]? = some template
  shares : ∀ share, heard (.workshare share) →
    node.workshares.shares[share.id]? = some share ∨
      ∃ peer, node.pendingWorkshares[share.id]? = some (peer, share)

theorem Converging.absorbs {heard : WireMessage → Prop} {node next : Node}
    (converging : Converging set chain weight heard node) (absorbs : Absorbs set chain weight node next) :
    Converging set chain weight heard next where
  sameChain := absorbs.keeps.sameChain
  filled := absorbs.keeps.filled
  orphans := absorbs.orphans
  drained := absorbs.drained
  templates template before := absorbs.keeps.templates _ _ (converging.templates template before)
  shares share before := by
    rcases converging.shares share before with stored | ⟨peer, waiting⟩
    · exact Or.inl (absorbs.keeps.shares _ _ stored)
    · rcases absorbs.kept _ _ waiting with still | stored
      · exact Or.inr ⟨peer, still⟩
      · exact Or.inl stored

theorem drains (gossip : Gossip set chain pow clocks weight) {env : NodeEnv} (oracle : env.pow = pow)
    (read : clocks env.now) {heard : WireMessage → Prop} {node next : Node}
    (converging : Converging set chain weight heard node) (keeps : Keeps set chain weight node next)
    (pending : next.pendingWorkshares = node.pendingWorkshares) :
    Converging set chain weight heard (next.processPendingWorkshares env) ∧
      Keeps set chain weight next (next.processPendingWorkshares env) := by
  have orphans : Orphans set next := by
    intro id entry found
    rw [pending] at found
    exact converging.orphans id entry found
  have done : Absorbs set chain weight next (next.processPendingWorkshares env) :=
    gossip.processes oracle read keeps.sameChain keeps.filled orphans (Nat.le_refl _)
  refine ⟨converging.absorbs ⟨keeps.trans done.keeps, done.orphans, done.drained, ?_⟩, done.keeps⟩
  intro id entry found
  rw [← pending] at found
  exact done.kept id entry found

theorem handles_template (gossip : Gossip set chain pow clocks weight) {env : NodeEnv}
    (oracle : env.pow = pow) (read : clocks env.now) {heard : WireMessage → Prop} {node : Node}
    (converging : Converging set chain weight heard node) (peer : Hash32) {template : BlockTemplate}
    (inside : set.templates[template.id]? = some template) :
    Converging set chain weight (fun message => heard message ∨ message = .template template)
      (node.handleTemplate env peer template).2 := by
  obtain ⟨id, next, registered, keeps, pending, stored⟩ :=
    gossip.registers converging.sameChain converging.filled inside
  obtain ⟨still, kept⟩ := gossip.drains oracle read converging keeps pending
  have after : (node.handleTemplate env peer template).2 = next.processPendingWorkshares env := by
    unfold Node.handleTemplate
    rw [registered]
  rw [after]
  exact
    { still with
      templates := by
        intro other known
        rcases known with before | same
        · exact still.templates other before
        · cases same
          exact kept.templates _ _ stored
      shares := by
        intro share known
        rcases known with before | impossible
        · exact still.shares share before
        · cases impossible }

theorem waits {node : Node} (env : NodeEnv) (peer : Hash32) {share : Workshare} (early : node.shareReady share = false)
    (room : node.pendingWorkshares[share.id]? = none → node.pendingWorkshares.size < 2048) :
    ∃ pending, (node.handleWorkshare env peer share).2 = { node with pendingWorkshares := pending } ∧
      ∀ id : Hash32, pending[id]? =
        if share.id = id ∧ node.pendingWorkshares[share.id]? = none then some (peer, share)
        else node.pendingWorkshares[id]? := by
  unfold Node.handleWorkshare
  rw [early]
  dsimp only [Bool.false_eq_true, if_false]
  by_cases small : node.pendingWorkshares.size < 2048
  · refine ⟨node.pendingWorkshares.insertIfNew share.id (peer, share), ?_, fun id => get_insertIfNew _ _ _ id⟩
    simp only [Bool.false_eq_true, if_false]
    rw [if_pos small]
  · refine ⟨node.pendingWorkshares, ?_, ?_⟩
    · simp only [Bool.false_eq_true, if_false]
      rw [if_neg small]
    · intro id
      rw [if_neg (fun both => small (room both.2))]

theorem handles_workshare (gossip : Gossip set chain pow clocks weight) {env : NodeEnv}
    (oracle : env.pow = pow) (read : clocks env.now) {heard : WireMessage → Prop} {node : Node}
    (converging : Converging set chain weight heard node) (peer : Hash32) {share : Workshare}
    (inside : set.shares[share.id]? = some share)
    (room : node.shareReady share = false → node.pendingWorkshares[share.id]? = none →
      node.pendingWorkshares.size < 2048) :
    Converging set chain weight (fun message => heard message ∨ message = .workshare share)
      (node.handleWorkshare env peer share).2 := by
  have noTemplate : ∀ template,
      heard (.template template) ∨ WireMessage.template template = .workshare share →
        heard (.template template) := by
    intro template known
    rcases known with before | impossible
    · exact before
    · cases impossible
  cases ready : node.shareReady share with
  | true =>
    obtain ⟨changed, next, submitted, keeps, pending, stored⟩ :=
      gossip.submits converging.sameChain converging.filled oracle read inside
        (shareReady_iff.mp ready)
    obtain ⟨still, kept⟩ := gossip.drains oracle read converging keeps pending
    have after : (node.handleWorkshare env peer share).2 = next.processPendingWorkshares env := by
      unfold Node.handleWorkshare
      rw [if_pos ready, submitted]
    rw [after]
    exact
      { still with
        templates := fun template known => still.templates template (noTemplate template known)
        shares := by
          intro other known
          rcases known with before | same
          · exact still.shares other before
          · cases same
            exact Or.inl (kept.shares _ _ stored) }
  | false =>
    obtain ⟨pending, after, entries⟩ := waits env peer ready (room ready)
    have notReady : ¬Ready node.workshares share := by
      intro complete
      rw [shareReady_iff.mpr complete] at ready
      cases ready
    -- an orphan after the call is the new share or an old orphan
    have either : ∀ (id : Hash32) (entry : Hash32 × Workshare), pending[id]? = some entry →
        (share.id = id ∧ entry = (peer, share)) ∨ node.pendingWorkshares[id]? = some entry := by
      intro id entry found
      rw [entries] at found
      split at found
      · next same => exact Or.inl ⟨same.1, (Option.some.inj found).symm⟩
      · exact Or.inr found
    have old : ∀ (id : Hash32) (entry : Hash32 × Workshare),
        node.pendingWorkshares[id]? = some entry → pending[id]? = some entry := by
      intro id entry found
      have occupied : ¬(share.id = id ∧ node.pendingWorkshares[share.id]? = none) := by
        intro ⟨same, free⟩
        rw [same, found] at free
        cases free
      rw [entries, if_neg occupied, found]
    rw [after]
    exact
      { sameChain := converging.sameChain
        filled := converging.filled
        orphans := by
          intro id entry found
          rcases either id entry found with ⟨same, new⟩ | before
          · rw [new, ← same]
            exact inside
          · exact converging.orphans id entry before
        drained := by
          intro id entry found
          rcases either id entry found with ⟨_, new⟩ | before
          · rw [new]
            exact notReady
          · exact converging.drained id entry before
        templates := fun template known =>
          converging.templates template (noTemplate template known)
        shares := by
          intro other known
          rcases known with before | same
          · rcases converging.shares other before with stored | ⟨from_, waiting⟩
            · exact Or.inl stored
            · exact Or.inr ⟨from_, old _ _ waiting⟩
          · cases same
            apply Or.inr
            cases waiting : node.pendingWorkshares[share.id]? with
            | none => exact ⟨peer, by rw [entries, if_pos ⟨rfl, waiting⟩]⟩
            | some entry =>
              have same := converging.orphans _ _ waiting
              rw [inside] at same
              have own : entry = (entry.1, share) := by rw [Option.some.inj same]
              exact ⟨entry.1, own ▸ old _ _ waiting⟩ }

end Gossip

/-! Runs. -/

structure Delivery where
  env : NodeEnv
  peer : Hash32
  message : WireMessage

def Node.receive (node : Node) (delivery : Delivery) : Node :=
  (node.handleWire delivery.env delivery.peer delivery.message).2

/-- The orphan pool has room whenever a new orphan has to wait in it. -/
def OrphansFit (node : Node) : List Delivery → Prop
  | [] => True
  | delivery :: rest =>
    (∀ share, delivery.message = .workshare share → node.shareReady share = false →
      node.pendingWorkshares[share.id]? = none → node.pendingWorkshares.size < 2048) ∧
      OrphansFit (node.receive delivery) rest

structure OnTip (chain : Chain) (node : Node) : Prop where
  sameChain : node.chain = chain
  workshares : node.workshares = WorksharePool.reset chain.tip.id
  pending : node.pendingWorkshares = ∅

/-- The share of greatest path work, the lower id among equals. -/
def GossipSet.Best (set : GossipSet) (id : Hash32) : Prop :=
  ∃ share path work, set.shares[id]? = some share ∧ set.Path share path ∧
    GossipSet.pathWork path = .ok work ∧
    ∀ (otherId : Hash32) (other : Workshare) (otherPath : List Workshare) (otherWork : Nat),
      set.shares[otherId]? = some other → set.Path other otherPath →
        GossipSet.pathWork otherPath = .ok otherWork →
          otherWork < work ∨ otherWork = work ∧ (otherId = id ∨ id < otherId)

omit [Crypto] in
theorem pathWork_const {path : List Workshare} {weight : Nat}
    (weighs : ∀ share ∈ path, workshareWeight share.candidateHeader.bits = .ok weight) :
    GossipSet.pathWork path = .ok (path.length * weight) := by
  unfold GossipSet.pathWork
  have general : ∀ total, path.foldlM (fun total share => do
      let weight ← workshareWeight share.candidateHeader.bits
      return total + weight) total = (.ok (total + path.length * weight) : Except ConsensusError Nat) := by
    induction path with
    | nil => exact fun total => by rw [List.length_nil, Nat.zero_mul]; rfl
    | cons share path ih =>
      intro total
      rw [List.foldlM_cons, weighs share List.mem_cons_self]
      change path.foldlM _ (total + weight) = _
      rw [ih (fun other member => weighs other (List.mem_cons_of_mem share member)), List.length_cons,
        Nat.add_mul]
      congr 1
      omega
  rw [general 0, Nat.zero_add]

section

variable {set : GossipSet} {chain : Chain} {pow : PowVerifier} {clocks : UInt64 → Prop}
  {weight : Nat}

theorem filled_reset (set : GossipSet) (anchor : Hash32) (weight : Nat) :
    FilledFrom set anchor weight (WorksharePool.reset anchor) := by
  have noShare : ∀ {share : Workshare} (id : Hash32),
      ¬(∅ : BTreeMap Hash32 Workshare)[id]? = some share := by
    intro share id found
    rw [get_empty] at found
    cases found
  have noTemplate : ∀ {template : BlockTemplate} (id : Hash32),
      ¬(∅ : BTreeMap Hash32 BlockTemplate)[id]? = some template := by
    intro template id found
    rw [get_empty] at found
    cases found
  exact
    { anchor := rfl
      templates := fun id template found => absurd found (noTemplate id)
      shares := fun id share found => absurd found (noShare id)
      bytes := (total_empty _).symm
      closed := fun id share found => absurd found (noShare id)
      work := fun id share path found => absurd found (noShare id)
      noWork := fun id _ => get_empty id
      leads := Or.inl ⟨fun id => get_empty id, rfl⟩ }

theorem Gossip.start {node : Node} (fresh : OnTip chain node) :
    Gossip.Converging set chain weight (fun _ => False) node where
  sameChain := fresh.sameChain
  filled := by
    rw [fresh.workshares]
    exact filled_reset set chain.tip.id weight
  orphans id entry found := by
    rw [fresh.pending, get_empty] at found
    cases found
  drained id entry found := by
    rw [fresh.pending, get_empty] at found
    cases found
  templates template impossible := impossible.elim
  shares share impossible := impossible.elim

theorem Gossip.receives (gossip : Gossip set chain pow clocks weight) {heard : WireMessage → Prop}
    {node : Node} (converging : Gossip.Converging set chain weight heard node) {delivery : Delivery}
    (brings : Gossip.Brings set delivery.message) (oracle : delivery.env.pow = pow)
    (read : clocks delivery.env.now)
    (room : ∀ share, delivery.message = .workshare share → node.shareReady share = false →
      node.pendingWorkshares[share.id]? = none → node.pendingWorkshares.size < 2048) :
    Gossip.Converging set chain weight (fun message => heard message ∨ message = delivery.message)
      (node.receive delivery) := by
  unfold Node.receive
  cases carried : delivery.message with
  | template template =>
    rw [carried] at brings
    exact gossip.handles_template oracle read converging delivery.peer brings
  | workshare share =>
    rw [carried] at brings
    exact gossip.handles_workshare oracle read converging delivery.peer brings (room share carried)
  | _ =>
    rw [carried] at brings
    exact brings.elim

theorem Gossip.run (gossip : Gossip set chain pow clocks weight) {heard : WireMessage → Prop}
    {node : Node} (converging : Gossip.Converging set chain weight heard node)
    {deliveries : List Delivery} (brings : ∀ delivery ∈ deliveries,
      Gossip.Brings set delivery.message ∧ delivery.env.pow = pow ∧ clocks delivery.env.now)
    (fit : OrphansFit node deliveries) :
    Gossip.Converging set chain weight
      (fun message => heard message ∨ ∃ delivery ∈ deliveries, message = delivery.message)
      (deliveries.foldl Node.receive node) := by
  induction deliveries generalizing node heard with
  | nil =>
    have same : (fun message => heard message ∨
        ∃ delivery ∈ ([] : List Delivery), message = delivery.message) = heard := by
      funext message
      simp
    rw [same]
    exact converging
  | cons delivery rest ih =>
    obtain ⟨room, later⟩ := fit
    obtain ⟨first, oracle, read⟩ := brings delivery List.mem_cons_self
    have step := gossip.receives converging first oracle read room
    have whole := ih step (fun other member => brings other (List.mem_cons_of_mem _ member)) later
    have same : (fun message => (heard message ∨ message = delivery.message) ∨
        ∃ other ∈ rest, message = other.message) = fun message =>
          heard message ∨ ∃ other ∈ delivery :: rest, message = other.message := by
      funext message
      simp [or_assoc]
    rw [← same]
    exact whole

/-- Once everything has been heard, every share of the set is in the pool. -/
theorem Gossip.complete (gossip : Gossip set chain pow clocks weight) {heard : WireMessage → Prop}
    {node : Node} (converging : Gossip.Converging set chain weight heard node)
    (templates : ∀ (id : Hash32) (template : BlockTemplate), set.templates[id]? = some template →
      heard (.template template))
    (shares : ∀ (id : Hash32) (share : Workshare), set.shares[id]? = some share →
      heard (.workshare share)) :
    node.workshares.templates = set.templates ∧ node.workshares.shares = set.shares ∧
      node.pendingWorkshares = ∅ := by
  have allTemplates : Within set.templates node.workshares.templates := by
    intro id template inside
    have stored := converging.templates template (templates id template inside)
    rwa [gossip.admissible.templateIds id template inside] at stored
  have known : ∀ (id : Hash32) (share : Workshare), set.shares[id]? = some share →
      ∃ template, node.workshares.templates[share.templateId]? = some template := by
    intro id share inside
    obtain ⟨witness, found, _⟩ := gossip.admissible.shareValid id share inside
    obtain ⟨_, ⟨template, stored⟩, _⟩ := WorksharePool.candidateWitness_iff.mp found
    exact ⟨template, allTemplates _ _ stored⟩
  -- by induction on its path: a share whose predecessor is in the pool is ready
  have arrived : ∀ {share : Workshare} {path : List Workshare}, set.Path share path →
      ∀ id : Hash32, set.shares[id]? = some share → node.workshares.shares[id]? = some share := by
    intro share path walked
    unfold GossipSet.Path at walked
    induction walked with
    | @root share zero =>
      intro id inside
      have named := gossip.admissible.shareIds id share inside
      rcases converging.shares share (shares id share inside) with stored | ⟨peer, waiting⟩
      · rwa [named] at stored
      · exact absurd ⟨known id share inside, Or.inl zero⟩ (converging.drained _ _ waiting)
    | @step share parent path linked found earlier ih =>
      intro id inside
      have named := gossip.admissible.shareIds id share inside
      rcases converging.shares share (shares id share inside) with stored | ⟨peer, waiting⟩
      · rwa [named] at stored
      · exact absurd ⟨known id share inside, Or.inr ⟨parent, ih _ found⟩⟩
          (converging.drained _ _ waiting)
  have allShares : Within set.shares node.workshares.shares := by
    intro id share inside
    obtain ⟨witness, found, _⟩ := gossip.admissible.shareValid id share inside
    obtain ⟨_, _, path, walked, _⟩ := WorksharePool.candidateWitness_iff.mp found
    exact arrived walked id inside
  refine ⟨converging.filled.templates.antisymm allTemplates,
    converging.filled.shares.antisymm allShares, ?_⟩
  apply OrderedMap.ext
  intro id
  rw [get_empty]
  cases waiting : node.pendingWorkshares[id]? with
  | none => rfl
  | some entry =>
    have inside := converging.orphans id entry waiting
    have ready := (converging.filled.closed _ _ (allShares _ _ inside))
    exact absurd ready (converging.drained _ _ waiting)

theorem Gossip.best (gossip : Gossip set chain pow clocks weight) {pool : WorksharePool}
    (filled : FilledFrom set chain.tip.id weight pool) (whole : pool.shares = set.shares)
    {now : UInt64} (read : clocks now) {id : Hash32} {share : Workshare}
    (some : set.shares[id]? = some share) : set.Best pool.tip := by
  have weighed : ∀ (id : Hash32) (share : Workshare), set.shares[id]? = .some share →
      ∃ path, set.Path share path ∧ GossipSet.pathWork path = .ok (path.length * weight) ∧
        pool.pathWork[id]? = .some (path.length * weight) := by
    intro id share inside
    obtain ⟨path, _, walked, _, _, _, _, weighs⟩ := gossip.path inside read
    exact ⟨path, walked, pathWork_const weighs, filled.work id share path (whole ▸ inside) walked⟩
  rcases filled.leads with ⟨none, _⟩ | ⟨work, stored, ahead⟩
  · obtain ⟨_, _, _, present⟩ := weighed id share some
    rw [none] at present
    cases present
  · cases inside : pool.shares[pool.tip]? with
    | none =>
      rw [filled.noWork _ inside] at stored
      cases stored
    | some first =>
      rw [whole] at inside
      obtain ⟨path, walked, sum, same⟩ := weighed _ first inside
      rw [stored] at same
      refine ⟨first, path, work, inside, walked, by rw [Option.some.inj same]; exact sum, ?_⟩
      intro otherId other otherPath otherWork found otherWalked otherSum
      obtain ⟨again, walkedAgain, sumAgain, present⟩ := weighed otherId other found
      rw [otherWalked.unique walkedAgain, sumAgain] at otherSum
      cases otherSum
      rcases ahead otherId _ present with less | ⟨tie, notBelow⟩
      · exact Or.inl less
      · rcases FixedBytes.lt_trichotomy otherId pool.tip with below | equal | above
        · exact absurd below notBelow
        · exact Or.inr ⟨tie, Or.inl equal⟩
        · exact Or.inr ⟨tie, Or.inr above⟩

/-- Whatever the order of the messages, their repetitions and the choices among
ready orphans: the pool ends as the whole set, without orphans, on its best share. -/
theorem gossip_converges (reached : Chain.Reached pow chain)
    (admissible : set.Admissible chain pow clocks) {node : Node} (fresh : OnTip chain node)
    {deliveries : List Delivery} (brings : ∀ delivery ∈ deliveries,
      Gossip.Brings set delivery.message ∧ delivery.env.pow = pow ∧ clocks delivery.env.now)
    (templates : ∀ (id : Hash32) (template : BlockTemplate), set.templates[id]? = some template →
      ∃ delivery ∈ deliveries, delivery.message = .template template)
    (shares : ∀ (id : Hash32) (share : Workshare), set.shares[id]? = some share →
      ∃ delivery ∈ deliveries, delivery.message = .workshare share)
    (fit : OrphansFit node deliveries) :
    let final := deliveries.foldl Node.receive node
    final.workshares.templates = set.templates ∧ final.workshares.shares = set.shares ∧
      final.pendingWorkshares = ∅ ∧
      ∀ (id : Hash32) (share : Workshare), set.shares[id]? = some share →
        set.Best final.workshares.tip := by
  intro final
  obtain ⟨weight, weighs, positive, fits⟩ := reached.valid.weight_fits reached.summed
  have gossip : Gossip set chain pow clocks weight := ⟨admissible, weighs, positive, fits⟩
  have converged := gossip.run (Gossip.start fresh) brings fit
  obtain ⟨allTemplates, allShares, none⟩ := gossip.complete converged
    (fun id template inside => by
      obtain ⟨delivery, member, same⟩ := templates id template inside
      exact Or.inr ⟨delivery, member, same.symm⟩)
    (fun id share inside => by
      obtain ⟨delivery, member, same⟩ := shares id share inside
      exact Or.inr ⟨delivery, member, same.symm⟩)
  refine ⟨allTemplates, allShares, none, ?_⟩
  intro id share inside
  obtain ⟨delivery, member, _⟩ := shares id share inside
  exact gossip.best converged.filled allShares (brings delivery member).2.2 inside

theorem Gossip.orphansFit (gossip : Gossip set chain pow clocks weight)
    (few : set.shares.size ≤ 2048) {heard : WireMessage → Prop} {node : Node}
    (converging : Gossip.Converging set chain weight heard node) {deliveries : List Delivery}
    (brings : ∀ delivery ∈ deliveries,
      Gossip.Brings set delivery.message ∧ delivery.env.pow = pow ∧ clocks delivery.env.now) :
    OrphansFit node deliveries := by
  induction deliveries generalizing node heard with
  | nil => trivial
  | cons delivery rest ih =>
    obtain ⟨first, oracle, read⟩ := brings delivery List.mem_cons_self
    have room : ∀ share, delivery.message = .workshare share → node.shareReady share = false →
        node.pendingWorkshares[share.id]? = none → node.pendingWorkshares.size < 2048 := by
      intro share carried _ absent
      rw [carried] at first
      have less := size_lt_of_keys
        (fun id entry found => ⟨entry.2, converging.orphans id entry found⟩) absent first
      omega
    have step := gossip.receives converging first oracle read room
    exact ⟨room, ih step (fun other member => brings other (List.mem_cons_of_mem _ member))⟩

end

/-! One share and its template on genesis. -/

def pairSet (template : BlockTemplate) (share : Workshare) : GossipSet where
  templates := (∅ : BTreeMap Hash32 BlockTemplate).insert template.id template
  shares := (∅ : BTreeMap Hash32 Workshare).insert share.id share

omit [Crypto] in
theorem get_singleton {ν : Type} {key id : Hash32} {value found : ν}
    (stored : ((∅ : BTreeMap Hash32 ν).insert key value)[id]? = some found) :
    key = id ∧ value = found := by
  rw [get_insert] at stored
  split at stored
  · next same => exact ⟨same, Option.some.inj stored⟩
  · rw [get_empty] at stored
    cases stored

omit [Crypto] in
theorem size_singleton {ν : Type} (key : Hash32) (value : ν) :
    ((∅ : BTreeMap Hash32 ν).insert key value).size = 1 := by
  rw [size_insert_fresh (get_empty key), Std.ExtTreeMap.size_empty]

theorem pairSet_admissible {miner : Address} {final : LedgerState} {timestamp now : UInt64}
    (transitioned : transitionForCandidate (Block.genesis.header.height + 1)
      (soleClaim Block.genesis miner) [] [Block.genesis] default =
        .ok ⟨final, ⟨blockSubsidy (Block.genesis.header.height + 1), []⟩, 0⟩)
    (late : 1788984000 < timestamp.toNat)
    (soon : timestamp ≤ saturatingAdd now MAX_FUTURE_BLOCK_TIME) :
    (pairSet (emptyTemplate Block.genesis) (emptyShare Block.genesis miner final.root timestamp
      Hash32.ZERO WorkshareWitness.empty)).Admissible Chain.genesis byNonce (fun clock => clock = now) where
  templateIds id template found := by
    obtain ⟨same, rfl⟩ := get_singleton found
    exact same
  shareIds id share found := by
    obtain ⟨same, rfl⟩ := get_singleton found
    exact same
  templateShape id template found := by
    obtain ⟨_, rfl⟩ := get_singleton found
    exact ⟨rfl, by rw [emptyTemplate_length]; decide, rfl, rfl⟩
  templateValid id template found := by
    obtain ⟨_, rfl⟩ := get_singleton found
    obtain ⟨matured, maturedOk⟩ := LedgerState.matured_succeeds default
      (emptyTemplate Block.genesis).height (by rw [LedgerState.supply_default]; decide)
    unfold validateTemplateTransactions
    rw [if_neg (by simp [emptyTemplate])]
    exact bind_ok.mpr ⟨matured, maturedOk, rfl⟩
  shareValid id share found := by
    obtain ⟨_, rfl⟩ := get_singleton found
    refine ⟨_, witness_of_first rfl rfl, ?_⟩
    intro clock same
    rw [same]
    exact settlingWitness_settles .genesis onSchedule_genesis (show 1 ≤ 2 ^ 32 by decide) rfl
      transitioned late soon 1
  templateCount := by
    change ((∅ : BTreeMap Hash32 BlockTemplate).insert _ _).size ≤ _
    rw [size_singleton]
    decide
  templateBytes := by
    change total _ ((∅ : BTreeMap Hash32 BlockTemplate).insert _ _) ≤ _
    rw [total_insert_fresh _ (get_empty _), total_empty, emptyTemplate_length]
    decide
  shareCount := by
    change ((∅ : BTreeMap Hash32 Workshare).insert _ _).size ≤ _
    rw [size_singleton]
    decide

end

def shareFirst (env : NodeEnv) (template : BlockTemplate) (share : Workshare) : List Delivery :=
  [⟨env, Hash32.ZERO, .workshare share⟩, ⟨env, Hash32.ZERO, .workshare share⟩,
    ⟨env, Hash32.ZERO, .template template⟩]

theorem share_before_template :
    ∃ (_ : Crypto) (template : BlockTemplate) (share : Workshare) (node : Node) (env : NodeEnv),
      node.workshares.templates = ∅ ∧ node.workshares.shares = ∅ ∧
      let final := (shareFirst env template share).foldl Node.receive node
      final.workshares.templates = (pairSet template share).templates ∧
        final.workshares.shares = (pairSet template share).shares ∧
        final.pendingWorkshares = ∅ ∧ (pairSet template share).Best final.workshares.tip := by
  let crypto : Crypto := labelled
  let miner := LedgerState.addressMin
  obtain ⟨now, late⟩ : ∃ now : UInt64, 1788984000 < now.toNat := ⟨1789000000, by decide⟩
  let env : NodeEnv := ⟨byNonce, now, Disk.reliable, default⟩
  have last : [Block.genesis].getLast? = some Block.genesis := rfl
  have start : ValidHistory byNonce [Block.genesis] default := .genesis
  obtain ⟨final, transitioned⟩ := soleClaim_transition start onSchedule_genesis
    (show 1 ≤ 2 ^ 32 by decide) last miner
  let share := emptyShare Block.genesis miner final.root now Hash32.ZERO WorkshareWitness.empty
  let template := emptyTemplate Block.genesis
  let set := pairSet template share
  have admissible : set.Admissible Chain.genesis byNonce (fun clock => clock = now) :=
    pairSet_admissible transitioned late (le_saturatingAdd now MAX_FUTURE_BLOCK_TIME)
  have fresh : OnTip Chain.genesis (openedNode miner) := ⟨rfl, rfl, rfl⟩
  have stored : set.shares[share.id]? = some share := get_insert_self _ _ _
  have known : set.templates[template.id]? = some template := get_insert_self _ _ _
  have brings : ∀ delivery ∈ shareFirst env template share, Gossip.Brings set delivery.message ∧
      delivery.env.pow = byNonce ∧ delivery.env.now = now := by
    intro delivery member
    simp only [shareFirst, List.mem_cons, List.not_mem_nil, or_false] at member
    rcases member with rfl | rfl | rfl
    · exact ⟨stored, rfl, rfl⟩
    · exact ⟨stored, rfl, rfl⟩
    · exact ⟨known, rfl, rfl⟩
  have reached : Chain.Reached byNonce Chain.genesis := .genesis
  obtain ⟨weight, weighs, positive, fits⟩ := reached.valid.weight_fits reached.summed
  have gossip : Gossip set Chain.genesis byNonce _ weight := ⟨admissible, weighs, positive, fits⟩
  have few : set.shares.size ≤ 2048 := by
    change ((∅ : BTreeMap Hash32 Workshare).insert _ _).size ≤ _
    rw [size_singleton]
    decide
  obtain ⟨templates, shares, none, best⟩ := gossip_converges reached admissible fresh brings
    (fun id other found => by
      obtain ⟨_, rfl⟩ := get_singleton found
      exact ⟨⟨env, Hash32.ZERO, .template template⟩, by simp [shareFirst], rfl⟩)
    (fun id other found => by
      obtain ⟨_, rfl⟩ := get_singleton found
      exact ⟨⟨env, Hash32.ZERO, .workshare share⟩, by simp [shareFirst], rfl⟩)
    (gossip.orphansFit few (Gossip.start fresh) brings)
  exact ⟨crypto, template, share, openedNode miner, env, rfl, rfl, templates, shares,
    none, best _ share stored⟩

end ParitrNode
