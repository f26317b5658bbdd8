import ParitrNode.CatchUp
import ParitrNode.Lifetime
import ParitrNode.TemplateRoom

/-!
A node relays nothing it has not checked: whatever its peers, its miner and its
operator do, each object it sends in answer to a request is the one asked for, and
has passed the full validation of its kind on this node.
-/

namespace ParitrNode
open ByteCodec OrderedMap Checked

variable [Crypto]

variable {pow : PowVerifier} {clock ahead : UInt64} {node next : Node} {env : NodeEnv}

/-! The workshare pool of a tip. -/

/-- What the clock that admits a share demands of its timestamp. -/
def Prompt (reading : UInt64) (share : Workshare) : Prop :=
  share.candidateHeader.timestamp ≤ saturatingAdd reading MAX_FUTURE_BLOCK_TIME

/-- Everything in the pool is under its own id and was validated on this chain. -/
structure PoolOf (pow : PowVerifier) (clock : UInt64) (chain : Chain) (pool : WorksharePool) : Prop where
  anchor : pool.anchor = chain.tip.id
  templates : ∀ (id : Hash32) (template : BlockTemplate), pool.templates[id]? = some template →
    template.id = id ∧ Offered chain template
  shares : ∀ (id : Hash32) (share : Workshare), pool.shares[id]? = some share → share.id = id
  settled : Settled chain pow Prompt clock pool

theorem PoolOf.later {chain : Chain} {pool : WorksharePool} (of : PoolOf pow clock chain pool)
    (le : clock ≤ ahead) : PoolOf pow ahead chain pool := by
  refine ⟨of.anchor, of.templates, of.shares, of.settled.validated, ?_⟩
  intro id share stored
  obtain ⟨earlier, before, prompt⟩ := of.settled.admitted id share stored
  exact ⟨earlier, UInt64.le_trans before le, prompt⟩

theorem poolOf_reset (chain : Chain) : PoolOf pow clock chain (WorksharePool.reset chain.tip.id) where
  anchor := rfl
  templates id template found := by
    change (∅ : BTreeMap Hash32 BlockTemplate)[id]? = some template at found
    rw [get_empty] at found
    cases found
  shares id share found := by
    change (∅ : BTreeMap Hash32 Workshare)[id]? = some share at found
    rw [get_empty] at found
    cases found
  settled := settled_reset chain clock _

theorem PoolOf.template {chain : Chain} {pool later : WorksharePool} {template : BlockTemplate}
    (of : PoolOf pow clock chain pool) (registered : pool.registerTemplate template = .ok later)
    (offered : Offered chain template) : PoolOf pow clock chain later := by
  have settled := of.settled.template registered
  rcases WorksharePool.registerTemplate_ok registered with same | ⟨_, anchor, templates, shares⟩
  · rw [same]
    exact of
  · refine ⟨anchor.trans of.anchor, ?_, by rw [shares]; exact of.shares, settled⟩
    intro id other found
    rw [templates, get_insert] at found
    split at found
    next same =>
      cases found
      exact ⟨same, offered⟩
    next => exact of.templates id other found

theorem PoolOf.share {chain : Chain} {pool later : WorksharePool} {share : Workshare} {changed : Bool}
    {witness : WorkshareWitness} {settling : UInt64} (of : PoolOf pow clock chain pool)
    (prompt : Prompt clock share) (found : pool.candidateWitness share = .ok witness)
    (valid : validateWorkshares witness chain.blocks chain.state pow settling = .ok ())
    (accepted : pool.accept share = .ok (changed, later)) : PoolOf pow clock chain later := by
  have settled := of.settled.share (UInt64.le_refl clock) prompt found valid accepted
  rcases WorksharePool.accept_ok accepted with same | ⟨_, anchor, templates, shares⟩
  · rw [same]
    exact of
  · refine ⟨anchor.trans of.anchor, by rw [templates]; exact of.templates, ?_, settled⟩
    intro id other stored
    rw [shares, get_insert] at stored
    split at stored
    next same =>
      cases stored
      exact same
    next => exact of.shares id other stored

/-- A stored share settles with its path at the latest clock reading. -/
theorem PoolOf.checked {chain : Chain} {pool : WorksharePool} {id : Hash32} {share : Workshare}
    (of : PoolOf pow clock chain pool) (found : pool.shares[id]? = some share) :
    ∃ witness, share ∈ witness.workshares ∧ validateWorkshares witness chain.blocks chain.state pow
      (saturatingAdd clock MAX_FUTURE_BLOCK_TIME) = .ok () := by
  obtain ⟨witness, settling, built, valid⟩ := of.settled.validated id share found
  refine ⟨witness, candidateWitness_member built, (validateWorkshares_settling_iff valid).mpr ?_⟩
  intro other member
  have stored : ∃ name : Hash32, pool.shares[name]? = some other := by
    obtain ⟨_, _, path, walked, rfl⟩ := WorksharePool.candidateWitness_ok.mp built
    rcases WorksharePool.walkBack_mem walked other member with same | impossible | earlier
    · exact ⟨id, same ▸ found⟩
    · cases impossible
    · exact earlier
  obtain ⟨name, here⟩ := stored
  obtain ⟨earlier, before, prompt⟩ := of.settled.admitted name other here
  exact UInt64.le_trans prompt (saturatingAdd_mono before _)

/-! What the operations on the pools do. -/

theorem registerTemplate_offers {template : BlockTemplate} {id : Hash32}
    (registered : node.registerTemplate template = .ok (id, next)) :
    next.mempool = node.mempool ∧ (next.workshares = node.workshares ∨
      Offered node.chain template ∧
        node.workshares.registerTemplate template = .ok next.workshares) := by
  unfold Node.registerTemplate at registered
  rw [guard_ok, guard_ok, not_or, not_or, not_not, not_not, not_not, Nat.not_lt] at registered
  obtain ⟨⟨version, size⟩, ⟨height, parent⟩, registered⟩ := registered
  split at registered
  · cases registered
    exact ⟨rfl, Or.inl rfl⟩
  · simp only [bind_ok] at registered
    obtain ⟨_, valid, _, stored, result⟩ := registered
    cases result
    exact ⟨rfl, Or.inr ⟨⟨version, size, height, parent, valid⟩, stored⟩⟩

theorem submitWorkshare_mempool {share : Workshare} {changed : Bool}
    (submitted : node.submitWorkshare env share = .ok (changed, next)) : next.mempool = node.mempool := by
  unfold Node.submitWorkshare at submitted
  simp only [bind_ok] at submitted
  obtain ⟨_, _, _, _, _, _, result⟩ := submitted
  cases result
  rfl

theorem miningCandidate_mempool {extranonce : UInt64} {candidate : MiningCandidate}
    (mined : node.miningCandidate env extranonce = .ok (candidate, next)) : next.mempool = node.mempool := by
  unfold Node.miningCandidate at mined
  simp only [bind_ok, okOr_ok] at mined
  obtain ⟨_, _, _, _, _, _, _, _, _, _, _, _, _, _, _, _, _, _, _, _, _, _, result⟩ := mined
  cases result
  split
  · rfl
  · rfl

theorem miningCandidate_offers {extranonce : UInt64} {candidate : MiningCandidate}
    (valid : ValidHistory pow node.chain.blocks node.chain.state)
    (mined : node.miningCandidate env extranonce = .ok (candidate, next)) :
    Offered node.chain candidate.template := by
  obtain ⟨claim, fees, allocation, transition, pool, built⟩ := Node.miningCandidate_ok_iff.mp ⟨next, mined⟩
  obtain ⟨_, _, _, _, steps⟩ := transitionForCandidate_ok_iff.mp built.transitioned
  have ⟨_, _, _, stored⟩ := Node.miningCandidate_ok mined
  have ⟨⟨_, version, size⟩, _⟩ := WorksharePool.registerTemplate_ok_iff.mp stored
  have few := selectFrom_length built.selected (by decide)
  have height : candidate.template.height = node.chain.tip.header.height + 1 := by rw [built.template]
  refine ⟨version, size, ?_, by rw [built.template], ?_⟩
  · have tip : node.chain.height.toNat + 1 = node.chain.blocks.length :=
      valid.tipHeight (List.getLast?_eq_getLast_of_ne_nil node.chain.nonempty)
    have bound := valid.length_bound
    have one : (1 : UInt64).toNat = 1 := rfl
    have fits : node.chain.height.toNat + (1 : UInt64).toNat < 2 ^ 64 := by omega
    rw [height, ← UInt64.toNat_inj, saturatingAdd_of_lt fits]
    exact toNat_add fits
  · rw [height]
    unfold validateTemplateTransactions
    rw [if_neg (Nat.not_lt.mpr few), steps.maturedOk]
    change (applyTransactions _ candidate.template.transactions >>= _) = _
    rw [steps.appliedOk]
    rfl

/-! What a node vouches for. -/

/-- The invariant: chain, tables, mempool and workshare pool hold only what was validated. -/
structure Vouched (pow : PowVerifier) (clock : UInt64) (node : Node) : Prop where
  running : node.Running
  keeps : Keeps pow clock node.storage node.chain
  mempool : Mempool.Reachable default node.mempool
  pool : PoolOf pow clock node.chain node.workshares

theorem Vouched.later (vouched : Vouched pow clock node) (le : clock ≤ ahead) : Vouched pow ahead node :=
  ⟨vouched.running, vouched.keeps.later le, vouched.mempool, vouched.pool.later le⟩

theorem resurrect_reachable {policy : RelayPolicy} {mempool : Mempool} (detached : List Transaction)
    (reachable : Mempool.Reachable policy mempool) (confirmed : List Transaction) (state : LedgerState)
    (now : UInt64) : Mempool.Reachable policy (Node.resurrect mempool confirmed detached state now) := by
  induction detached generalizing mempool with
  | nil => exact reachable
  | cons transaction rest ih =>
    change Mempool.Reachable policy (Node.resurrect (if _ then _ else _) confirmed rest state now)
    split
    · exact ih reachable
    · exact ih (reachable.accept transaction state now)

/-- A block leaves the pools alone, or moves the tip and empties the workshare pool. -/
theorem submitBlock_pools (block : Block) (reachable : Mempool.Reachable default node.mempool)
    (of : PoolOf pow clock node.chain node.workshares) :
    Mempool.Reachable default (node.submitBlock env block).2.mempool ∧
      PoolOf pow clock (node.submitBlock env block).2.chain (node.submitBlock env block).2.workshares := by
  obtain ⟨result, after, reached⟩ := submitBlock_reached node env block
  have returned : node.submitBlock env block = (result, after) := reached.knows
  rw [returned]
  cases reached with
  | tail earlier step =>
    cases step with
    | known _ => exact ⟨reachable, of⟩
    | refused _ _ => exact ⟨reachable, of⟩
    | unrecorded _ _ _ => exact ⟨reachable, of⟩
    | settle _ => exact ⟨reachable, of⟩
    | unsaved _ _ => exact ⟨reachable, of⟩
    | activate => exact ⟨resurrect_reachable _ (reachable.removeConfirmed _) _ _ _, poolOf_reset _⟩

theorem Vouched.deed (vouched : Vouched pow clock node) (deed : node.Deed pow clock next) :
    Vouched pow clock next := by
  have valid := vouched.keeps.valid vouched.running
  suffices pools : Mempool.Reachable default next.mempool ∧ PoolOf pow clock next.chain next.workshares from
    ⟨deed.running vouched.running, deed.keeps vouched.keeps, pools.1, pools.2⟩
  cases deed with
  | transaction env transaction =>
    have same : (node.submitTransaction env transaction).2.mempool =
        (node.mempool.accept transaction node.chain.state env.now).2 := by
      unfold Node.submitTransaction
      split
      next result => rw [result]
      next result =>
        rw [result]
        rfl
    have beside := Node.submitTransaction_beside node env transaction
    have workshares : (node.submitTransaction env transaction).2.workshares = node.workshares := by
      unfold Node.submitTransaction
      split
      · rfl
      · rfl
    constructor
    · rw [same]
      exact vouched.mempool.accept _ _ _
    · rw [beside.chain, workshares]
      exact vouched.pool
  | block oracle _ block => exact submitBlock_pools block vouched.mempool vouched.pool
  | template registered =>
    have ⟨beside, _, _⟩ := Node.registerTemplate_beside registered
    obtain ⟨mempool, pool⟩ := registerTemplate_offers registered
    constructor
    · rw [mempool]
      exact vouched.mempool
    · rw [beside.chain]
      rcases pool with same | ⟨offered, stored⟩
      · rw [same]
        exact vouched.pool
      · exact vouched.pool.template stored offered
  | share oracle before submitted =>
    have ⟨beside, _, _⟩ := Node.submitWorkshare_beside submitted
    obtain ⟨witness, found, valid, accepted, _⟩ := Node.submitWorkshare_ok submitted
    have soon := validateWorkshares_inTime valid _ (candidateWitness_member found)
    rw [oracle] at valid
    constructor
    · rw [submitWorkshare_mempool submitted]
      exact vouched.mempool
    · rw [beside.chain]
      exact vouched.pool.share (UInt64.le_trans soon (saturatingAdd_mono before _)) found valid accepted
  | candidate mined =>
    have ⟨beside, _, _⟩ := Node.miningCandidate_beside mined
    have ⟨_, _, _, stored⟩ := Node.miningCandidate_ok mined
    constructor
    · rw [miningCandidate_mempool mined]
      exact vouched.mempool
    · rw [beside.chain]
      exact vouched.pool.template stored (miningCandidate_offers valid mined)
  | aside chain storage mempool workshares =>
    constructor
    · rw [mempool]
      exact vouched.mempool
    · rw [chain, workshares]
      exact vouched.pool

theorem Vouched.works (vouched : Vouched pow clock node) (works : Node.Works pow clock node next) :
    Vouched pow clock next := by
  induction works with
  | refl => exact vouched
  | tail _ deed ih => exact ih.deed deed

theorem reopen_pools {storage : Storage} {disk : Disk} {now : UInt64} {miner : Option Address}
    (opened : Node.reopen storage disk pow now miner = .ok node) :
    Mempool.Reachable default node.mempool ∧ PoolOf pow clock node.chain node.workshares := by
  unfold Node.reopen at opened
  obtain ⟨stored, _, later⟩ := bind_ok.mp opened
  cases stored with
  | nil =>
    obtain ⟨_, _, result⟩ := bind_ok.mp later
    cases result
    exact ⟨.new, poolOf_reset _⟩
  | cons first rest =>
    dsimp only at later
    cases accepted : Chain.fromBlocks (first :: rest) pow now with
    | error reason =>
      rw [accepted] at later
      cases later
    | ok chain =>
      rw [accepted] at later
      cases later
      exact ⟨.new, poolOf_reset _⟩

theorem Node.Lived.vouched (lived : node.Lived pow clock) : Vouched pow clock node := by
  induction lived with
  | opened opened =>
    have lived : Node.Lived pow _ _ := .opened opened
    obtain ⟨_, _, result⟩ := bind_ok.mp opened
    cases result
    exact ⟨lived.running, lived.keeps, .new, poolOf_reset _⟩
  | received _ oracle peer message ih =>
    exact (ih.later (le_max_first _ _)).works (Node.handleWire_works oracle (le_max_second _ _) message)
  | called _ oracle call ih =>
    exact (ih.later (le_max_first _ _)).works (Node.call_works oracle (le_max_second _ _) call)
  | parted _ peer ih => exact ih.deed (.aside rfl rfl rfl rfl)
  | restarted earlier oracle stopped opened _ =>
    have lived : Node.Lived pow _ _ := earlier.restarted oracle stopped opened
    obtain ⟨mempool, pool⟩ := reopen_pools opened
    exact ⟨lived.running, lived.keeps, mempool, pool⟩

/-! What goes out. -/

/-- The object a message carries, by kind and id. -/
def carried : WireMessage → Option (ObjectKind × Hash32)
  | .block block => some (.block, block.id)
  | .transaction transaction => some (.transaction, transaction.id)
  | .template template => some (.template, template.id)
  | .workshare share => some (.workshare, share.id)
  | _ => none

/-- What a node has checked about the contents of a message, by its latest clock reading. -/
def Cleared (pow : PowVerifier) (clock : UInt64) (node : Node) : WireMessage → Prop
  | .block block => ∃ vetted, Vetted pow clock vetted ∧ block.consensusEncode = vetted.consensusEncode
  | .transaction transaction =>
    validateTransactionStructure transaction = .ok () ∧ checkSignature transaction = .ok ()
  | .template template => Offered node.chain template
  | .workshare share => ∃ witness, share ∈ witness.workshares ∧
      validateWorkshares witness node.chain.blocks node.chain.state pow
        (saturatingAdd clock MAX_FUTURE_BLOCK_TIME) = .ok ()
  | .headers headers => ∃ row, row <:+: node.chain.blocks ∧ headers = row.map Block.header ∧
      ∀ block ∈ row, Vetted pow clock block
  | _ => True

theorem Vouched.blockByHash (vouched : Vouched pow clock node) {disk : Disk} {id : Hash32}
    {block : Block} (found : node.blockByHash disk id = some block) :
    block.id = id ∧ ∃ vetted, Vetted pow clock vetted ∧ block.consensusEncode = vetted.consensusEncode := by
  unfold Node.blockByHash at found
  cases active : node.chain.blockByHash id with
  | some other =>
    rw [active] at found
    cases found
    obtain ⟨inside, same⟩ := Chain.blockByHash_some active
    exact ⟨same, block, vouched.keeps.replayed.vetted block inside, rfl⟩
  | none =>
    rw [active, Option.none_or] at found
    unfold Storage.block at found
    cases fails : disk.block id with
    | some reason =>
      rw [fails] at found
      cases found
    | none =>
      rw [fails] at found
      cases stored : node.storage.blocks[id]? with
      | none =>
        rw [stored] at found
        cases found
      | some row =>
        rw [stored] at found
        dsimp only at found
        cases decoded : Block.consensusDecode row.data with
        | error error =>
          rw [decoded] at found
          cases found
        | ok other =>
          rw [decoded] at found
          cases found
          obtain ⟨vetted, ⟨checked, _⟩, named, data⟩ := vouched.keeps.rows id row stored
          have same := Block.consensusDecode_exact decoded
          rw [data] at same
          exact ⟨(Block.id_of_encode same).trans named, vetted, checked, same⟩

theorem headersAfter_row (responder : Node) (locator : List Hash32) (stop : Hash32) :
    ∃ row, row <:+: responder.chain.blocks ∧
      responder.headersAfter locator stop = row.map Block.header := by
  unfold Node.headersAfter
  refine ⟨_, ?_, rfl⟩
  exact (List.takeWhile_prefix _).isInfix.trans
    ((List.take_prefix _ _).isInfix.trans (List.drop_suffix _ _).isInfix)

def Asks : WireMessage → Prop
  | .getData _ _ | .getHeaders _ _ => True
  | _ => False

theorem Asks.checked {reply : WireMessage} (asks : Asks reply) :
    Cleared pow clock node reply ∧ carried reply = none := by
  cases reply with
  | getData _ _ => exact ⟨trivial, rfl⟩
  | getHeaders _ _ => exact ⟨trivial, rfl⟩
  | _ => exact absurd asks id

theorem handleHeaders_asks {peer : Hash32} {headers : List BlockHeader} {reply : WireMessage}
    (sent : (node.handleHeaders env peer headers).1 = some reply) : Asks reply := by
  unfold Node.handleHeaders at sent
  split at sent
  · cases sent
  · split at sent
    · cases sent
    · cases sent
    · cases sent
      exact trivial

theorem handleBlock_asks {peer : Hash32} {block : Block} {reply : WireMessage}
    (sent : (node.handleBlock env peer block).1 = some reply) : Asks reply := by
  unfold Node.handleBlock at sent
  split at sent
  · cases sent
  · split at sent
    · cases sent
    · split at sent
      · cases sent
      · split at sent
        · cases sent
          exact trivial
        · cases sent
          exact trivial

omit [Crypto] in
theorem pendingRequestFor_asks {peer : Hash32} {reply : WireMessage}
    (sent : node.pendingRequestFor env peer = some reply) : Asks reply := by
  unfold Node.pendingRequestFor at sent
  obtain ⟨entry, _, missing⟩ := List.exists_of_findSome?_eq_some sent
  unfold Node.missingDependency at missing
  dsimp only at missing
  split at missing
  · cases missing
  · split at missing
    · cases missing
      exact trivial
    · split at missing
      · cases missing
        exact trivial
      · cases missing

theorem handleWorkshare_asks {peer : Hash32} {share : Workshare} {reply : WireMessage}
    (sent : (node.handleWorkshare env peer share).1 = some reply) : Asks reply := by
  unfold Node.handleWorkshare at sent
  split at sent
  · exact pendingRequestFor_asks sent
  · exact pendingRequestFor_asks sent

theorem Vouched.getData (vouched : Vouched pow clock node) {kind : ObjectKind} {id : Hash32} {reply : WireMessage}
    (sent : node.handleGetData env kind id = some reply) :
    Cleared pow clock node reply ∧ carried reply = some (kind, id) := by
  cases kind with
  | block =>
    obtain ⟨block, found, same⟩ := Option.map_eq_some_iff.mp sent
    cases same
    have ⟨named, checked⟩ := vouched.blockByHash found
    exact ⟨checked, congrArg (fun id => some (ObjectKind.block, id)) named⟩
  | transaction =>
    obtain ⟨transaction, found, same⟩ := Option.map_eq_some_iff.mp sent
    cases same
    obtain ⟨entry, stored, equal⟩ := Option.map_eq_some_iff.mp found
    have ⟨named, relayable⟩ := vouched.mempool.sound id entry stored
    rw [equal] at named relayable
    exact ⟨⟨relayable.structure_ok, relayable.signed⟩,
      congrArg (fun id => some (ObjectKind.transaction, id)) named⟩
  | template =>
    obtain ⟨template, found, same⟩ := Option.map_eq_some_iff.mp sent
    cases same
    have ⟨named, offers⟩ := vouched.pool.templates id template found
    exact ⟨offers, congrArg (fun id => some (ObjectKind.template, id)) named⟩
  | workshare =>
    obtain ⟨share, found, same⟩ := Option.map_eq_some_iff.mp sent
    cases same
    exact ⟨vouched.pool.checked found,
      congrArg (fun id => some (ObjectKind.workshare, id)) (vouched.pool.shares id share found)⟩

/-- Whatever happened to the node before, what it sends in reply to a message has been
checked, and an object goes out only to a request for it. -/
theorem replies_checked {peer : Hash32} {message reply : WireMessage} (lived : node.Lived pow clock)
    (sent : (node.handleWire env peer message).1 = some reply) :
    Cleared pow clock node reply ∧
      ∀ kind id, carried reply = some (kind, id) ↔ message = .getData kind id := by
  have vouched := lived.vouched
  -- only a request for an object is answered with one
  have quiet : Cleared pow clock node reply ∧ carried reply = none → (∀ kind id, message ≠ .getData kind id) →
      Cleared pow clock node reply ∧ ∀ kind id, carried reply = some (kind, id) ↔ message = .getData kind id := by
    intro ⟨checked, nothing⟩ other
    refine ⟨checked, fun kind id => ?_⟩
    rw [nothing]
    exact ⟨fun impossible => (nomatch impossible), fun same => absurd same (other kind id)⟩
  cases message with
  | getData kind id =>
    have ⟨checked, same⟩ := vouched.getData sent
    refine ⟨checked, fun other wanted => ?_⟩
    rw [same]
    simp
  | getHeaders locator stop =>
    cases sent
    obtain ⟨row, inside, headers⟩ := headersAfter_row node locator stop
    have vetted : ∀ block ∈ row, Vetted pow clock block :=
      fun block listed => vouched.keeps.replayed.vetted block (inside.subset listed)
    exact quiet ⟨⟨row, inside, headers, vetted⟩, rfl⟩ fun _ _ => nofun
  | ping nonce =>
    cases sent
    exact quiet ⟨trivial, rfl⟩ fun _ _ => nofun
  | inventory kind id =>
    have asked : node.handleInventory env kind id = some reply := sent
    unfold Node.handleInventory at asked
    extract_lets wanted at asked
    split at asked
    · cases asked
      exact quiet ⟨trivial, rfl⟩ fun _ _ => nofun
    · cases asked
  | block block => exact quiet (handleBlock_asks sent).checked fun _ _ => nofun
  | headers headers => exact quiet (handleHeaders_asks sent).checked fun _ _ => nofun
  | template template =>
    have asked : Asks reply := pendingRequestFor_asks sent
    exact quiet asked.checked fun _ _ => nofun
  | workshare share => exact quiet (handleWorkshare_asks sent).checked fun _ _ => nofun
  | transaction _ => cases sent
  | hello _ => cases sent
  | pong _ => cases sent
  | peers _ => cases sent

omit [Crypto] in
/-- A block that was submitted is sent to a peer that asks for it. -/
theorem submitted_block_sent :
    let _ := labelled
    ∃ (node : Node) (clock : UInt64) (env : NodeEnv) (block : Block),
      node.Lived acceptAll clock ∧ block ≠ Block.genesis ∧
      (node.handleWire env Hash32.ZERO (.getData .block block.id)).1 = some (.block block) ∧
      Cleared acceptAll clock node (.block block) ∧ ∀ kind id, carried (.block block) = some (kind, id) ↔
        WireMessage.getData .block block.id = .getData kind id := by
  intro crypto
  obtain ⟨tree, block, _, member, _, _, above, _, named, _, lengths⟩ := forked_tree
  let env : NodeEnv :=
    { pow := acceptAll, now := GENESIS_TIMESTAMP, disk := Disk.reliable, order := default }
  have calm : Dependable acceptAll GENESIS_TIMESTAMP env :=
    ⟨rfl, rfl, UInt64.le_refl _, of_decide_eq_true rfl⟩
  obtain ⟨node, opened⟩ := Node.openFresh_ok (of_decide_eq_true rfl : fitsI64 0) none
  have chosen : Chosen tree {Block.genesis} node := openFresh_chosen opened
  have near : tree.Near node.chain block := by
    have few := List.length_filter_le (fun other => decide (other ∉ node.chain.blocks))
      (tree.chainTo block).blocks
    have short := lengths block member
    unfold BlockTree.Near
    omega
  obtain ⟨event, after, result, joined, _⟩ := chosen.submit near calm member (Or.inr ⟨_, rfl, named⟩)
  have started : node.Lived acceptAll 0 := .opened opened
  have lived : after.Lived acceptAll (max 0 env.now) := by
    have called : (node.submitBlock env block).2.Lived acceptAll (max 0 env.now) :=
      started.called rfl (.submitBlock block)
    rw [result] at called
    exact called
  have known := (joined.blockByHash calm member).1 (Set.mem_insert block _)
  have sent : (after.handleWire env Hash32.ZERO (.getData .block block.id)).1 = some (.block block) := by
    change (after.blockByHash env.disk block.id).map WireMessage.block = _
    rw [known]
    rfl
  exact ⟨after, _, env, block, lived, above, sent, replies_checked lived sent⟩

end ParitrNode
