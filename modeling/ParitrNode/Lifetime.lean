import ParitrNode.Sessions

/-!
The lives of a node: opened on an empty directory, sent messages by any peers, called by
its miner and its operator, left by peers, stopped at any step of a block and opened
again. Its chain passes `from_blocks` at the latest clock reading it had, and no block
it keeps is dated later than its tables allow.
-/

namespace ParitrNode
open ByteCodec OrderedMap Checked

variable [Crypto]

/-! What a handler consists of. -/

namespace Node

/-- One call of a node operation that succeeds, at a reading no later than the clock, or
work beside the chain and the pools. -/
inductive Deed (pow : PowVerifier) (clock : UInt64) (node : Node) : Node → Prop where
  | transaction (env : NodeEnv) (transaction : Transaction) :
      Deed pow clock node (node.submitTransaction env transaction).2
  | block {env : NodeEnv} (oracle : env.pow = pow) (before : env.now ≤ clock) (block : Block) :
      Deed pow clock node (node.submitBlock env block).2
  | template {template : BlockTemplate} {id : Hash32} {next : Node}
      (registered : node.registerTemplate template = .ok (id, next)) : Deed pow clock node next
  | share {env : NodeEnv} {share : Workshare} {changed : Bool} {next : Node} (oracle : env.pow = pow)
      (before : env.now ≤ clock) (submitted : node.submitWorkshare env share = .ok (changed, next)) :
      Deed pow clock node next
  | candidate {env : NodeEnv} {extranonce : UInt64} {candidate : MiningCandidate} {next : Node}
      (mined : node.miningCandidate env extranonce = .ok (candidate, next)) : Deed pow clock node next
  | aside {next : Node} (chain : next.chain = node.chain) (storage : next.storage = node.storage)
      (mempool : next.mempool = node.mempool) (workshares : next.workshares = node.workshares) :
      Deed pow clock node next

def Works (pow : PowVerifier) (clock : UInt64) : Node → Node → Prop :=
  Relation.ReflTransGen (Deed pow clock)

variable {pow : PowVerifier} {clock : UInt64} {node next : Node} {env : NodeEnv} {peer : Hash32}

theorem processPending_works (oracle : env.pow = pow) (before : env.now ≤ clock) (count : Nat) (node : Node) :
    Works pow clock node (processPending env count node) := by
  induction count generalizing node with
  | zero => exact .refl
  | succ count ih =>
    rw [processPending]
    split
    next => exact .refl
    next id _ share _ =>
      have removed : Deed pow clock node { node with pendingWorkshares := node.pendingWorkshares.erase id } :=
        .aside rfl rfl rfl rfl
      dsimp only
      split
      next => exact (ih _).head removed
      next changed submitted result => exact ((ih submitted).head (.share oracle before result)).head removed

theorem handleWire_works (oracle : env.pow = pow) (before : env.now ≤ clock)
    (message : WireMessage) :
    Works pow clock node (node.handleWire env peer message).2 := by
  have alone : ∀ {next : Node}, next.chain = node.chain → next.storage = node.storage →
      next.mempool = node.mempool → next.workshares = node.workshares → Works pow clock node next :=
    fun chain storage mempool workshares => .single (.aside chain storage mempool workshares)
  cases message with
  | transaction transaction => exact .single (.transaction env transaction)
  | block block =>
    have submitted : Deed pow clock node (node.submitBlock env block).2 := .block oracle before block
    change Works pow clock node (node.handleBlock env peer block).2
    unfold handleBlock
    split
    next error after result =>
      rw [result] at submitted
      exact .tail (.single submitted) (.aside rfl rfl rfl rfl)
    next event after result =>
      rw [result] at submitted
      split
      next => exact .single submitted
      next queue waiting =>
        split
        next => exact .tail (.single submitted) (.aside rfl rfl rfl rfl)
        next =>
          split
          next => exact .tail (.single submitted) (.aside rfl rfl rfl rfl)
          next => exact .tail (.single submitted) (.aside rfl rfl rfl rfl)
  | headers headers =>
    change Works pow clock node (node.handleHeaders env peer headers).2
    unfold handleHeaders
    split
    next => exact alone rfl rfl rfl rfl
    next =>
      split
      next => exact alone rfl rfl rfl rfl
      next => exact .refl
      next => exact alone rfl rfl rfl rfl
  | template template =>
    change Works pow clock node (node.handleTemplate env peer template).2
    unfold handleTemplate
    dsimp only
    split
    next id registered result => exact (processPending_works oracle before _ registered).head (.template result)
    next => exact .refl
  | workshare share =>
    change Works pow clock node (node.handleWorkshare env peer share).2
    unfold handleWorkshare
    split
    next =>
      dsimp only
      split
      next changed submitted result =>
        exact (processPending_works oracle before _ submitted).head (.share oracle before result)
      next => exact processPending_works oracle before _ node
    next =>
      dsimp only
      split
      next => exact alone rfl rfl rfl rfl
      next => exact .refl
  | hello _ => exact .refl
  | inventory _ _ => exact .refl
  | getData _ _ => exact .refl
  | getHeaders _ _ => exact .refl
  | ping _ => exact .refl
  | pong _ => exact .refl
  | peers _ => exact .refl

theorem call_works (oracle : env.pow = pow) (before : env.now ≤ clock) (call : LocalCall) :
    Works pow clock node (call.perform node env) := by
  have kept : ∀ {ε α : Type} {result : Except ε (α × Node)},
      (∀ {value : α} {next : Node}, result = .ok (value, next) → Deed pow clock node next) →
      Works pow clock node (orUnchanged node result) := by
    intro ε α result each
    cases result with
    | error _ => exact .refl
    | ok found => exact .single (each rfl)
  cases call with
  | submitTransaction transaction => exact .single (.transaction env transaction)
  | submitBlock block => exact .single (.block oracle before block)
  | registerTemplate template => exact kept fun result => .template result
  | submitWorkshare share => exact kept fun result => .share oracle before result
  | miningCandidate extranonce => exact kept fun result => .candidate result
  | requestSync => exact .single (.aside rfl rfl rfl rfl)

/-- The nodes of a life, with the latest clock reading so far. A process may be stopped
at any step of any `submit_block` before it is opened again on its tables. -/
inductive Lived (pow : PowVerifier) : UInt64 → Node → Prop where
  | opened {node : Node} {disk : Disk} {now : UInt64} {miner : Option Address}
      (opened : openFresh disk now miner = .ok node) : Lived pow now node
  | received {clock : UInt64} {node : Node} {env : NodeEnv} (earlier : Lived pow clock node)
      (oracle : env.pow = pow) (peer : Hash32) (message : WireMessage) :
      Lived pow (max clock env.now) (node.handleWire env peer message).2
  | called {clock : UInt64} {node : Node} {env : NodeEnv} (earlier : Lived pow clock node)
      (oracle : env.pow = pow) (call : LocalCall) :
      Lived pow (max clock env.now) (call.perform node env)
  | parted {clock : UInt64} {node : Node} (earlier : Lived pow clock node) (peer : Hash32) :
      Lived pow clock (node.forget peer)
  | restarted {clock : UInt64} {node next : Node} {env : NodeEnv} {block : Block} {stage : Stage}
      {disk : Disk} {now : UInt64} {miner : Option Address} (earlier : Lived pow clock node)
      (oracle : env.pow = pow) (stopped : Reached node env block stage)
      (opened : reopen (stage.storage node) disk pow now miner = .ok next) :
      Lived pow (max (max clock env.now) now) next

end Node

/-! What a block has passed. -/

/-- The block ends a chain that passes `from_blocks` at this clock reading. -/
def Vetted (pow : PowVerifier) (clock : UInt64) (block : Block) : Prop :=
  ∃ chain : Chain, chain.Replayed pow clock ∧ chain.tip = block

variable {pow : PowVerifier} {clock ahead now : UInt64}

theorem Chain.Replayed.later {chain : Chain} (replayed : chain.Replayed pow clock)
    (le : clock ≤ ahead) : chain.Replayed pow ahead := fromBlocks_replayed replayed le

theorem Vetted.later {block : Block} (vetted : Vetted pow clock block) (le : clock ≤ ahead) :
    Vetted pow ahead block := by
  obtain ⟨chain, replayed, tip⟩ := vetted
  exact ⟨chain, replayed.later le, tip⟩

theorem Chain.Replayed.vetted {chain : Chain} (replayed : chain.Replayed pow clock) :
    ∀ block ∈ chain.blocks, Vetted pow clock block := by
  obtain ⟨rest, shape, _, accepted, summed⟩ := fromBlocks_ok_iff.mp replayed
  rw [shape] at summed ⊢
  clear shape
  generalize chain.state = state at accepted
  generalize chain.cumulativeWork = work at summed
  induction rest using List.reverseRecOn generalizing state work with
  | nil =>
    intro block inside
    rw [List.mem_singleton.mp inside]
    exact ⟨Chain.genesis, replayed_genesis pow clock, rfl⟩
  | append_singleton rest last ih =>
    intro block inside
    rw [← List.cons_append] at summed inside
    obtain ⟨middle, before, _⟩ := replay_snoc.mp accepted
    obtain ⟨earlier, sum, _⟩ := cumulativeWork_snoc.mp summed
    rcases List.mem_append.mp inside with old | new
    · exact ih middle before earlier sum block old
    · rw [List.mem_singleton.mp new]
      refine ⟨⟨Block.genesis :: (rest ++ [last]), state, work, List.cons_ne_nil _ _⟩, ?_, ?_⟩
      · exact fromBlocks_ok_iff.mpr ⟨rest ++ [last], rfl, rfl, accepted, summed⟩
      · exact List.getLast_append_singleton (Block.genesis :: rest)

theorem considerChain_accepts {chain next : Chain} {candidate : List Block} {event : ChainEvent}
    (considered : chain.considerChain candidate pow now = .ok (event, next)) :
    ∃ validated : Chain, Chain.fromBlocks candidate pow now = .ok validated := by
  unfold Chain.considerChain at considered
  simp only [guard_ok, bind_ok] at considered
  obtain ⟨_, validated, accepted, _⟩ := considered
  exact ⟨validated, accepted⟩

theorem walkBranch_last {active : Chain} {storage : Storage} {disk : Disk} {seen : List Hash32}
    {oldest : Block} {later branch : List Block} {fork : UInt64}
    (walked : Node.walkBranch active storage disk seen oldest later = .ok (fork, branch)) :
    branch.getLast? = (oldest :: later).getLast? := by
  fun_induction Node.walkBranch active storage disk seen oldest later with
  | case1 =>
    cases walked
    rfl
  | case2 => cases walked
  | case3 => cases walked
  | case4 => cases walked
  | case5 seen oldest later _ _ _ parent _ ih =>
    rw [ih walked, List.getLast?_cons_cons]

/-- A new block and the chain it would make, as its checks leave them. -/
structure Places (pow : PowVerifier) (clock : UInt64) (block : Block) (candidate : Chain) : Prop where
  replayed : candidate.Replayed pow clock
  dated : ∀ other ∈ candidate.blocks, Dated other
  vetted : Vetted pow clock block
  prompt : Dated block

variable {node next : Node} {env : NodeEnv}

/-- A block that finds its place was validated with all its ancestors. -/
theorem placeBlock_places {block : Block} {event : ChainEvent} {candidate : Chain}
    (replayed : node.chain.Replayed pow clock) (dated : ∀ other ∈ node.chain.blocks, Dated other)
    (oracle : env.pow = pow) (before : env.now ≤ clock) (fits : fitsI64 env.now)
    (unknown : ¬(node.chain.blockByHash block.id).isSome)
    (placed : node.placeBlock env block = .ok (event, candidate)) :
    Places pow clock block candidate := by
  unfold Node.placeBlock at placed
  rw [oracle] at placed
  split at placed
  next =>
    have after := replayed.append before placed
    rcases append_ok placed with ⟨_, _, known⟩ | ⟨_, _, _, blocks, accepted, _⟩
    · exact absurd known unknown
    · have prompt := validateBlock_dated accepted fits
      refine ⟨after, ?_, after.vetted block ?_, prompt⟩
      · rw [blocks]
        exact List.forall_mem_append.mpr ⟨dated, List.forall_mem_singleton.mpr prompt⟩
      · rw [blocks]
        exact List.mem_append_right _ (List.mem_singleton_self block)
  next =>
    rw [bind_ok] at placed
    obtain ⟨blocks, assembled, considered⟩ := placed
    obtain ⟨validated, accepted⟩ := considerChain_accepts considered
    obtain ⟨_, _, same, _⟩ := fromBlocks_ok_iff.mp accepted
    have member : block ∈ blocks := by
      unfold Node.assembleCandidate at assembled
      rw [bind_ok] at assembled
      obtain ⟨⟨fork, branch⟩, walked, joined⟩ := assembled
      dsimp only at joined
      split at joined
      next =>
        cases joined
        exact List.mem_append_right _ (List.mem_of_getLast? (walkBranch_last walked))
      next => cases joined
    refine ⟨replayed.considerChain before considered, ?_,
      (fromBlocks_replayed accepted before).vetted block (same ▸ member),
      fromBlocks_dated accepted fits block member⟩
    rcases considerChain_ok considered with still | adopted
    · rw [still]
      exact dated
    · obtain ⟨_, _, equal, _⟩ := fromBlocks_ok_iff.mp adopted
      rw [equal]
      exact fromBlocks_dated adopted fits

/-! The rows of the block table. -/

namespace Storage

/-- Each row holds the encoding of an allowed block under its id. -/
def RowsOf (allowed : Block → Prop) (storage : Storage) : Prop :=
  ∀ (id : Hash32) (row : StoredBlock), storage.blocks[id]? = some row →
    ∃ block, allowed block ∧ block.id = id ∧ row.data = block.consensusEncode

variable {allowed wider : Block → Prop} {storage later : Storage}

theorem RowsOf.mono (rows : storage.RowsOf allowed) (permits : ∀ block, allowed block → wider block) :
    storage.RowsOf wider := by
  intro id row found
  obtain ⟨block, inside, same⟩ := rows id row found
  exact ⟨block, permits block inside, same⟩

theorem insertBlock_fits {block : Block} {now : UInt64}
    (inserted : storage.insertBlock block now = .ok later) : fitsI64 now := by
  unfold Storage.insertBlock at inserted
  rw [guard_ok, not_or] at inserted
  exact not_not.mp inserted.1.2

theorem RowsOf.insertBlock {block : Block} {now : UInt64} (rows : storage.RowsOf allowed)
    (permits : allowed block) (inserted : storage.insertBlock block now = .ok later) :
    later.RowsOf allowed := by
  unfold Storage.insertBlock at inserted
  split at inserted
  · cases inserted
  · split at inserted
    · cases inserted
      exact rows
    · cases inserted
      intro id row found
      change (storage.blocks.insert block.id _)[id]? = some row at found
      rw [get_insert] at found
      split at found
      next same =>
        cases found
        exact ⟨block, permits, same, rfl⟩
      next => exact rows id row found

theorem RowsOf.insertBlocks {blocks : List Block} {now : UInt64} (rows : storage.RowsOf allowed)
    (permits : ∀ block ∈ blocks, allowed block)
    (inserted : blocks.foldlM (fun storage block => storage.insertBlock block now) storage = .ok later) :
    later.RowsOf allowed := by
  induction blocks generalizing storage with
  | nil =>
    cases inserted
    exact rows
  | cons block rest ih =>
    rw [List.foldlM_cons, bind_ok] at inserted
    obtain ⟨middle, first, others⟩ := inserted
    apply ih (rows.insertBlock (permits block List.mem_cons_self) first)
    · exact fun other inside => permits other (List.mem_cons_of_mem block inside)
    · exact others

theorem RowsOf.saveChain {chain : Chain} {disk : Disk} {now : UInt64} (rows : storage.RowsOf allowed)
    (permits : ∀ block ∈ chain.blocks, allowed block)
    (saved : storage.saveChain chain disk now = .ok later) : later.RowsOf allowed := by
  unfold Storage.saveChain at saved
  split at saved
  next => cases saved
  next =>
    simp only [bind_ok, guard_ok] at saved
    obtain ⟨stored, inserted, indexed, filled, _, result⟩ := saved
    cases result
    have same := (insertActives_rows filled).1
    have kept := rows.insertBlocks permits inserted
    intro id row found
    apply kept id row
    change indexed.blocks[id]? = some row at found
    rw [same] at found
    exact found

theorem rowsOf_default : (default : Storage).RowsOf allowed := by
  intro id row found
  change (∅ : BTreeMap Hash32 StoredBlock)[id]? = some row at found
  rw [get_empty] at found
  cases found

/-- A block that loads has the encoding of an allowed one. -/
theorem RowsOf.loadActiveBlocks {blocks : List Block} (rows : storage.RowsOf allowed)
    (loads : storage.loadActiveBlocks = .ok blocks) :
    ∀ block ∈ blocks, ∃ other, allowed other ∧ block.consensusEncode = other.consensusEncode := by
  have each : ∀ row ∈ storage.activeChain.toList.filterMap fun row => storage.blocks[row.2]?,
      ∃ other, allowed other ∧ row.data = other.consensusEncode := by
    intro row member
    obtain ⟨entry, _, found⟩ := List.mem_filterMap.mp member
    obtain ⟨other, inside, _, data⟩ := rows entry.2 row found
    exact ⟨other, inside, data⟩
  unfold Storage.loadActiveBlocks at loads
  generalize (storage.activeChain.toList.filterMap fun row => storage.blocks[row.2]?) = stored
    at loads each
  induction stored generalizing blocks with
  | nil =>
    cases loads
    exact List.forall_mem_nil _
  | cons row rest ih =>
    simp only [List.mapM_cons, bind_ok] at loads
    obtain ⟨first, load, later, others, result⟩ := loads
    cases result
    obtain ⟨here, tail⟩ := List.forall_mem_cons.mp each
    obtain ⟨other, inside, data⟩ := here
    refine List.forall_mem_cons.mpr ⟨⟨other, inside, ?_⟩, ih others tail⟩
    rw [StoredBlock.load_ok load, data]

end Storage


/-! What the tables and the chain keep. -/

structure Keeps (pow : PowVerifier) (clock : UInt64) (storage : Storage) (chain : Chain) : Prop where
  replayed : chain.Replayed pow clock
  dated : ∀ block ∈ chain.blocks, Dated block
  rows : storage.RowsOf fun block => Vetted pow clock block ∧ Dated block

theorem Keeps.later {storage : Storage} {chain : Chain} (keeps : Keeps pow clock storage chain)
    (le : clock ≤ ahead) : Keeps pow ahead storage chain :=
  ⟨keeps.replayed.later le, keeps.dated, keeps.rows.mono fun _ ⟨vetted, dated⟩ => ⟨vetted.later le, dated⟩⟩

theorem Keeps.permits {storage : Storage} {chain : Chain} (keeps : Keeps pow clock storage chain) :
    ∀ block ∈ chain.blocks, Vetted pow clock block ∧ Dated block :=
  fun block member => ⟨keeps.replayed.vetted block member, keeps.dated block member⟩

theorem Keeps.valid (keeps : Keeps pow clock node.storage node.chain) (running : node.Running) :
    ValidHistory pow node.chain.blocks node.chain.state :=
  fromBlocks_valid keeps.replayed (fromBlocks_above keeps.replayed (Or.inr running.persists.distinct))

theorem keeps_genesis {storage saved : Storage} {disk : Disk}
    (rows : storage.RowsOf fun block => Vetted pow clock block ∧ Dated block)
    (written : storage.saveChain Chain.genesis disk now = .ok saved) :
    Keeps pow clock saved Chain.genesis := by
  have replayed := replayed_genesis pow clock
  have dated : ∀ block ∈ Chain.genesis.blocks, Dated block := List.forall_mem_singleton.mpr dated_genesis
  refine ⟨replayed, dated, rows.saveChain ?_ written⟩
  exact fun block member => ⟨replayed.vetted block member, dated block member⟩

theorem Recorded.places {block : Block} {storage : Storage} {event : ChainEvent} {candidate : Chain}
    (recorded : Recorded node env block storage event candidate)
    (keeps : Keeps pow clock node.storage node.chain) (oracle : env.pow = pow)
    (before : env.now ≤ clock) : Places pow clock block candidate ∧
      storage.RowsOf fun other => Vetted pow clock other ∧ Dated other := by
  have stored := recorded.stored
  unfold Storage.storeSideBlock at stored
  split at stored
  next => cases stored
  next =>
    have places := placeBlock_places keeps.replayed keeps.dated oracle before
      (Storage.insertBlock_fits stored) recorded.unknown recorded.placed
    exact ⟨places, keeps.rows.insertBlock ⟨places.vetted, places.prompt⟩ stored⟩

theorem SubmitStep.keeps {block : Block} {stage following : Stage}
    (step : SubmitStep node env block stage following) (known : stage.Knows node env block)
    (keeps : Keeps pow clock node.storage node.chain) (oracle : env.pow = pow)
    (before : env.now ≤ clock) (held : Keeps pow clock (stage.storage node) (stage.chain node)) :
    Keeps pow clock (following.storage node) (following.chain node) := by
  cases step with
  | known _ => exact keeps
  | refused _ _ => exact keeps
  | unrecorded _ _ _ => exact keeps
  | record unknown placed stored =>
    exact ⟨keeps.replayed, keeps.dated, (Recorded.places ⟨unknown, placed, stored⟩ keeps oracle before).2⟩
  | settle _ => exact held
  | unsaved _ _ => exact held
  | save _ saved =>
    obtain ⟨places, rows⟩ := Recorded.places known keeps oracle before
    refine ⟨places.replayed, places.dated, rows.saveChain ?_ saved⟩
    exact fun other member => ⟨places.replayed.vetted other member, places.dated other member⟩
  | activate => exact held

theorem Reached.keeps {block : Block} {stage : Stage} (reached : Reached node env block stage)
    (keeps : Keeps pow clock node.storage node.chain) (oracle : env.pow = pow)
    (before : env.now ≤ clock) : Keeps pow clock (stage.storage node) (stage.chain node) := by
  induction reached with
  | refl => exact keeps
  | tail earlier step ih => exact step.keeps (Reached.knows earlier) keeps oracle before ih

theorem reopen_keeps {storage : Storage} {disk : Disk} {miner : Option Address}
    (rows : storage.RowsOf fun block => Vetted pow clock block ∧ Dated block) (before : now ≤ clock)
    (opened : Node.reopen storage disk pow now miner = .ok node) :
    Keeps pow clock node.storage node.chain := by
  unfold Node.reopen at opened
  obtain ⟨stored, listed, later⟩ := bind_ok.mp opened
  cases stored with
  | nil =>
    obtain ⟨saved, written, result⟩ := bind_ok.mp later
    cases result
    exact keeps_genesis rows written
  | cons first rest =>
    dsimp only at later
    cases accepted : Chain.fromBlocks (first :: rest) pow now with
    | error reason =>
      rw [accepted] at later
      cases later
    | ok chain =>
      rw [accepted] at later
      cases later
      obtain ⟨_, _, same, _⟩ := fromBlocks_ok_iff.mp accepted
      refine ⟨fromBlocks_replayed accepted before, ?_, rows⟩
      rw [same]
      intro block member
      obtain ⟨_, ⟨_, dated⟩, equal⟩ := rows.loadActiveBlocks listed block member
      unfold Dated
      rw [Block.header_of_encode equal]
      exact dated

namespace Node

theorem Deed.keeps (deed : node.Deed pow clock next) (keeps : Keeps pow clock node.storage node.chain) :
    Keeps pow clock next.storage next.chain := by
  have beside : node.Beside next → Keeps pow clock next.storage next.chain := by
    intro ⟨storage, chain⟩
    rw [storage, chain]
    exact keeps
  cases deed with
  | transaction env transaction => exact beside (submitTransaction_beside node env transaction)
  | @block env oracle before block =>
    obtain ⟨result, after, reached⟩ := submitBlock_reached node env block
    have returned : node.submitBlock env block = (result, after) := reached.knows
    rw [returned]
    exact reached.keeps keeps oracle before
  | template registered => exact beside (registerTemplate_beside registered).1
  | share _ _ submitted => exact beside (submitWorkshare_beside submitted).1
  | candidate mined => exact beside (miningCandidate_beside mined).1
  | aside chain storage _ _ => exact beside ⟨storage, chain⟩

theorem Works.keeps (works : node.Works pow clock next)
    (keeps : Keeps pow clock node.storage node.chain) : Keeps pow clock next.storage next.chain := by
  induction works with
  | refl => exact keeps
  | tail _ deed ih => exact deed.keeps ih

theorem Deed.running (deed : node.Deed pow clock next) (running : node.Running) : next.Running := by
  have beside : node.Beside next → next.Running := fun same => running.worked same.storage same.chain
  cases deed with
  | transaction env transaction => exact beside (submitTransaction_beside node env transaction)
  | block _ _ block => exact running.submitted
  | template registered => exact beside (registerTemplate_beside registered).1
  | share _ _ submitted => exact beside (submitWorkshare_beside submitted).1
  | candidate mined => exact beside (miningCandidate_beside mined).1
  | aside chain storage _ _ => exact beside ⟨storage, chain⟩

theorem Works.running (works : node.Works pow clock next) (running : node.Running) : next.Running := by
  induction works with
  | refl => exact running
  | tail _ deed ih => exact deed.running ih

/-! Every life. -/

theorem Lived.running (lived : node.Lived pow clock) : node.Running := by
  induction lived with
  | opened opened => exact .opened opened
  | received _ oracle peer message ih =>
    exact (handleWire_works oracle (UInt64.le_refl _) message).running ih
  | called _ oracle call ih => exact (call_works oracle (UInt64.le_refl _) call).running ih
  | parted _ peer ih => exact ih.worked rfl rfl
  | restarted _ _ stopped opened ih => exact ih.recovered stopped opened

theorem Lived.keeps (lived : node.Lived pow clock) : Keeps pow clock node.storage node.chain := by
  induction lived with
  | opened opened =>
    obtain ⟨storage, saved, result⟩ := bind_ok.mp opened
    cases result
    exact keeps_genesis Storage.rowsOf_default saved
  | received _ oracle peer message ih =>
    exact (handleWire_works oracle (le_max_second _ _) message).keeps (ih.later (le_max_first _ _))
  | called _ oracle call ih =>
    exact (call_works oracle (le_max_second _ _) call).keeps (ih.later (le_max_first _ _))
  | parted _ _ ih => exact ih
  | restarted _ oracle stopped opened ih =>
    have before := stopped.keeps (ih.later (le_max_first _ _)) oracle (le_max_second _ _)
    exact reopen_keeps (before.later (le_max_first _ _)).rows (le_max_second _ _) opened

theorem Lived.valid (lived : node.Lived pow clock) :
    ValidHistory pow node.chain.blocks node.chain.state := lived.keeps.valid lived.running

theorem Lived.summed (lived : node.Lived pow clock) :
    ParitrNode.cumulativeWork node.chain.blocks = .ok node.chain.cumulativeWork := by
  obtain ⟨_, _, _, _, summed⟩ := fromBlocks_ok_iff.mp lived.keeps.replayed
  exact summed

theorem Lived.tip_dated (lived : node.Lived pow clock) : Dated node.chain.tip :=
  lived.keeps.dated _ (List.getLast_mem node.chain.nonempty)

end Node

end ParitrNode
