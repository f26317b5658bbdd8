import ParitrNode.FundedChain
import ParitrNode.TemplateRoom

/-!
Peers' templates, one message after another: valid ones are all cached as long
as they fit, and 512 of them shut the miner out.
-/

namespace ParitrNode
open ByteCodec OrderedMap Checked

section Registering

variable [Crypto]

def Node.registerAll (node : Node) (templates : List BlockTemplate) : Except ConsensusError Node :=
  templates.foldlM (fun node template => Prod.snd <$> node.registerTemplate template) node

theorem Node.registerAll_cons {node next : Node} {template : BlockTemplate}
    {rest : List BlockTemplate} : node.registerAll (template :: rest) = .ok next ↔
      ∃ id middle, node.registerTemplate template = .ok (id, middle) ∧
        middle.registerAll rest = .ok next := by
  unfold registerAll
  rw [List.foldlM_cons, bind_ok]
  constructor
  · intro ⟨middle, registered, later⟩
    cases first : node.registerTemplate template with
    | error error =>
      rw [first] at registered
      cases registered
    | ok result =>
      rw [first] at registered
      cases registered
      exact ⟨result.1, result.2, rfl, later⟩
  · intro ⟨id, middle, registered, later⟩
    exact ⟨middle, by rw [registered]; rfl, later⟩

theorem LiveRun.registerAll {pow : PowVerifier} {rule : UInt64 → Workshare → Prop} {now : UInt64}
    {node next : Node} {templates : List BlockTemplate} (run : LiveRun pow rule now node)
    (registered : node.registerAll templates = .ok next) : LiveRun pow rule now next := by
  induction templates generalizing node with
  | nil =>
    cases registered
    exact run
  | cons template rest ih =>
    obtain ⟨_, middle, first, later⟩ := Node.registerAll_cons.mp registered
    exact ih (run.step (.template first)) later

theorem Node.registerTemplate_new {node : Node} {template : BlockTemplate} {pool : WorksharePool}
    (offered : Offered node.chain template)
    (absent : node.workshares.templates[template.id]? = none)
    (registered : node.workshares.registerTemplate template = .ok pool) :
    node.registerTemplate template =
      .ok (template.id, { node with workshares := pool }.broadcast (.inventory .template template.id)) := by
  unfold registerTemplate
  rw [if_neg (not_or.mpr ⟨not_not_intro offered.version, Nat.not_lt.mpr offered.size⟩),
    if_neg (not_or.mpr ⟨not_not_intro offered.height, not_not_intro offered.parent⟩), absent]
  exact bind_ok.mpr ⟨(), offered.valid, bind_ok.mpr ⟨pool, registered, rfl⟩⟩

structure Stocked (node next : Node) (templates : List BlockTemplate) : Prop where
  chain : next.chain = node.chain
  mempool : next.mempool = node.mempool
  miner : next.minerAddress = node.minerAddress
  anchor : next.workshares.anchor = node.workshares.anchor
  shares : next.workshares.shares = node.workshares.shares
  size : next.workshares.templates.size = node.workshares.templates.size + templates.length
  bytes : next.workshares.templateBytes = node.workshares.templateBytes +
    (templates.map fun template => template.consensusEncode.length).sum
  cached : ∀ template ∈ templates, next.workshares.templates[template.id]? = some template
  others : ∀ id, id ∉ templates.map BlockTemplate.id →
    next.workshares.templates[id]? = node.workshares.templates[id]?

theorem registerAll_succeeds {node : Node} {templates : List BlockTemplate}
    (anchored : node.workshares.anchor = node.chain.tip.id)
    (offered : ∀ template ∈ templates, Offered node.chain template)
    (fresh : ∀ template ∈ templates, node.workshares.templates[template.id]? = none)
    (distinct : (templates.map BlockTemplate.id).Nodup)
    (count : node.workshares.templates.size + templates.length ≤ MAX_TEMPLATES_PER_BLOCK)
    (bytes : node.workshares.templateBytes +
      (templates.map fun template => template.consensusEncode.length).sum ≤ 64 * 1024 * 1024) :
    ∃ next, node.registerAll templates = .ok next ∧ Stocked node next templates := by
  induction templates generalizing node with
  | nil => exact ⟨node, rfl, rfl, rfl, rfl, rfl, rfl, rfl, rfl, fun _ inside => (nomatch inside), fun _ _ => rfl⟩
  | cons template rest ih =>
    rw [List.map_cons, List.nodup_cons] at distinct
    rw [List.length_cons] at count
    rw [List.map_cons, List.sum_cons] at bytes
    have offer := offered template List.mem_cons_self
    have absent := fresh template List.mem_cons_self
    let pool : WorksharePool := { node.workshares with
      templateBytes := node.workshares.templateBytes + template.consensusEncode.length
      templates := node.workshares.templates.insert template.id template }
    have registered : node.workshares.registerTemplate template = .ok pool :=
      WorksharePool.registerTemplate_ok_iff.mpr
        ⟨⟨offer.parent.trans anchored.symm, offer.version, offer.size⟩,
          Or.inr ⟨absent, by omega, by omega, rfl⟩⟩
    have first := Node.registerTemplate_new offer absent registered
    have size : pool.templates.size = node.workshares.templates.size + 1 :=
      size_insert_fresh absent template
    let middle : Node := { node with workshares := pool }.broadcast (.inventory .template template.id)
    have still : middle.workshares.anchor = middle.chain.tip.id := anchored
    have absentLater : ∀ other ∈ rest, middle.workshares.templates[other.id]? = none := by
      intro other inside
      have different : template.id ≠ other.id :=
        fun same => distinct.1 (List.mem_map.mpr ⟨other, inside, same.symm⟩)
      change (node.workshares.templates.insert template.id template)[other.id]? = none
      rw [get_insert, if_neg different]
      exact fresh other (List.mem_cons_of_mem _ inside)
    obtain ⟨next, later, stocked⟩ := ih still
      (fun other inside => offered other (List.mem_cons_of_mem _ inside)) absentLater distinct.2
      (by change pool.templates.size + _ ≤ _; omega)
      (by change node.workshares.templateBytes + template.consensusEncode.length + _ ≤ _; omega)
    refine ⟨next, Node.registerAll_cons.mpr ⟨_, _, first, later⟩, stocked.chain, stocked.mempool,
      stocked.miner, stocked.anchor, stocked.shares, ?_, ?_, ?_, ?_⟩
    · rw [stocked.size, List.length_cons]
      change pool.templates.size + _ = _
      omega
    · rw [stocked.bytes, List.map_cons, List.sum_cons, ← Nat.add_assoc]
      rfl
    · intro other member
      cases List.mem_cons.mp member with
      | inl same =>
        subst same
        rw [stocked.others _ distinct.1]
        exact get_insert_self _ _ _
      | inr inside => exact stocked.cached other inside
    · intro id outside
      rw [List.map_cons, List.mem_cons, not_or] at outside
      rw [stocked.others id outside.2]
      change (node.workshares.templates.insert template.id template)[id]? = _
      rw [get_insert, if_neg (Ne.symm outside.1)]

end Registering

/-! Templates of payments on the funded chain. -/

section Payments

def paymentTemplate [Crypto] (chain : Chain) (template count : Nat) : BlockTemplate :=
  ownTemplate chain (payments template count)

theorem payments_succ (template count : Nat) :
    payments template (count + 1) = payments template count ++ [payment template count] := by
  unfold payments
  rw [List.range_succ, List.map_append, List.map_singleton]

theorem payments_encoded [Crypto] (template count : Nat) : ((payments template count).flatMap
    fun transaction => Writer.bytes transaction.consensusEncode).length = count * 217 := by
  induction count with
  | zero => rfl
  | succ count ih =>
    rw [payments_succ, List.flatMap_append, List.length_append, ih, List.flatMap_singleton,
      Writer.bytes_length, payment_length]
    omega

theorem paymentTemplate_length [Crypto] (chain : Chain) (template count : Nat) :
    (paymentTemplate chain template count).consensusEncode.length = 46 + count * 217 := by
  rw [template_length]
  exact congrArg (46 + ·) (payments_encoded template count)

theorem paymentTemplate_id (chain : Chain) (template last : Nat) :
    @BlockTemplate.id spelled (@paymentTemplate spelled chain template (last + 1)) =
      spelling template last := by
  let _ := spelled
  obtain ⟨head, _, ends⟩ := bid_ends template last 1 0
  have width := paymentTemplate_length chain template (last + 1)
  have split : (paymentTemplate chain template (last + 1)).consensusEncode =
      (Writer.u16 BlockTemplate.VERSION ++ (Writer.u64 (chain.tip.header.height + 1) ++
        (chain.tip.id.bytes ++ (Writer.count (payments template (last + 1)).length ++
        ((payments template last).flatMap (fun transaction => Writer.bytes transaction.consensusEncode) ++
        (Writer.count (payment template last).consensusEncode.length ++ head)))))) ++
        (spelling template last).bytes := by
    unfold paymentTemplate ownTemplate BlockTemplate.consensusEncode encodeTransactions
    dsimp only
    rw [payments_succ, List.flatMap_append, List.flatMap_singleton]
    simp only [List.append_assoc]
    rw [← ends]
    rfl
  apply spelled_ends "PARITR-P9-TEMPLATE-v1" split
  rw [width]
  change 12 + 21 + (46 + (last + 1) * 217) ≠ 160
  omega

/-- The template without transactions ends in a zero byte, payments do not. -/
theorem spelling_ne_empty (chain : Chain) (template index : Nat) :
    spelling template index ≠ @BlockTemplate.id spelled (@ownTemplate spelled chain []) := by
  let _ := spelled
  intro same
  have last : (ownTemplate chain []).consensusEncode.getLast? = some 0 := by
    unfold ownTemplate BlockTemplate.consensusEncode encodeTransactions
    dsimp only
    rw [← List.append_assoc, ← List.append_assoc, List.getLast?_append]
    rfl
  have width := template_length (ownTemplate chain [])
  have ends : (spelling template index).bytes.getLast? = some 0 := by
    rw [same]
    unfold BlockTemplate.id
    rw [spelled_domainHash _ _ (by rw [width]; exact of_decide_eq_true rfl)]
    apply lastBytes_getLast
    rw [List.getLast?_append, last]
    rfl
  have seven : (spelling template index).bytes.getLast? = some 7 := by
    change (_ ++ (_ ++ List.replicate 16 7)).getLast? = some (7 : UInt8)
    rw [List.getLast?_append, List.getLast?_append]
    rfl
  rw [seven] at ends
  cases ends

theorem Funded.offers {chain : Chain} (funded : Funded chain) (template : Nat) {count : Nat}
    (short : count ≤ MAX_BLOCK_TRANSACTIONS) :
    @Offered spelled chain (@paymentTemplate spelled chain template count) :=
  let _ := spelled
  { version := rfl
    size := by
      have limit : MAX_BLOCK_TRANSACTIONS = 4096 := rfl
      have room : MAX_TEMPLATE_BYTES = 4194304 := rfl
      rw [paymentTemplate_length]
      omega
    height := by
      change chain.tip.header.height + 1 = saturatingAdd chain.tip.header.height 1
      rw [funded.height]
      decide
    parent := rfl
    valid := by
      obtain ⟨state, moved, balance, nonce, money⟩ := funded.ledger
      have limit : MAX_BLOCK_TRANSACTIONS = 4096 := rfl
      have small : count < 2 ^ 64 := by omega
      obtain ⟨result, applied⟩ := payments_apply template small nonce (by omega) money
      unfold validateTemplateTransactions
      rw [if_neg (by
        change ¬(payments template count).length > _
        rw [payments, List.length_map, List.length_range]
        omega)]
      apply bind_ok.mpr
      refine ⟨state, ?_, bind_ok.mpr ⟨result, applied, rfl⟩⟩
      change matured chain.state (chain.tip.header.height + 1) = .ok state
      rw [funded.height]
      exact moved }

def peerTemplates [Crypto] (chain : Chain) (number count : Nat) : List BlockTemplate :=
  (List.range number).map fun template => paymentTemplate chain template count

theorem peerTemplates_bytes [Crypto] (chain : Chain) (number count : Nat) :
    ((peerTemplates chain number count).map fun template => template.consensusEncode.length).sum =
      number * (46 + count * 217) := by
  have each : ((fun template : BlockTemplate => template.consensusEncode.length) ∘
      fun index => paymentTemplate chain index count) = fun _ => 46 + count * 217 := by
    funext index
    exact paymentTemplate_length chain index count
  rw [peerTemplates, List.map_map, each, List.map_const', List.length_range, List.sum_replicate,
    smul_eq_mul]

theorem peerTemplates_stocked {chain : Chain} (funded : Funded chain) (miner : Address)
    {number last : Nat} (few : number ≤ MAX_TEMPLATES_PER_BLOCK)
    (short : last + 1 ≤ MAX_BLOCK_TRANSACTIONS)
    (bytes : number * (46 + (last + 1) * 217) ≤ 64 * 1024 * 1024) :
    let _ := spelled
    ∃ next, (restingNode chain miner).registerAll (peerTemplates chain number (last + 1)) = .ok next ∧
      Stocked (restingNode chain miner) next (peerTemplates chain number (last + 1)) := by
  let _ := spelled
  have limit : MAX_TEMPLATES_PER_BLOCK = 512 := rfl
  have member : ∀ template ∈ peerTemplates chain number (last + 1), ∃ index < number,
      template = paymentTemplate chain index (last + 1) := by
    intro template inside
    obtain ⟨index, below, same⟩ := List.mem_map.mp inside
    exact ⟨index, List.mem_range.mp below, same.symm⟩
  have size : (restingNode chain miner).workshares.templates.size = 0 := Std.ExtTreeMap.size_empty
  have count : (peerTemplates chain number (last + 1)).length = number := by
    rw [peerTemplates, List.length_map, List.length_range]
  apply registerAll_succeeds
  · rfl
  · intro template inside
    obtain ⟨index, _, same⟩ := member template inside
    rw [same]
    exact funded.offers index short
  · intro template _
    exact get_empty _
  · unfold peerTemplates
    rw [List.map_map, List.nodup_map_iff_inj_on List.nodup_range]
    intro first below second close same
    change (paymentTemplate chain first (last + 1)).id = (paymentTemplate chain second (last + 1)).id at same
    rw [paymentTemplate_id, paymentTemplate_id] at same
    have small := List.mem_range.mp below
    have near := List.mem_range.mp close
    exact ofNat_eq (by omega) (by omega) (spelling_eq same).1
  · rw [size, count]
    omega
  · rw [peerTemplates_bytes]
    change 0 + _ ≤ _
    omega

/-- On every tip, with every mempool and after every sequence of templates and
shares, a node with a miner address builds a candidate exactly when the cache
has room for the template of its selection. -/
theorem mining_candidate_ok_iff [Crypto] {pow : PowVerifier} {rule : UInt64 → Workshare → Prop}
    {policy : RelayPolicy} {node : Node} {now : UInt64} {miner : Address}
    (reached : node.chain.Reached pow) (supply : node.chain.state.supply ≤ MAX_MONEY.toNat)
    (mempool : Mempool.Reachable policy node.mempool) (payee : node.minerAddress = some miner)
    (run : LiveRun pow rule now node) (env : NodeEnv) (extranonce : UInt64) :
    ∃ selected, node.mempool.select node.chain.state MAX_BLOCK_TRANSACTIONS = some selected ∧
      ((∃ candidate next, node.miningCandidate env extranonce = .ok (candidate, next)) ↔
        HasRoom node.workshares (ownTemplate node.chain selected)) := by
  obtain ⟨selected, _, _, chosen, _⟩ := select_matured mempool supply node.chain.tip.header.height
  exact ⟨selected, chosen, candidate_exists_iff reached supply mempool payee run env extranonce chosen⟩

theorem Funded.supply {chain : Chain} (funded : Funded chain) :
    chain.state.supply ≤ MAX_MONEY.toNat := by
  let _ := spelled
  have bound := funded.reachable.valid.supply_bound
  have range : MAX_MONEY.toNat = 2 ^ 62 - 1 := rfl
  have length := funded.length
  omega

/-- After 511 templates of peers the node mines: the last place is its own. -/
theorem last_place_mines :
    ∃ (_ : Crypto) (fresh stocked : Node) (templates : List BlockTemplate) (env : NodeEnv)
      (candidate : MiningCandidate) (next : Node),
      fresh.workshares = WorksharePool.reset fresh.chain.tip.id ∧ templates.length = 511 ∧
        fresh.registerAll templates = .ok stocked ∧
        stocked.workshares.templates.size = 511 ∧
        stocked.miningCandidate env 0 = .ok (candidate, next) := by
  let crypto : Crypto := spelled
  obtain ⟨chain, funded⟩ := funded_chain
  obtain ⟨stocked, registered, holds⟩ := peerTemplates_stocked funded LedgerState.addressMin
    (show 511 ≤ MAX_TEMPLATES_PER_BLOCK by decide) (show 0 + 1 ≤ MAX_BLOCK_TRANSACTIONS by decide)
    (by decide)
  let env : NodeEnv := ⟨byNonce, 1789000000, Disk.reliable, default⟩
  have reached : stocked.chain.Reached byNonce := by
    rw [holds.chain]
    exact funded.reachable.reached
  have supply : stocked.chain.state.supply ≤ MAX_MONEY.toNat := by
    rw [holds.chain]
    exact funded.supply
  have mempool : Mempool.Reachable default stocked.mempool := by
    rw [holds.mempool]
    exact .new
  have run : LiveRun byNonce (fun _ _ => True) 1789000000 stocked :=
    (LiveRun.activated 1789000000 rfl).registerAll registered
  have number : (peerTemplates chain 511 (0 + 1)).length = 511 := by
    rw [peerTemplates, List.length_map, List.length_range]
  have full : stocked.workshares.templates.size = 511 := by
    rw [holds.size, number]
    exact congrArg (· + 511) Std.ExtTreeMap.size_empty
  obtain ⟨selected, chosen, mines⟩ :=
    mining_candidate_ok_iff reached supply mempool holds.miner run env 0
  have nothing : selected = [] := by
    rw [holds.mempool] at chosen
    exact Option.some.inj (chosen.symm.trans (select_nothing default _ _))
  subst nothing
  have room : HasRoom stocked.workshares (ownTemplate stocked.chain []) := by
    refine Or.inr ⟨by rw [full]; decide, ?_⟩
    rw [holds.bytes, peerTemplates_bytes, template_length]
    change 0 + 511 * (46 + (0 + 1) * 217) + (46 + 0) ≤ _
    decide
  obtain ⟨candidate, next, mined⟩ := mines.mpr room
  exact ⟨crypto, _, stocked, _, env, candidate, next, rfl, number, registered, full, mined⟩

/-- 512 templates of one payment each, and the node cannot mine. -/
theorem templates_shut_mining :
    ∃ (_ : Crypto) (pow : PowVerifier) (policy : RelayPolicy) (fresh flooded : Node)
      (templates : List BlockTemplate) (miner : Address),
      fresh.chain.Reached pow ∧ fresh.chain.state.supply ≤ MAX_MONEY.toNat ∧
      Mempool.Reachable policy fresh.mempool ∧ fresh.minerAddress = some miner ∧
      fresh.workshares = WorksharePool.reset fresh.chain.tip.id ∧
      fresh.registerAll templates = .ok flooded ∧
      ∀ env extranonce, ¬∃ candidate next,
        flooded.miningCandidate env extranonce = .ok (candidate, next) := by
  let crypto : Crypto := spelled
  obtain ⟨chain, funded⟩ := funded_chain
  obtain ⟨flooded, registered, stocked⟩ := peerTemplates_stocked funded LedgerState.addressMin
    (show 512 ≤ MAX_TEMPLATES_PER_BLOCK by decide) (show 0 + 1 ≤ MAX_BLOCK_TRANSACTIONS by decide)
    (by decide)
  have reached : chain.Reached byNonce := funded.reachable.reached
  have supply := funded.supply
  have run : LiveRun byNonce (fun _ _ => True) 0 flooded :=
    (LiveRun.activated 0 rfl).registerAll registered
  have absent : flooded.workshares.templates[(ownTemplate chain []).id]? = none := by
    rw [stocked.others]
    · exact get_empty _
    · intro inside
      obtain ⟨template, member, same⟩ := List.mem_map.mp inside
      obtain ⟨index, _, rfl⟩ := List.mem_map.mp member
      rw [paymentTemplate_id] at same
      exact spelling_ne_empty chain index 0 same
  have full : flooded.workshares.templates.size = 512 := by
    rw [stocked.size, peerTemplates, List.length_map, List.length_range]
    exact congrArg (· + 512) Std.ExtTreeMap.size_empty
  refine ⟨crypto, byNonce, default, restingNode chain LedgerState.addressMin, flooded, _,
    LedgerState.addressMin, reached, supply, .new, rfl, rfl, registered, ?_⟩
  intro env extranonce
  rw [candidate_exists_iff (by rw [stocked.chain]; exact reached) (by rw [stocked.chain]; exact supply)
    (by rw [stocked.mempool]; exact Mempool.Reachable.new) stocked.miner run env extranonce
    (by rw [stocked.mempool]; exact select_nothing _ _ _)]
  rw [stocked.chain]
  intro room
  rcases room with ⟨stored, known⟩ | ⟨count, _⟩
  · cases absent.symm.trans known
  · rw [full] at count
    exact Nat.lt_irrefl 512 count

end Payments

end ParitrNode
