import Mathlib.Data.Set.Card
import ParitrNode.Node
import ParitrNode.QueuedRuns

/-!
What a wallet is told about an address. The next nonce comes from the block the
pool would fill, so it is free exactly when the whole queue of the address is
among the transactions that such a block has room for.
-/

namespace ParitrNode
open OrderedMap Checked

variable [Crypto]

structure AccountView where
  account : Account
  pendingRewards : UInt64
  pendingIn : UInt64
  pendingOut : UInt64
  nextNonce : UInt64

def AccountView.count (address : Address) (view : AccountView) (transaction : Transaction) : AccountView :=
  let view := if transaction.recipient = address then
    { view with pendingIn := saturatingAdd view.pendingIn transaction.amount } else view
  if transaction.sender = address then
    { view with
      pendingOut := saturatingAdd (saturatingAdd view.pendingOut transaction.amount) transaction.fee
      nextNonce := max view.nextNonce (saturatingAdd transaction.nonce 1) }
  else view

/-- `none` is a selection that panics. -/
def Node.accountView (node : Node) (address : Address) : Option AccountView := do
  let account := node.chain.state.account address
  let selected ← node.mempool.select node.chain.state MAX_BLOCK_TRANSACTIONS
  return selected.foldl (AccountView.count address)
    ⟨account, node.chain.state.pendingFor address, 0, 0, account.nonce⟩

omit [Crypto] in
theorem AccountView.count_nextNonce (address : Address) (view : AccountView) (transaction : Transaction) :
    (view.count address transaction).nextNonce = if transaction.sender = address then
      max view.nextNonce (saturatingAdd transaction.nonce 1) else view.nextNonce := by
  unfold AccountView.count
  dsimp only
  by_cases received : transaction.recipient = address
  · by_cases sent : transaction.sender = address
    · rw [if_pos sent, if_pos sent, if_pos received]
    · rw [if_neg sent, if_neg sent, if_pos received]
  · by_cases sent : transaction.sender = address
    · rw [if_pos sent, if_pos sent, if_neg received]
    · rw [if_neg sent, if_neg sent, if_neg received]

omit [Crypto] in
theorem AccountView.counted {address : Address} {transactions : List Transaction} {view : AccountView}
    {stop : Nat} (counts : Counts view.nextNonce.toNat stop (transactionsFrom address transactions))
    (small : stop < 2 ^ 64) :
    (transactions.foldl (AccountView.count address) view).nextNonce.toNat = stop := by
  induction transactions generalizing view with
  | nil =>
    have none := congrArg List.length counts.1
    rw [List.length_map, List.length_range'] at none
    have above := counts.2
    change 0 = _ at none
    change view.nextNonce.toNat = stop
    omega
  | cons transaction rest ih =>
    rw [List.foldl_cons]
    apply ih
    rw [AccountView.count_nextNonce]
    rw [transactionsFrom_cons] at counts
    by_cases own : transaction.sender = address
    · rw [if_pos own] at counts ⊢
      obtain ⟨nonces, above⟩ := counts
      have width := congrArg List.length nonces
      rw [List.length_map, List.length_range', List.length_cons] at width
      have step : stop - view.nextNonce.toNat = stop - (view.nextNonce.toNat + 1) + 1 := by omega
      rw [step, List.map_cons, List.range'_succ] at nonces
      obtain ⟨first, later⟩ := List.cons.inj nonces
      have next : (max view.nextNonce (saturatingAdd transaction.nonce 1)).toNat =
          view.nextNonce.toNat + 1 := by
        have one : (1 : UInt64).toNat = 1 := rfl
        rw [Checked.toNat_max, saturatingAdd_of_lt (by omega), first, one]
        omega
      rw [next]
      exact ⟨later, by omega⟩
    · rw [if_neg own] at counts ⊢
      exact counts

namespace Mempool

section Queue

variable {pool : Mempool} {sender : Address} {nonce : Nat} {run : List Transaction}

omit [Crypto] in
theorem Run.counts (queued : Run pool sender nonce run) {taken : List Transaction}
    (start : taken <+: run) : Counts nonce (nonce + taken.length) taken := by
  induction queued generalizing taken with
  | stop free =>
    rw [List.prefix_nil.mp start]
    exact Counts.nil _
  | @next nonce transaction rest held own slot more ih =>
    cases taken with
    | nil => exact Counts.nil _
    | cons first taken =>
      obtain ⟨same, later⟩ := List.cons_prefix_cons.mp start
      obtain ⟨nonces, _⟩ := ih later
      have width : nonce + 1 + taken.length - (nonce + 1) = taken.length := by omega
      have width' : nonce + (taken.length + 1) - nonce = taken.length + 1 := by omega
      rw [width] at nonces
      refine ⟨?_, Nat.le_add_right _ _⟩
      rw [List.length_cons, width', List.range'_succ, List.map_cons, nonces, same, slot]

omit [Crypto] in
theorem Run.least_free (queued : Run pool sender nonce run) :
    IsLeast {free | nonce ≤ free ∧ ∀ transaction ∈ pool.transactions, transaction.sender = sender →
      transaction.nonce.toNat ≠ free} (nonce + run.length) := by
  refine ⟨⟨Nat.le_add_right _ _, fun transaction held own => queued.free held own⟩, ?_⟩
  intro free ⟨above, unused⟩
  by_contra below
  have inside : free - nonce < run.length := by omega
  obtain ⟨held, own, slot⟩ := queued.mem (List.getElem?_eq_getElem inside)
  exact unused _ held own (by omega)

end Queue

end Mempool

open Mempool

def Node.freeNonces (node : Node) (address : Address) : Set Nat :=
  {free | (nonceOf node.chain.state address).toNat ≤ free ∧
    ∀ transaction ∈ node.mempool.transactions, transaction.sender = address →
      transaction.nonce.toNat ≠ free}

/-- The transactions of other senders that go before some transaction of a run, each with
all that its sender has queued before it. -/
def Mempool.rivals (pool : Mempool) (state : LedgerState) (sender : Address) (run : List Transaction) :
    Set Transaction :=
  {rival | rival.sender ≠ sender ∧ ∃ ahead rest : List Transaction,
    Run pool rival.sender (nonceOf state rival.sender).toNat (ahead ++ rival :: rest) ∧
      ∀ earlier ∈ ahead ++ [rival], ∃ own ∈ run, Outbids earlier own}

omit [Crypto] in
theorem transactionsFrom_length (address : Address) (transactions : List Transaction) :
    transactions.length = (transactionsFrom address transactions).length +
      (transactions.filter fun other => !decide (other.sender = address)).length :=
  List.length_eq_length_filter_add _

omit [Crypto] in
theorem length_le_encard {items : List Transaction} (distinct : items.Nodup) {within : Set Transaction}
    (inside : ∀ item ∈ items, item ∈ within) : (items.length : ℕ∞) ≤ within.encard := by
  have counted : (items.toFinset : Set Transaction).encard = items.length := by
    rw [Set.encard_coe_eq_coe_finsetCard, List.toFinset_card_of_nodup distinct]
  rw [← counted]
  apply Set.encard_le_encard
  exact fun item member => inside item (List.mem_toFinset.mp member)

omit [Crypto] in
theorem encard_le_length {items : List Transaction} {within : Set Transaction}
    (inside : ∀ item ∈ within, item ∈ items) : within.encard ≤ items.length := by
  have subset : within ⊆ (items.toFinset : Set Transaction) :=
    fun item member => List.mem_toFinset.mpr (inside item member)
  calc within.encard ≤ (items.toFinset : Set Transaction).encard := Set.encard_le_encard subset
    _ = items.toFinset.card := Set.encard_coe_eq_coe_finsetCard _
    _ ≤ items.length := Nat.cast_le.mpr (List.toFinset_card_le items)

theorem Mempool.weakest {run : List Transaction} (nonempty : run ≠ []) :
    ∃ weakest ∈ run, ∀ own ∈ run, Outbids own weakest := by
  induction run with
  | nil => exact absurd rfl nonempty
  | cons first rest ih =>
    have itself : Outbids first first := (outbids_total first first).elim id id
    by_cases none : rest = []
    · refine ⟨first, List.mem_cons_self, fun own member => ?_⟩
      rw [none, List.mem_singleton] at member
      exact member ▸ itself
    · obtain ⟨weakest, inside, least⟩ := ih none
      rcases outbids_total first weakest with high | low
      · refine ⟨weakest, List.mem_cons_of_mem _ inside, fun own member => ?_⟩
        rcases List.mem_cons.mp member with same | later
        · exact same ▸ high
        · exact least own later
      · refine ⟨first, List.mem_cons_self, fun own member => ?_⟩
        rcases List.mem_cons.mp member with same | later
        · exact same ▸ itself
        · exact (least own later).trans low

/-! The picks before the run of an address has been taken. -/

section Rivals

variable {pool : Mempool} (sound : pool.Sound) (indexed : pool.Indexed) {state last : LedgerState}
  {selected : List Transaction} (picks : Picks pool.transactions state selected last)
  {address : Address} {run : List Transaction}
  (queued : Run pool address (nonceOf state address).toNat run)
  (affordable : totalCost run ≤ state.balanceOf address)
include sound indexed picks queued affordable

/-- While the run waits, its next transaction is eligible: each pick outbids one of them. -/
theorem Mempool.Picks.outbid (unfinished : transactionsFrom address selected ≠ run)
    {item : Transaction} (picked : item ∈ selected) : ∃ own ∈ run, Outbids item own := by
  obtain ⟨index, inside, found⟩ := List.getElem_of_mem picked
  have here : selected[index]? = some item := by
    rw [List.getElem?_eq_getElem inside, found]
  obtain ⟨middle, head, first⟩ := picks.at here
  have walked : Walks pool.transactions state (selected.take index) middle :=
    head.weaken fun _ _ _ => trivial
  have whole : Walks pool.transactions state selected last := picks.weaken fun _ _ _ => trivial
  have waiting : transactionsFrom address (selected.take index) ≠ run := by
    intro done
    apply unfinished
    have taken := (whole.follows sound indexed queued).taken
    have split := transactionsFrom_append address (selected.take index) (selected.drop index)
    rw [List.take_append_drop, done] at split
    have fewer := taken.length_le
    rw [split, List.length_append] at fewer
    have nothing : transactionsFrom address (selected.drop index) = [] :=
      List.eq_nil_of_length_eq_zero (by omega)
    rw [split, nothing, List.append_nil]
  obtain ⟨own, member, left, eligible⟩ := walked.next sound indexed queued affordable waiting
  exact ⟨own, member, first.least own left eligible⟩

theorem Mempool.Picks.rival (unfinished : transactionsFrom address selected ≠ run)
    {item : Transaction} (picked : item ∈ selected) (other : item.sender ≠ address) :
    item ∈ pool.rivals state address run := by
  obtain ⟨queue, waits⟩ := exists_run pool item.sender (nonceOf state item.sender).toNat
  have walked : Walks pool.transactions state selected last := picks.weaken fun _ _ _ => trivial
  obtain ⟨more, whole⟩ := (walked.follows sound indexed waits).taken
  have member : item ∈ transactionsFrom item.sender selected :=
    List.mem_filter.mpr ⟨picked, decide_eq_true rfl⟩
  obtain ⟨ahead, rest, split⟩ := List.append_of_mem member
  rw [split, List.append_assoc, List.cons_append] at whole
  rw [← whole] at waits
  refine ⟨other, ahead, rest ++ more, waits, fun earlier before => ?_⟩
  have early : earlier ∈ transactionsFrom item.sender selected := by
    rw [split]
    rcases List.mem_append.mp before with inside | same
    · exact List.mem_append_left _ inside
    · exact List.mem_append_right _ (List.mem_cons.mpr (Or.inl (List.mem_singleton.mp same)))
  exact Picks.outbid sound indexed picks queued affordable unfinished (List.mem_of_mem_filter early)

theorem Mempool.Picks.takes {maximum : Nat} (bound : selected.length ≤ maximum)
    (ended : selected.length < maximum →
      Greedy.Exhausted Eligible (Greedy.rest pool.transactions selected) last)
    (few : (pool.rivals state address run).encard + run.length ≤ maximum) :
    transactionsFrom address selected = run := by
  have walked : Walks pool.transactions state selected last := picks.weaken fun _ _ _ => trivial
  by_contra unfinished
  have full : selected.length = maximum := by
    by_contra short
    exact unfinished (walked.complete sound indexed queued affordable (ended (by omega)))
  have taken := (walked.follows sound indexed queued).taken
  have fewer : (transactionsFrom address selected).length < run.length := by
    by_contra same
    exact unfinished (taken.eq_of_length_le (by omega))
  let others := selected.filter fun other => !decide (other.sender = address)
  have outside : (others.length : ℕ∞) ≤ (pool.rivals state address run).encard := by
    apply length_le_encard (picks.nodup.filter _)
    intro item member
    obtain ⟨picked, foreign⟩ := List.mem_filter.mp member
    rw [Bool.not_eq_true', decide_eq_false_iff_not] at foreign
    exact Picks.rival sound indexed picks queued affordable unfinished picked foreign
  have whole : selected.length = (transactionsFrom address selected).length + others.length :=
    transactionsFrom_length address selected
  have sum : ((others.length + run.length : ℕ) : ℕ∞) ≤ maximum := by
    rw [Nat.cast_add]
    exact le_trans (add_le_add outside le_rfl) few
  have limit := Nat.cast_le.mp sum
  omega

omit queued affordable in
/-- Once the run is taken, so are its rivals, when their senders can pay for what they queue. -/
theorem Mempool.Picks.rivals_taken (taken : transactionsFrom address selected = run)
    (nonempty : run ≠ [])
    (solvent : ∀ (sender : Address) (queue : List Transaction), sender ≠ address →
      Run pool sender (nonceOf state sender).toNat queue → totalCost queue ≤ state.balanceOf sender)
    {rival : Transaction} (ahead : rival ∈ pool.rivals state address run) : rival ∈ selected := by
  obtain ⟨foreign, before, rest, queue, early⟩ := ahead
  obtain ⟨weakest, own, least⟩ := weakest nonempty
  have listed : weakest ∈ transactionsFrom address selected := by rwa [taken]
  have picked : weakest ∈ selected := List.mem_of_mem_filter listed
  have home : weakest.sender = address := of_decide_eq_true (List.mem_filter.mp listed).2
  obtain ⟨index, inside, found⟩ := List.getElem_of_mem picked
  have here : selected[index]? = some weakest := by
    rw [List.getElem?_eq_getElem inside, found]
  obtain ⟨middle, head, first⟩ := picks.at here
  have walked : Walks pool.transactions state (selected.take index) middle :=
    head.weaken fun _ _ _ => trivial
  have follows := walked.follows sound indexed queue
  by_contra missing
  have short : (transactionsFrom rival.sender (selected.take index)).length ≤ before.length := by
    by_contra long
    apply missing
    have start : before ++ [rival] <+: transactionsFrom rival.sender (selected.take index) := by
      have one : before ++ [rival] <+: before ++ rival :: rest := ⟨rest, by simp⟩
      apply List.prefix_of_prefix_length_le one follows.taken
      rw [List.length_append, List.length_singleton]
      omega
    have member := start.subset (List.mem_append_right _ (List.mem_singleton.mpr rfl))
    exact List.mem_of_mem_take (List.mem_of_mem_filter member)
  have waiting : transactionsFrom rival.sender (selected.take index) ≠ before ++ rival :: rest := by
    intro same
    have length := congrArg List.length same
    rw [List.length_append, List.length_cons] at length
    omega
  obtain ⟨next, member, left, eligible⟩ :=
    walked.next sound indexed queue (solvent rival.sender _ foreign queue) waiting
  obtain ⟨place, bound, at'⟩ := List.getElem_of_mem member
  have held : (before ++ rival :: rest)[place]? = some next := by
    rw [List.getElem?_eq_getElem bound, at']
  obtain ⟨present, sender, nonce⟩ := queue.mem held
  -- the next one of the sender is no later than the rival
  have slot : place = (transactionsFrom rival.sender (selected.take index)).length := by
    have working := follows.nonce
    rw [← sender, ← eligible.nonce, nonce] at working
    rw [sender] at working
    omega
  have inFront : next ∈ before ++ [rival] := by
    have split : before ++ rival :: rest = (before ++ [rival]) ++ rest := by simp
    rw [split, List.getElem?_append_left (by
      rw [List.length_append, List.length_singleton]
      omega)] at held
    exact List.mem_of_getElem? held
  obtain ⟨other, inRun, outbids⟩ := early next inFront
  have equal := indexed.outbids_antisymm next present weakest first.mem.1
    (outbids.trans (least other inRun)) (first.least next left eligible)
  exact foreign (sender.symm.trans (equal ▸ home))

omit queued affordable in
theorem Mempool.Picks.rivals_few {maximum : Nat} (bound : selected.length ≤ maximum)
    (taken : transactionsFrom address selected = run) (nonempty : run ≠ [])
    (solvent : ∀ (sender : Address) (queue : List Transaction), sender ≠ address →
      Run pool sender (nonceOf state sender).toNat queue → totalCost queue ≤ state.balanceOf sender) :
    (pool.rivals state address run).encard + run.length ≤ maximum := by
  let others := selected.filter fun other => !decide (other.sender = address)
  have inside : ∀ rival ∈ pool.rivals state address run, rival ∈ others := by
    intro rival ahead
    have picked := Picks.rivals_taken sound indexed picks taken nonempty solvent ahead
    exact List.mem_filter.mpr ⟨picked, by simpa using ahead.1⟩
  have whole : selected.length = (transactionsFrom address selected).length + others.length :=
    transactionsFrom_length address selected
  rw [taken] at whole
  calc (pool.rivals state address run).encard + run.length
      ≤ others.length + run.length := add_le_add (encard_le_length inside) le_rfl
    _ = ((others.length + run.length : ℕ) : ℕ∞) := (Nat.cast_add _ _).symm
    _ ≤ maximum := Nat.cast_le.mpr (by omega)

end Rivals

theorem accountView_nextNonce {policy : RelayPolicy} {node : Node}
    (pooled : Mempool.Reachable policy node.mempool) {address : Address} {run : List Transaction}
    (queued : Run node.mempool address (nonceOf node.chain.state address).toNat run)
    {view : AccountView} (viewed : node.accountView address = some view) :
    ∃ selected, node.mempool.select node.chain.state MAX_BLOCK_TRANSACTIONS = some selected ∧
      transactionsFrom address selected <+: run ∧
      view.nextNonce.toNat = (nonceOf node.chain.state address).toNat +
        (transactionsFrom address selected).length := by
  unfold Node.accountView at viewed
  obtain ⟨selected, chosen, shown⟩ := Option.bind_eq_some_iff.mp viewed
  cases shown
  obtain ⟨last, picks, _⟩ := pooled.select_picks (by decide) chosen
  have walked : Walks node.mempool.transactions node.chain.state selected last :=
    picks.weaken fun _ _ _ => trivial
  have follows := walked.follows pooled.sound pooled.consistent.indexed queued
  have range := (nonceOf last address).toNat_lt
  rw [follows.nonce] at range
  have start : Counts (nonceOf node.chain.state address).toNat _ _ := queued.counts follows.taken
  exact ⟨selected, chosen, follows.taken, AccountView.counted start range⟩

/-- The next nonce is the first free one when the run and its rivals fit in a block, so
always when the pool does; and only then, when the other senders can pay for what they
have queued. -/
theorem next_nonce_free {policy : RelayPolicy} {node : Node}
    (pooled : Mempool.Reachable policy node.mempool) {address : Address} {run : List Transaction}
    (queued : Run node.mempool address (nonceOf node.chain.state address).toNat run)
    (affordable : totalCost run ≤ node.chain.state.balanceOf address) {view : AccountView}
    (viewed : node.accountView address = some view) :
    (node.mempool.entries.size ≤ MAX_BLOCK_TRANSACTIONS →
      IsLeast (node.freeNonces address) view.nextNonce.toNat) ∧
    ((node.mempool.rivals node.chain.state address run).encard + run.length ≤ MAX_BLOCK_TRANSACTIONS →
      IsLeast (node.freeNonces address) view.nextNonce.toNat) ∧
    ((∀ (sender : Address) (queue : List Transaction), sender ≠ address →
        Run node.mempool sender (nonceOf node.chain.state sender).toNat queue →
          totalCost queue ≤ node.chain.state.balanceOf sender) →
      IsLeast (node.freeNonces address) view.nextNonce.toNat → run = [] ∨
        (node.mempool.rivals node.chain.state address run).encard + run.length ≤
          MAX_BLOCK_TRANSACTIONS) := by
  have sound := pooled.sound
  have indexed := pooled.consistent.indexed
  obtain ⟨selected, chosen, taken, next⟩ := accountView_nextNonce pooled queued viewed
  obtain ⟨last, picks, bound, ended⟩ := pooled.select_picks (by decide) chosen
  have free : transactionsFrom address selected = run →
      IsLeast (node.freeNonces address) view.nextNonce.toNat := by
    intro whole
    rw [next, whole]
    exact queued.least_free
  refine ⟨fun small => ?_, fun few => ?_, fun solvent least => ?_⟩
  · apply free
    have walked : Walks node.mempool.transactions node.chain.state selected last :=
      picks.weaken fun _ _ _ => trivial
    apply walked.complete sound indexed queued affordable
    by_cases short : selected.length < MAX_BLOCK_TRANSACTIONS
    · exact ended short
    · exact indexed.exhausted_of_length picks.nodup picks.mem (by omega) last
  · exact free (Picks.takes sound indexed picks queued affordable bound ended few)
  · by_cases empty : run = []
    · exact Or.inl empty
    · right
      have length := Nat.add_left_cancel (next.symm.trans (least.unique queued.least_free))
      exact Picks.rivals_few sound indexed picks bound (taken.eq_of_length length) empty solvent

end ParitrNode
