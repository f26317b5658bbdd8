import Mathlib.Logic.Relation

/-!
A sender of a growing sequence and a receiver that fetches what it lacks: it asks what comes
after its last item, queues what it is offered, and asks for the queued items one by one,
while notices of new items come in between. In each direction messages keep their order.
-/

namespace QueuedFetch

/-- What the receiver sends: a call for an offer, for an item, or a notice of its own. -/
inductive Request where
  | after (held : Nat)
  | want (index : Nat)
  | notice (index : Nat)
  deriving DecidableEq

/-- What the sender sends: an offer of all items after one up to another, an item, or a notice. -/
inductive Reply where
  | offer (first last : Nat)
  | item (index : Nat)
  | notice (index : Nat)
  deriving DecidableEq

/-- The receiver holds all items up to `held`, and its queue ends with another one. -/
structure State where
  held : Nat
  queue : Option Nat
  own : List Nat
  made : Nat
  news : List Nat
  up : List Request
  down : List Reply
  deriving DecidableEq

namespace State

@[simp] def ask (state : State) (request : Request) : State := { state with up := state.up ++ [request] }

@[simp] def send (state : State) (reply : Reply) : State := { state with down := state.down ++ [reply] }

def answer (limit : Nat) (state : State) : Request → State
  | .after held => state.send (.offer held (min (held + limit) state.made))
  | .want index => state.send (.item index)
  | .notice _ => state

/-- An item that is not the next one ends the queue. -/
def receive (state : State) : Reply → State
  | .offer first last =>
    if last ≤ first then { state with queue := none }
    else if last ≤ state.held then state
    else { state with queue := some last }.ask (.want (state.held + 1))
  | .item index =>
    if index = state.held + 1 then
      let grown := { state with held := index, own := state.own ++ [index] }
      match state.queue with
      | none => grown
      | some last =>
        if index < last then grown.ask (.want (index + 1))
        else { grown with queue := none }.ask (.after index)
    else { state with queue := none }
  | .notice index => if index ≤ state.held then state else state.ask (.want index)

/-- While there is a queue, the item that arrives next is the one at its front. -/
def inTurn (state : State) : Bool :=
  match state.down, state.queue with
  | .item index :: _, some _ => decide (index = state.held + 1)
  | _, _ => true

def opening (start made : Nat) : State :=
  { held := start, queue := none, own := [], made, news := [], up := [.after start], down := [] }

end State

inductive Step (limit : Nat) (state : State) : State → Prop where
  | made : Step limit state { state with made := state.made + 1, news := state.news ++ [state.made + 1] }
  | announced {index : Nat} {rest : List Nat} (waiting : state.news = index :: rest) :
      Step limit state ({ state with news := rest }.send (.notice index))
  | told {index : Nat} {rest : List Nat} (waiting : state.own = index :: rest) :
      Step limit state ({ state with own := rest }.ask (.notice index))
  | answered {request : Request} {rest : List Request} (first : state.up = request :: rest) :
      Step limit state ({ state with up := rest }.answer limit request)
  | received {reply : Reply} {rest : List Reply} (first : state.down = reply :: rest) :
      Step limit state ({ state with down := rest }.receive reply)

/-! Runs that are computed. -/

inductive Move where
  | make
  | announce
  | tell
  | answer
  | receive

namespace State

def move (limit : Nat) (state : State) : Move → Option State
  | .make => some { state with made := state.made + 1, news := state.news ++ [state.made + 1] }
  | .announce => match state.news with
    | [] => none
    | index :: rest => some ({ state with news := rest }.send (.notice index))
  | .tell => match state.own with
    | [] => none
    | index :: rest => some ({ state with own := rest }.ask (.notice index))
  | .answer => match state.up with
    | [] => none
    | request :: rest => some ({ state with up := rest }.answer limit request)
  | .receive => match state.down with
    | [] => none
    | reply :: rest => some ({ state with down := rest }.receive reply)

def orderlyMove (limit : Nat) (state : State) (move : Move) : Option State :=
  if state.inTurn then state.move limit move else none

end State

/-! What every run keeps. -/

def Request.Fits (start held made : Nat) : Request → Prop
  | .after first => start ≤ first ∧ first ≤ held
  | .want index => index ≤ made
  | .notice index => index ≤ held

def Reply.Fits (limit start held made : Nat) : Reply → Prop
  | .offer first last => (start ≤ first ∧ first ≤ held) ∧ first ≤ last ∧ last ≤ first + limit ∧ last ≤ made
  | .item index => index ≤ made
  | .notice index => index ≤ made

structure Within (limit start : Nat) (state : State) : Prop where
  low : start ≤ state.held
  high : state.held ≤ state.made
  queue : ∀ last ∈ state.queue, state.held < last ∧ last ≤ state.made
  own : ∀ index ∈ state.own, index ≤ state.held
  news : ∀ index ∈ state.news, index ≤ state.made
  up : ∀ request ∈ state.up, request.Fits start state.held state.made
  down : ∀ reply ∈ state.down, reply.Fits limit start state.held state.made

variable {limit start held made held' made' : Nat} {state next : State}

theorem Request.Fits.mono {request : Request} (fits : request.Fits start held made) (more : held ≤ held')
    (later : made ≤ made') : request.Fits start held' made' := by
  cases request with
  | after first => exact ⟨fits.1, Nat.le_trans fits.2 more⟩
  | want index => exact Nat.le_trans fits later
  | notice index => exact Nat.le_trans fits more

theorem Reply.Fits.mono {reply : Reply} (fits : reply.Fits limit start held made) (more : held ≤ held')
    (later : made ≤ made') : reply.Fits limit start held' made' := by
  cases reply with
  | offer first last =>
    obtain ⟨⟨low, known⟩, order, window, high⟩ := fits
    exact ⟨⟨low, Nat.le_trans known more⟩, order, window, Nat.le_trans high later⟩
  | item index => exact Nat.le_trans fits later
  | notice index => exact Nat.le_trans fits later

theorem within_opening (less : start ≤ made) : Within limit start (State.opening start made) where
  low := Nat.le_refl start
  high := less
  queue _ absent := nomatch absent
  own := List.forall_mem_nil _
  news := List.forall_mem_nil _
  up := List.forall_mem_singleton.mpr ⟨Nat.le_refl start, Nat.le_refl start⟩
  down := List.forall_mem_nil _

theorem Within.ask {request : Request} (within : Within limit start state)
    (fits : request.Fits start state.held state.made) : Within limit start (state.ask request) :=
  { within with up := List.forall_mem_append.mpr ⟨within.up, List.forall_mem_singleton.mpr fits⟩ }

theorem Within.send {reply : Reply} (within : Within limit start state)
    (fits : reply.Fits limit start state.held state.made) : Within limit start (state.send reply) :=
  { within with down := List.forall_mem_append.mpr ⟨within.down, List.forall_mem_singleton.mpr fits⟩ }

theorem Within.dropped (within : Within limit start state) : Within limit start { state with queue := none } :=
  { within with queue := fun _ absent => nomatch absent }

/-- The receiver grows by one item. -/
theorem Within.grown (within : Within limit start state) (made : state.held + 1 ≤ state.made)
    {queue : Option Nat} (waits : ∀ last ∈ queue, state.held + 1 < last ∧ last ≤ state.made) :
    Within limit start { state with
      held := state.held + 1, queue, own := state.own ++ [state.held + 1] } where
  low := Nat.le_succ_of_le within.low
  high := made
  queue := waits
  own := List.forall_mem_append.mpr ⟨fun index member => Nat.le_succ_of_le (within.own index member),
    List.forall_mem_singleton.mpr (Nat.le_refl _)⟩
  news := within.news
  up request member := (within.up request member).mono (Nat.le_succ _) (Nat.le_refl _)
  down reply member := (within.down reply member).mono (Nat.le_succ _) (Nat.le_refl _)

theorem Within.answer {request : Request} (within : Within limit start state)
    (fits : request.Fits start state.held state.made) : Within limit start (state.answer limit request) := by
  cases request with
  | after first =>
    have high := within.high
    apply within.send
    exact ⟨fits, by have known := fits.2; omega, Nat.min_le_left _ _, Nat.min_le_right _ _⟩
  | want index => exact within.send fits
  | notice index => exact within

theorem Within.receive {reply : Reply} (within : Within limit start state)
    (fits : reply.Fits limit start state.held state.made) : Within limit start (state.receive reply) := by
  cases reply with
  | offer first last =>
    unfold State.receive
    dsimp only
    split
    next => exact within.dropped
    next =>
      split
      next => exact within
      next more =>
        have high := fits.2.2.2
        have queue : ∀ other ∈ some last, state.held < other ∧ other ≤ state.made := by
          intro other same
          cases same
          exact ⟨Nat.lt_of_not_le more, high⟩
        have waiting : Within limit start { state with queue := some last } := { within with queue }
        exact waiting.ask (show state.held + 1 ≤ state.made by omega)
  | item index =>
    unfold State.receive
    dsimp only
    split
    next turn =>
      rw [turn] at fits ⊢
      cases waiting : state.queue with
      | none => exact within.grown fits fun _ absent => nomatch absent
      | some last =>
        have ⟨_, bound⟩ := within.queue last waiting
        dsimp only
        split
        next less =>
          have queue : ∀ other ∈ some last, state.held + 1 < other ∧ other ≤ state.made := by
            intro other same
            cases same
            exact ⟨less, bound⟩
          exact (within.grown fits queue).ask (show state.held + 1 + 1 ≤ state.made by omega)
        next =>
          have queue : ∀ other ∈ (none : Option Nat), state.held + 1 < other ∧ other ≤ state.made :=
            fun _ absent => nomatch absent
          exact (within.grown fits queue).ask ⟨Nat.le_succ_of_le within.low, Nat.le_refl _⟩
    next => exact within.dropped
  | notice index =>
    unfold State.receive
    dsimp only
    split
    next => exact within
    next => exact within.ask fits

theorem Within.step (within : Within limit start state) (step : Step limit state next) :
    Within limit start next := by
  cases step with
  | made =>
    have later := Nat.le_succ state.made
    exact
      { low := within.low
        high := Nat.le_succ_of_le within.high
        queue := fun last waiting =>
          ⟨(within.queue last waiting).1, Nat.le_succ_of_le (within.queue last waiting).2⟩
        own := within.own
        news := List.forall_mem_append.mpr ⟨fun index member => Nat.le_succ_of_le (within.news index member),
          List.forall_mem_singleton.mpr (Nat.le_refl _)⟩
        up := fun request member => (within.up request member).mono (Nat.le_refl _) later
        down := fun reply member => (within.down reply member).mono (Nat.le_refl _) later }
  | @announced index rest waiting =>
    have news := within.news
    rw [waiting] at news
    have ⟨here, others⟩ := List.forall_mem_cons.mp news
    have kept : Within limit start { state with news := rest } := { within with news := others }
    exact kept.send here
  | @told index rest waiting =>
    have own := within.own
    rw [waiting] at own
    have ⟨here, others⟩ := List.forall_mem_cons.mp own
    have kept : Within limit start { state with own := rest } := { within with own := others }
    exact kept.ask here
  | @answered request rest first =>
    have up := within.up
    rw [first] at up
    have ⟨here, others⟩ := List.forall_mem_cons.mp up
    have kept : Within limit start { state with up := rest } := { within with up := others }
    exact kept.answer here
  | @received reply rest first =>
    have down := within.down
    rw [first] at down
    have ⟨here, others⟩ := List.forall_mem_cons.mp down
    have kept : Within limit start { state with down := rest } := { within with down := others }
    exact kept.receive here

@[simp] theorem State.answer_made (state : State) (request : Request) :
    (state.answer limit request).made = state.made := by
  cases request with
  | after first => rfl
  | want index => rfl
  | notice index => rfl

@[simp] theorem State.receive_made (state : State) (reply : Reply) : (state.receive reply).made = state.made := by
  unfold State.receive
  split
  · split
    · rfl
    · split
      · rfl
      · rfl
  · split
    · split
      · rfl
      · split
        · rfl
        · rfl
    · rfl
  · split
    · rfl
    · rfl

theorem Step.made_le (step : Step limit state next) : state.made ≤ next.made := by
  cases step with
  | made => exact Nat.le_succ _
  | announced waiting => exact Nat.le_refl _
  | told waiting => exact Nat.le_refl _
  | answered first => simp
  | received first => simp

/-! What the messages on the way name. -/

def wants (up : List Request) : List Nat :=
  up.filterMap fun | .want index => some index | _ => none

def calls (up : List Request) : List Nat :=
  up.filterMap fun | .after held => some held | _ => none

def items (down : List Reply) : List Nat :=
  down.filterMap fun | .item index => some index | _ => none

def notices (down : List Reply) : List Nat :=
  down.filterMap fun | .notice index => some index | _ => none

def offers (down : List Reply) : List (Nat × Nat) :=
  down.filterMap fun | .offer first last => some (first, last) | _ => none

section

variable (up more : List Request) (down later : List Reply) (index first last : Nat)

@[simp] theorem wants_append : wants (up ++ more) = wants up ++ wants more := List.filterMap_append
@[simp] theorem calls_append : calls (up ++ more) = calls up ++ calls more := List.filterMap_append
@[simp] theorem items_append : items (down ++ later) = items down ++ items later := List.filterMap_append
@[simp] theorem notices_append : notices (down ++ later) = notices down ++ notices later :=
  List.filterMap_append
@[simp] theorem offers_append : offers (down ++ later) = offers down ++ offers later := List.filterMap_append

@[simp] theorem wants_nil : wants [] = [] := rfl
@[simp] theorem wants_after : wants (.after first :: up) = wants up := rfl
@[simp] theorem wants_want : wants (.want index :: up) = index :: wants up := rfl
@[simp] theorem wants_notice : wants (.notice index :: up) = wants up := rfl

@[simp] theorem calls_nil : calls [] = [] := rfl
@[simp] theorem calls_after : calls (.after first :: up) = first :: calls up := rfl
@[simp] theorem calls_want : calls (.want index :: up) = calls up := rfl
@[simp] theorem calls_notice : calls (.notice index :: up) = calls up := rfl

@[simp] theorem items_nil : items [] = [] := rfl
@[simp] theorem items_offer : items (.offer first last :: down) = items down := rfl
@[simp] theorem items_item : items (.item index :: down) = index :: items down := rfl
@[simp] theorem items_notice : items (.notice index :: down) = items down := rfl

@[simp] theorem notices_nil : notices [] = [] := rfl
@[simp] theorem notices_offer : notices (.offer first last :: down) = notices down := rfl
@[simp] theorem notices_item : notices (.item index :: down) = notices down := rfl
@[simp] theorem notices_notice : notices (.notice index :: down) = index :: notices down := rfl

@[simp] theorem offers_nil : offers [] = [] := rfl
@[simp] theorem offers_offer : offers (.offer first last :: down) = (first, last) :: offers down := rfl
@[simp] theorem offers_item : offers (.item index :: down) = offers down := rfl
@[simp] theorem offers_notice : offers (.notice index :: down) = offers down := rfl

end

theorem mem_wants {up : List Request} {index : Nat} : index ∈ wants up ↔ .want index ∈ up := by
  unfold wants
  rw [List.mem_filterMap]
  constructor
  · intro ⟨request, member, same⟩
    cases request with
    | want other => cases same; exact member
    | after _ => cases same
    | notice _ => cases same
  · exact fun member => ⟨_, member, rfl⟩

theorem mem_items {down : List Reply} {index : Nat} : index ∈ items down ↔ .item index ∈ down := by
  unfold items
  rw [List.mem_filterMap]
  constructor
  · intro ⟨reply, member, same⟩
    cases reply with
    | item other => cases same; exact member
    | offer _ _ => cases same
    | notice _ => cases same
  · exact fun member => ⟨_, member, rfl⟩

theorem mem_notices {down : List Reply} {index : Nat} : index ∈ notices down ↔ .notice index ∈ down := by
  unfold notices
  rw [List.mem_filterMap]
  constructor
  · intro ⟨reply, member, same⟩
    cases reply with
    | notice other => cases same; exact member
    | offer _ _ => cases same
    | item _ => cases same
  · exact fun member => ⟨_, member, rfl⟩

/-- The indices above one in a list are all that were made since. -/
def Covers (held made : Nat) (indices : List Nat) : Prop :=
  indices.filter (held < ·) = List.range' (held + 1) (made - held)

/-! The stages of a run in which every item arrives in its turn. -/

inductive Stage (state : State) : Prop where
  | asking (idle : state.queue = none) {held : Nat} (asked : calls state.up = [held])
      (none_offered : offers state.down = [])
  /-- The offer is on its way, and what is made after it is announced after it. -/
  | offered (idle : state.queue = none) (none_asked : calls state.up = []) {first last : Nat}
      {before after : List Reply} (down : state.down = before ++ .offer first last :: after)
      (sole : offers before = [] ∧ offers after = []) (behind : state.held ≤ last)
      (small : ∀ index ∈ items before ++ items after ++ wants state.up ++ notices before, index ≤ last)
      (rest : Covers last state.made (notices after ++ state.news))
  | fetching {last : Nat} (queue : state.queue = some last) (none_asked : calls state.up = [])
      (none_offered : offers state.down = [])
      (asked : state.held + 1 ∈ items state.down ++ wants state.up)
  /-- Everything that lies ahead is on its way, in its order. -/
  | idle (idle : state.queue = none) (none_asked : calls state.up = [])
      (none_offered : offers state.down = [])
      (rest : Covers state.held state.made
        (items state.down ++ wants state.up ++ notices state.down ++ state.news))

theorem Covers.extend {indices : List Nat} (covers : Covers held made indices) (le : held ≤ made) :
    Covers held (made + 1) (indices ++ [made + 1]) := by
  have new : [made + 1].filter (held < ·) = [made + 1] :=
    List.filter_eq_self.mpr (by simp; omega)
  unfold Covers at *
  rw [List.filter_append, covers, new, Nat.sub_add_comm le, List.range'_1_concat]
  congr 2
  omega

theorem Covers.nil (indices : List Nat) (few : ∀ index ∈ indices, index ≤ held) :
    Covers held held indices := by
  unfold Covers
  rw [Nat.sub_self, List.filter_eq_nil_iff.mpr]
  · rfl
  · intro index member
    have less := few index member
    simp
    exact less

theorem Covers.old {index : Nat} (front : List Nat) {indices : List Nat} (known : index ≤ held) :
    Covers held made (front ++ index :: indices) ↔ Covers held made (front ++ indices) := by
  unfold Covers
  rw [List.filter_append, List.filter_append, List.filter_cons_of_neg (by simp; exact known)]

theorem Covers.old_append {indices others : List Nat} (known : ∀ index ∈ indices, index ≤ held) :
    Covers held made (indices ++ others) ↔ Covers held made others := by
  unfold Covers
  rw [List.filter_append, List.filter_eq_nil_iff.mpr, List.nil_append]
  intro index member
  have less := known index member
  simp
  exact less

/-- The first index above is the next one. -/
theorem Covers.front {index : Nat} {indices : List Nat} (covers : Covers held made (index :: indices))
    (new : held < index) : index = held + 1 ∧ Covers (held + 1) made indices := by
  unfold Covers at *
  rw [List.filter_cons_of_pos (by simp; exact new)] at covers
  cases amount : made - held with
  | zero =>
    rw [amount] at covers
    cases covers
  | succ count =>
    rw [amount, List.range'_succ] at covers
    obtain ⟨same, rest⟩ := List.cons.inj covers
    refine ⟨same, ?_⟩
    have weaker : indices.filter (held + 1 < ·) = (indices.filter (held < ·)).filter (held + 1 < ·) := by
      rw [List.filter_filter]
      congr 1
      funext other
      simp
      omega
    rw [weaker, rest, show made - (held + 1) = count by omega]
    apply List.filter_eq_self.mpr
    intro other member
    have above := (List.mem_range'_1.mp member).1
    simp
    omega

theorem Covers.whole (covers : Covers held made []) (le : held ≤ made) : held = made := by
  have length := congrArg List.length covers
  rw [List.length_range'] at length
  change 0 = _ at length
  omega

theorem Stage.grows (stage : Stage state) (within : Within limit start state) :
    Stage { state with made := state.made + 1, news := state.news ++ [state.made + 1] } := by
  cases stage with
  | asking idle asked none_offered => exact .asking idle asked none_offered
  | @offered idle none_asked first last before after down sole behind small rest =>
    have fits := within.down (.offer first last) (by rw [down]; simp)
    refine .offered idle none_asked down sole behind small ?_
    rw [← List.append_assoc]
    exact rest.extend fits.2.2.2
  | fetching queue none_asked none_offered asked => exact .fetching queue none_asked none_offered asked
  | idle idle none_asked none_offered rest =>
    refine .idle idle none_asked none_offered ?_
    rw [← List.append_assoc]
    exact rest.extend within.high

theorem Stage.announces {index : Nat} {rest : List Nat} (stage : Stage state) (waiting : state.news = index :: rest) :
    Stage ({ state with news := rest }.send (.notice index)) := by
  have same : ∀ down : List Reply, notices (down ++ [.notice index]) ++ rest = notices down ++ state.news := by
    intro down
    rw [waiting]
    simp
  cases stage with
  | asking idle asked none_offered => exact .asking idle asked (by simpa using none_offered)
  | @offered idle none_asked first last before after down sole behind small rest =>
    have longer : state.down ++ [.notice index] = before ++ .offer first last :: (after ++ [.notice index]) := by
      rw [down, List.append_assoc]
      rfl
    refine .offered idle none_asked longer ⟨sole.1, by simpa using sole.2⟩ behind ?_ ?_
    · simpa using small
    · rw [← same] at rest
      exact rest
  | fetching queue none_asked none_offered asked =>
    exact .fetching queue none_asked (by simpa using none_offered) (by simpa using asked)
  | idle idle none_asked none_offered rest =>
    refine .idle idle none_asked (by simpa using none_offered) ?_
    rw [List.append_assoc, ← same, ← List.append_assoc] at rest
    simpa using rest

theorem Stage.tells {index : Nat} {rest : List Nat} (stage : Stage state) :
    Stage ({ state with own := rest }.ask (.notice index)) := by
  cases stage with
  | asking idle asked none_offered => exact .asking idle (by simpa using asked) none_offered
  | offered idle none_asked down sole behind small rest =>
    refine .offered idle (by simpa using none_asked) down sole behind ?_ rest
    simpa using small
  | fetching queue none_asked none_offered asked =>
    exact .fetching queue (by simpa using none_asked) none_offered (by simpa using asked)
  | idle idle none_asked none_offered rest =>
    exact .idle idle (by simpa using none_asked) none_offered (by simpa using rest)

/-- The sender offers all there is, and everything sent or announced so far lies within the offer. -/
theorem Stage.answers_call {first : Nat} {rest : List Request} (within : Within limit start state)
    (few : state.made ≤ start + limit) (up : state.up = .after first :: rest) (idle : state.queue = none)
    (last_call : calls rest = []) (none_offered : offers state.down = []) :
    Stage ({ state with up := rest }.answer limit (.after first)) := by
  have fits := within.up (.after first) (by rw [up]; exact List.mem_cons_self)
  have whole : min (first + limit) state.made = state.made := by
    have low := fits.1
    omega
  have down : state.down ++ [.offer first (min (first + limit) state.made)] =
      state.down ++ .offer first state.made :: [] := by rw [whole]
  refine .offered idle last_call down ⟨none_offered, rfl⟩ within.high ?_ ?_
  · intro index member
    simp only [items_nil, List.append_nil, List.mem_append, mem_items, mem_wants, mem_notices] at member
    rcases member with (sent | asked) | told
    · exact within.down _ sent
    · exact within.up (.want index) (by rw [up]; exact List.mem_cons_of_mem _ asked)
    · exact within.down _ told
  · exact Covers.nil _ within.news

theorem Stage.answers {request : Request} {rest : List Request} (stage : Stage state)
    (within : Within limit start state) (few : state.made ≤ start + limit) (up : state.up = request :: rest) :
    Stage ({ state with up := rest }.answer limit request) := by
  cases stage with
  | asking idle asked none_offered =>
    rw [up] at asked
    cases request with
    | after first => exact .answers_call within few up idle (List.cons.inj asked).2 none_offered
    | want index => exact .asking idle asked (by simpa [State.answer] using none_offered)
    | notice index => exact .asking idle asked none_offered
  | @offered idle none_asked first last before after down sole behind small covers =>
    rw [up] at none_asked small
    cases request with
    | after first => cases none_asked
    | want index =>
      have longer : state.down ++ [.item index] = before ++ .offer first last :: (after ++ [.item index]) := by
        rw [down, List.append_assoc]
        rfl
      refine .offered idle none_asked longer ⟨sole.1, by simpa using sole.2⟩ behind ?_ ?_
      · simpa [State.answer] using small
      · simpa [State.answer] using covers
    | notice index => exact .offered idle none_asked down sole behind small covers
  | fetching queue none_asked none_offered asked =>
    rw [up] at none_asked asked
    cases request with
    | after first => cases none_asked
    | want index =>
      exact .fetching queue none_asked (by simpa [State.answer] using none_offered)
        (by simpa [State.answer] using asked)
    | notice index => exact .fetching queue none_asked none_offered asked
  | idle idle none_asked none_offered covers =>
    rw [up] at none_asked covers
    cases request with
    | after first => cases none_asked
    | want index =>
      exact .idle idle none_asked (by simpa [State.answer] using none_offered)
        (by simpa [State.answer] using covers)
    | notice index => exact .idle idle none_asked none_offered covers

section

variable {rest : List Reply}

/-- Without a queue an item is taken if it is the next one. -/
theorem State.receive_item (index : Nat) (idle : state.queue = none) :
    ∃ held own, (held = state.held ∧ index ≠ state.held + 1 ∨ held = index ∧ index = state.held + 1) ∧
      { state with down := rest }.receive (.item index) = { state with held, own, down := rest } := by
  by_cases turn : index = state.held + 1
  · refine ⟨index, state.own ++ [index], Or.inr ⟨rfl, turn⟩, ?_⟩
    simp only [State.receive, if_pos turn, idle]
  · refine ⟨state.held, state.own, Or.inl ⟨rfl, turn⟩, ?_⟩
    simp only [State.receive, if_neg turn, idle]

/-- A notice adds at most a request for the item it names. -/
theorem State.receive_notice (state : State) (index : Nat) :
    ∃ up, (index ≤ state.held ∧ up = state.up ∨ state.held < index ∧ up = state.up ++ [.want index]) ∧
      { state with down := rest }.receive (.notice index) = { state with up, down := rest } := by
  by_cases known : index ≤ state.held
  · exact ⟨_, Or.inl ⟨known, rfl⟩, if_pos known⟩
  · exact ⟨_, Or.inr ⟨Nat.lt_of_not_le known, rfl⟩, if_neg known⟩

end

/-- The offer arrives: it is all held already, or the first item it adds is asked for. -/
theorem Stage.receives_offer {first last : Nat} {after : List Reply} (within : Within limit start state)
    (down : state.down = .offer first last :: after) (idle : state.queue = none)
    (none_asked : calls state.up = []) (sole : offers after = []) (behind : state.held ≤ last)
    (small : ∀ index ∈ items after ++ wants state.up, index ≤ last)
    (covers : Covers last state.made (notices after ++ state.news)) :
    Stage ({ state with down := after }.receive (.offer first last)) := by
  have fits := within.down (.offer first last) (by rw [down]; exact List.mem_cons_self)
  have known := fits.1.2
  by_cases all : last ≤ state.held
  · have same : state.held = last := Nat.le_antisymm behind all
    have kept : { state with down := after }.receive (.offer first last) = { state with down := after } := by
      unfold State.receive
      dsimp only
      by_cases nothing : last ≤ first
      · rw [if_pos nothing, idle]
      · rw [if_neg nothing, if_pos all]
    rw [kept]
    refine .idle idle none_asked sole ?_
    rw [List.append_assoc]
    dsimp only
    rw [same]
    exact (Covers.old_append small).mpr covers
  · have asks : { state with down := after }.receive (.offer first last) =
        { state with down := after, queue := some last, up := state.up ++ [.want (state.held + 1)] } := by
      unfold State.receive
      dsimp only
      rw [if_neg (by omega), if_neg all]
      rfl
    rw [asks]
    exact .fetching rfl (by simpa using none_asked) sole (by simp)

/-- The item at the front of the queue arrives: the next one is asked for, or an offer. -/
theorem Stage.receives_front {last : Nat} {after : List Reply} (queue : state.queue = some last)
    (none_asked : calls state.up = []) (none_offered : offers after = []) :
    Stage ({ state with down := after }.receive (.item (state.held + 1))) := by
  unfold State.receive
  simp only [if_true, queue]
  split
  next => exact .fetching rfl (by simpa using none_asked) none_offered (by simp)
  next =>
    have asked : calls (state.up ++ [.after (state.held + 1)]) = [state.held + 1] := by simp [none_asked]
    exact .asking rfl asked none_offered

section

variable {reply : Reply} {rest : List Reply}

theorem Stage.receives_asking {first : Nat} (down : state.down = reply :: rest) (idle : state.queue = none)
    (asked : calls state.up = [first]) (none_offered : offers state.down = []) :
    Stage ({ state with down := rest }.receive reply) := by
  rw [down] at none_offered
  cases reply with
  | offer first last => cases none_offered
  | item index =>
    obtain ⟨held, own, _, received⟩ := State.receive_item index idle
    rw [received]
    exact .asking idle asked none_offered
  | notice index =>
    obtain ⟨up, choice, received⟩ := state.receive_notice index
    rw [received]
    rcases choice with ⟨_, same⟩ | ⟨_, longer⟩
    · exact .asking idle (by rw [same]; exact asked) none_offered
    · exact .asking idle (by rw [longer]; simpa using asked) none_offered

/-- What arrives before the offer lies within it. -/
theorem Stage.receives_before {first last : Nat} {before after : List Reply} (idle : state.queue = none)
    (none_asked : calls state.up = []) (sole : offers (reply :: before) = [] ∧ offers after = [])
    (behind : state.held ≤ last)
    (small : ∀ index ∈ items (reply :: before) ++ items after ++ wants state.up ++ notices (reply :: before),
      index ≤ last) (covers : Covers last state.made (notices after ++ state.news)) :
    Stage ({ state with down := before ++ Reply.offer first last :: after }.receive reply) := by
  have fewer : ∀ index ∈ items before ++ items after ++ wants state.up ++ notices before, index ≤ last := by
    intro index member
    apply small index
    rw [← List.singleton_append, items_append, notices_append]
    simp only [List.mem_append] at member ⊢
    rcases member with ((inside | inside) | inside) | inside
    · exact Or.inl (Or.inl (Or.inl (Or.inr inside)))
    · exact Or.inl (Or.inl (Or.inr inside))
    · exact Or.inl (Or.inr inside)
    · exact Or.inr (Or.inr inside)
  cases reply with
  | offer first last => cases sole.1
  | item index =>
    obtain ⟨held, own, grown, received⟩ := State.receive_item index idle
    rw [received]
    refine .offered idle none_asked rfl sole ?_ fewer covers
    rcases grown with ⟨same, _⟩ | ⟨same, _⟩
    · exact Nat.le_trans (Nat.le_of_eq same) behind
    · exact Nat.le_trans (Nat.le_of_eq same) (small index (by simp))
  | notice index =>
    obtain ⟨up, choice, received⟩ := state.receive_notice index
    rw [received]
    rcases choice with ⟨_, same⟩ | ⟨_, longer⟩
    · rw [same]
      exact .offered idle none_asked rfl sole behind fewer covers
    · rw [longer]
      refine .offered idle (by simpa using none_asked) rfl sole behind ?_ covers
      intro found member
      by_cases new : found = index
      · exact small found (by simp [new])
      · apply fewer found
        simpa [new] using member

theorem Stage.receives_fetching {last : Nat} (turn : state.inTurn = true) (down : state.down = reply :: rest)
    (queue : state.queue = some last) (none_asked : calls state.up = []) (none_offered : offers state.down = [])
    (asked : state.held + 1 ∈ items state.down ++ wants state.up) :
    Stage ({ state with down := rest }.receive reply) := by
  rw [down] at none_offered asked
  cases reply with
  | offer first last => cases none_offered
  | item index =>
    have front : index = state.held + 1 := by
      unfold State.inTurn at turn
      rw [down, queue] at turn
      exact of_decide_eq_true turn
    rw [front]
    exact .receives_front queue none_asked none_offered
  | notice index =>
    obtain ⟨up, choice, received⟩ := state.receive_notice index
    rw [received]
    rcases choice with ⟨_, same⟩ | ⟨_, longer⟩
    · rw [same]
      exact .fetching queue none_asked none_offered asked
    · rw [longer]
      refine .fetching queue (by simpa using none_asked) none_offered ?_
      rw [wants_append, ← List.append_assoc]
      exact List.mem_append_left _ asked

theorem Stage.receives_idle (down : state.down = reply :: rest) (idle : state.queue = none)
    (none_asked : calls state.up = []) (none_offered : offers state.down = [])
    (covers : Covers state.held state.made
      (items state.down ++ wants state.up ++ notices state.down ++ state.news)) :
    Stage ({ state with down := rest }.receive reply) := by
  rw [down] at none_offered covers
  cases reply with
  | offer first last => cases none_offered
  | item index =>
    obtain ⟨held, own, grown, received⟩ := State.receive_item index idle
    rw [received]
    refine .idle idle none_asked none_offered ?_
    by_cases known : index ≤ state.held
    · have same : held = state.held := by
        rcases grown with ⟨same, _⟩ | ⟨_, next⟩
        · exact same
        · omega
      rw [same]
      exact (Covers.old [] known).mp covers
    · obtain ⟨next, others⟩ := covers.front (Nat.lt_of_not_le known)
      have same : held = state.held + 1 := by
        rcases grown with ⟨_, late⟩ | ⟨same, _⟩
        · exact absurd next late
        · exact same.trans next
      rw [same]
      exact others
  | notice index =>
    obtain ⟨up, choice, received⟩ := state.receive_notice index
    rw [received]
    rcases choice with ⟨known, same⟩ | ⟨_, longer⟩
    · rw [same]
      refine .idle idle none_asked none_offered ?_
      rw [notices_notice, List.append_assoc, List.cons_append] at covers
      rw [List.append_assoc]
      exact (Covers.old _ known).mp covers
    · rw [longer]
      refine .idle idle (by simpa using none_asked) none_offered ?_
      simpa using covers

theorem Stage.receives (stage : Stage state) (within : Within limit start state) (turn : state.inTurn = true)
    (down : state.down = reply :: rest) : Stage ({ state with down := rest }.receive reply) := by
  cases stage with
  | asking idle asked none_offered => exact .receives_asking down idle asked none_offered
  | @offered idle none_asked first last before after shape sole behind small covers =>
    cases before with
    | nil =>
      obtain ⟨here, others⟩ := List.cons.inj (down.symm.trans shape)
      rw [here, others]
      refine .receives_offer within shape idle none_asked sole.2 behind ?_ covers
      intro index member
      apply small index
      simpa using member
    | cons other before =>
      obtain ⟨here, others⟩ := List.cons.inj (down.symm.trans shape)
      rw [here, others]
      exact .receives_before idle none_asked sole behind small covers
  | fetching queue none_asked none_offered asked =>
    exact .receives_fetching turn down queue none_asked none_offered asked
  | idle idle none_asked none_offered covers => exact .receives_idle down idle none_asked none_offered covers

end

/-! Runs. -/

theorem Stage.step (stage : Stage state) (within : Within limit start state) (turn : state.inTurn = true)
    (few : state.made ≤ start + limit) (step : Step limit state next) : Stage next := by
  cases step with
  | made => exact stage.grows within
  | announced waiting => exact stage.announces waiting
  | told waiting => exact stage.tells
  | answered first => exact stage.answers within few first
  | received first => exact stage.receives within turn first

/-- A step from a state in which the next item is in its turn. -/
def OrderlyStep (limit : Nat) (state next : State) : Prop := state.inTurn = true ∧ Step limit state next

theorem within_run (run : Relation.ReflTransGen (Step limit) (State.opening start made) state)
    (less : start ≤ made) : Within limit start state := by
  induction run with
  | refl => exact within_opening less
  | tail _ step ih => exact ih.step step

theorem OrderlyStep.run (run : Relation.ReflTransGen (OrderlyStep limit) state next) :
    Relation.ReflTransGen (Step limit) state next :=
  run.lift id fun _ _ taken => taken.2

theorem Step.of_move {move : Move} (moved : state.move limit move = some next) : Step limit state next := by
  cases move with
  | make =>
    cases moved
    exact .made
  | announce =>
    cases waiting : state.news with
    | nil =>
      simp only [State.move, waiting] at moved
      cases moved
    | cons first rest =>
      simp only [State.move, waiting] at moved
      cases moved
      exact .announced waiting
  | tell =>
    cases waiting : state.own with
    | nil =>
      simp only [State.move, waiting] at moved
      cases moved
    | cons first rest =>
      simp only [State.move, waiting] at moved
      cases moved
      exact .told waiting
  | answer =>
    cases waiting : state.up with
    | nil =>
      simp only [State.move, waiting] at moved
      cases moved
    | cons first rest =>
      simp only [State.move, waiting] at moved
      cases moved
      exact .answered waiting
  | receive =>
    cases waiting : state.down with
    | nil =>
      simp only [State.move, waiting] at moved
      cases moved
    | cons first rest =>
      simp only [State.move, waiting] at moved
      cases moved
      exact .received waiting

theorem OrderlyStep.of_move {move : Move} (moved : state.orderlyMove limit move = some next) :
    OrderlyStep limit state next := by
  unfold State.orderlyMove at moved
  split at moved
  next turn => exact ⟨turn, .of_move moved⟩
  next => cases moved

theorem reached_by_moves {apply : State → Move → Option State} {follows : State → State → Prop}
    (each : ∀ {state next : State} {move : Move}, apply state move = some next → follows state next)
    {moves : List Move} (moved : moves.foldlM apply state = some next) :
    Relation.ReflTransGen follows state next := by
  induction moves generalizing state with
  | nil =>
    cases moved
    exact .refl
  | cons move rest ih =>
    rw [List.foldlM_cons] at moved
    obtain ⟨middle, first, later⟩ := Option.bind_eq_some_iff.mp moved
    exact .head (each first) (ih later)

/-- As long as one offer holds everything, the stages follow each other. -/
theorem orderly_run (run : Relation.ReflTransGen (OrderlyStep limit) (State.opening start made) state)
    (less : start ≤ made) (few : state.made ≤ start + limit) : Stage state := by
  induction run with
  | refl => exact .asking rfl rfl rfl
  | tail before taken ih =>
    obtain ⟨turn, step⟩ := taken
    have earlier := Nat.le_trans step.made_le few
    exact (ih earlier).step (within_run (OrderlyStep.run before) less) turn earlier step

/-- Once nothing is on its way, the receiver holds everything. -/
theorem Stage.complete (stage : Stage state) (within : Within limit start state) (up : state.up = [])
    (down : state.down = []) (news : state.news = []) : state.held = state.made := by
  cases stage with
  | asking idle asked none_offered =>
    rw [up] at asked
    cases asked
  | @offered idle none_asked first last before after shape sole behind small covers =>
    rw [down] at shape
    exact absurd shape (by simp)
  | fetching queue none_asked none_offered asked =>
    rw [up, down] at asked
    cases asked
  | idle idle none_asked none_offered covers =>
    rw [up, down, news] at covers
    exact covers.whole within.high

end QueuedFetch
