import ParitrNode.Wire
import ParitrNode.Library.FixedWindow

/-!
The message budget of a session: a count of messages and one of heavy messages for
each window of time, and how often a peer is listened to.
-/

namespace ParitrNode

def RATE_WINDOW_SECONDS : Nat := 10
def MAX_MESSAGES_PER_WINDOW : UInt32 := 1000
def MAX_HEAVY_MESSAGES_PER_WINDOW : UInt32 := 200

/-- Readings of a clock that never goes back, in nanoseconds. -/
abbrev Instant : Type := Nat

structure MessageBudget where
  started : Instant
  messages : UInt32
  heavy : UInt32

def saturatingSucc (count : UInt32) : UInt32 :=
  if count.toNat + 1 < 2 ^ 32 then count + 1 else count

def WireMessage.isHeavy : WireMessage → Bool
  | .block _ => true
  | .transaction _ => true
  | .workshare _ => true
  | .template _ => true
  | _ => false

/-- A frame that decoded: when the budget looked at the clock, and the second
look that a new window takes. -/
structure Incoming where
  now : Instant
  again : Instant
  message : WireMessage

namespace MessageBudget

def new (now : Instant) : MessageBudget := ⟨now, 0, 0⟩

def allow (budget : MessageBudget) (incoming : Incoming) : Bool × MessageBudget :=
  let current :=
    if (incoming.now - budget.started) / 1000000000 ≥ RATE_WINDOW_SECONDS then new incoming.again
    else budget
  let messages := saturatingSucc current.messages
  let heavy := if incoming.message.isHeavy then saturatingSucc current.heavy else current.heavy
  (decide (messages ≤ MAX_MESSAGES_PER_WINDOW ∧ heavy ≤ MAX_HEAVY_MESSAGES_PER_WINDOW),
    { current with messages, heavy })

/-- What a session handles: everything up to the message that exceeds the budget. -/
def handled (budget : MessageBudget) : List Incoming → List Incoming
  | [] => []
  | incoming :: rest =>
    if (budget.allow incoming).1 then incoming :: (budget.allow incoming).2.handled rest else []

/-! Each counter is a limit on a window. -/

def span : Nat := RATE_WINDOW_SECONDS * 1000000000

theorem elapsed_iff (elapsed : Nat) : elapsed / 1000000000 ≥ RATE_WINDOW_SECONDS ↔ span ≤ elapsed := by
  unfold span RATE_WINDOW_SECONDS
  omega

theorem toNat_counted {counts : Bool} {count limit : UInt32} (small : limit.toNat + 1 < 2 ^ 32)
    (bound : (if counts then saturatingSucc count else count) ≤ limit) :
    (if counts then saturatingSucc count else count).toNat = count.toNat + if counts then 1 else 0 := by
  cases counts with
  | false => rfl
  | true =>
    rw [if_pos rfl, if_pos rfl] at *
    unfold saturatingSucc at bound ⊢
    rw [UInt32.le_iff_toNat_le] at bound
    by_cases fits : count.toNat + 1 < 2 ^ 32
    · rw [if_pos fits, UInt32.toNat_add]
      exact Nat.mod_eq_of_lt fits
    · rw [if_neg fits] at bound
      omega

def messageWindow (budget : MessageBudget) : FixedWindow.Window := ⟨budget.started, budget.messages.toNat⟩

def heavyWindow (budget : MessageBudget) : FixedWindow.Window := ⟨budget.started, budget.heavy.toNat⟩

def messageCharge (incoming : Incoming) : FixedWindow.Charge := ⟨incoming.now, incoming.again, 1⟩

def heavyCharge (incoming : Incoming) : FixedWindow.Charge :=
  ⟨incoming.now, incoming.again, if incoming.message.isHeavy then 1 else 0⟩

theorem allow_windows {budget : MessageBudget} {incoming : Incoming}
    (allowed : (budget.allow incoming).1 = true) :
    (budget.messageWindow.charge span (messageCharge incoming) = (budget.allow incoming).2.messageWindow ∧
        (budget.allow incoming).2.messageWindow.spent ≤ 1000) ∧
      budget.heavyWindow.charge span (heavyCharge incoming) = (budget.allow incoming).2.heavyWindow ∧
        (budget.allow incoming).2.heavyWindow.spent ≤ 200 := by
  unfold allow at allowed ⊢
  have ⟨few, fewHeavy⟩ := of_decide_eq_true allowed
  have total := @toNat_counted true _ _ (by decide) few
  have totalHeavy := toNat_counted (by decide) fewHeavy
  rw [UInt32.le_iff_toNat_le] at few fewHeavy
  simp only [elapsed_iff, if_pos] at few fewHeavy total totalHeavy ⊢
  unfold messageWindow heavyWindow messageCharge heavyCharge FixedWindow.Window.charge
  dsimp only
  refine ⟨⟨?_, few⟩, ?_, fewHeavy⟩
  · rw [total]
    by_cases opens : span ≤ incoming.now - budget.started
    · simp only [if_pos opens]
      rfl
    · simp only [if_neg opens]
  · rw [totalHeavy]
    by_cases opens : span ≤ incoming.now - budget.started
    · simp only [if_pos opens]
      congr 1
      exact (Nat.zero_add _).symm
    · simp only [if_neg opens]

theorem handled_within (budget : MessageBudget) (arrivals : List Incoming) :
    FixedWindow.Within span 1000 budget.messageWindow ((budget.handled arrivals).map messageCharge) ∧
      FixedWindow.Within span 200 budget.heavyWindow ((budget.handled arrivals).map heavyCharge) := by
  induction arrivals generalizing budget with
  | nil => exact ⟨trivial, trivial⟩
  | cons incoming rest ih =>
    unfold handled
    by_cases allowed : (budget.allow incoming).1 = true
    · rw [if_pos allowed]
      obtain ⟨⟨next, few⟩, nextHeavy, fewHeavy⟩ := allow_windows allowed
      have ⟨later, laterHeavy⟩ := ih (budget.allow incoming).2
      constructor
      · change _ ∧ FixedWindow.Within _ _ _ (List.map messageCharge _)
        rw [next]
        exact ⟨few, later⟩
      · change _ ∧ FixedWindow.Within _ _ _ (List.map heavyCharge _)
        rw [nextHeavy]
        exact ⟨fewHeavy, laterHeavy⟩
    · rw [if_neg allowed]
      exact ⟨trivial, trivial⟩

theorem handled_subset (budget : MessageBudget) (arrivals : List Incoming) :
    ∀ incoming ∈ budget.handled arrivals, incoming ∈ arrivals := by
  induction arrivals generalizing budget with
  | nil => exact fun _ member => member
  | cons first rest ih =>
    unfold handled
    by_cases allowed : (budget.allow first).1 = true
    · rw [if_pos allowed]
      intro incoming member
      rcases List.mem_cons.mp member with same | later
      · rw [same]
        exact List.mem_cons_self
      · exact List.mem_cons_of_mem first (ih _ incoming later)
    · rw [if_neg allowed]
      exact fun _ member => nomatch member

theorem messageCharges_sum (list : List Incoming) :
    ((list.map messageCharge).map FixedWindow.Charge.cost).sum = list.length := by
  induction list with
  | nil => rfl
  | cons first rest ih =>
    rw [List.map_cons, List.map_cons, List.sum_cons, ih, List.length_cons, Nat.add_comm]
    rfl

theorem heavyCharges_sum (list : List Incoming) :
    ((list.map heavyCharge).map FixedWindow.Charge.cost).sum =
      (list.filter fun incoming => incoming.message.isHeavy).length := by
  induction list with
  | nil => rfl
  | cons first rest ih =>
    rw [List.map_cons, List.map_cons, List.sum_cons, ih, List.filter_cons]
    unfold heavyCharge
    by_cases heavy : first.message.isHeavy = true
    · rw [if_pos heavy, if_pos heavy, List.length_cons, Nat.add_comm]
    · rw [if_neg heavy, if_neg heavy, Nat.zero_add]

/-- Whatever a peer sends and when, in any stretch of less than ten seconds a session
handles at most two budgets of its messages, heavy ones and all. -/
theorem handled_rate {opened : Instant} {arrivals before stretch after : List Incoming}
    (readings : ∀ incoming ∈ arrivals, incoming.now ≤ incoming.again)
    (split : (new opened).handled arrivals = before ++ stretch ++ after)
    (brief : ∀ first ∈ stretch, ∀ second ∈ stretch, second.now < first.now + 10000000000) :
    stretch.length ≤ 2000 ∧ (stretch.filter fun incoming => incoming.message.isHeavy).length ≤ 400 := by
  have ⟨within, withinHeavy⟩ := handled_within (new opened) arrivals
  have inside : ∀ incoming ∈ stretch, incoming ∈ arrivals := by
    intro incoming member
    apply handled_subset (new opened) arrivals incoming
    rw [split]
    simp [member]
  rw [split, List.map_append, List.map_append] at within withinHeavy
  have positive : 0 < span := by decide
  have total := within.stretch_le positive (Nat.zero_le _)
    (List.forall_mem_map.mpr fun incoming member => readings incoming (inside incoming member))
    (List.forall_mem_map.mpr fun first one => List.forall_mem_map.mpr fun second two =>
      brief first one second two)
  have heavy := withinHeavy.stretch_le positive (Nat.zero_le _)
    (List.forall_mem_map.mpr fun incoming member => readings incoming (inside incoming member))
    (List.forall_mem_map.mpr fun first one => List.forall_mem_map.mpr fun second two =>
      brief first one second two)
  rw [messageCharges_sum] at total
  rw [heavyCharges_sum] at heavy
  exact ⟨total, heavy⟩

/-- Three messages within a second, one of them heavy. -/
theorem three_messages_rate :
    let arrivals : List Incoming := [⟨1000000000, 1000000000, .ping 1⟩,
      ⟨1500000000, 1500000000, .template ⟨1, 1, Hash32.ZERO, []⟩⟩, ⟨2000000000, 2000000000, .pong 1⟩]
    arrivals.length ≤ 2000 ∧ (arrivals.filter fun incoming => incoming.message.isHeavy).length ≤ 400 := by
  intro arrivals
  have split : (new 0).handled arrivals = [] ++ arrivals ++ [] := by rfl
  exact handled_rate (by decide) split (by decide)

end MessageBudget

end ParitrNode
