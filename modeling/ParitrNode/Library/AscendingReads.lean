import ParitrNode.Library.KeyOrder
import ParitrNode.Library.Recodes

/-!
A counted list that is read in strictly increasing order of a key, each item
folded into a state as it arrives: the loop accepts exactly the encodings of
increasing lists of allowed items.
-/

namespace AscendingReads
open ByteCodec KeyOrder

variable {ε α σ κ : Type} [Ord κ]

def turns (turn : σ → Option κ → Reader ε (σ × κ)) : Nat → σ → Option κ → Reader ε σ
  | 0, state, _ => return state
  | count + 1, state, last => do
    let found ← turn state last
    turns turn count found.1 (some found.2)

/-- One turn reads one allowed item beyond the last key and adds it to the
state, from every state the invariant admits; it accepts no other bytes. -/
structure Scans (turn : σ → Option κ → Reader ε (σ × κ)) (inv : σ → Option κ → Prop) (key : α → κ)
    (allowed : α → Prop) (add : σ → α → σ) (encode : α → Bytes) : Prop where
  keeps : ∀ {state last item}, inv state last → After last (key item) → allowed item →
    inv (add state item) (some (key item))
  reads : ∀ {state last item}, inv state last → After last (key item) → allowed item →
    Reads (turn state last) (encode item) (add state item, key item)
  exact : ∀ {state last input next rest}, inv state last →
    (turn state last).run input = .ok (next, rest) →
      ∃ item, After last (key item) ∧ allowed item ∧ next = (add state item, key item) ∧
        input = encode item ++ rest

variable [Std.TransOrd κ] {turn : σ → Option κ → Reader ε (σ × κ)} {inv : σ → Option κ → Prop}
  {key : α → κ} {allowed : α → Prop} {add : σ → α → σ} {encode : α → Bytes}

theorem Scans.reads_all (scans : Scans turn inv key allowed add encode) {items : List α} {state : σ}
    {last : Option κ} (holds : inv state last) (beyond : Beyond key last items)
    (each : ∀ item ∈ items, allowed item) :
    Reads (turns turn items.length state last) (items.flatMap encode) (items.foldl add state) := by
  induction items generalizing state last with
  | nil => exact Reads.pure state
  | cons item rest ih =>
    have here := each item List.mem_cons_self
    obtain ⟨after, onward⟩ := beyond_cons.mp beyond
    have later := ih (scans.keeps holds after here) onward
      fun other member => each other (List.mem_cons_of_mem item member)
    rw [List.flatMap_cons]
    exact (scans.reads holds after here).bind later

theorem Scans.exact_all (scans : Scans turn inv key allowed add encode) {count : Nat} {state : σ}
    {last : Option κ} {input rest : Bytes} {final : σ} (holds : inv state last)
    (ran : (turns turn count state last).run input = .ok (final, rest)) :
    ∃ items : List α, items.length = count ∧ Beyond key last items ∧
      (∀ item ∈ items, allowed item) ∧ final = items.foldl add state ∧
        input = items.flatMap encode ++ rest := by
  induction count generalizing state last input with
  | zero =>
    cases ran
    exact ⟨[], rfl, beyond_nil, fun item inside => (nomatch inside), rfl, rfl⟩
  | succ count ih =>
    obtain ⟨next, middle, began, later⟩ := run_bind_ok.mp ran
    obtain ⟨item, after, here, rfl, bytes⟩ := scans.exact holds began
    obtain ⟨items, length, onward, each, folded, remaining⟩ :=
      ih (scans.keeps holds after here) later
    refine ⟨item :: items, by rw [List.length_cons, length], beyond_cons.mpr ⟨after, onward⟩, ?_,
      folded, ?_⟩
    · intro other member
      rcases List.mem_cons.mp member with rfl | inside
      · exact here
      · exact each other inside
    · rw [List.flatMap_cons, List.append_assoc, ← remaining]
      exact bytes

end AscendingReads
