import Mathlib.Data.List.Infix
import Mathlib.Data.Set.Basic

/-!
Greedy picking: of the items that the current state admits always the first in
an order, and every pick moves the state on. The order and the admission decide
the whole sequence of picks.
-/

namespace Greedy

variable {σ ι : Type} (admits : σ → ι → Prop) (before : ι → ι → Prop) (advance : σ → ι → Option σ)

def rest (items : Set ι) (picked : List ι) : Set ι := {item | item ∈ items ∧ item ∉ picked}

structure First (items : Set ι) (state : σ) (item : ι) : Prop where
  mem : item ∈ items
  admitted : admits state item
  least : ∀ other ∈ items, admits state other → before item other

inductive Picks : Set ι → σ → List ι → σ → Prop
  | done (items : Set ι) (state : σ) : Picks items state [] state
  | pick {items : Set ι} {state next last : σ} {item : ι} {later : List ι}
      (first : First admits before items state item) (moved : advance state item = some next)
      (picks : Picks (rest items [item]) next later last) : Picks items state (item :: later) last

def Exhausted (items : Set ι) (state : σ) : Prop := ∀ item ∈ items, ¬admits state item

variable {admits before advance} {items : Set ι} {state middle last : σ} {item : ι}
  {picked earlier later : List ι}

theorem rest_nil (items : Set ι) : rest items [] = items :=
  Set.ext fun _ => and_iff_left List.not_mem_nil

theorem rest_rest (items : Set ι) (earlier later : List ι) :
    rest (rest items earlier) later = rest items (earlier ++ later) := by
  apply Set.ext
  intro item
  change (item ∈ items ∧ item ∉ earlier) ∧ item ∉ later ↔ item ∈ items ∧ item ∉ earlier ++ later
  rw [List.mem_append, not_or, and_assoc]

theorem Picks.mem (picks : Picks admits before advance items state picked last) :
    ∀ item ∈ picked, item ∈ items := by
  induction picks with
  | done => exact List.forall_mem_nil _
  | pick first moved picks ih =>
    intro other member
    rcases List.mem_cons.mp member with same | inside
    · exact same ▸ first.mem
    · exact (ih other inside).1

theorem Picks.nodup (picks : Picks admits before advance items state picked last) : picked.Nodup := by
  induction picks with
  | done => exact List.nodup_nil
  | pick first moved picks ih =>
    refine List.nodup_cons.mpr ⟨?_, ih⟩
    intro again
    exact (picks.mem _ again).2 (List.mem_singleton.mpr rfl)

theorem Picks.advances (picks : Picks admits before advance items state picked last) :
    picked.foldlM advance state = some last := by
  induction picks with
  | done => rfl
  | pick first moved picks ih =>
    rw [List.foldlM_cons, moved]
    exact ih

theorem Picks.append (picks : Picks admits before advance items state earlier middle)
    (more : Picks admits before advance (rest items earlier) middle later last) :
    Picks admits before advance items state (earlier ++ later) last := by
  induction picks with
  | done =>
    rw [rest_nil] at more
    exact more
  | pick first moved picks ih =>
    apply Picks.pick first moved
    apply ih
    rw [rest_rest]
    exact more

theorem Picks.split (picks : Picks admits before advance items state (earlier ++ later) last) :
    ∃ middle, Picks admits before advance items state earlier middle ∧
      Picks admits before advance (rest items earlier) middle later last := by
  induction earlier generalizing items state with
  | nil =>
    rw [List.nil_append] at picks
    refine ⟨state, Picks.done items state, ?_⟩
    rw [rest_nil]
    exact picks
  | cons item earlier ih =>
    cases picks with
    | pick first moved picks =>
      obtain ⟨middle, head, tail⟩ := ih picks
      rw [rest_rest] at tail
      exact ⟨middle, Picks.pick first moved head, tail⟩

theorem Picks.at (picks : Picks admits before advance items state picked last) {index : Nat}
    (found : picked[index]? = some item) :
    ∃ middle, Picks admits before advance items state (picked.take index) middle ∧
      First admits before (rest items (picked.take index)) middle item := by
  obtain ⟨inside, same⟩ := List.getElem?_eq_some_iff.mp found
  have shape : picked = picked.take index ++ item :: picked.drop (index + 1) := by
    rw [← same, ← List.drop_eq_getElem_cons inside, List.take_append_drop]
  rw [shape] at picks
  obtain ⟨middle, head, tail⟩ := picks.split
  cases tail with
  | pick first moved picks => exact ⟨middle, head, first⟩

/-- A property of the state and of what has been picked that every admitted step keeps. -/
theorem Picks.invariant (holds : List ι → σ → Prop) (start : holds [] state)
    (step : ∀ (earlier : List ι) (middle next : σ) (item : ι), holds earlier middle →
      item ∈ rest items earlier → admits middle item → advance middle item = some next →
      holds (earlier ++ [item]) next)
    (picks : Picks admits before advance items state picked last) : holds picked last := by
  have along : ∀ (earlier later : List ι) (middle : σ), holds earlier middle →
      Picks admits before advance (rest items earlier) middle later last →
      holds (earlier ++ later) last := by
    intro earlier later
    induction later generalizing earlier with
    | nil =>
      intro middle held more
      cases more
      rwa [List.append_nil]
    | cons item later ih =>
      intro middle held more
      cases more with
      | pick first moved more =>
        rw [rest_rest] at more
        have kept := ih (earlier ++ [item]) _ (step earlier middle _ item held first.mem first.admitted moved) more
        rwa [List.append_assoc] at kept
  have all := along [] picked state start
  rw [rest_nil] at all
  exact all picks

theorem Picks.weaken {below : ι → ι → Prop} (weaker : ∀ first second, before first second → below first second)
    (picks : Picks admits before advance items state picked last) :
    Picks admits below advance items state picked last := by
  induction picks with
  | done => exact Picks.done _ _
  | pick first moved picks ih =>
    exact Picks.pick ⟨first.mem, first.admitted,
      fun other inside admitted => weaker _ _ (first.least other inside admitted)⟩ moved ih

section Order

variable (antisymm : ∀ first ∈ items, ∀ second ∈ items, before first second → before second first →
  first = second)
include antisymm

/-- Of two sequences of picks the shorter one is the start of the other. -/
theorem Picks.isPrefix {other : List ι} {finish : σ}
    (picks : Picks admits before advance items state picked last)
    (others : Picks admits before advance items state other finish)
    (shorter : picked.length ≤ other.length) : picked <+: other := by
  induction picks generalizing other with
  | done => exact List.nil_prefix
  | pick first moved picks ih =>
    cases others with
    | done => cases shorter
    | pick first' moved' others =>
      have same := antisymm _ first.mem _ first'.mem (first.least _ first'.mem first'.admitted)
        (first'.least _ first.mem first.admitted)
      subst same
      rw [moved] at moved'
      cases moved'
      apply List.cons_prefix_cons.mpr
      refine ⟨rfl, ih ?_ others (Nat.le_of_succ_le_succ shorter)⟩
      exact fun left inside right inside' => antisymm left inside.1 right inside'.1

theorem Picks.isPrefix_exhausted {order : List ι} {finish : σ}
    (picks : Picks admits before advance items state picked last)
    (whole : Picks admits before advance items state order finish)
    (exhausted : Exhausted admits (rest items order) finish) : picked <+: order := by
  rcases Nat.le_total picked.length order.length with shorter | longer
  · exact picks.isPrefix antisymm whole shorter
  · obtain ⟨more, same⟩ := whole.isPrefix antisymm picks longer
    cases more with
    | nil =>
      rw [← same, List.append_nil]
    | cons item more =>
      -- a pick after the exhausted state
      rw [← same] at picks
      obtain ⟨middle, head, tail⟩ := picks.split
      have reached := head.advances
      rw [whole.advances] at reached
      cases reached
      cases tail with
      | pick first moved tail => exact absurd first.admitted (exhausted _ first.mem)

/-- Two sequences that stop only at a common bound or when nothing is left are the same. -/
theorem Picks.unique {other : List ι} {finish : σ} {maximum : Nat}
    (picks : Picks admits before advance items state picked last)
    (others : Picks admits before advance items state other finish)
    (bound : picked.length ≤ maximum) (bound' : other.length ≤ maximum)
    (ends : picked.length < maximum → Exhausted admits (rest items picked) last)
    (ends' : other.length < maximum → Exhausted admits (rest items other) finish) : picked = other := by
  rcases Nat.lt_or_ge picked.length maximum with short | full
  · have below := others.isPrefix_exhausted antisymm picks (ends short)
    rcases Nat.lt_or_ge other.length maximum with short' | full'
    · have above := picks.isPrefix_exhausted antisymm others (ends' short')
      exact above.eq_of_length_le below.length_le
    · have fewer := below.length_le
      omega
  · have above := others.isPrefix antisymm picks (Nat.le_trans bound' full)
    rcases Nat.lt_or_ge other.length maximum with short' | full'
    · have below := picks.isPrefix_exhausted antisymm others (ends' short')
      have fewer := below.length_le
      omega
    · exact (above.eq_of_length_le (Nat.le_trans bound full')).symm

end Order

end Greedy
