import Mathlib.Data.List.Chain
import Mathlib.Logic.Function.Basic
import Mathlib.Logic.Relation

/-!
A cell that holds one item, shared by callers who each ask for the item of a key. A caller
whose key is not in the cell takes a lock, looks again, builds the item and puts it there.
Callers move one atomic section at a time, in any order.
-/

namespace KeyedCell

inductive Phase (Key Item Error : Type) where
  | idle
  | looking (key : Key)
  | queued (key : Key)
  | checking (key : Key)
  | building (key : Key)
  | installing (key : Key) (item : Item)
  | leaving (key : Key) (outcome : Except Error Item)
  | done (key : Key) (outcome : Except Error Item)

namespace Phase

variable {Key Item Error : Type}

def locked : Phase Key Item Error → Bool
  | checking _ | building _ | installing _ _ | leaving _ _ => true
  | _ => false

/-- The item the caller carries, under the key it asked for. -/
inductive Carries : Phase Key Item Error → Key → Item → Prop where
  | installing (key : Key) (item : Item) : Carries (installing key item) key item
  | leaving (key : Key) (item : Item) : Carries (leaving key (.ok item)) key item
  | done (key : Key) (item : Item) : Carries (done key (.ok item)) key item

/-- The key the caller is about to put in the cell. -/
inductive Lacks : Phase Key Item Error → Key → Prop where
  | building (key : Key) : Lacks (building key) key
  | installing (key : Key) (item : Item) : Lacks (installing key item) key

theorem Lacks.locked {phase : Phase Key Item Error} {key : Key} (lacks : phase.Lacks key) :
    phase.locked = true := by
  cases lacks with
  | building => rfl
  | installing => rfl

end Phase

structure Cell (Caller Key Item Error : Type) where
  current : Item
  owner : Option Caller
  phase : Caller → Phase Key Item Error
  /-- Every item so far, the first one included, the oldest first. -/
  made : List Item

variable {Caller Key Item Error : Type} [DecidableEq Caller]

namespace Cell

def initial (item : Item) : Cell Caller Key Item Error := ⟨item, none, fun _ => .idle, [item]⟩

def move (cell : Cell Caller Key Item Error) (caller : Caller) (phase : Phase Key Item Error) :
    Cell Caller Key Item Error :=
  { cell with phase := Function.update cell.phase caller phase }

variable (cell : Cell Caller Key Item Error) (caller : Caller) (phase : Phase Key Item Error)

@[simp] theorem move_current : (cell.move caller phase).current = cell.current := rfl

@[simp] theorem move_owner : (cell.move caller phase).owner = cell.owner := rfl

@[simp] theorem move_made : (cell.move caller phase).made = cell.made := rfl

theorem move_phase (other : Caller) :
    (cell.move caller phase).phase other = if other = caller then phase else cell.phase other :=
  Function.update_apply cell.phase caller phase other

end Cell

section Runs

variable (keyOf : Item → Key) (makes : List Item → Key → Item → Prop)

/-- What a caller does in one go. The item it builds depends on those made before. -/
inductive Step (caller : Caller) : Cell Caller Key Item Error → Cell Caller Key Item Error → Prop where
  | call {cell : Cell Caller Key Item Error} (key : Key) (idle : cell.phase caller = .idle) :
      Step caller cell (cell.move caller (.looking key))
  | hit {cell : Cell Caller Key Item Error} {key : Key} (looks : cell.phase caller = .looking key)
      (present : keyOf cell.current = key) :
      Step caller cell (cell.move caller (.done key (.ok cell.current)))
  | miss {cell : Cell Caller Key Item Error} {key : Key} (looks : cell.phase caller = .looking key)
      (absent : keyOf cell.current ≠ key) : Step caller cell (cell.move caller (.queued key))
  | lock {cell : Cell Caller Key Item Error} {key : Key} (waits : cell.phase caller = .queued key)
      (free : cell.owner = none) :
      Step caller cell { cell.move caller (.checking key) with owner := some caller }
  | found {cell : Cell Caller Key Item Error} {key : Key} (checks : cell.phase caller = .checking key)
      (present : keyOf cell.current = key) :
      Step caller cell (cell.move caller (.leaving key (.ok cell.current)))
  | missing {cell : Cell Caller Key Item Error} {key : Key}
      (checks : cell.phase caller = .checking key) (absent : keyOf cell.current ≠ key) :
      Step caller cell (cell.move caller (.building key))
  | build {cell : Cell Caller Key Item Error} {key : Key} {item : Item}
      (builds : cell.phase caller = .building key) (made : makes cell.made key item) :
      Step caller cell { cell.move caller (.installing key item) with made := cell.made ++ [item] }
  | fail {cell : Cell Caller Key Item Error} {key : Key} (error : Error)
      (builds : cell.phase caller = .building key) :
      Step caller cell (cell.move caller (.leaving key (.error error)))
  | keep {cell : Cell Caller Key Item Error} {key : Key} {item : Item}
      (installs : cell.phase caller = .installing key item) (present : keyOf cell.current = key) :
      Step caller cell (cell.move caller (.leaving key (.ok cell.current)))
  | install {cell : Cell Caller Key Item Error} {key : Key} {item : Item}
      (installs : cell.phase caller = .installing key item) (absent : keyOf cell.current ≠ key) :
      Step caller cell { cell.move caller (.leaving key (.ok item)) with current := item }
  | unlock {cell : Cell Caller Key Item Error} {key : Key} {outcome : Except Error Item}
      (leaves : cell.phase caller = .leaving key outcome) :
      Step caller cell { cell.move caller (.done key outcome) with owner := none }
  | release {cell : Cell Caller Key Item Error} {key : Key} {outcome : Except Error Item}
      (ends : cell.phase caller = .done key outcome) : Step caller cell (cell.move caller .idle)

structure Coherent (cell : Cell Caller Key Item Error) : Prop where
  owned : ∀ caller, (cell.phase caller).locked = true ↔ cell.owner = some caller
  /-- Only the owner of the lock changes the cell. -/
  absent : ∀ caller key, (cell.phase caller).Lacks key → keyOf cell.current ≠ key
  named : ∀ caller key item, (cell.phase caller).Carries key item → keyOf item = key
  known : ∀ caller key item, (cell.phase caller).Carries key item → item ∈ cell.made
  present : cell.current ∈ cell.made
  /-- No item follows one of its own key. -/
  changes : cell.made.IsChain (fun earlier later => keyOf earlier ≠ keyOf later)
  newest : (∀ caller key item, cell.phase caller ≠ .installing key item) →
    cell.made.getLast? = some cell.current
  pending : ∀ caller key item, cell.phase caller = .installing key item → cell.made.getLast? = some item

variable {keyOf : Item → Key} {makes : List Item → Key → Item → Prop} {cell : Cell Caller Key Item Error}

omit [DecidableEq Caller] in
/-- Two callers never hold the lock at once. -/
theorem Coherent.alone (coherent : Coherent keyOf cell) {caller other : Caller}
    (locked : (cell.phase caller).locked = true) (also : (cell.phase other).locked = true) :
    other = caller :=
  Option.some.inj (((coherent.owned other).mp also).symm.trans ((coherent.owned caller).mp locked))

omit [DecidableEq Caller] in
theorem Coherent.initial (item : Item) : Coherent keyOf (Cell.initial item : Cell Caller Key Item Error) where
  owned caller := by
    constructor
    · intro locked
      cases locked
    · intro owner
      cases owner
  absent _ _ lacks := nomatch lacks
  named _ _ _ carries := nomatch carries
  known _ _ _ carries := nomatch carries
  present := List.mem_singleton.mpr rfl
  changes := .singleton item
  newest _ := rfl
  pending _ _ _ installs := nomatch installs

theorem Coherent.owned_moved (coherent : Coherent keyOf cell) {caller : Caller}
    {old phase : Phase Key Item Error} (was : cell.phase caller = old) (same : phase.locked = old.locked)
    (other : Caller) :
    ((cell.move caller phase).phase other).locked = true ↔ cell.owner = some other := by
  rw [Cell.move_phase]
  split
  next equal => rw [same, ← was, equal, coherent.owned]
  next => exact coherent.owned other

theorem Coherent.moved (coherent : Coherent keyOf cell) {caller : Caller} {old phase : Phase Key Item Error}
    {owner : Option Caller} (was : cell.phase caller = old)
    (owned : ∀ other, ((cell.move caller phase).phase other).locked = true ↔ owner = some other)
    (absent : ∀ key, phase.Lacks key → keyOf cell.current ≠ key)
    (carried : ∀ key item, phase.Carries key item → keyOf item = key ∧ item ∈ cell.made)
    (before : ∀ key item, old ≠ .installing key item) (after : ∀ key item, phase ≠ .installing key item) :
    Coherent keyOf { cell.move caller phase with owner := owner } where
  owned := owned
  absent other key lacks := by
    change ((cell.move caller phase).phase other).Lacks key at lacks
    rw [Cell.move_phase] at lacks
    split at lacks
    next => exact absent key lacks
    next => exact coherent.absent other key lacks
  named other key item carries := by
    change ((cell.move caller phase).phase other).Carries key item at carries
    rw [Cell.move_phase] at carries
    split at carries
    next => exact (carried key item carries).1
    next => exact coherent.named other key item carries
  known other key item carries := by
    change ((cell.move caller phase).phase other).Carries key item at carries
    rw [Cell.move_phase] at carries
    split at carries
    next => exact (carried key item carries).2
    next => exact coherent.known other key item carries
  present := coherent.present
  changes := coherent.changes
  newest quiet := by
    apply coherent.newest
    intro other key item
    by_cases same : other = caller
    · rw [same, was]
      exact before key item
    · have still := quiet other key item
      change (cell.move caller phase).phase other ≠ _ at still
      rw [Cell.move_phase, if_neg same] at still
      exact still
  pending other key item installs := by
    change (cell.move caller phase).phase other = _ at installs
    rw [Cell.move_phase] at installs
    split at installs
    next => exact absurd installs (after key item)
    next => exact coherent.pending other key item installs

theorem Coherent.released (coherent : Coherent keyOf cell) {caller : Caller} {key : Key}
    {outcome : Except Error Item} (ends : cell.phase caller = .done key outcome) :
    Coherent keyOf (cell.move caller .idle) :=
  coherent.moved ends (coherent.owned_moved ends rfl) nofun nofun nofun nofun

theorem Coherent.built (coherent : Coherent keyOf cell) {caller : Caller} {key : Key} {item : Item}
    (builds : cell.phase caller = .building key) (named : keyOf item = key) :
    Coherent keyOf { cell.move caller (.installing key item) with made := cell.made ++ [item] } := by
  have locked : (cell.phase caller).locked = true := by
    rw [builds]
    rfl
  have missing : keyOf cell.current ≠ key := by
    apply coherent.absent caller
    rw [builds]
    exact .building key
  have quiet : ∀ other key item, cell.phase other ≠ .installing key item := by
    intro other key' item' installs
    have also : (cell.phase other).locked = true := by
      rw [installs]
      rfl
    have same := coherent.alone locked also
    rw [same, builds] at installs
    cases installs
  exact
    { owned := coherent.owned_moved builds rfl
      absent := by
        intro other key' lacks
        change ((cell.move caller _).phase other).Lacks key' at lacks
        rw [Cell.move_phase] at lacks
        split at lacks
        next =>
          cases lacks
          exact missing
        next => exact coherent.absent other key' lacks
      named := by
        intro other key' item' carries
        change ((cell.move caller _).phase other).Carries key' item' at carries
        rw [Cell.move_phase] at carries
        split at carries
        next =>
          cases carries
          exact named
        next => exact coherent.named other key' item' carries
      known := by
        intro other key' item' carries
        change ((cell.move caller _).phase other).Carries key' item' at carries
        rw [Cell.move_phase] at carries
        split at carries
        next =>
          cases carries
          exact List.mem_append_right _ List.mem_cons_self
        next => exact List.mem_append_left _ (coherent.known other key' item' carries)
      present := List.mem_append_left _ coherent.present
      changes := by
        apply coherent.changes.append (.singleton item)
        intro earlier last later first
        rw [coherent.newest quiet] at last
        cases last
        cases first
        rw [named]
        exact missing
      newest := by
        intro none
        have still := none caller key item
        change (cell.move caller _).phase caller ≠ _ at still
        rw [Cell.move_phase, if_pos rfl] at still
        exact absurd rfl still
      pending := by
        intro other key' item' installs
        change (cell.move caller _).phase other = _ at installs
        rw [Cell.move_phase] at installs
        split at installs
        next =>
          cases installs
          exact List.getLast?_concat
        next => exact absurd installs (quiet other key' item') }

theorem Coherent.installed (coherent : Coherent keyOf cell) {caller : Caller} {key : Key} {item : Item}
    (installs : cell.phase caller = .installing key item) :
    Coherent keyOf { cell.move caller (.leaving key (.ok item)) with current := item } := by
  have carries : (cell.phase caller).Carries key item := by
    rw [installs]
    exact .installing key item
  have locked : (cell.phase caller).locked = true := by
    rw [installs]
    rfl
  exact
    { owned := coherent.owned_moved installs rfl
      absent := by
        intro other key' lacks
        change ((cell.move caller _).phase other).Lacks key' at lacks
        rw [Cell.move_phase] at lacks
        split at lacks
        next => cases lacks
        next different => exact absurd (coherent.alone locked lacks.locked) different
      named := by
        intro other key' item' carried
        change ((cell.move caller _).phase other).Carries key' item' at carried
        rw [Cell.move_phase] at carried
        split at carried
        next =>
          cases carried
          exact coherent.named caller key item carries
        next => exact coherent.named other key' item' carried
      known := by
        intro other key' item' carried
        change ((cell.move caller _).phase other).Carries key' item' at carried
        rw [Cell.move_phase] at carried
        split at carried
        next =>
          cases carried
          exact coherent.known caller key item carries
        next => exact coherent.known other key' item' carried
      present := coherent.known caller key item carries
      changes := coherent.changes
      newest := fun _ => coherent.pending caller key item installs
      pending := by
        intro other key' item' installs'
        change (cell.move caller _).phase other = _ at installs'
        rw [Cell.move_phase] at installs'
        split at installs'
        next => cases installs'
        next => exact coherent.pending other key' item' installs' }

/-- One caller builds at a time, so what it was missing is still missing when it installs. -/
theorem Coherent.step (named : ∀ made key item, makes made key item → keyOf item = key)
    (coherent : Coherent keyOf cell) {caller : Caller} {next : Cell Caller Key Item Error}
    (step : Step keyOf makes caller cell next) : Coherent keyOf next := by
  cases step with
  | call key idle => exact coherent.moved idle (coherent.owned_moved idle rfl) nofun nofun nofun nofun
  | @hit key looks present =>
    have carried : ∀ key' item, (Phase.done key (.ok cell.current) : Phase Key Item Error).Carries key' item →
        keyOf item = key' ∧ item ∈ cell.made := by
      intro _ _ carries
      cases carries
      exact ⟨present, coherent.present⟩
    exact coherent.moved looks (coherent.owned_moved looks rfl) nofun carried nofun nofun
  | miss looks absent => exact coherent.moved looks (coherent.owned_moved looks rfl) nofun nofun nofun nofun
  | @lock key waits free =>
    have owned : ∀ other, ((cell.move caller (.checking key)).phase other).locked = true ↔
        some caller = some other := by
      intro other
      rw [Cell.move_phase]
      split
      next equal =>
        rw [equal]
        exact iff_of_true rfl rfl
      next different =>
        rw [coherent.owned, free]
        exact iff_of_false nofun fun same => different (Option.some.inj same).symm
    exact coherent.moved waits owned nofun nofun nofun nofun
  | @found key checks present =>
    have carried : ∀ key' item, (Phase.leaving key (.ok cell.current) : Phase Key Item Error).Carries key' item →
        keyOf item = key' ∧ item ∈ cell.made := by
      intro _ _ carries
      cases carries
      exact ⟨present, coherent.present⟩
    exact coherent.moved checks (coherent.owned_moved checks rfl) nofun carried nofun nofun
  | @missing key checks absent =>
    have lacking : ∀ key', (Phase.building key : Phase Key Item Error).Lacks key' → keyOf cell.current ≠ key' := by
      intro _ lacks
      cases lacks
      exact absent
    exact coherent.moved checks (coherent.owned_moved checks rfl) lacking nofun nofun nofun
  | build builds made => exact coherent.built builds (named _ _ _ made)
  | fail error builds => exact coherent.moved builds (coherent.owned_moved builds rfl) nofun nofun nofun nofun
  | keep installs present =>
    apply absurd present
    apply coherent.absent caller
    rw [installs]
    exact .installing _ _
  | install installs absent => exact coherent.installed installs
  | @unlock key outcome leaves =>
    have owned : ∀ other, ((cell.move caller (.done key outcome)).phase other).locked = true ↔
        (none : Option Caller) = some other := by
      intro other
      rw [Cell.move_phase]
      split
      next => exact iff_of_false nofun nofun
      next different =>
        have holder : (cell.phase caller).locked = true := by
          rw [leaves]
          rfl
        exact iff_of_false (fun locked => different (coherent.alone holder locked)) nofun
    have carried : ∀ key' item, (Phase.done key outcome).Carries key' item →
        keyOf item = key' ∧ item ∈ cell.made := by
      intro key' item carries
      cases carries
      have before : (cell.phase caller).Carries key item := by
        rw [leaves]
        exact .leaving key item
      exact ⟨coherent.named caller key item before, coherent.known caller key item before⟩
    exact coherent.moved leaves owned nofun carried nofun nofun
  | release ends => exact coherent.released ends

theorem Step.others {caller : Caller} {next : Cell Caller Key Item Error}
    (step : Step keyOf makes caller cell next) {other : Caller} (different : other ≠ caller) :
    next.phase other = cell.phase other := by
  cases step with
  | _ => exact Function.update_of_ne different _ _

theorem Step.made {caller : Caller} {next : Cell Caller Key Item Error}
    (step : Step keyOf makes caller cell next) :
    next.made = cell.made ∨
      ∃ key item, makes cell.made key item ∧ next.made = cell.made ++ [item] := by
  cases step with
  | build builds made => exact .inr ⟨_, _, made, rfl⟩
  | _ => exact .inl rfl

theorem owner_proceeds {caller : Caller} (able : ∀ made key, ∃ item, makes made key item)
    (locked : (cell.phase caller).locked = true) : ∃ next, Step keyOf makes caller cell next := by
  cases at_ : cell.phase caller with
  | checking key =>
    by_cases present : keyOf cell.current = key
    · exact ⟨_, .found at_ present⟩
    · exact ⟨_, .missing at_ present⟩
  | building key =>
    have ⟨_, made⟩ := able cell.made key
    exact ⟨_, .build at_ made⟩
  | installing key item =>
    by_cases present : keyOf cell.current = key
    · exact ⟨_, .keep at_ present⟩
    · exact ⟨_, .install at_ present⟩
  | leaving key outcome => exact ⟨_, .unlock at_⟩
  | _ =>
    rw [at_] at locked
    cases locked

/-- Nobody waits for ever: a caller can move, or the owner of the lock it waits for can. -/
theorem Coherent.proceeds (coherent : Coherent keyOf cell)
    (able : ∀ made key, ∃ item, makes made key item) {caller : Caller} (busy : cell.phase caller ≠ .idle) :
    (∃ next, Step keyOf makes caller cell next) ∨
      ∃ owner, cell.owner = some owner ∧ ∃ next, Step keyOf makes owner cell next := by
  by_cases locked : (cell.phase caller).locked = true
  · exact .inl (owner_proceeds able locked)
  · cases at_ : cell.phase caller with
    | idle => exact absurd at_ busy
    | looking key =>
      by_cases present : keyOf cell.current = key
      · exact .inl ⟨_, .hit at_ present⟩
      · exact .inl ⟨_, .miss at_ present⟩
    | queued key =>
      cases held : cell.owner with
      | none => exact .inl ⟨_, .lock at_ held⟩
      | some owner => exact .inr ⟨owner, rfl, owner_proceeds able ((coherent.owned owner).mpr held)⟩
    | done key outcome => exact .inl ⟨_, .release at_⟩
    | _ =>
      rw [at_] at locked
      exact absurd rfl locked

end Runs

end KeyedCell
