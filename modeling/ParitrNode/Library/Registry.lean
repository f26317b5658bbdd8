import Mathlib.Logic.Function.Basic
import ParitrNode.Library.OrderedMap

/-!
A shared table and the holders of its entries: each entry has exactly one holder,
who put it there and takes it out again.
-/

namespace Registry
open OrderedMap

variable {κ ν σ : Type} [Ord κ] [Std.TransOrd κ] [Std.LawfulEqOrd κ] [DecidableEq κ] [DecidableEq σ]

/-- The entries of the table are what the holders hold, each held once. -/
structure Registered (table : BTreeMap κ ν) (holds : σ → Option (κ × ν)) : Prop where
  listed : ∀ (key : κ) (value : ν), table[key]? = some value ↔ ∃ holder, holds holder = some (key, value)
  single : ∀ (first second : σ) (one two : κ × ν), holds first = some one → holds second = some two →
    one.1 = two.1 → first = second

variable {table : BTreeMap κ ν} {holds : σ → Option (κ × ν)} {holder : σ} {key : κ} {value : ν}

omit [Std.LawfulEqOrd κ] [DecidableEq κ] [DecidableEq σ] in
theorem registered_empty : Registered (∅ : BTreeMap κ ν) fun _ : σ => none where
  listed key value := by
    rw [get_empty]
    exact iff_of_false (fun absent => nomatch absent) fun ⟨_, absent⟩ => nomatch absent
  single _ _ _ _ absent := nomatch absent

theorem Registered.enter (registered : Registered table holds) (idle : holds holder = none)
    (absent : table[key]? = none) :
    Registered (table.insert key value) (Function.update holds holder (some (key, value))) := by
  have others : ∀ (other : σ) (entry : κ × ν), holds other = some entry → other ≠ holder ∧ entry.1 ≠ key := by
    intro other entry held
    refine ⟨fun same => ?_, fun same => ?_⟩
    · rw [same, idle] at held
      cases held
    · have present := (registered.listed key entry.2).mpr ⟨other, by rw [held, ← same]⟩
      rw [absent] at present
      cases present
  refine ⟨?_, ?_⟩
  · intro other found
    rw [get_insert]
    by_cases same : key = other
    · rw [if_pos same]
      constructor
      · intro equal
        exact ⟨holder, by rw [Function.update_self, same, Option.some.inj equal]⟩
      · intro ⟨owner, held⟩
        by_cases here : owner = holder
        · rw [here, Function.update_self] at held
          rw [(Prod.mk.inj (Option.some.inj held)).2]
        · rw [Function.update_of_ne here] at held
          exact absurd same.symm (others owner _ held).2
    · rw [if_neg same, registered.listed]
      constructor
      · intro ⟨owner, held⟩
        exact ⟨owner, by rw [Function.update_of_ne (others owner _ held).1, held]⟩
      · intro ⟨owner, held⟩
        by_cases here : owner = holder
        · rw [here, Function.update_self] at held
          exact absurd (Prod.mk.inj (Option.some.inj held)).1 same
        · rw [Function.update_of_ne here] at held
          exact ⟨owner, held⟩
  · intro first second one two held held' same
    by_cases here : first = holder
    · by_cases there : second = holder
      · rw [here, there]
      · rw [here, Function.update_self] at held
        rw [Function.update_of_ne there] at held'
        rw [← Option.some.inj held] at same
        exact absurd same.symm (others second two held').2
    · rw [Function.update_of_ne here] at held
      by_cases there : second = holder
      · rw [there, Function.update_self] at held'
        rw [← Option.some.inj held'] at same
        exact absurd same (others first one held).2
      · rw [Function.update_of_ne there] at held'
        exact registered.single first second one two held held' same

theorem Registered.leave (registered : Registered table holds) (held : holds holder = some (key, value)) :
    Registered (table.erase key) (Function.update holds holder none) := by
  refine ⟨?_, ?_⟩
  · intro other found
    rw [get_erase]
    by_cases same : key = other
    · rw [if_pos same]
      refine iff_of_false (fun absent => nomatch absent) ?_
      intro ⟨owner, owns⟩
      by_cases here : owner = holder
      · rw [here, Function.update_self] at owns
        cases owns
      · rw [Function.update_of_ne here] at owns
        exact here (registered.single owner holder _ _ owns held same.symm)
    · rw [if_neg same, registered.listed]
      constructor
      · intro ⟨owner, owns⟩
        refine ⟨owner, ?_⟩
        rw [Function.update_of_ne, owns]
        intro here
        rw [here, held] at owns
        exact same (Prod.mk.inj (Option.some.inj owns)).1
      · intro ⟨owner, owns⟩
        by_cases here : owner = holder
        · rw [here, Function.update_self] at owns
          cases owns
        · rw [Function.update_of_ne here] at owns
          exact ⟨owner, owns⟩
  · intro first second one two owns owns' same
    by_cases here : first = holder
    · rw [here, Function.update_self] at owns
      cases owns
    · by_cases there : second = holder
      · rw [there, Function.update_self] at owns'
        cases owns'
      · rw [Function.update_of_ne here] at owns
        rw [Function.update_of_ne there] at owns'
        exact registered.single first second one two owns owns' same

end Registry
