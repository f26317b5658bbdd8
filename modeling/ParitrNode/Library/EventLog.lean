/-!
Logs of events in the order they happened: which event introduces a value, and
what can only have happened after it.
-/

namespace EventLog

variable {Event Value : Type} {mentions : Event → Value → Prop} {log : List Event}

/-- The first event is in the log, with the second after it. -/
def Follows (log : List Event) (first second : Event) : Prop :=
  ∃ before after, log = before ++ first :: after ∧ second ∈ after

def Fresh (mentions : Event → Value → Prop) (log : List Event) (value : Value) : Prop :=
  ∀ event ∈ log, ¬mentions event value

/-- The event is in the log, and no event before it mentions the value. -/
def Introduces (mentions : Event → Value → Prop) (log : List Event) (event : Event) (value : Value) :
    Prop :=
  ∃ before after, log = before ++ event :: after ∧ Fresh mentions before value

theorem Fresh.introduces {value : Value} (fresh : Fresh mentions log value) (event : Event) :
    Introduces mentions (log ++ [event]) event value :=
  ⟨log, [], rfl, fresh⟩

theorem Introduces.append {event : Event} {value : Value}
    (introduces : Introduces mentions log event value) (later : List Event) :
    Introduces mentions (log ++ later) event value := by
  obtain ⟨before, after, split, fresh⟩ := introduces
  refine ⟨before, after ++ later, ?_, fresh⟩
  rw [split, List.append_assoc, List.cons_append]

theorem Introduces.follows {event other : Event} {value : Value}
    (introduces : Introduces mentions log event value) (member : other ∈ log)
    (mention : mentions other value) (different : other ≠ event) : Follows log event other := by
  obtain ⟨before, after, split, fresh⟩ := introduces
  refine ⟨before, after, split, ?_⟩
  rw [split] at member
  rcases List.mem_append.mp member with early | rest
  · exact absurd mention (fresh other early)
  · exact (List.mem_cons.mp rest).resolve_left different

end EventLog
