import ParitrNode.Library.Bytes

/-!
Canonical formats: a reader that returns every value of a domain from its
encoding, and returns nothing from any other bytes. A record is put together
field by field, both directions at once.
-/

namespace ByteCodec

variable {ε α β : Type}

/-- Running one reader after another, from the successful end. -/
theorem run_bind_ok {reader : Reader ε α} {next : α → Reader ε β} {input rest : Bytes} {value : β} :
    (reader >>= next).run input = .ok (value, rest) ↔
      ∃ first middle, reader.run input = .ok (first, middle) ∧
        (next first).run middle = .ok (value, rest) := by
  rw [StateT.run_bind]
  cases reader.run input with
  | error error => exact ⟨fun ran => (nomatch ran), fun ⟨_, _, ran, _⟩ => (nomatch ran)⟩
  | ok result =>
    constructor
    · intro ran
      exact ⟨result.1, result.2, rfl, ran⟩
    · intro ⟨first, middle, same, ran⟩
      cases same
      exact ran

structure Recodes (reader : Reader ε α) (domain : α → Prop) (encode : α → Bytes) : Prop where
  reads : ∀ value, domain value → Reads reader (encode value) value
  exact : ∀ input value rest, reader.run input = .ok (value, rest) →
    domain value ∧ input = encode value ++ rest

namespace Recodes

variable {reader : Reader ε α} {domain : α → Prop} {encode : α → Bytes}

theorem congr (format : Recodes reader domain encode) {domain' : α → Prop}
    (same : ∀ value, domain' value ↔ domain value) : Recodes reader domain' encode where
  reads value inside := format.reads value ((same value).mp inside)
  exact input value rest ran := by
    obtain ⟨inside, bytes⟩ := format.exact input value rest ran
    exact ⟨(same value).mpr inside, bytes⟩

/-- A first field `field`, and the rest of the record once it is known. -/
theorem bind {next : α → Reader ε β} {whole : β → Prop} {later : β → Bytes} (field : β → α)
    (head : Recodes reader domain encode) (inside : ∀ value, whole value → domain (field value))
    (tail : ∀ first, domain first →
      Recodes (next first) (fun value => whole value ∧ field value = first) later) :
    Recodes (reader >>= next) whole (fun value => encode (field value) ++ later value) where
  reads value holds := by
    have first := inside value holds
    exact (head.reads (field value) first).bind
      ((tail (field value) first).reads value ⟨holds, rfl⟩)
  exact input value rest ran := by
    obtain ⟨first, middle, began, later⟩ := run_bind_ok.mp ran
    obtain ⟨start, bytes⟩ := head.exact input first middle began
    obtain ⟨⟨holds, same⟩, remaining⟩ := (tail first start).exact middle value rest later
    refine ⟨holds, ?_⟩
    rw [bytes, remaining, same, List.append_assoc]

/-- The last field of a record: all that is left is to wrap it. -/
theorem last {next : α → Reader ε β} {whole : β → Prop} (field : β → α) (wrap : α → β)
    (head : Recodes reader domain encode)
    (tail : ∀ first, domain first → next first = Pure.pure (wrap first))
    (wraps : ∀ first, domain first → whole (wrap first) ∧ field (wrap first) = first)
    (only : ∀ value, whole value → domain (field value) ∧ value = wrap (field value)) :
    Recodes (reader >>= next) whole (fun value => encode (field value)) where
  reads value holds := by
    obtain ⟨first, same⟩ := only value holds
    rw [← List.append_nil (encode (field value))]
    refine (head.reads (field value) first).bind ?_
    rw [tail (field value) first, ← same]
    exact Reads.pure value
  exact input value rest ran := by
    obtain ⟨first, middle, began, later⟩ := run_bind_ok.mp ran
    obtain ⟨start, bytes⟩ := head.exact input first middle began
    rw [tail first start] at later
    cases later
    obtain ⟨holds, same⟩ := wraps first start
    exact ⟨holds, by rw [same]; exact bytes⟩

/-- `count` items, for a list that is that long. -/
theorem many (format : Recodes reader domain encode) (count : Nat) :
    Recodes (readMany reader count)
      (fun items : List α => items.length = count ∧ ∀ item ∈ items, domain item)
      (fun items => items.flatMap encode) where
  reads items all := by
    rw [← all.1]
    exact Reads.many items (fun item member => format.reads item (all.2 item member))
  exact := by
    induction count with
    | zero =>
      intro input items rest ran
      cases ran
      exact ⟨⟨rfl, fun item inside => (nomatch inside)⟩, rfl⟩
    | succ count ih =>
      intro input items rest ran
      rw [readMany] at ran
      obtain ⟨first, middle, began, later⟩ := run_bind_ok.mp ran
      obtain ⟨others, after, continued, wrapped⟩ := run_bind_ok.mp later
      obtain ⟨start, bytes⟩ := format.exact input first middle began
      obtain ⟨⟨length, each⟩, remaining⟩ := ih middle others after continued
      cases wrapped
      refine ⟨⟨by rw [List.length_cons, length], ?_⟩, ?_⟩
      · intro item member
        cases List.mem_cons.mp member with
        | inl same => exact same ▸ start
        | inr inside => exact each item inside
      · rw [List.flatMap_cons, List.append_assoc, ← remaining]
        exact bytes

theorem wrapped (format : Recodes reader domain encode) {wrap : α → β} {input rest : Bytes}
    {value : β} (ran : (reader >>= fun inner => Pure.pure (wrap inner)).run input =
      .ok (value, rest)) :
    ∃ inner, value = wrap inner ∧ domain inner ∧ input = encode inner ++ rest := by
  obtain ⟨inner, middle, began, later⟩ := run_bind_ok.mp ran
  obtain ⟨inside, bytes⟩ := format.exact input inner middle began
  cases later
  exact ⟨inner, rfl, inside, bytes⟩

end Recodes

end ByteCodec
