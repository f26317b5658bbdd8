import Mathlib.Algebra.Order.BigOperators.Group.Finset
import Mathlib.Algebra.Order.Ring.Nat
import Mathlib.Data.Nat.Log

/-!
Byte strings with little-endian integers and fixed-width fields, a reader over
the remaining input, and the two facts a wire format is used for: a reader
returns what a writer appended, and an encoding separates its values.
-/

namespace ByteCodec

abbrev Bytes := List UInt8

/-- The `width` low bytes of a number, least significant first. -/
def leBytes : Nat → Nat → Bytes
  | 0, _ => []
  | width + 1, value => UInt8.ofNat (value % 256) :: leBytes width (value / 256)

def leValue : Bytes → Nat
  | [] => 0
  | byte :: rest => byte.toNat + 256 * leValue rest

@[simp] theorem leBytes_length (width value : Nat) : (leBytes width value).length = width := by
  induction width generalizing value with
  | zero => rfl
  | succ width ih => simp [leBytes, ih]

theorem leValue_leBytes (width value : Nat) (bound : value < 256 ^ width) :
    leValue (leBytes width value) = value := by
  induction width generalizing value with
  | zero => simp only [Nat.pow_zero] at bound; simp only [leBytes, leValue]; omega
  | succ width ih =>
    have quotient : value / 256 < 256 ^ width := by
      rw [Nat.div_lt_iff_lt_mul (by decide)]
      simpa only [Nat.pow_succ] using bound
    have low : (UInt8.ofNat (value % 256)).toNat = value % 256 := by
      rw [UInt8.toNat_ofNat']
      omega
    simp only [leBytes, leValue, ih _ quotient, low]
    omega

theorem leValue_lt (bytes : Bytes) : leValue bytes < 256 ^ bytes.length := by
  induction bytes with
  | nil => simp [leValue]
  | cons byte rest ih =>
    have small := byte.toNat_lt
    simp only [leValue, List.length_cons, Nat.pow_succ]
    omega

theorem leBytes_injective {width first second : Nat} (firstBound : first < 256 ^ width)
    (secondBound : second < 256 ^ width) (same : leBytes width first = leBytes width second) :
    first = second := by
  rw [← leValue_leBytes width first firstBound, same, leValue_leBytes width second secondBound]

theorem leBytes_leValue (bytes : Bytes) : leBytes bytes.length (leValue bytes) = bytes := by
  induction bytes with
  | nil => rfl
  | cons byte rest ih =>
    have small := byte.toNat_lt
    have low : (byte.toNat + 256 * leValue rest) % 256 = byte.toNat := by omega
    have high : (byte.toNat + 256 * leValue rest) / 256 = leValue rest := by omega
    rw [List.length_cons, leBytes, leValue, low, high, ih, UInt8.ofNat_toNat]

/-- A byte string of known length; a value of another length cannot be built. -/
@[ext] structure FixedBytes (width : Nat) where
  bytes : Bytes
  length_eq : bytes.length = width
  deriving DecidableEq

namespace FixedBytes

variable {width : Nat}

attribute [simp] length_eq

def zero (width : Nat) : FixedBytes width := ⟨List.replicate width 0, by simp⟩

def ofNat (width value : Nat) : FixedBytes width := ⟨leBytes width value, by simp⟩

instance : Inhabited (FixedBytes width) := ⟨zero width⟩

/-- Byte-wise lexicographic order, first byte most significant. -/
instance : Ord (FixedBytes width) := ⟨compareOn bytes⟩

instance : Std.TransOrd (FixedBytes width) :=
  inferInstanceAs (Std.TransCmp (compareOn bytes))

instance : Std.LawfulEqOrd (FixedBytes width) where
  eq_of_compare same := FixedBytes.ext (Std.LawfulEqOrd.eq_of_compare same)

instance : LT (FixedBytes width) := ltOfOrd

instance : DecidableRel (α := FixedBytes width) (· < ·) :=
  inferInstanceAs (DecidableRel (fun a b => compare a b = Ordering.lt))

theorem lt_irrefl (value : FixedBytes width) : ¬value < value := by
  intro below
  have self : compare value value = Ordering.eq := Std.ReflCmp.compare_self
  have strict : compare value value = Ordering.lt := below
  rw [self] at strict
  cases strict

theorem lt_trans {first second third : FixedBytes width} (left : first < second)
    (right : second < third) : first < third :=
  Std.TransCmp.lt_trans left right

theorem lt_trichotomy (first second : FixedBytes width) :
    first < second ∨ first = second ∨ second < first := by
  cases order : compare first second with
  | lt => exact Or.inl order
  | eq => exact Or.inr (Or.inl (Std.LawfulEqOrd.eq_of_compare order))
  | gt => exact Or.inr (Or.inr (Std.OrientedCmp.gt_iff_lt.mp order))

private theorem isLE_cons {byte other : UInt8} {rest others : Bytes} (head : byte ≤ other)
    (tail : (compare rest others).isLE) : (compare (byte :: rest) (other :: others)).isLE := by
  have heads : (compare byte other).isLE := (Std.LawfulOrderOrd.isLE_compare byte other).mpr head
  rw [List.compare_cons_cons]
  cases order : compare byte other with
  | lt => rfl
  | eq => exact tail
  | gt => rw [order] at heads; cases heads

theorem replicate_zero_le (bytes : Bytes) :
    (compare (List.replicate bytes.length 0) bytes).isLE := by
  induction bytes with
  | nil => rfl
  | cons byte rest ih => exact isLE_cons (UInt8.le_iff_toNat_le.mpr (Nat.zero_le _)) ih

theorem le_replicate_max (bytes : Bytes) :
    (compare bytes (List.replicate bytes.length 0xff)).isLE := by
  induction bytes with
  | nil => rfl
  | cons byte rest ih =>
    have bound := byte.toNat_lt
    refine isLE_cons (UInt8.le_iff_toNat_le.mpr ?_) ih
    change byte.toNat ≤ 255
    omega

end FixedBytes

/-! A reader consumes a prefix of the remaining input or fails. -/

section Readers

variable {ε α β : Type}

abbrev Reader (ε α : Type) := StateT Bytes (Except ε) α

/-- The reader returns `value` from exactly these bytes, whatever follows them. -/
def Reads (reader : Reader ε α) (bytes : Bytes) (value : α) : Prop :=
  ∀ rest, reader.run (bytes ++ rest) = .ok (value, rest)

theorem Reads.pure (value : α) : Reads (Pure.pure value : Reader ε α) [] value := by
  intro rest
  rfl

theorem Reads.bind {reader : Reader ε α} {next : α → Reader ε β} {first second : Bytes}
    {value : α} {result : β} (head : Reads reader first value)
    (tail : Reads (next value) second result) : Reads (reader >>= next) (first ++ second) result := by
  intro rest
  have start := head (second ++ rest)
  rw [List.append_assoc, StateT.run_bind, start]
  exact tail rest

/-- The last field of a record: the remaining computation only wraps the value. -/
theorem Reads.map {reader : Reader ε α} {bytes : Bytes} {value : α} (wrap : α → β)
    (read : Reads reader bytes value) :
    Reads (reader >>= fun item => Pure.pure (wrap item)) bytes (wrap value) := by
  intro rest
  have start := read rest
  rw [StateT.run_bind, start]
  rfl

def readMany (reader : Reader ε α) : Nat → Reader ε (List α)
  | 0 => Pure.pure []
  | count + 1 => do
    let item ← reader
    let items ← readMany reader count
    return item :: items

theorem Reads.many {reader : Reader ε α} {encode : α → Bytes} (items : List α)
    (each : ∀ item ∈ items, Reads reader (encode item) item) :
    Reads (readMany reader items.length) (items.flatMap encode) items := by
  induction items with
  | nil => exact Reads.pure []
  | cons item items ih =>
    simp only [List.length_cons, readMany, List.flatMap_cons]
    have tail := ih (fun other member => each other (List.mem_cons_of_mem _ member))
    exact (each item List.mem_cons_self).bind (tail.map (item :: ·))

end Readers

theorem flatMap_length_const {α : Type} {encode : α → Bytes} (width : Nat) (items : List α)
    (each : ∀ item ∈ items, (encode item).length = width) :
    (items.flatMap encode).length = items.length * width := by
  induction items with
  | nil => simp
  | cons item rest ih =>
    rw [List.flatMap_cons, List.length_append, each item List.mem_cons_self,
      ih (fun other member => each other (List.mem_cons_of_mem _ member)), List.length_cons,
      Nat.succ_mul, Nat.add_comm]

theorem flatMap_length_le {α : Type} {encode : α → Bytes} (width : Nat) (items : List α)
    (each : ∀ item ∈ items, (encode item).length ≤ width) :
    (items.flatMap encode).length ≤ items.length * width := by
  induction items with
  | nil => simp
  | cons item rest ih =>
    have head := each item List.mem_cons_self
    have tail := ih (fun other member => each other (List.mem_cons_of_mem _ member))
    rw [List.flatMap_cons, List.length_append, List.length_cons, Nat.succ_mul]
    omega

theorem length_le_flatMap {α : Type} (encode : α → Bytes) (items : List α)
    (each : ∀ item ∈ items, 0 < (encode item).length) :
    items.length ≤ (items.flatMap encode).length := by
  induction items with
  | nil => exact Nat.le_refl _
  | cons item rest ih =>
    have head := each item List.mem_cons_self
    have tail := ih (fun other member => each other (List.mem_cons_of_mem _ member))
    rw [List.flatMap_cons, List.length_append, List.length_cons]
    omega

/-! Separation: two encodings followed by anything agree only on equal values. -/

section Separation

variable {α β : Type}

def Separates (domain : α → Prop) (encode : α → Bytes) : Prop :=
  ∀ first second after after', domain first → domain second →
    encode first ++ after = encode second ++ after' → first = second ∧ after = after'

theorem Separates.injective {domain : α → Prop} {encode : α → Bytes}
    (separated : Separates domain encode) {first second : α} (left : domain first)
    (right : domain second) (same : encode first = encode second) : first = second :=
  (separated first second [] [] left right (by simp only [List.append_nil, same])).1

theorem Separates.ofReads {ε : Type} {domain : α → Prop} {encode : α → Bytes} (reader : Reader ε α)
    (reads : ∀ value, domain value → Reads reader (encode value) value) : Separates domain encode := by
  intro first second after after' left right same
  have start := reads first left after
  have start' := reads second right after'
  rw [same, start'] at start
  cases start
  exact ⟨rfl, rfl⟩

theorem Separates.mono {domain narrower : α → Prop} {encode : α → Bytes}
    (separated : Separates domain encode) (inside : ∀ value, narrower value → domain value) :
    Separates narrower encode := by
  intro first second after after' left right same
  exact separated first second after after' (inside _ left) (inside _ right) same

theorem Separates.pair {domain : α → Prop} {domain' : β → Prop} {encode : α → Bytes}
    {encode' : β → Bytes} (first : Separates domain encode) (second : Separates domain' encode') :
    Separates (fun value : α × β => domain value.1 ∧ domain' value.2)
      (fun value => encode value.1 ++ encode' value.2) := by
  rintro ⟨left, left'⟩ ⟨right, right'⟩ after after' inLeft inRight same
  simp only [List.append_assoc] at same
  obtain ⟨heads, tails⟩ := first left right _ _ inLeft.1 inRight.1 same
  obtain ⟨heads', rest⟩ := second left' right' _ _ inLeft.2 inRight.2 tails
  exact ⟨Prod.ext heads heads', rest⟩

/-- An encoding of a value through an injective view of it. -/
theorem Separates.comap {domain : α → Prop} {domain' : β → Prop} {encode : α → Bytes}
    {encode' : β → Bytes} (view : β → α) (separated : Separates domain encode)
    (inside : ∀ value, domain' value → domain (view value))
    (viewed : ∀ value, domain' value → encode' value = encode (view value))
    (injective : ∀ first second, domain' first → domain' second →
      view first = view second → first = second) : Separates domain' encode' := by
  intro first second after after' left right same
  rw [viewed _ left, viewed _ right] at same
  obtain ⟨views, rest⟩ := separated _ _ _ _ (inside _ left) (inside _ right) same
  exact ⟨injective _ _ left right views, rest⟩

theorem Separates.flatMap {domain : α → Prop} {encode : α → Bytes}
    (separated : Separates domain encode) {first second : List α} {after after' : Bytes}
    (length : first.length = second.length) (left : ∀ item ∈ first, domain item)
    (right : ∀ item ∈ second, domain item)
    (same : first.flatMap encode ++ after = second.flatMap encode ++ after') :
    first = second ∧ after = after' := by
  induction first generalizing second with
  | nil =>
    cases second with
    | nil => exact ⟨rfl, by simpa using same⟩
    | cons item items => simp at length
  | cons item items ih =>
    cases second with
    | nil => simp at length
    | cons other others =>
      simp only [List.flatMap_cons, List.append_assoc] at same
      obtain ⟨heads, tails⟩ := separated item other _ _ (left _ List.mem_cons_self)
        (right _ List.mem_cons_self) same
      obtain ⟨rest, rests⟩ := ih (by simpa using length)
        (fun value member => left value (List.mem_cons_of_mem _ member))
        (fun value member => right value (List.mem_cons_of_mem _ member)) tails
      exact ⟨by rw [heads, rest], rests⟩

end Separation

end ByteCodec
