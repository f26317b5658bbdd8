import ParitrNode.Library.Bytes

/-!
The consensus codec: fixed-width little-endian integers, and byte strings and
vectors behind a canonical `u32` count.
-/

namespace ParitrNode
open ByteCodec

def MAX_CONSENSUS_ALLOCATION : Nat := 8 * 1024 * 1024

inductive CodecError where
  | endOfInput
  | limitExceeded (actual limit : Nat)
  | invalidTag (tag : UInt8)
  | nonCanonical (reason : String)
  | trailingBytes (count : Nat)
  | invalidUtf8
  deriving DecidableEq, Repr

/-! What each `Writer` call appends to the buffer. -/

namespace Writer

def u8 (value : UInt8) : Bytes := [value]

def u16 (value : UInt16) : Bytes := leBytes 2 value.toNat

def u32 (value : UInt32) : Bytes := leBytes 4 value.toNat

def u64 (value : UInt64) : Bytes := leBytes 8 value.toNat

/-- A count that does not fit `u32` panics in the source; here it wraps. No
encoding of that size passes a consensus limit. -/
def count (length : Nat) : Bytes := u32 (UInt32.ofNat length)

def bytes (value : Bytes) : Bytes := count value.length ++ value

@[simp] theorem u16_length (value : UInt16) : (u16 value).length = 2 := leBytes_length _ _

@[simp] theorem u32_length (value : UInt32) : (u32 value).length = 4 := leBytes_length _ _

@[simp] theorem u64_length (value : UInt64) : (u64 value).length = 8 := leBytes_length _ _

@[simp] theorem u8_length (value : UInt8) : (u8 value).length = 1 := rfl

@[simp] theorem count_length (length : Nat) : (count length).length = 4 := leBytes_length _ _

@[simp] theorem bytes_length (value : Bytes) : (bytes value).length = value.length + 4 := by
  simp only [bytes, List.length_append, count_length]
  omega

theorem u64_injective {first second : UInt64} (same : u64 first = u64 second) : first = second :=
  UInt64.toNat_inj.mp (leBytes_injective first.toNat_lt second.toNat_lt same)

end Writer

abbrev Reader (α : Type) := ByteCodec.Reader CodecError α

namespace Reader

def take (count : Nat) : Reader Bytes := fun input =>
  if input.length < count then .error .endOfInput
  else .ok (input.take count, input.drop count)

def u8 : Reader UInt8 := return UInt8.ofNat (leValue (← take 1))

def u16 : Reader UInt16 := return UInt16.ofNat (leValue (← take 2))

def u32 : Reader UInt32 := return UInt32.ofNat (leValue (← take 4))

def u64 : Reader UInt64 := return UInt64.ofNat (leValue (← take 8))

def fixed (width : Nat) : Reader (FixedBytes width) := fun input =>
  if enough : width ≤ input.length then
    .ok (⟨input.take width, by simp [enough]⟩, input.drop width)
  else .error .endOfInput

def bytes (max : Nat) : Reader Bytes := do
  let len := (← u32).toNat
  if len > max ∨ len > MAX_CONSENSUS_ALLOCATION then
    throw (.limitExceeded len (min max MAX_CONSENSUS_ALLOCATION))
  else take len

def vectorLen (max : Nat) : Reader Nat := do
  let len := (← u32).toNat
  if len > max then throw (.limitExceeded len max) else return len

end Reader

/-- `ConsensusDecode::consensus_decode`: the allocation cap, the value, and no
trailing bytes. -/
def consensusDecode {α : Type} (decodeFrom : Reader α) (input : Bytes) : Except CodecError α :=
  if input.length > MAX_CONSENSUS_ALLOCATION then
    .error (.limitExceeded input.length MAX_CONSENSUS_ALLOCATION)
  else match decodeFrom.run input with
    | .error e => .error e
    | .ok (result, rest) =>
      if rest.length = 0 then .ok result else .error (.trailingBytes rest.length)

def Reader.nested {α : Type} (max : Nat) (decodeFrom : Reader α) : Reader α := do
  let inner ← Reader.bytes max
  match consensusDecode decodeFrom inner with
  | .error e => throw e
  | .ok value => return value

theorem consensusDecode_of_reads {α : Type} {decodeFrom : Reader α} {input : Bytes} {value : α}
    (read : Reads decodeFrom input value) (bound : input.length ≤ MAX_CONSENSUS_ALLOCATION) :
    consensusDecode decodeFrom input = .ok value := by
  have whole := read []
  rw [List.append_nil] at whole
  unfold consensusDecode
  rw [if_neg (by omega), whole]
  rfl

section Reads

theorem reads_take (input : Bytes) (count : Nat) (length : input.length = count) :
    Reads (Reader.take count) input input := by
  intro rest
  subst length
  change (if (input ++ rest).length < input.length then _ else _) = _
  rw [if_neg (by rw [List.length_append]; omega), List.take_left, List.drop_left]

private theorem reads_word {α : Type} (width value : Nat) (wrap : Nat → α)
    (bound : value < 256 ^ width) :
    Reads (do return wrap (leValue (← Reader.take width))) (leBytes width value) (wrap value) := by
  have read := (reads_take (leBytes width value) width (by simp)).map
    (fun input => wrap (leValue input))
  simpa only [leValue_leBytes width value bound] using read

theorem reads_u8 (value : UInt8) : Reads Reader.u8 (Writer.u8 value) value := by
  have read := (reads_take [value] 1 rfl).map (fun input => UInt8.ofNat (leValue input))
  simpa [Reader.u8, Writer.u8, leValue] using read

theorem reads_u16 (value : UInt16) : Reads Reader.u16 (Writer.u16 value) value := by
  simpa [Reader.u16, Writer.u16] using reads_word 2 _ UInt16.ofNat value.toNat_lt

theorem reads_u32 (value : UInt32) : Reads Reader.u32 (Writer.u32 value) value := by
  simpa [Reader.u32, Writer.u32] using reads_word 4 _ UInt32.ofNat value.toNat_lt

theorem reads_u64 (value : UInt64) : Reads Reader.u64 (Writer.u64 value) value := by
  simpa [Reader.u64, Writer.u64] using reads_word 8 _ UInt64.ofNat value.toNat_lt

theorem reads_fixed {width : Nat} (value : FixedBytes width) :
    Reads (Reader.fixed width) value.bytes value := by
  intro rest
  have enough : width ≤ (value.bytes ++ rest).length := by
    rw [List.length_append, value.length_eq]
    omega
  change (if _ : width ≤ (value.bytes ++ rest).length then _ else _) = _
  rw [dif_pos enough]
  congr 2
  · apply FixedBytes.ext
    exact List.take_left' value.length_eq
  · exact List.drop_left' value.length_eq

private theorem count_toNat {length : Nat} (bound : length < 2 ^ 32) :
    (UInt32.ofNat length).toNat = length := by
  rw [UInt32.toNat_ofNat', Nat.mod_eq_of_lt bound]

theorem reads_vectorLen {length max : Nat} (bound : length ≤ max) (fits : max < 2 ^ 32) :
    Reads (Reader.vectorLen max) (Writer.count length) length := by
  have read := reads_u32 (UInt32.ofNat length)
  rw [← List.append_nil (Writer.count length)]
  refine read.bind ?_
  rw [count_toNat (by omega), if_neg (by omega)]
  exact Reads.pure length

theorem reads_bytes {value : Bytes} {max : Nat} (bound : value.length ≤ max)
    (fits : max ≤ MAX_CONSENSUS_ALLOCATION) : Reads (Reader.bytes max) (Writer.bytes value) value := by
  have small : value.length ≤ MAX_CONSENSUS_ALLOCATION := by omega
  have read := reads_u32 (UInt32.ofNat value.length)
  refine read.bind ?_
  rw [count_toNat (by simp only [MAX_CONSENSUS_ALLOCATION] at small; omega), if_neg (by omega)]
  exact reads_take value _ rfl

theorem reads_nested {α : Type} {decodeFrom : Reader α} {encoded : Bytes} {value : α} {max : Nat}
    (read : Reads decodeFrom encoded value) (bound : encoded.length ≤ max)
    (fits : max ≤ MAX_CONSENSUS_ALLOCATION) :
    Reads (Reader.nested max decodeFrom) (Writer.bytes encoded) value := by
  have outer := reads_bytes bound fits
  rw [← List.append_nil (Writer.bytes encoded)]
  refine outer.bind ?_
  rw [consensusDecode_of_reads read (by omega)]
  exact Reads.pure value

end Reads

/-! What the writers separate, without the limits of the decoder. -/

section Separates

theorem separates_u16 : Separates (fun _ => True) Writer.u16 :=
  Separates.ofReads Reader.u16 (fun value _ => reads_u16 value)

theorem separates_u64 : Separates (fun _ => True) Writer.u64 :=
  Separates.ofReads Reader.u64 (fun value _ => reads_u64 value)

theorem separates_fixed (width : Nat) :
    Separates (fun _ => True) (fun value : FixedBytes width => value.bytes) :=
  Separates.ofReads (Reader.fixed width) (fun value _ => reads_fixed value)

theorem separates_count : Separates (· < 2 ^ 32) Writer.count := by
  have words : Separates (fun _ => True) Writer.u32 :=
    Separates.ofReads Reader.u32 (fun value _ => reads_u32 value)
  refine words.comap UInt32.ofNat (fun _ _ => trivial) (fun _ _ => rfl) ?_
  intro first second left right same
  rw [← count_toNat left, same, count_toNat right]

theorem separates_vector {α : Type} {domain : α → Prop} {encode : α → Bytes}
    (item : Separates domain encode) :
    Separates (fun items : List α => items.length < 2 ^ 32 ∧ ∀ value ∈ items, domain value)
      (fun items => Writer.count items.length ++ items.flatMap encode) := by
  intro first second after after' left right same
  simp only [List.append_assoc] at same
  obtain ⟨lengths, tails⟩ := separates_count _ _ _ _ left.1 right.1 same
  exact item.flatMap lengths left.2 right.2 tails

theorem separates_bytes : Separates (fun value : Bytes => value.length < 2 ^ 32) Writer.bytes := by
  intro first second after after' left right same
  simp only [Writer.bytes, List.append_assoc] at same
  obtain ⟨lengths, tails⟩ := separates_count _ _ _ _ left right same
  exact List.append_inj tails lengths

theorem separates_object {α : Type} {domain : α → Prop} {encode : α → Bytes}
    (item : Separates domain encode) :
    Separates (fun value => domain value ∧ (encode value).length < 2 ^ 32)
      (fun value => Writer.bytes (encode value)) :=
  separates_bytes.comap encode (fun _ inside => inside.2) (fun _ _ => rfl)
    (fun _ _ left right same => item.injective left.1 right.1 same)

end Separates

end ParitrNode
