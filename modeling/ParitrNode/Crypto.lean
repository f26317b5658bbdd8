import ParitrNode.Codec

/-!
Hashes, addresses and signatures. SHA-256, RIPEMD-160 and secp256k1 come from
other crates and are parameters; everything built on them is here.
-/

namespace ParitrNode
open ByteCodec

abbrev Hash32 := FixedBytes 32

instance : Std.TransOrd Hash32 := inferInstanceAs (Std.TransOrd (FixedBytes 32))

instance : LawfulBEq Hash32 := inferInstance

def Hash32.ZERO : Hash32 := FixedBytes.zero 32

/-- The third-party primitives. A secp256k1 key stands for its uncompressed
SEC1 form and a signature for its compact form. -/
class Crypto where
  sha256 : Bytes → Hash32
  ripemd160 : Bytes → FixedBytes 20
  publicKeyFromSlice : Bytes → Option (FixedBytes 65)
  signatureFromCompact : FixedBytes 64 → Option (FixedBytes 64)
  normalizeS : FixedBytes 64 → FixedBytes 64
  verifyEcdsa : Hash32 → FixedBytes 64 → FixedBytes 65 → Bool

/-- Primitives under which nothing hashes, parses or verifies. -/
instance : Inhabited Crypto where
  default :=
    { sha256 := fun _ => Hash32.ZERO
      ripemd160 := fun _ => FixedBytes.zero 20
      publicKeyFromSlice := fun _ => none
      signatureFromCompact := fun _ => none
      normalizeS := id
      verifyEcdsa := fun _ _ _ => false }

def ascii (text : String) : Bytes := text.toList.map (fun c => UInt8.ofNat c.toNat)

section Hashes

variable [Crypto]

def sha256d (data : Bytes) : Hash32 := Crypto.sha256 (Crypto.sha256 data).bytes

def domainHash (domain : String) (data : Bytes) : Hash32 :=
  sha256d (leBytes 4 (ascii domain).length ++ ascii domain ++ leBytes 8 data.length ++ data)

def hash160 (data : Bytes) : FixedBytes 20 := Crypto.ripemd160 (Crypto.sha256 data).bytes

/-- `domain_hash` has no collision among these (domain, data) inputs. -/
def CollisionFree (inputs : Set (String × Bytes)) : Prop :=
  ∀ first ∈ inputs, ∀ second ∈ inputs,
    domainHash first.1 first.2 = domainHash second.1 second.2 → first = second

theorem CollisionFree.mono {inputs fewer : Set (String × Bytes)} (free : CollisionFree inputs)
    (inside : fewer ⊆ inputs) : CollisionFree fewer :=
  fun first left second right same => free first (inside left) second (inside right) same

theorem CollisionFree.data_eq {inputs : Set (String × Bytes)} (free : CollisionFree inputs)
    {domain : String} {first second : Bytes} (left : (domain, first) ∈ inputs)
    (right : (domain, second) ∈ inputs)
    (same : domainHash domain first = domainHash domain second) : first = second :=
  congrArg Prod.snd (free _ left _ right same)

theorem CollisionFree.domain_eq {inputs : Set (String × Bytes)} (free : CollisionFree inputs)
    {domain domain' : String} {first second : Bytes} (left : (domain, first) ∈ inputs)
    (right : (domain', second) ∈ inputs)
    (same : domainHash domain first = domainHash domain' second) : domain = domain' :=
  congrArg Prod.fst (free _ left _ right same)

end Hashes

inductive CryptoError where
  | invalidHash
  | invalidAddress
  | addressVersion (version : UInt8)
  | addressChecksum
  | nonCanonicalAddress
  | invalidPublicKey
  | invalidSignature
  | highSignatureS
  | senderMismatch
  deriving DecidableEq, Repr

def ADDRESS_VERSION : UInt8 := 55

/-- An address is built only with its version byte and checksum in place, so
the 20-byte key hash determines its 25 bytes. -/
@[ext] structure Address where
  keyHash : FixedBytes 20
  deriving DecidableEq

namespace Address

def fromPublicKeyHash (keyHash : FixedBytes 20) : Address := ⟨keyHash⟩

instance : Ord Address := ⟨compareOn keyHash⟩

instance : Std.TransOrd Address := inferInstanceAs (Std.TransCmp (compareOn keyHash))

instance : Std.LawfulEqOrd Address where
  eq_of_compare same := Address.ext (Std.LawfulEqOrd.eq_of_compare same)

variable [Crypto]

def asBytes (address : Address) : Bytes :=
  (ADDRESS_VERSION :: address.keyHash.bytes) ++
    (sha256d (ADDRESS_VERSION :: address.keyHash.bytes)).bytes.take 4

def fromPublicKey (publicKey : FixedBytes 65) : Address :=
  fromPublicKeyHash (hash160 publicKey.bytes)

def fromBytes (bytes : FixedBytes 25) : Except CryptoError Address :=
  if bytes.bytes.headD 0 ≠ ADDRESS_VERSION then .error (.addressVersion (bytes.bytes.headD 0))
  else if (sha256d (bytes.bytes.take 21)).bytes.take 4 ≠ bytes.bytes.drop 21 then
    .error .addressChecksum
  else .ok ⟨(bytes.bytes.drop 1).take 20, by simp⟩

def decodeFrom : Reader Address := do
  match fromBytes (← Reader.fixed 25) with
  | .ok address => return address
  | .error _ => throw (.nonCanonical "invalid address")

@[simp] theorem asBytes_length (address : Address) : address.asBytes.length = 25 := by
  simp [asBytes]

theorem asBytes_injective {first second : Address} (same : first.asBytes = second.asBytes) :
    first = second := by
  have heads := List.append_inj_left same (by simp)
  exact Address.ext (FixedBytes.ext (List.cons.inj heads).2)

theorem fromBytes_asBytes (address : Address) :
    fromBytes ⟨address.asBytes, address.asBytes_length⟩ = .ok address := by
  have payload : address.asBytes.take 21 = ADDRESS_VERSION :: address.keyHash.bytes :=
    List.take_left' (by simp)
  have checksum : address.asBytes.drop 21 =
      (sha256d (ADDRESS_VERSION :: address.keyHash.bytes)).bytes.take 4 :=
    List.drop_left' (by simp)
  unfold fromBytes
  simp only [payload, checksum]
  rw [if_neg (by simp [asBytes]), if_neg (by simp)]
  congr 1
  ext1
  ext1
  change (address.asBytes.drop 1).take 20 = address.keyHash.bytes
  simp [asBytes]

theorem reads (address : Address) : Reads decodeFrom address.asBytes address := by
  have read := reads_fixed (⟨address.asBytes, address.asBytes_length⟩ : FixedBytes 25)
  rw [← List.append_nil address.asBytes]
  refine read.bind ?_
  rw [fromBytes_asBytes]
  exact Reads.pure address

/-- The order of the key hashes is the byte order of the encoded addresses. -/
theorem compare_eq_asBytes (first second : Address) :
    compare first second = compare first.asBytes second.asBytes := by
  have lexicographic : ∀ (left right after after' : Bytes), left.length = right.length →
      compare (left ++ after) (right ++ after') = (compare left right).then (compare after after') := by
    intro left right after after' lengths
    induction left generalizing right with
    | nil =>
      cases right with
      | nil => rfl
      | cons byte rest => simp at lengths
    | cons byte rest ih =>
      cases right with
      | nil => simp at lengths
      | cons other others =>
        change compare (byte :: (rest ++ after)) (other :: (others ++ after')) = _
        rw [List.compare_cons_cons, List.compare_cons_cons, ih others (by simpa using lengths)]
        cases compare byte other <;> rfl
  have version : compare ADDRESS_VERSION ADDRESS_VERSION = Ordering.eq := Std.ReflCmp.compare_self
  unfold asBytes
  rw [lexicographic _ _ _ _ (by simp), List.compare_cons_cons, version]
  change compare first.keyHash.bytes second.keyHash.bytes =
    (compare first.keyHash.bytes second.keyHash.bytes).then _
  cases order : compare first.keyHash.bytes second.keyHash.bytes with
  | lt => rfl
  | gt => rfl
  | eq =>
    rw [Std.LawfulEqOrd.eq_of_compare order]
    exact Std.ReflCmp.compare_self.symm

end Address

/-- The signature is checked last, after the key's address and the low-S rule. -/
def parseAndValidateSignature [Crypto] (sender : Address) (publicKey : Bytes)
    (signature : FixedBytes 64) (digest : Hash32) : Except CryptoError Unit :=
  match Crypto.publicKeyFromSlice publicKey with
  | none => .error .invalidPublicKey
  | some publicKey =>
    if Address.fromPublicKey publicKey ≠ sender then .error .senderMismatch
    else match Crypto.signatureFromCompact signature with
      | none => .error .invalidSignature
      | some signature =>
        if Crypto.normalizeS signature ≠ signature then .error .highSignatureS
        else if Crypto.verifyEcdsa digest signature publicKey then .ok ()
        else .error .invalidSignature

end ParitrNode
