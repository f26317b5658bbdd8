import ParitrNode.Wire
import ParitrNode.WireFormat

/-! Frames: the wire format of all twelve messages is canonical and lossless. -/

namespace ParitrNode
open ByteCodec

section Strings

theorem recodes_string {max : Nat} (fits : max ≤ MAX_CONSENSUS_ALLOCATION) :
    Recodes (Reader.string max) (fun text => (utf8 text).length ≤ max) Writer.string where
  reads text within := by
    rw [← List.append_nil (Writer.string text)]
    refine (reads_bytes within fits).bind ?_
    have same : String.fromUTF8? ⟨(utf8 text).toArray⟩ = some text :=
      dif_pos (show ByteArray.IsValidUTF8 ⟨(utf8 text).toArray⟩ from text.isValidUTF8)
    rw [same]
    exact Reads.pure text
  exact input text rest ran := by
    obtain ⟨bytes, middle, began, later⟩ := run_bind_ok.mp ran
    obtain ⟨within, start⟩ := (recodes_bytes fits).exact input bytes middle began
    split at later
    · next value parsed =>
      cases later
      have same : utf8 text = bytes := by
        unfold String.fromUTF8? at parsed
        split at parsed
        · cases parsed
          rfl
        · cases parsed
      rw [Writer.string, same]
      exact ⟨within, start⟩
    · cases later

end Strings

theorem ObjectKind.tryFrom_ok {tag : UInt8} {kind : ObjectKind} :
    ObjectKind.tryFrom tag = .ok kind ↔ tag = kind.tag := by
  constructor
  · intro known
    unfold ObjectKind.tryFrom at known
    split at known <;> cases known <;> rfl
  · intro same
    rw [same]
    cases kind <;> rfl

theorem recodes_kind :
    Recodes ObjectKind.decodeFrom (fun _ => True) (fun kind => Writer.u8 kind.tag) where
  reads kind _ := by
    rw [← List.append_nil (Writer.u8 kind.tag)]
    refine (reads_u8 kind.tag).bind ?_
    rw [ObjectKind.tryFrom_ok.mpr rfl]
    exact Reads.pure kind
  exact input kind rest ran := by
    obtain ⟨tag, middle, began, later⟩ := run_bind_ok.mp ran
    obtain ⟨-, start⟩ := recodes_u8.exact input tag middle began
    split at later
    · next value known =>
      cases later
      rw [ObjectKind.tryFrom_ok.mp known] at start
      exact ⟨trivial, start⟩
    · cases later

structure Hello.Fits (hello : Hello) : Prop where
  chainId : (utf8 hello.chainId).length ≤ 64
  nodePublicKey : hello.nodePublicKey.length ≤ 33
  listenUrl : (utf8 hello.listenUrl).length ≤ 512
  signature : hello.signature.length ≤ 64

theorem recodes_hello : Recodes Hello.decodeFrom Hello.Fits Hello.consensusEncode := by
  refine Recodes.bind Hello.protocol recodes_u16 (fun _ _ => trivial) fun protocol _ => ?_
  refine Recodes.bind Hello.chainId (recodes_string (by decide)) (fun hello inside =>
    inside.1.chainId) fun chainId chainIdFits => ?_
  refine Recodes.bind Hello.genesis (recodes_fixed 32) (fun _ _ => trivial) fun genesis _ => ?_
  refine Recodes.bind Hello.nodePublicKey (recodes_bytes (by decide)) (fun hello inside =>
    inside.1.1.1.nodePublicKey) fun nodePublicKey keyFits => ?_
  refine Recodes.bind Hello.timestamp recodes_u64 (fun _ _ => trivial) fun timestamp _ => ?_
  refine Recodes.bind Hello.challenge (recodes_fixed 32) (fun _ _ => trivial) fun challenge _ => ?_
  refine Recodes.bind Hello.responseTo (recodes_fixed 32) (fun _ _ => trivial)
    fun responseTo _ => ?_
  refine Recodes.bind Hello.height recodes_u64 (fun _ _ => trivial) fun height _ => ?_
  refine Recodes.bind Hello.tip (recodes_fixed 32) (fun _ _ => trivial) fun tip _ => ?_
  refine Recodes.bind Hello.cumulativeWork (recodes_fixed 32) (fun _ _ => trivial)
    fun cumulativeWork _ => ?_
  refine Recodes.bind Hello.listenUrl (recodes_string (by decide)) (fun hello inside =>
    inside.1.1.1.1.1.1.1.1.1.1.listenUrl) fun listenUrl urlFits => ?_
  refine Recodes.last Hello.signature
    (fun signature => ⟨protocol, chainId, genesis, nodePublicKey, timestamp, challenge, responseTo,
      height, tip, cumulativeWork, listenUrl, signature⟩) (recodes_bytes (by decide))
    (fun _ _ => rfl) ?_ ?_
  · intro signature length
    exact ⟨⟨⟨⟨⟨⟨⟨⟨⟨⟨⟨⟨⟨chainIdFits, keyFits, urlFits, length⟩, rfl⟩, rfl⟩, rfl⟩, rfl⟩, rfl⟩, rfl⟩,
      rfl⟩, rfl⟩, rfl⟩, rfl⟩, rfl⟩, rfl⟩
  · intro hello inside
    obtain ⟨⟨⟨⟨⟨⟨⟨⟨⟨⟨⟨fits, rfl⟩, rfl⟩, rfl⟩, rfl⟩, rfl⟩, rfl⟩, rfl⟩, rfl⟩, rfl⟩, rfl⟩, rfl⟩ := inside
    exact ⟨fits.signature, rfl⟩

theorem Hello.Fits.size {hello : Hello} (fits : hello.Fits) :
    hello.consensusEncode.length ≤ 2048 := by
  obtain ⟨chainId, key, url, signature⟩ := fits
  simp only [Hello.consensusEncode, Writer.string, List.length_append, Writer.u16_length,
    Writer.u64_length, Writer.bytes_length, FixedBytes.length_eq]
  omega

namespace WireMessage

/-! Peer URLs are read against those before them. -/

theorem decodePeers_reads {peers unique : List String}
    (within : ∀ peer ∈ peers, (utf8 peer).length ≤ 512) (distinct : peers.Nodup)
    (fresh : ∀ peer ∈ peers, peer ∉ unique) :
    Reads (decodePeers peers.length unique) (peers.flatMap Writer.string) peers := by
  induction peers generalizing unique with
  | nil => exact Reads.pure []
  | cons peer peers ih =>
    rw [List.nodup_cons] at distinct
    have apart : ∀ other ∈ peers, other ∉ peer :: unique := by
      intro other member again
      cases List.mem_cons.mp again with
      | inl same => exact distinct.1 (same ▸ member)
      | inr earlier => exact fresh other (List.mem_cons_of_mem _ member) earlier
    have tail := ih (fun other member => within other (List.mem_cons_of_mem _ member)) distinct.2
      apart
    rw [List.length_cons, decodePeers, List.flatMap_cons]
    refine ((recodes_string (by decide)).reads peer (within peer List.mem_cons_self)).bind ?_
    rw [if_neg (fresh peer List.mem_cons_self)]
    exact tail.map _

theorem decodePeers_exact {count : Nat} {unique peers : List String} {input rest : Bytes}
    (ran : (decodePeers count unique).run input = .ok (peers, rest)) :
    peers.length = count ∧ (∀ peer ∈ peers, (utf8 peer).length ≤ 512) ∧ peers.Nodup ∧
      (∀ peer ∈ peers, peer ∉ unique) ∧ input = peers.flatMap Writer.string ++ rest := by
  induction count generalizing unique peers input rest with
  | zero =>
    cases ran
    exact ⟨rfl, List.forall_mem_nil _, List.nodup_nil, List.forall_mem_nil _, rfl⟩
  | succ count ih =>
    rw [decodePeers] at ran
    obtain ⟨peer, middle, began, later⟩ := run_bind_ok.mp ran
    obtain ⟨within, start⟩ := (recodes_string (by decide)).exact input peer middle began
    split at later
    · cases later
    · next fresh =>
      obtain ⟨others, after, continued, wrapped⟩ := run_bind_ok.mp later
      obtain ⟨length, all, distinct, apart, remaining⟩ := ih continued
      cases wrapped
      refine ⟨by rw [List.length_cons, length], ?_, ?_, ?_, ?_⟩
      · intro other member
        cases List.mem_cons.mp member with
        | inl same => exact same ▸ within
        | inr inside => exact all other inside
      · rw [List.nodup_cons]
        exact ⟨fun again => apart peer again List.mem_cons_self, distinct⟩
      · intro other member
        cases List.mem_cons.mp member with
        | inl same => exact same ▸ fresh
        | inr inside => exact fun earlier => apart other inside (List.mem_cons_of_mem _ earlier)
      · rw [List.flatMap_cons, List.append_assoc, ← remaining]
        exact start

variable [Crypto]

/-- The limits the decoder of each message declares. -/
def Fits : WireMessage → Prop
  | .hello value => value.Fits
  | .block value => value.Fits ∧ value.consensusEncode.length ≤ MAX_BLOCK_BYTES
  | .transaction value => value.Fits
  | .template value =>
    TransactionsFit value.transactions ∧ value.consensusEncode.length ≤ MAX_TEMPLATE_BYTES
  | .getHeaders locator _ => locator.length ≤ 64
  | .headers values => values.length ≤ MAX_HEADERS
  | .peers values => values.length ≤ MAX_PEER_URLS ∧ values.Nodup ∧
      ∀ value ∈ values, (utf8 value).length ≤ 512
  | .inventory _ _ | .getData _ _ | .workshare _ | .ping _ | .pong _ => True

theorem reads_tagged {tag : UInt8} {bytes : Bytes} {message : WireMessage}
    (body : Reads (decodeTagged tag) bytes message) :
    Reads decodeFrom (Writer.u8 tag ++ bytes) message := (reads_u8 tag).bind body

theorem reads_message {message : WireMessage} (fits : message.Fits) :
    Reads decodeFrom message.consensusEncode message := by
  cases message with
  | hello value =>
    have nested := recodes_nested recodes_hello (show 2048 ≤ MAX_CONSENSUS_ALLOCATION by decide)
    exact reads_tagged ((nested.reads value ⟨fits, Hello.Fits.size fits⟩).map hello)
  | inventory kind id =>
    exact reads_tagged ((recodes_kind.reads kind trivial).bind
      ((reads_fixed id).map (inventory kind)))
  | getData kind id =>
    exact reads_tagged ((recodes_kind.reads kind trivial).bind ((reads_fixed id).map (getData kind)))
  | block value =>
    have nested := recodes_nested recodes_block
      (show MAX_BLOCK_BYTES ≤ MAX_CONSENSUS_ALLOCATION by decide)
    exact reads_tagged ((nested.reads value fits).map block)
  | transaction value =>
    have nested := recodes_nested recodes_transaction
      (show MAX_TRANSACTION_BYTES ≤ MAX_CONSENSUS_ALLOCATION by decide)
    exact reads_tagged ((nested.reads value ⟨fits, Transaction.Fits.size fits⟩).map transaction)
  | workshare value =>
    have nested := recodes_nested recodes_workshare
      (show 512 ≤ MAX_CONSENSUS_ALLOCATION by decide)
    have size : value.consensusEncode.length ≤ 512 := by
      rw [Workshare.consensusEncode_length]
      decide
    exact reads_tagged ((nested.reads value ⟨trivial, size⟩).map workshare)
  | template value =>
    have nested := recodes_nested recodes_template
      (show MAX_TEMPLATE_BYTES ≤ MAX_CONSENSUS_ALLOCATION by decide)
    exact reads_tagged ((nested.reads value fits).map template)
  | getHeaders locator stop =>
    have items := (recodes_fixed 32).many locator.length
    exact reads_tagged ((reads_vectorLen (show locator.length ≤ 64 from fits) (by decide)).bind
      ((items.reads locator ⟨rfl, fun _ _ => trivial⟩).bind
        ((reads_fixed stop).map (getHeaders locator))))
  | headers values =>
    have items := recodes_header.many values.length
    exact reads_tagged ((reads_vectorLen (show values.length ≤ MAX_HEADERS from fits) (by decide)).bind
      ((items.reads values ⟨rfl, fun _ _ => trivial⟩).map headers))
  | ping nonce => exact reads_tagged ((reads_u64 nonce).map ping)
  | pong nonce => exact reads_tagged ((reads_u64 nonce).map pong)
  | peers values =>
    refine reads_tagged ((reads_vectorLen fits.1 (by decide)).bind ?_)
    exact (decodePeers_reads fits.2.2 fits.2.1 (fun peer _ => List.not_mem_nil)).map peers

theorem exact_message {input rest : Bytes} {message : WireMessage}
    (ran : decodeFrom.run input = .ok (message, rest)) :
    message.Fits ∧ input = message.consensusEncode ++ rest := by
  obtain ⟨tag, middle, began, later⟩ := run_bind_ok.mp ran
  obtain ⟨-, start⟩ := recodes_u8.exact input tag middle began
  unfold decodeTagged at later
  split at later
  · have nested := recodes_nested recodes_hello (show 2048 ≤ MAX_CONSENSUS_ALLOCATION by decide)
    obtain ⟨value, rfl, inside, bytes⟩ := nested.wrapped later
    exact ⟨inside.1, by rw [start, bytes]; rfl⟩
  · obtain ⟨kind, next, read, wrapped⟩ := run_bind_ok.mp later
    obtain ⟨-, head⟩ := recodes_kind.exact middle kind next read
    obtain ⟨id, rfl, -, bytes⟩ := (recodes_fixed 32).wrapped wrapped
    exact ⟨trivial, by rw [start, head, bytes]; rfl⟩
  · obtain ⟨kind, next, read, wrapped⟩ := run_bind_ok.mp later
    obtain ⟨-, head⟩ := recodes_kind.exact middle kind next read
    obtain ⟨id, rfl, -, bytes⟩ := (recodes_fixed 32).wrapped wrapped
    exact ⟨trivial, by rw [start, head, bytes]; rfl⟩
  · have nested := recodes_nested recodes_block
      (show MAX_BLOCK_BYTES ≤ MAX_CONSENSUS_ALLOCATION by decide)
    obtain ⟨value, rfl, inside, bytes⟩ := nested.wrapped later
    exact ⟨inside, by rw [start, bytes]; rfl⟩
  · have nested := recodes_nested recodes_transaction
      (show MAX_TRANSACTION_BYTES ≤ MAX_CONSENSUS_ALLOCATION by decide)
    obtain ⟨value, rfl, inside, bytes⟩ := nested.wrapped later
    exact ⟨inside.1, by rw [start, bytes]; rfl⟩
  · have nested := recodes_nested recodes_workshare (show 512 ≤ MAX_CONSENSUS_ALLOCATION by decide)
    obtain ⟨value, rfl, inside, bytes⟩ := nested.wrapped later
    exact ⟨trivial, by rw [start, bytes]; rfl⟩
  · have nested := recodes_nested recodes_template
      (show MAX_TEMPLATE_BYTES ≤ MAX_CONSENSUS_ALLOCATION by decide)
    obtain ⟨value, rfl, inside, bytes⟩ := nested.wrapped later
    exact ⟨inside, by rw [start, bytes]; rfl⟩
  · obtain ⟨count, next, read, listed⟩ := run_bind_ok.mp later
    obtain ⟨within, head⟩ := (recodes_vectorLen (by decide)).exact middle count next read
    obtain ⟨locator, after, items, wrapped⟩ := run_bind_ok.mp listed
    obtain ⟨⟨rfl, -⟩, hashes⟩ := ((recodes_fixed 32).many count).exact next locator after items
    obtain ⟨stop, rfl, -, bytes⟩ := (recodes_fixed 32).wrapped wrapped
    refine ⟨within, ?_⟩
    rw [start, head, hashes, bytes]
    simp only [consensusEncode, List.append_assoc]
  · obtain ⟨count, next, read, listed⟩ := run_bind_ok.mp later
    obtain ⟨within, head⟩ := (recodes_vectorLen (by decide)).exact middle count next read
    obtain ⟨values, rfl, ⟨rfl, -⟩, bytes⟩ := (recodes_header.many count).wrapped listed
    refine ⟨within, ?_⟩
    rw [start, head, bytes]
    simp only [consensusEncode, List.append_assoc]
  · obtain ⟨nonce, rfl, -, bytes⟩ := recodes_u64.wrapped later
    exact ⟨trivial, by rw [start, bytes]; rfl⟩
  · obtain ⟨nonce, rfl, -, bytes⟩ := recodes_u64.wrapped later
    exact ⟨trivial, by rw [start, bytes]; rfl⟩
  · obtain ⟨count, next, read, listed⟩ := run_bind_ok.mp later
    obtain ⟨within, head⟩ := (recodes_vectorLen (by decide)).exact middle count next read
    obtain ⟨values, after, peerList, wrapped⟩ := run_bind_ok.mp listed
    obtain ⟨rfl, all, distinct, -, bytes⟩ := decodePeers_exact peerList
    cases wrapped
    refine ⟨⟨within, distinct, all⟩, ?_⟩
    rw [start, head, bytes]
    simp only [consensusEncode, List.append_assoc]
  · cases later

omit [Crypto] in
theorem magic_length : WIRE_MAGIC.length = 4 := by decide

theorem Fits.frame {message : WireMessage} (fits : message.Fits) :
    message.encodeFrame.length ≤ MAX_WIRE_FRAME := by
  have limit : MAX_WIRE_FRAME = 8454144 := rfl
  rw [encodeFrame, List.length_append, magic_length, limit]
  cases message with
  | hello value =>
    have size := Hello.Fits.size fits
    simp only [consensusEncode, List.length_append, Writer.u8_length, Writer.bytes_length]
    omega
  | inventory kind id => simp [consensusEncode]
  | getData kind id => simp [consensusEncode]
  | block value =>
    have size : value.consensusEncode.length ≤ 8388608 := fits.2
    simp only [consensusEncode, List.length_append, Writer.u8_length, Writer.bytes_length]
    omega
  | transaction value =>
    have size : value.consensusEncode.length ≤ 1024 := Transaction.Fits.size fits
    simp only [consensusEncode, List.length_append, Writer.u8_length, Writer.bytes_length]
    omega
  | workshare value => simp [consensusEncode]
  | template value =>
    have size : value.consensusEncode.length ≤ 4194304 := fits.2
    simp only [consensusEncode, List.length_append, Writer.u8_length, Writer.bytes_length]
    omega
  | getHeaders locator stop =>
    have count : locator.length ≤ 64 := fits
    have items := flatMap_length_const 32 locator (fun hash _ => hash.length_eq)
    simp only [consensusEncode, List.length_append, Writer.u8_length, Writer.count_length, items,
      FixedBytes.length_eq]
    omega
  | headers values =>
    have count : values.length ≤ 2000 := fits
    have items := flatMap_length_const 160 values
      (fun header _ => header.consensusEncode_length)
    simp only [consensusEncode, List.length_append, Writer.u8_length, Writer.count_length, items]
    omega
  | ping nonce => simp [consensusEncode]
  | pong nonce => simp [consensusEncode]
  | peers values =>
    have count : values.length ≤ 256 := fits.1
    have items : (values.flatMap Writer.string).length ≤ values.length * 516 := by
      apply flatMap_length_le
      intro value member
      have short := fits.2.2 value member
      rw [Writer.string, Writer.bytes_length]
      omega
    simp only [consensusEncode, List.length_append, Writer.u8_length, Writer.count_length]
    omega

theorem frameReader_reads {message : WireMessage} (fits : message.Fits) :
    Reads frameReader message.encodeFrame message := by
  refine (reads_fixed ⟨WIRE_MAGIC, magic_length⟩).bind ?_
  rw [if_neg (not_not_intro rfl)]
  exact reads_message fits

theorem frameReader_exact {input rest : Bytes} {message : WireMessage}
    (ran : frameReader.run input = .ok (message, rest)) :
    message.Fits ∧ input = message.encodeFrame ++ rest := by
  obtain ⟨magic, middle, began, later⟩ := run_bind_ok.mp ran
  obtain ⟨-, start⟩ := (recodes_fixed 4).exact input magic middle began
  split at later
  · cases later
  · next same =>
    obtain ⟨fits, bytes⟩ := exact_message later
    rw [start, Decidable.not_not.mp same, bytes, encodeFrame, List.append_assoc]
    exact ⟨fits, rfl⟩

theorem decodeFrame_encodeFrame {message : WireMessage} (fits : message.Fits) :
    decodeFrame message.encodeFrame = .ok message := by
  have whole := frameReader_reads fits []
  rw [List.append_nil] at whole
  unfold decodeFrame
  rw [if_neg (Nat.not_lt.mpr fits.frame), whole]
  rfl

/-- Canonical and lossless: a frame decodes to a message exactly when it is the
frame of that message and the message is within the limits of its decoder. -/
theorem decodeFrame_ok_iff {bytes : Bytes} {message : WireMessage} :
    decodeFrame bytes = .ok message ↔ message.Fits ∧ bytes = message.encodeFrame := by
  unfold decodeFrame
  constructor
  · intro decoded
    split at decoded
    · cases decoded
    · cases ran : frameReader.run bytes with
      | error error =>
        rw [ran] at decoded
        cases decoded
      | ok result =>
        rw [ran] at decoded
        dsimp only at decoded
        split at decoded
        · next finished =>
          cases decoded
          obtain ⟨fits, same⟩ := frameReader_exact ran
          rw [List.eq_nil_of_length_eq_zero finished, List.append_nil] at same
          exact ⟨fits, same⟩
        · cases decoded
  · intro inside
    obtain ⟨fits, same⟩ := inside
    have whole := frameReader_reads fits []
    rw [List.append_nil] at whole
    rw [same, if_neg (Nat.not_lt.mpr fits.frame), whole]
    rfl

end WireMessage

end ParitrNode
