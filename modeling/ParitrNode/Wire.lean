import ParitrNode.Types

/-! Peer-to-peer messages and their frames. -/

namespace ParitrNode
open ByteCodec

def WIRE_MAGIC : Bytes := ascii "PRT9"
def MAX_WIRE_FRAME : Nat := MAX_BLOCK_BYTES + 64 * 1024
def MAX_PEER_URLS : Nat := 256
def MAX_HEADERS : Nat := 2000

def utf8 (text : String) : Bytes := text.toByteArray.data.toList

def Writer.string (value : String) : Bytes := Writer.bytes (utf8 value)

def Reader.string (max : Nat) : Reader String := do
  match String.fromUTF8? ⟨(← Reader.bytes max).toArray⟩ with
  | some value => return value
  | none => throw .invalidUtf8

inductive ObjectKind where
  | block
  | transaction
  | workshare
  | template
  deriving DecidableEq, Repr

def ObjectKind.tag : ObjectKind → UInt8
  | .block => 1
  | .transaction => 2
  | .workshare => 3
  | .template => 4

def ObjectKind.tryFrom : UInt8 → Except CodecError ObjectKind
  | 1 => .ok .block
  | 2 => .ok .transaction
  | 3 => .ok .workshare
  | 4 => .ok .template
  | tag => .error (.invalidTag tag)

def ObjectKind.decodeFrom : Reader ObjectKind := do
  match ObjectKind.tryFrom (← Reader.u8) with
  | .ok kind => return kind
  | .error error => throw error

structure Hello where
  protocol : UInt16
  chainId : String
  genesis : Hash32
  nodePublicKey : Bytes
  timestamp : UInt64
  challenge : Hash32
  responseTo : Hash32
  height : UInt64
  tip : Hash32
  cumulativeWork : FixedBytes 32
  listenUrl : String
  signature : Bytes
  deriving DecidableEq

namespace Hello

def consensusEncode (hello : Hello) : Bytes :=
  Writer.u16 hello.protocol ++ (Writer.string hello.chainId ++ (hello.genesis.bytes ++
    (Writer.bytes hello.nodePublicKey ++ (Writer.u64 hello.timestamp ++ (hello.challenge.bytes ++
    (hello.responseTo.bytes ++ (Writer.u64 hello.height ++ (hello.tip.bytes ++
    (hello.cumulativeWork.bytes ++ (Writer.string hello.listenUrl ++
    Writer.bytes hello.signature))))))))))

def decodeFrom : Reader Hello := do
  let protocol ← Reader.u16
  let chainId ← Reader.string 64
  let genesis ← Reader.fixed 32
  let nodePublicKey ← Reader.bytes 33
  let timestamp ← Reader.u64
  let challenge ← Reader.fixed 32
  let responseTo ← Reader.fixed 32
  let height ← Reader.u64
  let tip ← Reader.fixed 32
  let cumulativeWork ← Reader.fixed 32
  let listenUrl ← Reader.string 512
  let signature ← Reader.bytes 64
  return ⟨protocol, chainId, genesis, nodePublicKey, timestamp, challenge, responseTo, height, tip,
    cumulativeWork, listenUrl, signature⟩

end Hello

inductive WireMessage where
  | hello (hello : Hello)
  | inventory (kind : ObjectKind) (id : Hash32)
  | getData (kind : ObjectKind) (id : Hash32)
  | block (block : Block)
  | transaction (transaction : Transaction)
  | workshare (share : Workshare)
  | template (template : BlockTemplate)
  | getHeaders (locator : List Hash32) (stop : Hash32)
  | headers (headers : List BlockHeader)
  | ping (nonce : UInt64)
  | pong (nonce : UInt64)
  | peers (urls : List String)
  deriving DecidableEq

namespace WireMessage

variable [Crypto]

def consensusEncode : WireMessage → Bytes
  | .hello value => Writer.u8 1 ++ Writer.bytes value.consensusEncode
  | .inventory kind id => Writer.u8 2 ++ (Writer.u8 kind.tag ++ id.bytes)
  | .getData kind id => Writer.u8 3 ++ (Writer.u8 kind.tag ++ id.bytes)
  | .block value => Writer.u8 4 ++ Writer.bytes value.consensusEncode
  | .transaction value => Writer.u8 5 ++ Writer.bytes value.consensusEncode
  | .workshare value => Writer.u8 6 ++ Writer.bytes value.consensusEncode
  | .template value => Writer.u8 7 ++ Writer.bytes value.consensusEncode
  | .getHeaders locator stop =>
    Writer.u8 8 ++ (Writer.count locator.length ++ (locator.flatMap FixedBytes.bytes ++ stop.bytes))
  | .headers values =>
    Writer.u8 9 ++ (Writer.count values.length ++ values.flatMap BlockHeader.consensusEncode)
  | .ping nonce => Writer.u8 10 ++ Writer.u64 nonce
  | .pong nonce => Writer.u8 11 ++ Writer.u64 nonce
  | .peers values => Writer.u8 12 ++ (Writer.count values.length ++ values.flatMap Writer.string)

def encodeFrame (message : WireMessage) : Bytes := WIRE_MAGIC ++ message.consensusEncode

/-- The loop over peer URLs, with the set of those read so far. -/
def decodePeers : Nat → List String → Reader (List String)
  | 0, _ => return []
  | count + 1, unique => do
    let peer ← Reader.string 512
    if peer ∈ unique then throw (.nonCanonical "duplicate peer URL")
    else
      return peer :: (← decodePeers count (peer :: unique))

def decodeTagged : UInt8 → Reader WireMessage
  | 1 => do return .hello (← Reader.nested 2048 Hello.decodeFrom)
  | 2 => do return .inventory (← ObjectKind.decodeFrom) (← Reader.fixed 32)
  | 3 => do return .getData (← ObjectKind.decodeFrom) (← Reader.fixed 32)
  | 4 => do return .block (← Reader.nested MAX_BLOCK_BYTES Block.decodeFrom)
  | 5 => do return .transaction (← Reader.nested MAX_TRANSACTION_BYTES Transaction.decodeFrom)
  | 6 => do return .workshare (← Reader.nested 512 Workshare.decodeFrom)
  | 7 => do return .template (← Reader.nested MAX_TEMPLATE_BYTES BlockTemplate.decodeFrom)
  | 8 => do
    let locator ← readMany (Reader.fixed 32) (← Reader.vectorLen 64)
    return .getHeaders locator (← Reader.fixed 32)
  | 9 => do return .headers (← readMany BlockHeader.decodeFrom (← Reader.vectorLen MAX_HEADERS))
  | 10 => do return .ping (← Reader.u64)
  | 11 => do return .pong (← Reader.u64)
  | 12 => do return .peers (← decodePeers (← Reader.vectorLen MAX_PEER_URLS) [])
  | tag => throw (.invalidTag tag)

def decodeFrom : Reader WireMessage := Reader.u8 >>= decodeTagged

/-- The magic bytes, and the message behind them. -/
def frameReader : Reader WireMessage := do
  if (← Reader.fixed 4).bytes ≠ WIRE_MAGIC then throw (.nonCanonical "wrong P2P magic")
  else decodeFrom

def decodeFrame (bytes : Bytes) : Except CodecError WireMessage :=
  if bytes.length > MAX_WIRE_FRAME then .error (.limitExceeded bytes.length MAX_WIRE_FRAME)
  else match frameReader.run bytes with
    | .error error => .error error
    | .ok (message, rest) =>
      if rest.length = 0 then .ok message else .error (.trailingBytes rest.length)

end WireMessage

end ParitrNode
