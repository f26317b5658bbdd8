import Mathlib.Logic.Function.Basic
import Mathlib.Logic.Relation
import ParitrNode.FundedChain
import ParitrNode.Library.EventLog
import ParitrNode.WireFrames

/-!
The handshake of two peers, in any number of sessions at once, over a network
that an attacker runs: it delivers any frame it likes, at any time, except one
whose signature it would have to forge.
-/

namespace ParitrNode
open ByteCodec EventLog

/-! The signed greeting. -/

/-- The key of a node: its compressed public half, and signing with the secret half. -/
structure NodeIdentity where
  publicKey : FixedBytes 33
  sign : Hash32 → FixedBytes 64

/-- What a greeting says of the chain. The hexadecimal work counts where it decodes
to 32 bytes. -/
structure ChainSnapshot where
  height : UInt64
  tip : Hash32
  cumulativeWork : Option (FixedBytes 32)

def absDiff (first second : UInt64) : UInt64 := if first < second then second - first else first - second

section
variable [Crypto]

def nodeIdOf (publicKey : Bytes) : Hash32 := domainHash "PARITR-P9-NODE-ID-v1" publicKey

def NodeIdentity.id (identity : NodeIdentity) : Hash32 := nodeIdOf identity.publicKey.bytes

namespace Hello

def nodeId (hello : Hello) : Hash32 := nodeIdOf hello.nodePublicKey

def unsigned (hello : Hello) : Hello := { hello with signature := [] }

def signingHash (hello : Hello) : Hash32 :=
  domainHash "PARITR-P9-HELLO-v1" hello.unsigned.consensusEncode

/-- The challenge is drawn at random, the timestamp read from the clock. -/
def signed (identity : NodeIdentity) (snapshot : ChainSnapshot) (listenUrl : String)
    (responseTo : Hash32) (timestamp : UInt64) (challenge : Hash32) : Hello :=
  let hello : Hello :=
    { protocol := PROTOCOL_VERSION
      chainId := CHAIN_ID
      genesis := Block.genesis.id
      nodePublicKey := identity.publicKey.bytes
      timestamp
      challenge
      responseTo
      height := snapshot.height
      tip := snapshot.tip
      cumulativeWork := snapshot.cumulativeWork.getD (FixedBytes.zero 32)
      listenUrl
      signature := [] }
  { hello with signature := (identity.sign hello.signingHash).bytes }

def verify (hello : Hello) (now : UInt64) : Bool :=
  if hello.protocol ≠ PROTOCOL_VERSION ∨ hello.chainId ≠ CHAIN_ID ∨ hello.genesis ≠ Block.genesis.id ∨
      hello.nodePublicKey.length ≠ 33 ∨ hello.signature.length ≠ 64 ∨
      absDiff hello.timestamp now > 300 then false
  else match Crypto.publicKeyFromSlice hello.nodePublicKey with
    | none => false
    | some publicKey =>
      if width : hello.signature.length = 64 then
        match Crypto.signatureFromCompact ⟨hello.signature, width⟩ with
        | none => false
        | some signature => Crypto.verifyEcdsa hello.signingHash signature publicKey
      else false

end Hello

/-! What each side makes of a frame; `none` is the handshake error. -/

def verifiedHello (frame : Bytes) (now : UInt64) : Option Hello :=
  match WireMessage.decodeFrame frame with
  | .ok (.hello remote) => if remote.verify now then some remote else none
  | _ => none

/-- `serve_socket`: the answer to the greeting that opened the session. -/
def serveSocket (own : Hash32) (hello : Hello) (frame : Bytes) (now : UInt64) : Option Hello :=
  (verifiedHello frame now).filter fun remote =>
    decide (remote.responseTo = hello.challenge ∧ remote.nodeId ≠ own)

/-- `outbound_once`: the greeting of the other side. -/
def outboundFirst (own : Hash32) (frame : Bytes) (now : UInt64) : Option Hello :=
  (verifiedHello frame now).filter fun challenge =>
    decide (challenge.responseTo = Hash32.ZERO ∧ challenge.nodeId ≠ own)

/-- `outbound_once`: the acknowledgement of the response. -/
def outboundSecond (challenge response : Hello) (frame : Bytes) (now : UInt64) : Option Hello :=
  (verifiedHello frame now).filter fun remote =>
    decide (remote.nodeId = challenge.nodeId ∧ remote.responseTo = response.challenge)

end

/-! Sessions. -/

/-- One connection of an honest node, in either role. -/
inductive Session (Name : Type) where
  | idle
  /-- The server has sent its greeting. -/
  | greeted (node : Name) (hello : Hello)
  /-- The server has admitted the peer. -/
  | serving (node : Name) (hello remote : Hello)
  /-- The client waits for the greeting. -/
  | dialed (node : Name)
  /-- The client has sent its response. -/
  | responded (node : Name) (challenge response : Hello)
  /-- The client has admitted the peer. -/
  | connected (node : Name) (challenge response remote : Hello)
  | closed

/-- A greeting is created, signed and sent in one event. -/
inductive PeerEvent (Name : Type) where
  | sent (node : Name) (hello : Hello)
  | heard (hello : Hello)

def PeerEvent.Mentions {Name : Type} : PeerEvent Name → Hash32 → Prop
  | .sent _ hello, value => hello.challenge = value ∨ hello.responseTo = value
  | .heard hello, value => hello.challenge = value ∨ hello.responseTo = value

instance {Name : Type} (event : PeerEvent Name) (value : Hash32) : Decidable (event.Mentions value) :=
  match event with
  | .sent _ hello => inferInstanceAs (Decidable (hello.challenge = value ∨ hello.responseTo = value))
  | .heard hello => inferInstanceAs (Decidable (hello.challenge = value ∨ hello.responseTo = value))

structure Network (Name : Type) where
  log : List (PeerEvent Name)
  sessions : Nat → Session Name

namespace Network

variable {Name : Type}

def start : Network Name := ⟨[], fun _ => .idle⟩

def record (network : Network Name) (events : List (PeerEvent Name)) (session : Nat)
    (state : Session Name) : Network Name :=
  ⟨network.log ++ events, Function.update network.sessions session state⟩

end Network

section
variable [Crypto] {Name : Type} (identities : Name → NodeIdentity)

/-- A greeting of the node, with a challenge that has not occurred before. -/
structure Issues (log : List (PeerEvent Name)) (node : Name) (responseTo : Hash32) (hello : Hello) :
    Prop where
  signed : ∃ snapshot listenUrl timestamp, hello =
    Hello.signed (identities node) snapshot listenUrl responseTo timestamp hello.challenge
  fresh : Fresh PeerEvent.Mentions log hello.challenge

/-- Under the key of an honest node only what that node has signed verifies. -/
def Unforged (log : List (PeerEvent Name)) (hello : Hello) : Prop :=
  ∀ name, hello.nodePublicKey = (identities name).publicKey.bytes →
    ∃ own, .sent name own ∈ log ∧ own.signingHash = hello.signingHash

/-- One step of one session. Frames and clocks are the attacker's choice, and a
node may refuse a peer it could admit. -/
inductive PeerStep : Network Name → Network Name → Prop where
  | greet {network : Network Name} {session : Nat} {node : Name} {hello : Hello}
      (idle : network.sessions session = .idle)
      (issues : Issues identities network.log node Hash32.ZERO hello) :
      PeerStep network (network.record [.sent node hello] session (.greeted node hello))
  | serve {network : Network Name} {session : Nat} {node : Name} {hello remote reply : Hello}
      {frame : Bytes} {now : UInt64} {admitted : Bool}
      (greeted : network.sessions session = .greeted node hello)
      (accepted : serveSocket (identities node).id hello frame now = some remote)
      (unforged : Unforged identities network.log remote)
      (issues : Issues identities (network.log ++ [.heard remote]) node remote.challenge reply) :
      PeerStep network (network.record [.heard remote, .sent node reply] session
        (if admitted then .serving node hello remote else .closed))
  | dial {network : Network Name} {session : Nat} {node : Name}
      (idle : network.sessions session = .idle) :
      PeerStep network (network.record [] session (.dialed node))
  | respond {network : Network Name} {session : Nat} {node : Name} {challenge response : Hello}
      {frame : Bytes} {now : UInt64}
      (dialed : network.sessions session = .dialed node)
      (accepted : outboundFirst (identities node).id frame now = some challenge)
      (unforged : Unforged identities network.log challenge)
      (issues : Issues identities (network.log ++ [.heard challenge]) node challenge.challenge
        response) :
      PeerStep network (network.record [.heard challenge, .sent node response] session
        (.responded node challenge response))
  | connect {network : Network Name} {session : Nat} {node : Name}
      {challenge response remote : Hello} {frame : Bytes} {now : UInt64} {admitted : Bool}
      (responded : network.sessions session = .responded node challenge response)
      (accepted : outboundSecond challenge response frame now = some remote)
      (unforged : Unforged identities network.log remote) :
      PeerStep network (network.record [.heard remote] session
        (if admitted then .connected node challenge response remote else .closed))
  /-- A refused frame, a timeout or a lost connection. -/
  | close {network : Network Name} {session : Nat} :
      PeerStep network (network.record [] session .closed)

def PeerRun : Network Name → Prop := Relation.ReflTransGen (PeerStep identities) Network.start

variable {identities} {log : List (PeerEvent Name)} {node : Name} {hello remote : Hello}

/-! What a greeting says once it is issued or verified. -/

omit [Crypto] in
/-- Up to the values before it, the encoding fixes the challenge that is answered. -/
theorem Hello.responseTo_eq {first second : Hello} (chain : first.chainId = second.chainId)
    (width : first.nodePublicKey.length = second.nodePublicKey.length)
    (same : first.unsigned.consensusEncode = second.unsigned.consensusEncode) :
    first.responseTo = second.responseTo := by
  unfold Hello.consensusEncode at same
  have afterProtocol := List.append_inj_right same (by simp)
  have afterChain := List.append_inj_right afterProtocol (by
    rw [show first.unsigned.chainId = second.unsigned.chainId from chain])
  have afterGenesis := List.append_inj_right afterChain (by simp)
  have afterKey := List.append_inj_right afterGenesis (by
    rw [Writer.bytes_length, Writer.bytes_length]
    exact congrArg (· + 4) width)
  have afterTime := List.append_inj_right afterKey (by simp)
  have afterChallenge := List.append_inj_right afterTime (by simp)
  exact FixedBytes.ext (List.append_inj_left afterChallenge (by simp))

theorem Issues.fields {responseTo : Hash32} (issues : Issues identities log node responseTo hello) :
    hello.chainId = CHAIN_ID ∧ hello.nodePublicKey = (identities node).publicKey.bytes ∧
      hello.responseTo = responseTo := by
  obtain ⟨_, _, _, same⟩ := issues.signed
  exact ⟨congrArg Hello.chainId same, congrArg Hello.nodePublicKey same, congrArg Hello.responseTo same⟩

theorem Hello.verify_ok {now : UInt64} (verified : hello.verify now = true) :
    hello.chainId = CHAIN_ID ∧ hello.nodePublicKey.length = 33 := by
  unfold Hello.verify at verified
  split at verified
  next => cases verified
  next checks =>
    simp only [not_or, Decidable.not_not] at checks
    exact ⟨checks.2.1, checks.2.2.2.1⟩

theorem verifiedHello_ok {frame : Bytes} {now : UInt64}
    (verified : verifiedHello frame now = some remote) : remote.verify now = true := by
  unfold verifiedHello at verified
  split at verified
  · split at verified
    next good =>
      cases verified
      exact good
    next => cases verified
  · cases verified

theorem verifiedHello_some {frame : Bytes} {now : UInt64}
    (decoded : WireMessage.decodeFrame frame = .ok (.hello remote)) (verified : remote.verify now = true) :
    verifiedHello frame now = some remote := by
  unfold verifiedHello
  rw [decoded]
  exact if_pos verified

theorem serveSocket_ok {own : Hash32} {frame : Bytes} {now : UInt64}
    (accepted : serveSocket own hello frame now = some remote) :
    remote.verify now = true ∧ remote.responseTo = hello.challenge ∧ remote.nodeId ≠ own := by
  obtain ⟨verified, checks⟩ := Option.filter_eq_some_iff.mp accepted
  exact ⟨verifiedHello_ok verified, of_decide_eq_true checks⟩

theorem outboundSecond_ok {challenge response : Hello} {frame : Bytes} {now : UInt64}
    (accepted : outboundSecond challenge response frame now = some remote) :
    remote.verify now = true ∧ remote.responseTo = response.challenge := by
  obtain ⟨verified, checks⟩ := Option.filter_eq_some_iff.mp accepted
  exact ⟨verifiedHello_ok verified, (of_decide_eq_true checks).2⟩

/-! The invariant. -/

variable (identities) in
/-- A greeting the session has verified, in answer to its own and no echo of it. -/
structure Heard (log : List (PeerEvent Name)) (node : Name) (own remote : Hello) : Prop where
  heard : .heard remote ∈ log
  chainId : remote.chainId = CHAIN_ID
  width : remote.nodePublicKey.length = 33
  unforged : Unforged identities log remote
  answers : remote.responseTo = own.challenge
  apart : own.responseTo = own.challenge → remote.nodeId ≠ (identities node).id

variable (identities) in
/-- The challenge of a session first occurred when the session sent it. -/
def Session.Holds (log : List (PeerEvent Name)) : Session Name → Prop
  | .idle => True
  | .greeted node hello => Introduces PeerEvent.Mentions log (.sent node hello) hello.challenge
  | .serving node hello remote =>
    Introduces PeerEvent.Mentions log (.sent node hello) hello.challenge ∧
      Heard identities log node hello remote
  | .dialed _ => True
  | .responded node _ response =>
    Introduces PeerEvent.Mentions log (.sent node response) response.challenge ∧
      response.responseTo ≠ response.challenge
  | .connected node _ response remote =>
    Introduces PeerEvent.Mentions log (.sent node response) response.challenge ∧
      Heard identities log node response remote
  | .closed => True

variable (identities) in
structure Network.Sound (network : Network Name) : Prop where
  sent : ∀ node hello, .sent node hello ∈ network.log →
    hello.chainId = CHAIN_ID ∧ hello.nodePublicKey = (identities node).publicKey.bytes
  sessions : ∀ session, (network.sessions session).Holds identities network.log

theorem Unforged.append (unforged : Unforged identities log remote) (later : List (PeerEvent Name)) :
    Unforged identities (log ++ later) remote := by
  intro name key
  obtain ⟨own, member, same⟩ := unforged name key
  exact ⟨own, List.mem_append_left later member, same⟩

theorem Heard.append {own : Hello} (heard : Heard identities log node own remote)
    (later : List (PeerEvent Name)) : Heard identities (log ++ later) node own remote :=
  { heard with
    heard := List.mem_append_left later heard.heard
    unforged := heard.unforged.append later }

theorem Session.Holds.append {session : Session Name} (holds : session.Holds identities log)
    (later : List (PeerEvent Name)) : session.Holds identities (log ++ later) := by
  cases session with
  | idle => trivial
  | greeted node hello => exact Introduces.append holds later
  | serving node hello remote => exact ⟨holds.1.append later, holds.2.append later⟩
  | dialed node => trivial
  | responded node challenge response => exact ⟨holds.1.append later, holds.2⟩
  | connected node challenge response remote => exact ⟨holds.1.append later, holds.2.append later⟩
  | closed => trivial

theorem Network.Sound.record {network : Network Name} (sound : network.Sound identities)
    {events : List (PeerEvent Name)} {session : Nat} {state : Session Name}
    (sent : ∀ node hello, .sent node hello ∈ events →
      hello.chainId = CHAIN_ID ∧ hello.nodePublicKey = (identities node).publicKey.bytes)
    (holds : state.Holds identities (network.log ++ events)) :
    (network.record events session state).Sound identities where
  sent node hello member := by
    rcases List.mem_append.mp member with earlier | new
    · exact sound.sent node hello earlier
    · exact sent node hello new
  sessions other := by
    change (Function.update network.sessions session state other).Holds identities
      (network.log ++ events)
    by_cases same : other = session
    · rw [same, Function.update_self]
      exact holds
    · rw [Function.update_of_ne same]
      exact (sound.sessions other).append events

theorem Heard.of_verified {own : Hello} {now : UInt64} (verified : remote.verify now = true)
    (unforged : Unforged identities log remote) (answers : remote.responseTo = own.challenge)
    (apart : own.responseTo = own.challenge → remote.nodeId ≠ (identities node).id)
    (rest : List (PeerEvent Name)) :
    Heard identities (log ++ .heard remote :: rest) node own remote where
  heard := by simp
  chainId := (Hello.verify_ok verified).1
  width := (Hello.verify_ok verified).2
  unforged := unforged.append _
  answers := answers
  apart := apart

theorem PeerStep.sound {network next : Network Name} (step : PeerStep identities network next)
    (sound : network.Sound identities) : next.Sound identities := by
  cases step with
  | @greet session node hello idle issues =>
    apply sound.record
    · intro other own member
      cases List.mem_singleton.mp member
      exact ⟨issues.fields.1, issues.fields.2.1⟩
    · exact issues.fresh.introduces _
  | @serve session node hello remote reply frame now admitted greeted accepted unforged issues =>
    obtain ⟨verified, answers, apart⟩ := serveSocket_ok accepted
    apply sound.record
    · intro other own member
      cases List.mem_singleton.mp ((List.mem_cons.mp member).resolve_left (by simp))
      exact ⟨issues.fields.1, issues.fields.2.1⟩
    · have holds := sound.sessions session
      rw [greeted] at holds
      cases admitted with
      | false => trivial
      | true =>
        exact ⟨Introduces.append holds _,
          Heard.of_verified verified unforged answers (fun _ => apart) _⟩
  | dial idle => exact sound.record (fun _ _ member => (nomatch member)) trivial
  | @respond session node challenge response frame now dialed accepted unforged issues =>
    apply sound.record
    · intro other own member
      cases List.mem_singleton.mp ((List.mem_cons.mp member).resolve_left (by simp))
      exact ⟨issues.fields.1, issues.fields.2.1⟩
    · have introduces := issues.fresh.introduces (.sent node response)
      rw [List.append_assoc] at introduces
      refine ⟨introduces, fun same => ?_⟩
      -- the challenge that is answered has been heard, so the new one differs from it
      rw [issues.fields.2.2] at same
      exact issues.fresh (.heard challenge) (by simp) (Or.inl same)
  | @connect session node challenge response remote frame now admitted responded accepted unforged =>
    obtain ⟨verified, answers⟩ := outboundSecond_ok accepted
    apply sound.record
    · intro other own member
      cases List.mem_singleton.mp member
    · have holds := sound.sessions session
      rw [responded] at holds
      cases admitted with
      | false => trivial
      | true =>
        exact ⟨holds.1.append _,
          Heard.of_verified verified unforged answers (fun same => absurd same holds.2) _⟩
  | close => exact sound.record (fun _ _ member => (nomatch member)) trivial

theorem PeerRun.sound {network : Network Name} (run : PeerRun identities network) :
    network.Sound identities := by
  induction run with
  | refl => exact ⟨fun _ _ member => (nomatch member), fun _ => trivial⟩
  | tail _ step ih => exact step.sound ih

/-! Freshness. -/

variable (identities) in
def Network.hashInputs (network : Network Name) : Set (String × Bytes) :=
  { query | (∃ name, query = ("PARITR-P9-NODE-ID-v1", (identities name).publicKey.bytes)) ∨
    (∃ hello, .heard hello ∈ network.log ∧ (query = ("PARITR-P9-NODE-ID-v1", hello.nodePublicKey) ∨
      query = ("PARITR-P9-HELLO-v1", hello.unsigned.consensusEncode))) ∨
    ∃ node hello, .sent node hello ∈ network.log ∧
      query = ("PARITR-P9-HELLO-v1", hello.unsigned.consensusEncode) }

/-- An honest node that a session hears from has answered the session's own greeting. -/
theorem Heard.answered {network : Network Name} (sound : network.Sound identities)
    (free : CollisionFree (network.hashInputs identities)) {own : Hello}
    (introduces : Introduces PeerEvent.Mentions network.log (.sent node own) own.challenge)
    (heard : Heard identities network.log node own remote) {name : Name}
    (honest : remote.nodeId = (identities name).id) :
    ∃ answer, Follows network.log (.sent node own) (.sent name answer) ∧
      answer.responseTo = own.challenge ∧ answer.signingHash = remote.signingHash := by
  have key : remote.nodePublicKey = (identities name).publicKey.bytes :=
    free.data_eq (Or.inr (Or.inl ⟨remote, heard.heard, Or.inl rfl⟩)) (Or.inl ⟨name, rfl⟩) honest
  obtain ⟨answer, member, digest⟩ := heard.unforged name key
  obtain ⟨chainId, answerKey⟩ := sound.sent name answer member
  have encoded : answer.unsigned.consensusEncode = remote.unsigned.consensusEncode :=
    free.data_eq (Or.inr (Or.inr ⟨name, answer, member, rfl⟩))
      (Or.inr (Or.inl ⟨remote, heard.heard, Or.inr rfl⟩)) digest
  have same : answer.responseTo = own.challenge :=
    (Hello.responseTo_eq (chainId.trans heard.chainId.symm) (by rw [answerKey, key]) encoded).trans
      heard.answers
  refine ⟨answer, ?_, same, digest⟩
  apply introduces.follows member (Or.inr same)
  intro echo
  cases echo
  exact heard.apart same honest

/-- No recorded greeting impersonates a node: whoever a session admits under an
honest identity has signed an answer to the challenge of that very session, after
the session issued it. -/
theorem handshake_fresh {network : Network Name} (run : PeerRun identities network)
    (free : CollisionFree (network.hashInputs identities)) :
    (∀ session node hello remote name,
      network.sessions session = .serving node hello remote → remote.nodeId = (identities name).id →
        ∃ answer, Follows network.log (.sent node hello) (.sent name answer) ∧
          answer.responseTo = hello.challenge ∧ answer.signingHash = remote.signingHash) ∧
    ∀ session node challenge response remote name,
      network.sessions session = .connected node challenge response remote →
        remote.nodeId = (identities name).id →
        ∃ answer, Follows network.log (.sent node response) (.sent name answer) ∧
          answer.responseTo = response.challenge ∧ answer.signingHash = remote.signingHash := by
  have sound := run.sound
  constructor
  · intro session node hello remote name admitted honest
    have holds := sound.sessions session
    rw [admitted] at holds
    exact holds.2.answered sound free holds.1 honest
  · intro session node challenge response remote name admitted honest
    have holds := sound.sessions session
    rw [admitted] at holds
    exact holds.2.answered sound free holds.1 honest

end

/-! A server and a client that admit each other, under primitives that spell ids out. -/

def pairKey : Bool → FixedBytes 33
  | false => ⟨List.replicate 33 1, rfl⟩
  | true => ⟨List.replicate 33 2, rfl⟩

def pair (name : Bool) : NodeIdentity := ⟨pairKey name, fun _ => FixedBytes.zero 64⟩

def numbered (number : UInt8) : Hash32 := ⟨List.replicate 31 0 ++ [number], rfl⟩

def greeting (number : UInt8) (name : Bool) (responseTo : Hash32) : Hello :=
  @Hello.signed spelled (pair name) ⟨0, Hash32.ZERO, some (numbered number)⟩ "" responseTo 0
    (numbered number)

theorem greeting_width (number : UInt8) (name : Bool) (responseTo : Hash32) :
    (greeting number name responseTo).nodePublicKey.length = 33 := (pairKey name).length_eq

theorem pair_id (name : Bool) : @NodeIdentity.id spelled (pair name) =
    lastBytes (pairKey name).bytes := by
  have split : (pairKey name).bytes = (pairKey name).bytes.take 1 ++ (lastBytes (pairKey name).bytes).bytes := by
    cases name with
    | false => decide
    | true => decide
  apply spelled_ends "PARITR-P9-NODE-ID-v1" split
  rw [(pairKey name).length_eq]
  decide

def ending (number : UInt8) : Hash32 := ⟨List.replicate 23 0 ++ number :: List.replicate 8 0, rfl⟩

theorem greeting_ends (number : UInt8) (name : Bool) (responseTo : Hash32) : ∃ head : Bytes,
    head.length = 195 + (utf8 CHAIN_ID).length ∧
      (greeting number name responseTo).unsigned.consensusEncode = head ++ (ending number).bytes := by
  let _ := spelled
  have work : (numbered number).bytes = List.replicate 8 0 ++ (List.replicate 23 0 ++ [number]) := rfl
  have ends : (ending number).bytes = (List.replicate 23 0 ++ [number]) ++
      (Writer.string "" ++ Writer.bytes []) := rfl
  have encoded : (greeting number name responseTo).unsigned.consensusEncode =
      Writer.u16 PROTOCOL_VERSION ++ (Writer.string CHAIN_ID ++ (Block.genesis.id.bytes ++
        (Writer.bytes (pairKey name).bytes ++ (Writer.u64 0 ++ ((numbered number).bytes ++
        (responseTo.bytes ++ (Writer.u64 0 ++ (Hash32.ZERO.bytes ++ ((numbered number).bytes ++
        (Writer.string "" ++ Writer.bytes [])))))))))) := rfl
  refine ⟨Writer.u16 PROTOCOL_VERSION ++ (Writer.string CHAIN_ID ++ (Block.genesis.id.bytes ++
    (Writer.bytes (pairKey name).bytes ++ (Writer.u64 0 ++ ((numbered number).bytes ++
    (responseTo.bytes ++ (Writer.u64 0 ++ (Hash32.ZERO.bytes ++ List.replicate 8 0)))))))), ?_, ?_⟩
  · unfold Writer.string
    simp only [List.length_append, Writer.u16_length, Writer.u64_length, Writer.bytes_length,
      FixedBytes.length_eq, List.length_replicate]
    omega
  · rw [encoded, ends]
    nth_rewrite 2 [work]
    simp only [List.append_assoc]

theorem greeting_digest (number : UInt8) (name : Bool) (responseTo : Hash32) :
    @Hello.signingHash spelled (greeting number name responseTo) = ending number := by
  let _ := spelled
  obtain ⟨head, length, ends⟩ := greeting_ends number name responseTo
  apply spelled_ends "PARITR-P9-HELLO-v1" ends
  rw [ends, List.length_append, length, FixedBytes.length_eq]
  decide

theorem greeting_verifies (number : UInt8) (name : Bool) (responseTo : Hash32) :
    @Hello.verify spelled (greeting number name responseTo) 0 = true := by
  let _ := spelled
  have near : ¬absDiff 0 0 > 300 := by decide
  have key := greeting_width number name responseTo
  have signature : (greeting number name responseTo).signature.length = 64 := (FixedBytes.zero 64).length_eq
  unfold Hello.verify
  rw [if_neg]
  · rfl
  · simp only [not_or, Decidable.not_not]
    exact ⟨rfl, rfl, rfl, key, signature, near⟩

def greetingFrame (number : UInt8) (name : Bool) (responseTo : Hash32) : Bytes :=
  @WireMessage.encodeFrame spelled (.hello (greeting number name responseTo))

theorem greeting_fits (number : UInt8) (name : Bool) (responseTo : Hash32) :
    (greeting number name responseTo).Fits := by
  have chain : (utf8 CHAIN_ID).length ≤ 64 := by decide
  have url : (utf8 "").length ≤ 512 := by decide
  have signature : (FixedBytes.zero 64).bytes.length ≤ 64 := Nat.le_of_eq (FixedBytes.zero 64).length_eq
  exact ⟨chain, Nat.le_of_eq (greeting_width number name responseTo), url, signature⟩

theorem greeting_received (number : UInt8) (name : Bool) (responseTo : Hash32) :
    @verifiedHello spelled (greetingFrame number name responseTo) 0 =
      some (greeting number name responseTo) := by
  let _ := spelled
  apply verifiedHello_some _ (greeting_verifies number name responseTo)
  exact WireMessage.decodeFrame_encodeFrame (greeting_fits number name responseTo)

theorem pair_apart : @NodeIdentity.id spelled (pair true) ≠ @NodeIdentity.id spelled (pair false) := by
  rw [pair_id, pair_id]
  decide

theorem greeting_issued {log : List (PeerEvent Bool)} (number : UInt8) (name : Bool) (responseTo : Hash32)
    (fresh : Fresh PeerEvent.Mentions log (numbered number)) :
    @Issues spelled Bool pair log name responseTo (greeting number name responseTo) :=
  @Issues.mk spelled Bool pair log name responseTo _ ⟨_, _, _, rfl⟩ fresh

/-- The server's greeting, the client's response and the acknowledgement. -/
def serverHello : Hello := greeting 1 false Hash32.ZERO
def clientHello : Hello := greeting 2 true (numbered 1)
def acknowledgement : Hello := greeting 3 false (numbered 2)

theorem greeting_unforged {log : List (PeerEvent Bool)} {name : Bool} {hello : Hello}
    (key : hello.nodePublicKey = (pairKey name).bytes) (member : .sent name hello ∈ log) :
    @Unforged spelled Bool pair log hello := by
  intro other same
  have width : pairKey name = pairKey other := FixedBytes.ext (key.symm.trans same)
  have equal : name = other := by
    cases name <;> cases other <;> first | rfl | exact absurd width (by decide)
  exact ⟨hello, equal ▸ member, rfl⟩

/-- The run of the handshake: session 0 serves, session 1 has dialed it. -/
def opened : Network Bool :=
  (Network.start.record [.sent false serverHello] 0 (.greeted false serverHello)).record [] 1
    (.dialed true)

def responding : Network Bool :=
  opened.record [.heard serverHello, .sent true clientHello] 1
    (.responded true serverHello clientHello)

def admitting : Network Bool :=
  responding.record [.heard clientHello, .sent false acknowledgement] 0
    (.serving false serverHello clientHello)

def admitted : Network Bool :=
  admitting.record [.heard acknowledgement] 1 (.connected true serverHello clientHello acknowledgement)

theorem opened_run : @PeerRun spelled Bool pair opened := by
  let _ := spelled
  have greet : PeerStep pair Network.start
      (Network.start.record [.sent false serverHello] 0 (.greeted false serverHello)) :=
    PeerStep.greet rfl (greeting_issued 1 false Hash32.ZERO fun _ member => (nomatch member))
  exact (Relation.ReflTransGen.single greet).tail (PeerStep.dial rfl)

theorem respond_step : @PeerStep spelled Bool pair opened responding := by
  let _ := spelled
  have accepted : outboundFirst (pair true).id (greetingFrame 1 false Hash32.ZERO) 0 = some serverHello := by
    unfold outboundFirst
    rw [greeting_received, Option.filter_some, if_pos (decide_eq_true ⟨rfl, pair_apart.symm⟩)]
    rfl
  have issues : Issues pair (opened.log ++ [.heard serverHello]) true serverHello.challenge clientHello := by
    apply greeting_issued 2 true (numbered 1)
    unfold Fresh
    decide
  have signed : .sent false serverHello ∈ opened.log := List.mem_cons_self
  exact PeerStep.respond rfl accepted (greeting_unforged rfl signed) issues

theorem admit_step : @PeerStep spelled Bool pair responding admitting := by
  let _ := spelled
  have accepted : serveSocket (pair false).id serverHello (greetingFrame 2 true (numbered 1)) 0 =
      some clientHello := by
    unfold serveSocket
    rw [greeting_received, Option.filter_some, if_pos (decide_eq_true ⟨rfl, pair_apart⟩)]
    rfl
  have issues : Issues pair (responding.log ++ [.heard clientHello]) false clientHello.challenge
      acknowledgement := by
    apply greeting_issued 3 false (numbered 2)
    unfold Fresh
    decide
  have signed : .sent true clientHello ∈ responding.log := by simp [responding, Network.record]
  exact @PeerStep.serve spelled Bool pair responding 0 false serverHello clientHello acknowledgement _ 0
    true rfl accepted (greeting_unforged rfl signed) issues

theorem connect_step : @PeerStep spelled Bool pair admitting admitted := by
  let _ := spelled
  have accepted : outboundSecond serverHello clientHello (greetingFrame 3 false (numbered 2)) 0 =
      some acknowledgement := by
    unfold outboundSecond
    rw [greeting_received, Option.filter_some, if_pos (decide_eq_true ⟨rfl, rfl⟩)]
    rfl
  have signed : .sent false acknowledgement ∈ admitting.log := by simp [admitting, Network.record]
  exact @PeerStep.connect spelled Bool pair admitting 1 true serverHello clientHello acknowledgement _ 0
    true rfl accepted (greeting_unforged rfl signed)

theorem admitted_run : @PeerRun spelled Bool pair admitted :=
  ((opened_run.tail respond_step).tail admit_step).tail connect_step

def hashed : Bool ⊕ Fin 3 → String × Bytes
  | .inl name => ("PARITR-P9-NODE-ID-v1", (pairKey name).bytes)
  | .inr 0 => ("PARITR-P9-HELLO-v1", serverHello.unsigned.consensusEncode)
  | .inr 1 => ("PARITR-P9-HELLO-v1", clientHello.unsigned.consensusEncode)
  | .inr 2 => ("PARITR-P9-HELLO-v1", acknowledgement.unsigned.consensusEncode)

def digest : Bool ⊕ Fin 3 → Hash32
  | .inl name => lastBytes (pairKey name).bytes
  | .inr place => ending (UInt8.ofNat (place.val + 1))

theorem hashed_digest : ∀ label : Bool ⊕ Fin 3,
    @domainHash spelled (hashed label).1 (hashed label).2 = digest label
  | .inl name => pair_id name
  | .inr 0 => greeting_digest 1 false Hash32.ZERO
  | .inr 1 => greeting_digest 2 true (numbered 1)
  | .inr 2 => greeting_digest 3 false (numbered 2)

theorem digest_injective : ∀ first second : Bool ⊕ Fin 3, digest first = digest second → first = second := by
  decide

theorem admitted_log : admitted.log = [.sent false serverHello, .heard serverHello,
    .sent true clientHello, .heard clientHello, .sent false acknowledgement,
    .heard acknowledgement] := rfl

theorem admitted_hashed {query : String × Bytes}
    (member : query ∈ @Network.hashInputs Bool pair admitted) : ∃ label, query = hashed label := by
  rcases member with ⟨name, rfl⟩ | ⟨hello, heard, rest⟩ | ⟨node, hello, sent, rfl⟩
  · exact ⟨.inl name, rfl⟩
  · rw [admitted_log] at heard
    have known : hello = serverHello ∨ hello = clientHello ∨ hello = acknowledgement := by
      simpa using heard
    rcases rest with rfl | rfl
    · rcases known with rfl | rfl | rfl
      · exact ⟨.inl false, rfl⟩
      · exact ⟨.inl true, rfl⟩
      · exact ⟨.inl false, rfl⟩
    · rcases known with rfl | rfl | rfl
      · exact ⟨.inr 0, rfl⟩
      · exact ⟨.inr 1, rfl⟩
      · exact ⟨.inr 2, rfl⟩
  · rw [admitted_log] at sent
    have known : hello = serverHello ∨ hello = clientHello ∨ hello = acknowledgement := by
      have places : (node = false ∧ hello = serverHello) ∨ (node = true ∧ hello = clientHello) ∨
          node = false ∧ hello = acknowledgement := by simpa using sent
      exact places.imp And.right (Or.imp And.right And.right)
    rcases known with rfl | rfl | rfl
    · exact ⟨.inr 0, rfl⟩
    · exact ⟨.inr 1, rfl⟩
    · exact ⟨.inr 2, rfl⟩

theorem admitted_free : @CollisionFree spelled (@Network.hashInputs Bool pair admitted) := by
  intro first left second right same
  obtain ⟨one, rfl⟩ := admitted_hashed left
  obtain ⟨other, rfl⟩ := admitted_hashed right
  rw [hashed_digest, hashed_digest] at same
  rw [digest_injective one other same]

/-- The server hears the answer to its greeting, the client that to its response. -/
theorem handshake_fresh_mutual :
    (∃ answer, Follows admitted.log (.sent false serverHello) (.sent true answer) ∧
      answer.responseTo = numbered 1) ∧
    ∃ answer, Follows admitted.log (.sent true clientHello) (.sent false answer) ∧
      answer.responseTo = numbered 2 := by
  let _ := spelled
  obtain ⟨served, connected⟩ := handshake_fresh admitted_run admitted_free
  obtain ⟨answer, follows, answers, _⟩ := served 0 false serverHello clientHello true rfl rfl
  obtain ⟨reply, later, replies, _⟩ :=
    connected 1 true serverHello clientHello acknowledgement false rfl rfl
  exact ⟨⟨answer, follows, answers⟩, ⟨reply, later, replies⟩⟩

end ParitrNode
