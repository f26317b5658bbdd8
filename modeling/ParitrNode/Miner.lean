import ParitrNode.Node

/-! The miner: what one nonce makes of a mining candidate. -/

namespace ParitrNode
open ByteCodec

/-- The outcome of one turn of the inner loop; `panicked` is a failing `expect`. -/
inductive Mined where
  | block (block : Block)
  | workshare (share : Workshare)
  | nothing
  | failed (reason : String)
  | panicked

namespace MiningCandidate

variable [Crypto]

def previousWorkshare (candidate : MiningCandidate) : Hash32 :=
  (candidate.block.workshareWitness.workshares.getLast?.map Workshare.id).getD Hash32.ZERO

def workshare (candidate : MiningCandidate) (extranonce : UInt64) (header : BlockHeader)
    (claim : RewardClaim) : Workshare :=
  { version := Workshare.VERSION
    previousWorkshare := candidate.previousWorkshare
    templateId := candidate.template.id
    miner := claim.finder
    extranonce
    candidateHeader := header }

def tryNonce (pow : PowVerifier) (candidate : MiningCandidate) (extranonce nonce : UInt64) : Mined :=
  let header := { candidate.block.header with nonce }
  match pow.hash candidate.seed header.consensusEncode with
  | .error reason => .failed reason
  | .ok hash =>
    if hashMeetsTarget hash candidate.blockTarget then .block { candidate.block with header }
    else if hashMeetsTarget hash candidate.workshareTarget then
      match candidate.block.rewardClaim with
      | none => .panicked
      | some claim => .workshare (candidate.workshare extranonce header claim)
    else .nothing

theorem tryNonce_workshare_iff {pow : PowVerifier} {candidate : MiningCandidate}
    {extranonce nonce : UInt64} {share : Workshare} :
    candidate.tryNonce pow extranonce nonce = .workshare share ↔
      ∃ hash claim, pow.hash candidate.seed
          ({ candidate.block.header with nonce } : BlockHeader).consensusEncode = .ok hash ∧
        ¬hashMeetsTarget hash candidate.blockTarget ∧ hashMeetsTarget hash candidate.workshareTarget ∧
        candidate.block.rewardClaim = some claim ∧
        share = candidate.workshare extranonce { candidate.block.header with nonce } claim := by
  unfold tryNonce
  dsimp only
  cases hashed : pow.hash candidate.seed
      ({ candidate.block.header with nonce } : BlockHeader).consensusEncode with
  | error reason =>
    constructor
    · intro impossible
      cases impossible
    · intro ⟨_, _, impossible, _⟩
      cases impossible
  | ok hash =>
    dsimp only
    constructor
    · intro found
      split at found
      · cases found
      · next misses =>
        split at found
        · next meets =>
          split at found
          · cases found
          · next claim present =>
            cases found
            exact ⟨hash, claim, rfl, misses, meets, present, rfl⟩
        · cases found
    · intro ⟨_, claim, same, misses, meets, present, built⟩
      cases same
      rw [if_neg misses, if_pos meets, present, built]

end MiningCandidate

end ParitrNode
