import ParitrNode.Validation

/-! The active chain: replay from genesis, extension, and fork choice. -/

namespace ParitrNode
open ByteCodec

inductive ChainEvent where
  | extended (block : Hash32) (height : UInt64)
  | reorganized (oldTip newTip : Hash32) (forkHeight : Nat)
  | known
  | sideChain
  deriving DecidableEq

/-- A chain always contains genesis, so it has a tip. -/
structure Chain where
  blocks : List Block
  state : LedgerState
  cumulativeWork : Nat
  nonempty : blocks ≠ []

namespace Chain

def tip (chain : Chain) : Block := chain.blocks.getLast chain.nonempty

def height (chain : Chain) : UInt64 := chain.tip.header.height

def blockAt (chain : Chain) (height : UInt64) : Option Block := chain.blocks[height.toNat]?

variable [Crypto]

def blockByHash (chain : Chain) (hash : Hash32) : Option Block :=
  chain.blocks.find? (fun block => block.id = hash)

def genesis : Chain :=
  { blocks := [Block.genesis]
    state := default
    cumulativeWork := targetWork initialTargetOfGenesis
    nonempty := List.cons_ne_nil _ _ }
where
  initialTargetOfGenesis : Nat := (bitsToTarget Block.genesis.header.bits).getD 0

/-- The loop of `from_blocks`: each block against the blocks before it. -/
def replay (pow : PowVerifier) (now : UInt64) (done : List Block) (state : LedgerState) :
    List Block → Except ConsensusError LedgerState
  | [] => .ok state
  | block :: rest => do
    let next ← validateBlock block done state pow now
    replay pow now (done ++ [block]) next rest

def fromBlocks (blocks : List Block) (pow : PowVerifier) (now : UInt64) :
    Except ConsensusError Chain :=
  match blocks with
  | [] => .error .differentGenesis
  | first :: rest =>
    if first ≠ Block.genesis then .error .differentGenesis
    else do
      let state ← replay pow now [first] default rest
      let work ← ParitrNode.cumulativeWork (first :: rest)
      return { blocks := first :: rest, state, cumulativeWork := work,
               nonempty := List.cons_ne_nil _ _ }

def append (chain : Chain) (block : Block) (pow : PowVerifier) (now : UInt64) :
    Except ConsensusError (ChainEvent × Chain) :=
  if (chain.blockByHash block.id).isSome then .ok (.known, chain)
  else if block.header.previousBlock ≠ chain.tip.id then .error .wrongParent
  else do
    let nextState ← validateBlock block chain.blocks chain.state pow now
    let work ← addWork chain.cumulativeWork block
    return (.extended block.id block.header.height,
      { blocks := chain.blocks ++ [block], state := nextState, cumulativeWork := work,
        nonempty := by simp })

/-- More work, or equal work and the lower tip id. -/
def preferred (work : Nat) (tip : Hash32) (work' : Nat) (tip' : Hash32) : Prop :=
  work > work' ∨ (work = work' ∧ tip < tip')

instance (work : Nat) (tip : Hash32) (work' : Nat) (tip' : Hash32) :
    Decidable (preferred work tip work' tip') := by
  unfold preferred
  infer_instance

def forkIndex (first second : List Block) : Nat :=
  ((first.zip second).takeWhile (fun pair => decide (pair.1.id = pair.2.id))).length - 1

/-- The candidate is validated from genesis before anything changes. -/
def considerChain (chain : Chain) (candidate : List Block) (pow : PowVerifier) (now : UInt64) :
    Except ConsensusError (ChainEvent × Chain) :=
  if candidate.head? ≠ chain.blocks.head? then .error .differentGenesis
  else do
    let validated ← fromBlocks candidate pow now
    if preferred validated.cumulativeWork validated.tip.id chain.cumulativeWork chain.tip.id then
      return (.reorganized chain.tip.id validated.tip.id (forkIndex chain.blocks validated.blocks),
        validated)
    else return (.sideChain, chain)

end Chain

end ParitrNode
