import ParitrNode.Chain

/-!
The SQLite tables the node restarts from. A SQL transaction is one step that
commits or leaves the tables as they were; a call may also fail on its own.
-/

namespace ParitrNode
open ByteCodec OrderedMap

structure StoredBlock where
  height : UInt64
  parent : Hash32
  data : Bytes
  receivedAt : UInt64

def StoredBlock.load [Crypto] (row : StoredBlock) : Except String Block :=
  match Block.consensusDecode row.data with
  | .ok block => .ok block
  | .error _ => .error "invalid stored block encoding"

structure StateSnapshot where
  blockHash : Hash32
  stateRoot : Hash32
  data : Bytes
  createdAt : UInt64

structure Storage where
  blocks : BTreeMap Hash32 StoredBlock
  activeChain : BTreeMap UInt64 Hash32
  stateSnapshots : BTreeMap UInt64 StateSnapshot
  /-- The metadata row `tip`. -/
  tip : Option Hash32

/-- Which storage calls fail for a reason outside the program, and how. -/
structure Disk where
  storeSideBlock : Option String
  saveChain : Option String
  block : Hash32 → Option String

def Disk.reliable : Disk := ⟨none, none, fun _ => none⟩

def fitsI64 (value : UInt64) : Prop := value.toNat < 2 ^ 63

instance (value : UInt64) : Decidable (fitsI64 value) := inferInstanceAs (Decidable (_ < _))

namespace Storage

instance : Inhabited Storage := ⟨⟨∅, ∅, ∅, none⟩⟩

variable [Crypto]

/-- `INSERT INTO blocks ... ON CONFLICT(hash) DO NOTHING`. -/
def insertBlock (storage : Storage) (block : Block) (now : UInt64) : Except String Storage :=
  if ¬fitsI64 block.header.height ∨ ¬fitsI64 now then .error "out of range integral type conversion"
  else if (storage.blocks[block.id]?).isSome then .ok storage
  else .ok { storage with
    blocks := storage.blocks.insert block.id
      ⟨block.header.height, block.header.previousBlock, block.consensusEncode, now⟩ }

/-- `INSERT INTO active_chain`: the height is the primary key, the hash unique. -/
def insertActive (storage : Storage) (block : Block) : Except String Storage :=
  if ¬fitsI64 block.header.height then .error "out of range integral type conversion"
  else if (storage.activeChain[block.header.height]?).isSome then
    .error "UNIQUE constraint failed: active_chain.height"
  else if storage.activeChain.toList.any (fun row => row.2 = block.id) then
    .error "UNIQUE constraint failed: active_chain.hash"
  else .ok { storage with activeChain := storage.activeChain.insert block.header.height block.id }

/-- `DELETE ... WHERE height NOT IN (... ORDER BY height DESC LIMIT 3)`. -/
def pruneSnapshots (storage : Storage) : Storage :=
  let keep := (storage.stateSnapshots.toList.map Prod.fst).reverse.take 3
  { storage with
    stateSnapshots := storage.stateSnapshots.filter (fun height _ => decide (height ∈ keep)) }

def saveChain (storage : Storage) (chain : Chain) (disk : Disk) (now : UInt64) :
    Except String Storage :=
  match disk.saveChain with
  | some reason => .error reason
  | none => do
    let stored ← chain.blocks.foldlM (fun storage block => storage.insertBlock block now) storage
    let indexed ← chain.blocks.foldlM insertActive { stored with activeChain := ∅ }
    if ¬fitsI64 chain.height ∨ ¬fitsI64 now then .error "out of range integral type conversion"
    else
      let snapshot : StateSnapshot :=
        ⟨chain.tip.id, chain.state.root, chain.state.consensusEncode, now⟩
      return pruneSnapshots { indexed with
        stateSnapshots := indexed.stateSnapshots.insert chain.height snapshot
        tip := some chain.tip.id }

/-- `SELECT b.data FROM active_chain a JOIN blocks b ON b.hash=a.hash ORDER BY a.height`. -/
def loadActiveBlocks (storage : Storage) : Except String (List Block) :=
  (storage.activeChain.toList.filterMap fun row => storage.blocks[row.2]?).mapM StoredBlock.load

def block (storage : Storage) (hash : Hash32) (disk : Disk) : Except String (Option Block) :=
  match disk.block hash with
  | some reason => .error reason
  | none => match storage.blocks[hash]? with
    | none => .ok none
    | some row => match Block.consensusDecode row.data with
      | .ok block => .ok (some block)
      | .error _ => .error "invalid stored block"

def storeSideBlock (storage : Storage) (block : Block) (disk : Disk) (now : UInt64) :
    Except String Storage :=
  match disk.storeSideBlock with
  | some reason => .error reason
  | none => storage.insertBlock block now

end Storage

end ParitrNode
