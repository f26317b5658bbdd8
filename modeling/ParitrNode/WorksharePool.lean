import ParitrNode.Validation

/-! The live templates and workshares on top of one chain tip. -/

namespace ParitrNode
open OrderedMap

structure WorksharePool where
  anchor : Hash32
  templates : BTreeMap Hash32 BlockTemplate
  templateBytes : Nat
  shares : BTreeMap Hash32 Workshare
  pathWork : BTreeMap Hash32 Nat
  tip : Hash32

namespace WorksharePool

/-- `reset`: nothing of the old tip is kept. -/
def reset (anchor : Hash32) : WorksharePool := ⟨anchor, ∅, 0, ∅, ∅, Hash32.ZERO⟩

variable [Crypto]

def registerTemplate (pool : WorksharePool) (template : BlockTemplate) :
    Except ConsensusError WorksharePool :=
  if template.parent ≠ pool.anchor ∨ template.version ≠ BlockTemplate.VERSION ∨
      template.consensusEncode.length > MAX_TEMPLATE_BYTES then .error .invalidWorkshareChain
  else if (pool.templates[template.id]?).isSome then .ok pool
  else
    let encodedSize := template.consensusEncode.length
    if pool.templates.size ≥ MAX_TEMPLATES_PER_BLOCK ∨
        pool.templateBytes + encodedSize > 64 * 1024 * 1024 then .error .sizeLimit
    else .ok { pool with
      templateBytes := pool.templateBytes + encodedSize
      templates := pool.templates.insert template.id template }

omit [Crypto] in
/-- The walk from a share to the start of its chain. `oldest :: later` is the
path so far, oldest first; the source collects it newest first and reverses. -/
def walkBack (shares : BTreeMap Hash32 Workshare) (seen : List Hash32) (oldest : Workshare)
    (later : List Workshare) : Except ConsensusError (List Workshare) :=
  let previous := oldest.previousWorkshare
  if previous = Hash32.ZERO then .ok (oldest :: later)
  else if previous ∈ seen ∨ later.length + 1 ≥ MAX_WORKSHARES_PER_BLOCK then
    .error .invalidWorkshareChain
  else match shares[previous]? with
    | none => .error .invalidWorkshareChain
    | some share => walkBack shares (previous :: seen) share (oldest :: later)
termination_by MAX_WORKSHARES_PER_BLOCK - later.length
decreasing_by
  simp only [List.length_cons]
  omega

omit [Crypto] in
def referencedTemplates (pool : WorksharePool) (path : List Workshare) : List BlockTemplate :=
  pool.templates.toList.filterMap fun entry =>
    if entry.1 ∈ path.map Workshare.templateId then some entry.2 else none

omit [Crypto] in
def candidateWitness (pool : WorksharePool) (share : Workshare) :
    Except ConsensusError WorkshareWitness :=
  if share.candidateHeader.previousBlock ≠ pool.anchor ∨
      (pool.templates[share.templateId]?).isNone then .error .invalidWorkshareChain
  else do
    let path ← walkBack pool.shares [] share []
    return { version := WorkshareWitness.VERSION
             templates := pool.referencedTemplates path
             workshares := path }

def parentWork (pool : WorksharePool) (share : Workshare) : Except ConsensusError Nat :=
  if share.previousWorkshare = Hash32.ZERO then .ok 0
  else Checked.okOr .invalidWorkshareChain pool.pathWork[share.previousWorkshare]?

def accept (pool : WorksharePool) (share : Workshare) :
    Except ConsensusError (Bool × WorksharePool) :=
  if (pool.shares[share.id]?).isSome then .ok (false, pool)
  else if pool.shares.size ≥ 8192 then .error .sizeLimit
  else do
    let parentWork ← pool.parentWork share
    let weight ← workshareWeight share.candidateHeader.bits
    if parentWork + weight > MAX_U256 then .error .arithmeticOverflow
    else
      let cumulative := parentWork + weight
      let stored : WorksharePool :=
        { pool with
          shares := pool.shares.insert share.id share
          pathWork := pool.pathWork.insert share.id cumulative }
      let tipWork := (stored.pathWork[stored.tip]?).getD 0
      if cumulative > tipWork ∨ (cumulative = tipWork ∧ share.id < stored.tip) then
        return (true, { stored with tip := share.id })
      else return (false, stored)

omit [Crypto] in
/-- The path to the preferred share; `none` is a failing `expect` or index. -/
def witness (pool : WorksharePool) : Option WorkshareWitness :=
  if pool.tip = Hash32.ZERO then some WorkshareWitness.empty
  else do
    let share ← pool.shares[pool.tip]?
    (pool.candidateWitness share).toOption

end WorksharePool

end ParitrNode
