import ParitrNode.Crypto
import ParitrNode.Library.KeyedCell
import ParitrNode.Library.SharedPool

/-!
The RandomX context that all workers of a node share. Workers ask for hashes under their own
seeds at the same time; the context is replaced when the seed changes, and the VMs of a
context are lent out one to a worker.
-/

namespace ParitrNode
open ByteCodec

namespace RandomX

def FLAG_LARGE_PAGES : UInt32 := 1
def FLAG_FULL_MEM : UInt32 := 4
def FLAG_JIT : UInt32 := 8

/-- `RandomXMode`. A `usize` has 64 bits. -/
inductive Mode where
  | light
  | fast (initializationThreads : UInt64)

inductive Error where
  | cacheAllocation
  | datasetAllocation
  | vmAllocation
  | selfTest

/-- The seed that `init_cache` was called with. -/
structure Cache where
  seed : Bytes

/-- For each item of a dataset, the seed of the cache it was computed from. -/
abbrev Dataset := Nat → Option Bytes

/-- The native library. A VM reads the memory it was created over. -/
structure Api where
  getFlags : UInt32
  datasetItemCount : UInt64
  calculateHash : (flags : UInt32) → (cache : Option Cache) → (dataset : Option Dataset) → Bytes → Hash32

/-- The native library computes one function, from the cache of a seed or from a dataset
whose items all come from that cache. -/
structure Api.Lawful (api : Api) (randomx : Bytes → Bytes → Hash32) : Prop where
  light : ∀ flags seed input, api.calculateHash flags (some ⟨seed⟩) none input = randomx seed input
  full : ∀ flags dataset seed input,
    (∀ item < api.datasetItemCount.toNat, dataset item = some seed) →
      api.calculateHash flags none (some dataset) input = randomx seed input

structure Vm where
  /-- The context whose list the VM goes back to, and its number there. -/
  context : Nat
  serial : Nat
  flags : UInt32
  cache : Option Cache
  dataset : Option Dataset

structure Context where
  /-- The address of the context. -/
  id : Nat
  seed : Bytes
  flags : UInt32
  cache : Cache
  dataset : Option Dataset

/-! The dataset is filled by threads, each over a range of its own. -/

def rangeStart (itemCount threads thread : UInt64) : UInt64 := itemCount * thread / threads

def rangeEnd (itemCount threads thread : UInt64) : UInt64 := itemCount * (thread + 1) / threads

def initDataset (dataset : Dataset) (cache : Cache) (start count : UInt64) : Dataset := fun item =>
  if start.toNat ≤ item ∧ item < start.toNat + count.toNat then some cache.seed else dataset item

def initRange (itemCount threads : UInt64) (cache : Cache) (dataset : Dataset) (thread : UInt64) : Dataset :=
  let start := rangeStart itemCount threads thread
  initDataset dataset cache start (rangeEnd itemCount threads thread - start)

def threadList (threads : UInt64) : List UInt64 := (List.range threads.toNat).map UInt64.ofNat

structure Memory where
  cache : Bool
  dataset : Bool

/-- `Context::new`. The threads run in any order. -/
def Context.new (api : Api) (seed : Bytes) (mode : Mode) (id : Nat) (memory : Memory) (order : List UInt64) :
    Except Error Context :=
  let flags := api.getFlags &&& ~~~FLAG_FULL_MEM
  let flags := flags &&& ~~~FLAG_LARGE_PAGES
  if memory.cache then
    let cache : Cache := ⟨seed⟩
    match mode with
    | .fast initializationThreads =>
      if memory.dataset then
        let itemCount := api.datasetItemCount
        let threads := max initializationThreads 1
        let dataset := order.foldl (initRange itemCount threads cache) fun _ => none
        .ok { id, seed, flags := flags ||| FLAG_FULL_MEM, cache, dataset := some dataset }
      else .error .datasetAllocation
    | .light => .ok { id, seed, flags, cache, dataset := none }
  else .error .cacheAllocation

/-- `create_vm`: over the dataset where there is one. -/
def Context.vm (context : Context) (serial : Nat) (flags : UInt32) : Vm :=
  { context := context.id
    serial
    flags
    cache := if context.dataset.isSome then none else some context.cache
    dataset := context.dataset }

/-- The VM an idle list gives, or a new one: without JIT where the kernel forbids it. -/
def Context.takeVm (context : Context) (idleVms : List Vm) (created : Nat) (available : UInt32 → Bool) :
    Except Error (Vm × List Vm × Nat) :=
  match idleVms.getLast? with
  | some vm => .ok (vm, idleVms.dropLast, created)
  | none =>
    if available context.flags then .ok (context.vm created context.flags, idleVms, created + 1)
    else if context.flags &&& FLAG_JIT ≠ 0 ∧ available (context.flags &&& ~~~FLAG_JIT) then
      .ok (context.vm created (context.flags &&& ~~~FLAG_JIT), idleVms, created + 1)
    else .error .vmAllocation

inductive Use where
  | waiting
  | running (vm : Vm)
  | storing (vm : Vm) (output : Hash32)

structure Answer where
  seed : Bytes
  input : Bytes
  result : Except Error Hash32

end RandomX

/-- The workers in `calculate`, the context they share and the idle VMs of every context. -/
structure RandomX (Worker : Type) where
  context : KeyedCell.Cell Worker Bytes RandomX.Context RandomX.Error
  input : Worker → Bytes
  use : Worker → RandomX.Use
  idleVms : Nat → List RandomX.Vm
  created : Nat → Nat
  answers : List RandomX.Answer

namespace RandomX

variable {Worker : Type} [DecidableEq Worker]

def Makes (api : Api) (mode : Mode) (made : List Context) (seed : Bytes) (context : Context) : Prop :=
  ∃ memory order, (∀ threads, mode = .fast threads → order.Perm (threadList (max threads 1))) ∧
    Context.new api seed mode made.length memory order = .ok context

def SELF_TEST : Hash32 :=
  ⟨[0x63, 0x91, 0x83, 0xaa, 0xe1, 0xbf, 0x4c, 0x9a, 0x35, 0x88, 0x4c, 0xb4, 0x6b, 0x09, 0xca, 0xd9,
    0x17, 0x5f, 0x04, 0xef, 0xd7, 0x68, 0x4e, 0x72, 0x62, 0xa0, 0xac, 0x1c, 0x2f, 0x0b, 0x4e, 0x3f], rfl⟩

/-- `RandomX::load`, once the library is found: a context in light mode, for the self-test. -/
def load (api : Api) (memory : Memory) (available : UInt32 → Bool) : Except Error (RandomX Worker) := do
  let context ← Context.new api (ascii "test key 000") .light 0 memory []
  let (vm, left, created) ← context.takeVm [] 0 available
  let output := api.calculateHash vm.flags vm.cache vm.dataset (ascii "This is a test")
  if output = SELF_TEST then
    return { context := .initial context
             input := fun _ => []
             use := fun _ => .waiting
             idleVms := Function.update (fun _ => []) 0 (left ++ [vm])
             created := Function.update (fun _ => 0) 0 created
             answers := [] }
  else .error .selfTest

def answer (randomX : RandomX Worker) (worker : Worker) (seed : Bytes) (result : Except Error Hash32) :
    RandomX Worker :=
  { randomX with
    context := randomX.context.move worker .idle
    use := Function.update randomX.use worker .waiting
    answers := randomX.answers ++ [⟨seed, randomX.input worker, result⟩] }

/-- One worker goes on: the sections under a lock are one step each. -/
inductive Step (api : Api) (mode : Mode) (worker : Worker) : RandomX Worker → RandomX Worker → Prop where
  | call {randomX : RandomX Worker} (seed input : Bytes)
      (idle : randomX.context.phase worker = .idle) :
      Step api mode worker randomX
        { randomX with
          context := randomX.context.move worker (.looking seed)
          input := Function.update randomX.input worker input }
  | context {randomX : RandomX Worker}
      {next : KeyedCell.Cell Worker Bytes Context Error}
      (entered : randomX.context.phase worker ≠ .idle)
      (inside : ∀ seed outcome, randomX.context.phase worker ≠ .done seed outcome)
      (moves : KeyedCell.Step Context.seed (Makes api mode) worker randomX.context next) :
      Step api mode worker randomX { randomX with context := next }
  | noContext {randomX : RandomX Worker} {seed : Bytes} {error : Error}
      (failed : randomX.context.phase worker = .done seed (.error error)) :
      Step api mode worker randomX (randomX.answer worker seed (.error error))
  | take {randomX : RandomX Worker} {seed : Bytes} {context : Context} {vm : Vm}
      {left : List Vm} {created : Nat} (available : UInt32 → Bool)
      (has : randomX.context.phase worker = .done seed (.ok context))
      (waits : randomX.use worker = .waiting)
      (taken : context.takeVm (randomX.idleVms context.id) (randomX.created context.id) available =
        .ok (vm, left, created)) :
      Step api mode worker randomX
        { randomX with
          use := Function.update randomX.use worker (.running vm)
          idleVms := Function.update randomX.idleVms context.id left
          created := Function.update randomX.created context.id created }
  | noVm {randomX : RandomX Worker} {seed : Bytes} {context : Context} {error : Error}
      (available : UInt32 → Bool)
      (has : randomX.context.phase worker = .done seed (.ok context))
      (waits : randomX.use worker = .waiting)
      (failed : context.takeVm (randomX.idleVms context.id) (randomX.created context.id) available =
        .error error) :
      Step api mode worker randomX (randomX.answer worker seed (.error error))
  | compute {randomX : RandomX Worker} {vm : Vm}
      (runs : randomX.use worker = .running vm) :
      Step api mode worker randomX
        { randomX with
          use := Function.update randomX.use worker
            (.storing vm (api.calculateHash vm.flags vm.cache vm.dataset (randomX.input worker))) }
  | store {randomX : RandomX Worker} {seed : Bytes} {context : Context} {vm : Vm}
      {output : Hash32} (has : randomX.context.phase worker = .done seed (.ok context))
      (stores : randomX.use worker = .storing vm output) :
      Step api mode worker randomX
        { randomX.answer worker seed (.ok output) with
          idleVms := Function.update randomX.idleVms context.id (randomX.idleVms context.id ++ [vm]) }

/-- Any interleaving of the workers, from a library that passed its self-test. -/
inductive Reached (api : Api) (mode : Mode) : RandomX Worker → Prop where
  | load {randomX : RandomX Worker} (memory : Memory) (available : UInt32 → Bool)
      (loaded : load api memory available = .ok randomX) : Reached api mode randomX
  | step {randomX next : RandomX Worker} {worker : Worker} (earlier : Reached api mode randomX)
      (step : Step api mode worker randomX next) : Reached api mode next

/-! The ranges of the threads. -/

def Covers (itemCount threads : UInt64) (item : Nat) (thread : UInt64) : Prop :=
  (rangeStart itemCount threads thread).toNat ≤ item ∧ item < (rangeEnd itemCount threads thread).toNat

instance decidableCovers (itemCount threads : UInt64) (item : Nat) (thread : UInt64) :
    Decidable (Covers itemCount threads item thread) := inferInstanceAs (Decidable (_ ∧ _))

section Ranges

variable {itemCount threads thread : UInt64} (fits : itemCount.toNat * threads.toNat < 2 ^ 64)

include fits

theorem rangeStart_toNat (inside : thread.toNat < threads.toNat) :
    (rangeStart itemCount threads thread).toNat = itemCount.toNat * thread.toNat / threads.toNat := by
  have below : itemCount.toNat * thread.toNat < 2 ^ 64 :=
    (Nat.mul_le_mul_left _ (Nat.le_of_lt inside)).trans_lt fits
  unfold rangeStart
  rw [UInt64.toNat_div, UInt64.toNat_mul, Nat.mod_eq_of_lt below]

theorem rangeEnd_toNat (inside : thread.toNat < threads.toNat) :
    (rangeEnd itemCount threads thread).toNat = itemCount.toNat * (thread.toNat + 1) / threads.toNat := by
  have following : (thread + 1).toNat = thread.toNat + 1 := by
    have := threads.toNat_lt
    rw [UInt64.toNat_add, UInt64.toNat_one, Nat.mod_eq_of_lt (by omega)]
  have below : itemCount.toNat * (thread.toNat + 1) < 2 ^ 64 :=
    (Nat.mul_le_mul_left _ inside).trans_lt fits
  unfold rangeEnd
  rw [UInt64.toNat_div, UInt64.toNat_mul, following, Nat.mod_eq_of_lt below]

theorem rangeEnd_le (inside : thread.toNat < threads.toNat) :
    (rangeEnd itemCount threads thread).toNat ≤ itemCount.toNat := by
  rw [rangeEnd_toNat fits inside]
  apply Nat.div_le_of_le_mul
  rw [Nat.mul_comm threads.toNat]
  exact Nat.mul_le_mul_left _ inside

theorem covers_iff {item : Nat} (inside : thread.toNat < threads.toNat) (small : item < itemCount.toNat) :
    Covers itemCount threads item thread ↔
      thread.toNat = ((item + 1) * threads.toNat - 1) / itemCount.toNat := by
  have some : 0 < threads.toNat := Nat.zero_lt_of_lt inside
  have whole : 0 < (item + 1) * threads.toNat := Nat.mul_pos (Nat.succ_pos item) some
  unfold Covers
  rw [rangeStart_toNat fits inside, rangeEnd_toNat fits inside, ← Nat.lt_succ_iff,
    Nat.div_lt_iff_lt_mul some, Nat.lt_iff_add_one_le, Nat.lt_iff_add_one_le,
    Nat.le_div_iff_mul_le some, eq_comm, Nat.div_eq_iff (Nat.zero_lt_of_lt small)]
  rw [Nat.succ_eq_add_one, Nat.mul_comm itemCount.toNat thread.toNat,
    Nat.mul_comm itemCount.toNat (thread.toNat + 1), Nat.add_mul thread.toNat, Nat.one_mul]
  omega

omit fits in
theorem thread_lt {item : Nat} (some : 0 < threads.toNat) (small : item < itemCount.toNat) :
    ((item + 1) * threads.toNat - 1) / itemCount.toNat < threads.toNat := by
  have whole : 0 < (item + 1) * threads.toNat := Nat.mul_pos (Nat.succ_pos item) some
  have below : (item + 1) * threads.toNat ≤ itemCount.toNat * threads.toNat := Nat.mul_le_mul_right _ small
  apply (Nat.div_lt_iff_lt_mul (Nat.zero_lt_of_lt small)).mpr
  rw [Nat.mul_comm threads.toNat]
  omega

theorem range_unique {item : Nat} (small : item < itemCount.toNat) (some : 0 < threads.toNat) :
    ∃! thread, thread ∈ threadList threads ∧ Covers itemCount threads item thread := by
  have bound := threads.toNat_lt
  have inside := thread_lt some small
  have value : (UInt64.ofNat (((item + 1) * threads.toNat - 1) / itemCount.toNat)).toNat =
      ((item + 1) * threads.toNat - 1) / itemCount.toNat := UInt64.toNat_ofNat_of_lt' (inside.trans bound)
  refine ⟨_, ⟨List.mem_map.mpr ⟨_, List.mem_range.mpr inside, rfl⟩, ?_⟩, ?_⟩
  · apply (covers_iff fits _ small).mpr value
    rw [value]
    exact inside
  · intro other ⟨listed, covers⟩
    have ⟨index, ranged, same⟩ := List.mem_map.mp listed
    have below := List.mem_range.mp ranged
    have place : other.toNat = index := by
      rw [← same]
      exact UInt64.toNat_ofNat_of_lt' (below.trans bound)
    apply UInt64.toNat_inj.mp
    rw [value]
    exact (covers_iff fits (by omega) small).mp covers

theorem initRange_covers {cache : Cache} {dataset : Dataset} (inside : thread.toNat < threads.toNat)
    (item : Nat) : initRange itemCount threads cache dataset thread item =
      if Covers itemCount threads item thread then some cache.seed else dataset item := by
  have ordered : (rangeStart itemCount threads thread).toNat ≤ (rangeEnd itemCount threads thread).toNat := by
    rw [rangeStart_toNat fits inside, rangeEnd_toNat fits inside]
    exact Nat.div_le_div_right (Nat.mul_le_mul_left _ (Nat.le_succ _))
  have count : (rangeStart itemCount threads thread).toNat +
      (rangeEnd itemCount threads thread - rangeStart itemCount threads thread).toNat =
        (rangeEnd itemCount threads thread).toNat := by
    rw [UInt64.toNat_sub_of_le _ _ (UInt64.le_iff_toNat_le.mpr ordered)]
    omega
  unfold initRange initDataset
  rw [count]
  exact if_congr Iff.rfl rfl rfl

theorem foldl_initRange {cache : Cache} {order : List UInt64} (item : Nat) (dataset : Dataset)
    (inside : ∀ thread ∈ order, thread.toNat < threads.toNat) :
    order.foldl (initRange itemCount threads cache) dataset item =
      if ∃ thread ∈ order, Covers itemCount threads item thread then some cache.seed else dataset item := by
  induction order generalizing dataset with
  | nil => rw [if_neg (fun ⟨_, listed, _⟩ => absurd listed List.not_mem_nil), List.foldl_nil]
  | cons first rest ih =>
    rw [List.foldl_cons, ih _ fun thread listed => inside thread (List.mem_cons_of_mem _ listed),
      initRange_covers fits (inside first List.mem_cons_self)]
    simp only [List.exists_mem_cons_iff]
    by_cases here : Covers itemCount threads item first
    · simp only [here, true_or, if_true, ite_self]
    · simp only [here, false_or, if_false]

end Ranges

theorem mem_threadList {threads thread : UInt64} (listed : thread ∈ threadList threads) :
    thread.toNat < threads.toNat := by
  have ⟨index, ranged, same⟩ := List.mem_map.mp listed
  have below := List.mem_range.mp ranged
  have bound := threads.toNat_lt
  rw [← same, UInt64.toNat_ofNat_of_lt' (below.trans bound)]
  exact below

def Mode.threads : Mode → Nat
  | .light => 1
  | .fast initializationThreads => (max initializationThreads 1).toNat

/-- The product that splits the dataset does not wrap. -/
def Mode.Fits (mode : Mode) (api : Api) : Prop := api.datasetItemCount.toNat * mode.threads < 2 ^ 64

theorem one_le_max (threads : UInt64) : 0 < (max threads 1).toNat := by
  have bound : (1 : UInt64) ≤ max threads 1 := by
    change (1 : UInt64) ≤ if threads ≤ 1 then 1 else threads
    split
    · decide
    · rename_i more
      exact UInt64.le_of_lt (UInt64.not_le.mp more)
  exact UInt64.le_iff_toNat_le.mp bound

theorem foldl_filled {itemCount threads : UInt64} (fits : itemCount.toNat * threads.toNat < 2 ^ 64)
    (some : 0 < threads.toNat) {order : List UInt64} (ran : order.Perm (threadList threads)) (cache : Cache)
    (item : Nat) : order.foldl (initRange itemCount threads cache) (fun _ => none) item =
      if item < itemCount.toNat then .some cache.seed else none := by
  have inside : ∀ thread ∈ order, thread.toNat < threads.toNat :=
    fun thread listed => mem_threadList (ran.mem_iff.mp listed)
  rw [foldl_initRange fits item _ inside]
  by_cases small : item < itemCount.toNat
  · have ⟨thread, ⟨listed, covers⟩, _⟩ := range_unique fits small some
    rw [if_pos small, if_pos ⟨thread, ran.mem_iff.mpr listed, covers⟩]
  · rw [if_neg small, if_neg]
    intro ⟨thread, listed, _, below⟩
    exact small (below.trans_le (rangeEnd_le fits (inside thread listed)))

theorem Context.new_ok {api : Api} {seed : Bytes} {mode : Mode} {id : Nat} {memory : Memory}
    {order : List UInt64} {context : Context} (new : Context.new api seed mode id memory order = .ok context) :
    context.id = id ∧ context.seed = seed ∧ context.cache.seed = seed ∧
      ((mode = .light ∧ context.dataset = none) ∨
        ∃ threads, mode = .fast threads ∧ context.dataset =
          some (order.foldl (initRange api.datasetItemCount (max threads 1) context.cache) fun _ => none)) := by
  unfold Context.new at new
  dsimp only at new
  split at new
  · cases mode with
    | light =>
      cases new
      exact ⟨rfl, rfl, rfl, .inl ⟨rfl, rfl⟩⟩
    | fast threads =>
      dsimp only at new
      split at new
      · cases new
        exact ⟨rfl, rfl, rfl, .inr ⟨threads, rfl, rfl⟩⟩
      · cases new
  · cases new

/-- A dataset is filled to its end and no further, each item by one thread, in whatever order
the threads run. -/
theorem dataset_filled_once {api : Api} {seed : Bytes} {threads : UInt64} {id : Nat} {memory : Memory}
    {order : List UInt64} {context : Context} (fits : Mode.Fits (.fast threads) api)
    (ran : order.Perm (threadList (max threads 1)))
    (new : Context.new api seed (.fast threads) id memory order = .ok context) :
    (∃ dataset, context.dataset = some dataset ∧
      ∀ item, dataset item = if item < api.datasetItemCount.toNat then some seed else none) ∧
    (∀ item < api.datasetItemCount.toNat,
      ∃! thread, thread ∈ order ∧ Covers api.datasetItemCount (max threads 1) item thread) ∧
    ∀ thread ∈ order,
      (rangeEnd api.datasetItemCount (max threads 1) thread).toNat ≤ api.datasetItemCount.toNat := by
  have ⟨_, _, own, memory⟩ := Context.new_ok new
  rcases memory with ⟨light, _⟩ | ⟨_, fast, filled⟩
  · cases light
  · cases fast
    refine ⟨⟨_, filled, ?_⟩, ?_, ?_⟩
    · intro item
      rw [foldl_filled fits (one_le_max threads) ran, own]
    · intro item small
      simp only [ran.mem_iff]
      exact range_unique fits small (one_le_max threads)
    · exact fun thread listed => rangeEnd_le fits (mem_threadList (ran.mem_iff.mp listed))

/-- A library that knows the hash of the self-test. -/
def selfTested : Api where
  getFlags := 0
  datasetItemCount := 34078719
  calculateHash _ _ _ _ := SELF_TEST

theorem four_threads_fill : ∃ context,
    Context.new selfTested (ascii "seed") (.fast 4) 1 ⟨true, true⟩ (threadList 4).reverse = .ok context ∧
      ∃ dataset, context.dataset = some dataset ∧ dataset 34078718 = some (ascii "seed") := by
  have fits : Mode.Fits (.fast 4) selfTested := by
    unfold Mode.Fits
    decide
  have new : Context.new selfTested (ascii "seed") (.fast 4) 1 ⟨true, true⟩ (threadList 4).reverse = .ok _ := rfl
  have ⟨⟨dataset, holds, items⟩, _⟩ := dataset_filled_once fits (threadList 4).reverse_perm new
  refine ⟨_, new, dataset, holds, ?_⟩
  rw [items, if_pos (by decide)]

/-! Every hash is the one of the seed and the input it was asked for. -/

/-- All memory of the context holds its own seed. -/
structure Context.Ready (api : Api) (context : Context) : Prop where
  cache : context.cache = ⟨context.seed⟩
  dataset : ∀ dataset, context.dataset = some dataset →
    ∀ item < api.datasetItemCount.toNat, dataset item = some context.seed

theorem Context.new_ready {api : Api} {seed : Bytes} {mode : Mode} {id : Nat} {memory : Memory}
    {order : List UInt64} {context : Context} (fits : mode.Fits api)
    (ran : ∀ threads, mode = .fast threads → order.Perm (threadList (max threads 1)))
    (new : Context.new api seed mode id memory order = .ok context) : context.Ready api := by
  have ⟨_, named, own, memory⟩ := Context.new_ok new
  have cache : context.cache = ⟨context.seed⟩ := by
    rw [named, ← own]
  rcases memory with ⟨_, bare⟩ | ⟨threads, fast, filled⟩
  · refine ⟨cache, fun dataset holds => ?_⟩
    rw [bare] at holds
    cases holds
  · refine ⟨cache, fun dataset holds item small => ?_⟩
    rw [filled] at holds
    cases holds
    rw [fast] at fits
    rw [foldl_filled fits (one_le_max threads) (ran threads fast), if_pos small, own, named]

theorem Context.vm_hash {api : Api} {randomx : Bytes → Bytes → Hash32} {context : Context}
    (lawful : api.Lawful randomx) (ready : context.Ready api) (serial : Nat) (flags : UInt32) (input : Bytes) :
    api.calculateHash (context.vm serial flags).flags (context.vm serial flags).cache
      (context.vm serial flags).dataset input = randomx context.seed input := by
  unfold Context.vm
  cases holds : context.dataset with
  | none =>
    dsimp only
    rw [if_neg (by decide), ready.cache]
    exact lawful.light flags context.seed input
  | some dataset => exact lawful.full flags dataset context.seed input (ready.dataset dataset holds)

theorem Context.takeVm_ok {context : Context} {idleVms left : List Vm} {created created' : Nat}
    {available : UInt32 → Bool} {vm : Vm}
    (taken : context.takeVm idleVms created available = .ok (vm, left, created')) :
    (idleVms = left ++ [vm] ∧ created' = created) ∨
      (left = idleVms ∧ created' = created + 1 ∧ ∃ flags, vm = context.vm created flags) := by
  unfold Context.takeVm at taken
  split at taken
  next last newest =>
    cases taken
    exact .inl ⟨(List.dropLast_append_getLast? _ newest).symm, rfl⟩
  next =>
    split at taken
    · cases taken
      exact .inr ⟨rfl, rfl, _, rfl⟩
    · split at taken
      · cases taken
        exact .inr ⟨rfl, rfl, _, rfl⟩
      · cases taken

end RandomX

end ParitrNode
