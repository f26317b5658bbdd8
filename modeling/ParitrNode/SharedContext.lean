import ParitrNode.Library.Checked
import ParitrNode.RandomX

/-!
Every interleaving of the workers that share a RandomX context: each hash is the one of its
own seed and input, no VM is in two hands, contexts change only with the seed, and nobody is
stuck.
-/

namespace ParitrNode
open ByteCodec Checked

namespace RandomX

variable {Worker : Type} [DecidableEq Worker]

def Use.vm : Use → Option Vm
  | waiting => none
  | running vm => some vm
  | storing vm _ => some vm

/-- Where contexts and VMs are, whatever they compute. -/
structure Placed (randomX : RandomX Worker) : Prop where
  coherent : KeyedCell.Coherent Context.seed randomX.context
  numbered : randomX.context.made.map Context.id = List.range randomX.context.made.length
  unused : ∀ id, randomX.context.made.length ≤ id → randomX.idleVms id = []
  idle : ∀ context ∈ randomX.context.made, ∀ vm ∈ randomX.idleVms context.id,
    ∃ serial flags, vm = context.vm serial flags
  lent : ∀ worker vm, (randomX.use worker).vm = some vm → ∃ seed context,
    randomX.context.phase worker = .done seed (.ok context) ∧ ∃ serial flags, vm = context.vm serial flags

variable {api : Api} {mode : Mode} {randomx : Bytes → Bytes → Hash32} {randomX next : RandomX Worker}

theorem makes_named (made : List Context) (seed : Bytes) (context : Context)
    (makes : Makes api mode made seed context) : context.seed = seed := by
  have ⟨_, _, _, new⟩ := makes
  exact (Context.new_ok new).2.1

theorem storing_vm {use : Use} {vm : Vm} {output : Hash32} (stores : use = .storing vm output) :
    use.vm = some vm := by
  rw [stores]
  rfl

section Places

omit [DecidableEq Worker]

theorem Placed.holds_nothing (placed : Placed randomX) {worker : Worker}
    (inside : ∀ seed context, randomX.context.phase worker ≠ .done seed (.ok context)) :
    (randomX.use worker).vm = none := by
  cases holds : (randomX.use worker).vm with
  | none => rfl
  | some vm =>
    have ⟨seed, context, done, _⟩ := placed.lent worker vm holds
    exact absurd done (inside seed context)

/-- No two contexts share an idle list. -/
theorem Placed.same_context (placed : Placed randomX) {first second : Context}
    (one : first ∈ randomX.context.made) (two : second ∈ randomX.context.made) (ids : first.id = second.id) :
    first = second := by
  have distinct : (randomX.context.made.map Context.id).Nodup := by
    rw [placed.numbered]
    exact List.nodup_range
  exact List.inj_on_of_nodup_map distinct one two ids

theorem Placed.id_lt (placed : Placed randomX) {context : Context}
    (made : context ∈ randomX.context.made) : context.id < randomX.context.made.length := by
  apply List.mem_range.mp
  rw [← placed.numbered]
  exact List.mem_map_of_mem made

theorem Placed.got (placed : Placed randomX) {worker : Worker} {seed : Bytes} {context : Context}
    (has : randomX.context.phase worker = .done seed (.ok context)) :
    context.seed = seed ∧ context ∈ randomX.context.made := by
  have carries : (randomX.context.phase worker).Carries seed context := by
    rw [has]
    exact .done seed context
  exact ⟨placed.coherent.named worker seed context carries, placed.coherent.known worker seed context carries⟩

theorem Placed.taken (placed : Placed randomX) {context : Context} (made : context ∈ randomX.context.made)
    {available : UInt32 → Bool} {vm : Vm} {left : List Vm} {created : Nat}
    (taken : context.takeVm (randomX.idleVms context.id) (randomX.created context.id) available =
      .ok (vm, left, created)) :
    (∃ serial flags, vm = context.vm serial flags) ∧ ∀ other ∈ left, other ∈ randomX.idleVms context.id := by
  rcases Context.takeVm_ok taken with ⟨split, _⟩ | ⟨same, _, new⟩
  · rw [split]
    have listed : vm ∈ randomX.idleVms context.id := by
      rw [split]
      exact List.mem_append_right _ List.mem_cons_self
    exact ⟨placed.idle context made vm listed, fun other => List.mem_append_left _⟩
  · rw [same]
    exact ⟨⟨_, new⟩, fun other => id⟩

theorem Placed.home (placed : Placed randomX) {worker : Worker} {seed : Bytes} {context : Context} {vm : Vm}
    (has : randomX.context.phase worker = .done seed (.ok context)) (holds : (randomX.use worker).vm = some vm) :
    ∃ serial flags, vm = context.vm serial flags := by
  have ⟨_, _, held, shape⟩ := placed.lent worker vm holds
  rw [has] at held
  cases held
  exact shape

end Places

theorem Placed.entered (placed : Placed randomX) {worker : Worker} {input : Worker → Bytes}
    {context : KeyedCell.Cell Worker Bytes Context Error}
    (moves : KeyedCell.Step Context.seed (Makes api mode) worker randomX.context context)
    (inside : ∀ seed outcome, randomX.context.phase worker ≠ .done seed outcome) :
    Placed { randomX with context := context, input := input } := by
  have lent : ∀ holder vm, (randomX.use holder).vm = some vm → ∃ seed own,
      context.phase holder = .done seed (.ok own) ∧ ∃ serial flags, vm = own.vm serial flags := by
    intro holder vm holds
    have other : holder ≠ worker := fun same => by
      rw [same, placed.holds_nothing fun seed own => inside seed _] at holds
      cases holds
    rw [moves.others other]
    exact placed.lent holder vm holds
  have coherent := placed.coherent.step makes_named moves
  rcases moves.made with same | ⟨seed, new, ⟨memory, order, ran, built⟩, grown⟩
  · exact
      { coherent
        numbered := by
          rw [same]
          exact placed.numbered
        unused := by
          rw [same]
          exact placed.unused
        idle := by
          rw [same]
          exact placed.idle
        lent }
  · have number := (Context.new_ok built).1
    exact
      { coherent
        numbered := by
          rw [grown, List.map_append, List.length_append, placed.numbered, List.map_singleton, number]
          exact List.range_succ.symm
        unused := by
          intro id above
          rw [grown, List.length_append] at above
          exact placed.unused id (Nat.le_of_succ_le above)
        idle := by
          rw [grown]
          intro own listed vm idle
          rcases List.mem_append.mp listed with earlier | last
          · exact placed.idle own earlier vm idle
          · rw [List.mem_singleton.mp last, number] at idle
            change vm ∈ randomX.idleVms _ at idle
            rw [placed.unused _ (Nat.le_refl _)] at idle
            cases idle
        lent }

omit [DecidableEq Worker] in
/-- Only the idle list of one context changes, and only by VMs of that context. -/
theorem Placed.rearranged (placed : Placed randomX) {context : Context}
    (made : context ∈ randomX.context.made) {vms : List Vm} (own : ∀ vm ∈ vms,
      ∃ serial flags, vm = context.vm serial flags) :
    (∀ id, randomX.context.made.length ≤ id → Function.update randomX.idleVms context.id vms id = []) ∧
      ∀ other ∈ randomX.context.made, ∀ vm ∈ Function.update randomX.idleVms context.id vms other.id,
        ∃ serial flags, vm = other.vm serial flags := by
  constructor
  · intro id above
    have different : id ≠ context.id := fun same => by
      have below := placed.id_lt made
      omega
    rw [Function.update_of_ne different]
    exact placed.unused id above
  · intro other listed vm there
    by_cases same : other.id = context.id
    · rw [same, Function.update_self] at there
      rw [placed.same_context listed made same]
      exact own vm there
    · rw [Function.update_of_ne same] at there
      exact placed.idle other listed vm there

theorem Placed.answered (placed : Placed randomX) {worker : Worker} {seed : Bytes}
    {outcome : Except Error Context} {result : Except Error Hash32} {idleVms : Nat → List Vm}
    (done : randomX.context.phase worker = .done seed outcome)
    (unused : ∀ id, randomX.context.made.length ≤ id → idleVms id = [])
    (idle : ∀ context ∈ randomX.context.made, ∀ vm ∈ idleVms context.id,
      ∃ serial flags, vm = context.vm serial flags) :
    Placed { randomX.answer worker seed result with idleVms := idleVms } where
  coherent := placed.coherent.released done
  numbered := placed.numbered
  unused := unused
  idle := idle
  lent := by
    intro holder vm holds
    change (Function.update randomX.use worker .waiting holder).vm = some vm at holds
    rw [Function.update_apply] at holds
    split at holds
    next => cases holds
    next different =>
      change ∃ seed context, (randomX.context.move worker .idle).phase holder = _ ∧ _
      rw [KeyedCell.Cell.move_phase, if_neg different]
      exact placed.lent holder vm holds

theorem Placed.lends (placed : Placed randomX) {worker : Worker} {seed : Bytes} {context : Context}
    (has : randomX.context.phase worker = .done seed (.ok context)) {use : Use}
    (own : ∀ vm, use.vm = some vm → ∃ serial flags, vm = context.vm serial flags) (holder : Worker) (vm : Vm)
    (holds : (Function.update randomX.use worker use holder).vm = some vm) : ∃ seed context,
      randomX.context.phase holder = .done seed (.ok context) ∧ ∃ serial flags, vm = context.vm serial flags := by
  rw [Function.update_apply] at holds
  split at holds
  next same =>
    rw [same]
    exact ⟨seed, context, has, own vm holds⟩
  next => exact placed.lent holder vm holds

theorem Placed.step (placed : Placed randomX) {worker : Worker} (step : Step api mode worker randomX next) :
    Placed next := by
  cases step with
  | call seed input idle =>
    have moves : KeyedCell.Step Context.seed (Makes api mode) worker randomX.context _ := .call seed idle
    apply placed.entered moves
    intro _ _ done
    rw [idle] at done
    cases done
  | context entered inside moves => exact placed.entered moves inside
  | noContext failed => exact placed.answered failed placed.unused placed.idle
  | @take seed context vm left created available has waits taken =>
    have ⟨named, made⟩ := placed.got has
    have ⟨own, others⟩ := placed.taken made taken
    have ⟨unused, idle⟩ := placed.rearranged made fun vm listed =>
      placed.idle context made vm (others vm listed)
    exact
      { coherent := placed.coherent
        numbered := placed.numbered
        unused
        idle
        lent := placed.lends has fun _ holds => by
          cases holds
          exact own }
  | noVm available has waits failed => exact placed.answered has placed.unused placed.idle
  | @compute vm runs =>
    have held : (randomX.use worker).vm = some vm := by
      rw [runs]
      rfl
    have ⟨seed, context, has, own⟩ := placed.lent worker vm held
    exact
      { coherent := placed.coherent
        numbered := placed.numbered
        unused := placed.unused
        idle := placed.idle
        lent := placed.lends has fun _ holds => by
          cases holds
          exact own }
  | @store seed context vm output has stores =>
    have ⟨named, made⟩ := placed.got has
    have own : ∀ other ∈ randomX.idleVms context.id ++ [vm], ∃ serial flags, other = context.vm serial flags := by
      intro other listed
      rcases List.mem_append.mp listed with before | given
      · exact placed.idle context made other before
      · rw [List.mem_singleton.mp given]
        exact placed.home has (storing_vm stores)
    have ⟨unused, idle⟩ := placed.rearranged made own
    exact placed.answered has unused idle

/-- What the contexts and VMs compute. -/
structure Sound (api : Api) (randomx : Bytes → Bytes → Hash32) (randomX : RandomX Worker) : Prop where
  ready : ∀ context ∈ randomX.context.made, context.Ready api
  right : ∀ worker vm output, randomX.use worker = .storing vm output →
    ∀ seed context, randomX.context.phase worker = .done seed (.ok context) →
      output = randomx seed (randomX.input worker)
  answered : ∀ answer ∈ randomX.answers, ∀ output, answer.result = .ok output →
    output = randomx answer.seed answer.input

theorem Sound.entered (sound : Sound api randomx randomX) (placed : Placed randomX) {worker : Worker}
    {input : Worker → Bytes} {context : KeyedCell.Cell Worker Bytes Context Error} (fits : mode.Fits api)
    (moves : KeyedCell.Step Context.seed (Makes api mode) worker randomX.context context)
    (inside : ∀ seed outcome, randomX.context.phase worker ≠ .done seed outcome)
    (kept : ∀ other, other ≠ worker → input other = randomX.input other) :
    Sound api randomx { randomX with context := context, input := input } where
  ready := by
    rcases moves.made with same | ⟨seed, new, ⟨memory, order, ran, built⟩, grown⟩
    · rw [same]
      exact sound.ready
    · rw [grown]
      intro own listed
      rcases List.mem_append.mp listed with earlier | last
      · exact sound.ready own earlier
      · rw [List.mem_singleton.mp last]
        exact Context.new_ready fits ran built
  right := by
    intro holder vm output stores seed own done
    have other : holder ≠ worker := fun same => by
      have holds := storing_vm stores
      change (randomX.use holder).vm = _ at holds
      rw [same, placed.holds_nothing fun seed own => inside seed _] at holds
      cases holds
    change context.phase holder = _ at done
    rw [moves.others other] at done
    change output = randomx seed (input holder)
    rw [kept holder other]
    exact sound.right holder vm output stores seed own done
  answered := sound.answered

theorem Sound.answers (sound : Sound api randomx randomX) {worker : Worker} {seed : Bytes}
    {result : Except Error Hash32} {idleVms : Nat → List Vm}
    (right : ∀ output, result = .ok output → output = randomx seed (randomX.input worker)) :
    Sound api randomx { randomX.answer worker seed result with idleVms := idleVms } where
  ready := sound.ready
  right := by
    intro holder vm output stores own context has
    change Function.update randomX.use worker .waiting holder = _ at stores
    rw [Function.update_apply] at stores
    split at stores
    next => cases stores
    next different =>
      change (randomX.context.move worker .idle).phase holder = _ at has
      rw [KeyedCell.Cell.move_phase, if_neg different] at has
      exact sound.right holder vm output stores own context has
  answered := by
    intro answer listed output ok
    rcases List.mem_append.mp listed with earlier | last
    · exact sound.answered answer earlier output ok
    · rw [List.mem_singleton.mp last] at ok ⊢
      exact right output ok

theorem Sound.step (lawful : api.Lawful randomx) (fits : mode.Fits api) (sound : Sound api randomx randomX)
    (placed : Placed randomX) {worker : Worker} (step : Step api mode worker randomX next) :
    Sound api randomx next := by
  cases step with
  | call seed input idle =>
    have moves : KeyedCell.Step Context.seed (Makes api mode) worker randomX.context _ := .call seed idle
    apply sound.entered placed fits moves
    · intro _ _ done
      rw [idle] at done
      cases done
    · exact fun other different => Function.update_of_ne different _ _
  | context entered inside moves => exact sound.entered placed fits moves inside fun _ _ => rfl
  | noContext failed => exact sound.answers nofun
  | @take seed context vm left created available has waits taken =>
    refine ⟨sound.ready, ?_, sound.answered⟩
    intro holder lent output stores
    change Function.update randomX.use worker (.running vm) holder = _ at stores
    rw [Function.update_apply] at stores
    split at stores
    next => cases stores
    next => exact sound.right holder lent output stores
  | noVm available has waits failed => exact sound.answers nofun
  | @compute vm runs =>
    refine ⟨sound.ready, ?_, sound.answered⟩
    intro holder lent output stores seed context has
    change Function.update randomX.use worker _ holder = _ at stores
    change randomX.context.phase holder = _ at has
    rw [Function.update_apply] at stores
    split at stores
    next same =>
      cases stores
      have held : (randomX.use holder).vm = some vm := by
        rw [same, runs]
        rfl
      have ⟨named, made⟩ := placed.got has
      have ⟨_, _, shape⟩ := placed.home has held
      change _ = randomx seed (randomX.input holder)
      rw [same, shape, Context.vm_hash lawful (sound.ready context made), named]
    next => exact sound.right holder lent output stores seed context has
  | @store seed context vm output has stores =>
    apply sound.answers
    intro _ equal
    cases equal
    exact sound.right worker vm output stores seed context has

section Loaded

omit [DecidableEq Worker]

theorem load_ok {memory : Memory} {available : UInt32 → Bool} (loaded : load api memory available = .ok randomX) :
    ∃ context vm, Context.new api (ascii "test key 000") .light 0 memory [] = .ok context ∧
      (∃ flags, vm = context.vm 0 flags) ∧ randomX.context = .initial context ∧
      randomX.use = (fun _ => .waiting) ∧ randomX.idleVms = Function.update (fun _ => []) 0 [vm] ∧
      randomX.created = Function.update (fun _ => 0) 0 1 ∧ randomX.answers = [] := by
  obtain ⟨context, new, rest⟩ := bind_ok.mp loaded
  obtain ⟨⟨vm, left, created⟩, taken, rest⟩ := bind_ok.mp rest
  dsimp only at rest
  split at rest
  · cases rest
    rcases Context.takeVm_ok taken with ⟨absent, _⟩ | ⟨none, one, flags⟩
    · exact absurd absent (List.append_ne_nil_of_right_ne_nil _ (List.cons_ne_nil _ _)).symm
    · rw [none, one]
      exact ⟨context, vm, new, flags, rfl, rfl, rfl, rfl, rfl⟩
  · cases rest

theorem Placed.load {memory : Memory} {available : UInt32 → Bool}
    (loaded : load api memory available = .ok randomX) : Placed randomX := by
  have ⟨context, vm, new, ⟨flags, shape⟩, cell, use, idle, _, _⟩ := load_ok loaded
  have number := (Context.new_ok new).1
  have made : randomX.context.made = [context] := by
    rw [cell]
    rfl
  exact
    { coherent := by
        rw [cell]
        exact .initial context
      numbered := by
        rw [made, List.map_singleton, number]
        rfl
      unused := by
        intro id above
        rw [made] at above
        have different : id ≠ 0 := Nat.ne_of_gt above
        rw [idle, Function.update_of_ne different]
      idle := by
        rw [made]
        intro own listed other there
        rw [List.mem_singleton.mp listed, idle, number, Function.update_self, List.mem_singleton] at there
        rw [List.mem_singleton.mp listed, there]
        exact ⟨0, flags, shape⟩
      lent := by
        rw [use]
        exact nofun }

theorem Sound.load {memory : Memory} {available : UInt32 → Bool}
    (loaded : load api memory available = .ok randomX) : Sound api randomx randomX := by
  have ⟨context, vm, new, _, cell, use, _, _, answers⟩ := load_ok loaded
  have made : randomX.context.made = [context] := by
    rw [cell]
    rfl
  exact
    { ready := by
        rw [made]
        intro own listed
        rw [List.mem_singleton.mp listed]
        have fits : Mode.Fits .light api := by
          unfold Mode.Fits Mode.threads
          rw [Nat.mul_one]
          exact api.datasetItemCount.toNat_lt
        exact Context.new_ready fits nofun new
      right := by
        rw [use]
        exact nofun
      answered := by
        rw [answers]
        exact nofun }

end Loaded

theorem Reached.placed (reached : Reached api mode randomX) : Placed randomX := by
  induction reached with
  | load memory available loaded => exact .load loaded
  | step earlier step ih => exact ih.step step

theorem Reached.sound (lawful : api.Lawful randomx) (fits : mode.Fits api) (reached : Reached api mode randomX) :
    Sound api randomx randomX := by
  induction reached with
  | load memory available loaded => exact .load loaded
  | step earlier step ih => exact ih.step lawful fits earlier.placed step

/-! The VMs of a context. -/

def Use.serial (id : Nat) (use : Use) : Option Nat :=
  (use.vm.filter fun vm => vm.context = id).map Vm.serial

theorem Use.serial_some {id : Nat} {use : Use} {vm : Vm} (holds : use.vm = some vm) (own : vm.context = id) :
    use.serial id = some vm.serial := by
  unfold serial
  rw [holds, Option.filter_some, if_pos (decide_eq_true own)]
  rfl

theorem Use.serial_other {id : Nat} {use : Use} (other : ∀ vm, use.vm = some vm → vm.context ≠ id) :
    use.serial id = none := by
  unfold serial
  cases holds : use.vm with
  | none => rfl
  | some vm =>
    rw [Option.filter_some, if_neg (fun same => other vm holds (of_decide_eq_true same))]
    rfl

/-- Each VM of each context is idle or lent to one worker. -/
def Lends (randomX : RandomX Worker) : Prop :=
  ∀ id, SharedPool.Exclusive (List.range (randomX.created id)) ((randomX.idleVms id).map Vm.serial)
    fun worker => (randomX.use worker).serial id

theorem serial_update (id : Nat) (use : Worker → Use) (worker : Worker) (given : Use) :
    (fun other => (Function.update use worker given other).serial id) =
      Function.update (fun other => (use other).serial id) worker (given.serial id) :=
  Function.comp_update (Use.serial id) use worker given

theorem serial_unchanged {id : Nat} {use : Worker → Use} {worker : Worker} {given : Use}
    (same : given.serial id = (use worker).serial id) :
    (fun other => (Function.update use worker given other).serial id) = fun other => (use other).serial id := by
  rw [serial_update, same]
  exact Function.update_eq_self worker _

theorem Lends.answered (lends : Lends randomX) {worker : Worker} (empty : (randomX.use worker).vm = none)
    (seed : Bytes) (result : Except Error Hash32) : Lends (randomX.answer worker seed result) := by
  intro id
  have none : (randomX.use worker).serial id = none := Use.serial_other fun vm holds => by
    rw [empty] at holds
    cases holds
  have same : Use.waiting.serial id = (randomX.use worker).serial id := none.symm
  change SharedPool.Exclusive _ _ fun other => (Function.update randomX.use worker .waiting other).serial id
  rw [serial_unchanged same]
  exact lends id

theorem Lends.step (placed : Placed randomX) (lends : Lends randomX) {worker : Worker}
    (step : Step api mode worker randomX next) : Lends next := by
  cases step with
  | call seed input idle => exact lends
  | context entered inside moves => exact lends
  | @noContext seed error failed =>
    apply lends.answered
    apply placed.holds_nothing
    intro _ _ has
    rw [failed] at has
    cases has
  | @take seed context vm left created available has waits taken =>
    have ⟨_, made⟩ := placed.got has
    have ⟨⟨_, _, shape⟩, _⟩ := placed.taken made taken
    have own : vm.context = context.id := by
      rw [shape]
      rfl
    have given : (Use.running vm).vm = some vm := rfl
    intro id
    have free : (randomX.use worker).serial id = none := by
      rw [waits]
      rfl
    change SharedPool.Exclusive (List.range (Function.update randomX.created context.id created id))
      ((Function.update randomX.idleVms context.id left id).map Vm.serial)
      fun other => (Function.update randomX.use worker (.running vm) other).serial id
    by_cases same : id = context.id
    · rw [same, Function.update_self, Function.update_self, serial_update, Use.serial_some given own]
      rw [same] at free
      rcases Context.takeVm_ok taken with ⟨split, count⟩ | ⟨still, count, _, new⟩
      · have before := lends context.id
        rw [split, List.map_append, List.map_singleton] at before
        rw [count]
        exact before.take free
      · have serial : vm.serial = randomX.created context.id := by
          rw [new]
          rfl
        have fresh : randomX.created context.id ∉ List.range (randomX.created context.id) :=
          fun listed => Nat.lt_irrefl _ (List.mem_range.mp listed)
        rw [count, still, serial, List.range_succ]
        exact (lends context.id).create free fresh
    · have other : (Use.running vm).serial id = none := Use.serial_other fun vm' holds elsewhere => by
        cases holds
        exact same (elsewhere.symm.trans own)
      rw [Function.update_of_ne same, Function.update_of_ne same, serial_unchanged (other.trans free.symm)]
      exact lends id
  | noVm available has waits failed =>
    apply lends.answered
    rw [waits]
    rfl
  | @compute vm runs =>
    intro id
    change SharedPool.Exclusive _ _ fun other => (Function.update randomX.use worker (.storing vm _) other).serial id
    rw [serial_unchanged (by rw [runs]; rfl)]
    exact lends id
  | @store seed context vm output has stores =>
    have ⟨_, _, shape⟩ := placed.home has (storing_vm stores)
    have home : vm.context = context.id := by
      rw [shape]
      rfl
    intro id
    change SharedPool.Exclusive (List.range (randomX.created id))
      ((Function.update randomX.idleVms context.id (randomX.idleVms context.id ++ [vm]) id).map Vm.serial)
      fun other => (Function.update randomX.use worker .waiting other).serial id
    by_cases same : id = context.id
    · have holds : (randomX.use worker).serial context.id = some vm.serial :=
        Use.serial_some (storing_vm stores) home
      rw [same, Function.update_self, serial_update, List.map_append, List.map_singleton]
      exact (lends context.id).give holds
    · have other : (randomX.use worker).serial id = none := by
        apply Use.serial_other
        intro vm' holds own
        rw [storing_vm stores] at holds
        cases holds
        exact same (own.symm.trans home)
      have still : Use.waiting.serial id = (randomX.use worker).serial id := other.symm
      rw [Function.update_of_ne same, serial_unchanged still]
      exact lends id

omit [DecidableEq Worker] in
theorem Lends.load {memory : Memory} {available : UInt32 → Bool}
    (loaded : load api memory available = .ok randomX) : Lends randomX := by
  have ⟨context, vm, _, ⟨flags, shape⟩, _, use, idle, created, _⟩ := load_ok loaded
  intro id
  have nobody : (fun worker => (randomX.use worker).serial id) = fun _ => none := by
    rw [use]
    rfl
  rw [nobody, idle, created]
  by_cases first : id = 0
  · rw [first, Function.update_self, Function.update_self, shape]
    exact
      { distinct := List.pairwise_singleton _ 0
        apart := nofun
        single := nofun
        covers := fun serial => by
          change serial ∈ [0] ↔ serial ∈ [0] ∨ _
          exact (or_iff_left nofun).symm }
  · rw [Function.update_of_ne first, Function.update_of_ne first]
    exact .empty

theorem Reached.lends (reached : Reached api mode randomX) : Lends randomX := by
  induction reached with
  | load memory available loaded => exact .load loaded
  | step earlier step ih => exact ih.step earlier.placed step

/-! Workers go on. -/

/-- Sections a worker still has to go through before `calculate` returns. -/
def sections (phase : KeyedCell.Phase Bytes Context Error) (use : Use) : Nat :=
  match phase, use with
  | .idle, _ => 0
  | .looking _, _ => 9
  | .queued _, _ => 8
  | .checking _, _ => 7
  | .building _, _ => 6
  | .installing _ _, _ => 5
  | .leaving _ _, _ => 4
  | .done _ _, .waiting => 3
  | .done _ _, .running _ => 2
  | .done _ _, .storing _ _ => 1

def sectionsOf (randomX : RandomX Worker) (worker : Worker) : Nat :=
  sections (randomX.context.phase worker) (randomX.use worker)

theorem makes_light (api : Api) (made : List Context) (seed : Bytes) :
    Makes api .light made seed
      ⟨made.length, seed, api.getFlags &&& ~~~FLAG_FULL_MEM &&& ~~~FLAG_LARGE_PAGES, ⟨seed⟩, none⟩ :=
  ⟨⟨true, true⟩, [], nofun, rfl⟩

theorem able (api : Api) (mode : Mode) (made : List Context) (seed : Bytes) :
    ∃ context, Makes api mode made seed context := by
  cases mode with
  | light => exact ⟨_, makes_light api made seed⟩
  | fast threads =>
    refine ⟨_, ⟨true, true⟩, threadList (max threads 1), ?_, rfl⟩
    intro _ same
    cases same
    exact List.Perm.refl _

theorem cell_sections {cell after : KeyedCell.Cell Worker Bytes Context Error} {worker : Worker}
    (entered : cell.phase worker ≠ .idle) (inside : ∀ seed outcome, cell.phase worker ≠ .done seed outcome)
    (moves : KeyedCell.Step Context.seed (Makes api mode) worker cell after) :
    sections (after.phase worker) .waiting < sections (cell.phase worker) .waiting := by
  have moved (phase : KeyedCell.Phase Bytes Context Error) : (cell.move worker phase).phase worker = phase :=
    (cell.move_phase worker phase worker).trans (if_pos rfl)
  cases moves with
  | call key idle => exact absurd idle entered
  | hit looks present =>
    rw [moved, looks]
    exact of_decide_eq_true rfl
  | miss looks absent =>
    rw [moved, looks]
    exact of_decide_eq_true rfl
  | lock waits free =>
    change sections ((cell.move worker _).phase worker) .waiting < _
    rw [moved, waits]
    exact of_decide_eq_true rfl
  | found checks present =>
    rw [moved, checks]
    exact of_decide_eq_true rfl
  | missing checks absent =>
    rw [moved, checks]
    exact of_decide_eq_true rfl
  | build builds made =>
    change sections ((cell.move worker _).phase worker) .waiting < _
    rw [moved, builds]
    exact of_decide_eq_true rfl
  | fail error builds =>
    rw [moved, builds]
    exact of_decide_eq_true rfl
  | keep installs present =>
    rw [moved, installs]
    exact of_decide_eq_true rfl
  | install installs absent =>
    change sections ((cell.move worker _).phase worker) .waiting < _
    rw [moved, installs]
    exact of_decide_eq_true rfl
  | unlock leaves =>
    change sections ((cell.move worker _).phase worker) .waiting < _
    rw [moved, leaves]
    exact of_decide_eq_true rfl
  | release ends => exact absurd ends (inside _ _)

omit [DecidableEq Worker] in
theorem use_waiting {use : Use} (empty : use.vm = none) : use = .waiting := by
  cases use with
  | waiting => rfl
  | running vm => cases empty
  | storing vm output => cases empty

theorem Step.nearer (placed : Placed randomX) {worker : Worker} (step : Step api mode worker randomX next)
    (entered : randomX.context.phase worker ≠ .idle) :
    sectionsOf next worker < sectionsOf randomX worker ∧
      ∀ other, other ≠ worker → sectionsOf next other = sectionsOf randomX other := by
  have answered : ∀ seed outcome result, randomX.context.phase worker = .done seed outcome →
      sectionsOf (randomX.answer worker seed result) worker < sectionsOf randomX worker ∧
        ∀ other, other ≠ worker → sectionsOf (randomX.answer worker seed result) other = sectionsOf randomX other := by
    intro seed outcome result done
    constructor
    · change sections ((randomX.context.move worker .idle).phase worker) _ < sections _ _
      rw [KeyedCell.Cell.move_phase, if_pos rfl, done]
      cases randomX.use worker with
      | _ => exact of_decide_eq_true rfl
    · intro other different
      change sections ((randomX.context.move worker .idle).phase other)
        (Function.update randomX.use worker .waiting other) = _
      rw [KeyedCell.Cell.move_phase, if_neg different, Function.update_of_ne different]
      rfl
  have used : ∀ use other, other ≠ worker →
      sections (randomX.context.phase other) (Function.update randomX.use worker use other) =
        sectionsOf randomX other := by
    intro use other different
    rw [Function.update_of_ne different]
    rfl
  cases step with
  | call seed input idle => exact absurd idle entered
  | context entered inside moves =>
    constructor
    · have waits := use_waiting (placed.holds_nothing fun seed own => inside seed _)
      change sections _ (randomX.use worker) < sections _ (randomX.use worker)
      rw [waits]
      exact cell_sections entered inside moves
    · intro other different
      change sections _ (randomX.use other) = sections _ (randomX.use other)
      rw [moves.others different]
  | noContext failed => exact answered _ _ _ failed
  | @take seed context vm left created available has waits taken =>
    refine ⟨?_, used _⟩
    change sections (randomX.context.phase worker) (Function.update randomX.use worker (.running vm) worker) <
      sections (randomX.context.phase worker) (randomX.use worker)
    rw [Function.update_self, has, waits]
    exact of_decide_eq_true rfl
  | noVm available has waits failed => exact answered _ _ _ has
  | @compute vm runs =>
    refine ⟨?_, used _⟩
    have held : (randomX.use worker).vm = some vm := by
      rw [runs]
      rfl
    have ⟨_, _, has, _⟩ := placed.lent worker vm held
    change sections (randomX.context.phase worker) (Function.update randomX.use worker (.storing vm _) worker) <
      sections (randomX.context.phase worker) (randomX.use worker)
    rw [Function.update_self, has, runs]
    exact of_decide_eq_true rfl
  | @store seed context vm output has stores => exact answered seed _ (.ok output) has

theorem Step.of_cell {worker : Worker} (entered : randomX.context.phase worker ≠ .idle)
    (inside : ∀ seed outcome, randomX.context.phase worker ≠ .done seed outcome)
    (moves : ∃ after, KeyedCell.Step Context.seed (Makes api mode) worker randomX.context after) :
    ∃ next, Step api mode worker randomX next := by
  have ⟨_, moved⟩ := moves
  exact ⟨_, .context entered inside moved⟩

theorem Step.of_done {worker : Worker} {seed : Bytes} {outcome : Except Error Context}
    (done : randomX.context.phase worker = .done seed outcome) :
    ∃ next, Step api mode worker randomX next := by
  cases outcome with
  | error error => exact ⟨_, .noContext done⟩
  | ok context =>
    cases at_ : randomX.use worker with
    | waiting =>
      cases taken : context.takeVm (randomX.idleVms context.id) (randomX.created context.id) fun _ => true with
      | error error => exact ⟨_, .noVm _ done at_ taken⟩
      | ok given => exact ⟨_, .take _ done at_ taken⟩
    | running vm => exact ⟨_, .compute at_⟩
    | storing vm output => exact ⟨_, .store done at_⟩

theorem goes_on (placed : Placed randomX) {worker : Worker} (entered : randomX.context.phase worker ≠ .idle) :
    (∃ next, Step api mode worker randomX next) ∨
      ∃ owner, randomX.context.owner = some owner ∧ ∃ next, Step api mode owner randomX next := by
  by_cases done : ∃ seed outcome, randomX.context.phase worker = .done seed outcome
  · have ⟨_, _, ends⟩ := done
    exact .inl (Step.of_done ends)
  · have inside : ∀ seed outcome, randomX.context.phase worker ≠ .done seed outcome :=
      fun seed outcome ends => done ⟨seed, outcome, ends⟩
    rcases placed.coherent.proceeds (able api mode) entered with moves | ⟨owner, held, moves⟩
    · exact .inl (Step.of_cell entered inside moves)
    · have locked := (placed.coherent.owned owner).mpr held
      refine .inr ⟨owner, held, Step.of_cell ?_ ?_ moves⟩
      · intro idle
        rw [idle] at locked
        cases locked
      · intro _ _ ends
        rw [ends] at locked
        cases locked

/-! Two workers that ask for the hash of the self-test. -/

def entering : KeyedCell.Phase Bytes Context Error → Bool
  | .idle | .done _ _ => false
  | _ => true

theorem Reached.enters (reached : Reached api mode randomX) {worker : Worker}
    {after : KeyedCell.Cell Worker Bytes Context Error}
    (enters : entering (randomX.context.phase worker) = true)
    (moves : KeyedCell.Step Context.seed (Makes api mode) worker randomX.context after) :
    Reached api mode { randomX with context := after } := by
  apply reached.step (.context _ _ moves)
  · intro idle
    rw [idle] at enters
    cases enters
  · intro _ _ done
    rw [done] at enters
    cases enters

omit [DecidableEq Worker] in
theorem two_workers : ∃ randomX : RandomX Bool, Reached selfTested .light randomX ∧
    (∃ vm, (randomX.use true).vm = some vm ∧ vm.context = 0 ∧ vm.serial = 1) ∧
    ∃ context, randomX.context.phase true = .done (ascii "test key 000") (.ok context) := by
  let key := ascii "test key 000"
  let input := ascii "This is a test"
  let always : UInt32 → Bool := fun _ => true
  have loaded : Reached selfTested .light (_ : RandomX Bool) := .load ⟨true, true⟩ always rfl
  have called := loaded.step (.call key input rfl : Step selfTested .light false _ _)
  have got := called.enters rfl (.hit rfl rfl : KeyedCell.Step Context.seed (Makes selfTested .light) false _ _)
  have took := got.step (.take always rfl rfl rfl : Step selfTested .light false _ _)
  have also := took.step (.call key input rfl : Step selfTested .light true _ _)
  have both := also.enters rfl (.hit rfl rfl : KeyedCell.Step Context.seed (Makes selfTested .light) true _ _)
  have created := both.step (.take always rfl rfl rfl : Step selfTested .light true _ _)
  have computed := created.step (.compute rfl : Step selfTested .light false _ _)
  have stored := computed.step (.store rfl rfl : Step selfTested .light false _ _)
  exact ⟨_, stored, ⟨_, rfl, rfl, rfl⟩, _, rfl⟩

/-! Two workers that ask under seeds of their own. -/

/-- A function of the seed and the input, with the known hash of the self-test. -/
def seededHash (seed input : Bytes) : Hash32 :=
  if seed = ascii "test key 000" then SELF_TEST
  else ⟨(seed ++ input ++ List.replicate 32 0).take 32, by
    rw [List.length_take, List.length_append, List.length_replicate]
    omega⟩

def seeded : Api where
  getFlags := 0
  datasetItemCount := 34078719
  calculateHash _ cache dataset input :=
    match cache with
    | some cache => seededHash cache.seed input
    | none => seededHash (((dataset.getD fun _ => none) 0).getD []) input

omit [DecidableEq Worker] in
theorem seeded_lawful : seeded.Lawful seededHash where
  light _ _ _ := rfl
  full _ dataset seed input same := by
    have first : dataset 0 = some seed := same 0 (by decide)
    change seededHash ((dataset 0).getD []) input = _
    rw [first, Option.getD_some]

omit [DecidableEq Worker] in
theorem seeded_fits : Mode.Fits .light seeded := by
  unfold Mode.Fits
  decide

omit [DecidableEq Worker] in
/-- While one worker computes under the seed of the self-test, the other builds the context of
its own seed, and both get their answers. -/
theorem two_seeds : ∃ building finished : RandomX Bool, Reached seeded .light building ∧
    (∃ context, building.context.phase true = .installing [1] context) ∧
    building.context.made.map Context.seed = [ascii "test key 000", [1]] ∧
    Reached seeded .light finished ∧ finished.context.current.seed = [1] ∧
    ∃ first second, finished.answers =
      [⟨ascii "test key 000", ascii "This is a test", .ok first⟩, ⟨[1], [2], .ok second⟩] := by
  let key := ascii "test key 000"
  let always : UInt32 → Bool := fun _ => true
  have other : key ≠ [1] := by decide
  have loaded : Reached seeded .light (_ : RandomX Bool) := .load ⟨true, true⟩ always rfl
  have called := loaded.step (.call key (ascii "This is a test") rfl : Step seeded .light false _ _)
  have got := called.enters rfl (.hit rfl rfl : KeyedCell.Step Context.seed (Makes seeded .light) false _ _)
  have took := got.step (.take always rfl rfl rfl : Step seeded .light false _ _)
  have asked := took.step (.call [1] [2] rfl : Step seeded .light true _ _)
  have missed := asked.enters rfl (.miss rfl other : KeyedCell.Step Context.seed (Makes seeded .light) true _ _)
  have locked := missed.enters rfl (.lock rfl rfl : KeyedCell.Step Context.seed (Makes seeded .light) true _ _)
  have builds := locked.enters rfl
    (.missing rfl other : KeyedCell.Step Context.seed (Makes seeded .light) true _ _)
  have built := builds.enters rfl
    (.build rfl ⟨⟨true, true⟩, [], nofun, rfl⟩ : KeyedCell.Step Context.seed (Makes seeded .light) true _ _)
  have installed := built.enters rfl
    (.install rfl other : KeyedCell.Step Context.seed (Makes seeded .light) true _ _)
  have unlocked := installed.enters rfl (.unlock rfl : KeyedCell.Step Context.seed (Makes seeded .light) true _ _)
  have holds := unlocked.step (.take always rfl rfl rfl : Step seeded .light true _ _)
  have computed := holds.step (.compute rfl : Step seeded .light false _ _)
  have stored := computed.step (.store rfl rfl : Step seeded .light false _ _)
  have computes := stored.step (.compute rfl : Step seeded .light true _ _)
  have finished := computes.step (.store rfl rfl : Step seeded .light true _ _)
  exact ⟨_, _, built, ⟨_, rfl⟩, rfl, finished, rfl,
    seeded.calculateHash 0 (some ⟨key⟩) none (ascii "This is a test"),
    seeded.calculateHash 0 (some ⟨[1]⟩) none [2], rfl⟩

/-! What holds in every interleaving. -/

/-- Every hash that `calculate` returned is the RandomX hash of the seed and input it was
asked for, whatever other workers asked for meanwhile. -/
theorem answers_agree (lawful : api.Lawful randomx) (fits : mode.Fits api) (reached : Reached api mode randomX)
    (answer : Answer) (given : answer ∈ randomX.answers) (output : Hash32) (ok : answer.result = .ok output) :
    output = randomx answer.seed answer.input :=
  (reached.sound lawful fits).answered answer given output ok

omit [DecidableEq Worker] in
/-- Each of two answers has the hash of its own seed, though the context was replaced. -/
theorem two_seeds_answered : ∃ (randomX : RandomX Bool) (first second : Hash32),
    Reached seeded .light randomX ∧ randomX.context.current.seed = [1] ∧
    randomX.answers =
      [⟨ascii "test key 000", ascii "This is a test", .ok first⟩, ⟨[1], [2], .ok second⟩] ∧
    first = seededHash (ascii "test key 000") (ascii "This is a test") ∧ second = seededHash [1] [2] := by
  obtain ⟨_, randomX, _, _, _, reached, replaced, first, second, answers⟩ := two_seeds
  have early : ⟨ascii "test key 000", ascii "This is a test", .ok first⟩ ∈ randomX.answers := by
    rw [answers]
    exact List.mem_cons_self
  have late : ⟨[1], [2], .ok second⟩ ∈ randomX.answers := by
    rw [answers]
    exact List.mem_cons_of_mem _ List.mem_cons_self
  have agrees := answers_agree seeded_lawful seeded_fits reached
  exact ⟨randomX, first, second, reached, replaced, answers, agrees _ early first rfl,
    agrees _ late second rfl⟩

/-- No VM is in two hands, or in a list of idle ones while it is used; a context that nobody
uses has all its VMs back, each once. -/
theorem vms_lent_once (reached : Reached api mode randomX) :
    (∀ first second vm vm', (randomX.use first).vm = some vm → (randomX.use second).vm = some vm' →
      vm.context = vm'.context → vm.serial = vm'.serial → first = second) ∧
    (∀ worker vm, (randomX.use worker).vm = some vm → vm ∉ randomX.idleVms vm.context) ∧
    ∀ id, (∀ worker vm, (randomX.use worker).vm = some vm → vm.context ≠ id) →
      ((randomX.idleVms id).map Vm.serial).Perm (List.range (randomX.created id)) := by
  have lends := reached.lends
  refine ⟨?_, ?_, ?_⟩
  · intro first second vm vm' one two home serial
    have here := Use.serial_some one home
    rw [serial] at here
    exact (lends vm'.context).single first second vm'.serial here (Use.serial_some two rfl)
  · intro worker vm holds idle
    exact (lends vm.context).apart worker vm.serial (Use.serial_some holds rfl) (List.mem_map_of_mem idle)
  · intro id nobody
    exact (lends id).whole List.nodup_range fun worker => Use.serial_other (nobody worker)

omit [DecidableEq Worker] in
theorem second_vm_lent : ∃ randomX : RandomX Bool, Reached selfTested .light randomX ∧
    ∃ vm, (randomX.use true).vm = some vm ∧ vm.serial = 1 ∧ vm ∉ randomX.idleVms vm.context := by
  have ⟨randomX, reached, ⟨vm, holds, _, serial⟩, _⟩ := two_workers
  exact ⟨randomX, reached, vm, holds, serial, (vms_lent_once reached).2.1 true vm holds⟩

/-- Contexts are built one at a time, and none for the seed of the one before it. -/
theorem contexts_change_seed (reached : Reached api mode randomX) :
    randomX.context.made.IsChain (fun earlier later => earlier.seed ≠ later.seed) ∧
    (∀ first second seed seed', (randomX.context.phase first).Lacks seed →
      (randomX.context.phase second).Lacks seed' → second = first) ∧
    ∀ worker seed, (randomX.context.phase worker).Lacks seed → randomX.context.current.seed ≠ seed := by
  have coherent := reached.placed.coherent
  exact ⟨coherent.changes, fun _ _ _ _ one two => coherent.alone one.locked two.locked, coherent.absent⟩

omit [DecidableEq Worker] in
/-- A second context is built under the lock and about to be installed. -/
theorem second_context : ∃ randomX : RandomX Bool, Reached seeded .light randomX ∧
    randomX.context.made.map Context.seed = [ascii "test key 000", [1]] ∧
    randomX.context.made.IsChain (fun earlier later => earlier.seed ≠ later.seed) ∧
    (randomX.context.phase true).Lacks [1] ∧
    (∀ worker seed, (randomX.context.phase worker).Lacks seed → worker = true) ∧
    randomX.context.current.seed ≠ [1] := by
  obtain ⟨randomX, _, reached, ⟨context, installs⟩, seeds, _⟩ := two_seeds
  have ⟨changes, alone, absent⟩ := contexts_change_seed reached
  have lacks : (randomX.context.phase true).Lacks [1] := by
    rw [installs]
    exact .installing [1] context
  exact ⟨randomX, reached, seeds, changes, lacks, fun worker seed also => alone true worker [1] seed lacks also,
    absent true [1] lacks⟩

/-- Whoever is inside `calculate` can go on, or the worker that builds a context can; and each
has at most nine sections to go, one less after each. -/
theorem calls_return (reached : Reached api mode randomX) {worker : Worker}
    (entered : randomX.context.phase worker ≠ .idle) :
    ((∃ next, Step api mode worker randomX next) ∨
      ∃ owner, randomX.context.owner = some owner ∧ ∃ next, Step api mode owner randomX next) ∧
    (∀ next, Step api mode worker randomX next → sectionsOf next worker < sectionsOf randomX worker ∧
      ∀ other, other ≠ worker → sectionsOf next other = sectionsOf randomX other) ∧
    sectionsOf randomX worker ≤ 9 := by
  refine ⟨goes_on reached.placed entered, fun next step => step.nearer reached.placed entered, ?_⟩
  unfold sectionsOf sections
  split
  all_goals exact of_decide_eq_true rfl

omit [DecidableEq Worker] in
theorem second_call_returns : ∃ randomX : RandomX Bool, Reached selfTested .light randomX ∧
    0 < sectionsOf randomX true ∧ sectionsOf randomX true ≤ 9 := by
  have ⟨randomX, reached, _, _, done⟩ := two_workers
  have entered : randomX.context.phase true ≠ .idle := by
    rw [done]
    exact nofun
  have ⟨moves, nearer, few⟩ := calls_return reached entered
  refine ⟨randomX, reached, ?_, few⟩
  have ⟨_, step⟩ : ∃ next, Step selfTested .light true randomX next := Step.of_done done
  exact Nat.zero_lt_of_lt (nearer _ step).1

end RandomX

end ParitrNode
