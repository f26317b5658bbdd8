import ParitrNode.Library.KeyOrder
import ParitrNode.ShareChain

/-!
A path of shares determines its witness: the templates it refers to, once each,
in id order. The validator's prefix is that witness at every step.
-/

namespace ParitrNode
open ByteCodec OrderedMap Checked KeyOrder

variable [Crypto]

/-! Templates by id. -/

/-- A template lookup that returns what it was asked for. -/
def Keyed (find : Hash32 → Option BlockTemplate) : Prop :=
  ∀ id template, find id = some template → template.id = id

theorem keyed_templatesById (templates : List BlockTemplate) :
    Keyed (fun id => (templatesById templates)[id]?) :=
  fun _ _ found => (get_templatesById found).2

theorem get_templatesById_of_mem {templates : List BlockTemplate}
    (distinct : (templates.map BlockTemplate.id).Nodup) {template : BlockTemplate}
    (member : template ∈ templates) : (templatesById templates)[template.id]? = some template := by
  have general : ∀ map : BTreeMap Hash32 BlockTemplate,
      (templates.foldl (fun map template => map.insert template.id template) map)[template.id]? =
        some template := by
    induction templates with
    | nil => cases member
    | cons first rest ih =>
      intro map
      rw [List.map_cons, List.nodup_cons] at distinct
      cases List.mem_cons.mp member with
      | inr inside => exact ih distinct.2 inside _
      | inl same =>
        subst same
        have kept : ∀ (others : List BlockTemplate) (map : BTreeMap Hash32 BlockTemplate),
            template.id ∉ others.map BlockTemplate.id → map[template.id]? = some template →
              (others.foldl (fun map template => map.insert template.id template)
                map)[template.id]? = some template := by
          intro others
          induction others with
          | nil => exact fun _ _ found => found
          | cons other others step =>
            intro map absent found
            rw [List.map_cons, List.mem_cons, not_or] at absent
            apply step _ absent.2
            rw [get_insert, if_neg (fun same => absent.1 same.symm), found]
        exact kept rest _ distinct.1 (get_insert_self map _ _)
  exact general ∅

omit [Crypto] in
theorem zip_tail_of_pairwise {ids : List Hash32} (sorted : ids.Pairwise (· < ·)) :
    ∀ pair ∈ ids.zip ids.tail, pair.1 < pair.2 := by
  induction ids with
  | nil => exact fun pair inside => nomatch inside
  | cons first rest ih =>
    obtain ⟨below, tail⟩ := List.pairwise_cons.mp sorted
    cases rest with
    | nil => exact fun pair inside => nomatch inside
    | cons second rest =>
      intro pair member
      cases List.mem_cons.mp member with
      | inl same =>
        rw [same]
        exact below second List.mem_cons_self
      | inr later => exact ih tail pair later

/-! The witness of a path. -/

structure Carries (find : Hash32 → Option BlockTemplate) (shares : List Workshare)
    (witness : WorkshareWitness) : Prop where
  version : witness.version = WorkshareWitness.VERSION
  workshares : witness.workshares = shares
  sorted : Increasing BlockTemplate.id witness.templates
  templates : ∀ template, template ∈ witness.templates ↔
    ∃ share ∈ shares, find share.templateId = some template

namespace Carries

variable {find : Hash32 → Option BlockTemplate} {shares : List Workshare}
  {witness : WorkshareWitness}

theorem unique (carries : Carries find shares witness) {other : WorkshareWitness}
    (again : Carries find shares other) : witness = other := by
  have same : witness.templates = other.templates := by
    apply carries.sorted.ext again.sorted
    intro template
    rw [carries.templates, again.templates]
  cases witness
  cases other
  have version := carries.version.trans again.version.symm
  have workshares := carries.workshares.trans again.workshares.symm
  dsimp only at version workshares same
  rw [version, workshares, same]

theorem empty (find : Hash32 → Option BlockTemplate) : Carries find [] WorkshareWitness.empty where
  version := rfl
  workshares := rfl
  sorted := List.Pairwise.nil
  templates _ :=
    ⟨fun inside => (nomatch inside), fun ⟨_, inside, _⟩ => (nomatch inside)⟩

theorem congr (carries : Carries find shares witness) {other : Hash32 → Option BlockTemplate}
    (same : ∀ share ∈ shares, find share.templateId = other share.templateId) :
    Carries other shares witness where
  version := carries.version
  workshares := carries.workshares
  sorted := carries.sorted
  templates template := by
    rw [carries.templates]
    constructor
    · intro ⟨share, member, found⟩
      exact ⟨share, member, same share member ▸ found⟩
    · intro ⟨share, member, found⟩
      exact ⟨share, member, (same share member).trans found⟩

theorem extend (keyed : Keyed find) (carries : Carries find shares witness) {share : Workshare}
    {template : BlockTemplate} (found : find share.templateId = some template) :
    Carries find (shares ++ [share]) (extendPrefix witness share template) where
  version := carries.version
  workshares := congrArg (· ++ [share]) carries.workshares
  sorted := by
    unfold extendPrefix
    dsimp only
    split
    · exact carries.sorted
    · next fresh =>
      apply increasing_mergeSort
      rw [List.map_append, List.nodup_append]
      refine ⟨carries.sorted.keys, List.nodup_singleton _, ?_⟩
      intro id known other single same
      obtain ⟨existing, member, rfl⟩ := List.mem_map.mp known
      rw [List.map_singleton, List.mem_singleton] at single
      exact fresh (List.any_eq_true.mpr ⟨existing, member, decide_eq_true (same.trans single)⟩)
  templates other := by
    have before := carries.templates other
    have added : other ∈ (extendPrefix witness share template).templates ↔
        other ∈ witness.templates ∨ other = template := by
      unfold extendPrefix
      dsimp only
      split
      · next known =>
        obtain ⟨existing, member, same⟩ := List.any_eq_true.mp known
        obtain ⟨referring, _, stored⟩ := (carries.templates existing).mp member
        have again : existing = template := by
          have id := of_decide_eq_true same
          rw [keyed _ _ stored, keyed _ _ found] at id
          rw [id, found] at stored
          exact (Option.some.inj stored).symm
        constructor
        · exact Or.inl
        · intro cases
          rcases cases with old | rfl
          · exact old
          · exact again ▸ member
      · rw [List.mem_mergeSort, List.mem_append, List.mem_singleton]
    rw [added, before]
    constructor
    · intro cases
      rcases cases with ⟨earlier, member, stored⟩ | rfl
      · exact ⟨earlier, List.mem_append_left _ member, stored⟩
      · exact ⟨share, List.mem_append_right _ (List.mem_singleton_self _), found⟩
    · intro ⟨referring, member, stored⟩
      rcases List.mem_append.mp member with earlier | last
      · exact Or.inl ⟨referring, earlier, stored⟩
      · rw [List.mem_singleton.mp last, found] at stored
        exact Or.inr (Option.some.inj stored).symm

theorem canonical (keyed : Keyed find) (carries : Carries find shares witness)
    (found : ∀ share ∈ shares, ∃ template, find share.templateId = some template) :
    witness.isCanonical = true := by
  have increasing : (witness.templates.map BlockTemplate.id).Pairwise (· < ·) :=
    List.pairwise_map.mpr carries.sorted
  unfold WorkshareWitness.isCanonical
  dsimp only
  rw [if_neg, Bool.and_eq_true, List.all_eq_true, List.all_eq_true, carries.workshares]
  · constructor
    · intro id member
      obtain ⟨share, listed, rfl⟩ := List.mem_map.mp member
      obtain ⟨template, stored⟩ := found share listed
      have inside := (carries.templates template).mpr ⟨share, listed, stored⟩
      exact decide_eq_true (List.mem_map.mpr ⟨template, inside, keyed _ _ stored⟩)
    · intro id member
      obtain ⟨template, inside, rfl⟩ := List.mem_map.mp member
      obtain ⟨share, listed, stored⟩ := (carries.templates template).mp inside
      exact decide_eq_true (List.mem_map.mpr ⟨share, listed, (keyed _ _ stored).symm⟩)
  · intro unsorted
    obtain ⟨pair, neighbours, order⟩ := List.any_eq_true.mp unsorted
    rw [show compare pair.1 pair.2 = Ordering.lt from zip_tail_of_pairwise increasing pair neighbours]
      at order
    cases order

end Carries

theorem Carries.lookup {find : Hash32 → Option BlockTemplate} {shares : List Workshare}
    {witness : WorkshareWitness} (keyed : Keyed find) (carries : Carries find shares witness)
    {share : Workshare} (member : share ∈ shares) {template : BlockTemplate}
    (found : find share.templateId = some template) :
    (templatesById witness.templates)[share.templateId]? = some template := by
  have inside := (carries.templates template).mpr ⟨share, member, found⟩
  rw [← keyed _ _ found]
  exact get_templatesById_of_mem carries.sorted.keys inside

/-! The loop over a list in two parts. -/

theorem validateShares_found {context : ShareContext} {previous : Hash32} {before : WorkshareWitness}
    {shares : List Workshare} (accepted : validateShares context previous before shares = .ok ()) :
    ∀ share ∈ shares, ∃ template, context.templates[share.templateId]? = some template := by
  intro share member
  obtain ⟨_, _, template, checked⟩ := validateShares_ok accepted share member
  exact ⟨template, (shareTemplate_ok (validateShare_ok_iff.mp checked).2.templateOk).1⟩

/-- The id a share has to name as its predecessor, after some shares. -/
def lastId (previous : Hash32) (shares : List Workshare) : Hash32 :=
  (shares.getLast?.map Workshare.id).getD previous

theorem lastId_cons (previous : Hash32) (share : Workshare) (rest : List Workshare) :
    lastId previous (share :: rest) = lastId share.id rest := by
  unfold lastId
  cases rest with
  | nil => rfl
  | cons second rest =>
    have nonempty : second :: rest ≠ [] := List.cons_ne_nil _ _
    rw [List.getLast?_cons_cons, List.getLast?_eq_getLast_of_ne_nil nonempty]
    rfl

/-- The loop after some shares: their witness is the prefix. -/
theorem validateShares_append_ok {context : ShareContext} {previous : Hash32}
    {before : WorkshareWitness} {carried shares later : List Workshare}
    (keyed : Keyed (fun id => context.templates[id]?))
    (carries : Carries (fun id => context.templates[id]?) carried before) :
    validateShares context previous before (shares ++ later) = .ok () ↔
      validateShares context previous before shares = .ok () ∧
        ∃ after, Carries (fun id => context.templates[id]?) (carried ++ shares) after ∧
          validateShares context (lastId previous shares) after later = .ok () := by
  induction shares generalizing previous before carried with
  | nil =>
    rw [List.append_nil, List.nil_append]
    constructor
    · intro accepted
      exact ⟨rfl, before, carries, accepted⟩
    · intro ⟨_, after, again, accepted⟩
      rw [carries.unique again]
      exact accepted
  | cons share shares ih =>
    rw [List.cons_append, validateShares_cons_ok, validateShares_cons_ok, lastId_cons]
    have shift : carried ++ share :: shares = carried ++ [share] ++ shares := by simp
    rw [shift]
    have next : ∀ {template}, validateShare context previous before share = .ok template →
        Carries (fun id => context.templates[id]?) (carried ++ [share])
          (extendPrefix before share template) := fun checked =>
      carries.extend keyed (shareTemplate_ok (validateShare_ok_iff.mp checked).2.templateOk).1
    constructor
    · intro ⟨template, head, tail⟩
      obtain ⟨first, after, carried, last⟩ := (ih (next head)).mp tail
      exact ⟨⟨template, head, first⟩, after, carried, last⟩
    · intro ⟨⟨template, head, first⟩, after, carried, last⟩
      exact ⟨template, head, (ih (next head)).mpr ⟨first, after, carried, last⟩⟩

/-! Settling. Everything else about a share has been checked once for all. -/

/-- The templates at hand and the settling block may change, as long as the
shares find the same templates and are not from after the block. -/
theorem validateShares_moved {context : ShareContext} {previous : Hash32}
    {before : WorkshareWitness} {shares : List Workshare}
    (accepted : validateShares context previous before shares = .ok ())
    {templates : BTreeMap Hash32 BlockTemplate} {settling : UInt64}
    (same : ∀ share ∈ shares, templates[share.templateId]? = context.templates[share.templateId]?)
    (settled : ∀ share ∈ shares, share.candidateHeader.timestamp ≤ settling) :
    validateShares { context with templates, settlingTimestamp := settling } previous before shares =
      .ok () := by
  induction shares generalizing previous before with
  | nil => rfl
  | cons share rest ih =>
    obtain ⟨template, head, tail⟩ := validateShares_cons_ok.mp accepted
    obtain ⟨-, checks⟩ := validateShare_ok_iff.mp head
    have found : shareTemplate { context with templates, settlingTimestamp := settling } share =
        .ok template := by
      rw [← checks.templateOk]
      unfold shareTemplate
      dsimp only
      rw [same share List.mem_cons_self]
    have again : ShareChecks { context with templates, settlingTimestamp := settling } previous
        before share template :=
      ⟨checks.version, checks.linked, checks.headerVersion, checks.protocol, checks.height,
        checks.parent, checks.bits, checks.afterParent, checks.afterMedian, found, checks.rest⟩
    exact validateShares_cons_ok.mpr ⟨template,
      validateShare_ok_iff.mpr ⟨settled share List.mem_cons_self, again⟩,
      ih tail (fun other member => same other (List.mem_cons_of_mem share member))
        fun other member => settled other (List.mem_cons_of_mem share member)⟩

theorem validateWorkshares_inTime {witness : WorkshareWitness} {parentHistory : List Block}
    {parentState : LedgerState} {pow : PowVerifier} {settling : UInt64}
    (accepted : validateWorkshares witness parentHistory parentState pow settling = .ok ()) :
    ∀ share ∈ witness.workshares, share.candidateHeader.timestamp ≤ settling := by
  intro share member
  rcases validateWorkshares_ok_iff.mp accepted with none | ⟨context, _, time, shares⟩
  · rw [none] at member
    cases member
  · obtain ⟨previous, before, template, checked⟩ := validateShares_ok shares share member
    exact time ▸ (validateShare_ok_iff.mp checked).1

/-- A witness that settled once settles at any timestamp its shares do not exceed. -/
theorem validateWorkshares_settling_iff {witness : WorkshareWitness} {parentHistory : List Block}
    {parentState : LedgerState} {pow : PowVerifier} {earlier settling : UInt64}
    (accepted : validateWorkshares witness parentHistory parentState pow earlier = .ok ()) :
    validateWorkshares witness parentHistory parentState pow settling = .ok () ↔
      ∀ share ∈ witness.workshares, share.candidateHeader.timestamp ≤ settling := by
  constructor
  · exact validateWorkshares_inTime
  · intro settled
    refine validateWorkshares_ok_iff.mpr ?_
    cases validateWorkshares_ok_iff.mp accepted with
    | inl none => exact Or.inl none
    | inr found =>
      obtain ⟨context, settles, -, shares⟩ := found
      refine Or.inr ⟨{ context with settlingTimestamp := settling }, ?_, rfl,
        validateShares_moved shares (fun _ _ => rfl) settled⟩
      exact ⟨settles.parentLast, settles.seed, settles.expectedBits, settles.blockTarget,
        settles.shareTarget, settles.history, settles.state, settles.oracle, settles.templates,
        settles.medianTime⟩

theorem validateWorkshares_empty (parentHistory : List Block) (parentState : LedgerState)
    (pow : PowVerifier) (settling : UInt64) :
    validateWorkshares WorkshareWitness.empty parentHistory parentState pow settling = .ok () := rfl

end ParitrNode
