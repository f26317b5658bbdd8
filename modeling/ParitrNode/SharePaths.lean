import ParitrNode.LivePool

/-!
The path of a share as a relation: `candidate_witness` finds it exactly when it
exists and has at most 512 shares, and returns the witness that carries it.
-/

namespace ParitrNode
open ByteCodec OrderedMap Checked KeyOrder

/-! Paths, from the first share of a chain to a given one. -/

inductive PathTo (find : Hash32 → Option Workshare) : Workshare → List Workshare → Prop
  | root {share : Workshare} (first : share.previousWorkshare = Hash32.ZERO) :
      PathTo find share [share]
  | step {share parent : Workshare} {path : List Workshare}
      (linked : share.previousWorkshare ≠ Hash32.ZERO)
      (found : find share.previousWorkshare = some parent) (earlier : PathTo find parent path) :
      PathTo find share (path ++ [share])

namespace PathTo

variable {find : Hash32 → Option Workshare} {share : Workshare} {path : List Workshare}

theorem unique (first : PathTo find share path) {other : List Workshare}
    (second : PathTo find share other) : path = other := by
  induction first generalizing other with
  | root zero =>
    cases second with
    | root => rfl
    | step linked => exact absurd zero linked
  | step linked found earlier ih =>
    cases second with
    | root zero => exact absurd zero linked
    | step _ again before =>
      rw [found] at again
      cases again
      rw [ih before]

theorem last (walked : PathTo find share path) : ∃ before, path = before ++ [share] := by
  cases walked with
  | root => exact ⟨[], rfl⟩
  | step _ _ earlier => exact ⟨_, rfl⟩

theorem positive (walked : PathTo find share path) : 0 < path.length := by
  obtain ⟨before, same⟩ := walked.last
  rw [same, List.length_append, List.length_singleton]
  exact Nat.succ_pos _

theorem mono (walked : PathTo find share path) {other : Hash32 → Option Workshare}
    (within : ∀ id found, find id = some found → other id = some found) : PathTo other share path := by
  induction walked with
  | root zero => exact .root zero
  | step linked found earlier ih => exact .step linked (within _ _ found) ih

theorem members (walked : PathTo find share path) :
    ∀ other ∈ path, other = share ∨ ∃ id : Hash32, find id = some other := by
  induction walked with
  | root => exact fun other member => Or.inl (List.mem_singleton.mp member)
  | step linked found earlier ih =>
    intro other member
    rcases List.mem_append.mp member with before | last
    · rcases ih other before with rfl | known
      · exact Or.inr ⟨_, found⟩
      · exact Or.inr known
    · exact Or.inl (List.mem_singleton.mp last)

end PathTo

namespace WorksharePool

theorem walkBack_path {shares : BTreeMap Hash32 Workshare} {seen : List Hash32} {oldest : Workshare}
    {later path : List Workshare} (walked : walkBack shares seen oldest later = .ok path)
    (short : later.length < MAX_WORKSHARES_PER_BLOCK) :
    ∃ before, PathTo (fun id => shares[id]?) oldest before ∧ path = before ++ later ∧
      path.length ≤ MAX_WORKSHARES_PER_BLOCK := by
  induction seen, oldest, later using walkBack.induct shares with
  | case1 seen oldest later previous zero =>
    rw [walkBack, if_pos zero] at walked
    cases walked
    exact ⟨[oldest], .root zero, rfl, short⟩
  | case2 seen oldest later previous linked stop =>
    rw [walkBack, if_neg linked, if_pos stop] at walked
    cases walked
  | case3 seen oldest later previous linked go missing =>
    rw [walkBack, if_neg linked, if_neg go, missing] at walked
    cases walked
  | case4 seen oldest later previous linked go share present ih =>
    rw [walkBack, if_neg linked, if_neg go, present] at walked
    rw [not_or, Nat.not_le] at go
    obtain ⟨before, earlier, same, bound⟩ := ih walked go.2
    exact ⟨before ++ [oldest], .step linked present earlier, by rw [same]; simp, bound⟩

/-- The walk only stops early at an id whose own path is at least as long as
what is left, so never on a path that ends. -/
theorem walkBack_complete {shares : BTreeMap Hash32 Workshare} {oldest : Workshare}
    {before : List Workshare} (walked : PathTo (fun id => shares[id]?) oldest before)
    {seen : List Hash32} {later : List Workshare}
    (short : before.length + later.length ≤ MAX_WORKSHARES_PER_BLOCK)
    (visited : ∀ id ∈ seen, ∃ share path, shares[id]? = some share ∧
      PathTo (fun id => shares[id]?) share path ∧ before.length ≤ path.length) :
    walkBack shares seen oldest later = .ok (before ++ later) := by
  induction walked generalizing seen later with
  | root zero =>
    rw [walkBack, if_pos zero]
    rfl
  | @step oldest parent before linked found earlier ih =>
    rw [List.length_append, List.length_singleton] at short visited
    have positive := earlier.positive
    have go : ¬(oldest.previousWorkshare ∈ seen ∨ later.length + 1 ≥ MAX_WORKSHARES_PER_BLOCK) := by
      rw [not_or]
      constructor
      · intro again
        obtain ⟨share, path, stored, own, long⟩ := visited _ again
        rw [show shares[oldest.previousWorkshare]? = some parent from found] at stored
        cases stored
        rw [own.unique earlier] at long
        omega
      · omega
    rw [walkBack, if_neg linked, if_neg go,
      show shares[oldest.previousWorkshare]? = some parent from found]
    dsimp only
    rw [ih (by rw [List.length_cons]; omega), List.append_assoc]
    · rfl
    · intro id member
      rcases List.mem_cons.mp member with rfl | inside
      · exact ⟨parent, before, found, earlier, Nat.le_refl _⟩
      · obtain ⟨share, path, stored, own, long⟩ := visited id inside
        exact ⟨share, path, stored, own, by omega⟩

theorem walkBack_ok_iff {shares : BTreeMap Hash32 Workshare} {share : Workshare}
    {path : List Workshare} : walkBack shares [] share [] = .ok path ↔
      PathTo (fun id => shares[id]?) share path ∧ path.length ≤ MAX_WORKSHARES_PER_BLOCK := by
  constructor
  · intro walked
    obtain ⟨before, found, same, bound⟩ := walkBack_path walked (by decide)
    rw [List.append_nil] at same
    exact ⟨same ▸ found, bound⟩
  · intro ⟨found, bound⟩
    have walked : walkBack shares [] share [] = .ok (path ++ []) :=
      walkBack_complete found bound (fun id inside => nomatch inside)
    rwa [List.append_nil] at walked

/-- The witness of a share exists exactly for a path of at most 512 shares on the
anchor, whose last template is known. -/
theorem candidateWitness_iff {pool : WorksharePool} {share : Workshare} {witness : WorkshareWitness} :
    pool.candidateWitness share = .ok witness ↔
      share.candidateHeader.previousBlock = pool.anchor ∧
        (∃ template, pool.templates[share.templateId]? = some template) ∧
          ∃ path, PathTo (fun id => pool.shares[id]?) share path ∧
            path.length ≤ MAX_WORKSHARES_PER_BLOCK ∧
            witness = ⟨WorkshareWitness.VERSION, pool.referencedTemplates path, path⟩ := by
  rw [candidateWitness_ok]
  constructor
  · intro ⟨anchored, template, path, walked, same⟩
    obtain ⟨found, bound⟩ := walkBack_ok_iff.mp walked
    exact ⟨anchored, template, path, found, bound, same⟩
  · intro ⟨anchored, template, path, found, bound, same⟩
    exact ⟨anchored, template, path, walkBack_ok_iff.mpr ⟨found, bound⟩, same⟩

section

variable [Crypto]

/-- Templates filed under their own ids. -/
def Filed (pool : WorksharePool) : Prop := Keyed (fun id => pool.templates[id]?)

theorem carries_referenced {pool : WorksharePool} (filed : pool.Filed) (path : List Workshare) :
    Carries (fun id => pool.templates[id]?) path
      ⟨WorkshareWitness.VERSION, pool.referencedTemplates path, path⟩ where
  version := rfl
  workshares := rfl
  sorted := by
    have ordered := (Std.ExtTreeMap.ordered_keys_toList (t := pool.templates)).filter
      (fun entry => decide (entry.1 ∈ path.map Workshare.templateId))
    change (pool.referencedTemplates path).Pairwise _
    rw [referencedTemplates_eq, List.pairwise_map]
    apply ordered.imp_of_mem
    intro first second firstMember secondMember below
    rw [filed _ _ (mem_toList.mp (List.mem_filter.mp firstMember).1),
      filed _ _ (mem_toList.mp (List.mem_filter.mp secondMember).1)]
    exact below
  templates template := by
    change template ∈ pool.referencedTemplates path ↔ _
    rw [referencedTemplates_eq, List.mem_map]
    constructor
    · intro ⟨(id, stored), member, same⟩
      obtain ⟨listed, referenced⟩ := List.mem_filter.mp member
      obtain ⟨share, inside, named⟩ := List.mem_map.mp (of_decide_eq_true referenced)
      have found := mem_toList.mp listed
      cases same
      exact ⟨share, inside, by rw [named]; exact found⟩
    · intro ⟨share, inside, found⟩
      exact ⟨(share.templateId, template), List.mem_filter.mpr ⟨mem_toList.mpr found,
        decide_eq_true (List.mem_map.mpr ⟨share, inside, rfl⟩)⟩, rfl⟩

end

end WorksharePool

end ParitrNode
