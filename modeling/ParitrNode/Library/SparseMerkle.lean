import Mathlib.Data.Set.Function

/-!
A Merkle tree with one leaf for every key, where keys are bit strings of a
fixed length. The tree is a function of the stored values; a cache of its inner
nodes is brought up to date along one path after one leaf has changed; and its
root determines every value, unless two of the hashed inputs collide.
-/

namespace SparseMerkle

/-- Keys read as strings of `levels` bits, the first bit choosing at the root. -/
structure BitKeys (κ : Type) (levels : Nat) where
  bit : κ → Nat → Bool
  toggle : κ → Nat → κ
  truncate : κ → Nat → κ
  bit_toggle : ∀ key {depth other}, depth < levels → other < levels →
    bit (toggle key depth) other = if depth = other then !bit key other else bit key other
  bit_truncate : ∀ key {depth other}, other < levels →
    bit (truncate key depth) other = (decide (other < depth) && bit key other)
  ext : ∀ {first second}, (∀ depth < levels, bit first depth = bit second depth) → first = second

namespace BitKeys

variable {κ : Type} {levels : Nat} (keys : BitKeys κ levels) {key path : κ} {depth : Nat}

theorem truncate_levels (key : κ) : keys.truncate key levels = key := by
  apply keys.ext
  intro other inside
  rw [keys.bit_truncate key inside, decide_eq_true inside, Bool.true_and]

theorem truncate_zero (first second : κ) : keys.truncate first 0 = keys.truncate second 0 := by
  apply keys.ext
  intro other inside
  rw [keys.bit_truncate first inside, keys.bit_truncate second inside]
  simp

/-- The paths that name a subtree at `depth`: nothing is set below it. -/
def At (depth : Nat) (path : κ) : Prop := keys.truncate path depth = path

theorem At.bit_eq_false (here : keys.At depth path) {other : Nat} (below : depth ≤ other)
    (inside : other < levels) : keys.bit path other = false := by
  rw [← show keys.truncate path depth = path from here, keys.bit_truncate path inside]
  simp [Nat.not_lt.mpr below]

theorem at_iff : keys.At depth path ↔
    ∀ other, depth ≤ other → other < levels → keys.bit path other = false := by
  constructor
  · exact fun here other below inside => At.bit_eq_false keys here below inside
  · intro clear
    apply keys.ext
    intro other inside
    rw [keys.bit_truncate path inside]
    by_cases above : other < depth
    · simp [above]
    · simp [above, clear other (Nat.le_of_not_lt above) inside]

theorem at_truncate (key : κ) (depth : Nat) : keys.At depth (keys.truncate key depth) := by
  rw [at_iff]
  intro other below inside
  rw [keys.bit_truncate key inside]
  simp [Nat.not_lt.mpr below]

theorem At.left (here : keys.At depth path) : keys.At (depth + 1) path := by
  rw [at_iff]
  exact fun other below inside => here.bit_eq_false keys (by omega) inside

theorem At.right (here : keys.At depth path) (inside : depth < levels) :
    keys.At (depth + 1) (keys.toggle path depth) := by
  rw [at_iff]
  intro other below within
  rw [keys.bit_toggle path inside within, if_neg (by omega)]
  exact here.bit_eq_false keys (by omega) within

theorem truncate_eq_iff (here : keys.At depth path) : keys.truncate key depth = path ↔
    ∀ other < levels, other < depth → keys.bit key other = keys.bit path other := by
  constructor
  · intro same other inside above
    rw [← same, keys.bit_truncate key inside]
    simp [above]
  · intro agree
    apply keys.ext
    intro other inside
    rw [keys.bit_truncate key inside]
    by_cases above : other < depth
    · simp [above, agree other inside above]
    · simp [above, here.bit_eq_false keys (Nat.le_of_not_lt above) inside]

theorem truncate_succ (key : κ) (inside : depth < levels) :
    keys.truncate key (depth + 1) = if keys.bit key depth then
      keys.toggle (keys.truncate key depth) depth else keys.truncate key depth := by
  apply keys.ext
  intro other within
  rw [keys.bit_truncate key within]
  by_cases set : keys.bit key depth = true
  · rw [if_pos set, keys.bit_toggle _ inside within, keys.bit_truncate key within]
    by_cases same : depth = other
    · subst same
      simp [set]
    · have bound : other < depth + 1 ↔ other < depth := by omega
      simp [same, bound]
  · rw [if_neg set, keys.bit_truncate key within]
    by_cases same : depth = other
    · subst same
      simp [set]
    · have bound : other < depth + 1 ↔ other < depth := by omega
      simp [bound]

theorem toggle_toggle (path : κ) (inside : depth < levels) :
    keys.toggle (keys.toggle path depth) depth = path := by
  apply keys.ext
  intro other within
  rw [keys.bit_toggle _ inside within, keys.bit_toggle _ inside within]
  split
  · rw [Bool.not_not]
  · rfl

theorem truncate_of_left (here : keys.At depth path)
    (below : keys.truncate key (depth + 1) = path) : keys.truncate key depth = path := by
  rw [keys.truncate_eq_iff here]
  rw [keys.truncate_eq_iff (here.left keys)] at below
  exact fun other inside above => below other inside (by omega)

theorem truncate_of_right (here : keys.At depth path) (inside : depth < levels)
    (below : keys.truncate key (depth + 1) = keys.toggle path depth) :
    keys.truncate key depth = path := by
  rw [keys.truncate_eq_iff here]
  rw [keys.truncate_eq_iff (here.right keys inside)] at below
  intro other within above
  rw [below other within (by omega), keys.bit_toggle path inside within, if_neg (by omega)]

/-- The keys below the left child have the bit of its parent clear. -/
theorem truncate_succ_left (here : keys.At depth path) (inside : depth < levels) :
    keys.truncate key (depth + 1) = path ↔
      keys.truncate key depth = path ∧ keys.bit key depth = false := by
  have clear : keys.bit path depth = false := here.bit_eq_false keys (Nat.le_refl _) inside
  constructor
  · intro below
    have agree := (keys.truncate_eq_iff (here.left keys)).mp below depth inside (Nat.lt_succ_self _)
    exact ⟨keys.truncate_of_left here below, agree.trans clear⟩
  · intro ⟨above, left⟩
    rw [keys.truncate_succ key inside, left, above]
    simp

theorem truncate_succ_right (here : keys.At depth path) (inside : depth < levels) :
    keys.truncate key (depth + 1) = keys.toggle path depth ↔
      keys.truncate key depth = path ∧ keys.bit key depth = true := by
  have clear : keys.bit path depth = false := here.bit_eq_false keys (Nat.le_refl _) inside
  constructor
  · intro below
    have agree := (keys.truncate_eq_iff (here.right keys inside)).mp below depth inside
      (Nat.lt_succ_self _)
    rw [keys.bit_toggle path inside inside, if_pos rfl, clear] at agree
    exact ⟨keys.truncate_of_right here inside below, agree⟩
  · intro ⟨above, right⟩
    rw [keys.truncate_succ key inside, right, above]
    simp

end BitKeys

/-- What is hashed: the empty leaf, a leaf with its key, or two children. -/
inductive Query (κ β α : Type) where
  | emptyLeaf
  | leaf (key : κ) (value : β)
  | node (left right : α)

section Tree

variable {κ β α : Type} {levels : Nat} (keys : BitKeys κ levels) (hash : Query κ β α → α)

def leafQuery (values : κ → Option β) (key : κ) : Query κ β α :=
  match values key with
  | some value => .leaf key value
  | none => .emptyLeaf

/-- The node of the subtree that `path` names, `height` levels above the leaves. -/
def subtree (values : κ → Option β) : Nat → κ → α
  | 0, path => hash (leafQuery values path)
  | height + 1, path =>
    hash (.node (subtree values height path)
      (subtree values height (keys.toggle path (levels - (height + 1)))))

def emptyAt : Nat → α
  | 0 => hash .emptyLeaf
  | height + 1 => hash (.node (emptyAt height) (emptyAt height))

theorem subtree_none (height : Nat) (path : κ) :
    subtree keys hash (fun _ => none) height path = emptyAt hash height := by
  induction height generalizing path with
  | zero => rfl
  | succ height ih => rw [subtree, emptyAt, ih, ih]

variable {keys} {hash}

/-- A subtree is a function of the values below its path. -/
theorem subtree_congr {values others : κ → Option β} {height depth : Nat} {path : κ}
    (bottom : depth + height = levels) (here : keys.At depth path)
    (agree : ∀ key, keys.truncate key depth = path → values key = others key) :
    subtree keys hash values height path = subtree keys hash others height path := by
  induction height generalizing depth path with
  | zero =>
    obtain rfl : depth = levels := bottom
    rw [subtree, subtree, leafQuery, leafQuery, agree path (keys.truncate_levels path)]
  | succ height ih =>
    have inside : depth < levels := by omega
    have position : levels - (height + 1) = depth := by omega
    rw [subtree, subtree, position]
    rw [ih (by omega) (here.left keys)
      fun key below => agree key (keys.truncate_of_left here below)]
    rw [ih (by omega) (here.right keys inside)
      fun key below => agree key (keys.truncate_of_right here inside below)]

variable (keys) (hash) in
/-- The node of a list of entries, divided by one more bit of their keys on each level. -/
def divided : Nat → List (κ × β) → α
  | 0, [] => hash .emptyLeaf
  | 0, (key, value) :: _ => hash (.leaf key value)
  | height + 1, entries =>
    let right := fun entry : κ × β => keys.bit entry.1 (levels - (height + 1))
    hash (.node (divided height (entries.filter fun entry => !right entry))
      (divided height (entries.filter right)))

theorem divided_eq {values : κ → Option β} {height depth : Nat} {path : κ}
    {entries : List (κ × β)} (bottom : depth + height = levels) (here : keys.At depth path)
    (below : ∀ key value, (key, value) ∈ entries ↔
      values key = some value ∧ keys.truncate key depth = path) :
    divided keys hash height entries = subtree keys hash values height path := by
  induction height generalizing depth path entries with
  | zero =>
    obtain rfl : depth = levels := bottom
    cases entries with
    | nil =>
      have absent : values path = none := by
        rw [Option.eq_none_iff_forall_ne_some]
        intro value stored
        have member := (below path value).mpr ⟨stored, keys.truncate_levels path⟩
        cases member
      rw [divided, subtree, leafQuery, absent]
    | cons entry rest =>
      have first := (below entry.1 entry.2).mp List.mem_cons_self
      have same : entry.1 = path := (keys.truncate_levels entry.1).symm.trans first.2
      rw [subtree, leafQuery, ← same, first.1]
      rfl
  | succ height ih =>
    have inside : depth < levels := by omega
    have position : levels - (height + 1) = depth := by omega
    rw [divided, subtree, position]
    have left : divided keys hash height (entries.filter fun entry => !keys.bit entry.1 depth) =
        subtree keys hash values height path := by
      apply ih (by omega) (here.left keys)
      intro key value
      rw [List.mem_filter, below, keys.truncate_succ_left here inside]
      simp only [Bool.not_eq_true', and_assoc]
    have right : divided keys hash height (entries.filter fun entry => keys.bit entry.1 depth) =
        subtree keys hash values height (keys.toggle path depth) := by
      apply ih (by omega) (here.right keys inside)
      intro key value
      rw [List.mem_filter, below, keys.truncate_succ_right here inside]
      simp only [and_assoc]
    simp only [left, right]

/-! The cache. It is read as a function of depth and path; an absent entry
reads as the empty subtree. -/

variable (keys) (hash)

def Caches (view : Nat → κ → α) (values : κ → Option β) : Prop :=
  ∀ depth ≤ levels, ∀ path, keys.At depth path →
    view depth path = subtree keys hash values (levels - depth) path

def combined (key : κ) (view : Nat → κ → α) (depth : Nat) : α :=
  let child := keys.truncate key (depth + 1)
  let sibling := keys.toggle child depth
  if keys.bit key depth then hash (.node (view (depth + 1) sibling) (view (depth + 1) child))
  else hash (.node (view (depth + 1) child) (view (depth + 1) sibling))

def rehashed [DecidableEq κ] (key : κ) (view : Nat → κ → α) (depth : Nat) : Nat → κ → α :=
  fun other path =>
    if other = depth ∧ path = keys.truncate key depth then combined keys hash key view depth
    else view other path

/-- The cache is right except on the key's path above `depth`. -/
def CachesBelow (key : κ) (depth : Nat) (view : Nat → κ → α) (values : κ → Option β) : Prop :=
  ∀ other ≤ levels, ∀ path, keys.At other path → depth ≤ other ∨ path ≠ keys.truncate key other →
    view other path = subtree keys hash values (levels - other) path

variable {keys} {hash}

theorem caches_iff {key : κ} {view : Nat → κ → α} {values : κ → Option β} :
    CachesBelow keys hash key 0 view values ↔ Caches keys hash view values := by
  constructor
  · exact fun below depth bound path here => below depth bound path here (Or.inl (Nat.zero_le _))
  · exact fun all depth bound path here _ => all depth bound path here

theorem caches_none : Caches keys hash (fun depth _ => emptyAt hash (levels - depth))
    (fun _ => none) :=
  fun depth _ path _ => (subtree_none keys hash (levels - depth) path).symm

/-- After one leaf has changed, only the nodes above it are stale. -/
theorem Caches.setLeaf {key : κ} {view changed : Nat → κ → α} {values others : κ → Option β}
    (cached : Caches keys hash view values)
    (elsewhere : ∀ other, other ≠ key → others other = values other)
    (leaf : changed levels key = hash (leafQuery others key))
    (frame : ∀ depth path, depth ≠ levels ∨ path ≠ key → changed depth path = view depth path) :
    CachesBelow keys hash key levels changed others := by
  intro depth bound path here off
  by_cases isLeaf : depth = levels ∧ path = key
  · obtain ⟨rfl, rfl⟩ := isLeaf
    rw [leaf, Nat.sub_self]
    rfl
  · have apart : path ≠ keys.truncate key depth := by
      cases off with
      | inr apart => exact apart
      | inl bottom =>
        obtain rfl : depth = levels := by omega
        rw [keys.truncate_levels]
        exact fun same => isLeaf ⟨rfl, same⟩
    rw [frame depth path (by tauto), cached depth bound path here]
    apply subtree_congr (by omega) here
    intro other below
    rw [elsewhere other]
    exact fun same => apart (same ▸ below.symm)

theorem combined_eq {key : κ} {depth : Nat} {view : Nat → κ → α} {values : κ → Option β}
    (inside : depth < levels) (cached : CachesBelow keys hash key (depth + 1) view values) :
    combined keys hash key view depth =
      subtree keys hash values (levels - depth) (keys.truncate key depth) := by
  have here := keys.at_truncate key depth
  have height : levels - depth = levels - (depth + 1) + 1 := by omega
  have left := cached (depth + 1) inside _ (here.left keys) (Or.inl (Nat.le_refl _))
  have right := cached (depth + 1) inside _ (here.right keys inside) (Or.inl (Nat.le_refl _))
  rw [height, subtree, ← height, Nat.sub_sub_self (by omega), ← left, ← right]
  unfold combined
  rw [keys.truncate_succ key inside]
  by_cases set : keys.bit key depth = true
  · simp only [set, if_true, keys.toggle_toggle _ inside]
  · simp only [set, if_false, Bool.false_eq_true]

theorem CachesBelow.rehashed [DecidableEq κ] {key : κ} {depth : Nat} {view : Nat → κ → α}
    {values : κ → Option β} (inside : depth < levels) (cached : CachesBelow keys hash key (depth + 1) view values) :
    CachesBelow keys hash key depth (rehashed keys hash key view depth) values := by
  intro other bound path here off
  unfold SparseMerkle.rehashed
  split
  next same =>
    obtain ⟨rfl, rfl⟩ := same
    exact combined_eq inside cached
  next different =>
    apply cached other bound path here
    cases off with
    | inr apart => exact Or.inr apart
    | inl below =>
      by_cases same : other = depth
      · exact Or.inr fun equal => different ⟨same, by rw [equal, same]⟩
      · exact Or.inl (by omega)

/-- Rehashing the path from the leaf to the root repairs the cache. -/
theorem CachesBelow.rehash_path [DecidableEq κ] {key : κ} {values : κ → Option β} {depth : Nat}
    {view : Nat → κ → α} (inside : depth ≤ levels)
    (cached : CachesBelow keys hash key depth view values) :
    Caches keys hash
      ((List.range depth).reverse.foldl (SparseMerkle.rehashed keys hash key) view) values := by
  induction depth generalizing view with
  | zero => exact caches_iff.mp cached
  | succ depth ih =>
    rw [List.range_succ, List.reverse_append, List.foldl_append]
    exact ih (by omega) (cached.rehashed (by omega))

/-! What the root determines. -/

variable (keys) (hash) in
/-- Everything hashed on the way from the leaves below `path` to its node. -/
def queries (values : κ → Option β) : Nat → κ → Set (Query κ β α)
  | 0, path => {leafQuery values path}
  | height + 1, path =>
    let right := keys.toggle path (levels - (height + 1))
    insert (.node (subtree keys hash values height path) (subtree keys hash values height right))
      (queries values height path ∪ queries values height right)

theorem leafQuery_inj {first second : κ → Option β} {key : κ}
    (same : leafQuery (α := α) first key = leafQuery second key) : first key = second key := by
  unfold leafQuery at same
  cases left : first key with
  | none =>
    cases right : second key with
    | none => rfl
    | some value => rw [left, right] at same; cases same
  | some value =>
    cases right : second key with
    | none => rw [left, right] at same; cases same
    | some other => rw [left, right] at same; cases same; rfl

theorem subtree_binding {first second : κ → Option β} {height depth : Nat} {path : κ}
    (bottom : depth + height = levels) (here : keys.At depth path)
    (free : Set.InjOn hash
      (queries keys hash first height path ∪ queries keys hash second height path))
    (same : subtree keys hash first height path = subtree keys hash second height path) :
    ∀ key, keys.truncate key depth = path → first key = second key := by
  induction height generalizing depth path with
  | zero =>
    intro key below
    obtain rfl : depth = levels := bottom
    obtain rfl : key = path := (keys.truncate_levels key).symm.trans below
    exact leafQuery_inj (free (Or.inl rfl) (Or.inr rfl) same)
  | succ height ih =>
    intro key below
    have inside : depth < levels := by omega
    have position : levels - (height + 1) = depth := by omega
    rw [queries, queries] at free
    rw [subtree, subtree] at same
    rw [position] at free same
    -- the children of two equal nodes are equal, and the key is below one of them
    have children := free (Or.inl (Set.mem_insert _ _)) (Or.inr (Set.mem_insert _ _)) same
    obtain ⟨left, right⟩ := Query.node.inj children
    have next := keys.truncate_succ key inside
    rw [below] at next
    cases set : keys.bit key depth with
    | false =>
      rw [set, if_neg Bool.false_ne_true] at next
      refine ih (by omega) (here.left keys) (free.mono ?_) left key next
      exact Set.union_subset_union (fun _ member => Or.inr (Or.inl member))
        (fun _ member => Or.inr (Or.inl member))
    | true =>
      rw [set, if_pos rfl] at next
      refine ih (by omega) (here.right keys inside) (free.mono ?_) right key next
      exact Set.union_subset_union (fun _ member => Or.inr (Or.inr member))
        (fun _ member => Or.inr (Or.inr member))

/-- The root: the node that every key is below. -/
theorem root_binding {first second : κ → Option β} {top : κ} (whole : keys.At 0 top)
    (free : Set.InjOn hash (queries keys hash first levels top ∪ queries keys hash second levels top))
    (same : subtree keys hash first levels top = subtree keys hash second levels top) :
    first = second := by
  funext key
  have below : keys.truncate key 0 = top := (keys.truncate_zero key top).trans whole
  exact subtree_binding (Nat.zero_add levels) whole free same key below

/-! Hashes that tell which entries they were made of do not collide. -/

variable (keys) (hash) in
/-- What the node that `path` names is the hash of. -/
def nodeQuery (values : κ → Option β) : Nat → κ → Query κ β α
  | 0, path => leafQuery values path
  | height + 1, path =>
    .node (subtree keys hash values height path)
      (subtree keys hash values height (keys.toggle path (levels - (height + 1))))

theorem hash_nodeQuery (values : κ → Option β) (height : Nat) (path : κ) :
    hash (nodeQuery keys hash values height path) = subtree keys hash values height path := by
  cases height with
  | zero => rfl
  | succ height => rfl

theorem mem_queries {values : κ → Option β} {height depth : Nat} {path : κ} {query : Query κ β α}
    (bottom : depth + height = levels) (here : keys.At depth path)
    (member : query ∈ queries keys hash values height path) :
    ∃ lower below other, lower + below = levels ∧ keys.At lower other ∧
      query = nodeQuery keys hash values below other := by
  induction height generalizing depth path with
  | zero => exact ⟨depth, 0, path, bottom, here, member⟩
  | succ height ih =>
    have inside : depth < levels := by omega
    have position : levels - (height + 1) = depth := by omega
    rw [queries, position] at member
    rcases member with top | left | right
    · refine ⟨depth, height + 1, path, bottom, here, ?_⟩
      rw [top, nodeQuery, position]
    · exact ih (by omega) (here.left keys) left
    · exact ih (by omega) (here.right keys inside) right

theorem nodeQuery_congr {values others : κ → Option β} {height depth : Nat} {path : κ}
    (bottom : depth + height = levels) (here : keys.At depth path)
    (agree : ∀ key, keys.truncate key depth = path → values key = others key) :
    nodeQuery keys hash values height path = nodeQuery keys hash others height path := by
  cases height with
  | zero =>
    obtain rfl : depth = levels := bottom
    rw [nodeQuery, nodeQuery, leafQuery, leafQuery, agree path (keys.truncate_levels path)]
  | succ height =>
    have inside : depth < levels := by omega
    have position : levels - (height + 1) = depth := by omega
    rw [nodeQuery, nodeQuery, position]
    congr 1
    · apply subtree_congr (by omega) (here.left keys)
      exact fun key below => agree key (keys.truncate_of_left here below)
    · apply subtree_congr (by omega) (here.right keys inside)
      exact fun key below => agree key (keys.truncate_of_right here inside below)

theorem nodeQuery_none (height : Nat) (path other : κ) :
    nodeQuery keys hash (fun _ => none) height path =
      nodeQuery keys hash (fun _ => none) height other := by
  cases height with
  | zero => rfl
  | succ height => simp only [nodeQuery, subtree_none]

variable (keys) in
def entriesBelow (values : κ → Option β) (depth : Nat) (path : κ) : Set (κ × β) :=
  {entry | values entry.1 = some entry.2 ∧ keys.truncate entry.1 depth = path}

theorem mem_entriesBelow_succ {values : κ → Option β} {depth : Nat} {path : κ} {entry : κ × β}
    (inside : depth < levels) (here : keys.At depth path) :
    entry ∈ entriesBelow keys values depth path ↔
      entry ∈ entriesBelow keys values (depth + 1) path ∨
        entry ∈ entriesBelow keys values (depth + 1) (keys.toggle path depth) := by
  unfold entriesBelow
  simp only [Set.mem_ofPred_eq, keys.truncate_succ_left here inside,
    keys.truncate_succ_right here inside]
  cases keys.bit entry.1 depth with
  | false => simp
  | true => simp

variable (keys) (hash) in
/-- Equal nodes of these trees are at one height, over the same entries. -/
def Telling (trees : Set (κ → Option β)) : Prop :=
  ∀ first ∈ trees, ∀ second ∈ trees, ∀ {depth depth' height height' : Nat} {path path' : κ},
    depth + height = levels → depth' + height' = levels → keys.At depth path →
    keys.At depth' path' →
      subtree keys hash first height path = subtree keys hash second height' path' →
        height = height' ∧ entriesBelow keys first depth path = entriesBelow keys second depth' path'

/-- Nodes over the same entries are hashed from the same children, wherever they stand. -/
theorem nodeQuery_eq {first second : κ → Option β} {depth height : Nat} {path path' : κ}
    (bottom : depth + height = levels) (here : keys.At depth path) (here' : keys.At depth path')
    (same : entriesBelow keys first depth path = entriesBelow keys second depth path') :
    nodeQuery keys hash first height path = nodeQuery keys hash second height path' := by
  rcases Set.eq_empty_or_nonempty (entriesBelow keys first depth path) with empty | ⟨entry, inside⟩
  · -- no entries: both subtrees are the empty one of their height
    have bare : ∀ {values : κ → Option β} {other : κ}, entriesBelow keys values depth other = ∅ →
        ∀ key, keys.truncate key depth = other → values key = none := by
      intro values other none key below
      rw [Option.eq_none_iff_forall_ne_some]
      intro value found
      have member : (key, value) ∈ entriesBelow keys values depth other := ⟨found, below⟩
      rwa [none] at member
    rw [nodeQuery_congr bottom here (bare empty), nodeQuery_congr bottom here' (bare (same ▸ empty))]
    exact nodeQuery_none height path path'
  · -- an entry fixes the path
    have inside' := inside
    rw [same] at inside'
    obtain rfl : path = path' := inside.2.symm.trans inside'.2
    apply nodeQuery_congr bottom here
    intro key below
    apply Option.ext
    intro value
    have entries := Set.ext_iff.mp same (key, value)
    exact ⟨fun found => (entries.mp ⟨found, below⟩).1, fun found => (entries.mpr ⟨found, below⟩).1⟩

theorem Telling.injOn {trees : Set (κ → Option β)} (telling : Telling keys hash trees) {top : κ}
    (whole : keys.At 0 top) :
    Set.InjOn hash {query | ∃ values ∈ trees, query ∈ queries keys hash values levels top} := by
  intro first ⟨values, inside, member⟩ second ⟨others, inside', member'⟩ same
  obtain ⟨depth, height, path, bottom, here, rfl⟩ := mem_queries (Nat.zero_add levels) whole member
  obtain ⟨depth', height', path', bottom', here', rfl⟩ :=
    mem_queries (Nat.zero_add levels) whole member'
  have nodes : subtree keys hash values height path = subtree keys hash others height' path' :=
    (hash_nodeQuery values height path).symm.trans (same.trans (hash_nodeQuery others height' path'))
  obtain ⟨rfl, entries⟩ := telling values inside others inside' bottom bottom' here here' nodes
  obtain rfl : depth = depth' := by omega
  exact nodeQuery_eq bottom here here' entries

end Tree

end SparseMerkle
