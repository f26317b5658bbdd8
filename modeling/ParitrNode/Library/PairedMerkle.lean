import Mathlib.Data.List.Nodup

/-!
A Merkle tree built level by level, where an odd last entry is paired with
itself. Such a root does not determine an arbitrary list of leaves; it does
determine a list without repetitions whose entries are not themselves nodes.
-/

namespace PairedMerkle

variable {α : Type}

def padLast (level : List α) : List α :=
  if level.length % 2 = 1 then level ++ level.getLast?.toList else level

def pairs : List α → List (α × α)
  | left :: right :: rest => (left, right) :: pairs rest
  | _ => []

theorem pairs_length : ∀ level : List α, (pairs level).length = level.length / 2
  | [] => by simp [pairs]
  | [_] => by simp [pairs]
  | _ :: _ :: rest => by
    rw [pairs, List.length_cons, pairs_length rest]
    simp only [List.length_cons]
    omega

theorem padLast_length (level : List α) :
    (padLast level).length = level.length + level.length % 2 := by
  unfold padLast
  split
  next odd =>
    cases level with
    | nil => simp at odd
    | cons head rest =>
      rw [odd, List.length_append]
      simp [List.getLast?_cons]
  next even => omega

theorem mem_of_mem_pairs {pair : α × α} : ∀ {level : List α}, pair ∈ pairs level →
    pair.1 ∈ level ∧ pair.2 ∈ level
  | [], member => nomatch member
  | [_], member => nomatch member
  | left :: right :: rest, member => by
    cases List.mem_cons.mp member with
    | inl same => simp [same]
    | inr inside =>
      have below := mem_of_mem_pairs inside
      simp [below.1, below.2]

theorem mem_padLast {entry : α} {level : List α} : entry ∈ padLast level ↔ entry ∈ level := by
  unfold padLast
  split
  · rw [List.mem_append]
    constructor
    · intro member
      cases member with
      | inl inside => exact inside
      | inr last =>
        rw [Option.mem_toList] at last
        exact List.mem_of_getLast? last
    · exact Or.inl
  · rfl

theorem pairs_injective : ∀ {first second : List α}, first.length % 2 = 0 → second.length % 2 = 0 →
    pairs first = pairs second → first = second
  | [], [], _, _, _ => rfl
  | [], [_], _, odd, _ => by simp at odd
  | [], _ :: _ :: _, _, _, same => nomatch same
  | [_], _, odd, _, _ => by simp at odd
  | _ :: _ :: _, [], _, _, same => nomatch same
  | _ :: _ :: _, [_], _, odd, _ => by simp at odd
  | left :: right :: rest, left' :: right' :: rest', even, even', same => by
    rw [pairs, pairs] at same
    obtain ⟨heads, tails⟩ := List.cons.inj same
    obtain ⟨lefts, rights⟩ := Prod.mk.inj heads
    simp only [List.length_cons] at even even'
    rw [lefts, rights, pairs_injective (by omega) (by omega) tails]

/-- Padding repeats the last entry, so it is invisible only to lists with repetitions. -/
theorem padLast_injective {first second : List α} (distinct : first.Nodup) (distinct' : second.Nodup)
    (same : padLast first = padLast second) : first = second := by
  have lengths := congrArg List.length same
  rw [padLast_length, padLast_length] at lengths
  have repeated : ∀ {list other : List α}, list.length % 2 = 1 → other.length % 2 = 0 →
      list.length + 1 = other.length → padLast list = other → ¬other.Nodup := by
    intro list other odd even longer padded nodup
    unfold padLast at padded
    rw [if_pos odd] at padded
    have nonempty : list ≠ [] := by
      intro empty
      rw [empty] at odd
      simp at odd
    rw [List.getLast?_eq_getLast_of_ne_nil nonempty] at padded
    rw [← padded] at nodup
    have last := List.getLast_mem nonempty
    exact (List.nodup_append.mp nodup).2.2 _ last _ (by simp) rfl
  by_cases odd : first.length % 2 = 1
  · by_cases odd' : second.length % 2 = 1
    · unfold padLast at same
      rw [if_pos odd, if_pos odd'] at same
      exact (List.append_inj same (by omega)).1
    · have plain : padLast second = second := by unfold padLast; rw [if_neg odd']
      rw [plain] at same
      exact absurd distinct' (repeated odd (by omega) (by omega) same)
  · have plain : padLast first = first := by unfold padLast; rw [if_neg odd]
    by_cases odd' : second.length % 2 = 1
    · rw [plain] at same
      exact absurd distinct (repeated odd' (by omega) (by omega) same.symm)
    · have plain' : padLast second = second := by unfold padLast; rw [if_neg odd']
      rwa [plain, plain'] at same

theorem padLast_cons_cons (first second : α) (rest : List α) :
    padLast (first :: second :: rest) = first :: second :: padLast rest := by
  have parity : (first :: second :: rest).length % 2 = rest.length % 2 := by
    simp only [List.length_cons]
    omega
  unfold padLast
  rw [parity]
  by_cases odd : rest.length % 2 = 1
  · cases rest with
    | nil => simp at odd
    | cons third rest => rw [if_pos odd, if_pos odd]; rfl
  · rw [if_neg odd, if_neg odd]

theorem pairs_fst_sublist : ∀ level : List α,
    ((pairs (padLast level)).map Prod.fst).Sublist level
  | [] => List.Sublist.refl []
  | [entry] => List.Sublist.refl [entry]
  | first :: second :: rest => by
    rw [padLast_cons_cons, pairs, List.map_cons]
    exact List.Sublist.cons_cons first ((pairs_fst_sublist rest).cons second)

/-- Without repetitions in the level no pair is hashed twice. -/
theorem pairs_padLast_nodup {level : List α} (distinct : level.Nodup) :
    (pairs (padLast level)).Nodup :=
  List.Nodup.of_map Prod.fst ((pairs_fst_sublist level).nodup distinct)

theorem map_injOn {β : Type} {hash : α → β} {first second : List α}
    (free : ∀ entry ∈ first, ∀ other ∈ second, hash entry = hash other → entry = other)
    (same : first.map hash = second.map hash) : first = second := by
  induction first generalizing second with
  | nil =>
    cases second with
    | nil => rfl
    | cons other rest => cases same
  | cons entry rest ih =>
    cases second with
    | nil => cases same
    | cons other rest' =>
      rw [List.map_cons, List.map_cons] at same
      obtain ⟨heads, tails⟩ := List.cons.inj same
      have head := free entry List.mem_cons_self other List.mem_cons_self heads
      have tail := ih (fun item member item' member' =>
        free item (List.mem_cons_of_mem _ member) item' (List.mem_cons_of_mem _ member')) tails
      rw [head, tail]

section Hashing

variable (node : α → α → α) (zero : α)

def parents (level : List α) : List α :=
  (pairs (padLast level)).map fun pair => node pair.1 pair.2

theorem parents_length (level : List α) :
    (parents node level).length = (level.length + 1) / 2 := by
  unfold parents
  rw [List.length_map, pairs_length, padLast_length]
  omega

def root (level : List α) : α :=
  if level.length > 1 then root (parents node level) else level.headD zero
termination_by level.length
decreasing_by
  rw [parents_length]
  omega

def queries (level : List α) : List (α × α) :=
  if level.length > 1 then pairs (padLast level) ++ queries (parents node level) else []
termination_by level.length
decreasing_by
  rw [parents_length]
  omega

variable {node} {zero}

theorem mem_queries_of_pair {level : List α} {pair : α × α} (long : level.length > 1)
    (member : pair ∈ pairs (padLast level)) : pair ∈ queries node level := by
  rw [queries, if_pos long]
  exact List.mem_append_left _ member

theorem mem_queries_of_parents {level : List α} {pair : α × α}
    (member : pair ∈ queries node (parents node level)) : pair ∈ queries node level := by
  by_cases long : level.length > 1
  · rw [queries, if_pos long]
    exact List.mem_append_right _ member
  · have short : ¬(parents node level).length > 1 := by
      rw [parents_length]
      omega
    rw [queries, if_neg short] at member
    cases member

theorem query_entry {level : List α} {pair : α × α} (member : pair ∈ queries node level) :
    pair.1 ∈ level ∨ ∃ below ∈ queries node level, pair.1 = node below.1 below.2 := by
  induction level using queries.induct node generalizing pair with
  | case1 level long ih =>
    rw [queries, if_pos long] at member
    cases List.mem_append.mp member with
    | inl here => exact Or.inl (mem_padLast.mp (mem_of_mem_pairs here).1)
    | inr above =>
      cases ih above with
      | inl parent =>
        obtain ⟨below, inside, same⟩ := List.mem_map.mp parent
        exact Or.inr ⟨below, mem_queries_of_pair long inside, same.symm⟩
      | inr found =>
        obtain ⟨below, inside, same⟩ := found
        exact Or.inr ⟨below, mem_queries_of_parents inside, same⟩
  | case2 level short =>
    rw [queries, if_neg short] at member
    cases member

theorem root_eq_node {level : List α} (long : level.length > 1) :
    ∃ pair ∈ queries node level, root node zero level = node pair.1 pair.2 := by
  induction level using queries.induct node with
  | case1 level _ ih =>
    rw [root, if_pos long]
    by_cases above : (parents node level).length > 1
    · obtain ⟨pair, member, same⟩ := ih above
      exact ⟨pair, mem_queries_of_parents member, same⟩
    · rw [root, if_neg above]
      cases shape : pairs (padLast level) with
      | nil =>
        have length := pairs_length (padLast level)
        rw [shape, padLast_length] at length
        simp only [List.length_nil] at length
        omega
      | cons pair rest =>
        have member : pair ∈ pairs (padLast level) := shape ▸ List.mem_cons_self
        refine ⟨pair, mem_queries_of_pair long member, ?_⟩
        unfold parents
        rw [shape]
        rfl
  | case2 level short => exact absurd long short

theorem parents_nodup {level : List α} (long : level.length > 1) (distinct : level.Nodup)
    (free : ∀ pair ∈ queries node level, ∀ other ∈ queries node level,
      node pair.1 pair.2 = node other.1 other.2 → pair = other) : (parents node level).Nodup := by
  unfold parents
  refine List.Nodup.map_on ?_ (pairs_padLast_nodup distinct)
  intro pair member other member' same
  exact free pair (mem_queries_of_pair long member) other (mem_queries_of_pair long member') same

theorem root_of_long {level : List α} (long : level.length > 1) :
    root node zero level = root node zero (parents node level) := by
  rw [root, if_pos long]

theorem root_singleton (entry : α) : root node zero [entry] = entry := by
  rw [root, if_neg (by simp)]
  rfl

/-- A node that appears in the other tree one level up has its left entry in it. -/
theorem clash_descends {first second : List α} (long : first.length > 1) (long' : second.length > 1)
    (free : ∀ pair ∈ queries node first, ∀ other ∈ queries node second,
      node pair.1 pair.2 = node other.1 other.2 → pair = other)
    (clash : ∃ entry ∈ parents node first, ∃ pair ∈ queries node (parents node second),
      entry = node pair.1 pair.2) :
    ∃ entry ∈ first, ∃ pair ∈ queries node second, entry = node pair.1 pair.2 := by
  obtain ⟨entry, inside, pair, member, same⟩ := clash
  obtain ⟨below, listed, rfl⟩ := List.mem_map.mp inside
  have equal : below = pair := free below (mem_queries_of_pair long listed) pair
    (mem_queries_of_parents member) same
  have left : below.1 ∈ first := mem_padLast.mp (mem_of_mem_pairs listed).1
  refine ⟨below.1, left, ?_⟩
  rw [equal]
  cases query_entry member with
  | inl parent =>
    obtain ⟨lower, found, hashed⟩ := List.mem_map.mp parent
    exact ⟨lower, mem_queries_of_pair long' found, hashed.symm⟩
  | inr deeper =>
    obtain ⟨lower, found, hashed⟩ := deeper
    exact ⟨lower, mem_queries_of_parents found, hashed⟩

/-- Equal roots come from equal lists, or an entry of one list is a node of the other. -/
theorem root_binding {first second : List α} (nonempty : first ≠ []) (nonempty' : second ≠ [])
    (distinct : first.Nodup) (distinct' : second.Nodup)
    (free : ∀ pair, pair ∈ queries node first ∨ pair ∈ queries node second →
      ∀ other, other ∈ queries node first ∨ other ∈ queries node second →
        node pair.1 pair.2 = node other.1 other.2 → pair = other)
    (same : root node zero first = root node zero second) :
    first = second ∨ (∃ entry ∈ first, ∃ pair ∈ queries node second, entry = node pair.1 pair.2) ∨
      ∃ entry ∈ second, ∃ pair ∈ queries node first, entry = node pair.1 pair.2 := by
  induction first using queries.induct node generalizing second with
  | case1 first long ih =>
    by_cases long' : second.length > 1
    · have even := padLast_length first
      have even' := padLast_length second
      have level := parents_length node first
      have level' := parents_length node second
      rw [root_of_long long, root_of_long long'] at same
      have above := ih
        (List.ne_nil_of_length_pos (by omega)) (List.ne_nil_of_length_pos (by omega))
        (parents_nodup long distinct fun pair member other member' =>
          free pair (Or.inl member) other (Or.inl member'))
        (parents_nodup long' distinct' fun pair member other member' =>
          free pair (Or.inr member) other (Or.inr member'))
        (fun pair member other member' => free pair
          (member.imp mem_queries_of_parents mem_queries_of_parents) other
          (member'.imp mem_queries_of_parents mem_queries_of_parents)) same
      rcases above with equal | clash | clash
      · have hashed : pairs (padLast first) = pairs (padLast second) :=
          map_injOn (fun pair member other member' =>
            free pair (Or.inl (mem_queries_of_pair long member)) other
              (Or.inr (mem_queries_of_pair long' member'))) equal
        exact Or.inl (padLast_injective distinct distinct'
          (pairs_injective (by omega) (by omega) hashed))
      · exact Or.inr (Or.inl (clash_descends long long'
          (fun pair member other member' => free pair (Or.inl member) other (Or.inr member')) clash))
      · exact Or.inr (Or.inr (clash_descends long' long
          (fun pair member other member' => free pair (Or.inr member) other (Or.inl member')) clash))
    · -- the second list is its own root, which is a node of the first
      obtain ⟨entry, rfl⟩ := List.length_eq_one_iff.mp
        (show second.length = 1 by have := List.length_pos_iff.mpr nonempty'; omega)
      obtain ⟨pair, member, equal⟩ := root_eq_node long
      rw [equal, root_singleton] at same
      exact Or.inr (Or.inr ⟨entry, List.mem_singleton_self entry, pair, member, same.symm⟩)
  | case2 first short =>
    obtain ⟨entry, rfl⟩ := List.length_eq_one_iff.mp
      (show first.length = 1 by have := List.length_pos_iff.mpr nonempty; omega)
    by_cases long' : second.length > 1
    · obtain ⟨pair, member, equal⟩ := root_eq_node long'
      rw [equal, root_singleton] at same
      exact Or.inr (Or.inl ⟨entry, List.mem_singleton_self entry, pair, member, same⟩)
    · obtain ⟨other, rfl⟩ := List.length_eq_one_iff.mp
        (show second.length = 1 by have := List.length_pos_iff.mpr nonempty'; omega)
      rw [root_singleton, root_singleton] at same
      exact Or.inl (congrArg (fun item => [item]) same)

/-- The root determines a list without repetitions whose entries are no nodes. -/
theorem root_injective {first second : List α} (nonempty : first ≠ []) (nonempty' : second ≠ [])
    (distinct : first.Nodup) (distinct' : second.Nodup)
    (free : ∀ pair, pair ∈ queries node first ∨ pair ∈ queries node second →
      ∀ other, other ∈ queries node first ∨ other ∈ queries node second →
        node pair.1 pair.2 = node other.1 other.2 → pair = other)
    (apart : ∀ entry, entry ∈ first ∨ entry ∈ second →
      ∀ pair, pair ∈ queries node first ∨ pair ∈ queries node second → entry ≠ node pair.1 pair.2)
    (same : root node zero first = root node zero second) : first = second := by
  rcases root_binding nonempty nonempty' distinct distinct' free same with
    equal | ⟨entry, inside, pair, member, clash⟩ | ⟨entry, inside, pair, member, clash⟩
  · exact equal
  · exact absurd clash (apart entry (Or.inl inside) pair (Or.inr member))
  · exact absurd clash (apart entry (Or.inr inside) pair (Or.inl member))

end Hashing

end PairedMerkle
