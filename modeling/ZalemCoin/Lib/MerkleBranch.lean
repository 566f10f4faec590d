import ZalemCoin.Lib.MerkleTree

/-!
# Branches of merkle trees, and trees in one list

A tree can be stored as one list: its leaves, then the next level, and so on up to the root. The branch
of a leaf is made of the partners of the nodes on its way up; joined with them one after the other, on
the side that the index says, the leaf gives the root.
-/

namespace ZalemCoin.Lib.Merkle

variable {α : Type*}

/-- The place of the other node of a pair in a level of `n` nodes: the neighbour, and the node itself
when it is an odd last one. -/
def partner (n i : ℕ) : ℕ := min (if i % 2 = 0 then i + 1 else i - 1) (n - 1)

theorem partner_lt {n i : ℕ} (h : i < n) : partner n i < n := by
  unfold partner
  omega

theorem partner_add_two {n i : ℕ} (h : i < n) : partner (n + 2) (i + 2) = partner n i + 2 := by
  unfold partner
  split_ifs <;> omega

def join (node : α → α → α) (i : ℕ) (a b : α) : α := if i % 2 = 0 then node a b else node b a

theorem getElem?_level (node : α → α → α) : ∀ (nodes : List α) (i : ℕ) (a b : α),
    nodes[i]? = some a → nodes[partner nodes.length i]? = some b →
      (level node nodes)[i / 2]? = some (join node i a b)
  | [], i, a, b, ha, _ => by simp at ha
  | [x], i, a, b, ha, hb => by
    obtain ⟨hi, rfl⟩ := List.getElem?_eq_some_iff.mp ha
    obtain rfl : i = 0 := by simpa using hi
    obtain rfl : x = b := by simpa [partner] using hb
    rfl
  | x :: y :: rest, i, a, b, ha, hb => by
    match i with
    | 0 =>
      obtain rfl : x = a := by simpa using ha
      obtain rfl : y = b := by simpa [partner] using hb
      rfl
    | 1 =>
      obtain rfl : y = a := by simpa using ha
      obtain rfl : x = b := by simpa [partner] using hb
      rfl
    | i + 2 =>
      -- The first pair is as if it were not there.
      have hi : i < rest.length := by
        obtain ⟨hlt, -⟩ := List.getElem?_eq_some_iff.mp ha
        simpa using hlt
      have hpartner : partner (x :: y :: rest).length (i + 2) = partner rest.length i + 2 :=
        partner_add_two hi
      rw [hpartner] at hb
      have ih := getElem?_level node rest i a b (by simpa using ha) (by simpa using hb)
      have hhalf : (i + 2) / 2 = i / 2 + 1 := by omega
      have hside : join node (i + 2) a b = join node i a b := by
        unfold join
        rw [Nat.add_mod_right]
      rw [hhalf, hside, ← ih]
      rfl

/-- The levels of a tree one after the other. The first argument is the number of levels that there may
be above the leaves. -/
def flatten (node : α → α → α) : ℕ → List α → List α
  | 0, nodes => nodes
  | fuel + 1, nodes =>
    if 1 < nodes.length then nodes ++ flatten node fuel (level node nodes) else nodes

def branch (node : α → α → α) : ℕ → List α → ℕ → List α
  | 0, _, _ => []
  | fuel + 1, nodes, i =>
    if 1 < nodes.length then
      (nodes[partner nodes.length i]?).toList ++ branch node fuel (level node nodes) (i / 2)
    else []

/-- What a leaf gives when it is joined with the nodes of a branch. -/
def climb (node : α → α → α) : α → List α → ℕ → α
  | a, [], _ => a
  | a, b :: rest, i => climb node (join node i a b) rest (i / 2)

theorem length_level_lt (node : α → α → α) {nodes : List α} (h : 1 < nodes.length) :
    0 < (level node nodes).length ∧ (level node nodes).length < nodes.length := by
  rw [length_level]
  omega

theorem climb_branch (node : α → α → α) {fuel : ℕ} {nodes : List α} {i : ℕ} {a : α}
    (ha : nodes[i]? = some a) (hfuel : nodes.length ≤ fuel + 1) :
    (flatten node fuel nodes).getLast? = some (climb node a (branch node fuel nodes i) i) := by
  induction fuel generalizing nodes i a with
  | zero =>
    obtain ⟨hi, rfl⟩ := List.getElem?_eq_some_iff.mp ha
    obtain ⟨x, rfl⟩ := List.length_eq_one_iff.mp (by omega : nodes.length = 1)
    obtain rfl : i = 0 := by simpa using hi
    rfl
  | succ fuel ih =>
    obtain ⟨hi, -⟩ := List.getElem?_eq_some_iff.mp ha
    unfold flatten branch
    by_cases hlong : 1 < nodes.length
    · obtain ⟨b, hb⟩ : ∃ b, nodes[partner nodes.length i]? = some b :=
        ⟨_, List.getElem?_eq_getElem (partner_lt hi)⟩
      obtain ⟨hpos, hlt⟩ := length_level_lt node hlong
      have habove := ih (getElem?_level node nodes i a b ha hb) (by omega)
      rw [if_pos hlong, if_pos hlong, hb, List.getLast?_append, habove]
      rfl
    · obtain ⟨x, rfl⟩ := List.length_eq_one_iff.mp (by omega : nodes.length = 1)
      obtain rfl : i = 0 := by simpa using hi
      obtain rfl : x = a := by simpa using ha
      rfl

end ZalemCoin.Lib.Merkle
