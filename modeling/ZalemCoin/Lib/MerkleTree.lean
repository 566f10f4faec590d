import Mathlib.Data.List.Nodup
import Mathlib.Logic.Function.Iterate

/-!
# Merkle trees that pair an odd last node with itself

A level of the tree joins the nodes of the level below two by two, and an odd last node with itself.
The rule makes the tree ambiguous: a list whose end is repeated can have the root of the shorter
one. It is not ambiguous on lists without repetitions, as long as joining nodes has no collisions
among the pairs that are joined, and never gives a leaf.
-/

namespace ZalemCoin.Lib.Merkle

variable {α : Type*} {node : α → α → α} {leaves : List α}

/-- The pairs that are joined to the next level. -/
def pairs : List α → List (α × α)
  | a :: b :: rest => (a, b) :: pairs rest
  | [a] => [(a, a)]
  | [] => []

def level (node : α → α → α) (nodes : List α) : List α :=
  (pairs nodes).map fun p => node p.1 p.2

theorem length_pairs : ∀ nodes : List α, (pairs nodes).length = (nodes.length + 1) / 2
  | [] => by simp [pairs]
  | [_] => by simp [pairs]
  | a :: b :: rest => by
    have ih := length_pairs rest
    simp only [pairs, List.length_cons, ih]
    omega

theorem length_level (node : α → α → α) (nodes : List α) :
    (level node nodes).length = (nodes.length + 1) / 2 := by
  unfold level
  rw [List.length_map, length_pairs]

theorem mem_of_mem_pairs : ∀ {nodes : List α} {p : α × α}, p ∈ pairs nodes →
    p.1 ∈ nodes ∧ p.2 ∈ nodes
  | [], p, h => by simp [pairs] at h
  | [a], p, h => by simp_all [pairs]
  | a :: b :: rest, p, h => by
    rcases List.mem_cons.mp h with rfl | h
    · simp
    · simp [mem_of_mem_pairs h]

theorem nodup_pairs : ∀ {nodes : List α}, nodes.Nodup → (pairs nodes).Nodup
  | [], _ => List.nodup_nil
  | [a], _ => List.nodup_singleton _
  | a :: b :: rest, h => by
    obtain ⟨ha, hb, hrest⟩ := (List.nodup_cons.mp h).imp_right List.nodup_cons.mp
    refine List.nodup_cons.mpr ⟨fun hmem => ?_, nodup_pairs hrest⟩
    exact ha (List.mem_cons_of_mem _ (mem_of_mem_pairs hmem).1)

theorem pairs_injective : ∀ {nodes nodes' : List α}, nodes.Nodup → nodes'.Nodup →
    pairs nodes = pairs nodes' → nodes = nodes'
  | [], [], _, _, _ => rfl
  | [], [_], _, _, h => by simp [pairs] at h
  | [], _ :: _ :: _, _, _, h => by simp [pairs] at h
  | [_], [], _, _, h => by simp [pairs] at h
  | [_], [_], _, _, h => by
    simp only [pairs, List.cons.injEq, Prod.mk.injEq, and_true] at h
    rw [h.1]
  | [a], c :: d :: rest, _, h', h => by
    -- A node that is paired with itself is not paired with another one.
    simp only [pairs, List.cons.injEq, Prod.mk.injEq] at h
    obtain ⟨⟨rfl, rfl⟩, -⟩ := h
    exact absurd List.mem_cons_self (List.nodup_cons.mp h').1
  | a :: b :: rest, [c], h', _, h => by
    simp only [pairs, List.cons.injEq, Prod.mk.injEq] at h
    obtain ⟨⟨rfl, rfl⟩, -⟩ := h
    exact absurd List.mem_cons_self (List.nodup_cons.mp h').1
  | _ :: _ :: _, [], _, _, h => by simp [pairs] at h
  | a :: b :: rest, c :: d :: rest', h₁, h₂, h => by
    simp only [pairs, List.cons.injEq, Prod.mk.injEq] at h
    obtain ⟨⟨rfl, rfl⟩, hrest⟩ := h
    have hnodup := (List.nodup_cons.mp (List.nodup_cons.mp h₁).2).2
    have hnd' := (List.nodup_cons.mp (List.nodup_cons.mp h₂).2).2
    rw [pairs_injective hnodup hnd' hrest]

def levelAt (node : α → α → α) (leaves : List α) (n : ℕ) : List α := (level node)^[n] leaves

theorem levelAt_succ (node : α → α → α) (leaves : List α) (n : ℕ) :
    levelAt node leaves (n + 1) = level node (levelAt node leaves n) :=
  Function.iterate_succ_apply' _ _ _

/-- The pairs that are joined in a tree: those of every level that has more than one node. -/
def Joined (node : α → α → α) (leaves : List α) (p : α × α) : Prop :=
  ∃ n, 2 ≤ (levelAt node leaves n).length ∧ p ∈ pairs (levelAt node leaves n)

structure IsRoot (node : α → α → α) (leaves : List α) (height : ℕ) (root : α) : Prop where
  top : levelAt node leaves height = [root]
  below : ∀ n < height, 2 ≤ (levelAt node leaves n).length

def joinedPairs (node : α → α → α) (leaves : List α) (height : ℕ) : List (α × α) :=
  (List.range height).flatMap fun n => pairs (levelAt node leaves n)

theorem IsRoot.length_levelAt {height : ℕ} {root : α} (h : IsRoot node leaves height root) (n : ℕ) :
    (levelAt node leaves (height + n)).length = 1 := by
  induction n with
  | zero =>
    rw [Nat.add_zero, h.top]
    rfl
  | succ n ih => rw [← Nat.add_assoc, levelAt_succ, length_level, ih]

theorem IsRoot.joined_iff {height : ℕ} {root : α} (h : IsRoot node leaves height root) {p : α × α} :
    Joined node leaves p ↔ p ∈ joinedPairs node leaves height := by
  unfold joinedPairs
  rw [List.mem_flatMap]
  constructor
  · rintro ⟨n, hlong, hp⟩
    have hlt : n < height := by
      by_contra hge
      have hone := h.length_levelAt (n - height)
      rw [Nat.add_sub_cancel' (by omega)] at hone
      omega
    exact ⟨n, List.mem_range.mpr hlt, hp⟩
  · rintro ⟨n, hn, hp⟩
    exact ⟨n, h.below n (List.mem_range.mp hn), hp⟩

/-- Joining nodes has no collisions among the pairs of two trees. -/
def NoCollision (node : α → α → α) (leaves leaves' : List α) : Prop :=
  ∀ p q, Joined node leaves p ∨ Joined node leaves' p → Joined node leaves q ∨ Joined node leaves' q →
    node p.1 p.2 = node q.1 q.2 → p = q

/-- No joined pair gives a leaf. -/
def NoLeaf (node : α → α → α) (leaves leaves' : List α) : Prop :=
  ∀ p, Joined node leaves p ∨ Joined node leaves' p → node p.1 p.2 ∉ leaves ∧
    node p.1 p.2 ∉ leaves'

theorem NoCollision.symm {leaves' : List α} (h : NoCollision node leaves leaves') :
    NoCollision node leaves' leaves :=
  fun p q hp hq => h p q hp.symm hq.symm

theorem NoLeaf.symm {leaves' : List α} (h : NoLeaf node leaves leaves') :
    NoLeaf node leaves' leaves :=
  fun p hp => (h p hp.symm).symm

/-- A second preimage among the pairs that are tried: a pair gives a leaf, or what another pair of the
tree gives. -/
def SecondFound (node : α → α → α) (leaves : List α) (tried : List (α × α)) : Prop :=
  ∃ q ∈ tried, node q.1 q.2 ∈ leaves ∨
    ∃ p, Joined node leaves p ∧ q ≠ p ∧ node q.1 q.2 = node p.1 p.2

/-- What is joined to a node of a tree are nodes of the level below, or a second preimage is found. -/
theorem mem_or_secondFound {tried : List (α × α)} {a b : α} {n : ℕ} (hpair : (a, b) ∈ tried)
    (hlong : ∀ k < n, 2 ≤ (levelAt node leaves k).length)
    (hmem : node a b ∈ levelAt node leaves n) :
    (∃ k < n, a ∈ levelAt node leaves k ∧ b ∈ levelAt node leaves k) ∨
      SecondFound node leaves tried := by
  cases n with
  | zero => exact .inr ⟨_, hpair, .inl hmem⟩
  | succ n =>
    rw [levelAt_succ] at hmem
    obtain ⟨p, hp, heq⟩ := List.mem_map.mp hmem
    by_cases hsame : (a, b) = p
    · obtain rfl := hsame
      exact .inl ⟨n, n.lt_succ_self, mem_of_mem_pairs hp⟩
    · exact .inr ⟨_, hpair, .inr ⟨p, ⟨n, hlong n n.lt_succ_self, hp⟩, hsame, heq.symm⟩⟩

variable {leaves' : List α} {height height' : ℕ} {root : α}

variable (h : IsRoot node leaves height root)
include h

theorem IsRoot.nodup (hnodup : leaves.Nodup)
    (hinj : NoCollision node leaves leaves') {n : ℕ} (hn : n ≤ height) :
    (levelAt node leaves n).Nodup := by
  induction n with
  | zero => exact hnodup
  | succ n ih =>
    have hlong := h.below n (by omega)
    rw [levelAt_succ]
    refine (nodup_pairs (ih (by omega))).map_on fun p hp q hq heq => ?_
    exact hinj p q (.inl ⟨n, hlong, hp⟩) (.inl ⟨n, hlong, hq⟩) heq

variable (h' : IsRoot node leaves' height' root) (hnodup : leaves.Nodup)
  (hnodup' : leaves'.Nodup) (hinj : NoCollision node leaves leaves')
include h' hnodup hnodup' hinj

theorem IsRoot.levelAt_eq (d : ℕ) (hd : d ≤ height) (hd' : d ≤ height') :
    levelAt node leaves (height - d) = levelAt node leaves' (height' - d) := by
  induction d with
  | zero => rw [Nat.sub_zero, Nat.sub_zero, h.top, h'.top]
  | succ d ih =>
    have hup : height - d = (height - (d + 1)) + 1 := by omega
    have hup' : height' - d = (height' - (d + 1)) + 1 := by omega
    have hlong := h.below (height - (d + 1)) (by omega)
    have hlong' := h'.below (height' - (d + 1)) (by omega)
    have heq := ih (by omega) (by omega)
    rw [hup, hup', levelAt_succ, levelAt_succ] at heq
    -- The same next level comes from the same pairs, which determine the level.
    have hpairs : pairs (levelAt node leaves (height - (d + 1)))
        = pairs (levelAt node leaves' (height' - (d + 1))) := by
      refine List.ext_getElem ?_ fun n h₁ h₂ => ?_
      · have hlen := congrArg List.length heq
        unfold level at hlen
        rwa [List.length_map, List.length_map] at hlen
      · have hn := List.getElem_of_eq heq (by unfold level; rwa [List.length_map])
        unfold level at hn
        rw [List.getElem_map, List.getElem_map] at hn
        exact hinj _ _ (.inl ⟨_, hlong, List.getElem_mem h₁⟩)
          (.inr ⟨_, hlong', List.getElem_mem h₂⟩) hn
    exact pairs_injective (h.nodup hnodup hinj (by omega)) (h'.nodup hnodup' hinj.symm (by omega))
      hpairs

theorem IsRoot.height_le (hleaf : NoLeaf node leaves leaves') (hne : leaves ≠ []) :
    height' ≤ height := by
  by_contra hlt
  have heq := h.levelAt_eq h' hnodup hnodup' hinj height (Nat.le_refl _) (by omega)
  rw [Nat.sub_self] at heq
  -- The leaves of the lower tree would be joined nodes of the higher one.
  obtain ⟨m, hm⟩ : ∃ m, height' - height = m + 1 := ⟨height' - height - 1, by omega⟩
  rw [hm, levelAt_succ] at heq
  have hlong := h'.below m (by omega)
  obtain ⟨leaf, hleafmem⟩ := List.exists_mem_of_ne_nil _ hne
  have hmem : leaf ∈ level node (levelAt node leaves' m) := by
    rw [← heq]
    exact hleafmem
  obtain ⟨p, hp, rfl⟩ := List.mem_map.mp hmem
  exact (hleaf p (.inr ⟨m, hlong, hp⟩)).1 hleafmem

theorem leaves_eq_of_root_eq (hleaf : NoLeaf node leaves leaves')
    (hne : leaves ≠ []) (hne' : leaves' ≠ []) : leaves = leaves' := by
  have hle := h.height_le h' hnodup hnodup' hinj hleaf hne
  have hge := h'.height_le h hnodup' hnodup hinj.symm hleaf.symm hne'
  obtain rfl : height = height' := by omega
  have heq := h.levelAt_eq h' hnodup hnodup' hinj height (Nat.le_refl _) (Nat.le_refl _)
  rwa [Nat.sub_self] at heq

end ZalemCoin.Lib.Merkle
