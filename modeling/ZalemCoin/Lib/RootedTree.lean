import Mathlib.Data.Nat.Find
import ZalemCoin.Lib.ParentTree

/-!
# Trees with one root

A tree in which all nodes descend from one root, and every node knows its height. The ancestor of a
node a number of steps up stops at the root, so that it is there for every number; it is an ancestor
of another node exactly when it is not above the fork of the two.
-/

namespace ZalemCoin.Lib

variable {ι : Type*}

/-- A tree by parent pointers whose nodes all descend from one root. -/
structure RootedTree (ι : Type*) where
  parent : ι → Option ι
  height : ι → ℕ
  root : ι
  Node : ι → Prop
  height_eq : ∀ a b, parent a = some b → height a = height b + 1
  closed : ∀ a b, Node a → parent a = some b → Node b
  root_eq : ∀ a, Node a → parent a = none → a = root
  height_root : height root = 0

def ancestorAt (parent : ι → Option ι) : ℕ → ι → ι
  | 0, a => a
  | n + 1, a =>
    match parent a with
    | none => a
    | some b => ancestorAt parent n b

theorem ancestorAt_of_none {parent : ι → Option ι} {a : ι} (h : parent a = none) (n : ℕ) :
    ancestorAt parent n a = a := by
  cases n with
  | zero => rfl
  | succ n => simp [ancestorAt, h]

theorem ancestorAt_succ {parent : ι → Option ι} {a b : ι} (h : parent a = some b) (n : ℕ) :
    ancestorAt parent (n + 1) a = ancestorAt parent n b := by
  simp [ancestorAt, h]

theorem ancestorAt_add (parent : ι → Option ι) (m n : ℕ) (a : ι) :
    ancestorAt parent (m + n) a = ancestorAt parent n (ancestorAt parent m a) := by
  induction m generalizing a with
  | zero => rw [Nat.zero_add, ancestorAt]
  | succ m ih =>
    rw [Nat.succ_add]
    rcases h : parent a with _ | b
    · simp only [ancestorAt_of_none h]
    · rw [ancestorAt_succ h, ancestorAt_succ h, ih]

theorem isAncestor_ancestorAt (parent : ι → Option ι) (n : ℕ) (a : ι) :
    IsAncestor parent (ancestorAt parent n a) a := by
  induction n generalizing a with
  | zero => exact IsAncestor.refl _ _
  | succ n ih =>
    rcases h : parent a with _ | b
    · rw [ancestorAt_of_none h]
      exact IsAncestor.refl _ _
    · rw [ancestorAt_succ h]
      exact Relation.ReflTransGen.head h (ih b)

namespace RootedTree

variable (T : RootedTree ι) {a b f x y : ι}

variable {T}

variable (ha : T.Node a)
include ha

theorem node_of_isAncestor (h : IsAncestor T.parent x a) : T.Node x := by
  induction h with
  | refl => exact ha
  | tail _ hyz ih => exact T.closed _ _ ih hyz

theorem height_ancestorAt (n : ℕ) : T.height (ancestorAt T.parent n a) = T.height a - n := by
  induction n generalizing a with
  | zero => rfl
  | succ n ih =>
    rcases h : T.parent a with _ | b
    · -- Without a parent the node is the root, whose height is zero.
      have hroot : T.height a = 0 := by rw [T.root_eq a ha h, T.height_root]
      rw [ancestorAt_of_none h]
      omega
    · have hstep := T.height_eq a b h
      rw [ancestorAt_succ h, ih (T.closed a b ha h)]
      omega

theorem eq_root (h : T.height a = 0) : a = T.root := by
  rcases hp : T.parent a with _ | b
  · exact T.root_eq a ha hp
  · have hstep := T.height_eq a b hp
    omega

theorem ancestorAt_eq_root {n : ℕ} (h : T.height a ≤ n) : ancestorAt T.parent n a = T.root := by
  have hnode := node_of_isAncestor ha (isAncestor_ancestorAt T.parent n a)
  refine eq_root hnode ?_
  rw [height_ancestorAt ha]
  omega

theorem isAncestor_root : IsAncestor T.parent T.root a := by
  rw [← ancestorAt_eq_root ha (Nat.le_refl _)]
  exact isAncestor_ancestorAt _ _ _

theorem eq_ancestorAt (h : IsAncestor T.parent x a) :
    x = ancestorAt T.parent (T.height a - T.height x) a := by
  refine h.eq_of_height_eq T.height_eq (isAncestor_ancestorAt _ _ _) ?_
  rw [height_ancestorAt ha]
  rcases h.eq_or_lt T.height_eq with rfl | hlt <;> omega

theorem isAncestor_of_height_le (hx : IsAncestor T.parent x a)
    (hy : IsAncestor T.parent y a) (hle : T.height x ≤ T.height y) : IsAncestor T.parent x y := by
  have hhigh : T.height y ≤ T.height a := by
    rcases hy.eq_or_lt T.height_eq with rfl | hlt <;> omega
  have hsum : T.height a - T.height x
      = (T.height a - T.height y) + (T.height y - T.height x) := by omega
  -- The lower ancestor is further up, past the higher one.
  have hpast : x = ancestorAt T.parent (T.height y - T.height x) y := by
    calc x = ancestorAt T.parent (T.height a - T.height x) a := eq_ancestorAt ha hx
      _ = ancestorAt T.parent (T.height y - T.height x)
            (ancestorAt T.parent (T.height a - T.height y) a) := by rw [hsum, ancestorAt_add]
      _ = ancestorAt T.parent (T.height y - T.height x) y := by
        rw [← eq_ancestorAt ha hy]
  rw [hpast]
  exact isAncestor_ancestorAt _ _ _

theorem isAncestor_ancestorAt_iff (hfork : IsFork T.parent f a b) (n : ℕ) :
    IsAncestor T.parent (ancestorAt T.parent n a) b ↔ T.height a - T.height f ≤ n := by
  have hup := isAncestor_ancestorAt T.parent n a
  have hheight := height_ancestorAt ha n
  constructor
  · intro hshared
    rcases (hfork.last _ hup hshared).eq_or_lt T.height_eq with heq | hlt
    · rw [heq] at hheight
      omega
    · omega
  · intro hle
    refine Relation.ReflTransGen.trans hfork.right ?_
    exact isAncestor_of_height_le ha hup hfork.left (by omega)

theorem exists_fork (hb : T.Node b) : ∃ f, IsFork T.parent f a b := by
  have hshared : ∃ n, IsAncestor T.parent (ancestorAt T.parent n a) b :=
    ⟨T.height a, by rw [ancestorAt_eq_root ha (Nat.le_refl _)]; exact isAncestor_root hb⟩
  classical
  have hfork := Nat.find_spec hshared
  refine ⟨_, isAncestor_ancestorAt _ _ _, hfork, fun x hxa hxb => ?_⟩
  -- No ancestor below the first shared one is shared.
  have hfst : Nat.find hshared ≤ T.height a - T.height x := by
    refine Nat.find_min' hshared ?_
    rwa [← eq_ancestorAt ha hxa]
  have hlow : T.height x ≤ T.height a := by
    rcases hxa.eq_or_lt T.height_eq with rfl | hlt <;> omega
  refine isAncestor_of_height_le ha hxa (isAncestor_ancestorAt _ _ _) ?_
  rw [height_ancestorAt ha]
  omega

end RootedTree

end ZalemCoin.Lib
