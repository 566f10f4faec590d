import ZalemCoin.Chain.Runs
import ZalemCoin.Lib.RootedTree

/-!
# Block locators

A locator describes a place in the block chain to another node: `Set` lists the hash of a block, of
its ten last ancestors, and of further ones at steps that double, and appends the genesis block. A
node that receives it finds the first listed block that is on its main chain, and `GetDistanceBack`
repeats the arithmetic of the steps. The heights of a node are `int`s, so that the step can only
overflow once the walk has left the chain; it is a natural number here.
-/

namespace ZalemCoin.Chain

open Lib

/-- The hashes that a locator lists. -/
structure CBlockLocator where
  vHave : List UInt256
deriving DecidableEq

namespace CBlockLocator

/-- Follows `pprev` a number of times, as long as there is a block. -/
def walkBack (s : NodeState) : ℕ → Option UInt256 → Option UInt256
  | 0, pindex => pindex
  | _ + 1, none => none
  | n + 1, some p => walkBack s n (s.parent p)

/-- The loop of `Set`. The fuel bounds its rounds. -/
def setLoop (s : NodeState) :
    ℕ → Option UInt256 → ℕ → List UInt256 → Option (List UInt256)
  | _, none, _, vHave => some vHave
  | 0, some _, _, _ => none
  | fuel + 1, some p, nStep, vHave =>
    let vHave := vHave ++ [p]
    -- Exponentially larger steps back.
    let pindex := walkBack s nStep (some p)
    setLoop s fuel pindex (if vHave.length > 10 then nStep * 2 else nStep) vHave

def Set (ctx : Context) (s : NodeState) (fuel : ℕ) (pindex : Option UInt256) :
    Option CBlockLocator :=
  (setLoop s fuel pindex 1 []).map fun vHave => ⟨vHave ++ [ctx.hashGenesisBlock]⟩

/-- The loop of `GetDistanceBack`. -/
def distanceLoop (s : NodeState) : List UInt256 → ℕ → ℕ → ℕ
  | [], nDistance, _ => nDistance
  | hash :: vHave, nDistance, nStep =>
    if s.IsInMainChain hash then nDistance
    else
      let nDistance := nDistance + nStep
      distanceLoop s vHave nDistance (if nDistance > 10 then nStep * 2 else nStep)

/-- How far back the first listed block of the main chain was in the sender's branch. -/
def GetDistanceBack (s : NodeState) (locator : CBlockLocator) : ℕ :=
  distanceLoop s locator.vHave 0 1

/-- The first listed block that is on the main chain. -/
def GetBlockIndex (s : NodeState) (locator : CBlockLocator) : Option UInt256 :=
  match locator.vHave.find? s.IsInMainChain with
  | some p => some p
  | none => s.pindexGenesisBlock

def GetBlockHash (ctx : Context) (s : NodeState) (locator : CBlockLocator) : UInt256 :=
  (locator.vHave.find? s.IsInMainChain).getD ctx.hashGenesisBlock

end CBlockLocator

/-! ## The steps -/

def locatorStep (k : ℕ) : ℕ := if k ≤ 10 then 1 else 2 ^ (k - 10)

/-- How many blocks before the first entry of a locator another one is. -/
def locatorDistance : ℕ → ℕ
  | 0 => 0
  | k + 1 => locatorDistance k + locatorStep k

variable (k : ℕ)

theorem locatorDistance_eq : locatorDistance k = if k ≤ 11 then k else 9 + 2 ^ (k - 10) := by
  induction k with
  | zero => rfl
  | succ k ih =>
    rw [locatorDistance, ih, locatorStep]
    rcases lt_trichotomy k 11 with hlt | rfl | hgt
    · rw [if_pos (by omega), if_pos (by omega), if_pos (by omega)]
    · rfl
    · have hpow : 2 ^ (k + 1 - 10) = 2 ^ (k - 10) + 2 ^ (k - 10) := by
        rw [show k + 1 - 10 = k - 10 + 1 by omega, pow_succ]
        omega
      rw [if_neg (by omega), if_neg (by omega), if_neg (by omega), hpow]
      omega

theorem locatorStep_succ :
    locatorStep (k + 1) = if k + 1 > 10 then locatorStep k * 2 else locatorStep k := by
  unfold locatorStep
  rcases lt_trichotomy k 10 with hlt | rfl | hgt
  · rw [if_pos (by omega), if_neg (by omega), if_pos (by omega)]
  · rfl
  · rw [if_neg (by omega), if_pos (by omega), if_neg (by omega),
      show k + 1 - 10 = k - 10 + 1 by omega, pow_succ]

theorem locatorStep_pos : 0 < locatorStep k := by
  unfold locatorStep
  split
  · omega
  · exact Nat.two_pow_pos _

theorem locatorDistance_strictMono : StrictMono locatorDistance :=
  strictMono_nat_of_lt_succ fun k => by
    have hstep := locatorStep_pos k
    rw [locatorDistance]
    omega

theorem le_locatorDistance : k ≤ locatorDistance k := locatorDistance_strictMono.id_le k

theorem ten_lt_locatorDistance : locatorDistance k > 10 ↔ k > 10 := by
  rw [← show locatorDistance 10 = 10 from rfl]
  exact locatorDistance_strictMono.lt_iff_lt

theorem locatorDistance_succ_le : locatorDistance (k + 1) ≤ 2 * (locatorDistance k + 1) := by
  rw [locatorDistance_eq, locatorDistance_eq]
  rcases lt_trichotomy k 11 with hlt | rfl | hgt
  · rw [if_pos (by omega), if_pos (by omega)]
    omega
  · decide
  · have hpow : 2 ^ (k + 1 - 10) = 2 * 2 ^ (k - 10) := by
      rw [show k + 1 - 10 = k - 10 + 1 by omega, pow_succ]
      omega
    rw [if_neg (by omega), if_neg (by omega), hpow]
    omega

/-! ## Nodes that hold parts of one tree -/

structure Indexes (T : RootedTree UInt256) (s : NodeState) : Prop where
  node : ∀ p, s.mapBlockIndex p ≠ none → T.Node p
  parent : ∀ p i, s.mapBlockIndex p = some i → i.pprev = T.parent p
  known : ∀ p q, s.mapBlockIndex p ≠ none → T.parent p = some q → s.mapBlockIndex q ≠ none

structure MainChain (s : NodeState) (tip : UInt256) : Prop where
  known : s.mapBlockIndex tip ≠ none
  iff : ∀ q, s.IsInMainChain q = true ↔ IsAncestor s.parent q tip

section

variable {T : RootedTree UInt256} {s : NodeState} {p q tip f : UInt256}

theorem Indexes.parent_eq (h : Indexes T s) (hp : s.mapBlockIndex p ≠ none) :
    s.parent p = T.parent p := by
  obtain ⟨i, hi⟩ := Option.ne_none_iff_exists'.mp hp
  exact (Chain.parent_eq hi).trans (h.parent p i hi)

theorem MainChain.iff_tree (hmain : MainChain s tip) (h : Indexes T s) :
    s.IsInMainChain q = true ↔ IsAncestor T.parent q tip := by
  rw [hmain.iff]
  constructor
  · intro hq
    have hclosed : ∀ x y, s.mapBlockIndex x ≠ none → s.parent x = some y →
        s.mapBlockIndex y ≠ none := fun x y hx hxy =>
      h.known x y hx ((h.parent_eq hx).symm.trans hxy)
    exact hq.congr hclosed (fun x hx => (h.parent_eq hx).symm) hmain.known
  · intro hq
    exact hq.congr h.known (fun x hx => h.parent_eq hx) hmain.known

variable (h : Indexes T s)
include h

variable (hp : s.mapBlockIndex p ≠ none)
include hp

theorem Indexes.walkBack_eq (n : ℕ) :
    CBlockLocator.walkBack s n (some p)
      = if n ≤ T.height p then some (ancestorAt T.parent n p) else none := by
  induction n generalizing p with
  | zero => rfl
  | succ n ih =>
    rw [CBlockLocator.walkBack, h.parent_eq hp]
    rcases hpar : T.parent p with _ | q
    · -- The block is the genesis block.
      have hroot : T.height p = 0 := by rw [T.root_eq p (h.node p hp) hpar, T.height_root]
      rw [if_neg (by omega)]
      cases n <;> rfl
    · have hheight := T.height_eq p q hpar
      rw [ih (h.known p q hp hpar), ancestorAt_succ hpar]
      exact if_congr (by omega) rfl rfl

theorem Indexes.known_of_isAncestor (hq : IsAncestor T.parent q p) :
    s.mapBlockIndex q ≠ none := by
  induction hq with
  | refl => exact hp
  | tail _ hyz ih => exact h.known _ _ ih hyz

/-! ## What a locator lists -/

def locatorEntry (T : RootedTree UInt256) (p : UInt256) (k : ℕ) : UInt256 :=
  ancestorAt T.parent (locatorDistance k) p

/-- The block from which the walk of a locator goes on after a number of entries. -/
def locatorPointer (T : RootedTree UInt256) (p : UInt256) (k : ℕ) : Option UInt256 :=
  if locatorDistance k ≤ T.height p then some (locatorEntry T p k) else none

variable {k m k₀ n : ℕ} {ctx : Context} {entry : ℕ → UInt256}

theorem Indexes.walkBack_locatorStep (hk : locatorDistance k ≤ T.height p) :
    CBlockLocator.walkBack s (locatorStep k) (some (locatorEntry T p k))
      = locatorPointer T p (k + 1) := by
  have hknown : s.mapBlockIndex (locatorEntry T p k) ≠ none :=
    h.known_of_isAncestor hp (isAncestor_ancestorAt _ _ _)
  rw [h.walkBack_eq hknown, locatorPointer, locatorEntry, locatorEntry, locatorDistance,
    ancestorAt_add, RootedTree.height_ancestorAt (h.node p hp)]
  exact if_congr (by omega) rfl rfl

theorem Indexes.setLoop_eq {m : ℕ} (hm : ∀ k, k < m ↔ locatorDistance k ≤ T.height p) {fuel k : ℕ}
    {vHave : List UInt256} (hlen : vHave.length = k) (hk : k ≤ m) (hfuel : m - k ≤ fuel) :
    CBlockLocator.setLoop s fuel (locatorPointer T p k) (locatorStep k) vHave
      = some (vHave ++ (List.range' k (m - k)).map (locatorEntry T p)) := by
  induction fuel generalizing k vHave with
  | zero =>
    obtain rfl : k = m := by omega
    have hend : ¬locatorDistance k ≤ T.height p := fun hle => absurd ((hm k).mpr hle) (by omega)
    rw [locatorPointer, if_neg hend]
    simp [CBlockLocator.setLoop]
  | succ fuel ih =>
    by_cases hend : k < m
    · have hle := (hm k).mp hend
      have hpointer : locatorPointer T p k = some (locatorEntry T p k) := by
        rw [locatorPointer, if_pos hle]
      have hgrown : (vHave ++ [locatorEntry T p k]).length = k + 1 := by simp [hlen]
      rw [hpointer, CBlockLocator.setLoop, h.walkBack_locatorStep hp hle, hgrown, ← locatorStep_succ,
        ih hgrown hend (by omega),
        show m - k = (m - (k + 1)) + 1 by omega, List.range'_succ, List.map_cons]
      simp
    · obtain rfl : k = m := by omega
      have hoff : ¬locatorDistance k ≤ T.height p := fun hle => hend ((hm k).mpr hle)
      rw [locatorPointer, if_neg hoff]
      simp [CBlockLocator.setLoop]

omit hp

omit h

theorem exists_locatorCount (n : ℕ) :
    ∃ m, m ≤ n + 1 ∧ ∀ k, k < m ↔ locatorDistance k ≤ n := by
  have hfound : ∃ m, n < locatorDistance m := ⟨n + 1, le_locatorDistance (n + 1)⟩
  refine ⟨Nat.find hfound, Nat.find_min' hfound (le_locatorDistance (n + 1)), fun k => ?_⟩
  constructor
  · intro hk
    exact Nat.not_lt.mp (Nat.find_min hfound hk)
  · intro hle
    by_contra hk
    have hmono := locatorDistance_strictMono.monotone (Nat.not_lt.mp hk)
    have hspec := Nat.find_spec hfound
    omega

theorem Indexes.set_eq (h : Indexes T s) (hroot : T.root = ctx.hashGenesisBlock)
    (hp : s.mapBlockIndex p ≠ none) (hm : ∀ k, k < m ↔ locatorDistance k ≤ T.height p) {fuel : ℕ}
    (hfuel : m ≤ fuel) :
    CBlockLocator.Set ctx s fuel (some p)
      = some ⟨(List.range' 0 m).map (locatorEntry T p) ++ [T.root]⟩ := by
  have hstart : some p = locatorPointer T p 0 := (if_pos (Nat.zero_le (T.height p))).symm
  have hloop := @Indexes.setLoop_eq _ _ _ h hp m hm fuel 0 [] rfl (Nat.zero_le _) hfuel
  unfold CBlockLocator.Set
  rw [hstart, show (1 : ℕ) = locatorStep 0 from rfl, hloop, hroot]
  rfl

theorem locatorEntry_eq_root (hp : T.Node p) (hk : T.height p ≤ locatorDistance k) :
    locatorEntry T p k = T.root :=
  RootedTree.ancestorAt_eq_root hp hk

theorem locatorEntries_append_root (hp : T.Node p)
    (hm : ∀ k, k < m ↔ locatorDistance k ≤ T.height p) :
    (List.range' 0 m).map (locatorEntry T p) ++ [T.root]
      = (List.range' 0 (m + 1)).map (locatorEntry T p) := by
  have hend : T.height p ≤ locatorDistance m := by
    have hnot := mt (hm m).mpr (lt_irrefl m)
    omega
  rw [List.range'_concat, List.map_append, List.map_singleton, Nat.one_mul, Nat.zero_add,
    locatorEntry_eq_root hp hend]

theorem locatorEntries_pairwise (hp : T.Node p) (hm : ∀ k, k < m ↔ locatorDistance k ≤ T.height p) :
    ((List.range' 0 m).map (locatorEntry T p)).Pairwise fun x y => T.height y < T.height x := by
  rw [List.pairwise_map]
  refine List.Pairwise.imp_of_mem (fun {j k} hj hk hlt => ?_) List.pairwise_lt_range'
  have hk' : k < m := by simpa using hk
  have hmono := locatorDistance_strictMono hlt
  have hle := (hm k).mp hk'
  rw [locatorEntry, locatorEntry, RootedTree.height_ancestorAt hp, RootedTree.height_ancestorAt hp]
  omega

/-! ## What the receiver finds -/

theorem MainChain.locatorEntry_iff (hmain : MainChain s tip) (h : Indexes T s) (hp : T.Node p)
    (hfork : IsFork T.parent f p tip) (k : ℕ) :
    s.IsInMainChain (locatorEntry T p k) = true
      ↔ T.height p - T.height f ≤ locatorDistance k := by
  rw [hmain.iff_tree h]
  exact RootedTree.isAncestor_ancestorAt_iff hp hfork _

theorem find_locatorEntries {P : UInt256 → Bool} (hfound : P (entry k₀) = true)
    (hbef : ∀ k, k < k₀ → P (entry k) = false) (hk : k ≤ k₀) (hn : k₀ < k + n) :
    ((List.range' k n).map entry).find? P = some (entry k₀) := by
  induction n generalizing k with
  | zero => omega
  | succ n ih =>
    rw [List.range'_succ, List.map_cons, List.find?_cons]
    rcases Nat.eq_or_lt_of_le hk with rfl | hlt
    · rw [hfound]
    · rw [hbef k hlt]
      exact ih hlt (by omega)

theorem distanceLoop_locatorEntries (hfound : s.IsInMainChain (entry k₀) = true)
    (hbef : ∀ k, k < k₀ → s.IsInMainChain (entry k) = false) (hk : k ≤ k₀) (hn : k₀ < k + n) :
    CBlockLocator.distanceLoop s ((List.range' k n).map entry) (locatorDistance k) (locatorStep k)
      = locatorDistance k₀ := by
  induction n generalizing k with
  | zero => omega
  | succ n ih =>
    rw [List.range'_succ, List.map_cons, CBlockLocator.distanceLoop]
    rcases Nat.eq_or_lt_of_le hk with rfl | hlt
    · rw [if_pos hfound]
    · -- Both loops double the step after the same entries.
      have hdouble : (if locatorDistance (k + 1) > 10 then locatorStep k * 2 else locatorStep k)
          = locatorStep (k + 1) := by
        rw [locatorStep_succ]
        exact if_congr (ten_lt_locatorDistance (k + 1)) rfl rfl
      rw [if_neg (by simp [hbef k hlt]), ← locatorDistance]
      dsimp only
      rw [hdouble]
      exact ih hlt (by omega)

theorem getBlockIndex_eq_getBlockHash (hgen : s.pindexGenesisBlock = some ctx.hashGenesisBlock)
    (locator : CBlockLocator) :
    CBlockLocator.GetBlockIndex s locator = some (CBlockLocator.GetBlockHash ctx s locator) := by
  unfold CBlockLocator.GetBlockIndex CBlockLocator.GetBlockHash
  rcases locator.vHave.find? s.IsInMainChain with _ | p
  · exact hgen
  · rfl

theorem exists_firstEntry (d : ℕ) :
    ∃ k₀, (∀ k, d ≤ locatorDistance k ↔ k₀ ≤ k) ∧ locatorDistance k₀ ≤ max (d + 1) (2 * d) := by
  have hfound : ∃ k, d ≤ locatorDistance k := ⟨d, le_locatorDistance d⟩
  have hspec := Nat.find_spec hfound
  refine ⟨Nat.find hfound, fun k => ⟨fun hle => Nat.find_min' hfound hle, fun hle => ?_⟩, ?_⟩
  · exact hspec.trans (locatorDistance_strictMono.monotone hle)
  · rcases hk : Nat.find hfound with _ | k
    · exact Nat.zero_le _
    · -- The entry before is still above the fork.
      have hbef : ¬d ≤ locatorDistance k := Nat.find_min hfound (by omega)
      have hdouble := locatorDistance_succ_le k
      omega

end

/-- The locator of an indexed block is computed in as many rounds as the block has ancestors. It
lists ancestors of the block, among them the block itself and the genesis block, strictly descending
but for the genesis block that is appended, which may have been listed just before. A node that
receives it finds a block of its main chain that is an ancestor of the block, not further than twice
as far back as the fork, and counts the right distance unless only the appended genesis block was
found. -/
theorem set_getBlockIndex (ctx : Context) (T : RootedTree UInt256)
    (hroot : T.root = ctx.hashGenesisBlock) (s : NodeState) (h : Indexes T s) (p : UInt256)
    (hp : s.mapBlockIndex p ≠ none) :
    ∃ walk locator, locator = CBlockLocator.mk (walk ++ [ctx.hashGenesisBlock]) ∧
      (∀ fuel, T.height p < fuel → CBlockLocator.Set ctx s fuel (some p) = some locator) ∧
      walk.Pairwise (fun x y => T.height y < T.height x) ∧
      (∀ x ∈ locator.vHave, IsAncestor T.parent x p) ∧
      p ∈ locator.vHave ∧ ctx.hashGenesisBlock ∈ locator.vHave ∧
      ∀ r tip, Indexes T r → MainChain r tip →
        ∃ f b, IsFork T.parent f p tip ∧ CBlockLocator.GetBlockIndex r locator = some b ∧
          r.IsInMainChain b = true ∧
          IsAncestor T.parent b p ∧
          T.height p - T.height b
            ≤ max (T.height p - T.height f + 1) (2 * (T.height p - T.height f)) ∧
          ((b = ctx.hashGenesisBlock → b ∈ walk) →
            CBlockLocator.GetDistanceBack r locator = T.height p - T.height b) := by
  have hnode := h.node p hp
  obtain ⟨m, hcount, hm⟩ := exists_locatorCount (T.height p)
  have hlist := locatorEntries_append_root hnode hm
  refine ⟨(List.range' 0 m).map (locatorEntry T p), _, rfl, fun fuel hfuel => ?_,
    locatorEntries_pairwise hnode hm, ?_, ?_, by simp, ?_⟩
  · rw [← hroot]
    exact h.set_eq hroot hp hm (by omega)
  · intro x hx
    rw [← hroot, hlist] at hx
    obtain ⟨k, -, rfl⟩ := List.mem_map.mp hx
    exact isAncestor_ancestorAt _ _ _
  · -- The first entry is the block itself.
    have hfirst : 0 < m := (hm 0).mpr (Nat.zero_le _)
    exact List.mem_append_left _ (List.mem_map.mpr ⟨0, by simpa using hfirst, rfl⟩)
  · intro r tip hr hmain
    obtain ⟨f, hfork⟩ := RootedTree.exists_fork hnode (hr.node tip hmain.known)
    obtain ⟨k₀, hfirst, hbound⟩ := exists_firstEntry (T.height p - T.height f)
    have hentry := hmain.locatorEntry_iff hr hnode hfork
    -- The appended entry is always on the main chain.
    have hlast : k₀ ≤ m := by
      have hoff := mt (hm m).mpr (lt_irrefl m)
      exact (hfirst m).mp (by omega)
    have hfound : r.IsInMainChain (locatorEntry T p k₀) = true :=
      (hentry k₀).mpr ((hfirst k₀).mpr le_rfl)
    have hbefore : ∀ k, k < k₀ → r.IsInMainChain (locatorEntry T p k) = false := fun k hk =>
      Bool.eq_false_iff.mpr fun hmem => absurd ((hfirst k).mp ((hentry k).mp hmem)) (by omega)
    have hheight := RootedTree.height_ancestorAt hnode (locatorDistance k₀)
    rw [← hroot, hlist]
    refine ⟨f, locatorEntry T p k₀, hfork, ?_, hfound, isAncestor_ancestorAt _ _ _, ?_,
      fun hwalk => ?_⟩
    · unfold CBlockLocator.GetBlockIndex
      rw [find_locatorEntries hfound hbefore (Nat.zero_le _) (by omega)]
    · rw [locatorEntry, hheight]
      omega
    · have hcounted := distanceLoop_locatorEntries hfound hbefore (n := m + 1) (Nat.zero_le _)
        (by omega)
      refine hcounted.trans ?_
      rw [locatorEntry, hheight]
      -- The entry is on the chain, so that walking to it has not run past the genesis block.
      suffices hle : locatorDistance k₀ ≤ T.height p by omega
      by_contra hpast
      have hgenesis := locatorEntry_eq_root hnode (Nat.le_of_not_le hpast)
      obtain ⟨j, hj, heq⟩ := List.mem_map.mp (hwalk hgenesis)
      have hj' : j < m := by simpa using hj
      have hjle := (hm j).mp hj'
      have hzero : T.height (locatorEntry T p j) = 0 := by rw [heq, hgenesis, T.height_root]
      rw [locatorEntry, RootedTree.height_ancestorAt hnode] at hzero
      have hsooner := (hfirst j).mp (by omega)
      have hmono := locatorDistance_strictMono.monotone hsooner
      omega

/-! ## Blocks in a line -/

def lineTree : RootedTree UInt256 where
  parent a := if a.toNat ≤ 1 then none else some (a - 1)
  height a := a.toNat - 1
  root := 1
  Node a := a ≠ 0
  height_eq a b h := by
    split at h
    · simp at h
    · cases h
      bv_omega
  closed a b _ h := by
    split at h
    · simp at h
    · cases h
      bv_omega
  root_eq a ha h := by
    split at h
    · bv_omega
    · simp at h
  height_root := rfl

def lineNode (n : UInt256) : NodeState :=
  { emptyNode with
    mapBlockIndex := fun p =>
      if 1 ≤ p.toNat ∧ p.toNat ≤ n.toNat then
        some { plainIndex 1 (p.toNat - 1) (lineTree.parent p) (overpaidBlock 1) with
          pnext := if p.toNat < n.toNat then some (p + 1) else none }
      else none
    pindexGenesisBlock := some 1
    pindexBest := some n
    hashBestChain := n
    nBestHeight := n.toNat - 1 }

theorem lineNode_known {n p : UInt256} :
    (lineNode n).mapBlockIndex p ≠ none ↔ 1 ≤ p.toNat ∧ p.toNat ≤ n.toNat := by
  simp [lineNode]

theorem lineNode_indexes (n : UInt256) : Indexes lineTree (lineNode n) where
  node p hp := by
    have hknown := lineNode_known.mp hp
    change p ≠ 0
    bv_omega
  parent p i hi := by
    have hknown := lineNode_known.mp (by rw [hi]; simp : (lineNode n).mapBlockIndex p ≠ none)
    simp only [lineNode, if_pos hknown, Option.some.injEq] at hi
    rw [← hi]
    rfl
  known p q hp hq := by
    have hknown := lineNode_known.mp hp
    have hheight := lineTree.height_eq p q hq
    have hnode := lineTree.closed p q (by change p ≠ 0; bv_omega) hq
    change p.toNat - 1 = q.toNat - 1 + 1 at hheight
    change q ≠ 0 at hnode
    exact lineNode_known.mpr ⟨by bv_omega, by omega⟩

theorem lineNode_mainChain {n : UInt256} (hn : 1 ≤ n.toNat) : MainChain (lineNode n) n := by
  have hindexes := lineNode_indexes n
  have hknown : (lineNode n).mapBlockIndex n ≠ none := lineNode_known.mpr ⟨hn, le_rfl⟩
  have hmain : ∀ q, (lineNode n).IsInMainChain q = true ↔ 1 ≤ q.toNat ∧ q.toNat ≤ n.toNat := by
    intro q
    unfold NodeState.IsInMainChain lineNode
    dsimp only
    by_cases hq : 1 ≤ q.toNat ∧ q.toNat ≤ n.toNat
    · rw [if_pos hq]
      rcases Nat.lt_or_eq_of_le hq.2 with hlt | heq
      · simp [hlt, hq.1, hq.2]
      · simp [BitVec.eq_of_toNat_eq heq, hn]
    · rw [if_neg hq]
      simp only [Bool.false_eq_true, hq]
  refine ⟨hknown, fun q => ?_⟩
  rw [hmain]
  constructor
  · intro hq
    -- The block is as many steps up as the numbers differ.
    have hup := RootedTree.height_ancestorAt (hindexes.node n hknown) (n.toNat - q.toNat)
    have hnode := RootedTree.node_of_isAncestor (hindexes.node n hknown)
      (isAncestor_ancestorAt lineTree.parent (n.toNat - q.toNat) n)
    have heq : q = ancestorAt lineTree.parent (n.toNat - q.toNat) n := by
      refine BitVec.eq_of_toNat_eq ?_
      change (ancestorAt _ _ n).toNat - 1 = n.toNat - 1 - (n.toNat - q.toNat) at hup
      change ancestorAt _ _ n ≠ 0 at hnode
      bv_omega
    have htree : IsAncestor lineTree.parent q n := heq ▸ isAncestor_ancestorAt _ _ _
    exact htree.congr hindexes.known (fun x hx => hindexes.parent_eq hx) hknown
  · intro hq
    refine lineNode_known.mp ?_
    induction hq with
    | refl => exact hknown
    | @tail y z _ hyz ih => exact hindexes.known y z ih ((hindexes.parent_eq ih).symm.trans hyz)

/-- A node with four blocks receives the locator of the last of thirteen. -/
theorem lineNode_located : ∃ locator f b,
    CBlockLocator.Set overpaidContext (lineNode 13) 13 (some 13) = some locator ∧
      IsFork lineTree.parent f 13 4 ∧
      CBlockLocator.GetBlockIndex (lineNode 4) locator = some b ∧
      lineTree.height 13 - lineTree.height b
        ≤ max (lineTree.height 13 - lineTree.height f + 1)
          (2 * (lineTree.height 13 - lineTree.height f)) := by
  obtain ⟨walk, locator, -, hset, -, -, -, -, hfound⟩ :=
    set_getBlockIndex overpaidContext lineTree rfl (lineNode 13) (lineNode_indexes 13) 13
      (lineNode_known.mpr (by decide))
  obtain ⟨f, b, hfork, hb, -, -, hbound, -⟩ :=
    hfound (lineNode 4) 4 (lineNode_indexes 4) (lineNode_mainChain (by decide))
  exact ⟨locator, f, b, hset 13 (by decide), hfork, hb, hbound⟩

/-- The locator of the genesis block lists it twice, and the locator of the thirteenth block, from
which the walk runs past the genesis block, counts one block too many for it. -/
theorem lineNode_not_descending :
    CBlockLocator.Set overpaidContext (lineNode 1) 1 (some 1) = some ⟨[1, 1]⟩ ∧
      ¬([1, 1] : List UInt256).Pairwise (fun x y => lineTree.height y < lineTree.height x) ∧
      ∃ locator, CBlockLocator.Set overpaidContext (lineNode 13) 13 (some 13) = some locator ∧
        CBlockLocator.GetBlockIndex (lineNode 1) locator = some 1 ∧
        CBlockLocator.GetDistanceBack (lineNode 1) locator = 13 ∧
        lineTree.height 13 - lineTree.height 1 = 12 := by
  refine ⟨by decide, by decide, ⟨[13, 12, 11, 10, 9, 8, 7, 6, 5, 4, 3, 2, 1]⟩, ?_⟩
  decide

end ZalemCoin.Chain
