import ZalemCoin.Chain.MerkleRoot
import ZalemCoin.Lib.MerkleBranch

/-!
# Merkle branches

A block keeps its merkle tree in one list, level after level, and finds its way in it by the sizes of the
levels alone. `GetMerkleBranch` takes the partners of a transaction's nodes out of that list, and
`CheckMerkleBranch` joins them with the identifier of the transaction. What comes out is the root of the
tree, for every transaction of the block, and for those alone when the hash has no second preimages.
-/

namespace ZalemCoin.Chain

open Lib

/-! ## The tree in one list -/

/-- Appends the next level to the list of the levels. The level below starts at `j`, and has `nSize`
nodes. -/
def appendLevel (ctx : Context) (nSize j : ℕ) (vMerkleTree : List UInt256) : List UInt256 :=
  (List.range ((nSize + 1) / 2)).foldl (fun vMerkleTree k =>
    let i := 2 * k
    let i2 := min (i + 1) (nSize - 1)
    vMerkleTree ++ [ctx.hashPair (vMerkleTree.getD (j + i) 0) (vMerkleTree.getD (j + i2) 0)])
    vMerkleTree

/-- The loop of `BuildMerkleTree` over the levels, with the number of levels that it may still
append. -/
def merkleTreeLoop (ctx : Context) : ℕ → ℕ → ℕ → List UInt256 → List UInt256
  | 0, _, _, vMerkleTree => vMerkleTree
  | fuel + 1, nSize, j, vMerkleTree =>
    if 1 < nSize then
      merkleTreeLoop ctx fuel ((nSize + 1) / 2) (j + nSize) (appendLevel ctx nSize j vMerkleTree)
    else vMerkleTree

/-- The list that `BuildMerkleTree` leaves in a block. -/
def merkleTree (ctx : Context) (vtx : List CTransaction) : List UInt256 :=
  merkleTreeLoop ctx vtx.length vtx.length 0 (vtx.map ctx.hashTx)

/-- The list in which a block keeps its merkle tree. What changes the transactions of a block builds the
tree again, so the list is empty or holds the tree of the transactions. -/
structure MerkleCache (ctx : Context) (vtx : List CTransaction) where
  vMerkleTree : List UInt256
  current : vMerkleTree = [] ∨ vMerkleTree = merkleTree ctx vtx

variable {ctx : Context}

namespace MerkleCache

variable {vtx : List CTransaction}

def empty : MerkleCache ctx vtx := ⟨[], Or.inl rfl⟩

end MerkleCache

/-! ## Branches -/

/-- The number with its lowest bit flipped. -/
def xorOne (n : ℤ) : ℤ := if n % 2 = 0 then n + 1 else n - 1

/-- The loop of `GetMerkleBranch` over the levels, with the number of levels that it may still look
at; none when it reads outside of the list. -/
def merkleBranchLoop (vMerkleTree : List UInt256) : ℕ → ℕ → ℕ → ℤ → Option (List UInt256)
  | 0, _, _, _ => some []
  | fuel + 1, nSize, j, nIndex =>
    if 1 < nSize then do
      let i := min (xorOne nIndex) ((nSize : ℤ) - 1)
      let node ← if 0 ≤ (j : ℤ) + i then vMerkleTree[((j : ℤ) + i).toNat]? else none
      let rest ← merkleBranchLoop vMerkleTree fuel ((nSize + 1) / 2) (j + nSize) (nIndex / 2)
      pure (node :: rest)
    else some []

def GetMerkleBranch (ctx : Context) (block : CBlock) (vMerkleTree : List UInt256) (nIndex : ℤ) :
    Option (List UInt256) × List UInt256 :=
  let vMerkleTree := if vMerkleTree = [] then merkleTree ctx block.vtx else vMerkleTree
  (merkleBranchLoop vMerkleTree block.vtx.length block.vtx.length 0 nIndex, vMerkleTree)

/-- The loop of `CheckMerkleBranch` over a branch. -/
def checkBranchLoop (ctx : Context) : UInt256 → List UInt256 → ℤ → UInt256
  | hash, [], _ => hash
  | hash, otherside :: vMerkleBranch, nIndex =>
    checkBranchLoop ctx
      (if nIndex % 2 = 1 then ctx.hashPair otherside hash else ctx.hashPair hash otherside)
      vMerkleBranch (nIndex / 2)

/-- The pairs that the loop joins. -/
def branchPairs (ctx : Context) : UInt256 → List UInt256 → ℤ → List (UInt256 × UInt256)
  | _, [], _ => []
  | hash, otherside :: vMerkleBranch, nIndex =>
    let pair := if nIndex % 2 = 1 then (otherside, hash) else (hash, otherside)
    pair :: branchPairs ctx (ctx.hashPair pair.1 pair.2) vMerkleBranch (nIndex / 2)

def CheckMerkleBranch (ctx : Context) (hash : UInt256) (vMerkleBranch : List UInt256) (nIndex : ℤ) :
    UInt256 :=
  if nIndex = -1 then 0 else checkBranchLoop ctx hash vMerkleBranch nIndex

/-! ## What is in the list -/

theorem getD_level {before nodes above : List UInt256} {i : ℕ} (hi : i < nodes.length) :
    (before ++ nodes ++ above).getD (before.length + i) 0 = nodes[i] := by
  rw [List.getD_eq_getElem?_getD, List.append_assoc, List.getElem?_append_right (by omega),
    Nat.add_sub_cancel_left, List.getElem?_append_left hi, List.getElem?_eq_getElem hi]
  rfl

theorem appendLevel_eq (before nodes : List UInt256) :
    appendLevel ctx nodes.length before.length (before ++ nodes)
      = before ++ nodes ++ Merkle.level ctx.hashPair nodes := by
  have hlen := Merkle.length_level ctx.hashPair nodes
  -- After some turns of the loop, as many nodes of the level have been appended.
  have hloop : ∀ n ≤ (nodes.length + 1) / 2, (List.range n).foldl (fun vMerkleTree k =>
      vMerkleTree ++ [ctx.hashPair (vMerkleTree.getD (before.length + 2 * k) 0)
        (vMerkleTree.getD (before.length + min (2 * k + 1) (nodes.length - 1)) 0)]) (before ++ nodes)
      = before ++ nodes ++ (Merkle.level ctx.hashPair nodes).take n := by
    intro n hn
    induction n with
    | zero => simp
    | succ n ih =>
      have hleft : 2 * n < nodes.length := by omega
      have hright : min (2 * n + 1) (nodes.length - 1) < nodes.length := by omega
      have hpartner : Merkle.partner nodes.length (2 * n) = min (2 * n + 1) (nodes.length - 1) := by
        unfold Merkle.partner
        rw [if_pos (by omega)]
      have hnode := Merkle.getElem?_level ctx.hashPair nodes (2 * n) nodes[2 * n]
        (nodes[min (2 * n + 1) (nodes.length - 1)]) (List.getElem?_eq_getElem hleft)
        (by rw [hpartner]; exact List.getElem?_eq_getElem hright)
      rw [Nat.mul_div_cancel_left n (by omega)] at hnode
      rw [List.range_succ, List.foldl_append, ih (by omega), List.foldl_cons, List.foldl_nil,
        getD_level hleft, getD_level hright, List.take_add_one, hnode, List.append_assoc _ _ [_]]
      unfold Merkle.join
      rw [if_pos (by omega)]
      rfl
  unfold appendLevel
  rw [hloop _ le_rfl, ← hlen, List.take_length]

theorem merkleTreeLoop_eq (fuel : ℕ) (before nodes : List UInt256) :
    merkleTreeLoop ctx fuel nodes.length before.length (before ++ nodes)
      = before ++ Merkle.flatten ctx.hashPair fuel nodes := by
  induction fuel generalizing before nodes with
  | zero => rfl
  | succ fuel ih =>
    unfold merkleTreeLoop Merkle.flatten
    split_ifs
    · rw [appendLevel_eq, ← List.length_append, ← Merkle.length_level ctx.hashPair, ih,
        List.append_assoc]
    · rfl

theorem merkleTree_eq (ctx : Context) (vtx : List CTransaction) :
    merkleTree ctx vtx = Merkle.flatten ctx.hashPair vtx.length (vtx.map ctx.hashTx) := by
  have hloop := @merkleTreeLoop_eq ctx vtx.length [] (vtx.map ctx.hashTx)
  rwa [List.length_map] at hloop

theorem getLast?_flatten (fuel : ℕ) (nodes : List UInt256) (hne : nodes ≠ []) :
    (Merkle.flatten ctx.hashPair fuel nodes).getLast? = some (merkleRootLoop ctx fuel nodes) ∨
      fuel + 1 < nodes.length := by
  induction fuel generalizing nodes with
  | zero =>
    match nodes with
    | [a] => exact .inl rfl
    | _ :: _ :: _ => exact .inr (by simp)
  | succ fuel ih =>
    match nodes with
    | [a] => exact .inl rfl
    | a :: b :: rest =>
      obtain ⟨hpos, hlt⟩ := Merkle.length_level_lt ctx.hashPair
        (show 1 < (a :: b :: rest).length by simp)
      rcases ih (Merkle.level ctx.hashPair (a :: b :: rest)) (List.ne_nil_of_length_pos hpos)
        with hlast | hlong
      · left
        have hroot : merkleRootLoop ctx (fuel + 1) (a :: b :: rest)
            = merkleRootLoop ctx fuel (Merkle.level ctx.hashPair (a :: b :: rest)) := by
          rw [← merkleLevel_eq]
          rfl
        unfold Merkle.flatten
        rw [if_pos (by simp), List.getLast?_append, hlast, hroot]
        rfl
      · right
        omega

theorem getLast?_merkleTree {block : CBlock} (hne : block.vtx ≠ []) :
    (merkleTree ctx block.vtx).getLast? = some (BuildMerkleTree ctx block) := by
  rw [merkleTree_eq]
  rcases @getLast?_flatten ctx block.vtx.length (block.vtx.map ctx.hashTx) (by simpa using hne)
    with hlast | hlong
  · exact hlast
  · rw [List.length_map] at hlong
    omega

/-! ## What is read from it -/

theorem merkleBranchLoop_eq (fuel : ℕ) (before nodes : List UInt256) (i : ℕ)
    (hi : i < nodes.length) :
    merkleBranchLoop (before ++ Merkle.flatten ctx.hashPair fuel nodes) fuel nodes.length
        before.length i
      = some (Merkle.branch ctx.hashPair fuel nodes i) := by
  induction fuel generalizing before nodes i with
  | zero => rfl
  | succ fuel ih =>
    unfold merkleBranchLoop Merkle.branch
    by_cases hlong : 1 < nodes.length
    · have hpartner := Merkle.partner_lt hi
      have hplace : (before.length : ℤ) + min (xorOne i) ((nodes.length : ℤ) - 1)
          = ((before.length + Merkle.partner nodes.length i : ℕ) : ℤ) := by
        unfold xorOne Merkle.partner
        split_ifs <;> omega
      have hread : (before ++ Merkle.flatten ctx.hashPair (fuel + 1) nodes)[
          before.length + Merkle.partner nodes.length i]?
          = nodes[Merkle.partner nodes.length i]? := by
        unfold Merkle.flatten
        rw [if_pos hlong, List.getElem?_append_right (by omega), Nat.add_sub_cancel_left,
          List.getElem?_append_left hpartner]
      have hhalf : (i : ℤ) / 2 = ((i / 2 : ℕ) : ℤ) := by omega
      have hrest := ih (before ++ nodes) (Merkle.level ctx.hashPair nodes) (i / 2)
        (by rw [Merkle.length_level]; omega)
      rw [List.append_assoc, Merkle.length_level, List.length_append] at hrest
      have htree : before ++ Merkle.flatten ctx.hashPair (fuel + 1) nodes
          = before ++ (nodes ++ Merkle.flatten ctx.hashPair fuel (Merkle.level ctx.hashPair nodes)) := by
        rw [Merkle.flatten, if_pos hlong]
      rw [if_pos hlong, if_pos hlong]
      dsimp only
      rw [hplace, if_pos (by omega), Int.toNat_natCast, hread, hhalf, htree, hrest,
        List.getElem?_eq_getElem hpartner]
      rfl
    · rw [if_neg hlong, if_neg hlong]

theorem checkBranchLoop_eq (hash : UInt256) (vMerkleBranch : List UInt256) (i : ℕ) :
    checkBranchLoop ctx hash vMerkleBranch i = Merkle.climb ctx.hashPair hash vMerkleBranch i := by
  induction vMerkleBranch generalizing hash i with
  | nil => rfl
  | cons otherside vMerkleBranch ih =>
    have hhalf : (i : ℤ) / 2 = ((i / 2 : ℕ) : ℤ) := by omega
    unfold checkBranchLoop Merkle.climb
    rw [hhalf, ih]
    congr 1
    unfold Merkle.join
    split_ifs <;> first | rfl | omega

/-- For every transaction of a block, its identifier with its branch gives the root of the tree. -/
theorem checkMerkleBranch_eq {block : CBlock} (cache : MerkleCache ctx block.vtx) {i : ℕ}
    (hi : i < block.vtx.length) :
    ∃ vMerkleBranch, (GetMerkleBranch ctx block cache.vMerkleTree i).1 = some vMerkleBranch ∧
      CheckMerkleBranch ctx (ctx.hashTx block.vtx[i]) vMerkleBranch i
        = BuildMerkleTree ctx block := by
  have hne : block.vtx ≠ [] := List.ne_nil_of_length_pos (by omega)
  -- Whatever the block has kept, the branch is read from its tree.
  have hkept : (GetMerkleBranch ctx block cache.vMerkleTree i).1
      = merkleBranchLoop (merkleTree ctx block.vtx) block.vtx.length block.vtx.length 0 i := by
    unfold GetMerkleBranch
    rcases cache.current with hempty | hbuilt
    · rw [if_pos hempty]
    · dsimp only
      split_ifs
      · rfl
      · rw [hbuilt]
  have hbranch := @merkleBranchLoop_eq ctx block.vtx.length [] (block.vtx.map ctx.hashTx) i
    (by rwa [List.length_map])
  rw [List.nil_append, ← merkleTree_eq, List.length_map, List.length_nil] at hbranch
  refine ⟨_, hkept.trans hbranch, ?_⟩
  have hclimb := @Merkle.climb_branch _ ctx.hashPair block.vtx.length
    (block.vtx.map ctx.hashTx) i (ctx.hashTx block.vtx[i])
    (by rw [List.getElem?_map, List.getElem?_eq_getElem hi]; rfl) (by rw [List.length_map]; omega)
  rw [← merkleTree_eq, getLast?_merkleTree hne] at hclimb
  unfold CheckMerkleBranch
  rw [if_neg (by omega), checkBranchLoop_eq]
  exact (Option.some.inj hclimb).symm

/-! ## What a branch proves -/

section

variable {leaves : List UInt256} {hash : UInt256} {vMerkleBranch : List UInt256} {nIndex : ℤ}

theorem mem_of_checkBranchLoop {n : ℕ}
    (hlong : ∀ k < n, 2 ≤ (Merkle.levelAt ctx.hashPair leaves k).length)
    (hmem : checkBranchLoop ctx hash vMerkleBranch nIndex ∈ Merkle.levelAt ctx.hashPair leaves n) :
    (∃ k ≤ n, hash ∈ Merkle.levelAt ctx.hashPair leaves k) ∨
      Merkle.SecondFound ctx.hashPair leaves (branchPairs ctx hash vMerkleBranch nIndex) := by
  induction vMerkleBranch generalizing hash nIndex with
  | nil => exact .inl ⟨n, le_rfl, hmem⟩
  | cons otherside vMerkleBranch ih =>
    unfold checkBranchLoop at hmem
    unfold branchPairs
    split_ifs at hmem ⊢
    all_goals
      rcases ih hmem with ⟨k, hk, hnode⟩ | ⟨q, hq, hfound⟩
      · have hbelow := fun l (hl : l < k) => hlong l (hl.trans_le hk)
        rcases Merkle.mem_or_secondFound List.mem_cons_self hbelow hnode with ⟨l, hl, hboth⟩ | h
        · exact .inl ⟨l, by omega, by simp [hboth]⟩
        · exact .inr h
      · exact .inr ⟨q, List.mem_cons_of_mem _ hq, hfound⟩

/-- A branch of any length that leads to the root of a block starts at one of its transactions, unless
it starts at a node of the block's tree or a second preimage is among the pairs that it joins. -/
theorem mem_txids_of_branch {block : CBlock} (hleaves : block.txids ctx = leaves) (hne : leaves ≠ [])
    (hchk : checkBranchLoop ctx hash vMerkleBranch nIndex = BuildMerkleTree ctx block) :
    hash ∈ leaves ∨ (∃ p, Merkle.Joined ctx.hashPair leaves p ∧ ctx.hashPair p.1 p.2 = hash) ∨
      Merkle.SecondFound ctx.hashPair leaves (branchPairs ctx hash vMerkleBranch nIndex) := by
  have hlen : block.vtx.length = leaves.length := by
    rw [← hleaves]
    exact (List.length_map _).symm
  obtain ⟨height, hroot⟩ := @merkleRootLoop_isRoot ctx _ leaves hne hlen.ge
  have htop : checkBranchLoop ctx hash vMerkleBranch nIndex
      ∈ Merkle.levelAt ctx.hashPair leaves height := by
    rw [hchk, hroot.top, ← hleaves]
    exact List.mem_singleton_self _
  rcases mem_of_checkBranchLoop hroot.below htop with ⟨k, hk, hmem⟩ | hfound
  · cases k with
    | zero => exact .inl hmem
    | succ k =>
      rw [Merkle.levelAt_succ] at hmem
      obtain ⟨p, hp, heq⟩ := List.mem_map.mp hmem
      exact .inr (.inl ⟨p, ⟨k, hroot.below k hk, hp⟩, heq⟩)
  · exact .inr (.inr hfound)

end

/-- The last of three transactions, whose node is joined with itself. -/
theorem chainedBlock_checkMerkleBranch :
    ∃ vMerkleBranch, (GetMerkleBranch (chainedContext true) chainedBlock [] (2 : ℕ)).1
        = some vMerkleBranch ∧
      CheckMerkleBranch (chainedContext true) 22 vMerkleBranch (2 : ℕ)
        = BuildMerkleTree (chainedContext true) chainedBlock :=
  checkMerkleBranch_eq MerkleCache.empty (by decide)

end ZalemCoin.Chain
