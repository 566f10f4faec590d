import ZalemCoin.Chain.MerkleBranch

/-!
# Transactions with their blocks

A wallet keeps a transaction with the block that it is in and its branch of the block's merkle tree.
`SetMerkleBranch` fills them in from a block. Without a block it looks up the one of the transaction
index, and then goes on with the block that the transaction has had before.
`GetDepthInMainChainINTERNAL` verifies the branch, and remembers that it has.
-/

namespace ZalemCoin.Wallet

open Chain Lib

/-- A transaction with its place in a block. -/
structure CMerkleTx where
  tx : CTransaction
  hashBlock : UInt256
  vMerkleBranch : List UInt256
  nIndex : ℤ
  /-- Whether the branch has been checked. -/
  fMerkleVerified : Bool
deriving DecidableEq

def CMerkleTx.Init (tx : CTransaction) : CMerkleTx := ⟨tx, 0, [], -1, false⟩

def depthInMainChain (s : NodeState) (hashBlock : UInt256) : Except Failure ℤ :=
  match s.mapBlockIndex hashBlock with
  | none => .ok 0
  | some pindex =>
    if s.IsInMainChain hashBlock then do
      let best ← s.index s.pindexBest
      pure ((best.nHeight : ℤ) - pindex.nHeight + 1)
    else .ok 0

def readBlockOf (ctx : Context) (s : NodeState) (hash : UInt256) : Option CBlock := do
  let txindex ← s.txdb.ReadTxIndex hash
  ctx.files.block txindex.pos.nFile txindex.pos.nBlockPos

namespace CMerkleTx

/-- Sets the place of a transaction to that in a block, which comes with the list in which it keeps its
merkle tree, and returns how deep the block is. -/
def SetMerkleBranch (ctx : Context) (s : NodeState) (m : CMerkleTx)
    (pblock : Option (CBlock × List UInt256)) : Except Failure (CMerkleTx × ℤ) :=
  match pblock with
  | none =>
    match readBlockOf ctx s (ctx.hashTx m.tx) with
    | none => .ok (m, 0)
    | some _ => do
      -- The pointer is set to the block that has been read after a return only.
      let nDepth ← depthInMainChain s m.hashBlock
      pure (m, nDepth)
  | some (block, vMerkleTree) =>
    match block.vtx.findIdx? fun tx => tx = m.tx with
    | none => .ok ({ m with hashBlock := ctx.GetHash block, vMerkleBranch := [], nIndex := -1 }, 0)
    | some nIndex =>
      match (GetMerkleBranch ctx block vMerkleTree nIndex).1 with
      | none => .error (.crash "vMerkleTree out of range")
      | some vMerkleBranch => do
        let nDepth ← depthInMainChain s (ctx.GetHash block)
        pure ({ m with hashBlock := ctx.GetHash block, vMerkleBranch, nIndex }, nDepth)

/-- How deep the block of a transaction is, when the branch leads to its merkle root. -/
def GetDepthInMainChainINTERNAL (ctx : Context) (s : NodeState) (m : CMerkleTx) :
    Except Failure (CMerkleTx × ℤ) :=
  if m.hashBlock = 0 ∨ m.nIndex = -1 then .ok (m, 0)
  else
    match s.mapBlockIndex m.hashBlock with
    | none => .ok (m, 0)
    | some pindex =>
      if s.IsInMainChain m.hashBlock = false then .ok (m, 0)
      else if m.fMerkleVerified = false ∧
          CheckMerkleBranch ctx (ctx.hashTx m.tx) m.vMerkleBranch m.nIndex ≠ pindex.hashMerkleRoot then
        .ok (m, 0)
      else do
        let best ← s.index s.pindexBest
        pure ({ m with fMerkleVerified := true }, (best.nHeight : ℤ) - pindex.nHeight + 1)

end CMerkleTx

/-- The number of confirmations of a transaction: how deep the block is that the transaction index has
for it. -/
def confirmations (ctx : Context) (s : NodeState) (hash : UInt256) : Except Failure ℤ :=
  match readBlockOf ctx s hash with
  | none => .ok 0
  | some block => depthInMainChain s (ctx.GetHash block)

structure Confirmed (ctx : Context) (s : NodeState) (tx : CTransaction) (block : CBlock)
    (pindex : CBlockIndex) (nIndex : ℕ) : Prop where
  read : readBlockOf ctx s (ctx.hashTx tx) = some block
  place : block.vtx.findIdx? (fun tx' => tx' = tx) = some nIndex
  entry : s.mapBlockIndex (ctx.GetHash block) = some pindex
  main : s.IsInMainChain (ctx.GetHash block) = true

def CMerkleTx.Located (ctx : Context) (m : CMerkleTx) (block : CBlock) (nIndex : ℕ)
    (vMerkleBranch : List UInt256) : Prop :=
  m.hashBlock = ctx.GetHash block ∧ m.nIndex = nIndex ∧ m.vMerkleBranch = vMerkleBranch

section

variable {ctx : Context} {s : NodeState} {m : CMerkleTx} {block : CBlock} {pindex best : CBlockIndex}
  {nIndex : ℕ}

theorem depthInMainChain_eq {hashBlock : UInt256} (hbest : s.index s.pindexBest = .ok best)
    (hent : s.mapBlockIndex hashBlock = some pindex) (hmain : s.IsInMainChain hashBlock = true) :
    depthInMainChain s hashBlock = .ok ((best.nHeight : ℤ) - pindex.nHeight + 1) := by
  unfold depthInMainChain
  rw [hent]
  dsimp only
  rw [if_pos hmain, hbest]
  rfl

theorem depthInMainChain_isOk (hbest : s.index s.pindexBest = .ok best) (hashBlock : UInt256) :
    ∃ nDepth, depthInMainChain s hashBlock = .ok nDepth := by
  rcases hent : s.mapBlockIndex hashBlock with _ | pindex
  · refine ⟨0, ?_⟩
    unfold depthInMainChain
    rw [hent]
  · rcases hmain : s.IsInMainChain hashBlock with _ | _
    · refine ⟨0, ?_⟩
      unfold depthInMainChain
      rw [hent]
      dsimp only
      rw [if_neg (by rw [hmain]; exact Bool.false_ne_true)]
    · exact ⟨_, depthInMainChain_eq hbest hent hmain⟩

variable (h : Confirmed ctx s m.tx block pindex nIndex)
include h

theorem Confirmed.getElem : ∃ hlt : nIndex < block.vtx.length, block.vtx[nIndex] = m.tx := by
  obtain ⟨hlt, heq, -⟩ := List.findIdx?_eq_some_iff_getElem.mp h.place
  exact ⟨hlt, of_decide_eq_true heq⟩

theorem setMerkleBranch_some
    (hbest : s.index s.pindexBest = .ok best) (cache : MerkleCache ctx block.vtx) :
    ∃ vMerkleBranch, (GetMerkleBranch ctx block cache.vMerkleTree nIndex).1 = some vMerkleBranch ∧
      CheckMerkleBranch ctx (ctx.hashTx m.tx) vMerkleBranch nIndex = BuildMerkleTree ctx block ∧
      m.SetMerkleBranch ctx s (some (block, cache.vMerkleTree))
        = .ok ({ m with hashBlock := ctx.GetHash block, vMerkleBranch, nIndex },
            (best.nHeight : ℤ) - pindex.nHeight + 1) := by
  obtain ⟨hlt, htx⟩ := h.getElem
  obtain ⟨vMerkleBranch, hbr, hchk⟩ := checkMerkleBranch_eq cache hlt
  rw [htx] at hchk
  refine ⟨vMerkleBranch, hbr, hchk, ?_⟩
  unfold CMerkleTx.SetMerkleBranch
  dsimp only
  rw [h.place]
  dsimp only
  rw [hbr, depthInMainChain_eq hbest h.entry h.main]
  rfl

theorem setMerkleBranch_none :
    m.SetMerkleBranch ctx s none
      = (depthInMainChain s m.hashBlock).map fun nDepth => (m, nDepth) := by
  unfold CMerkleTx.SetMerkleBranch
  rw [h.read]
  rcases depthInMainChain s m.hashBlock with e | nDepth <;> rfl

/-- Without its block, `SetMerkleBranch` does what it does with it exactly when the transaction has its
place already. -/
theorem setMerkleBranch_none_iff
    (hbest : s.index s.pindexBest = .ok best) (cache : MerkleCache ctx block.vtx) :
    ∃ vMerkleBranch, (GetMerkleBranch ctx block cache.vMerkleTree nIndex).1 = some vMerkleBranch ∧
      (m.SetMerkleBranch ctx s none = m.SetMerkleBranch ctx s (some (block, cache.vMerkleTree)) ↔
        m.Located ctx block nIndex vMerkleBranch) := by
  obtain ⟨vMerkleBranch, hbr, -, hset⟩ := setMerkleBranch_some h hbest cache
  refine ⟨vMerkleBranch, hbr, ?_⟩
  rw [hset, setMerkleBranch_none h]
  constructor
  · intro heq
    obtain ⟨nDepth, hdepth⟩ := depthInMainChain_isOk hbest m.hashBlock
    rw [hdepth] at heq
    have hsame := (Prod.mk.inj (Except.ok.inj heq)).1
    exact ⟨congrArg CMerkleTx.hashBlock hsame, congrArg CMerkleTx.nIndex hsame,
      congrArg CMerkleTx.vMerkleBranch hsame⟩
  · rintro ⟨hhash, hidx, hvBranch⟩
    rw [hhash, depthInMainChain_eq hbest h.entry h.main, ← hhash, ← hidx, ← hvBranch]
    rfl

theorem Confirmed.confirmations (hbest : s.index s.pindexBest = .ok best) :
    Wallet.confirmations ctx s (ctx.hashTx m.tx) = .ok ((best.nHeight : ℤ) - pindex.nHeight + 1) := by
  unfold Wallet.confirmations
  rw [h.read]
  exact depthInMainChain_eq hbest h.entry h.main

omit h

variable {m' : CMerkleTx} {nDepth : ℤ}

theorem getDepth_cases (h : m.GetDepthInMainChainINTERNAL ctx s = .ok (m', nDepth)) :
    (m, 0) = (m', nDepth) ∨ ∃ pindex, s.mapBlockIndex m.hashBlock = some pindex ∧
      (m.fMerkleVerified = true ∨
        checkBranchLoop ctx (ctx.hashTx m.tx) m.vMerkleBranch m.nIndex = pindex.hashMerkleRoot) := by
  unfold CMerkleTx.GetDepthInMainChainINTERNAL at h
  by_cases hplace : m.hashBlock = 0 ∨ m.nIndex = -1
  · rw [if_pos hplace] at h
    exact .inl (Except.ok.inj h)
  rw [if_neg hplace] at h
  split at h
  · exact .inl (Except.ok.inj h)
  rename_i pindex hent
  split_ifs at h with hmain hchk
  · exact .inl (Except.ok.inj h)
  · exact .inl (Except.ok.inj h)
  refine .inr ⟨pindex, hent, ?_⟩
  unfold CheckMerkleBranch at hchk
  rw [if_neg fun hminus => hplace (.inr hminus)] at hchk
  by_cases hverified : m.fMerkleVerified = true
  · exact .inl hverified
  · exact .inr (by_contra fun hne => hchk ⟨by simpa using hverified, hne⟩)

/-- A wallet that asks again and again how deep the block of a transaction is, in whatever states of the
chain, gets another answer than zero only for a transaction of the block, or a second preimage is found:
a node of the block's tree is the transaction's identifier, or one of the pairs along the branch gives
an identifier of the block or what another pair of the tree gives. -/
theorem depths_mem_txids {states : List NodeState} (hne : block.txids ctx ≠ [])
    (hentry : ∀ s ∈ states, ∀ pindex, s.mapBlockIndex m.hashBlock = some pindex →
      pindex.hashMerkleRoot = BuildMerkleTree ctx block)
    (hfresh : m.fMerkleVerified = false)
    (h : states.foldlM (fun r s => r.1.GetDepthInMainChainINTERNAL ctx s) (m, 0) = .ok (m', nDepth))
    (hdepth : nDepth ≠ 0) : ctx.hashTx m.tx ∈ block.txids ctx ∨
      (∃ p, Merkle.Joined ctx.hashPair (block.txids ctx) p ∧
        ctx.hashPair p.1 p.2 = ctx.hashTx m.tx) ∨
      Merkle.SecondFound ctx.hashPair (block.txids ctx)
        (branchPairs ctx (ctx.hashTx m.tx) m.vMerkleBranch m.nIndex) := by
  by_contra hnot
  -- As long as no branch is verified, nothing changes.
  have hrun := foldlM_ok_induction (fun _ r => (m, 0) = r) rfl ?_ h
  · exact hdepth (congrArg Prod.snd hrun).symm
  rintro done s rest _ ⟨m₁, d⟩ rfl rfl hcall
  rcases getDepth_cases hcall with hsame | ⟨pindex, hindex, hverified | hcheck⟩
  · exact hsame
  · exact absurd (hfresh.symm.trans hverified) Bool.false_ne_true
  · rw [hentry s (by simp) pindex hindex] at hcheck
    exact absurd (mem_txids_of_branch rfl hne hcheck) hnot

end

/-- A block with two transactions, whose pair has a hash that no identifier has. -/
def pairContext : Context :=
  { chainedContext true with hashPair := fun a b => if (a, b) = (10, 11) then 0 else 1 }

/-- The second question is answered from what the first has verified, and no second preimage is
found. -/
theorem fundedTx_mem : pairContext.hashTx (plainTx 11 [] []) ∈ fundedBlock.txids pairContext := by
  have hroot : Merkle.IsRoot pairContext.hashPair (fundedBlock.txids pairContext) 1 0 :=
    ⟨by decide, by decide⟩
  have hjoined : ∀ {p}, Merkle.Joined pairContext.hashPair (fundedBlock.txids pairContext) p →
      p = (10, 11) :=
    fun hp => List.mem_singleton.mp (hroot.joined_iff.mp hp)
  rcases @depths_mem_txids pairContext ⟨plainTx 11 [] [], 1, [10], 1, false⟩ fundedBlock
    ⟨plainTx 11 [] [], 1, [10], 1, true⟩ 1 [chainedNode, chainedNode] (by decide)
    (by simp [chainedNode]; decide) rfl (by rfl) (by decide)
    with hmem | ⟨p, hp, hid⟩ | ⟨q, hq, hsecond⟩
  · exact hmem
  · rw [hjoined hp] at hid
    exact absurd hid (by decide)
  · obtain rfl : q = (10, 11) := List.mem_singleton.mp hq
    rcases hsecond with hleaf | ⟨p, hp, hne, -⟩
    · exact absurd hleaf (by decide)
    · exact absurd (hjoined hp).symm hne

end ZalemCoin.Wallet
