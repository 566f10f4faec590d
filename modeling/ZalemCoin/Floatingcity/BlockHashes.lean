import ZalemCoin.Chain.SavedRuns

/-!
# The cache of block hashes

`GetBlockHash` finds the hash of a block of the active chain by the height after it, for the ranking
and the scores of the masternodes, and keeps what it finds in a cache by height. The cache is never
cleared: a switch to another branch does not tell it. It stays right as long as no block that it holds
leaves the active chain (`coherent_of_run`), and answers with a block of the branch that was left when
one does.
-/

namespace ZalemCoin.Floatingcity

open Lib Chain

/-- A node as the lookup sees it: its chain, and the cache. -/
structure HashNode where
  chain : NodeState
  mapCacheBlockHashes : ℤ → Option UInt256

/-- Steps back from a block, and gives the block that it comes to unless it is the genesis block. -/
def readBack (s : NodeState) : ℕ → UInt256 → Except Failure (Option UInt256)
  | 0, BlockReading => do
    let i ← s.index (some BlockReading)
    pure (if 0 < i.nHeight then some BlockReading else none)
  | nBlocksAgo + 1, BlockReading => do
    let i ← s.index (some BlockReading)
    if 0 < i.nHeight then
      match i.pprev with
      | none => pure none
      | some pprev => readBack s nBlocksAgo pprev
    else pure none

/-- The lookup of a height on top of the best block: the cached hash, or the one that is read back,
which is then cached. -/
def HashNode.lookup (n : HashNode) (tip : UInt256) (pindexBest : CBlockIndex) (nBlockHeight : ℤ) :
    Except Failure (Option UInt256) × HashNode :=
  match n.mapCacheBlockHashes nBlockHeight with
  | some hash => (.ok (some hash), n)
  | none =>
    if pindexBest.nHeight = 0 ∨ (pindexBest.nHeight : ℤ) + 1 < nBlockHeight then (.ok none, n)
    else
      let nBlocksAgo : ℤ := if nBlockHeight > 0 then pindexBest.nHeight + 1 - nBlockHeight else 0
      match readBack n.chain nBlocksAgo.toNat tip with
      | .error e => (.error e, n)
      | .ok none => (.ok none, n)
      | .ok (some hash) =>
        (.ok (some hash),
          { n with
            mapCacheBlockHashes :=
              Function.update n.mapCacheBlockHashes nBlockHeight (some hash) })

/-- The hash of the block below a height, if it succeeds, and the node with its cache after the call.
Zero stands for the height of the best block. -/
def GetBlockHash (nBlockHeight : ℤ) (n : HashNode) : Except Failure (Option UInt256) × HashNode :=
  match n.chain.pindexBest with
  | none => (.ok none, n)
  | some tip =>
    match n.chain.index (some tip) with
    | .error e => (.error e, n)
    | .ok pindexBest =>
      n.lookup tip pindexBest (if nBlockHeight = 0 then pindexBest.nHeight else nBlockHeight)

/-! ## The active chain -/

def InActiveChain (s : NodeState) (p : UInt256) : Prop :=
  ∃ tip, s.pindexBest = some tip ∧ IsAncestor s.parent p tip

def ActiveAt (s : NodeState) (nHeight : ℤ) (p : UInt256) : Prop :=
  InActiveChain s p ∧ (s.height p : ℤ) = nHeight

/-- Every successful lookup of a height of the active chain, or the one after it, gives the hash of
the block below that height. -/
def Coherent (n : HashNode) : Prop :=
  ∀ nBlockHeight best hash n', n.chain.index n.chain.pindexBest = .ok best → 1 ≤ nBlockHeight →
    nBlockHeight ≤ (best.nHeight : ℤ) + 1 →
    GetBlockHash nBlockHeight n = (.ok (some hash), n') →
      ActiveAt n.chain (nBlockHeight - 1) hash

/-! ## Runs -/

/-- A step of a run: the chain changes, or a hash is looked up. -/
inductive HashStep (ctx : Context) (n n' : HashNode) : Prop
  | chain (h : CallStep ctx (fun _ _ => True) n.chain n'.chain)
      (hcache : n'.mapCacheBlockHashes = n.mapCacheBlockHashes)
  | lookup {nBlockHeight : ℤ} {r : Except Failure (Option UInt256)}
      (h : GetBlockHash nBlockHeight n = (r, n'))

/-- No block that the cache holds leaves the active chain in a step. -/
def KeepsCached (n n' : HashNode) : Prop :=
  ∀ nBlockHeight hash, 1 ≤ nBlockHeight → n.mapCacheBlockHashes nBlockHeight = some hash →
    InActiveChain n.chain hash → InActiveChain n'.chain hash

/-- A node that has just been initialised with the genesis block. -/
structure HashStart (ctx : Context) (n : HashNode) : Prop where
  initialised : Initialised ctx n.chain
  empty : n.mapCacheBlockHashes = fun _ => none

/-! ## Growing chains -/

variable {ctx : Context} {s : NodeState} {genesis p : UInt256}

section

variable {s' : NodeState}

variable {allowed : NodeState → Call → Prop}

variable (h : CallStep ctx allowed s s')
include h

theorem callStep_places :
    SamePlace s s' ∨ ∃ s₁ nFile nBlockPos block i, Indexed ctx s s₁ nFile nBlockPos block i ∧
      SamePlace s₁ s' ∧ s.mapBlockIndex block.hashPrevBlock ≠ none := by
  obtain ⟨call, r, hvalid, -, hrun, hret⟩ := h
  cases call with
  | addToBlockIndex env nFile nBlockPos hashProof block =>
    obtain ⟨-, hprev⟩ := hvalid
    rcases addToBlockIndex_places hrun hret with hsame | ⟨i, s₁, hidx, hplace⟩
    · exact .inl hsame
    · exact .inr ⟨s₁, nFile, nBlockPos, block, i, (indexBlock_eq_ok hidx).1, hplace, hprev⟩
  | setBestChain env block pindexNew =>
    exact .inl ((keepsPlaces_setBestChain ctx env block pindexNew).of_eq hrun)
  | elsewhere t =>
    cases hrun
    exact .inl (SamePlace.of_eq (congrArg Prod.fst hvalid :))

theorem callStep_blockTree (htree : BlockTree s genesis)
    (hgen : s.mapBlockIndex genesis ≠ none) :
    BlockTree s' genesis ∧ s'.mapBlockIndex genesis ≠ none := by
  rcases callStep_places h with hsame | ⟨s₁, nFile, nBlockPos, block, i, hindexed, hplace, hknown⟩
  · exact ⟨htree.congr hsame, (hsame.ne_none_iff genesis).mpr hgen⟩
  · refine ⟨(hindexed.blockTree htree hgen hknown).congr hplace, ?_⟩
    have hne : genesis ≠ ctx.GetHash block := fun heq => hgen (heq ▸ hindexed.fresh)
    rw [hplace.ne_none_iff, hindexed.entry_of_ne hne]
    exact hgen

theorem callStep_height (hp : s.mapBlockIndex p ≠ none) :
    s'.mapBlockIndex p ≠ none ∧ s'.height p = s.height p := by
  rcases callStep_places h with hsame | ⟨s₁, nFile, nBlockPos, block, i, hindexed, hplace, -⟩
  · exact ⟨(hsame.ne_none_iff p).mpr hp, hsame.height_eq p⟩
  · have hne : p ≠ ctx.GetHash block := fun heq => hp (heq ▸ hindexed.fresh)
    have hent := hindexed.entry_of_ne hne
    constructor
    · rw [hplace.ne_none_iff, hent]
      exact hp
    · rw [hplace.height_eq]
      unfold NodeState.height
      rw [hent]

end

/-! ## The lookup -/

variable {n n' : HashNode}

section

variable {q tip hash : UInt256} {best : CBlockIndex}

theorem readBack_eq_some {k : ℕ} (htree : BlockTree s genesis)
    (h : readBack s k p = .ok (some q)) :
    IsAncestor s.parent q p ∧ s.height q + k = s.height p ∧ s.mapBlockIndex q ≠ none := by
  induction k generalizing p with
  | zero =>
    obtain ⟨i, hi, h⟩ := bind_ok h
    have h := Except.ok.inj h
    split_ifs at h
    cases h
    exact ⟨IsAncestor.refl _ _, rfl, by simp [index_eq_ok.mp hi]⟩
  | succ k ih =>
    obtain ⟨i, hi, h⟩ := bind_ok h
    split_ifs at h
    · rcases hprev : i.pprev with _ | pprev
      · rw [hprev] at h
        exact absurd (Except.ok.inj h) (by simp)
      · rw [hprev] at h
        have hpar : s.parent p = some pprev := (parent_eq (index_eq_ok.mp hi)).trans hprev
        have hstep := htree.heights p pprev hpar
        obtain ⟨hancestor, hheight, hknown⟩ := ih h
        exact ⟨Relation.ReflTransGen.head hpar hancestor, by omega, hknown⟩
    · exact absurd (Except.ok.inj h) (by simp)

variable {nBlockHeight : ℤ}

theorem lookup_cases {r : Except Failure (Option UInt256)}
    (h : n.lookup tip best nBlockHeight = (r, n')) :
    (n' = n ∧ ∀ hash, r = .ok (some hash) → n.mapCacheBlockHashes nBlockHeight = some hash) ∨
    ∃ hash, r = .ok (some hash) ∧ n'.chain = n.chain ∧
      n'.mapCacheBlockHashes
        = Function.update n.mapCacheBlockHashes nBlockHeight (some hash) ∧
      nBlockHeight ≤ (best.nHeight : ℤ) + 1 ∧
      (0 < nBlockHeight →
        readBack n.chain ((best.nHeight : ℤ) + 1 - nBlockHeight).toNat tip = .ok (some hash)) := by
  unfold HashNode.lookup at h
  rcases hcached : n.mapCacheBlockHashes nBlockHeight with _ | cached
  · simp only [hcached] at h
    rcases Classical.em (best.nHeight = 0 ∨ (best.nHeight : ℤ) + 1 < nBlockHeight) with hout | hin
    · rw [if_pos hout] at h
      cases h
      exact .inl ⟨rfl, fun hash hr => by simp at hr⟩
    rw [if_neg hin] at h
    rcases hread : readBack n.chain (if nBlockHeight > 0 then (best.nHeight : ℤ) + 1 - nBlockHeight
        else 0).toNat tip with e | _ | hash
    · rw [hread] at h
      cases h
      exact .inl ⟨rfl, fun hash hr => by simp at hr⟩
    · rw [hread] at h
      cases h
      exact .inl ⟨rfl, fun hash hr => by simp at hr⟩
    · rw [hread] at h
      cases h
      refine .inr ⟨hash, rfl, rfl, rfl, by omega, ?_⟩
      intro hpos
      rw [if_pos hpos] at hread
      exact hread
  · simp only [hcached] at h
    cases h
    exact .inl ⟨rfl, fun hash hr => congrArg some (Option.some.inj (Except.ok.inj hr))⟩

theorem activeAt_of_readBack (htree : BlockTree n.chain genesis)
    (htip : n.chain.pindexBest = some tip) (hbest : n.chain.index (some tip) = .ok best)
    (hle : nBlockHeight ≤ (best.nHeight : ℤ) + 1)
    (hread : readBack n.chain ((best.nHeight : ℤ) + 1 - nBlockHeight).toNat tip = .ok (some hash)) :
    ActiveAt n.chain (nBlockHeight - 1) hash ∧ n.chain.mapBlockIndex hash ≠ none := by
  obtain ⟨hancestor, hheight, hknown⟩ := readBack_eq_some htree hread
  have htop := height_eq (index_eq_ok.mp hbest)
  refine ⟨⟨⟨tip, htip, hancestor⟩, ?_⟩, hknown⟩
  omega

end

/-! ## The cache -/

/-- What holds of the cache as long as no block that it holds leaves the active chain: the entries of
heights are known blocks of the active chain below them. -/
structure CacheOk (n : HashNode) : Prop where
  tree : ∃ genesis, BlockTree n.chain genesis ∧ n.chain.mapBlockIndex genesis ≠ none
  cached : ∀ nBlockHeight hash, 1 ≤ nBlockHeight →
    n.mapCacheBlockHashes nBlockHeight = some hash →
      ActiveAt n.chain (nBlockHeight - 1) hash ∧ n.chain.mapBlockIndex hash ≠ none

theorem HashStart.cacheOk (h : HashStart ctx n) : CacheOk n where
  tree := h.initialised.blockTree
  cached nBlockHeight hash _ hcached := by
    rw [h.empty] at hcached
    simp at hcached

theorem CacheOk.getBlockHash {r : Except Failure (Option UInt256)} {nBlockHeight : ℤ}
    (hn : CacheOk n) (h : GetBlockHash nBlockHeight n = (r, n')) : CacheOk n' := by
  unfold GetBlockHash at h
  rcases htip : n.chain.pindexBest with _ | tip
  · rw [htip] at h
    cases h
    exact hn
  rw [htip] at h
  rcases hbest : n.chain.index (some tip) with e | best
  · simp only [hbest] at h
    cases h
    exact hn
  simp only [hbest] at h
  generalize (if nBlockHeight = 0 then (best.nHeight : ℤ) else nBlockHeight) = key at h
  rcases lookup_cases h with ⟨rfl, -⟩ | ⟨hash, -, hchain, hcache, hle, hread⟩
  · exact hn
  obtain ⟨genesis, htree, hgen⟩ := hn.tree
  constructor
  · rw [hchain]
    exact ⟨genesis, htree, hgen⟩
  · intro height cached hpos hcached
    rw [hcache, Function.update_apply] at hcached
    rw [hchain]
    split_ifs at hcached with hkey
    · -- The entry that the lookup has made.
      cases hcached
      rw [hkey] at hpos ⊢
      exact activeAt_of_readBack htree htip hbest hle (hread (by omega))
    · exact hn.cached height cached hpos hcached

theorem CacheOk.step (hn : CacheOk n) (h : HashStep ctx n n') (hkeep : KeepsCached n n') :
    CacheOk n' := by
  cases h with
  | chain hcall hcache =>
    obtain ⟨genesis, htree, hgen⟩ := hn.tree
    constructor
    · exact ⟨genesis, callStep_blockTree hcall htree hgen⟩
    · intro nBlockHeight hash hpos hcached
      rw [hcache] at hcached
      obtain ⟨⟨hact, hheight⟩, hknown⟩ := hn.cached nBlockHeight hash hpos hcached
      obtain ⟨hknown', hheight'⟩ := callStep_height hcall hknown
      refine ⟨⟨hkeep nBlockHeight hash hpos hcached hact, ?_⟩, hknown'⟩
      rw [hheight']
      exact hheight
  | lookup hlook => exact hn.getBlockHash hlook

theorem CacheOk.coherent (hn : CacheOk n) : Coherent n := by
  intro nBlockHeight best hash n' hbest hpos hle h
  unfold GetBlockHash at h
  rcases htip : n.chain.pindexBest with _ | tip
  · rw [htip] at hbest
    simp [NodeState.index] at hbest
  rw [htip] at h hbest
  simp only [hbest, if_neg (show nBlockHeight ≠ 0 by omega)] at h
  rcases lookup_cases h with ⟨-, hcached⟩ | ⟨hash', hr, -, -, -, hread⟩
  · exact (hn.cached nBlockHeight hash hpos (hcached hash rfl)).1
  · cases hr
    obtain ⟨genesis, htree, -⟩ := hn.tree
    exact (activeAt_of_readBack htree htip hbest hle (hread (by omega))).1

/-- In every run of a node in which no step takes a block that the cache holds off the active chain,
every successful lookup of a height of the active chain, or the one after it, gives the hash of the
block below that height. -/
theorem coherent_of_run {n₀ : HashNode} (hstart : HashStart ctx n₀)
    (hrun : Relation.ReflTransGen (fun n n' => HashStep ctx n n' ∧ KeepsCached n n') n₀ n) :
    Coherent n := by
  have hok : CacheOk n := by
    induction hrun with
    | refl => exact hstart.cacheOk
    | tail _ hstep ih => exact ih.step hstep.1 hstep.2
  exact hok.coherent

/-! ## A block that leaves the active chain -/

def branchBlock (id : UInt32) : CBlock :=
  plainBlock id (if id = 3 then 1 else id - 1) (BitVec.ofNat 256 (10 * id.toNat))
    [plainTx (10 * id) [coinbaseInput] [payTo COIN]]

def branchContext : Context :=
  plainContext (BlockFiles.ofBlocks
    (fun nFile => if nFile = 1 ∨ nFile = 2 ∨ nFile = 3 ∨ nFile = 4 then some (branchBlock nFile)
      else none)
    (by
      intro nFile block h
      split at h
      · rename_i hfile
        cases h
        rcases hfile with rfl | rfl | rfl | rfl <;> decide
      · simp at h)) 1 true

def branchCall (k : ℕ) : Call :=
  .addToBlockIndex (plainEnv 1000) (UInt32.ofNat (k + 2)) 8 0 (branchBlock (UInt32.ofNat (k + 2)))

def branchNode : ℕ → NodeState
  | 0 => (AddToBlockIndex branchContext (plainEnv 1000) 1 8 0 (branchBlock 1) emptyNode).2
  | k + 1 => ((branchCall k).run branchContext (branchNode k)).2

def branchCache : ℤ → Option UInt256 := Function.update (fun _ => none) 2 (some 2)

theorem branchNode_start : HashStart branchContext ⟨branchNode 0, fun _ => none⟩ := by
  have hadd : AddToBlockIndex branchContext (plainEnv 1000) 1 8 0 (branchBlock 1) emptyNode
      = (.ok (), branchNode 0) := by
    exact Action.eq_of_fst (by decide)
  exact ⟨⟨⟨emptyNode, plainEnv 1000, 1, 8, 0, branchBlock 1, ⟨rfl, rfl, rfl, fun _ => rfl⟩,
    by decide, by decide, hadd⟩, by decide⟩, rfl⟩

theorem branchNode_step {k : ℕ} (hk : k < 3) (map : ℤ → Option UInt256) :
    HashStep branchContext ⟨branchNode k, map⟩ ⟨branchNode (k + 1), map⟩ := by
  have hrun : ∀ k < 3, ((branchCall k).run branchContext (branchNode k)).1 = .ok () := by
    intro k hk
    match k, hk with
    | 0, _ => decide
    | 1, _ => decide
    | 2, _ => decide +kernel
  have hvalid : ∀ k < 3, (branchCall k).Valid branchContext (branchNode k) := by
    intro k hk
    match k, hk with
    | 0, _ => exact ⟨by decide, by decide⟩
    | 1, _ => exact ⟨by decide, by decide⟩
    | 2, _ => exact ⟨by decide, by decide⟩
  refine HashStep.chain ⟨branchCall k, .ok (), hvalid k hk, trivial, ?_, by simp [Returns]⟩ rfl
  rw [branchNode]
  exact Action.eq_of_fst (hrun k hk)

-- From here on, the states are computed by the kernel only.
attribute [irreducible] branchNode

theorem branchNode_cached :
    GetBlockHash 2 ⟨branchNode 1, fun _ => none⟩ = (.ok (some 2), ⟨branchNode 1, branchCache⟩) := by
  have htip : (branchNode 1).pindexBest = some 2 := by decide +kernel
  have hheight : ((branchNode 1).index (some 2)).map CBlockIndex.nHeight = .ok 1 := by
    decide +kernel
  have hread : readBack (branchNode 1) 0 2 = .ok (some 2) := by decide +kernel
  obtain ⟨best, hbest, hone⟩ : ∃ best, (branchNode 1).index (some 2) = .ok best ∧
      best.nHeight = 1 := by
    rcases hidx : (branchNode 1).index (some 2) with e | best
    · rw [hidx] at hheight
      exact nomatch hheight
    · rw [hidx] at hheight
      exact ⟨best, rfl, Except.ok.inj hheight⟩
  unfold GetBlockHash HashNode.lookup
  simp only [htip, hbest, hone]
  norm_num
  rw [hread]
  rfl

theorem branchNode_run :
    Relation.ReflTransGen (fun n n' => HashStep branchContext n n' ∧ KeepsCached n n')
      ⟨branchNode 0, fun _ => none⟩ ⟨branchNode 1, branchCache⟩ := by
  have hfst : KeepsCached ⟨branchNode 0, fun _ => none⟩ ⟨branchNode 1, fun _ => none⟩ :=
    fun _ _ _ hcached => absurd hcached (by simp)
  have hsnd : KeepsCached ⟨branchNode 1, fun _ => none⟩ ⟨branchNode 1, branchCache⟩ :=
    fun _ _ _ hcached => absurd hcached (by simp)
  exact (Relation.ReflTransGen.single ⟨branchNode_step (by decide) _, hfst⟩).tail
    ⟨HashStep.lookup branchNode_cached, hsnd⟩

/-- After the lookup the answers are right. -/
theorem branchNode_coherent : Coherent ⟨branchNode 1, branchCache⟩ :=
  coherent_of_run branchNode_start branchNode_run

/-- It is not true that the answers are right in every run: after the switch, the lookup still gives
the block of the branch that was left. -/
theorem lookup_after_switch :
    ¬∀ (ctx : Context) (n₀ n : HashNode), HashStart ctx n₀ →
      Relation.ReflTransGen (HashStep ctx) n₀ n → Coherent n := by
  intro hall
  have hrun : Relation.ReflTransGen (HashStep branchContext) ⟨branchNode 0, fun _ => none⟩
      ⟨branchNode 3, branchCache⟩ :=
    ((Relation.ReflTransGen.mono (fun _ _ h => h.1) _ _ branchNode_run).tail
      (branchNode_step (by decide) _)).tail (branchNode_step (by decide) _)
  obtain ⟨best, hbest, hheight⟩ : ∃ best, (branchNode 3).index (branchNode 3).pindexBest = .ok best ∧
      best.nHeight = 2 := by
    have hmap : ((branchNode 3).index (branchNode 3).pindexBest).map CBlockIndex.nHeight
        = .ok 2 := by decide +kernel
    rcases hindex : (branchNode 3).index (branchNode 3).pindexBest with e | best
    · rw [hindex] at hmap
      exact nomatch hmap
    · rw [hindex] at hmap
      exact ⟨best, rfl, Except.ok.inj hmap⟩
  have htip : (branchNode 3).pindexBest = some 4 := by decide +kernel
  have hlookup : GetBlockHash 2 ⟨branchNode 3, branchCache⟩
      = (.ok (some 2), ⟨branchNode 3, branchCache⟩) := by
    rw [htip] at hbest
    unfold GetBlockHash HashNode.lookup
    simp only [htip, hbest]
    rfl
  obtain ⟨⟨tip, htip', hancestor⟩, -⟩ :=
    hall _ _ _ branchNode_start hrun 2 best 2 _ hbest (by decide) (by rw [hheight]; decide) hlookup
  obtain rfl := Option.some.inj (htip.symm.trans htip')
  -- The blocks below the best one are the third and the first one.
  have hthird : (branchNode 3).parent 4 = some 3 := by decide +kernel
  have hfirst : (branchNode 3).parent 3 = some 1 := by decide +kernel
  have hroot : (branchNode 3).parent 1 = none := by decide +kernel
  have h := ((hancestor.of_ne hthird (by decide)).of_ne hfirst (by decide)).eq_of_root hroot
  exact absurd h (by decide)

end ZalemCoin.Floatingcity
