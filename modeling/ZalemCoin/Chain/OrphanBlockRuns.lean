import ZalemCoin.Chain.AcceptBlock
import ZalemCoin.Chain.OrphanBlocks
import ZalemCoin.Script.Interpreter

/-!
# Runs of blocks that are processed

What `ProcessBlock` does with the orphan blocks, over runs of its calls: it keeps a block whose previous
block is missing, prunes before that, and after a block has been accepted it tries the orphans that
depend on it. The two maps agree and the orphans are a forest in every run. The stakes that are seen are
those of the orphans as long as no orphan is kept whose stake is seen already; the exception for a block
that has an orphan child lets one in, and the stake is forgotten with the first of the two.
-/

namespace ZalemCoin.Chain

open Lib

attribute [local instance] instLinearOrderUInt256

structure BlockNode where
  chain : NodeState
  setStakeSeen : Finset (COutPoint × UInt32)
  orphans : OrphanBlocks

/-- A call of `ProcessBlock`, and what the node reads from outside meanwhile: for every block that it
checks or accepts, the argument `-maxorphanblocks`, and a random number. -/
structure ProcessCall where
  pblock : CBlock
  /-- The block comes from a peer. -/
  pfrom : Bool
  fReindex : Bool
  fImporting : Bool
  maxorphanblocks : ℤ
  nRand : ℕ
  env : UInt256 → Env
  /-- Where a block that is accepted is written. -/
  place : UInt256 → UInt32 × UInt32
  /-- For how many rounds the loops are run. -/
  rounds : ℕ

namespace BlockNode

def IsCanonicalBlockSignature (pblock : CBlock) : Bool :=
  if pblock.IsProofOfWork then pblock.vchBlockSig.isEmpty
  else Script.IsDERSignature pblock.vchBlockSig false

/-- Whether a block that does not extend the best chain is older than the last checkpoint, if there is
one. -/
def beforeCheckpoint (s : NodeState) (pblock : CBlock) : Option Bool :=
  if pblock.hashPrevBlock ≠ s.hashBestChain then
    match AutoSelectSyncCheckpoint s with
    | .error _ => none
    | .ok pcheckpoint =>
      (s.mapBlockIndex pcheckpoint).map fun i => decide (pblock.GetBlockTime - i.GetBlockTime < 0)
  else some false

variable (ctx : Context)

def preliminaryChecks (c : ProcessCall) (n : BlockNode) : Option (Bool × NodeState) :=
  let hash := ctx.GetHash c.pblock
  if (n.chain.mapBlockIndex hash).isSome then some (false, n.chain)
  else if (n.orphans.mapOrphanBlocks.find hash).isSome then some (false, n.chain)
  else if !c.fReindex ∧ !c.fImporting ∧ c.pblock.IsProofOfStake ∧
      c.pblock.GetProofOfStake ∈ n.setStakeSeen ∧
      ∀ e ∈ n.orphans.mapOrphanBlocksByPrev, e.1 ≠ hash then
    some (false, n.chain)
  else do
    let fEarly ← beforeCheckpoint n.chain c.pblock
    if fEarly then some (false, n.chain)
    else if !IsCanonicalBlockSignature c.pblock then some (false, n.chain)
    else
      match attempt (CheckBlock ctx (c.env hash) c.pblock true true true) n.chain with
      | (.ok fChecked, chain) => some (fChecked, chain)
      | (.error _, _) => none

/-- Keeps a block as an orphan and asks for what is missing. It is refused when its stake is seen and it
has no orphan child. -/
def keepOrphan (c : ProcessCall) (fInitialDownload : Bool) (orphans : OrphanBlocks) :
    Option (Bool × OrphanBlocks) :=
  let hash := ctx.GetHash c.pblock
  if c.pblock.IsProofOfStake ∧ c.pblock.GetProofOfStake ∈ orphans.setStakeSeenOrphan ∧
      ∀ e ∈ orphans.mapOrphanBlocksByPrev, e.1 ≠ hash then
    some (false, orphans)
  else do
    let orphans ← PruneOrphanBlocks c.rounds c.maxorphanblocks c.nRand orphans
    let pblock2 := COrphanBlock.of ctx c.pblock
    let orphans : OrphanBlocks := {
      mapOrphanBlocks := orphans.mapOrphanBlocks.insert hash pblock2
      mapOrphanBlocksByPrev := insertMulti (pblock2.hashPrev, pblock2) orphans.mapOrphanBlocksByPrev
      setStakeSeenOrphan :=
        if c.pblock.IsProofOfStake then
          insert c.pblock.GetProofOfStake orphans.setStakeSeenOrphan
        else orphans.setStakeSeenOrphan }
    let _ ← GetOrphanRoot c.rounds orphans.mapOrphanBlocks hash
    let _ ← (if fInitialDownload then some hash
      else WantedByOrphan c.rounds orphans.mapOrphanBlocks pblock2 : Option UInt256)
    some (true, orphans)

def acceptBlock (c : ProcessCall) (block : CBlock) (n : BlockNode) :
    Option (Bool × BlockNode) :=
  let hash := ctx.GetHash block
  match attempt (AcceptBlock ctx (c.env hash) (c.place hash).1 (c.place hash).2 block) n.chain with
  | (.ok accepted, chain) =>
    some (accepted, { n with
      chain := chain
      setStakeSeen :=
        if (n.chain.mapBlockIndex hash).isNone ∧ (chain.mapBlockIndex hash).isSome ∧
            block.IsProofOfStake then
          insert block.GetProofOfStake n.setStakeSeen
        else n.setStakeSeen })
  | (.error _, _) => none

/-- The node, and the blocks whose orphans are still to be tried. -/
structure Resolving where
  node : BlockNode
  vWorkQueue : List UInt256

def processChild (c : ProcessCall) (s : Resolving) (o : COrphanBlock) :
    Option Resolving := do
  let (accepted, n) ← acceptBlock ctx c o.vchBlock s.node
  some {
    node := { n with
      orphans := { n.orphans with
        mapOrphanBlocks := n.orphans.mapOrphanBlocks.erase o.hashBlock
        setStakeSeenOrphan := n.orphans.setStakeSeenOrphan.erase o.vchBlock.GetProofOfStake } }
    vWorkQueue := if accepted then s.vWorkQueue ++ [o.hashBlock] else s.vWorkQueue }

def resolveRound (c : ProcessCall) (s : Resolving) :
    Round Resolving (Option BlockNode) :=
  match s.vWorkQueue with
  | [] => .done (some s.node)
  | hashPrev :: rest =>
    match ((s.node.orphans.mapOrphanBlocksByPrev.filter fun e => decide (e.1 = hashPrev)).map
        Prod.snd).foldlM (processChild ctx c) { s with vWorkQueue := rest } with
    | none => .done none
    | some t => .next { t with
        node := { t.node with
          orphans := { t.node.orphans with
            mapOrphanBlocksByPrev :=
              t.node.orphans.mapOrphanBlocksByPrev.filter fun e => decide (e.1 ≠ hashPrev) } } }

def ProcessBlock (c : ProcessCall) (n : BlockNode) : Option (Bool × BlockNode) := do
  let hash := ctx.GetHash c.pblock
  let (fChecked, chain) ← preliminaryChecks ctx c n
  let n := { n with chain := chain }
  if !fChecked then some (false, n)
  else if (chain.mapBlockIndex c.pblock.hashPrevBlock).isNone then
    if c.pfrom then
      let (kept, orphans) ←
        keepOrphan ctx c (IsInitialBlockDownload ctx (c.env hash) chain) n.orphans
      some (kept, { n with
        chain := if kept then chain.afterDownloadCheck ctx (c.env hash) else chain
        orphans := orphans })
    else some (true, n)
  else
    let (accepted, n) ← acceptBlock ctx c c.pblock n
    if !accepted then some (false, n)
    else
      let n ← (runLoop (resolveRound ctx c) c.rounds ⟨n, [hash]⟩).join
      some (true, { n with chain := n.chain.afterDownloadCheck ctx (c.env hash) })

/-- What a run of calls leads to, if all of them return. -/
def processBlocks (n : BlockNode) (cs : List ProcessCall) : Option BlockNode :=
  cs.foldlM (fun n c => (ProcessBlock ctx c n).map Prod.snd) n

/-! ## One call -/

section

variable {ctx : Context} {c : ProcessCall} {p : Prop}

variable {n n' : BlockNode} {s t : Resolving}

theorem orphans_of_acceptBlock {block : CBlock} {accepted : Bool}
    (h : acceptBlock ctx c block n = some (accepted, n')) : n'.orphans = n.orphans := by
  unfold acceptBlock at h
  dsimp only at h
  split at h
  · rw [← (Prod.mk.inj (Option.some.inj h)).2]
  · cases h

theorem bookkept_keepOrphan {orphans orphans' : OrphanBlocks} {fInitialDownload kept : Bool}
    (h : Bookkept ctx p orphans)
    (hnew : orphans.mapOrphanBlocks.find (ctx.GetHash c.pblock) = none)
    (hdup : p → ¬(c.pblock.IsProofOfStake = true ∧
      c.pblock.GetProofOfStake ∈ orphans.setStakeSeenOrphan ∧
      ∃ e ∈ orphans.mapOrphanBlocksByPrev, e.1 = ctx.GetHash c.pblock))
    (hrun : keepOrphan ctx c fInitialDownload orphans = some (kept, orphans')) :
    Bookkept ctx p orphans' := by
  unfold keepOrphan at hrun
  by_cases href : c.pblock.IsProofOfStake = true ∧
      c.pblock.GetProofOfStake ∈ orphans.setStakeSeenOrphan ∧
        ∀ e ∈ orphans.mapOrphanBlocksByPrev, e.1 ≠ ctx.GetHash c.pblock
  · rw [if_pos href] at hrun
    cases hrun
    exact h
  · rw [if_neg href] at hrun
    obtain ⟨pruned, hprune, hrun⟩ := Option.bind_eq_some_iff.mp hrun
    obtain ⟨root, hroot, hrun⟩ := Option.bind_eq_some_iff.mp hrun
    obtain ⟨wanted, -, hrun⟩ := Option.bind_eq_some_iff.mp hrun
    cases hrun
    obtain ⟨hpruned, hless, hsub⟩ := h.prune hprune
    refine hpruned.insert (hless _ hnew) hroot ?_
    intro hp hpos hseen
    refine hdup hp ⟨hpos, hsub hseen, ?_⟩
    by_contra hnone
    push Not at hnone
    exact href ⟨hpos, hsub hseen, hnone⟩

theorem foldlM_processChild {os : List COrphanBlock} (h : os.foldlM (processChild ctx c) s = some t) :
    (∀ hash, t.node.orphans.mapOrphanBlocks.find hash =
      if hash ∈ os.map COrphanBlock.hashBlock then none
      else s.node.orphans.mapOrphanBlocks.find hash) ∧
    t.node.orphans.mapOrphanBlocksByPrev = s.node.orphans.mapOrphanBlocksByPrev ∧
    ∀ stake, stake ∈ t.node.orphans.setStakeSeenOrphan ↔
      stake ∈ s.node.orphans.setStakeSeenOrphan ∧ ∀ o ∈ os, stake ≠ o.vchBlock.GetProofOfStake := by
  induction os generalizing s with
  | nil =>
    cases h
    simp
  | cons o os ih =>
    obtain ⟨s', hchild, hrest⟩ := Option.bind_eq_some_iff.mp h
    obtain ⟨⟨accepted, n⟩, hacc, hchild⟩ := Option.bind_eq_some_iff.mp hchild
    cases hchild
    have hsame := orphans_of_acceptBlock hacc
    obtain ⟨hfind, hbyPrev, hstakes⟩ := ih hrest
    rw [hsame] at hfind hbyPrev hstakes
    refine ⟨?_, hbyPrev, ?_⟩
    · intro hash
      rw [hfind, SortedMap.find_erase, List.map_cons]
      by_cases ho : hash = o.hashBlock
      · simp [ho]
      · simp [ho]
    · intro stake
      rw [hstakes, Finset.mem_erase, List.forall_mem_cons]
      tauto

/-- A round of the resolution removes orphans and adds none. -/
theorem removes_of_resolveRound (hagrees : Agrees ctx s.node.orphans)
    (h : resolveRound ctx c s = .next t) :
    ∃ hashes, Removes hashes s.node.orphans t.node.orphans := by
  unfold resolveRound at h
  split at h
  · cases h
  · rename_i hashPrev rest _
    split at h
    · cases h
    · rename_i t' ht
      cases h
      obtain ⟨hfind, hbyPrev, hstakes⟩ := foldlM_processChild ht
      generalize hchildren : (s.node.orphans.mapOrphanBlocksByPrev.filter
        fun e => decide (e.1 = hashPrev)).map Prod.snd = children at hfind hstakes
      have hmem : ∀ o, o ∈ children ↔ (hashPrev, o) ∈ s.node.orphans.mapOrphanBlocksByPrev := by
        intro o
        rw [← hchildren, List.mem_map]
        constructor
        · rintro ⟨⟨k, o⟩, he, rfl⟩
          obtain ⟨he, hkey⟩ := List.mem_filter.mp he
          rwa [← of_decide_eq_true hkey]
        · intro he
          exact ⟨(hashPrev, o), List.mem_filter.mpr ⟨he, decide_eq_true rfl⟩, rfl⟩
      refine ⟨children.map COrphanBlock.hashBlock, hfind, ?_, ?_, ?_⟩
      · dsimp only
        rw [hbyPrev]
        exact List.filter_sublist
      · intro e he
        rw [hbyPrev, List.mem_filter]
        obtain ⟨hkey, hfound⟩ := (hagrees.mem e).mp he
        constructor
        · rintro ⟨-, hne⟩ hchild
          obtain ⟨o, ho, heq⟩ := List.mem_map.mp hchild
          obtain ⟨hkey', hfound'⟩ := (hagrees.mem _).mp ((hmem o).mp ho)
          rw [heq] at hfound'
          obtain rfl := Option.mem_unique hfound hfound'
          exact of_decide_eq_true hne (hkey.trans hkey'.symm)
        · intro hno
          refine ⟨he, decide_eq_true ?_⟩
          rintro rfl
          exact hno (List.mem_map_of_mem ((hmem e.2).mpr he))
      · intro stake
        rw [hstakes]
        apply and_congr_right
        intro _
        constructor
        · intro hne hash hchild o ho heq
          obtain ⟨o', ho', rfl⟩ := List.mem_map.mp hchild
          have hfound := ((hagrees.mem _).mp ((hmem o').mp ho')).2
          obtain rfl := Option.mem_unique ho hfound
          have hmade := (hagrees.made _ _ ho).1
          exact hne o ho' (heq.trans (congrArg COrphanBlock.stake hmade))
        · intro hne o ho heq
          have hfound := ((hagrees.mem _).mp ((hmem o).mp ho)).2
          have hmade := (hagrees.made _ _ hfound).1
          refine hne _ (List.mem_map_of_mem ho) o hfound (heq.trans ?_)
          exact (congrArg COrphanBlock.stake hmade).symm

theorem bookkept_resolve {rounds : ℕ} (h : Bookkept ctx p s.node.orphans)
    (hrun : (runLoop (resolveRound ctx c) rounds s).join = some n) : Bookkept ctx p n.orphans := by
  have hloop := Option.join_eq_some_iff.mp hrun
  have hkept : Bookkept ctx p s.node.orphans →
      ∀ n', some n = some n' → Bookkept ctx p n'.orphans := by
    apply @runLoop_spec _ _ (resolveRound ctx c) rounds s (some n)
      (fun s r => Bookkept ctx p s.node.orphans → ∀ n', r = some n' → Bookkept ctx p n'.orphans)
    · intro s r hrnd hs n' hr
      unfold resolveRound at hrnd
      split at hrnd
      · cases hrnd
        cases hr
        exact hs
      · split at hrnd
        · cases hrnd
          cases hr
        · cases hrnd
    · intro s t r hrnd hrest hs
      obtain ⟨hashes, hremoves⟩ := removes_of_resolveRound hs.agrees hrnd
      exact hrest (hs.removes hremoves)
    · exact hloop
  exact hkept h n rfl

theorem find_of_preliminaryChecks {chain : NodeState}
    (h : preliminaryChecks ctx c n = some (true, chain)) :
    n.orphans.mapOrphanBlocks.find (ctx.GetHash c.pblock) = none := by
  unfold preliminaryChecks at h
  by_cases hindexed : (n.chain.mapBlockIndex (ctx.GetHash c.pblock)).isSome = true
  · rw [if_pos hindexed] at h
    cases h
  · rw [if_neg hindexed] at h
    by_cases hkept : (n.orphans.mapOrphanBlocks.find (ctx.GetHash c.pblock)).isSome = true
    · rw [if_pos hkept] at h
      cases h
    · exact Option.not_isSome_iff_eq_none.mp hkept

/-- The call keeps an orphan whose stake is seen already, because it has an orphan child. -/
def StoresDuplicate (ctx : Context) (n : BlockNode) (c : ProcessCall) : Prop :=
  (∃ chain, preliminaryChecks ctx c n = some (true, chain) ∧
    chain.mapBlockIndex c.pblock.hashPrevBlock = none) ∧
  c.pfrom = true ∧ c.pblock.IsProofOfStake = true ∧
  c.pblock.GetProofOfStake ∈ n.orphans.setStakeSeenOrphan ∧
  ∃ e ∈ n.orphans.mapOrphanBlocksByPrev, e.1 = ctx.GetHash c.pblock

theorem bookkept_processBlock {r : Bool} (h : Bookkept ctx p n.orphans)
    (hdup : p → ¬StoresDuplicate ctx n c) (hrun : ProcessBlock ctx c n = some (r, n')) :
    Bookkept ctx p n'.orphans := by
  obtain ⟨⟨fChecked, chain⟩, hchks, hrun⟩ := Option.bind_eq_some_iff.mp hrun
  dsimp only at hrun
  cases fChecked
  · -- the block has been refused
    cases hrun
    exact h
  · rw [if_neg (by simp)] at hrun
    by_cases hprev : (chain.mapBlockIndex c.pblock.hashPrevBlock).isNone = true
    · rw [if_pos hprev] at hrun
      by_cases hfrom : c.pfrom = true
      · rw [if_pos hfrom] at hrun
        obtain ⟨⟨kept, orphans⟩, hkeep, hrun⟩ := Option.bind_eq_some_iff.mp hrun
        cases hrun
        refine bookkept_keepOrphan h (find_of_preliminaryChecks hchks) ?_ hkeep
        rintro hp ⟨hpos, hseen, hchild⟩
        exact hdup hp ⟨⟨chain, hchks, Option.isNone_iff_eq_none.mp hprev⟩, hfrom, hpos, hseen, hchild⟩
      · rw [if_neg hfrom] at hrun
        cases hrun
        exact h
    · rw [if_neg hprev] at hrun
      obtain ⟨⟨accepted, n1⟩, hacc, hrun⟩ := Option.bind_eq_some_iff.mp hrun
      have hsame := orphans_of_acceptBlock hacc
      cases accepted
      · cases hrun
        rw [hsame]
        exact h
      · rw [if_neg (by simp)] at hrun
        obtain ⟨n2, hresolve, hrun⟩ := Option.bind_eq_some_iff.mp hrun
        cases hrun
        have hn1 : Bookkept ctx p n1.orphans := by
          rw [hsame]
          exact h
        exact bookkept_resolve (n := n2) hn1 hresolve

end

/-! ## Runs -/

section

variable {ctx : Context}

/-- No call of a run keeps an orphan whose stake is seen already, in the state in which it comes. -/
def NeverStoresDuplicate (ctx : Context) : BlockNode → List ProcessCall → Prop
  | _, [] => True
  | n, c :: cs => ¬StoresDuplicate ctx n c ∧
    ∀ r n', ProcessBlock ctx c n = some (r, n') → NeverStoresDuplicate ctx n' cs

theorem bookkept_processBlocks {p : Prop} {cs : List ProcessCall} {n n' : BlockNode}
    (h : Bookkept ctx p n.orphans) (hdup : p → NeverStoresDuplicate ctx n cs)
    (hrun : processBlocks ctx n cs = some n') : Bookkept ctx p n'.orphans := by
  induction cs generalizing n with
  | nil =>
    cases hrun
    exact h
  | cons c cs ih =>
    obtain ⟨next, hstep, hrest⟩ := Option.bind_eq_some_iff.mp hrun
    obtain ⟨⟨r, n1⟩, hcall, rfl⟩ := Option.map_eq_some_iff.mp hstep
    exact ih (bookkept_processBlock h (fun hp => (hdup hp).1) hcall)
      (fun hp => (hdup hp).2 r n1 hcall) hrest

def withoutOrphans (chain : NodeState) (setStakeSeen : Finset (COutPoint × UInt32)) : BlockNode :=
  ⟨chain, setStakeSeen, ⟨SortedMap.empty, [], ∅⟩⟩

/-- After every run from a node without orphans, the two maps have the same orphans, and pruning takes
one orphan that no other one depends on out of both. If no call of the run has kept an orphan whose
stake was seen already, the stakes that are seen are those of the proof-of-stake orphans. -/
theorem orphans_of_processBlocks {chain : NodeState} {setStakeSeen : Finset (COutPoint × UInt32)}
    {cs : List ProcessCall} {n : BlockNode}
    (hrun : processBlocks ctx (withoutOrphans chain setStakeSeen) cs = some n) :
    Agrees ctx n.orphans ∧
    (∀ (rounds : ℕ) (maxorphanblocks : ℤ) (nRand : ℕ),
      n.orphans.mapOrphanBlocksByPrev.length < rounds →
      (max 0 maxorphanblocks).toNat < n.orphans.mapOrphanBlocksByPrev.length →
      ∃ orphans' e, PruneOrphanBlocks rounds maxorphanblocks nRand n.orphans = some orphans' ∧
        e ∈ n.orphans.mapOrphanBlocksByPrev ∧
        (∀ e' ∈ n.orphans.mapOrphanBlocksByPrev, e'.1 ≠ e.2.hashBlock) ∧
        Removes [e.2.hashBlock] n.orphans orphans' ∧ Agrees ctx orphans') ∧
    (NeverStoresDuplicate ctx (withoutOrphans chain setStakeSeen) cs → StakesKept n.orphans) := by
  have h : Bookkept ctx (NeverStoresDuplicate ctx (withoutOrphans chain setStakeSeen) cs)
      n.orphans := bookkept_processBlocks Bookkept.empty (fun hp => hp) hrun
  refine ⟨h.agrees, ?_, ?_⟩
  · intro rounds maxorphanblocks nRand hrounds hmany
    obtain ⟨orphans', e, hprune, he, hleaf, hremoves⟩ :=
      pruneOrphanBlocks_spec h.agrees h.rooted hrounds nRand hmany
    exact ⟨orphans', e, hprune, he, hleaf, hremoves, hremoves.agrees h.agrees⟩
  · exact fun hp => (h.stakes hp).2

end

/-! ## Blocks from a peer -/

def forestNode : BlockNode :=
  withoutOrphans { emptyNode with
    mapBlockIndex := Function.update (fun _ => none) 1 (some (plainIndex 1 0 none fundedBlock))
    pindexGenesisBlock := some 1
    pindexBest := some 1
    hashBestChain := 1
    nBestHeight := 0 } ∅

def stakedBlock (id prev : UInt32) : CBlock :=
  { plainBlock id prev (BitVec.ofNat 256 (20 * id.toNat + 1))
      [plainTx (10 * id) [coinbaseInput] [⟨0, []⟩],
        plainTx (10 * id + 1) [inputOf 7 0] [⟨0, []⟩, payTo COIN]] with
    vchBlockSig := [0x30, 0x07, 0x02, 0x01, 0x01, 0x02, 0x02, 0x01, 0x01] }

def workedBlock (id prev : UInt32) : CBlock :=
  plainBlock id prev (BitVec.ofNat 256 (10 * id.toNat)) [plainTx (10 * id) [coinbaseInput] [payTo COIN]]

def peerBlock (pblock : CBlock) : ProcessCall where
  pblock := pblock
  pfrom := true
  fReindex := false
  fImporting := false
  maxorphanblocks := 2
  nRand := 1
  env _ := plainEnv 1000
  place _ := (2, 8)
  rounds := 9

/-- Two orphans of which only one has a stake. -/
theorem orphans_of_two_blocks : ∃ n,
    processBlocks (chainedContext true) forestNode
      [peerBlock (stakedBlock 11 31), peerBlock (workedBlock 13 12)] = some n ∧
    Agrees (chainedContext true) n.orphans ∧ StakesKept n.orphans ∧
    ∃ orphans' e, PruneOrphanBlocks 9 0 1 n.orphans = some orphans' ∧
      Removes [e] n.orphans orphans' := by
  have hlength : ((processBlocks (chainedContext true) forestNode
      [peerBlock (stakedBlock 11 31), peerBlock (workedBlock 13 12)]).map
        fun n => n.orphans.mapOrphanBlocksByPrev.length) = some 2 := by decide
  obtain ⟨n, hrun, htwo⟩ := Option.map_eq_some_iff.mp hlength
  obtain ⟨hagrees, hprune, hstakes⟩ := orphans_of_processBlocks hrun
  obtain ⟨orphans', e, hpruned, -, -, hremoves, -⟩ :=
    hprune 9 0 1 (by rw [htwo]; decide) (by rw [htwo]; decide)
  refine ⟨n, hrun, hagrees, hstakes ⟨?_, ?_⟩, orphans', e.2.hashBlock, hpruned, hremoves⟩
  · -- no stake is seen yet
    rintro ⟨-, -, -, hseen, -⟩
    cases hseen
  · intro r n' _
    refine ⟨?_, fun _ _ _ => trivial⟩
    rintro ⟨-, -, hpos, -⟩
    exact absurd hpos (by decide)

/-- Two proof-of-stake orphans with one stake, where the second one has a child among the orphans, and
one orphan more, for which the first one is removed. -/
def forgettingCalls : List ProcessCall :=
  [peerBlock (stakedBlock 11 31), peerBlock (workedBlock 13 12), peerBlock (stakedBlock 12 32),
    peerBlock (workedBlock 14 34)]

/-- The stake of an orphan that is kept is not seen any more. -/
theorem forgettingCalls_forget : ∃ n,
    processBlocks (chainedContext true) forestNode forgettingCalls = some n ∧
      n.orphans.mapOrphanBlocks.find 12
        = some (COrphanBlock.of (chainedContext true) (stakedBlock 12 32)) ∧
      n.orphans.setStakeSeenOrphan = ∅ ∧ ¬StakesKept n.orphans := by
  have heval : ((processBlocks (chainedContext true) forestNode forgettingCalls).map fun n =>
      (n.orphans.mapOrphanBlocks.find 12, n.orphans.setStakeSeenOrphan))
        = some (some (COrphanBlock.of (chainedContext true) (stakedBlock 12 32)), ∅) := by
    decide
  obtain ⟨n, hrun, hleft⟩ := Option.map_eq_some_iff.mp heval
  obtain ⟨hfind, hseen⟩ := Prod.mk.inj hleft
  refine ⟨n, hrun, hfind, hseen, ?_⟩
  intro hkept
  have hmem := (hkept (stakedBlock 12 32).GetProofOfStake).mpr ⟨12, _, hfind, by decide, rfl⟩
  rw [hseen] at hmem
  cases hmem

end BlockNode

end ZalemCoin.Chain
