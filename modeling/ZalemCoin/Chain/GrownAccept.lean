import ZalemCoin.Chain.GrownRuns

/-!
# Accepting the blocks of the branches

A node that has just been initialised, and then is offered the blocks of the two branches in the
order of their heights, accepts all of them, as long as their times are such that the target stays
what it is, and no block is as low as the synchronized checkpoint.
-/

namespace ZalemCoin.Chain

open Lib
open Function (update update_of_ne update_self)
open Lib.Action (bind_of_ok)

def grownTrust (h : ℕ) : UInt256 := BitVec.ofNat 256 ((h + 1) * 262144)

structure GrownEntry (time : ℕ → ℕ) (side : Bool) (h : ℕ) (i : CBlockIndex) : Prop where
  height : i.nHeight = h
  prev : i.pprev = if h = 0 then none else some (grownHash side (h - 1))
  file : i.nFile = UInt32.ofNat (grownId side h)
  pos : i.nBlockPos = 8
  time : i.nTime = UInt32.ofNat (time h)
  bits : i.nBits = grownBits
  kind : i.fProofOfStake = false
  trust : i.nChainTrust = grownTrust h

def grownTop (m k : ℕ) (side : Bool) : ℕ := if side then k else m

/-- The blocks that a node has are those of the branches up to their heights. -/
structure Holds (time : ℕ → ℕ) (top : Bool → ℕ) (s : NodeState) : Prop where
  low : ∀ side, top side ≤ grownHeight
  entry : ∀ side h, h ≤ top side →
    ∃ i, s.mapBlockIndex (grownHash side h) = some i ∧ GrownEntry time side h i
  only : ∀ p, s.mapBlockIndex p ≠ none → ∃ side h, h ≤ top side ∧ p = grownHash side h

/-- The state of a node that has the main branch up to a height, which is its best chain, and the
side branch up to another. -/
structure Grown (time : ℕ → ℕ) (m k : ℕ) (s : NodeState) : Prop
    extends Holds time (grownTop m k) s where
  atTip : AtTip s (grownHash false 0) (grownHash false m)
  trust : s.nBestChainTrust = grownTrust m

variable {time : ℕ → ℕ} {side : Bool} {h m k : ℕ} {s : NodeState} {i : CBlockIndex} {p : UInt256}

section

variable {s' t : NodeState} {j : CBlockIndex} {tip : UInt256}

theorem GrownEntry.congr (hi : GrownEntry time side h i) (hplace : j.place = i.place) :
    GrownEntry time side h j where
  height := (congrArg CBlockIndex.nHeight hplace :).trans hi.height
  prev := (congrArg CBlockIndex.pprev hplace :).trans hi.prev
  file := (congrArg CBlockIndex.nFile hplace :).trans hi.file
  pos := (congrArg CBlockIndex.nBlockPos hplace :).trans hi.pos
  time := (congrArg CBlockIndex.nTime hplace :).trans hi.time
  bits := (congrArg CBlockIndex.nBits hplace :).trans hi.bits
  kind := (congrArg CBlockIndex.fProofOfStake hplace :).trans hi.kind
  trust := (congrArg CBlockIndex.nChainTrust hplace :).trans hi.trust

theorem Holds.congr {top : Bool → ℕ} (hs : Holds time top s) (hplace : SamePlace s s') :
    Holds time top s' where
  low := hs.low
  entry side h hh := by
    obtain ⟨i, hi, hent⟩ := hs.entry side h hh
    obtain ⟨j, hj, hsame⟩ := hplace.symm.exists_eq hi
    exact ⟨j, hj, hent.congr hsame.symm⟩
  only p hp := hs.only p ((hplace.ne_none_iff p).mp hp)

theorem grownTrust_succ (h : ℕ) : grownTrust (h + 1) = grownTrust h + 262144 := by
  unfold grownTrust
  rw [show (h + 1 + 1) * 262144 = (h + 1) * 262144 + 262144 by ring, BitVec.ofNat_add]
  rfl

theorem grownTrust_lt_iff {h' : ℕ} (hh : h ≤ grownHeight) (hh' : h' ≤ grownHeight) :
    grownTrust h < grownTrust h' ↔ h < h' := by
  unfold grownHeight at hh hh'
  unfold grownTrust
  rw [BitVec.lt_def, BitVec.toNat_ofNat, BitVec.toNat_ofNat, Nat.mod_eq_of_lt (by omega),
    Nat.mod_eq_of_lt (by omega)]
  omega

theorem grownBlock_trust (nFile : UInt32) :
    (CBlockIndex.of nFile 8 (grownBlock time side h)).GetBlockTrust = 262144 := by
  show (if SetCompact grownBits ≤ 0 then 0
    else BitVec.ofInt 256 (2 ^ 256 / (SetCompact grownBits + 1))) = _
  decide

theorem newBlockIndex_genesis (nSequenceId : UInt32) :
    ∃ i, newBlockIndex (grownContext time) (fun _ => none) 1 8 0 nSequenceId
      (grownBlock time false 0) = .ok i ∧ GrownEntry time false 0 i := by
  refine ⟨_, rfl, ⟨rfl, rfl, rfl, rfl, rfl, rfl, rfl, ?_⟩⟩
  show 0 + (CBlockIndex.of 1 8 (grownBlock time false 0)).GetBlockTrust = grownTrust 0
  rw [grownBlock_trust]
  rfl

theorem newBlockIndex_grown {mapBlockIndex : UInt256 → Option CBlockIndex} (nSequenceId : UInt32)
    (hj : mapBlockIndex (grownHash side h) = some j) (hprev : GrownEntry time side h j) :
    ∃ i, newBlockIndex (grownContext time) mapBlockIndex (UInt32.ofNat (grownId side (h + 1))) 8
      (grownHash side (h + 1)) nSequenceId (grownBlock time side (h + 1)) = .ok i ∧
        GrownEntry time side (h + 1) i := by
  have hlink : (grownBlock time side (h + 1)).hashPrevBlock = grownHash side h := rfl
  unfold newBlockIndex
  rw [hlink, hj]
  refine ⟨_, rfl, ⟨?_, rfl, rfl, rfl, rfl, rfl, rfl, ?_⟩⟩
  · show j.nHeight + 1 = h + 1
    rw [hprev.height]
  · show j.nChainTrust + (CBlockIndex.of _ 8 (grownBlock time side (h + 1))).GetBlockTrust = _
    rw [grownBlock_trust, hprev.trust, grownTrust_succ]

/-- A new block is indexed without a failure. -/
theorem indexBlock_isOk {ctx : Context} {nFile nBlockPos : UInt32} {hashProof : UInt256}
    {block : CBlock} (hfresh : s.mapBlockIndex (ctx.GetHash block) = none)
    (hclosed : s.txdb.activeBatch = none)
    (hi : newBlockIndex ctx s.mapBlockIndex nFile nBlockPos hashProof s.nBlockSequenceId block
      = .ok i) :
    ∃ s', indexBlock ctx nFile nBlockPos hashProof block s = (.ok i, s') ∧
      s'.pindexGenesisBlock = s.pindexGenesisBlock ∧ s'.pindexBest = s.pindexBest ∧
      s'.hashBestChain = s.hashBestChain ∧ s'.nBestChainTrust = s.nBestChainTrust ∧
      s'.limits = s.limits := by
  have hread : (Action.reading fun s : NodeState => do
      ensure (s.mapBlockIndex (ctx.GetHash block) = none)
        (Failure.error "AddToBlockIndex() : already exists")
      pure s.nBlockSequenceId) s = (.ok s.nBlockSequenceId, s) :=
    Prod.ext (ensure_bind hfresh rfl) rfl
  have hnew : Action.reading (fun t => newBlockIndex ctx t.mapBlockIndex nFile nBlockPos hashProof
      s.nBlockSequenceId block) { s with nBlockSequenceId := s.nBlockSequenceId + 1 }
        = (.ok i, { s with nBlockSequenceId := s.nBlockSequenceId + 1 }) := Prod.ext hi rfl
  have hset : (Action.modify fun s => s.setIndex (ctx.GetHash block) i : NodeM Unit)
      { s with nBlockSequenceId := s.nBlockSequenceId + 1 }
        = (.ok (), { s with nBlockSequenceId := s.nBlockSequenceId + 1 }.setIndex
          (ctx.GetHash block) i) := rfl
  obtain ⟨t, hbegin, hparts⟩ : ∃ t, TxnBegin
      ({ s with nBlockSequenceId := s.nBlockSequenceId + 1 }.setIndex (ctx.GetHash block) i)
        = (.ok (), t) ∧ t.txdb.activeBatch.isSome ∧
      t.pindexGenesisBlock = s.pindexGenesisBlock ∧ t.pindexBest = s.pindexBest ∧
      t.hashBestChain = s.hashBestChain ∧ t.nBestChainTrust = s.nBestChainTrust ∧
      t.limits = s.limits := by
    refine ⟨NodeState.opened ({ s with nBlockSequenceId := s.nBlockSequenceId + 1 }.setIndex
      (ctx.GetHash block) i), ?_, rfl, rfl, rfl, rfl, rfl, rfl⟩
    apply txnBegin_of_closed
    exact hclosed
  obtain ⟨u, hwrite, hopen, hparts⟩ : ∃ u, (Action.modify fun s =>
      { s with txdb := s.txdb.WriteBlockIndex ctx (CDiskBlockIndex.of i) } : NodeM Unit) t
        = (.ok (), u) ∧ u.txdb.activeBatch.isSome ∧
      u.pindexGenesisBlock = s.pindexGenesisBlock ∧ u.pindexBest = s.pindexBest ∧
      u.hashBestChain = s.hashBestChain ∧ u.nBestChainTrust = s.nBestChainTrust ∧
      u.limits = s.limits :=
    ⟨_, rfl, (Store.perform_of_open hparts.1 _).2, hparts.2⟩
  have hcom : (TxnCommit >>= fun _ => pure i : NodeM CBlockIndex) u
      = (.ok i, { u with txdb := ⟨u.txdb.view, none⟩ }) :=
    bind_of_ok (txnCommit_of_open hopen)
  exact ⟨_, (bind_of_ok hread).trans <| (bind_of_ok hnew).trans <|
    (bind_of_ok hset).trans <| (bind_of_ok hbegin).trans <|
      (bind_of_ok hwrite).trans hcom, hparts⟩

theorem AtTip.indexed {ctx : Context} {genesis : UInt256} {nFile nBlockPos : UInt32}
    {block : CBlock} (hs : AtTip s genesis tip) (h : Indexed ctx s s' nFile nBlockPos block i)
    (hprev : s.mapBlockIndex block.hashPrevBlock ≠ none) (hfile : nFile ≠ 0xffffffff)
    (hgen : s'.pindexGenesisBlock = s.pindexGenesisBlock)
    (hbest : s'.pindexBest = s.pindexBest) (hhash : s'.hashBestChain = s.hashBestChain)
    (htrust : s'.nBestChainTrust = s.nBestChainTrust) (hlims : s'.limits = s.limits) :
    AtTip s' genesis tip := by
  obtain ⟨⟨htree, hlinks, hstarted, htip, hknown, honDisk⟩, hwork, hclosed, hchain, j, hj, hjtrust⟩ :=
    hs
  have hne : ∀ p, s.mapBlockIndex p ≠ none → p ≠ ctx.GetHash block := by
    rintro p hp rfl
    exact hp h.fresh
  have hgen' := htree.known_of_isAncestor hknown (htree.genesis_isAncestor hknown)
  refine ⟨⟨h.blockTree htree hgen' hprev, ?_, hgen.trans hstarted, hbest.trans htip, ?_, ?_⟩,
    ⟨?_, ?_⟩, h.closed, hhash.trans hchain, j, ?_, htrust.trans hjtrust⟩
  · intro a b hb hab
    have hb' := (h.isAncestor_iff htree.known hknown).mp hb
    have hbknown := htree.known_of_isAncestor hknown hb'
    rw [h.parent_of_ne (hne b hbknown)] at hab
    have hnext : s'.next a = s.next a :=
      next_congr (congrArg _ (h.entry_of_ne (hne a (htree.known b a hab))))
    rw [hnext]
    exact hlinks a b hb' hab
  · rw [h.entry_of_ne (hne tip hknown)]
    exact hknown
  · intro p k hk
    by_cases hp : p = ctx.GetHash block
    · rw [hp, h.entry_self] at hk
      rw [← Option.some.inj hk, h.place.1]
      exact hfile
    · rw [h.entry_of_ne hp] at hk
      exact honDisk p k hk
  · intro l hl
    have hlast : s.pblockindexFBBHLast = some l := (congrArg Prod.fst hlims :).symm.trans hl
    exact (h.isAncestor_iff htree.known hknown).mpr (hwork.last l hlast)
  · exact (hwork.congr hlims |>.roomy)
  · rw [h.entry_of_ne (hne tip hknown)]
    exact hj

end

/-! ## The checks of the next block -/

/-- The times of a block and of the next one are as they should be. -/
structure Spaced (time : ℕ → ℕ) (h : ℕ) : Prop where
  low : time (h + 1) < 2 ^ 32
  low' : time h < 2 ^ 32
  drift : time h < time (h + 1) + 300
  spacing : 175 ≤ h + 1 → time h + 60 ≤ time (h + 1)

section

variable {genesis : UInt256}

theorem BlockTree.syncCheckpointLoop_isOk (htree : BlockTree s genesis) {best fuel : ℕ}
    (hp : s.mapBlockIndex p ≠ none) (hfuel : s.height p < fuel) :
    ∃ q i, syncCheckpointLoop s best fuel p = .ok q ∧ s.mapBlockIndex q = some i ∧
      (i.nHeight = 0 ∨ i.nHeight + nCheckpointSpan ≤ best) := by
  induction fuel generalizing p with
  | zero => omega
  | succ fuel ih =>
    obtain ⟨i, hidx, hi⟩ := exists_index hp
    have hheight := height_eq hi
    unfold syncCheckpointLoop
    rw [hidx]
    simp only [bind, Except.bind]
    rcases hprev : i.pprev with _ | q
    · have hroot : p = genesis := htree.root p hp ((parent_eq hi).trans hprev)
      have hlow := htree.low
      rw [← hroot] at hlow
      exact ⟨p, i, rfl, hi, .inl (by omega)⟩
    · have hpar : s.parent p = some q := (parent_eq hi).trans hprev
      have hstep := htree.heights p q hpar
      dsimp only
      split
      · exact ih (htree.known p q hpar) (by omega)
      · exact ⟨p, i, rfl, hi, .inr (by omega)⟩

theorem AtTip.checkSync {tip : UInt256} (hs : AtTip s genesis tip) {n : ℕ} (hn : 0 < n)
    (hhigh : s.height tip < n + nCheckpointSpan) : CheckSync s n = .ok true := by
  obtain ⟨i, hidx, hi⟩ := exists_index hs.anchored.known
  have hheight := height_eq hi
  obtain ⟨q, j, hloop, hj, hlow⟩ := @BlockTree.syncCheckpointLoop_isOk s tip genesis
    hs.anchored.tree i.nHeight (i.nHeight + 1) hs.anchored.known (by omega)
  have hsel : AutoSelectSyncCheckpoint s = .ok q := by
    unfold AutoSelectSyncCheckpoint
    rw [hs.anchored.best, hidx]
    exact hloop
  unfold CheckSync
  rw [hsel]
  simp only [bind, Except.bind, index_eq_ok.mpr hj]
  have hbelow : j.nHeight < n := by omega
  simp [hbelow, pure, Except.pure]

theorem Holds.fresh {top : Bool → ℕ} (hs : Holds time top s) (hh : h ≤ grownHeight)
    (htop : top side < h) : s.mapBlockIndex (grownHash side h) = none := by
  by_contra hne
  obtain ⟨side', h', htop', heq⟩ := hs.only _ hne
  obtain ⟨rfl, hzero | rfl⟩ := grownHash_inj hh (htop'.trans (hs.low side')) heq
  · omega
  · omega

theorem Grown.velocity (hs : Grown time m k s) (htop : h ≤ grownTop m k side)
    (hi : GrownEntry time side h i) (hspaced : Spaced time h) :
    checkVelocity grownEnv s i (grownBlock time side (h + 1)) = .ok () := by
  unfold checkVelocity
  split
  · rename_i hconstrained
    have hheight : 175 ≤ h + 1 := by
      simpa [Velocity_check, VELOCITY_TOGGLE, hi.height] using hconstrained
    obtain ⟨j, hj, -⟩ := hs.entry side (h - 1) (by omega)
    have hprev : s.index i.pprev = .ok j := by
      rw [hi.prev, if_neg (by omega)]
      exact index_eq_ok.mpr hj
    have htime := @grownBlock_time time side (h + 1) hspaced.low
    have htime' : i.GetBlockTime = time h := by
      unfold CBlockIndex.GetBlockTime
      rw [hi.time, toNat_ofNat_of_lt hspaced.low']
    have hspacing := hspaced.spacing hheight
    have hsmall := hspaced.low
    have hrate : (0 : ℤ) < VELOCITY_RATE := by decide
    have hmin : VELOCITY_MIN_RATE = 60 := rfl
    have hnow : grownEnv.time = 2 ^ 32 ∧ grownEnv.adjustedTime = 2 ^ 32 := ⟨rfl, rfl⟩
    have hmet : Velocity grownEnv s i (grownBlock time side (h + 1)) = .ok true := by
      unfold Velocity
      rw [hprev]
      simp only [bind, Except.bind, htime, htime']
      rw [if_pos ⟨hrate, by omega⟩, hnow.1, hnow.2, hmin]
      refine congrArg Except.ok (decide_eq_true ?_)
      constructor <;> omega
    rw [hmet]
    rfl
  · rfl

theorem grownBlock_checkPlace (hi : GrownEntry time side h i) (hspaced : Spaced time h) :
    checkPlace (grownContext time) grownEnv s i (grownBlock time side (h + 1)) = .ok () := by
  have htime := @grownBlock_time time side (h + 1) hspaced.low
  have htime' : i.GetBlockTime = time h := by
    unfold CBlockIndex.GetBlockTime
    rw [hi.time, toNat_ofNat_of_lt hspaced.low']
  have hdrift := hspaced.drift
  have hbound : nDrift = 300 := rfl
  unfold checkPlace
  rw [except_bind_eq_ok]
  refine ⟨(), ensure_eq_ok.mpr ?_, ?_⟩
  · rw [htime, htime', hbound]
    omega
  rw [except_bind_eq_ok]
  refine ⟨(), ensure_eq_ok.mpr fun tx htx => ?_, ensure_eq_ok.mpr rfl⟩
  obtain rfl := List.mem_singleton.mp htx
  -- The sequence number of its input makes the coinbase final.
  simp [IsFinalTx, grownCoinbase]

/-- The next block of the chain passes the checks of `AcceptBlock`. -/
theorem Grown.checkAccept_isOk (hs : Grown time m k s) (htop : grownTop m k side = h)
    (hh : h + 1 ≤ grownHeight) (hspaced : Spaced time h) (hhigh : m < h + 1 + nCheckpointSpan)
    (htgt : GetNextTargetRequired (grownContext time) s (grownHash side h) false
      = .ok grownBits) :
    checkAccept (grownContext time) grownEnv s (grownBlock time side (h + 1))
      = .ok (grownHash side (h + 1)) := by
  obtain ⟨i, hi, hent⟩ := hs.entry side h (by omega)
  obtain ⟨tip, htip, htipEntry⟩ := hs.entry false m le_rfl
  have hheight : i.nHeight = h := hent.height
  have htipHeight : s.height (grownHash false m) = m := by
    rw [height_eq htip]
    exact htipEntry.height
  have hlink : (grownBlock time side (h + 1)).hashPrevBlock = grownHash side h := rfl
  have hgethash : (grownContext time).GetHash (grownBlock time side (h + 1))
      = grownHash side (h + 1) := getHash_grownBlock hh
  unfold checkAccept
  rw [except_bind_eq_ok]
  refine ⟨(), ensure_eq_ok.mpr ?_, ?_⟩
  · rw [hgethash]
    exact hs.fresh hh (by omega)
  rw [hlink, hi]
  rw [except_bind_eq_ok]
  refine ⟨(), rfl, ?_⟩
  rw [except_bind_eq_ok]
  refine ⟨(), hs.velocity (by omega) hent hspaced, ?_⟩
  rw [except_bind_eq_ok]
  refine ⟨(), ?_, ?_⟩
  · unfold checkType
    rw [except_bind_eq_ok]
    refine ⟨(), ensure_eq_ok.mpr ?_, ?_⟩
    · rintro ⟨-, hend⟩
      unfold EndPoWBlock at hend
      unfold grownHeight at hh
      omega
    rw [except_bind_eq_ok]
    refine ⟨(), ensure_eq_ok.mpr (by simp [grownBlock_isProofOfStake]), ?_⟩
    show (ensure _ _ >>= fun _ => ensure _ _) = _
    rw [except_bind_eq_ok]
    exact ⟨(), ensure_eq_ok.mpr (by simp [grownBlock_isProofOfStake]),
      ensure_eq_ok.mpr (by simp [grownBlock_isProofOfStake])⟩
  rw [except_bind_eq_ok]
  refine ⟨(), ?_, ?_⟩
  · unfold checkTarget
    rw [hlink, grownBlock_isProofOfStake, htgt]
    exact ok_bind rfl (ensure_eq_ok.mpr rfl)
  rw [except_bind_eq_ok]
  refine ⟨(), grownBlock_checkPlace hent hspaced, ?_⟩
  rw [except_bind_eq_ok]
  refine ⟨grownHash side (h + 1), ?_, ?_⟩
  · unfold proofOf
    exact congrArg Except.ok hgethash
  rw [except_bind_eq_ok]
  refine ⟨(), ?_, rfl⟩
  unfold checkHeight
  rw [hheight, hs.atTip.checkSync (Nat.succ_pos h) (by omega)]
  show ensure ((heightScript (h + 1)).isPrefixOf (heightScript (h + 1) ++ [0, 0]) = true) _ = _
  exact ensure_eq_ok.mpr (List.isPrefixOf_iff_prefix.mpr (List.prefix_append _ _))

theorem Holds.indexed {top : Bool → ℕ} {s' : NodeState} {nFile nBlockPos : UInt32}
    (hs : Holds time top s) (hh : top side + 1 ≤ grownHeight)
    (h : Indexed (grownContext time) s s' nFile nBlockPos (grownBlock time side (top side + 1)) i)
    (hent : GrownEntry time side (top side + 1) i) :
    Holds time (update top side (top side + 1)) s' := by
  have hgethash : (grownContext time).GetHash (grownBlock time side (top side + 1))
      = grownHash side (top side + 1) := getHash_grownBlock hh
  have hself := h.entry_self
  rw [hgethash] at hself
  -- The other entries are under other hashes.
  have hother : ∀ p, p ≠ grownHash side (top side + 1) →
      s'.mapBlockIndex p = s.mapBlockIndex p := by
    intro p hp
    rw [← hgethash] at hp
    exact h.entry_of_ne hp
  have hfresh := @Holds.fresh time side (top side + 1) s top hs hh (Nat.lt_succ_self _)
  refine ⟨fun side' => ?_, fun side' h' hh' => ?_, fun p hp => ?_⟩
  · by_cases hside : side' = side
    · rw [hside, update_self]
      exact hh
    · rw [update_of_ne hside]
      exact hs.low side'
  · by_cases hold : h' ≤ top side'
    · obtain ⟨j, hj, hent'⟩ := hs.entry side' h' hold
      refine ⟨j, ?_, hent'⟩
      rw [hother _ fun heq => absurd (hj.symm.trans ((congrArg _ heq).trans hfresh)) (by simp)]
      exact hj
    · by_cases hside : side' = side
      · rw [hside, update_self] at hh'
        rw [hside] at hold
        obtain rfl : h' = top side + 1 := by omega
        rw [hside]
        exact ⟨i, hself, hent⟩
      · rw [update_of_ne hside] at hh'
        exact absurd hh' hold
  · by_cases hnew : p = grownHash side (top side + 1)
    · exact ⟨side, top side + 1, by rw [update_self], hnew⟩
    · rw [hother p hnew] at hp
      obtain ⟨side', h', hh', heq⟩ := hs.only p hp
      refine ⟨side', h', hh'.trans ?_, heq⟩
      by_cases hside : side' = side
      · rw [hside, update_self]
        omega
      · rw [update_of_ne hside]

theorem Grown.indexBlock_isOk (hs : Grown time m k s) (side : Bool)
    (hh : grownTop m k side + 1 ≤ grownHeight) :
    ∃ i s', indexBlock (grownContext time) (UInt32.ofNat (grownId side (grownTop m k side + 1))) 8
        (grownHash side (grownTop m k side + 1)) (grownBlock time side (grownTop m k side + 1)) s
          = (.ok i, s') ∧
      GrownEntry time side (grownTop m k side + 1) i ∧
      AtTip s' (grownHash false 0) (grownHash false m) ∧ s'.nBestChainTrust = grownTrust m ∧
      Holds time (update (grownTop m k) side (grownTop m k side + 1)) s' := by
  obtain ⟨j, hj, hprev⟩ := hs.entry side (grownTop m k side) le_rfl
  have hfresh : s.mapBlockIndex ((grownContext time).GetHash
      (grownBlock time side (grownTop m k side + 1))) = none := by
    rw [getHash_grownBlock hh]
    exact hs.fresh hh (Nat.lt_succ_self _)
  obtain ⟨i, hnew, hent⟩ := newBlockIndex_grown s.nBlockSequenceId hj hprev
  obtain ⟨s', hrun, hgen, hbest, hhash, htrust, hlims⟩ :=
    Chain.indexBlock_isOk hfresh hs.atTip.closed hnew
  have hindexed := (indexBlock_eq_ok hrun).1
  have hknown : s.mapBlockIndex (grownBlock time side (grownTop m k side + 1)).hashPrevBlock
      ≠ none := by
    show s.mapBlockIndex (grownHash side (grownTop m k side)) ≠ none
    simp [hj]
  have hid := grownId_bounds side hh
  have hfile : UInt32.ofNat (grownId side (grownTop m k side + 1)) ≠ 0xffffffff := by
    intro heq
    have hnat := congrArg UInt32.toNat heq
    rw [toNat_ofNat_of_lt (by omega)] at hnat
    change _ = 0xffffffff at hnat
    omega
  exact ⟨i, s', hrun, hent, hs.atTip.indexed hindexed hknown hfile hgen hbest hhash htrust hlims,
    htrust.trans hs.trust, hs.toHolds.indexed hh hindexed hent⟩

end

/-! ## Accepting the next block -/

theorem Grown.of_atTip (hs : AtTip s (grownHash false 0) (grownHash false m))
    (hholds : Holds time (grownTop m k) s) : Grown time m k s where
  toHolds := hholds
  atTip := hs
  trust := by
    obtain ⟨i, hi, htrust⟩ := hs.trust
    obtain ⟨j, hj, hent⟩ := hholds.entry false m le_rfl
    obtain rfl := Option.mem_unique hi hj
    exact htrust.trans hent.trust

theorem Grown.main (hs : Grown time m k s) (hh : m + 1 ≤ grownHeight) (hspaced : Spaced time m)
    (htgt : GetNextTargetRequired (grownContext time) s (grownHash false m) false
      = .ok grownBits) :
    ∃ s', AcceptBlock (grownContext time) grownEnv (UInt32.ofNat (grownId false (m + 1))) 8
      (grownBlock time false (m + 1)) s = (.ok (), s') ∧ Grown time (m + 1) k s' := by
  have hchk := @Grown.checkAccept_isOk time false m m k s hs rfl hh hspaced
    (by unfold nCheckpointSpan; omega) htgt
  obtain ⟨i, s₁, hidx, hent, htip, htrust, hholds⟩ := hs.indexBlock_isOk false hh
  have hgethash : (grownContext time).GetHash (grownBlock time false (m + 1))
      = grownHash false (m + 1) := getHash_grownBlock hh
  have htop : update (grownTop m k) false (m + 1) = grownTop (m + 1) k := by
    funext side
    cases side <;> rfl
  change Holds time (update (grownTop m k) false (m + 1)) s₁ at hholds
  rw [htop] at hholds
  -- The new block has more trust than the best one.
  have hmore : s₁.nBestChainTrust < i.nChainTrust := by
    rw [htrust, hent.trust]
    exact (grownTrust_lt_iff (hs.low false) hh).mpr (Nat.lt_succ_self m)
  obtain ⟨j, hj, hent'⟩ := hholds.entry false (m + 1) le_rfl
  obtain ⟨s', hset, htip'⟩ := htip.setBestChain_isOk hh hspaced.low hj hent'.prev rfl
  have hadd : AddToBlockIndex (grownContext time) grownEnv
      (UInt32.ofNat (grownId false (m + 1))) 8 (grownHash false (m + 1))
      (grownBlock time false (m + 1)) s = (.ok (), s') := by
    refine (bind_of_ok hidx).trans ?_
    show (if s₁.nBestChainTrust < i.nChainTrust then _ else _ : NodeM Unit) s₁ = _
    rw [if_pos hmore, hgethash]
    exact hset
  refine ⟨s', ?_, Grown.of_atTip htip' (hholds.congr ?_)⟩
  · have hread : Action.reading (fun s => checkAccept (grownContext time) grownEnv s
        (grownBlock time false (m + 1))) s = (.ok (grownHash false (m + 1)), s) :=
      Prod.ext hchk rfl
    exact (bind_of_ok hread).trans (reportAs_eq_ok.mpr hadd)
  · exact (keepsPlaces_setBestChain _ _ _ _).of_eq hset

theorem Grown.branch (hs : Grown time m k s) (hbehind : k + 1 ≤ m) (hspaced : Spaced time k)
    (hhigh : m < k + 1 + nCheckpointSpan)
    (htgt : GetNextTargetRequired (grownContext time) s (grownHash true k) false
      = .ok grownBits) :
    ∃ s', AcceptBlock (grownContext time) grownEnv (UInt32.ofNat (grownId true (k + 1))) 8
      (grownBlock time true (k + 1)) s = (.ok (), s') ∧ Grown time m (k + 1) s' := by
  have hh : k + 1 ≤ grownHeight := hbehind.trans (hs.low false)
  have hchk := @Grown.checkAccept_isOk time true k m k s hs rfl hh hspaced hhigh htgt
  obtain ⟨i, s₁, hidx, hent, htip, htrust, hholds⟩ := hs.indexBlock_isOk true hh
  have htop : update (grownTop m k) true (k + 1) = grownTop m (k + 1) := by
    funext side
    cases side <;> rfl
  change Holds time (update (grownTop m k) true (k + 1)) s₁ at hholds
  rw [htop] at hholds
  have hless : ¬s₁.nBestChainTrust < i.nChainTrust := by
    rw [htrust, hent.trust]
    intro hlt
    have hlow := (grownTrust_lt_iff (hs.low false) hh).mp hlt
    change m < k + 1 at hlow
    omega
  have hadd : AddToBlockIndex (grownContext time) grownEnv
      (UInt32.ofNat (grownId true (k + 1))) 8 (grownHash true (k + 1))
      (grownBlock time true (k + 1)) s = (.ok (), s₁) := by
    refine (bind_of_ok hidx).trans ?_
    show (if s₁.nBestChainTrust < i.nChainTrust then _ else _ : NodeM Unit) s₁ = _
    rw [if_neg hless]
    rfl
  have hread : Action.reading (fun s => checkAccept (grownContext time) grownEnv s
      (grownBlock time true (k + 1))) s = (.ok (grownHash true (k + 1)), s) :=
    Prod.ext hchk rfl
  exact ⟨s₁, (bind_of_ok hread).trans (reportAs_eq_ok.mpr hadd), Grown.of_atTip htip hholds⟩

/-! ## The genesis block -/

theorem setBestChain_genesis {ctx : Context} {env : Env} {block : CBlock}
    (hclosed : s.txdb.activeBatch = none) (hgen : s.pindexGenesisBlock = none)
    (hblock : ctx.GetHash block = ctx.hashGenesisBlock) (hi : s.mapBlockIndex p = some i)
    (hheight : i.nHeight = 0) :
    ∃ s', SetBestChain ctx env block p s = (.ok (), s') ∧ s'.mapBlockIndex = s.mapBlockIndex ∧
      s'.txdb.activeBatch = none ∧ s'.pindexGenesisBlock = some p ∧
      s'.hashBestChain = ctx.GetHash block ∧ s'.pindexBest = some p ∧
      s'.nBestChainTrust = i.nChainTrust ∧ s'.limits = (none, s.limits.2) := by
  -- Starting the chain commits the transaction.
  obtain ⟨s₁, hs₁⟩ : ∃ s₁, s₁ = { s.opened with
      txdb := s.opened.txdb.write .hashBestChain (ctx.GetHash block) } := ⟨_, rfl⟩
  have hopen : s₁.txdb.activeBatch.isSome := by
    rw [hs₁]
    exact (Store.perform_of_open (show s.opened.txdb.activeBatch.isSome from rfl) _).2
  have hstart : startChain (ctx.GetHash block) p s.opened
      = (.ok (), { s₁ with
          txdb := ⟨s₁.txdb.view, none⟩
          pindexGenesisBlock := some p }) := by
    have hwrite : WriteHashBestChain (ctx.GetHash block) s.opened = (.ok (), s₁) := by
      rw [hs₁]
      rfl
    exact (bind_of_ok hwrite).trans (bind_of_ok (txnCommit_of_open hopen))
  obtain ⟨s₂, hs₂⟩ : ∃ s₂, s₂ = { s₁ with
      txdb := ⟨s₁.txdb.view, none⟩
      pindexGenesisBlock := some p } := ⟨_, rfl⟩
  rw [← hs₂] at hstart
  have hmove : moveChain ctx env block p s.opened = (.ok (), s₂) := by
    unfold moveChain
    rw [if_pos ⟨hgen, hblock⟩]
    exact hstart
  -- Setting the globals.
  obtain ⟨pindexLastBest, nLastUpdate, hstatics⟩ := afterDownloadCheck_eq ctx env s₂
  obtain ⟨s₃, hs₃⟩ : ∃ s₃, s₃ = s₂.afterDownloadCheck ctx env := ⟨_, rfl⟩
  have hmodify : (Action.modify fun s => s.afterDownloadCheck ctx env : NodeM Unit) s₂
      = (.ok (), s₃) := by rw [Action.modify_apply, hs₃]
  rw [hstatics] at hs₃
  have hidx₃ : s₃.mapBlockIndex = s.mapBlockIndex := by
    rw [hs₃, hs₂, hs₁]
    rfl
  have hi₃ : s₃.mapBlockIndex p = some i := (congrFun hidx₃ p).trans hi
  obtain ⟨s', hset, hidx, htxdb, hgen', hhash, hbest, htrust, hlims⟩ :=
    @setBestBlock_isOk s₃ p i (ctx.GetHash block) hi₃ fun hne => absurd hheight hne
  refine ⟨s', ?_, hidx.trans hidx₃, ?_, ?_, hhash, hbest, htrust, ?_⟩
  · exact (bind_of_ok (txnBegin_of_closed hclosed)).trans <|
      (bind_of_ok hmove).trans <| (bind_of_ok hmodify).trans hset
  · rw [htxdb, hs₃, hs₂]
  · rw [hgen', hs₃, hs₂]
  · rw [hlims, hs₃, hs₂, hs₁]
    rfl

theorem exists_grown (time : ℕ → ℕ) :
    ∃ s, Initialised (grownContext time) s ∧ Grown time 0 0 s := by
  obtain ⟨i, hnew, hent⟩ := @newBlockIndex_genesis time emptyNode.nBlockSequenceId
  obtain ⟨s₁, hrun, hgen₁, -, -, htrust₁, hlims₁⟩ :=
    @indexBlock_isOk emptyNode i (grownContext time) 1 8 0 (grownBlock time false 0) rfl rfl hnew
  obtain ⟨hindexed, -⟩ := indexBlock_eq_ok hrun
  have hgethash : (grownContext time).GetHash (grownBlock time false 0) = grownHash false 0 :=
    getHash_grownBlock (Nat.zero_le _)
  have hself := hindexed.entry_self
  obtain ⟨s, hset, hidx, hclosed, hgen, hhash, hbest, htrust, hlims⟩ :=
    @setBestChain_genesis s₁ i _ (grownContext time) grownEnv (grownBlock time false 0)
      hindexed.closed hgen₁ rfl hself hent.height
  have hmore : s₁.nBestChainTrust < i.nChainTrust := by
    rw [htrust₁, hent.trust]
    decide
  have hadd : AddToBlockIndex (grownContext time) grownEnv 1 8 0 (grownBlock time false 0) emptyNode
      = (.ok (), s) := by
    refine (bind_of_ok hrun).trans ?_
    show (if s₁.nBestChainTrust < i.nChainTrust then _ else _ : NodeM Unit) s₁ = _
    rw [if_pos hmore, hgethash]
    exact hset
  have hplace : SamePlace s₁ s := SamePlace.of_eq hidx
  have htree : BlockTree s (grownHash false 0) := by
    have := hindexed.blockTree_genesis rfl
    exact this.congr hplace
  have hi : s.mapBlockIndex (grownHash false 0) = some i := (congrFun hidx _).trans hself
  have hroot : s.parent (grownHash false 0) = none := (parent_eq hi).trans hent.prev
  have honly : ∀ p, s.mapBlockIndex p ≠ none → p = grownHash false 0 := by
    intro p hp
    by_contra hne
    rw [hidx, hindexed.entry_of_ne (by rwa [hgethash])] at hp
    exact hp rfl
  refine ⟨s, ⟨⟨emptyNode, grownEnv, 1, 8, 0, grownBlock time false 0,
    ⟨rfl, rfl, rfl, fun _ => rfl⟩, hgethash, ?_, hadd⟩, ?_⟩, ?_⟩
  · exact @grownBlock_stored time false 0 (Nat.zero_le _)
  · rw [hgen]
    simp
  · refine Grown.of_atTip ⟨⟨htree, ?_, hgen, hbest, ?_, ?_⟩, ⟨?_, ?_, ?_⟩, hclosed,
      hhash.trans hgethash, i, hi, htrust⟩ ⟨fun side => ?_, fun side h hh => ?_, fun p hp => ?_⟩
    · intro a b hb hab
      obtain rfl := IsAncestor.eq_of_root hb hroot
      simp [hroot] at hab
    · simp [hi]
    · intro p j hj
      obtain rfl := honly p (by simp [hj])
      obtain rfl := Option.mem_unique hi hj
      rw [hent.file]
      decide
    · intro l hl
      rw [show s.pblockindexFBBHLast = none from (congrArg Prod.fst hlims :)] at hl
      simp at hl
    · rw [show s.MAX_BLOCK_SIZE = 20512000 from
        (congrArg (fun l => l.2.1) (hlims.trans (congrArg _ (congrArg Prod.snd hlims₁))) :)]
      decide
    · rw [show s.MAX_BLOCK_SIGOPS = 20512000 / 50 from
        (congrArg (fun l => l.2.2) (hlims.trans (congrArg _ (congrArg Prod.snd hlims₁))) :)]
      decide
    · cases side <;> exact Nat.zero_le _
    · obtain rfl : h = 0 := by cases side <;> exact Nat.le_zero.mp hh
      refine ⟨i, ?_, ?_⟩
      · rw [grownHash_zero]
        exact hi
      · cases side
        · exact hent
        · exact ⟨hent.height, hent.prev, hent.file, hent.pos, hent.time, hent.bits,
            hent.kind, hent.trust⟩
    · exact ⟨false, 0, le_rfl, honly p hp⟩

end ZalemCoin.Chain
