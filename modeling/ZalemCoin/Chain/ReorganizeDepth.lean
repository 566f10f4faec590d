import ZalemCoin.Chain.GrownSwitch

/-!
# How deep a switch reaches

`AcceptBlock` rejects a block that is as low as the synchronized checkpoint, which is five thousand
blocks below the best one. It asks only for the height of the block itself: a branch that has left
the best chain early may go on to grow, and when it has more trust, the switch disconnects all of
the old chain down to the fork. A block is disconnected in favour of a branch only if that branch
had a block at its height, or below it, in time.
-/

namespace ZalemCoin.Chain

open Lib
open Lib.Action (bind_of_ok)

/-! ## Switches of a run -/

/-- A call of `AcceptBlock` reaches a switch, from the best chain to that of a block, which
succeeds and disconnects a block. -/
def Disconnects (ctx : Context) (env : Env) (nFile nBlockPos : UInt32) (block : CBlock)
    (s : NodeState) (target b : UInt256) : Prop :=
  ∃ hashProof i s₁ rest switch s₂,
    checkAccept ctx env s block = .ok hashProof ∧
    indexBlock ctx nFile nBlockPos hashProof block s = (.ok i, s₁) ∧
    s₁.nBestChainTrust < i.nChainTrust ∧
    ¬(s₁.pindexGenesisBlock = none ∧ ctx.GetHash block = ctx.hashGenesisBlock) ∧
    block.hashPrevBlock ≠ s₁.hashBestChain ∧
    findPostponed s₁.opened (ctx.GetHash block) = .ok (target, rest) ∧
    findSwitch s₁.opened target = .ok switch ∧
    Reorganize ctx env target s₁.opened = (.ok (), s₂) ∧
    b ∈ switch.vDisconnect

variable {ctx : Context} {env : Env} {nFile nBlockPos : UInt32} {block : CBlock} {s s' : NodeState}
  {target b : UInt256}

theorem acceptBlock_switch {hashProof : UInt256} {i : CBlockIndex} {s₁ s₂ : NodeState}
    {rest : List UInt256} (hchk : checkAccept ctx env s block = .ok hashProof)
    (hidx : indexBlock ctx nFile nBlockPos hashProof block s = (.ok i, s₁))
    (htrust : s₁.nBestChainTrust < i.nChainTrust)
    (hgen : ¬(s₁.opened.pindexGenesisBlock = none ∧ ctx.GetHash block = ctx.hashGenesisBlock))
    (hprev : block.hashPrevBlock ≠ s₁.opened.hashBestChain)
    (hpost : findPostponed s₁.opened (ctx.GetHash block) = .ok (target, rest))
    (hreorganize : Reorganize ctx env target s₁.opened = (.ok (), s₂)) :
    AcceptBlock ctx env nFile nBlockPos block s =
      reportAs "AcceptBlock() : AddToBlockIndex failed" (do
        connectPostponed ctx env rest
        Action.modify fun s => s.afterDownloadCheck ctx env
        setBestBlock (ctx.GetHash block) (ctx.GetHash block)) s₂ := by
  have hread : Action.reading (fun s => checkAccept ctx env s block) s = (.ok hashProof, s) :=
    Prod.ext hchk rfl
  have hclosed := (indexBlock_eq_ok hidx).1.closed
  have hread₁ : Action.reading (fun s => findPostponed s (ctx.GetHash block)) s₁.opened
      = (.ok (target, rest), s₁.opened) := Prod.ext hpost rfl
  -- The switch is the one of the three ways of moving the chain that is taken.
  have hmove : moveChain ctx env block (ctx.GetHash block) s₁.opened
      = connectPostponed ctx env rest s₂ := by
    unfold moveChain
    rw [if_neg hgen, if_neg hprev]
    have hhandle : Action.handle (Reorganize ctx env target)
        (abandon (ctx.GetHash block) "SetBestChain() : Reorganize failed") s₁.opened
          = (.ok (), s₂) := Action.handle_eq_ok.mpr (.inl hreorganize)
    exact (bind_of_ok hread₁).trans (bind_of_ok hhandle)
  have hadd : AddToBlockIndex ctx env nFile nBlockPos hashProof block s = (do
      connectPostponed ctx env rest
      Action.modify fun s => s.afterDownloadCheck ctx env
      setBestBlock (ctx.GetHash block) (ctx.GetHash block) : NodeM Unit) s₂ := by
    refine (bind_of_ok hidx).trans ?_
    show (if s₁.nBestChainTrust < i.nChainTrust then _ else _ : NodeM Unit) s₁ = _
    rw [if_pos htrust]
    refine (bind_of_ok (txnBegin_of_closed hclosed)).trans ?_
    rw [Action.bind_apply, hmove]
    rfl
  refine (bind_of_ok hread).trans ?_
  unfold reportAs Action.handle
  rw [hadd]

theorem Disconnects.indexed {r : Except Failure Unit}
    (h : Disconnects ctx env nFile nBlockPos block s target b)
    (hcall : AcceptBlock ctx env nFile nBlockPos block s = (r, s')) :
    ∃ i s₁ switch, Indexed ctx s s₁ nFile nBlockPos block i ∧ SamePlace s₁ s' ∧
      findSwitch s₁.opened target = .ok switch ∧ b ∈ switch.vDisconnect := by
  obtain ⟨hashProof, i, s₁, rest, switch, s₂, hchk, hidx, htrust, -, -, -, hsw, -, hb⟩ := h
  refine ⟨i, s₁, switch, (indexBlock_eq_ok hidx).1, ?_, hsw, hb⟩
  have hread : Action.reading (fun s => checkAccept ctx env s block) s = (.ok hashProof, s) :=
    Prod.ext hchk rfl
  have hkeeps : KeepsPlaces (SetBestChain ctx env block (ctx.GetHash block)) :=
    keepsPlaces_setBestChain ctx env block _
  have hadd : AddToBlockIndex ctx env nFile nBlockPos hashProof block s
      = SetBestChain ctx env block (ctx.GetHash block) s₁ := by
    refine (bind_of_ok hidx).trans ?_
    show (if s₁.nBestChainTrust < i.nChainTrust then _ else _ : NodeM Unit) s₁ = _
    rw [if_pos htrust]
  have hcall' := (bind_of_ok hread).symm.trans hcall
  -- The report of a failure leaves the state to what the failed call made of it.
  rw [show s' = (reportAs "AcceptBlock() : AddToBlockIndex failed"
    (AddToBlockIndex ctx env nFile nBlockPos hashProof block) s).2 from
      (congrArg Prod.snd hcall' :).symm]
  unfold reportAs Action.handle
  rw [hadd]
  have hplace := hkeeps s₁
  rcases hset : SetBestChain ctx env block (ctx.GetHash block) s₁ with ⟨_ | _, t⟩ <;>
    rw [hset] at hplace <;> exact hplace

/-! ## Arrivals -/

variable {offered : NodeState → CBlock → Prop} {genesis c : UInt256}

section

variable {t t' : NodeState} {p : UInt256}

theorem exists_step_to {σ : Type} {step : σ → σ → Prop} {P : σ → Prop} {a b : σ}
    (h : Relation.ReflTransGen step a b) (ha : ¬P a) (hb : P b) :
    ∃ t t', Relation.ReflTransGen step a t ∧ step t t' ∧ Relation.ReflTransGen step t' b ∧
      ¬P t ∧ P t' := by
  induction h with
  | refl => exact absurd hb ha
  | @tail u v hu huv ih =>
    by_cases hPu : P u
    · obtain ⟨t, t', hat, htt, htu, ht, ht'⟩ := ih hPu
      exact ⟨t, t', hat, htt, htu.tail huv, ht, ht'⟩
    · exact ⟨u, v, hu, huv, Relation.ReflTransGen.refl, hPu, hb⟩

theorem AcceptStep.keeps_height (h : AcceptStep ctx offered s s') (hp : s.mapBlockIndex p ≠ none) :
    s'.mapBlockIndex p ≠ none ∧ s'.height p = s.height p := by
  rcases h.places with hsame | ⟨block, i, -, -, ⟨s₁, nFile, nBlockPos, hindexed, hplace⟩, -⟩
  · exact ⟨(hsame.ne_none_iff p).mpr hp, hsame.height_eq p⟩
  · have hne : p ≠ ctx.GetHash block := by
      rintro rfl
      exact hp hindexed.fresh
    rw [hplace.ne_none_iff, hplace.height_eq, hindexed.entry_of_ne hne, hindexed.height_of_ne hne]
    exact ⟨hp, rfl⟩

theorem height_eq_of_run (h : Relation.ReflTransGen (AcceptStep ctx offered) s s')
    (hp : s.mapBlockIndex p ≠ none) :
    s'.mapBlockIndex p ≠ none ∧ s'.height p = s.height p := by
  induction h with
  | refl => exact ⟨hp, rfl⟩
  | tail _ hstep ih =>
    obtain ⟨hknown, hheight⟩ := hstep.keeps_height ih.1
    exact ⟨hknown, hheight.trans ih.2⟩

theorem Admitted.best_isOk {prevBlock : CBlockIndex} (h : Admitted ctx env s block prevBlock) :
    ∃ best, s.index s.pindexBest = .ok best := by
  obtain ⟨p, hsel, -⟩ := bind_ok h.synced
  obtain ⟨best, hbest, -⟩ := bind_ok hsel
  exact ⟨best, hbest⟩

theorem AcceptStep.arrival (h : AcceptStep ctx offered t t') (htree : BlockTree t genesis)
    (hfresh : t.mapBlockIndex c = none) (hknown : t'.mapBlockIndex c ≠ none) :
    ∃ best, t.index t.pindexBest = .ok best ∧ best.nHeight < t'.height c + nCheckpointSpan := by
  rcases h.places with hsame | ⟨block, i, -, ⟨env, prevBlock, hadm⟩,
    ⟨s₁, nFile, nBlockPos, hindexed, hplace⟩, -⟩
  · exact absurd hfresh ((hsame.ne_none_iff c).mp hknown)
  · have hc : c = ctx.GetHash block := by
      by_contra hne
      rw [hplace.ne_none_iff, hindexed.entry_of_ne hne] at hknown
      exact hknown hfresh
    obtain ⟨best, hbest⟩ := hadm.best_isOk
    refine ⟨best, hbest, ?_⟩
    have hlow := hadm.height_lt htree hbest
    have hprev : s₁.height (ctx.GetHash block) = prevBlock.nHeight + 1 := by
      rw [height_eq hindexed.entry_self, hindexed.height, hadm.prev]
      rfl
    rw [hplace.height_eq, hc, hprev]
    exact hlow

theorem BlockTree.exists_ancestor (htree : BlockTree s genesis) {n : ℕ}
    (hp : s.mapBlockIndex p ≠ none) (hn : n ≤ s.height p) :
    ∃ q, IsAncestor s.parent q p ∧ s.height q = n := by
  induction hk : s.height p - n generalizing p with
  | zero => exact ⟨p, IsAncestor.refl _ _, by omega⟩
  | succ k ih =>
    rcases hpar : s.parent p with _ | q
    · have hroot := htree.root p hp hpar
      have hlow := htree.low
      rw [← hroot] at hlow
      omega
    · have hstep := htree.heights p q hpar
      obtain ⟨r, hr, hheight⟩ := ih (htree.known p q hpar) (by omega) (by omega)
      exact ⟨r, Relation.ReflTransGen.head hpar hr, hheight⟩

end

/-! ## The depth of a switch -/

section

variable {r : Except Failure Unit} {s₀ : NodeState} {tip : UInt256}

/-- The chain of a block that a call switches to has, at the height of a block that is disconnected
or below it, a block that is not on the old chain, unless the new block is on top of the
disconnected one. -/
theorem Disconnects.exists_rival (h : Disconnects ctx env nFile nBlockPos block s target b)
    (hcall : AcceptBlock ctx env nFile nBlockPos block s = (r, s')) (htree : BlockTree s genesis)
    (hgen : s.mapBlockIndex genesis ≠ none) (hbest : s.pindexBest = some tip)
    (htip : s.mapBlockIndex tip ≠ none)
    (hprev : s.mapBlockIndex block.hashPrevBlock ≠ none)
    (hnot : ¬IsAncestor s'.parent b (ctx.GetHash block)) :
    ∃ c, IsAncestor s'.parent c (ctx.GetHash block) ∧ ¬IsAncestor s'.parent c tip ∧
      s'.mapBlockIndex c ≠ none ∧ s'.height c ≤ s'.height b := by
  obtain ⟨i, s₁, switch, hindexed, hplace, hsw, hb⟩ := h.indexed hcall
  have htree₁ := hindexed.blockTree htree hgen hprev
  have hbest₁ : s₁.opened.pindexBest = some tip := by
    have hpart : s₁.pindexBest = s.pindexBest := (congrArg (fun b => b.2.1) hindexed.best :)
    exact hpart.trans hbest
  -- The disconnected block is on the old best chain.
  have hopened : HeightsOk s₁.opened := htree₁.heights
  obtain ⟨f, hdis, -, -⟩ := findSwitch_eq_ok hopened hbest₁ hsw
  have hbtip : IsAncestor s₁.parent b tip := hdis.isAncestor_of_mem hb
  have hself : s₁.mapBlockIndex (ctx.GetHash block) ≠ none := by simp [hindexed.entry_self]
  rw [hplace.parent_eq] at hnot ⊢
  -- At its height, or at the top, the new chain has another block.
  obtain ⟨c, hc, hheight⟩ := htree₁.exists_ancestor hself
    (min_le_left (s₁.height (ctx.GetHash block)) (s₁.height b))
  refine ⟨c, hc, fun hctip => ?_, ?_, ?_⟩
  · rcases Nat.le_total (s₁.height b) (s₁.height (ctx.GetHash block)) with hhigh | hlow
    · rw [min_eq_right hhigh] at hheight
      have heq : c = b := IsAncestor.eq_of_height_eq htree₁.heights hctip hbtip hheight
      exact hnot (heq ▸ hc)
    · rw [min_eq_left hlow] at hheight
      have heq : c = ctx.GetHash block :=
        IsAncestor.eq_of_height_eq htree₁.heights hc (IsAncestor.refl _ _) hheight
      -- The new block was not known before, so that it is on no known chain.
      have hold := (hindexed.isAncestor_iff htree.known htip).mp hctip
      exact htree.known_of_isAncestor htip hold (heq ▸ hindexed.fresh)
  · rw [hplace.ne_none_iff]
    exact htree₁.known_of_isAncestor hself hc
  · rw [hplace.height_eq, hplace.height_eq, hheight]
    exact min_le_right _ _

/-- In a run, the chain of a block has left the old best chain, at the height of a block or below it,
with a block that was accepted while the best block was less than the depth of the synchronized
checkpoint above. -/
def LeftInTime (ctx : Context) (offered : NodeState → CBlock → Prop) (s₀ s s' : NodeState)
    (p b : UInt256) : Prop :=
  ∃ c t t' best, IsAncestor s'.parent c p ∧
    (∀ tip, s.pindexBest = some tip → ¬IsAncestor s'.parent c tip) ∧
    s'.height c ≤ s'.height b ∧
    Relation.ReflTransGen (AcceptStep ctx offered) s₀ t ∧ AcceptStep ctx offered t t' ∧
    Relation.ReflTransGen (AcceptStep ctx offered) t' s' ∧
    t.mapBlockIndex c = none ∧ t'.mapBlockIndex c ≠ none ∧
    t.index t.pindexBest = .ok best ∧ best.nHeight < s'.height b + nCheckpointSpan

/-- In every run, a switch disconnects a block only in favour of a block that is on top of it, or of
a chain that left the best one, at the height of the block or below it, in time. -/
theorem accepts_disconnects (hstart : Initialised ctx s₀)
    (hrun : Relation.ReflTransGen (AcceptStep ctx offered) s₀ s)
    (hstored : ctx.files.block nFile nBlockPos = some block) (hoffered : offered s block)
    (hcall : AcceptBlock ctx env nFile nBlockPos block s = (r, s')) (hret : Returns r)
    (hdis : Disconnects ctx env nFile nBlockPos block s target b) :
    IsAncestor s'.parent b (ctx.GetHash block) ∨
      LeftInTime ctx offered s₀ s s' (ctx.GetHash block) b := by
  by_cases hon : IsAncestor s'.parent b (ctx.GetHash block)
  · exact Or.inl hon
  · right
    obtain ⟨g, htree, hgenesis⟩ := Accepts.blockTree ⟨s₀, hstart, hrun⟩
    obtain ⟨hashProof, -, -, -, -, -, hcheck, -⟩ := id hdis
    obtain ⟨prevBlock, hadmitted⟩ := checkAccept_eq_ok hcheck
    obtain ⟨best, hbest⟩ := hadmitted.best_isOk
    obtain ⟨tip, htip⟩ : ∃ tip, s.pindexBest = some tip := by
      rcases hnone : s.pindexBest with _ | tip
      · rw [hnone] at hbest
        simp [NodeState.index] at hbest
      · exact ⟨tip, rfl⟩
    rw [htip] at hbest
    have htipKnown : s.mapBlockIndex tip ≠ none := by simp [index_eq_ok.mp hbest]
    obtain ⟨c, hc, hctip, hcknown, hheight⟩ := hdis.exists_rival hcall htree hgenesis htip
      htipKnown (by simp [hadmitted.prev]) hon
    have hlast : AcceptStep ctx offered s s' := AcceptStep.accept hstored hoffered hcall hret
    have hrun' : Relation.ReflTransGen (AcceptStep ctx offered) s₀ s' := hrun.tail hlast
    -- The rival is not the genesis block, which all chains have in common, so that it has arrived.
    have hfresh : s₀.mapBlockIndex c = none := by
      by_contra hknown
      have hroot := hstart.parent_eq_none c
      obtain ⟨g₀, htree₀, hg₀⟩ := hstart.blockTree
      have hcg := htree₀.root c hknown hroot
      obtain ⟨g', htree', hg'⟩ := Accepts.blockTree ⟨s₀, hstart, hrun'⟩
      have hlow : s'.height c = 0 := by
        rw [(height_eq_of_run hrun' hknown).2, hcg]
        exact htree₀.low
      have htip' := (hlast.keeps_height htipKnown).1
      have hgtip := htree'.genesis_isAncestor htip'
      have hgc := htree'.genesis_isAncestor hcknown
      have heq : g' = c := IsAncestor.eq_of_height_eq htree'.heights hgc (IsAncestor.refl _ _)
        (htree'.low.trans hlow.symm)
      exact hctip (heq ▸ hgtip)
    obtain ⟨t, t', hbefore, hstep, hafter, ht, ht'⟩ :=
      @exists_step_to _ _ (fun u => u.mapBlockIndex c ≠ none) _ _ hrun' (not_not.mpr hfresh) hcknown
    obtain ⟨gt, httree, -⟩ := Accepts.blockTree ⟨s₀, hstart, hbefore⟩
    have ht : t.mapBlockIndex c = none := not_not.mp ht
    obtain ⟨best', hbest', hlow⟩ := hstep.arrival httree ht ht'
    have hsame := (height_eq_of_run hafter ht').2
    refine ⟨c, t, t', best', hc, fun tip' htip' => ?_, hheight, hbefore, hstep, hafter, ht, ht',
      hbest', by omega⟩
    obtain rfl := Option.some.inj (htip.symm.trans htip')
    exact hctip

end

/-! ## A switch that reaches deeper -/

variable {time : ℕ → ℕ} {top : Bool → ℕ} {side : Bool} {h n m : ℕ}

theorem Holds.isAncestor (hs : Holds time top s) (hh : h ≤ n) (hn : n ≤ top side) :
    IsAncestor s.parent (grownHash side h) (grownHash side n) := by
  induction n with
  | zero =>
    obtain rfl : h = 0 := by omega
    exact IsAncestor.refl _ _
  | succ n ih =>
    rcases Nat.lt_or_ge n h with hlt | hle
    · obtain rfl : h = n + 1 := by omega
      exact IsAncestor.refl _ _
    · obtain ⟨i, hi, hent⟩ := hs.entry side (n + 1) hn
      exact Relation.ReflTransGen.head ((parent_eq hi).trans hent.prev) (ih hle (by omega))

theorem Holds.eq_of_isAncestor (hs : Holds time top s) (hn : n ≤ top side)
    (hc : IsAncestor s.parent c (grownHash side n)) : ∃ h ≤ n, c = grownHash side h := by
  induction hc with
  | refl => exact ⟨n, le_rfl, rfl⟩
  | tail _ hstep ih =>
    obtain ⟨h, hh, rfl⟩ := ih
    obtain ⟨i, hi, hent⟩ := hs.entry side h (hh.trans hn)
    rw [parent_eq hi, hent.prev] at hstep
    split at hstep
    · simp at hstep
    · exact ⟨h - 1, by omega, (Option.some.inj hstep).symm⟩

theorem Grown.disconnects (hs : Grown evenTime m m s) (hm : m + 1 ≤ grownHeight) (hh : 0 < h)
    (hhm : h ≤ m) :
    Disconnects (grownContext evenTime) grownEnv (UInt32.ofNat (grownId true (m + 1))) 8
        (grownBlock evenTime true (m + 1)) s (grownHash true (m + 1)) (grownHash false h) ∧
      ∃ s', AcceptBlock (grownContext evenTime) grownEnv (UInt32.ofNat (grownId true (m + 1))) 8
        (grownBlock evenTime true (m + 1)) s = (.ok (), s') := by
  have hchk := @Grown.checkAccept_isOk evenTime true m m m s hs rfl hm (evenTime_spaced hm)
    (by unfold nCheckpointSpan; omega) (hs.target_even le_rfl)
  obtain ⟨i, s₁, hidx, hent, htip, htrust, hholds⟩ := hs.indexBlock_isOk true hm
  have hgethash : (grownContext evenTime).GetHash (grownBlock evenTime true (m + 1))
      = grownHash true (m + 1) := getHash_grownBlock hm
  have htop : Function.update (grownTop m m) true (m + 1) = grownTop m (m + 1) := by
    funext side
    cases side <;> rfl
  change Holds evenTime (Function.update (grownTop m m) true (m + 1)) s₁ at hholds
  rw [htop] at hholds
  obtain ⟨j, hj, hentryTip⟩ := hholds.entry false m le_rfl
  obtain ⟨new, hnew, hentryNew⟩ := hholds.entry true (m + 1) le_rfl
  obtain ⟨prev, hprev, hentryPrev⟩ := hholds.entry true m (Nat.le_succ m)
  have hmore : s₁.nBestChainTrust < i.nChainTrust := by
    rw [htrust, hent.trust]
    exact (grownTrust_lt_iff (hs.low false) hm).mpr (Nat.lt_succ_self m)
  have hgen : ¬(s₁.opened.pindexGenesisBlock = none ∧
      (grownContext evenTime).GetHash (grownBlock evenTime true (m + 1))
        = (grownContext evenTime).hashGenesisBlock) := by
    rintro ⟨hnone, -⟩
    exact absurd (htip.anchored.started.symm.trans hnone) (by simp)
  have hbr : (grownBlock evenTime true (m + 1)).hashPrevBlock ≠ s₁.opened.hashBestChain := by
    intro heq
    have heq' : grownHash true m = grownHash false m := heq.trans htip.hashBestChain
    have hlow : m ≤ grownHeight := hs.low false
    obtain ⟨-, hzero | hside⟩ := grownHash_inj hlow hlow heq'
    · omega
    · simp at hside
  -- The block before the new one has no more trust than the best block, so that nothing is
  -- postponed.
  have hpost : findPostponed s₁.opened ((grownContext evenTime).GetHash
      (grownBlock evenTime true (m + 1))) = .ok (grownHash true (m + 1), []) := by
    have hbest : s₁.opened.index s₁.opened.pindexBest = .ok j := by
      show s₁.opened.index s₁.pindexBest = .ok j
      rw [htip.anchored.best]
      exact index_eq_ok.mpr hj
    have hindexNew : s₁.opened.index (some (grownHash true (m + 1))) = .ok new :=
      index_eq_ok.mpr hnew
    have hindexPrev : s₁.opened.index (some (grownHash true m)) = .ok prev := index_eq_ok.mpr hprev
    have hlink : new.pprev = some (grownHash true m) := hentryNew.prev
    have hsame : ¬j.nChainTrust < prev.nChainTrust := by
      rw [hentryTip.trust, hentryPrev.trust]
      exact BitVec.lt_irrefl _
    rw [hgethash]
    unfold findPostponed findIntermediate
    simp only [bind, Except.bind, hbest, hindexNew, hlink, hindexPrev]
    rw [if_neg hsame]
    rfl
  -- The switch.
  have hplace : SamePlace s₁ s₁.opened := SamePlace.of_eq rfl
  have hholds' := hholds.congr hplace
  have hopened : Anchored s₁.opened (grownHash false 0) (grownHash false m) :=
    ⟨htip.anchored.tree.congr hplace, htip.anchored.links, htip.anchored.started,
      htip.anchored.best, htip.anchored.known, htip.anchored.onDisk⟩
  have hwork : Workable s₁.opened.parent (grownHash false m) s₁.opened := htip.work.congr rfl
  have hknown : s₁.opened.mapBlockIndex (grownHash true (m + 1)) ≠ none := by
    show s₁.mapBlockIndex _ ≠ none
    simp [hnew]
  have hheight : s₁.opened.height (grownHash true (m + 1))
      ≤ s₁.opened.height (grownHash false m) + NUM_BLOCKS_FOR_MEDIAN_BLOCK := by
    rw [hplace.height_eq, hplace.height_eq, height_eq hnew, height_eq hj, hentryNew.height,
      hentryTip.height]
    show m + 1 ≤ m + 25
    omega
  obtain ⟨s₂, hreorganize⟩ := hholds'.reorganize_isOk (fun h hh => by
    unfold grownHeight at hh
    unfold evenTime
    omega) hopened hwork rfl hknown hheight
  obtain ⟨f, switch, hsw, hfork, hdis, -⟩ :=
    hopened.tree.findSwitch_isOk hopened.known hknown hopened.best
  -- The block is on the main branch only, so that it is not below the fork.
  have hmem : grownHash false h ∈ switch.vDisconnect := by
    by_contra hnot
    have hbelow := hdis.isAncestor_of_not_mem (hholds'.isAncestor hhm le_rfl) hnot
    obtain ⟨h', hh', heq⟩ := hholds'.eq_of_isAncestor le_rfl (hfork.right.trans hbelow)
    obtain ⟨-, hzero | hside⟩ := grownHash_inj (hhm.trans (hs.low false))
      (hh'.trans hm) heq
    · omega
    · simp at hside
  refine ⟨⟨_, i, s₁, [], switch, s₂, hchk, hidx, hmore, hgen, hbr, hpost, hsw,
    hreorganize, hmem⟩, ?_⟩
  -- Nothing is postponed, so that all that is left is to set the globals.
  have hplace₂ : SamePlace s₁ s₂ := hplace.trans ((keepsPlaces_reorganize _ _ _).of_eq hreorganize)
  obtain ⟨pindexLastBest, nLastUpdate, hstatics⟩ :=
    afterDownloadCheck_eq (grownContext evenTime) grownEnv s₂
  obtain ⟨s₃, hs₃⟩ : ∃ s₃, s₃ = s₂.afterDownloadCheck (grownContext evenTime) grownEnv := ⟨_, rfl⟩
  have hplace₃ : SamePlace s₁ s₃ := by
    rw [hs₃, hstatics]
    exact hplace₂
  obtain ⟨k, hk, hsame⟩ := hplace₃.symm.exists_eq hnew
  have hlink : k.pprev = some (grownHash true m) :=
    (congrArg CBlockIndex.pprev hsame :).symm.trans hentryNew.prev
  obtain ⟨l, hl, -⟩ := exists_index ((hplace₃.ne_none_iff (grownHash true m)).mpr (by simp [hprev]))
  obtain ⟨s', hset, -⟩ := setBestBlock_isOk ((grownContext evenTime).GetHash
    (grownBlock evenTime true (m + 1))) hk fun _ => ⟨l, by rw [hlink]; exact hl⟩
  refine ⟨s', (acceptBlock_switch hchk hidx hmore hgen hbr hpost
    hreorganize).trans (reportAs_eq_ok.mpr ?_)⟩
  have hmodify : (Action.modify fun s => s.afterDownloadCheck (grownContext evenTime) grownEnv :
      NodeM Unit) s₂ = (.ok (), s₃) := by rw [Action.modify_apply, hs₃]
  have hnone : connectPostponed (grownContext evenTime) grownEnv [] s₂ = (.ok (), s₂) := rfl
  refine (bind_of_ok hnone).trans ((bind_of_ok hmodify).trans ?_)
  rw [hgethash] at hset ⊢
  exact hset

/-- A node can come to have both branches up to a height at which the first blocks are deeper than the
synchronized checkpoint. -/
theorem exists_deepBranches :
    ∃ s₀ s, Initialised (grownContext evenTime) s₀ ∧
      Relation.ReflTransGen (AcceptStep (grownContext evenTime) anyBlock) s₀ s ∧
      Grown evenTime 5001 5001 s := by
  obtain ⟨s₁, hrun₁, hs₁⟩ := @exists_branches 5000 5000 le_rfl le_rfl
  have hheight : 5000 + 1 ≤ grownHeight := by decide
  obtain ⟨s₂, hacc₂, hs₂⟩ := hs₁.main hheight (evenTime_spaced hheight) (hs₁.target_even le_rfl)
  obtain ⟨s₃, hacc₃, hs₃⟩ :=
    hs₂.branch le_rfl (evenTime_spaced hheight) (by decide) (hs₂.target_even le_rfl)
  obtain ⟨s₀, hstart, hrun⟩ := (hrun₁.grow hheight trivial hacc₂).grow hheight trivial hacc₃
  exact ⟨s₀, s₃, hstart, hrun, hs₃⟩

/-- The first block of the side branch was accepted in time. -/
theorem deepBranches_leftInTime :
    ∃ s₀ s s', AcceptBlock (grownContext evenTime) grownEnv (UInt32.ofNat (grownId true 5002)) 8
        (grownBlock evenTime true 5002) s = (.ok (), s') ∧
      (IsAncestor s'.parent (grownHash false 1)
          ((grownContext evenTime).GetHash (grownBlock evenTime true 5002)) ∨
        LeftInTime (grownContext evenTime) anyBlock s₀ s s'
          ((grownContext evenTime).GetHash (grownBlock evenTime true 5002))
          (grownHash false 1)) := by
  obtain ⟨s₀, s, hstart, hrun, hs⟩ := exists_deepBranches
  obtain ⟨hdis, s', hcall⟩ :=
    hs.disconnects (show 5001 + 1 ≤ grownHeight by decide) (Nat.succ_pos 0) (by decide)
  exact ⟨s₀, s, s', hcall, accepts_disconnects hstart hrun
    (grownBlock_stored (show 5002 ≤ grownHeight by decide)) trivial hcall (fun m hm => by simp at hm)
    hdis⟩

/-- It is not true that blocks which are deeper than the synchronized checkpoint are not disconnected
any more. -/
theorem deep_blocks_disconnected :
    ¬∀ (ctx : Context) (env : Env) (s t : NodeState) (tip b target : UInt256)
      (nFile nBlockPos : UInt32) (block : CBlock), Accepts ctx anyBlock s →
        s.pindexBest = some tip → IsAncestor s.parent b tip →
        s.height b + nCheckpointSpan ≤ s.height tip →
        Relation.ReflTransGen (AcceptStep ctx anyBlock) s t →
        ctx.files.block nFile nBlockPos = some block →
          ¬Disconnects ctx env nFile nBlockPos block t target b := by
  intro hall
  obtain ⟨s₀, s, hstart, hrun, hs⟩ := exists_deepBranches
  obtain ⟨hdis, -⟩ :=
    hs.disconnects (show 5001 + 1 ≤ grownHeight by decide) (Nat.succ_pos 0)
      (show 1 ≤ 5001 by decide)
  obtain ⟨i, hi, hentry⟩ := hs.entry false 1 (by decide)
  obtain ⟨j, hj, hentryTip⟩ := hs.entry false 5001 le_rfl
  refine hall _ _ s s _ _ _ _ _ _ ⟨s₀, hstart, hrun⟩ hs.atTip.anchored.best
    (hs.isAncestor (show 1 ≤ 5001 by decide) le_rfl) ?_ Relation.ReflTransGen.refl
    (grownBlock_stored (show 5002 ≤ grownHeight by decide)) hdis
  rw [height_eq hi, height_eq hj, hentry.height, hentryTip.height]
  decide

end ZalemCoin.Chain
