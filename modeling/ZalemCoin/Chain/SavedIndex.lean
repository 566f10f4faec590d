import Mathlib.Data.Set.Finite.Basic
import ZalemCoin.Chain.Rebuild
import ZalemCoin.Chain.Recording

/-!
# The block index on the disk

Outside a transaction, the database has the block index as it is in memory, with its links, and names
the best block. Making an entry, adding a block to the best chain and switching to another branch keep
it so when they succeed. When they fail, it depends on whether blocks had been connected by then: the
database forgets them, but their entries in memory keep what was recorded.
-/

namespace ZalemCoin.Chain

open Lib
open CBlockIndex (nChainTrust)

/-- What the entries satisfy that does not depend on which chain is the best one. -/
structure IndexTree (ctx : Context) (s : NodeState) : Prop where
  heights : HeightsOk s
  known : ∀ p q, s.parent p = some q → s.mapBlockIndex q ≠ none
  /-- An entry is that of a block on the disk, and has its header. -/
  stored : ∀ p i, s.mapBlockIndex p = some i → ∃ block,
    ctx.files.block i.nFile i.nBlockPos = some block ∧ ctx.GetHash block = p ∧
      (CDiskBlockIndex.of i).header = block.toCBlockHeader
  zero : s.mapBlockIndex 0 = none
  trust : ∀ p i, s.mapBlockIndex p = some i → i.nChainTrust
    = ((i.pprev.bind s.mapBlockIndex).map CBlockIndex.nChainTrust).getD 0 + i.GetBlockTrust
  stake : ∀ p i, s.mapBlockIndex p = some i → i.fProofOfStake = false →
    i.prevoutStake = COutPoint.null ∧ i.nStakeTime = 0
  finite : {p | s.mapBlockIndex p ≠ none}.Finite

/-- The database has the block index with its links, which lead along the chain of a block, and names
that block as the best one. -/
structure Saved (ctx : Context) (s : NodeState) (tip : UInt256) : Prop where
  tree : IndexTree ctx s
  closed : s.txdb.activeBatch = none
  recording : Recording s s.next
  best : s.txdb.view .hashBestChain = some tip
  tipKnown : s.mapBlockIndex tip ≠ none
  links : ∀ p q, s.next p = some q → s.parent q = some p ∧ IsAncestor s.parent q tip

variable {ctx : Context} {s s' : NodeState} {tip : UInt256}

section

theorem IndexTree.hashesOk (h : IndexTree ctx s) : HashesOk ctx s := by
  intro p i hi
  obtain ⟨block, -, hhash, hheader⟩ := h.stored p i hi
  unfold CDiskBlockIndex.GetBlockHash
  rw [hheader]
  exact hhash

theorem IndexTree.hashPrevBlock_eq (h : IndexTree ctx s) {p q : UInt256} {i : CBlockIndex}
    {block : CBlock} (hi : s.mapBlockIndex p = some i)
    (hstor : ctx.files.block i.nFile i.nBlockPos = some block) (hq : i.pprev = some q) :
    block.hashPrevBlock = q := by
  obtain ⟨block', hstor', -, hheader⟩ := h.stored p i hi
  obtain rfl := Option.mem_unique hstor hstor'
  rw [← show i.pprev.getD 0 = block.hashPrevBlock from congrArg CBlockHeader.hashPrevBlock hheader,
    hq, Option.getD_some]

theorem IndexTree.congr (h : IndexTree ctx s) (hplace : SamePlace s s') : IndexTree ctx s' where
  heights p q hpq := by
    rw [hplace.height_eq, hplace.height_eq]
    rw [hplace.parent_eq] at hpq
    exact h.heights p q hpq
  known p q hpq := by
    rw [hplace.parent_eq] at hpq
    exact (hplace.ne_none_iff q).mpr (h.known p q hpq)
  stored p i' hi' := by
    obtain ⟨i, hi, hsame⟩ := hplace.exists_eq hi'
    rw [show i'.nFile = i.nFile from (congrArg CBlockIndex.nFile hsame :),
      show i'.nBlockPos = i.nBlockPos from (congrArg CBlockIndex.nBlockPos hsame :),
      show (CDiskBlockIndex.of i').header = (CDiskBlockIndex.of i).header from
        (congrArg (fun j : CBlockIndex => (CDiskBlockIndex.of j).header) hsame :)]
    exact h.stored p i hi
  zero := not_not.mp fun hne => (hplace.ne_none_iff 0).mp hne h.zero
  trust p i' hi' := by
    obtain ⟨i, hi, hsame⟩ := hplace.exists_eq hi'
    have hprev : i'.pprev = i.pprev := (congrArg CBlockIndex.pprev hsame :)
    have hbef : (i.pprev.bind s'.mapBlockIndex).map nChainTrust
        = (i.pprev.bind s.mapBlockIndex).map nChainTrust := by
      rcases i.pprev with _ | q
      · rfl
      · exact hplace.map_eq q nChainTrust fun _ => rfl
    rw [hprev, hbef, show i'.GetBlockTrust = i.GetBlockTrust from
      (congrArg CBlockIndex.GetBlockTrust hsame :), ← h.trust p i hi]
    exact (congrArg nChainTrust hsame :)
  stake p i' hi' hwork := by
    obtain ⟨i, hi, hsame⟩ := hplace.exists_eq hi'
    have hwork' : i.fProofOfStake = false :=
      (congrArg CBlockIndex.fProofOfStake hsame :).symm.trans hwork
    obtain ⟨hprevout, htime⟩ := h.stake p i hi hwork'
    exact ⟨(congrArg CBlockIndex.prevoutStake hsame :).trans hprevout,
      (congrArg CBlockIndex.nStakeTime hsame :).trans htime⟩
  finite := by
    have hsame : {p | s'.mapBlockIndex p ≠ none} = {p | s.mapBlockIndex p ≠ none} :=
      Set.ext hplace.ne_none_iff
    rw [hsame]
    exact h.finite

variable (h : Saved ctx s tip)
include h

theorem Saved.marshallable : Marshallable ctx s.mapBlockIndex where
  hash := h.tree.hashesOk
  zero := h.tree.zero
  prev p i q hi hq := by
    have hpar : s.parent p = some q := (parent_eq hi).trans hq
    obtain ⟨j, hj⟩ := Option.ne_none_iff_exists'.mp (h.tree.known p q hpar)
    have hheight := h.tree.heights p q hpar
    rw [height_eq hi, height_eq hj] at hheight
    exact ⟨j, hj, by omega⟩
  next p i q hi hq := by
    have hnext : s.next p = some q := by
      unfold NodeState.next
      rw [hi]
      exact hq
    intro hnone
    have hpar := (h.links p q hnext).1
    unfold NodeState.parent at hpar
    rw [hnone] at hpar
    simp at hpar
  trust := h.tree.trust
  stake := h.tree.stake

theorem Saved.disk_eq (p : UInt256) :
    s.txdb.disk (.blockindex p) = (s.mapBlockIndex p).map CDiskBlockIndex.of := by
  have hview := h.recording p
  rw [Store.view_of_closed h.closed] at hview
  rw [hview]
  unfold NodeState.next
  rcases s.mapBlockIndex p with _ | i <;> rfl

theorem Saved.scans {keys : List UInt256} (hnd : keys.Nodup)
    (hkeys : ∀ p, p ∈ keys ↔ s.mapBlockIndex p ≠ none) :
    Scans s.txdb.disk (keys.filterMap fun key => s.txdb.disk (.blockindex key)) := by
  have hdisk : ∀ key, key ∈ keys ↔ s.txdb.disk (.blockindex key) ≠ none := by
    intro key
    rw [hkeys, h.disk_eq]
    simp
  refine ⟨keys, hnd, hdisk, ?_⟩
  have hall : ∀ key ∈ keys, s.txdb.disk (.blockindex key) ≠ none := fun key hkey =>
    (hdisk key).mp hkey
  clear hnd hkeys hdisk
  induction keys with
  | nil => rfl
  | cons key keys ih =>
    obtain ⟨record, hrec⟩ := Option.ne_none_iff_exists'.mp (hall key List.mem_cons_self)
    rw [List.filterMap_cons, hrec, List.map_cons, List.map_cons, hrec,
      ih fun key' hkey' => hall key' (List.mem_cons_of_mem _ hkey')]

theorem Saved.exists_scans : ∃ records, Scans s.txdb.disk records :=
  ⟨_, h.scans (Finset.nodup_toList h.tree.finite.toFinset) fun p => by simp⟩

theorem Saved.of_eq (hidx : s'.mapBlockIndex = s.mapBlockIndex)
    (hclosed : s'.txdb.activeBatch = none)
    (hview : ∀ p, s'.txdb.view (.blockindex p) = s.txdb.view (.blockindex p))
    (hbest : s'.txdb.view .hashBestChain = s.txdb.view .hashBestChain) : Saved ctx s' tip := by
  have hnext : s'.next = s.next := by
    unfold NodeState.next
    rw [hidx]
  have hpar : s'.parent = s.parent := by
    unfold NodeState.parent
    rw [hidx]
  refine ⟨h.tree.congr (SamePlace.of_eq hidx), hclosed, ?_, hbest.trans h.best, ?_, ?_⟩
  · rw [hnext]
    exact h.recording.congr (Prod.ext hidx (funext hview))
  · rw [hidx]
    exact h.tipKnown
  · rw [hnext, hpar]
    exact h.links

theorem Saved.congr (hpart : s'.chainPart = s.chainPart) : Saved ctx s' tip := by
  have hidx : s'.mapBlockIndex = s.mapBlockIndex := (congrArg Prod.fst hpart :)
  have htxdb : s'.txdb = s.txdb := (congrArg (fun part => part.2.1) hpart :)
  exact h.of_eq hidx (by rw [htxdb]; exact h.closed) (fun _ => by rw [htxdb]) (by rw [htxdb])

end

/-! ## Making an entry -/

variable {nFile nBlockPos : UInt32} {hashProof : UInt256} {block : CBlock} {i : CBlockIndex}

theorem newBlockIndex_fields {mapBlockIndex : UInt256 → Option CBlockIndex} {nSequenceId : UInt32}
    (hprev : mapBlockIndex block.hashPrevBlock ≠ none ∨ block.hashPrevBlock = 0)
    (h : newBlockIndex ctx mapBlockIndex nFile nBlockPos hashProof nSequenceId block = .ok i) :
    (CDiskBlockIndex.of i).header = block.toCBlockHeader ∧
      i.nChainTrust = ((mapBlockIndex block.hashPrevBlock).map nChainTrust).getD 0
        + i.GetBlockTrust ∧
      (i.fProofOfStake = false → i.prevoutStake = COutPoint.null ∧ i.nStakeTime = 0) := by
  unfold newBlockIndex at h
  dsimp only at h
  split at h
  · simp at h
  · cases h
    refine ⟨?_, rfl, fun hwork => ?_⟩
    · -- Zero is stored for a block without a parent, which names zero itself.
      have hlink : ((mapBlockIndex block.hashPrevBlock).map fun _ => block.hashPrevBlock).getD 0
          = block.hashPrevBlock := by
        rcases hprev with hknown | hzero
        · obtain ⟨j, hj⟩ := Option.ne_none_iff_exists'.mp hknown
          rw [hj]
          rfl
        · rw [hzero]
          rcases mapBlockIndex 0 with _ | j <;> rfl
      unfold CDiskBlockIndex.of CDiskBlockIndex.header
      rw [hlink]
      rfl
    · have hwork : block.IsProofOfStake = false := hwork
      unfold CBlockIndex.of
      rw [hwork]
      exact ⟨rfl, rfl⟩

theorem indexBlock_record
    (h : indexBlock ctx nFile nBlockPos hashProof block s = (.ok i, s')) :
    (∃ nSequenceId, newBlockIndex ctx s.mapBlockIndex nFile nBlockPos hashProof nSequenceId block
      = .ok i) ∧
      ∀ q, s'.txdb.view (.blockindex q)
        = if q = (CDiskBlockIndex.of i).GetBlockHash ctx then some (CDiskBlockIndex.of i)
          else s.txdb.view (.blockindex q) := by
  obtain ⟨-, hclosed, nSequenceId, hnew, rfl⟩ := indexBlock_parts h
  refine ⟨⟨nSequenceId, hnew⟩, fun q => ?_⟩
  have hview : ∀ txdb : CTxDB, (txdb.WriteBlockIndex ctx (CDiskBlockIndex.of i)).view
      (.blockindex q) = if q = (CDiskBlockIndex.of i).GetBlockHash ctx
        then some (CDiskBlockIndex.of i) else txdb.view (.blockindex q) := by
    intro txdb
    unfold CTxDB.WriteBlockIndex CDiskBlockIndex.GetBlockHash
    rw [Store.view_write]
    split
    · rename_i hq
      rw [hq, Function.update_self]
    · rename_i hq
      rw [Function.update_of_ne (by simpa using hq)]
  show (s.opened.txdb.WriteBlockIndex ctx (CDiskBlockIndex.of i)).view (.blockindex q) = _
  rw [hview, view_opened hclosed]

theorem Indexed.parent_known (h : Indexed ctx s s' nFile nBlockPos block i)
    (hknown : ∀ p q, s.parent p = some q → s.mapBlockIndex q ≠ none) {p q : UInt256}
    (hpq : s'.parent p = some q) : s.mapBlockIndex q ≠ none := by
  by_cases hp : p = ctx.GetHash block
  · rw [hp, parent_eq h.entry_self, h.parent] at hpq
    obtain ⟨j, hj, rfl⟩ := Option.map_eq_some_iff.mp hpq
    simp [hj]
  · rw [h.parent_of_ne hp] at hpq
    exact hknown p q hpq

theorem IndexTree.index (h : IndexTree ctx s)
    (hprev : s.mapBlockIndex block.hashPrevBlock ≠ none ∨ block.hashPrevBlock = 0)
    (hstor : ctx.files.block nFile nBlockPos = some block) (hzero : ctx.GetHash block ≠ 0)
    (hrun : indexBlock ctx nFile nBlockPos hashProof block s = (.ok i, s')) : IndexTree ctx s' := by
  obtain ⟨hindexed, -⟩ := indexBlock_eq_ok hrun
  obtain ⟨⟨nSequenceId, hnew⟩, -⟩ := indexBlock_record hrun
  obtain ⟨hheader, htrust, hstake⟩ := newBlockIndex_fields hprev hnew
  have hself := hindexed.entry_self
  -- The new block is nobody's parent, since parents are known.
  have hparents : ∀ p q, s'.parent p = some q → q ≠ ctx.GetHash block := by
    rintro p q hpq rfl
    exact hindexed.parent_known h.known hpq hindexed.fresh
  refine ⟨fun p q hpq => ?_, fun p q hpq => ?_, fun p j hj => ?_, ?_, fun p j hj => ?_,
    fun p j hj => ?_, ?_⟩
  · rw [hindexed.height_of_ne (hparents p q hpq)]
    by_cases hp : p = ctx.GetHash block
    · rw [hp, parent_eq hself, hindexed.parent] at hpq
      obtain ⟨j, hj, rfl⟩ := Option.map_eq_some_iff.mp hpq
      rw [hp, height_eq hself, height_eq hj, hindexed.height, hj]
      rfl
    · rw [hindexed.parent_of_ne hp] at hpq
      rw [hindexed.height_of_ne hp]
      exact h.heights p q hpq
  · rw [hindexed.entry_of_ne (hparents p q hpq)]
    exact hindexed.parent_known h.known hpq
  · by_cases hp : p = ctx.GetHash block
    · rw [hp, hself] at hj
      cases hj
      rw [hindexed.place.1, hindexed.place.2]
      exact ⟨block, hstor, hp.symm, hheader⟩
    · rw [hindexed.entry_of_ne hp] at hj
      exact h.stored p j hj
  · rw [hindexed.entry_of_ne hzero.symm]
    exact h.zero
  · -- The trust of the block before is the same as when the entry was made.
    have hbef : j.pprev.bind s'.mapBlockIndex = j.pprev.bind s.mapBlockIndex := by
      rcases hq : j.pprev with _ | q
      · rfl
      · exact hindexed.entry_of_ne (hparents p q ((parent_eq hj).trans hq))
    rw [hbef]
    by_cases hp : p = ctx.GetHash block
    · rw [hp, hself] at hj
      cases hj
      rw [htrust, hindexed.parent]
      rcases hm : s.mapBlockIndex block.hashPrevBlock with _ | k
      · rfl
      · show _ = ((s.mapBlockIndex block.hashPrevBlock).map nChainTrust).getD 0 + _
        rw [hm]
    · rw [hindexed.entry_of_ne hp] at hj
      exact h.trust p j hj
  · by_cases hp : p = ctx.GetHash block
    · rw [hp, hself] at hj
      cases hj
      exact hstake
    · rw [hindexed.entry_of_ne hp] at hj
      exact h.stake p j hj
  · refine (h.finite.insert (ctx.GetHash block)).subset fun p hp => ?_
    by_cases heq : p = ctx.GetHash block
    · exact .inl heq
    · refine .inr ?_
      have hp : s'.mapBlockIndex p ≠ none := hp
      rwa [hindexed.entry_of_ne heq] at hp

theorem Indexed.next_eq (h : Indexed ctx s s' nFile nBlockPos block i) : s'.next = s.next := by
  funext p
  unfold NodeState.next
  by_cases hp : p = ctx.GetHash block
  · rw [hp, h.entry_self, h.fresh]
    exact h.blank.1
  · rw [h.entry_of_ne hp]

theorem Recording.index (hs : Recording s s.next) (htree : IndexTree ctx s')
    (hrun : indexBlock ctx nFile nBlockPos hashProof block s = (.ok i, s')) :
    Recording s' s'.next := by
  obtain ⟨hindexed, -⟩ := indexBlock_eq_ok hrun
  obtain ⟨-, hview⟩ := indexBlock_record hrun
  have hhash : (CDiskBlockIndex.of i).GetBlockHash ctx = ctx.GetHash block :=
    htree.hashesOk _ i hindexed.entry_self
  intro p
  rw [hview, hhash, hindexed.next_eq]
  by_cases hp : p = ctx.GetHash block
  · have hnext : s.next p = i.pnext := by
      unfold NodeState.next
      rw [hp, hindexed.fresh, hindexed.blank.1]
      rfl
    rw [if_pos hp, hnext, hp, hindexed.entry_self]
    rfl
  · rw [if_neg hp, hindexed.entry_of_ne hp]
    exact hs p

theorem Saved.index (h : Saved ctx s tip) (hknown : s.mapBlockIndex block.hashPrevBlock ≠ none)
    (hstor : ctx.files.block nFile nBlockPos = some block) (hzero : ctx.GetHash block ≠ 0)
    (hrun : indexBlock ctx nFile nBlockPos hashProof block s = (.ok i, s')) : Saved ctx s' tip := by
  obtain ⟨hindexed, -⟩ := indexBlock_eq_ok hrun
  have htree := h.tree.index (.inl hknown) hstor hzero hrun
  refine ⟨htree, hindexed.closed, h.recording.index htree hrun,
    (hindexed.read _ (by simp)).trans h.best, ?_, fun p q hpq => ?_⟩
  · have hne : tip ≠ ctx.GetHash block := fun heq => h.tipKnown (heq ▸ hindexed.fresh)
    rw [hindexed.entry_of_ne hne]
    exact h.tipKnown
  · rw [hindexed.next_eq] at hpq
    obtain ⟨hpar, hanc⟩ := h.links p q hpq
    refine ⟨?_, (hindexed.isAncestor_iff h.tree.known h.tipKnown).mpr hanc⟩
    rw [hindexed.parent_of_ne, hpar]
    rintro rfl
    rw [show s.parent (ctx.GetHash block) = none by
      unfold NodeState.parent
      rw [hindexed.fresh]
      rfl] at hpar
    simp at hpar

end ZalemCoin.Chain
