import ZalemCoin.Chain.ChainInvariant
import ZalemCoin.Chain.ValueRange

/-!
# What `ConnectBlock` changes when it only checks

With `fJustCheck` set, `ConnectBlock` returns before it writes the transaction index. By then it has
moved the window of the block size calculator, has set the limits on blocks, and has recorded the
mint and the supply of the block in its entry and in the database. It changes nothing exactly when
all of this was there before, or when it did not get so far.
-/

namespace ZalemCoin.Chain

open Lib
open Except (ok.inj)
open Lib.Action (get_bind modify_bind bind_apply)

/-- The part of the state that a check is meant to leave alone is the same: the content of the
database, the block index, the globals, the limits on blocks and the window of the calculator. -/
structure Unchanged (s s' : NodeState) : Prop where
  database : s'.txdb.view = s.txdb.view
  index : s'.mapBlockIndex = s.mapBlockIndex
  globals : s'.globals = s.globals
  MAX_BLOCK_SIZE : s'.MAX_BLOCK_SIZE = s.MAX_BLOCK_SIZE
  MAX_BLOCK_SIGOPS : s'.MAX_BLOCK_SIGOPS = s.MAX_BLOCK_SIGOPS
  MAX_TX_SIGOPS : s'.MAX_TX_SIGOPS = s.MAX_TX_SIGOPS
  blocksizes : s'.blocksizes = s.blocksizes
  sorted : s'.sorted = s.sorted

/-! ## What the calculator reads -/

/-- The size that the calculator reads for a block. -/
def sizeAt (s : NodeState) (pblockindex : Option UInt256) : UInt32 :=
  match pblockindex.bind s.mapBlockIndex with
  | none => 0xffffffff
  | some i => sizeBefore ((s.blocksDir i.nFile).getD []) i.nBlockPos

def collectedSizes (s : NodeState) (firstBlock : ℕ) : ℕ → Option UInt256 → List UInt32
  | _, none => []
  | 0, some _ => []
  | fuel + 1, some p =>
    match s.mapBlockIndex p with
    | none => []
    | some i =>
      if firstBlock < i.nHeight then
        (if sizeAt s (some p) ≠ 0xffffffff then [sizeAt s (some p)] else []) ++
          collectedSizes s firstBlock fuel i.pprev
      else []

def limitOf (sizes : List UInt32) : ℕ :=
  let proposedMaxBlockSize :=
    if sizes.length = NUM_BLOCKS_FOR_MEDIAN_BLOCK then medianOf sizes else 0
  if proposedMaxBlockSize > 0 then
    let result := proposedMaxBlockSize * MAX_BLOCK_SIZE_INCREASE_MULTIPLE
    let result := if result < proposedMaxBlockSize then 0xffffffff else result
    max result.toNat MIN_BLOCK_SIZE
  else MIN_BLOCK_SIZE

/-- A window in which the size of one block has taken the place of that of another. -/
def replacedSize (sizes : List UInt32) (oldest latest : UInt32) : List UInt32 :=
  if oldest ≠ 0xffffffff ∧ oldest ∈ sizes then insertSize (sizes.erase oldest) latest else sizes

/-- The window stays as it is when it is brought up to date for a block: the block is too low; or
the window is filled, and the size that enters cannot be read or takes the place of an equal one;
or the window is empty, and no size can be read to fill it. -/
inductive WindowStays (s : NodeState) (p : UInt256) (i : CBlockIndex) : Prop
  | low (h : i.nHeight < NUM_BLOCKS_FOR_MEDIAN_BLOCK)
  | filled (h : s.blocksizes ≠ [])
      (hsize : sizeAt s (some p) = 0xffffffff ∨
        ∀ q, (FindBlockByHeight (i.nHeight - NUM_BLOCKS_FOR_MEDIAN_BLOCK) s).1 = .ok q →
          replacedSize s.blocksizes (sizeAt s q) (sizeAt s (some p)) = s.blocksizes)
  | empty (h : s.blocksizes = [])
      (hsizes : collectedSizes s (i.nHeight - NUM_BLOCKS_FOR_MEDIAN_BLOCK) (i.nHeight + 1) (some p)
        = [])

/-- Two states agree in the sizes that the calculator reads. -/
structure SameSizes (s s' : NodeState) : Prop where
  index : s'.mapBlockIndex = s.mapBlockIndex
  files : ∀ nFile, (s'.blocksDir nFile).getD [] = (s.blocksDir nFile).getD []

section

variable {s s' t : NodeState} {p : Option UInt256}

theorem SameSizes.refl (s : NodeState) : SameSizes s s := ⟨rfl, fun _ => rfl⟩

variable (h : SameSizes s s')
include h

theorem SameSizes.trans (h' : SameSizes s' t) : SameSizes s t :=
  ⟨h'.index.trans h.index, fun nFile => (h'.files nFile).trans (h.files nFile)⟩

theorem SameSizes.symm : SameSizes s' s := ⟨h.index.symm, fun nFile => (h.files nFile).symm⟩

theorem SameSizes.sizeAt_eq (p : Option UInt256) :
    sizeAt s' p = sizeAt s p := by
  unfold sizeAt
  rw [h.index]
  rcases p.bind s.mapBlockIndex with _ | i
  · rfl
  · dsimp only
    rw [h.files]

theorem SameSizes.collectedSizes_eq (firstBlock fuel : ℕ) (p : Option UInt256) :
    collectedSizes s' firstBlock fuel p = collectedSizes s firstBlock fuel p := by
  induction fuel generalizing p with
  | zero => cases p <;> rfl
  | succ fuel ih =>
    rcases p with _ | p
    · rfl
    · rw [collectedSizes, collectedSizes, h.index]
      rcases s.mapBlockIndex p with _ | i
      · rfl
      · dsimp only
        rw [h.sizeAt_eq, ih]

omit h

theorem getBlockSize_eq_ok {size : UInt32} (h : GetBlockSize p s = (.ok size, s')) :
    size = sizeAt s p ∧ SameSizes s s' ∧ s'.blocksizes = s.blocksizes ∧ s'.sorted = s.sorted ∧
      s'.pblockindexFBBHLast = s.pblockindexFBBHLast := by
  rcases p with _ | p
  · obtain ⟨hsize, rfl⟩ := Prod.mk.inj h
    exact ⟨(ok.inj hsize).symm, SameSizes.refl _, rfl, rfl, rfl⟩
  · obtain ⟨i, hi, h⟩ := Action.reading_bind_eq_ok.mp h
    obtain ⟨-, h⟩ := Action.check_bind_eq_ok.mp h
    obtain ⟨hsize, rfl⟩ := Prod.mk.inj h
    rw [index_eq_ok] at hi
    refine ⟨?_, ⟨rfl, fun nFile => ?_⟩, rfl, rfl, rfl⟩
    · unfold sizeAt
      rw [Option.bind_some, hi]
      exact (ok.inj hsize).symm
    · dsimp only
      by_cases heq : nFile = i.nFile
      · subst heq
        rw [Function.update_self]
        rfl
      · rw [Function.update_of_ne heq]

variable {firstBlock : ℕ} {i : CBlockIndex}

theorem collectSizes_eq_ok {fuel : ℕ} (h : collectSizes firstBlock fuel p s = (.ok (), s')) :
    s'.blocksizes = s.blocksizes ++ collectedSizes s firstBlock fuel p ∧ SameSizes s s' ∧
      s'.sorted = s.sorted := by
  induction fuel generalizing p s with
  | zero =>
    rcases p with _ | p
    · cases h
      exact ⟨by simp [collectedSizes], SameSizes.refl _, rfl⟩
    · simp [collectSizes] at h
  | succ fuel ih =>
    rcases p with _ | p
    · cases h
      exact ⟨by simp [collectedSizes], SameSizes.refl _, rfl⟩
    · rw [collectSizes] at h
      obtain ⟨i, hi, h⟩ := Action.reading_bind_eq_ok.mp h
      rw [index_eq_ok] at hi
      rw [collectedSizes, hi]
      dsimp only
      split at h
      · rename_i hheight
        obtain ⟨size, t, hsize, h⟩ := Action.bind_eq_ok.mp h
        obtain ⟨rfl, hsame, hwin, hsort, -⟩ := getBlockSize_eq_ok hsize
        obtain ⟨hrest, hsame', hsort'⟩ := ih h
        -- Appending a size changes the window only.
        have happ : SameSizes t (if sizeAt s (some p) ≠ 0xffffffff then
            { t with blocksizes := t.blocksizes ++ [sizeAt s (some p)] } else t) := by
          split
          · exact ⟨rfl, fun _ => rfl⟩
          · exact SameSizes.refl _
        have hread := (hsame.trans happ).collectedSizes_eq firstBlock fuel i.pprev
        refine ⟨?_, (hsame.trans happ).trans hsame', ?_⟩
        · rw [hrest, hread]
          split <;> simp [hwin]
        · rw [hsort']
          split <;> exact hsort
      · rename_i hheight
        cases h
        rw [if_neg hheight]
        exact ⟨by simp, SameSizes.refl _, rfl⟩

/-- Two states agree in the chain that a search by height goes through. -/
structure SameSearch (s t : NodeState) : Prop where
  index : t.mapBlockIndex = s.mapBlockIndex
  genesis : t.pindexGenesisBlock = s.pindexGenesisBlock
  best : t.pindexBest = s.pindexBest
  height : t.nBestHeight = s.nBestHeight
  last : t.pblockindexFBBHLast = s.pblockindexFBBHLast

theorem SameSearch.symm (h : SameSearch s t) : SameSearch t s :=
  ⟨h.index.symm, h.genesis.symm, h.best.symm, h.height.symm, h.last.symm⟩

theorem SameSearch.index_eq (h : SameSearch s t) : t.index = s.index := by
  funext p
  unfold NodeState.index
  rw [h.index]

theorem SameSearch.findBlockByHeight_eq (h : SameSearch s t) (nHeight : ℕ) :
    (FindBlockByHeight nHeight t).1 = (FindBlockByHeight nHeight s).1 := by
  have hback (fuel : ℕ) (p : Option UInt256) :
      walkBack t nHeight fuel p = walkBack s nHeight fuel p := by
    induction fuel generalizing p with
    | zero => rfl
    | succ fuel ih => simp only [walkBack, h.index_eq, ih]
  have hforward (fuel : ℕ) (p : Option UInt256) :
      walkForward t nHeight fuel p = walkForward s nHeight fuel p := by
    induction fuel generalizing p with
    | zero => rfl
    | succ fuel ih => simp only [walkForward, h.index_eq, ih]
  have hstart : findStart t nHeight = findStart s nHeight := by
    unfold findStart
    rw [h.index_eq, h.genesis, h.best, h.height, h.last]
  unfold FindBlockByHeight
  simp only [bind_apply, Action.reading_apply, hstart, h.index_eq, hback, hforward]
  rcases findStart s nHeight >>= _ with e | q <;> rfl

theorem WindowStays.congr {p : UInt256} (h : WindowStays s p i) (hsizes : SameSizes s t)
    (hsearch : SameSearch s t) (hwin : t.blocksizes = s.blocksizes) : WindowStays t p i := by
  cases h with
  | low hlow => exact .low hlow
  | filled hfilled hsize =>
    refine .filled (by rwa [hwin]) ?_
    simpa only [hsizes.sizeAt_eq, hsearch.findBlockByHeight_eq, hwin] using hsize
  | empty hemp hnone =>
    refine .empty (by rwa [hwin]) ?_
    rwa [hsizes.collectedSizes_eq]

theorem moveWindow_eq_ok {p : UInt256} (h : moveWindow p firstBlock s = (.ok (), s')) :
    (sizeAt s (some p) = 0xffffffff ∧ s'.blocksizes = s.blocksizes ∨
      sizeAt s (some p) ≠ 0xffffffff ∧ ∃ q, (FindBlockByHeight firstBlock s).1 = .ok q ∧
        s'.blocksizes = replacedSize s.blocksizes (sizeAt s q) (sizeAt s (some p))) ∧
      s'.sorted = s.sorted := by
  obtain ⟨latest, t, hlatest, h⟩ := Action.bind_eq_ok.mp h
  obtain ⟨rfl, hsame, hwin, hsort, hlast⟩ := getBlockSize_eq_ok hlatest
  split at h
  · rename_i hread
    obtain ⟨q, t₁, hfound, h⟩ := Action.bind_eq_ok.mp h
    have houtside := (keepsPart_getBlockSize _).of_eq hlatest
    have hsearch : SameSearch s t := ⟨hsame.index,
      (congrArg NodeState.pindexGenesisBlock houtside :),
      (congrArg NodeState.pindexBest houtside :),
      (congrArg NodeState.nBestHeight houtside :), hlast⟩
    have hq : (FindBlockByHeight firstBlock s).1 = .ok q := by
      rw [← hsearch.findBlockByHeight_eq, hfound]
    -- The search changes its own variable only.
    have hfound' : SameSizes t t₁ ∧ t₁.blocksizes = t.blocksizes ∧ t₁.sorted = t.sorted := by
      obtain ⟨q', -, hfound⟩ := Action.reading_bind_eq_ok.mp hfound
      cases hfound
      exact ⟨⟨rfl, fun _ => rfl⟩, rfl, rfl⟩
    obtain ⟨hsame₁, hwin₁, hsort₁⟩ := hfound'
    obtain ⟨oldest, t₂, holdest, h⟩ := Action.bind_eq_ok.mp h
    obtain ⟨rfl, hsame₂, hwin₂, hsort₂, -⟩ := getBlockSize_eq_ok holdest
    have hold : sizeAt t₁ q = sizeAt s q := (hsame.trans hsame₁).sizeAt_eq q
    have hkept : t₂.blocksizes = s.blocksizes := by rw [hwin₂, hwin₁, hwin]
    have hkept' : t₂.sorted = s.sorted := by rw [hsort₂, hsort₁, hsort]
    rw [hold] at h
    split at h
    · rename_i hne
      cases h
      by_cases hmem : sizeAt s q ∈ s.blocksizes
      · have hmem' : sizeAt s q ∈ t₂.blocksizes := by rwa [hkept]
        refine ⟨.inr ⟨hread, q, hq, ?_⟩, ?_⟩
        · dsimp only
          rw [if_pos hmem', replacedSize, if_pos ⟨hne, hmem⟩, hkept]
        · dsimp only
          rw [if_pos hmem']
          exact hkept'
      · have hmem' : sizeAt s q ∉ t₂.blocksizes := by rwa [hkept]
        refine ⟨.inr ⟨hread, q, hq, ?_⟩, ?_⟩
        · dsimp only
          rw [if_neg hmem', replacedSize, if_neg fun hboth => hmem hboth.2, hkept]
        · dsimp only
          rw [if_neg hmem']
          exact hkept'
    · rename_i heq
      cases h
      refine ⟨.inr ⟨hread, q, hq, ?_⟩, hkept'⟩
      rw [replacedSize, if_neg fun hboth => heq hboth.1, hkept]
  · rename_i hread
    cases h
    exact ⟨.inl ⟨not_not.mp hread, hwin⟩, hsort⟩

theorem getBlockSizes_eq_ok {p : UInt256} (hi : s.mapBlockIndex p = some i)
    (h : GetBlockSizes p NUM_BLOCKS_FOR_MEDIAN_BLOCK s = (.ok (), s')) :
    (s'.blocksizes = s.blocksizes ↔ WindowStays s p i) ∧ s'.sorted = s.sorted := by
  obtain ⟨j, hj, h⟩ := Action.reading_bind_eq_ok.mp h
  obtain rfl := Option.some.inj (hi.symm.trans (index_eq_ok.mp hj))
  split at h
  · rename_i hlow
    cases h
    exact ⟨iff_of_true rfl (.low hlow), rfl⟩
  · rename_i hhigh
    rw [get_bind] at h
    split at h
    · rename_i hfilled
      obtain ⟨hwin, hsort⟩ := moveWindow_eq_ok h
      refine ⟨?_, hsort⟩
      rcases hwin with ⟨hread, hkept⟩ | ⟨hread, q, hq, hkept⟩
      · exact iff_of_true hkept (.filled hfilled (.inl hread))
      · rw [hkept]
        constructor
        · intro hstays
          refine .filled hfilled (.inr fun q' hq' => ?_)
          obtain rfl := ok.inj (hq.symm.trans hq')
          exact hstays
        · intro hstays
          cases hstays with
          | low hlow => exact absurd hlow hhigh
          | filled _ hsize => exact hsize.elim (fun hnone => absurd hnone hread) fun hall => hall q hq
          | empty hemp => exact absurd hemp hfilled
    · rename_i hemp
      rw [not_not] at hemp
      obtain ⟨hwin, -, hsort⟩ := collectSizes_eq_ok h
      refine ⟨?_, hsort⟩
      rw [hwin, hemp, List.nil_append]
      constructor
      · exact fun hnone => .empty hemp hnone
      · intro hstays
        cases hstays with
        | low hlow => exact absurd hlow hhigh
        | filled hfilled => exact absurd hemp hfilled
        | empty _ hnone => exact hnone

theorem computeBlockSize_eq_ok {p : UInt256} {size : ℕ} (hi : s.mapBlockIndex p = some i)
    (h : ComputeBlockSize p s = (.ok size, s')) :
    (s'.blocksizes = s.blocksizes ∧ s'.sorted = s.sorted ↔ s.sorted = true ∧ WindowStays s p i) ∧
      size = limitOf s'.blocksizes := by
  obtain ⟨proposed, t, hmedian, h⟩ := Action.bind_eq_ok.mp h
  obtain ⟨⟨⟩, t₁, hsizes, hmedian⟩ := Action.bind_eq_ok.mp hmedian
  rw [modify_bind, get_bind] at hmedian
  obtain ⟨hproposed, hleft⟩ := Prod.mk.inj hmedian
  rw [hleft] at hproposed
  obtain ⟨hstays, hsort⟩ := getBlockSizes_eq_ok hi hsizes
  have hsize : s' = t ∧ size = limitOf t.blocksizes := by
    unfold limitOf
    rw [ok.inj hproposed]
    split at h
    · rename_i hpos
      obtain ⟨hres, rfl⟩ := Prod.mk.inj h
      rw [if_pos hpos]
      exact ⟨rfl, (ok.inj hres).symm⟩
    · rename_i hpos
      obtain ⟨hres, rfl⟩ := Prod.mk.inj h
      rw [if_neg hpos]
      exact ⟨rfl, (ok.inj hres).symm⟩
  obtain ⟨rfl, hsize⟩ := hsize
  refine ⟨?_, hsize⟩
  rw [← hleft, hsort]
  rcases hs : s.sorted with _ | _
  · simp
  · simpa [hsort, hs] using hstays

end

/-! ## What the calculator fails with -/

/-- An action that fails by stopping the process only. -/
def OnlyCrashes {α : Type} (x : NodeM α) : Prop :=
  ∀ s, FailsWith (fun e => ∃ m, e = Failure.crash m) (x s).1

namespace OnlyCrashes

variable {α β : Type}

theorem pure (a : α) : OnlyCrashes (Pure.pure a : NodeM α) := fun _ => FailsWith.ok a

theorem modify (f : NodeState → NodeState) : OnlyCrashes (Action.modify f : NodeM Unit) :=
  fun _ => FailsWith.ok ()

theorem get : OnlyCrashes (Action.get : NodeM NodeState) := fun s => FailsWith.ok s

theorem reading {f : NodeState → Except Failure α}
    (h : ∀ s, FailsWith (fun e => ∃ m, e = Failure.crash m) (f s)) :
    OnlyCrashes (Action.reading f : NodeM α) := h

variable {x : NodeM α}

theorem bind {f : α → NodeM β} (hx : OnlyCrashes x) (hf : ∀ a, OnlyCrashes (f a)) :
    OnlyCrashes (x >>= f) := by
  intro s
  have hxs := hx s
  rw [bind_apply]
  rcases h : x s with ⟨e | a, t⟩
  · rw [h] at hxs
    exact fun e' he' => hxs e' (Except.error.inj he' ▸ rfl)
  · exact hf a t

theorem ite {c : Prop} [Decidable c] {y : NodeM α} (hx : OnlyCrashes x) (hy : OnlyCrashes y) :
    OnlyCrashes (if c then x else y) := by
  split
  · exact hx
  · exact hy

end OnlyCrashes

theorem index_crashes (s : NodeState) (p : Option UInt256) :
    FailsWith (fun e => ∃ m, e = Failure.crash m) (s.index p) := by
  unfold NodeState.index
  split
  · exact FailsWith.ok _
  · exact FailsWith.error ⟨_, rfl⟩

theorem getBlockSize_crashes (p : Option UInt256) : OnlyCrashes (GetBlockSize p) := by
  rcases p with _ | p
  · exact OnlyCrashes.pure _
  · refine OnlyCrashes.bind (OnlyCrashes.reading fun s => index_crashes s _) fun i => ?_
    refine OnlyCrashes.bind (fun s => FailsWith.ensure ⟨_, rfl⟩) fun _ => ?_
    exact OnlyCrashes.bind OnlyCrashes.get fun s =>
      OnlyCrashes.bind (OnlyCrashes.modify _) fun _ => OnlyCrashes.pure _

theorem findBlockByHeight_crashes (nHeight : ℕ) : OnlyCrashes (FindBlockByHeight nHeight) := by
  have hback (s : NodeState) (fuel : ℕ) (p : Option UInt256) :
      FailsWith (fun e => ∃ m, e = Failure.crash m) (walkBack s nHeight fuel p) := by
    induction fuel generalizing p with
    | zero => exact FailsWith.error ⟨_, rfl⟩
    | succ fuel ih =>
      exact (index_crashes s p).bind fun i => FailsWith.ite (ih _) (FailsWith.pure _)
  have hforward (s : NodeState) (fuel : ℕ) (p : Option UInt256) :
      FailsWith (fun e => ∃ m, e = Failure.crash m) (walkForward s nHeight fuel p) := by
    induction fuel generalizing p with
    | zero => exact FailsWith.error ⟨_, rfl⟩
    | succ fuel ih =>
      exact (index_crashes s p).bind fun i => FailsWith.ite (ih _) (FailsWith.pure _)
  refine OnlyCrashes.bind (OnlyCrashes.reading fun s => ?_) fun q =>
    OnlyCrashes.bind (OnlyCrashes.modify _) fun _ => OnlyCrashes.pure _
  refine FailsWith.bind ?_ fun start => (index_crashes s start).bind fun i =>
    (hback s _ _).bind fun lower => hforward s _ _
  unfold findStart
  dsimp only
  split
  · exact FailsWith.pure _
  · exact (index_crashes s _).bind fun i => (index_crashes s _).bind fun l =>
      FailsWith.ite (FailsWith.pure _) (FailsWith.pure _)

theorem collectSizes_crashes (firstBlock fuel : ℕ) (p : Option UInt256) :
    OnlyCrashes (collectSizes firstBlock fuel p) := by
  induction fuel generalizing p with
  | zero =>
    cases p
    · exact OnlyCrashes.pure _
    · exact fun s => FailsWith.error ⟨_, rfl⟩
  | succ fuel ih =>
    rcases p with _ | p
    · exact OnlyCrashes.pure _
    · refine OnlyCrashes.bind (OnlyCrashes.reading fun s => index_crashes s _) fun i => ?_
      refine OnlyCrashes.ite ?_ (OnlyCrashes.pure _)
      exact OnlyCrashes.bind (getBlockSize_crashes _) fun size =>
        OnlyCrashes.bind (OnlyCrashes.modify _) fun _ => ih _

theorem computeBlockSize_crashes (p : UInt256) : OnlyCrashes (ComputeBlockSize p) := by
  have hmove (firstBlock : ℕ) : OnlyCrashes (moveWindow p firstBlock) := by
    refine OnlyCrashes.bind (getBlockSize_crashes _) fun latest => ?_
    refine OnlyCrashes.ite ?_ (OnlyCrashes.pure _)
    refine OnlyCrashes.bind (findBlockByHeight_crashes _) fun q => ?_
    refine OnlyCrashes.bind (getBlockSize_crashes _) fun oldest => ?_
    exact OnlyCrashes.ite (OnlyCrashes.modify _) (OnlyCrashes.pure _)
  refine OnlyCrashes.bind (OnlyCrashes.bind ?_ fun _ => ?_) fun proposed =>
    OnlyCrashes.ite (OnlyCrashes.pure _) (OnlyCrashes.pure _)
  · refine OnlyCrashes.bind (OnlyCrashes.reading fun s => index_crashes s _) fun i => ?_
    refine OnlyCrashes.ite (OnlyCrashes.pure _) ?_
    refine OnlyCrashes.bind OnlyCrashes.get fun s => ?_
    exact OnlyCrashes.ite (hmove _) (collectSizes_crashes _ _ _)
  · exact OnlyCrashes.bind (OnlyCrashes.modify _) fun _ =>
      OnlyCrashes.bind OnlyCrashes.get fun s => OnlyCrashes.pure _

/-! ## What the evaluation of a block reads -/

/-- A state with the variables of another one that no evaluation of a block reads, but for the
static variables of `IsInitialBlockDownload`. -/
def NodeState.withStatics (s t : NodeState) : NodeState :=
  { s with
    nLastUpdate := t.nLastUpdate
    pindexLastBest := t.pindexLastBest
    pblockindexFBBHLast := t.pblockindexFBBHLast
    blocksDir := t.blocksDir }

section

variable (ctx : Context) (env : Env) (s t : NodeState)

theorem isConfirmed_withStatics :
    IsConfirmedInNPrevBlocks (s.withStatics t) = IsConfirmedInNPrevBlocks s := by
  have hloop (txindex : CTxIndex) (nFromHeight nMaxDepth fuel : ℕ) (p : Option UInt256) :
      confirmedLoop (s.withStatics t) txindex nFromHeight nMaxDepth fuel p
        = confirmedLoop s txindex nFromHeight nMaxDepth fuel p := by
    induction fuel generalizing p with
    | zero => cases p <;> rfl
    | succ fuel ih =>
      rcases p with _ | p
      · rfl
      · simp only [confirmedLoop, ih]
        rfl
  funext txindex pindexFrom nMaxDepth
  unfold IsConfirmedInNPrevBlocks
  simp only [hloop]

theorem checkInput_withStatics : checkInput (s.withStatics t) = checkInput s := by
  funext tx inputs pindexBlock nValueIn txin
  unfold checkInput checkMaturity
  rw [isConfirmed_withStatics]

theorem checkReward_withStatics : checkReward ctx (s.withStatics t) = checkReward ctx s := by
  have hage : coinAgeOf ctx (s.withStatics t) = coinAgeOf ctx s := by
    funext tx pindexPrev txin
    unfold coinAgeOf
    rw [isConfirmed_withStatics]
    rfl
  funext block pindex acc
  unfold checkReward GetCoinAge
  rw [hage]
  rfl

variable {ctx env s t}

/-- The evaluation of a block does not depend on them as long as `IsInitialBlockDownload` answers
the same. -/
theorem evaluateBlock_withStatics
    (h : IsInitialBlockDownload ctx env (s.withStatics t) = IsInitialBlockDownload ctx env s)
    (block : CBlock) (p : UInt256) (fJustCheck : Bool) :
    evaluateBlock ctx env block p fJustCheck (s.withStatics t)
      = evaluateBlock ctx env block p fJustCheck s := by
  have hins : ConnectInputs ctx env (s.withStatics t) = ConnectInputs ctx env s := by
    funext tx inputs mapTestPool posThisTx pindexBlock mode flags
    unfold ConnectInputs
    rw [h, checkInput_withStatics]
  have htransaction (pindex : CBlockIndex) :
      connectTransaction ctx env (s.withStatics t) pindex fJustCheck
        = connectTransaction ctx env s pindex fJustCheck := by
    funext acc tx
    unfold connectTransaction connectSpending
    rw [hins]
    rfl
  unfold evaluateBlock connectTransactions
  simp only [htransaction, checkReward_withStatics]
  rfl

end

/-! ## When a check changes nothing -/

/-- Everything that `ConnectBlock` sets on its way to the transactions has these values already:
the window is sorted and stays, and the limits on blocks are those of the window. -/
structure Settled (s : NodeState) (p : UInt256) (i : CBlockIndex) : Prop where
  sorted : s.sorted = true
  window : WindowStays s p i
  size : s.MAX_BLOCK_SIZE = limitOf s.blocksizes
  sigops : s.MAX_BLOCK_SIGOPS = s.MAX_BLOCK_SIZE / 50
  txSigops : s.MAX_TX_SIGOPS = s.MAX_BLOCK_SIZE / 50 / 5

/-- The mint and the supply of the block have been recorded before: in its entry, and with its entry
in the database. -/
structure AlreadyRecorded (ctx : Context) (s : NodeState) (block : CBlock) (i : CBlockIndex) :
    Prop where
  mint : i.nMint = wrap64 ((worthOf ctx s block i true block.vtx).valueOut
    - (worthOf ctx s block i true block.vtx).valueIn + (worthOf ctx s block i true block.vtx).fees)
  supply : ∃ prevSupply, prevMoneySupply s i = .ok prevSupply ∧
    i.nMoneySupply = wrap64 (prevSupply + (worthOf ctx s block i true block.vtx).valueOut
      - (worthOf ctx s block i true block.vtx).valueIn)
  entry : s.txdb.view (.blockindex (ctx.hashHeader (CDiskBlockIndex.of i).header))
    = some (CDiskBlockIndex.of i)

/-- The entry of a block and its record in the database, as `ConnectBlock` writes them. -/
def NodeState.recorded (ctx : Context) (s : NodeState) (p : UInt256) (i : CBlockIndex) : NodeState :=
  { s.setIndex p i with txdb := s.txdb.WriteBlockIndex ctx (CDiskBlockIndex.of i) }

/-- A check of a block changes nothing: `CheckBlock` rejects it, or all that is set on the way to
its transactions is set already, and its transactions or its reward are rejected or its mint and
its supply are recorded already. -/
def CheckSettles (ctx : Context) (env : Env) (s : NodeState) (block : CBlock) (p : UInt256) :
    Prop :=
  (CheckBlock ctx env block false false false s).1 ≠ .ok () ∨
    ∃ i, s.mapBlockIndex p = some i ∧ Settled s p i ∧
      ((∀ x, evaluateBlock ctx env block p true s ≠ .ok x) ∨ AlreadyRecorded ctx s block i)

section

variable {ctx : Context} {env : Env} {s s' t : NodeState} {block : CBlock} {p : UInt256}

/-- Two states agree in everything but static variables that no limit and no window belongs to. -/
def SameButStatics (s t : NodeState) : Prop := ∀ u, t.withStatics u = s.withStatics u

theorem SameButStatics.eq (h : SameButStatics s t) : t = s.withStatics t := h t

theorem SameButStatics.trans (h : SameButStatics s t) (h' : SameButStatics t s') :
    SameButStatics s s' := fun u => (h' u).trans (h u)

theorem SameButStatics.unchanged (h : SameButStatics s t) : Unchanged s t := by
  rw [h.eq]
  exact ⟨rfl, rfl, rfl, rfl, rfl, rfl, rfl, rfl⟩

theorem sameButStatics_checkBlock {r : Except Failure Unit}
    (h : CheckBlock ctx env block false false false s = (r, t)) : SameButStatics s t := by
  intro u
  refine (@keepsPart_checkBlock _ (fun s => s.withStatics u) ctx env (fun s => ?_) block false
    false false).of_eq h
  unfold NodeState.afterDownloadCheck
  split <;> rfl

theorem sameButStatics_of_sizes (h : t.outsideSizes = s.outsideSizes)
    (hwin : t.blocksizes = s.blocksizes) (hsort : t.sorted = s.sorted) :
    SameButStatics s t := by
  intro u
  have hsame := congrArg (fun v : NodeState =>
    ({ v with blocksizes := s.blocksizes, sorted := s.sorted } : NodeState).withStatics u) h
  calc t.withStatics u
      = ({ t with blocksizes := s.blocksizes, sorted := s.sorted } : NodeState).withStatics u := by
        rw [← hwin, ← hsort]
    _ = s.withStatics u := hsame

variable {size : ℕ} {i : CBlockIndex} {x : CBlockIndex × ConnectAcc}

theorem sameButStatics_withLimits (h : s.MAX_BLOCK_SIZE = size)
    (hsigops : s.MAX_BLOCK_SIGOPS = size / 50) (htx : s.MAX_TX_SIGOPS = size / 50 / 5) :
    SameButStatics s (s.withLimits size) := by
  intro u
  unfold NodeState.withLimits
  rw [← htx, ← hsigops, ← h]

theorem computeBlockSize_index (h : ComputeBlockSize p s = (.ok size, t)) :
    ∃ i, s.mapBlockIndex p = some i := by
  obtain ⟨proposed, t₁, hmedian, -⟩ := Action.bind_eq_ok.mp h
  obtain ⟨⟨⟩, t₂, hsizes, -⟩ := Action.bind_eq_ok.mp hmedian
  obtain ⟨i, hi, -⟩ := Action.reading_bind_eq_ok.mp hsizes
  exact ⟨i, index_eq_ok.mp hi⟩

variable (hi : s.mapBlockIndex p = some i)
include hi

theorem evaluateBlock_recorded (h : evaluateBlock ctx env block p true s = .ok x) :
    ∃ prevSupply, prevMoneySupply s i = .ok prevSupply ∧
      x.1 = { i with
        nMint := wrap64 ((worthOf ctx s block i true block.vtx).valueOut
          - (worthOf ctx s block i true block.vtx).valueIn
          + (worthOf ctx s block i true block.vtx).fees)
        nMoneySupply := wrap64 (prevSupply + (worthOf ctx s block i true block.vtx).valueOut
          - (worthOf ctx s block i true block.vtx).valueIn) } := by
  obtain ⟨j, hj, h⟩ := bind_ok h
  obtain rfl := Option.some.inj (hi.symm.trans (index_eq_ok.mp hj))
  obtain ⟨acc, hacc, h⟩ := bind_ok h
  obtain ⟨⟨⟩, -, h⟩ := bind_ok h
  obtain ⟨prevSupply, hprev, h⟩ := bind_ok h
  cases h
  have hstart : SumsAre (ConnectAcc.start block i true) ⟨0, 0, 0⟩ := ⟨rfl, rfl, rfl⟩
  have hworth := connectLoop_worth hstart hacc
  have hled : pending s (ConnectAcc.start block i true).mapQueuedChanges = s.txdb.txIndex :=
    overlay_empty _
  have hzero (sums : BlockSums) : BlockSums.add ⟨0, 0, 0⟩ sums = sums := by
    simp [BlockSums.add]
  rw [hled, hzero] at hworth
  change SumsAre acc (worthOf ctx s block i true block.vtx) at hworth
  refine ⟨prevSupply, hprev, ?_⟩
  dsimp only [withSupply]
  rw [hworth.valueIn, hworth.valueOut, hworth.fees, wrap64_mint, wrap64_supply]

theorem unchanged_record_iff (hsame : SameButStatics s t)
    (h : evaluateBlock ctx env block p true s = .ok x) :
    Unchanged s (t.recorded ctx p x.1) ↔ AlreadyRecorded ctx s block i := by
  obtain ⟨prevSupply, hprev, hx⟩ := evaluateBlock_recorded hi h
  have hidx : t.mapBlockIndex = s.mapBlockIndex := hsame.unchanged.index
  have hview : t.txdb.view = s.txdb.view := hsame.unchanged.database
  constructor
  · intro hunchanged
    have hent := congrFun hunchanged.index p
    have hwr := congrFun hunchanged.database
      (.blockindex (ctx.hashHeader (CDiskBlockIndex.of x.1).header))
    dsimp only [NodeState.recorded, NodeState.setIndex, CTxDB.WriteBlockIndex] at hent hwr
    rw [Function.update_self, hi] at hent
    rw [Store.view_write, Function.update_self] at hwr
    -- The entry that is recorded is the one that was there.
    have hkept : x.1 = i := Option.some.inj hent
    rw [hkept] at hwr hx
    exact ⟨congrArg CBlockIndex.nMint hx,
      ⟨prevSupply, hprev, congrArg CBlockIndex.nMoneySupply hx⟩, hwr.symm⟩
  · rintro ⟨hmint, ⟨prevSupply', hprev', hsup⟩, hent⟩
    obtain rfl := ok.inj (hprev.symm.trans hprev')
    have hkept : x.1 = i := by rw [hx, ← hmint, ← hsup]
    rw [hkept]
    have hleft := hsame.unchanged
    refine ⟨?_, ?_, ?_, hleft.MAX_BLOCK_SIZE, hleft.MAX_BLOCK_SIGOPS, hleft.MAX_TX_SIGOPS,
      hleft.blocksizes, hleft.sorted⟩
    · dsimp only [NodeState.recorded, CTxDB.WriteBlockIndex]
      rw [Store.view_write, hview, ← hent, Function.update_eq_self]
    · dsimp only [NodeState.recorded, NodeState.setIndex]
      rw [hidx, ← hi, Function.update_eq_self]
    · exact hleft.globals

/-- The states after the limits have been set: nothing that a check is meant to leave alone has
changed so far exactly when all was set already. -/
theorem limits_settled_iff (h : ComputeBlockSize p s = (.ok size, t)) :
    (t.blocksizes = s.blocksizes ∧ t.sorted = s.sorted ∧ size = s.MAX_BLOCK_SIZE ∧
        size / 50 = s.MAX_BLOCK_SIGOPS ∧ size / 50 / 5 = s.MAX_TX_SIGOPS) ↔ Settled s p i := by
  obtain ⟨hstays, hsize⟩ := computeBlockSize_eq_ok hi h
  constructor
  · rintro ⟨hwin, hsort, hlim, hsigops, htx⟩
    obtain ⟨hflag, hwin'⟩ := hstays.mp ⟨hwin, hsort⟩
    rw [hwin] at hsize
    exact ⟨hflag, hwin', hlim ▸ hsize, by rw [← hlim, hsigops], by rw [← hlim, htx]⟩
  · rintro ⟨hflag, hwin', hlim, hsigops, htx⟩
    obtain ⟨hwin, hsort⟩ := hstays.mpr ⟨hflag, hwin'⟩
    have hsize' : size = s.MAX_BLOCK_SIZE := by rw [hsize, hwin, hlim]
    exact ⟨hwin, hsort, hsize', by rw [hsize', hsigops], by rw [hsize', htx]⟩

omit hi

/-- `CheckBlock` leaves what the calculator reads alone, and what `IsInitialBlockDownload`
answers. -/
theorem checkBlock_settled_iff (h : CheckBlock ctx env block false false false s = (.ok (), t)) :
    Settled t p i ↔ Settled s p i := by
  have hrest := (@keepsPart_checkBlock _
    (fun s : NodeState => { s with nLastUpdate := 0, pindexLastBest := none }) ctx env
    (fun s => by unfold NodeState.afterDownloadCheck; split <;> rfl) block false false false).of_eq h
  have hunchanged := (sameButStatics_checkBlock h).unchanged
  have hidx := hunchanged.index
  have hfiles : t.blocksDir = s.blocksDir := (congrArg NodeState.blocksDir hrest :)
  have hsizes : SameSizes s t := ⟨hidx, fun nFile => by rw [hfiles]⟩
  have hsearch : SameSearch s t := ⟨hidx, (congrArg NodeState.pindexGenesisBlock hrest :),
    (congrArg NodeState.pindexBest hrest :), (congrArg NodeState.nBestHeight hrest :),
    (congrArg NodeState.pblockindexFBBHLast hrest :)⟩
  have hwin := hunchanged.blocksizes
  constructor
  · rintro ⟨hsort, hstays, hsize, hsigops, htx⟩
    rw [hunchanged.sorted] at hsort
    rw [hunchanged.MAX_BLOCK_SIZE, hwin] at hsize
    rw [hunchanged.MAX_BLOCK_SIZE, hunchanged.MAX_BLOCK_SIGOPS] at hsigops
    rw [hunchanged.MAX_BLOCK_SIZE, hunchanged.MAX_TX_SIGOPS] at htx
    exact ⟨hsort, hstays.congr hsizes.symm hsearch.symm hwin.symm, hsize, hsigops, htx⟩
  · rintro ⟨hsort, hstays, hsize, hsigops, htx⟩
    rw [← hunchanged.sorted] at hsort
    rw [← hunchanged.MAX_BLOCK_SIZE, ← hwin] at hsize
    rw [← hunchanged.MAX_BLOCK_SIZE, ← hunchanged.MAX_BLOCK_SIGOPS] at hsigops
    rw [← hunchanged.MAX_BLOCK_SIZE, ← hunchanged.MAX_TX_SIGOPS] at htx
    exact ⟨hsort, hstays.congr hsizes hsearch hwin, hsize, hsigops, htx⟩

theorem evaluateBlock_after {r : Except Failure ℕ} {u : NodeState}
    (h : CheckBlock ctx env block false false false s = (.ok (), t))
    (h' : ComputeBlockSize p t = (r, u)) (size : ℕ)
    (hsame : SameButStatics s (u.withLimits size)) :
    evaluateBlock ctx env block p true (u.withLimits size) = evaluateBlock ctx env block p true s := by
  have hdownload : IsInitialBlockDownload ctx env (u.withLimits size)
      = IsInitialBlockDownload ctx env s := by
    have houtside := (keepsPart_computeBlockSize p).of_eq h'
    calc IsInitialBlockDownload ctx env (u.withLimits size)
        = IsInitialBlockDownload ctx env u.outsideSizes := rfl
      _ = IsInitialBlockDownload ctx env t.outsideSizes := by rw [houtside]
      _ = IsInitialBlockDownload ctx env s := (checkBlock_eq_ok h).2
  rw [hsame.eq] at hdownload ⊢
  exact evaluateBlock_withStatics hdownload block p true

theorem connectBlock_justCheck_cases {r : Except Failure (List SigCheck)}
    (h : ConnectBlock ctx env block p true s = (r, s')) :
    (∃ e, CheckBlock ctx env block false false false s = (.error e, s')) ∨
      ∃ t, CheckBlock ctx env block false false false s = (.ok (), t) ∧
        ((∃ e, ComputeBlockSize p t = (.error e, s') ∧ r = .error e) ∨
          ∃ size u, ComputeBlockSize p t = (.ok size, u) ∧
            ((∃ e, evaluateBlock ctx env block p true (u.withLimits size) = .error e ∧
                s' = u.withLimits size) ∨
              ∃ x, evaluateBlock ctx env block p true (u.withLimits size) = .ok x ∧
                s' = (u.withLimits size).recorded ctx p x.1)) := by
  obtain ⟨e, he⟩ | ⟨⟨⟩, t, hchk, h⟩ := Action.bind_cases h
  · exact .inl ⟨e, he⟩
  · refine .inr ⟨t, hchk, ?_⟩
    rw [bind_apply] at h
    rcases hcompute : ComputeBlockSize p t with ⟨e | size, u⟩ <;> rw [hcompute] at h
    · cases h
      exact .inl ⟨e, rfl, rfl⟩
    · refine .inr ⟨size, u, rfl, ?_⟩
      dsimp only at h
      rw [modify_bind, bind_apply, Action.reading_apply] at h
      rcases hx : evaluateBlock ctx env block p true (u.withLimits size) with e | x <;> rw [hx] at h
      · exact .inl ⟨e, rfl, (Prod.mk.inj h).2.symm⟩
      · exact .inr ⟨x, rfl, (Prod.mk.inj h).2.symm⟩

/-- `ConnectBlock` in check mode leaves the database, the block index, the globals, the limits on
blocks and the window of the calculator as they were exactly when the check settles. -/
theorem connectBlock_justCheck_unchanged_iff (ctx : Context) (env : Env) (s s' : NodeState)
    (block : CBlock) (p : UInt256) (r : Except Failure (List SigCheck))
    (h : ConnectBlock ctx env block p true s = (r, s')) (hreturns : Returns r) :
    Unchanged s s' ↔ CheckSettles ctx env s block p := by
  obtain ⟨e, hcheck⟩ | ⟨t, hcheck, ⟨e, hcompute, rfl⟩ | ⟨size, u, hcompute, h⟩⟩ :=
    connectBlock_justCheck_cases h
  · -- A block that `CheckBlock` rejects has no further effect.
    exact iff_of_true (sameButStatics_checkBlock hcheck).unchanged (Or.inl (by simp [hcheck]))
  · -- The calculator fails by stopping the process only.
    obtain ⟨m, rfl⟩ := computeBlockSize_crashes p t e (by rw [hcompute])
    exact absurd rfl (hreturns m)
  · have hstart := (sameButStatics_checkBlock hcheck).unchanged
    obtain ⟨i, hi⟩ := computeBlockSize_index hcompute
    have hi' : s.mapBlockIndex p = some i := hstart.index ▸ hi
    have hsettled := (limits_settled_iff hi hcompute).trans (checkBlock_settled_iff hcheck)
    have houtside := (keepsPart_computeBlockSize p).of_eq hcompute
    have hSIZE : u.MAX_BLOCK_SIZE = t.MAX_BLOCK_SIZE := (congrArg NodeState.MAX_BLOCK_SIZE houtside :)
    -- When all is set already, the calculator and the limits change static variables only.
    have hsame (hall : Settled s p i) : SameButStatics s (u.withLimits size) := by
      obtain ⟨hwindow, hsorted, hlimit, hsigops, htx⟩ := hsettled.mpr hall
      refine ((sameButStatics_checkBlock hcheck).trans
        (sameButStatics_of_sizes houtside hwindow hsorted)).trans (sameButStatics_withLimits ?_ ?_ ?_)
      · rw [hlimit, hSIZE]
      · rw [hsigops]
        exact (congrArg NodeState.MAX_BLOCK_SIGOPS houtside :)
      · rw [htx]
        exact (congrArg NodeState.MAX_TX_SIGOPS houtside :)
    -- What the calculator leaves in the window and in the limits is there at the end.
    have hall (hwindow : u.blocksizes = s.blocksizes) (hsorted : u.sorted = s.sorted)
        (hlimit : size = s.MAX_BLOCK_SIZE) (hsigops : size / 50 = s.MAX_BLOCK_SIGOPS)
        (htx : size / 50 / 5 = s.MAX_TX_SIGOPS) : Settled s p i := by
      rw [← hstart.blocksizes] at hwindow
      rw [← hstart.sorted] at hsorted
      rw [← hstart.MAX_BLOCK_SIZE] at hlimit
      rw [← hstart.MAX_BLOCK_SIGOPS] at hsigops
      rw [← hstart.MAX_TX_SIGOPS] at htx
      exact hsettled.mp ⟨hwindow, hsorted, hlimit, hsigops, htx⟩
    have hok : (CheckBlock ctx env block false false false s).1 = .ok () := by rw [hcheck]
    rcases h with ⟨e, he, rfl⟩ | ⟨x, hx, rfl⟩
    · constructor
      · intro hun
        have hset := hall hun.blocksizes hun.sorted hun.MAX_BLOCK_SIZE hun.MAX_BLOCK_SIGOPS
          hun.MAX_TX_SIGOPS
        rw [evaluateBlock_after hcheck hcompute size (hsame hset)] at he
        exact Or.inr ⟨i, hi', hset, Or.inl fun x hx => by simp [he] at hx⟩
      · rintro (hrejected | ⟨j, hj, hset, -⟩)
        · exact absurd hok hrejected
        · obtain rfl := Option.some.inj (hi'.symm.trans hj)
          exact (hsame hset).unchanged
    · constructor
      · intro hun
        have hset := hall hun.blocksizes hun.sorted hun.MAX_BLOCK_SIZE hun.MAX_BLOCK_SIGOPS
          hun.MAX_TX_SIGOPS
        rw [evaluateBlock_after hcheck hcompute size (hsame hset)] at hx
        exact Or.inr ⟨i, hi', hset, Or.inr ((unchanged_record_iff hi' (hsame hset) hx).mp hun)⟩
      · rintro (hrejected | ⟨j, hj, hset, hrest⟩)
        · exact absurd hok hrejected
        · obtain rfl := Option.some.inj (hi'.symm.trans hj)
          rw [evaluateBlock_after hcheck hcompute size (hsame hset)] at hx
          rcases hrest with hfails | hrecorded
          · exact absurd hx (hfails x)
          · exact (unchanged_record_iff hi' (hsame hset) hx).mpr hrecorded

end

/-! ## A check that lowers the limit on blocks -/

def checkingNode : NodeState :=
  { emptyNode with
    mapBlockIndex := Function.update (Function.update (fun _ => none)
      1 (some (plainIndex 1 0 none (overpaidBlock 1)))) 2
      (some (plainIndex 2 1 (some 1) (overpaidBlock 2)))
    pindexGenesisBlock := some 1
    pindexBest := some 1
    hashBestChain := 1
    nBestHeight := 0 }

def checkedNode : NodeState :=
  (ConnectBlock overpaidContext (plainEnv 2000) (overpaidBlock 2) 2 true checkingNode).2

/-- The check passes, but it lowers the limit on blocks, and it records the mint of the block in the
index and in the database. A check that does not pass lowers the limit as well. -/
theorem checkingNode_changed :
    (ConnectBlock overpaidContext (plainEnv 2000) (overpaidBlock 2) 2 true checkingNode).1
        = .ok [] ∧
      checkingNode.MAX_BLOCK_SIZE = 20512000 ∧ checkedNode.MAX_BLOCK_SIZE = 2051200 ∧
      (checkingNode.mapBlockIndex 2).map CBlockIndex.nMint = some 0 ∧
      (checkedNode.mapBlockIndex 2).map CBlockIndex.nMint = some COIN ∧
      (checkingNode.txdb.view (.blockindex 2)).isNone ∧
      (checkedNode.txdb.view (.blockindex 2)).isSome ∧
      (ConnectBlock (chainedContext true) (plainEnv 2000) chainedBlock 2 true chainedNode).1
        = .error (.error "FetchInputs() : ReadFromDisk prev tx failed") ∧
      (ConnectBlock (chainedContext true) (plainEnv 2000) chainedBlock 2 true
        chainedNode).2.MAX_BLOCK_SIZE = 2051200 := by
  refine ⟨?_, ?_, ?_, ?_, ?_, ?_, ?_, ?_, ?_⟩ <;> decide

/-- A second check of the block changes nothing. -/
theorem checkedNode_unchanged : Unchanged checkedNode
    (ConnectBlock overpaidContext (plainEnv 2000) (overpaidBlock 2) 2 true checkedNode).2 := by
  have hreturns : Returns
      (ConnectBlock overpaidContext (plainEnv 2000) (overpaidBlock 2) 2 true checkedNode).1 := by
    have hok : (ConnectBlock overpaidContext (plainEnv 2000) (overpaidBlock 2) 2 true
        checkedNode).1 = .ok [] := by decide
    intro m hcrash
    rw [hok] at hcrash
    cases hcrash
  refine (connectBlock_justCheck_unchanged_iff _ _ _ _ _ _ _ (Prod.mk.eta).symm hreturns).mpr
    (Or.inr ⟨withSupply (plainIndex 2 1 (some 1) (overpaidBlock 2)) 0
      { ConnectAcc.start (overpaidBlock 2) (plainIndex 2 1 (some 1) (overpaidBlock 2)) true with
        nValueOut := COIN }, ?_, ⟨?_, .low ?_, ?_, ?_, ?_⟩, Or.inr ⟨?_, ⟨0, ?_, ?_⟩, ?_⟩⟩)
  all_goals decide

end ZalemCoin.Chain
