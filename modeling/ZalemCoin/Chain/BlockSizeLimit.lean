import ZalemCoin.Chain.Frame
import ZalemCoin.Chain.PlainContext
import ZalemCoin.Lib.ParentTree

/-!
# What the block size calculator computes

The calculator is meant to return twice the median of the sizes of the last blocks. It reads the
sizes from the files of the directory `blocks`, which the node never writes: blocks are stored
elsewhere. So every size that it ever reads is zero, and the limit is the minimum, in every state
that a node can reach.
-/

namespace ZalemCoin.Chain

open Lib
open Lib.Action (Maintains)

def MAX_BLOCK_SIZE_START : ℕ := 20512000

/-! ## What the calculator is meant to compute -/

variable (ctx : Context)

def blockSizeAt (s : NodeState) (p : UInt256) : ℕ :=
  match (s.mapBlockIndex p).bind fun i => ctx.files.block i.nFile i.nBlockPos with
  | some block => block.GetSerializeSize
  | none => 0

def ancestorSizes (s : NodeState) (p : UInt256) : List ℕ :=
  (lastAncestors s.parent NUM_BLOCKS_FOR_MEDIAN_BLOCK p).map (blockSizeAt ctx s)

def medianSize (sizes : List ℕ) : ℕ := (sizes.insertionSort (· ≤ ·)).getD (sizes.length / 2) 0

/-- The limit for a block by the sizes of its ancestors: twice their median, or the minimum when
that is larger or when the block has too few ancestors. -/
def specifiedBlockSize (s : NodeState) (p : UInt256) : ℕ :=
  if (ancestorSizes ctx s p).length = NUM_BLOCKS_FOR_MEDIAN_BLOCK then
    max MIN_BLOCK_SIZE (2 * medianSize (ancestorSizes ctx s p))
  else MIN_BLOCK_SIZE

def AncestorsSmall (s : NodeState) (p : UInt256) : Prop :=
  (ancestorSizes ctx s p).length = NUM_BLOCKS_FOR_MEDIAN_BLOCK →
    2 * medianSize (ancestorSizes ctx s p) ≤ MIN_BLOCK_SIZE

theorem min_eq_specified_iff (ctx : Context) (s : NodeState) (p : UInt256) :
    MIN_BLOCK_SIZE = specifiedBlockSize ctx s p ↔ AncestorsSmall ctx s p := by
  unfold specifiedBlockSize AncestorsSmall
  split <;> omega

/-! ## What it computes -/

/-- No block has been written to the directory `blocks`, and no size but zero has been read. -/
structure CalculatorBlank (s : NodeState) : Prop where
  dir : ∀ nFile file, s.blocksDir nFile = some file → file = []
  window : ∀ size ∈ s.blocksizes, size = 0

theorem sizeBefore_nil (nPos : UInt32) : sizeBefore [] nPos = 0 := by
  unfold sizeBefore
  simp

theorem getBlockSize_blank (p : Option UInt256) :
    Maintains CalculatorBlank (GetBlockSize p) fun size => size ≠ 0xffffffff → size = 0 := by
  cases p with
  | none => exact Maintains.pure fun h => absurd rfl h
  | some p =>
    refine Maintains.bind (Maintains.reading _) fun i _ => ?_
    refine Maintains.bind (Maintains.check _ _) fun _ _ => ?_
    refine Maintains.bind Maintains.get fun s hs => ?_
    have hfile : (s.blocksDir i.nFile).getD [] = [] := by
      rcases hdir : s.blocksDir i.nFile with _ | file
      · rfl
      · exact hs.dir _ _ hdir
    rw [hfile]
    refine Maintains.bind (Maintains.modify fun s hs => ?_) fun _ _ => ?_
    · refine ⟨fun nFile file h => ?_, hs.window⟩
      dsimp only at h
      by_cases heq : nFile = i.nFile
      · rw [heq, Function.update_self] at h
        exact (Option.some.inj h).symm
      · rw [Function.update_of_ne heq] at h
        exact hs.dir _ _ h
    · exact Maintains.pure fun _ => sizeBefore_nil _

theorem findBlockByHeight_blank (nHeight : ℕ) :
    Maintains CalculatorBlank (FindBlockByHeight nHeight) fun _ => True := by
  refine Maintains.bind (Maintains.reading _) fun p _ => ?_
  refine Maintains.bind (Maintains.modify fun s hs => ?_) fun _ _ => ?_
  · exact ⟨hs.dir, hs.window⟩
  · exact Maintains.pure trivial

theorem collectSizes_blank (firstBlock fuel : ℕ) (p : Option UInt256) :
    Maintains CalculatorBlank (collectSizes firstBlock fuel p) fun _ => True := by
  induction fuel generalizing p with
  | zero =>
    cases p
    · exact Maintains.pure trivial
    · exact Maintains.fail _
  | succ fuel ih =>
    cases p with
    | none => exact Maintains.pure trivial
    | some p =>
      refine Maintains.bind (Maintains.reading _) fun i _ => ?_
      refine Maintains.ite (fun _ => ?_) fun _ => Maintains.pure trivial
      refine Maintains.bind (getBlockSize_blank _) fun size hsize => ?_
      refine Maintains.bind (Maintains.modify fun s hs => ?_) fun _ _ => ih _
      split
      · refine ⟨hs.dir, fun size' hmem => ?_⟩
        rcases List.mem_append.mp hmem with hmem | hmem
        · exact hs.window _ hmem
        · rw [List.mem_singleton.mp hmem]
          exact hsize ‹_›
      · exact hs

theorem moveWindow_blank (pblockindex : UInt256) (firstBlock : ℕ) :
    Maintains CalculatorBlank (moveWindow pblockindex firstBlock) fun _ => True := by
  refine Maintains.bind (getBlockSize_blank _) fun latest hlatest => ?_
  refine Maintains.ite (fun hne => ?_) fun _ => Maintains.pure trivial
  refine Maintains.bind (findBlockByHeight_blank _) fun first _ => ?_
  refine Maintains.bind (getBlockSize_blank _) fun oldest _ => ?_
  refine Maintains.ite (fun _ => ?_) fun _ => Maintains.pure trivial
  refine Maintains.modify fun s hs => ?_
  split
  · refine ⟨hs.dir, fun size hmem => ?_⟩
    rcases List.eq_or_mem_of_mem_insertIdx hmem with heq | hmem
    · rw [heq]
      exact hlatest hne
    · exact hs.window _ (List.mem_of_mem_erase hmem)
  · exact hs

theorem medianOf_blank {sizes : List UInt32} (h : ∀ size ∈ sizes, size = 0) :
    medianOf sizes = 0 := by
  have hget (i : ℕ) : sizes.getD i 0 = 0 := by
    rw [List.getD_eq_getElem?_getD]
    rcases hi : sizes[i]? with _ | size
    · rfl
    · exact h size (List.mem_of_getElem? hi)
  unfold medianOf
  simp only [hget]
  split <;> rfl

theorem computeBlockSize_blank (p : UInt256) :
    Maintains CalculatorBlank (ComputeBlockSize p) fun size => size = MIN_BLOCK_SIZE := by
  have hsizes : Maintains CalculatorBlank (GetBlockSizes p NUM_BLOCKS_FOR_MEDIAN_BLOCK)
      fun _ => True := by
    refine Maintains.bind (Maintains.reading _) fun i _ => ?_
    refine Maintains.ite (fun _ => Maintains.pure trivial) fun _ => ?_
    refine Maintains.bind Maintains.get fun s _ => ?_
    exact Maintains.ite (fun _ => moveWindow_blank _ _) fun _ => collectSizes_blank _ _ _
  have hmedian : Maintains CalculatorBlank
      (GetMedianBlockSize p NUM_BLOCKS_FOR_MEDIAN_BLOCK) fun size => size = 0 := by
    refine Maintains.bind hsizes fun _ _ => ?_
    refine Maintains.bind (Maintains.modify fun s hs => ?_) fun _ _ => ?_
    · split
      · exact hs
      · exact ⟨hs.dir, fun size hmem => hs.window _ ((List.mem_insertionSort _).mp hmem)⟩
    · refine Maintains.bind Maintains.get fun s hs => Maintains.pure ?_
      rw [medianOf_blank hs.window]
      exact ite_self _
  refine Maintains.bind hmedian fun size hsize => ?_
  refine Maintains.ite (fun hpos => ?_) fun _ => Maintains.pure rfl
  rw [hsize] at hpos
  exact absurd hpos (by decide)

/-! ## Runs of a node -/

/-- The part of the state that decides about the limit. -/
def NodeState.calculator (s : NodeState) : (UInt32 → Option (List UInt8)) × List UInt32 × ℕ :=
  (s.blocksDir, s.blocksizes, s.MAX_BLOCK_SIZE)

structure Started (s : NodeState) : Prop where
  blocksizes : s.blocksizes = []
  sorted : s.sorted = false
  limit : s.MAX_BLOCK_SIZE = MAX_BLOCK_SIZE_START

/-- What a node does, as far as the calculator is concerned: it calls `ConnectBlock`, which is the
only function that asks for a limit, it does something else, or it is stopped and started again. -/
inductive CalculatorStep (ctx : Context) : NodeState → NodeState → Prop
  | connect (env : Env) (block : CBlock) (pindex : UInt256) (fJustCheck : Bool) (s : NodeState) :
      CalculatorStep ctx s (ConnectBlock ctx env block pindex fJustCheck s).2
  | elsewhere {s s' : NodeState} (h : s'.calculator = s.calculator)
      (hsorted : s'.sorted = s.sorted) : CalculatorStep ctx s s'
  | restart {s s' : NodeState} (hdir : s'.blocksDir = s.blocksDir) (hstarted : Started s') :
      CalculatorStep ctx s s'

def CalculatorReaches (s : NodeState) : Prop :=
  ∃ s₀, Started s₀ ∧ (∀ nFile, s₀.blocksDir nFile = none) ∧
    Relation.ReflTransGen (CalculatorStep ctx) s₀ s

/-- What holds in all of these states: the files are blank, and the limit is still the one of the
start or is the minimum. -/
structure CalculatorInv (s : NodeState) : Prop where
  blank : CalculatorBlank s
  limit : s.MAX_BLOCK_SIZE = MAX_BLOCK_SIZE_START ∨ s.MAX_BLOCK_SIZE = MIN_BLOCK_SIZE

theorem CalculatorInv.of_eq {s s' : NodeState} (h : CalculatorInv s)
    (heq : s'.calculator = s.calculator) : CalculatorInv s' := by
  obtain ⟨hdir, hrest⟩ := Prod.mk.inj heq
  obtain ⟨hsizes, hlim⟩ := Prod.mk.inj hrest
  refine ⟨⟨?_, ?_⟩, ?_⟩
  · rw [hdir]
    exact h.blank.dir
  · rw [hsizes]
    exact h.blank.window
  · rw [hlim]
    exact h.limit

theorem maintains_of_keepsPart {α : Type} {x : NodeM α} (h : KeepsPart NodeState.calculator x) :
    Maintains CalculatorInv x fun _ => True :=
  fun s hs => ⟨hs.of_eq (h s), fun _ _ => trivial⟩

theorem keepsCalculator_checkBlock (ctx : Context) (env : Env) (block : CBlock)
    (fCheckPOW fCheckMerkleRoot fCheckSig : Bool) :
    KeepsPart NodeState.calculator
      (CheckBlock ctx env block fCheckPOW fCheckMerkleRoot fCheckSig) := by
  refine keepsPart_checkBlock ctx env (fun s => ?_) block _ _ _
  unfold NodeState.afterDownloadCheck
  split <;> rfl

theorem keepsCalculator_writeBlock (ctx : Context) (block : CBlock) (pindex : UInt256)
    (pprev : Option UInt256) (queue : TestPool) :
    KeepsPart NodeState.calculator (writeBlock ctx block pindex pprev queue) :=
  KeepsPart.writeBlock block pindex pprev queue fun _ _ => rfl

theorem computeBlockSize_inv (p : UInt256) :
    Maintains CalculatorInv (ComputeBlockSize p) fun size => size = MIN_BLOCK_SIZE := by
  intro s hs
  have hlim : (ComputeBlockSize p s).2.MAX_BLOCK_SIZE = s.MAX_BLOCK_SIZE :=
    (congrArg NodeState.MAX_BLOCK_SIZE (keepsPart_computeBlockSize p s) :)
  obtain ⟨hblank, hsize⟩ := computeBlockSize_blank p s hs.blank
  refine ⟨⟨hblank, ?_⟩, hsize⟩
  rw [hlim]
  exact hs.limit

theorem connectBlock_inv (ctx : Context) (env : Env) (block : CBlock) (pindex : UInt256)
    (fJustCheck : Bool) :
    Maintains CalculatorInv (ConnectBlock ctx env block pindex fJustCheck)
      fun _ => True := by
  refine Maintains.bind
    (maintains_of_keepsPart (keepsCalculator_checkBlock _ _ _ _ _ _)) fun _ _ => ?_
  refine Maintains.bind (computeBlockSize_inv pindex) fun size hsize => ?_
  refine Maintains.bind (Maintains.modify fun s hs => ?_) fun _ _ => ?_
  · exact ⟨⟨hs.blank.dir, hs.blank.window⟩, .inr hsize⟩
  refine maintains_of_keepsPart ?_
  refine KeepsPart.bind (KeepsPart.reading _) fun connected => ?_
  refine KeepsPart.bind (KeepsPart.modify fun _ => rfl) fun _ => ?_
  refine KeepsPart.ite (KeepsPart.pure _) ?_
  exact KeepsPart.bind (keepsCalculator_writeBlock _ _ _ _ _) fun _ => KeepsPart.pure _

theorem CalculatorStep.inv {ctx : Context} {s s' : NodeState} (h : CalculatorStep ctx s s')
    (hs : CalculatorInv s) : CalculatorInv s' := by
  cases h with
  | connect env block pindex fJustCheck =>
    exact (connectBlock_inv ctx env block pindex fJustCheck s hs).1
  | elsewhere h => exact hs.of_eq h
  | restart hdir hstarted =>
    refine ⟨⟨?_, ?_⟩, .inl hstarted.limit⟩
    · rw [hdir]
      exact hs.blank.dir
    · rw [hstarted.blocksizes]
      simp

theorem CalculatorReaches.inv {ctx : Context} {s : NodeState} (h : CalculatorReaches ctx s) :
    CalculatorInv s := by
  obtain ⟨s₀, hstarted, hdir, hrun⟩ := h
  induction hrun with
  | refl =>
    refine ⟨⟨fun nFile file hfile => ?_, ?_⟩, .inl hstarted.limit⟩
    · rw [hdir] at hfile
      simp at hfile
    · rw [hstarted.blocksizes]
      simp
  | tail _ hstep ih => exact hstep.inv ih

/-- In every state that a node reaches, the limit that it computes for a block is the specified one
exactly when the ancestors of the block are small; and two nodes apply the same limit exactly when
both or neither of them have replaced the one that they were started with. -/
theorem computeBlockSize_eq_specified_iff {ctx : Context} {s : NodeState}
    (hs : CalculatorReaches ctx s) :
    (∀ p size s', ComputeBlockSize p s = (.ok size, s') →
      (size = specifiedBlockSize ctx s p ↔ AncestorsSmall ctx s p)) ∧
    ∀ ctx' s', CalculatorReaches ctx' s' → (s'.MAX_BLOCK_SIZE = s.MAX_BLOCK_SIZE ↔
      (s'.MAX_BLOCK_SIZE = MAX_BLOCK_SIZE_START ↔ s.MAX_BLOCK_SIZE = MAX_BLOCK_SIZE_START)) := by
  constructor
  · intro p size s' hcompute
    obtain ⟨-, hsize⟩ := (computeBlockSize_inv p).of_eq_ok hs.inv hcompute
    rw [hsize]
    exact min_eq_specified_iff ctx s p
  · intro ctx' s' hs'
    have hne : MIN_BLOCK_SIZE ≠ MAX_BLOCK_SIZE_START := by decide
    rcases hs.inv.limit with h | h <;> rcases hs'.inv.limit with h' | h' <;> rw [h, h'] <;>
      simp [hne, hne.symm]

def bigScript : CScript := List.replicate 1100000 0

def bigBlock (id : UInt32) : CBlock :=
  plainBlock id (id - 1) 0 [plainTx id [coinbaseInput] [⟨0, bigScript⟩]]

theorem bigBlock_size (id : UInt32) : (bigBlock id).GetSerializeSize = 1100152 := by
  have hlen : bigScript.length = 1100000 := List.length_replicate
  unfold bigBlock plainBlock plainTx CBlock.GetSerializeSize CTransaction.GetSerializeSize
    CTxOut.GetSerializeSize CTxIn.GetSerializeSize bytesSize
  simp [coinbaseInput, hlen, GetSizeOfCompactSize]

def bigContext : Context :=
  plainContext (BlockFiles.ofBlocks (fun nFile => some (bigBlock nFile)) (by
    intro nFile block h
    cases h
    rw [bigBlock_size]
    decide)) 1 true

def bigNode : NodeState :=
  { emptyNode with
    mapBlockIndex := fun h =>
      if 1 ≤ h.toNat ∧ h.toNat ≤ 26 then
        some (plainIndex (UInt32.ofNat h.toNat) (h.toNat - 1)
          (if h.toNat = 1 then none else some (h - 1)) (bigBlock (UInt32.ofNat h.toNat)))
      else none
    pindexGenesisBlock := some 1
    pindexBest := some 26
    hashBestChain := 26
    nBestHeight := 25 }

theorem bigNode_reached : CalculatorReaches bigContext bigNode :=
  ⟨bigNode, ⟨rfl, rfl, rfl⟩, fun _ => rfl, Relation.ReflTransGen.refl⟩

theorem bigNode_ancestorSizes :
    ancestorSizes bigContext bigNode 26 = List.replicate 25 1100152 := by
  have hancestors : lastAncestors bigNode.parent NUM_BLOCKS_FOR_MEDIAN_BLOCK 26
      = (List.range 25).map fun i => BitVec.ofNat 256 (25 - i) := by decide
  have hsize (i : ℕ) (hi : i < 25) :
      blockSizeAt bigContext bigNode (BitVec.ofNat 256 (25 - i)) = 1100152 := by
    have hent : ∃ nFile, (bigNode.mapBlockIndex (BitVec.ofNat 256 (25 - i))).map
          (fun i => (i.nFile, i.nBlockPos)) = some (nFile, 8) ∧
        nFile ≠ 0 ∧ nFile ≠ 0xffffffff := by
      refine ⟨UInt32.ofNat (25 - i), ?_⟩
      revert i
      decide
    obtain ⟨nFile, hent, hfst, hlast⟩ := hent
    obtain ⟨index, hidx, hpos⟩ := Option.map_eq_some_iff.mp hent
    obtain ⟨hfile, hblockpos⟩ := Prod.mk.inj hpos
    have hblock : bigContext.files.block index.nFile index.nBlockPos = some (bigBlock nFile) := by
      rw [hfile, hblockpos]
      exact if_neg (by simp [hfst, hlast])
    unfold blockSizeAt
    rw [hidx, Option.bind_some, hblock]
    exact bigBlock_size nFile
  unfold ancestorSizes
  rw [hancestors, List.map_map]
  refine List.eq_replicate_iff.mpr ⟨by simp, fun size hmem => ?_⟩
  obtain ⟨i, hi, rfl⟩ := List.mem_map.mp hmem
  exact hsize i (List.mem_range.mp hi)

/-- Its ancestors are not small, and so the limit is not the specified one. -/
theorem bigNode_limit_wrong :
    ¬MIN_BLOCK_SIZE = specifiedBlockSize bigContext bigNode 26 := by
  have hcompute : ComputeBlockSize 26 bigNode
      = (.ok MIN_BLOCK_SIZE, (ComputeBlockSize 26 bigNode).2) :=
    Action.eq_of_fst (by decide +kernel)
  rw [(computeBlockSize_eq_specified_iff bigNode_reached).1 26 _ _ hcompute]
  unfold AncestorsSmall
  rw [bigNode_ancestorSizes]
  decide

/-- The node computes the minimum for a block whose 25 ancestors all have more than a megabyte, so
that twice their median is more than the minimum. -/
theorem bigNode_limit_differs :
    CalculatorReaches bigContext bigNode ∧
      (ComputeBlockSize 26 bigNode).1 = .ok MIN_BLOCK_SIZE ∧
      specifiedBlockSize bigContext bigNode 26 = 2200304 ∧ MIN_BLOCK_SIZE = 2051200 := by
  refine ⟨bigNode_reached, by decide +kernel, ?_, rfl⟩
  unfold specifiedBlockSize
  rw [bigNode_ancestorSizes]
  decide

end ZalemCoin.Chain
