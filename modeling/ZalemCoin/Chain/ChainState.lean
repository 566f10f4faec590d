import ZalemCoin.Chain.BlockValue
import ZalemCoin.Lib.ParentTree

/-!
# The blocks of a chain and what they have connected

A branch of the block index, from its tip up to the genesis block, determines which transactions the
transaction index has: those of all of its blocks but the genesis block, whose transactions are
never connected. What connecting a block has recorded about it is a relation between its entry, the
entry before it and these transactions.
-/

namespace ZalemCoin.Chain

open Lib

variable (ctx : Context)

/-- The transactions of the block of an index, with their positions. -/
def NodeState.txsOf (s : NodeState) (p : UInt256) : Placed :=
  match s.mapBlockIndex p with
  | none => []
  | some i =>
    match ctx.files.block i.nFile i.nBlockPos with
    | none => []
    | some block => placedTransactions i.nFile i.nBlockPos block.vtx

/-- The transactions that the blocks of a branch have connected, first to last. The branch is given
from its tip up to the genesis block. -/
def connectedTxs (ctx : Context) (s : NodeState) : List UInt256 → Placed
  | p :: q :: path => connectedTxs ctx s (q :: path) ++ s.txsOf ctx p
  | _ => []

/-- The transaction index of a branch: the result of connecting exactly its blocks. -/
def chainLedger (s : NodeState) (path : List UInt256) :
    Ledger UInt256 CDiskTxPos :=
  Ledger.ledgerOf CDiskTxPos.null (spendsOf ctx (connectedTxs ctx s path))

/-- What the block on top of a branch spends, creates and leaves as fees. -/
def tipSums (s : NodeState) (p : UInt256) (path : List UInt256) : BlockSums :=
  blockSums ctx (connectedTxs ctx s path) (s.txsOf ctx p)

structure BlockRecorded (s : NodeState) (p q : UInt256) (path : List UInt256)
    (i j : CBlockIndex) : Prop where
  entry : s.mapBlockIndex p = some i
  parent : i.pprev = some q
  prev : s.mapBlockIndex q = some j
  stored : ∃ block, ctx.files.block i.nFile i.nBlockPos = some block
  /-- None of its outputs is negative. -/
  values : ∀ u ∈ s.txsOf ctx p, ∀ txout ∈ u.2.vout, 0 ≤ txout.nValue
  connects : Ledger.Connects CDiskTxPos.null (chainLedger ctx s (q :: path))
    (spendsOf ctx (s.txsOf ctx p))
  mint : i.nMint = wrap64 ((tipSums ctx s p (q :: path)).valueOut
    - (tipSums ctx s p (q :: path)).valueIn + (tipSums ctx s p (q :: path)).fees)
  supply : i.nMoneySupply = wrap64 (j.nMoneySupply + (tipSums ctx s p (q :: path)).valueOut
    - (tipSums ctx s p (q :: path)).valueIn)

/-- A branch whose blocks, but for the genesis block, have been connected one after the other. -/
inductive Chained (ctx : Context) (s : NodeState) : List UInt256 → Prop
  | genesis {g : UInt256} {i : CBlockIndex} (hentry : s.mapBlockIndex g = some i)
      (hroot : i.pprev = none) (hsupply : i.nMoneySupply = 0) : Chained ctx s [g]
  | block {p q : UInt256} {path : List UInt256} {i j : CBlockIndex}
      (h : BlockRecorded ctx s p q path i j) (hrest : Chained ctx s (q :: path)) :
      Chained ctx s (p :: q :: path)

variable {p : UInt256} {i : CBlockIndex} {ctx : Context} {path : List UInt256} {s s' : NodeState}

theorem parent_eq (h : s.mapBlockIndex p = some i) : s.parent p = i.pprev := by
  unfold NodeState.parent
  rw [h, Option.bind_some]

theorem txsOf_eq {ctx : Context} {p : UInt256} {i : CBlockIndex} {block : CBlock}
    (hent : s.mapBlockIndex p = some i)
    (hstor : ctx.files.block i.nFile i.nBlockPos = some block) :
    s.txsOf ctx p = placedTransactions i.nFile i.nBlockPos block.vtx := by
  unfold NodeState.txsOf
  rw [hent]
  dsimp only
  rw [hstor]

theorem chainLedger_cons (ctx : Context) (s : NodeState) (p q : UInt256) (path : List UInt256) :
    chainLedger ctx s (p :: q :: path)
      = (spendsOf ctx (s.txsOf ctx p)).foldl (Ledger.connect CDiskTxPos.null)
          (chainLedger ctx s (q :: path)) := by
  unfold chainLedger
  rw [connectedTxs, spendsOf_append, Ledger.ledgerOf, List.foldl_append]
  rfl

theorem Chained.branch (h : Chained ctx s (p :: path)) :
    Branch s.parent p (p :: path) := by
  induction path generalizing p with
  | nil =>
    cases h with
    | genesis hent hroot =>
      exact Branch.root ((parent_eq hent).trans hroot)
  | cons q path ih =>
    cases h with
    | block hrec hrest =>
      exact Branch.step ((parent_eq hrec.entry).trans hrec.parent) (ih hrest)

section

variable (h : Chained ctx s path)
include h

theorem Chained.exists_entry (hp : p ∈ path) :
    ∃ i, s.mapBlockIndex p = some i := by
  induction h with
  | genesis hent _ _ =>
    obtain rfl := List.mem_singleton.mp hp
    exact ⟨_, hent⟩
  | block hrec _ ih =>
    rcases List.mem_cons.mp hp with rfl | hp
    · exact ⟨_, hrec.entry⟩
    · exact ih hp

theorem Chained.wellPlaced :
    WellPlaced ctx (connectedTxs ctx s path) := by
  induction h with
  | genesis => intro p hp; simp [connectedTxs] at hp
  | block hrec _ ih =>
    obtain ⟨block, hstor⟩ := hrec.stored
    refine wellPlaced_append.mpr ⟨ih, ?_⟩
    rw [txsOf_eq hrec.entry hstor]
    exact wellPlaced_placedTransactions hstor

theorem Chained.connects :
    Ledger.Connects CDiskTxPos.null (fun _ => none) (spendsOf ctx (connectedTxs ctx s path)) := by
  induction h with
  | genesis => exact trivial
  | block hrec _ ih =>
    rw [connectedTxs, spendsOf_append, Ledger.connects_append]
    exact ⟨ih, hrec.connects⟩

theorem Chained.recorded :
    Ledger.Recorded CDiskTxPos.null (spendsOf ctx (connectedTxs ctx s path))
      (chainLedger ctx s path) :=
  Ledger.recorded_ledgerOf h.wellPlaced.pos_ne_null h.connects

theorem Chained.ledgerValue_nonneg :
    0 ≤ ledgerValue ctx (connectedTxs ctx s path) := by
  have hvalues : ∀ u ∈ connectedTxs ctx s path, ∀ txout ∈ u.2.vout, 0 ≤ txout.nValue := by
    induction h with
    | genesis => simp [connectedTxs]
    | block hrec _ ih =>
      intro u hu
      rcases List.mem_append.mp hu with hu | hu
      · exact ih u hu
      · exact hrec.values u hu
  exact Finset.sum_nonneg fun k _ => outputValue_nonneg hvalues k

end

theorem Chained.supply (h : Chained ctx s (p :: path)) (hi : s.mapBlockIndex p = some i) :
    i.nMoneySupply = wrap64 (ledgerValue ctx (connectedTxs ctx s (p :: path))) := by
  induction path generalizing p i with
  | nil =>
    cases h with
    | genesis hent hroot hsup =>
      obtain rfl := Option.mem_unique hent hi
      rw [hsup]
      rfl
  | cons q path ih =>
    have hplaced := h.wellPlaced
    have hconn := h.connects
    cases h with
    | block hrec hrest =>
      obtain rfl := Option.mem_unique hrec.entry hi
      rw [hrec.supply, ih hrest hrec.prev, connectedTxs,
        ledgerValue_append hplaced hconn, add_sub_assoc, wrap64_add_wrap64_left,
        ← add_sub_assoc]
      rfl

/-! ## What the blocks of a branch depend on -/

def SameEntry (s s' : NodeState) (p : UInt256) : Prop :=
  (s'.mapBlockIndex p).map CBlockIndex.unlinked = (s.mapBlockIndex p).map CBlockIndex.unlinked

theorem SameEntry.exists_eq (h : SameEntry s s' p) (hi : s.mapBlockIndex p = some i) :
    ∃ i', s'.mapBlockIndex p = some i' ∧ i'.unlinked = i.unlinked := by
  unfold SameEntry at h
  rw [hi] at h
  rcases hi' : s'.mapBlockIndex p with _ | i'
  · rw [hi'] at h
    simp at h
  · rw [hi'] at h
    exact ⟨i', rfl, Option.some.inj h⟩

theorem SameEntry.map_eq (h : SameEntry s s' p) {γ : Type} (part : CBlockIndex → γ)
    (hpart : ∀ i, part i = part i.unlinked) :
    (s'.mapBlockIndex p).map part = (s.mapBlockIndex p).map part := by
  have hcomp (m : Option CBlockIndex) : m.map part = (m.map CBlockIndex.unlinked).map part := by
    rw [Option.map_map]
    exact congrArg (Option.map · m) (funext hpart)
  rw [hcomp, hcomp (s.mapBlockIndex p), h]

theorem txsOf_congr (ctx : Context)
    (h : (s'.mapBlockIndex p).map (fun i => (i.nFile, i.nBlockPos))
      = (s.mapBlockIndex p).map fun i => (i.nFile, i.nBlockPos)) :
    s'.txsOf ctx p = s.txsOf ctx p := by
  unfold NodeState.txsOf
  rcases h₁ : s.mapBlockIndex p with _ | i <;> rcases h₂ : s'.mapBlockIndex p with _ | i' <;>
    rw [h₁, h₂] at h
  · simp at h
  · simp at h
  · obtain ⟨hfile, hpos⟩ := Prod.mk.inj (Option.some.inj h)
    dsimp only at hfile hpos ⊢
    rw [hfile, hpos]

theorem connectedTxs_congr (ctx : Context)
    (h : ∀ p ∈ path, (s'.mapBlockIndex p).map (fun i => (i.nFile, i.nBlockPos))
      = (s.mapBlockIndex p).map fun i => (i.nFile, i.nBlockPos)) :
    connectedTxs ctx s' path = connectedTxs ctx s path := by
  induction path with
  | nil => rfl
  | cons p path ih =>
    cases path with
    | nil => rfl
    | cons q path =>
      rw [connectedTxs, connectedTxs, txsOf_congr ctx (h p List.mem_cons_self),
        ih fun x hx => h x (List.mem_cons_of_mem _ hx)]

theorem connectedTxs_of_sameEntry (ctx : Context) (h : ∀ p ∈ path, SameEntry s s' p) :
    connectedTxs ctx s' path = connectedTxs ctx s path :=
  connectedTxs_congr ctx fun p hp =>
    (h p hp).map_eq (fun i => (i.nFile, i.nBlockPos)) fun _ => rfl

/-- An entry without its links and without what connecting its block records. -/
def CBlockIndex.place (i : CBlockIndex) : CBlockIndex :=
  { i with pnext := none, nMint := 0, nMoneySupply := 0 }

def SamePlace (s s' : NodeState) : Prop :=
  ∀ p, (s'.mapBlockIndex p).map CBlockIndex.place = (s.mapBlockIndex p).map CBlockIndex.place

namespace SamePlace

theorem trans {s'' : NodeState} (h : SamePlace s s') (h' : SamePlace s' s'') : SamePlace s s'' :=
  fun p => (h' p).trans (h p)

variable (h : SamePlace s s')
include h

theorem map_eq (p : UInt256) {γ : Type} (part : CBlockIndex → γ)
    (hpart : ∀ i, part i = part i.place) :
    (s'.mapBlockIndex p).map part = (s.mapBlockIndex p).map part := by
  have hcomp (m : Option CBlockIndex) : m.map part = (m.map CBlockIndex.place).map part := by
    rw [Option.map_map]
    exact congrArg (Option.map · m) (funext hpart)
  rw [hcomp, hcomp (s.mapBlockIndex p), h p]

theorem parent_eq : s'.parent = s.parent := by
  have hjoin (m : Option CBlockIndex) :
      m.bind CBlockIndex.pprev = (m.map CBlockIndex.pprev).join := by
    cases m <;> rfl
  funext p
  unfold NodeState.parent
  rw [hjoin, hjoin, h.map_eq p CBlockIndex.pprev fun _ => rfl]

theorem exists_eq {i' : CBlockIndex} (hi : s'.mapBlockIndex p = some i') :
    ∃ i, s.mapBlockIndex p = some i ∧ i'.place = i.place := by
  have hmap := h p
  rw [hi] at hmap
  rcases hi' : s.mapBlockIndex p with _ | i
  · rw [hi'] at hmap
    simp at hmap
  · rw [hi'] at hmap
    exact ⟨i, rfl, Option.some.inj hmap⟩

theorem connectedTxs_eq (ctx : Context) (path : List UInt256) :
    connectedTxs ctx s' path = connectedTxs ctx s path :=
  connectedTxs_congr ctx fun p _ => h.map_eq p (fun i => (i.nFile, i.nBlockPos)) fun _ => rfl

theorem chainLedger_eq (ctx : Context) (path : List UInt256) :
    chainLedger ctx s' path = chainLedger ctx s path := by
  unfold chainLedger
  rw [h.connectedTxs_eq]

end SamePlace

theorem SameEntry.place_eq (h : SameEntry s s' p) :
    (s'.mapBlockIndex p).map CBlockIndex.place = (s.mapBlockIndex p).map CBlockIndex.place :=
  h.map_eq CBlockIndex.place fun _ => rfl

theorem Chained.congr (h : Chained ctx s path) (heq : ∀ p ∈ path, SameEntry s s' p) :
    Chained ctx s' path := by
  induction h with
  | genesis hent hroot hsup =>
    obtain ⟨i', hi', hlink⟩ := (heq _ List.mem_cons_self).exists_eq hent
    refine Chained.genesis hi' ?_ ?_
    · exact (congrArg CBlockIndex.pprev hlink :).trans hroot
    · exact (congrArg CBlockIndex.nMoneySupply hlink :).trans hsup
  | @block p q path i j hrec _ ih =>
    have hrest : ∀ x ∈ q :: path, SameEntry s s' x := fun x hx =>
      heq x (List.mem_cons_of_mem _ hx)
    have htop := heq p List.mem_cons_self
    obtain ⟨i', hi', hlink⟩ := htop.exists_eq hrec.entry
    obtain ⟨j', hj', hlink'⟩ := (hrest q List.mem_cons_self).exists_eq hrec.prev
    have htxs : s'.txsOf ctx p = s.txsOf ctx p :=
      txsOf_congr ctx (htop.map_eq (fun i => (i.nFile, i.nBlockPos)) fun _ => rfl)
    have hconn := connectedTxs_of_sameEntry ctx hrest
    have hled : chainLedger ctx s' (q :: path) = chainLedger ctx s (q :: path) := by
      unfold chainLedger
      rw [hconn]
    have hsums : tipSums ctx s' p (q :: path) = tipSums ctx s p (q :: path) := by
      unfold tipSums
      rw [hconn, htxs]
    refine Chained.block ⟨hi', ?_, hj', ?_, ?_, ?_, ?_, ?_⟩ (ih hrest)
    · exact (congrArg CBlockIndex.pprev hlink :).trans hrec.parent
    · rw [show i'.nFile = i.nFile from (congrArg CBlockIndex.nFile hlink :),
        show i'.nBlockPos = i.nBlockPos from (congrArg CBlockIndex.nBlockPos hlink :)]
      exact hrec.stored
    · rw [htxs]
      exact hrec.values
    · rw [hled, htxs]
      exact hrec.connects
    · rw [hsums]
      exact (congrArg CBlockIndex.nMint hlink :).trans hrec.mint
    · rw [hsums, show j'.nMoneySupply = j.nMoneySupply from
        (congrArg CBlockIndex.nMoneySupply hlink' :)]
      exact (congrArg CBlockIndex.nMoneySupply hlink :).trans hrec.supply

end ZalemCoin.Chain
