import ZalemCoin.Chain.MissingInputs
import ZalemCoin.Script.Spendable
import ZalemCoin.Wallet.Balance

/-!
# Committing a transaction

`CommitTransaction` records a new transaction before it is broadcast: the wallet keeps the key of the
change, takes the transaction in, and marks the outputs that it spends, in memory and in its database.
Only then is the transaction offered to the memory pool. When the pool refuses it, what has been
recorded stays.
-/

namespace ZalemCoin.Wallet

open Chain Lib Script InstantX
open Function (update update_of_ne update_self)
open AList (lookup_insert lookup_insert_ne)
open OwnedTx (spentAt)

/-! ## Texts in stealth payments -/

/-- The text that an output carries, behind the letters `np`. -/
def plaintextNarration (txout : CTxOut) : Option (List UInt8) := do
  let op ← readInstruction txout.scriptPubKey
  guard (op.opcode = OP_RETURN)
  let data ← readInstruction op.rest
  guard (data.vch.length ≠ 33 ∧ data.vch.take 2 = [0x6e, 0x70])
  let op ← readInstruction data.rest
  guard (op.opcode = OP_RETURN)
  let narration ← readInstruction op.rest
  guard (narration.vch ≠ [])
  return narration.vch

/-- The texts of a transaction. Each belongs to the output before the one that carries it. -/
def mapNarr (tx : CTransaction) : List (String × List UInt8) :=
  tx.vout.zipIdx.filterMap fun p =>
    (plaintextNarration p.1).map fun sNarr => ("n_" ++ toString ((p.2 : ℤ) - 1), sNarr)

def textBytes (s : String) : List UInt8 := s.toList.map fun c => UInt8.ofNat c.toNat

/-- Adds the texts of a transaction to those that it carries. -/
def OwnedTx.withNarrations (wtx : OwnedTx) : OwnedTx :=
  { wtx with mapValue :=
      (mapNarr wtx.tx).foldl (fun m item => m.insert (textBytes item.1) item.2) wtx.mapValue }

/-! ## Taking a transaction in -/

/-- Enters something into the ordered list, behind what has the same position. -/
def insertOrdered (nOrderPos : ℤ) (item : TxItem) (l : List (ℤ × TxItem)) : List (ℤ × TxItem) :=
  l.takeWhile (fun e => e.1 ≤ nOrderPos) ++
    (nOrderPos, item) :: l.dropWhile fun e => e.1 ≤ nOrderPos

def OwnedTx.merge (wtx wtxIn : OwnedTx) : Bool × OwnedTx :=
  let fBlock := decide (wtxIn.hashBlock ≠ 0 ∧ wtxIn.hashBlock ≠ wtx.hashBlock)
  let wtx := if fBlock then { wtx with hashBlock := wtxIn.hashBlock } else wtx
  let fBranch := decide (wtxIn.nIndex ≠ -1 ∧
    (wtxIn.vMerkleBranch ≠ wtx.vMerkleBranch ∨ wtxIn.nIndex ≠ wtx.nIndex))
  let wtx :=
    if fBranch then { wtx with vMerkleBranch := wtxIn.vMerkleBranch, nIndex := wtxIn.nIndex } else wtx
  let fFrom := wtxIn.fFromMe && wtxIn.fFromMe != wtx.fFromMe
  let wtx := if fFrom then { wtx with fFromMe := wtxIn.fFromMe } else wtx
  let (fSpent, wtx) := wtx.UpdateSpent wtxIn.vfSpent
  (fBlock || fBranch || fFrom || fSpent, wtx)

def OwnedTx.record (wtx : OwnedTx) : WalletRecord := { wtx.toWalletRecord with fMerkleVerified := false }

namespace CoinWallet

variable (ctx : WalletContext) (env : WalletEnv)

def WriteToDisk (w : CoinWallet) (wtx : OwnedTx) : Bool × CoinWallet :=
  if env.dbWrites w.nWrites then
    (true, { w with
      nWrites := w.nWrites + 1
      db := Function.update w.db (ctx.hashTx wtx.tx) (some wtx.record) })
  else (false, { w with nWrites := w.nWrites + 1 })

def IncOrderPosNext (w : CoinWallet) : ℤ × CoinWallet :=
  (w.nOrderPosNext, { w with
    nOrderPosNext := w.nOrderPosNext + 1
    nWrites := w.nWrites + 1
    dbOrderPosNext :=
      if env.dbWrites w.nWrites then some (w.nOrderPosNext + 1) else w.dbOrderPosNext })

def put (w : CoinWallet) (hash : UInt256) (wtx : OwnedTx) : CoinWallet :=
  { w with mapWallet := w.mapWallet.insert hash wtx }

/-- The time of something in the ordered list. -/
def smartTime (w : CoinWallet) : TxItem → Option ℤ
  | .tx hash => (w.mapWallet.lookup hash).map fun wtx =>
      (if wtx.nTimeSmart = 0 then wtx.nTimeReceived else wtx.nTimeSmart).toNat
  | .entry nTime => some nTime

/-- The time of a new transaction: that of its block, but not before the last one in the ordered list
whose time is tolerated. -/
def nTimeSmart (w : CoinWallet) (wtxIn : OwnedTx) (nTimeReceived : UInt32) : UInt32 :=
  if wtxIn.hashBlock = 0 then nTimeReceived
  else
    match w.node.chain.mapBlockIndex wtxIn.hashBlock with
    | none => nTimeReceived
    | some pindex =>
      let latestTolerated : ℤ := (nTimeReceived + 300).toNat
      let latest := (w.wtxOrdered.reverse.filterMap fun e => w.smartTime e.2).find? fun nSmartTime =>
        nSmartTime ≤ latestTolerated
      match latest with
      | none => min pindex.nTime nTimeReceived
      | some nSmartTime =>
        let latestNow :=
          if (nTimeReceived.toNat : ℤ) < nSmartTime then UInt32.ofInt nSmartTime else nTimeReceived
        max (UInt32.ofInt nSmartTime) (min pindex.nTime latestNow)

def inserted (w : CoinWallet) (wtxIn : OwnedTx) : OwnedTx :=
  let nTimeReceived := UInt32.ofInt env.adjustedTime
  { wtxIn.BindWallet with
    nTimeReceived
    nOrderPos := w.nOrderPosNext
    nTimeSmart := w.nTimeSmart wtxIn nTimeReceived }

def insertNew (w : CoinWallet) (hash : UInt256) (wtxIn : OwnedTx) : CoinWallet :=
  let wtx := w.inserted env wtxIn
  let (nOrderPos, w) := w.IncOrderPosNext env
  { w.put hash wtx with wtxOrdered := insertOrdered nOrderPos (.tx hash) w.wtxOrdered }

/-- Takes a transaction in, and says whether the database took it. -/
def AddToWallet (w : CoinWallet) (wtxIn : OwnedTx) : Bool × CoinWallet :=
  let hash := ctx.hashTx wtxIn.tx
  let (fWrite, wtx, w) : Bool × OwnedTx × CoinWallet :=
    match w.mapWallet.lookup hash with
    | none => (true, w.inserted env wtxIn, w.insertNew env hash wtxIn)
    | some wtx =>
      let (fUpdated, wtx) := wtx.BindWallet.merge wtxIn
      (fUpdated, wtx, w.put hash wtx)
  if fWrite then
    let (fWritten, w) := w.WriteToDisk ctx env wtx
    -- The caches are empty already when a write that fails ends the call.
    if fWritten then (true, w.put hash wtx.MarkDirty) else (false, w)
  else (true, w.put hash wtx.MarkDirty)

def spendCoin (txin : CTxIn) : Action CoinWallet Failure Unit := fun w =>
  let hash := txin.prevout.hash
  let coin := ((w.mapWallet.lookup hash).getD (OwnedTx.Init env)).BindWallet
  match coin.MarkSpent txin.prevout.n.toNat with
  | .error e => (.error e, w.put hash coin)
  | .ok coin => (.ok (), ((w.put hash coin).WriteToDisk ctx env coin).2)

end CoinWallet

/-! ## Committing -/

def onNode {α : Type} (x : Action Node Failure α) : Action CoinWallet Failure α := fun w =>
  let (r, node) := x w.node
  (r, { w with node := node })

def onChain {α : Type} (x : NodeM α) : Action CoinWallet Failure α := fun w =>
  let (r, chain) := x w.node.chain
  (r, { w with node := { w.node with chain := chain } })

def noteLockReq (hash : UInt256) (tx : CTransaction) (n : Node) : Node :=
  { n with
    mapTxLockReq := Function.update n.mapTxLockReq hash (some ((n.mapTxLockReq hash).getD tx)) }

/-- Requests the lock of a transaction, if it is to be locked. What is sent to the other
nodes is not part of the state. -/
def RelayWalletTransaction (ctx : WalletContext) (env : WalletEnv) (wtx : OwnedTx) (strCommand : String) :
    Action CoinWallet Failure Unit :=
  if wtx.tx.IsCoinBase = true ∨ wtx.tx.IsCoinStake = true then pure ()
  else do
    let nDepth ← Action.reading fun w => wtx.GetDepthInMainChain ctx env w.node
    if nDepth = 0 ∧ strCommand = "txlreq" then do
      onNode (Action.modify (noteLockReq (ctx.hashTx wtx.tx) wtx.tx))
      let _ ← onNode (CreateNewLock ctx.toContext env.toIxEnv wtx.tx)
      pure ()
    else pure ()

def recordTransaction (ctx : WalletContext) (env : WalletEnv) (wtxNew : OwnedTx)
    (reservekey : CReserveKey) : Action CoinWallet Failure Unit := do
  Action.modify fun w =>
    { w with keys := w.keys.FindStealthTransactions ctx.keyContext wtxNew.tx }
  Action.modify fun w => { w with keyPool := (reservekey.KeepKey w.keyPool).2 }
  Action.modify fun w => (w.AddToWallet ctx env wtxNew.withNarrations).2
  wtxNew.tx.vin.forM (CoinWallet.spendCoin ctx env)
  Action.modify fun w =>
    { w with mapRequestCount := Function.update w.mapRequestCount (ctx.hashTx wtxNew.tx) (some 0) }

/-- Commits a transaction. The result says whether the memory pool has accepted it, and has the
transaction and the reserved key as the caller sees them afterwards. -/
def CommitTransaction (ctx : WalletContext) (env : WalletEnv) (wtxNew : OwnedTx)
    (reservekey : CReserveKey) (strCommand : String) :
    Action CoinWallet Failure (Bool × OwnedTx × CReserveKey) := do
  recordTransaction ctx env wtxNew reservekey
  let fAccepted ← onChain
    (attempt (AcceptToMemoryPool ctx.toContext env.toEnv wtxNew.tx false true false))
  if fAccepted then RelayWalletTransaction ctx env wtxNew strCommand else pure ()
  pure (fAccepted, wtxNew.withNarrations, CReserveKey.empty)

/-! ## The wallet as a ledger -/

def prevouts (tx : CTransaction) : Set COutPoint := {o | ∃ txin ∈ tx.vin, txin.prevout = o}

def ownMarks (hash : UInt256) (wtx : OwnedTx) : Set COutPoint :=
  {o | o.hash = hash ∧ OwnedTx.spentAt wtx.toWalletRecord o.n.toNat = true}

def spendsOf (vin : List CTxIn) (hash : UInt256) (i : ℕ) : Bool :=
  vin.any fun txin => txin.prevout.hash == hash && txin.prevout.n.toNat == i

namespace CoinWallet

def knows (w : CoinWallet) : Set UInt256 := {hash | hash ∈ w.mapWallet}

def spent (w : CoinWallet) : Set COutPoint :=
  {o | ∃ wtx, w.mapWallet.lookup o.hash = some wtx ∧ o.n.toNat < wtx.tx.vout.length ∧
    OwnedTx.spentAt wtx.toWalletRecord o.n.toNat = true}

def spentOnDisk (w : CoinWallet) : Set COutPoint :=
  {o | ∃ r, w.db o.hash = some r ∧ o.n.toNat < r.tx.vout.length ∧ OwnedTx.spentAt r o.n.toNat = true}

def Keyed (ctx : WalletContext) (w : CoinWallet) : Prop :=
  ∀ hash wtx, w.mapWallet.lookup hash = some wtx → ctx.hashTx wtx.tx = hash

section

variable {ctx : WalletContext} {env : WalletEnv} {w w' : CoinWallet} {txin : CTxIn} {vin : List CTxIn}

theorem spendsOf_eq_true {o : COutPoint} :
    spendsOf vin o.hash o.n.toNat = true ↔ ∃ txin ∈ vin, txin.prevout = o := by
  unfold spendsOf
  rw [List.any_eq_true]
  constructor
  · rintro ⟨txin, htxin, h⟩
    obtain ⟨hhash, hn⟩ := Bool.and_eq_true_iff.mp h
    refine ⟨txin, htxin, ?_⟩
    rw [COutPoint.mk.injEq]
    exact ⟨eq_of_beq hhash, UInt32.toNat_inj.mp (eq_of_beq hn)⟩
  · rintro ⟨txin, htxin, rfl⟩
    exact ⟨txin, htxin, by simp⟩

def Covers (w : CoinWallet) (txin : CTxIn) : Prop :=
  ∃ coin, w.mapWallet.lookup txin.prevout.hash = some coin ∧ txin.prevout.n.toNat < coin.tx.vout.length

theorem spendCoin_eq_ok (h : spendCoin ctx env txin w = (.ok (), w')) :
    ∃ coin coin', w.mapWallet.lookup txin.prevout.hash = some coin ∧
      txin.prevout.n.toNat < coin.tx.vout.length ∧
      OwnedTx.Remarked (fun i => i == txin.prevout.n.toNat) coin coin' ∧
      w' = ((w.put txin.prevout.hash coin').WriteToDisk ctx env coin').2 := by
  unfold spendCoin at h
  dsimp only at h
  split at h
  · exact nomatch (Prod.mk.inj h).1
  · rename_i coin' hmark
    obtain ⟨hlt, hmarks⟩ := OwnedTx.remarked_of_markSpent hmark
    rcases hcoin : w.mapWallet.lookup txin.prevout.hash with _ | coin
    · rw [hcoin] at hlt
      exact absurd hlt (Nat.not_lt_zero _)
    · rw [hcoin] at hlt hmarks
      exact ⟨coin, coin', rfl, hlt, hmarks, (Prod.mk.inj h).2.symm⟩

theorem mapWallet_writeToDisk (w : CoinWallet) (wtx : OwnedTx) :
    (w.WriteToDisk ctx env wtx).2 = { w with
      db := (w.WriteToDisk ctx env wtx).2.db
      nWrites := (w.WriteToDisk ctx env wtx).2.nWrites } := by
  unfold WriteToDisk
  split_ifs
  · rfl
  · rfl

theorem marked_spendCoin (h : spendCoin ctx env txin w = (.ok (), w')) :
    Marked (spendsOf [txin]) w w' := by
  obtain ⟨coin, coin', hcoin, -, hmarks, rfl⟩ := spendCoin_eq_ok h
  have hwallet : ((w.put txin.prevout.hash coin').WriteToDisk ctx env coin').2.mapWallet
      = w.mapWallet.insert txin.prevout.hash coin' := by
    rw [mapWallet_writeToDisk]
    rfl
  have hspends : ∀ hash i, spendsOf [txin] hash i
      = (txin.prevout.hash == hash && txin.prevout.n.toNat == i) := fun hash i => by
    unfold spendsOf
    rw [List.any_cons, List.any_nil, Bool.or_false]
  refine ⟨?_, fun hash wtx hwtx => ?_, fun hash hnone => ?_⟩
  · rw [mapWallet_writeToDisk]
    rfl
  · rw [hwallet]
    by_cases heq : hash = txin.prevout.hash
    · subst heq
      obtain rfl := Option.mem_unique hcoin hwtx
      refine ⟨coin', lookup_insert _, hmarks.congr fun i => ?_⟩
      rw [hspends, beq_self_eq_true, Bool.true_and, Bool.beq_comm]
    · refine ⟨wtx, by rw [lookup_insert_ne heq, hwtx], (OwnedTx.Remarked.refl wtx).congr fun i => ?_⟩
      rw [hspends, beq_eq_false_iff_ne.mpr (Ne.symm heq), Bool.false_and]
  · rw [hwallet, lookup_insert_ne, hnone]
    rintro rfl
    exact nomatch hcoin.symm.trans hnone

theorem marked_forM (h : vin.forM (spendCoin ctx env) w = (.ok (), w')) :
    Marked (spendsOf vin) w w' := by
  induction vin generalizing w with
  | nil =>
    obtain rfl : w = w' := (Prod.mk.inj h).2
    exact Marked.refl w
  | cons txin vin ih =>
    obtain ⟨t, hstep, hrest⟩ := Action.forM_cons_eq_ok.mp h
    have hmarked := (marked_spendCoin hstep).trans (ih hrest)
    have hsplit : spendsOf (txin :: vin)
        = fun hash i => spendsOf [txin] hash i || spendsOf vin hash i := by
      funext hash i
      unfold spendsOf
      rw [List.any_cons, List.any_cons, List.any_nil, Bool.or_false]
    rw [hsplit]
    exact hmarked

theorem Marked.covers_iff {marks : UInt256 → ℕ → Bool} (h : Marked marks w w') :
    Covers w' txin ↔ Covers w txin := by
  unfold Covers
  rcases hcoin : w.mapWallet.lookup txin.prevout.hash with _ | coin
  · rw [h.unknown _ hcoin]
  · obtain ⟨coin', hcoin', hmarks⟩ := h.known _ coin hcoin
    rw [hcoin']
    have hvout : coin'.tx.vout = coin.tx.vout := congrArg (·.tx.vout) hmarks.toCWalletTx_eq
    simp [hvout]

theorem covers_of_forM (h : vin.forM (spendCoin ctx env) w = (.ok (), w')) :
    ∀ txin ∈ vin, Covers w txin := by
  induction vin generalizing w with
  | nil => exact fun _ htxin => absurd htxin List.not_mem_nil
  | cons txin vin ih =>
    obtain ⟨t, hstep, hrest⟩ := Action.forM_cons_eq_ok.mp h
    intro txin' htxin'
    rcases List.mem_cons.mp htxin' with rfl | htxin'
    · obtain ⟨coin, -, hcoin, hlt, -⟩ := spendCoin_eq_ok hstep
      exact ⟨coin, hcoin, hlt⟩
    · exact (marked_spendCoin hstep).covers_iff.mp (ih hrest txin' htxin')

theorem spent_of_forM (h : vin.forM (spendCoin ctx env) w = (.ok (), w')) :
    w'.spent = w.spent ∪ {o | ∃ txin ∈ vin, txin.prevout = o} := by
  have hmarked := marked_forM h
  have hcovers := covers_of_forM h
  ext o
  constructor
  · rintro ⟨wtx', hwtx', hlt, hspent⟩
    rcases hwtx : w.mapWallet.lookup o.hash with _ | wtx
    · exact nomatch (hmarked.unknown _ hwtx).symm.trans hwtx'
    · obtain ⟨wtx'', hwtx'', hmarks⟩ := hmarked.known _ wtx hwtx
      obtain rfl := Option.mem_unique hwtx'' hwtx'
      rw [congrArg (·.tx.vout) hmarks.toCWalletTx_eq] at hlt
      rw [hmarks.spent _ hlt, Bool.or_eq_true, spendsOf_eq_true] at hspent
      exact hspent.imp_left fun hold => ⟨wtx, hwtx, hlt, hold⟩
  · intro ho
    have hin : ∃ wtx, w.mapWallet.lookup o.hash = some wtx ∧ o.n.toNat < wtx.tx.vout.length := by
      rcases ho with ⟨wtx, hwtx, hlt, -⟩ | ⟨txin, htxin, rfl⟩
      · exact ⟨wtx, hwtx, hlt⟩
      · exact hcovers txin htxin
    obtain ⟨wtx, hwtx, hlt⟩ := hin
    obtain ⟨wtx', hwtx', hmarks⟩ := hmarked.known _ wtx hwtx
    refine ⟨wtx', hwtx', by rwa [congrArg (·.tx.vout) hmarks.toCWalletTx_eq], ?_⟩
    rw [hmarks.spent _ hlt, Bool.or_eq_true, spendsOf_eq_true]
    rcases ho with ⟨wtx'', hwtx'', -, hold⟩ | hnew
    · obtain rfl := Option.mem_unique hwtx hwtx''
      exact .inl hold
    · exact .inr hnew

theorem Marked.keyed {marks : UInt256 → ℕ → Bool} (h : Marked marks w w') (hkeyed : w.Keyed ctx) :
    w'.Keyed ctx := by
  intro hash wtx' hwtx'
  rcases hwtx : w.mapWallet.lookup hash with _ | wtx
  · exact nomatch (h.unknown _ hwtx).symm.trans hwtx'
  · obtain ⟨wtx'', hwtx'', hmarks⟩ := h.known _ wtx hwtx
    obtain rfl := Option.mem_unique hwtx'' hwtx'
    rw [congrArg (·.tx) hmarks.toCWalletTx_eq]
    exact hkeyed hash wtx hwtx

theorem spentOnDisk_writeToDisk {wtx : OwnedTx}
    (hwtx : w.mapWallet.lookup (ctx.hashTx wtx.tx) = some wtx) :
    (w.WriteToDisk ctx env wtx).2.spentOnDisk ⊆ w.spentOnDisk ∪ w.spent := by
  rintro o ⟨r, hr, hlt, hspent⟩
  unfold WriteToDisk at hr
  split_ifs at hr
  · dsimp only at hr
    by_cases heq : o.hash = ctx.hashTx wtx.tx
    · rw [heq, update_self] at hr
      cases hr
      exact .inr ⟨wtx, by rw [heq, hwtx], hlt, hspent⟩
    · rw [update_of_ne heq] at hr
      exact .inl ⟨r, hr, hlt, hspent⟩
  · exact .inl ⟨r, hr, hlt, hspent⟩

theorem spendCoin_writes (hkeyed : w.Keyed ctx) (h : spendCoin ctx env txin w = (.ok (), w')) :
    ∃ (t : CoinWallet) (wtx : OwnedTx), t.mapWallet = w'.mapWallet ∧ t.db = w.db ∧ t.nWrites = w.nWrites ∧
      w' = (t.WriteToDisk ctx env wtx).2 ∧ ctx.hashTx wtx.tx = txin.prevout.hash ∧
      t.mapWallet.lookup (ctx.hashTx wtx.tx) = some wtx := by
  obtain ⟨coin, coin', hcoin, -, hmarks, rfl⟩ := spendCoin_eq_ok h
  have hhash : ctx.hashTx coin'.tx = txin.prevout.hash := by
    rw [congrArg (·.tx) hmarks.toCWalletTx_eq]
    exact hkeyed _ coin hcoin
  refine ⟨w.put txin.prevout.hash coin', coin', ?_, rfl, rfl, rfl, hhash, ?_⟩
  · rw [mapWallet_writeToDisk]
  · rw [hhash]
    exact lookup_insert _

theorem spentOnDisk_of_forM (hkeyed : w.Keyed ctx)
    (h : vin.forM (spendCoin ctx env) w = (.ok (), w')) : w'.spentOnDisk ⊆ w.spentOnDisk ∪ w'.spent := by
  induction vin generalizing w with
  | nil =>
    obtain rfl : w = w' := (Prod.mk.inj h).2
    exact Set.subset_union_left
  | cons txin vin ih =>
    obtain ⟨t, hstep, hrest⟩ := Action.forM_cons_eq_ok.mp h
    have hlater : t.spent ⊆ w'.spent := by
      rw [spent_of_forM hrest]
      exact Set.subset_union_left
    obtain ⟨u, wtx, hwallet, hdb, -, rfl, -, hwtx⟩ := spendCoin_writes hkeyed hstep
    have hspent : u.spent = (u.WriteToDisk ctx env wtx).2.spent := by
      unfold spent
      rw [hwallet]
    have hdisk : u.spentOnDisk = w.spentOnDisk := by
      unfold spentOnDisk
      rw [hdb]
    intro o ho
    rcases ih ((marked_spendCoin hstep).keyed hkeyed) hrest ho with ho | ho
    · rcases spentOnDisk_writeToDisk hwtx ho with ho | ho
      · exact .inl (hdisk ▸ ho)
      · exact .inr (hlater (hspent ▸ ho))
    · exact .inr ho

theorem onDisk_of_forM {marked : Set COutPoint} (hkeyed : w.Keyed ctx)
    (hwrites : ∀ n, env.dbWrites n = true) (hmarked : marked ⊆ w.spentOnDisk ∩ w.spent)
    (h : vin.forM (spendCoin ctx env) w = (.ok (), w')) :
    marked ∪ {o | ∃ txin ∈ vin, txin.prevout = o} ⊆ w'.spentOnDisk := by
  induction vin generalizing w marked with
  | nil =>
    obtain rfl : w = w' := (Prod.mk.inj h).2
    rintro o (ho | ⟨txin, htxin, -⟩)
    · exact (hmarked ho).1
    · exact absurd htxin List.not_mem_nil
  | cons txin vin ih =>
    obtain ⟨t, hstep, hrest⟩ := Action.forM_cons_eq_ok.mp h
    have hspent : t.spent = w.spent ∪ {o | ∃ a ∈ [txin], a.prevout = o} :=
      spent_of_forM (Action.forM_cons_eq_ok.mpr ⟨t, hstep, rfl⟩)
    obtain ⟨u, wtx, hwallet, hdb, -, rfl, hhash, hwtx⟩ := spendCoin_writes hkeyed hstep
    -- The record that is written has all the marks that the wallet has for the transaction.
    have hstay : marked ∪ {o | ∃ a ∈ [txin], a.prevout = o}
        ⊆ (u.WriteToDisk ctx env wtx).2.spentOnDisk ∩ (u.WriteToDisk ctx env wtx).2.spent := by
      intro o ho
      have hin : o ∈ (u.WriteToDisk ctx env wtx).2.spent := by
        rw [hspent]
        exact ho.imp_left fun ho => (hmarked ho).2
      refine ⟨?_, hin⟩
      have hwr : (u.WriteToDisk ctx env wtx).2.db
          = update w.db txin.prevout.hash (some wtx.record) := by
        unfold WriteToDisk
        rw [if_pos (hwrites _), ← hdb, hhash]
      by_cases heq : o.hash = txin.prevout.hash
      · obtain ⟨wtx', hwtx', hlt, hmark⟩ := hin
        rw [← hwallet, heq, ← hhash, hwtx] at hwtx'
        cases hwtx'
        exact ⟨wtx.record, by rw [hwr, heq, update_self], hlt, hmark⟩
      · rcases ho with ho | ⟨a, ha, rfl⟩
        · obtain ⟨r, hr, hlt, hmark⟩ := (hmarked ho).1
          exact ⟨r, by rw [hwr, update_of_ne heq, hr], hlt, hmark⟩
        · obtain rfl := List.mem_singleton.mp ha
          exact absurd rfl heq
    intro o ho
    refine ih ((marked_spendCoin hstep).keyed hkeyed) hstay hrest ?_
    rcases ho with ho | ⟨a, ha, rfl⟩
    · exact .inl (.inl ho)
    · rcases List.mem_cons.mp ha with rfl | ha
      · exact .inl (.inr ⟨a, List.mem_cons_self, rfl⟩)
      · exact .inr ⟨a, ha, rfl⟩

end

variable {ctx : WalletContext} {env : WalletEnv} {w w' : CoinWallet} {wtx wtxIn : OwnedTx}
  {hash : UInt256}

theorem merge_spec (wtx wtxIn : OwnedTx) :
    (wtx.BindWallet.merge wtxIn).2.tx = wtx.tx ∧
      (wtx.BindWallet.merge wtxIn).2.MarkDirty = (wtx.BindWallet.merge wtxIn).2 ∧
      ∀ i, spentAt (wtx.BindWallet.merge wtxIn).2.toWalletRecord i
        = (spentAt wtx.toWalletRecord i || (decide (i < wtx.vfSpent.length) &&
            spentAt wtxIn.toWalletRecord i)) := by
  have hmarks : ∀ i, ((wtx.vfSpent.mapIdx fun i f => f || wtxIn.vfSpent[i]?.getD false)[i]?.getD false)
      = (spentAt wtx.toWalletRecord i || (decide (i < wtx.vfSpent.length) &&
            spentAt wtxIn.toWalletRecord i)) := by
    intro i
    unfold spentAt
    rw [List.getElem?_mapIdx]
    by_cases hi : i < wtx.vfSpent.length
    · rw [List.getElem?_eq_getElem hi, decide_eq_true hi, Bool.true_and]
      rfl
    · rw [List.getElem?_eq_none (Nat.le_of_not_lt hi), decide_eq_false hi]
      rfl
  unfold OwnedTx.merge OwnedTx.UpdateSpent
  dsimp only
  split_ifs with hblock hbr hfrom hsame <;>
    refine ⟨rfl, rfl, fun i => ?_⟩ <;> rw [← hmarks i]
  all_goals first
    | rfl
    | exact congrArg (fun l : List Bool => l[i]?.getD false) (Eq.symm ‹_›)

theorem writeToDisk_spec (w : CoinWallet) (wtx : OwnedTx) :
    ∃ fWritten db n, w.WriteToDisk ctx env wtx = (fWritten, { w with db := db, nWrites := n }) ∧
      (db = w.db ∨ db = update w.db (ctx.hashTx wtx.tx) (some wtx.record)) := by
  unfold WriteToDisk
  split_ifs
  · exact ⟨_, _, _, rfl, .inr rfl⟩
  · exact ⟨_, _, _, rfl, .inl rfl⟩

theorem put_markDirty {v : CoinWallet} (hv : v.mapWallet = w.mapWallet.insert hash wtx)
    (hdirty : wtx.MarkDirty = wtx) : v.put hash wtx.MarkDirty = v := by
  unfold put
  rw [hdirty, hv, AList.insert_insert, ← hv]

theorem addToWallet_new (hnew : w.mapWallet.lookup (ctx.hashTx wtxIn.tx) = none) :
    ∃ db n, (w.AddToWallet ctx env wtxIn).2 =
      { w.insertNew env (ctx.hashTx wtxIn.tx) wtxIn with db := db, nWrites := n } ∧
      (db = w.db ∨ db = update w.db (ctx.hashTx wtxIn.tx) (some (w.inserted env wtxIn).record)) := by
  obtain ⟨fWritten, db, n, hwrite, hdb⟩ := @writeToDisk_spec ctx env
    (w.insertNew env (ctx.hashTx wtxIn.tx) wtxIn) (w.inserted env wtxIn)
  refine ⟨db, n, ?_, hdb⟩
  unfold AddToWallet
  dsimp only
  rw [hnew]
  rw [if_pos rfl, hwrite]
  cases fWritten with
  | false => rfl
  | true => exact @put_markDirty w _ _ _ rfl rfl

theorem addToWallet_known (hwtx : w.mapWallet.lookup (ctx.hashTx wtxIn.tx) = some wtx) :
    ∃ db n, (w.AddToWallet ctx env wtxIn).2 =
      { w.put (ctx.hashTx wtxIn.tx) (wtx.BindWallet.merge wtxIn).2 with db := db, nWrites := n } ∧
      (db = w.db ∨ db = update w.db (ctx.hashTx (wtx.BindWallet.merge wtxIn).2.tx)
        (some (wtx.BindWallet.merge wtxIn).2.record)) := by
  obtain ⟨fWritten, db, n, hwrite, hdb⟩ := @writeToDisk_spec ctx env
    (w.put (ctx.hashTx wtxIn.tx) (wtx.BindWallet.merge wtxIn).2) (wtx.BindWallet.merge wtxIn).2
  have hdirty := (merge_spec wtx wtxIn).2.1
  unfold AddToWallet
  dsimp only
  rw [hwtx]
  split_ifs with hupdated hwr
  · rw [hwrite]
    exact ⟨db, n, @put_markDirty w _ _ _ rfl hdirty, hdb⟩
  · rw [hwrite]
    exact ⟨db, n, rfl, hdb⟩
  · exact ⟨_, _, @put_markDirty w _ _ _ rfl hdirty, .inl rfl⟩

structure TakenIn (ctx : WalletContext) (wtxIn : OwnedTx) (w w' : CoinWallet) : Prop where
  rest : w'.node = w.node ∧ w'.keyPool = w.keyPool
  knows : w'.knows = insert (ctx.hashTx wtxIn.tx) w.knows
  ordered : w'.wtxOrdered = if ctx.hashTx wtxIn.tx ∈ w.mapWallet then w.wtxOrdered
    else insertOrdered w.nOrderPosNext (.tx (ctx.hashTx wtxIn.tx)) w.wtxOrdered
  kept : w.spent ⊆ w'.spent
  marks : w'.spent ⊆ w.spent ∪ ownMarks (ctx.hashTx wtxIn.tx) wtxIn
  keyed : w.Keyed ctx → w'.Keyed ctx
  onDisk : w.Keyed ctx → w'.spentOnDisk ⊆ w.spentOnDisk ∪ w'.spent

theorem spentOnDisk_update {r : WalletRecord} (hwtx : w'.mapWallet.lookup hash = some wtx)
    (hr : r.tx = wtx.tx ∧ r.vfSpent = wtx.vfSpent)
    (hdb : w'.db = w.db ∨ w'.db = update w.db hash (some r)) :
    w'.spentOnDisk ⊆ w.spentOnDisk ∪ w'.spent := by
  rintro o ⟨r', hr', hlt, hspent⟩
  rcases hdb with hdb | hdb
  · exact .inl ⟨r', by rw [← hdb, hr'], hlt, hspent⟩
  · by_cases heq : o.hash = hash
    · rw [hdb, heq, update_self] at hr'
      cases hr'
      unfold spentAt at hspent
      rw [hr.1] at hlt
      rw [hr.2] at hspent
      exact .inr ⟨wtx, by rw [heq, hwtx], hlt, hspent⟩
    · rw [hdb, update_of_ne heq] at hr'
      exact .inl ⟨r', hr', hlt, hspent⟩

theorem knows_of_insert (h : w'.mapWallet = w.mapWallet.insert hash wtx) :
    w'.knows = insert hash w.knows := by
  ext k
  change k ∈ w'.mapWallet ↔ k = hash ∨ k ∈ w.mapWallet
  rw [h, AList.mem_insert]

theorem keyed_of_insert (h : w'.mapWallet = w.mapWallet.insert hash wtx)
    (hwtx : ctx.hashTx wtx.tx = hash) (hkeyed : w.Keyed ctx) : w'.Keyed ctx := by
  intro k wtx' hk
  rw [h] at hk
  by_cases heq : k = hash
  · subst heq
    rw [lookup_insert] at hk
    cases hk
    exact hwtx
  · rw [lookup_insert_ne heq] at hk
    exact hkeyed k wtx' hk

/-- What `AddToWallet` does to any wallet. -/
theorem takenIn_addToWallet (w : CoinWallet) (wtxIn : OwnedTx) :
    TakenIn ctx wtxIn w (w.AddToWallet ctx env wtxIn).2 := by
  rcases hwtx : w.mapWallet.lookup (ctx.hashTx wtxIn.tx) with _ | wtx
  · obtain ⟨db, n, heq, hdb⟩ := @addToWallet_new ctx env w wtxIn hwtx
    have hinsert : (w.AddToWallet ctx env wtxIn).2.mapWallet
        = w.mapWallet.insert (ctx.hashTx wtxIn.tx) (w.inserted env wtxIn) := by rw [heq]; rfl
    have hself : (w.AddToWallet ctx env wtxIn).2.mapWallet.lookup (ctx.hashTx wtxIn.tx)
        = some (w.inserted env wtxIn) := by rw [hinsert, lookup_insert]
    refine ⟨by rw [heq]; exact ⟨rfl, rfl⟩, knows_of_insert hinsert, ?_, ?_, ?_,
      keyed_of_insert hinsert rfl, fun _ => ?_⟩
    · rw [if_neg (AList.lookup_eq_none.mp hwtx), heq]
      rfl
    · rintro o ⟨wtx, ho, hlt, hspent⟩
      refine ⟨wtx, ?_, hlt, hspent⟩
      rw [hinsert, lookup_insert_ne, ho]
      intro hhash
      exact nomatch (hhash ▸ ho).symm.trans hwtx
    · rintro o ⟨wtx, ho, hlt, hspent⟩
      by_cases hhash : o.hash = ctx.hashTx wtxIn.tx
      · rw [hhash, hself] at ho
        cases ho
        exact .inr ⟨hhash, hspent⟩
      · rw [hinsert, lookup_insert_ne hhash] at ho
        exact .inl ⟨wtx, ho, hlt, hspent⟩
    · have hdb' : (w.AddToWallet ctx env wtxIn).2.db = w.db ∨ (w.AddToWallet ctx env wtxIn).2.db
          = update w.db (ctx.hashTx wtxIn.tx) (some (w.inserted env wtxIn).record) := by
        rw [heq]
        exact hdb
      refine spentOnDisk_update hself ?_ hdb'
      exact ⟨rfl, rfl⟩
  · obtain ⟨db, n, heq, hdb⟩ := @addToWallet_known ctx env w wtx wtxIn hwtx
    obtain ⟨htx, -, hmarks⟩ := merge_spec wtx wtxIn
    have hinsert : (w.AddToWallet ctx env wtxIn).2.mapWallet
        = w.mapWallet.insert (ctx.hashTx wtxIn.tx) (wtx.BindWallet.merge wtxIn).2 := by rw [heq]; rfl
    have hself : (w.AddToWallet ctx env wtxIn).2.mapWallet.lookup (ctx.hashTx wtxIn.tx)
        = some (wtx.BindWallet.merge wtxIn).2 := by rw [hinsert, lookup_insert]
    refine ⟨by rw [heq]; exact ⟨rfl, rfl⟩, knows_of_insert hinsert, ?_, ?_, ?_, fun hkeyed => ?_,
      fun hkeyed => ?_⟩
    · rw [if_pos (AList.lookup_isSome.mp (by rw [hwtx]; rfl)), heq]
      rfl
    · rintro o ⟨wtx', ho, hlt, hspent⟩
      by_cases hhash : o.hash = ctx.hashTx wtxIn.tx
      · rw [hhash, hwtx] at ho
        cases ho
        refine ⟨_, by rw [hhash, hself], by rwa [htx], ?_⟩
        rw [hmarks, hspent, Bool.true_or]
      · exact ⟨wtx', by rw [hinsert, lookup_insert_ne hhash, ho], hlt, hspent⟩
    · rintro o ⟨wtx', ho, hlt, hspent⟩
      by_cases hhash : o.hash = ctx.hashTx wtxIn.tx
      · rw [hhash, hself] at ho
        cases ho
        rw [htx] at hlt
        rw [hmarks, Bool.or_eq_true, Bool.and_eq_true] at hspent
        rcases hspent with hspent | ⟨-, hspent⟩
        · exact .inl ⟨wtx, by rw [hhash, hwtx], hlt, hspent⟩
        · exact .inr ⟨hhash, hspent⟩
      · rw [hinsert, lookup_insert_ne hhash] at ho
        exact .inl ⟨wtx', ho, hlt, hspent⟩
    · exact keyed_of_insert hinsert (by rw [htx, hkeyed _ wtx hwtx]) hkeyed
    · have hhash : ctx.hashTx (wtx.BindWallet.merge wtxIn).2.tx = ctx.hashTx wtxIn.tx := by
        rw [htx, hkeyed _ wtx hwtx]
      have hdb' : (w.AddToWallet ctx env wtxIn).2.db = w.db ∨ (w.AddToWallet ctx env wtxIn).2.db
          = update w.db (ctx.hashTx wtxIn.tx) (some (wtx.BindWallet.merge wtxIn).2.record) := by
        rw [heq, ← hhash]
        exact hdb
      refine spentOnDisk_update hself ?_ hdb'
      exact ⟨rfl, rfl⟩

end CoinWallet

/-! ## What a refused transaction leaves behind -/

section

variable {ctx : WalletContext} {env : WalletEnv} {wtxNew : OwnedTx} {reservekey : CReserveKey}
  {strCommand : String} {w w' : CoinWallet}

/-- The wallet before the transaction is taken in: keys of stealth payments are found, and the reserved
key is kept. -/
def prepared (ctx : WalletContext) (wtxNew : OwnedTx) (reservekey : CReserveKey) (w : CoinWallet) :
    CoinWallet :=
  { w with
    keys := w.keys.FindStealthTransactions ctx.keyContext wtxNew.tx
    keyPool := (reservekey.KeepKey w.keyPool).2 }

theorem recordTransaction_eq_ok (h : recordTransaction ctx env wtxNew reservekey w = (.ok (), w')) :
    ∃ t, wtxNew.tx.vin.forM (CoinWallet.spendCoin ctx env)
        ((prepared ctx wtxNew reservekey w).AddToWallet ctx env wtxNew.withNarrations).2 = (.ok (), t) ∧
      w' = { t with
        mapRequestCount := update t.mapRequestCount (ctx.hashTx wtxNew.tx) (some 0) } := by
  unfold recordTransaction at h
  rw [Action.modify_bind, Action.modify_bind, Action.modify_bind] at h
  obtain ⟨⟨⟩, t, hloop, h⟩ := Action.bind_eq_ok.mp h
  exact ⟨t, hloop, (Prod.mk.inj h).2.symm⟩

theorem attempt_eq_false {x : NodeM Unit} {s s' : NodeState} (h : attempt x s = (.ok false, s')) :
    ∃ e, x s = (.error e, s') := by
  rcases Action.handle_eq_ok.mp h with h | ⟨e, t, hx, h⟩
  · obtain ⟨⟨⟩, t, -, h⟩ := Action.bind_eq_ok.mp h
    exact nomatch (Prod.mk.inj h).1
  · rcases Action.bind_eq_error.mp hx with hx | ⟨⟨⟩, t', -, hx⟩
    · cases e with
      | crash m => exact nomatch (Prod.mk.inj h).1
      | reject n m =>
        cases h
        exact ⟨_, hx⟩
    · exact nomatch (Prod.mk.inj hx).1

theorem onChain_eq {α : Type} {x : NodeM α} {r : Except Failure α} (h : onChain x w = (r, w')) :
    ∃ chain, x w.node.chain = (r, chain) ∧ w' = { w with node := { w.node with chain := chain } } := by
  obtain ⟨hr, hw⟩ := Prod.mk.inj h
  exact ⟨_, Prod.ext hr rfl, hw.symm⟩

theorem commitTransaction_eq_false {r : OwnedTx × CReserveKey}
    (h : CommitTransaction ctx env wtxNew reservekey strCommand w = (.ok (false, r), w')) :
    recordTransaction ctx env wtxNew reservekey w = (.ok (), w') := by
  obtain ⟨⟨⟩, t, hrec, h⟩ := Action.bind_eq_ok.mp h
  obtain ⟨fAccepted, u, hpool, h⟩ := Action.bind_eq_ok.mp h
  cases fAccepted with
  | true =>
    obtain ⟨⟨⟩, v, -, h⟩ := Action.bind_eq_ok.mp h
    have hres : true = false := congrArg Prod.fst (Except.ok.inj (Prod.mk.inj h).1)
    exact Bool.noConfusion hres
  | false =>
    obtain rfl : u = w' := (Prod.mk.inj h).2
    obtain ⟨chain, hattempt, rfl⟩ := onChain_eq hpool
    -- A refusal leaves the node as it was.
    obtain ⟨e, he⟩ := attempt_eq_false hattempt
    rcases @acceptToMemoryPool_cases ctx.toContext env.toEnv t.node.chain wtxNew.tx false true false with
      ⟨-, -, hcall⟩ | ⟨e', -, hcall⟩
    · exact nomatch (Prod.mk.inj (he.symm.trans hcall)).1
    · rw [hrec, (Prod.mk.inj (he.symm.trans hcall)).2]

/-- The circumstances of an ordinary new transaction: the wallet's caches are right and its keys stay
the same, and the transaction is not known to anyone yet. -/
structure Unseen (ctx : WalletContext) (wtxNew : OwnedTx) (reservekey : CReserveKey) (w : CoinWallet) :
    Prop where
  caches : ∀ hash wtx, w.mapWallet.lookup hash = some wtx → w.CachesAgree ctx wtx
  keys : (prepared ctx wtxNew reservekey w).keystore ctx = w.keystore ctx
  isNew : w.mapWallet.lookup (ctx.hashTx wtxNew.tx) = none
  unspent : ∀ hash wtx, w.mapWallet.lookup hash = some wtx → ∀ txin ∈ wtx.tx.vin,
    txin.prevout.hash ≠ ctx.hashTx wtxNew.tx
  noBlock : wtxNew.hashBlock = 0 ∨ wtxNew.nIndex = -1
  notPooled : w.node.chain.mempool.existsTx (ctx.hashTx wtxNew.tx) = false

/-- Recording a new transaction takes what it spends from the balance. -/
theorem Unseen.getBalance (h : Unseen ctx wtxNew reservekey w)
    (hrec : recordTransaction ctx env wtxNew reservekey w = (.ok (), w')) {b : ℤ}
    (hb : w.GetBalance ctx env = .ok b) :
    w'.GetBalance ctx env
      = .ok (wrap64 (b - w.lostBalance ctx env (spendsOf wtxNew.tx.vin))) := by
  obtain ⟨t, hloop, rfl⟩ := recordTransaction_eq_ok hrec
  have hnew : (prepared ctx wtxNew reservekey w).mapWallet.lookup (ctx.hashTx wtxNew.withNarrations.tx)
      = none := h.isNew
  obtain ⟨db, n, hadd, -⟩ := @CoinWallet.addToWallet_new ctx env _ _ hnew
  set u := ((prepared ctx wtxNew reservekey w).AddToWallet ctx env wtxNew.withNarrations).2 with hu
  have hnode : u.node = w.node := by rw [hadd]; rfl
  have hkeys : u.keystore ctx = w.keystore ctx := by
    rw [hadd]
    exact h.keys
  have hinsert : u.mapWallet = w.mapWallet.insert (ctx.hashTx wtxNew.tx)
      ((prepared ctx wtxNew reservekey w).inserted env wtxNew.withNarrations) := by rw [hadd]; rfl
  have hmore : CoinWallet.HasMore ctx env (ctx.hashTx wtxNew.tx) w u := by
    refine ⟨hnode, hkeys, h.isNew, ⟨_, hinsert, ?_⟩, h.unspent⟩
    refine CoinWallet.isTrusted_of_unknown h.noBlock ?_
    rw [hnode]
    exact h.notPooled
  obtain ⟨hbalance, hlost⟩ := hmore.getBalance hb
  have hcaches : ∀ hash wtx, u.mapWallet.lookup hash = some wtx → u.CachesAgree ctx wtx := by
    intro hash wtx hwtx
    rw [hinsert] at hwtx
    by_cases heq : hash = ctx.hashTx wtxNew.tx
    · subst heq
      rw [lookup_insert] at hwtx
      cases hwtx
      have hemp : ∀ n : ℤ, none ≠ some n := fun n => nofun
      exact ⟨fun n hn => absurd hn (hemp n), fun n hn => absurd hn (hemp n),
        fun n hn => absurd hn (hemp n)⟩
    · rw [lookup_insert_ne heq] at hwtx
      exact (hmore.agreeOn hwtx).cachesAgree (h.caches hash wtx hwtx)
  have hmarked : CoinWallet.Marked (spendsOf wtxNew.tx.vin) u { t with
      mapRequestCount := update t.mapRequestCount (ctx.hashTx wtxNew.tx) (some 0) } := by
    have hloop' := CoinWallet.marked_forM hloop
    refine ⟨?_, hloop'.known, hloop'.unknown⟩
    rw [hloop'.rest]
  rw [← hlost]
  exact hmarked.getBalance hcaches hbalance

structure LeftBehind (ctx : WalletContext) (env : WalletEnv) (wtxNew : OwnedTx)
    (reservekey : CReserveKey) (w w' : CoinWallet) : Prop where
  node : w'.node = w.node
  keyPool : w'.keyPool = (reservekey.KeepKey w.keyPool).2
  knows : w'.knows = insert (ctx.hashTx wtxNew.tx) w.knows
  ordered : w'.wtxOrdered = if ctx.hashTx wtxNew.tx ∈ w.mapWallet then w.wtxOrdered
    else insertOrdered w.nOrderPosNext (.tx (ctx.hashTx wtxNew.tx)) w.wtxOrdered
  spent : w.spent ∪ prevouts wtxNew.tx ⊆ w'.spent
  onlySpent : w'.spent ⊆ w.spent ∪ prevouts wtxNew.tx ∪ ownMarks (ctx.hashTx wtxNew.tx) wtxNew
  onDisk : w.Keyed ctx → (∀ n, env.dbWrites n = true) → prevouts wtxNew.tx ⊆ w'.spentOnDisk
  onlyOnDisk : w.Keyed ctx → w'.spentOnDisk ⊆ w.spentOnDisk ∪ w'.spent
  balance : Unseen ctx wtxNew reservekey w → ∀ b, w.GetBalance ctx env = .ok b →
    w'.GetBalance ctx env
      = .ok (wrap64 (b - w.lostBalance ctx env (spendsOf wtxNew.tx.vin)))

/-- A transaction that the memory pool refuses stays recorded: the wallet keeps the reserved key, has
the transaction, and has marked the outputs that it spends. -/
theorem commitTransaction_refused {r : OwnedTx × CReserveKey}
    (h : CommitTransaction ctx env wtxNew reservekey strCommand w = (.ok (false, r), w')) :
    LeftBehind ctx env wtxNew reservekey w w' := by
  have hrecord := commitTransaction_eq_false h
  obtain ⟨t, hloop, rfl⟩ := recordTransaction_eq_ok hrecord
  have htaken : CoinWallet.TakenIn ctx wtxNew.withNarrations (prepared ctx wtxNew reservekey w)
      ((prepared ctx wtxNew reservekey w).AddToWallet ctx env wtxNew.withNarrations).2 :=
    CoinWallet.takenIn_addToWallet _ _
  have hmarked := CoinWallet.marked_forM hloop
  have hspent := CoinWallet.spent_of_forM hloop
  refine ⟨?_, ?_, ?_, ?_, ?_, ?_, fun hkeyed hwrites => ?_, fun hkeyed => ?_,
    fun hunseen b hb => hunseen.getBalance hrecord hb⟩
  · change t.node = _
    rw [hmarked.rest]
    exact htaken.rest.1
  · change t.keyPool = _
    rw [hmarked.rest]
    exact htaken.rest.2
  · ext hash
    exact (hmarked.mem_iff hash).trans (Set.ext_iff.mp htaken.knows hash)
  · change t.wtxOrdered = _
    rw [hmarked.rest]
    exact htaken.ordered
  · change _ ⊆ t.spent
    rw [hspent]
    exact Set.union_subset_union_left _ htaken.kept
  · change t.spent ⊆ _
    rw [hspent, Set.union_right_comm]
    exact Set.union_subset_union_left _ htaken.marks
  · have hempty : (∅ : Set COutPoint)
        ⊆ ((prepared ctx wtxNew reservekey w).AddToWallet ctx env wtxNew.withNarrations).2.spentOnDisk ∩
          ((prepared ctx wtxNew reservekey w).AddToWallet ctx env wtxNew.withNarrations).2.spent :=
      Set.empty_subset _
    change _ ⊆ t.spentOnDisk
    exact Set.subset_union_right.trans
      (CoinWallet.onDisk_of_forM (htaken.keyed hkeyed) hwrites hempty hloop)
  · change t.spentOnDisk ⊆ w.spentOnDisk ∪ t.spent
    have hkept : ((prepared ctx wtxNew reservekey w).AddToWallet ctx env
        wtxNew.withNarrations).2.spent ⊆ t.spent := by
      rw [hspent]
      exact Set.subset_union_left
    refine (CoinWallet.spentOnDisk_of_forM (htaken.keyed hkeyed) hloop).trans ?_
    refine Set.union_subset ((htaken.onDisk hkeyed).trans ?_) Set.subset_union_right
    exact Set.union_subset_union_right _ hkept

end

/-! ## A wallet of which there is a copy -/

def copiedKeys : KeyContext where
  EVP_Encrypt _ _ text := 1 :: text
  EVP_Decrypt _ _ cipher := cipher.tail?
  EVP_BytesToKey _ data _ := (data, 0)
  scrypt_salted_multiround_hash data _ _ := data
  Hash _ := 0
  Hash_bmw512 _ := 0
  Hash160 vch := uint160 (plainLibrary.Hash160 vch)
  Check _ := true
  GetPubKey _ _ := plainPubKey
  SecretToPublicKey _ := some plainPubKey.vch
  sharedSecret _ point := point.tail?
  addPoint point _ := some point
  addSecret f _ := some f

def copiedContext : WalletContext :=
  { plainContext (BlockFiles.ofBlocks (fun _ => none) noBlocks_small) 1 true with
    keyContext := copiedKeys
    lib := { plainLibrary with
      GetPubKey := id
      Sign := fun _ _ => none
      Verify := fun _ _ _ => false
      HashWriter := fun _ _ => 0
      GetHash := fun tx => BitVec.ofNat 256 tx.nLockTime.toNat }
    nStack := 8
    fConfChange := false
    fEnableInstantX := true
    nInstantXDepth := 10 }

def copiedEnv : WalletEnv :=
  { plainEnv 2000 with
    fLiteMode := false
    fInstantX := false
    nMaxValue := 0
    fBlockchainSynced := true
    blocks := []
    GetFloatingcityRank := fun _ _ => -1
    SignatureValid := fun _ => false
    fFloatingCity := false
    activeVin := inputOf 0 0
    Sign := fun _ _ => none
    dbWrites := fun _ => true }

def copiedCoin : OwnedTx :=
  { OwnedTx.Init copiedEnv with
    tx := plainTx 11 [inputOf 5 0] [⟨50 * COIN, plainScript⟩]
    hashBlock := 1
    nIndex := 1
    fMerkleVerified := true
    nOrderPos := 0 }

/-- The node of the wallet. Its memory pool has a transaction that spends the coin already, which a copy
of the wallet has sent. -/
def copiedNode : Node where
  chain := { emptyNode with
    mapBlockIndex := Function.update (fun _ => none) 1 (some (plainIndex 1 0 none fundedBlock))
    pindexGenesisBlock := some 1
    pindexBest := some 1
    hashBestChain := 1
    nBestHeight := 0
    mempool := CTxMemPool.addUnchecked ⟨∅, fun _ => none⟩ 12
      (plainTx 12 [inputOf 11 0] [payTo (49 * COIN)]) }
  mapTxLockReq _ := none
  mapTxLockReqRejected _ := none
  mapTxLockVote _ := none
  mapTxLocks := ∅

def copiedWallet : CoinWallet where
  node := copiedNode
  keys :=
    { mapKeys := SortedMap.empty.insert (plainPubKey.GetID copiedKeys.Hash160) ⟨[], true⟩
      mapCryptedKeys := SortedMap.empty
      vMasterKey := []
      fUseCrypto := false
      stealthAddresses := []
      mapStealthKeyMeta := fun _ => none
      mapMasterKeys := []
      sxAddrDb := fun _ => none
      fWalletUnlockAnonymizeOnly := false
      fWalletUnlockStakingOnly := false }
  mapScripts _ := none
  setWatchOnly _ := false
  keyPool := ⟨false, [], 0, ∅, fun _ => none, CPubKey.invalid⟩
  mapWallet := AList.singleton 11 copiedCoin
  wtxOrdered := [(0, .tx 11)]
  nOrderPosNext := 1
  mapRequestCount _ := none
  db := Function.update (fun _ => none) 11 (some copiedCoin.record)
  dbOrderPosNext := some 1
  nWrites := 0

def copiedPayment : OwnedTx :=
  { OwnedTx.Init copiedEnv with tx := plainTx 13 [inputOf 11 0] [payTo (48 * COIN)], fFromMe := true }

def copiedAfter : CoinWallet :=
  (CommitTransaction copiedContext copiedEnv copiedPayment CReserveKey.empty "tx" copiedWallet).2

/-- The memory pool refuses the payment, which spends what the copy has spent. The wallet has it all the
same: in its list and its order, with the coin marked in memory and on disk, and nothing left to spend. -/
theorem copied_payment_recorded :
    (∃ r, CommitTransaction copiedContext copiedEnv copiedPayment CReserveKey.empty "tx" copiedWallet
      = (.ok (false, r), copiedAfter)) ∧
    (⟨11, 0⟩ ∉ copiedWallet.spent ∧ ⟨11, 0⟩ ∈ copiedAfter.spent) ∧
    (⟨11, 0⟩ ∉ copiedWallet.spentOnDisk ∧ ⟨11, 0⟩ ∈ copiedAfter.spentOnDisk) ∧
    (13 ∉ copiedWallet.knows ∧ 13 ∈ copiedAfter.knows) ∧
    copiedAfter.wtxOrdered = copiedWallet.wtxOrdered ++ [(1, .tx 13)] ∧
    copiedWallet.GetBalance copiedContext copiedEnv = .ok (50 * COIN) ∧
    copiedAfter.GetBalance copiedContext copiedEnv = .ok 0 := by
  have hbefore : copiedWallet.mapWallet.lookup 11 = some copiedCoin := by rfl
  have hafter : (copiedAfter.mapWallet.lookup 11).map (fun wtx => (wtx.tx, wtx.vfSpent))
      = some (copiedCoin.tx, [true]) := by rfl
  have hdisk : (copiedAfter.db 11).map (fun r => (r.tx, r.vfSpent))
      = some (copiedCoin.tx, [true]) := by rfl
  obtain ⟨wtx, hwtx, hmarked⟩ := Option.map_eq_some_iff.mp hafter
  obtain ⟨r, hr, hwritten⟩ := Option.map_eq_some_iff.mp hdisk
  refine ⟨⟨_, rfl⟩, ⟨?_, wtx, hwtx, ?_, ?_⟩, ⟨?_, r, hr, ?_, ?_⟩, ⟨?_, ?_⟩, rfl, rfl, rfl⟩
  · rintro ⟨wtx', hwtx', -, hspent⟩
    obtain rfl := Option.some.inj (hbefore.symm.trans hwtx')
    cases hspent
  · rw [(Prod.mk.inj hmarked).1]
    exact Nat.zero_lt_one
  · unfold OwnedTx.spentAt
    rw [(Prod.mk.inj hmarked).2]
    rfl
  · rintro ⟨r', hr', -, hspent⟩
    cases hr'
    cases hspent
  · rw [(Prod.mk.inj hwritten).1]
    exact Nat.zero_lt_one
  · unfold OwnedTx.spentAt
    rw [(Prod.mk.inj hwritten).2]
    rfl
  · exact AList.lookup_eq_none.mp rfl
  · exact AList.lookup_isSome.mp rfl

/-- What the payment leaves behind. -/
theorem copied_payment_leftBehind :
    ∃ r, CommitTransaction copiedContext copiedEnv copiedPayment CReserveKey.empty "tx" copiedWallet
        = (.ok (false, r), copiedAfter) ∧
      LeftBehind copiedContext copiedEnv copiedPayment CReserveKey.empty copiedWallet copiedAfter := by
  have hrun : ∃ r, CommitTransaction copiedContext copiedEnv copiedPayment CReserveKey.empty "tx"
      copiedWallet = (.ok (false, r), copiedAfter) := ⟨_, rfl⟩
  obtain ⟨r, hr⟩ := hrun
  exact ⟨r, hr, commitTransaction_refused hr⟩

end ZalemCoin.Wallet
