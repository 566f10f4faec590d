import ZalemCoin.Chain.BestChain
import ZalemCoin.Chain.ChainState
import ZalemCoin.Chain.Undo

/-!
# Connecting and disconnecting the blocks of a branch

Inside a transaction of the database, connecting a block adds it to the branch that the transaction
index reflects, and disconnecting the last one removes it. A switch to another branch is a sequence
of the latter followed by a sequence of the former, between two tips and their last common
ancestor.
-/

namespace ZalemCoin.Chain

open Lib

/-! ## The frame -/

variable {touched : UInt256 → Prop} {α : Type}

theorem ConnectFrame.samePlace {s s' : NodeState} (h : ConnectFrame touched s s') :
    SamePlace s s' := by
  intro p
  have hcomp (m : Option CBlockIndex) : m.map CBlockIndex.place
      = (m.map fun i => { i with nMint := 0, nMoneySupply := 0 }).map CBlockIndex.place := by
    rw [Option.map_map]
    rfl
  rw [hcomp, hcomp (s.mapBlockIndex p), h.index_touched p]

theorem ConnectFrame.sameEntry {s s' : NodeState} (h : ConnectFrame touched s s') {p : UInt256}
    (hp : ¬touched p) : SameEntry s s' p := by
  unfold SameEntry
  rw [h.index p hp]

theorem KeepsFrame.reportAs {x : NodeM α} (msg : String) (hx : KeepsFrame touched x) :
    KeepsFrame touched (reportAs msg x) :=
  KeepsFrame.handle hx fun _ => KeepsFrame.of_core (KeepsPart.fail _)

theorem reportAs_eq_ok {msg : String} {x : NodeM α} {s s' : NodeState} {a : α} :
    reportAs msg x s = (.ok a, s') ↔ x s = (.ok a, s') := by
  unfold reportAs
  rw [Action.handle_eq_ok]
  constructor
  · rintro (h | ⟨e, t, -, h⟩)
    · exact h
    · simp at h
  · exact .inl

/-! ## One block -/

theorem readFromDisk_eq_ok {ctx : Context} {p : UInt256} {i : CBlockIndex} {block : CBlock}
    (h : ReadFromDisk ctx p i = .ok block) :
    ctx.files.block i.nFile i.nBlockPos = some block ∧ ctx.GetHash block = p := by
  unfold ReadFromDisk at h
  rcases hread : ctx.files.block i.nFile i.nBlockPos with _ | block'
  · rw [hread] at h
    simp at h
  · rw [hread] at h
    obtain ⟨⟨⟩, -, h⟩ := bind_ok h
    obtain ⟨hhash, h⟩ := ensure_ok h
    cases h
    exact ⟨rfl, hhash⟩

section

variable {ctx : Context} {s s' : NodeState} {block : CBlock} {p q : UInt256}
  {path : List UInt256} {i : CBlockIndex}

theorem connectBlock_chained {env : Env} {log : List SigCheck}
    (hchained : Chained ctx s (q :: path))
    (hled : s.txdb.txIndex = chainLedger ctx s (q :: path))
    (hent : s.mapBlockIndex p = some i) (hpar : i.pprev = some q)
    (hstor : ctx.files.block i.nFile i.nBlockPos = some block)
    (hids : DistinctIds ctx (connectedTxs ctx s (p :: q :: path)))
    (h : ConnectBlock ctx env block p false s = (.ok log, s')) :
    Chained ctx s' (p :: q :: path) ∧ s'.txdb.txIndex = chainLedger ctx s' (p :: q :: path) := by
  obtain ⟨s₁, i', prevSupply, acc, hconn, -⟩ := connectBlock_eq_ok h
  obtain rfl := Option.mem_unique hent hconn.entry
  have hframe := (keepsFrame_connectBlock ctx env block p false).of_eq h
  have htxs := txsOf_eq hent hstor
  -- The block is new to the branch, and so are its transactions.
  have hnew : p ∉ q :: path :=
    (List.nodup_cons.mp (Branch.step ((parent_eq hent).trans hpar) hchained.branch).nodup).1
  have hfresh : ∀ tx ∈ block.vtx, s.txdb.txIndex (ctx.hashTx tx) = none := by
    intro tx htx
    rw [hled, chainLedger, Ledger.ledgerOf, Ledger.foldl_connect_eq_none]
    refine ⟨rfl, fun t ht => ?_⟩
    obtain ⟨u, hu, rfl⟩ := List.mem_map.mp ht
    rw [← map_snd_placedTransactions i.nFile i.nBlockPos block.vtx] at htx
    obtain ⟨v, hv, rfl⟩ := List.mem_map.mp htx
    unfold DistinctIds at hids
    rw [connectedTxs, List.pairwise_append, htxs] at hids
    exact hids.2.2 u hu v hv
  obtain ⟨hled', hconnects⟩ := hconn.connects hfresh
  have hrest : ∀ x ∈ q :: path, SameEntry s s' x := fun x hx =>
    hframe.sameEntry fun heq => hnew (heq ▸ hx)
  have hent' : s'.mapBlockIndex p = some (withSupply i prevSupply acc) := by
    rw [hconn.recorded, Function.update_self]
  have htxs' : s'.txsOf ctx p = placedTransactions i.nFile i.nBlockPos block.vtx :=
    @txsOf_eq s' ctx p (withSupply i prevSupply acc) block hent' hstor
  have hprev : ∃ j, s'.mapBlockIndex q = some j ∧ prevSupply = j.nMoneySupply := by
    have hsup := hconn.supply
    unfold prevMoneySupply at hsup
    rw [hpar] at hsup
    obtain ⟨j, hj, hsup⟩ := bind_ok hsup
    rw [index_eq_ok, mapBlockIndex_of_core hconn.core] at hj
    refine ⟨j, ?_, (Except.ok.inj hsup).symm⟩
    rw [hframe.index q fun heq => hnew (heq ▸ List.mem_cons_self), hj]
  obtain ⟨j, hj, rfl⟩ := hprev
  obtain ⟨hchks, -⟩ := checkTransactions_eq_ok hconn.checked.transactions
  -- The sums of the loop are those of the block on the ledger of the branch.
  have hsums : SumsAre acc (blockSums ctx (connectedTxs ctx s' (q :: path))
      (placedTransactions i.nFile i.nBlockPos block.vtx)) := by
    have htxdb := txdb_of_core hconn.core
    rw [hframe.samePlace.connectedTxs_eq]
    refine connectTransactions_sums hconn.transactions
      (fun tx htx => (checkTransaction_eq_ok (hchks tx htx)).2) hstor
      hchained.wellPlaced hchained.connects ?_ ?_
    · rw [htxdb]
      exact hled
    · rw [htxdb]
      exact hconnects
  refine ⟨Chained.block ⟨hent', hpar, hj, ⟨block, hstor⟩, ?_, ?_, ?_, ?_⟩
    (hchained.congr hrest), ?_⟩
  · intro u hu
    rw [htxs'] at hu
    have hmem := List.mem_map_of_mem (f := Prod.snd) hu
    rw [map_snd_placedTransactions] at hmem
    exact (checkTransaction_eq_ok (hchks u.2 hmem)).2.2
  · rw [hframe.samePlace.chainLedger_eq, htxs', ← hled]
    exact hconnects
  · unfold tipSums
    rw [htxs']
    change wrap64 _ = _
    rw [hsums.valueOut, hsums.valueIn, hsums.fees]
    exact wrap64_mint _ _ _
  · unfold tipSums
    rw [htxs']
    change wrap64 _ = _
    rw [hsums.valueOut, hsums.valueIn]
    exact wrap64_supply _ _ _
  · rw [chainLedger_cons, htxs', hframe.samePlace.chainLedger_eq, ← hled]
    exact hled'

theorem disconnectBlock_chained (hchained : Chained ctx s (p :: q :: path))
    (hled : s.txdb.txIndex = chainLedger ctx s (p :: q :: path))
    (hent : s.mapBlockIndex p = some i)
    (hstor : ctx.files.block i.nFile i.nBlockPos = some block)
    (h : DisconnectBlock ctx block p s = (.ok (), s')) :
    Chained ctx s' (q :: path) ∧ s'.txdb.txIndex = chainLedger ctx s' (q :: path) := by
  have hframe : ConnectFrame (fun _ => False) s s' :=
    (keepsFrame_disconnectBlock ctx block p).of_eq h
  cases hchained with
  | block hrec hrest =>
    refine ⟨hrest.congr fun x _ => hframe.sameEntry id, ?_⟩
    have hconn := hrec.connects
    rw [txsOf_eq hent hstor] at hconn
    rw [disconnectBlock_eq_ok i.nFile i.nBlockPos h, hled, chainLedger_cons,
      txsOf_eq hent hstor, hframe.samePlace.chainLedger_eq]
    exact Ledger.foldl_disconnect_foldl_connect hconn

end

/-! ## Branches -/

variable {ctx : Context} {env : Env}

theorem keepsFrame_disconnectBranch (l : List UInt256) (vResurrect : List CTransaction) :
    KeepsFrame touched (disconnectBranch ctx l vResurrect) := by
  induction l generalizing vResurrect with
  | nil => exact KeepsFrame.pure _
  | cons p l ih =>
    refine KeepsFrame.bind (KeepsFrame.reading _) fun i => ?_
    refine KeepsFrame.bind (KeepsFrame.reportAs _ (KeepsFrame.reading _)) fun block => ?_
    exact KeepsFrame.bind (KeepsFrame.reportAs _ (keepsFrame_disconnectBlock ctx block p))
      fun _ => ih _

theorem keepsFrame_connectBranch (l : List UInt256) (vDelete : List CTransaction) :
    KeepsFrame (· ∈ l) (connectBranch ctx env l vDelete) := by
  induction l generalizing vDelete with
  | nil => exact KeepsFrame.pure _
  | cons p l ih =>
    refine KeepsFrame.bind (KeepsFrame.reading _) fun i => ?_
    refine KeepsFrame.bind (KeepsFrame.reportAs _ (KeepsFrame.reading _)) fun block => ?_
    refine KeepsFrame.bind (KeepsFrame.reportAs _ fun s => ?_) fun _ => fun s => ?_
    · refine (keepsFrame_connectBlock ctx env block p false s).mono ?_
      rintro x rfl
      exact List.mem_cons_self
    · exact (ih _ s).mono fun x hx => List.mem_cons_of_mem _ hx

variable {l low : List UInt256} {r : List CTransaction}

theorem disconnectBranch_chained {f : UInt256} {s s' : NodeState} {vResurrect : List CTransaction}
    (hchained : Chained ctx s (l ++ f :: low))
    (hled : s.txdb.txIndex = chainLedger ctx s (l ++ f :: low))
    (h : disconnectBranch ctx l vResurrect s = (.ok r, s')) :
    Chained ctx s' (f :: low) ∧ s'.txdb.txIndex = chainLedger ctx s' (f :: low) := by
  induction l generalizing s vResurrect with
  | nil =>
    cases h
    exact ⟨hchained, hled⟩
  | cons p l ih =>
    obtain ⟨i, hi, h⟩ := Action.reading_bind_eq_ok.mp h
    obtain ⟨block, t₂, hdisk, h⟩ := Action.bind_eq_ok.mp h
    obtain ⟨hblock, rfl⟩ := Prod.mk.inj (reportAs_eq_ok.mp hdisk)
    obtain ⟨⟨⟩, t₃, hdisc, h⟩ := Action.bind_eq_ok.mp h
    -- There is a block below, since the fork is.
    obtain ⟨q, path, hpath⟩ : ∃ q path, l ++ f :: low = q :: path := by
      cases l with
      | nil => exact ⟨f, low, rfl⟩
      | cons q l => exact ⟨q, l ++ f :: low, rfl⟩
    rw [List.cons_append, hpath] at hchained hled
    have hone := disconnectBlock_chained hchained hled (index_eq_ok.mp hi)
      (readFromDisk_eq_ok hblock).1 (reportAs_eq_ok.mp hdisc)
    rw [← hpath] at hone
    exact ih hone.1 hone.2 h

theorem connectBranch_append (l l' : List UInt256) (vDelete : List CTransaction) :
    connectBranch ctx env (l ++ l') vDelete
      = (connectBranch ctx env l vDelete >>= fun r => connectBranch ctx env l' r) := by
  induction l generalizing vDelete with
  | nil => rfl
  | cons p l ih =>
    rw [List.cons_append, connectBranch, connectBranch, Action.bind_assoc]
    simp only [Action.bind_assoc, ih]

/-- Connecting a branch extends the chain and its ledger by it. -/
theorem connectBranch_chained {parent : UInt256 → Option UInt256} {p f : UInt256} {s s' : NodeState}
    {vDelete : List CTransaction} (hseg : Segment parent p l f) (hpar : s.parent = parent)
    (hchained : Chained ctx s (f :: low)) (hled : s.txdb.txIndex = chainLedger ctx s (f :: low))
    (hids : DistinctIds ctx (connectedTxs ctx s (l ++ f :: low)))
    (h : connectBranch ctx env l.reverse vDelete s = (.ok r, s')) :
    Chained ctx s' (l ++ f :: low) ∧ s'.txdb.txIndex = chainLedger ctx s' (l ++ f :: low) := by
  induction hseg generalizing r s' with
  | refl f =>
    cases h
    exact ⟨hchained, hled⟩
  | @step p q f l hpq hseg ih =>
    obtain ⟨path, hpath⟩ : ∃ path, l ++ f :: low = q :: path := by
      cases hseg with
      | refl => exact ⟨low, rfl⟩
      | step => exact ⟨_, rfl⟩
    rw [List.cons_append, hpath] at hids ⊢
    have hbelow : DistinctIds ctx (connectedTxs ctx s (q :: path)) := by
      have hall := hids
      unfold DistinctIds at hall
      rw [connectedTxs, List.pairwise_append] at hall
      exact hall.1
    rw [List.reverse_cons, connectBranch_append] at h
    obtain ⟨r₁, t, hfst, hlast⟩ := Action.bind_eq_ok.mp h
    rw [hpath] at ih
    obtain ⟨hchained', hled'⟩ := ih hchained hled hbelow hfst
    have hframe := (keepsFrame_connectBranch l.reverse vDelete).of_eq hfst
    obtain ⟨i, hi, hlast⟩ := Action.reading_bind_eq_ok.mp hlast
    obtain ⟨block, t₂, hdisk, hlast⟩ := Action.bind_eq_ok.mp hlast
    obtain ⟨hblock, rfl⟩ := Prod.mk.inj (reportAs_eq_ok.mp hdisk)
    obtain ⟨log, t₃, hconn, hlast⟩ := Action.bind_eq_ok.mp hlast
    cases hlast
    have hi := index_eq_ok.mp hi
    refine connectBlock_chained hchained' hled' hi ?_ (readFromDisk_eq_ok hblock).1 ?_
      (reportAs_eq_ok.mp hconn)
    · rw [← parent_eq hi, hframe.samePlace.parent_eq, hpar, hpq]
    · rw [hframe.samePlace.connectedTxs_eq]
      exact hids

end ZalemCoin.Chain
