import ZalemCoin.Chain.Fork

/-!
# The invariant of the best chain

Outside a transaction of the database, the database and the links between the blocks are those of
one branch: its last block is the one that the database names, the transaction index is the result
of connecting its blocks, and its blocks but the last have a link to the next one. The operations
that move to another branch either do so completely, or fail and leave the old branch as it was.
-/

namespace ZalemCoin.Chain

open Lib

def Returns {α : Type} (r : Except Failure α) : Prop := ∀ m, r ≠ .error (.crash m)

/-- The globals that say which chain is the best one. -/
def NodeState.best (s : NodeState) : Option UInt256 × Option UInt256 × UInt256 × ℤ :=
  (s.pindexGenesisBlock, s.pindexBest, s.hashBestChain, s.nBestHeight)

def NodeState.chainPart (s : NodeState) :
    (UInt256 → Option CBlockIndex) × CTxDB × Option UInt256 × Option UInt256 × UInt256 × ℤ :=
  (s.mapBlockIndex, s.txdb, s.best)

/-- A state with a transaction of the database open, in which nothing has been done yet. -/
def NodeState.opened (s : NodeState) : NodeState := { s with txdb := ⟨s.txdb.disk, some []⟩ }

/-- What the block index satisfies: the heights are right, every entry is that of a block on the
disk, parents are known, and no branch repeats the identifier of a transaction. -/
structure IndexOk (ctx : Context) (s : NodeState) : Prop where
  heights : HeightsOk s
  /-- Entries are those of blocks on the disk. -/
  stored : ∀ p i, s.mapBlockIndex p = some i → ∃ block,
    ctx.files.block i.nFile i.nBlockPos = some block ∧ ctx.GetHash block = p ∧
      ∀ q, i.pprev = some q → q = block.hashPrevBlock
  /-- The parent of an entry has an entry. -/
  known : ∀ p q, s.parent p = some q → s.mapBlockIndex q ≠ none
  /-- No branch repeats an identifier. -/
  distinct : ∀ p path, Branch s.parent p path → DistinctIds ctx (connectedTxs ctx s path)

/-- The blocks of a branch are connected: the transaction index is theirs, and the database names
the last of them. -/
structure Connected (ctx : Context) (s : NodeState) (tip : UInt256) (above : List UInt256) :
    Prop where
  chained : Chained ctx s (tip :: above)
  ledger : s.txdb.txIndex = chainLedger ctx s (tip :: above)
  best : s.txdb.view .hashBestChain = some tip

/-- The database and the links are those of a branch, and no transaction is open. -/
structure ChainAt (ctx : Context) (s : NodeState) (tip : UInt256) (above : List UInt256) : Prop
    extends Connected ctx s tip above where
  index : IndexOk ctx s
  closed : s.txdb.activeBatch = none
  links : Linked s (· ∈ above)

/-- The globals name a block as the best one. -/
structure BestIs (s : NodeState) (p : UInt256) : Prop where
  started : s.pindexGenesisBlock ≠ none
  pindexBest : s.pindexBest = some p
  hashBestChain : s.hashBestChain = p
  nBestHeight : s.nBestHeight = s.height p

/-- The globals have not moved, and the blocks are where they were. -/
structure Unmoved (s s' : NodeState) : Prop where
  best : s'.best = s.best
  place : SamePlace s s'

/-! ## What the invariant depends on -/

variable {ctx : Context} {s s' : NodeState} {tip p : UInt256} {above : List UInt256}

section

variable {s'' : NodeState}

theorem Unmoved.refl (s : NodeState) : Unmoved s s := ⟨rfl, fun _ => rfl⟩

theorem Unmoved.trans (h : Unmoved s s') (h' : Unmoved s' s'') : Unmoved s s'' :=
  ⟨h'.best.trans h.best, h.place.trans h'.place⟩

theorem Unmoved.of_chainPart (h : s'.chainPart = s.chainPart) : Unmoved s s' := by
  refine ⟨(congrArg (fun part => part.2.2) h :), fun p => ?_⟩
  rw [show s'.mapBlockIndex = s.mapBlockIndex from (congrArg Prod.fst h :)]

theorem ConnectFrame.unmoved {touched : UInt256 → Prop} (h : ConnectFrame touched s s') :
    Unmoved s s' := ⟨(congrArg NodeState.best h.globals :), h.samePlace⟩

theorem LinkFrame.unmoved (h : LinkFrame s s') : Unmoved s s' :=
  ⟨(congrArg NodeState.best h.globals :), h.samePlace⟩

theorem SamePlace.height_eq (h : SamePlace s s') (p : UInt256) : s'.height p = s.height p := by
  unfold NodeState.height
  rw [h.map_eq p CBlockIndex.nHeight fun _ => rfl]

theorem BestIs.congr (h : BestIs s p) (hsame : Unmoved s s') : BestIs s' p := by
  have hbest := hsame.best
  unfold NodeState.best at hbest
  obtain ⟨hgen, hidx, hhash, hheight⟩ : _ ∧ _ ∧ _ ∧ _ := by simpa using hbest
  refine ⟨hgen ▸ h.started, hidx.trans h.pindexBest, hhash.trans h.hashBestChain, ?_⟩
  rw [hheight, h.nBestHeight, hsame.place.height_eq]

theorem IndexOk.congr (h : IndexOk ctx s) (hplace : SamePlace s s') : IndexOk ctx s' where
  heights p q hpq := by
    rw [hplace.height_eq, hplace.height_eq]
    rw [hplace.parent_eq] at hpq
    exact h.heights p q hpq
  stored p i' hi' := by
    obtain ⟨i, hi, hsame⟩ := hplace.exists_eq hi'
    rw [show i'.nFile = i.nFile from (congrArg CBlockIndex.nFile hsame :),
      show i'.nBlockPos = i.nBlockPos from (congrArg CBlockIndex.nBlockPos hsame :),
      show i'.pprev = i.pprev from (congrArg CBlockIndex.pprev hsame :)]
    exact h.stored p i hi
  known p q hpq := by
    rw [hplace.parent_eq] at hpq
    intro hnone
    have hmap := hplace q
    rw [hnone] at hmap
    exact h.known p q hpq (Option.map_eq_none_iff.mp hmap.symm)
  distinct p path hb := by
    rw [hplace.parent_eq] at hb
    rw [hplace.connectedTxs_eq]
    exact h.distinct p path hb

/-- Whether the blocks of a branch are connected does not depend on the links, nor on the rest of
the database. -/
theorem Connected.congr (h : Connected ctx s tip above)
    (hents : ∀ p ∈ tip :: above, SameEntry s s' p) (htx : s'.txdb.txIndex = s.txdb.txIndex)
    (hbest : s'.txdb.view .hashBestChain = s.txdb.view .hashBestChain) :
    Connected ctx s' tip above where
  chained := h.chained.congr hents
  ledger := by
    rw [htx, h.ledger]
    unfold chainLedger
    rw [connectedTxs_of_sameEntry ctx hents]
  best := hbest.trans h.best

theorem ChainAt.of_eq (h : ChainAt ctx s tip above) (hidx : s'.mapBlockIndex = s.mapBlockIndex)
    (htxdb : s'.txdb = s.txdb) : ChainAt ctx s' tip above := by
  have hents : ∀ p, SameEntry s s' p := fun p => by unfold SameEntry; rw [hidx]
  refine ⟨h.toConnected.congr (fun p _ => hents p) (by rw [htxdb]) (by rw [htxdb]),
    h.index.congr fun p => (hents p).place_eq, by rw [htxdb]; exact h.closed, ?_⟩
  intro p i hi
  rw [hidx] at hi
  exact h.links p i hi

theorem ChainAt.congr (h : ChainAt ctx s tip above) (hpart : s'.chainPart = s.chainPart) :
    ChainAt ctx s' tip above :=
  h.of_eq (congrArg Prod.fst hpart :) (congrArg (fun part => part.2.1) hpart :)

theorem view_opened (h : s.txdb.activeBatch = none) : s.opened.txdb.view = s.txdb.view :=
  (Store.view_of_closed h).symm

theorem Connected.opened (h : Connected ctx s tip above) (hclosed : s.txdb.activeBatch = none) :
    Connected ctx s.opened tip above := by
  have hview := view_opened hclosed
  refine h.congr (fun _ _ => rfl) ?_ (by rw [hview])
  unfold CTxDB.txIndex
  rw [hview]

end

/-! ## Dropping and committing a transaction -/

variable {t : NodeState}

variable {touched : UInt256 → Prop} {x : NodeM Unit} {pindexNew : UInt256} {msg : String}
  {P : NodeState → Prop}

theorem Linked.of_frame {S : UInt256 → Prop} (h : Linked s S) (hframe : ConnectFrame touched s t) :
    Linked t S := by
  intro p i hi
  have hmap := hframe.index_touched p
  rw [hi] at hmap
  rcases hj : s.mapBlockIndex p with _ | j
  · rw [hj] at hmap
    simp at hmap
  · rw [hj] at hmap
    have hnext : i.pnext = j.pnext := (congrArg CBlockIndex.pnext (Option.some.inj hmap) :)
    rw [hnext]
    exact h p j hj

theorem ChainAt.restore (h : ChainAt ctx s tip above) (hframe : ConnectFrame touched s.opened t)
    (htouched : ∀ x ∈ tip :: above, ¬touched x) :
    ChainAt ctx { t with txdb := t.txdb.txnAbort } tip above := by
  have hview : t.txdb.txnAbort.view = s.txdb.view := by
    rw [Store.view_txnAbort, (hframe.disk rfl).1]
    exact view_opened h.closed
  refine ⟨h.toConnected.congr (fun x hx => ?_) ?_ ?_, h.index.congr ?_, rfl, ?_⟩
  · exact hframe.sameEntry (htouched x hx)
  · unfold CTxDB.txIndex
    rw [hview]
  · dsimp only
    rw [hview]
  · exact hframe.samePlace
  · have hlinks : Linked s.opened (· ∈ above) := h.links
    exact (hlinks.of_frame hframe :)

theorem txnCommit_eq_ok (h : TxnCommit s = (.ok (), s')) :
    s' = { s with txdb := ⟨s.txdb.view, none⟩ } := by
  unfold TxnCommit at h
  rcases hcom : s.txdb.txnCommit with _ | txdb
  · rw [hcom] at h
    simp at h
  · rw [hcom] at h
    cases h
    rw [(Store.txnCommit_eq_some.mp hcom).2]

theorem txnBegin_eq_ok (h : TxnBegin s = (.ok (), s')) :
    s.txdb.activeBatch = none ∧ s' = s.opened := by
  unfold TxnBegin at h
  rcases hbegin : s.txdb.txnBegin with _ | txdb
  · rw [hbegin] at h
    simp at h
  · rw [hbegin] at h
    cases h
    obtain ⟨hclosed, rfl⟩ := Store.txnBegin_eq_some.mp hbegin
    exact ⟨hclosed, rfl⟩

/-- The parts of making an entry that succeeds. -/
theorem indexBlock_parts {nFile nBlockPos : UInt32} {hashProof : UInt256} {block : CBlock} {i : CBlockIndex}
    (h : indexBlock ctx nFile nBlockPos hashProof block s = (.ok i, s')) :
    s.mapBlockIndex (ctx.GetHash block) = none ∧ s.txdb.activeBatch = none ∧
    ∃ nSequenceId,
      newBlockIndex ctx s.mapBlockIndex nFile nBlockPos hashProof nSequenceId block = .ok i ∧
      s' = { s.setIndex (ctx.GetHash block) i with
        nBlockSequenceId := nSequenceId + 1
        txdb := ⟨(s.opened.txdb.WriteBlockIndex ctx (CDiskBlockIndex.of i)).view, none⟩ } := by
  obtain ⟨nSequenceId, hsequence, h⟩ := Action.reading_bind_eq_ok.mp h
  obtain ⟨hfresh, -⟩ := ensure_ok hsequence
  replace h := Action.modify_bind_eq_ok.mp h
  obtain ⟨i', hnew, h⟩ := Action.reading_bind_eq_ok.mp h
  replace h := Action.modify_bind_eq_ok.mp h
  obtain ⟨⟨⟩, t, hbegin, h⟩ := Action.bind_eq_ok.mp h
  obtain ⟨hclosed, rfl⟩ := txnBegin_eq_ok hbegin
  replace h := Action.modify_bind_eq_ok.mp h
  obtain ⟨⟨⟩, t, hcom, h⟩ := Action.bind_eq_ok.mp h
  obtain rfl := txnCommit_eq_ok hcom
  obtain ⟨hi, rfl⟩ := Prod.mk.inj h
  cases hi
  exact ⟨hfresh, hclosed, nSequenceId, hnew, rfl⟩

theorem txnBegin_of_returns {r : Except Failure Unit} (h : TxnBegin s = (r, s'))
    (hret : Returns r) : r = .ok () := by
  unfold TxnBegin at h
  rcases hbegin : s.txdb.txnBegin with _ | txdb
  · rw [hbegin] at h
    cases h
    exact absurd rfl (hret _)
  · rw [hbegin] at h
    exact (Prod.mk.inj h).1.symm

theorem maintains_readBlockTrust (i : CBlockIndex) :
    Action.Maintains P (readBlockTrust i) fun _ => True :=
  Action.Maintains.bind (Action.Maintains.reading _) fun _ _ => Action.Maintains.pure trivial

theorem maintains_invalidChainFound (hwrite : ∀ s trust, P s → P { s with
      nBestInvalidTrust := trust
      txdb := s.txdb.write .bnBestInvalidTrust trust }) (pindexNew : UInt256) :
    Action.Maintains P (InvalidChainFound pindexNew) fun _ => True := by
  refine Action.Maintains.bind (Action.Maintains.reading _) fun i _ => ?_
  refine Action.Maintains.bind (Action.Maintains.modify fun s hs => ?_) fun _ _ => ?_
  · split
    · exact hwrite s _ hs
    · exact hs
  refine Action.Maintains.bind (maintains_readBlockTrust i) fun _ _ => ?_
  refine Action.Maintains.bind (Action.Maintains.reading _) fun best _ => ?_
  exact Action.Maintains.ite (fun _ => maintains_readBlockTrust best)
    fun _ => Action.Maintains.pure trivial

/-- The number of the invalid chain is read under its own key only, and is on the disk at once when no
transaction is open. -/
theorem write_bnBestInvalidTrust {txdb : CTxDB} (h : txdb.activeBatch = none) (trust : UInt256) :
    (txdb.write .bnBestInvalidTrust trust).activeBatch = none ∧
      ∀ key, key ≠ .bnBestInvalidTrust →
        (txdb.write .bnBestInvalidTrust trust).view key = txdb.view key := by
  refine ⟨?_, fun key hne => ?_⟩
  · rw [show txdb.write .bnBestInvalidTrust trust = _ from Store.perform_of_closed h _]
  · rw [Store.view_write, Function.update_of_ne hne]

theorem chainAt_write_bnBestInvalidTrust {s₀ : NodeState} (trust : UInt256)
    (h : ChainAt ctx s tip above ∧ Unmoved s₀ s) :
    ChainAt ctx { s with
        nBestInvalidTrust := trust
        txdb := s.txdb.write .bnBestInvalidTrust trust } tip above ∧
      Unmoved s₀ { s with
        nBestInvalidTrust := trust
        txdb := s.txdb.write .bnBestInvalidTrust trust } := by
  obtain ⟨hchain, hunm⟩ := h
  obtain ⟨hclosed, hview⟩ := write_bnBestInvalidTrust hchain.closed trust
  refine ⟨⟨hchain.toConnected.congr (fun _ _ => rfl) ?_ (hview _ (by simp)),
    hchain.index.congr fun _ => rfl, hclosed, hchain.links⟩, ⟨hunm.best, hunm.place⟩⟩
  funext hash
  exact hview _ (by simp)

theorem handle_abandon_eq_ok (h : Action.handle x (abandon pindexNew msg) s = (.ok (), s')) :
    x s = (.ok (), s') := by
  rcases Action.handle_eq_ok.mp h with h | ⟨e, t, -, h⟩
  · exact h
  · cases e with
    | crash m => simp [abandon] at h
    | reject n m =>
      obtain ⟨⟨⟩, t₁, -, h⟩ := Action.bind_eq_ok.mp h
      obtain ⟨⟨⟩, t₂, -, h⟩ := Action.bind_eq_ok.mp h
      simp at h

theorem handle_abandon_of_error {x : NodeM Unit} {pindexNew : UInt256} {msg : String} {e : Failure}
    (hwrite : ∀ s trust, P s → P { s with
      nBestInvalidTrust := trust
      txdb := s.txdb.write .bnBestInvalidTrust trust })
    (habort : ∀ e t, x s = (.error e, t) → Returns (.error e : Except Failure Unit) →
      P { t with txdb := t.txdb.txnAbort })
    (h : Action.handle x (abandon pindexNew msg) s = (.error e, s'))
    (hret : Returns (.error e : Except Failure Unit)) : P s' := by
  unfold Action.handle at h
  rcases hx : x s with ⟨e' | ⟨⟩, t⟩
  · rw [hx] at h
    cases e' with
    | crash m =>
      exact absurd (Prod.mk.inj h).1.symm (hret m)
    | reject n m =>
      have hrestored := habort _ _ hx fun m => by simp
      have hmaintains : Action.Maintains P (InvalidChainFound pindexNew >>= fun _ =>
          (Action.fail (.error msg) : NodeM Unit)) fun _ => True :=
        (maintains_invalidChainFound hwrite pindexNew).bind fun _ _ => Action.Maintains.fail _
      have hs' : s' = ((InvalidChainFound pindexNew >>= fun _ =>
          (Action.fail (.error msg) : NodeM Unit)) { t with txdb := t.txdb.txnAbort }).2 := by
        have hsnd := congrArg Prod.snd h
        exact hsnd.symm
      rw [hs']
      exact (hmaintains _ hrestored).1
  · rw [hx] at h
    simp at h

theorem handle_abandon_eq_error {e : Failure} (hchain : ChainAt ctx s tip above)
    (hframe : ∀ e t, x s.opened = (.error e, t) → Returns (.error e : Except Failure Unit) →
      ConnectFrame touched s.opened t)
    (htouched : ∀ q ∈ tip :: above, ¬touched q)
    (h : Action.handle x (abandon pindexNew msg) s.opened = (.error e, s'))
    (hret : Returns (.error e : Except Failure Unit)) :
    ChainAt ctx s' tip above ∧ Unmoved s s' := by
  refine @handle_abandon_of_error s.opened s' (fun u => ChainAt ctx u tip above ∧ Unmoved s u)
    x pindexNew msg e (fun _ trust hs => chainAt_write_bnBestInvalidTrust trust hs)
    (fun e t hx hret => ?_) h hret
  have hframe := hframe e t hx hret
  exact ⟨hchain.restore hframe htouched, ⟨hframe.unmoved.best, hframe.unmoved.place⟩⟩

end ZalemCoin.Chain
