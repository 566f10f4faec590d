import ZalemCoin.Chain.BlockSums
import ZalemCoin.Chain.Undo

/-!
# The address index

The address index has, for the identifier of an address, the hashes of transactions. Connecting a block
files each of its transactions under the addresses of its outputs, and under those of all outputs of the
transactions that it spends from, spent by it or not; nothing takes a transaction out again. What
should be filed under an address are the transactions of the active chain that pay it or spend an output
that pays it.
-/

namespace ZalemCoin.Chain

open Lib
open Function (update_of_ne update_self)
open Option (some.inj map_some)

def CTxDB.addrIndex (txdb : CTxDB) (addrid : UInt160) : List UInt256 :=
  ((txdb.view (.adr addrid) : Option (List UInt256))).getD []

variable (ctx : Context)

/-- An output pays an address: the address is one of those that its script is filed under. -/
def CTxOut.Pays (txout : CTxOut) (addrid : UInt160) : Prop :=
  addrid ∈ BuildAddrIndex ctx txout.scriptPubKey

/-- A transaction has an output that pays an address, or an input that spends such an output of one of
the transactions of a chain. -/
def Concerns (txs : Set CTransaction) (addrid : UInt160) (tx : CTransaction) : Prop :=
  (∃ txout ∈ tx.vout, txout.Pays ctx addrid) ∨
    tx.IsCoinBase = false ∧ ∃ txin ∈ tx.vin, ∃ prev ∈ txs, ctx.hashTx prev = txin.prevout.hash ∧
      ∃ txout, prev.vout[txin.prevout.n.toNat]? = some txout ∧ txout.Pays ctx addrid

/-- A transaction has an output that pays an address, or an input from a transaction with such an
output. -/
def Filed (txs : Set CTransaction) (addrid : UInt160) (tx : CTransaction) : Prop :=
  (∃ txout ∈ tx.vout, txout.Pays ctx addrid) ∨
    tx.IsCoinBase = false ∧ ∃ txin ∈ tx.vin, ∃ prev ∈ txs, ctx.hashTx prev = txin.prevout.hash ∧
      ∃ txout ∈ prev.vout, txout.Pays ctx addrid

structure AddrIndexExact (txdb : CTxDB) (txs : Set CTransaction) : Prop where
  nodup : ∀ addrid, (txdb.addrIndex addrid).Nodup
  mem_iff : ∀ addrid hash, hash ∈ txdb.addrIndex addrid ↔
    ∃ tx ∈ txs, ctx.hashTx tx = hash ∧ Concerns ctx txs addrid tx

/-- Every entry of the transaction index leads to the transaction of a chain that has its hash, and has a
place for each of its outputs. -/
def Located (L : Ledger UInt256 CDiskTxPos) (txs : Set CTransaction) : Prop :=
  ∀ hash e, L hash = some e → e.pos ≠ CDiskTxPos.memoryPool ∧
    ∃ tx ∈ txs, readTxAt ctx e.pos = some tx ∧ ctx.hashTx tx = hash ∧
      e.slots.length = tx.vout.length

def Resolves (L : Ledger UInt256 CDiskTxPos) (txs : Set CTransaction)
    (txin : CTxIn) : Prop :=
  (∃ e, L txin.prevout.hash = some e) ∧
    ∃ prev ∈ txs, ctx.hashTx prev = txin.prevout.hash ∧ txin.prevout.n.toNat < prev.vout.length

/-- The inputs of some transactions refer to outputs of transactions of a chain that the transaction
index has. -/
def AllResolve (L : Ledger UInt256 CDiskTxPos) (txs : Set CTransaction)
    (vtx : List CTransaction) : Prop :=
  ∀ tx ∈ vtx, tx.IsCoinBase = false → ∀ txin ∈ tx.vin, Resolves ctx L txs txin

variable {ctx : Context} {env : Env} {s s' : NodeState} {tx : CTransaction} {txs : Set CTransaction}
  {block : CBlock} {p : UInt256}

/-! ## Writing the index -/

theorem Concerns.filed {addrid : UInt160} (h : Concerns ctx txs addrid tx) :
    Filed ctx txs addrid tx := by
  rcases h with h | ⟨hcb, txin, htxin, prev, hprev, hhash, txout, htxout, hpays⟩
  · exact .inl h
  · exact .inr ⟨hcb, txin, htxin, prev, hprev, hhash, txout, List.mem_of_getElem? htxout, hpays⟩

theorem exists_mem_buildAddrIndex (ctx : Context) (script : CScript) :
    ∃ addrid, addrid ∈ BuildAddrIndex ctx script := by
  unfold BuildAddrIndex
  split
  · exact ⟨_, List.mem_singleton_self _⟩
  · rename_i addrIds hne
    rcases haddr : addrIdsLoop ctx script.length script with _ | ⟨a, l⟩
    · exact absurd haddr hne
    · exact ⟨a, List.mem_cons_self⟩

theorem addrIndex_write {txdb : CTxDB} {k : DbKey} (v : k.Val) (hk : ∀ addrid, k ≠ .adr addrid) :
    CTxDB.addrIndex (txdb.write k v) = txdb.addrIndex := by
  funext addrid
  unfold CTxDB.addrIndex
  rw [Store.view_write, update_of_ne (hk addrid).symm]

theorem addrIndex_writeAddrIndex (txdb : CTxDB) (addrid : UInt160) (txHash : UInt256) :
    (txdb.WriteAddrIndex addrid txHash).addrIndex = Function.update txdb.addrIndex addrid
      (if txHash ∈ txdb.addrIndex addrid then txdb.addrIndex addrid
        else txdb.addrIndex addrid ++ [txHash]) := by
  unfold CTxDB.WriteAddrIndex
  rw [Store.read_eq_view]
  change (if txHash ∈ txdb.addrIndex addrid then txdb
    else txdb.write (.adr addrid) (txdb.addrIndex addrid ++ [txHash] : List UInt256)).addrIndex = _
  split
  · rw [Function.update_eq_self]
  · funext a
    unfold CTxDB.addrIndex
    rw [Store.view_write]
    by_cases ha : a = addrid
    · subst ha
      rw [update_self, update_self]
      rfl
    · rw [update_of_ne ha, update_of_ne (by simpa using ha)]

/-- Filing a transaction under the addresses of some outputs: it is filed under these and no others,
and nowhere twice. -/
theorem addrIndex_writeAddrIds (txdb : CTxDB) (hashTx : UInt256) (vout : List CTxOut)
    (addrid : UInt160) :
    (∀ hash, hash ∈ (writeAddrIds ctx txdb hashTx vout).addrIndex addrid ↔
      hash ∈ txdb.addrIndex addrid ∨ hash = hashTx ∧ ∃ txout ∈ vout, txout.Pays ctx addrid) ∧
    ((txdb.addrIndex addrid).Nodup →
      ((writeAddrIds ctx txdb hashTx vout).addrIndex addrid).Nodup) := by
  have hpays : (∃ txout ∈ vout, txout.Pays ctx addrid) ↔
      addrid ∈ vout.flatMap fun txout => BuildAddrIndex ctx txout.scriptPubKey :=
    List.mem_flatMap.symm
  rw [hpays]
  unfold writeAddrIds
  induction vout.flatMap fun txout => BuildAddrIndex ctx txout.scriptPubKey generalizing txdb with
  | nil => simp
  | cons a addrids ih =>
    rw [List.foldl_cons]
    obtain ⟨hmem, hnd⟩ := ih (txdb.WriteAddrIndex a hashTx)
    rw [addrIndex_writeAddrIndex] at hmem hnd
    by_cases ha : addrid = a
    · subst ha
      rw [update_self] at hmem hnd
      refine ⟨fun hash => ?_, fun hold => hnd ?_⟩
      · rw [hmem hash]
        split
        · rename_i hin
          constructor
          · rintro (h | ⟨rfl, -⟩)
            · exact .inl h
            · exact .inl hin
          · rintro (h | ⟨rfl, -⟩)
            · exact .inl h
            · exact .inl hin
        · rw [List.mem_append, List.mem_singleton]
          constructor
          · rintro ((h | h) | ⟨h, -⟩)
            · exact .inl h
            · exact .inr ⟨h, List.mem_cons_self⟩
            · exact .inr ⟨h, List.mem_cons_self⟩
          · rintro (h | ⟨h, -⟩)
            · exact .inl (.inl h)
            · exact .inl (.inr h)
      · split
        · exact hold
        · rename_i hout
          exact List.nodup_append.mpr ⟨hold, List.nodup_singleton _, fun x hx y hy heq =>
            hout (List.mem_singleton.mp hy ▸ heq ▸ hx)⟩
    · rw [update_of_ne ha] at hmem hnd
      refine ⟨fun hash => ?_, hnd⟩
      rw [hmem hash, List.mem_cons, or_iff_right ha]

/-! ## One transaction -/

variable {queue : TestPool} {mode : CheckMode} {inputs : MapPrevTx} {txin : CTxIn} {i : CBlockIndex}
  {log : List SigCheck}

theorem mem_of_fetchInputs {hash : UInt256} {prev : CTxIndex × CTransaction}
    (hcb : tx.IsCoinBase = false) (h : FetchInputs ctx s queue mode tx = .ok inputs)
    (hlook : inputs.lookup hash = some prev) : ∃ txin ∈ tx.vin, txin.prevout.hash = hash := by
  unfold FetchInputs at h
  rw [hcb] at h
  obtain ⟨fetched, hfetch, h⟩ := bind_ok h
  obtain ⟨⟨⟩, -, h⟩ := bind_ok h
  cases h
  refine foldlM_ok_induction (fun done (inputs : MapPrevTx) => ∀ hash prev,
    inputs.lookup hash = some prev → ∃ txin ∈ done, txin.prevout.hash = hash)
    (fun hash prev hprev => by simp at hprev) ?_ hfetch hash prev hlook
  intro done txin rest c c' _ hc hstep hash prev hprev
  have hold : c.lookup hash = some prev → ∃ txin' ∈ done ++ [txin], txin'.prevout.hash = hash :=
    fun hprev => (hc hash prev hprev).imp fun _ => And.imp_left (List.mem_append_left _)
  unfold fetchInput at hstep
  split at hstep
  · cases hstep
    exact hold hprev
  · obtain ⟨fetched, -, hstep⟩ := bind_ok hstep
    cases hstep
    by_cases heq : hash = txin.prevout.hash
    · exact ⟨txin, by simp, heq.symm⟩
    · rw [AList.lookup_insert_ne heq] at hprev
      exact hold hprev

theorem Resolves.fetchPrev (h : Resolves ctx s.txdb.txIndex txs txin)
    (hinj : Set.InjOn ctx.hashTx txs) (hlocated : Located ctx s.txdb.txIndex txs) :
    ∃ fetched, fetchPrev ctx s ∅ .block txin.prevout.hash = .ok fetched ∧
      txin.prevout.n.toNat < fetched.2.vout.length ∧
      txin.prevout.n.toNat < fetched.1.vSpent.length := by
  obtain ⟨⟨e, he⟩, prev, hprev, hhash, hn⟩ := h
  obtain ⟨hpos, tx, htx, hread, hhash', hlen⟩ := hlocated _ e he
  obtain rfl := hinj hprev htx (hhash.trans hhash'.symm)
  refine ⟨(e, prev), ?_, hn, hlen ▸ hn⟩
  unfold Chain.fetchPrev
  rw [prevIndex_ofBlock CheckMode.block_ofBlock, pending, overlay_empty, he]
  dsimp only
  rw [if_neg hpos, hread]

theorem foldlM_fetchInput {queue : TestPool} {mode : CheckMode} (vin : List CTxIn)
    (hfetch : ∀ txin ∈ vin, ∃ fetched, fetchPrev ctx s queue mode txin.prevout.hash = .ok fetched)
    {inputs : MapPrevTx} (hins : ∀ hash fetched, inputs.lookup hash = some fetched →
      fetchPrev ctx s queue mode hash = .ok fetched) :
    ∃ inputs', vin.foldlM (fetchInput ctx s queue mode) inputs = .ok inputs' ∧
      (∀ hash fetched, inputs'.lookup hash = some fetched →
        fetchPrev ctx s queue mode hash = .ok fetched) ∧
      ∀ hash, (hash ∈ inputs ∨ ∃ txin ∈ vin, txin.prevout.hash = hash) → hash ∈ inputs' := by
  induction vin generalizing inputs with
  | nil => exact ⟨inputs, rfl, hins, fun hash h => by simpa using h⟩
  | cons txin vin ih =>
    -- After the first input its transaction has been fetched, with those fetched before.
    obtain ⟨next, hone, hnext, hkeys⟩ : ∃ next, fetchInput ctx s queue mode inputs txin = .ok next ∧
        (∀ hash fetched, next.lookup hash = some fetched →
          fetchPrev ctx s queue mode hash = .ok fetched) ∧
        ∀ hash, (hash ∈ inputs ∨ txin.prevout.hash = hash) → hash ∈ next := by
      unfold fetchInput
      rcases hlook : inputs.lookup txin.prevout.hash with _ | known
      · obtain ⟨fetched, hprev⟩ := hfetch txin List.mem_cons_self
        refine ⟨inputs.insert txin.prevout.hash fetched, ?_, ?_, ?_⟩
        · dsimp only
          rw [hprev]
          rfl
        · intro hash fetched' hlook'
          by_cases heq : hash = txin.prevout.hash
          · subst heq
            rw [AList.lookup_insert] at hlook'
            rw [← some.inj hlook']
            exact hprev
          · rw [AList.lookup_insert_ne heq] at hlook'
            exact hins hash fetched' hlook'
        · rintro hash (hmem | rfl)
          · exact (AList.mem_insert _).mpr (.inr hmem)
          · exact (AList.mem_insert _).mpr (.inl rfl)
      · refine ⟨inputs, rfl, hins, ?_⟩
        rintro hash (hmem | rfl)
        · exact hmem
        · exact AList.lookup_isSome.mp (by rw [hlook]; rfl)
    obtain ⟨inputs', hrest, hgood, hmem⟩ :=
      ih (fun txin' htxin' => hfetch txin' (List.mem_cons_of_mem _ htxin')) hnext
    refine ⟨inputs', ?_, hgood, ?_⟩
    · rw [List.foldlM_cons]
      exact ok_bind hone hrest
    · rintro hash (hin | ⟨txin', htxin', heq⟩)
      · exact hmem hash (.inl (hkeys hash (.inl hin)))
      · rcases List.mem_cons.mp htxin' with rfl | htxin'
        · exact hmem hash (.inl (hkeys hash (.inr heq)))
        · exact hmem hash (.inr ⟨txin', htxin', heq⟩)

theorem fetchInputs_of_fetchPrev
    (h : ∀ txin ∈ tx.vin, ∃ fetched, fetchPrev ctx s queue mode txin.prevout.hash = .ok fetched ∧
      txin.prevout.n.toNat < fetched.2.vout.length ∧ txin.prevout.n.toNat < fetched.1.vSpent.length)
      :
    ∃ inputs, FetchInputs ctx s queue mode tx = .ok inputs := by
  unfold FetchInputs
  split
  · exact ⟨∅, rfl⟩
  · obtain ⟨inputs, hloop, hgood, hmem⟩ := @foldlM_fetchInput ctx s queue mode tx.vin
      (fun txin htxin => (h txin htxin).imp fun _ => And.left) ∅ (fun hash fetched hlook => by
        simp at hlook)
    refine ⟨inputs, ok_bind hloop (except_bind_eq_ok.mpr ⟨(), ?_, rfl⟩)⟩
    rw [except_forM_eq_ok]
    intro txin htxin
    obtain ⟨fetched, hlook⟩ := Option.isSome_iff_exists.mp
      (AList.lookup_isSome.mpr (hmem txin.prevout.hash (.inr ⟨txin, htxin, rfl⟩)))
    obtain ⟨fetched', hprev, hrng⟩ := h txin htxin
    obtain rfl := Except.ok.inj ((hgood _ _ hlook).symm.trans hprev)
    unfold checkPrevout
    rw [hlook]
    exact ensure_eq_ok.mpr hrng

variable (hinj : Set.InjOn ctx.hashTx txs)
include hinj

theorem fetched_iff (hlocated : Located ctx s.txdb.txIndex txs) (hcb : tx.IsCoinBase = false)
    (h : FetchInputs ctx s ∅ .block tx = .ok inputs) (prev : CTransaction) :
    (∃ hash e, inputs.lookup hash = some (e, prev)) ↔
      prev ∈ txs ∧ ∃ txin ∈ tx.vin, ctx.hashTx prev = txin.prevout.hash := by
  have hfetch := fetchInputs_ofBlock CheckMode.block_ofBlock hcb h
  -- An entry of the index does not lead to the pool, so the transaction is on the disk.
  have hent : ∀ hash fetched, inputs.lookup hash = some fetched →
      fetched.2 ∈ txs ∧ ctx.hashTx fetched.2 = hash := by
    intro hash fetched hlook
    obtain ⟨hidx, hprev⟩ := hfetch.entry hash fetched hlook
    obtain ⟨hpos, t, ht, hread, hhash, -⟩ := hlocated hash fetched.1 hidx
    unfold PrevTx at hprev
    rw [if_neg hpos, hread] at hprev
    cases hprev
    exact ⟨ht, hhash⟩
  constructor
  · rintro ⟨hash, e, hlook⟩
    obtain ⟨hmem, hhash⟩ := hent hash (e, prev) hlook
    obtain ⟨txin, htxin, heq⟩ := mem_of_fetchInputs hcb h hlook
    exact ⟨hmem, txin, htxin, hhash.trans heq.symm⟩
  · rintro ⟨hmem, txin, htxin, heq⟩
    obtain ⟨fetched, hlook, -, -⟩ := hfetch.inRange txin htxin
    obtain ⟨hmem', hhash⟩ := hent _ fetched hlook
    obtain rfl := hinj hmem' hmem (hhash.trans heq.symm)
    exact ⟨_, fetched.1, hlook⟩

/-- What adding transactions to the address index does to it. -/
structure FiledAll (ctx : Context) (txs : Set CTransaction) (s s' : NodeState)
    (vtx : List CTransaction) : Prop where
  txIndex : s'.txdb.txIndex = s.txdb.txIndex
  mem_iff : ∀ addrid hash, hash ∈ s'.txdb.addrIndex addrid ↔ hash ∈ s.txdb.addrIndex addrid ∨
    ∃ tx ∈ vtx, ctx.hashTx tx = hash ∧ Filed ctx txs addrid tx
  nodup : ∀ addrid, (s.txdb.addrIndex addrid).Nodup → (s'.txdb.addrIndex addrid).Nodup

theorem indexAddresses_filed (hlocated : Located ctx s.txdb.txIndex txs)
    (hresolves : AllResolve ctx s.txdb.txIndex txs [tx]) :
    ∃ s', indexAddresses ctx tx s = (.ok (), s') ∧ FiledAll ctx txs s s' [tx] := by
  obtain ⟨inputs, hfetch⟩ : ∃ inputs : MapPrevTx,
      (if tx.IsCoinBase then .ok ∅ else FetchInputs ctx s ∅ .block tx) = .ok inputs := by
    split
    · exact ⟨∅, rfl⟩
    · rename_i hcb
      exact fetchInputs_of_fetchPrev fun txin htxin => (hresolves tx (List.mem_singleton_self tx)
        (Bool.not_eq_true _ ▸ hcb) txin htxin).fetchPrev hinj hlocated
  refine ⟨_, Action.bind_of_ok (congrArg (·, s) hfetch), ?_⟩
  -- The transactions that it spends from are those that have been fetched.
  have hspent : ∀ prev : CTransaction, (∃ hash e, inputs.lookup hash = some (e, prev)) ↔
      tx.IsCoinBase = false ∧ prev ∈ txs ∧ ∃ txin ∈ tx.vin,
        ctx.hashTx prev = txin.prevout.hash := by
    intro prev
    by_cases hcb : tx.IsCoinBase = true
    · rw [if_pos hcb] at hfetch
      cases hfetch
      simp [hcb]
    · rw [if_neg hcb] at hfetch
      rw [Bool.not_eq_true] at hcb
      rw [fetched_iff hinj hlocated hcb hfetch]
      exact (and_iff_right hcb).symm
  have hpays : ∀ addrid, (∃ txout ∈ inputs.entries.flatMap fun entry => entry.2.2.vout,
      txout.Pays ctx addrid) ↔ tx.IsCoinBase = false ∧ ∃ txin ∈ tx.vin, ∃ prev ∈ txs,
        ctx.hashTx prev = txin.prevout.hash ∧ ∃ txout ∈ prev.vout, txout.Pays ctx addrid := by
    intro addrid
    constructor
    · rintro ⟨txout, htxout, hpay⟩
      obtain ⟨⟨hash, e, prev⟩, hent, htxout⟩ := List.mem_flatMap.mp htxout
      obtain ⟨hcb, hprev, txin, htxin, hhash⟩ :=
        (hspent prev).mp ⟨hash, e, AList.mem_lookup_iff.mpr hent⟩
      exact ⟨hcb, txin, htxin, prev, hprev, hhash, txout, htxout, hpay⟩
    · rintro ⟨hcb, txin, htxin, prev, hprev, hhash, txout, htxout, hpay⟩
      obtain ⟨hash, e, hlook⟩ := (hspent prev).mpr ⟨hcb, hprev, txin, htxin, hhash⟩
      exact ⟨txout, List.mem_flatMap.mpr ⟨⟨hash, e, prev⟩, AList.mem_lookup_iff.mp hlook,
        htxout⟩, hpay⟩
  refine ⟨?_, fun addrid hash => ?_, fun addrid hnd => ?_⟩
  · exact (txIndex_writeAddrIds ..).trans (txIndex_writeAddrIds ..)
  · dsimp only
    rw [(addrIndex_writeAddrIds _ _ _ _).1, (addrIndex_writeAddrIds _ _ _ _).1, hpays]
    unfold Filed
    constructor
    · rintro ((hold | ⟨rfl, hspent⟩) | ⟨rfl, hpaid⟩)
      · exact .inl hold
      · exact .inr ⟨tx, List.mem_singleton_self tx, rfl, .inr hspent⟩
      · exact .inr ⟨tx, List.mem_singleton_self tx, rfl, .inl hpaid⟩
    · rintro (hold | ⟨tx', htx', rfl, hfiled⟩)
      · exact .inl (.inl hold)
      · obtain rfl := List.mem_singleton.mp htx'
        rcases hfiled with hpaid | hspent
        · exact .inr ⟨rfl, hpaid⟩
        · exact .inl (.inr ⟨rfl, hspent⟩)
  · exact (addrIndex_writeAddrIds _ _ _ _).2 ((addrIndex_writeAddrIds _ _ _ _).2 hnd)

theorem forM_indexAddresses_filed (vtx : List CTransaction)
    (hlocated : Located ctx s.txdb.txIndex txs)
    (hresolves : AllResolve ctx s.txdb.txIndex txs vtx) :
    ∃ s', vtx.forM (indexAddresses ctx) s = (.ok (), s') ∧ FiledAll ctx txs s s' vtx := by
  induction vtx generalizing s with
  | nil => exact ⟨s, rfl, rfl, by simp, fun _ h => h⟩
  | cons tx vtx ih =>
    obtain ⟨t, hone, hfst⟩ := indexAddresses_filed hinj hlocated fun tx' htx' =>
      hresolves tx' (List.mem_singleton.mp htx' ▸ List.mem_cons_self)
    -- The transaction index is still the same, so the others can be added as well.
    obtain ⟨s', hrest, hothers⟩ := ih (hfst.txIndex ▸ hlocated) fun tx' htx' =>
      hfst.txIndex ▸ hresolves tx' (List.mem_cons_of_mem _ htx')
    refine ⟨s', Action.forM_cons_eq_ok.mpr ⟨t, hone, hrest⟩, hothers.txIndex.trans hfst.txIndex,
      fun addrid hash => ?_,
      fun addrid hnd => hothers.nodup addrid (hfst.nodup addrid hnd)⟩
    rw [hothers.mem_iff, hfst.mem_iff, or_assoc]
    simp only [List.mem_cons, List.not_mem_nil, or_false, exists_eq_or_imp, exists_eq_left]

theorem rebuildAddressIndex_filed (hlocated : Located ctx s.txdb.txIndex txs)
    (hresolves : AllResolve ctx s.txdb.txIndex txs block.vtx)
    (h : RebuildAddressIndex ctx block s = (.ok (), s')) : FiledAll ctx txs s s' block.vtx := by
  obtain ⟨t, hall, hfiled⟩ := forM_indexAddresses_filed hinj block.vtx hlocated hresolves
  have hsame := h.symm.trans (Action.handle_eq_ok.mpr (.inl hall))
  rw [(Prod.mk.inj hsame).2]
  exact hfiled

omit hinj

/-! ## One block -/

variable {L : Ledger UInt256 CDiskTxPos}

variable (h : Located ctx L txs)
include h

/-- The entries of a ledger lead to the same places when their positions and their sizes are the
same. -/
theorem Located.of_map {L' : Ledger UInt256 CDiskTxPos}
    (hpos : ∀ hash, (L' hash).map Entry.pos = (L hash).map Entry.pos)
    (hlen : ∀ hash, (L' hash).map (fun e => e.slots.length) = (L hash).map fun e => e.slots.length) :
    Located ctx L' txs := by
  intro hash e he
  have hmap := hpos hash
  have hmap' := hlen hash
  rw [he, map_some] at hmap hmap'
  obtain ⟨e', he', heq⟩ := Option.map_eq_some_iff.mp hmap.symm
  rw [he', map_some] at hmap'
  rw [← heq, some.inj hmap']
  exact h hash e' he'

theorem Located.mono {txs' : Set CTransaction} (hsub : txs ⊆ txs') :
    Located ctx L txs' := by
  intro hash e he
  obtain ⟨hpos, tx, htx, hread⟩ := h hash e he
  exact ⟨hpos, tx, hsub htx, hread⟩

theorem Located.connect {pos : CDiskTxPos} (htx : tx ∈ txs) (hread : readTxAt ctx pos = some tx)
    (hpos : pos ≠ CDiskTxPos.memoryPool) :
    Located ctx (Ledger.connect CDiskTxPos.null L (tx.spend ctx pos)) txs := by
  intro hash e he
  have hmap := Ledger.map_pos_connect CDiskTxPos.null L (tx.spend ctx pos) hash
  have hmap' := Ledger.map_length_connect CDiskTxPos.null L (tx.spend ctx pos) hash
  rw [he, map_some] at hmap hmap'
  -- The entry is that of the transaction, or an old one with its spent outputs marked.
  by_cases hid : hash = (tx.spend ctx pos).id
  · rw [if_pos hid] at hmap hmap'
    rw [show e.pos = pos from some.inj hmap]
    exact ⟨hpos, tx, htx, hread, hid.symm, some.inj hmap'⟩
  · rw [if_neg hid] at hmap hmap'
    obtain ⟨e', he', heq⟩ := Option.map_eq_some_iff.mp hmap.symm
    rw [he', map_some] at hmap'
    rw [← heq, some.inj hmap']
    exact h hash e' he'

theorem Located.foldl_disconnect {ts : List (Spend UInt256 CDiskTxPos)} :
    Located ctx (ts.foldl (Ledger.disconnect CDiskTxPos.null) L) txs := by
  induction ts generalizing L with
  | nil => exact h
  | cons t ts ih =>
    refine ih fun hash e he => ?_
    unfold Ledger.disconnect at he
    by_cases hid : hash = t.id
    · rw [hid, update_self] at he
      simp at he
    · rw [update_of_ne hid] at he
      exact h.of_map (Ledger.map_pos_foldl_mark CDiskTxPos.null L t.inputs)
        (Ledger.map_length_foldl_mark CDiskTxPos.null L t.inputs) hash e he

omit h

theorem Resolves.connect {t : Spend UInt256 CDiskTxPos} (h : Resolves ctx L txs txin) :
    Resolves ctx (Ledger.connect CDiskTxPos.null L t) txs txin := by
  obtain ⟨⟨e, he⟩, hprev⟩ := h
  refine ⟨?_, hprev⟩
  have hmap := Ledger.map_pos_connect CDiskTxPos.null L t txin.prevout.hash
  rw [he, map_some] at hmap
  split at hmap
  · exact (Option.map_eq_some_iff.mp hmap).imp fun _ => And.left
  · exact (Option.map_eq_some_iff.mp hmap).imp fun _ => And.left

theorem resolves_of_slot (hlocated : Located ctx L txs) (hcb : tx.IsCoinBase = false)
    (hfree : ∀ k ∈ tx.spentSlots, Ledger.slot L k = some CDiskTxPos.null) :
    ∀ txin ∈ tx.vin, Resolves ctx L txs txin := by
  intro txin htxin
  have hslot := hfree (txin.prevout.hash, txin.prevout.n.toNat) (by
    unfold CTransaction.spentSlots
    rw [hcb, if_neg Bool.false_ne_true]
    exact List.mem_map_of_mem htxin)
  obtain ⟨e, he, hn⟩ := Option.bind_eq_some_iff.mp hslot
  obtain ⟨-, prev, hprev, -, hhash, hlen⟩ := hlocated _ e he
  exact ⟨⟨e, he⟩, prev, hprev, hhash, hlen ▸ (List.getElem?_eq_some_iff.mp hn).1⟩

theorem connectTransactions_located {acc : ConnectAcc}
    (hstor : ctx.files.block i.nFile i.nBlockPos = some block)
    (hlocated : Located ctx s.txdb.txIndex txs) (hsub : ∀ tx ∈ block.vtx, tx ∈ txs)
    (h : connectTransactions ctx env s block i false = .ok acc) :
    Located ctx (pending s acc.mapQueuedChanges) txs ∧
      AllResolve ctx (pending s acc.mapQueuedChanges) txs block.vtx := by
  have hstart : pending s (ConnectAcc.start block i false).mapQueuedChanges = s.txdb.txIndex :=
    overlay_empty _
  have hall := foldlM_ok_induction (fun done acc => Progress ctx s i block.vtx done acc ∧
    Located ctx (pending s acc.mapQueuedChanges) txs ∧
    AllResolve ctx (pending s acc.mapQueuedChanges) txs done)
    ⟨progress_start, hstart ▸ hlocated, by simp [AllResolve]⟩ ?_ h
  · exact hall.2
  rintro done tx rest c c' hvtx ⟨hprogress, hplace, hdone⟩ hstep
  obtain ⟨hled, hfree, -⟩ := connectTransaction_block hstep
  obtain ⟨hread, -, hpos⟩ := hprogress.placed hvtx hstor
  rw [hled]
  refine ⟨hprogress.step hvtx hstep, hplace.connect (hsub tx (by simp [hvtx])) hread hpos, ?_⟩
  intro tx' htx' hcb txin htxin
  rcases List.mem_append.mp htx' with htx' | htx'
  · exact (hdone tx' htx' hcb txin htxin).connect
  · obtain rfl := List.mem_singleton.mp htx'
    exact (resolves_of_slot hplace hcb hfree txin htxin).connect

theorem connectBlock_located (hent : s.mapBlockIndex p = some i)
    (hstor : ctx.files.block i.nFile i.nBlockPos = some block)
    (hlocated : Located ctx s.txdb.txIndex txs) (hsub : ∀ tx ∈ block.vtx, tx ∈ txs)
    (h : ConnectBlock ctx env block p false s = (.ok log, s')) :
    Located ctx s'.txdb.txIndex txs ∧ AllResolve ctx s'.txdb.txIndex txs block.vtx := by
  obtain ⟨s₁, i', prevSupply, acc, hconn, -⟩ := connectBlock_eq_ok h
  obtain rfl := Option.mem_unique hent hconn.entry
  have htxdb := txdb_of_core hconn.core
  have haft := connectTransactions_located hstor (htxdb ▸ hlocated) hsub hconn.transactions
  rw [pending, htxdb] at haft
  rw [hconn.ledger]
  exact haft

theorem keepsAddrIndex_writePrevLink (ctx : Context) (pprev : Option UInt256) (hashNext : UInt256) :
    KeepsPart (fun s => s.txdb.addrIndex) (writePrevLink ctx pprev hashNext) := by
  cases pprev with
  | none => exact KeepsPart.pure _
  | some p =>
    exact KeepsPart.bind (KeepsPart.reading _) fun prev => KeepsPart.modify fun s =>
      addrIndex_write _ (by simp)

theorem addrIndex_writeQueue (txdb : CTxDB) (queue : TestPool) :
    (writeQueue txdb queue).addrIndex = txdb.addrIndex := by
  unfold writeQueue
  induction queue.entries generalizing txdb with
  | nil => rfl
  | cons entry entries ih =>
    rw [List.foldl_cons, ih]
    exact addrIndex_write _ (by simp)

theorem connectBlock_addrIndex (haddr : ctx.fAddrIndex = true)
    (h : ConnectBlock ctx env block p false s = (.ok log, s')) :
    ∃ u u' : NodeState, block.vtx.forM (indexAddresses ctx) u = (.ok (), u') ∧
      u.txdb.txIndex = s'.txdb.txIndex ∧ u.txdb.addrIndex = s.txdb.addrIndex ∧
      s'.txdb.addrIndex = u'.txdb.addrIndex := by
  obtain ⟨t₁, size, t₂, s₁, r, -, -, -, hcore, -, hwrite, -⟩ := connectBlock_parts h
  obtain ⟨⟨⟩, u, hqueue, hwrite⟩ := Action.bind_eq_ok.mp hwrite
  obtain ⟨⟨⟩, u', haddrs, hprev⟩ := Action.bind_eq_ok.mp hwrite
  cases hqueue
  have hidx := (keepsIndex_indexBlockAddresses ctx block).of_eq haddrs
  have hlink := (keepsIndex_writePrevLink ctx r.1.pprev p).of_eq hprev
  have hlinkAddr := (keepsAddrIndex_writePrevLink ctx r.1.pprev p).of_eq hprev
  unfold indexBlockAddresses at haddrs
  rw [if_pos haddr] at haddrs
  refine ⟨_, u', haddrs, (hlink.trans hidx).symm, ?_, hlinkAddr⟩
  rw [addrIndex_writeQueue, ← txdb_of_core hcore]
  exact addrIndex_write _ (by simp)

theorem keepsAddrIndex_disconnectBlock (ctx : Context) (block : CBlock) (p : UInt256) :
    KeepsPart (fun s => s.txdb.addrIndex) (DisconnectBlock ctx block p) := by
  have htx : ∀ (txdb : CTxDB) (hash : UInt256) (v : Option CTxIndex),
      CTxDB.addrIndex (txdb.perform ⟨.tx hash, v⟩) = txdb.addrIndex := by
    intro txdb hash v
    funext addrid
    unfold CTxDB.addrIndex
    rw [Store.view_perform, update_of_ne (by simp)]
  have hins : ∀ tx, KeepsPart (fun s => s.txdb.addrIndex) (DisconnectInputs ctx tx) := by
    intro tx
    refine KeepsPart.bind (KeepsPart.ite (KeepsPart.pure _) (KeepsPart.forM fun txin _ => ?_))
      fun _ => KeepsPart.modify fun s => htx _ _ _
    exact KeepsPart.bind (KeepsPart.reading _) fun _ => KeepsPart.modify fun s => htx _ _ _
  exact KeepsPart.bind (KeepsPart.forM fun tx _ => hins tx) fun _ =>
    KeepsPart.bind (KeepsPart.reading _) fun i => keepsAddrIndex_writePrevLink ctx i.pprev 0

end ZalemCoin.Chain
