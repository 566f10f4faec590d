import ZalemCoin.Floatingcity.Manager
import ZalemCoin.Wallet.Balance
import ZalemCoin.Wallet.CoinSelection

/-!
# The coins of a wallet

The coins that can be spent are the outputs of transactions of the wallet that are its own and not marked
as spent, once their transactions are final, trusted, mature and in a block. `SelectCoins` takes the ones
that have been chosen by hand, or selects among all of them, with fewer demands on their depth from one
attempt to the next.
-/

namespace ZalemCoin.Wallet

open Chain Lib Script InstantX

inductive AvailableCoinsType
  | ALL_COINS | ONLY_NOT10000IFMN | ONLY_NONDENOMINATED_NOT10000IFMN
deriving DecidableEq

/-- What has been chosen by hand: where the change goes, if it has been chosen, and the coins. -/
structure CCoinControl where
  destChange : Option CTxDestination
  setSelected : List COutPoint

def CCoinControl.HasSelected (coinControl : CCoinControl) : Bool := !coinControl.setSelected.isEmpty

structure SpendContext (Key : Type) extends WalletContext where
  /-- The private keys that are at hand. -/
  signing : SignatureLibrary Key
  signer : CKeyStore signing
  keyPoolEnv : KeyPoolEnv
  /-- The fee for each started kilobyte. -/
  nTransactionFee : ℤ
  setLockedCoins : COutPoint → Bool
  /-- The address at which the wallet has a transaction, by which coins are ordered. -/
  address : UInt256 → ℕ

def IsCollateralAmount (nInputAmount : ℤ) : Bool :=
  decide (nInputAmount ≠ 0 ∧ nInputAmount.tmod MNengine_COLLATERAL = 0 ∧
    nInputAmount < MNengine_COLLATERAL * 5 ∧ nInputAmount > MNengine_COLLATERAL)

/-- How deep a transaction is by its block, without the locks. -/
def CMerkleTx.depthInChain (ctx : WalletContext) (n : Node) (m : CMerkleTx) : Except Failure ℤ := do
  let (_, nResult) ← m.GetDepthInMainChainINTERNAL ctx.toContext n.chain
  pure (if nResult = 0 ∧ n.chain.mempool.existsTx (ctx.hashTx m.tx) = false then -1 else nResult)

namespace CoinWallet

variable {Key : Type} (ctx : SpendContext Key) (env : WalletEnv) (w : CoinWallet)

/-- Whether the outputs of a transaction of the wallet can be spent, and how deep it is then. -/
def usableDepth (fOnlyConfirmed useIX : Bool) (pcoin : OwnedTx) : Except Failure (Option ℤ) := do
  if IsFinalTx env.toEnv w.node.chain pcoin.tx 0 0 = false then return none
  if fOnlyConfirmed then
    let fTrusted ← w.IsTrusted ctx.toWalletContext env pcoin
    if fTrusted = false then return none
  if pcoin.tx.IsCoinBase then
    let nBlocks ← pcoin.GetBlocksToMaturity ctx.toWalletContext env w.node
    if 0 < nBlocks then return none
  if pcoin.tx.IsCoinStake then
    let nBlocks ← pcoin.GetBlocksToMaturity ctx.toWalletContext env w.node
    if 0 < nBlocks then return none
  let nDepth ← pcoin.depthInChain ctx.toWalletContext w.node
  if nDepth ≤ 0 then return none
  if useIX = true ∧ nDepth < 10 then return none
  return some nDepth

/-- Whether an output is worth the collateral of a masternode. -/
def isMasternodeAmount (nValue : ℤ) : Except Failure Bool := do
  let pindexBest ← w.node.chain.index w.node.chain.pindexBest
  pure (decide (nValue = Floatingcity.FloatingcityCollateral pindexBest.nHeight * COIN))

/-- Whether an amount is among those that are asked for. -/
def amountWanted (coin_type : AvailableCoinsType) (nValue : ℤ) : Except Failure Bool :=
  match coin_type with
  | .ALL_COINS => .ok true
  | .ONLY_NOT10000IFMN =>
    if env.fFloatingCity then (w.isMasternodeAmount nValue).map not else .ok true
  | .ONLY_NONDENOMINATED_NOT10000IFMN =>
    if IsCollateralAmount nValue then .ok false
    -- Without a masternode `found` keeps its initial value.
    else if env.fFloatingCity then (w.isMasternodeAmount nValue).map not
    else .ok false

/-- Whether an output can be spent, and with a key of the wallet. -/
def availableOutput (coinControl : Option CCoinControl) (coin_type : AvailableCoinsType)
    (hash : UInt256) (pcoin : OwnedTx) (i : ℕ) (txout : CTxOut) : Except Failure (Option Bool) := do
  let found ← w.amountWanted env coin_type txout.nValue
  if found = false then return none
  let mine ← w.IsMine ctx.toWalletContext txout
  let fSpent ← pcoin.IsSpent i
  let outpoint : COutPoint := ⟨hash, UInt32.ofNat i⟩
  if fSpent = false ∧ mine ≠ .ISMINE_NO ∧ ctx.setLockedCoins outpoint = false ∧ 0 < txout.nValue ∧
      coinControl.all (fun coinControl =>
        !coinControl.HasSelected || coinControl.setSelected.contains outpoint) then
    return some (decide (mine = .ISMINE_SPENDABLE))
  return none

def addOutput (coinControl : Option CCoinControl) (coin_type : AvailableCoinsType) (hash : UInt256)
    (pcoin : OwnedTx) (nDepth : ℤ) (vCoins : List (COutput UInt256)) (p : CTxOut × ℕ) :
    Except Failure (List (COutput UInt256)) := do
  match ← w.availableOutput ctx env coinControl coin_type hash pcoin p.2 p.1 with
  | none => pure vCoins
  | some fSpendable => pure (vCoins ++ [⟨hash, p.2, nDepth, fSpendable⟩])

def addOutputs (fOnlyConfirmed : Bool) (coinControl : Option CCoinControl)
    (coin_type : AvailableCoinsType) (useIX : Bool) (vCoins : List (COutput UInt256))
    (e : Σ _ : UInt256, OwnedTx) : Except Failure (List (COutput UInt256)) := do
  match ← w.usableDepth ctx env fOnlyConfirmed useIX e.2 with
  | none => pure vCoins
  | some nDepth =>
    e.2.tx.vout.zipIdx.foldlM (w.addOutput ctx env coinControl coin_type e.1 e.2 nDepth) vCoins

def AvailableCoins (fOnlyConfirmed : Bool) (coinControl : Option CCoinControl)
    (coin_type : AvailableCoinsType) (useIX : Bool) : Except Failure (List (COutput UInt256)) :=
  w.mapWallet.entries.foldlM (w.addOutputs ctx env fOnlyConfirmed coinControl coin_type useIX) []

/-- The transactions of the wallet, as the selection of coins reads them. -/
def txReader : TxReader UInt256 where
  nTime hash := ((w.mapWallet.lookup hash).map fun wtx => wtx.tx.nTime).getD 0
  nValue hash i :=
    (((w.mapWallet.lookup hash).bind fun wtx => wtx.tx.vout[i]?).map CTxOut.nValue).getD 0
  IsFromMe hash :=
    match w.mapWallet.lookup hash with
    | none => .ok false
    | some wtx => do
      let debit ← w.cachedDebit ctx.toWalletContext wtx
      pure (decide (0 < debit))

/-- What the three attempts at a selection have besides their arguments. -/
structure Chances where
  first : Chance UInt256
  second : Chance UInt256
  third : Chance UInt256

def SelectCoins (chances : Chances) (nTargetValue : ℤ) (nSpendTime : UInt32)
    (coinControl : Option CCoinControl) (coin_type : AvailableCoinsType) (useIX : Bool) :
    Except Failure (Selection UInt256) := do
  let vCoins ← w.AvailableCoins ctx env true coinControl coin_type useIX
  let txs := w.txReader ctx
  if coinControl.any CCoinControl.HasSelected then
    let r := takeCoins ((vCoins.filter fun out => out.fSpendable).map txs.coin)
    return { r with fSelected := decide (nTargetValue ≤ r.nValueRet) }
  let r ← SelectCoinsMinConf txs chances.first nTargetValue nSpendTime 1 10 vCoins
  if r.fSelected then return r
  let r ← SelectCoinsMinConf txs chances.second nTargetValue nSpendTime 1 1 vCoins
  if r.fSelected then return r
  SelectCoinsMinConf txs chances.third nTargetValue nSpendTime 0 1 vCoins

/-! ## What the coins are -/

variable {ctx : SpendContext Key} {env : WalletEnv} {w : CoinWallet} {fOnlyConfirmed useIX : Bool}
  {coinControl : Option CCoinControl} {coin_type : AvailableCoinsType}
  {vCoins vCoins' : List (COutput UInt256)} {nTargetValue : ℤ} {r : Selection UInt256}

def outputKeys (e : Σ _ : UInt256, OwnedTx) : List (UInt256 × ℕ) :=
  e.2.tx.vout.zipIdx.map fun p => (e.1, p.2)

theorem nodup_outputKeys (e : Σ _ : UInt256, OwnedTx) : (outputKeys e).Nodup := by
  have hindices : e.2.tx.vout.zipIdx.map Prod.snd = List.range e.2.tx.vout.length := by
    rw [List.zipIdx_map_snd, List.range_eq_range']
  have hkeys : outputKeys e = (List.range e.2.tx.vout.length).map (Prod.mk e.1) := by
    rw [← hindices, List.map_map]
    rfl
  rw [hkeys]
  exact List.nodup_range.map (Prod.mk_right_injective e.1)

variable {hash : UInt256} {i : ℕ} {txout : CTxOut} {nSpendTime : UInt32}

theorem availableOutput_pos {pcoin : OwnedTx} {fSpendable : Bool}
    (h : w.availableOutput ctx env coinControl coin_type hash pcoin i txout = .ok (some fSpendable)) :
    0 < txout.nValue := by
  obtain ⟨found, -, h⟩ := bind_ok h
  split_ifs at h with hfound
  · cases h
  · obtain ⟨mine, -, h⟩ := bind_ok h
    obtain ⟨fSpent, -, h⟩ := bind_ok h
    dsimp only at h
    split_ifs at h with havailable
    · exact havailable.2.2.2.1
    · cases h

theorem addOutputs_eq_ok {e : Σ _ : UInt256, OwnedTx}
    (h : w.addOutputs ctx env fOnlyConfirmed coinControl coin_type useIX vCoins e = .ok vCoins') :
    ∃ added : List (COutput UInt256), vCoins' = vCoins ++ added ∧
      (added.map fun o => (o.tx, o.i)).Sublist (outputKeys e) ∧
      ∀ o ∈ added, o.tx = e.1 ∧ ∃ txout, e.2.tx.vout[o.i]? = some txout ∧ 0 < txout.nValue := by
  obtain ⟨nDepth, -, h⟩ := bind_ok h
  cases nDepth with
  | none =>
    cases h
    exact ⟨[], (List.append_nil _).symm, List.nil_sublist _, nofun⟩
  | some nDepth =>
    refine foldlM_ok_induction (fun done vCoins' => ∃ added : List (COutput UInt256),
      vCoins' = vCoins ++ added ∧
      (added.map fun o => (o.tx, o.i)).Sublist (done.map fun p => (e.1, p.2)) ∧
      ∀ o ∈ added, o.tx = e.1 ∧ ∃ txout, e.2.tx.vout[o.i]? = some txout ∧ 0 < txout.nValue)
      ⟨[], (List.append_nil _).symm, List.nil_sublist _, nofun⟩ ?_ h
    rintro done p rest c c' hl ⟨added, rfl, hkeys, hadded⟩ hstep
    obtain ⟨found, hfound, hstep⟩ := bind_ok hstep
    rw [List.map_append, List.map_singleton]
    cases found with
    | none =>
      cases hstep
      exact ⟨added, rfl, hkeys.trans (List.sublist_append_left _ _), hadded⟩
    | some fSpendable =>
      cases hstep
      have hmem : (p.1, p.2) ∈ e.2.tx.vout.zipIdx := by rw [hl]; simp
      rw [List.mk_mem_zipIdx_iff_getElem?] at hmem
      refine ⟨added ++ [⟨e.1, p.2, nDepth, fSpendable⟩], List.append_assoc _ _ _, ?_, ?_⟩
      · rw [List.map_append, List.map_singleton]
        exact hkeys.append (List.Sublist.refl _)
      · intro o ho
        rcases List.mem_append.mp ho with ho | ho
        · exact hadded o ho
        · rw [List.mem_singleton.mp ho]
          exact ⟨rfl, p.1, hmem, availableOutput_pos hfound⟩

theorem availableCoins_eq_ok
    (h : w.AvailableCoins ctx env fOnlyConfirmed coinControl coin_type useIX = .ok vCoins) :
    (vCoins.map fun o => (o.tx, o.i)).Nodup ∧
      ∀ o ∈ vCoins, ∃ wtx txout, w.mapWallet.lookup o.tx = some wtx ∧
        wtx.tx.vout[o.i]? = some txout ∧ 0 < txout.nValue := by
  have hall : (vCoins.map fun o => (o.tx, o.i)).Sublist (w.mapWallet.entries.flatMap outputKeys) ∧
      ∀ o ∈ vCoins, ∃ e ∈ w.mapWallet.entries, o.tx = e.1 ∧
        ∃ txout, e.2.tx.vout[o.i]? = some txout ∧ 0 < txout.nValue := by
    refine foldlM_ok_induction (fun done vCoins =>
      (vCoins.map fun o => (o.tx, o.i)).Sublist (done.flatMap outputKeys) ∧
      ∀ o ∈ vCoins, ∃ e ∈ done, o.tx = e.1 ∧
        ∃ txout, e.2.tx.vout[o.i]? = some txout ∧ 0 < txout.nValue)
      ⟨List.nil_sublist _, nofun⟩ ?_ h
    rintro done e rest c c' - ⟨hkeys, hcoins⟩ hstep
    obtain ⟨added, rfl, hadded, hvalues⟩ := addOutputs_eq_ok hstep
    constructor
    · rw [List.map_append, List.flatMap_append, List.flatMap_singleton]
      exact hkeys.append hadded
    · intro o ho
      rcases List.mem_append.mp ho with ho | ho
      · obtain ⟨e', he', hval⟩ := hcoins o ho
        exact ⟨e', List.mem_append_left _ he', hval⟩
      · exact ⟨e, List.mem_append_right _ (List.mem_singleton_self e), hvalues o ho⟩
  obtain ⟨hkeys, hcoins⟩ := hall
  constructor
  · refine List.Nodup.sublist hkeys (List.nodup_flatMap.mpr ⟨fun e _ => nodup_outputKeys e, ?_⟩)
    -- Transactions of different identifiers have no pointer in common.
    have hids : w.mapWallet.entries.Pairwise fun e e' => e.1 ≠ e'.1 :=
      List.pairwise_map.mp w.mapWallet.nodupKeys
    refine hids.imp fun hne p hp hp' => hne ?_
    obtain ⟨q, -, rfl⟩ := List.mem_map.mp hp
    obtain ⟨q', -, hq'⟩ := List.mem_map.mp hp'
    exact (congrArg Prod.fst hq').symm
  · intro o ho
    obtain ⟨e, he, htx, txout, hvout, hpos⟩ := hcoins o ho
    refine ⟨e.2, txout, ?_, hvout, hpos⟩
    rw [htx]
    exact AList.mem_lookup_iff.mpr he

/-- The coins that are asked for are worth a valid amount together. -/
def SumInRange (ctx : SpendContext Key) (w : CoinWallet) (vCoins : List (COutput UInt256)) : Prop :=
  MoneyRange (vCoins.map fun output => (w.txReader ctx).nValue output.tx output.i).sum

theorem nValue_txReader {wtx : OwnedTx} (hwtx : w.mapWallet.lookup hash = some wtx)
    (htxout : wtx.tx.vout[i]? = some txout) : (w.txReader ctx).nValue hash i = txout.nValue := by
  change (((w.mapWallet.lookup hash).bind fun wtx => wtx.tx.vout[i]?).map CTxOut.nValue).getD 0 = _
  rw [hwtx, Option.bind_some, htxout]
  rfl

theorem distinct_availableCoins
    (h : w.AvailableCoins ctx env fOnlyConfirmed coinControl coin_type useIX = .ok vCoins)
    (hrng : SumInRange ctx w vCoins) : (w.txReader ctx).Distinct vCoins := by
  obtain ⟨hnd, hcoins⟩ := availableCoins_eq_ok h
  refine ⟨hnd, fun output hout => ?_, hrng⟩
  obtain ⟨wtx, txout, hwtx, htxout, hpos⟩ := hcoins output hout
  rw [nValue_txReader hwtx htxout]
  exact hpos.le

theorem isSelection_of_minConf {chance : Chance UInt256} {nConfMine nConfTheirs : ℤ}
    (hdist : (w.txReader ctx).Distinct vCoins) (hcent : Fits64 (nTargetValue + CENT))
    (h : SelectCoinsMinConf (w.txReader ctx) chance nTargetValue nSpendTime nConfMine nConfTheirs vCoins = .ok r)
    (hsel : r.fSelected = true) : IsSelection (w.txReader ctx) vCoins nTargetValue r := by
  obtain ⟨hnd, hsubset, hval, henough⟩ :=
    ((selectCoinsMinConf_yields chance hdist hcent).of_ok h).1.selection hsel
  refine ⟨hnd, fun p hp => ?_, hval, henough⟩
  obtain ⟨output, hout, hp⟩ := hsubset p hp
  exact ⟨output, (List.mem_filter.mp hout).1, hp⟩

theorem selectCoins_spec {chances : Chances}
    (hrng : ∀ vCoins, w.AvailableCoins ctx env true coinControl coin_type useIX = .ok vCoins →
      SumInRange ctx w vCoins)
    (hcent : Fits64 (nTargetValue + CENT))
    (h : w.SelectCoins ctx env chances nTargetValue nSpendTime coinControl coin_type useIX = .ok r)
    (hselected : r.fSelected = true) :
    ∃ vCoins, w.AvailableCoins ctx env true coinControl coin_type useIX = .ok vCoins ∧
      (w.txReader ctx).Distinct vCoins ∧ IsSelection (w.txReader ctx) vCoins nTargetValue r := by
  obtain ⟨vCoins, hvCoins, h⟩ := bind_ok h
  have hdist := distinct_availableCoins hvCoins (hrng vCoins hvCoins)
  refine ⟨vCoins, hvCoins, hdist, ?_⟩
  by_cases hchosen : coinControl.any CCoinControl.HasSelected = true
  · rw [if_pos hchosen] at h
    cases h
    set chosen := vCoins.filter fun out => out.fSpendable with hchosen
    obtain ⟨hsel, hval⟩ := isSelection_takeCoins hdist List.filter_sublist.subperm (le_refl _)
    exact ⟨hsel.nodup, hsel.subset, hsel.value, of_decide_eq_true hselected⟩
  · rw [if_neg hchosen] at h
    obtain ⟨r₁, hr₁, h⟩ := bind_ok h
    by_cases hfst : r₁.fSelected = true
    · rw [if_pos hfst] at h
      cases h
      exact isSelection_of_minConf hdist hcent hr₁ hfst
    · rw [if_neg hfst] at h
      obtain ⟨r₂, hr₂, h⟩ := bind_ok h
      by_cases hsnd : r₂.fSelected = true
      · rw [if_pos hsnd] at h
        cases h
        exact isSelection_of_minConf hdist hcent hr₂ hsnd
      · rw [if_neg hsnd] at h
        exact isSelection_of_minConf hdist hcent h hselected

end CoinWallet

end ZalemCoin.Wallet
