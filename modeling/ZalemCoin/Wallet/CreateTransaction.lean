import ZalemCoin.Lib.Attempts
import ZalemCoin.Script.StandardTransactions
import ZalemCoin.Wallet.AvailableCoins
import ZalemCoin.Wallet.CommitTransaction

/-!
# Creating a transaction

`CreateTransaction` pays to its recipients from coins of the wallet. It selects coins for the payments and
a fee, sends what they are worth too much to a key of the wallet, at a random position behind or between
the payments, or adds it to the fee when it is dust, and signs. When the fee is too low for the size of
the transaction, it begins again with the fee that is asked for.
-/

namespace ZalemCoin.Wallet

open Chain Lib Script InstantX
open Except (ok.inj)

/-! ## Outputs -/

def CTxOut.IsNull (txout : CTxOut) : Bool := decide (txout.nValue = -1)

/-- Whether spending an output would cost more than a third of what it is worth, in fees of this rate. No
script is so long that its size overflows an `int`. -/
def CTxOut.IsDust (txout : CTxOut) (MIN_RELAY_TX_FEE : ℤ) : Bool :=
  decide ((wrap64 (txout.nValue * 1000)).tdiv (3 * (txout.GetSerializeSize + 148)) < MIN_RELAY_TX_FEE)

/-- Whether an output may be without an amount, since it carries data. -/
def isOpReturn (txout : CTxOut) : Except String Bool :=
  if CTxOut.IsNull txout = true ∨ (txout.IsEmpty = false ∧ txout.nValue = 0) then
    match Solver txout.scriptPubKey with
    | none => .error "Invalid scriptPubKey"
    | some (whichType, _) =>
      if whichType = .TX_NONSTANDARD then .error "Unknown transaction type"
      else .ok (decide (whichType = .TX_NULL_DATA))
  else .ok false

def payeeOutput (s : CScript × ℤ) : Except String CTxOut := do
  let txout : CTxOut := ⟨s.2, s.1⟩
  let fOpReturn ← isOpReturn txout
  if fOpReturn = false ∧ CTxOut.IsDust txout MIN_RELAY_TX_FEE = true then
    .error "Transaction amount too small"
  else pure txout

/-- The outputs that pay to recipients, up to the first one that cannot be paid to. -/
def payeeOutputs : List (CScript × ℤ) → List CTxOut × Except String Unit
  | [] => ([], .ok ())
  | s :: vecSend =>
    match payeeOutput s with
    | .error strFailReason => ([], .error strFailReason)
    | .ok txout => (txout :: (payeeOutputs vecSend).1, (payeeOutputs vecSend).2)

/-- What recipients receive together, unless a sum is negative before the last one. -/
def sumAmounts : List (CScript × ℤ) → ℤ → Option ℤ
  | [], nValue => some nValue
  | s :: vecSend, nValue => if nValue < 0 then none else sumAmounts vecSend (wrap64 (nValue + s.2))

/-! ## The fee -/

def ComputePriority (tx : CTransaction) (dPriorityInputs : ℚ) (nTxSize : ℕ) : ℚ :=
  let nTxSize := tx.vin.foldl (fun nTxSize txin =>
    let offset := 41 + min 110 txin.scriptSig.length
    if offset < nTxSize then nTxSize - offset else nTxSize)
    (if nTxSize = 0 then tx.GetSerializeSize else nTxSize)
  if nTxSize = 0 then 0 else nearestDouble (dPriorityInputs / nTxSize)

/-- Whether a transaction of some priority can go without a fee. -/
def AllowFree (dPriority : ℚ) : Bool := decide (((COIN * 576 / 250 : ℤ) : ℚ) < dPriority)

def requiredFee (nTransactionFee : ℤ) (tx : CTransaction) (dPriority : ℚ) : ℤ :=
  let nBytes := tx.GetSerializeSize
  let nPayFee := wrap64 (nTransactionFee * (1 + (nBytes / 1000 : ℕ)))
  let fAllowFree := AllowFree (ComputePriority tx dPriority nBytes)
  max nPayFee (GetMinFee tx nBytes fAllowFree .GMF_SEND)

/-! ## The payment -/

/-- What a transaction is created for. -/
structure Payment where
  vecSend : List (CScript × ℤ)
  coinControl : Option CCoinControl
  coin_type : AvailableCoinsType
  useIX : Bool

/-- Why there are not enough coins. -/
def Payment.insufficient (p : Payment) : String :=
  (match p.coin_type with
  | .ALL_COINS => " Insufficient funds."
  | .ONLY_NOT10000IFMN =>
    " Unable to locate enough MNengine non-denominated funds for this transaction."
  | .ONLY_NONDENOMINATED_NOT10000IFMN =>
    " Unable to locate enough MNengine non-denominated funds for this transaction that are not equal 1000 ZLM.") ++
  if p.useIX then
    " InstantX requires inputs with at least 10 confirmations, you might need to wait a few minutes and try again."
  else ""

def Payment.leastFee (p : Payment) (nFee : ℤ) : ℤ := if p.useIX then max CENT nFee else nFee

/-- What creating a transaction changes. -/
structure Creation where
  wtxNew : OwnedTx
  reservekey : CReserveKey
  keyPool : PoolWallet
  nFeeRet : ℤ

def Creation.withTx (s : Creation) (tx : CTransaction) : Creation :=
  { s with wtxNew := { s.wtxNew with tx := tx } }

def Creation.ReturnKey (s : Creation) : Creation :=
  { s with
    reservekey := (s.reservekey.ReturnKey s.keyPool).1
    keyPool := (s.reservekey.ReturnKey s.keyPool).2 }

/-- What one attempt draws: the chances of the selection, and a number for the position of the change. -/
structure Draws where
  chances : CoinWallet.Chances
  nRand : ℕ

variable {Key : Type}

namespace CoinWallet

variable (ctx : SpendContext Key) (env : WalletEnv) (w : CoinWallet) (p : Payment)

/-- Adds a coin to the priority of the inputs. It is one block older after the next block, unless it is
still in the memory pool. -/
def addPriority (dPriority : ℚ) (pcoin : UInt256 × ℕ) : Except Failure ℚ := do
  let some wtx := w.mapWallet.lookup pcoin.1 | .error (.crash "no such transaction")
  let nCredit := (w.txReader ctx).nValue pcoin.1 pcoin.2
  let nDepth ← wtx.GetDepthInMainChain ctx.toWalletContext env w.node
  let age := if nDepth ≠ 0 then nDepth + 1 else nDepth
  pure (nearestDouble (dPriority + nearestDouble (nearestDouble nCredit * age)))

def inputPriority (setCoins : List (UInt256 × ℕ)) : Except Failure ℚ :=
  setCoins.foldlM (w.addPriority ctx env) 0

def pointerOrder (setCoins : List (UInt256 × ℕ)) : List (UInt256 × ℕ) :=
  setCoins.insertionSort fun a b =>
    ctx.address a.1 < ctx.address b.1 ∨ (ctx.address a.1 = ctx.address b.1 ∧ a.2 ≤ b.2)

def scriptChange (s : Creation) : Except Failure (CScript × Creation) :=
  match p.coinControl.bind CCoinControl.destChange with
  | some destChange => .ok (GetScriptForDestination destChange, s)
  | none =>
    match s.reservekey.GetReservedKey ctx.keyPoolEnv s.keyPool with
    | (.error e, _, _) => .error (.crash e)
    | (.ok none, _, _) => .error (.crash "assert(ret)")
    | (.ok (some vchPubKey), reservekey, keyPool) =>
      .ok (GetScriptForDestination (.keyID (vchPubKey.GetID ctx.keyPoolEnv.Hash160)),
        { s with reservekey, keyPool })

def addChange (nRand : ℕ) (nChange : ℤ) (s : Creation) : Except Failure Creation :=
  if 0 < nChange then do
    let (scriptChange, s) ← scriptChange ctx p s
    let newTxOut : CTxOut := ⟨nChange, scriptChange⟩
    if CTxOut.IsDust newTxOut MIN_RELAY_TX_FEE then
      pure { s with nFeeRet := wrap64 (s.nFeeRet + nChange) }.ReturnKey
    else
      let tx := s.wtxNew.tx
      pure (s.withTx { tx with vout := tx.vout.insertIdx (nRand % (tx.vout.length + 1)) newTxOut })
  else pure s.ReturnKey

def coinInput (coin : UInt256 × ℕ) : Except Failure CTxIn :=
  match w.mapWallet.lookup coin.1 with
  | none => .error (.crash "no such transaction")
  | some wtx => .ok ⟨⟨ctx.hashTx wtx.tx, UInt32.ofNat coin.2⟩, [], 0xffffffff⟩

def signCoins : List (UInt256 × ℕ) → ℕ → CTransaction → Except Failure (Bool × CTransaction)
  | [], _, tx => .ok (true, tx)
  | coin :: setCoins, nIn, tx =>
    match (w.mapWallet.lookup coin.1).bind fun wtx => wtx.tx.vout[coin.2]? with
    | none => .error (.crash "assert(txin.prevout.n < txFrom.vout.size())")
    | some txout =>
      match SignSignature ctx.signer txout.scriptPubKey tx nIn SIGHASH_ALL.toUInt32 with
      | (false, tx) => .ok (false, tx)
      | (true, tx) => signCoins setCoins (nIn + 1) tx

/-- One attempt up to the check of the fee: a signed transaction, with the priority of its inputs. -/
def draftTransaction (nValue : ℤ) (d : Draws) (s : Creation) :
    Except Failure (Except String ℚ × Creation) := do
  let (vout, paid) := payeeOutputs p.vecSend
  let tx := { s.wtxNew.tx with vin := [], vout := vout }
  let s := { s with wtxNew := { s.wtxNew with tx := tx, fFromMe := true } }
  match paid with
  | .error strFailReason => return (.error strFailReason, s)
  | .ok () =>
    let r ← w.SelectCoins ctx env d.chances (wrap64 (nValue + s.nFeeRet)) tx.nTime p.coinControl
      p.coin_type p.useIX
    if r.fSelected = false then return (.error p.insufficient, s)
    let setCoins := pointerOrder ctx r.setCoinsRet
    let dPriority ← w.inputPriority ctx env setCoins
    let s ← addChange ctx p d.nRand (wrap64 (wrap64 (r.nValueRet - nValue) - s.nFeeRet)) s
    let vin ← setCoins.mapM (w.coinInput ctx)
    let (fSigned, tx) ← w.signCoins ctx setCoins 0 { s.wtxNew.tx with vin := vin }
    let s := s.withTx tx
    if fSigned = false then return (.error " Signing transaction failed", s)
    if MAX_STANDARD_TX_SIZE ≤ tx.GetSerializeSize then return (.error " Transaction too large", s)
    return (.ok dPriority, s)

/-- One attempt. It is the last one unless the fee is too low. -/
def attemptTransaction (nValue : ℤ) (d : Draws) (s : Creation) :
    Attempted Creation (Except Failure (Except String Unit × Creation)) :=
  match w.draftTransaction ctx env p nValue d s with
  | .error e => .done (.error e)
  | .ok (.error strFailReason, s) => .done (.ok (.error strFailReason, s))
  | .ok (.ok dPriority, s) =>
    let nFee := requiredFee ctx.nTransactionFee s.wtxNew.tx dPriority
    if s.nFeeRet < nFee then .again { s with nFeeRet := p.leastFee nFee }
    else .done (.ok (.ok (), s))

def walletTransactions : MapWallet where
  entries := w.mapWallet.entries.map fun e => ⟨e.1, e.2.toCWalletTx⟩
  nodupKeys := by
    have hkeys : (w.mapWallet.entries.map fun e => (⟨e.1, e.2.toCWalletTx⟩ : Σ _, CWalletTx)).keys
        = w.mapWallet.entries.keys := by
      unfold List.keys
      rw [List.map_map]
      rfl
    unfold List.NodupKeys
    rw [hkeys]
    exact w.mapWallet.nodupKeys

/-- Fills in the transactions that a created transaction spends from. -/
def addSupporting (nSupport : ℕ) (x : Except Failure (Except String Unit × Creation)) :
    Except Failure (Except String Unit × Creation) := do
  let (r, s) ← x
  match r with
  | .error strFailReason => pure (.error strFailReason, s)
  | .ok () =>
    let wtx ← AddSupportingTransactions ctx.toContext w.node.chain w.walletTransactions nSupport
      s.wtxNew.toCWalletTx
    pure (.ok (), { s with wtxNew := { s.wtxNew with toCWalletTx := wtx, fTimeReceivedIsTxTime := 1 } })

def startCreation (wtxNew : OwnedTx) (reservekey : CReserveKey) : Creation where
  wtxNew := wtxNew.BindWallet
  reservekey := reservekey
  keyPool := w.keyPool
  nFeeRet := p.leastFee ctx.nTransactionFee

/-- Creates a transaction, in as many attempts as the first argument at most. `nSupport` is the number of
steps that `AddSupportingTransactions` may take. -/
def CreateTransaction (fuel nSupport : ℕ) (draws : ℕ → Draws) (wtxNew : OwnedTx)
    (reservekey : CReserveKey) (nFeeRet : ℤ) :
    Option (Except Failure (Except String Unit × Creation)) :=
  match sumAmounts p.vecSend 0 with
  | none =>
    some (.ok (.error "Transaction amounts must be positive", ⟨wtxNew, reservekey, w.keyPool, nFeeRet⟩))
  | some nValue =>
    if p.vecSend = [] ∨ nValue < 0 then
      some (.ok (.error "Transaction amounts must be positive",
        ⟨wtxNew, reservekey, w.keyPool, nFeeRet⟩))
    else
      (attempts (fun k s => w.attemptTransaction ctx env p nValue (draws k) s) fuel 0
        (startCreation ctx w p wtxNew reservekey)).map (w.addSupporting ctx nSupport)

end CoinWallet

/-! ## One attempt -/

theorem payeeOutputs_eq {vecSend : List (CScript × ℤ)} (h : (payeeOutputs vecSend).2 = .ok ()) :
    (payeeOutputs vecSend).1 = vecSend.map fun s => ⟨s.2, s.1⟩ := by
  induction vecSend with
  | nil => rfl
  | cons s vecSend ih =>
    rw [payeeOutputs] at h ⊢
    cases hs : payeeOutput s with
    | error strFailReason =>
      rw [hs] at h
      exact nomatch h
    | ok txout =>
      rw [hs] at h
      unfold payeeOutput at hs
      obtain ⟨fOpReturn, -, hs⟩ := bind_ok hs
      split_ifs at hs
      cases hs
      rw [List.map_cons, ← ih h]

theorem sumAmounts_eq {vecSend : List (CScript × ℤ)} {nValue : ℤ} (hamounts : ∀ s ∈ vecSend, 0 ≤ s.2)
    (hnn : 0 ≤ nValue) (hfits : nValue + (vecSend.map Prod.snd).sum < 2 ^ 63) :
    sumAmounts vecSend nValue = some (nValue + (vecSend.map Prod.snd).sum) := by
  induction vecSend generalizing nValue with
  | nil => rw [List.map_nil, List.sum_nil, add_zero, sumAmounts]
  | cons s vecSend ih =>
    obtain ⟨hs, hrest⟩ := List.forall_mem_cons.mp hamounts
    have hsum : 0 ≤ (vecSend.map Prod.snd).sum := by
      refine List.sum_nonneg fun n hn => ?_
      obtain ⟨s', hs', rfl⟩ := List.mem_map.mp hn
      exact hrest s' hs'
    rw [List.map_cons, List.sum_cons] at hfits ⊢
    have hwrap : wrap64 (nValue + s.2) = nValue + s.2 :=
      wrap64_eq_self_iff.mpr (by unfold Fits64; omega)
    rw [sumAmounts, if_neg (by omega), hwrap, ih hrest (by omega) (by omega)]
    congr 1
    ring

variable {d : Draws} {s s' : Creation} {dPriority : ℚ}

namespace CoinWallet

variable {ctx : SpendContext Key} {env : WalletEnv} {w : CoinWallet} {p : Payment}
  {nValue nChange : ℤ}

theorem addChange_eq_ok {nRand : ℕ} (h : addChange ctx p nRand nChange s = .ok s') :
    (nChange ≤ 0 ∧ s'.wtxNew = s.wtxNew ∧ s'.nFeeRet = s.nFeeRet) ∨
    (0 < nChange ∧ s'.wtxNew = s.wtxNew ∧ s'.nFeeRet = wrap64 (s.nFeeRet + nChange)) ∨
    (0 < nChange ∧ s'.nFeeRet = s.nFeeRet ∧ ∃ newTxOut : CTxOut, newTxOut.nValue = nChange ∧
      CTxOut.IsDust newTxOut MIN_RELAY_TX_FEE = false ∧
      s'.wtxNew = (s.withTx { s.wtxNew.tx with
        vout := s.wtxNew.tx.vout.insertIdx (nRand % (s.wtxNew.tx.vout.length + 1)) newTxOut }).wtxNew) := by
  unfold addChange at h
  by_cases hpos : 0 < nChange
  · rw [if_pos hpos] at h
    obtain ⟨⟨script, s₁⟩, hscr, h⟩ := bind_ok h
    -- Choosing the script changes nothing but the reserved key.
    have hsame : s₁.wtxNew = s.wtxNew ∧ s₁.nFeeRet = s.nFeeRet := by
      unfold scriptChange at hscr
      split at hscr
      · cases hscr
        exact ⟨rfl, rfl⟩
      · split at hscr
        · exact nomatch hscr
        · exact nomatch hscr
        · cases hscr
          exact ⟨rfl, rfl⟩
    obtain ⟨hwtx, hfee⟩ := hsame
    dsimp only at h
    by_cases hdust : CTxOut.IsDust ⟨nChange, script⟩ MIN_RELAY_TX_FEE = true
    · rw [if_pos hdust] at h
      cases h
      exact .inr (.inl ⟨hpos, hwtx, congrArg (fun x => wrap64 (x + nChange)) hfee⟩)
    · rw [if_neg hdust] at h
      cases h
      refine .inr (.inr ⟨hpos, hfee, ⟨nChange, script⟩, rfl, Bool.eq_false_iff.mpr hdust, ?_⟩)
      unfold Creation.withTx
      rw [hwtx]
  · rw [if_neg hpos] at h
    cases h
    exact .inl ⟨not_lt.mp hpos, rfl, rfl⟩

def coinOutpoint (coin : UInt256 × ℕ) : COutPoint := ⟨coin.1, UInt32.ofNat coin.2⟩

theorem mapM_coinInput (hkeyed : w.Keyed ctx.toWalletContext) {setCoins : List (UInt256 × ℕ)}
    {vin : List CTxIn} (h : setCoins.mapM (w.coinInput ctx) = .ok vin) :
    vin.map CTxIn.prevout = setCoins.map coinOutpoint := by
  induction setCoins generalizing vin with
  | nil =>
    cases h
    rfl
  | cons coin setCoins ih =>
    rw [List.mapM_cons] at h
    obtain ⟨txin, htxin, h⟩ := bind_ok h
    obtain ⟨vin', hvin', h⟩ := bind_ok h
    cases h
    unfold coinInput at htxin
    cases hwtx : w.mapWallet.lookup coin.1 with
    | none =>
      rw [hwtx] at htxin
      exact nomatch htxin
    | some wtx =>
      rw [hwtx] at htxin
      cases htxin
      rw [List.map_cons, List.map_cons, ih hvin', hkeyed coin.1 wtx hwtx]
      rfl

theorem prevouts_withScriptSig (tx : CTransaction) (nIn : ℕ) (scriptSig : CScript) :
    (CTransaction.withScriptSig tx nIn scriptSig).vin.map CTxIn.prevout
      = tx.vin.map CTxIn.prevout := by
  unfold CTransaction.withScriptSig
  apply List.ext_getElem?
  intro i
  rw [List.getElem?_map, List.getElem?_map, List.getElem?_modify]
  rcases tx.vin[i]? with _ | txin
  · rfl
  · simp only [Option.map_eq_map, Option.map_some]
    split_ifs <;> rfl

theorem signCoins_eq_ok {setCoins : List (UInt256 × ℕ)} {nIn : ℕ} {tx tx' : CTransaction}
    {fSigned : Bool} (h : w.signCoins ctx setCoins nIn tx = .ok (fSigned, tx')) :
    tx'.vout = tx.vout ∧ tx'.vin.map CTxIn.prevout = tx.vin.map CTxIn.prevout := by
  induction setCoins generalizing nIn tx with
  | nil =>
    cases h
    exact ⟨rfl, rfl⟩
  | cons coin setCoins ih =>
    rw [signCoins] at h
    split at h
    · exact nomatch h
    · rename_i txout hvout
      obtain ⟨scriptSig, hscr⟩ := signSignature_script ctx.signer txout.scriptPubKey tx nIn
        SIGHASH_ALL.toUInt32
      split at h
      · rename_i tx₁ hsign
        rw [hsign] at hscr
        cases h
        dsimp only at hscr
        rw [hscr]
        exact ⟨rfl, prevouts_withScriptSig tx nIn scriptSig⟩
      · rename_i tx₁ hsign
        rw [hsign] at hscr
        dsimp only at hscr
        obtain ⟨hvout, hprevs⟩ := ih h
        rw [hvout, hprevs, hscr]
        exact ⟨rfl, prevouts_withScriptSig tx nIn scriptSig⟩

/-- What an attempt begins with: the outputs for the recipients, and no inputs. -/
def withPayees (p : Payment) (s : Creation) : Creation :=
  { s with wtxNew := { s.wtxNew with
      tx := { s.wtxNew.tx with vin := [], vout := (payeeOutputs p.vecSend).1 }, fFromMe := true } }

def selection (ctx : SpendContext Key) (env : WalletEnv) (w : CoinWallet) (p : Payment) (nValue : ℤ)
    (d : Draws) (s : Creation) : Except Failure (Selection UInt256) :=
  w.SelectCoins ctx env d.chances (wrap64 (nValue + s.nFeeRet)) s.wtxNew.tx.nTime p.coinControl
    p.coin_type p.useIX

/-- What a draft that succeeds has done, step by step. -/
theorem draftTransaction_eq_ok :
    w.draftTransaction ctx env p nValue d s = .ok (.ok dPriority, s') ↔
      ∃ r s₁ vin tx, (payeeOutputs p.vecSend).2 = .ok () ∧
        selection ctx env w p nValue d s = .ok r ∧ r.fSelected = true ∧
        w.inputPriority ctx env (pointerOrder ctx r.setCoinsRet) = .ok dPriority ∧
        addChange ctx p d.nRand (wrap64 (wrap64 (r.nValueRet - nValue) - s.nFeeRet))
          (withPayees p s) = .ok s₁ ∧
        (pointerOrder ctx r.setCoinsRet).mapM (w.coinInput ctx) = .ok vin ∧
        w.signCoins ctx (pointerOrder ctx r.setCoinsRet) 0 { s₁.wtxNew.tx with vin := vin }
          = .ok (true, tx) ∧
        s' = s₁.withTx tx ∧ tx.GetSerializeSize < MAX_STANDARD_TX_SIZE := by
  constructor
  · intro h
    unfold draftTransaction at h
    dsimp only at h
    split at h
    · exact nomatch (Prod.mk.inj (ok.inj h)).1
    · rename_i hpaid
      obtain ⟨r, hr, h⟩ := bind_ok h
      by_cases hsel : r.fSelected = false
      · rw [if_pos hsel] at h
        exact nomatch (Prod.mk.inj (ok.inj h)).1
      rw [if_neg hsel] at h
      obtain ⟨dPriority', hpriority, h⟩ := bind_ok h
      obtain ⟨s₁, hs₁, h⟩ := bind_ok h
      obtain ⟨vin, hvin, h⟩ := bind_ok h
      obtain ⟨⟨fSigned, tx⟩, htx, h⟩ := bind_ok h
      by_cases hsig : fSigned = false
      · rw [if_pos hsig] at h
        exact nomatch (Prod.mk.inj (ok.inj h)).1
      obtain rfl := Bool.not_eq_false _ ▸ hsig
      by_cases hsize : MAX_STANDARD_TX_SIZE ≤ tx.GetSerializeSize
      · rw [if_pos hsize] at h
        exact nomatch (Prod.mk.inj (ok.inj h)).1
      rw [if_neg hsize] at h
      obtain ⟨hdPriority, rfl⟩ := Prod.mk.inj (ok.inj h)
      cases hdPriority
      exact ⟨r, s₁, vin, tx, hpaid, hr, Bool.not_eq_false _ ▸ hsel, hpriority, hs₁, hvin, htx, rfl,
        not_le.mp hsize⟩
  · rintro ⟨r, s₁, vin, tx, hpaid, hr, hsel, hpriority, hs₁, hvin, htx, rfl, hsize⟩
    unfold draftTransaction
    dsimp only
    rw [hpaid]
    refine ok_bind hr ?_
    rw [hsel, if_neg Bool.false_ne_true.symm]
    refine ok_bind hpriority (ok_bind hs₁ ?_)
    refine ok_bind hvin (ok_bind htx ?_)
    rw [if_neg Bool.false_ne_true.symm, if_neg (not_le.mpr hsize)]
    rfl

end CoinWallet

/-! ## Conservation -/

open CoinWallet

def mostFee (nTransactionFee : ℤ) : ℤ :=
  (1 + (MAX_STANDARD_TX_SIZE / 1000 : ℕ)) * max |nTransactionFee| MIN_TX_FEE

def Payment.payees (p : Payment) : List CTxOut := p.vecSend.map fun s => ⟨s.2, s.1⟩

/-- What the recipients receive together. -/
def Payment.total (p : Payment) : ℤ := (p.vecSend.map Prod.snd).sum

def coinsOf (tx : CTransaction) : List (UInt256 × ℕ) :=
  tx.vin.map fun txin => (txin.prevout.hash, txin.prevout.n.toNat)

/-- A wallet that can be paid from: it has its transactions under their identifiers, their outputs have
numbers, and the coins that are asked for are worth a valid amount. The amounts are not negative, and
with the largest fee and a cent they do not overflow. -/
structure Payment.Fundable {Key : Type} (ctx : SpendContext Key) (env : WalletEnv) (w : CoinWallet) (p : Payment) :
    Prop where
  keyed : w.Keyed ctx.toWalletContext
  numbered : ∀ hash wtx, w.mapWallet.lookup hash = some wtx → wtx.tx.vout.length ≤ 2 ^ 32
  range : ∀ vCoins, w.AvailableCoins ctx env true p.coinControl p.coin_type p.useIX = .ok vCoins →
    SumInRange ctx w vCoins
  nonneg : ∀ s ∈ p.vecSend, 0 ≤ s.2
  fits : p.total + mostFee ctx.nTransactionFee + CENT < 2 ^ 63

/-- A transaction that spends distinct coins of the wallet and pays to the recipients, and to one output
that is not dust at most. The fee is what remains. -/
structure Payment.Balances {Key : Type} (ctx : SpendContext Key) (env : WalletEnv) (w : CoinWallet) (p : Payment)
    (tx : CTransaction) (nFeeRet : ℤ) (dPriority : ℚ) : Prop where
  nodup : (tx.vin.map CTxIn.prevout).Nodup
  available : ∃ vCoins, w.AvailableCoins ctx env true p.coinControl p.coin_type p.useIX = .ok vCoins ∧
    ∀ coin ∈ coinsOf tx, ∃ output ∈ vCoins, coin = (output.tx, output.i)
  outputs : tx.vout = p.payees ∨ ∃ i ≤ p.payees.length, ∃ change : CTxOut,
    CTxOut.IsDust change MIN_RELAY_TX_FEE = false ∧ tx.vout = p.payees.insertIdx i change
  conserved : ((coinsOf tx).map fun coin => (w.txReader ctx).nValue coin.1 coin.2).sum
    = (tx.vout.map CTxOut.nValue).sum + nFeeRet
  priority : w.inputPriority ctx env (coinsOf tx) = .ok dPriority

/-- A fee that an attempt may begin with. -/
def Payment.Affords {Key : Type} (ctx : SpendContext Key) (p : Payment) (s : Creation) : Prop :=
  p.leastFee (-|ctx.nTransactionFee|) ≤ s.nFeeRet ∧ s.nFeeRet ≤ mostFee ctx.nTransactionFee

section

variable {ctx : SpendContext Key} {env : WalletEnv} {w : CoinWallet} {p : Payment}

theorem sum_payees (p : Payment) : (p.payees.map CTxOut.nValue).sum = p.total := by
  unfold Payment.payees Payment.total
  rw [List.map_map]
  rfl

theorem Payment.Fundable.total_nonneg (hp : p.Fundable ctx env w) : 0 ≤ p.total := by
  refine List.sum_nonneg fun n hn => ?_
  obtain ⟨s, hs, rfl⟩ := List.mem_map.mp hn
  exact hp.nonneg s hs

theorem abs_le_mostFee (nTransactionFee : ℤ) :
    2052 * |nTransactionFee| ≤ mostFee nTransactionFee ∧ 20520000 ≤ mostFee nTransactionFee := by
  have hsize : (1 + (MAX_STANDARD_TX_SIZE / 1000 : ℕ) : ℤ) = 2052 := rfl
  have hleft := le_max_left |nTransactionFee| MIN_TX_FEE
  have hright : (10000 : ℤ) ≤ max |nTransactionFee| MIN_TX_FEE := le_max_right _ _
  unfold mostFee
  rw [hsize]
  omega

theorem Payment.le_leastFee (p : Payment) (nFee : ℤ) : nFee ≤ p.leastFee nFee := by
  unfold Payment.leastFee
  split_ifs
  · exact le_max_right _ _
  · exact le_rfl

theorem Payment.Affords.neg_le (hs : p.Affords ctx s) : -|ctx.nTransactionFee| ≤ s.nFeeRet :=
  (p.le_leastFee _).trans hs.1

theorem selection_spec (hp : p.Fundable ctx env w) (hs : p.Affords ctx s) {r : Selection UInt256}
    (h : selection ctx env w p p.total d s = .ok r) (hselected : r.fSelected = true) :
    ∃ vCoins, w.AvailableCoins ctx env true p.coinControl p.coin_type p.useIX = .ok vCoins ∧
      IsSelection (w.txReader ctx) vCoins (p.total + s.nFeeRet) r ∧ MoneyRange r.nValueRet := by
  have hlow := hs.neg_le
  have hhigh := hs.2
  have hnn := hp.total_nonneg
  have hfits := hp.fits
  have hcent : CENT = 1000000 := rfl
  obtain ⟨hmost, -⟩ := abs_le_mostFee ctx.nTransactionFee
  have htgt : wrap64 (p.total + s.nFeeRet) = p.total + s.nFeeRet :=
    wrap64_eq_self_iff.mpr (by unfold Fits64; omega)
  unfold selection at h
  rw [htgt] at h
  obtain ⟨vCoins, hvCoins, hdist, hsel⟩ :=
    selectCoins_spec hp.range (by unfold Fits64; omega) h hselected
  refine ⟨vCoins, hvCoins, hsel, ?_, (hsel.le_sum hdist).trans hdist.range.2⟩
  rw [hsel.value]
  refine List.sum_nonneg fun n hn => ?_
  obtain ⟨coin, hcoin, rfl⟩ := List.mem_map.mp hn
  obtain ⟨output, hout, rfl⟩ := hsel.subset coin hcoin
  exact hdist.nonneg output hout

theorem coinsOf_eq {tx : CTransaction} {setCoins : List (UInt256 × ℕ)}
    (h : tx.vin.map CTxIn.prevout = setCoins.map coinOutpoint)
    (hnumbered : ∀ coin ∈ setCoins, coin.2 < 2 ^ 32) : coinsOf tx = setCoins := by
  have hcoins : coinsOf tx = (tx.vin.map CTxIn.prevout).map fun o => (o.hash, o.n.toNat) := by
    rw [List.map_map]
    rfl
  rw [hcoins, h, List.map_map]
  refine (List.map_congr_left fun coin hcoin => ?_).trans (List.map_id _)
  exact Prod.ext rfl (UInt32.toNat_ofNat_of_lt' (hnumbered coin hcoin))

theorem draftTransaction_spec (hp : p.Fundable ctx env w) (hs : p.Affords ctx s)
    (h : w.draftTransaction ctx env p p.total d s = .ok (.ok dPriority, s')) :
    p.Balances ctx env w s'.wtxNew.tx s'.nFeeRet dPriority ∧ s.nFeeRet ≤ s'.nFeeRet ∧
      s'.wtxNew.tx.GetSerializeSize < MAX_STANDARD_TX_SIZE := by
  obtain ⟨r, s₁, vin, tx, hpaid, hr, hselected, hpriority, hchange, hvin, hsig, rfl, hsize⟩ :=
    draftTransaction_eq_ok.mp h
  obtain ⟨vCoins, hvCoins, hsel, hmoney⟩ := selection_spec hp hs hr hselected
  set setCoins := pointerOrder ctx r.setCoinsRet with hsetCoins
  have hperm : setCoins.Perm r.setCoinsRet := List.perm_insertionSort _ _
  -- The inputs are the coins that have been selected.
  have hcoin : ∀ coin ∈ setCoins, ∃ output ∈ vCoins, coin = (output.tx, output.i) := fun coin hcoin =>
    hsel.subset coin (hperm.mem_iff.mp hcoin)
  have hnumbered : ∀ coin ∈ setCoins, coin.2 < 2 ^ 32 := by
    intro coin hmem
    obtain ⟨output, houtput, rfl⟩ := hcoin coin hmem
    obtain ⟨wtx, txout, hwtx, htxout, -⟩ := (availableCoins_eq_ok hvCoins).2 output houtput
    have hlt := (List.getElem?_eq_some_iff.mp htxout).1
    exact hlt.trans_le (hp.numbered output.tx wtx hwtx)
  obtain ⟨hvout, hprevs⟩ := signCoins_eq_ok hsig
  have hspent : tx.vin.map CTxIn.prevout = setCoins.map coinOutpoint :=
    hprevs.trans (mapM_coinInput hp.keyed hvin)
  have hcoins := coinsOf_eq hspent hnumbered
  have hnd : (tx.vin.map CTxIn.prevout).Nodup := by
    rw [hspent]
    refine (hperm.nodup_iff.mpr hsel.nodup).map_on fun a ha b hb hab => ?_
    obtain ⟨hhash, hn⟩ := COutPoint.mk.inj hab
    have hn' := congrArg UInt32.toNat hn
    rw [UInt32.toNat_ofNat_of_lt' (hnumbered a ha), UInt32.toNat_ofNat_of_lt' (hnumbered b hb)] at hn'
    exact Prod.ext hhash hn'
  have hworth : ((coinsOf tx).map fun coin => (w.txReader ctx).nValue coin.1 coin.2).sum
      = r.nValueRet := by
    rw [hcoins, (hperm.map _).sum_eq, hsel.value]
  -- The change is what the coins are worth too much.
  have henough := hsel.enough
  have hlow := hs.neg_le
  obtain ⟨hmoney₀, hmoney₁⟩ := hmoney
  rw [max_single_tx_eq] at hmoney₁
  obtain ⟨hmost, hmost'⟩ := abs_le_mostFee ctx.nTransactionFee
  have hfits := hp.fits
  have hcent : CENT = 1000000 := rfl
  have hnn := hp.total_nonneg
  have hnChange : wrap64 (wrap64 (r.nValueRet - p.total) - s.nFeeRet)
      = r.nValueRet - p.total - s.nFeeRet := by
    rw [wrap64_sub_wrap64_left]
    exact wrap64_eq_self_iff.mpr (by unfold Fits64; omega)
  rw [hnChange] at hchange
  have hpayees : (withPayees p s).wtxNew.tx.vout = p.payees := payeeOutputs_eq hpaid
  have hpriority' : w.inputPriority ctx env (coinsOf tx) = .ok dPriority := hcoins ▸ hpriority
  have havailable : ∃ vCoins,
      w.AvailableCoins ctx env true p.coinControl p.coin_type p.useIX = .ok vCoins ∧
      ∀ coin ∈ coinsOf tx, ∃ output ∈ vCoins, coin = (output.tx, output.i) :=
    ⟨vCoins, hvCoins, hcoins ▸ hcoin⟩
  change p.Balances ctx env w tx s₁.nFeeRet dPriority ∧ s.nFeeRet ≤ s₁.nFeeRet ∧
    tx.GetSerializeSize < MAX_STANDARD_TX_SIZE
  rcases addChange_eq_ok hchange with ⟨hnone, hwtx, hfee⟩ | ⟨hpos, hwtx, hfee⟩ |
    ⟨hpos, hfee, newTxOut, hval, hdust, hwtx⟩
  · have hout : tx.vout = p.payees := by rw [hvout, hwtx, hpayees]
    refine ⟨⟨hnd, havailable, .inl hout, ?_, hpriority'⟩, hfee.ge, hsize⟩
    rw [hworth, hout, sum_payees, hfee]
    change r.nValueRet = p.total + s.nFeeRet
    omega
  · have hout : tx.vout = p.payees := by rw [hvout, hwtx, hpayees]
    have hfee' : s₁.nFeeRet = r.nValueRet - p.total := by
      rw [hfee]
      change wrap64 (s.nFeeRet + (r.nValueRet - p.total - s.nFeeRet)) = _
      rw [add_sub_cancel]
      exact wrap64_eq_self_iff.mpr (by unfold Fits64; omega)
    refine ⟨⟨hnd, havailable, .inl hout, ?_, hpriority'⟩, by omega, hsize⟩
    rw [hworth, hout, sum_payees, hfee']
    omega
  · set i := d.nRand % ((withPayees p s).wtxNew.tx.vout.length + 1) with hi
    have hle : i ≤ p.payees.length := by
      rw [hi, hpayees]
      exact Nat.le_of_lt_succ (Nat.mod_lt _ (Nat.succ_pos _))
    have hout : tx.vout = p.payees.insertIdx i newTxOut := by
      rw [hvout, hwtx]
      change (withPayees p s).wtxNew.tx.vout.insertIdx i newTxOut = _
      rw [hpayees]
    refine ⟨⟨hnd, havailable, .inr ⟨i, hle, newTxOut, hdust, hout⟩, ?_, hpriority'⟩, hfee.ge, hsize⟩
    have hsum : (tx.vout.map CTxOut.nValue).sum = newTxOut.nValue + p.total := by
      rw [hout, ((List.perm_insertIdx newTxOut p.payees hle).map CTxOut.nValue).sum_eq, List.map_cons,
        List.sum_cons, sum_payees]
    rw [hworth, hsum, hval, hfee]
    change r.nValueRet = r.nValueRet - p.total - s.nFeeRet + p.total + s.nFeeRet
    omega

end

/-! ## All attempts -/

theorem requiredFee_bounds {nTransactionFee : ℤ} {tx : CTransaction} (dPriority : ℚ)
    (hsize : tx.GetSerializeSize < MAX_STANDARD_TX_SIZE) (hfits : mostFee nTransactionFee < 2 ^ 63) :
    0 ≤ requiredFee nTransactionFee tx dPriority ∧
      requiredFee nTransactionFee tx dPriority ≤ mostFee nTransactionFee := by
  have hmax : MAX_STANDARD_TX_SIZE = 2051200 := rfl
  have hkilobytes : 1 + tx.GetSerializeSize / 1000 ≤ 2052 := by omega
  have hbase : MIN_TX_FEE = 10000 := rfl
  have hrng : MAX_SINGLE_TX = 30000000000000000 := max_single_tx_eq
  obtain ⟨hmost, hmost'⟩ := abs_le_mostFee nTransactionFee
  -- The fee by size is at most 2052 times that of a kilobyte.
  set k : ℤ := 1 + (tx.GetSerializeSize / 1000 : ℕ) with hk
  have hk₀ : 0 ≤ k ∧ k ≤ 2052 := by omega
  have hpay : |nTransactionFee * k| ≤ mostFee nTransactionFee := by
    rw [abs_mul, abs_of_nonneg hk₀.1, mul_comm]
    calc k * |nTransactionFee| ≤ 2052 * |nTransactionFee| :=
          mul_le_mul_of_nonneg_right hk₀.2 (abs_nonneg _)
      _ ≤ mostFee nTransactionFee := hmost
  obtain ⟨hpayLow, hpayHigh⟩ := abs_le.mp hpay
  have hwrap : wrap64 (nTransactionFee * k) = nTransactionFee * k :=
    wrap64_eq_self_iff.mpr (by unfold Fits64; omega)
  have hmin (fAllowFree : Bool) :
      0 ≤ GetMinFee tx tx.GetSerializeSize fAllowFree .GMF_SEND ∧
        GetMinFee tx tx.GetSerializeSize fAllowFree .GMF_SEND ≤ 20520000 := by
    unfold GetMinFee
    rw [if_neg (show ¬GetMinFee_mode.GMF_SEND = .GMF_RELAY from nofun), hbase, ← hk]
    dsimp only
    generalize hfree : (if fAllowFree = true ∧ tx.GetSerializeSize <
      (if GetMinFee_mode.GMF_SEND = .GMF_SEND then 1000 else DEFAULT_BLOCK_PRIORITY_SIZE - 1000)
        then (0 : ℤ) else k * 10000) = nMinFee
    have hfree' : 0 ≤ nMinFee ∧ nMinFee ≤ 20520000 := by
      rw [← hfree]
      split_ifs <;> omega
    split_ifs <;> omega
  obtain ⟨hmin₀, hmin₁⟩ := hmin (AllowFree (ComputePriority tx dPriority tx.GetSerializeSize))
  unfold requiredFee
  dsimp only
  rw [← hk, hwrap]
  exact ⟨hmin₀.trans (le_max_right _ _), max_le hpayHigh (by omega)⟩

section

variable {ctx : SpendContext Key} {env : WalletEnv} {w : CoinWallet} {p : Payment}

theorem Payment.Fundable.mostFee_lt (hp : p.Fundable ctx env w) :
    mostFee ctx.nTransactionFee < 2 ^ 63 := by
  have hfits := hp.fits
  have hnn := hp.total_nonneg
  have hcent : CENT = 1000000 := rfl
  omega

theorem Payment.leastFee_le {nFee nFeeRet : ℤ} (hcent : p.useIX = true → CENT ≤ nFeeRet)
    (hle : nFee ≤ nFeeRet) : p.leastFee nFee ≤ nFeeRet := by
  unfold Payment.leastFee
  split_ifs with hIX
  · exact max_le (hcent hIX) hle
  · exact hle

theorem Payment.cent_le {nFee nFeeRet : ℤ} (h : p.leastFee nFee ≤ nFeeRet) (hIX : p.useIX = true) :
    CENT ≤ nFeeRet := by
  unfold Payment.leastFee at h
  rw [if_pos hIX] at h
  exact (le_max_left _ _).trans h

theorem affords_leastFee {nFee : ℤ} (hlow : -|ctx.nTransactionFee| ≤ nFee)
    (hhigh : nFee ≤ mostFee ctx.nTransactionFee) (hs : s.nFeeRet = p.leastFee nFee) :
    p.Affords ctx s := by
  obtain ⟨-, hmost⟩ := abs_le_mostFee ctx.nTransactionFee
  have hcent : CENT = 1000000 := rfl
  unfold Payment.Affords
  rw [hs]
  exact ⟨Payment.leastFee_le (Payment.cent_le le_rfl) (hlow.trans (p.le_leastFee _)),
    Payment.leastFee_le (fun _ => by omega) hhigh⟩

theorem affords_startCreation (ctx : SpendContext Key) (w : CoinWallet) (p : Payment) (wtxNew : OwnedTx)
    (reservekey : CReserveKey) : p.Affords ctx (startCreation ctx w p wtxNew reservekey) := by
  obtain ⟨hmost, -⟩ := abs_le_mostFee ctx.nTransactionFee
  have hle := le_abs_self ctx.nTransactionFee
  have hnn := abs_nonneg ctx.nTransactionFee
  exact affords_leastFee (neg_abs_le _) (by omega) rfl

theorem attemptTransaction_again (hp : p.Fundable ctx env w) (hs : p.Affords ctx s)
    (h : w.attemptTransaction ctx env p p.total d s = .again s') :
    p.Affords ctx s' ∧ s.nFeeRet < s'.nFeeRet := by
  unfold attemptTransaction at h
  split at h
  · exact nomatch h
  · exact nomatch h
  · rename_i dPriority s₁ hdraft
    obtain ⟨-, hfee, hsize⟩ := draftTransaction_spec hp hs hdraft
    obtain ⟨hlow, hhigh⟩ := requiredFee_bounds dPriority hsize hp.mostFee_lt
    dsimp only at h
    split_ifs at h with hless
    obtain rfl := Attempted.again.inj h
    have hneg := abs_nonneg ctx.nTransactionFee
    refine ⟨affords_leastFee (by omega) hhigh rfl, ?_⟩
    have hle := p.le_leastFee (requiredFee ctx.nTransactionFee s₁.wtxNew.tx dPriority)
    change s.nFeeRet < p.leastFee (requiredFee ctx.nTransactionFee s₁.wtxNew.tx dPriority)
    omega

theorem attemptTransaction_done (hp : p.Fundable ctx env w) (hs : p.Affords ctx s)
    (h : w.attemptTransaction ctx env p p.total d s = .done (.ok (.ok (), s'))) :
    ∃ dPriority, p.Balances ctx env w s'.wtxNew.tx s'.nFeeRet dPriority ∧
      p.leastFee (requiredFee ctx.nTransactionFee s'.wtxNew.tx dPriority) ≤ s'.nFeeRet := by
  unfold attemptTransaction at h
  split at h
  · exact nomatch Attempted.done.inj h
  · exact nomatch (Prod.mk.inj (ok.inj (Attempted.done.inj h))).1
  · rename_i dPriority s₁ hdraft
    obtain ⟨hbalances, hfee, -⟩ := draftTransaction_spec hp hs hdraft
    dsimp only at h
    split_ifs at h with hless
    obtain ⟨-, rfl⟩ := Prod.mk.inj (ok.inj (Attempted.done.inj h))
    refine ⟨dPriority, hbalances, Payment.leastFee_le (fun hIX => ?_) (not_lt.mp hless)⟩
    exact (Payment.cent_le hs.1 hIX).trans hfee

theorem addSupporting_eq_ok {nSupport : ℕ} {x : Except Failure (Except String Unit × Creation)}
    (h : w.addSupporting ctx nSupport x = .ok (.ok (), s')) :
    ∃ s, x = .ok (.ok (), s) ∧ s'.wtxNew.tx = s.wtxNew.tx ∧ s'.nFeeRet = s.nFeeRet := by
  obtain ⟨⟨r, s⟩, hx, hadd⟩ := bind_ok h
  cases r with
  | error strFailReason => exact nomatch (Prod.mk.inj (ok.inj hadd)).1
  | ok u =>
    obtain ⟨wtx, hwtx, hadd⟩ := bind_ok hadd
    cases hadd
    refine ⟨s, hx, ?_, rfl⟩
    obtain ⟨⟨m, nDepth⟩, hm, hwtx⟩ := bind_ok hwtx
    obtain ⟨st, -, hwtx⟩ := bind_ok hwtx
    cases hwtx
    -- Without a block the place of the transaction is left alone.
    unfold CMerkleTx.SetMerkleBranch at hm
    dsimp only at hm
    split at hm
    · cases hm
      rfl
    · obtain ⟨nDepth', -, hm⟩ := bind_ok hm
      cases hm
      rfl

theorem createTransaction_eq (hp : p.Fundable ctx env w) (hne : p.vecSend ≠ []) (fuel nSupport : ℕ)
    (draws : ℕ → Draws) (wtxNew : OwnedTx) (reservekey : CReserveKey) (nFeeRet : ℤ) :
    w.CreateTransaction ctx env p fuel nSupport draws wtxNew reservekey nFeeRet
      = (attempts (fun k s => w.attemptTransaction ctx env p p.total (draws k) s) fuel 0
          (startCreation ctx w p wtxNew reservekey)).map (w.addSupporting ctx nSupport) := by
  have hfits := hp.fits
  have hcent : CENT = 1000000 := rfl
  obtain ⟨-, hmost⟩ := abs_le_mostFee ctx.nTransactionFee
  have hsum : sumAmounts p.vecSend 0 = some p.total := by
    have heq := @sumAmounts_eq p.vecSend 0 hp.nonneg le_rfl
    rw [zero_add] at heq
    exact heq (show p.total < 2 ^ 63 by omega)
  unfold CreateTransaction
  rw [hsum]
  dsimp only
  rw [if_neg (not_or.mpr ⟨hne, not_lt.mpr hp.total_nonneg⟩)]

/-- For recipients of amounts that are not negative, and that with the largest fee and a cent do not
overflow, from coins that are worth a valid amount: the attempts end, since each one has a higher fee than
the one before. A transaction that has been created spends distinct coins of the wallet, pays to each
recipient exactly and to at most one more output that is not dust, and what remains of the coins is the
fee, which is as high as its size and its priority ask for. -/
theorem createTransaction_ends_and_balances (hp : p.Fundable ctx env w) (nSupport : ℕ)
    (draws : ℕ → Draws) (wtxNew : OwnedTx) (reservekey : CReserveKey) (nFeeRet : ℤ) :
    (∃ bound, ∀ fuel, bound ≤ fuel → ∃ r,
      w.CreateTransaction ctx env p fuel nSupport draws wtxNew reservekey nFeeRet = some r) ∧
    (p.Affords ctx (startCreation ctx w p wtxNew reservekey) ∧ ∀ d s s', p.Affords ctx s →
      w.attemptTransaction ctx env p p.total d s = .again s' →
        p.Affords ctx s' ∧ s.nFeeRet < s'.nFeeRet) ∧
    ∀ fuel s', w.CreateTransaction ctx env p fuel nSupport draws wtxNew reservekey nFeeRet
        = some (.ok (.ok (), s')) →
      ∃ dPriority, p.Balances ctx env w s'.wtxNew.tx s'.nFeeRet dPriority ∧
        p.leastFee (requiredFee ctx.nTransactionFee s'.wtxNew.tx dPriority) ≤ s'.nFeeRet := by
  have hstart := affords_startCreation ctx w p wtxNew reservekey
  have hstep (k : ℕ) (s s' : Creation) (hs : p.Affords ctx s)
      (h : w.attemptTransaction ctx env p p.total (draws k) s = .again s') :
      p.Affords ctx s' ∧ s.nFeeRet < s'.nFeeRet := attemptTransaction_again hp hs h
  by_cases hne : p.vecSend = []
  · -- Without recipients there is no attempt.
    have hnone (fuel : ℕ) : w.CreateTransaction ctx env p fuel nSupport draws wtxNew reservekey nFeeRet
        = some (.ok (.error "Transaction amounts must be positive",
          ⟨wtxNew, reservekey, w.keyPool, nFeeRet⟩)) := by
      unfold CreateTransaction
      rw [hne, sumAmounts]
      dsimp only
      rw [if_pos (Or.inl rfl)]
    refine ⟨⟨0, fun fuel _ => ⟨_, hnone fuel⟩⟩, ⟨hstart, fun d s s' hs h =>
      attemptTransaction_again hp hs h⟩, fun fuel s' h => ?_⟩
    rw [hnone] at h
    exact nomatch (Prod.mk.inj (Except.ok.inj (Option.some.inj h))).1
  · refine ⟨?_, ⟨hstart, fun d s s' hs h => attemptTransaction_again hp hs h⟩, ?_⟩
    · -- The fee goes up, and it is bounded.
      let μ (s : Creation) : ℕ := (mostFee ctx.nTransactionFee - s.nFeeRet).toNat
      refine ⟨μ (startCreation ctx w p wtxNew reservekey) + 1, fun fuel hfuel => ?_⟩
      have hdecrease (k : ℕ) (s s' : Creation) (hs : p.Affords ctx s)
          (h : w.attemptTransaction ctx env p p.total (draws k) s = .again s') :
          p.Affords ctx s' ∧ μ s' < μ s := by
        obtain ⟨hs', hlt⟩ := hstep k s s' hs h
        have hhigh := hs'.2
        exact ⟨hs', by change (_ : ℤ).toNat < (_ : ℤ).toNat; omega⟩
      obtain ⟨r, hr⟩ := exists_attempts μ hdecrease 0 hstart hfuel
      refine ⟨w.addSupporting ctx nSupport r, ?_⟩
      rw [createTransaction_eq hp hne, hr, Option.map_some]
    · intro fuel s' h
      rw [createTransaction_eq hp hne] at h
      obtain ⟨x, hx, hadd⟩ := Option.map_eq_some_iff.mp h
      obtain ⟨s, rfl, htx, hfee⟩ := addSupporting_eq_ok hadd
      obtain ⟨k, s₀, -, hs₀, hdone⟩ :=
        attempts_eq_some (fun k s s' hs h => (hstep k s s' hs h).1) hstart hx
      rw [htx, hfee]
      exact attemptTransaction_done hp hs₀ hdone

end

/-! ## Payments from a wallet with one coin -/

def copiedSpending : SpendContext Unit :=
  { copiedContext with
    signing := plainScheme
    signer := plainStore
    keyPoolEnv := ⟨copiedKeys.Hash160, fun _ => plainPubKey, fun _ => 0, none, false⟩
    nTransactionFee := MIN_TX_FEE
    setLockedCoins := fun _ => false
    address := BitVec.toNat }

def plainPayment (amounts : List ℤ) : Payment where
  vecSend := amounts.map fun nValue => (plainScript, nValue)
  coinControl := some ⟨some (.keyID 7), []⟩
  coin_type := .ALL_COINS
  useIX := false

def plainDraws (_ : ℕ) : Draws :=
  ⟨⟨plainChance UInt256, plainChance UInt256, plainChance UInt256⟩, 1⟩

def created : Option (Except Failure (Except String Unit × Creation)) → Option Creation
  | some (.ok (.ok (), s)) => some s
  | _ => none

theorem created_eq_some {r : Option (Except Failure (Except String Unit × Creation))}
    (h : created r = some s) : r = some (.ok (.ok (), s)) := by
  unfold created at h
  split at h
  · cases h
    rfl
  · exact nomatch h

theorem copied_lookup {hash : UInt256} {wtx : OwnedTx}
    (h : copiedWallet.mapWallet.lookup hash = some wtx) : hash = 11 ∧ wtx = copiedCoin := by
  have hmem : (⟨hash, wtx⟩ : Σ _ : UInt256, OwnedTx) ∈ [(⟨11, copiedCoin⟩ : Σ _ : UInt256, OwnedTx)] :=
    AList.mem_lookup_iff.mp h
  obtain ⟨hhash, hwtx⟩ := Sigma.mk.inj (List.mem_singleton.mp hmem)
  exact ⟨hhash, eq_of_heq hwtx⟩

theorem copied_fundable : (plainPayment [20 * COIN]).Fundable copiedSpending copiedEnv copiedWallet where
  keyed hash wtx h := by
    obtain ⟨rfl, rfl⟩ := copied_lookup h
    rfl
  numbered hash wtx h := by
    obtain ⟨-, rfl⟩ := copied_lookup h
    decide
  range vCoins h := by
    have hcoins : copiedWallet.AvailableCoins copiedSpending copiedEnv true
        (plainPayment [20 * COIN]).coinControl .ALL_COINS false = .ok [⟨11, 0, 1, true⟩] := by rfl
    obtain rfl := ok.inj (hcoins.symm.trans h)
    change MoneyRange _
    decide
  nonneg := by decide
  fits := by decide

/-- Twenty coins are paid from a coin of fifty. -/
theorem copied_payment_balances :
    ∃ s dPriority, copiedWallet.CreateTransaction copiedSpending copiedEnv (plainPayment [20 * COIN]) 1 3
        plainDraws (OwnedTx.Init copiedEnv) CReserveKey.empty 0 = some (.ok (.ok (), s)) ∧
      (plainPayment [20 * COIN]).Balances copiedSpending copiedEnv copiedWallet s.wtxNew.tx s.nFeeRet
        dPriority := by
  have hrun : (created (copiedWallet.CreateTransaction copiedSpending copiedEnv
      (plainPayment [20 * COIN]) 1 3 plainDraws (OwnedTx.Init copiedEnv) CReserveKey.empty 0)).isSome
        = true := by decide +kernel
  obtain ⟨s, hs⟩ := Option.isSome_iff_exists.mp hrun
  have hcreated := created_eq_some hs
  obtain ⟨dPriority, hbalances, -⟩ := (createTransaction_ends_and_balances copied_fundable 3 plainDraws
    (OwnedTx.Init copiedEnv) CReserveKey.empty 0).2.2 1 s hcreated
  exact ⟨s, dPriority, hcreated, hbalances⟩

def emptiedWallet : CoinWallet := { copiedWallet with mapWallet := ∅, wtxOrdered := [], db := fun _ => none }

def endlessPayment : Payment := plainPayment [2 ^ 62 - 10 ^ 16, 2 ^ 62 - 10 ^ 16, 2 * 10 ^ 16 - 1]

theorem selectCoinsMinConf_nil {Tx : Type} [DecidableEq Tx] (txs : TxReader Tx) (chance : Chance Tx)
    {nTargetValue : ℤ} (nSpendTime : UInt32) (nConfMine nConfTheirs : ℤ) (h : nTargetValue < 0) :
    SelectCoinsMinConf txs chance nTargetValue nSpendTime nConfMine nConfTheirs []
      = .ok ⟨true, [], 0⟩ := by
  have hshuffle : chance.shuffle [] = [] := (chance.shuffle_perm []).eq_nil
  have hsort : chance.sort [] = [] := (chance.sort_perm []).eq_nil
  unfold SelectCoinsMinConf
  rw [hshuffle]
  change Except.ok (select chance nTargetValue (.lower [] 0 none)) = _
  unfold select takeSubset
  dsimp only
  rw [if_neg h.ne', if_neg (not_lt.mpr h.le), hsort]
  rfl

theorem computePriority_zero (tx : CTransaction) (nTxSize : ℕ) : ComputePriority tx 0 nTxSize = 0 := by
  have hzero : nearestDouble 0 = 0 := by
    unfold nearestDouble toDouble
    rw [if_neg (lt_irrefl 0), if_pos rfl]
  unfold ComputePriority
  dsimp only
  rw [zero_div, hzero, ite_self]

theorem attemptTransaction_endless (d : Draws) (hs : s.nFeeRet = MIN_TX_FEE) :
    ∃ s', emptiedWallet.attemptTransaction copiedSpending copiedEnv endlessPayment (2 ^ 63 - 1) d s
      = .again s' ∧ s'.nFeeRet = MIN_TX_FEE := by
  have hpaid : payeeOutputs endlessPayment.vecSend = (endlessPayment.payees, .ok ()) := by
    decide +kernel
  have htgt : wrap64 (2 ^ 63 - 1 + s.nFeeRet) < 0 := by
    rw [hs]
    decide
  -- The target has overflowed, and nothing is selected for it.
  have hsel (nTime : UInt32) : emptiedWallet.SelectCoins copiedSpending copiedEnv d.chances
      (wrap64 (2 ^ 63 - 1 + s.nFeeRet)) nTime endlessPayment.coinControl endlessPayment.coin_type
      endlessPayment.useIX = .ok ⟨true, [], 0⟩ := by
    refine ok_bind rfl ?_
    exact ok_bind (selectCoinsMinConf_nil _ _ _ _ _ htgt) rfl
  set nChange : ℤ := 2 ^ 63 - 9999 with hnChange
  have hchange : wrap64 (wrap64 (0 - (2 ^ 63 - 1)) - s.nFeeRet) = nChange := by
    rw [hs]
    decide
  -- The change has become as large, and is dust since its size overflows once more.
  have hadd (s : Creation) : addChange copiedSpending endlessPayment d.nRand nChange s
      = .ok { s with nFeeRet := wrap64 (s.nFeeRet + nChange) }.ReturnKey := by
    have hdust : CTxOut.IsDust ⟨nChange, GetScriptForDestination (.keyID 7)⟩ MIN_RELAY_TX_FEE = true
      := by
      decide +kernel
    refine ok_bind rfl ?_
    dsimp only
    rw [if_pos hdust]
    rfl
  have hsize (nVersion : ℤ) (nTime nLockTime : UInt32) : (⟨nVersion, nTime, [],
    endlessPayment.payees, nLockTime⟩ : CTransaction).GetSerializeSize = 146 := by rfl
  have hrequired (nVersion : ℤ) (nTime nLockTime : UInt32) : requiredFee MIN_TX_FEE
      ⟨nVersion, nTime, [], endlessPayment.payees, nLockTime⟩ 0 = MIN_TX_FEE := by
    have hfree : AllowFree 0 = false := by decide +kernel
    unfold requiredFee
    dsimp only
    rw [hsize, computePriority_zero, hfree]
    rfl
  set s₁ : Creation := { withPayees endlessPayment s with nFeeRet := wrap64 (s.nFeeRet + nChange)
    }.ReturnKey
    with hs₁
  have htx : s₁.wtxNew.tx = { s.wtxNew.tx with vin := [], vout := endlessPayment.payees } := by
    change ({ s.wtxNew.tx with vin := [], vout := (payeeOutputs endlessPayment.vecSend).1 } :
      CTransaction)
      = _
    rw [hpaid]
  have hdraft : emptiedWallet.draftTransaction copiedSpending copiedEnv endlessPayment (2 ^ 63 - 1)
    d s
      = .ok (.ok 0, s₁.withTx s₁.wtxNew.tx) := by
    refine draftTransaction_eq_ok.mpr ⟨⟨true, [], 0⟩, s₁, [], s₁.wtxNew.tx, by rw [hpaid], hsel
      _, rfl, rfl,
      ?_, rfl, ?_, rfl, ?_⟩
    · dsimp only
      rw [hchange]
      exact hadd (withPayees endlessPayment s)
    · rw [htx]
      rfl
    · rw [htx, hsize]
      decide
  have hfee : (s₁.withTx s₁.wtxNew.tx).nFeeRet < MIN_TX_FEE := by
    change wrap64 (s.nFeeRet + nChange) < MIN_TX_FEE
    rw [hs]
    decide
  have hrequired' : requiredFee copiedSpending.nTransactionFee (s₁.withTx s₁.wtxNew.tx).wtxNew.tx 0
      = MIN_TX_FEE := by
    exact hrequired _ _ _
  unfold attemptTransaction
  rw [hdraft]
  dsimp only
  rw [hrequired', if_pos hfee]
  exact ⟨_, rfl, rfl⟩

/-- Amounts that are not negative can keep the attempts from ending, each with the fee of the one before:
with the fee they overflow. -/
theorem createTransaction_endless :
    (∀ s ∈ endlessPayment.vecSend, 0 ≤ s.2 ∧ s.2 < 2 ^ 63) ∧
    (∀ vCoins, emptiedWallet.AvailableCoins copiedSpending copiedEnv true endlessPayment.coinControl
      endlessPayment.coin_type endlessPayment.useIX = .ok vCoins →
        SumInRange copiedSpending emptiedWallet vCoins) ∧
    ∀ fuel, emptiedWallet.CreateTransaction copiedSpending copiedEnv endlessPayment fuel 0 plainDraws
      (OwnedTx.Init copiedEnv) CReserveKey.empty 0 = none := by
  refine ⟨by decide, fun vCoins h => ?_, fun fuel => ?_⟩
  · cases h
    change MoneyRange 0
    decide
  · have hnone := attempts_eq_none (fun k s hs => attemptTransaction_endless (plainDraws k) hs) fuel 0
      (show (startCreation copiedSpending emptiedWallet endlessPayment (OwnedTx.Init copiedEnv)
        CReserveKey.empty).nFeeRet = MIN_TX_FEE from rfl)
    have hsum : sumAmounts endlessPayment.vecSend 0 = some (2 ^ 63 - 1) := by decide
    unfold CreateTransaction
    rw [hsum]
    dsimp only
    rw [if_neg (by decide), hnone]
    rfl

end ZalemCoin.Wallet
