import ZalemCoin.Chain.AcceptBlock
import ZalemCoin.InstantX.Locks
import ZalemCoin.Script.Signing
import ZalemCoin.Wallet.KeyPool
import ZalemCoin.Wallet.Stealth
import ZalemCoin.Wallet.SupportingTransactions

/-!
# The balance of a wallet

A wallet keeps its transactions with a mark for each output that it has spent. Its balance is what the
outputs without a mark are worth, those of transactions that it trusts: transactions in a block, and
transactions of its own that are in the memory pool. What a transaction adds is cached with it until it
is marked as dirty.
-/

namespace ZalemCoin.Wallet

open Chain Lib Script InstantX

/-- The texts that a transaction carries, by their names. -/
abbrev mapValue_t := SortedMap (List UInt8) (List UInt8)

structure WalletRecord extends CWalletTx where
  mapValue : mapValue_t
  vOrderForm : List (List UInt8 × List UInt8)
  fTimeReceivedIsTxTime : UInt32
  nTimeReceived : UInt32
  nTimeSmart : UInt32
  fFromMe : Bool
  strFromAccount : List UInt8
  /-- The outputs that are spent. The list may be shorter than that of the outputs. -/
  vfSpent : List Bool
  /-- Its position in the ordered list of transactions. -/
  nOrderPos : ℤ

structure OwnedTx extends WalletRecord where
  nDebitCached : Option ℤ
  nWatchDebitCached : Option ℤ
  nAvailableCreditCached : Option ℤ

/-- What stands in the ordered list: a transaction, by its key in the wallet, or an accounting entry. -/
inductive TxItem where
  | tx (hash : UInt256)
  | entry (nTime : ℤ)
deriving DecidableEq

/-- A wallet with its transactions, on a node. -/
structure CoinWallet where
  node : Node
  keys : CWallet
  mapScripts : CScriptID → Option CScript
  setWatchOnly : CScript → Bool
  keyPool : PoolWallet
  mapWallet : AList fun _ : UInt256 => OwnedTx
  wtxOrdered : List (ℤ × TxItem)
  nOrderPosNext : ℤ
  /-- How often others have asked for a transaction. -/
  mapRequestCount : UInt256 → Option ℤ
  db : UInt256 → Option WalletRecord
  dbOrderPosNext : Option ℤ
  /-- How often the database has been written to. -/
  nWrites : ℕ

/-- What a wallet computes with and never changes. The keys of its signature library are public keys:
a locked wallet has no others. -/
structure WalletContext extends Context where
  keyContext : KeyContext
  lib : SignatureLibrary CPubKey
  /-- How many scripts `IsMine` can look at, one inside the other. -/
  nStack : ℕ
  /-- The arguments `-confchange`, `-enableinstantx` and `-instantxdepth`. -/
  fConfChange : Bool
  fEnableInstantX : Bool
  nInstantXDepth : ℤ

/-- What a wallet reads from outside during one call. -/
structure WalletEnv extends IxEnv where
  dbWrites : ℕ → Bool

/-! ## The marks of a transaction -/

namespace OwnedTx

/-- A transaction without inputs and outputs. -/
def Init (env : WalletEnv) : OwnedTx where
  tx := ⟨1, UInt32.ofInt env.adjustedTime, [], [], 0⟩
  hashBlock := 0
  vMerkleBranch := []
  nIndex := -1
  fMerkleVerified := false
  vtxPrev := []
  mapValue := SortedMap.empty
  vOrderForm := []
  fTimeReceivedIsTxTime := 0
  nTimeReceived := 0
  nTimeSmart := 0
  fFromMe := false
  strFromAccount := []
  vfSpent := []
  nOrderPos := -1
  nDebitCached := none
  nWatchDebitCached := none
  nAvailableCreditCached := none

/-- Forgets the cached amounts. -/
def MarkDirty (wtx : OwnedTx) : OwnedTx :=
  { wtx with nDebitCached := none, nWatchDebitCached := none, nAvailableCreditCached := none }

def BindWallet (wtx : OwnedTx) : OwnedTx := wtx.MarkDirty

/-- The marks, one for each output. -/
def resized (wtx : OwnedTx) : List Bool :=
  (wtx.vfSpent ++ List.replicate (wtx.tx.vout.length - wtx.vfSpent.length) false).take
    wtx.tx.vout.length

/-- Sets the mark of an output; `name` is the function that does it. -/
def mark (name : String) (fSpent : Bool) (wtx : OwnedTx) (nOut : ℕ) : Except Failure OwnedTx :=
  if wtx.tx.vout.length ≤ nOut then .error (.crash s!"CWalletTx::{name}() : nOut out of range")
  else
    let wtx := { wtx with vfSpent := wtx.resized }
    if wtx.vfSpent[nOut]? = some fSpent then .ok wtx
    else .ok { wtx with vfSpent := wtx.vfSpent.set nOut fSpent, nAvailableCreditCached := none }

def MarkSpent : OwnedTx → ℕ → Except Failure OwnedTx := mark "MarkSpent" true

def MarkUnspent : OwnedTx → ℕ → Except Failure OwnedTx := mark "MarkUnspent" false

def spentAt (wtx : WalletRecord) (nOut : ℕ) : Bool := wtx.vfSpent[nOut]?.getD false

def IsSpent (wtx : OwnedTx) (nOut : ℕ) : Except Failure Bool :=
  if wtx.tx.vout.length ≤ nOut then .error (.crash "CWalletTx::IsSpent() : nOut out of range")
  else .ok (spentAt wtx.toWalletRecord nOut)

/-- Takes over the marks of another copy of the transaction, and says whether any was new. -/
def UpdateSpent (wtx : OwnedTx) (vfNewSpent : List Bool) : Bool × OwnedTx :=
  let vfSpent := wtx.vfSpent.mapIdx fun i f => f || vfNewSpent[i]?.getD false
  if vfSpent = wtx.vfSpent then (false, wtx)
  else (true, { wtx with vfSpent := vfSpent, nAvailableCreditCached := none })

def unspentOutputs (wtx : OwnedTx) : List CTxOut :=
  (wtx.tx.vout.zipIdx.filter fun p => !spentAt wtx.toWalletRecord p.2).map Prod.fst

end OwnedTx

/-! ## How deep a transaction is -/

def GetTransactionLockSignatures (ctx : WalletContext) (env : WalletEnv) (n : Node) (hash : UInt256) :
    ℤ :=
  if env.fInstantX = false then -3
  else if ctx.fEnableInstantX = false then -1
  else ((n.mapTxLocks.lookup hash).map CTransactionLock.CountSignatures).getD (-1)

/-- How deep a transaction is: minus one when it is neither in a block nor in the memory pool. A lock
makes it deeper. -/
def CMerkleTx.GetDepthInMainChain (ctx : WalletContext) (env : WalletEnv) (n : Node) (m : CMerkleTx) :
    Except Failure ℤ := do
  let (_, nResult) ← m.GetDepthInMainChainINTERNAL ctx.toContext n.chain
  if nResult = 0 ∧ n.chain.mempool.existsTx (ctx.hashTx m.tx) = false then pure (-1)
  else if nResult < 10 ∧
      INSTANTX_SIGNATURES_REQUIRED ≤ GetTransactionLockSignatures ctx env n (ctx.hashTx m.tx) then
    pure (ctx.nInstantXDepth + nResult)
  else pure nResult

/-- The number of blocks until the outputs of a coinbase or a coinstake may be spent. -/
def CMerkleTx.GetBlocksToMaturity (ctx : WalletContext) (env : WalletEnv) (n : Node) (m : CMerkleTx) :
    Except Failure ℤ :=
  if m.tx.IsCoinBase = false ∧ m.tx.IsCoinStake = false then .ok 0
  else do
    let nDepth ← m.GetDepthInMainChain ctx env n
    pure (max 0 ((nCoinbaseMaturity : ℤ) + 75 - nDepth))

/-- Adds up amounts, each sum of which has to be a valid amount. -/
def sumInRange {α : Type} (msg : String) (f : α → Except Failure ℤ) (l : List α) : Except Failure ℤ :=
  l.foldlM (fun n a => do
    let x ← f a
    ensure (MoneyRange (wrap64 (n + x))) (.crash msg)
    pure (wrap64 (n + x))) 0

/-- A cached amount, or else the one that is computed. -/
def cachedOr (cached : Option ℤ) (x : Except Failure ℤ) : Except Failure ℤ :=
  match cached with
  | some n => .ok n
  | none => x

namespace CoinWallet

variable (ctx : WalletContext) (env : WalletEnv) (w : CoinWallet)

/-- The keys and scripts of the wallet, each under its own identifier. -/
def keystore : CKeyStore ctx.lib where
  GetKey address := (w.keys.GetPubKey ctx.keyContext address).filter fun pubkey =>
    ctx.lib.GetID (ctx.lib.GetPubKey pubkey) = address
  GetCScript hash := (w.mapScripts hash).filter fun script =>
    uint160 (ctx.lib.Hash160 script) = hash ∧ script.length ≤ MAX_SCRIPT_ELEMENT_SIZE
  HaveWatchOnly := w.setWatchOnly
  id_eq h := of_decide_eq_true (Option.filter_eq_some_iff.mp h).2
  hash_eq h := (of_decide_eq_true (Option.filter_eq_some_iff.mp h).2).1
  size_le h := (of_decide_eq_true (Option.filter_eq_some_iff.mp h).2).2

def IsMine (txout : CTxOut) : Except Failure isminetype :=
  match Script.IsMine (w.keystore ctx) ctx.nStack txout.scriptPubKey with
  | none => .error (.crash "stack overflow")
  | some mine => .ok mine

/-- What an output that the wallet can spend is worth. -/
def GetCredit (txout : CTxOut) : Except Failure ℤ :=
  match Script.GetCredit (w.keystore ctx) ctx.nStack txout with
  | none => .error (.crash "CWallet::GetCredit() : value out of range")
  | some credit => .ok credit

def outputsOf (hash : UInt256) : Option (List CTxOut) :=
  (w.mapWallet.lookup hash).map fun wtx => wtx.tx.vout

/-- What an input takes from an output of the wallet of some kind. -/
def inputDebit (filter : isminetype) (txin : CTxIn) : Except Failure ℤ :=
  match (w.outputsOf txin.prevout.hash).bind fun vout => vout[txin.prevout.n.toNat]? with
  | none => .ok 0
  | some txout => do
    let mine ← w.IsMine ctx txout
    pure (if mine = filter then txout.nValue else 0)

/-- What the inputs of a transaction take from the outputs of the wallet of some kind. -/
def GetDebit (filter : isminetype) (tx : CTransaction) : Except Failure ℤ :=
  sumInRange "CWallet::GetDebit() : value out of range" (w.inputDebit ctx filter) tx.vin

def cachedDebit (wtx : OwnedTx) : Except Failure ℤ :=
  if wtx.tx.vin = [] then .ok 0
  else do
    let debit ← cachedOr wtx.nDebitCached (w.GetDebit ctx .ISMINE_SPENDABLE wtx.tx)
    let watchDebit ← cachedOr wtx.nWatchDebitCached (w.GetDebit ctx .ISMINE_WATCH_ONLY wtx.tx)
    pure (wrap64 (debit + watchDebit))

/-- Whether inputs spend outputs of the wallet. -/
def inputsTrusted : List CTxIn → Except Failure Bool
  | [] => .ok true
  | txin :: vin =>
    match w.outputsOf txin.prevout.hash with
    | none => .ok false
    | some vout =>
      match vout[txin.prevout.n.toNat]? with
      | none => .error (.crash "parent->vout out of range")
      | some parentOut => do
        let mine ← w.IsMine ctx parentOut
        if mine = .ISMINE_SPENDABLE then inputsTrusted vin else pure false

def IsTrusted (wtx : OwnedTx) : Except Failure Bool :=
  if IsFinalTx env.toEnv w.node.chain wtx.tx 0 0 = false then .ok false
  else do
    let nDepth ← wtx.GetDepthInMainChain ctx env w.node
    if 1 ≤ nDepth then pure true
    else if nDepth < 0 then pure false
    else if ctx.fConfChange then pure false
    else do
      let debit ← w.cachedDebit ctx wtx
      if 0 < debit then w.inputsTrusted ctx wtx.tx.vin else pure false

/-- What the outputs of a transaction that are not spent are worth. -/
def unspentCredit (wtx : OwnedTx) : Except Failure ℤ :=
  sumInRange "CWalletTx::GetAvailableCredit() : value out of range" (w.GetCredit ctx) wtx.unspentOutputs

/-- What a transaction adds to the balance, as it is cached. -/
def GetAvailableCredit (wtx : OwnedTx) : Except Failure ℤ := do
  let nBlocks ← wtx.GetBlocksToMaturity ctx env w.node
  if 0 < nBlocks then pure 0
  else cachedOr wtx.nAvailableCreditCached (w.unspentCredit ctx wtx)

def trustedCredit (wtx : OwnedTx) : Except Failure ℤ := do
  let fTrusted ← w.IsTrusted ctx env wtx
  if fTrusted then w.GetAvailableCredit ctx env wtx else pure 0

def GetBalance : Except Failure ℤ :=
  w.mapWallet.entries.foldlM (fun nTotal e => do
    let credit ← w.trustedCredit ctx env e.2
    pure (wrap64 (nTotal + credit))) 0

end CoinWallet

/-! ## Sums -/

/-- The amount that a computation returns, and nothing when it fails. -/
def amount : Except Failure ℤ → ℤ
  | .ok x => x
  | .error _ => 0

variable {x : Except Failure ℤ} {α : Type} {msg : String}

theorem amount_of_ok {n : ℤ} (h : x = .ok n) : amount x = n := by
  rw [h]
  rfl

/-- A sum that is checked after each term succeeds when its total is in range. -/
theorem sumInRange_eq_ok {f : α → Except Failure ℤ} {l : List α} {r : ℤ}
    (hrng : ∀ a ∈ l, ∀ x, f a = .ok x → MoneyRange x) :
    sumInRange msg f l = .ok r ↔
      (∀ a ∈ l, ∃ x, f a = .ok x) ∧ r = (l.map fun a => amount (f a)).sum ∧ MoneyRange r := by
  induction l using List.reverseRecOn generalizing r with
  | nil =>
    constructor
    · rintro ⟨⟩
      exact ⟨by simp, rfl, by decide⟩
    · rintro ⟨-, rfl, -⟩
      rfl
  | append_singleton l a ih =>
    have hrng' : ∀ b ∈ l, ∀ x, f b = .ok x → MoneyRange x := fun b hb =>
      hrng b (List.mem_append_left _ hb)
    have ha : ∀ x, f a = .ok x → MoneyRange x := hrng a (by simp)
    have hsum : ((l ++ [a]).map fun b => amount (f b)).sum
        = (l.map fun b => amount (f b)).sum + amount (f a) := by simp
    unfold sumInRange
    rw [List.foldlM_append, except_bind_eq_ok, hsum]
    constructor
    · rintro ⟨n, hn, hstep⟩
      obtain ⟨hall, hn, hnrange⟩ := (ih hrng').mp hn
      rw [List.foldlM_cons, except_bind_eq_ok] at hstep
      obtain ⟨m, hm, ⟨⟩⟩ := hstep
      obtain ⟨x, hx, hm⟩ := bind_ok hm
      obtain ⟨⟨⟩, hvalid, ⟨⟩⟩ := bind_ok hm
      have hvalid := ensure_eq_ok.mp hvalid
      rw [wrap64_add_of_moneyRange hnrange (ha x hx)] at hvalid ⊢
      refine ⟨?_, by rw [hn, amount_of_ok hx], hvalid⟩
      intro b hb
      rcases List.mem_append.mp hb with hb | hb
      · exact hall b hb
      · obtain rfl := List.mem_singleton.mp hb
        exact ⟨x, hx⟩
    · rintro ⟨hall, hr, hrrange⟩
      obtain ⟨x, hx⟩ := hall a (by simp)
      have hxrange := ha x hx
      have hnn : 0 ≤ (l.map fun b => amount (f b)).sum := by
        refine List.sum_nonneg fun y hy => ?_
        obtain ⟨b, hb, rfl⟩ := List.mem_map.mp hy
        obtain ⟨z, hz⟩ := hall b (List.mem_append_left _ hb)
        rw [amount_of_ok hz]
        exact (hrng' b hb z hz).1
      rw [amount_of_ok hx] at hr
      have hnrange : MoneyRange (l.map fun b => amount (f b)).sum := by
        unfold MoneyRange at hxrange hrrange ⊢
        omega
      refine ⟨_, (ih hrng').mpr
        ⟨fun b hb => hall b (List.mem_append_left _ hb), rfl, hnrange⟩, ?_⟩
      have hwrap := wrap64_add_of_moneyRange hnrange hxrange
      rw [List.foldlM_cons, except_bind_eq_ok]
      refine ⟨r, ok_bind hx ?_, rfl⟩
      rw [hwrap, ← hr]
      exact ensure_bind hrrange rfl

theorem sum_entries {β : Type} [DecidableEq α] (m : AList fun _ : α => β) (f : α → β → ℤ) :
    (m.entries.map fun e => f e.1 e.2).sum
      = ∑ k ∈ m.keys.toFinset, (m.lookup k).elim 0 (f k) := by
  rw [List.sum_toFinset _ m.keys_nodup]
  change _ = (List.map _ (m.entries.map Sigma.fst)).sum
  rw [List.map_map]
  refine congrArg List.sum (List.map_congr_left fun e he => ?_)
  have hlook : m.lookup e.1 = some e.2 := AList.mem_lookup_iff.mpr he
  change f e.1 e.2 = (m.lookup e.1).elim 0 (f e.1)
  rw [hlook]
  rfl

/-! ## Marking outputs -/

namespace OwnedTx

def withMarks (wtx : OwnedTx) (vfSpent : List Bool) : OwnedTx :=
  { wtx.MarkDirty with vfSpent := vfSpent }

variable {wtx wtx' wtx'' : OwnedTx}

theorem getElem?_resized {i : ℕ} (hi : i < wtx.tx.vout.length) :
    wtx.resized[i]? = some (spentAt wtx.toWalletRecord i) := by
  unfold resized spentAt
  rw [List.getElem?_take_of_lt hi]
  by_cases hmark : i < wtx.vfSpent.length
  · rw [List.getElem?_append_left hmark, List.getElem?_eq_getElem hmark]
    rfl
  · have hle : wtx.vfSpent.length ≤ i := Nat.le_of_not_lt hmark
    rw [List.getElem?_append_right hle, List.getElem?_replicate, if_pos (by omega),
      List.getElem?_eq_none hle]
    rfl

variable {nOut : ℕ}

theorem mark_spec {name : String} {fSpent : Bool} (h : wtx.mark name fSpent nOut = .ok wtx') :
    nOut < wtx.tx.vout.length ∧
      ∃ vfSpent, (wtx' = { wtx with vfSpent := vfSpent } ∨
          wtx' = { wtx with vfSpent := vfSpent, nAvailableCreditCached := none }) ∧
        ∀ i < wtx.tx.vout.length, spentAt wtx'.toWalletRecord i
          = if i = nOut then fSpent else spentAt wtx.toWalletRecord i := by
  unfold mark at h
  split at h
  · exact nomatch h
  · rename_i hout
    have hlt : nOut < wtx.tx.vout.length := Nat.lt_of_not_le hout
    dsimp only at h
    split at h
    · rename_i hsame
      cases h
      refine ⟨hlt, wtx.resized, .inl rfl, fun i hi => ?_⟩
      change wtx.resized[i]?.getD false = _
      rw [getElem?_resized hi, Option.getD_some]
      split_ifs with heq
      · subst heq
        exact Option.some.inj ((getElem?_resized hi).symm.trans hsame)
      · rfl
    · cases h
      refine ⟨hlt, wtx.resized.set nOut fSpent, .inr rfl, fun i hi => ?_⟩
      change (wtx.resized.set nOut fSpent)[i]?.getD false = _
      have hlen : wtx.resized[i]? = some (spentAt wtx.toWalletRecord i) := getElem?_resized hi
      split_ifs with heq
      · subst heq
        rw [List.getElem?_set_self (List.getElem?_eq_some_iff.mp hlen).1]
        rfl
      · rw [List.getElem?_set_ne (Ne.symm heq), hlen]
        rfl

/-- A transaction after some of its outputs have been marked: it is as before, or its cached amounts
are gone. -/
structure Remarked (marks : ℕ → Bool) (wtx wtx' : OwnedTx) : Prop where
  shape : wtx' = wtx ∨ ∃ vfSpent, wtx' = wtx.withMarks vfSpent
  spent : ∀ i < wtx.tx.vout.length, spentAt wtx'.toWalletRecord i
    = (spentAt wtx.toWalletRecord i || marks i)

namespace Remarked

variable {marks marks' : ℕ → Bool}

theorem refl (wtx : OwnedTx) : Remarked (fun _ => false) wtx wtx where
  shape := .inl rfl
  spent _ _ := (Bool.or_false _).symm

theorem toCWalletTx_eq (h : Remarked marks wtx wtx') : wtx'.toCWalletTx = wtx.toCWalletTx := by
  rcases h.shape with rfl | ⟨vfSpent, rfl⟩
  · rfl
  · rfl

theorem trans (h : Remarked marks wtx wtx') (h' : Remarked marks' wtx' wtx'') :
    Remarked (fun i => marks i || marks' i) wtx wtx'' where
  shape := by
    rcases h'.shape with rfl | ⟨vfSpent', rfl⟩
    · exact h.shape
    · refine .inr ⟨vfSpent', ?_⟩
      rcases h.shape with rfl | ⟨vfSpent, rfl⟩
      · rfl
      · rfl
  spent i hi := by
    have hi' : i < wtx'.tx.vout.length := by rwa [congrArg (·.tx.vout) h.toCWalletTx_eq]
    rw [h'.spent i hi', h.spent i hi, Bool.or_assoc]

theorem congr (h : Remarked marks wtx wtx') (heq : ∀ i, marks' i = marks i) :
    Remarked marks' wtx wtx' := (funext heq : marks' = marks) ▸ h

end Remarked

theorem remarked_of_markSpent (h : wtx.BindWallet.MarkSpent nOut = .ok wtx') :
    nOut < wtx.tx.vout.length ∧ Remarked (fun i => i == nOut) wtx wtx' := by
  obtain ⟨hlt, vfSpent, hshape, hmarks⟩ := mark_spec h
  refine ⟨hlt, .inr ⟨vfSpent, ?_⟩, fun i hi => ?_⟩
  · rcases hshape with rfl | rfl
    · rfl
    · rfl
  · rw [hmarks i hi]
    split_ifs with heq
    · rw [beq_iff_eq.mpr heq, Bool.or_true]
    · rw [beq_eq_false_iff_ne.mpr heq, Bool.or_false]
      rfl

def newlySpent (wtx : OwnedTx) (marks : ℕ → Bool) : List CTxOut :=
  (wtx.tx.vout.zipIdx.filter fun p => !spentAt wtx.toWalletRecord p.2 && marks p.2).map Prod.fst

theorem Remarked.unspentOutputs_perm {marks : ℕ → Bool} (h : Remarked marks wtx wtx') :
    (wtx.newlySpent marks ++ wtx'.unspentOutputs).Perm wtx.unspentOutputs := by
  have hvout : wtx'.tx.vout = wtx.tx.vout := congrArg (·.tx.vout) h.toCWalletTx_eq
  have hleft : wtx'.unspentOutputs = ((wtx.tx.vout.zipIdx.filter fun p =>
      !spentAt wtx.toWalletRecord p.2).filter fun p => !marks p.2).map Prod.fst := by
    unfold unspentOutputs
    rw [hvout, List.filter_filter]
    refine congrArg (List.map Prod.fst) (List.filter_congr fun p hp => ?_)
    have hlt : p.2 < wtx.tx.vout.length := by
      have := List.snd_lt_of_mem_zipIdx hp
      omega
    rw [h.spent p.2 hlt, Bool.not_or, Bool.and_comm]
  have hnew : wtx.newlySpent marks = ((wtx.tx.vout.zipIdx.filter fun p =>
      !spentAt wtx.toWalletRecord p.2).filter fun p => marks p.2).map Prod.fst := by
    rw [List.filter_filter]
    refine congrArg (List.map Prod.fst) (List.filter_congr fun p _ => Bool.and_comm _ _)
  rw [hleft, hnew, ← List.map_append]
  exact (List.filter_append_perm _ _).map Prod.fst

end OwnedTx

/-! ## Balances that agree -/

theorem sumInRange_congr {f g : α → Except Failure ℤ} {l : List α} (h : ∀ a ∈ l, f a = g a) :
    sumInRange msg f l = sumInRange msg g l := by
  induction l using List.reverseRecOn with
  | nil => rfl
  | append_singleton l a ih =>
    have hl := ih fun b hb => h b (List.mem_append_left _ hb)
    unfold sumInRange at hl ⊢
    rw [List.foldlM_append, List.foldlM_append, hl]
    simp only [List.foldlM_cons, List.foldlM_nil, h a (by simp)]

theorem cachedOr_eq {cached : Option ℤ} (h : ∀ n, cached = some n → x = .ok n) :
    cachedOr cached x = x := by
  rcases cached with _ | n
  · rfl
  · exact (h n rfl).symm

namespace CoinWallet

variable (ctx : WalletContext) (env : WalletEnv)

/-- The cached amounts of a transaction are those that would be computed. -/
structure CachesAgree (w : CoinWallet) (wtx : OwnedTx) : Prop where
  debit : ∀ n, wtx.nDebitCached = some n → w.GetDebit ctx .ISMINE_SPENDABLE wtx.tx = .ok n
  watchDebit : ∀ n, wtx.nWatchDebitCached = some n → w.GetDebit ctx .ISMINE_WATCH_ONLY wtx.tx = .ok n
  availableCredit : ∀ n, wtx.nAvailableCreditCached = some n → w.unspentCredit ctx wtx = .ok n

structure AgreeOn (w w' : CoinWallet) (tx : CTransaction) : Prop where
  node : w'.node = w.node
  keystore : w'.keystore ctx = w.keystore ctx
  outputs : ∀ txin ∈ tx.vin, w'.outputsOf txin.prevout.hash = w.outputsOf txin.prevout.hash

/-- A transaction counts in the balance: it is trusted, and its outputs may be spent. -/
def Counts (w : CoinWallet) (wtx : OwnedTx) : Prop :=
  w.IsTrusted ctx env wtx = .ok true ∧ wtx.GetBlocksToMaturity ctx env w.node = .ok 0

instance (w : CoinWallet) (wtx : OwnedTx) : Decidable (w.Counts ctx env wtx) :=
  inferInstanceAs (Decidable (_ ∧ _))

/-- What a transaction no longer adds to the balance once outputs of it are marked. -/
def lostCredit (w : CoinWallet) (marks : ℕ → Bool) (wtx : OwnedTx) : ℤ :=
  if w.Counts ctx env wtx then
    ((wtx.newlySpent marks).map fun txout => amount (w.GetCredit ctx txout)).sum
  else 0

def lostBalance (w : CoinWallet) (marks : UInt256 → ℕ → Bool) : ℤ :=
  (w.mapWallet.entries.map fun e => w.lostCredit ctx env (marks e.1) e.2).sum

variable {ctx env} {w w' : CoinWallet} {wtx wtx' : OwnedTx}

theorem moneyRange_of_getCredit {txout : CTxOut} {n : ℤ} (h : w.GetCredit ctx txout = .ok n) :
    MoneyRange n := by
  unfold GetCredit at h
  rcases hcred : Script.GetCredit (w.keystore ctx) ctx.nStack txout with _ | credit
  · rw [hcred] at h
    exact nomatch h
  · rw [hcred] at h
    cases h
    unfold Script.GetCredit at hcred
    split_ifs at hcred with hrng
    obtain ⟨mine, -, rfl⟩ := Option.map_eq_some_iff.mp hcred
    split_ifs
    · exact hrng
    · decide

theorem getCredit_congr (h : w'.keystore ctx = w.keystore ctx) : w'.GetCredit ctx = w.GetCredit ctx := by
  funext txout
  unfold GetCredit
  rw [h]

variable {c : ℤ} {tx : CTransaction} {marks : ℕ → Bool}

theorem unspentCredit_remarked (hkeys : w'.keystore ctx = w.keystore ctx)
    (h : OwnedTx.Remarked marks wtx wtx') (hc : w.unspentCredit ctx wtx = .ok c) :
    w'.unspentCredit ctx wtx'
      = .ok (c - ((wtx.newlySpent marks).map fun txout => amount (w.GetCredit ctx txout)).sum) := by
  have hperm := h.unspentOutputs_perm
  obtain ⟨hall, hsum, hrng⟩ := (sumInRange_eq_ok fun _ _ _ h => moneyRange_of_getCredit h).mp hc
  have hsplit : ((wtx.newlySpent marks).map fun txout => amount (w.GetCredit ctx txout)).sum
      + (wtx'.unspentOutputs.map fun txout => amount (w.GetCredit ctx txout)).sum = c := by
    rw [hsum, ← (hperm.map _).sum_eq, List.map_append, List.sum_append]
  have hnn : ∀ l : List CTxOut, l ⊆ wtx.unspentOutputs →
      0 ≤ (l.map fun txout => amount (w.GetCredit ctx txout)).sum := by
    intro l hl
    refine List.sum_nonneg fun x hx => ?_
    obtain ⟨txout, htxout, rfl⟩ := List.mem_map.mp hx
    obtain ⟨n, hn⟩ := hall txout (hl htxout)
    rw [amount_of_ok hn]
    exact (moneyRange_of_getCredit hn).1
  have hnew := hnn (wtx.newlySpent marks) fun _ hx =>
    hperm.subset (List.mem_append_left _ hx)
  have hleft := hnn wtx'.unspentOutputs fun _ hx =>
    hperm.subset (List.mem_append_right _ hx)
  unfold unspentCredit
  rw [getCredit_congr hkeys]
  refine (sumInRange_eq_ok fun _ _ _ h => moneyRange_of_getCredit h).mpr
    ⟨fun txout htxout => hall txout (hperm.subset (List.mem_append_right _ htxout)), ?_, ?_⟩
  · omega
  · unfold MoneyRange at hrng ⊢
    omega

theorem AgreeOn.getDebit (h : AgreeOn ctx w w' tx) (filter : isminetype) :
    w'.GetDebit ctx filter tx = w.GetDebit ctx filter tx := by
  refine sumInRange_congr fun txin htxin => ?_
  unfold inputDebit IsMine
  rw [h.outputs txin htxin, h.keystore]

theorem AgreeOn.inputsTrusted (h : AgreeOn ctx w w' tx) :
    w'.inputsTrusted ctx tx.vin = w.inputsTrusted ctx tx.vin := by
  -- The induction is on the inputs that are still to be looked at.
  suffices hall : ∀ vin : List CTxIn, (∀ txin ∈ vin, w'.outputsOf txin.prevout.hash
      = w.outputsOf txin.prevout.hash) → w'.inputsTrusted ctx vin = w.inputsTrusted ctx vin from
    hall tx.vin h.outputs
  intro vin
  induction vin with
  | nil => exact fun _ => rfl
  | cons txin vin ih =>
    intro houts
    unfold CoinWallet.inputsTrusted
    rw [houts txin List.mem_cons_self, ih fun b hb => houts b (List.mem_cons_of_mem _ hb)]
    unfold IsMine
    rw [h.keystore]

theorem AgreeOn.cachedDebit (h : AgreeOn ctx w w' wtx.tx) (hmarks : OwnedTx.Remarked marks wtx wtx')
    (hcaches : w.CachesAgree ctx wtx) :
    w'.cachedDebit ctx wtx' = w.cachedDebit ctx wtx := by
  unfold CoinWallet.cachedDebit
  rcases hmarks.shape with rfl | ⟨vfSpent, rfl⟩
  · rw [h.getDebit, h.getDebit]
  · rw [cachedOr_eq hcaches.debit, cachedOr_eq hcaches.watchDebit]
    change (if wtx.tx.vin = [] then Except.ok 0 else do
        let debit ← w'.GetDebit ctx .ISMINE_SPENDABLE wtx.tx
        let watchDebit ← w'.GetDebit ctx .ISMINE_WATCH_ONLY wtx.tx
        pure (wrap64 (debit + watchDebit))) = _
    rw [h.getDebit, h.getDebit]

theorem AgreeOn.isTrusted (h : AgreeOn ctx w w' wtx.tx) (hbase : wtx'.toCWalletTx = wtx.toCWalletTx)
    (hdebit : w'.cachedDebit ctx wtx' = w.cachedDebit ctx wtx) :
    w'.IsTrusted ctx env wtx' = w.IsTrusted ctx env wtx := by
  unfold IsTrusted
  rw [hdebit, hbase, h.node, h.inputsTrusted]

theorem getBlocksToMaturity_nonneg {n : Node} {m : CMerkleTx} {nBlocks : ℤ}
    (h : m.GetBlocksToMaturity ctx env n = .ok nBlocks) : 0 ≤ nBlocks := by
  unfold CMerkleTx.GetBlocksToMaturity at h
  split_ifs at h
  · cases h
    exact le_rfl
  · obtain ⟨nDepth, -, ⟨⟩⟩ := bind_ok h
    exact le_max_left _ _

variable (h : AgreeOn ctx w w' wtx.tx)
include h

/-- The credit falls by what the marks take away. -/
theorem AgreeOn.trustedCredit (hmarks : OwnedTx.Remarked marks wtx wtx')
    (hcaches : w.CachesAgree ctx wtx) (hc : w.trustedCredit ctx env wtx = .ok c) :
    w'.trustedCredit ctx env wtx' = .ok (c - w.lostCredit ctx env marks wtx) := by
  obtain ⟨fTrusted, htrusted, hc⟩ := bind_ok hc
  have htrusted' : w'.IsTrusted ctx env wtx' = .ok fTrusted := by
    rw [h.isTrusted hmarks.toCWalletTx_eq (h.cachedDebit hmarks hcaches), htrusted]
  refine ok_bind htrusted' ?_
  unfold lostCredit
  cases fTrusted with
  | false =>
    rw [if_neg Bool.false_ne_true] at hc ⊢
    cases hc
    rw [if_neg fun hcnts => Bool.false_ne_true (Except.ok.inj (htrusted.symm.trans hcnts.1))]
    rfl
  | true =>
    rw [if_pos rfl] at hc ⊢
    obtain ⟨nBlocks, hblocks, hc⟩ := bind_ok hc
    refine ok_bind (by rw [hmarks.toCWalletTx_eq, h.node, hblocks]) ?_
    by_cases himmature : 0 < nBlocks
    · rw [if_pos himmature] at hc ⊢
      cases hc
      rw [if_neg fun hcnts => ?_]
      · rfl
      · have hzero := Except.ok.inj (hblocks.symm.trans hcnts.2)
        omega
    · have hnn := getBlocksToMaturity_nonneg hblocks
      obtain rfl : nBlocks = 0 := by omega
      rw [if_neg himmature] at hc ⊢
      rw [if_pos ⟨htrusted, hblocks⟩]
      rw [cachedOr_eq hcaches.availableCredit] at hc
      rw [← unspentCredit_remarked h.keystore hmarks hc]
      rcases hmarks.shape with rfl | ⟨vfSpent, rfl⟩
      · refine cachedOr_eq fun n hn => ?_
        unfold unspentCredit
        rw [getCredit_congr h.keystore]
        exact hcaches.availableCredit n hn
      · rfl

theorem AgreeOn.trustedCredit_self :
    w'.trustedCredit ctx env wtx = w.trustedCredit ctx env wtx := by
  have hdebit : w'.cachedDebit ctx wtx = w.cachedDebit ctx wtx := by
    unfold CoinWallet.cachedDebit
    rw [h.getDebit, h.getDebit]
  unfold CoinWallet.trustedCredit GetAvailableCredit unspentCredit
  rw [h.isTrusted rfl hdebit, h.node, getCredit_congr h.keystore]

theorem AgreeOn.lostCredit_self (marks : ℕ → Bool) :
    w'.lostCredit ctx env marks wtx = w.lostCredit ctx env marks wtx := by
  have hdebit : w'.cachedDebit ctx wtx = w.cachedDebit ctx wtx := by
    unfold CoinWallet.cachedDebit
    rw [h.getDebit, h.getDebit]
  have hcnts : w'.Counts ctx env wtx ↔ w.Counts ctx env wtx := by
    unfold Counts
    rw [h.isTrusted rfl hdebit, h.node]
  unfold lostCredit
  rw [getCredit_congr h.keystore]
  simp only [hcnts]

theorem AgreeOn.cachesAgree (hcaches : w.CachesAgree ctx wtx) :
    w'.CachesAgree ctx wtx where
  debit n hn := by rw [h.getDebit, hcaches.debit n hn]
  watchDebit n hn := by rw [h.getDebit, hcaches.watchDebit n hn]
  availableCredit n hn := by
    unfold unspentCredit
    rw [getCredit_congr h.keystore]
    exact hcaches.availableCredit n hn

omit h

theorem isTrusted_of_unknown (hblock : wtx.hashBlock = 0 ∨ wtx.nIndex = -1)
    (hpool : w.node.chain.mempool.existsTx (ctx.hashTx wtx.tx) = false) :
    w.IsTrusted ctx env wtx = .ok false := by
  have hdepth : wtx.GetDepthInMainChain ctx env w.node = .ok (-1) := by
    unfold CMerkleTx.GetDepthInMainChain CMerkleTx.GetDepthInMainChainINTERNAL
    rw [if_pos hblock]
    change (if (0 : ℤ) = 0 ∧ _ then _ else _) = _
    rw [if_pos ⟨rfl, hpool⟩]
    rfl
  unfold IsTrusted
  rw [hdepth]
  split
  · rfl
  · rfl

/-! ## The balance of a wallet whose outputs are marked -/

theorem getBalance_eq_ok {b : ℤ} : w.GetBalance ctx env = .ok b ↔
    (∀ e ∈ w.mapWallet.entries, ∃ c, w.trustedCredit ctx env e.2 = .ok c) ∧
      b = wrap64 (w.mapWallet.entries.map fun e => amount (w.trustedCredit ctx env e.2)).sum := by
  unfold GetBalance
  induction w.mapWallet.entries using List.reverseRecOn generalizing b with
  | nil =>
    constructor
    · rintro ⟨⟩
      exact ⟨by simp, rfl⟩
    · rintro ⟨-, rfl⟩
      rfl
  | append_singleton l e ih =>
    have hsum : ((l ++ [e]).map fun e => amount (w.trustedCredit ctx env e.2)).sum
        = (l.map fun e => amount (w.trustedCredit ctx env e.2)).sum
          + amount (w.trustedCredit ctx env e.2) := by simp
    rw [List.foldlM_append, except_bind_eq_ok, hsum]
    constructor
    · rintro ⟨n, hn, hstep⟩
      obtain ⟨hall, rfl⟩ := ih.mp hn
      rw [List.foldlM_cons, except_bind_eq_ok] at hstep
      obtain ⟨m, hm, ⟨⟩⟩ := hstep
      obtain ⟨c, hc, ⟨⟩⟩ := bind_ok hm
      refine ⟨?_, by rw [wrap64_add_wrap64_left, amount_of_ok hc]⟩
      intro e' he'
      rcases List.mem_append.mp he' with he' | he'
      · exact hall e' he'
      · obtain rfl := List.mem_singleton.mp he'
        exact ⟨c, hc⟩
    · rintro ⟨hall, rfl⟩
      obtain ⟨c, hc⟩ := hall e (by simp)
      refine ⟨_, ih.mpr ⟨fun e' he' => hall e' (List.mem_append_left _ he'), rfl⟩, ?_⟩
      rw [List.foldlM_cons, except_bind_eq_ok]
      refine ⟨_, ok_bind hc rfl, ?_⟩
      rw [wrap64_add_wrap64_left, amount_of_ok hc]
      rfl

/-- Outputs of a wallet are marked. Its database and what it counts may change as well. -/
structure Marked (marks : UInt256 → ℕ → Bool) (w w' : CoinWallet) : Prop where
  rest : w' = { w with
    mapWallet := w'.mapWallet
    mapRequestCount := w'.mapRequestCount
    db := w'.db
    nWrites := w'.nWrites }
  known : ∀ hash wtx, w.mapWallet.lookup hash = some wtx →
    ∃ wtx', w'.mapWallet.lookup hash = some wtx' ∧ OwnedTx.Remarked (marks hash) wtx wtx'
  unknown : ∀ hash, w.mapWallet.lookup hash = none → w'.mapWallet.lookup hash = none

namespace Marked

variable {marks marks' : UInt256 → ℕ → Bool} {w'' : CoinWallet}

theorem refl (w : CoinWallet) : Marked (fun _ _ => false) w w where
  rest := rfl
  known _ wtx h := ⟨wtx, h, OwnedTx.Remarked.refl wtx⟩
  unknown _ h := h

theorem trans (h : Marked marks w w') (h' : Marked marks' w' w'') :
    Marked (fun hash i => marks hash i || marks' hash i) w w'' where
  rest := by
    rw [h'.rest, h.rest]
  known hash wtx hwtx := by
    obtain ⟨wtx', hwtx', hmarks⟩ := h.known hash wtx hwtx
    obtain ⟨wtx'', hwtx'', hmarks'⟩ := h'.known hash wtx' hwtx'
    exact ⟨wtx'', hwtx'', hmarks.trans hmarks'⟩
  unknown hash hnone := h'.unknown hash (h.unknown hash hnone)

theorem mem_iff (h : Marked marks w w') (hash : UInt256) :
    hash ∈ w'.mapWallet ↔ hash ∈ w.mapWallet := by
  rw [← AList.lookup_isSome, ← AList.lookup_isSome]
  rcases hwtx : w.mapWallet.lookup hash with _ | wtx
  · rw [h.unknown hash hwtx]
  · obtain ⟨wtx', hwtx', -⟩ := h.known hash wtx hwtx
    rw [hwtx']
    rfl

theorem agreeOn (h : Marked marks w w') (tx : CTransaction) : AgreeOn ctx w w' tx where
  node := by rw [h.rest]
  keystore := by
    have hkeys : w'.keys = w.keys ∧ w'.mapScripts = w.mapScripts ∧
        w'.setWatchOnly = w.setWatchOnly := by
      rw [h.rest]
      exact ⟨rfl, rfl, rfl⟩
    unfold keystore
    simp only [hkeys]
  outputs txin _ := by
    unfold outputsOf
    rcases hwtx : w.mapWallet.lookup txin.prevout.hash with _ | wtx
    · rw [h.unknown _ hwtx]
    · obtain ⟨wtx', hwtx', hmarks⟩ := h.known _ wtx hwtx
      rw [hwtx']
      exact congrArg (fun m : CWalletTx => some m.tx.vout) hmarks.toCWalletTx_eq

theorem getBalance {b : ℤ} (h : Marked marks w w')
    (hcaches : ∀ hash wtx, w.mapWallet.lookup hash = some wtx → w.CachesAgree ctx wtx)
    (hb : w.GetBalance ctx env = .ok b) :
    w'.GetBalance ctx env = .ok (wrap64 (b - w.lostBalance ctx env marks)) := by
  obtain ⟨hall, rfl⟩ := getBalance_eq_ok.mp hb
  have hent : ∀ hash wtx, w.mapWallet.lookup hash = some wtx →
      ∃ wtx' c, w'.mapWallet.lookup hash = some wtx' ∧ w.trustedCredit ctx env wtx = .ok c ∧
        w'.trustedCredit ctx env wtx' = .ok (c - w.lostCredit ctx env (marks hash) wtx) := by
    intro hash wtx hwtx
    obtain ⟨wtx', hwtx', hmarks⟩ := h.known hash wtx hwtx
    obtain ⟨c, hc⟩ := hall ⟨hash, wtx⟩ (AList.mem_lookup_iff.mp hwtx)
    exact ⟨wtx', c, hwtx', hc, (h.agreeOn wtx.tx).trustedCredit hmarks (hcaches hash wtx hwtx) hc⟩
  refine getBalance_eq_ok.mpr ⟨?_, ?_⟩
  · intro e he
    have hlook : w'.mapWallet.lookup e.1 = some e.2 := AList.mem_lookup_iff.mpr he
    rcases hwtx : w.mapWallet.lookup e.1 with _ | wtx
    · exact absurd ((h.unknown _ hwtx).symm.trans hlook) (by simp)
    · obtain ⟨wtx', c, hwtx', -, hc⟩ := hent _ wtx hwtx
      obtain rfl := Option.mem_unique hwtx' hlook
      exact ⟨_, hc⟩
  · have hkeys : w'.mapWallet.keys.toFinset = w.mapWallet.keys.toFinset := by
      ext hash
      rw [List.mem_toFinset, List.mem_toFinset]
      exact h.mem_iff hash
    unfold lostBalance
    rw [wrap64_sub_wrap64_left,
      sum_entries w.mapWallet fun hash wtx => w.lostCredit ctx env (marks hash) wtx,
      sum_entries w.mapWallet fun _ wtx => amount (w.trustedCredit ctx env wtx),
      sum_entries w'.mapWallet fun _ wtx => amount (w'.trustedCredit ctx env wtx), hkeys,
      ← Finset.sum_sub_distrib]
    refine congrArg wrap64 (Finset.sum_congr rfl fun hash _ => ?_)
    rcases hwtx : w.mapWallet.lookup hash with _ | wtx
    · rw [h.unknown hash hwtx]
      rfl
    · obtain ⟨wtx', c, hwtx', hc, hc'⟩ := hent hash wtx hwtx
      rw [hwtx']
      change amount (w.trustedCredit ctx env wtx) - _ = amount (w'.trustedCredit ctx env wtx')
      rw [amount_of_ok hc, amount_of_ok hc']
      rfl

end Marked

/-- A wallet has a transaction more than another one, which it does not trust and which none of the
others spends from. -/
structure HasMore (ctx : WalletContext) (env : WalletEnv) (hash : UInt256) (w w' : CoinWallet) : Prop where
  node : w'.node = w.node
  keystore : w'.keystore ctx = w.keystore ctx
  isNew : w.mapWallet.lookup hash = none
  added : ∃ wtx, w'.mapWallet = w.mapWallet.insert hash wtx ∧ w'.IsTrusted ctx env wtx = .ok false
  unspent : ∀ hash' wtx, w.mapWallet.lookup hash' = some wtx → ∀ txin ∈ wtx.tx.vin,
    txin.prevout.hash ≠ hash

namespace HasMore

variable {hash : UInt256}

theorem agreeOn (h : HasMore ctx env hash w w') {hash' : UInt256}
    (hwtx : w.mapWallet.lookup hash' = some wtx) : AgreeOn ctx w w' wtx.tx where
  node := h.node
  keystore := h.keystore
  outputs txin htxin := by
    obtain ⟨wtx₀, hadded, -⟩ := h.added
    unfold outputsOf
    rw [hadded, AList.lookup_insert_ne (h.unspent hash' wtx hwtx txin htxin)]

theorem getBalance {b : ℤ} (h : HasMore ctx env hash w w') (hb : w.GetBalance ctx env = .ok b) :
    w'.GetBalance ctx env = .ok b ∧
      ∀ marks, w'.lostBalance ctx env marks = w.lostBalance ctx env marks := by
  obtain ⟨wtx₀, hadded, huntrusted⟩ := h.added
  have hents : w'.mapWallet.entries = ⟨hash, wtx₀⟩ :: w.mapWallet.entries := by
    rw [hadded]
    exact AList.entries_insert_of_notMem (AList.lookup_eq_none.mp h.isNew)
  have hagree : ∀ e ∈ w.mapWallet.entries, AgreeOn ctx w w' e.2.tx := fun e he =>
    h.agreeOn (AList.mem_lookup_iff.mpr he)
  have hcred : w'.trustedCredit ctx env wtx₀ = .ok 0 := ok_bind huntrusted rfl
  have huncounted : ¬w'.Counts ctx env wtx₀ := fun hcnts =>
    Bool.false_ne_true (Except.ok.inj (huntrusted.symm.trans hcnts.1))
  constructor
  · obtain ⟨hall, rfl⟩ := getBalance_eq_ok.mp hb
    refine getBalance_eq_ok.mpr ⟨?_, ?_⟩
    · rw [hents, List.forall_mem_cons]
      refine ⟨⟨0, hcred⟩, fun e he => ?_⟩
      obtain ⟨c, hc⟩ := hall e he
      exact ⟨c, by rw [(hagree e he).trustedCredit_self, hc]⟩
    · rw [hents, List.map_cons, List.sum_cons, amount_of_ok hcred, zero_add]
      refine congrArg wrap64 (congrArg List.sum (List.map_congr_left fun e he => ?_))
      rw [(hagree e he).trustedCredit_self]
  · intro marks
    unfold lostBalance
    have hzero : w'.lostCredit ctx env (marks hash) wtx₀ = 0 := if_neg huncounted
    rw [hents, List.map_cons, List.sum_cons, hzero, zero_add]
    refine congrArg List.sum (List.map_congr_left fun e he => ?_)
    exact (hagree e he).lostCredit_self (marks e.1)

end HasMore

end CoinWallet

end ZalemCoin.Wallet
