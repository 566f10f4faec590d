import ZalemCoin.Wallet.CreateTransaction

/-!
# Payments with a narration

A payment can carry a text. `CreateTransaction` appends an output with the text behind the output of the
recipient, and the receiver takes each text to belong to the output before it. But an output without an
amount has to have one of the standard scripts, and the script with the text has none of them: no payment
with a text is ever created.
-/

namespace ZalemCoin.Wallet

open Chain Lib Script

/-- The script of an output that carries a text. -/
def narrationScript (sNarr : List UInt8) : CScript :=
  OP_RETURN :: pushData [0x6e, 0x70] ++ OP_RETURN :: pushData sNarr

def sendPayment (scriptPubKey : CScript) (nValue : ℤ) (sNarr : List UInt8)
    (coinControl : Option CCoinControl) : Payment where
  vecSend := (scriptPubKey, nValue) :: if 0 < sNarr.length then [(narrationScript sNarr, 0)] else []
  coinControl := coinControl
  coin_type := .ALL_COINS
  useIX := false

def CoinWallet.CreateTransactionTo {Key : Type} (ctx : SpendContext Key) (env : WalletEnv)
    (w : CoinWallet) (scriptPubKey : CScript) (nValue : ℤ) (sNarr : List UInt8)
    (coinControl : Option CCoinControl) (fuel nSupport : ℕ) (draws : ℕ → Draws) (wtxNew : OwnedTx)
    (reservekey : CReserveKey) (nFeeRet : ℤ) : Option (Except Failure (Bool × Creation)) :=
  (w.CreateTransaction ctx env (sendPayment scriptPubKey nValue sNarr coinControl) fuel nSupport draws
    wtxNew reservekey nFeeRet).map fun r => r.map fun rs => (rs.1.isOk, rs.2)

/-- The text stands behind the output of the recipient, and the receiver attaches it to this output and
to no other. -/
def NarrationFollows (scriptPubKey : CScript) (nValue : ℤ) (sNarr : List UInt8) (tx : CTransaction) :
    Prop :=
  ∃ i : ℕ, tx.vout[i]? = some ⟨nValue, scriptPubKey⟩ ∧
    tx.vout[i + 1]? = some ⟨0, narrationScript sNarr⟩ ∧ mapNarr tx = [("n_" ++ toString (i : ℤ), sNarr)]

theorem solver_narrationScript (sNarr : List UInt8) : Solver (narrationScript sNarr) = none := by
  have hscan (rest : CScript) :
      scanTemplates (OP_RETURN :: 2 :: 0x6e :: 0x70 :: OP_RETURN :: rest) mTemplates = none := by rfl
  have hp2sh : ¬(narrationScript sNarr).IsPayToScriptHash = true := by
    have hfst : OP_RETURN ≠ OP_HASH160 := by decide
    unfold CScript.IsPayToScriptHash
    simp [narrationScript, hfst]
  unfold Solver
  rw [if_neg hp2sh]
  exact hscan (pushData sNarr)

theorem payeeOutput_narrationScript (sNarr : List UInt8) :
    payeeOutput (narrationScript sNarr, 0) = .error "Invalid scriptPubKey" := by
  have href : isOpReturn ⟨0, narrationScript sNarr⟩ = .error "Invalid scriptPubKey" := by
    unfold isOpReturn
    rw [if_pos (.inr ⟨rfl, rfl⟩), solver_narrationScript]
  unfold payeeOutput
  dsimp only
  rw [href]
  rfl

theorem payeeOutputs_ne_ok {vecSend : List (CScript × ℤ)} {s : CScript × ℤ} {strFailReason : String}
    (hmem : s ∈ vecSend) (hs : payeeOutput s = .error strFailReason) :
    (payeeOutputs vecSend).2 ≠ .ok () := by
  induction vecSend with
  | nil => exact absurd hmem List.not_mem_nil
  | cons s' vecSend ih =>
    rw [payeeOutputs]
    rcases List.mem_cons.mp hmem with rfl | hmem
    · rw [hs]
      intro hok
      cases hok
    · cases payeeOutput s' with
      | error strFailReason' =>
        intro hok
        cases hok
      | ok txout => exact ih hmem

/-- No payment with a text is created: the first attempt refuses the output with the text. -/
theorem narration_never_follows {Key : Type} (ctx : SpendContext Key) (env : WalletEnv) (w : CoinWallet)
    (scriptPubKey : CScript) (nValue : ℤ) {sNarr : List UInt8} (hnarr : sNarr ≠ [])
    (coinControl : Option CCoinControl) (fuel nSupport : ℕ) (draws : ℕ → Draws) (wtxNew : OwnedTx)
    (reservekey : CReserveKey) (nFeeRet : ℤ) :
    (∃ s, w.CreateTransactionTo ctx env scriptPubKey nValue sNarr coinControl (fuel + 1) nSupport draws
      wtxNew reservekey nFeeRet = some (.ok (false, s))) ∧
    ¬∃ s, w.CreateTransactionTo ctx env scriptPubKey nValue sNarr coinControl (fuel + 1) nSupport draws
      wtxNew reservekey nFeeRet = some (.ok (true, s)) ∧
        NarrationFollows scriptPubKey nValue sNarr s.wtxNew.tx := by
  set p := sendPayment scriptPubKey nValue sNarr coinControl with hp
  have hmem : (narrationScript sNarr, (0 : ℤ)) ∈ p.vecSend := by
    rw [hp]
    unfold sendPayment
    rw [if_pos (List.length_pos_iff.mpr hnarr)]
    exact List.mem_cons_of_mem _ (List.mem_singleton_self _)
  obtain ⟨strFailReason, hreason⟩ : ∃ strFailReason, (payeeOutputs p.vecSend).2 = .error strFailReason := by
    cases hpaid : (payeeOutputs p.vecSend).2 with
    | error strFailReason => exact ⟨strFailReason, rfl⟩
    | ok u => exact absurd hpaid (payeeOutputs_ne_ok hmem (payeeOutput_narrationScript sNarr))
  have hfails : ∃ s, w.CreateTransactionTo ctx env scriptPubKey nValue sNarr coinControl (fuel + 1)
      nSupport draws wtxNew reservekey nFeeRet = some (.ok (false, s)) := by
    unfold CoinWallet.CreateTransactionTo CoinWallet.CreateTransaction
    rw [← hp]
    cases sumAmounts p.vecSend 0 with
    | none => exact ⟨_, rfl⟩
    | some total =>
      dsimp only
      split_ifs
      · exact ⟨_, rfl⟩
      · -- The first attempt ends at the recipients.
        set s₀ := CoinWallet.startCreation ctx w p wtxNew reservekey
        obtain ⟨s, hs⟩ : ∃ s, w.draftTransaction ctx env p total (draws 0) s₀
            = .ok (.error strFailReason, s) := by
          unfold CoinWallet.draftTransaction
          dsimp only
          rw [hreason]
          exact ⟨_, rfl⟩
        have hlast : w.attemptTransaction ctx env p total (draws 0) s₀
            = .done (.ok (.error strFailReason, s)) := by
          unfold CoinWallet.attemptTransaction
          rw [hs]
        rw [attempts_done hlast]
        exact ⟨s, rfl⟩
  refine ⟨hfails, ?_⟩
  rintro ⟨s, hs, -⟩
  obtain ⟨s', hs'⟩ := hfails
  rw [hs'] at hs
  exact Bool.false_ne_true (Prod.mk.inj (Except.ok.inj (Option.some.inj hs))).1

def shortNarration : List UInt8 := [0x68, 0x69]

def copiedSend (sNarr : List UInt8) : Option (Except Failure (Bool × Creation)) :=
  copiedWallet.CreateTransactionTo copiedSpending copiedEnv plainScript (20 * COIN) sNarr
    (some ⟨some (.keyID 7), []⟩) 1 3 plainDraws (OwnedTx.Init copiedEnv) CReserveKey.empty 0

/-- With this text it is refused. -/
theorem copiedSend_refused : ∃ s, copiedSend shortNarration = some (.ok (false, s)) :=
  (narration_never_follows copiedSpending copiedEnv copiedWallet plainScript (20 * COIN)
    (show shortNarration ≠ [] by decide) (some ⟨some (.keyID 7), []⟩) 0 3 plainDraws
    (OwnedTx.Init copiedEnv) CReserveKey.empty 0).1

def sent : Option (Except Failure (Bool × Creation)) → Option Bool
  | some (.ok (b, _)) => some b
  | _ => none

theorem sent_eq_some {r : Option (Except Failure (Bool × Creation))} {b : Bool} (h : sent r = some b) :
    ∃ s, r = some (.ok (b, s)) := by
  unfold sent at h
  split at h
  · cases h
    exact ⟨_, rfl⟩
  · exact nomatch h

/-- The wallet can make the payment without the text, and there is no transaction for it in which the text
follows the output of the recipient. -/
theorem copiedSend_narration :
    (∃ s, copiedSend [] = some (.ok (true, s))) ∧
    ¬∃ s, copiedSend shortNarration = some (.ok (true, s)) ∧
      NarrationFollows plainScript (20 * COIN) shortNarration s.wtxNew.tx := by
  obtain ⟨s, hs⟩ : ∃ s, copiedSend shortNarration = some (.ok (false, s)) :=
    sent_eq_some (by decide +kernel)
  refine ⟨sent_eq_some (by decide +kernel), ?_⟩
  rintro ⟨s', hs', -⟩
  rw [hs] at hs'
  exact Bool.false_ne_true (Prod.mk.inj (Except.ok.inj (Option.some.inj hs'))).1

end ZalemCoin.Wallet
