import ZalemCoin.Chain.BlockSums
import ZalemCoin.Chain.ConnectSpec
import ZalemCoin.Chain.PlainContext

/-!
# The payments that a block must make

`CheckBlock` looks for a payment to the masternode that has won the height, but takes the amount
that it looks for from the last output of the block under test. For a payment to the developers it
looks on the test network only, where it has no address to look for; on the main network a block is
accepted exactly when it passes all other checks. So the payment can be taken out of any accepted
block: without it the block is smaller and passes the other checks as before.
-/

namespace ZalemCoin.Chain

open Lib

/-- What a transaction pays out beyond what it spends: the reward of a coinbase or a coinstake. -/
def CTransaction.earned (ctx : Context) (L : Ledger UInt256 CDiskTxPos) (tx : CTransaction) : ℤ :=
  tx.valueOut - tx.spentValue ctx L

def CTransaction.Pays (tx : CTransaction) (payee : CScript) (amount : ℤ) : Prop :=
  ∃ txout ∈ tx.vout, txout.scriptPubKey = payee ∧ amount ≤ txout.nValue

instance (tx : CTransaction) (payee : CScript) (amount : ℤ) : Decidable (tx.Pays payee amount) :=
  inferInstanceAs (Decidable (∃ txout ∈ tx.vout, _))

/-! ## The payment to a masternode -/

/-- A payment to a masternode is due: the block is proof-of-stake and extends the best block, the
initial download is over, payments have started, and the votes agree on a payee. -/
structure FloatingcityDue (ctx : Context) (env : Env) (s : NodeState) (block : CBlock)
    (payee : CScript) : Prop where
  stake : block.IsProofOfStake = true
  downloaded : ¬IsInitialBlockDownload ctx env s
  started : block.GetBlockTime > START_FLOATINGCITY_PAYMENTS
  elected : ∃ best, extendedBest s block = some best ∧
    env.blockPayee (best.nHeight + 1) = some payee

/-- The amount that the check takes from the block under test. -/
def lastAmount (coinstake : CTransaction) : Option ℤ := coinstake.vout.getLast?.map CTxOut.nValue

/-- The block makes the payment that is due: the amount that the check takes from the last output
suffices, or an output that the check does not look at pays the payee enough. -/
def PaymentSuffices (coinstake : CTransaction) (payee : CScript) (amount : ℤ) : Prop :=
  (payee ≠ [] ∧ ∃ last, lastAmount coinstake = some last ∧ amount ≤ last) ∨
    ∃ txout ∈ coinstake.vout, txout.scriptPubKey = payee ∧ amount ≤ txout.nValue ∧
      (payee = [] ∨ lastAmount coinstake ≠ some txout.nValue)

section

variable {ctx : Context} {env : Env} {s s' : NodeState} {block : CBlock}
  {fCheckPOW fCheckMerkleRoot fCheckSig : Bool} {payee : CScript} {coinstake : CTransaction}

theorem exists_coinstake (h : block.IsProofOfStake = true) :
    ∃ coinbase coinstake rest, block.vtx = coinbase :: coinstake :: rest := by
  unfold CBlock.IsProofOfStake at h
  rcases hvtx : block.vtx with _ | ⟨coinbase, _ | ⟨coinstake, rest⟩⟩
  · rw [hvtx] at h
    cases h
  · rw [hvtx] at h
    cases h
  · exact ⟨coinbase, coinstake, rest, rfl⟩

theorem checkFloatingcityPayment_eq_ok (hdue : FloatingcityDue ctx env s block payee)
    (hcs : block.vtx[1]? = some coinstake) (hpayee : payee ≠ [])
    (h : checkFloatingcityPayment ctx env s block = .ok ()) :
    ∃ txout ∈ coinstake.vout, some txout.nValue = lastAmount coinstake ∧
      txout.scriptPubKey = payee := by
  obtain ⟨best, hbest, helected⟩ := hdue.elected
  obtain ⟨coinbase, coinstake', rest, hvtx⟩ := exists_coinstake hdue.stake
  have hsame : coinstake' = coinstake := by
    rw [hvtx] at hcs
    exact Option.some.inj hcs
  subst hsame
  unfold checkFloatingcityPayment at h
  rw [if_pos ⟨hdue.downloaded, hdue.started, hdue.stake⟩, hbest, hvtx] at h
  dsimp only at h
  rw [helected] at h
  cases payee with
  | nil => exact absurd rfl hpayee
  | cons byte script => exact ensure_eq_ok.mp h

end

/-! ## The payment to the developers -/

/-- A payment to the developers is due: the block extends the best block, the initial download is
over, and payments have started. -/
structure DevOpsDue (ctx : Context) (env : Env) (s : NodeState) (block : CBlock) : Prop where
  downloaded : ¬IsInitialBlockDownload ctx env s
  started : env.time > START_DEVOPS_PAYMENTS
  extending : (extendedBest s block).isSome = true

def CBlock.rewardTx (block : CBlock) : Option CTransaction :=
  if block.IsProofOfStake then block.vtx[1]? else block.vtx[0]?

def PaysDevOps (ctx : Context) (s : NodeState) (block : CBlock) : Prop :=
  ∃ tx ∈ block.rewardTx, tx.Pays ctx.devopsScript (GetDevOpsPayment (tx.earned ctx s.txdb.txIndex))

structure OtherChecks (ctx : Context) (env : Env) (s : NodeState) (block : CBlock)
    (fCheckPOW fCheckMerkleRoot fCheckSig : Bool) : Prop where
  form : checkForm ctx env s block fCheckPOW = .ok ()
  signature : ¬(fCheckSig ∧ ¬ctx.checkBlockSignature block)
  locks : checkLocks ctx env s block = .ok ()
  payment : checkFloatingcityPayment ctx env s block = .ok ()
  transactions : checkTransactions ctx s block fCheckMerkleRoot = .ok ()

/-- The output, or one of the same value without a script when it pays the script. -/
def CTxOut.withoutPayee (script : CScript) (txout : CTxOut) : CTxOut :=
  if txout.scriptPubKey = script then { txout with scriptPubKey := [] } else txout

def CTransaction.withoutPayee (script : CScript) (tx : CTransaction) : CTransaction :=
  { tx with vout := tx.vout.map (CTxOut.withoutPayee script) }

/-- The block without its payments to the developers, as its producer seals it. -/
def CBlock.withoutDevOps (ctx : Context) (block : CBlock) (nNonce : UInt32)
    (vchBlockSig : List UInt8) : CBlock :=
  let vtx := block.vtx.modify (if block.IsProofOfStake then 1 else 0)
    (CTransaction.withoutPayee ctx.devopsScript)
  { block with
    hashMerkleRoot := BuildMerkleTree ctx { block with vtx := vtx }
    nNonce := nNonce
    vtx := vtx
    vchBlockSig := vchBlockSig }

/-- What the producer of a block sees to: its work or its signature, and ids that differ. -/
structure Sealed (ctx : Context) (block : CBlock) (fCheckPOW fCheckSig : Bool) : Prop where
  work : ¬(fCheckPOW ∧ block.IsProofOfWork ∧
    ¬CheckProofOfWork ctx (ctx.GetHash block) block.nBits)
  signature : ¬(fCheckSig ∧ ¬ctx.checkBlockSignature block)
  ids : (block.vtx.map ctx.hashTx).Nodup

section

variable (script : CScript) (tx : CTransaction)

@[simp]
theorem nValue_withoutPayee (txout : CTxOut) : (txout.withoutPayee script).nValue = txout.nValue := by
  unfold CTxOut.withoutPayee
  split <;> rfl

theorem not_pays_withoutPayee {script : CScript} (h : script ≠ []) (amount : ℤ) :
    ¬(tx.withoutPayee script).Pays script amount := by
  rintro ⟨txout, hmem, hscr, -⟩
  obtain ⟨before, -, rfl⟩ := List.mem_map.mp hmem
  unfold CTxOut.withoutPayee at hscr
  split at hscr
  · exact h hscr.symm
  · rename_i hother
    exact hother hscr

@[simp]
theorem isCoinBase_withoutPayee : (tx.withoutPayee script).IsCoinBase = tx.IsCoinBase := by
  unfold CTransaction.withoutPayee CTransaction.IsCoinBase
  rw [List.length_map]

theorem isCoinStake_withoutPayee {tx : CTransaction} (h : tx.IsCoinStake = true) :
    (tx.withoutPayee script).IsCoinStake = true := by
  unfold CTransaction.IsCoinStake at h ⊢
  unfold CTransaction.withoutPayee
  split at h
  · rename_i txin vin first second vout hvin hvout
    rw [Bool.and_eq_true] at h
    rw [hvin, hvout]
    -- The first output is empty before and after.
    refine Bool.and_eq_true_iff.mpr ⟨h.1, ?_⟩
    unfold CTxOut.IsEmpty at h ⊢
    unfold CTxOut.withoutPayee
    split
    · exact Bool.and_eq_true_iff.mpr ⟨(Bool.and_eq_true_iff.mp h.2).1, rfl⟩
    · exact h.2
  · cases h

theorem size_withoutPayee : (tx.withoutPayee script).GetSerializeSize ≤ tx.GetSerializeSize := by
  have hsum : ((tx.withoutPayee script).vout.map CTxOut.GetSerializeSize).sum
      ≤ (tx.vout.map CTxOut.GetSerializeSize).sum := by
    unfold CTransaction.withoutPayee
    rw [List.map_map]
    refine List.sum_le_sum fun txout _ => ?_
    unfold Function.comp CTxOut.withoutPayee
    split
    · unfold CTxOut.GetSerializeSize bytesSize
      have : 1 ≤ GetSizeOfCompactSize txout.scriptPubKey.length := by
        unfold GetSizeOfCompactSize
        split_ifs <;> omega
      rw [show GetSizeOfCompactSize ([] : CScript).length = 1 from rfl, List.length_nil]
      omega
    · exact le_rfl
  have hlen : (tx.withoutPayee script).vout.length = tx.vout.length := List.length_map _
  unfold CTransaction.GetSerializeSize
  rw [hlen, show (tx.withoutPayee script).vin = tx.vin from rfl]
  omega

theorem sigOps_withoutPayee : GetLegacySigOpCount (tx.withoutPayee script) ≤ GetLegacySigOpCount tx := by
  unfold CTransaction.withoutPayee GetLegacySigOpCount
  rw [List.map_map]
  refine Nat.add_le_add_left (List.sum_le_sum fun txout _ => ?_) _
  unfold Function.comp CTxOut.withoutPayee
  split
  · exact Nat.zero_le _
  · exact le_rfl

/-- A reward transaction passes its check without the payments, since its outputs may be empty. -/
theorem checkTransaction_withoutPayee {tx : CTransaction} {MAX_BLOCK_SIZE : ℕ}
    (hrew : tx.IsCoinBase = true ∨ tx.IsCoinStake = true)
    (h : CheckTransaction MAX_BLOCK_SIZE tx = .ok ()) :
    CheckTransaction MAX_BLOCK_SIZE (tx.withoutPayee script) = .ok () := by
  have hrew' : (tx.withoutPayee script).IsCoinBase = true ∨
      (tx.withoutPayee script).IsCoinStake = true :=
    hrew.imp (isCoinBase_withoutPayee script tx).trans (isCoinStake_withoutPayee script)
  have hout : ∀ n txout n', checkOutput tx n txout = .ok n' →
      checkOutput (tx.withoutPayee script) n (txout.withoutPayee script) = .ok n' := by
    intro n txout n' hchk
    unfold checkOutput at hchk ⊢
    obtain ⟨⟨⟩, -, hchk⟩ := bind_ok hchk
    refine ensure_bind (by tauto) ?_
    rw [nValue_withoutPayee]
    exact hchk
  unfold CheckTransaction at h ⊢
  obtain ⟨⟨⟩, hvin, h⟩ := bind_ok h
  obtain ⟨hvout, h⟩ := ensure_ok h
  obtain ⟨hsize, h⟩ := ensure_ok h
  obtain ⟨nValueOut, houtputs, h⟩ := bind_ok h
  refine ok_bind hvin (ensure_bind ?_ (ensure_bind ((size_withoutPayee script tx).trans hsize)
    (except_bind_eq_ok.mpr ⟨nValueOut, ?_, ?_⟩)))
  · exact fun hnil => hvout (List.map_eq_nil_iff.mp hnil)
  · change (tx.vout.map (CTxOut.withoutPayee script)).foldlM
      (checkOutput (tx.withoutPayee script)) 0 = .ok nValueOut
    rw [List.foldlM_map]
    generalize (0 : ℤ) = n at houtputs ⊢
    generalize tx.vout = vout at houtputs ⊢
    induction vout generalizing n with
    | nil => exact houtputs
    | cons txout vout ih =>
      rw [List.foldlM_cons] at houtputs ⊢
      obtain ⟨n', hfst, hrest⟩ := bind_ok houtputs
      exact ok_bind (hout n txout n' hfst) (ih n' hrest)
  · rw [isCoinBase_withoutPayee]
    exact h

end

section

variable {ctx : Context} {env : Env} {s : NodeState} {block : CBlock}
  {fCheckPOW fCheckMerkleRoot fCheckSig : Bool}

theorem checkDevops_of_ne_testnet (h : ctx.network ≠ .testnet) :
    checkDevops ctx env s block = .ok () := by
  exact if_neg fun hall => h hall.2.2.2

theorem checkBlock_main_iff (hmain : ctx.network = .main) :
    (∃ s', CheckBlock ctx env block fCheckPOW fCheckMerkleRoot fCheckSig s = (.ok (), s')) ↔
      OtherChecks ctx env s block fCheckPOW fCheckMerkleRoot fCheckSig := by
  constructor
  · rintro ⟨s', h⟩
    obtain ⟨hform, -, hsig, hlocks, hpayment, htxs⟩ := (checkBlock_eq_ok h).1
    exact ⟨hform, hsig, hlocks, hpayment, htxs⟩
  · rintro ⟨hform, hsig, hlocks, hpayment, htxs⟩
    have hdevops : checkDevops ctx env s block = .ok () :=
      checkDevops_of_ne_testnet (by rw [hmain]; decide)
    exact checkBlock_of_checked ⟨hform, hdevops, hsig, hlocks, hpayment, htxs⟩

/-- The reward transaction of a block, and the block around it. -/
theorem withoutDevOps_vtx (hne : block.vtx ≠ []) : ∃ before tx after, block.vtx = before ++ tx :: after
    ∧ block.rewardTx = some tx
    ∧ (∀ nNonce vchBlockSig, (block.withoutDevOps ctx nNonce vchBlockSig).vtx
      = before ++ tx.withoutPayee ctx.devopsScript :: after)
    ∧ ((block.IsProofOfStake = true ∧ tx.IsCoinStake = true ∧ ∃ coinbase, before = [coinbase])
      ∨ block.IsProofOfStake = false ∧ before = []) := by
  unfold CBlock.rewardTx CBlock.withoutDevOps
  by_cases hstake : block.IsProofOfStake = true
  · obtain ⟨coinbase, coinstake, rest, hvtx⟩ := exists_coinstake hstake
    rw [if_pos hstake, if_pos hstake, hvtx]
    have hcs := hstake
    unfold CBlock.IsProofOfStake at hcs
    rw [hvtx] at hcs
    exact ⟨[coinbase], coinstake, rest, rfl, rfl, fun _ _ => rfl, .inl ⟨hstake, hcs, coinbase, rfl⟩⟩
  · obtain ⟨coinbase, rest, hvtx⟩ := List.exists_cons_of_ne_nil hne
    rw [if_neg hstake, if_neg hstake, hvtx]
    exact ⟨[], coinbase, rest, rfl, rfl, fun _ _ => rfl,
      .inr ⟨Bool.eq_false_of_not_eq_true hstake, rfl⟩⟩

variable {nNonce : UInt32} {vchBlockSig : List UInt8}

theorem isProofOfStake_withoutDevOps (hne : block.vtx ≠ []) :
    (block.withoutDevOps ctx nNonce vchBlockSig).IsProofOfStake = block.IsProofOfStake := by
  obtain ⟨before, tx, after, hvtx, -, hvtx', hcase⟩ := @withoutDevOps_vtx ctx block hne
  rcases hcase with ⟨hstake, hcs, coinbase, rfl⟩ | ⟨-, rfl⟩
  · rw [hstake]
    unfold CBlock.IsProofOfStake
    rw [hvtx']
    exact isCoinStake_withoutPayee _ hcs
  · unfold CBlock.IsProofOfStake
    rw [hvtx', hvtx]
    cases after <;> rfl

theorem not_paysDevOps_withoutDevOps (hne : block.vtx ≠ []) (hscr : ctx.devopsScript ≠ []) :
    ¬PaysDevOps ctx s (block.withoutDevOps ctx nNonce vchBlockSig) := by
  obtain ⟨before, tx, after, hvtx, hrew, hvtx', hcase⟩ := @withoutDevOps_vtx ctx block hne
  have hrew' : (block.withoutDevOps ctx nNonce vchBlockSig).rewardTx
      = some (tx.withoutPayee ctx.devopsScript) := by
    unfold CBlock.rewardTx
    rw [isProofOfStake_withoutDevOps hne, hvtx']
    rcases hcase with ⟨hstake, -, coinbase, rfl⟩ | ⟨hwork, rfl⟩
    · rw [hstake]
      rfl
    · rw [hwork]
      rfl
  rintro ⟨tx', hmem, hpays⟩
  obtain rfl := Option.some.inj (hrew'.symm.trans hmem)
  exact not_pays_withoutPayee tx hscr _ hpays

/-- Without the payment, the block passes the same checks of its form. -/
theorem checkForm_withoutDevOps (hne : block.vtx ≠ [])
    (hlen : vchBlockSig.length ≤ block.vchBlockSig.length)
    (hsealed : Sealed ctx (block.withoutDevOps ctx nNonce vchBlockSig) fCheckPOW fCheckSig)
    (h : checkForm ctx env s block fCheckPOW = .ok ()) :
    checkForm ctx env s (block.withoutDevOps ctx nNonce vchBlockSig) fCheckPOW = .ok () := by
  have hshape := checkForm_eq_ok h
  have hstake := @isProofOfStake_withoutDevOps ctx block nNonce vchBlockSig hne
  obtain ⟨before, tx, after, hvtx, -, hvtx', hcase⟩ := @withoutDevOps_vtx ctx block hne
  have hvtx' := hvtx' nNonce vchBlockSig
  have hsize : (block.withoutDevOps ctx nNonce vchBlockSig).GetSerializeSize
      ≤ block.GetSerializeSize := by
    have htx := size_withoutPayee ctx.devopsScript tx
    have hsig : bytesSize vchBlockSig ≤ bytesSize block.vchBlockSig := by
      unfold bytesSize GetSizeOfCompactSize
      split_ifs <;> omega
    unfold CBlock.GetSerializeSize
    rw [hvtx', hvtx]
    simp only [List.length_append, List.length_cons, List.map_append, List.map_cons,
      List.sum_append, List.sum_cons]
    change _ + bytesSize vchBlockSig ≤ _
    omega
  unfold checkForm at h ⊢
  obtain ⟨hsizes, h⟩ := ensure_ok h
  obtain ⟨⟨⟩, -, h⟩ := bind_ok h
  obtain ⟨⟨⟩, htime, h⟩ := bind_ok h
  refine ensure_bind ⟨?_, ?_, hsize.trans hsizes.2.2⟩ (ensure_bind hsealed.work (ok_bind htime
    (ensure_bind ?_ (ensure_bind ?_ ?_))))
  · rw [hvtx']
    exact List.append_ne_nil_of_right_ne_nil _ (List.cons_ne_nil _ _)
  · have := hsizes.2.1
    rw [hvtx, List.length_append, List.length_cons] at this
    rwa [hvtx', List.length_append, List.length_cons]
  all_goals rw [hvtx']
  all_goals obtain ⟨hcb, hothers, hemp, hone⟩ := hshape
  all_goals rw [hvtx] at hcb hothers hemp hone
  all_goals rcases hcase with ⟨hpos, -, coinbase, rfl⟩ | ⟨hwork, rfl⟩
  · exact hcb
  · rintro _ ⟨⟩
    rw [isCoinBase_withoutPayee]
    exact hcb tx rfl
  · rintro tx' hmem
    rcases List.mem_cons.mp hmem with rfl | hmem
    · rw [isCoinBase_withoutPayee]
      exact hothers tx List.mem_cons_self
    · exact hothers tx' (List.mem_cons_of_mem _ hmem)
  · exact hothers
  · rw [hstake, if_pos hpos]
    exact ensure_bind (hemp hpos) (ensure_eq_ok.mpr (hone hpos))
  · rw [hstake, hwork]
    rfl

theorem checkLocks_withoutDevOps (hne : block.vtx ≠ [])
    (hunl : ∀ tx ∈ block.rewardTx, ∀ txin ∈ tx.vin, s.mapLockedInputs txin.prevout = none)
    (h : checkLocks ctx env s block = .ok ()) :
    checkLocks ctx env s (block.withoutDevOps ctx nNonce vchBlockSig) = .ok () := by
  obtain ⟨before, tx, after, hvtx, hrew, hvtx', -⟩ := @withoutDevOps_vtx ctx block hne
  unfold checkLocks at h ⊢
  split
  · rename_i hfilter
    rw [if_pos hfilter, ensure_eq_ok, hvtx, List.forall_mem_append, List.forall_mem_cons] at h
    rw [ensure_eq_ok, hvtx', List.forall_mem_append, List.forall_mem_cons]
    refine ⟨h.1, fun _ txin hmem => ?_, h.2.2⟩
    unfold lockedForOther
    rw [hunl tx hrew txin hmem]
  · rfl

/-- Another payee than the developers is paid as before, and the last amount is the same. -/
theorem checkFloatingcityPayment_withoutDevOps (hne : block.vtx ≠ [])
    (hpayee : ∀ best ∈ extendedBest s block,
      env.blockPayee (best.nHeight + 1) ≠ some ctx.devopsScript)
    (h : checkFloatingcityPayment ctx env s block = .ok ()) :
    checkFloatingcityPayment ctx env s (block.withoutDevOps ctx nNonce vchBlockSig) = .ok () := by
  obtain ⟨before, tx, after, hvtx, -, hvtx', hcase⟩ := @withoutDevOps_vtx ctx block hne
  unfold checkFloatingcityPayment at h ⊢
  rw [isProofOfStake_withoutDevOps hne]
  rcases hcase with ⟨hstake, -, coinbase, rfl⟩ | ⟨hwork, -⟩
  · rw [hvtx] at h
    rw [hvtx']
    rw [show extendedBest s (block.withoutDevOps ctx nNonce vchBlockSig) = extendedBest s block from rfl,
      show (block.withoutDevOps ctx nNonce vchBlockSig).GetBlockTime = block.GetBlockTime from rfl]
    split at h
    · rename_i hdue
      rw [if_pos hdue]
      rcases hbest : extendedBest s block with _ | best
      · rfl
      · rw [hbest] at h
        dsimp only [List.singleton_append] at h ⊢
        rcases helected : env.blockPayee (best.nHeight + 1) with _ | _ | ⟨byte, payee⟩
        · rfl
        · rfl
        · rw [helected] at h
          have hother : byte :: payee ≠ ctx.devopsScript := fun heq =>
            hpayee best hbest (by rw [helected, heq])
          obtain ⟨txout, hmem, hval, hscr⟩ := ensure_eq_ok.mp h
          have hkept : txout.withoutPayee ctx.devopsScript = txout :=
            if_neg (by rw [hscr]; exact hother)
          refine ensure_eq_ok.mpr ⟨txout, List.mem_map.mpr ⟨txout, hmem, hkept⟩, ?_, hscr⟩
          rw [hval]
          unfold CTransaction.withoutPayee
          rw [List.getLast?_map, Option.map_map]
          congr 1
          exact funext fun txout => (nValue_withoutPayee _ txout).symm
    · rename_i hdue
      rw [if_neg hdue]
  · rw [if_neg (by rw [hwork]; simp)]

theorem checkTransactions_withoutDevOps (hne : block.vtx ≠ [])
    (hsealed : Sealed ctx (block.withoutDevOps ctx nNonce vchBlockSig) fCheckPOW fCheckSig)
    (hform : checkForm ctx env s block fCheckPOW = .ok ())
    (h : checkTransactions ctx s block fCheckMerkleRoot = .ok ()) :
    checkTransactions ctx s (block.withoutDevOps ctx nNonce vchBlockSig) fCheckMerkleRoot
      = .ok () := by
  have hshape := checkForm_eq_ok hform
  obtain ⟨before, tx, after, hvtx, -, hvtx', hcase⟩ := @withoutDevOps_vtx ctx block hne
  have hvtx' := hvtx' nNonce vchBlockSig
  have hrew : tx.IsCoinBase = true ∨ tx.IsCoinStake = true := by
    rcases hcase with ⟨-, hcs, -⟩ | ⟨-, rfl⟩
    · exact .inr hcs
    · exact .inl (hshape.coinbase tx (by rw [hvtx]; rfl))
  unfold checkTransactions at h ⊢
  obtain ⟨⟨⟩, htxs, h⟩ := bind_ok h
  obtain ⟨⟨⟩, -, h⟩ := bind_ok h
  obtain ⟨⟨⟩, hsigops, -⟩ := bind_ok h
  rw [except_forM_eq_ok, hvtx, List.forall_mem_append, List.forall_mem_cons] at htxs
  rw [ensure_eq_ok, hvtx] at hsigops
  refine ok_bind (except_forM_eq_ok.mpr ?_) (ensure_bind hsealed.ids (ensure_bind ?_
    (ensure_eq_ok.mpr fun ⟨_, hroot⟩ => hroot rfl)))
  · rw [hvtx', List.forall_mem_append, List.forall_mem_cons]
    refine ⟨htxs.1, ?_, htxs.2.2⟩
    obtain ⟨⟨⟩, hchk, htime⟩ := bind_ok htxs.2.1
    refine except_bind_eq_ok.mpr ⟨(), ?_, htime⟩
    rcases hr : CheckTransaction s.MAX_BLOCK_SIZE tx with e | ⟨⟩
    · rw [hr] at hchk
      cases hchk
    · rw [checkTransaction_withoutPayee _ hrew hr]
      rfl
  · have := sigOps_withoutPayee ctx.devopsScript tx
    rw [hvtx']
    simp only [List.map_append, List.map_cons, List.sum_append, List.sum_cons] at hsigops ⊢
    omega

/-- Nothing on the main network enforces the payment to the developers: whenever a block is accepted
while the payment is due, the block without it is accepted too, the seal being remade. -/
theorem checkBlock_withoutDevOps {s' : NodeState} (hmain : ctx.network = .main)
    (hscript : ctx.devopsScript ≠ []) (hdue : DevOpsDue ctx env s block)
    (h : CheckBlock ctx env block fCheckPOW fCheckMerkleRoot fCheckSig s = (.ok (), s'))
    (hunlocked : ∀ tx ∈ block.rewardTx, ∀ txin ∈ tx.vin, s.mapLockedInputs txin.prevout = none)
    (hpayee : ∀ best ∈ extendedBest s block,
      env.blockPayee (best.nHeight + 1) ≠ some ctx.devopsScript)
    (hlen : vchBlockSig.length ≤ block.vchBlockSig.length)
    (hsealed : Sealed ctx (block.withoutDevOps ctx nNonce vchBlockSig) fCheckPOW fCheckSig) :
    DevOpsDue ctx env s (block.withoutDevOps ctx nNonce vchBlockSig)
      ∧ (∃ s', CheckBlock ctx env (block.withoutDevOps ctx nNonce vchBlockSig) fCheckPOW
        fCheckMerkleRoot fCheckSig s = (.ok (), s'))
      ∧ ¬PaysDevOps ctx s (block.withoutDevOps ctx nNonce vchBlockSig) := by
  obtain ⟨hform, -, hlocks, hpayment, htxs⟩ := (checkBlock_main_iff hmain).mp ⟨s', h⟩
  have hne : block.vtx ≠ [] := by
    obtain ⟨hsizes, -⟩ := ensure_ok hform
    exact hsizes.1
  refine ⟨⟨hdue.downloaded, hdue.started, hdue.extending⟩, (checkBlock_main_iff hmain).mpr
    ⟨checkForm_withoutDevOps hne hlen hsealed hform, hsealed.signature,
      checkLocks_withoutDevOps hne hunlocked hlocks,
      checkFloatingcityPayment_withoutDevOps hne hpayee hpayment,
      checkTransactions_withoutDevOps hne hsealed hform htxs⟩,
    not_paysDevOps_withoutDevOps hne hscript⟩

end

/-! ## A block that keeps its reward -/

/-- A proof-of-stake block that pays the first output of its coinstake to the staker, and its last
one to a script. -/
def stakeBlock (toStaker : ℤ) (last : CTxOut) : CBlock :=
  { plainBlock 2 1 41 [plainTx 20 [coinbaseInput] [⟨0, []⟩],
      plainTx 21 [inputOf 11 0] [⟨0, []⟩, payTo toStaker, last]] with
    nTime := 1600000060 }

def masternodeScript : CScript := [OP_1, OP_1]

def stakeNode : NodeState :=
  { chainedNode with
    mapBlockIndex := Function.update (fun _ => none) 1
      (some { plainIndex 1 200 none fundedBlock with nTime := 1600000000 })
    nBestHeight := 200 }

def stakeEnv : Env :=
  { plainEnv 1600000100 with blockPayee := fun _ => some masternodeScript }

def mainContext : Context :=
  { chainedContext true with network := .main, devopsScript := [OP_1, OP_1, OP_1] }

theorem stakeBlock_due (toStaker : ℤ) (last : CTxOut) :
    FloatingcityDue (chainedContext true) stakeEnv stakeNode (stakeBlock toStaker last)
      masternodeScript where
  stake := rfl
  downloaded := by decide
  started := by
    change ((1600000060 : UInt32).toNat : ℤ) > START_FLOATINGCITY_PAYMENTS
    decide
  elected := ⟨_, rfl, rfl⟩

/-- A block pays the developers what is due to them, and is accepted without the payment too. -/
theorem stakeBlock_devops_unenforced : PaysDevOps mainContext stakeNode
      (stakeBlock (50 * COIN) ⟨7 * COIN, mainContext.devopsScript⟩)
    ∧ (∃ s', CheckBlock mainContext (plainEnv 1600000100) ((stakeBlock (50 * COIN)
      ⟨7 * COIN, mainContext.devopsScript⟩).withoutDevOps mainContext 2 []) true true true stakeNode
        = (.ok (), s'))
    ∧ ¬PaysDevOps mainContext stakeNode ((stakeBlock (50 * COIN)
      ⟨7 * COIN, mainContext.devopsScript⟩).withoutDevOps mainContext 2 []) :=
  ⟨⟨_, rfl, by decide⟩, (@checkBlock_withoutDevOps mainContext (plainEnv 1600000100) stakeNode
    (stakeBlock (50 * COIN) ⟨7 * COIN, mainContext.devopsScript⟩) true true true 2 [] _ rfl
    (by decide) ⟨by decide, by decide, rfl⟩ (Action.eq_of_fst (by decide))
    (fun _ _ _ _ => rfl) (fun _ _ => nofun) le_rfl ⟨by decide, by decide, by decide⟩).2⟩

/-- On the main network a block that pays the developers nothing is accepted although a payment is
due. -/
theorem stakeBlock_pays_no_devops :
    DevOpsDue mainContext stakeEnv stakeNode
        (stakeBlock (86 * COIN) ⟨63 * COIN, masternodeScript⟩) ∧
      (CheckBlock mainContext stakeEnv
        (stakeBlock (86 * COIN) ⟨63 * COIN, masternodeScript⟩) true true true stakeNode).1
          = .ok () ∧
      ¬PaysDevOps mainContext stakeNode
        (stakeBlock (86 * COIN) ⟨63 * COIN, masternodeScript⟩) := by
  refine ⟨⟨by decide, by decide, rfl⟩, by decide, ?_⟩
  rintro ⟨coinstake, hmem, hpays⟩
  cases hmem
  revert hpays
  decide

end ZalemCoin.Chain
