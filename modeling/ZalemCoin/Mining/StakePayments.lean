import ZalemCoin.Chain.PaymentChecks
import ZalemCoin.Mining.CreateCoinStake

/-!
# The payments of coinstakes

`CreateCoinStake` puts the payment to a masternode before the one to the developers, and `CheckBlock`
takes the amount that it looks for from the last output. The two agree when the payment to a masternode
is the last output.
-/

namespace ZalemCoin.Mining

open Lib Chain Script Wallet

/-- The amounts of the outputs to the key of a kernel. -/
def stakeAmounts (split : Bool) (blockValue : ℤ) : List ℤ :=
  if split then
    [(blockValue.tdiv 2).tdiv CENT * CENT, wrap64 (blockValue - (blockValue.tdiv 2).tdiv CENT * CENT)]
  else [blockValue]

/-- What is left for the key of the kernel after a payment. -/
def afterPayment (blockValue : ℤ) (payee : Option CScript) (payment : ℤ) : ℤ :=
  if payee.isSome then wrap64 (blockValue - payment) else blockValue

def paymentTo (payee : Option CScript) (payment : ℤ) : List CTxOut :=
  (payee.map fun script => ⟨payment, script⟩).toList

/-- The payment to a masternode that is made is the one that `CheckBlock` looks for, with the value of
the last output: no payment follows it, or the one that follows has the same payee or the same value, or
an output to the key of the kernel is to the payee and has that value. Without a payment the last output
is to the key of the kernel. -/
def PaymentsMatch (ctx : Context) (env : Env) (st : Staker) (pindexPrev : CBlockIndex)
    (kernel : Kernel) (stake : Stake) (nReward : ℤ) (payee : CScript) : Prop :=
  if floatingcityPaymentsActive ctx env then
    ∀ devpayee, devopsPayee ctx env pindexPrev = some (some devpayee) →
      payee = devpayee ∨ GetFloatingcityPayment nReward = GetDevOpsPayment nReward ∨
        (kernel.scriptPubKeyOut = payee ∧ GetDevOpsPayment nReward ∈ stakeAmounts (kernel.split st)
          (wrap64 (wrap64 (wrap64 (stake.nCredit + nReward) - GetFloatingcityPayment nReward)
            - GetDevOpsPayment nReward)))
  else kernel.scriptPubKeyOut = payee

/-- The payments of the stake that the wallet chooses match in a block for which a payment to a
masternode is due. -/
def BlockPaymentsMatch (ctx : Context) (env : Env) (st : Staker) (s : NodeState)
    (nBits nTime : UInt32) (nSearchInterval nFees : ℤ) (block : CBlock) : Prop :=
  ∀ payee, FloatingcityDue ctx env s block payee → payee ≠ [] →
    ∀ pindexPrev kernel stake nReward, s.index s.pindexBest = .ok pindexPrev →
      chooseStake ctx st s pindexPrev nBits nTime nSearchInterval = .ok (some (kernel, stake)) →
        stakeReward ctx s pindexPrev nFees (stakeTx ctx st kernel stake) = .ok (some nReward) →
          PaymentsMatch ctx env st pindexPrev kernel stake nReward payee

section

variable {ctx : Context} {env : Env} {st : Staker} {s : NodeState} {block : CBlock}
  {pindexPrev : CBlockIndex} {kernel : Kernel} {stake : Stake} {nReward : ℤ}

theorem stakeOutputs_eq (payee devpayee : Option CScript)
    (blockValue floatingcityPayment devopsPayment : ℤ) :
    stakeOutputs (stakeTx ctx st kernel stake).vout payee devpayee blockValue floatingcityPayment
        devopsPayment
      = ⟨0, []⟩ :: ((stakeAmounts (kernel.split st) (afterPayment
            (afterPayment blockValue payee floatingcityPayment) devpayee devopsPayment)).map
          fun nValue => ⟨nValue, kernel.scriptPubKeyOut⟩)
        ++ paymentTo payee floatingcityPayment ++ paymentTo devpayee devopsPayment := by
  unfold stakeTx
  cases kernel.split st <;> cases payee <;> cases devpayee <;> rfl

theorem signInputs_eq_some {SignSignature : CTransaction → CTransaction → ℕ → Option CScript}
    {vwtxPrev : List CTransaction} {nIn : ℕ} {tx tx' : CTransaction}
    (h : signInputs SignSignature vwtxPrev nIn tx = some tx') :
    tx'.vout = tx.vout ∧ tx'.nTime = tx.nTime ∧
      tx'.vin.map CTxIn.prevout = tx.vin.map CTxIn.prevout := by
  induction vwtxPrev generalizing nIn tx with
  | nil =>
    cases h
    exact ⟨rfl, rfl, rfl⟩
  | cons pcoin vwtxPrev ih =>
    obtain ⟨scriptSig, -, h⟩ := Option.bind_eq_some_iff.mp h
    obtain ⟨hvout, htime, hvin⟩ := ih h
    refine ⟨hvout, htime, ?_⟩
    rw [hvin]
    unfold setScriptSig
    apply List.ext_getElem?
    intro i
    rw [List.getElem?_map, List.getElem?_map, List.getElem?_modify]
    rcases tx.vin[i]? with _ | txin
    · rfl
    · simp only [Option.map_eq_map, Option.map_some]
      split_ifs <;> rfl

structure IsCoinStakeOf (ctx : Context) (env : Env) (st : Staker) (s : NodeState)
    (nBits nTime : UInt32) (nSearchInterval nFees : ℤ) (coinstake : CoinStake)
    (pindexPrev : CBlockIndex) (kernel : Kernel) (stake : Stake) (payee devpayee : Option CScript) :
    Prop where
  best : s.index s.pindexBest = .ok pindexPrev
  chosen : chooseStake ctx st s pindexPrev nBits nTime nSearchInterval = .ok (some (kernel, stake))
  reward : stakeReward ctx s pindexPrev nFees (stakeTx ctx st kernel stake)
    = .ok (some coinstake.nPoSageReward)
  payee_eq : floatingcityPayee ctx env st (pindexPrev.nHeight + 1) = some payee
  devpayee_eq : devopsPayee ctx env pindexPrev = some devpayee
  signed : signInputs st.SignSignature (stake.coins.map COutput.tx) 0
    { stakeTx ctx st kernel stake with
      vout := stakeOutputs (stakeTx ctx st kernel stake).vout payee devpayee
        (wrap64 (stake.nCredit + coinstake.nPoSageReward))
        (GetFloatingcityPayment coinstake.nPoSageReward) (GetDevOpsPayment coinstake.nPoSageReward) }
    = some coinstake.tx
  key : coinstake.key = kernel.key

theorem createCoinStake_eq_ok {nBits nTime : UInt32} {nSearchInterval nFees : ℤ}
    {coinstake : CoinStake} (h : CreateCoinStake ctx env st s nBits nTime nSearchInterval nFees
      = .ok (some coinstake)) : ∃ pindexPrev kernel stake payee devpayee,
      IsCoinStakeOf ctx env st s nBits nTime nSearchInterval nFees coinstake pindexPrev kernel stake
        payee devpayee := by
  obtain ⟨pindexPrev, hbest, h⟩ := bind_ok h
  obtain ⟨chosen, hchosen, h⟩ := bind_ok h
  rcases chosen with _ | ⟨kernel, stake⟩
  · simp [pure, Except.pure] at h
  obtain ⟨reward, hrew, h⟩ := bind_ok h
  rcases reward with _ | nReward
  · simp [pure, Except.pure] at h
  have hpay : payStake ctx env st pindexPrev kernel stake nReward = some coinstake := Except.ok.inj h
  obtain ⟨payee, hpayee, hpay⟩ := Option.bind_eq_some_iff.mp hpay
  obtain ⟨devpayee, hdevpayee, hpay⟩ := Option.bind_eq_some_iff.mp hpay
  obtain ⟨tx, hsig, hpay⟩ := Option.bind_eq_some_iff.mp hpay
  split_ifs at hpay
  cases hpay
  exact ⟨pindexPrev, kernel, stake, payee, devpayee, hbest, hchosen, hrew, hpayee, hdevpayee,
    hsig, rfl⟩

/-! ## The checks -/

theorem devopsPaymentsActive_eq (ctx : Context) (env : Env) :
    devopsPaymentsActive ctx env = floatingcityPaymentsActive ctx env := rfl

/-- The check of the payment to the developers never fails on a network: it is made on the test network
only, where payments stop when they start. -/
theorem checkDevops_eq_ok (ctx : Context) (env : Env) (s : NodeState) (block : CBlock) :
    checkDevops ctx env s block = .ok () := by
  by_cases htest : ctx.network = .testnet
  · unfold checkDevops
    rw [if_neg]
    rintro ⟨-, -, hact, -⟩
    unfold devopsPaymentsActive at hact
    rw [if_pos htest] at hact
    simp only [Bool.and_eq_true, Bool.not_eq_true', decide_eq_true_eq, decide_eq_false_iff_not]
      at hact
    have hsame : START_DEVOPS_PAYMENTS_TESTNET = STOP_DEVOPS_PAYMENTS_TESTNET := rfl
    omega
  · exact checkDevops_of_ne_testnet htest

theorem checkFloatingcityPayment_iff {coinstake : CTransaction}
    (hcs : block.vtx[1]? = some coinstake) :
    checkFloatingcityPayment ctx env s block = .ok () ↔
      ∀ payee, FloatingcityDue ctx env s block payee → payee ≠ [] →
        ∃ txout ∈ coinstake.vout, some txout.nValue = lastAmount coinstake ∧
          txout.scriptPubKey = payee := by
  constructor
  · intro h payee hdue hpayee
    exact checkFloatingcityPayment_eq_ok hdue hcs hpayee h
  · intro h
    unfold checkFloatingcityPayment
    split_ifs with hact
    · rcases hbest : extendedBest s block with _ | best
      · rfl
      rcases hvtx : block.vtx with _ | ⟨coinbase, _ | ⟨coinstake', rest⟩⟩
      · rfl
      · rfl
      rw [hvtx] at hcs
      obtain rfl : coinstake' = coinstake := Option.some.inj hcs
      dsimp only
      rcases helected : env.blockPayee (best.nHeight + 1) with _ | _ | ⟨byte, script⟩
      · rfl
      · rfl
      · exact ensure_eq_ok.mpr (h (byte :: script) ⟨hact.2.2, hact.1, hact.2.1,
          best, hbest, helected⟩ (List.cons_ne_nil _ _))
    · rfl

theorem paysLast_iff {vout : List CTxOut} {last : CTxOut} {tx : CTransaction} {payee : CScript}
    (hvout : tx.vout = vout ++ [last]) :
    (∃ txout ∈ tx.vout, some txout.nValue = lastAmount tx ∧ txout.scriptPubKey = payee) ↔
      last.scriptPubKey = payee ∨
        ∃ txout ∈ vout, txout.nValue = last.nValue ∧ txout.scriptPubKey = payee := by
  have hlast : lastAmount tx = some last.nValue := by
    unfold lastAmount
    rw [hvout, List.getLast?_concat, Option.map_some]
  rw [hlast, hvout]
  constructor
  · rintro ⟨txout, hmem, hval, hscr⟩
    rcases List.mem_append.mp hmem with hmem | hmem
    · exact .inr ⟨txout, hmem, Option.some.inj hval, hscr⟩
    · obtain rfl := List.mem_singleton.mp hmem
      exact .inl hscr
  · rintro (hscr | ⟨txout, hmem, hval, hscr⟩)
    · exact ⟨last, List.mem_append_right _ (List.mem_singleton_self _), rfl, hscr⟩
    · exact ⟨txout, List.mem_append_left _ hmem, congrArg some hval, hscr⟩

theorem stakeAmounts_eq (split : Bool) (blockValue : ℤ) :
    ∃ amounts last, stakeAmounts split blockValue = amounts ++ [last] := by
  unfold stakeAmounts
  split_ifs
  · exact ⟨[_], _, rfl⟩
  · exact ⟨[], _, rfl⟩

/-- When a stake pays the payee the amount that is read from its last output. -/
theorem paysLast_stakeOutputs_iff {tx : CTransaction} {payTo devpayTo : Option CScript}
    {script : CScript} (hscr : script ≠ [])
    (hvout : tx.vout = stakeOutputs (stakeTx ctx st kernel stake).vout payTo devpayTo
      (wrap64 (stake.nCredit + nReward)) (GetFloatingcityPayment nReward) (GetDevOpsPayment nReward))
    (hpayTo : payTo = if floatingcityPaymentsActive ctx env then some script else none)
    (hdevpayTo : devopsPayee ctx env pindexPrev = some devpayTo) :
    (∃ txout ∈ tx.vout, some txout.nValue = lastAmount tx ∧ txout.scriptPubKey = script) ↔
      PaymentsMatch ctx env st pindexPrev kernel stake nReward script := by
  rw [stakeOutputs_eq] at hvout
  unfold PaymentsMatch
  by_cases hact : floatingcityPaymentsActive ctx env = true
  · rw [if_pos hact] at hpayTo ⊢
    subst hpayTo
    rcases devpayTo with _ | devpayee
    · -- The payment to the masternode is the last output.
      rw [paysLast_iff (hvout.trans (List.append_nil _))]
      constructor
      · rintro - devpayee hdevpayee
        rw [hdevpayTo] at hdevpayee
        simp at hdevpayee
      · intro _
        exact .inl rfl
    · rw [paysLast_iff hvout]
      rw [hdevpayTo]
      constructor
      · rintro (hsame | ⟨txout, hmem, hval, hto⟩) devpayee' hdevpayee'
        · obtain rfl : devpayee = devpayee' := Option.some.inj (Option.some.inj hdevpayee')
          exact .inl hsame.symm
        · rcases List.mem_append.mp hmem with hmem | hmem
          · rcases List.mem_cons.mp hmem with rfl | hmem
            · exact absurd hto.symm hscr
            · obtain ⟨nValue, hnValue, rfl⟩ := List.mem_map.mp hmem
              obtain rfl : nValue = GetDevOpsPayment nReward := hval
              exact .inr (.inr ⟨hto, hnValue⟩)
          · obtain rfl := List.mem_singleton.mp hmem
            exact .inr (.inl hval)
      · intro h
        rcases h devpayee rfl with hsame | hshares | ⟨hto, hmem⟩
        · exact .inl hsame.symm
        · right
          refine ⟨⟨GetFloatingcityPayment nReward, script⟩, ?_, hshares, rfl⟩
          exact List.mem_append_right _ (List.mem_singleton_self _)
        · right
          refine ⟨⟨GetDevOpsPayment nReward, kernel.scriptPubKeyOut⟩, ?_, rfl, hto⟩
          apply List.mem_append_left
          apply List.mem_cons_of_mem
          exact List.mem_map_of_mem hmem
  · have hdevops : devopsPayee ctx env pindexPrev = some none := by
      unfold devopsPayee
      rw [devopsPaymentsActive_eq, if_neg hact]
    rw [if_neg hact] at hpayTo ⊢
    obtain rfl : devpayTo = none := Option.mem_unique hdevpayTo hdevops
    subst hpayTo
    obtain ⟨amounts, last, hamounts⟩ := stakeAmounts_eq (kernel.split st)
      (wrap64 (stake.nCredit + nReward))
    have hlast : tx.vout = (⟨0, []⟩ :: amounts.map fun nValue => ⟨nValue, kernel.scriptPubKeyOut⟩)
        ++ [⟨last, kernel.scriptPubKeyOut⟩] := by
      rw [hvout]
      simp only [afterPayment, paymentTo, Option.isSome_none, hamounts, List.map_append, List.map_cons,
        List.map_nil, Option.map_none, Option.toList_none, List.append_nil, List.cons_append,
        Bool.false_eq_true, if_false]
    rw [paysLast_iff hlast]
    constructor
    · rintro (hto | ⟨txout, hmem, -, hto⟩)
      · exact hto
      · rcases List.mem_cons.mp hmem with rfl | hmem
        · exact absurd hto.symm hscr
        · obtain ⟨nValue, -, rfl⟩ := List.mem_map.mp hmem
          exact hto
    · intro hto
      exact .inl hto

end

/-! ## A wallet that stakes a coin -/

def stakeKeyID : CKeyID := 7

def coinBlock : CBlock :=
  plainBlock 1 0 0 [plainTx 10 [coinbaseInput] [payTo 0],
    plainTx 11 [inputOf 5 0] [⟨50 * COIN, GetScriptForDestination (.keyID stakeKeyID)⟩]]

def coinContext : Context :=
  { plainContext (BlockFiles.ofBlocks (fun nFile => if nFile = 1 then some coinBlock else none)
      (by
        intro nFile block h
        split at h
        · cases h
          decide
        · simp at h)) 1 true with
    network := .main
    devopsScript := [OP_1, OP_1, OP_1] }

def coinNode (nTime : UInt32) : NodeState :=
  { emptyNode with
    mapBlockIndex := Function.update (fun _ => none) 1
      (some { plainIndex 2 200 none fundedBlock with nTime := nTime })
    pindexBest := some 1
    pindexLastBest := some 1
    nBestHeight := 200
    txdb := ⟨Function.update (fun _ => none) (.tx 11)
      (some (CTxIndex.new (CDiskTxPos.of 1 8 (txPosition 8 coinBlock.vtx 1)) 1)), none⟩ }

def plainKeys : KeyContext where
  EVP_Encrypt _ _ text := 1 :: text
  EVP_Decrypt _ _ cipher := cipher.tail?
  EVP_BytesToKey _ data _ := (data, 0)
  scrypt_salted_multiround_hash data _ _ := data
  Hash _ := 0
  Hash_bmw512 _ := 0
  Hash160 := uint160
  Check vch := vch.length == 32
  GetPubKey vch _ := CPubKey.ofBytes (2 :: vch)
  SecretToPublicKey vch := some (2 :: vch)
  sharedSecret _ point := point.tail?
  addPoint point _ := some point
  addSecret f _ := some f

def coinStaker : Staker where
  keys := plainKeys
  keystore := ⟨SortedMap.empty.insert stakeKeyID ⟨List.replicate 32 7, true⟩, SortedMap.empty, [], false⟩
  nBalance := 50 * COIN
  nReserveBalance := 0
  stakethreshold := 1000
  AvailableCoinsForStaking :=
    [⟨plainTx 11 [inputOf 5 0] [⟨50 * COIN, GetScriptForDestination (.keyID stakeKeyID)⟩], 0, true⟩]
  address hash := hash.toNat
  SignSignature _ _ _ := some [0]
  currentFloatingCity := none

def stakeScript : CScript := 33 :: 2 :: List.replicate 32 7 ++ [OP_CHECKSIG]

def blockWith (tx : CTransaction) : CBlock :=
  { plainBlock 2 1 41 [plainTx 20 [coinbaseInput] [⟨0, []⟩], tx] with nTime := tx.nTime }

theorem coinStake_of_eval {s : NodeState} {P : CoinStake → Bool}
    (h : ((CreateCoinStake coinContext stakeEnv coinStaker s 0x207fffff 1600000048 1
      0).toOption.bind id).map P = some true) :
    ∃ coinstake, CreateCoinStake coinContext stakeEnv coinStaker s 0x207fffff 1600000048 1 0
      = .ok (some coinstake) ∧ P coinstake = true := by
  obtain ⟨coinstake, hcre, hP⟩ := Option.map_eq_some_iff.mp h
  rcases hres : CreateCoinStake coinContext stakeEnv coinStaker s 0x207fffff 1600000048 1 0
    with e | created
  · rw [hres] at hcre
    simp [Except.toOption] at hcre
  · rw [hres] at hcre
    exact ⟨coinstake, congrArg Except.ok hcre, hP⟩

end ZalemCoin.Mining
