import ZalemCoin.Chain.SupplyCap
import ZalemCoin.Mining.SignBlock

/-!
# The balance of coinstakes

A coinstake spends different coins of the wallet, which are worth no more than the balance above the
reserve. Its outputs pay exactly what the coins are worth and the reward of the block. The payments to a
masternode and to the developers are shares of the reward, so that the key of the kernel gets back at least
what the coins are worth.
-/

namespace ZalemCoin.Mining

open Lib Chain Script Wallet

/-- A wallet whose coins are different outputs with amounts in the range of money, and whose balance above
the reserve is far from the end of 64 bits. -/
structure Staker.InRange (ctx : Context) (st : Staker) : Prop where
  distinct : (st.AvailableCoinsForStaking.map (COutput.prevout ctx)).Nodup
  values : ∀ coin ∈ st.AvailableCoinsForStaking, MoneyRange coin.nValue
  room : st.nBalance - st.nReserveBalance ≤ 2 ^ 62

structure Stake.Within (stake : Stake) (limit : ℤ) : Prop where
  value : stake.nCredit = (stake.coins.map COutput.nValue).sum
  nonneg : 0 ≤ stake.nCredit
  le : stake.nCredit ≤ limit

structure CoinStake.Balances (ctx : Context) (st : Staker) (coinstake : CoinStake)
    (coins : List COutput) (script : CScript) : Prop where
  inputs : coinstake.tx.vin.map CTxIn.prevout = coins.map (COutput.prevout ctx)
  owned : ∀ coin ∈ coins, coin ∈ st.AvailableCoinsForStaking
  distinct : (coinstake.tx.vin.map CTxIn.prevout).Nodup
  reserved : (coins.map COutput.nValue).sum ≤ st.nBalance - st.nReserveBalance
  first : coinstake.tx.vout.head?.map CTxOut.IsEmpty = some true
  nonneg : ∀ txout ∈ coinstake.tx.vout, 0 ≤ txout.nValue
  exact : (coinstake.tx.vout.map CTxOut.nValue).sum
    = (coins.map COutput.nValue).sum + coinstake.nPoSageReward
  keyed : ∃ coin ∈ coins, kernelKey st coin.scriptPubKey = some (coinstake.key, script)
  returned : (coins.map COutput.nValue).sum
    ≤ ((coinstake.tx.vout.filter fun txout => txout.scriptPubKey == script).map CTxOut.nValue).sum

section

variable {ctx : Context} {env : Env} {st : Staker} {s : NodeState} {pindexPrev : CBlockIndex}
  {kernel : Kernel} {stake : Stake}

theorem Stake.Within.combineCoins {coins : List COutput}
    (hvalues : ∀ coin ∈ coins, MoneyRange coin.nValue) (hroom : st.nBalance - st.nReserveBalance ≤ 2 ^ 62)
    (h : stake.Within (st.nBalance - st.nReserveBalance)) :
    (combineCoins ctx st kernel coins stake).Within (st.nBalance - st.nReserveBalance) := by
  induction coins generalizing stake with
  | nil => exact h
  | cons coin coins ih =>
    obtain ⟨⟨hpos, hmost⟩, hvalues⟩ := List.forall_mem_cons.mp hvalues
    unfold Mining.combineCoins
    dsimp only
    split_ifs with _ _ _ hlim
    · exact h
    · exact h
    · exact h
    · exact ih hvalues h
    · exact ih hvalues h
    · -- The sum does not overflow, so the limit has been checked on the sum itself.
      have hmoney : MAX_SINGLE_TX = 30000000000000000 := by decide
      have hsum : wrap64 (stake.nCredit + coin.nValue) = stake.nCredit + coin.nValue := by
        have hnn := h.nonneg
        have hle := h.le
        exact wrap64_eq_self_iff.mpr ⟨by omega, by omega⟩
      rw [hsum] at hlim ⊢
      refine ih hvalues ⟨?_, ?_, not_lt.mp hlim⟩
      · rw [List.map_append, List.sum_append, List.map_singleton, List.sum_singleton, h.value]
      · exact Int.add_nonneg h.nonneg hpos
    · exact ih hvalues h

theorem stakeAmounts_exact (split : Bool) {blockValue : ℤ} (hpos : 0 ≤ blockValue)
    (hfits : blockValue < 2 ^ 63) :
    (stakeAmounts split blockValue).sum = blockValue ∧
      ∀ nValue ∈ stakeAmounts split blockValue, 0 ≤ nValue := by
  unfold stakeAmounts
  split_ifs
  · have hcent : CENT = 1000000 := by decide
    have hhalf : (blockValue.tdiv 2).tdiv CENT * CENT = blockValue / 2 / 1000000 * 1000000 := by
      rw [Int.tdiv_eq_ediv_of_nonneg hpos, Int.tdiv_eq_ediv_of_nonneg (by omega), hcent]
    rw [hhalf]
    have hrest : wrap64 (blockValue - blockValue / 2 / 1000000 * 1000000)
        = blockValue - blockValue / 2 / 1000000 * 1000000 :=
      wrap64_eq_self_iff.mpr ⟨by omega, by omega⟩
    rw [hrest]
    constructor
    · rw [List.sum_cons, List.sum_singleton]
      omega
    · simp only [List.mem_cons, List.not_mem_nil, or_false, forall_eq_or_imp, forall_eq]
      constructor <;> omega
  · exact ⟨List.sum_singleton, by simpa using hpos⟩

theorem afterPayment_exact {blockValue payment : ℤ} (payee : Option CScript) (hpos : 0 ≤ payment)
    (hle : payment ≤ blockValue) (hfits : blockValue < 2 ^ 63) :
    afterPayment blockValue payee payment
      = blockValue - ((paymentTo payee payment).map CTxOut.nValue).sum ∧
    ∃ paid, ((paymentTo payee payment).map CTxOut.nValue).sum = paid ∧ 0 ≤ paid ∧ paid ≤ payment := by
  unfold afterPayment paymentTo
  cases payee with
  | none => exact ⟨(Int.sub_zero _).symm, 0, rfl, le_refl 0, hpos⟩
  | some payee =>
    refine ⟨?_, payment, by simp, hpos, le_refl payment⟩
    simp only [Option.isSome_some, if_true, Option.map_some, Option.toList_some, List.map_cons,
      List.map_nil, List.sum_singleton]
    exact wrap64_eq_self_iff.mpr ⟨by omega, by omega⟩

theorem stakeOutputs_exact (payee devpayee : Option CScript) {nCredit nReward : ℤ} {vout : List CTxOut}
    (hcred : 0 ≤ nCredit) (hrew : 0 ≤ nReward) (hfits : nCredit + nReward < 2 ^ 63)
    (hvout : vout = stakeOutputs (stakeTx ctx st kernel stake).vout payee devpayee
      (wrap64 (nCredit + nReward)) (GetFloatingcityPayment nReward) (GetDevOpsPayment nReward)) :
    (∀ txout ∈ vout, 0 ≤ txout.nValue) ∧ (vout.map CTxOut.nValue).sum = nCredit + nReward ∧
      nCredit ≤ ((vout.filter fun txout => txout.scriptPubKey == kernel.scriptPubKeyOut).map
        CTxOut.nValue).sum := by
  have hsum : wrap64 (nCredit + nReward) = nCredit + nReward :=
    wrap64_eq_self_iff.mpr ⟨by omega, hfits⟩
  have hpayment : GetFloatingcityPayment nReward = nReward * 63 / 100 :=
    Int.tdiv_eq_ediv_of_nonneg (by omega)
  have hdevops : GetDevOpsPayment nReward = nReward * 7 / 100 := Int.tdiv_eq_ediv_of_nonneg (by omega)
  rw [stakeOutputs_eq, hsum] at hvout
  -- First the masternode is paid, then the developers.
  obtain ⟨haft, paid, hpaid, hpaidpos, hpaidle⟩ := @afterPayment_exact (nCredit + nReward)
    (GetFloatingcityPayment nReward) payee (by omega) (by omega) hfits
  obtain ⟨hafterdev, devpaid, hdevpaid, hdevpos, hdevle⟩ := @afterPayment_exact
    (nCredit + nReward - paid) (GetDevOpsPayment nReward) devpayee (by omega) (by omega) (by omega)
  rw [haft, hpaid, hafterdev, hdevpaid] at hvout
  obtain ⟨htotal, hamounts⟩ := stakeAmounts_exact (kernel.split st)
    (show 0 ≤ nCredit + nReward - paid - devpaid by omega) (by omega)
  generalize stakeAmounts (kernel.split st) (nCredit + nReward - paid - devpaid) = amounts at *
  set own := amounts.map fun nValue => (⟨nValue, kernel.scriptPubKeyOut⟩ : CTxOut) with howndef
  have hown : own.map CTxOut.nValue = amounts := by
    rw [howndef, List.map_map]
    exact List.map_id amounts
  have hpayments {payee : Option CScript} {payment : ℤ} (hpos : 0 ≤ payment) :
      ∀ txout ∈ paymentTo payee payment, 0 ≤ txout.nValue := by
    intro txout hmem
    obtain ⟨script, -, rfl⟩ := Option.map_eq_some_iff.mp (Option.mem_toList.mp hmem)
    exact hpos
  have hnn : ∀ txout ∈ vout, 0 ≤ txout.nValue := by
    rw [hvout]
    intro txout hmem
    rcases List.mem_append.mp hmem with hmem | hmem
    · rcases List.mem_append.mp hmem with hmem | hmem
      · rcases List.mem_cons.mp hmem with rfl | hmem
        · exact le_refl 0
        · obtain ⟨nValue, hnValue, rfl⟩ := List.mem_map.mp hmem
          exact hamounts nValue hnValue
      · exact hpayments (by omega) txout hmem
    · exact hpayments (by omega) txout hmem
  refine ⟨hnn, ?_, ?_⟩
  · rw [hvout]
    simp only [List.map_append, List.map_cons, List.sum_append, List.sum_cons, hown, hpaid, hdevpaid,
      htotal]
    omega
  · have hsub : own.Sublist (vout.filter fun txout => txout.scriptPubKey == kernel.scriptPubKeyOut) := by
      have hall : own.filter (fun txout => txout.scriptPubKey == kernel.scriptPubKeyOut) = own := by
        refine List.filter_eq_self.mpr fun txout hmem => ?_
        obtain ⟨nValue, -, rfl⟩ := List.mem_map.mp hmem
        exact beq_self_eq_true _
      rw [← hall, hvout]
      apply List.Sublist.filter
      refine List.Sublist.trans ?_ (List.sublist_append_left _ _)
      exact List.Sublist.trans (List.sublist_cons_self _ _) (List.sublist_append_left _ _)
    calc nCredit ≤ nCredit + nReward - paid - devpaid := by omega
      _ = (own.map CTxOut.nValue).sum := by rw [hown, htotal]
      _ ≤ _ := by
        refine (hsub.map CTxOut.nValue).sum_le_sum fun nValue hmem => ?_
        obtain ⟨txout, htxout, rfl⟩ := List.mem_map.mp hmem
        exact hnn txout (List.mem_filter.mp htxout).1

theorem chooseStake_within {nBits nTime : UInt32} {nSearchInterval : ℤ} (hst : st.InRange ctx)
    (h : chooseStake ctx st s pindexPrev nBits nTime nSearchInterval = .ok (some (kernel, stake))) :
    stake.Within (st.nBalance - st.nReserveBalance) ∧ (stake.coins.map (COutput.prevout ctx)).Nodup ∧
      ∃ coin ∈ stake.coins, kernelKey st coin.scriptPubKey = some (kernel.key, kernel.scriptPubKeyOut) := by
  obtain ⟨setCoins, hperm, hfound, hval, rfl⟩ := chooseStake_eq_ok h
  have hsub := selectCoins_sublist (st.nBalance - st.nReserveBalance) 0 st.AvailableCoinsForStaking
  have hvalues : ∀ coin ∈ setCoins, MoneyRange coin.nValue := fun coin hcoin =>
    hst.values coin (hsub.subset (hperm.mem_iff.mp hcoin))
  have hnd : (setCoins.map (COutput.prevout ctx)).Nodup :=
    (hperm.map _).nodup_iff.mpr (hst.distinct.sublist (hsub.map _))
  obtain ⟨hmem, hkey⟩ := searchKernel_eq_ok hfound
  obtain ⟨-, added, hadded, hother, hcoins⟩ := @combineCoins_eq ctx st kernel setCoins
    ⟨[kernel.coin], kernel.coin.nValue⟩ (by simp)
  refine ⟨?_, ?_, kernel.coin, ?_, hkey⟩
  · apply Stake.Within.combineCoins hvalues hst.room
    exact ⟨List.sum_singleton.symm, (hvalues _ hmem).1, not_lt.mp (not_or.mp hval).2⟩
  · rw [hcoins, List.singleton_append, List.map_cons, List.nodup_cons]
    refine ⟨fun hmem => ?_, hnd.sublist (hadded.map _)⟩
    obtain ⟨coin, hcoin, heq⟩ := List.mem_map.mp hmem
    exact hother coin hcoin (congrArg COutPoint.hash heq)
  · rw [hcoins]
    exact List.mem_cons_self

/-- Every coinstake that a wallet creates spends different coins within the balance above the reserve, and
pays what they are worth and the reward, with the worth of the coins to the key of one of them. -/
theorem createCoinStake_balances {nBits nTime : UInt32} {nSearchInterval nFees : ℤ} {coinstake : CoinStake}
    (hst : st.InRange ctx) (hfees : MoneyRange nFees)
    (h : CreateCoinStake ctx env st s nBits nTime nSearchInterval nFees = .ok (some coinstake)) :
    ∃ coins script, coinstake.Balances ctx st coins script := by
  obtain ⟨pindexPrev, kernel, stake, payee, devpayee, hof⟩ := createCoinStake_eq_ok h
  obtain ⟨hwithin, hnodup, coin, hcoin, hkey⟩ := chooseStake_within hst hof.chosen
  obtain ⟨hvout, -, hvin⟩ := signInputs_eq_some hof.signed
  have hinputs : coinstake.tx.vin.map CTxIn.prevout = stake.coins.map (COutput.prevout ctx) := by
    rw [hvin]
    change (stakeInputs ctx stake).map CTxIn.prevout = _
    unfold stakeInputs
    rw [List.map_map]
    rfl
  obtain ⟨hpos, hmost⟩ : 0 < coinstake.nPoSageReward ∧
      coinstake.nPoSageReward ≤ nBlockRewardReserve + nFees := by
    have hreward := hof.reward
    obtain ⟨age, -, hreward⟩ := bind_ok hreward
    rcases age with _ | nCoinAge
    · simp [pure, Except.pure] at hreward
    obtain ⟨nReward, hblock, hreward⟩ := bind_ok hreward
    split_ifs at hreward with hle
    · simp [pure, Except.pure] at hreward
    · cases hreward
      have hfees' := hfees.1
      exact ⟨not_le.mp hle, blockReward_le (by omega) hblock⟩
  have hfits : stake.nCredit + coinstake.nPoSageReward < 2 ^ 63 := by
    have hreserve : nBlockRewardReserve = 99000000000000 := by decide
    have hmoney : MAX_SINGLE_TX = 30000000000000000 := by decide
    have hle := hwithin.le
    have hfees' := hfees.2
    have hroom := hst.room
    omega
  obtain ⟨hnonneg, hexact, hreturned⟩ := stakeOutputs_exact payee devpayee hwithin.nonneg hpos.le hfits hvout
  rw [hwithin.value] at hexact hreturned
  refine ⟨stake.coins, kernel.scriptPubKeyOut, ?_⟩
  exact {
    inputs := hinputs
    owned := (chooseStake_coins hof.chosen).2
    distinct := hinputs ▸ hnodup
    reserved := hwithin.value ▸ hwithin.le
    first := by
      rw [hvout, stakeOutputs_eq]
      rfl
    nonneg := hnonneg
    exact := hexact
    keyed := ⟨coin, hcoin, hof.key ▸ hkey⟩
    returned := hreturned }

end

/-- The wallet with one coin creates a coinstake that balances. -/
theorem coinStaker_balances : ∃ coinstake coins script,
    CreateCoinStake coinContext stakeEnv coinStaker (coinNode 1600000000) 0x207fffff 1600000048 1 0
      = .ok (some coinstake) ∧ coinstake.tx.vout.length = 4 ∧
    coinstake.Balances coinContext coinStaker coins script := by
  have hrange : coinStaker.InRange coinContext := by
    refine ⟨by decide, ?_, by decide⟩
    intro coin hcoin
    obtain rfl := List.mem_singleton.mp hcoin
    exact ⟨by decide, by decide⟩
  obtain ⟨coinstake, hcreated, hlength⟩ := @coinStake_of_eval (coinNode 1600000000)
    (fun coinstake => coinstake.tx.vout.length == 4) (by decide)
  obtain ⟨coins, script, hbalances⟩ := createCoinStake_balances hrange ⟨le_refl 0, by decide⟩ hcreated
  exact ⟨coinstake, coins, script, hcreated, eq_of_beq hlength, hbalances⟩

end ZalemCoin.Mining
