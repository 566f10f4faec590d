import ZalemCoin.Chain.RewardDivergence
import ZalemCoin.Mining.StakePayments
import ZalemCoin.Mining.TemplateFees

/-!
# Signing a proof-of-stake block

`SignBlock` takes a template and the fees that its transactions pay together. It asks the wallet for a
coinstake that is paid these fees, and only then removes the transactions that are later than the
coinstake. `ConnectBlock` allows the reward for the fees of the transactions that are left.
-/

namespace ZalemCoin.Mining

open Lib Chain Script Wallet
open List (mem_cons_self map_append append_assoc map_map)

/-- The times of the last search for a coinstake. Before the first call there is none. -/
structure SearchTimes where
  nLastCoinStakeSearchTime : Option ℤ
  nLastCoinStakeSearchInterval : ℤ

def keptAt (nTime : UInt32) (tx : CTransaction) : Bool := decide (tx.nTime ≤ nTime)

variable (ctx : Context)

/-- A template with a coinstake: its times are that of the coinstake, the transactions that are later
are removed, and the coinstake comes after the coinbase. -/
def addCoinStake (block : CBlock) (txCoinStake : CTransaction) : CBlock :=
  let nTime := txCoinStake.nTime
  let vtx := (block.vtx.modifyHead fun coinbase => { coinbase with nTime := nTime }).filter
    (keptAt nTime)
  let signed := { block with nTime := nTime, vtx := vtx.take 1 ++ txCoinStake :: vtx.drop 1 }
  { signed with hashMerkleRoot := BuildMerkleTree ctx signed }

/-- Signs a template for a proof-of-stake block. `Sign` is the signature of a hash with a key. -/
def SignBlock (env : Env) (st : Staker) (s : NodeState)
    (Sign : CKey → UInt256 → Option (List UInt8)) (times : SearchTimes) (nFees : ℤ)
    (block : CBlock) : Except Failure (Bool × CBlock × SearchTimes) :=
  match (block.vtx.head?).bind fun coinbase => coinbase.vout.head? with
  | none => .error (.crash "vtx[0].vout[0] out of range")
  | some txout =>
    if txout.IsEmpty = false then .ok (false, block, times)
    else if block.IsProofOfStake then .ok (true, block, times)
    else do
      let nLastCoinStakeSearchTime := times.nLastCoinStakeSearchTime.getD env.adjustedTime
      let nTime := UInt32.ofNat (toUnsigned env.adjustedTime) &&& ~~~STAKE_TIMESTAMP_MASK
      let nSearchTime : ℤ := nTime.toNat
      if nLastCoinStakeSearchTime < nSearchTime then do
        let found ← CreateCoinStake ctx env st s block.nBits nTime 1 nFees
        let best ← s.index s.pindexBest
        match found.filter fun coinstake =>
            decide (best.GetBlockTime - nDrift + 1 ≤ coinstake.tx.nTime.toNat) with
        | some coinstake =>
          let signed := addCoinStake ctx block coinstake.tx
          let times := { times with nLastCoinStakeSearchTime := some nLastCoinStakeSearchTime }
          match Sign coinstake.key (ctx.GetHash signed) with
          | some vchBlockSig => pure (true, { signed with vchBlockSig := vchBlockSig }, times)
          | none => pure (false, signed, times)
        | none => pure (false, block, ⟨some nSearchTime, nSearchTime - nLastCoinStakeSearchTime⟩)
      else pure (false, block, ⟨some nLastCoinStakeSearchTime, times.nLastCoinStakeSearchInterval⟩)

/-! ## What the wallet and the node have to do with each other -/

/-- The pool has its transactions under their identifiers. -/
def PoolKeyed (s : NodeState) : Prop :=
  ∀ hash tx, s.mempool.mapTx.lookup hash = some tx → ctx.hashTx tx = hash

/-- The coins of the wallet are outputs of transactions of the chain. -/
def CoinsOnDisk (st : Staker) (s : NodeState) : Prop :=
  ∀ coin ∈ st.AvailableCoinsForStaking, ∃ txindex,
    s.txdb.txIndex (ctx.hashTx coin.tx) = some txindex ∧ readTxAt ctx txindex.pos = some coin.tx

section

variable {ctx : Context} {env : Env} {st : Staker} {s : NodeState} {pindexPrev : CBlockIndex}
  {kernel : Kernel} {stake : Stake}

theorem PoolKeyed.lookup (h : PoolKeyed ctx s) {tx : CTransaction} (htx : tx ∈ poolTxs s) :
    s.mempool.mapTx.lookup (ctx.hashTx tx) = some tx := by
  obtain ⟨entry, hent, rfl⟩ := List.mem_map.mp htx
  have hmem := (List.perm_insertionSort _ _).mem_iff.mp hent
  have hlook : s.mempool.mapTx.lookup entry.1 = some entry.2 := AList.mem_lookup_iff.mpr hmem
  rwa [h _ _ hlook]

variable {nBits nTime : UInt32} {nSearchInterval : ℤ}

theorem searchKernel_eq_ok {coins : List COutput}
    (h : searchKernel ctx st s pindexPrev nBits nTime nSearchInterval coins = .ok (some kernel)) :
    kernel.coin ∈ coins ∧
      kernelKey st kernel.coin.scriptPubKey = some (kernel.key, kernel.scriptPubKeyOut) := by
  have hcoin {coin : COutput} {ns : List ℕ}
      (hfound : searchCoin ctx st s pindexPrev nBits nTime coin ns = .ok (some kernel)) :
      kernel.coin = coin ∧
        kernelKey st coin.scriptPubKey = some (kernel.key, kernel.scriptPubKeyOut) := by
    induction ns with
    | nil => simp [searchCoin] at hfound
    | cons n ns ih =>
      obtain ⟨meets, -, hfound⟩ := bind_ok hfound
      split at hfound
      · obtain ⟨found, hkey, rfl⟩ := Option.map_eq_some_iff.mp (Except.ok.inj hfound)
        exact ⟨rfl, hkey⟩
      · exact ih hfound
  induction coins with
  | nil => simp [searchKernel] at h
  | cons coin coins ih =>
    obtain ⟨found, hfound, h⟩ := bind_ok h
    rcases found with _ | found
    · exact (ih h).imp_left (List.mem_cons_of_mem _)
    · cases h
      obtain ⟨rfl, hkey⟩ := hcoin hfound
      exact ⟨mem_cons_self, hkey⟩

def FollowedBy (ctx : Context) (kernel : Kernel) (coins l l' : List COutput) : Prop :=
  ∃ added : List COutput, added.Sublist coins ∧
    (∀ coin ∈ added, ctx.hashTx coin.tx ≠ ctx.hashTx kernel.coin.tx) ∧ l' = l ++ added

theorem combineCoins_eq {coins : List COutput} {stake : Stake}
    (hcred : wrap64 stake.nCredit = wrap64 (stake.coins.map COutput.nValue).sum) :
    wrap64 (combineCoins ctx st kernel coins stake).nCredit
        = wrap64 ((combineCoins ctx st kernel coins stake).coins.map COutput.nValue).sum ∧
      FollowedBy ctx kernel coins stake.coins (combineCoins ctx st kernel coins stake).coins := by
  induction coins generalizing stake with
  | nil => exact ⟨hcred, [], List.Sublist.slnil, nofun, (List.append_nil _).symm⟩
  | cons coin coins ih =>
    have hstop : FollowedBy ctx kernel (coin :: coins) stake.coins stake.coins :=
      ⟨[], List.nil_sublist _, nofun, (List.append_nil _).symm⟩
    obtain ⟨hkept, added, hadded, hother, heq⟩ := ih hcred
    have hskip : FollowedBy ctx kernel (coin :: coins) stake.coins
        (combineCoins ctx st kernel coins stake).coins :=
      ⟨added, hadded.cons coin, hother, heq⟩
    unfold combineCoins
    dsimp only
    split_ifs with hsame
    · exact ⟨hcred, hstop⟩
    · exact ⟨hcred, hstop⟩
    · exact ⟨hcred, hstop⟩
    · exact ⟨hkept, hskip⟩
    · exact ⟨hkept, hskip⟩
    · -- The coin is added, and its value to the credit.
      have hval : wrap64 (wrap64 (stake.nCredit + coin.nValue))
          = wrap64 ((stake.coins ++ [coin]).map COutput.nValue).sum := by
        rw [wrap64_wrap64, ← wrap64_add_wrap64_left, hcred, wrap64_add_wrap64_left,
          map_append, List.sum_append, List.map_singleton, List.sum_singleton]
      obtain ⟨hsum, added, hadded, hother, heq⟩ :=
        @ih ⟨stake.coins ++ [coin], wrap64 (stake.nCredit + coin.nValue)⟩ hval
      refine ⟨hsum, coin :: added, hadded.cons_cons coin, ?_, ?_⟩
      · exact List.forall_mem_cons.mpr ⟨hsame.2.2, hother⟩
      · exact heq.trans (append_assoc _ _ _)
    · exact ⟨hkept, hskip⟩

theorem selectCoins_sublist (nTargetValue nValueRet : ℤ) (coins : List COutput) :
    (selectCoins nTargetValue nValueRet coins).Sublist coins := by
  induction coins generalizing nValueRet with
  | nil => exact List.Sublist.slnil
  | cons output coins ih =>
    unfold selectCoins
    split_ifs
    · exact (ih nValueRet).cons output
    · exact List.nil_sublist _
    · exact List.singleton_sublist.mpr mem_cons_self
    · exact (ih _).cons_cons output
    · exact (ih nValueRet).cons output

variable (h : chooseStake ctx st s pindexPrev nBits nTime nSearchInterval = .ok (some (kernel, stake)))
include h

theorem chooseStake_eq_ok
    :
    ∃ setCoins, setCoins.Perm (selectCoins (st.nBalance - st.nReserveBalance) 0
        st.AvailableCoinsForStaking) ∧
      searchKernel ctx st s pindexPrev nBits nTime nSearchInterval setCoins = .ok (some kernel) ∧
      ¬(kernel.coin.nValue = 0 ∨ st.nBalance - st.nReserveBalance < kernel.coin.nValue) ∧
      stake = combineCoins ctx st kernel setCoins ⟨[kernel.coin], kernel.coin.nValue⟩ := by
  unfold chooseStake at h
  split_ifs at h
  · simp at h
  obtain ⟨found, hfound, h⟩ := bind_ok h
  rcases found with _ | found
  · simp [pure, Except.pure] at h
  dsimp only at h
  split_ifs at h with hval
  · simp [pure, Except.pure] at h
  · cases h
    exact ⟨_, List.perm_insertionSort _ _, hfound, hval, rfl⟩

theorem chooseStake_coins
    :
    wrap64 stake.nCredit = wrap64 (stake.coins.map COutput.nValue).sum ∧
      ∀ coin ∈ stake.coins, coin ∈ st.AvailableCoinsForStaking := by
  obtain ⟨setCoins, hperm, hfound, -, rfl⟩ := chooseStake_eq_ok h
  have havailable {coin : COutput} (hcoin : coin ∈ setCoins) : coin ∈ st.AvailableCoinsForStaking :=
    (selectCoins_sublist _ _ _).subset (hperm.mem_iff.mp hcoin)
  obtain ⟨hcred, added, hadded, -, hcoins⟩ := @combineCoins_eq ctx st kernel setCoins
    ⟨[kernel.coin], kernel.coin.nValue⟩ (by simp)
  refine ⟨hcred, fun coin hcoin => ?_⟩
  rw [hcoins] at hcoin
  rcases List.mem_cons.mp hcoin with rfl | hcoin
  · exact havailable (searchKernel_eq_ok hfound).1
  · exact havailable (hadded.subset hcoin)

omit h

/-! ## What a coinstake pays -/

theorem sum_stakeAmounts (split : Bool) (blockValue : ℤ) :
    wrap64 (stakeAmounts split blockValue).sum = wrap64 blockValue := by
  unfold stakeAmounts
  split_ifs
  · rw [List.sum_cons, List.sum_singleton, wrap64_add_wrap64_right]
    congr 1
    omega
  · simp

theorem afterPayment_add (blockValue payment : ℤ) (payee : Option CScript) :
    wrap64 (afterPayment blockValue payee payment
      + ((paymentTo payee payment).map CTxOut.nValue).sum) = wrap64 blockValue := by
  unfold afterPayment paymentTo
  rcases payee with _ | payee
  · simp
  · simp only [Option.isSome_some, if_true, Option.map_some, Option.toList_some, List.map_cons,
      List.map_nil, List.sum_cons, List.sum_nil, add_zero]
    rw [wrap64_add_wrap64_left]
    congr 1
    omega

theorem stakeOutputs_value (payee devpayee : Option CScript) (blockValue payment devpayment : ℤ) :
    wrap64 (((stakeOutputs (stakeTx ctx st kernel stake).vout payee devpayee blockValue payment
      devpayment).map CTxOut.nValue).sum) = wrap64 blockValue := by
  rw [stakeOutputs_eq]
  simp only [List.cons_append, List.map_cons, map_append, map_map, List.sum_cons, List.sum_append]
  have hmap (amounts : List ℤ) : amounts.map (CTxOut.nValue ∘ fun nValue =>
      (⟨nValue, kernel.scriptPubKeyOut⟩ : CTxOut)) = amounts := by
    rw [show (CTxOut.nValue ∘ fun nValue => (⟨nValue, kernel.scriptPubKeyOut⟩ : CTxOut)) = id from
      rfl, List.map_id]
  rw [hmap]
  -- Payment by payment, what is left and the payment make up what there was.
  have hamounts := sum_stakeAmounts (kernel.split st)
    (afterPayment (afterPayment blockValue payee payment) devpayee devpayment)
  have hdev := afterPayment_add (afterPayment blockValue payee payment) devpayment devpayee
  have hpay := afterPayment_add blockValue payment payee
  calc wrap64 (0 + ((stakeAmounts (kernel.split st) (afterPayment
          (afterPayment blockValue payee payment) devpayee devpayment)).sum
        + ((paymentTo payee payment).map CTxOut.nValue).sum
        + ((paymentTo devpayee devpayment).map CTxOut.nValue).sum))
      = wrap64 (wrap64 (stakeAmounts (kernel.split st) (afterPayment
          (afterPayment blockValue payee payment) devpayee devpayment)).sum
        + (((paymentTo devpayee devpayment).map CTxOut.nValue).sum
          + ((paymentTo payee payment).map CTxOut.nValue).sum)) := by
        rw [wrap64_add_wrap64_left]
        congr 1
        omega
    _ = wrap64 (wrap64 (afterPayment (afterPayment blockValue payee payment) devpayee devpayment
          + ((paymentTo devpayee devpayment).map CTxOut.nValue).sum)
        + ((paymentTo payee payment).map CTxOut.nValue).sum) := by
        rw [hamounts, wrap64_add_wrap64_left, wrap64_add_wrap64_left]
        congr 1
        omega
    _ = wrap64 blockValue := by rw [hdev, wrap64_add_wrap64_left, hpay]

end

/-! ## What connecting the block adds up -/

/-- The pending changes after some transactions of a stored block: these are found in the block, and
others where they were. -/
structure ConnectedOver (ctx : Context) (s : NodeState) (pindex : CBlockIndex)
    (vtx done : List CTransaction) (acc : ConnectAcc) : Prop
    extends Progress ctx s pindex vtx done acc where
  connected : ∀ q ∈ done, ((pending s acc.mapQueuedChanges (ctx.hashTx q)).map Entry.pos).bind
    (prevTxAt ctx s (ctx.hashTx q)) = some q
  others : ∀ hash ∉ done.map ctx.hashTx,
    (pending s acc.mapQueuedChanges hash).map Entry.pos = (s.txdb.txIndex hash).map Entry.pos

section

variable {ctx : Context} {env : Env} {s : NodeState} {pindex : CBlockIndex} {block : CBlock}
  {done rest : List CTransaction} {tx : CTransaction} {acc acc' : ConnectAcc}

theorem slotWorth_eq (L : Ledger UInt256 CDiskTxPos) (k : UInt256 × ℕ) :
    slotWorth ctx s L k = outputWorth (((L k.1).map Entry.pos).bind (prevTxAt ctx s k.1)) k.2 := by
  rw [Option.bind_map]
  rfl

theorem connectedOver_start :
    ConnectedOver ctx s pindex block.vtx [] (ConnectAcc.start block pindex false) := by
  refine ⟨progress_start, by simp, fun hash _ => ?_⟩
  change (pending s ∅ hash).map _ = _
  rw [pending, overlay_empty]

theorem ConnectedOver.step (h : ConnectedOver ctx s pindex block.vtx done acc)
    (hvtx : block.vtx = done ++ tx :: rest) (hids : (block.vtx.map ctx.hashTx).Nodup)
    (hstor : ctx.files.block pindex.nFile pindex.nBlockPos = some block)
    (hstep : connectTransaction ctx env s pindex false acc tx = .ok acc') :
    ConnectedOver ctx s pindex block.vtx (done ++ [tx]) acc' := by
  obtain ⟨hled, -, -⟩ := connectTransaction_block hstep
  obtain ⟨hread, -, hdisk⟩ := h.toProgress.placed hvtx hstor
  have hpos (hash : UInt256) : (pending s acc'.mapQueuedChanges hash).map Entry.pos
      = if hash = ctx.hashTx tx
        then some (CDiskTxPos.of pindex.nFile pindex.nBlockPos acc.nTxPos)
        else (pending s acc.mapQueuedChanges hash).map Entry.pos := by
    rw [hled]
    exact Ledger.map_pos_connect _ _ _ _
  rw [hvtx, map_append, List.nodup_append] at hids
  refine ⟨h.toProgress.step hvtx hstep, fun q hq => ?_, fun hash hhash => ?_⟩
  · rw [hpos]
    rcases List.mem_append.mp hq with hq | hq
    · -- The identifiers of a block are different, so the entry of an earlier one has stayed.
      have hne : ctx.hashTx q ≠ ctx.hashTx tx := fun heq =>
        hids.2.2 _ (List.mem_map_of_mem hq) _ (List.mem_map_of_mem mem_cons_self) heq
      rw [if_neg hne]
      exact h.connected q hq
    · rw [List.mem_singleton.mp hq, if_pos rfl, Option.bind_some, prevTxAt, if_neg hdisk]
      exact hread
  · rw [map_append, List.mem_append, List.map_singleton, List.mem_singleton, not_or] at hhash
    rw [hpos, if_neg hhash.2]
    exact h.others hash hhash.1

theorem ConnectedOver.prevTx_disk (h : ConnectedOver ctx s pindex block.vtx done acc)
    (hdisk : OnDisk s.txdb.txIndex) {hash : UInt256} (hhash : hash ∉ done.map ctx.hashTx) :
    ((pending s acc.mapQueuedChanges hash).map Entry.pos).bind (prevTxAt ctx s hash)
      = (s.txdb.txIndex hash).bind fun txindex => readTxAt ctx txindex.pos := by
  rw [h.others hash hhash, Option.bind_map]
  rcases he : s.txdb.txIndex hash with _ | e
  · rfl
  · rw [Option.bind_some, Option.bind_some, Function.comp_apply, prevTxAt, if_neg (hdisk hash e he)]

theorem ConnectedOver.prevTx_kept {nTime : UInt32} {front before : List CTransaction}
    (h : ConnectedOver ctx s pindex block.vtx
      (front ++ before.filter (keptAt nTime)) acc)
    (hdisk : OnDisk s.txdb.txIndex) (hpool : PoolKeyed ctx s)
    (hbef : ∀ q ∈ before, q ∈ poolTxs s)
    (hfront : ∀ q ∈ front, s.txdb.txIndex (ctx.hashTx q) = none)
    (hcov : Covered ctx s before tx) (htime : tx.nTime ≤ nTime) {txin : CTxIn}
    (htxin : txin ∈ tx.vin) :
    ((pending s acc.mapQueuedChanges txin.prevout.hash).map Entry.pos).bind
        (prevTxAt ctx s txin.prevout.hash)
      = templatePrev ctx s before txin.prevout.hash := by
  obtain ⟨txPrev, hprev, hle⟩ := hcov.spends txin htxin
  rw [hprev]
  unfold templatePrev at hprev
  split at hprev
  · rename_i hmem
    obtain ⟨q, hq, hhash⟩ := List.mem_map.mp hmem
    have hlook := hpool.lookup (hbef q hq)
    rw [hhash, hprev] at hlook
    cases hlook
    rw [← hhash]
    refine h.connected txPrev (List.mem_append_right _ (List.mem_filter.mpr ⟨hq, ?_⟩))
    exact decide_eq_true (UInt32.le_trans hle htime)
  · rename_i hmem
    rw [h.prevTx_disk hdisk, hprev]
    intro hdone
    obtain ⟨q, hq, hhash⟩ := List.mem_map.mp hdone
    rcases List.mem_append.mp hq with hq | hq
    · rw [← hhash, hfront q hq] at hprev
      simp at hprev
    · exact hmem (hhash ▸ List.mem_map_of_mem (List.mem_of_mem_filter hq))

theorem connectKept_fees {nTime : UInt32} {front before sel : List CTransaction} {sums : BlockSums}
    (hdisk : OnDisk s.txdb.txIndex) (hpool : PoolKeyed ctx s)
    (hids : (block.vtx.map ctx.hashTx).Nodup)
    (hstor : ctx.files.block pindex.nFile pindex.nBlockPos = some block)
    (hfront : ∀ q ∈ front, s.txdb.txIndex (ctx.hashTx q) = none)
    (hsel : ∀ q ∈ before ++ sel, q ∈ poolTxs s ∧ q.IsCoinBase = false ∧ q.IsCoinStake = false)
    (hcovered : ∀ done tx after, sel = done ++ tx :: after → Covered ctx s (before ++ done) tx)
    (hvtx : block.vtx = front ++ (before ++ sel).filter (keptAt nTime))
    (hso : ConnectedOver ctx s pindex block.vtx
      (front ++ before.filter (keptAt nTime)) acc)
    (hsums : SumsAre acc sums)
    (h : (sel.filter (keptAt nTime)).foldlM
      (connectTransaction ctx env s pindex false) acc = .ok acc') :
    (∃ sums', SumsAre acc' sums' ∧ sums'.fees
        = sums.fees + feesOf ctx s (keptAt nTime) before sel) ∧
      acc'.nStakeReward = acc.nStakeReward := by
  induction sel generalizing before acc sums with
  | nil =>
    cases h
    exact ⟨⟨sums, hsums, by simp [feesOf]⟩, rfl⟩
  | cons tx sel ih =>
    have happ : before ++ tx :: sel = (before ++ [tx]) ++ sel := by simp
    have hrest : ∀ done tx' after, sel = done ++ tx' :: after →
        Covered ctx s (before ++ [tx] ++ done) tx' := by
      intro done tx' after heq
      rw [append_assoc]
      exact hcovered (tx :: done) tx' after (by rw [heq]; rfl)
    rcases hkeep : keptAt nTime tx with _ | _
    · rw [List.filter_cons_of_neg (by simp [hkeep])] at h
      obtain ⟨⟨sums', hsums', hfees⟩, hrew⟩ := @ih acc (before ++ [tx]) sums
        (by rwa [← happ]) hrest (by rwa [← happ])
        (by
          rw [List.filter_append, List.filter_singleton, hkeep]
          simpa using hso) hsums h
      refine ⟨⟨sums', hsums', ?_⟩, hrew⟩
      rw [hfees, feesOf, hkeep]
      simp
    · rw [List.filter_cons_of_pos hkeep, List.foldlM_cons] at h
      obtain ⟨acc₁, hstep, h⟩ := bind_ok h
      have hdone : (front ++ before.filter (keptAt nTime)) ++ [tx]
          = front ++ (before ++ [tx]).filter (keptAt nTime) := by
        rw [List.filter_append, List.filter_singleton, hkeep, append_assoc]
        rfl
      have hvtx' : block.vtx = (front ++ before.filter (keptAt nTime))
          ++ tx :: sel.filter (keptAt nTime) := by
        rw [hvtx, List.filter_append, List.filter_cons_of_pos hkeep, append_assoc]
      obtain ⟨-, hcb, hcs⟩ := hsel tx (by simp)
      have hadded := connectTransaction_added hstep
      -- The fee by the pending changes is the one by the template.
      have hfee : (txWorth ctx s (pending s acc.mapQueuedChanges) tx).fees
          = feeAfter ctx s before tx := by
        have hord : tx.IsOrdinary = true := by
          unfold CTransaction.IsOrdinary
          rw [hcb, hcs]
          rfl
        have hcov := hcovered [] tx sel rfl
        rw [List.append_nil] at hcov
        have hvalues : ∀ txin ∈ tx.vin, slotWorth ctx s (pending s acc.mapQueuedChanges) txin.slot
            = outputWorth (templatePrev ctx s before txin.prevout.hash) txin.prevout.n.toNat := by
          intro txin htxin
          rw [slotWorth_eq]
          unfold CTxIn.slot
          rw [hso.prevTx_kept hdisk hpool (fun q hq => (hsel q (by simp [hq])).1) hfront hcov
            (of_decide_eq_true hkeep) htxin]
        unfold txWorth feeAfter
        rw [if_pos hord, spentWorth_eq hcb, List.map_congr_left hvalues]
      obtain ⟨⟨sums', hsums', hfees⟩, hrew⟩ := @ih acc₁ (before ++ [tx]) _
        (by rwa [← happ]) hrest (by rwa [← happ])
        (by rw [← hdone]; exact hso.step hvtx' hids hstor hstep) (hadded.sums sums hsums) h
      refine ⟨⟨sums', hsums', ?_⟩, ?_⟩
      · rw [hfees, feesOf, if_pos hkeep, BlockSums.add, hfee, add_assoc]
      · rw [hrew, hadded.reward, hcs]
        rfl

end

/-! ## The reward of a signed block -/

variable (ctx : Context)

/-- What the node and its wallet keep: the index refers to the disk, the pool is keyed, and the coins
of the wallet are in the chain. -/
structure StakingNode (st : Staker) (s : NodeState) : Prop where
  disk : OnDisk s.txdb.txIndex
  keyed : PoolKeyed ctx s
  coins : CoinsOnDisk ctx st s

/-- A proof-of-stake block as `ConnectBlock` meets it on the best block: it is stored, its identifiers
are different, and the index does not have its coinbase and its coinstake yet. -/
structure MeetsStake (s : NodeState) (pindex : CBlockIndex) (block : CBlock) :
    Prop where
  best : pindex.pprev = s.pindexBest
  stored : ctx.files.block pindex.nFile pindex.nBlockPos = some block
  ids : (block.vtx.map ctx.hashTx).Nodup
  fresh : ∀ tx ∈ block.vtx.take 2, s.txdb.txIndex (ctx.hashTx tx) = none
  stake : block.IsProofOfStake = true

/-- The coinstake of a block earns no more than `GetProofOfStakeReward` gives for the fees that
`ConnectBlock` has added up. -/
def RewardBounded (s : NodeState) (pindex : CBlockIndex) (acc : ConnectAcc) : Prop :=
  ∀ pindexPrev nCoinAge nReward, s.index pindex.pprev = .ok pindexPrev →
    GetProofOfStakeReward ctx s pindexPrev nCoinAge acc.nFees = .ok nReward →
      acc.nStakeReward ≤ nReward

/-- With the fees of all transactions of a template the reward is not higher than with the fees of those
that are not later than the coinstake, in 64 bits. -/
def DroppedFeesFit (s : NodeState) (best : CBlockIndex) (template : CBlock)
    (nTime : UInt32) : Prop :=
  wrap64 (subsidy ctx best (best.nHeight + 1)
      + feesOf ctx s (fun _ => true) [] template.vtx.tail)
    ≤ wrap64 (subsidy ctx best (best.nHeight + 1)
      + feesOf ctx s (keptAt nTime) [] template.vtx.tail)

instance (ctx : Context) (s : NodeState) (best : CBlockIndex) (template : CBlock) (nTime : UInt32) :
    Decidable (DroppedFeesFit ctx s best template nTime) := inferInstanceAs (Decidable (_ ≤ _))

/-- Every transaction of a template that is later than the coinstake pays no fee. -/
def DropsNoFee (s : NodeState) (template : CBlock) (nTime : UInt32) : Prop :=
  ∀ before tx after, template.vtx.tail = before ++ tx :: after → nTime < tx.nTime →
    feeAfter ctx s before tx = 0

section

variable {ctx : Context} {env env' env'' : Env} {args : MinerArgs} {reservekey : Option CKeyID}
  {st : Staker} {s : NodeState} {Sign : CKey → UInt256 → Option (List UInt8)}
  {times times' : SearchTimes} {nFees : ℤ} {template block : CBlock} {pindex : CBlockIndex}
  {acc : ConnectAcc}

theorem getProofOfStakeReward_wrap64 {pindexPrev : CBlockIndex} (nCoinAge : ℕ) (fees : ℤ)
    (hbest : s.index s.pindexBest = .ok pindexPrev) :
    GetProofOfStakeReward ctx s pindexPrev nCoinAge (wrap64 fees)
      = .ok (wrap64 (subsidy ctx pindexPrev (pindexPrev.nHeight + 1) + fees)) := by
  unfold GetProofOfStakeReward
  rw [blockReward_eq _ hbest (wrap64_wrap64 fees), wrap64_add_wrap64_right]

theorem signBlock_eq_ok (hstake : template.IsProofOfStake = false)
    (h : SignBlock ctx env st s Sign times nFees template = .ok (true, block, times')) :
    ∃ nTime coinstake, CreateCoinStake ctx env st s template.nBits nTime 1 nFees
        = .ok (some coinstake) ∧
      block.vtx = (addCoinStake ctx template coinstake.tx).vtx ∧ block.nTime = coinstake.tx.nTime := by
  unfold SignBlock at h
  split at h
  · simp at h
  · rw [hstake, if_neg Bool.false_ne_true] at h
    split at h
    · simp at h
    dsimp only at h
    split at h
    · obtain ⟨found, hfound, h⟩ := bind_ok h
      obtain ⟨best, -, h⟩ := bind_ok h
      generalize hsome : Option.filter _ found = kept at h
      rcases kept with _ | coinstake
      · simp [pure, Except.pure] at h
      rw [(Option.filter_eq_some_iff.mp hsome).1] at hfound
      dsimp only at h
      split at h
      · obtain ⟨-, hpair⟩ := Prod.mk.inj (Except.ok.inj h)
        cases hpair
        exact ⟨_, coinstake, hfound, rfl, rfl⟩
      · simp [pure, Except.pure] at h
    · simp [pure, Except.pure] at h

variable {coinbase : CTransaction}

theorem addCoinStake_vtx {txCoinStake : CTransaction} {sel : List CTransaction}
    (hvtx : template.vtx = coinbase :: sel) :
    (addCoinStake ctx template txCoinStake).vtx = { coinbase with nTime := txCoinStake.nTime }
      :: txCoinStake :: sel.filter (keptAt txCoinStake.nTime) := by
  have hkept : keptAt txCoinStake.nTime { coinbase with nTime := txCoinStake.nTime } = true :=
    decide_eq_true (UInt32.le_refl _)
  unfold addCoinStake
  dsimp only
  rw [hvtx, List.modifyHead_cons, List.filter_cons_of_pos hkept]
  rfl

theorem coinstake_reward {nBits nTime : UInt32} {nSearchInterval : ℤ} {coinstake : CoinStake}
    {pindexPrev : CBlockIndex} {kernel : Kernel} {stake : Stake} {payee devpayee : Option CScript}
    {acc' : ConnectAcc}
    (hof : IsCoinStakeOf ctx env st s nBits nTime nSearchInterval nFees coinstake pindexPrev kernel
      stake payee devpayee)
    (hnode : StakingNode ctx st s) (hso : ConnectedOver ctx s pindex block.vtx [coinbase] acc)
    (hfresh : s.txdb.txIndex (ctx.hashTx coinbase) = none) (hcs : coinstake.tx.IsCoinStake = true)
    (hadded : TxAdded ctx s acc acc' (pending s acc.mapQueuedChanges) coinstake.tx)
    (hwrapped : wrap64 coinstake.nPoSageReward = coinstake.nPoSageReward) :
    acc'.nStakeReward = coinstake.nPoSageReward := by
  obtain ⟨hvout, -, hvin⟩ := signInputs_eq_some hof.signed
  obtain ⟨hcred, hmem⟩ := chooseStake_coins hof.chosen
  have hout : wrap64 coinstake.tx.valueOut = wrap64 (stake.nCredit + coinstake.nPoSageReward) := by
    unfold CTransaction.valueOut
    rw [hvout, stakeOutputs_value, wrap64_wrap64]
  -- The inputs are the coins, and they are worth on the disk what the wallet has them for.
  have hin : coinstake.tx.spentWorth ctx s (pending s acc.mapQueuedChanges)
      = (stake.coins.map COutput.nValue).sum := by
    have hcoin : ∀ coin ∈ stake.coins, outputWorth
        (((pending s acc.mapQueuedChanges (ctx.hashTx coin.tx)).map Entry.pos).bind
          (prevTxAt ctx s (ctx.hashTx coin.tx))) coin.i.toNat = coin.nValue := by
      intro coin hcoin
      obtain ⟨txindex, hidx, hread⟩ := hnode.coins coin (hmem coin hcoin)
      have hnot : ctx.hashTx coin.tx ∉ [coinbase].map ctx.hashTx := by
        intro heq
        rw [List.map_singleton, List.mem_singleton] at heq
        rw [heq, hfresh] at hidx
        simp at hidx
      rw [hso.prevTx_disk hnode.disk hnot, hidx, Option.bind_some, hread]
      rfl
    rw [spentWorth_eq (CTransaction.not_isCoinBase_of_isCoinStake hcs)]
    have hslots : coinstake.tx.vin.map (fun txin =>
          slotWorth ctx s (pending s acc.mapQueuedChanges) txin.slot)
        = (coinstake.tx.vin.map CTxIn.prevout).map fun prevout =>
          slotWorth ctx s (pending s acc.mapQueuedChanges) (prevout.hash, prevout.n.toNat) := by
      rw [map_map]
      rfl
    rw [hslots, hvin]
    unfold stakeTx stakeInputs
    rw [map_map, map_map]
    congr 1
    refine List.map_congr_left fun coin hcoin' => ?_
    rw [Function.comp_apply, Function.comp_apply, slotWorth_eq]
    exact hcoin coin hcoin'
  have hfits : Fits64 (coinstake.tx.valueOut
      - coinstake.tx.spentWorth ctx s (pending s acc.mapQueuedChanges)) := by
    have h₁ := hadded.moneyIn
    have h₂ := hadded.moneyOut
    rw [MoneyRange, max_single_tx_eq] at h₁ h₂
    constructor <;> omega
  rw [hadded.reward, if_pos hcs]
  calc coinstake.tx.valueOut - coinstake.tx.spentWorth ctx s (pending s acc.mapQueuedChanges)
      = wrap64 (coinstake.tx.valueOut
          - coinstake.tx.spentWorth ctx s (pending s acc.mapQueuedChanges)) :=
        (wrap64_eq_self_iff.mpr hfits).symm
    _ = wrap64 (wrap64 (stake.nCredit + coinstake.nPoSageReward)
          - (stake.coins.map COutput.nValue).sum) := by
        rw [← hout, hin, wrap64_sub_wrap64_left]
    _ = wrap64 (stake.nCredit + coinstake.nPoSageReward - stake.nCredit) := by
        rw [wrap64_sub_wrap64_left, ← wrap64_sub_wrap64_right, ← hcred, wrap64_sub_wrap64_right]
    _ = coinstake.nPoSageReward := by rw [add_sub_cancel_left, hwrapped]

theorem template_vtx (hdisk : OnDisk s.txdb.txIndex)
    (htmpl : CreateNewBlock ctx env args reservekey true s = .ok (some (template, nFees))) :
    ∃ pindexPrev coinbase sel, s.index s.pindexBest = .ok pindexPrev ∧
      template.vtx = coinbase :: sel ∧
      (∀ nTime, { coinbase with nTime := nTime }.IsCoinBase = true) ∧
      (∀ q ∈ sel, q ∈ poolTxs s ∧ q.IsCoinBase = false ∧ q.IsCoinStake = false) ∧
      nFees = wrap64 (feesOf ctx s (fun _ => true) [] sel) ∧
      ∀ before tx after, sel = before ++ tx :: after → Covered ctx s before tx := by
  obtain ⟨pindexPrev, sel, hbest, hvtx, hsub, hfees, hcov⟩ := createNewBlock_fees hdisk htmpl
  refine ⟨pindexPrev, _, sel, hbest, hvtx, fun _ => rfl, fun q hq => ?_, hfees, hcov⟩
  obtain ⟨hpool, hord⟩ := List.mem_filter.mp (hsub.subset hq)
  simp only [Bool.not_eq_true', Bool.or_eq_false_iff] at hord
  exact ⟨hpool, hord.1.1, hord.1.2⟩

theorem signBlock_sums (hnode : StakingNode ctx st s)
    (htmpl : CreateNewBlock ctx env args reservekey true s = .ok (some (template, nFees)))
    (hsign : SignBlock ctx env' st s Sign times nFees template = .ok (true, block, times'))
    (hmeets : MeetsStake ctx s pindex block)
    (hconn : connectTransactions ctx env'' s block pindex false = .ok acc) :
    ∃ pindexPrev, s.index s.pindexBest = .ok pindexPrev ∧
      acc.nStakeReward = wrap64 (subsidy ctx pindexPrev (pindexPrev.nHeight + 1)
        + feesOf ctx s (fun _ => true) [] template.vtx.tail) ∧
      acc.nFees = wrap64 (feesOf ctx s (keptAt block.nTime) [] template.vtx.tail) ∧
      ∀ before tx after, template.vtx.tail = before ++ tx :: after → Covered ctx s before tx := by
  obtain ⟨pindexPrev, coinbase, sel, hbest, hvtx, hcb, hsel, hfees, hcov⟩ :=
    template_vtx hnode.disk htmpl
  have hwork : template.IsProofOfStake = false := by
    unfold CBlock.IsProofOfStake
    rw [hvtx]
    rcases sel with _ | ⟨tx, sel⟩
    · rfl
    · exact (hsel tx mem_cons_self).2.2
  obtain ⟨nTime, coinstake, hcre, hblock, htime⟩ := signBlock_eq_ok hwork hsign
  rw [addCoinStake_vtx hvtx, ← htime] at hblock
  obtain ⟨pindexPrev', kernel, stake, payee, devpayee, hof⟩ := createCoinStake_eq_ok hcre
  obtain rfl := Except.ok.inj (hbest.symm.trans hof.best)
  have hrew : coinstake.nPoSageReward
      = wrap64 (subsidy ctx pindexPrev (pindexPrev.nHeight + 1)
          + feesOf ctx s (fun _ => true) [] sel) := by
    have hstake := hof.reward
    unfold stakeReward at hstake
    obtain ⟨age, -, hstake⟩ := bind_ok hstake
    rcases age with _ | nCoinAge
    · simp [pure, Except.pure] at hstake
    rw [hfees] at hstake
    dsimp only at hstake
    rw [getProofOfStakeReward_wrap64 nCoinAge _ hbest] at hstake
    obtain ⟨nReward, hnReward, hstake⟩ := bind_ok hstake
    rw [Except.ok.inj hnReward]
    split_ifs at hstake
    · simp [pure, Except.pure] at hstake
    · exact (Option.some.inj (Except.ok.inj hstake)).symm
  -- The loop of `ConnectBlock`: the coinbase, the coinstake, and the transactions that are kept.
  unfold connectTransactions at hconn
  rw [hblock, List.foldlM_cons] at hconn
  obtain ⟨acc₁, hfst, hconn⟩ := bind_ok hconn
  obtain ⟨acc₂, hsnd, hconn⟩ := bind_ok hconn
  have hfresh := hmeets.fresh
  rw [hblock] at hfresh
  have hcs : coinstake.tx.IsCoinStake = true := by
    have := hmeets.stake
    unfold CBlock.IsProofOfStake at this
    rwa [hblock] at this
  have hso₁ := connectedOver_start.step hblock hmeets.ids hmeets.stored hfst
  have hso₂ := hso₁.step hblock hmeets.ids hmeets.stored hsnd
  have hadded₁ := connectTransaction_added hfst
  have hadded₂ := connectTransaction_added hsnd
  have hstakeReward := coinstake_reward hof hnode hso₁ (hfresh _ mem_cons_self) hcs hadded₂
    (by rw [hrew, wrap64_wrap64])
  have hstart : SumsAre (ConnectAcc.start block pindex false) ⟨0, 0, 0⟩ := ⟨rfl, rfl, rfl⟩
  obtain ⟨⟨sums, hsums, htotal⟩, hkeeps⟩ := @connectKept_fees ctx env'' s pindex block
    acc₂ acc block.nTime [{ coinbase with nTime := block.nTime }, coinstake.tx] [] sel _ hnode.disk
    hnode.keyed hmeets.ids hmeets.stored (by simpa using hfresh) hsel (fun done tx after heq => hcov done tx
      after heq) hblock hso₂ (hadded₂.sums _ (hadded₁.sums _ hstart)) hconn
  refine ⟨pindexPrev, hbest, ?_, ?_, ?_⟩
  · rw [hkeeps, hstakeReward, hrew, hvtx]
    rfl
  · -- Neither the coinbase nor the coinstake pays a fee.
    rw [hsums.fees, htotal, hvtx]
    simp [BlockSums.add, txWorth, CTransaction.IsOrdinary, hcb, hcs]
  · rw [hvtx]
    exact hcov

/-- The coinstake of a signed block earns no more than the reward for the fees of the block exactly when
the reward for the fees of the whole template is not higher; without overflow this means that every
transaction that has been removed pays no fee. -/
theorem signBlock_reward_iff (hnode : StakingNode ctx st s)
    (htemplate : CreateNewBlock ctx env args reservekey true s = .ok (some (template, nFees)))
    (hsign : SignBlock ctx env' st s Sign times nFees template = .ok (true, block, times'))
    (hmeets : MeetsStake ctx s pindex block)
    (hconnect : connectTransactions ctx env'' s block pindex false = .ok acc) :
    ∃ best, s.index s.pindexBest = .ok best ∧
      (RewardBounded ctx s pindex acc ↔ DroppedFeesFit ctx s best template block.nTime) ∧
      (subsidy ctx best (best.nHeight + 1)
          + feesOf ctx s (fun _ => true) [] template.vtx.tail < 2 ^ 63 →
        (RewardBounded ctx s pindex acc ↔ DropsNoFee ctx s template block.nTime)) := by
  obtain ⟨best, hbest, hreward, hfees, hcovered⟩ :=
    signBlock_sums hnode htemplate hsign hmeets hconnect
  have hbounded : RewardBounded ctx s pindex acc
      ↔ DroppedFeesFit ctx s best template block.nTime := by
    unfold RewardBounded DroppedFeesFit
    rw [hmeets.best, hreward, hfees]
    constructor
    · intro h
      exact h best 0 _ hbest (getProofOfStakeReward_wrap64 0 _ hbest)
    · intro h pindexPrev nCoinAge nReward hprev hallowed
      obtain rfl := Except.ok.inj (hbest.symm.trans hprev)
      rw [getProofOfStakeReward_wrap64 nCoinAge _ hbest] at hallowed
      rwa [← Except.ok.inj hallowed]
  refine ⟨best, hbest, hbounded, fun hfits => hbounded.trans ?_⟩
  -- What is removed pays the difference, and no fee is negative.
  have hsum := @feesOf_add_not ctx s (keptAt block.nTime) [] template.vtx.tail
  have hnonneg (p : CTransaction → Bool) := @feesOf_nonneg ctx s p [] template.vtx.tail
    fun done tx rest heq => (hcovered done tx rest heq).fee
  have hsubsidy : 0 ≤ subsidy ctx best (best.nHeight + 1) := by
    rcases subsidy_cases ctx best (best.nHeight + 1) with h | h | h | h <;> rw [h] <;> decide
  obtain ⟨hdropped, hzero⟩ := hnonneg fun tx => !keptAt block.nTime tx
  obtain ⟨hkept, -⟩ := hnonneg (keptAt block.nTime)
  have hdrops : DropsNoFee ctx s template block.nTime
      ↔ feesOf ctx s (fun tx => !keptAt block.nTime tx) [] template.vtx.tail = 0 := by
    rw [hzero]
    unfold DropsNoFee keptAt
    simp [UInt32.not_le]
  unfold DroppedFeesFit
  rw [hdrops, wrap64_eq_self_iff.mpr ⟨by omega, by omega⟩,
    wrap64_eq_self_iff.mpr ⟨by omega, by omega⟩]
  omega

end

/-! ## A block that pays the reward, and one that pays more -/

def stakedTx : CTransaction :=
  plainTx 11 [inputOf 5 0]
    [⟨50 * COIN, GetScriptForDestination (.keyID stakeKeyID)⟩, payTo (10 * COIN)]

def stakedBlock : CBlock := plainBlock 1 0 0 [plainTx 10 [coinbaseInput] [payTo 0], stakedTx]

/-- The main network with that block on the disk, and perhaps another one. A transaction is identified
by its lock time and the number of its outputs. -/
def signContext (signed : Option CBlock) : Context :=
  { coinContext with
    hashTx := fun tx => BitVec.ofNat 256 (16 * tx.nLockTime.toNat + tx.vout.length)
    files := BlockFiles.ofBlocks
      (fun nFile =>
        if nFile = 1 then some stakedBlock
        else if nFile = 3 then signed.filter fun block => block.GetSerializeSize < 2 ^ 31
        else none)
      (by
        intro nFile block h
        split at h
        · cases h
          decide
        · split at h
          · exact of_decide_eq_true (Option.filter_eq_some_iff.mp h).2
          · simp at h) }

def signStaker : Staker :=
  { coinStaker with AvailableCoinsForStaking := [⟨stakedTx, 0, true⟩] }

def feeTx (nTime : UInt32) : CTransaction :=
  { plainTx 21 [inputOf 178 1] [payTo (9 * COIN)] with nTime := nTime }

def feeNode (nTime : UInt32) : NodeState :=
  { emptyNode with
    mapBlockIndex := Function.update (fun _ => none) 1
      (some { plainIndex 2 100 none fundedBlock with nTime := 1600000000 })
    pindexBest := some 1
    pindexLastBest := some 1
    nBestHeight := 100
    txdb := ⟨Function.update (fun _ => none) (.tx 178)
      (some (CTxIndex.new (CDiskTxPos.of 1 8 (txPosition 8 stakedBlock.vtx 1)) 2)), none⟩
    mempool := emptyNode.mempool.addUnchecked 337 (feeTx nTime) }

def clockEnv (adjustedTime : ℤ) : Env := { stakeEnv with adjustedTime := adjustedTime }

def feeTemplate (ctx : Context) (nTime : UInt32) : Except Failure (Option (CBlock × ℤ)) :=
  CreateNewBlock ctx (clockEnv 1600000062) plainArgs none true (feeNode nTime)

def signTemplate (ctx : Context) (nTime : UInt32) (template : CBlock × ℤ) :
    Except Failure (Bool × CBlock × SearchTimes) :=
  SignBlock ctx (clockEnv 1600000063) signStaker (feeNode nTime) (fun _ _ => some [1])
    ⟨some 1600000032, 16⟩ template.2 template.1

def signedBlock (nTime : UInt32) : Option CBlock :=
  (((feeTemplate (signContext none) nTime).toOption.bind id).bind fun template =>
    (signTemplate (signContext none) nTime template).toOption).map fun signed => signed.2.1

def signedContext (nTime : UInt32) : Context := signContext (signedBlock nTime)
def signedIndex (block : CBlock) : CBlockIndex := plainIndex 3 101 (some 1) block

def connectSigned (nTime : UInt32) (block : CBlock) : Except Failure ConnectAcc :=
  connectTransactions (signedContext nTime) (clockEnv 1600000063) (feeNode nTime) block
    (signedIndex block) false

theorem feeNode_txIndex {nTime : UInt32} {hash : UInt256} {e : CTxIndex}
    (h : (feeNode nTime).txdb.txIndex hash = some e) :
    hash = 178 ∧ e = CTxIndex.new (CDiskTxPos.of 1 8 (txPosition 8 stakedBlock.vtx 1)) 2 := by
  by_cases hhash : hash = 178
  · subst hhash
    exact ⟨rfl, (Option.some.inj h).symm⟩
  · have hne : DbKey.tx hash ≠ DbKey.tx 178 := fun heq => hhash (DbKey.tx.inj heq)
    unfold CTxDB.txIndex feeNode Store.view at h
    dsimp only at h
    rw [Function.update_of_ne hne] at h
    simp at h

theorem feeNode_staking (nTime : UInt32) :
    StakingNode (signedContext nTime) signStaker (feeNode nTime) := by
  refine ⟨fun hash e h => ?_, fun hash tx h => ?_, fun coin hcoin => ?_⟩
  · rw [(feeNode_txIndex h).2]
    decide
  · change AList.lookup hash (AList.insert 337 (feeTx nTime) (∅ : AList fun _ : UInt256 => CTransaction))
      = some tx at h
    by_cases hhash : hash = 337
    · subst hhash
      cases h
      rfl
    · rw [AList.lookup_insert_ne hhash] at h
      simp at h
  · obtain rfl := List.mem_singleton.mp hcoin
    exact ⟨_, rfl, rfl⟩

structure SignedRun (nTime : UInt32) (template : CBlock) (nFees : ℤ) (block : CBlock)
    (times : SearchTimes) (acc : ConnectAcc) : Prop where
  created : feeTemplate (signedContext nTime) nTime = .ok (some (template, nFees))
  signed : signTemplate (signedContext nTime) nTime (template, nFees) = .ok (true, block, times)
  meets : MeetsStake (signedContext nTime) (feeNode nTime) (signedIndex block) block
  connected : connectSigned nTime block = .ok acc

theorem signedRun_of_eval {nTime : UInt32} {P : CBlock → CBlock → ConnectAcc → Bool}
    (h : (match feeTemplate (signedContext nTime) nTime with
      | .ok (some (template, nFees)) =>
        match signTemplate (signedContext nTime) nTime (template, nFees) with
        | .ok (true, block, _) =>
          decide ((signedContext nTime).files.block 3 8 = some block) &&
            decide ((block.vtx.map (signedContext nTime).hashTx).Nodup) &&
            (block.vtx.take 2).all (fun tx =>
              decide ((feeNode nTime).txdb.txIndex ((signedContext nTime).hashTx tx) = none)) &&
            block.IsProofOfStake &&
            match connectSigned nTime block with
            | .ok acc => P template block acc
            | .error _ => false
        | _ => false
      | _ => false) = true) :
    ∃ template nFees block times acc, SignedRun nTime template nFees block times acc ∧
      P template block acc = true := by
  split at h
  · rename_i template nFees hcre
    split at h
    · rename_i block times hsig
      simp only [Bool.and_eq_true, decide_eq_true_eq, List.all_eq_true] at h
      obtain ⟨⟨⟨⟨hstor, hids⟩, hfresh⟩, hstake⟩, h⟩ := h
      split at h
      · rename_i acc hconn
        exact ⟨template, nFees, block, times, acc,
          ⟨hcre, hsig, ⟨rfl, hstor, hids, hfresh, hstake⟩, hconn⟩, h⟩
      · simp at h
    · simp at h
  · simp at h

/-- When the transaction is not later than the coinstake, the coinstake earns the reward. -/
theorem signedBlock_pays_reward : ∃ template nFees block times acc,
    SignedRun 1600000040 template nFees block times acc ∧
      RewardBounded (signedContext 1600000040) (feeNode 1600000040) (signedIndex block) acc := by
  obtain ⟨template, nFees, block, times, acc, hrun, hfits⟩ := @signedRun_of_eval 1600000040
    (fun template block _ => decide (DroppedFeesFit (signedContext 1600000040) (feeNode 1600000040)
      { plainIndex 2 100 none fundedBlock with nTime := 1600000000 } template block.nTime))
    (by decide)
  obtain ⟨best, hbest, hiff, -⟩ := signBlock_reward_iff (feeNode_staking _) hrun.created hrun.signed
    hrun.meets hrun.connected
  cases hbest
  exact ⟨template, nFees, block, times, acc, hrun, hiff.mpr (of_decide_eq_true hfits)⟩

/-- When it is later, it is removed from the block, and the coinstake is paid its fee all the same. -/
theorem signedBlock_exceeds_reward :
    ¬ ∀ (ctx : Context) (env env' env'' : Env) (args : MinerArgs) (reservekey : Option CKeyID)
      (st : Staker) (s : NodeState) (Sign : CKey → UInt256 → Option (List UInt8))
      (times times' : SearchTimes) (nFees : ℤ) (template block : CBlock) (pindex : CBlockIndex)
      (acc : ConnectAcc), StakingNode ctx st s →
        CreateNewBlock ctx env args reservekey true s = .ok (some (template, nFees)) →
        SignBlock ctx env' st s Sign times nFees template = .ok (true, block, times') →
        MeetsStake ctx s pindex block →
        connectTransactions ctx env'' s block pindex false = .ok acc →
          RewardBounded ctx s pindex acc := by
  intro h
  obtain ⟨template, nFees, block, times, acc, hrun, hmore⟩ := @signedRun_of_eval 1600000060
    (fun _ _ acc =>
      (GetProofOfStakeReward (signedContext 1600000060) (feeNode 1600000060)
        { plainIndex 2 100 none fundedBlock with nTime := 1600000000 } 0 acc.nFees).toOption.any
          fun nReward => decide (nReward + COIN = acc.nStakeReward)) (by decide)
  cases hreward : GetProofOfStakeReward (signedContext 1600000060) (feeNode 1600000060)
      { plainIndex 2 100 none fundedBlock with nTime := 1600000000 } 0 acc.nFees with
  | ok nReward =>
    have hle := h _ _ _ _ _ _ _ _ _ _ _ _ _ _ _ _ (feeNode_staking _) hrun.created hrun.signed
      hrun.meets hrun.connected _ 0 nReward rfl hreward
    rw [hreward] at hmore
    have hpaid := of_decide_eq_true hmore
    have hcoin : 0 < COIN := by decide
    omega
  | error e =>
    rw [hreward] at hmore
    exact Bool.noConfusion hmore

end ZalemCoin.Mining
