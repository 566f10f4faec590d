import ZalemCoin.Chain.BlockSums
import ZalemCoin.Script.Spendable
import ZalemCoin.Script.Text

/-!
# Signing the final transaction of a mix

`SignFinalTransaction` is what a client does with the transaction that a masternode proposes. For each
of its own inputs that it finds in the proposal it tests the outputs of the entry, and signs. The test
counts the pairs of an output and an expected one with the same script, and sums the values of these
outputs. Nothing says that each expected output has one of its own, unless no two of them have the same
script and the proposal has no two outputs for one.
-/

namespace ZalemCoin.Mixing

open Chain Script
open CTxOut (nValue)

variable {Key : Type} {lib : SignatureLibrary Key}

/-- An input of an entry, with the script of the output that it spends. -/
structure CTxDSIn extends CTxIn where
  prevPubKey : CScript

/-- What a client mixes: its inputs, and the outputs that it expects for them. -/
structure CMNengineEntry where
  sev : List CTxDSIn
  vout : List CTxOut

structure CMNenginePool where
  entries : List CMNengineEntry
  finalTransaction : CTransaction
  lastTimeChanged : ℤ
  state : UInt32
  entriesCount : UInt32
  lastEntryAccepted : UInt32
  countEntriesAccepted : UInt32
  lockedCoins : List CTxIn
  sessionID : ℤ
  sessionUsers : ℤ
  sessionFoundFloatingcity : Bool
  vecSessionCollateral : List CTransaction

def POOL_STATUS_IDLE : UInt32 := 1

def CMNenginePool.SetNull (GetTimeMillis : ℤ) (pool : CMNenginePool) : CMNenginePool :=
  { pool with
    sessionUsers := 0
    vecSessionCollateral := []
    entriesCount := 0
    lastEntryAccepted := 0
    countEntriesAccepted := 0
    sessionFoundFloatingcity := false
    state := POOL_STATUS_IDLE
    sessionID := 0
    entries := []
    finalTransaction := { pool.finalTransaction with vin := [], vout := [] }
    lastTimeChanged := GetTimeMillis }

def CMNenginePool.UnlockCoins (pool : CMNenginePool) (setLockedCoins : Finset COutPoint) :
    CMNenginePool × Finset COutPoint :=
  ({ pool with lockedCoins := [] },
    pool.lockedCoins.foldl (fun locked v => locked.erase v.prevout) setLockedCoins)

/-! ## Signing -/

def findMine (vin : List CTxIn) (s : CTxIn) : Option ℕ :=
  (List.range vin.length).foldl (fun mine i => if vin[i]? = some s then some i else mine) none

/-- The loops over the outputs and over those that are expected: how often the scripts have the same
text, and the values of the outputs for which they do. -/
def matchOutputs (vout expected : List CTxOut) : Int32 × ℤ :=
  vout.foldl (fun found out =>
    expected.foldl (fun (foundOutputs, nValue1) o =>
      if CScript.ToString out.scriptPubKey = CScript.ToString o.scriptPubKey then
        (foundOutputs + 1, wrap64 (nValue1 + out.nValue))
      else (foundOutputs, nValue1)) found) (0, 0)

/-- The test of the outputs that an entry expects. -/
def entryCorrect (finalTransaction : CTransaction) (e : CMNengineEntry) : Bool :=
  let (foundOutputs, nValue1) := matchOutputs finalTransaction.vout e.vout
  let nValue2 := e.vout.foldl (fun n o => wrap64 (n + o.nValue)) 0
  let targetOuputs := Int32.ofNat e.vout.length
  !(decide (foundOutputs < targetOuputs) || decide (nValue1 ≠ nValue2))

/-- How far the signing has got: the transaction, the inputs to send, and what `SignSignature` returned
for each of them, which is only logged. -/
structure Signing where
  finalTransaction : CTransaction
  sigs : List CTxIn
  fSigned : List Bool

/-- Signs an own input when it is in the transaction. There is no result when the entry is not
correct. -/
def signInput (keystore : CKeyStore lib) (e : CMNengineEntry) (r : Signing) (s : CTxDSIn) :
    Option Signing :=
  match findMine r.finalTransaction.vin s.toCTxIn with
  | none => some r
  | some mine =>
    if entryCorrect r.finalTransaction e = false then none
    else
      let (fSigned, finalTransaction) := SignSignature keystore s.prevPubKey r.finalTransaction mine
        (SIGHASH_ALL ||| SIGHASH_ANYONECANPAY).toUInt32
      some ⟨finalTransaction, r.sigs ++ finalTransaction.vin[mine]?.toList, r.fSigned ++ [fSigned]⟩

/-- The loops over the entries and their inputs. -/
def signEntries (keystore : CKeyStore lib) (entries : List CMNengineEntry)
    (finalTransaction : CTransaction) : Option Signing :=
  entries.foldlM (fun r e => e.sev.foldlM (signInput keystore e) r) ⟨finalTransaction, [], []⟩

/-- What `SignFinalTransaction` returns and leaves behind, the message that it sends, and which of the
inputs it has signed. -/
structure SignResult where
  fRet : Bool
  pool : CMNenginePool
  setLockedCoins : Finset COutPoint
  dss : Option (List CTxIn)
  fSigned : List Bool

def SignFinalTransaction (fFloatingCity : Bool) (GetTimeMillis : ℤ) (keystore : CKeyStore lib)
    (setLockedCoins : Finset COutPoint) (pool : CMNenginePool) (finalTransactionNew : CTransaction)
    (hasNode : Bool) : SignResult :=
  if fFloatingCity then ⟨false, pool, setLockedCoins, none, []⟩
  else
    let pool := { pool with finalTransaction := finalTransactionNew }
    match signEntries keystore pool.entries pool.finalTransaction with
    | none =>
      let (pool, setLockedCoins) := pool.UnlockCoins setLockedCoins
      ⟨false, pool.SetNull GetTimeMillis, setLockedCoins, none, []⟩
    | some r =>
      ⟨true, { pool with finalTransaction := r.finalTransaction }, setLockedCoins,
        if 0 < r.sigs.length ∧ hasNode = true then some r.sigs else none, r.fSigned⟩

/-! ## The test in closed form -/

def matched (vout expected : List CTxOut) : List CTxOut :=
  vout.flatMap fun out => (expected.filter fun o =>
    CScript.ToString out.scriptPubKey = CScript.ToString o.scriptPubKey).map fun _ => out

/-- The number and the sum that the loops have after some outputs. -/
def tally (outs : List CTxOut) : Int32 × ℤ :=
  (Int32.ofNat outs.length, wrap64 (outs.map CTxOut.nValue).sum)

theorem tally_concat (outs : List CTxOut) (out : CTxOut) :
    tally (outs ++ [out]) = ((tally outs).1 + 1, wrap64 ((tally outs).2 + out.nValue)) := by
  unfold tally
  simp only [List.length_append, List.length_singleton, List.map_append, List.map_singleton,
    List.sum_append, List.sum_singleton, wrap64_add_wrap64_left, Int32.ofNat_add]
  rfl

theorem tally_expected (outs expected : List CTxOut) (out : CTxOut) :
    expected.foldl (fun (foundOutputs, nValue1) o =>
      if CScript.ToString out.scriptPubKey = CScript.ToString o.scriptPubKey then
        (foundOutputs + 1, wrap64 (nValue1 + out.nValue))
      else (foundOutputs, nValue1)) (tally outs) = tally (outs ++ matched [out] expected) := by
  induction expected generalizing outs with
  | nil => simp [matched]
  | cons o expected ih =>
    rw [List.foldl_cons]
    by_cases htext : CScript.ToString out.scriptPubKey = CScript.ToString o.scriptPubKey
    · have hmatched : matched [out] (o :: expected) = out :: matched [out] expected := by
        simp [matched, htext, List.replicate_succ]
      dsimp only
      rw [if_pos htext, ← tally_concat, ih, hmatched, List.append_assoc, List.singleton_append]
    · have hmatched : matched [out] (o :: expected) = matched [out] expected := by
        simp [matched, htext]
      dsimp only
      rw [if_neg htext, hmatched]
      exact ih outs

theorem matchOutputs_eq (vout expected : List CTxOut) :
    matchOutputs vout expected = tally (matched vout expected) := by
  have hrun : ∀ (outs vout : List CTxOut),
      vout.foldl (fun found out => expected.foldl (fun (foundOutputs, nValue1) o =>
        if CScript.ToString out.scriptPubKey = CScript.ToString o.scriptPubKey then
          (foundOutputs + 1, wrap64 (nValue1 + out.nValue))
        else (foundOutputs, nValue1)) found) (tally outs) = tally (outs ++ matched vout expected) := by
    intro outs vout
    induction vout generalizing outs with
    | nil => simp [matched]
    | cons out vout ih =>
      have hsplit : matched (out :: vout) expected = matched [out] expected ++ matched vout expected := by
        simp [matched]
      rw [List.foldl_cons, tally_expected, ih, hsplit, List.append_assoc]
  exact hrun [] vout

/-- What the test of an entry asks of the outputs: no fewer pairs with the same script than the entry
expects outputs, and the same sum of values. -/
def OutputsMatch (e : CMNengineEntry) (vout : List CTxOut) : Prop :=
  Int32.ofNat e.vout.length ≤ Int32.ofNat (matched vout e.vout).length ∧
    wrap64 ((matched vout e.vout).map CTxOut.nValue).sum = wrap64 (e.vout.map CTxOut.nValue).sum

theorem entryCorrect_iff {finalTransaction : CTransaction} {e : CMNengineEntry} :
    entryCorrect finalTransaction e = true ↔ OutputsMatch e finalTransaction.vout := by
  unfold entryCorrect
  rw [matchOutputs_eq]
  simp only [tally, foldl_wrap64, Bool.not_eq_true', Bool.or_eq_false_iff, decide_eq_false_iff_not,
    not_not]
  exact and_congr_left' (decide_eq_false_iff_not.trans Int32.not_lt)

/-! ## Which entries are tested -/

def ownInputs (entries : List CMNengineEntry) : List (CMNengineEntry × CTxDSIn) :=
  entries.flatMap fun e => e.sev.map fun s => (e, s)

/-- The entries of the own inputs that are found in a transaction, each with whether the input can be
signed. An input that is signed is not found again. -/
def foundEntries (keystore : CKeyStore lib) :
    List (CMNengineEntry × CTxDSIn) → CTransaction → List (CMNengineEntry × Bool)
  | [], _ => []
  | (e, s) :: own, tx =>
    match findMine tx.vin s.toCTxIn with
    | none => foundEntries keystore own tx
    | some mine =>
      let (fSigned, tx) := SignSignature keystore s.prevPubKey tx mine
        (SIGHASH_ALL ||| SIGHASH_ANYONECANPAY).toUInt32
      (e, fSigned) :: foundEntries keystore own tx

theorem findMine_some {vin : List CTxIn} {s : CTxIn} {mine : ℕ} (h : findMine vin s = some mine) :
    vin[mine]? = some s := by
  have hrun : ∀ (is : List ℕ) (found : Option ℕ), (∀ i, found = some i → vin[i]? = some s) →
      ∀ i, is.foldl (fun mine i => if vin[i]? = some s then some i else mine) found = some i →
        vin[i]? = some s := by
    intro is
    induction is with
    | nil => exact fun found hfound => hfound
    | cons i is ih =>
      intro found hfound
      apply ih
      intro j hj
      dsimp only at hj
      split_ifs at hj with hi
      · exact Option.some.inj hj ▸ hi
      · exact hfound j hj
  exact hrun _ none (by simp) mine h

theorem signEntries_eq (keystore : CKeyStore lib) (entries : List CMNengineEntry)
    (finalTransaction : CTransaction) : signEntries keystore entries finalTransaction
      = (ownInputs entries).foldlM (fun r own => signInput keystore own.1 r own.2)
        ⟨finalTransaction, [], []⟩ := by
  unfold signEntries ownInputs
  generalize (⟨finalTransaction, [], []⟩ : Signing) = r
  induction entries generalizing r with
  | nil => rfl
  | cons e entries ih =>
    rw [List.flatMap_cons, List.foldlM_append, List.foldlM_cons, List.foldlM_map]
    exact bind_congr fun r => ih r

def signed (keystore : CKeyStore lib) (r : Signing) (s : CTxDSIn) (mine : ℕ) : Signing :=
  let sign := SignSignature keystore s.prevPubKey r.finalTransaction mine
    (SIGHASH_ALL ||| SIGHASH_ANYONECANPAY).toUInt32
  ⟨sign.2, r.sigs ++ sign.2.vin[mine]?.toList, r.fSigned ++ [sign.1]⟩

theorem vout_signed (keystore : CKeyStore lib) (r : Signing) (s : CTxDSIn) (mine : ℕ) :
    (signed keystore r s mine).finalTransaction.vout = r.finalTransaction.vout := by
  obtain ⟨scriptSig, h⟩ := signSignature_script keystore s.prevPubKey r.finalTransaction mine
    (SIGHASH_ALL ||| SIGHASH_ANYONECANPAY).toUInt32
  rw [signed]
  rw [h]
  rfl

section

variable {keystore : CKeyStore lib} {e : CMNengineEntry} {r : Signing} {s : CTxDSIn} {mine : ℕ}
  {own : List (CMNengineEntry × CTxDSIn)} {tx : CTransaction}

theorem signInput_none (hmine : findMine r.finalTransaction.vin s.toCTxIn = none) :
    signInput keystore e r s = some r := by
  unfold signInput
  rw [hmine]

theorem signInput_refused (hmine : findMine r.finalTransaction.vin s.toCTxIn = some mine)
    (hcor : entryCorrect r.finalTransaction e = false) : signInput keystore e r s = none := by
  unfold signInput
  rw [hmine]
  exact if_pos hcor

theorem signInput_signed (hmine : findMine r.finalTransaction.vin s.toCTxIn = some mine)
    (hcor : entryCorrect r.finalTransaction e = true) :
    signInput keystore e r s = some (signed keystore r s mine) := by
  unfold signInput
  rw [hmine]
  exact if_neg (by rw [hcor]; decide)

theorem foundEntries_none (hmine : findMine tx.vin s.toCTxIn = none) :
    foundEntries keystore ((e, s) :: own) tx = foundEntries keystore own tx := by
  rw [foundEntries, hmine]

theorem foundEntries_some (hmine : findMine r.finalTransaction.vin s.toCTxIn = some mine) :
    foundEntries keystore ((e, s) :: own) r.finalTransaction
      = (e, (SignSignature keystore s.prevPubKey r.finalTransaction mine
            (SIGHASH_ALL ||| SIGHASH_ANYONECANPAY).toUInt32).1)
          :: foundEntries keystore own (signed keystore r s mine).finalTransaction := by
  rw [foundEntries, hmine]
  rfl

end

theorem entryCorrect_congr {tx tx' : CTransaction} (h : tx.vout = tx'.vout) (e : CMNengineEntry) :
    entryCorrect tx e = entryCorrect tx' e := by
  unfold entryCorrect
  rw [h]

theorem foldlM_signInput (keystore : CKeyStore lib) (own : List (CMNengineEntry × CTxDSIn))
    (r : Signing) :
    (own.foldlM (fun r own => signInput keystore own.1 r own.2) r).map Signing.fSigned
      = if ∀ found ∈ foundEntries keystore own r.finalTransaction,
            entryCorrect r.finalTransaction found.1 = true then
          some (r.fSigned ++ (foundEntries keystore own r.finalTransaction).map Prod.snd)
        else none := by
  induction own generalizing r with
  | nil => simp [foundEntries]
  | cons step own ih =>
    obtain ⟨e, s⟩ := step
    rw [List.foldlM_cons]
    rcases hmine : findMine r.finalTransaction.vin s.toCTxIn with _ | mine
    · -- the input is not in the transaction, and the entry is not tested for it
      rw [signInput_none hmine, foundEntries_none hmine]
      exact ih r
    · rw [foundEntries_some hmine]
      rcases hcor : entryCorrect r.finalTransaction e with _ | _
      · rw [signInput_refused hmine hcor]
        simp [hcor]
      · rw [signInput_signed hmine hcor]
        have hrest := ih (signed keystore r s mine)
        -- the tests that follow see the same outputs
        simp only [entryCorrect_congr (vout_signed keystore r s mine)] at hrest
        refine hrest.trans ?_
        simp only [List.forall_mem_cons, hcor, true_and, List.map_cons, signed, List.append_assoc,
          List.singleton_append]

def SameSpend (s s' : CTxIn) : Prop := s.prevout = s'.prevout ∧ s.nSequence = s'.nSequence

theorem signEntries_fSigned (keystore : CKeyStore lib) (entries : List CMNengineEntry)
    (tx : CTransaction) :
    (signEntries keystore entries tx).map Signing.fSigned
      = if ∀ found ∈ foundEntries keystore (ownInputs entries) tx, entryCorrect tx found.1 = true then
          some ((foundEntries keystore (ownInputs entries) tx).map Prod.snd)
        else none := by
  rw [signEntries_eq, foldlM_signInput]
  rfl

/-! ## What a client signs -/

/-- The call has signed an input, in the transaction that the pool keeps. -/
def SignResult.AddsSignatures (result : SignResult) : Prop := true ∈ result.fSigned

def Complete (entries : List CMNengineEntry) (tx : CTransaction) : Prop :=
  (entries.flatMap CMNengineEntry.vout : Multiset CTxOut) ≤ tx.vout

theorem fSigned_signFinalTransaction (GetTimeMillis : ℤ) (keystore : CKeyStore lib)
    (setLockedCoins : Finset COutPoint) (pool : CMNenginePool) (tx : CTransaction) (hasNode : Bool) :
    (SignFinalTransaction false GetTimeMillis keystore setLockedCoins pool tx hasNode).fSigned
      = ((signEntries keystore pool.entries tx).map Signing.fSigned).getD [] := by
  unfold SignFinalTransaction
  rw [if_neg Bool.false_ne_true]
  dsimp only
  cases signEntries keystore pool.entries tx with
  | none => rfl
  | some r => rfl

theorem addsSignatures_iff (fFloatingCity : Bool) (GetTimeMillis : ℤ) (keystore : CKeyStore lib)
    (setLockedCoins : Finset COutPoint) (pool : CMNenginePool) (tx : CTransaction) (hasNode : Bool) :
    (SignFinalTransaction fFloatingCity GetTimeMillis keystore setLockedCoins pool tx
        hasNode).AddsSignatures ↔
      fFloatingCity = false ∧
        (∃ found ∈ foundEntries keystore (ownInputs pool.entries) tx, found.2 = true) ∧
        ∀ found ∈ foundEntries keystore (ownInputs pool.entries) tx, OutputsMatch found.1 tx.vout := by
  unfold SignResult.AddsSignatures
  cases fFloatingCity with
  | true => simp [SignFinalTransaction]
  | false =>
    simp only [fSigned_signFinalTransaction, signEntries_fSigned, ← entryCorrect_iff, true_and]
    split_ifs with hall
    · rw [Option.getD_some, List.mem_map]
      exact ⟨fun h => ⟨h, hall⟩, fun h => h.1⟩
    · -- the call has refused
      exact ⟨fun h => absurd h List.not_mem_nil, fun h => absurd h.2 hall⟩

/-! ## When the count is right -/

/-- The outputs that the test takes for an expected one. -/
def taken (vout : List CTxOut) (o : CTxOut) : List CTxOut :=
  vout.filter fun out => CScript.ToString out.scriptPubKey = CScript.ToString o.scriptPubKey

theorem mem_taken {vout : List CTxOut} {o out : CTxOut} : out ∈ taken vout o ↔
    out ∈ vout ∧ CScript.ToString out.scriptPubKey = CScript.ToString o.scriptPubKey := by
  rw [taken, List.mem_filter, decide_eq_true_iff]

theorem matched_perm (vout expected : List CTxOut) :
    (matched vout expected).Perm (expected.flatMap (taken vout)) := by
  induction vout with
  | nil => simp [matched, taken]
  | cons out vout ih =>
    have hsplit : matched (out :: vout) expected = matched [out] expected ++ matched vout expected := by
      simp [matched]
    rw [hsplit]
    refine (ih.append_left _).trans ?_
    clear hsplit ih
    -- the outputs that the first output is counted for move in front of the others
    induction expected with
    | nil => simp [matched]
    | cons o expected ih =>
      by_cases htext : CScript.ToString out.scriptPubKey = CScript.ToString o.scriptPubKey
      · have htaken : taken (out :: vout) o = out :: taken vout o := by simp [taken, htext]
        have hmatched : matched [out] (o :: expected) = out :: matched [out] expected := by
          simp [matched, htext, List.replicate_succ]
        rw [List.flatMap_cons, List.flatMap_cons, htaken, hmatched]
        exact ((List.perm_append_comm_assoc _ _ _).trans (ih.append_left _)).cons _
      · have htaken : taken (out :: vout) o = taken vout o := by simp [taken, htext]
        have hmatched : matched [out] (o :: expected) = matched [out] expected := by
          simp [matched, htext]
        rw [List.flatMap_cons, List.flatMap_cons, htaken, hmatched]
        exact (List.perm_append_comm_assoc _ _ _).trans (ih.append_left _)

theorem length_matched (vout expected : List CTxOut) : (matched vout expected).length
    = (expected.map fun o => (taken vout o).length).sum := by
  rw [(matched_perm vout expected).length_eq, List.length_flatMap]

theorem values_matched (vout expected : List CTxOut) : ((matched vout expected).map nValue).sum
    = (expected.map fun o => ((taken vout o).map nValue).sum).sum := by
  rw [((matched_perm vout expected).map _).sum_eq]
  induction expected with
  | nil => rfl
  | cons o expected ih =>
    rw [List.flatMap_cons, List.map_append, List.sum_append, ih, List.map_cons, List.sum_cons]

/-- Numbers that are bounded one by one are equal when their sums are. -/
theorem eq_of_sum_eq {α M : Type*} [AddCommMonoid M] [LinearOrder M] [IsOrderedCancelAddMonoid M]
    {l : List α} {f g : α → M} (hle : ∀ a ∈ l, f a ≤ g a) (hsum : (l.map g).sum ≤ (l.map f).sum) :
    ∀ a ∈ l, f a = g a := by
  intro a hmem
  by_contra hne
  exact absurd hsum (List.sum_lt_sum f g hle ⟨a, hmem, (hle a hmem).lt_of_ne hne⟩).not_ge

/-- Each entry has an input in the transaction, of its own, and the numbers of the test are exact. -/
structure Tested (entries : List CMNengineEntry) (tx : CTransaction) : Prop where
  inputs : ((ownInputs entries).map fun own => own.2.prevout).Nodup
  found : ∀ e ∈ entries, ∃ s ∈ e.sev, s.toCTxIn ∈ tx.vin
  counts : ∀ e ∈ entries, e.vout.length < 2 ^ 31
  sums : ∀ e ∈ entries, Fits64 ((matched tx.vout e.vout).map CTxOut.nValue).sum ∧
    Fits64 (e.vout.map CTxOut.nValue).sum

/-- To count the pairs is to count the outputs: no two expected outputs have scripts of the same text,
and for each of them there is at most one output, which has its script and at least its value. -/
structure CountsOnce (entries : List CMNengineEntry) (tx : CTransaction) : Prop where
  distinct : ((entries.flatMap CMNengineEntry.vout).map fun o =>
    CScript.ToString o.scriptPubKey).Nodup
  once : ∀ e ∈ entries, ∀ o ∈ e.vout, (taken tx.vout o).length ≤ 1
  enough : ∀ e ∈ entries, ∀ o ∈ e.vout, ∀ out ∈ taken tx.vout o,
    out.scriptPubKey = o.scriptPubKey ∧ o.nValue ≤ out.nValue

theorem exists_findMine {vin : List CTxIn} {s : CTxIn} (h : s ∈ vin) :
    ∃ mine, findMine vin s = some mine := by
  obtain ⟨j, hj⟩ := List.mem_iff_getElem?.mp h
  have hrun : ∀ (is : List ℕ) (found : Option ℕ), found.isSome = true ∨ j ∈ is →
      (is.foldl (fun mine i => if vin[i]? = some s then some i else mine) found).isSome = true := by
    intro is
    induction is with
    | nil => exact fun found hfound => hfound.resolve_right List.not_mem_nil
    | cons i is ih =>
      refine fun found hfound => ih _ ?_
      dsimp only
      split_ifs with hi
      · exact .inl rfl
      · refine hfound.imp_right fun hmem => (List.mem_cons.mp hmem).resolve_left ?_
        rintro rfl
        exact hi hj
  exact Option.isSome_iff_exists.mp
    (hrun _ none (.inr (List.mem_range.mpr (List.getElem?_eq_some_iff.mp hj).1)))

/-- An entry is tested when an input of it is in the transaction: signing the inputs of others does
not change it. -/
theorem mem_foundEntries (keystore : CKeyStore lib) {own : List (CMNengineEntry × CTxDSIn)}
    {tx : CTransaction} (hins : (own.map fun own => own.2.prevout).Nodup) {e : CMNengineEntry}
    {s : CTxDSIn} (hown : (e, s) ∈ own) (hmem : s.toCTxIn ∈ tx.vin) :
    ∃ fSigned, (e, fSigned) ∈ foundEntries keystore own tx := by
  induction own generalizing tx with
  | nil => cases hown
  | cons step own ih =>
    obtain ⟨e', s'⟩ := step
    rw [List.map_cons, List.nodup_cons] at hins
    unfold foundEntries
    rcases List.mem_cons.mp hown with heq | hown
    · cases heq
      obtain ⟨mine, hmine⟩ := exists_findMine hmem
      rw [hmine]
      exact ⟨_, List.mem_cons_self⟩
    · rcases hmine : findMine tx.vin s'.toCTxIn with _ | mine
      · exact ih hins.2 hown hmem
      · obtain ⟨scriptSig, hscr⟩ := signSignature_script keystore s'.prevPubKey tx mine
          (SIGHASH_ALL ||| SIGHASH_ANYONECANPAY).toUInt32
        have hkept : s.toCTxIn ∈ (SignSignature keystore s'.prevPubKey tx mine
            (SIGHASH_ALL ||| SIGHASH_ANYONECANPAY).toUInt32).2.vin := by
          obtain ⟨j, hj⟩ := List.mem_iff_getElem?.mp hmem
          have hother : mine ≠ j := by
            rintro rfl
            have hsame := Option.some.inj ((findMine_some hmine).symm.trans hj)
            have hprev : s'.prevout = s.prevout := congrArg CTxIn.prevout hsame
            exact hins.1 (List.mem_map.mpr ⟨_, hown, hprev.symm⟩)
          rw [hscr]
          exact List.mem_iff_getElem?.mpr ⟨j, (List.getElem?_modify_ne _ _ hother).trans hj⟩
        obtain ⟨fSigned, hfound⟩ := ih hins.2 hown hkept
        exact ⟨fSigned, List.mem_cons_of_mem _ hfound⟩

theorem outputsMatch_of_tested {keystore : CKeyStore lib} {entries : List CMNengineEntry}
    {tx : CTransaction} (h : Tested entries tx)
    (hmatch : ∀ found ∈ foundEntries keystore (ownInputs entries) tx, OutputsMatch found.1 tx.vout)
    {e : CMNengineEntry} (he : e ∈ entries) :
    Int32.ofNat e.vout.length ≤ Int32.ofNat (e.vout.map fun o => (taken tx.vout o).length).sum ∧
      (e.vout.map fun o => ((taken tx.vout o).map nValue).sum).sum
        = (e.vout.map nValue).sum := by
  obtain ⟨s, hs, hmem⟩ := h.found e he
  obtain ⟨fSigned, hfound⟩ := mem_foundEntries keystore h.inputs
    (List.mem_flatMap.mpr ⟨e, he, List.mem_map.mpr ⟨s, hs, rfl⟩⟩) hmem
  obtain ⟨hcnt, hsum⟩ := hmatch _ hfound
  obtain ⟨hfits, hfits'⟩ := h.sums e he
  rw [wrap64_eq_self_iff.mpr hfits, wrap64_eq_self_iff.mpr hfits', values_matched] at hsum
  rw [length_matched] at hcnt
  exact ⟨hcnt, hsum⟩

/-- Where each expected output is counted once, all of them are in the transaction. -/
theorem complete_of_countsOnce {entries : List CMNengineEntry} {tx : CTransaction}
    (hcnts : ∀ e ∈ entries, e.vout.length < 2 ^ 31) (h : CountsOnce entries tx)
    (hmatch : ∀ e ∈ entries,
      Int32.ofNat e.vout.length ≤ Int32.ofNat (e.vout.map fun o => (taken tx.vout o).length).sum ∧
        (e.vout.map fun o => ((taken tx.vout o).map nValue).sum).sum
          = (e.vout.map nValue).sum) : Complete entries tx := by
  refine (Multiset.le_iff_subset (Multiset.coe_nodup.mpr h.distinct.of_map)).mpr fun o ho => ?_
  obtain ⟨e, he, ho⟩ := List.mem_flatMap.mp ho
  obtain ⟨hcnt, hsum⟩ := hmatch e he
  have hones : (e.vout.map fun _ => 1).sum = e.vout.length := by simp
  have hsmall := List.sum_le_sum (h.once e he)
  have hlen := hcnts e he
  rw [Int32.ofNat_le_iff_le hlen (by omega), ← hones] at hcnt
  -- each expected output has one output, since none has more
  have hone : ∀ o ∈ e.vout, ∃ out, taken tx.vout o = [out] := fun o ho =>
    List.length_eq_one_iff.mp (eq_of_sum_eq (h.once e he) hcnt o ho)
  have hval : ∀ o ∈ e.vout, o.nValue ≤ ((taken tx.vout o).map nValue).sum := by
    intro o ho
    obtain ⟨out, hout⟩ := hone o ho
    have := (h.enough e he o ho out (by rw [hout]; exact List.mem_singleton_self out)).2
    rw [hout]
    simpa using this
  -- none has more value either, so it is the one that is expected
  have hsame := eq_of_sum_eq hval hsum.le o ho
  obtain ⟨out, hout⟩ := hone o ho
  have hmem : out ∈ taken tx.vout o := by
    rw [hout]
    exact List.mem_singleton_self out
  have hscr := (h.enough e he o ho out hmem).1
  rw [hout, List.map_singleton, List.sum_singleton] at hsame
  have heq : out = o := by
    cases out
    cases o
    exact CTxOut.mk.injEq .. ▸ ⟨hsame.symm, hscr⟩
  exact heq ▸ (mem_taken.mp hmem).1

/-- Where the outputs are worth something, a transaction with all expected outputs that passes the test
counts each of them once. -/
theorem countsOnce_of_complete {entries : List CMNengineEntry} {tx : CTransaction}
    (hpos : ∀ out ∈ tx.vout, 0 < out.nValue) (h : Complete entries tx)
    (hsum : ∀ e ∈ entries, (e.vout.map fun o => ((taken tx.vout o).map nValue).sum).sum
      = (e.vout.map nValue).sum) : CountsOnce entries tx := by
  have hone : ∀ e ∈ entries, ∀ o ∈ e.vout, taken tx.vout o = [o] := by
    intro e he
    have hmem : ∀ o ∈ e.vout, o ∈ taken tx.vout o := fun o ho => mem_taken.mpr
      ⟨Multiset.subset_of_le h (List.mem_flatMap.mpr ⟨e, he, ho⟩), rfl⟩
    have hsplit : ∀ o ∈ e.vout, ((taken tx.vout o).map nValue).sum
        = o.nValue + (((taken tx.vout o).erase o).map nValue).sum := fun o ho => by
      rw [((List.perm_cons_erase (hmem o ho)).map _).sum_eq, List.map_cons, List.sum_cons]
    have hrest : ∀ o, ∀ v ∈ ((taken tx.vout o).erase o).map nValue, 0 < v := by
      intro o v hv
      obtain ⟨out, hout, rfl⟩ := List.mem_map.mp hv
      exact hpos out (mem_taken.mp (List.mem_of_mem_erase hout)).1
    have hval : ∀ o ∈ e.vout, o.nValue ≤ ((taken tx.vout o).map nValue).sum := by
      intro o ho
      have := List.sum_nonneg fun v hv => (hrest o v hv).le
      rw [hsplit o ho]
      omega
    intro o ho
    have hsame := eq_of_sum_eq hval (hsum e he).le o ho
    rw [hsplit o ho] at hsame
    -- the other outputs that the test takes are worth nothing, so there are none
    have hnil : (taken tx.vout o).erase o = [] := by
      by_contra hne
      have := List.sum_pos _ (hrest o) fun hnil => hne (List.map_eq_nil_iff.mp hnil)
      omega
    have hperm := List.perm_cons_erase (hmem o ho)
    rw [hnil] at hperm
    exact List.perm_singleton.mp hperm
  refine ⟨List.nodup_iff_count_le_one.mpr fun text => ?_, fun e he o ho => ?_,
    fun e he o ho out hout => ?_⟩
  · by_cases hmem : text ∈ (entries.flatMap CMNengineEntry.vout).map fun o =>
        CScript.ToString o.scriptPubKey
    · obtain ⟨o, ho, rfl⟩ := List.mem_map.mp hmem
      obtain ⟨e, he, ho⟩ := List.mem_flatMap.mp ho
      have hcnt := Multiset.countP_le_of_le
        (fun out => CScript.ToString out.scriptPubKey = CScript.ToString o.scriptPubKey) h
      have htaken : (taken tx.vout o).length = 1 := by rw [hone e he o ho]; rfl
      rw [Multiset.coe_countP, Multiset.coe_countP, List.countP_eq_length_filter (l := tx.vout)] at hcnt
      rw [List.count, List.countP_map]
      exact hcnt.trans htaken.le
    · rw [List.count_eq_zero_of_not_mem hmem]
      exact Nat.zero_le 1
  · rw [hone e he o ho]
    exact le_rfl
  · rw [hone e he o ho, List.mem_singleton] at hout
    rw [hout]
    exact ⟨rfl, le_rfl⟩

def twiceEntry : CMNengineEntry :=
  ⟨[⟨⟨⟨1, 0⟩, [], 0xffffffff⟩, plainScript⟩], [⟨10, plainScript⟩, ⟨10, plainScript⟩]⟩

def twicePool : CMNenginePool :=
  ⟨[twiceEntry], ⟨1, 0, [], [], 0⟩, 0, POOL_STATUS_IDLE, 1, 0, 0, [], 0, 0, true, []⟩

def onceTransaction : CTransaction :=
  ⟨1, 0, [⟨⟨1, 0⟩, [], 0xffffffff⟩], [⟨10, plainScript⟩], 0⟩

def pairEntry : CMNengineEntry :=
  ⟨[⟨⟨⟨1, 0⟩, [], 0xffffffff⟩, plainScript⟩], [⟨10, [OP_1]⟩, ⟨20, [OP_16]⟩]⟩

def pairTransaction : CTransaction :=
  ⟨1, 0, [⟨⟨1, 0⟩, [], 0xffffffff⟩], [⟨20, [OP_16]⟩, ⟨7, [OP_EQUAL]⟩, ⟨10, [OP_1]⟩], 0⟩

end ZalemCoin.Mixing
