import ZalemCoin.Chain.BlockSums

/-!
# The value of the unspent outputs

When no identifier comes again, the value of an output is known from the transactions that have been
connected. With it the value of the unspent outputs changes by what a block creates less what it
spends, and the sums that `ConnectBlock` carries are those of the block.
-/

namespace ZalemCoin.Chain

open Lib
open Ledger (recorded_ledgerOf ledgerOf)

variable (ctx : Context)

def outputValue (placed : Placed) (k : UInt256 × ℕ) : ℤ :=
  match placed.find? fun p => ctx.hashTx p.2 == k.1 with
  | some p => ((p.2.vout[k.2]?).map CTxOut.nValue).getD 0
  | none => 0

/-- What the outputs that a transaction spends are worth. -/
def CTransaction.valueIn (placed : Placed) (tx : CTransaction) : ℤ :=
  (tx.spentSlots.map (outputValue ctx placed)).sum

def txSums (placed : Placed) (tx : CTransaction) : BlockSums where
  valueIn := tx.valueIn ctx placed
  valueOut := tx.valueOut
  fees := if tx.IsCoinBase || tx.IsCoinStake then 0 else tx.valueIn ctx placed - tx.valueOut

/-- The sums of transactions that are connected after others. -/
def blockSums (ctx : Context) : Placed → Placed → BlockSums
  | _, [] => ⟨0, 0, 0⟩
  | before, p :: rest => (txSums ctx before p.2).add (blockSums ctx (before ++ [p]) rest)

theorem blockSums_concat (ctx : Context) (before done : Placed) (p : CDiskTxPos × CTransaction) :
    blockSums ctx before (done ++ [p])
      = (blockSums ctx before done).add (txSums ctx (before ++ done) p.2) := by
  induction done generalizing before with
  | nil => simp [blockSums, BlockSums.add]
  | cons q done ih =>
    rw [List.cons_append, blockSums, blockSums, ih]
    simp only [BlockSums.add, List.append_assoc, List.cons_append, List.nil_append, add_assoc]

/-! ## The value of an output -/

def DistinctIds (placed : Placed) : Prop :=
  placed.Pairwise fun p q => ctx.hashTx p.2 ≠ ctx.hashTx q.2

variable {ctx : Context} {placed before : Placed} {L : Ledger UInt256 CDiskTxPos}
  {p : CDiskTxPos × CTransaction}

theorem distinctIds_of_recorded (h : Ledger.Recorded CDiskTxPos.null (spendsOf ctx placed) L) :
    DistinctIds ctx placed := by
  have hdist := h.distinct
  unfold spendsOf at hdist
  rw [List.pairwise_map] at hdist
  exact hdist

theorem find?_hashTx (hdist : DistinctIds ctx placed) (hp : p ∈ placed) :
    placed.find? (fun q => ctx.hashTx q.2 == ctx.hashTx p.2) = some p := by
  induction placed with
  | nil => simp at hp
  | cons q placed ih =>
    obtain ⟨hq, hrest⟩ := List.pairwise_cons.mp hdist
    rcases List.mem_cons.mp hp with rfl | hp
    · exact List.find?_cons_of_pos (by simp)
    · rw [List.find?_cons_of_neg (by simpa using hq p hp)]
      exact ih hrest hp

theorem outputValue_of_mem (hdist : DistinctIds ctx placed) (hp : p ∈ placed) (n : ℕ) :
    outputValue ctx placed (ctx.hashTx p.2, n) = ((p.2.vout[n]?).map CTxOut.nValue).getD 0 := by
  unfold outputValue
  rw [find?_hashTx hdist hp]

theorem outputValue_append (placed' : Placed) {k : UInt256 × ℕ}
    (hk : ∃ p ∈ placed, ctx.hashTx p.2 = k.1) :
    outputValue ctx (placed ++ placed') k = outputValue ctx placed k := by
  unfold outputValue
  rw [List.find?_append]
  obtain ⟨p, hp, hid⟩ := hk
  rcases hfind : placed.find? fun p => ctx.hashTx p.2 == k.1 with _ | q
  · have hnone := List.find?_eq_none.mp hfind p hp
    simp [hid] at hnone
  · rw [hfind]
    rfl

theorem outputValue_nonneg (h : ∀ p ∈ placed, ∀ txout ∈ p.2.vout, 0 ≤ txout.nValue)
    (k : UInt256 × ℕ) : 0 ≤ outputValue ctx placed k := by
  unfold outputValue
  split
  · rename_i p hfind
    rcases hout : p.2.vout[k.2]? with _ | txout
    · simp
    · simpa using h p (List.mem_of_find?_eq_some hfind) txout (List.mem_of_getElem? hout)
  · simp

/-- What the transactions of a ledger are worth as far as they are unspent. -/
def ledgerValue (ctx : Context) (placed : Placed) : ℤ :=
  ∑ k ∈ Ledger.unspentOutputs CDiskTxPos.null (spendsOf ctx placed)
    (Ledger.ledgerOf CDiskTxPos.null (spendsOf ctx placed)), outputValue ctx placed k

theorem ledgerValue_concat (hplaced : WellPlaced ctx (placed ++ [p]))
    (hconn : Ledger.Connects CDiskTxPos.null (fun _ => none) (spendsOf ctx (placed ++ [p]))) :
    ledgerValue ctx (placed ++ [p])
      = ledgerValue ctx placed - p.2.valueIn ctx placed + p.2.valueOut := by
  have hpos := hplaced.pos_ne_null
  rw [spendsOf_append] at hconn hpos
  obtain ⟨hbef, henabled, -⟩ := Ledger.connects_append.mp hconn
  have hrec := recorded_ledgerOf
    (fun t ht => hpos t (List.mem_append_left _ ht)) hbef
  have hdist : DistinctIds ctx (placed ++ [p]) := by
    refine distinctIds_of_recorded (recorded_ledgerOf ?_ ?_) <;> rw [spendsOf_append]
    · exact hpos
    · exact hconn
  -- The outputs that existed before keep their values.
  have hold (k : UInt256 × ℕ)
      (hk : Ledger.slot (ledgerOf CDiskTxPos.null (spendsOf ctx placed)) k ≠ none) :
      outputValue ctx (placed ++ [p]) k = outputValue ctx placed k := by
    refine outputValue_append [p] ?_
    obtain ⟨t, ht, hkt⟩ := List.mem_flatMap.mp ((hrec.slot_ne_none_iff k).mp hk)
    obtain ⟨q, hq, rfl⟩ := List.mem_map.mp ht
    obtain ⟨n, -, rfl⟩ := List.mem_map.mp hkt
    exact ⟨q, hq, rfl⟩
  have hunspent : ∑ k ∈ Ledger.unspentOutputs CDiskTxPos.null (spendsOf ctx placed)
        (ledgerOf CDiskTxPos.null (spendsOf ctx placed)), outputValue ctx (placed ++ [p]) k
      = ledgerValue ctx placed := by
    refine Finset.sum_congr rfl fun k hk => hold k ?_
    rw [hrec.mem_unspentOutputs.mp hk]
    simp
  have hins : ((p.2.spend ctx p.1).inputs.map (outputValue ctx (placed ++ [p]))).sum
      = p.2.valueIn ctx placed := by
    unfold CTransaction.valueIn
    refine congrArg List.sum (List.map_congr_left fun k hk => hold k ?_)
    have hfree := henabled.unspent k hk
    change Ledger.slot (ledgerOf CDiskTxPos.null (spendsOf ctx placed)) k
      = some CDiskTxPos.null at hfree
    rw [hfree]
    simp
  have houtputs : ((p.2.spend ctx p.1).outputs.map (outputValue ctx (placed ++ [p]))).sum
      = p.2.valueOut := by
    unfold Spend.outputs CTransaction.valueOut
    rw [List.map_map]
    refine congrArg List.sum (List.ext_getElem (by simp [CTransaction.spend]) fun n h₁ h₂ => ?_)
    rw [List.length_map] at h₂
    rw [List.getElem_map, List.getElem_range, List.getElem_map, Function.comp_apply]
    change outputValue ctx (placed ++ [p]) (ctx.hashTx p.2, n) = _
    rw [outputValue_of_mem hdist (by simp), List.getElem?_eq_getElem h₂]
    rfl
  have hsum := Ledger.sum_unspentOutputs_connect (outputValue ctx (placed ++ [p])) hrec hpos
    henabled
  rw [hunspent, hins, houtputs] at hsum
  unfold ledgerValue at hsum ⊢
  rw [← hsum, spendsOf_append, ledgerOf, List.foldl_append]
  rfl

theorem ledgerValue_append (hplaced : WellPlaced ctx (before ++ placed))
    (hconn : Ledger.Connects CDiskTxPos.null (fun _ => none) (spendsOf ctx (before ++ placed))) :
    ledgerValue ctx (before ++ placed) = ledgerValue ctx before
      + (blockSums ctx before placed).valueOut - (blockSums ctx before placed).valueIn := by
  induction placed using List.reverseRecOn with
  | nil => simp [blockSums]
  | append_singleton placed p ih =>
    rw [← List.append_assoc] at hplaced hconn ⊢
    have hbef := (wellPlaced_append.mp hplaced).1
    have hconn' := hconn
    rw [spendsOf_append, Ledger.connects_append] at hconn'
    rw [ledgerValue_concat hplaced hconn, ih hbef hconn'.1, blockSums_concat]
    simp only [BlockSums.add, txSums]
    omega

/-! ## The sums that `ConnectBlock` carries -/

theorem exists_placed_of_recorded
    (hrec : Ledger.Recorded CDiskTxPos.null (spendsOf ctx placed) L) {h : UInt256}
    {e : CTxIndex} (he : L h = some e) : ∃ p ∈ placed, ctx.hashTx p.2 = h ∧ e.pos = p.1 := by
  have hex : ¬∀ t ∈ spendsOf ctx placed, t.id ≠ h := by
    rw [← hrec.absent, he]
    simp
  push Not at hex
  obtain ⟨t, ht, hid⟩ := hex
  have hpos := hrec.pos t ht
  obtain ⟨p, hp, rfl⟩ := List.mem_map.mp ht
  rw [hid, he] at hpos
  exact ⟨p, hp, hid, Option.some.inj hpos⟩

theorem onDisk_of_recorded (hplaced : WellPlaced ctx placed)
    (hrec : Ledger.Recorded CDiskTxPos.null (spendsOf ctx placed) L) : OnDisk L := by
  intro h e he
  obtain ⟨p, hp, -, hpos⟩ := exists_placed_of_recorded hrec he
  rw [hpos]
  exact (hplaced p hp).2.2

theorem outputValue_eq_slotValue (hplaced : WellPlaced ctx placed)
    (hrec : Ledger.Recorded CDiskTxPos.null (spendsOf ctx placed) L) {k : UInt256 × ℕ}
    (hk : Ledger.slot L k = some CDiskTxPos.null) :
    outputValue ctx placed k = Ledger.slotValue (valueAt ctx) L k := by
  obtain ⟨e, he, -⟩ := Option.bind_eq_some_iff.mp hk
  obtain ⟨p, hp, hid, hpos⟩ := exists_placed_of_recorded hrec he
  have hval := outputValue_of_mem (distinctIds_of_recorded hrec) hp k.2
  unfold Ledger.slotValue
  rw [he, Option.map_some, Option.getD_some, hpos, valueAt_eq (hplaced p hp).1, ← hval, hid]

theorem blockSums_eq_ledgerSums (hplaced : WellPlaced ctx (before ++ placed))
    (hconn : Ledger.Connects CDiskTxPos.null (fun _ => none) (spendsOf ctx (before ++ placed))) :
    blockSums ctx before placed
      = ledgerSums ctx (ledgerOf CDiskTxPos.null (spendsOf ctx before)) placed := by
  induction placed generalizing before with
  | nil => rfl
  | cons p placed ih =>
    have hbef := (wellPlaced_append.mp hplaced).1
    have hconn' := hconn
    rw [spendsOf_append, Ledger.connects_append] at hconn'
    have hrec := recorded_ledgerOf hbef.pos_ne_null hconn'.1
    have hval : p.2.valueIn ctx before
        = p.2.spentValue ctx (ledgerOf CDiskTxPos.null (spendsOf ctx before)) :=
      congrArg List.sum (List.map_congr_left fun k hk =>
        outputValue_eq_slotValue hbef hrec (hconn'.2.1.unspent k hk))
    have htx : txSums ctx before p.2
        = txLedgerSums ctx (ledgerOf CDiskTxPos.null (spendsOf ctx before)) p.2 := by
      unfold txSums txLedgerSums CTransaction.IsOrdinary
      rw [hval]
      cases p.2.IsCoinBase || p.2.IsCoinStake <;> rfl
    have hled : ledgerOf CDiskTxPos.null (spendsOf ctx (before ++ [p]))
        = Ledger.connect CDiskTxPos.null
          (ledgerOf CDiskTxPos.null (spendsOf ctx before)) (p.2.spend ctx p.1) := by
      unfold ledgerOf
      rw [spendsOf_append, List.foldl_append]
      rfl
    rw [List.append_cons] at hplaced hconn
    rw [blockSums, ledgerSums, htx, ih hplaced hconn, hled]

theorem connectTransactions_sums {env : Env} {s : NodeState} {block : CBlock} {pindex : CBlockIndex}
    {acc : ConnectAcc} (h : connectTransactions ctx env s block pindex false = .ok acc)
    (hchks : ∀ tx ∈ block.vtx, (tx.vin.map CTxIn.prevout).Nodup ∧ ∀ txout ∈ tx.vout, 0 ≤ txout.nValue)
    (hstor : ctx.files.block pindex.nFile pindex.nBlockPos = some block)
    (hplaced : WellPlaced ctx before)
    (hconn : Ledger.Connects CDiskTxPos.null (fun _ => none) (spendsOf ctx before))
    (hled : s.txdb.txIndex = ledgerOf CDiskTxPos.null (spendsOf ctx before))
    (hconnects : Ledger.Connects CDiskTxPos.null s.txdb.txIndex
      (blockSpends ctx pindex.nFile pindex.nBlockPos block.vtx)) :
    SumsAre acc (blockSums ctx before
      (placedTransactions pindex.nFile pindex.nBlockPos block.vtx)) := by
  have hrec := recorded_ledgerOf hplaced.pos_ne_null hconn
  have hdisk : OnDisk s.txdb.txIndex := by
    rw [hled]
    exact onDisk_of_recorded hplaced hrec
  have hsums := (connectTransactions_summed h hchks hstor hdisk).sums
  rw [blockSums_eq_ledgerSums, ← hled]
  · exact hsums
  · exact wellPlaced_append.mpr ⟨hplaced, wellPlaced_placedTransactions hstor⟩
  · rw [spendsOf_append, Ledger.connects_append]
    refine ⟨hconn, ?_⟩
    rw [hled] at hconnects
    exact hconnects

end ZalemCoin.Chain
