import ZalemCoin.Chain.Runs

/-!
# What has been spent, and the money supply

In every state that a run reaches, the transaction index marks the outputs that the connected
transactions spend, each for its one spender. The supply that the best block records is what the
unspent outputs are worth, as long as that fits into 64 bits; and the mint of the best block and the
fees account for the difference to the supply before it, as long as the mint fits.
-/

namespace ZalemCoin.Chain

open Lib

theorem wrap64_account (a b c : ℤ) : wrap64 (wrap64 a + wrap64 (b + c) - c) = wrap64 (a + b) :=
  calc wrap64 (wrap64 a + wrap64 (b + c) - c)
      = wrap64 (wrap64 (wrap64 a + wrap64 (b + c)) - c) := (wrap64_sub_wrap64_left _ _).symm
    _ = wrap64 (a + (b + c) - c) := by
        rw [wrap64_add_wrap64_left, wrap64_add_wrap64_right, wrap64_sub_wrap64_left]
    _ = wrap64 (a + b) := by
        congr 1
        omega

variable (ctx : Context)

/-- What the transaction index says about the outputs that connected transactions spend. -/
structure MarksSpent (s : NodeState) (path : List UInt256) : Prop where
  once : ∀ t ∈ connectedTxs ctx s path, ∀ u ∈ connectedTxs ctx s path, ∀ k ∈ t.2.spentSlots,
    k ∈ u.2.spentSlots → t = u
  spender : ∀ t ∈ connectedTxs ctx s path, ∀ k ∈ t.2.spentSlots,
    Ledger.slot s.txdb.txIndex k = some t.1
  /-- An output is marked exactly when a connected transaction spends it. -/
  marked : ∀ k, (∃ pos, Ledger.slot s.txdb.txIndex k = some pos ∧ pos ≠ CDiskTxPos.null) ↔
    ∃ t ∈ connectedTxs ctx s path, k ∈ t.2.spentSlots

/-- The supply that the best block records is what the unspent outputs of the connected
transactions are worth, and its mint and the fees account for the difference to the supply of the
block before it. -/
structure ConservedAt (s : NodeState) (tip : UInt256) (path : List UInt256) :
    Prop where
  branch : Branch s.parent tip path
  pindexBest : s.pindexBest = some tip
  spent : MarksSpent ctx s path
  supply : ∀ i, s.mapBlockIndex tip = some i →
    i.nMoneySupply = ledgerValue ctx (connectedTxs ctx s path)
  difference : ∀ q rest i j, path = tip :: q :: rest → s.mapBlockIndex tip = some i →
    s.mapBlockIndex q = some j →
    i.nMoneySupply - j.nMoneySupply = i.nMint - (tipSums ctx s tip (q :: rest)).fees

def Conserved (s : NodeState) : Prop := ∃ tip path, ConservedAt ctx s tip path

/-- What the unspent outputs are worth and what the last block mints fit into 64 bits. -/
structure FitsAt (s : NodeState) (tip : UInt256) (path : List UInt256) : Prop where
  supply : ledgerValue ctx (connectedTxs ctx s path) < 2 ^ 63
  mint : ∀ q rest, path = tip :: q :: rest → Fits64 ((tipSums ctx s tip (q :: rest)).valueOut
    - (tipSums ctx s tip (q :: rest)).valueIn + (tipSums ctx s tip (q :: rest)).fees)

section

variable {ctx : Context} {s : NodeState} {tip : UInt256} {above : List UInt256}

theorem Connected.marksSpent (h : Connected ctx s tip above) : MarksSpent ctx s (tip :: above) := by
  have hrec := h.chained.recorded
  rw [← h.ledger] at hrec
  have hpos := h.chained.wellPlaced.pos_ne_null
  have hmem : ∀ {t}, t ∈ connectedTxs ctx s (tip :: above) →
      t.2.spend ctx t.1 ∈ spendsOf ctx (connectedTxs ctx s (tip :: above)) :=
    fun ht => List.mem_map_of_mem ht
  have hspent : ∀ t ∈ connectedTxs ctx s (tip :: above), ∀ k ∈ t.2.spentSlots,
      Ledger.slot s.txdb.txIndex k = some t.1 :=
    fun t ht k hk => hrec.spent _ (hmem ht) k hk
  refine ⟨fun t ht u hu k hkt hku => ?_, hspent, fun k => ⟨?_, ?_⟩⟩
  · by_contra hne
    have hexclusive := hrec.exclusive
    unfold spendsOf at hexclusive
    rw [List.pairwise_map] at hexclusive
    have hsymm : Std.Symm fun t u : CDiskTxPos × CTransaction =>
        ∀ k ∈ (t.2.spend ctx t.1).inputs, k ∉ (u.2.spend ctx u.1).inputs :=
      ⟨fun t u h k hku hkt => h k hkt hku⟩
    exact (hexclusive.forall ht hu hne) k hkt hku
  · rintro ⟨pos, hslot, hne⟩
    obtain ⟨t, ht, hkt⟩ := (hrec.slot_ne_free_iff hpos hslot).mp hne
    obtain ⟨u, hu, rfl⟩ := List.mem_map.mp ht
    exact ⟨u, hu, hkt⟩
  · rintro ⟨t, ht, hkt⟩
    exact ⟨t.1, hspent t ht k hkt, hpos _ (hmem ht)⟩

variable {path : List UInt256} {p q : UInt256} {i j : CBlockIndex}

/-- The supply that the last of connected blocks records is what the unspent outputs are worth
exactly when that fits into 64 bits. -/
theorem Chained.supply_eq_iff (h : Chained ctx s (p :: path)) (hi : s.mapBlockIndex p = some i) :
    i.nMoneySupply = ledgerValue ctx (connectedTxs ctx s (p :: path)) ↔
      ledgerValue ctx (connectedTxs ctx s (p :: path)) < 2 ^ 63 := by
  have hnn := h.ledgerValue_nonneg
  rw [h.supply hi, wrap64_eq_self_iff]
  unfold Fits64
  omega

theorem Chained.difference_iff (h : Chained ctx s (p :: q :: path))
    (hi : s.mapBlockIndex p = some i) (hj : s.mapBlockIndex q = some j)
    (hsup : ledgerValue ctx (connectedTxs ctx s (p :: q :: path)) < 2 ^ 63)
    (hbef : ledgerValue ctx (connectedTxs ctx s (q :: path)) < 2 ^ 63) :
    i.nMoneySupply - j.nMoneySupply = i.nMint - (tipSums ctx s p (q :: path)).fees ↔
      Fits64 ((tipSums ctx s p (q :: path)).valueOut - (tipSums ctx s p (q :: path)).valueIn
        + (tipSums ctx s p (q :: path)).fees) := by
  have htip := (h.supply_eq_iff hi).mpr hsup
  have happ := ledgerValue_append h.wellPlaced h.connects
  cases h with
  | @block _ _ _ i' j' hrec hrest =>
    obtain rfl := Option.mem_unique hrec.entry hi
    obtain rfl := Option.mem_unique hrec.prev hj
    have hprev := (hrest.supply_eq_iff hj).mpr hbef
    have hsums : (tipSums ctx s p (q :: path))
        = blockSums ctx (connectedTxs ctx s (q :: path)) (s.txsOf ctx p) := rfl
    have hdiff : i'.nMoneySupply - j'.nMoneySupply
        = (tipSums ctx s p (q :: path)).valueOut - (tipSums ctx s p (q :: path)).valueIn := by
      rw [htip, hprev, hsums, connectedTxs, happ]
      omega
    rw [hdiff, hrec.mint, ← wrap64_eq_self_iff]
    constructor <;> intro h <;> omega

theorem ChainAt.conserved_iff (hchain : ChainAt ctx s tip above) (hbest : BestIs s tip)
    (hbef : ∀ q rest, tip :: above = tip :: q :: rest →
      ledgerValue ctx (connectedTxs ctx s (q :: rest)) < 2 ^ 63) :
    ConservedAt ctx s tip (tip :: above) ↔ FitsAt ctx s tip (tip :: above) := by
  have hchained := hchain.chained
  obtain ⟨i, hi⟩ := hchained.exists_entry hchained.branch.self_mem
  constructor
  · intro h
    have hfits := (hchained.supply_eq_iff hi).mp (h.supply i hi)
    refine ⟨hfits, fun q rest hpath => ?_⟩
    have hchained' := hchained
    rw [hpath] at hchained' hfits
    obtain ⟨j, hj⟩ := hchained'.exists_entry (List.mem_cons_of_mem _ List.mem_cons_self)
    exact (hchained'.difference_iff hi hj hfits (hbef q rest hpath)).mp
      (h.difference q rest i j hpath hi hj)
  · intro h
    refine ⟨hchained.branch, hbest.pindexBest, hchain.marksSpent, fun i' hi' => ?_,
      fun q rest i' j hpath hi' hj => ?_⟩
    · exact (hchained.supply_eq_iff hi').mpr h.supply
    · have hchained' := hchained
      have hfits := h.supply
      rw [hpath] at hchained' hfits
      exact (hchained'.difference_iff hi' hj hfits (hbef q rest hpath)).mpr (h.mint q rest hpath)

theorem Chained.supply_eq (h : Chained ctx s (p :: q :: path)) (hi : s.mapBlockIndex p = some i)
    (hj : s.mapBlockIndex q = some j) :
    i.nMoneySupply
      = wrap64 (j.nMoneySupply + i.nMint - (tipSums ctx s p (q :: path)).fees) := by
  cases h with
  | block hrec hrest =>
    obtain rfl := Option.mem_unique hrec.entry hi
    obtain rfl := Option.mem_unique hrec.prev hj
    have hsup := hrest.supply hj
    rw [hrec.supply, hrec.mint, hsup, wrap64_account, add_sub_assoc, wrap64_add_wrap64_left]

/-- In every state that is reached by steps that complete, the transaction index marks what the
connected transactions spend, the mint and the fees account for the supply up to overflow, and the
supply is conserved exactly as long as it fits. -/
theorem reaches_conserved_iff (h : Reaches ctx (fun s call => call.Completes ctx s) s) :
    ∃ tip path, ConsistentAt ctx s tip path ∧ MarksSpent ctx s path ∧
      (∀ q rest i j, path = tip :: q :: rest → s.mapBlockIndex tip = some i →
        s.mapBlockIndex q = some j → i.nMoneySupply
          = wrap64 (j.nMoneySupply + i.nMint - (tipSums ctx s tip (q :: rest)).fees)) ∧
      ((∀ q rest, path = tip :: q :: rest →
          ledgerValue ctx (connectedTxs ctx s (q :: rest)) < 2 ^ 63) →
        (ConservedAt ctx s tip path ↔ FitsAt ctx s tip path)) := by
  obtain ⟨tip, above, hchain, hbest⟩ := h.chainAt
  refine ⟨tip, tip :: above, hchain.consistent hbest, hchain.marksSpent, ?_,
    hchain.conserved_iff hbest⟩
  intro q rest i j hpath hi hj
  have hchained := hchain.chained
  rw [hpath] at hchained
  exact hchained.supply_eq hi hj

end

/-- The supply is conserved after the switch to the fourth block. -/
theorem switchedNode_conserved : Conserved (switchedContext false) (switchedNode false [4, 3, 2]) := by
  obtain ⟨tip, path, hcons, -, -, hiff⟩ := reaches_conserved_iff switchedNode_reaches.1
  obtain rfl : tip = 4 := by
    rw [← hcons.hashBestChain]
    decide +kernel
  have hbranch : Branch (switchedNode false [4, 3, 2]).parent 4 [4, 3, 1] :=
    .step (by decide +kernel) (.step (by decide +kernel) (.root (by decide +kernel)))
  obtain rfl := hcons.branch.unique hbranch
  refine ⟨4, [4, 3, 1], (hiff ?_).mpr ⟨by decide +kernel, ?_⟩⟩ <;> intro q rest hpath <;>
    obtain ⟨rfl, rfl⟩ : q = 3 ∧ rest = [1] := by simpa [eq_comm] using hpath
  · decide +kernel
  · unfold Fits64
    decide +kernel

/-- In the last state of the run the best block records no supply, since it has never been
connected, although the outputs of its chain are worth something, and so are those of the blocks
that have been connected. -/
theorem overpaidNode_not_conserved :
    Reaches overpaidContext (fun _ _ => True) (overpaidNode 4) ∧
      ((overpaidNode 4).pindexBest.bind (overpaidNode 4).mapBlockIndex).map
        CBlockIndex.nMoneySupply = some 0 ∧
      ledgerValue overpaidContext (connectedTxs overpaidContext (overpaidNode 4) [4, 3, 2, 1])
        = 990003 * COIN ∧
      ledgerValue overpaidContext (connectedTxs overpaidContext (overpaidNode 4) [2, 1]) = COIN ∧
      ¬Conserved overpaidContext (overpaidNode 4) := by
  have hsupply : ((overpaidNode 4).pindexBest.bind (overpaidNode 4).mapBlockIndex).map
      CBlockIndex.nMoneySupply = some 0 := by decide +kernel
  have hvalue : ledgerValue overpaidContext
      (connectedTxs overpaidContext (overpaidNode 4) [4, 3, 2, 1]) = 990003 * COIN := by
    decide +kernel
  have hreaches : Reaches overpaidContext (fun _ _ => True) (overpaidNode 4) :=
    overpaidNode_step (.ok ()) overpaidNode_reaches_any (overpaidCall_valid 3 (by decide)) trivial
      (by decide +kernel) (by simp [Returns])
  refine ⟨hreaches, hsupply, hvalue, by decide +kernel, ?_⟩
  rintro ⟨tip, path, hconserved⟩
  obtain rfl : tip = 4 := by
    have hbest := hconserved.pindexBest
    rw [show (overpaidNode 4).pindexBest = some (4 : UInt256) by decide +kernel] at hbest
    exact (Option.some.inj hbest).symm
  have hbranch : Branch (overpaidNode 4).parent 4 [4, 3, 2, 1] :=
    Branch.step (by decide +kernel) (Branch.step (by decide +kernel)
      (Branch.step (by decide +kernel) (Branch.root (by decide +kernel))))
  obtain rfl := hconserved.branch.unique hbranch
  rw [hconserved.pindexBest, Option.bind_some, Option.map_eq_some_iff] at hsupply
  obtain ⟨i, hi, hzero⟩ := hsupply
  have hwrong := hconserved.supply i hi
  rw [hzero, hvalue] at hwrong
  exact absurd hwrong (by decide)

end ZalemCoin.Chain
