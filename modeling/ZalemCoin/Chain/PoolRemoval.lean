import ZalemCoin.Chain.LedgerRefinement
import ZalemCoin.Chain.Mempool

/-!
# Adding to the memory pool and removing from it

The pool files every transaction under its identifier, and for every output that one of them spends
the identifier of the spender. No transaction spends from itself, not through others either, so that
removing a transaction with everything that spends from it comes to an end, and leaves no transaction
behind whose input it has taken away.
-/

namespace ZalemCoin.Chain

open Lib

def CTransaction.prevouts (tx : CTransaction) : List COutPoint := tx.vin.map CTxIn.prevout

theorem CTransaction.mem_prevouts {tx : CTransaction} {o : COutPoint} :
    o ∈ tx.prevouts ↔ ∃ txin ∈ tx.vin, txin.prevout = o := List.mem_map

theorem foldl_update_none {α β κ : Type*} [DecidableEq κ] (key : β → κ) (l : List β)
    (m : κ → Option α) (k : κ) :
    (l.foldl (fun next a => Function.update next (key a) none) m : κ → Option α) k =
      if k ∈ l.map key then none else m k := by
  induction l generalizing m with
  | nil => rfl
  | cons a l ih =>
    rw [List.foldl_cons, ih, List.map_cons]
    by_cases hk : k = key a
    · subst hk
      simp
    · simp [hk]

namespace CTxMemPool

def spender (pool : CTxMemPool) (o : COutPoint) : Option UInt256 :=
  (pool.mapNextTx o).map CInPoint.ptx

def spending (pool : CTxMemPool) (o : COutPoint) : Option CTransaction :=
  (pool.mapNextTx o).bind fun next => pool.mapTx.lookup next.ptx

def HasOutput (pool : CTxMemPool) (o : COutPoint) : Prop :=
  ∃ tx, pool.mapTx.lookup o.hash = some tx ∧ o.n.toNat < tx.vout.length

def Ranked (pool : CTxMemPool) (rank : UInt256 → ℕ) : Prop :=
  ∀ hash tx parent, pool.mapTx.lookup hash = some tx → ∀ o ∈ tx.prevouts,
    pool.mapTx.lookup o.hash = some parent → rank o.hash < rank hash

structure WellFormed (ctx : Context) (pool : CTxMemPool) : Prop where
  /-- Every transaction is filed under its identifier. -/
  key : ∀ hash tx, pool.mapTx.lookup hash = some tx → ctx.hashTx tx = hash
  /-- The recorded spenders are the transactions that name the output. -/
  spenders : ∀ o hash, pool.spender o = some hash ↔
    ∃ tx, pool.mapTx.lookup hash = some tx ∧ o ∈ tx.prevouts
  /-- No transaction spends from itself, not through others either. -/
  acyclic : ∃ rank, Ranked pool rank

def Within (pool' pool : CTxMemPool) : Prop :=
  ∀ hash tx, pool'.mapTx.lookup hash = some tx → pool.mapTx.lookup hash = some tx

structure Pruned (pool pool' : CTxMemPool) : Prop where
  within : Within pool' pool
  /-- What is left still finds the outputs that it spends. -/
  outputs : ∀ hash tx, pool'.mapTx.lookup hash = some tx → ∀ o ∈ tx.prevouts,
    pool.HasOutput o → pool'.HasOutput o

variable {ctx : Context} {pool pool' pool'' : CTxMemPool} {hash : UInt256} {tx : CTransaction}
  {rank : UInt256 → ℕ}

theorem Within.trans (h : Within pool'' pool') (h' : Within pool' pool) : Within pool'' pool :=
  fun k p hp => h' k p (h k p hp)

theorem Pruned.refl (pool : CTxMemPool) : Pruned pool pool := ⟨fun _ _ h => h, fun _ _ _ _ _ h => h⟩

theorem Pruned.trans (h : Pruned pool pool') (h' : Pruned pool' pool'') : Pruned pool pool'' where
  within := h'.within.trans h.within
  outputs k p hp o ho hout := h'.outputs k p hp o ho (h.outputs k p (h'.within k p hp) o ho hout)

theorem Ranked.mono (h : Ranked pool rank) (hsub : Within pool' pool) : Ranked pool' rank :=
  fun k p parent hp o ho hpar =>
    h k p parent (hsub k p hp) o ho (hsub o.hash parent hpar)

def above (pool : CTxMemPool) (rank : UInt256 → ℕ) (r : ℕ) : Finset UInt256 :=
  pool.mapTx.keys.toFinset.filter fun k => r ≤ rank k

theorem mem_above {r : ℕ} :
    hash ∈ pool.above rank r ↔ (∃ tx, pool.mapTx.lookup hash = some tx) ∧ r ≤ rank hash := by
  unfold above
  rw [Finset.mem_filter, List.mem_toFinset, ← AList.mem_keys, ← AList.lookup_isSome,
    Option.isSome_iff_exists]

theorem card_above_le (pool : CTxMemPool) (rank : UInt256 → ℕ) (r : ℕ) :
    (pool.above rank r).card ≤ pool.mapTx.keys.length :=
  (Finset.card_filter_le _ _).trans (List.toFinset_card_le _)

variable {k k' : UInt256} {p : CTransaction} {o : COutPoint}

theorem card_above_lt (hsub : Within pool' pool) (hp : pool.mapTx.lookup k = some p)
    (hrank : rank k < rank k') :
    (pool'.above rank (rank k')).card < (pool.above rank (rank k)).card := by
  apply Finset.card_lt_card
  refine ⟨fun x hx => ?_, fun hsup => ?_⟩
  · obtain ⟨⟨q, hq⟩, hle⟩ := mem_above.mp hx
    exact mem_above.mpr ⟨⟨q, hsub x q hq⟩, by omega⟩
  · have hk : k ∈ pool'.above rank (rank k') := hsup (mem_above.mpr ⟨⟨p, hp⟩, le_rfl⟩)
    have hle := (mem_above.mp hk).2
    omega

theorem lookup_erase_eq_some :
    (pool.erase hash tx).mapTx.lookup k = some p ↔ k ≠ hash ∧ pool.mapTx.lookup k = some p := by
  unfold erase
  by_cases hk : k = hash
  · subst hk
    simp [AList.lookup_erase]
  · simp [AList.lookup_erase_ne hk, hk]

theorem spender_erase (pool : CTxMemPool) (hash : UInt256) (tx : CTransaction) (o : COutPoint) :
    (pool.erase hash tx).spender o = if o ∈ tx.prevouts then none else pool.spender o := by
  unfold spender erase
  dsimp only
  rw [foldl_update_none, CTransaction.prevouts]
  split <;> rfl

variable (h : WellFormed ctx pool)
include h

theorem WellFormed.sole {p' : CTransaction}
    (hp : pool.mapTx.lookup k = some p) (ho : o ∈ p.prevouts) (hp' : pool.mapTx.lookup k' = some p')
    (ho' : o ∈ p'.prevouts) : k = k' := by
  have hk := (h.spenders o k).mpr ⟨p, hp, ho⟩
  have hk' := (h.spenders o k').mpr ⟨p', hp', ho'⟩
  exact Option.mem_unique hk hk'

theorem WellFormed.spending_eq_some :
    pool.spending o = some tx ↔ ∃ k, pool.mapTx.lookup k = some tx ∧ o ∈ tx.prevouts := by
  have hbind : pool.spending o = (pool.spender o).bind fun k => pool.mapTx.lookup k := by
    unfold spending spender
    rw [Option.bind_map]
    rfl
  rw [hbind, Option.bind_eq_some_iff]
  constructor
  · rintro ⟨k, hk, hlook⟩
    obtain ⟨p, hp, ho⟩ := (h.spenders o k).mp hk
    obtain rfl := Option.mem_unique hp hlook
    exact ⟨k, hp, ho⟩
  · rintro ⟨k, hp, ho⟩
    exact ⟨k, (h.spenders o k).mpr ⟨tx, hp, ho⟩, hp⟩

theorem WellFormed.erase
    (hsole : ∀ k p o, pool.mapTx.lookup k = some p → o ∈ p.prevouts → o ∈ tx.prevouts → k = hash)
    (hsame : ∀ p, pool.mapTx.lookup hash = some p → p = tx) :
    WellFormed ctx (pool.erase hash tx) := by
  have hsub : Within (pool.erase hash tx) pool := fun k p hp => (lookup_erase_eq_some.mp hp).2
  obtain ⟨rank, hrank⟩ := h.acyclic
  refine ⟨fun k p hp => h.key k p (hsub k p hp), fun o k => ?_, rank, hrank.mono hsub⟩
  rw [spender_erase]
  constructor
  · intro hk
    split at hk
    · simp at hk
    · rename_i ho
      obtain ⟨p, hp, hop⟩ := (h.spenders o k).mp hk
      refine ⟨p, lookup_erase_eq_some.mpr ⟨?_, hp⟩, hop⟩
      rintro rfl
      exact ho (hsame p hp ▸ hop)
  · rintro ⟨p, hp, hop⟩
    obtain ⟨hne, hp⟩ := lookup_erase_eq_some.mp hp
    rw [if_neg fun ho => hne (hsole k p o hp hop ho)]
    exact (h.spenders o k).mpr ⟨p, hp, hop⟩

/-! ## Removing what spends from a transaction -/

theorem WellFormed.unspent (ho : pool.spending o = none) (k : UInt256)
    (p : CTransaction) (hp : pool.mapTx.lookup k = some p) : o ∉ p.prevouts := by
  intro hop
  have hsome : pool.spending o = some p := h.spending_eq_some.mpr ⟨k, hp, hop⟩
  rw [ho] at hsome
  simp at hsome

omit h

def removeSpending (ctx : Context) (fuel : ℕ) (pool : CTxMemPool) (o : COutPoint) : CTxMemPool :=
  match pool.spending o with
  | some child => removeRecursive ctx fuel pool child
  | none => pool

theorem removeRecursive_succ (ctx : Context) (fuel : ℕ) (pool : CTxMemPool) (tx : CTransaction) :
    removeRecursive ctx (fuel + 1) pool tx
      = if pool.existsTx (ctx.hashTx tx) then
          ((List.range tx.vout.length).foldl
            (fun pool i => removeSpending ctx fuel pool ⟨ctx.hashTx tx, UInt32.ofNat i⟩)
            pool).erase (ctx.hashTx tx) tx
        else pool := rfl

/-- Removing a transaction with everything that spends from it keeps the records true, and leaves no
transaction behind whose input it has taken away. The induction is on the fuel, which is enough as
long as no more transactions have the rank of the transaction or a higher one. -/
theorem WellFormed.removeRecursive {fuel : ℕ} (h : WellFormed ctx pool) (hrank : Ranked pool rank)
    (htx : pool.mapTx.lookup (ctx.hashTx tx) = some tx)
    (hfuel : (pool.above rank (rank (ctx.hashTx tx))).card ≤ fuel) :
    WellFormed ctx (removeRecursive ctx fuel pool tx) ∧
      Pruned pool (removeRecursive ctx fuel pool tx) ∧
      (removeRecursive ctx fuel pool tx).mapTx.lookup (ctx.hashTx tx) = none := by
  induction fuel generalizing pool tx with
  | zero =>
    have hself : ctx.hashTx tx ∈ pool.above rank (rank (ctx.hashTx tx)) :=
      mem_above.mpr ⟨⟨tx, htx⟩, le_rfl⟩
    have hpos := Finset.card_pos.mpr ⟨_, hself⟩
    omega
  | succ fuel ih =>
    have hexists : pool.existsTx (ctx.hashTx tx) = true := by
      unfold existsTx
      rw [htx]
      rfl
    rw [removeRecursive_succ, if_pos hexists]
    -- After each turn of the loop, nothing in the pool spends the outputs seen so far.
    have hloop : ∀ n, n ≤ tx.vout.length → ∃ left, (List.range n).foldl
          (fun pool i => removeSpending ctx fuel pool ⟨ctx.hashTx tx, UInt32.ofNat i⟩) pool = left ∧
        WellFormed ctx left ∧ Pruned pool left ∧
        ∀ i < n, ∀ k p, left.mapTx.lookup k = some p →
          (⟨ctx.hashTx tx, UInt32.ofNat i⟩ : COutPoint) ∉ p.prevouts := by
      intro n
      induction n with
      | zero => exact fun _ => ⟨pool, rfl, h, Pruned.refl pool, by simp⟩
      | succ n ihn =>
        intro hn
        obtain ⟨left, hleft, hwf, hpruned, hdone⟩ := ihn (by omega)
        rw [List.range_succ, List.foldl_append, hleft, List.foldl_cons, List.foldl_nil]
        unfold removeSpending
        rcases hspend : left.spending ⟨ctx.hashTx tx, UInt32.ofNat n⟩ with _ | child
        · refine ⟨left, rfl, hwf, hpruned, fun i hi => ?_⟩
          rcases Nat.lt_succ_iff_lt_or_eq.mp hi with hi | rfl
          · exact hdone i hi
          · exact hwf.unspent hspend
        · obtain ⟨c, hc, hspends⟩ := hwf.spending_eq_some.mp hspend
          obtain rfl := hwf.key c child hc
          have hlt : rank (ctx.hashTx tx) < rank (ctx.hashTx child) :=
            hrank _ child tx (hpruned.within _ _ hc) _ hspends htx
          have hcard := card_above_lt hpruned.within htx hlt
          obtain ⟨hwf', hpruned', hgone⟩ := ih hwf (hrank.mono hpruned.within) hc (by omega)
          refine ⟨_, rfl, hwf', hpruned.trans hpruned', fun i hi k p hp => ?_⟩
          rcases Nat.lt_succ_iff_lt_or_eq.mp hi with hi | rfl
          · exact hdone i hi k p (hpruned'.within k p hp)
          · -- The only spender of the output has been removed.
            intro hop
            obtain rfl := hwf.sole (hpruned'.within k p hp) hop hc hspends
            rw [hgone] at hp
            simp at hp
    obtain ⟨left, hleft, hwf, hpruned, hdone⟩ := hloop tx.vout.length le_rfl
    rw [hleft]
    have hsame : ∀ p, left.mapTx.lookup (ctx.hashTx tx) = some p → p = tx := fun p hp =>
      Option.some.inj ((hpruned.within _ _ hp).symm.trans htx)
    refine ⟨hwf.erase (fun k p o hp hop ho => ?_) hsame, ⟨fun k p hp => ?_, fun k p hp o hop hout => ?_⟩,
      AList.lookup_erase _ _⟩
    · exact h.sole (hpruned.within k p hp) hop htx ho
    · exact hpruned.within k p (lookup_erase_eq_some.mp hp).2
    · obtain ⟨hne, hp⟩ := lookup_erase_eq_some.mp hp
      obtain ⟨q, hq, hlt⟩ := hpruned.outputs k p hp o hop hout
      refine ⟨q, lookup_erase_eq_some.mpr ⟨fun heq => ?_, hq⟩, hlt⟩
      -- What is left does not spend from the transaction itself.
      rw [heq] at hq
      rw [hsame q hq] at hlt
      refine hdone _ hlt k p hp ?_
      rw [UInt32.ofNat_toNat, ← heq]
      exact hop

theorem WellFormed.remove_true (h : WellFormed ctx pool)
    (htx : pool.mapTx.lookup (ctx.hashTx tx) = some tx) :
    WellFormed ctx (pool.remove ctx tx true) ∧ Pruned pool (pool.remove ctx tx true) ∧
      (pool.remove ctx tx true).mapTx.lookup (ctx.hashTx tx) = none := by
  obtain ⟨rank, hrank⟩ := h.acyclic
  have hcard := card_above_le pool rank (rank (ctx.hashTx tx))
  exact h.removeRecursive hrank htx (by omega)

theorem WellFormed.removeConflicts (h : WellFormed ctx pool)
    (htx : pool.mapTx.lookup (ctx.hashTx tx) = none) :
    WellFormed ctx (pool.removeConflicts ctx tx) ∧ Pruned pool (pool.removeConflicts ctx tx) ∧
      ∀ k p, (pool.removeConflicts ctx tx).mapTx.lookup k = some p →
        ∀ o ∈ tx.prevouts, o ∉ p.prevouts := by
  have hloop : ∀ (vin : List CTxIn) (pool : CTxMemPool), WellFormed ctx pool →
      pool.mapTx.lookup (ctx.hashTx tx) = none → ∃ left, vin.foldl (fun pool txin =>
        match (pool.mapNextTx txin.prevout).bind fun next => pool.mapTx.lookup next.ptx with
        | some txConflict => if txConflict ≠ tx then pool.remove ctx txConflict true else pool
        | none => pool) pool = left ∧ WellFormed ctx left ∧ Pruned pool left ∧
          ∀ txin ∈ vin, ∀ k p, left.mapTx.lookup k = some p → txin.prevout ∉ p.prevouts := by
    intro vin
    induction vin with
    | nil => exact fun pool h _ => ⟨pool, rfl, h, Pruned.refl pool, by simp⟩
    | cons txin vin ih =>
      intro pool h htx
      -- One turn of the loop removes the only transaction that spends the input.
      obtain ⟨mid, hmid, hwf, hpruned, hnone⟩ : ∃ mid,
          (match pool.spending txin.prevout with
            | some txConflict => if txConflict ≠ tx then pool.remove ctx txConflict true else pool
            | none => pool) = mid ∧ WellFormed ctx mid ∧ Pruned pool mid ∧
            ∀ k p, mid.mapTx.lookup k = some p → txin.prevout ∉ p.prevouts := by
        rcases hspend : pool.spending txin.prevout with _ | txConflict
        · exact ⟨pool, rfl, h, Pruned.refl pool, h.unspent hspend⟩
        · obtain ⟨c, hc, hspends⟩ := h.spending_eq_some.mp hspend
          obtain rfl := h.key c txConflict hc
          have hne : txConflict ≠ tx := by
            rintro rfl
            rw [htx] at hc
            simp at hc
          obtain ⟨hwf, hpruned, hgone⟩ := h.remove_true hc
          refine ⟨_, if_pos hne, hwf, hpruned, fun k p hp hop => ?_⟩
          obtain rfl := h.sole (hpruned.within k p hp) hop hc hspends
          rw [hgone] at hp
          simp at hp
      have htx' : mid.mapTx.lookup (ctx.hashTx tx) = none := by
        rcases hp : mid.mapTx.lookup (ctx.hashTx tx) with _ | p
        · rfl
        · exact absurd ((hpruned.within _ p hp).symm.trans htx) (by simp)
      obtain ⟨left, hleft, hwf', hpruned', hdone⟩ := ih mid hwf htx'
      refine ⟨left, ?_, hwf', hpruned.trans hpruned', fun txin' htxin' k p hp => ?_⟩
      · rw [← hleft, ← hmid]
        rfl
      · rcases List.mem_cons.mp htxin' with rfl | htxin'
        · exact hnone k p (hpruned'.within k p hp)
        · exact hdone txin' htxin' k p hp
  obtain ⟨left, hleft, hwf, hpruned, hdone⟩ := hloop tx.vin pool h htx
  have heq : pool.removeConflicts ctx tx = left := hleft
  rw [heq]
  refine ⟨hwf, hpruned, fun k p hp o ho => ?_⟩
  obtain ⟨txin, htxin, rfl⟩ := CTransaction.mem_prevouts.mp ho
  exact hdone txin htxin k p hp

/-! ## Adding a transaction -/

theorem lookup_addUnchecked (pool : CTxMemPool) (hash : UInt256) (tx : CTransaction) (k : UInt256) :
    (pool.addUnchecked hash tx).mapTx.lookup k
      = if k = hash then some tx else pool.mapTx.lookup k := by
  unfold addUnchecked
  by_cases hk : k = hash
  · subst hk
    simp [AList.lookup_insert]
  · simp [AList.lookup_insert_ne hk, hk]

theorem spender_addUnchecked (pool : CTxMemPool) (hash : UInt256) (tx : CTransaction)
    (o : COutPoint) :
    (pool.addUnchecked hash tx).spender o
      = if o ∈ tx.prevouts then some hash else pool.spender o := by
  have hnext : ∀ (inputs : List (CTxIn × ℕ)) (m : COutPoint → Option CInPoint),
      ((inputs.foldl (fun next input => Function.update next input.1.prevout (some ⟨hash, input.2⟩))
        m : COutPoint → Option CInPoint) o).map CInPoint.ptx
        = if o ∈ inputs.map (fun input => input.1.prevout) then some hash
          else (m o).map CInPoint.ptx := by
    intro inputs
    induction inputs with
    | nil => intro m; rfl
    | cons input inputs ih =>
      intro m
      rw [List.foldl_cons, ih, List.map_cons]
      by_cases ho : o = input.1.prevout
      · subst ho
        simp
      · rw [Function.update_of_ne ho]
        refine if_congr ?_ rfl rfl
        rw [List.mem_cons, or_iff_right ho]
  have hvin : tx.vin.zipIdx.map (fun input => input.1.prevout) = tx.prevouts := by
    rw [CTransaction.prevouts, ← List.zipIdx_map_fst 0 tx.vin, List.map_map, List.zipIdx_map_fst]
    rfl
  rw [← hvin]
  exact hnext tx.vin.zipIdx pool.mapNextTx

theorem WellFormed.addUnchecked (h : WellFormed ctx pool)
    (hnew : pool.mapTx.lookup (ctx.hashTx tx) = none) (hfree : ∀ o ∈ tx.prevouts, pool.spender o = none)
    (hrank : ∃ rank, Ranked (pool.addUnchecked (ctx.hashTx tx) tx) rank) :
    WellFormed ctx (pool.addUnchecked (ctx.hashTx tx) tx) := by
  refine ⟨fun k p hp => ?_, fun o k => ?_, hrank⟩
  · rw [lookup_addUnchecked] at hp
    split at hp
    · rename_i hk
      cases hp
      exact hk.symm
    · exact h.key k p hp
  · rw [spender_addUnchecked, lookup_addUnchecked]
    constructor
    · intro hk
      split at hk
      · rename_i ho
        cases hk
        exact ⟨tx, if_pos rfl, ho⟩
      · obtain ⟨p, hp, hop⟩ := (h.spenders o k).mp hk
        refine ⟨p, ?_, hop⟩
        rw [if_neg, hp]
        rintro rfl
        rw [hnew] at hp
        simp at hp
    · rintro ⟨p, hp, hop⟩
      split at hp
      · rename_i hk
        cases hp
        rw [if_pos hop, hk]
      · have hk := (h.spenders o k).mpr ⟨p, hp, hop⟩
        rw [if_neg fun ho => ?_, hk]
        rw [hfree o ho] at hk
        simp at hk

end CTxMemPool

end ZalemCoin.Chain
