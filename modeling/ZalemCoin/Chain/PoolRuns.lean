import ZalemCoin.Chain.PlainContext
import ZalemCoin.Chain.PoolRemoval

/-!
# Runs of the memory pool

The map of spent outputs has an entry for exactly the outputs that one transaction of the pool names as
an input, and the entry tells which input it is, after any calls that add transactions without
conflicts and remove others. The identifiers are hashes: no two of the transactions of a run have the
same one, and none commits to its own.
-/

namespace ZalemCoin.Chain

open Lib

namespace CTxMemPool

def empty : CTxMemPool := ⟨∅, fun _ => none⟩

def clear (_pool : CTxMemPool) : CTxMemPool := empty

inductive PoolCall where
  | addUnchecked (tx : CTransaction)
  | remove (tx : CTransaction) (fRecursive : Bool)
  | removeConflicts (tx : CTransaction)
  | clear

def PoolCall.run (ctx : Context) (pool : CTxMemPool) : PoolCall → CTxMemPool
  | addUnchecked tx => pool.addUnchecked (ctx.hashTx tx) tx
  | remove tx fRecursive => pool.remove ctx tx fRecursive
  | removeConflicts tx => pool.removeConflicts ctx tx
  | clear => pool.clear

/-- What the callers of `addUnchecked` see to: the pool has neither the transaction nor another spender
of its inputs. -/
def PoolCall.Valid (ctx : Context) (pool : CTxMemPool) : PoolCall → Prop
  | addUnchecked tx => pool.existsTx (ctx.hashTx tx) = false ∧
    ∀ txin ∈ tx.vin, pool.mapNextTx txin.prevout = none
  | _ => True

instance (ctx : Context) (pool : CTxMemPool) (call : PoolCall) : Decidable (call.Valid ctx pool) :=
  match call with
  | .addUnchecked _ => inferInstanceAs (Decidable (_ ∧ _))
  | .remove _ _ | .removeConflicts _ | .clear => inferInstanceAs (Decidable True)

def PoolCall.tx? : PoolCall → Option CTransaction
  | addUnchecked tx => some tx
  | remove tx _ => some tx
  | removeConflicts tx => some tx
  | clear => none

inductive PoolReaches (ctx : Context) (T : Set CTransaction) : CTxMemPool → Prop
  | start : PoolReaches ctx T empty
  | step {pool : CTxMemPool} {call : PoolCall} (h : PoolReaches ctx T pool)
      (hvalid : call.Valid ctx pool) (htx : ∀ tx ∈ call.tx?, tx ∈ T) :
      PoolReaches ctx T (call.run ctx pool)

/-- The hash is ideal on some transactions: it tells them apart, and none of them commits to its own
hash, not through others either. -/
structure IdealTxHash (ctx : Context) (T : Set CTransaction) : Prop where
  injective : Set.InjOn ctx.hashTx T
  acyclic : ∃ rank : UInt256 → ℕ, ∀ tx ∈ T, ∀ o ∈ tx.prevouts, rank o.hash < rank (ctx.hashTx tx)

/-- The map of spent outputs is exact. -/
structure SpendIndexExact (pool : CTxMemPool) : Prop where
  entry_iff : ∀ o, (pool.mapNextTx o).isSome ↔
    ∃! hash, ∃ tx, pool.mapTx.lookup hash = some tx ∧ o ∈ tx.prevouts
  /-- The entry leads to that transaction, and to the place of the input. -/
  points : ∀ o next, pool.mapNextTx o = some next →
    ∃ tx, pool.mapTx.lookup next.ptx = some tx ∧ tx.prevouts[next.n]? = some o

/-- No transaction that is left spends an output of one that has been removed. -/
def NoDangling (pool pool' : CTxMemPool) : Prop :=
  ∀ hash removed, pool.mapTx.lookup hash = some removed → pool'.mapTx.lookup hash = none →
    ∀ k tx, pool'.mapTx.lookup k = some tx → ∀ o ∈ tx.prevouts, o.hash = hash →
      removed.vout.length ≤ o.n.toNat

variable {ctx : Context} {T : Set CTransaction} {pool pool' pool'' : CTxMemPool} {tx : CTransaction}

/-! ## The places of inputs -/

/-- Removing transactions removes entries only. -/
def NextWithin (pool' pool : CTxMemPool) : Prop :=
  ∀ o next, pool'.mapNextTx o = some next → pool.mapNextTx o = some next

theorem NextWithin.refl (pool : CTxMemPool) : NextWithin pool pool := fun _ _ h => h

theorem NextWithin.trans (h : NextWithin pool'' pool') (h' : NextWithin pool' pool) :
    NextWithin pool'' pool :=
  fun o next hnext => h' o next (h o next hnext)

theorem NextWithin.foldl {α : Type*} {f : CTxMemPool → α → CTxMemPool}
    (hf : ∀ pool a, NextWithin (f pool a) pool) (l : List α) (pool : CTxMemPool) :
    NextWithin (l.foldl f pool) pool := by
  induction l generalizing pool with
  | nil => exact NextWithin.refl pool
  | cons a l ih => exact (ih (f pool a)).trans (hf pool a)

theorem nextWithin_erase (pool : CTxMemPool) (hash : UInt256) (tx : CTransaction) :
    NextWithin (pool.erase hash tx) pool := by
  intro o next hnext
  unfold erase at hnext
  dsimp only at hnext
  rw [foldl_update_none] at hnext
  split at hnext
  · simp at hnext
  · exact hnext

theorem nextWithin_removeRecursive (fuel : ℕ) (pool : CTxMemPool) (tx : CTransaction) :
    NextWithin (removeRecursive ctx fuel pool tx) pool := by
  induction fuel generalizing pool tx with
  | zero => exact NextWithin.refl pool
  | succ fuel ih =>
    rw [removeRecursive_succ]
    split
    · refine (nextWithin_erase _ _ _).trans (NextWithin.foldl (fun pool i => ?_) _ pool)
      unfold removeSpending
      split
      · exact ih _ _
      · exact NextWithin.refl _
    · exact NextWithin.refl pool

theorem nextWithin_remove (pool : CTxMemPool) (tx : CTransaction) (fRecursive : Bool) :
    NextWithin (pool.remove ctx tx fRecursive) pool := by
  unfold CTxMemPool.remove
  split_ifs
  · exact nextWithin_removeRecursive _ _ _
  · exact nextWithin_erase _ _ _
  · exact NextWithin.refl pool

theorem nextWithin_removeConflicts (pool : CTxMemPool) (tx : CTransaction) :
    NextWithin (pool.removeConflicts ctx tx) pool := by
  refine NextWithin.foldl (fun pool txin => ?_) tx.vin pool
  split
  · split_ifs
    · exact nextWithin_remove _ _ _
    · exact NextWithin.refl pool
  · exact NextWithin.refl pool

theorem mapNextTx_addUnchecked (pool : CTxMemPool) (hash : UInt256) (tx : CTransaction)
    (o : COutPoint) (next : CInPoint)
    (h : (pool.addUnchecked hash tx).mapNextTx o = some next) :
    (next.ptx = hash ∧ tx.prevouts[next.n]? = some o) ∨
      (o ∉ tx.prevouts ∧ pool.mapNextTx o = some next) := by
  -- Of several inputs that name the same output the last one is entered.
  have hloop : ∀ (inputs : List (CTxIn × ℕ)) (m : COutPoint → Option CInPoint),
      (inputs.foldl (fun next input => Function.update next input.1.prevout (some ⟨hash, input.2⟩))
        m : COutPoint → Option CInPoint) o = some next →
      (∃ input ∈ inputs, input.1.prevout = o ∧ next = ⟨hash, input.2⟩) ∨
        (o ∉ inputs.map (fun input => input.1.prevout) ∧ m o = some next) := by
    intro inputs
    induction inputs with
    | nil => exact fun m h => .inr ⟨by simp, h⟩
    | cons input inputs ih =>
      intro m hm
      rcases ih _ hm with ⟨input', hmem, hprev, hnext⟩ | ⟨hnot, hold⟩
      · exact .inl ⟨input', List.mem_cons_of_mem _ hmem, hprev, hnext⟩
      · dsimp only at hold
        by_cases ho : o = input.1.prevout
        · subst ho
          rw [Function.update_self] at hold
          exact .inl ⟨input, List.mem_cons_self, rfl, (Option.some.inj hold).symm⟩
        · rw [Function.update_of_ne ho] at hold
          refine .inr ⟨?_, hold⟩
          rw [List.map_cons, List.mem_cons]
          exact not_or.mpr ⟨ho, hnot⟩
  rcases hloop tx.vin.zipIdx pool.mapNextTx h with ⟨input, hmem, rfl, rfl⟩ | ⟨hnot, hold⟩
  · refine .inl ⟨rfl, ?_⟩
    have hget := List.mem_zipIdx_iff_getElem?.mp hmem
    unfold CTransaction.prevouts
    rw [List.getElem?_map, hget]
    rfl
  · refine .inr ⟨fun ho => hnot ?_, hold⟩
    obtain ⟨txin, htxin, rfl⟩ := CTransaction.mem_prevouts.mp ho
    obtain ⟨i, hi⟩ := List.mem_iff_getElem?.mp htxin
    exact List.mem_map.mpr ⟨(txin, i), List.mem_zipIdx_iff_getElem?.mpr hi, rfl⟩

/-! ## The invariant -/

/-- What holds in every pool of a run. -/
structure PoolInv (ctx : Context) (T : Set CTransaction) (pool : CTxMemPool) : Prop where
  wellFormed : WellFormed ctx pool
  known : ∀ hash tx, pool.mapTx.lookup hash = some tx → tx ∈ T
  /-- The entries are the places of inputs. -/
  places : ∀ o next, pool.mapNextTx o = some next →
    ∃ tx, pool.mapTx.lookup next.ptx = some tx ∧ tx.prevouts[next.n]? = some o

theorem poolInv_empty : PoolInv ctx T empty where
  wellFormed :=
    { key := fun _ _ h => by simp [empty] at h
      spenders := fun o hash => by simp [empty, spender]
      acyclic := ⟨fun _ => 0, fun _ _ _ h => by simp [empty] at h⟩ }
  known := fun _ _ h => by simp [empty] at h
  places := fun _ _ h => by simp [empty] at h

variable (h : PoolInv ctx T pool)
include h

theorem PoolInv.remove (hwf : WellFormed ctx pool')
    (hwithin : Within pool' pool) (hnext : NextWithin pool' pool) : PoolInv ctx T pool' := by
  refine ⟨hwf, fun hash p hp => h.known hash p (hwithin hash p hp), fun o next ho => ?_⟩
  -- The spender of an entry that is left is in the pool, and it is the one that was there before.
  obtain ⟨p, hp, -⟩ := (hwf.spenders o next.ptx).mp (by
    unfold spender
    rw [ho]
    rfl)
  obtain ⟨q, hq, hplace⟩ := h.places o next (hnext o next ho)
  obtain rfl := Option.some.inj ((hwithin _ _ hp).symm.trans hq)
  exact ⟨p, hp, hplace⟩

variable (hideal : IdealTxHash ctx T)
include hideal

theorem PoolInv.eq_of_lookup (htx : tx ∈ T) {p : CTransaction}
    (hp : pool.mapTx.lookup (ctx.hashTx tx) = some p) : p = tx :=
  hideal.injective (h.known _ p hp) htx (h.wellFormed.key _ p hp)

theorem PoolInv.addUnchecked (htx : tx ∈ T) (hvalid : (PoolCall.addUnchecked tx).Valid ctx pool) :
    PoolInv ctx T (pool.addUnchecked (ctx.hashTx tx) tx) := by
  obtain ⟨hnew, hfree⟩ := hvalid
  have hnew : pool.mapTx.lookup (ctx.hashTx tx) = none := by
    unfold existsTx at hnew
    exact Option.not_isSome_iff_eq_none.mp (by rw [hnew]; exact Bool.false_ne_true)
  have hspender : ∀ o ∈ tx.prevouts, pool.spender o = none := by
    intro o ho
    obtain ⟨txin, htxin, rfl⟩ := CTransaction.mem_prevouts.mp ho
    unfold spender
    rw [hfree txin htxin]
    rfl
  have hknown : ∀ hash p, (pool.addUnchecked (ctx.hashTx tx) tx).mapTx.lookup hash = some p →
      p ∈ T ∧ ctx.hashTx p = hash := by
    intro hash p hp
    rw [lookup_addUnchecked] at hp
    split at hp
    · rename_i hhash
      cases hp
      exact ⟨htx, hhash.symm⟩
    · exact ⟨h.known hash p hp, h.wellFormed.key hash p hp⟩
  obtain ⟨rank, hrank⟩ := hideal.acyclic
  have hranked : Ranked (pool.addUnchecked (ctx.hashTx tx) tx) rank := by
    intro hash p parent hp o ho _
    obtain ⟨hmem, rfl⟩ := hknown hash p hp
    exact hrank p hmem o ho
  refine ⟨h.wellFormed.addUnchecked hnew hspender ⟨rank, hranked⟩,
    fun hash p hp => (hknown hash p hp).1, fun o next ho => ?_⟩
  rcases mapNextTx_addUnchecked pool _ tx o next ho with ⟨hptx, hplace⟩ | ⟨-, hold⟩
  · exact ⟨tx, by rw [lookup_addUnchecked, if_pos hptx], hplace⟩
  · obtain ⟨p, hp, hplace⟩ := h.places o next hold
    refine ⟨p, ?_, hplace⟩
    rw [lookup_addUnchecked, if_neg, hp]
    intro heq
    rw [heq, hnew] at hp
    simp at hp

theorem PoolInv.remove_true (htx : tx ∈ T) :
    PoolInv ctx T (pool.remove ctx tx true) ∧ Pruned pool (pool.remove ctx tx true) := by
  rcases hlook : pool.mapTx.lookup (ctx.hashTx tx) with _ | p
  · have hsame : pool.remove ctx tx true = pool := by
      unfold CTxMemPool.remove
      rw [if_pos rfl, removeRecursive_succ, if_neg]
      unfold existsTx
      rw [hlook]
      exact Bool.false_ne_true
    rw [hsame]
    exact ⟨h, Pruned.refl pool⟩
  · obtain rfl := h.eq_of_lookup hideal htx hlook
    obtain ⟨hwf, hpruned, -⟩ := h.wellFormed.remove_true hlook
    exact ⟨h.remove hwf hpruned.within (nextWithin_remove _ _ _), hpruned⟩

theorem PoolInv.remove_false (htx : tx ∈ T) :
    PoolInv ctx T (pool.remove ctx tx false) := by
  unfold CTxMemPool.remove
  rw [if_neg Bool.false_ne_true]
  split_ifs with hexists
  · obtain ⟨p, hp⟩ := Option.isSome_iff_exists.mp hexists
    obtain rfl := h.eq_of_lookup hideal htx hp
    refine h.remove ?_ (fun k q hq => (lookup_erase_eq_some.mp hq).2) (nextWithin_erase _ _ _)
    refine h.wellFormed.erase (fun k q o hq hoq ho => ?_) fun q hq => ?_
    · exact h.wellFormed.sole hq hoq hp ho
    · exact Option.mem_unique hq hp
  · exact h

omit hideal

theorem PoolInv.removeConflicts_of_mem
    (hp : pool.mapTx.lookup (ctx.hashTx tx) = some tx) : pool.removeConflicts ctx tx = pool := by
  refine List.foldlRecOn (motive := (· = pool)) tx.vin _ rfl ?_
  rintro _ rfl txin htxin
  have hsole := h.wellFormed.spending_eq_some.mpr
    ⟨_, hp, CTransaction.mem_prevouts.mpr ⟨txin, htxin, rfl⟩⟩
  unfold spending at hsole
  rw [hsole]
  dsimp only
  rw [if_neg (by simp)]

theorem PoolInv.removeConflicts (hideal : IdealTxHash ctx T)
    (htx : tx ∈ T) : PoolInv ctx T (pool.removeConflicts ctx tx) := by
  rcases hlook : pool.mapTx.lookup (ctx.hashTx tx) with _ | p
  · obtain ⟨hwf, hpruned, -⟩ := h.wellFormed.removeConflicts hlook
    exact h.remove hwf hpruned.within (nextWithin_removeConflicts _ _)
  · obtain rfl := h.eq_of_lookup hideal htx hlook
    rw [h.removeConflicts_of_mem hlook]
    exact h

omit h

theorem PoolInv.call (h : PoolInv ctx T pool) (hideal : IdealTxHash ctx T) {call : PoolCall}
    (hvalid : call.Valid ctx pool) (htx : ∀ tx ∈ call.tx?, tx ∈ T) :
    PoolInv ctx T (call.run ctx pool) := by
  cases call with
  | addUnchecked tx => exact h.addUnchecked hideal (htx tx rfl) hvalid
  | remove tx fRecursive =>
    cases fRecursive with
    | true => exact (h.remove_true hideal (htx tx rfl)).1
    | false => exact h.remove_false hideal (htx tx rfl)
  | removeConflicts tx => exact h.removeConflicts hideal (htx tx rfl)
  | clear => exact poolInv_empty

theorem PoolReaches.inv (h : PoolReaches ctx T pool) (hideal : IdealTxHash ctx T) :
    PoolInv ctx T pool := by
  induction h with
  | start => exact poolInv_empty
  | step _ hvalid htx ih => exact ih.call hideal hvalid htx

/-! ## The map of spent outputs -/

theorem PoolInv.exact (h : PoolInv ctx T pool) : SpendIndexExact pool := by
  refine ⟨fun o => ⟨?_, ?_⟩, h.places⟩
  · intro hsome
    obtain ⟨next, hnext⟩ := Option.isSome_iff_exists.mp hsome
    obtain ⟨p, hp, hplace⟩ := h.places o next hnext
    have ho : o ∈ p.prevouts := List.mem_of_getElem? hplace
    exact ⟨next.ptx, ⟨p, hp, ho⟩, fun k ⟨q, hq, hoq⟩ => h.wellFormed.sole hq hoq hp ho⟩
  · rintro ⟨hash, ⟨p, hp, ho⟩, -⟩
    have hspender := (h.wellFormed.spenders o hash).mpr ⟨p, hp, ho⟩
    unfold spender at hspender
    rw [← Option.isSome_map, hspender]
    rfl

/-- What is left after transactions have been removed with everything that spends from them does not
spend from them. -/
theorem Pruned.noDangling (h : Pruned pool pool') : NoDangling pool pool' := by
  intro hash removed hremoved hgone k p hp o ho hhash
  by_contra hlt
  obtain ⟨q, hq, -⟩ := h.outputs k p hp o ho ⟨removed, by rwa [hhash], by omega⟩
  rw [hhash, hgone] at hq
  simp at hq

/-- In every pool of a run the map of spent outputs is exact, and removing a transaction with everything
that spends from it leaves no transaction behind that spends from a removed one. -/
theorem poolReaches_exact (h : PoolReaches ctx T pool) (hideal : IdealTxHash ctx T) :
    SpendIndexExact pool ∧ ∀ tx ∈ T, NoDangling pool (pool.remove ctx tx true) :=
  ⟨(h.inv hideal).exact, fun _ htx => ((h.inv hideal).remove_true hideal htx).2.noDangling⟩

end CTxMemPool

open CTxMemPool

def poolParent : CTransaction := plainTx 11 [inputOf 5 0] [payTo 2, payTo 3]
def poolChild : CTransaction := plainTx 12 [inputOf 6 0, inputOf 11 1] [payTo 4]

def familyPool : CTxMemPool :=
  (PoolCall.addUnchecked poolChild).run (chainedContext true)
    ((PoolCall.addUnchecked poolParent).run (chainedContext true) empty)

/-- The second input of the child is entered for the second output of the parent, and the child goes
when the parent does. -/
theorem familyPool_exact : SpendIndexExact familyPool ∧
    ∀ tx ∈ ({poolParent, poolChild} : Set CTransaction),
      NoDangling familyPool (familyPool.remove (chainedContext true) tx true) := by
  have hparent : PoolReaches (chainedContext true) {poolParent, poolChild}
      ((PoolCall.addUnchecked poolParent).run (chainedContext true) empty) :=
    PoolReaches.step PoolReaches.start (by decide) (by simp [PoolCall.tx?])
  have hchild : PoolReaches (chainedContext true) {poolParent, poolChild} familyPool :=
    PoolReaches.step hparent (by decide) (by simp [PoolCall.tx?])
  refine poolReaches_exact hchild ⟨?_, fun hash => hash.toNat, ?_⟩
  · rintro a (rfl | rfl) b (rfl | rfl) hab
    · rfl
    · exact absurd hab (by decide)
    · exact absurd hab (by decide)
    · rfl
  · rintro tx (rfl | rfl) o ho
    · revert o
      decide
    · revert o
      decide

example : (familyPool.mapNextTx ⟨11, 1⟩, (familyPool.remove (chainedContext true) poolParent
    true).mapTx.keys) = (some ⟨12, 1⟩, []) := by decide

end ZalemCoin.Chain
