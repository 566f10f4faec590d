import ZalemCoin.Chain.OrphanRuns
import ZalemCoin.Lib.Rounds

/-!
# The maps of the orphan transactions

The orphan transactions are kept in one map by their hashes, and a second map has a set of hashes for
every transaction that some of them spend from. The second map is kept up input by input: a set is made
when the first hash enters it, and taken out with its last one. The maps always are what the orphans of
`OrphanTxs` say, and no set is empty.
-/

namespace ZalemCoin.Chain

open Lib
open SortedMap (find_insert_self find_erase find_insert)
open Lib.Action (bind_apply)

attribute [local instance] instLinearOrderUInt256

structure OrphanMaps where
  mapOrphanTransactions : SortedMap UInt256 CTransaction
  mapOrphanTransactionsByPrev : SortedMap UInt256 (SortedMap UInt256 Unit)

namespace OrphanMaps

def empty : OrphanMaps := ⟨SortedMap.empty, SortedMap.empty⟩

def setOf (byPrev : SortedMap UInt256 (SortedMap UInt256 Unit)) (prev : UInt256) :
    SortedMap UInt256 Unit :=
  (byPrev.find prev).getD SortedMap.empty

def insertByPrev (hash : UInt256) (byPrev : SortedMap UInt256 (SortedMap UInt256 Unit))
    (txin : CTxIn) : SortedMap UInt256 (SortedMap UInt256 Unit) :=
  byPrev.insert txin.prevout.hash ((setOf byPrev txin.prevout.hash).insert hash ())

/-- Keeps a transaction as an orphan, unless it is kept already or too large. -/
def AddOrphanTx (ctx : Context) (maps : OrphanMaps) (tx : CTransaction) : OrphanMaps × Bool :=
  let hash := ctx.hashTx tx
  if (maps.mapOrphanTransactions.find hash).isSome then (maps, false)
  else if 5000 < tx.GetSerializeSize then (maps, false)
  else
    (⟨maps.mapOrphanTransactions.insert hash tx,
      tx.vin.foldl (insertByPrev hash) maps.mapOrphanTransactionsByPrev⟩, true)

def eraseByPrev (hash : UInt256) (byPrev : SortedMap UInt256 (SortedMap UInt256 Unit))
    (txin : CTxIn) : SortedMap UInt256 (SortedMap UInt256 Unit) :=
  match byPrev.find txin.prevout.hash with
  | none => byPrev
  | some set =>
    let set := set.erase hash
    if set.size = 0 then byPrev.erase txin.prevout.hash else byPrev.insert txin.prevout.hash set

def EraseOrphanTx (maps : OrphanMaps) (hash : UInt256) : OrphanMaps :=
  match maps.mapOrphanTransactions.find hash with
  | none => maps
  | some tx =>
    ⟨maps.mapOrphanTransactions.erase hash,
      tx.vin.foldl (eraseByPrev hash) maps.mapOrphanTransactionsByPrev⟩

/-- The maps, and how many orphans have been evicted. -/
structure EvictState where
  maps : OrphanMaps
  nEvicted : ℕ

/-- A round of `LimitOrphanTxSize`: it evicts the first orphan whose hash is not less than a random one,
or else the first one of all. -/
def evictRound (nMaxOrphans : ℕ) (randHash : ℕ → UInt256) (s : EvictState) :
    Round EvictState EvictState :=
  if nMaxOrphans < s.maps.mapOrphanTransactions.size then
    match (s.maps.mapOrphanTransactions.lowerBound (randHash s.nEvicted)).or
        s.maps.mapOrphanTransactions.first with
    | some it => .next ⟨s.maps.EraseOrphanTx it.1, s.nEvicted + 1⟩
    | none => .done s
  else .done s

/-- Evicts random orphans until no more than the maximum are left. It has no result if it does not end
after a round for each of the orphans. -/
def LimitOrphanTxSize (nMaxOrphans : ℕ) (randHash : ℕ → UInt256) (maps : OrphanMaps) :
    Option EvictState :=
  runLoop (evictRound nMaxOrphans randHash) (maps.mapOrphanTransactions.size + 1) ⟨maps, 0⟩

/-! ## The transactions that arrive -/

/-- The maps and the queues while orphans are tried again. -/
structure ResolveState where
  maps : OrphanMaps
  vWorkQueue : List UInt256
  vEraseQueue : List UInt256

def lookup (maps : OrphanMaps) (fresh : CTransaction) (hash : UInt256) : OrphanMaps × CTransaction :=
  match maps.mapOrphanTransactions.find hash with
  | some tx => (maps, tx)
  | none => ({ maps with
      mapOrphanTransactions := maps.mapOrphanTransactions.insert hash fresh }, fresh)

def processOrphan (ctx : Context) (env : UInt256 → Env) (fresh : CTransaction) (s : ResolveState)
    (orphanTxHash : UInt256) : NodeM ResolveState := do
  let (maps, orphanTx) := s.maps.lookup fresh orphanTxHash
  let fMissingInputs2 ← Action.reading fun n => .ok (pfMissingInputs ctx n orphanTx)
  let accepted ← attempt (AcceptToMemoryPool ctx (env orphanTxHash) orphanTx true false false)
  pure (
    if accepted then ⟨maps, s.vWorkQueue ++ [orphanTxHash], s.vEraseQueue ++ [orphanTxHash]⟩
    else if fMissingInputs2 then { s with maps := maps }
    else ⟨maps, s.vWorkQueue, s.vEraseQueue ++ [orphanTxHash]⟩)

def processOrphans (ctx : Context) (env : UInt256 → Env) (fresh : CTransaction) :
    ℕ → ResolveState → NodeM ResolveState
  | _, ⟨maps, [], vEraseQueue⟩ => pure ⟨maps, [], vEraseQueue⟩
  | 0, ⟨_, _ :: _, _⟩ => Action.fail (.crash "the work queue does not end")
  | fuel + 1, ⟨maps, hash :: rest, vEraseQueue⟩ => do
    let s ← (setOf maps.mapOrphanTransactionsByPrev hash).keys.foldlM (processOrphan ctx env fresh)
      ⟨maps, rest, vEraseQueue⟩
    processOrphans ctx env fresh fuel s

/-- What the node does with a transaction from a peer. It has no result when the eviction has none. An
exception ends the message. -/
def ProcessTx (ctx : Context) (fresh : CTransaction) (chain : NodeState) (maps : OrphanMaps)
    (m : TxMessage) : Option (NodeState × OrphanMaps) :=
  let hash := ctx.hashTx m.tx
  if AlreadyHave ctx chain (maps.mapOrphanTransactions.find hash).isSome m then some (chain, maps)
  else
    match attempt (AcceptToMemoryPool ctx (m.env hash) m.tx true false m.ignoreFees) chain with
    | (.ok true, after) =>
      match processOrphans ctx m.env fresh (maps.mapOrphanTransactions.size + 1) ⟨maps, [hash], []⟩
          after with
      | (.ok s, after) => some (after, s.vEraseQueue.foldl EraseOrphanTx s.maps)
      | (.error _, after) => some (after, maps)
    | (.ok false, after) =>
      if pfMissingInputs ctx chain m.tx then
        ((maps.AddOrphanTx ctx m.tx).1.LimitOrphanTxSize MAX_ORPHAN_TRANSACTIONS m.randHash).map
          fun s => (after, s.maps)
      else some (after, maps)
    | (.error _, after) => some (after, maps)

/-! ## What the maps have -/

section

variable {byPrev : SortedMap UInt256 (SortedMap UInt256 Unit)} {hash : UInt256}

theorem setOf_insertByPrev (txin : CTxIn) : setOf (insertByPrev hash byPrev txin)
    = Function.update (setOf byPrev) txin.prevout.hash
        ((setOf byPrev txin.prevout.hash).insert hash ()) := by
  funext prev
  unfold insertByPrev
  by_cases hprev : prev = txin.prevout.hash
  · subst hprev
    rw [Function.update_self]
    unfold setOf
    rw [find_insert_self, Option.getD_some]
  · rw [Function.update_of_ne hprev]
    unfold setOf
    rw [SortedMap.find_insert_of_ne hprev]

theorem setOf_eraseByPrev (txin : CTxIn) : setOf (eraseByPrev hash byPrev txin)
    = Function.update (setOf byPrev) txin.prevout.hash
        ((setOf byPrev txin.prevout.hash).erase hash) := by
  funext prev
  unfold eraseByPrev
  rcases hfind : byPrev.find txin.prevout.hash with _ | set
  · dsimp only
    by_cases hprev : prev = txin.prevout.hash
    · subst hprev
      rw [Function.update_self]
      unfold setOf
      rw [hfind]
      rfl
    · rw [Function.update_of_ne hprev]
  · dsimp only
    have hset : setOf byPrev txin.prevout.hash = set := by
      unfold setOf
      rw [hfind, Option.getD_some]
    rw [hset]
    by_cases hprev : prev = txin.prevout.hash
    · subst hprev
      rw [Function.update_self]
      unfold setOf
      split_ifs with hsize
      · -- the set that is taken out and the one that there would be are both empty
        rw [find_erase, if_pos rfl, Option.getD_none]
        exact (SortedMap.size_eq_zero.mp hsize).symm
      · rw [find_insert_self, Option.getD_some]
    · rw [Function.update_of_ne hprev]
      unfold setOf
      split_ifs with hsize
      · rw [find_erase, if_neg hprev]
      · rw [SortedMap.find_insert_of_ne hprev]

theorem setOf_foldl_insertByPrev (vin : List CTxIn) :
    setOf (vin.foldl (insertByPrev hash) byPrev)
      = changeSets (fun m => m.insert hash ()) vin (setOf byPrev) := by
  induction vin generalizing byPrev with
  | nil => rfl
  | cons txin vin ih =>
    rw [List.foldl_cons, ih, setOf_insertByPrev]
    rfl

theorem setOf_foldl_eraseByPrev (vin : List CTxIn) :
    setOf (vin.foldl (eraseByPrev hash) byPrev)
      = changeSets (fun m => m.erase hash) vin (setOf byPrev) := by
  induction vin generalizing byPrev with
  | nil => rfl
  | cons txin vin ih =>
    rw [List.foldl_cons, ih, setOf_eraseByPrev]
    rfl

def NoneEmpty (byPrev : SortedMap UInt256 (SortedMap UInt256 Unit)) : Prop :=
  ∀ prev set, byPrev.find prev = some set → set.size ≠ 0

theorem NoneEmpty.insertByPrev (h : NoneEmpty byPrev) (txin : CTxIn) :
    NoneEmpty (insertByPrev hash byPrev txin) := by
  intro prev set hset hsize
  unfold OrphanMaps.insertByPrev at hset
  rw [find_insert] at hset
  split_ifs at hset
  · have hemp := SortedMap.size_eq_zero.mp hsize
    rw [← Option.some.inj hset] at hemp
    have hfind := find_insert_self (setOf byPrev txin.prevout.hash) hash ()
    rw [hemp, SortedMap.find_empty] at hfind
    cases hfind
  · exact h prev set hset hsize

theorem NoneEmpty.eraseByPrev (h : NoneEmpty byPrev) (txin : CTxIn) :
    NoneEmpty (eraseByPrev hash byPrev txin) := by
  unfold OrphanMaps.eraseByPrev
  rcases hfind : byPrev.find txin.prevout.hash with _ | old
  · exact h
  · intro prev set hset hsize
    dsimp only at hset
    split_ifs at hset with hlast
    · rw [find_erase] at hset
      split_ifs at hset
      exact h prev set hset hsize
    · rw [find_insert] at hset
      split_ifs at hset
      · cases hset
        exact hlast hsize
      · exact h prev set hset hsize

theorem NoneEmpty.foldl {f : SortedMap UInt256 (SortedMap UInt256 Unit) → CTxIn →
      SortedMap UInt256 (SortedMap UInt256 Unit)} (hf : ∀ byPrev txin, NoneEmpty byPrev →
        NoneEmpty (f byPrev txin)) (h : NoneEmpty byPrev) (vin : List CTxIn) :
    NoneEmpty (vin.foldl f byPrev) := by
  induction vin generalizing byPrev with
  | nil => exact h
  | cons txin vin ih => exact ih (hf byPrev txin h)

end

structure Indexes {ctx : Context} (maps : OrphanMaps) (orphans : OrphanTxs ctx) : Prop where
  stored : maps.mapOrphanTransactions = orphans.mapOrphanTransactions
  sets : setOf maps.mapOrphanTransactionsByPrev = orphans.mapOrphanTransactionsByPrev
  nonempty : NoneEmpty maps.mapOrphanTransactionsByPrev

variable {ctx : Context} {maps : OrphanMaps} {orphans : OrphanTxs ctx}

namespace Indexes

theorem empty : Indexes OrphanMaps.empty (OrphanTxs.empty : OrphanTxs ctx) where
  stored := rfl
  sets := rfl
  nonempty _ _ h := nomatch h

variable (h : Indexes maps orphans)
include h

theorem byPrev (prev hash : UInt256) :
    (∃ set, maps.mapOrphanTransactionsByPrev.find prev = some set ∧ set.find hash = some ()) ↔
      ∃ tx, maps.mapOrphanTransactions.find hash = some tx ∧
        ∃ txin ∈ tx.vin, txin.prevout.hash = prev := by
  rw [h.stored, ← orphans.byPrev prev hash, ← h.sets]
  unfold setOf
  constructor
  · rintro ⟨set, hset, hhash⟩
    rw [hset]
    exact hhash
  · intro hhash
    rcases hset : maps.mapOrphanTransactionsByPrev.find prev with _ | set
    · rw [hset] at hhash
      simp at hhash
    · rw [hset] at hhash
      exact ⟨set, rfl, hhash⟩

theorem AddOrphanTx (tx : CTransaction) :
    Indexes (maps.AddOrphanTx ctx tx).1 (orphans.AddOrphanTx tx) := by
  unfold OrphanMaps.AddOrphanTx OrphanTxs.AddOrphanTx
  rw [h.stored]
  by_cases hkept : (orphans.find (ctx.hashTx tx)).isSome = true
  · have hkept' : (orphans.mapOrphanTransactions.find (ctx.hashTx tx)).isSome = true := hkept
    rw [dif_pos hkept, if_pos hkept']
    exact h
  · have hkept' : ¬(orphans.mapOrphanTransactions.find (ctx.hashTx tx)).isSome = true := hkept
    rw [dif_neg hkept, if_neg hkept']
    split_ifs
    · exact h
    · refine ⟨rfl, ?_, ?_⟩
      · dsimp only
        rw [setOf_foldl_insertByPrev, h.sets]
      · exact h.nonempty.foldl (fun _ txin h => h.insertByPrev txin) tx.vin

theorem EraseOrphanTx (hash : UInt256) :
    Indexes (maps.EraseOrphanTx hash) (orphans.EraseOrphanTx hash) := by
  unfold OrphanMaps.EraseOrphanTx
  rw [h.stored]
  unfold OrphanTxs.EraseOrphanTx
  split
  · rename_i hnone
    split
    · exact h
    · rename_i tx hfind
      rw [hnone] at hfind
      cases hfind
  · rename_i tx hfind
    split
    · rename_i hnone
      rw [hnone] at hfind
      cases hfind
    · rename_i tx' hfind'
      obtain rfl := Option.mem_unique hfind hfind'
      refine ⟨rfl, ?_, ?_⟩
      · dsimp only
        rw [setOf_foldl_eraseByPrev, h.sets]
      · exact h.nonempty.foldl (fun _ txin h => h.eraseByPrev txin) tx.vin

theorem foldl_EraseOrphanTx (hashes : List UInt256) :
    Indexes (hashes.foldl OrphanMaps.EraseOrphanTx maps)
      (hashes.foldl OrphanTxs.EraseOrphanTx orphans) := by
  induction hashes generalizing maps orphans with
  | nil => exact h
  | cons hash hashes ih => exact ih (h.EraseOrphanTx hash)

theorem size : maps.mapOrphanTransactions.size = orphans.size := by
  rw [h.stored]
  rfl

omit h

theorem limitLoop {nMaxOrphans N k n : ℕ} {randHash : ℕ → UInt256} (h : Indexes maps orphans)
    (hk : maps.mapOrphanTransactions.size ≤ k) (hn : n + k = N) :
    ∃ s, runLoop (evictRound nMaxOrphans randHash) (k + 1) ⟨maps, n⟩ = some s ∧
      Indexes s.maps (OrphanTxs.limitLoop nMaxOrphans (fun j => randHash (N - 1 - j)) k orphans) := by
  induction k generalizing maps orphans n with
  | zero =>
    have hrnd : evictRound nMaxOrphans randHash ⟨maps, n⟩ = .done ⟨maps, n⟩ := by
      unfold evictRound
      rw [if_neg (by dsimp only; omega)]
    exact ⟨_, runLoop_done hrnd, h⟩
  | succ k ih =>
    unfold OrphanTxs.limitLoop
    rw [← h.size, ← h.stored]
    have hrand : N - 1 - k = n := by omega
    rw [hrand]
    by_cases hmany : nMaxOrphans < maps.mapOrphanTransactions.size
    · rw [if_pos hmany]
      rcases hit : (maps.mapOrphanTransactions.lowerBound (randHash n)).or
          maps.mapOrphanTransactions.first with _ | it
      · have hrnd : evictRound nMaxOrphans randHash ⟨maps, n⟩ = .done ⟨maps, n⟩ := by
          unfold evictRound
          rw [if_pos hmany, hit]
        exact ⟨_, runLoop_done hrnd, h⟩
      · have hrnd : evictRound nMaxOrphans randHash ⟨maps, n⟩
            = .next ⟨maps.EraseOrphanTx it.1, n + 1⟩ := by
          unfold evictRound
          rw [if_pos hmany, hit]
        -- the orphan that is evicted is one that there is
        have hfind : maps.mapOrphanTransactions.find it.1 = some it.2 := by
          rcases Option.or_eq_some_iff.mp hit with hlower | ⟨-, hfst⟩
          · exact SortedMap.find_of_lowerBound hlower
          · exact (SortedMap.first_eq_some hfst).1
        have hless := SortedMap.size_erase_lt hfind
        have hsize : (maps.EraseOrphanTx it.1).mapOrphanTransactions
            = maps.mapOrphanTransactions.erase it.1 := by
          unfold OrphanMaps.EraseOrphanTx
          rw [hfind]
        rw [runLoop_next hrnd]
        exact ih (h.EraseOrphanTx it.1) (by rw [hsize]; omega) (by omega)
    · rw [if_neg hmany]
      have hrnd : evictRound nMaxOrphans randHash ⟨maps, n⟩ = .done ⟨maps, n⟩ := by
        unfold evictRound
        rw [if_neg hmany]
      exact ⟨_, runLoop_done hrnd, h⟩

theorem LimitOrphanTxSize (h : Indexes maps orphans) (nMaxOrphans : ℕ) (randHash : ℕ → UInt256) :
    ∃ s, maps.LimitOrphanTxSize nMaxOrphans randHash = some s ∧
      Indexes s.maps (orphans.LimitOrphanTxSize nMaxOrphans
        fun j => randHash (orphans.size - 1 - j)) := by
  unfold OrphanMaps.LimitOrphanTxSize OrphanTxs.LimitOrphanTxSize
  rw [h.size]
  exact h.limitLoop (le_of_eq h.size) (Nat.zero_add _)

theorem lookup (h : Indexes maps orphans) {prev hash : UInt256} (hwaiting : hash ∈ orphans.waiting prev)
    (fresh : CTransaction) :
    ∃ tx, orphans.find hash = some tx ∧ maps.lookup fresh hash = (maps, tx) := by
  obtain ⟨tx, hfind, -⟩ := OrphanTxs.mem_waiting.mp hwaiting
  refine ⟨tx, hfind, ?_⟩
  unfold OrphanMaps.lookup
  rw [h.stored]
  unfold OrphanTxs.find at hfind
  rw [hfind]

end Indexes

/-! ## The queues -/

section

variable {env : UInt256 → Env} {fresh : CTransaction}

def withMaps (maps : OrphanMaps) (queues : OrphanQueues) : ResolveState :=
  ⟨maps, queues.vWorkQueue, queues.vEraseQueue⟩

variable (h : Indexes maps orphans)
include h

theorem processOrphan_eq {prev hash : UInt256}
    (hwaiting : hash ∈ orphans.waiting prev) (queues : OrphanQueues) (s : NodeState) :
    OrphanMaps.processOrphan ctx env fresh (withMaps maps queues) hash s
      = ((Chain.processOrphan ctx env orphans queues hash s).1.map (withMaps maps),
        (Chain.processOrphan ctx env orphans queues hash s).2) := by
  obtain ⟨tx, hfind, hlook⟩ := h.lookup hwaiting fresh
  unfold OrphanMaps.processOrphan Chain.processOrphan
  rw [hfind]
  dsimp only [withMaps]
  rw [hlook]
  rw [bind_apply, bind_apply, Action.reading_apply]
  dsimp only
  rw [bind_apply, bind_apply]
  rcases attempt (AcceptToMemoryPool ctx (env hash) tx true false false) s with ⟨r | accepted, t⟩
  · rfl
  · dsimp only
    cases accepted
    · cases pfMissingInputs ctx s tx <;> rfl
    · rfl

theorem foldlM_processOrphan_eq {prev : UInt256} (hashes : List UInt256)
    (hwaiting : ∀ hash ∈ hashes, hash ∈ orphans.waiting prev) (queues : OrphanQueues)
    (s : NodeState) :
    hashes.foldlM (OrphanMaps.processOrphan ctx env fresh) (withMaps maps queues) s
      = ((hashes.foldlM (Chain.processOrphan ctx env orphans) queues s).1.map (withMaps maps),
        (hashes.foldlM (Chain.processOrphan ctx env orphans) queues s).2) := by
  induction hashes generalizing queues s with
  | nil => rfl
  | cons hash hashes ih =>
    rw [List.foldlM_cons, List.foldlM_cons, bind_apply, bind_apply,
      processOrphan_eq h (hwaiting hash List.mem_cons_self)]
    rcases Chain.processOrphan ctx env orphans queues hash s with ⟨e | queues', t⟩
    · rfl
    · exact ih (fun hash' hmem => hwaiting hash' (List.mem_cons_of_mem _ hmem)) queues' t

theorem processOrphans_eq (fuel : ℕ) (queues : OrphanQueues) (s : NodeState) :
    OrphanMaps.processOrphans ctx env fresh fuel (withMaps maps queues) s
      = ((Chain.processOrphans ctx env orphans fuel queues s).1.map fun vEraseQueue =>
          withMaps maps ⟨[], vEraseQueue⟩,
        (Chain.processOrphans ctx env orphans fuel queues s).2) := by
  induction fuel generalizing queues s with
  | zero =>
    obtain ⟨vWorkQueue, vEraseQueue⟩ := queues
    cases vWorkQueue <;> rfl
  | succ fuel ih =>
    obtain ⟨vWorkQueue, vEraseQueue⟩ := queues
    rcases vWorkQueue with _ | ⟨hash, rest⟩
    · rfl
    · have hkeys : (setOf maps.mapOrphanTransactionsByPrev hash).keys = orphans.waiting hash := by
        rw [h.sets]
        rfl
      change (((setOf maps.mapOrphanTransactionsByPrev hash).keys.foldlM
          (OrphanMaps.processOrphan ctx env fresh) (withMaps maps ⟨rest, vEraseQueue⟩)) >>=
            OrphanMaps.processOrphans ctx env fresh fuel) s = _
      unfold Chain.processOrphans
      rw [hkeys, bind_apply, bind_apply,
        foldlM_processOrphan_eq h (orphans.waiting hash) (fun _ hmem => hmem)]
      rcases (orphans.waiting hash).foldlM (Chain.processOrphan ctx env orphans)
          ⟨rest, vEraseQueue⟩ s with ⟨e | queues', t⟩
      · rfl
      · exact ih queues' t

/-- The two maps follow the set of orphans through `ProcessTx`. -/
theorem processTx_indexes (fresh : CTransaction) (chain : NodeState) (m : TxMessage) :
    ∃ maps' randHash,
      OrphanMaps.ProcessTx ctx fresh chain maps m
        = some ((Chain.ProcessTx ctx ⟨chain, orphans⟩ { m with randHash := randHash }).chain, maps') ∧
      Indexes maps'
        (Chain.ProcessTx ctx ⟨chain, orphans⟩ { m with randHash := randHash }).orphans := by
  have hstor := h.stored
  by_cases hhas : (⟨chain, orphans⟩ : TxNode ctx).has m = true
  · refine ⟨maps, m.randHash, ?_⟩
    rw [show OrphanMaps.ProcessTx ctx fresh chain maps m = some (chain, maps) from
      if_pos (by rw [hstor]; exact hhas),
      show Chain.ProcessTx ctx ⟨chain, orphans⟩ m = ⟨chain, orphans⟩ from if_pos hhas]
    exact ⟨rfl, h⟩
  rw [show OrphanMaps.ProcessTx ctx fresh chain maps m = _ from
    if_neg (by rw [hstor]; exact hhas)]
  simp only [show ∀ randHash, Chain.ProcessTx ctx ⟨chain, orphans⟩ { m with randHash := randHash }
    = _ from fun _ => if_neg hhas]
  rcases attempt (AcceptToMemoryPool ctx (m.env (ctx.hashTx m.tx)) m.tx true false m.ignoreFees) chain
    with ⟨e | accepted, after⟩
  · exact ⟨maps, m.randHash, rfl, h⟩
  · cases accepted
    · dsimp only
      by_cases hmiss : pfMissingInputs ctx chain m.tx = true
      · obtain ⟨s, hs, hindexes⟩ :=
          (h.AddOrphanTx m.tx).LimitOrphanTxSize MAX_ORPHAN_TRANSACTIONS m.randHash
        apply Exists.intro s.maps
        apply Exists.intro fun j => m.randHash ((orphans.AddOrphanTx m.tx).size - 1 - j)
        rw [if_pos hmiss, if_pos hmiss, hs]
        exact ⟨rfl, hindexes⟩
      · rw [if_neg hmiss]
        refine ⟨maps, m.randHash, ?_⟩
        rw [if_neg hmiss]
        exact ⟨rfl, h⟩
    · dsimp only
      have hqueues := @processOrphans_eq ctx maps orphans m.env fresh h (orphans.size + 1)
        ⟨[ctx.hashTx m.tx], []⟩ after
      unfold withMaps at hqueues
      rw [h.size, hqueues]
      rcases Chain.processOrphans ctx m.env orphans (orphans.size + 1) ⟨[ctx.hashTx m.tx], []⟩ after
        with ⟨e | vEraseQueue, t⟩
      · exact ⟨maps, m.randHash, rfl, h⟩
      · exact ⟨_, m.randHash, rfl, h.foldl_EraseOrphanTx vEraseQueue⟩

end

/-! ## Runs -/

/-- What happens to the orphans. The chain is any one at the time when a transaction arrives. -/
inductive Call
  | AddOrphanTx (tx : CTransaction)
  | EraseOrphanTx (hash : UInt256)
  | LimitOrphanTxSize (nMaxOrphans : ℕ) (randHash : ℕ → UInt256)
  | ProcessTx (fresh : CTransaction) (chain : NodeState) (m : TxMessage)

def call (ctx : Context) (maps : OrphanMaps) : Call → Option OrphanMaps
  | .AddOrphanTx tx => some (maps.AddOrphanTx ctx tx).1
  | .EraseOrphanTx hash => some (maps.EraseOrphanTx hash)
  | .LimitOrphanTxSize nMaxOrphans randHash =>
    (maps.LimitOrphanTxSize nMaxOrphans randHash).map EvictState.maps
  | .ProcessTx fresh chain m => (ProcessTx ctx fresh chain maps m).map Prod.snd

theorem Indexes.call (h : Indexes maps orphans) (c : Call) :
    ∃ maps', maps.call ctx c = some maps' ∧ ∃ orphans' : OrphanTxs ctx, Indexes maps' orphans' := by
  cases c with
  | AddOrphanTx tx => exact ⟨_, rfl, _, h.AddOrphanTx tx⟩
  | EraseOrphanTx hash => exact ⟨_, rfl, _, h.EraseOrphanTx hash⟩
  | LimitOrphanTxSize nMaxOrphans randHash =>
    obtain ⟨s, hs, hindexes⟩ := h.LimitOrphanTxSize nMaxOrphans randHash
    refine ⟨s.maps, ?_, _, hindexes⟩
    unfold OrphanMaps.call
    dsimp only
    rw [hs]
    rfl
  | ProcessTx fresh chain m =>
    obtain ⟨maps', randHash, hrun, hindexes⟩ := processTx_indexes h fresh chain m
    refine ⟨maps', ?_, _, hindexes⟩
    unfold OrphanMaps.call
    dsimp only
    rw [hrun]
    rfl

theorem Indexes.calls (h : Indexes maps orphans) (cs : List Call) :
    ∃ maps', cs.foldlM (OrphanMaps.call ctx) maps = some maps' ∧
      ∃ orphans' : OrphanTxs ctx, Indexes maps' orphans' := by
  induction cs generalizing maps orphans with
  | nil => exact ⟨maps, rfl, orphans, h⟩
  | cons c cs ih =>
    obtain ⟨maps', hcall, orphans', h'⟩ := h.call c
    rw [List.foldlM_cons, hcall]
    exact ih h'

/-- After every run of calls, the second map has exactly the orphans that spend from a transaction in
its set, and no empty set, and an eviction from there ends with no more orphans than the maximum. -/
theorem orphans_of_calls (ctx : Context) (cs : List Call) :
    ∃ maps, cs.foldlM (OrphanMaps.call ctx) OrphanMaps.empty = some maps ∧
      (∀ prev hash,
        (∃ set, maps.mapOrphanTransactionsByPrev.find prev = some set ∧ set.find hash = some ()) ↔
          ∃ tx, maps.mapOrphanTransactions.find hash = some tx ∧
            ∃ txin ∈ tx.vin, txin.prevout.hash = prev) ∧
      (∀ prev set, maps.mapOrphanTransactionsByPrev.find prev = some set → set.size ≠ 0) ∧
      ∀ nMaxOrphans randHash, ∃ s, maps.LimitOrphanTxSize nMaxOrphans randHash = some s ∧
        s.maps.mapOrphanTransactions.size ≤ nMaxOrphans := by
  obtain ⟨maps, hrun, orphans, h⟩ := (@Indexes.empty ctx).calls cs
  refine ⟨maps, hrun, h.byPrev, h.nonempty, ?_⟩
  intro nMaxOrphans randHash
  obtain ⟨s, hs, hindexes⟩ := h.LimitOrphanTxSize nMaxOrphans randHash
  refine ⟨s, hs, ?_⟩
  rw [hindexes.size]
  exact (OrphanTxs.limitOrphanTxSize_spec nMaxOrphans _ orphans).1

end OrphanMaps

end ZalemCoin.Chain
