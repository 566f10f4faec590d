import ZalemCoin.InstantX.Authorisation

/-!
# What removing locks releases

Removing the expired locks forgets them, and releases the inputs of the requests of their
transactions. Which inputs are released depends on the requests, and not on who locked the inputs: the
inputs of a refused request stay locked when its lock expires, and those that a request shares with
another transaction are released although that one holds them.
-/

namespace ZalemCoin.InstantX

open Lib Chain Script

def Expires (env : IxEnv) (n : Node) (hash : UInt256) : Prop :=
  n.chain.pindexBest ≠ none ∧
    ∃ lock, n.mapTxLocks.lookup hash = some lock ∧ lock.nExpiration < env.time

def RequestSpends (n : Node) (hash : UInt256) (o : COutPoint) : Prop :=
  ∃ lock tx, n.mapTxLocks.lookup hash = some lock ∧ n.mapTxLockReq lock.txHash = some tx ∧
    o ∈ tx.vin.map CTxIn.prevout

/-- What removing locks should do: it releases the inputs that are locked for transactions whose locks
expire, it keeps all others, and what stays locked belongs to a transaction with a lock, so that it is
released when that expires. -/
structure ReleasesExpired (env : IxEnv) (n n' : Node) : Prop where
  released : ∀ o hash, n.chain.mapLockedInputs o = some hash →
    (n'.chain.mapLockedInputs o = none ↔ Expires env n hash)
  kept : ∀ o hash, n.chain.mapLockedInputs o = some hash → ¬Expires env n hash →
    n'.chain.mapLockedInputs o = some hash
  owned : ∀ o hash, n'.chain.mapLockedInputs o = some hash →
    ∃ lock, n'.mapTxLocks.lookup hash = some lock

/-- The locked inputs are those of the requests with locks, as far as locks expire. -/
structure InputsMatchRequests (env : IxEnv) (n : Node) : Prop where
  owned : ∀ o hash, n.chain.mapLockedInputs o = some hash → n.mapTxLocks.lookup hash ≠ none
  requested : ∀ o hash, n.chain.mapLockedInputs o = some hash → Expires env n hash →
    ∃ other, Expires env n other ∧ RequestSpends n other o
  unshared : ∀ o hash other, n.chain.mapLockedInputs o = some hash → Expires env n other →
    RequestSpends n other o → Expires env n hash

structure Removed (gone : Set UInt256) (n m : Node) : Prop where
  locks : ∀ k lock, m.mapTxLocks.lookup k = some lock ↔
    n.mapTxLocks.lookup k = some lock ∧ k ∉ gone
  requests : ∀ x tx, m.mapTxLockReq x = some tx ↔ n.mapTxLockReq x = some tx ∧
    ¬∃ k ∈ gone, ∃ lock, n.mapTxLocks.lookup k = some lock ∧ lock.txHash = x
  inputs : ∀ o hash, m.chain.mapLockedInputs o = some hash ↔
    n.chain.mapLockedInputs o = some hash ∧ ¬∃ k ∈ gone, RequestSpends n k o

section

variable {env : IxEnv} {n m : Node} {hash : UInt256} {gone : Set UInt256} {lock : CTransactionLock}

theorem Removed.refl (n : Node) : Removed ∅ n n := by
  constructor <;> simp

theorem Removed.locks_erase (h : Removed gone n m) (k : UInt256) (found : CTransactionLock) :
    (m.mapTxLocks.erase hash).lookup k = some found ↔
      n.mapTxLocks.lookup k = some found ∧ k ∉ insert hash gone := by
  by_cases hk : k = hash
  · subst hk
    simp
  · rw [AList.lookup_erase_ne hk, h.locks]
    simp [hk]

theorem Removed.withRequest (h : Removed gone n m) {tx : CTransaction} {m' : Node}
    (hlock : m.mapTxLocks.lookup hash = some lock) (htx : m.mapTxLockReq lock.txHash = some tx)
    (hlocks : m'.mapTxLocks = m.mapTxLocks.erase hash)
    (hreq : m'.mapTxLockReq = Function.update m.mapTxLockReq lock.txHash none)
    (hins : m'.chain.mapLockedInputs = tx.vin.foldl
      (fun (locked : COutPoint → Option UInt256) txin => Function.update locked txin.prevout none)
      m.chain.mapLockedInputs) :
    Removed (insert hash gone) n m' := by
  have hn := ((h.locks hash lock).mp hlock).1
  have hntx := ((h.requests lock.txHash tx).mp htx).1
  constructor
  · rw [hlocks]
    exact h.locks_erase
  · intro x found
    rw [hreq]
    have hthis : (∃ found', n.mapTxLocks.lookup hash = some found' ∧ found'.txHash = x)
        ↔ lock.txHash = x := by
      simp [hn]
    by_cases hx : x = lock.txHash
    · subst hx
      simp [hn]
    · rw [Function.update_of_ne hx, h.requests]
      simp only [Set.mem_insert_iff, exists_eq_or_imp, hthis, Ne.symm hx, false_or]
  · intro o owner
    have hthis : RequestSpends n hash o ↔ o ∈ tx.vin.map CTxIn.prevout := by
      unfold RequestSpends
      simp [hn, hntx]
    rw [hins, foldl_update_none]
    by_cases ho : o ∈ tx.vin.map CTxIn.prevout
    · rw [if_pos ho]
      simp only [Set.mem_insert_iff, exists_eq_or_imp, hthis, ho, true_or, not_true_eq_false,
        and_false, reduceCtorEq]
    · rw [if_neg ho, h.inputs]
      simp only [Set.mem_insert_iff, exists_eq_or_imp, hthis, ho, false_or]

theorem Removed.withoutRequest (h : Removed gone n m) {m' : Node}
    (hlock : m.mapTxLocks.lookup hash = some lock) (htx : m.mapTxLockReq lock.txHash = none)
    (hlocks : m'.mapTxLocks = m.mapTxLocks.erase hash) (hreq : m'.mapTxLockReq = m.mapTxLockReq)
    (hins : m'.chain.mapLockedInputs = m.chain.mapLockedInputs) :
    Removed (insert hash gone) n m' := by
  have hn := ((h.locks hash lock).mp hlock).1
  -- A request that is not there was never there, or it went with a lock of the same transaction.
  have hgone : ∀ tx, n.mapTxLockReq lock.txHash = some tx →
      ∃ k ∈ gone, ∃ found, n.mapTxLocks.lookup k = some found ∧ found.txHash = lock.txHash := by
    intro tx hntx
    by_contra hnone
    have hstill := (h.requests lock.txHash tx).mpr ⟨hntx, hnone⟩
    rw [htx] at hstill
    simp at hstill
  constructor
  · rw [hlocks]
    exact h.locks_erase
  · intro x tx
    rw [hreq, h.requests]
    simp only [Set.mem_insert_iff, exists_eq_or_imp, hn, Option.some.injEq, exists_eq_left', not_or]
    constructor
    · rintro ⟨hx, hno⟩
      refine ⟨hx, ?_, hno⟩
      rintro rfl
      exact hno (hgone tx hx)
    · rintro ⟨hx, -, hno⟩
      exact ⟨hx, hno⟩
  · intro o owner
    rw [hins, h.inputs]
    have hthis : RequestSpends n hash o → ∃ k ∈ gone, RequestSpends n k o := by
      rintro ⟨found, tx, hfound, hntx, ho⟩
      obtain rfl : lock = found := Option.mem_unique hn hfound
      obtain ⟨k, hk, other, hother, htxHash⟩ := hgone tx hntx
      exact ⟨k, hk, other, tx, hother, by rwa [htxHash], ho⟩
    simp only [Set.mem_insert_iff, exists_eq_or_imp, not_or]
    constructor
    · rintro ⟨ho, hno⟩
      exact ⟨ho, fun hspends => hno (hthis hspends), hno⟩
    · rintro ⟨ho, -, hno⟩
      exact ⟨ho, hno⟩

theorem Removed.cleanLock {done : Set UInt256} (hbest : n.chain.pindexBest ≠ none)
    (h : Removed {k | k ∈ done ∧ Expires env n k} n m) :
    Removed {k | k ∈ insert hash done ∧ Expires env n k} n (cleanLock env m hash) := by
  -- A lock that does not expire, or is gone already, changes nothing.
  have hsame : (Expires env n hash → hash ∈ done) →
      {k | k ∈ insert hash done ∧ Expires env n k} = {k | k ∈ done ∧ Expires env n k} := by
    intro hold
    ext k
    constructor
    · rintro ⟨rfl | hk, hexpires⟩
      · exact ⟨hold hexpires, hexpires⟩
      · exact ⟨hk, hexpires⟩
    · rintro ⟨hk, hexpires⟩
      exact ⟨.inr hk, hexpires⟩
  unfold InstantX.cleanLock
  rcases hlock : m.mapTxLocks.lookup hash with _ | lock
  · rw [hsame]
    · exact h
    · intro hexpires
      obtain ⟨-, lock, hn, -⟩ := id hexpires
      by_contra hdone
      have hstill := (h.locks hash lock).mpr ⟨hn, fun hgone => hdone hgone.1⟩
      rw [hlock] at hstill
      simp at hstill
  dsimp only
  have hn := ((h.locks hash lock).mp hlock).1
  by_cases hexpired : env.time ≤ lock.nExpiration
  · rw [if_pos hexpired, hsame]
    · exact h
    · rintro ⟨-, found, hfound, hlt⟩
      obtain rfl : lock = found := Option.mem_unique hn hfound
      omega
  · rw [if_neg hexpired]
    have hexpires : Expires env n hash := ⟨hbest, lock, hn, by omega⟩
    have hinsert : {k | k ∈ insert hash done ∧ Expires env n k}
        = insert hash {k | k ∈ done ∧ Expires env n k} := by
      ext k
      constructor
      · rintro ⟨rfl | hk, hk'⟩
        · exact .inl rfl
        · exact .inr ⟨hk, hk'⟩
      · rintro (rfl | ⟨hk, hk'⟩)
        · exact ⟨.inl rfl, hexpires⟩
        · exact ⟨.inr hk, hk'⟩
    rw [hinsert]
    rcases htx : m.mapTxLockReq lock.txHash with _ | tx
    · exact h.withoutRequest hlock htx rfl rfl rfl
    · exact h.withRequest hlock htx rfl rfl rfl

theorem removed_clean (env : IxEnv) (n : Node) :
    Removed {k | Expires env n k} n (CleanTransactionLocksList env n) := by
  unfold CleanTransactionLocksList
  by_cases hbest : n.chain.pindexBest = none
  · rw [if_pos hbest]
    have hnone : {k | Expires env n k} = ∅ := by
      ext k
      simp [Expires, hbest]
    rw [hnone]
    exact Removed.refl n
  · rw [if_neg hbest]
    have hloop : ∀ (keys : List UInt256) (done : Set UInt256) (m : Node),
        Removed {k | k ∈ done ∧ Expires env n k} n m →
        Removed {k | (k ∈ done ∨ k ∈ keys) ∧ Expires env n k} n
          (keys.foldl (InstantX.cleanLock env) m) := by
      intro keys
      induction keys with
      | nil =>
        intro done m hm
        simpa using hm
      | cons hash keys ih =>
        intro done m hm
        have hstep := ih _ _ (@Removed.cleanLock env n m hash done hbest hm)
        have hset : {k | (k ∈ insert hash done ∨ k ∈ keys) ∧ Expires env n k}
            = {k | (k ∈ done ∨ k ∈ hash :: keys) ∧ Expires env n k} := by
          ext k
          change ((k = hash ∨ k ∈ done) ∨ k ∈ keys) ∧ _ ↔ (k ∈ done ∨ k ∈ hash :: keys) ∧ _
          rw [List.mem_cons]
          tauto
        rwa [hset] at hstep
    have hstart : Removed {k | k ∈ (∅ : Set UInt256) ∧ Expires env n k} n n := by
      simpa using Removed.refl n
    have hend := hloop n.mapTxLocks.keys ∅ n hstart
    -- Every lock that expires is one of those that the loop looks at.
    have hall : {k | (k ∈ (∅ : Set UInt256) ∨ k ∈ n.mapTxLocks.keys) ∧ Expires env n k}
        = {k | Expires env n k} := by
      ext k
      constructor
      · exact fun hk => hk.2
      · intro hk
        obtain ⟨-, lock, hlock, -⟩ := id hk
        have hmem : k ∈ n.mapTxLocks := by
          rw [← AList.lookup_isSome, hlock]
          rfl
        exact ⟨.inr hmem, hk⟩
    rwa [hall] at hend

theorem locked_clean_eq_none {o : COutPoint} (ho : n.chain.mapLockedInputs o = some hash) :
    (CleanTransactionLocksList env n).chain.mapLockedInputs o = none ↔
      ∃ other, Expires env n other ∧ RequestSpends n other o := by
  have hins := (removed_clean env n).inputs o
  constructor
  · intro hnone
    by_contra hno
    have hstill := (hins hash).mpr ⟨ho, hno⟩
    rw [hnone] at hstill
    simp at hstill
  · intro hspends
    rcases hfound : (CleanTransactionLocksList env n).chain.mapLockedInputs o with _ | owner
    · rfl
    · exact absurd hspends ((hins owner).mp hfound).2

end

/-- Removing the expired locks releases exactly their inputs, and leaves no input locked without a
lock, exactly when the locked inputs are those of the requests with locks. -/
theorem clean_releasesExpired_iff (env : IxEnv) (n : Node) :
    ReleasesExpired env n (CleanTransactionLocksList env n) ↔ InputsMatchRequests env n := by
  have hclean := removed_clean env n
  constructor
  · intro h
    constructor
    · intro o hash ho
      by_cases hexpires : Expires env n hash
      · obtain ⟨-, lock, hlock, -⟩ := hexpires
        simp [hlock]
      · obtain ⟨lock, hlock⟩ := h.owned o hash (h.kept o hash ho hexpires)
        simp [((hclean.locks hash lock).mp hlock).1]
    · intro o hash ho hexpires
      exact (locked_clean_eq_none ho).mp ((h.released o hash ho).mpr hexpires)
    · intro o hash other ho hother hspends
      exact (h.released o hash ho).mp ((locked_clean_eq_none ho).mpr ⟨other, hother, hspends⟩)
  · intro h
    have hreleased : ∀ o hash, n.chain.mapLockedInputs o = some hash →
        ((∃ other, Expires env n other ∧ RequestSpends n other o) ↔ Expires env n hash) := by
      intro o hash ho
      constructor
      · rintro ⟨other, hother, hspends⟩
        exact h.unshared o hash other ho hother hspends
      · exact h.requested o hash ho
    constructor
    · intro o hash ho
      rw [locked_clean_eq_none ho]
      exact hreleased o hash ho
    · intro o hash ho hexpires
      exact (hclean.inputs o hash).mpr ⟨ho, fun hspends => hexpires ((hreleased o hash ho).mp hspends)⟩
    · intro o hash ho
      obtain ⟨hold, hno⟩ := (hclean.inputs o hash).mp ho
      rcases hlock : n.mapTxLocks.lookup hash with _ | lock
      · exact absurd hlock (h.owned o hash hold)
      · have hstays : ¬Expires env n hash := fun hexpires => hno ((hreleased o hash hold).mpr hexpires)
        exact ⟨lock, (hclean.locks hash lock).mpr ⟨hlock, hstays⟩⟩

def laterEnv : IxEnv := { requestEnv with toEnv := plainEnv 4000 }

def pooledNode : Node :=
  { requestNode with
    chain := (AcceptToMemoryPool (chainedContext true) requestEnv.toEnv (requestTx 11) true false false
      requestNode.chain).2 }

/-- The request of a transaction that the memory pool has is refused, and locks its inputs. When its
lock expires, they stay locked, and nothing releases them any more. -/
theorem refused_stays_locked :
    ¬∀ (ctx : Context) (env : IxEnv) (n : Node) (log : Log), Run ctx (fun _ _ _ => True) n log →
      ReleasesExpired env n (CleanTransactionLocksList env n) := by
  intro h
  have hstart : Run (chainedContext true) (fun _ _ _ => True) requestNode [] :=
    Run.start rfl rfl rfl rfl rfl
  have hpooled : Run (chainedContext true) (fun _ _ _ => True) pooledNode [] :=
    Run.elsewhere hstart (keeps_acceptToMemoryPool _ _ _ _ _ _ requestNode.chain)
  have hrun := @Run.after _ _ _ hpooled (.txlreq (requestTx 11)) trivial
  have hlocked : (pooledNode.after (.txlreq (requestTx 11))).chain.mapLockedInputs ⟨11, 0⟩
      = some 0 := by decide
  have hlock : (pooledNode.after (.txlreq (requestTx 11))).mapTxLocks.lookup 0
      = some ⟨5, 0, [], 2000 + 20 * 60⟩ := by decide
  have hbest : (pooledNode.after (.txlreq (requestTx 11))).chain.pindexBest ≠ none := by
    decide
  have hexpires : Expires laterEnv (pooledNode.after (.txlreq (requestTx 11))) 0 :=
    ⟨hbest, _, hlock, by decide⟩
  have hreleased := ((h _ laterEnv _ _ hrun).released _ _ hlocked).mpr hexpires
  have hstays : (CleanTransactionLocksList laterEnv
      (pooledNode.after (.txlreq (requestTx 11)))).chain.mapLockedInputs ⟨11, 0⟩ = some 0 := by
    decide
  rw [hstays] at hreleased
  simp at hreleased

end ZalemCoin.InstantX
