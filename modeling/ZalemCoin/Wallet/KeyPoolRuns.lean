import ZalemCoin.Wallet.KeyPool

/-!
# Runs of the key pool

The wallet is asked for keys by any number of holders of reserved keys, in any order, while its pool
is filled up and made anew. As long as no record is written under an index that is reserved, the free
indices are those with a record that are not reserved, a key that is kept or handed out is not handed
out again, and no reservation fails (`sound_of_clears`). A new pool does not look at the reserved
indices, and neither does filling up an empty one.
-/

namespace ZalemCoin.Wallet

open Script
open Function (update update_apply update_of_ne update_self)
open PoolWallet (topUpKeyPool_eq nGenerated_writeAll newKeyPool_eq)

/-- A wallet, the holders of reserved keys, and the keys that have been kept or taken so far. -/
structure PoolState where
  wallet : PoolWallet
  reserveKeys : ℕ → CReserveKey
  spent : List CPubKey

/-- A call of the wallet or of one of the holders, or a change of the lock. -/
inductive PoolOp where
  | topUpKeyPool (nSize : UInt32)
  | newKeyPool
  | getKeyFromPool
  | getReservedKey (k : ℕ)
  | keepKey (k : ℕ)
  | returnKey (k : ℕ)
  | setLocked (fLocked : Bool)

namespace PoolState

variable (env : KeyPoolEnv)

/-- What a call does. A call that hands out a key returns it. -/
def step (s : PoolState) : PoolOp → Except String (Option CPubKey) × PoolState
  | .topUpKeyPool nSize => (.ok none, { s with wallet := (s.wallet.TopUpKeyPool env nSize).2 })
  | .newKeyPool => (.ok none, { s with wallet := (s.wallet.NewKeyPool env).2 })
  | .getKeyFromPool =>
    let (r, wallet) := s.wallet.GetKeyFromPool env
    (r, { s with wallet := wallet, spent := (r.toOption.join).toList ++ s.spent })
  | .getReservedKey k =>
    let (r, key, wallet) := (s.reserveKeys k).GetReservedKey env s.wallet
    (r, { s with wallet := wallet, reserveKeys := Function.update s.reserveKeys k key })
  | .keepKey k =>
    let (key, wallet) := (s.reserveKeys k).KeepKey s.wallet
    (.ok none,
      { wallet := wallet
        reserveKeys := Function.update s.reserveKeys k key
        spent :=
          if (s.reserveKeys k).nIndex ≠ -1 then (s.reserveKeys k).vchPubKey :: s.spent
          else s.spent })
  | .returnKey k =>
    let (key, wallet) := (s.reserveKeys k).ReturnKey s.wallet
    (.ok none, { s with wallet := wallet, reserveKeys := Function.update s.reserveKeys k key })
  | .setLocked fLocked => (.ok none, { s with wallet := { s.wallet with fLocked := fLocked } })

def run (s : PoolState) : List PoolOp → PoolState
  | [] => s
  | op :: ops => run (s.step env op).2 ops

def Reserves (s : PoolState) (k : ℕ) (nIndex : ℤ) : Prop :=
  (s.reserveKeys k).nIndex = nIndex ∧ nIndex ≠ -1

def HandsOut (s : PoolState) (op : PoolOp) (pubkey : CPubKey) : Prop :=
  (s.step env op).1 = .ok (some pubkey) ∧
    (op = .getKeyFromPool ∨ ∃ k, op = .getReservedKey k ∧ (s.reserveKeys k).nIndex = -1 ∧
      ((s.step env op).2.reserveKeys k).nIndex ≠ -1)

/-- The free indices are those that have a record and are not reserved. -/
def Exact (s : PoolState) : Prop :=
  ∀ i, i ∈ s.wallet.setKeyPool ↔ s.wallet.pool i ≠ none ∧ ∀ k, ¬s.Reserves k i

/-- What a call promises: the pool is exact after it, it does not fail, and the key that it hands out
is neither spent nor reserved. -/
structure StepSound (s : PoolState) (op : PoolOp) : Prop where
  exact : (s.step env op).2.Exact
  returns : ∃ r, (s.step env op).1 = .ok r
  unused : ∀ pubkey, s.HandsOut env op pubkey → pubkey ∉ s.spent ∧
    ∀ k i, s.Reserves k i → (s.reserveKeys k).vchPubKey ≠ pubkey

/-- The pool is exact, and every call of a run keeps its promises. -/
def Sound (s : PoolState) : List PoolOp → Prop
  | [] => s.Exact
  | op :: ops => s.Exact ∧ s.StepSound env op ∧ Sound (s.step env op).2 ops

/-- The indices under which a call writes records. -/
def writes (s : PoolState) : PoolOp → List ℤ
  | .topUpKeyPool nSize => s.wallet.topUpIndices env nSize
  | .newKeyPool => s.wallet.newPoolIndices env
  | .getKeyFromPool => s.wallet.topUpIndices env 0
  | .getReservedKey k =>
    if (s.reserveKeys k).nIndex = -1 then s.wallet.topUpIndices env 0 else []
  | .keepKey _ | .returnKey _ | .setLocked _ => []

/-- No call of a run writes a record under an index that is reserved. -/
def Clears (s : PoolState) : List PoolOp → Prop
  | [] => True
  | op :: ops => (∀ i ∈ s.writes env op, ∀ k, ¬s.Reserves k i) ∧ Clears (s.step env op).2 ops

end PoolState

/-- The first keys that are generated are valid and distinct. -/
structure KeyPoolEnv.Fresh (env : KeyPoolEnv) (N : ℕ) : Prop where
  valid : ∀ n < N, (env.newKey n).IsValid
  distinct : ∀ m < N, ∀ n < N, env.newKey m = env.newKey n → m = n

/-- A wallet that has just been loaded: no key is reserved, and all records are free. -/
structure PoolState.Loaded (env : KeyPoolEnv) (N : ℕ) (s : PoolState) : Prop where
  unreserved : ∀ k, (s.reserveKeys k).nIndex = -1
  unspent : s.spent = []
  free : ∀ i, i ∈ s.wallet.setKeyPool ↔ s.wallet.pool i ≠ none
  positive : ∀ i, s.wallet.pool i ≠ none → 1 ≤ i
  known : ∀ i kp, s.wallet.pool i = some kp → kp.vchPubKey ∈ s.wallet.keys ∧ kp.vchPubKey.IsValid
  distinct : ∀ i j a b, s.wallet.pool i = some a → s.wallet.pool j = some b →
    a.vchPubKey = b.vchPubKey → i = j
  unseen : ∀ n, s.wallet.nGenerated ≤ n → n < N → env.newKey n ∉ s.wallet.keys

/-- What holds of the pool as long as no record is written under a reserved index. -/
structure PoolState.Ok (env : KeyPoolEnv) (N : ℕ) (s : PoolState) : Prop where
  exact : s.Exact
  positive : ∀ i, s.wallet.pool i ≠ none → 1 ≤ i
  known : ∀ i kp, s.wallet.pool i = some kp → kp.vchPubKey ∈ s.wallet.keys ∧ kp.vchPubKey.IsValid
  distinct : ∀ i j a b, s.wallet.pool i = some a → s.wallet.pool j = some b →
    a.vchPubKey = b.vchPubKey → i = j
  unseen : ∀ n, s.wallet.nGenerated ≤ n → n < N → env.newKey n ∉ s.wallet.keys
  reserved : ∀ k i, s.Reserves k i →
    ∃ kp, s.wallet.pool i = some kp ∧ kp.vchPubKey = (s.reserveKeys k).vchPubKey
  single : ∀ k k' i, s.Reserves k i → s.Reserves k' i → k = k'
  unspent : ∀ i kp, s.wallet.pool i = some kp → kp.vchPubKey ∉ s.spent
  spentKnown : ∀ pubkey ∈ s.spent, pubkey ∈ s.wallet.keys

namespace PoolState

variable {env : KeyPoolEnv} {N : ℕ} {s : PoolState}

theorem Loaded.ok (h : s.Loaded env N) : s.Ok env N := by
  have hnone : ∀ k i, ¬s.Reserves k i := fun k i hr => hr.2 (hr.1.symm.trans (h.unreserved k))
  constructor
  · intro i
    rw [h.free i]
    exact ⟨fun hi => ⟨hi, fun k => hnone k i⟩, fun hi => hi.1⟩
  · exact h.positive
  · exact h.known
  · exact h.distinct
  · exact h.unseen
  · exact fun k i hr => absurd hr (hnone k i)
  · exact fun k k' i hr => absurd hr (hnone k i)
  · intro i kp hi
    rw [h.unspent]
    simp
  · intro pubkey hspent
    rw [h.unspent] at hspent
    simp at hspent

/-! ## Writing records -/

variable {i : ℤ} {k : ℕ} {kp : CKeyPool} {r : CReserveKey}

variable (h : s.Ok env N)
include h

theorem Ok.unseen_next (henv : env.Fresh N) (hN : s.wallet.nGenerated < N) {n : ℕ}
    (hn : s.wallet.nGenerated + 1 ≤ n) (hnN : n < N) :
    env.newKey n ∉ env.newKey s.wallet.nGenerated :: s.wallet.keys := by
  rw [List.mem_cons, not_or]
  refine ⟨fun heq => ?_, h.unseen n (by omega) hnN⟩
  have := henv.distinct n hnN _ hN heq
  omega

theorem Ok.writeNewKey (henv : env.Fresh N) (hpos : 1 ≤ i)
    (hfree : ∀ k, ¬s.Reserves k i) (hN : s.wallet.nGenerated < N) :
    { s with wallet := s.wallet.writeNewKey env i }.Ok env N := by
  have hnew := h.unseen _ le_rfl hN
  -- The records after the write are the new one and the ones under other indices.
  have hpool : ∀ j kp, (s.wallet.writeNewKey env i).pool j = some kp →
      (j = i ∧ kp.vchPubKey = env.newKey s.wallet.nGenerated) ∨
        (j ≠ i ∧ s.wallet.pool j = some kp) := by
    intro j kp hj
    change update s.wallet.pool i _ j = some kp at hj
    rw [update_apply] at hj
    split_ifs at hj with heq
    · cases hj
      exact .inl ⟨heq, rfl⟩
    · exact .inr ⟨heq, hj⟩
  have hother : ∀ j, j ≠ i → (s.wallet.writeNewKey env i).pool j = s.wallet.pool j :=
    fun j hj => update_of_ne hj _ _
  constructor
  · intro j
    change j ∈ insert i s.wallet.setKeyPool ↔ _
    rw [Finset.mem_insert, h.exact j]
    rcases Decidable.em (j = i) with rfl | hj
    · refine iff_of_true (.inl rfl) ⟨?_, hfree⟩
      change update s.wallet.pool j _ j ≠ none
      rw [update_self]
      simp
    · change _ ↔ (s.wallet.writeNewKey env i).pool j ≠ none ∧ _
      rw [hother j hj, or_iff_right hj]
      rfl
  · intro j hj
    obtain ⟨kp, hkp⟩ := Option.ne_none_iff_exists'.mp hj
    rcases hpool j kp hkp with ⟨rfl, -⟩ | ⟨-, hold⟩
    · exact hpos
    · exact h.positive j (by simp [hold])
  · intro j kp hj
    rcases hpool j kp hj with ⟨-, hkey⟩ | ⟨-, hold⟩
    · rw [hkey]
      exact ⟨List.mem_cons_self, henv.valid _ hN⟩
    · exact ⟨List.mem_cons_of_mem _ (h.known j kp hold).1, (h.known j kp hold).2⟩
  · intro j j' a b hj hj' heq
    rcases hpool j a hj with ⟨rfl, ha⟩ | ⟨-, hold⟩
    · rcases hpool j' b hj' with ⟨rfl, -⟩ | ⟨-, hold'⟩
      · rfl
      · have hmem := (h.known j' b hold').1
        rw [← heq, ha] at hmem
        exact absurd hmem hnew
    · rcases hpool j' b hj' with ⟨rfl, hb⟩ | ⟨-, hold'⟩
      · have hmem := (h.known j a hold).1
        rw [heq, hb] at hmem
        exact absurd hmem hnew
      · exact h.distinct j j' a b hold hold' heq
  · exact fun n => h.unseen_next henv hN
  · intro k j hr
    obtain ⟨kp, hkp, hkey⟩ := h.reserved k j hr
    have hj : j ≠ i := by
      rintro rfl
      exact hfree k hr
    exact ⟨kp, (hother j hj).trans hkp, hkey⟩
  · exact h.single
  · intro j kp hj hspent
    rcases hpool j kp hj with ⟨-, hkey⟩ | ⟨-, hold⟩
    · rw [hkey] at hspent
      exact hnew (h.spentKnown _ hspent)
    · exact h.unspent j kp hold hspent
  · intro pubkey hspent
    exact List.mem_cons_of_mem _ (h.spentKnown pubkey hspent)

theorem Ok.writeAll (henv : env.Fresh N) {l : List ℤ} (hpos : ∀ i ∈ l, 1 ≤ i)
    (hfree : ∀ i ∈ l, ∀ k, ¬s.Reserves k i) (hN : s.wallet.nGenerated + l.length ≤ N) :
    { s with wallet := s.wallet.writeAll env l }.Ok env N := by
  induction l generalizing s with
  | nil => exact h
  | cons i l ih =>
    rw [List.length_cons] at hN
    rw [List.forall_mem_cons] at hpos hfree
    have hone := h.writeNewKey henv hpos.1 hfree.1 (by omega)
    exact ih hone hpos.2 hfree.2 (show s.wallet.nGenerated + 1 + l.length ≤ N by omega)

theorem Ok.pos_of_mem (hi : i ∈ s.wallet.setKeyPool) : 1 ≤ i := h.positive i ((h.exact i).mp hi).1

theorem Ok.nEnd_pos : 1 ≤ s.wallet.nEnd := by
  unfold PoolWallet.nEnd
  split_ifs with hne
  · have hpos := h.pos_of_mem (Finset.max'_mem _ hne)
    omega
  · exact le_rfl

theorem Ok.topUpKeyPool (henv : env.Fresh N) {nSize : UInt32}
    (hfree : ∀ i ∈ s.wallet.topUpIndices env nSize, ∀ k, ¬s.Reserves k i)
    (hN : (s.wallet.TopUpKeyPool env nSize).2.nGenerated ≤ N) :
    { s with wallet := (s.wallet.TopUpKeyPool env nSize).2 }.Ok env N := by
  rw [topUpKeyPool_eq] at hN ⊢
  rw [nGenerated_writeAll] at hN
  refine h.writeAll henv ?_ hfree hN
  intro i hi
  have hend := h.nEnd_pos
  unfold PoolWallet.topUpIndices at hi
  split_ifs at hi
  · simp at hi
  · obtain ⟨j, -, rfl⟩ := List.mem_map.mp hi
    omega

theorem Ok.erasePool : { s with wallet :=
      { s.wallet with
        pool := fun i => if i ∈ s.wallet.setKeyPool then none else s.wallet.pool i
        setKeyPool := ∅ } }.Ok env N := by
  have hpool : ∀ i kp, (if i ∈ s.wallet.setKeyPool then none else s.wallet.pool i) = some kp →
      i ∉ s.wallet.setKeyPool ∧ s.wallet.pool i = some kp := by
    intro i kp hi
    split_ifs at hi with hmem
    exact ⟨hmem, hi⟩
  constructor
  · intro i
    refine iff_of_false (Finset.notMem_empty i) ?_
    rintro ⟨hi, hfree⟩
    obtain ⟨kp, hkp⟩ := Option.ne_none_iff_exists'.mp hi
    obtain ⟨hmem, hold⟩ := hpool i kp hkp
    exact hmem ((h.exact i).mpr ⟨by simp [hold], hfree⟩)
  · intro i hi
    obtain ⟨kp, hkp⟩ := Option.ne_none_iff_exists'.mp hi
    exact h.positive i (by simp [(hpool i kp hkp).2])
  · exact fun i kp hi => h.known i kp (hpool i kp hi).2
  · exact fun i j a b hi hj => h.distinct i j a b (hpool i a hi).2 (hpool j b hj).2
  · exact h.unseen
  · intro k i hr
    obtain ⟨kp, hkp, hkey⟩ := h.reserved k i hr
    have hmem : i ∉ s.wallet.setKeyPool := fun hi => ((h.exact i).mp hi).2 k hr
    exact ⟨kp, (if_neg hmem).trans hkp, hkey⟩
  · exact h.single
  · exact fun i kp hi => h.unspent i kp (hpool i kp hi).2
  · exact h.spentKnown

theorem Ok.newKeyPool (henv : env.Fresh N)
    (hfree : ∀ i ∈ s.wallet.newPoolIndices env, ∀ k, ¬s.Reserves k i)
    (hN : (s.wallet.NewKeyPool env).2.nGenerated ≤ N) :
    { s with wallet := (s.wallet.NewKeyPool env).2 }.Ok env N := by
  rw [newKeyPool_eq] at hN ⊢
  rw [nGenerated_writeAll] at hN
  refine h.erasePool.writeAll henv ?_ hfree hN
  intro i hi
  unfold PoolWallet.newPoolIndices at hi
  split_ifs at hi
  · simp at hi
  · obtain ⟨j, -, rfl⟩ := List.mem_map.mp hi
    omega

/-! ## Reserving a key -/

theorem Ok.takeOldest (keypool : CKeyPool) : (s.wallet.setKeyPool = ∅ ∧
      s.wallet.takeOldest env keypool = (.ok (), -1, keypool, s.wallet)) ∨
    ∃ i kp, i ∈ s.wallet.setKeyPool ∧ s.wallet.pool i = some kp ∧
      s.wallet.takeOldest env keypool = (.ok (), i, kp,
        { s.wallet with setKeyPool := s.wallet.setKeyPool.erase i }) := by
  rcases Finset.eq_empty_or_nonempty s.wallet.setKeyPool with hemp | hne
  · left
    refine ⟨hemp, ?_⟩
    unfold PoolWallet.takeOldest
    rw [dif_neg (by rw [hemp]; exact Finset.not_nonempty_empty)]
  · right
    have hmem := Finset.min'_mem _ hne
    obtain ⟨kp, hkp⟩ := Option.ne_none_iff_exists'.mp ((h.exact _).mp hmem).1
    obtain ⟨hkey, hvalid⟩ := h.known _ kp hkp
    have hhave : s.wallet.HaveKey env (kp.vchPubKey.GetID env.Hash160) = true :=
      List.any_eq_true.mpr ⟨kp.vchPubKey, hkey, beq_self_eq_true _⟩
    refine ⟨_, kp, hmem, hkp, ?_⟩
    unfold PoolWallet.takeOldest
    rw [dif_pos hne]
    simp only [hkp, hhave, hvalid, not_true_eq_false, if_false]

theorem Ok.filled (henv : env.Fresh N)
    (hfree : ∀ i ∈ s.wallet.topUpIndices env 0, ∀ k, ¬s.Reserves k i)
    (hN : (s.wallet.filled env).nGenerated ≤ N) :
    { s with wallet := s.wallet.filled env }.Ok env N := by
  unfold PoolWallet.filled at hN ⊢
  split_ifs at hN ⊢
  · exact h
  · exact h.topUpKeyPool henv hfree hN

theorem Ok.reserve (hi : i ∈ s.wallet.setKeyPool) (hkp : s.wallet.pool i = some kp)
    (hk : (s.reserveKeys k).nIndex = -1) :
    { s with
      wallet := { s.wallet with setKeyPool := s.wallet.setKeyPool.erase i }
      reserveKeys := update s.reserveKeys k ⟨i, kp.vchPubKey⟩ }.Ok env N := by
  have hpos := h.pos_of_mem hi
  have hfree := ((h.exact i).mp hi).2
  -- The holder reserves the index now, and the others what they did before.
  have hholds : ∀ k' j, PoolState.Reserves
      { s with
        wallet := { s.wallet with setKeyPool := s.wallet.setKeyPool.erase i }
        reserveKeys := update s.reserveKeys k ⟨i, kp.vchPubKey⟩ } k' j ↔
      (k' = k ∧ j = i) ∨ (k' ≠ k ∧ s.Reserves k' j) := by
    intro k' j
    unfold PoolState.Reserves
    dsimp only
    rw [update_apply]
    split_ifs with heq
    · constructor
      · exact fun hj => .inl ⟨heq, hj.1.symm⟩
      · rintro (⟨-, rfl⟩ | ⟨hne, -⟩)
        · exact ⟨rfl, by omega⟩
        · exact absurd heq hne
    · exact ⟨fun hj => .inr ⟨heq, hj⟩, fun hj => (hj.resolve_left fun hc => heq hc.1).2⟩
  constructor
  · intro j
    rw [Finset.mem_erase, h.exact j]
    constructor
    · rintro ⟨hne, hrec, hnone⟩
      refine ⟨hrec, fun k' hr => ?_⟩
      rcases (hholds k' j).mp hr with ⟨-, rfl⟩ | ⟨-, hr⟩
      · exact hne rfl
      · exact hnone k' hr
    · rintro ⟨hrec, hnone⟩
      refine ⟨fun heq => hnone k ((hholds k j).mpr (.inl ⟨rfl, heq⟩)), hrec, fun k' hr => ?_⟩
      refine hnone k' ((hholds k' j).mpr (.inr ⟨?_, hr⟩))
      rintro rfl
      exact hr.2 (hr.1.symm.trans hk)
  · exact h.positive
  · exact h.known
  · exact h.distinct
  · exact h.unseen
  · intro k' j hr
    rcases (hholds k' j).mp hr with ⟨rfl, rfl⟩ | ⟨hne, hr⟩
    · exact ⟨kp, hkp, by simp⟩
    · obtain ⟨kp', hkp', hkey⟩ := h.reserved k' j hr
      exact ⟨kp', hkp', by simpa [update_of_ne hne] using hkey⟩
  · intro k₁ k₂ j hr₁ hr₂
    rcases (hholds k₁ j).mp hr₁ with ⟨hk₁, hj₁⟩ | ⟨-, hs₁⟩
    · rcases (hholds k₂ j).mp hr₂ with ⟨hk₂, -⟩ | ⟨-, hs₂⟩
      · exact hk₁.trans hk₂.symm
      · exact absurd (hj₁ ▸ hs₂) (hfree k₂)
    · rcases (hholds k₂ j).mp hr₂ with ⟨-, hj₂⟩ | ⟨-, hs₂⟩
      · exact absurd (hj₂ ▸ hs₁) (hfree k₁)
      · exact h.single k₁ k₂ j hs₁ hs₂
  · exact h.unspent
  · exact h.spentKnown

/-! ## Keeping and returning a key -/

/-- Erasing the record of an index that nobody holds any more, with its key spent, keeps the wallet in
order. -/
theorem Ok.spend {R : ℕ → CReserveKey} (hkp : s.wallet.pool i = some kp)
    (hholds : ∀ k j, ((R k).nIndex = j ∧ j ≠ -1) ↔ s.Reserves k j ∧ j ≠ i)
    (hkeys : ∀ k, (R k).nIndex ≠ -1 → (R k).vchPubKey = (s.reserveKeys k).vchPubKey) :
    PoolState.Ok env N
      { wallet :=
          { s.wallet with
            pool := update s.wallet.pool i none
            setKeyPool := s.wallet.setKeyPool.erase i }
        reserveKeys := R
        spent := kp.vchPubKey :: s.spent } := by
  have hpool : ∀ j a, update s.wallet.pool i none j = some a →
      j ≠ i ∧ s.wallet.pool j = some a := by
    intro j a hj
    rw [update_apply] at hj
    split_ifs at hj with heq
    exact ⟨heq, hj⟩
  constructor
  · intro j
    change j ∈ s.wallet.setKeyPool.erase i ↔ update s.wallet.pool i none j ≠ none ∧
      ∀ k, ¬((R k).nIndex = j ∧ j ≠ -1)
    rw [Finset.mem_erase, h.exact j]
    constructor
    · rintro ⟨hne, hrec, hfree⟩
      refine ⟨?_, fun k hr => hfree k ((hholds k j).mp hr).1⟩
      rw [update_of_ne hne]
      exact hrec
    · rintro ⟨hrec, hfree⟩
      obtain ⟨a, ha⟩ := Option.ne_none_iff_exists'.mp hrec
      obtain ⟨hne, hold⟩ := hpool j a ha
      exact ⟨hne, by simp [hold], fun k hr => hfree k ((hholds k j).mpr ⟨hr, hne⟩)⟩
  · intro j hj
    obtain ⟨a, ha⟩ := Option.ne_none_iff_exists'.mp hj
    exact h.positive j (by simp [(hpool j a ha).2])
  · exact fun j a hj => h.known j a (hpool j a hj).2
  · exact fun j j' a b hj hj' => h.distinct j j' a b (hpool j a hj).2 (hpool j' b hj').2
  · exact h.unseen
  · intro k j hr
    obtain ⟨hold, hne⟩ := (hholds k j).mp hr
    obtain ⟨a, ha, hkey⟩ := h.reserved k j hold
    refine ⟨a, (update_of_ne hne _ _).trans ha, hkey.trans ?_⟩
    exact (hkeys k (by rw [hr.1]; exact hr.2)).symm
  · exact fun k k' j hr hr' => h.single k k' j ((hholds k j).mp hr).1 ((hholds k' j).mp hr').1
  · intro j a hj
    obtain ⟨hne, hold⟩ := hpool j a hj
    rw [List.mem_cons, not_or]
    exact ⟨fun heq => hne (h.distinct j i a kp hold hkp heq), h.unspent j a hold⟩
  · intro pubkey hspent
    rcases List.mem_cons.mp hspent with rfl | hspent
    · exact (h.known i kp hkp).1
    · exact h.spentKnown pubkey hspent

omit h

theorem reserves_update_idle (s : PoolState) (k : ℕ) (hr : r.nIndex = -1) (k' : ℕ) (j : ℤ) :
    ((update s.reserveKeys k r k').nIndex = j ∧ j ≠ -1) ↔ k' ≠ k ∧ s.Reserves k' j := by
  rw [update_apply]
  split_ifs with heq
  · refine iff_of_false ?_ (fun hj => hj.1 heq)
    rintro ⟨rfl, hne⟩
    exact hne hr
  · exact ⟨fun hj => ⟨heq, hj⟩, fun hj => hj.2⟩

theorem vchPubKey_update_idle (s : PoolState) (k : ℕ) (hr : r.nIndex = -1) (k' : ℕ)
    (h : (update s.reserveKeys k r k').nIndex ≠ -1) :
    (update s.reserveKeys k r k').vchPubKey = (s.reserveKeys k').vchPubKey := by
  rw [update_apply] at h ⊢
  split_ifs at h ⊢
  · exact absurd hr h
  · rfl

variable (h : s.Ok env N)
include h

theorem Ok.idle (hk : (s.reserveKeys k).nIndex = -1) (hr : r.nIndex = -1) :
    { s with reserveKeys := update s.reserveKeys k r }.Ok env N := by
  have hsame : ∀ k' j, ((update s.reserveKeys k r k').nIndex = j ∧ j ≠ -1) ↔ s.Reserves k' j := by
    intro k' j
    rw [reserves_update_idle s k hr]
    refine ⟨fun hj => hj.2, fun hj => ⟨?_, hj⟩⟩
    rintro rfl
    exact hj.2 (hj.1.symm.trans hk)
  constructor
  · intro j
    rw [h.exact j]
    exact and_congr_right fun _ => forall_congr' fun k' => not_congr (hsame k' j).symm
  · exact h.positive
  · exact h.known
  · exact h.distinct
  · exact h.unseen
  · intro k' j hj
    obtain ⟨kp, hkp, hkey⟩ := h.reserved k' j ((hsame k' j).mp hj)
    have hne : (update s.reserveKeys k r k').nIndex ≠ -1 := by
      rw [hj.1]
      exact hj.2
    exact ⟨kp, hkp, hkey.trans (vchPubKey_update_idle s k hr k' hne).symm⟩
  · exact fun k₁ k₂ j hr₁ hr₂ =>
      h.single k₁ k₂ j ((hsame k₁ j).mp hr₁) ((hsame k₂ j).mp hr₂)
  · exact h.unspent
  · exact h.spentKnown

theorem Ok.keepKey (k : ℕ) : (s.step env (.keepKey k)).2.Ok env N := by
  unfold step CReserveKey.KeepKey PoolWallet.KeepKey
  rcases Decidable.em ((s.reserveKeys k).nIndex = -1) with hnone | hsome
  · simp only [hnone, ne_eq, not_true_eq_false, if_false]
    exact h.idle hnone rfl
  · have hr : s.Reserves k (s.reserveKeys k).nIndex := ⟨rfl, hsome⟩
    obtain ⟨kp, hkp, hkey⟩ := h.reserved k _ hr
    have hmem : (s.reserveKeys k).nIndex ∉ s.wallet.setKeyPool :=
      fun hi => ((h.exact _).mp hi).2 k hr
    have hspend := h.spend (R := update s.reserveKeys k CReserveKey.empty) hkp ?_
      (vchPubKey_update_idle s k rfl)
    · rw [Finset.erase_eq_of_notMem hmem, hkey] at hspend
      simp only [ne_eq, hsome, not_false_eq_true, if_true]
      exact hspend
    · -- The index of a holder is not that of another one.
      intro k' j
      rw [reserves_update_idle s k rfl]
      constructor
      · rintro ⟨hne, hj⟩
        refine ⟨hj, ?_⟩
        rintro rfl
        exact hne (h.single k' k _ hj hr)
      · rintro ⟨hj, hne⟩
        refine ⟨?_, hj⟩
        rintro rfl
        exact hne hj.1.symm

theorem Ok.returnKey (k : ℕ) : (s.step env (.returnKey k)).2.Ok env N := by
  unfold step CReserveKey.ReturnKey PoolWallet.ReturnKey
  rcases Decidable.em ((s.reserveKeys k).nIndex = -1) with hnone | hsome
  · simp only [hnone, ne_eq, not_true_eq_false, if_false]
    exact h.idle hnone rfl
  · have hr : s.Reserves k (s.reserveKeys k).nIndex := ⟨rfl, hsome⟩
    obtain ⟨kp, hkp, hkey⟩ := h.reserved k _ hr
    simp only [ne_eq, hsome, not_false_eq_true, if_true]
    have hidle := reserves_update_idle s k (r := CReserveKey.empty) rfl
    constructor
    · intro j
      change j ∈ insert _ s.wallet.setKeyPool ↔ s.wallet.pool j ≠ none ∧
        ∀ k', ¬((update s.reserveKeys k CReserveKey.empty k').nIndex = j ∧ j ≠ -1)
      rw [Finset.mem_insert, h.exact j]
      constructor
      · rintro (rfl | ⟨hrec, hfree⟩)
        · refine ⟨by simp [hkp], fun k' hj => ?_⟩
          obtain ⟨hne, hj⟩ := (hidle k' _).mp hj
          exact hne (h.single k' k _ hj hr)
        · exact ⟨hrec, fun k' hj => hfree k' ((hidle k' j).mp hj).2⟩
      · rintro ⟨hrec, hfree⟩
        rcases Decidable.em (j = (s.reserveKeys k).nIndex) with heq | hne
        · exact .inl heq
        · refine .inr ⟨hrec, fun k' hj => hfree k' ((hidle k' j).mpr ⟨?_, hj⟩)⟩
          rintro rfl
          exact hne hj.1.symm
    · exact h.positive
    · exact h.known
    · exact h.distinct
    · exact h.unseen
    · intro k' j hj
      obtain ⟨a, ha, hkey'⟩ := h.reserved k' j ((hidle k' j).mp hj).2
      have hne : (update s.reserveKeys k CReserveKey.empty k').nIndex ≠ -1 := by
        rw [hj.1]
        exact hj.2
      exact ⟨a, ha, hkey'.trans (vchPubKey_update_idle s k rfl k' hne).symm⟩
    · exact fun k₁ k₂ j hr₁ hr₂ =>
        h.single k₁ k₂ j ((hidle k₁ j).mp hr₁).2 ((hidle k₂ j).mp hr₂).2
    · exact h.unspent
    · exact h.spentKnown

/-! ## The steps -/

theorem Ok.generate (henv : env.Fresh N) (hN : s.wallet.nGenerated < N) : { s with
      wallet := (s.wallet.GenerateNewKey env).2
      spent := (s.wallet.GenerateNewKey env).1 :: s.spent }.Ok env N := by
  have hnew := h.unseen _ le_rfl hN
  constructor
  · exact h.exact
  · exact h.positive
  · exact fun i kp hi => ⟨List.mem_cons_of_mem _ (h.known i kp hi).1, (h.known i kp hi).2⟩
  · exact h.distinct
  · exact fun n => h.unseen_next henv hN
  · exact h.reserved
  · exact h.single
  · intro i kp hi
    change kp.vchPubKey ∉ env.newKey s.wallet.nGenerated :: s.spent
    rw [List.mem_cons, not_or]
    refine ⟨fun heq => ?_, h.unspent i kp hi⟩
    exact hnew (heq ▸ (h.known i kp hi).1)
  · intro pubkey hspent
    rcases List.mem_cons.mp hspent with rfl | hspent
    · exact List.mem_cons_self
    · exact List.mem_cons_of_mem _ (h.spentKnown pubkey hspent)

theorem Ok.unused (hi : i ∈ s.wallet.setKeyPool) (hkp : s.wallet.pool i = some kp) :
    kp.vchPubKey ∉ s.spent ∧
      ∀ k j, s.Reserves k j → (s.reserveKeys k).vchPubKey ≠ kp.vchPubKey := by
  refine ⟨h.unspent i kp hkp, fun k j hr heq => ?_⟩
  obtain ⟨a, ha, hkey⟩ := h.reserved k j hr
  obtain rfl := h.distinct j i a kp ha hkp (hkey.trans heq)
  exact ((h.exact j).mp hi).2 k hr

theorem Ok.unused_newKey (hN : s.wallet.nGenerated < N) :
    env.newKey s.wallet.nGenerated ∉ s.spent ∧
      ∀ k j, s.Reserves k j → (s.reserveKeys k).vchPubKey ≠ env.newKey s.wallet.nGenerated := by
  have hnew := h.unseen _ le_rfl hN
  refine ⟨fun hspent => hnew (h.spentKnown _ hspent), fun k j hr heq => ?_⟩
  obtain ⟨a, ha, hkey⟩ := h.reserved k j hr
  exact hnew (heq ▸ hkey ▸ (h.known j a ha).1)

omit h

theorem nGenerated_takeOldest (w : PoolWallet) (keypool : CKeyPool) :
    (w.takeOldest env keypool).2.2.2.nGenerated = w.nGenerated := by
  unfold PoolWallet.takeOldest
  split_ifs
  · dsimp only
    split
    · rfl
    · split_ifs
      all_goals rfl
  · rfl

theorem nGenerated_reserveKeyFromKeyPool (w : PoolWallet) (keypool : CKeyPool) :
    (w.ReserveKeyFromKeyPool env keypool).2.2.2.nGenerated = (w.filled env).nGenerated :=
  nGenerated_takeOldest _ _

theorem nGenerated_getKeyFromPool (s : PoolState) :
    (s.wallet.filled env).nGenerated ≤ (s.step env .getKeyFromPool).2.wallet.nGenerated := by
  have hreserve := @nGenerated_reserveKeyFromKeyPool env s.wallet (s.wallet.blankRecord env)
  unfold step PoolWallet.GetKeyFromPool
  rcases hres : s.wallet.ReserveKeyFromKeyPool env (s.wallet.blankRecord env) with
    ⟨e | ⟨⟩, nIndex, kp, w⟩
  · rw [hres] at hreserve
    exact hreserve.ge
  · rw [hres] at hreserve
    dsimp only
    split_ifs
    · exact hreserve.ge
    · exact hreserve.ge.trans (Nat.le_succ _)
    · exact hreserve.ge

theorem nGenerated_getReservedKey (s : PoolState) (hk : (s.reserveKeys k).nIndex = -1) :
    (s.step env (.getReservedKey k)).2.wallet.nGenerated = (s.wallet.filled env).nGenerated := by
  have hreserve := @nGenerated_reserveKeyFromKeyPool env s.wallet (s.wallet.blankRecord env)
  unfold step CReserveKey.GetReservedKey
  dsimp only
  rw [if_pos hk]
  rcases hres : s.wallet.ReserveKeyFromKeyPool env (s.wallet.blankRecord env) with
    ⟨e | ⟨⟩, nIndex, kp, w⟩
  · rw [hres] at hreserve
    exact hreserve
  · rw [hres] at hreserve
    dsimp only
    split_ifs
    all_goals exact hreserve

theorem Ok.reserveKeyFromKeyPool (h : { s with wallet := s.wallet.filled env }.Ok env N) :
    (∃ kp, s.wallet.ReserveKeyFromKeyPool env (s.wallet.blankRecord env)
      = (.ok (), -1, kp, s.wallet.filled env)) ∨
    ∃ i kp, i ∈ (s.wallet.filled env).setKeyPool ∧ (s.wallet.filled env).pool i = some kp ∧
      s.wallet.ReserveKeyFromKeyPool env (s.wallet.blankRecord env) = (.ok (), i, kp,
        { s.wallet.filled env with
          setKeyPool := (s.wallet.filled env).setKeyPool.erase i }) := by
  rcases h.takeOldest { s.wallet.blankRecord env with vchPubKey := CPubKey.invalid } with
    ⟨-, htake⟩ | ⟨i, kp, hi, hkp, htake⟩
  · exact .inl ⟨_, htake⟩
  · exact .inr ⟨i, kp, hi, hkp, htake⟩

theorem Ok.getKeyFromPool (h : s.Ok env N) (henv : env.Fresh N)
    (hfree : ∀ i ∈ s.wallet.topUpIndices env 0, ∀ k, ¬s.Reserves k i)
    (hN : (s.step env .getKeyFromPool).2.wallet.nGenerated ≤ N) :
    (s.step env .getKeyFromPool).2.Ok env N ∧ s.StepSound env .getKeyFromPool := by
  have hok := h.filled henv hfree ((nGenerated_getKeyFromPool s).trans hN)
  rcases hok.reserveKeyFromKeyPool with ⟨kp, htake⟩ | ⟨i, kp, hi, hkp, htake⟩
  · -- There is no free key: a locked wallet has none to give, another one generates it.
    have hstep : s.step env .getKeyFromPool = if (s.wallet.filled env).fLocked then
        (.ok none, { s with wallet := s.wallet.filled env })
      else (.ok (some (env.newKey (s.wallet.filled env).nGenerated)),
        { s with
          wallet := ((s.wallet.filled env).GenerateNewKey env).2
          spent := env.newKey (s.wallet.filled env).nGenerated :: s.spent }) := by
      unfold step PoolWallet.GetKeyFromPool
      rw [htake]
      dsimp only
      rw [if_pos rfl]
      split_ifs
      all_goals rfl
    split_ifs at hstep with hlocked
    · refine ⟨by rw [hstep]; exact hok, ⟨by rw [hstep]; exact hok.exact, ⟨_, by rw [hstep]⟩, ?_⟩⟩
      rintro pubkey ⟨hret, -⟩
      rw [hstep] at hret
      simp at hret
    · rw [hstep] at hN
      have hgen := hok.generate henv (show (s.wallet.filled env).nGenerated < N from hN)
      refine ⟨by rw [hstep]; exact hgen, ⟨by rw [hstep]; exact hgen.exact, ⟨_, by rw [hstep]⟩, ?_⟩⟩
      rintro pubkey ⟨hret, -⟩
      rw [hstep] at hret
      cases hret
      exact hok.unused_newKey hN
  · have hpos := hok.pos_of_mem hi
    have hstep : s.step env .getKeyFromPool = (.ok (some kp.vchPubKey),
        { wallet :=
            { s.wallet.filled env with
              pool := update (s.wallet.filled env).pool i none
              setKeyPool := (s.wallet.filled env).setKeyPool.erase i }
          reserveKeys := s.reserveKeys
          spent := kp.vchPubKey :: s.spent }) := by
      unfold step PoolWallet.GetKeyFromPool
      rw [htake]
      dsimp only
      rw [if_neg (by omega)]
      rfl
    have hspend := hok.spend (R := s.reserveKeys) hkp (fun k j => ⟨fun hr => ⟨hr, ?_⟩, fun hr => hr.1⟩)
      (fun k _ => rfl)
    · refine ⟨by rw [hstep]; exact hspend,
        ⟨by rw [hstep]; exact hspend.exact, ⟨_, by rw [hstep]⟩, ?_⟩⟩
      rintro pubkey ⟨hret, -⟩
      rw [hstep] at hret
      cases hret
      exact hok.unused hi hkp
    · rintro rfl
      exact ((hok.exact j).mp hi).2 k hr

/-- Reserving a key keeps the pool right when the indices it writes are free. -/
theorem Ok.getReservedKey (h : s.Ok env N) (henv : env.Fresh N)
    (hfree : ∀ i ∈ s.writes env (.getReservedKey k), ∀ k, ¬s.Reserves k i)
    (hN : (s.step env (.getReservedKey k)).2.wallet.nGenerated ≤ N) :
    (s.step env (.getReservedKey k)).2.Ok env N ∧ s.StepSound env (.getReservedKey k) := by
  rcases Decidable.em ((s.reserveKeys k).nIndex = -1) with hnone | hsome
  · change ∀ i ∈ (if (s.reserveKeys k).nIndex = -1 then s.wallet.topUpIndices env 0 else []), _
      at hfree
    rw [if_pos hnone] at hfree
    rw [nGenerated_getReservedKey s hnone] at hN
    have hok := h.filled henv hfree hN
    rcases hok.reserveKeyFromKeyPool with ⟨kp, htake⟩ | ⟨i, kp, hi, hkp, htake⟩
    · -- There is no free key, and the holder does not get one of the pool.
      obtain ⟨r, key, hkey, hstep⟩ : ∃ r key, key.nIndex = -1 ∧
          s.step env (.getReservedKey k) = (.ok r,
            { s with
              wallet := s.wallet.filled env
              reserveKeys := update s.reserveKeys k key }) := by
        unfold step CReserveKey.GetReservedKey
        dsimp only
        rw [if_pos hnone, htake]
        dsimp only
        rw [if_neg (not_not.mpr rfl)]
        split_ifs
        · exact ⟨_, ⟨-1, _⟩, rfl, rfl⟩
        · exact ⟨_, { s.reserveKeys k with nIndex := -1 }, rfl, rfl⟩
      have hidle := hok.idle hnone hkey
      refine ⟨by rw [hstep]; exact hidle,
        ⟨by rw [hstep]; exact hidle.exact, ⟨_, by rw [hstep]⟩, ?_⟩⟩
      rintro pubkey ⟨-, hop | ⟨k', hop, -, hgot⟩⟩
      · exact nomatch hop
      · obtain rfl := PoolOp.getReservedKey.inj hop
        rw [hstep] at hgot
        simp [hkey] at hgot
    · have hpos := hok.pos_of_mem hi
      have hvalid := (hok.known i kp hkp).2
      have hstep : s.step env (.getReservedKey k) = (.ok (some kp.vchPubKey),
          { s with
            wallet :=
              { s.wallet.filled env with
                setKeyPool := (s.wallet.filled env).setKeyPool.erase i }
            reserveKeys := update s.reserveKeys k ⟨i, kp.vchPubKey⟩ }) := by
        unfold step CReserveKey.GetReservedKey
        dsimp only
        rw [if_pos hnone, htake]
        dsimp only
        rw [if_pos (by omega), if_pos hvalid]
      have hres := hok.reserve hi hkp hnone
      refine ⟨by rw [hstep]; exact hres, ⟨by rw [hstep]; exact hres.exact, ⟨_, by rw [hstep]⟩, ?_⟩⟩
      rintro pubkey ⟨hret, -⟩
      rw [hstep] at hret
      cases hret
      exact hok.unused hi hkp
  · -- The holder has a key, and shows it.
    obtain ⟨kp, hkp, hkey⟩ := h.reserved k _ ⟨rfl, hsome⟩
    have hvalid : (s.reserveKeys k).vchPubKey.IsValid := hkey ▸ (h.known _ kp hkp).2
    have hstep : s.step env (.getReservedKey k)
        = (.ok (some (s.reserveKeys k).vchPubKey), s) := by
      unfold step CReserveKey.GetReservedKey
      dsimp only
      rw [if_neg hsome, if_pos hvalid]
      rw [Function.update_eq_self]
    refine ⟨by rw [hstep]; exact h, ⟨by rw [hstep]; exact h.exact, ⟨_, by rw [hstep]⟩, ?_⟩⟩
    rintro pubkey ⟨-, hop | ⟨k', hop, hidle, -⟩⟩
    · exact nomatch hop
    · obtain rfl := PoolOp.getReservedKey.inj hop
      exact absurd hidle hsome

theorem Ok.stepSound_of_none {op : PoolOp} (h : (s.step env op).2.Ok env N)
    (hret : (s.step env op).1 = .ok none) : s.StepSound env op where
  exact := h.exact
  returns := ⟨none, hret⟩
  unused := by
    rintro pubkey ⟨hsome, -⟩
    rw [hret] at hsome
    simp at hsome

theorem Ok.step (h : s.Ok env N) (henv : env.Fresh N) {op : PoolOp}
    (hfree : ∀ i ∈ s.writes env op, ∀ k, ¬s.Reserves k i)
    (hN : (s.step env op).2.wallet.nGenerated ≤ N) :
    (s.step env op).2.Ok env N ∧ s.StepSound env op := by
  cases op with
  | topUpKeyPool nSize =>
    have hok := h.topUpKeyPool henv hfree hN
    exact ⟨hok, Ok.stepSound_of_none hok rfl⟩
  | newKeyPool =>
    have hok := h.newKeyPool henv hfree hN
    exact ⟨hok, Ok.stepSound_of_none hok rfl⟩
  | getKeyFromPool => exact h.getKeyFromPool henv hfree hN
  | getReservedKey k => exact h.getReservedKey henv hfree hN
  | keepKey k => exact ⟨h.keepKey k, Ok.stepSound_of_none (h.keepKey k) rfl⟩
  | returnKey k => exact ⟨h.returnKey k, Ok.stepSound_of_none (h.returnKey k) rfl⟩
  | setLocked fLocked =>
    have hok : (s.step env (.setLocked fLocked)).2.Ok env N :=
      ⟨h.exact, h.positive, h.known, h.distinct, h.unseen, h.reserved, h.single, h.unspent,
        h.spentKnown⟩
    exact ⟨hok, Ok.stepSound_of_none hok rfl⟩

theorem nGenerated_le_filled (w : PoolWallet) : w.nGenerated ≤ (w.filled env).nGenerated := by
  unfold PoolWallet.filled
  split_ifs
  · exact le_rfl
  · rw [topUpKeyPool_eq, nGenerated_writeAll]
    omega

theorem nGenerated_le_step (s : PoolState) (op : PoolOp) :
    s.wallet.nGenerated ≤ (s.step env op).2.wallet.nGenerated := by
  cases op with
  | topUpKeyPool nSize =>
    change _ ≤ (s.wallet.TopUpKeyPool env nSize).2.nGenerated
    rw [topUpKeyPool_eq, nGenerated_writeAll]
    omega
  | newKeyPool =>
    change _ ≤ (s.wallet.NewKeyPool env).2.nGenerated
    rw [newKeyPool_eq, nGenerated_writeAll]
    exact Nat.le_add_right _ _
  | getKeyFromPool => exact (nGenerated_le_filled _).trans (nGenerated_getKeyFromPool s)
  | getReservedKey k =>
    rcases Decidable.em ((s.reserveKeys k).nIndex = -1) with hnone | hsome
    · exact (nGenerated_le_filled _).trans (nGenerated_getReservedKey s hnone).ge
    · unfold PoolState.step CReserveKey.GetReservedKey
      dsimp only
      split_ifs
      all_goals exact le_rfl
  | keepKey k =>
    unfold PoolState.step CReserveKey.KeepKey
    dsimp only
    split_ifs
    all_goals exact le_rfl
  | returnKey k =>
    unfold PoolState.step CReserveKey.ReturnKey
    dsimp only
    split_ifs
    all_goals exact le_rfl
  | setLocked fLocked => exact le_rfl

theorem nGenerated_le_run (s : PoolState) (ops : List PoolOp) :
    s.wallet.nGenerated ≤ (s.run env ops).wallet.nGenerated := by
  induction ops generalizing s with
  | nil => exact le_rfl
  | cons op ops ih => exact (nGenerated_le_step s op).trans (ih _)

theorem Ok.sound (h : s.Ok env N) (henv : env.Fresh N) {ops : List PoolOp}
    (hclear : s.Clears env ops) (hN : (s.run env ops).wallet.nGenerated ≤ N) :
    s.Sound env ops := by
  induction ops generalizing s with
  | nil => exact h.exact
  | cons op ops ih =>
    obtain ⟨hfree, hclear⟩ := hclear
    obtain ⟨hok, hsound⟩ := h.step henv hfree ((nGenerated_le_run _ _).trans hN)
    exact ⟨h.exact, hsound, ih hok hclear hN⟩

/-- In every run of a wallet that has just been loaded, in which the keys that are generated are new
and no record is written under an index that is reserved, the free indices are those that have a
record and are not reserved, no call fails, and no key is handed out that is reserved or has been kept
or handed out. -/
theorem sound_of_clears (hload : s.Loaded env N) (henv : env.Fresh N) {ops : List PoolOp}
    (hclear : s.Clears env ops) (hN : (s.run env ops).wallet.nGenerated ≤ N) :
    s.Sound env ops :=
  hload.ok.sound henv hclear hN

end PoolState

/-! ## A new pool while a key is reserved -/

def poolKey (n : ℕ) : CPubKey := ⟨2 :: UInt8.ofNat n :: List.replicate 31 0, rfl⟩

def poolEnv : KeyPoolEnv where
  Hash160 vch := Fin.ofNat _ ((vch.drop 1).headD 0).toNat
  newKey := poolKey
  time _ := 0
  keypool := some 1
  fLiteMode := false

def poolStart : PoolState where
  wallet := ⟨false, [], 0, ∅, fun _ => none, CPubKey.invalid⟩
  reserveKeys _ := CReserveKey.empty
  spent := []

theorem poolEnv_fresh : poolEnv.Fresh 100 := by
  constructor
  · intro n _
    rfl
  · intro m hm n hn heq
    have hbyte : UInt8.ofNat m = UInt8.ofNat n :=
      (List.cons.inj (List.cons.inj (congrArg CPubKey.vch heq)).2).1
    have hnat := congrArg UInt8.toNat hbyte
    rw [UInt8.toNat_ofNat_of_lt' (show m < 2 ^ 8 by omega),
      UInt8.toNat_ofNat_of_lt' (show n < 2 ^ 8 by omega)] at hnat
    exact hnat

theorem poolStart_loaded : poolStart.Loaded poolEnv 100 := by
  constructor
  · exact fun _ => rfl
  · rfl
  · intro i
    exact iff_of_false (Finset.notMem_empty i) (fun h => h rfl)
  · exact fun i hi => absurd rfl hi
  · exact fun i kp hi => nomatch hi
  · exact fun i j a b hi => nomatch hi
  · exact fun n _ _ => List.not_mem_nil

/-- While one key is reserved, another one is taken from the pool: no record is written under the
reserved index. -/
theorem poolStart_sound :
    poolStart.Sound poolEnv [.getReservedKey 0, .getKeyFromPool] := by
  apply PoolState.sound_of_clears poolStart_loaded poolEnv_fresh
  · refine ⟨fun i _ k hr => hr.2 hr.1.symm, ?_, trivial⟩
    intro i hi k hr
    have hwrites : (poolStart.step poolEnv (.getReservedKey 0)).2.writes poolEnv .getKeyFromPool
        = [3] := by decide
    rw [hwrites, List.mem_singleton] at hi
    subst hi
    have hindex : ((poolStart.step poolEnv (.getReservedKey 0)).2.reserveKeys 0).nIndex = 1 := by
      decide
    rcases k with _ | k
    · have hthree := hr.1
      omega
    · exact hr.2 (hr.1.symm.trans rfl)
  · decide

/-- It is not true that every run of a wallet that has just been loaded keeps its promises: a new pool
takes the index of a reserved key, and when that index is returned after its record is gone, the next
key cannot be read. -/
theorem newKeyPool_collides :
    ¬∀ (env : KeyPoolEnv) (N : ℕ) (s : PoolState) (ops : List PoolOp), env.Fresh N →
      s.Loaded env N → (s.run env ops).wallet.nGenerated ≤ N → s.Sound env ops := by
  intro hall
  have hsound := hall poolEnv 100 poolStart
    [.getReservedKey 0, .newKeyPool, .getKeyFromPool, .returnKey 0, .getKeyFromPool]
    poolEnv_fresh poolStart_loaded (by decide)
  obtain ⟨-, -, -, -, -, -, -, -, -, ⟨-, ⟨r, hret⟩, -⟩, -⟩ := hsound
  have hfail : (PoolState.step poolEnv (poolStart.run poolEnv
      [.getReservedKey 0, .newKeyPool, .getKeyFromPool, .returnKey 0]) .getKeyFromPool).1.isOk
        = false := by decide
  have hok := congrArg Except.isOk hret
  exact absurd (hfail.symm.trans hok) (by simp [Except.isOk, Except.toBool])

end ZalemCoin.Wallet
