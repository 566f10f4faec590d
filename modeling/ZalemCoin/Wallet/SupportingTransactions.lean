import Mathlib.Data.Set.Finite.Basic
import ZalemCoin.Lib.Worklist
import ZalemCoin.Wallet.MerkleTx

/-!
# The ancestors that a wallet transaction carries

`AddSupportingTransactions` copies the ancestors of a new transaction into it, so that its receiver can
check it. It means to stop at those that are deep enough in the main chain, and asks `SetMerkleBranch`
how deep they are.
-/

namespace ZalemCoin.Wallet

open Chain Lib

structure CWalletTx extends CMerkleTx where
  vtxPrev : List CMerkleTx
deriving DecidableEq

/-- The depth from which on the inputs of a transaction are not copied. -/
def COPY_DEPTH : ℤ := 3

def inputHashes (tx : CTransaction) : List UInt256 := tx.vin.map fun txin => txin.prevout.hash

variable (ctx : Context)

def ReadDiskTx (s : NodeState) (hash : UInt256) : Option CTransaction := do
  let txindex ← s.txdb.ReadTxIndex hash
  readTxAt ctx txindex.pos

/-- What the loop over the ancestors carries. -/
structure Supporting where
  setAlreadyDone : List UInt256
  mapWalletPrev : UInt256 → Option CMerkleTx
  vtxPrev : List CMerkleTx

abbrev MapWallet := AList fun _ : UInt256 => CWalletTx

/-- Looks for a transaction in the wallet, among the ancestors that the wallet's transactions carry, and
on the disk. -/
def findSupporting (s : NodeState) (mapWallet : MapWallet)
    (mapWalletPrev : UInt256 → Option CMerkleTx) (hash : UInt256) :
    Option (CMerkleTx × (UInt256 → Option CMerkleTx)) :=
  match mapWallet.lookup hash with
  | some wtx => some (wtx.toCMerkleTx, wtx.vtxPrev.foldl (fun mapWalletPrev txWalletPrev =>
      Function.update mapWalletPrev (ctx.hashTx txWalletPrev.tx) (some txWalletPrev)) mapWalletPrev)
  | none =>
    match mapWalletPrev hash with
    | some tx => some (tx, mapWalletPrev)
    | none => (ReadDiskTx ctx s hash).map fun tx => (CMerkleTx.Init tx, mapWalletPrev)

/-- The loop over the ancestors. The first argument is the number of steps that it may still take. -/
def supportLoop (ctx : Context) (s : NodeState) (mapWallet : MapWallet) :
    ℕ → List UInt256 → Supporting → Except Failure Supporting
  | _, [], st => .ok st
  | 0, _ :: _, _ => .error (.crash "AddSupportingTransactions does not return")
  | fuel + 1, hash :: vWorkQueue, st =>
    if hash ∈ st.setAlreadyDone then supportLoop ctx s mapWallet fuel vWorkQueue st
    else
      let setAlreadyDone := st.setAlreadyDone ++ [hash]
      match findSupporting ctx s mapWallet st.mapWalletPrev hash with
      | none => supportLoop ctx s mapWallet fuel vWorkQueue { st with setAlreadyDone }
      | some (tx, mapWalletPrev) => do
        let (tx, nDepth) ← tx.SetMerkleBranch ctx s none
        supportLoop ctx s mapWallet fuel
          (if nDepth < COPY_DEPTH then vWorkQueue ++ inputHashes tx.tx else vWorkQueue)
          { setAlreadyDone, mapWalletPrev, vtxPrev := st.vtxPrev ++ [tx] }

def AddSupportingTransactions (s : NodeState) (mapWallet : MapWallet) (fuel : ℕ)
    (wtx : CWalletTx) : Except Failure CWalletTx := do
  let (m, nDepth) ← wtx.toCMerkleTx.SetMerkleBranch ctx s none
  let st ← supportLoop ctx s mapWallet fuel
    (if nDepth < COPY_DEPTH then inputHashes wtx.tx else []) ⟨[], fun _ => none, []⟩
  pure { wtx with toCMerkleTx := m, vtxPrev := st.vtxPrev.reverse }

/-! ## What it is for -/

def knownTx (s : NodeState) (mapWallet : MapWallet) (hash : UInt256) :
    Option CTransaction :=
  match mapWallet.lookup hash with
  | some wtx => some wtx.tx
  | none => ReadDiskTx ctx s hash

/-- A depth at which the inputs of a transaction are still copied. -/
def shallow : Except Failure ℤ → Bool
  | .ok nDepth => decide (nDepth < COPY_DEPTH)
  | .error _ => false

/-- The inputs of a known transaction, when they are to be copied. -/
def inputsWhen (s : NodeState) (mapWallet : MapWallet) (p : UInt256 → Bool)
    (hash : UInt256) : List UInt256 :=
  match knownTx ctx s mapWallet hash with
  | some tx => if p hash then inputHashes tx else []
  | none => []

/-- The known ancestors of a transaction that are reachable through transactions with fewer than
`COPY_DEPTH` confirmations. -/
def Supports (s : NodeState) (mapWallet : MapWallet) (wtx : CWalletTx)
    (hash : UInt256) : Prop :=
  (knownTx ctx s mapWallet hash).isSome = true ∧
    Worklist.Reachable
      (inputsWhen ctx s mapWallet fun hash => shallow (confirmations ctx s hash))
      (if shallow (confirmations ctx s (ctx.hashTx wtx.tx)) then inputHashes wtx.tx else []) hash

def CMerkleTx.storedDepth (s : NodeState) (m : CMerkleTx) : Except Failure ℤ :=
  match readBlockOf ctx s (ctx.hashTx m.tx) with
  | none => .ok 0
  | some _ => depthInMainChain s m.hashBlock

/-- Whether the inputs of a transaction are copied by the block that the wallet has for it. A transaction
that is read from the disk has none. -/
def storedShallow (s : NodeState) (mapWallet : MapWallet) (hash : UInt256) : Bool :=
  match mapWallet.lookup hash with
  | some wtx => shallow (wtx.storedDepth ctx s)
  | none => true

/-- Every known input of what is to be copied is to be copied too, where the block that the wallet has for
it says so. Where a transaction with `COPY_DEPTH` confirmations has no block in the wallet, this asks
for its ancestors. -/
structure StopsInTime (s : NodeState) (mapWallet : MapWallet) (wtx : CWalletTx) :
    Prop where
  first : shallow (wtx.storedDepth ctx s) = true → ∀ hash ∈ inputHashes wtx.tx,
    (knownTx ctx s mapWallet hash).isSome = true → Supports ctx s mapWallet wtx hash
  after : ∀ hash tx, Supports ctx s mapWallet wtx hash → knownTx ctx s mapWallet hash = some tx →
    storedShallow ctx s mapWallet hash = true → ∀ input ∈ inputHashes tx,
      (knownTx ctx s mapWallet input).isSome = true → Supports ctx s mapWallet wtx input

/-- What the node and its wallet keep: transactions are found under their identifiers, those that the
wallet's transactions carry are the wallet's or have been read from the disk, and a block that the wallet
has for a transaction is not deeper than the transaction. -/
structure SourcesSound (s : NodeState) (mapWallet : MapWallet) (wtx : CWalletTx) :
    Prop where
  keyed : ∀ hash wtx', mapWallet.lookup hash = some wtx' → ctx.hashTx wtx'.tx = hash
  disk : ∀ hash tx, ReadDiskTx ctx s hash = some tx → ctx.hashTx tx = hash
  noZero : s.mapBlockIndex 0 = none
  carried : ∀ hash wtx', mapWallet.lookup hash = some wtx' → ∀ m ∈ wtx'.vtxPrev,
    mapWallet.lookup (ctx.hashTx m.tx) = none →
      ReadDiskTx ctx s (ctx.hashTx m.tx) = some m.tx ∧ shallow (m.storedDepth ctx s) = true
  honest : ∀ hash wtx', mapWallet.lookup hash = some wtx' →
    shallow (confirmations ctx s hash) = true → shallow (wtx'.storedDepth ctx s) = true
  self : shallow (confirmations ctx s (ctx.hashTx wtx.tx)) = true →
    shallow (wtx.storedDepth ctx s) = true

section

variable {ctx : Context} {s : NodeState} {mapWallet : MapWallet} {wtx : CWalletTx} {m : CMerkleTx}
  {best : CBlockIndex} {hash : UInt256}

/-- Without a block, `SetMerkleBranch` leaves a transaction as it is and returns the depth of the block
that it has been in. -/
theorem setMerkleBranch_storedDepth (hbest : s.index s.pindexBest = .ok best) :
    ∃ nDepth, m.SetMerkleBranch ctx s none = .ok (m, nDepth) ∧ m.storedDepth ctx s = .ok nDepth := by
  unfold CMerkleTx.SetMerkleBranch CMerkleTx.storedDepth
  rcases readBlockOf ctx s (ctx.hashTx m.tx) with _ | block
  · exact ⟨0, rfl, rfl⟩
  · obtain ⟨nDepth, hdepth⟩ := depthInMainChain_isOk hbest m.hashBlock
    refine ⟨nDepth, ?_, hdepth⟩
    rw [hdepth]
    rfl

theorem storedDepth_init (hzero : s.mapBlockIndex 0 = none) (tx : CTransaction) :
    shallow ((CMerkleTx.Init tx).storedDepth ctx s) = true := by
  have hdepth : depthInMainChain s 0 = .ok 0 := by
    unfold depthInMainChain
    rw [hzero]
  unfold CMerkleTx.storedDepth
  split
  · rfl
  · change shallow (depthInMainChain s 0) = true
    rw [hdepth]
    rfl

/-- The ancestors that the loop has found in transactions of the wallet are the wallet's or have been read
from the disk. -/
def CarriedSound (ctx : Context) (s : NodeState) (mapWallet : MapWallet)
    (mapWalletPrev : UInt256 → Option CMerkleTx) : Prop :=
  ∀ hash m, mapWalletPrev hash = some m → mapWallet.lookup hash = none →
    ctx.hashTx m.tx = hash ∧ ReadDiskTx ctx s hash = some m.tx ∧
      shallow (m.storedDepth ctx s) = true

theorem CarriedSound.add {mapWalletPrev : UInt256 → Option CMerkleTx} {carried : List CMerkleTx}
    (h : CarriedSound ctx s mapWallet mapWalletPrev)
    (hcarried : ∀ m ∈ carried, mapWallet.lookup (ctx.hashTx m.tx) = none →
      ReadDiskTx ctx s (ctx.hashTx m.tx) = some m.tx ∧ shallow (m.storedDepth ctx s) = true) :
    CarriedSound ctx s mapWallet (carried.foldl (fun mapWalletPrev txWalletPrev =>
      Function.update mapWalletPrev (ctx.hashTx txWalletPrev.tx) (some txWalletPrev))
      mapWalletPrev) := by
  induction carried generalizing mapWalletPrev with
  | nil => exact h
  | cons m carried ih =>
    refine ih (fun hash m' hm' hnone => ?_) fun m' hm' => hcarried m' (List.mem_cons_of_mem m hm')
    dsimp only at hm'
    rcases eq_or_ne hash (ctx.hashTx m.tx) with rfl | hne
    · rw [Function.update_self] at hm'
      cases hm'
      exact ⟨rfl, hcarried m List.mem_cons_self hnone⟩
    · rw [Function.update_of_ne hne] at hm'
      exact h hash m' hm' hnone

variable (h : SourcesSound ctx s mapWallet wtx)
include h

theorem findSupporting_spec
    {mapWalletPrev : UInt256 → Option CMerkleTx} (hsound : CarriedSound ctx s mapWallet mapWalletPrev)
    (hash : UInt256) :
    (findSupporting ctx s mapWallet mapWalletPrev hash = none ∧ knownTx ctx s mapWallet hash = none) ∨
      ∃ m mapWalletPrev', findSupporting ctx s mapWallet mapWalletPrev hash = some (m, mapWalletPrev') ∧
        CarriedSound ctx s mapWallet mapWalletPrev' ∧ knownTx ctx s mapWallet hash = some m.tx ∧
        ctx.hashTx m.tx = hash ∧ shallow (m.storedDepth ctx s) = storedShallow ctx s mapWallet hash := by
  unfold findSupporting knownTx storedShallow
  rcases hlook : mapWallet.lookup hash with _ | wtx'
  · rcases hprev : mapWalletPrev hash with _ | m
    · rcases hread : ReadDiskTx ctx s hash with _ | tx
      · exact .inl ⟨rfl, rfl⟩
      · exact .inr ⟨_, _, rfl, hsound, rfl, h.disk hash tx hread, storedDepth_init h.noZero tx⟩
    · obtain ⟨hid, hread, hshallow⟩ := hsound hash m hprev hlook
      exact .inr ⟨m, _, rfl, hsound, hread, hid, hshallow⟩
  · exact .inr ⟨_, _, rfl, hsound.add (h.carried hash wtx' hlook), rfl, h.keyed hash wtx' hlook,
      rfl⟩

/-- The loop copies what the worklist search visits, in its order. -/
theorem supportLoop_eq (hbest : s.index s.pindexBest = .ok best)
    {fuel : ℕ} {vWorkQueue visited : List UInt256} {st : Supporting}
    (hsound : CarriedSound ctx s mapWallet st.mapWalletPrev)
    (hcopied : st.vtxPrev.map (fun m => ctx.hashTx m.tx)
      = st.setAlreadyDone.filter fun hash => (knownTx ctx s mapWallet hash).isSome)
    (hvisit : Worklist.visit (inputsWhen ctx s mapWallet (storedShallow ctx s mapWallet)) fuel
      st.setAlreadyDone vWorkQueue = some visited) :
    ∃ st', supportLoop ctx s mapWallet fuel vWorkQueue st = .ok st' ∧
      st'.vtxPrev.map (fun m => ctx.hashTx m.tx)
        = visited.filter fun hash => (knownTx ctx s mapWallet hash).isSome := by
  induction fuel generalizing vWorkQueue st with
  | zero =>
    rcases vWorkQueue with _ | ⟨hash, vWorkQueue⟩
    · cases hvisit
      exact ⟨st, rfl, hcopied⟩
    · simp [Worklist.visit] at hvisit
  | succ fuel ih =>
    rcases vWorkQueue with _ | ⟨hash, vWorkQueue⟩
    · cases hvisit
      exact ⟨st, rfl, hcopied⟩
    unfold Worklist.visit at hvisit
    unfold supportLoop
    by_cases hdone : hash ∈ st.setAlreadyDone
    · rw [if_pos hdone] at hvisit ⊢
      exact ih hsound hcopied hvisit
    rw [if_neg hdone] at hvisit ⊢
    rcases findSupporting_spec h hsound hash with
      ⟨hfind, hunknown⟩ | ⟨m, mapWalletPrev, hfind, hsound', hknown, hid, hshallow⟩
    · -- An unknown transaction is left out, and has no inputs to follow.
      rw [hfind]
      refine ih hsound ?_ ?_
      · rw [hcopied, List.filter_append]
        simp [hunknown]
      · have hnone : inputsWhen ctx s mapWallet (storedShallow ctx s mapWallet) hash = [] := by
          unfold inputsWhen
          rw [hunknown]
        rwa [hnone, List.append_nil] at hvisit
    · rw [hfind]
      obtain ⟨nDepth, hset, hdepth⟩ := @setMerkleBranch_storedDepth ctx s m best hbest
      dsimp only
      rw [hset]
      refine ih hsound' ?_ ?_
      · dsimp only
        rw [List.map_append, hcopied, List.filter_append, List.map_singleton, hid]
        simp [hknown]
      · rw [hdepth] at hshallow
        have hins : inputsWhen ctx s mapWallet (storedShallow ctx s mapWallet) hash
            = if nDepth < COPY_DEPTH then inputHashes m.tx else [] := by
          unfold inputsWhen
          rw [hknown, ← hshallow]
          simp [shallow]
        rw [hins] at hvisit
        split_ifs at hvisit ⊢
        · exact hvisit
        · rwa [List.append_nil] at hvisit

theorem SourcesSound.inputsWhen_sub {input : UInt256}
    (hinput : input ∈ inputsWhen ctx s mapWallet (fun hash => shallow (confirmations ctx s hash)) hash) :
    input ∈ inputsWhen ctx s mapWallet (storedShallow ctx s mapWallet) hash := by
  unfold inputsWhen at hinput ⊢
  rcases hknown : knownTx ctx s mapWallet hash with _ | tx
  · rw [hknown] at hinput
    exact hinput
  rw [hknown] at hinput
  dsimp only at hinput ⊢
  split_ifs at hinput with hconf
  · have hstor : storedShallow ctx s mapWallet hash = true := by
      unfold storedShallow
      split
      · rename_i wtx' hlook
        exact h.honest hash wtx' hlook hconf
      · rfl
    rwa [if_pos hstor]
  · simp at hinput

theorem reachable_iff_stopsInTime : (∀ hash, (knownTx ctx s mapWallet hash).isSome = true ∧
        Worklist.Reachable (inputsWhen ctx s mapWallet (storedShallow ctx s mapWallet))
          (if shallow (wtx.storedDepth ctx s) then inputHashes wtx.tx else []) hash ↔
        Supports ctx s mapWallet wtx hash) ↔ StopsInTime ctx s mapWallet wtx := by
  have hroots : ∀ r ∈ (if shallow (confirmations ctx s (ctx.hashTx wtx.tx)) then inputHashes wtx.tx
      else []), r ∈ if shallow (wtx.storedDepth ctx s) then inputHashes wtx.tx else [] := by
    intro r hr
    split_ifs at hr with hconf
    · rwa [if_pos (h.self hconf)]
    · simp at hr
  have hleaf : ∀ a, ¬(knownTx ctx s mapWallet a).isSome = true →
      inputsWhen ctx s mapWallet (storedShallow ctx s mapWallet) a = [] := by
    intro a ha
    unfold inputsWhen
    rw [Option.not_isSome_iff_eq_none.mp ha]
  have hclosed := Worklist.reachable_iff_closed hroots (fun a b hb => h.inputsWhen_sub hb) hleaf
  constructor
  · intro hall
    obtain ⟨hfst, haft⟩ := hclosed.mp fun a ha =>
      ⟨fun hr => ((hall a).mp ⟨ha, hr⟩).2, fun hr => ((hall a).mpr ⟨ha, hr⟩).2⟩
    refine ⟨fun hshallow hash hhash hknown => ⟨hknown, hfst hash ?_ hknown⟩,
      fun hash tx hsupports htx hstor input hinput hknown =>
        ⟨hknown, haft hash hsupports.2 input ?_ hknown⟩⟩
    · rwa [if_pos hshallow]
    · unfold inputsWhen
      rw [htx]
      dsimp only
      rwa [if_pos hstor]
  · intro hstops hash
    refine and_congr_right fun hknown => hclosed.mpr ⟨fun r hr hknown => ?_, ?_⟩ hash hknown
    · split_ifs at hr with hshallow
      · exact (hstops.first hshallow r hr hknown).2
      · simp at hr
    · intro a ha b hb hknown
      unfold inputsWhen at hb
      split at hb
      · rename_i tx htx
        split_ifs at hb with hstor
        · exact (hstops.after a tx ⟨by rw [htx]; rfl, ha⟩ htx hstor b hb hknown).2
        · simp at hb
      · simp at hb

/-- `AddSupportingTransactions` returns, it copies no ancestor twice, and it copies those that are to be
copied exactly when it stops in time. -/
theorem addSupportingTransactions_spec (hbest : s.index s.pindexBest = .ok best) :
    ∃ n, ∀ fuel ≥ n, ∃ wtx', AddSupportingTransactions ctx s mapWallet fuel wtx = .ok wtx' ∧
      wtx'.toCMerkleTx = wtx.toCMerkleTx ∧
      (wtx'.vtxPrev.map fun m => ctx.hashTx m.tx).Nodup ∧
      ((∀ hash, hash ∈ wtx'.vtxPrev.map (fun m => ctx.hashTx m.tx) ↔
        Supports ctx s mapWallet wtx hash) ↔ StopsInTime ctx s mapWallet wtx) := by
  -- There are finitely many identifiers.
  have hids : Finite UInt256 :=
    Finite.of_injective BitVec.toFin fun _ _ heq => BitVec.toFin_inj.mp heq
  have hfinite : (Set.univ : Set UInt256).Finite := Set.finite_univ
  refine ⟨Worklist.turns (inputsWhen ctx s mapWallet (storedShallow ctx s mapWallet)) hfinite.toFinset []
    (if shallow (wtx.storedDepth ctx s) then inputHashes wtx.tx else []), fun fuel hfuel => ?_⟩
  obtain ⟨visited, hvisit⟩ := Option.isSome_iff_exists.mp (Worklist.visit_isSome
    (fun a ha => absurd (hfinite.mem_toFinset.mpr (Set.mem_univ a)) ha) hfuel)
  obtain ⟨hnd, hmem⟩ := Worklist.visit_eq_some Worklist.Visiting.start hvisit
  obtain ⟨nDepth, hset, hdepth⟩ := @setMerkleBranch_storedDepth ctx s wtx.toCMerkleTx best hbest
  rw [hdepth] at hvisit
  obtain ⟨st', hloop, hcopied⟩ := @supportLoop_eq ctx s mapWallet wtx best h hbest fuel
    (if nDepth < COPY_DEPTH then inputHashes wtx.tx else []) visited ⟨[], fun _ => none, []⟩
    (fun _ _ hnone => by simp at hnone) rfl (by simpa [shallow] using hvisit)
  have hhashes (hash : UInt256) : hash ∈ (st'.vtxPrev.reverse.map fun m => ctx.hashTx m.tx) ↔
      (knownTx ctx s mapWallet hash).isSome = true ∧
        Worklist.Reachable (inputsWhen ctx s mapWallet (storedShallow ctx s mapWallet))
          (if shallow (wtx.storedDepth ctx s) then inputHashes wtx.tx else []) hash := by
    rw [List.map_reverse, List.mem_reverse, hcopied, List.mem_filter, hmem, and_comm]
  refine ⟨{ wtx with vtxPrev := st'.vtxPrev.reverse }, ?_, rfl, ?_, ?_⟩
  · unfold AddSupportingTransactions
    rw [hset]
    change (supportLoop ctx s mapWallet fuel _ _ >>= _) = _
    rw [hloop]
    rfl
  · rw [List.map_reverse, List.nodup_reverse, hcopied]
    exact hnd.filter _
  · rw [← reachable_iff_stopsInTime h]
    exact forall_congr' fun hash => by rw [hhashes]

end

/-- For a transaction of the main chain, `SetMerkleBranch` sets its place and returns its confirmations
when it is called with the block, and it does the same without the block exactly when the transaction
has its place already. `AddSupportingTransactions` copies the ancestors that are reachable through
transactions with few confirmations exactly when the blocks that the wallet has for them make it stop
in time. -/
theorem locatesTransactions (ctx : Context) (s : NodeState) (best : CBlockIndex)
    (hbest : s.index s.pindexBest = .ok best) :
    (∀ (m : CMerkleTx) (block : CBlock) (pindex : CBlockIndex) (nIndex : ℕ)
      (cache : MerkleCache ctx block.vtx), Confirmed ctx s m.tx block pindex nIndex →
      ∃ vMerkleBranch nDepth,
        (GetMerkleBranch ctx block cache.vMerkleTree nIndex).1 = some vMerkleBranch ∧
        confirmations ctx s (ctx.hashTx m.tx) = .ok nDepth ∧
        m.SetMerkleBranch ctx s (some (block, cache.vMerkleTree))
          = .ok ({ m with hashBlock := ctx.GetHash block, vMerkleBranch, nIndex }, nDepth) ∧
        (m.SetMerkleBranch ctx s none
            = m.SetMerkleBranch ctx s (some (block, cache.vMerkleTree)) ↔
          m.Located ctx block nIndex vMerkleBranch)) ∧
    ∀ (mapWallet : MapWallet) (wtx : CWalletTx), SourcesSound ctx s mapWallet wtx →
      ∃ n, ∀ fuel ≥ n, ∃ wtx', AddSupportingTransactions ctx s mapWallet fuel wtx = .ok wtx' ∧
        wtx'.toCMerkleTx = wtx.toCMerkleTx ∧
        (wtx'.vtxPrev.map fun m => ctx.hashTx m.tx).Nodup ∧
        ((∀ hash, hash ∈ wtx'.vtxPrev.map (fun m => ctx.hashTx m.tx) ↔
          Supports ctx s mapWallet wtx hash) ↔ StopsInTime ctx s mapWallet wtx) := by
  refine ⟨fun m block pindex nIndex cache hm => ?_,
    fun mapWallet wtx h => addSupportingTransactions_spec h hbest⟩
  obtain ⟨vMerkleBranch, hbranch, -, hset⟩ := setMerkleBranch_some hm hbest cache
  obtain ⟨vBranch, hbranch', hiff⟩ := setMerkleBranch_none_iff hm hbest cache
  obtain rfl := Option.some.inj (hbranch.symm.trans hbranch')
  exact ⟨vMerkleBranch, _, hbranch, hm.confirmations hbest, hset, hiff⟩

/-! ## A transaction on a chain of five blocks -/

def deepIndex (id : UInt32) (block : CBlock) : CBlockIndex :=
  { plainIndex id (id.toNat - 1) (some (BitVec.ofNat 256 (id.toNat - 1))) block with
    pnext := some (BitVec.ofNat 256 (id.toNat + 1)) }

def deepNode : NodeState :=
  { emptyNode with
    mapBlockIndex := fun hash =>
      if hash = 1 then some (deepIndex 1 fundedBlock)
      else if hash = 2 then some (deepIndex 2 chainedBlock)
      else if hash = 5 then some { deepIndex 5 (coinbaseBlock 5 0) with pnext := none }
      else if hash = 3 ∨ hash = 4 then some (deepIndex (UInt32.ofNat hash.toNat) (coinbaseBlock 3 0))
      else none
    pindexBest := some 5
    nBestHeight := 4
    txdb :=
      { disk := fun key =>
          match key with
          | .tx hash =>
            if hash = 11 then
              some (CTxIndex.new (CDiskTxPos.of 1 8 (txPosition 8 fundedBlock.vtx 1)) 1)
            else if hash = 21 then
              some (CTxIndex.new (CDiskTxPos.of 2 8 (txPosition 8 chainedBlock.vtx 1)) 1)
            else if hash = 22 then
              some (CTxIndex.new (CDiskTxPos.of 2 8 (txPosition 8 chainedBlock.vtx 2)) 1)
            else none
          | _ => none
        activeBatch := none } }

def newTx (id : UInt32) : CWalletTx := ⟨CMerkleTx.Init (plainTx 23 [inputOf id 0] [payTo 0]), []⟩

def lastTx : CMerkleTx := ⟨plainTx 22 [inputOf 21 0] [payTo (40 * COIN)], 2, [22, 41], 2, false⟩

theorem lastTx_confirmed : Confirmed (chainedContext true) deepNode lastTx.tx chainedBlock
    (deepIndex 2 chainedBlock) 2 := ⟨rfl, rfl, rfl, rfl⟩

theorem readDiskTx_deepNode {hash : UInt256} {tx : CTransaction}
    (h : ReadDiskTx (chainedContext true) deepNode hash = some tx) :
    (hash = 11 ∨ hash = 21 ∨ hash = 22) ∧ (chainedContext true).hashTx tx = hash := by
  by_cases h11 : hash = 11
  · subst h11
    cases h
    exact ⟨.inl rfl, rfl⟩
  by_cases h21 : hash = 21
  · subst h21
    cases h
    exact ⟨.inr (.inl rfl), rfl⟩
  by_cases h22 : hash = 22
  · subst h22
    cases h
    exact ⟨.inr (.inr rfl), rfl⟩
  · have hnone : deepNode.txdb.ReadTxIndex hash = none := by
      unfold CTxDB.ReadTxIndex Store.read deepNode
      dsimp only
      rw [if_neg h11, if_neg h21, if_neg h22]
    unfold ReadDiskTx at h
    rw [hnone] at h
    simp at h

theorem newTx_sound (id : UInt32) : SourcesSound (chainedContext true) deepNode ∅ (newTx id) where
  keyed _ _ h := by simp at h
  disk _ _ h := (readDiskTx_deepNode h).2
  noZero := rfl
  carried _ _ h := by simp at h
  honest _ _ h := by simp at h
  self _ := storedDepth_init rfl _

theorem supports_newTx {id : UInt32} {hash : UInt256}
    (hdeep : shallow (confirmations (chainedContext true) deepNode (BitVec.ofNat 256 id.toNat)) = false)
    (h : Supports (chainedContext true) deepNode ∅ (newTx id) hash) :
    hash = BitVec.ofNat 256 id.toNat := by
  refine h.2.mem (S := {hash | hash = BitVec.ofNat 256 id.toNat}) (fun r hr => ?_) ?_
  · split_ifs at hr
    · exact List.mem_singleton.mp hr
    · simp at hr
  · rintro a rfl b hb
    unfold inputsWhen at hb
    split at hb
    · rw [if_neg (Bool.eq_false_iff.mp hdeep)] at hb
      simp at hb
    · simp at hb

/-- Without its block, `SetMerkleBranch` succeeds for a transaction that has its place; and the copying
stops at a transaction whose inputs are not known. -/
theorem locatesTransactions_located :
    lastTx.SetMerkleBranch (chainedContext true) deepNode none
      = lastTx.SetMerkleBranch (chainedContext true) deepNode (some (chainedBlock, [])) ∧
    ∃ fuel wtx', AddSupportingTransactions (chainedContext true) deepNode ∅ fuel (newTx 11) = .ok wtx' ∧
      ∀ hash, hash ∈ wtx'.vtxPrev.map (fun m => (chainedContext true).hashTx m.tx) ↔
        Supports (chainedContext true) deepNode ∅ (newTx 11) hash := by
  have hlocates := locatesTransactions (chainedContext true) deepNode _ rfl
  constructor
  · obtain ⟨vMerkleBranch, -, hbranch, -, -, hiff⟩ :=
      hlocates.1 lastTx chainedBlock _ 2 MerkleCache.empty lastTx_confirmed
    exact hiff.mpr ⟨rfl, rfl, Option.some.inj hbranch⟩
  · obtain ⟨n, hn⟩ := hlocates.2 ∅ (newTx 11) (newTx_sound 11)
    obtain ⟨wtx', hadd, -, -, hiff⟩ := hn n le_rfl
    refine ⟨n, wtx', hadd, hiff.mpr ⟨fun _ hash hhash _ => ?_, ?_⟩⟩
    · obtain rfl := List.mem_singleton.mp hhash
      exact ⟨rfl, _, List.mem_singleton_self _, Relation.ReflTransGen.refl⟩
    · intro hash tx hsupports htx _ input hinput hknown
      obtain rfl := supports_newTx rfl hsupports
      cases htx
      obtain rfl := List.mem_singleton.mp hinput
      cases hknown

/-- Without its block, `SetMerkleBranch` returns no confirmations for a transaction that has four of them
and leaves its place unset; and the copying goes on from there to the start of the chain. -/
theorem locatesTransactions_unlocated :
    Confirmed (chainedContext true) deepNode lastTx.tx chainedBlock (deepIndex 2 chainedBlock) 2 ∧
    (CMerkleTx.Init lastTx.tx).SetMerkleBranch (chainedContext true) deepNode none
      = .ok (CMerkleTx.Init lastTx.tx, 0) ∧
    (CMerkleTx.Init lastTx.tx).SetMerkleBranch (chainedContext true) deepNode (some (chainedBlock, []))
      = .ok (lastTx, 4) ∧
    SourcesSound (chainedContext true) deepNode ∅ (newTx 22) ∧
    (AddSupportingTransactions (chainedContext true) deepNode ∅ 10 (newTx 22)).map
        (fun wtx => wtx.vtxPrev.map fun m => (chainedContext true).hashTx m.tx) = .ok [11, 21, 22] ∧
    ∀ hash, Supports (chainedContext true) deepNode ∅ (newTx 22) hash → hash = 22 :=
  ⟨lastTx_confirmed, rfl, rfl, newTx_sound 22, rfl, fun _ h => supports_newTx rfl h⟩

end ZalemCoin.Wallet
