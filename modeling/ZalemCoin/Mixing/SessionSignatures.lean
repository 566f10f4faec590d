import ZalemCoin.Mixing.FinalTransaction

/-!
# The signatures of a mixing session

A masternode makes one transaction of the entries of a session, shuffles it, and collects the
signatures of the clients one by one. `AddScriptSig` first refuses a script that an input of the
entries already has. `SignatureValid` then looks for the input that is equal to the new one, script
included. There is none, and an input that is not found counts as valid.
-/

namespace ZalemCoin.Mixing.Masternode

open Chain Script
open List (flatMap_cons append_assoc map_map mem_map)

variable {Key : Type} {lib : SignatureLibrary Key}

instance (s s' : CTxIn) : Decidable (SameSpend s s') :=
  inferInstanceAs (Decidable (s.prevout = s'.prevout ∧ s.nSequence = s'.nSequence))

/-! ## The pool of a masternode -/

/-- An input of an entry, with whether it is signed. -/
structure CTxDSIn extends Mixing.CTxDSIn where
  fHasSig : Bool

/-- The inputs and outputs of a client. -/
structure CMNengineEntry where
  sev : List CTxDSIn
  vout : List CTxOut

/-- What a client asks for becomes an entry without signatures. -/
def CMNengineEntry.Add (vinIn : List Mixing.CTxDSIn) (voutIn : List CTxOut) : CMNengineEntry :=
  ⟨vinIn.map fun vin => ⟨vin, false⟩, voutIn⟩

/-- The pool, as far as the signatures need it. -/
structure CMNenginePool where
  entries : List CMNengineEntry
  finalTransaction : CTransaction
  state : UInt32

def POOL_STATUS_ACCEPTING_ENTRIES : UInt32 := 3
def POOL_STATUS_FINALIZE_TRANSACTION : UInt32 := 4
def POOL_STATUS_SIGNING : UInt32 := 5

def inputs (entries : List CMNengineEntry) : List CTxDSIn := entries.flatMap CMNengineEntry.sev

def txOfEntries (GetAdjustedTime : UInt32) (entries : List CMNengineEntry) : CTransaction :=
  ⟨1, GetAdjustedTime, (inputs entries).map fun s => s.toCTxIn, entries.flatMap CMNengineEntry.vout, 0⟩

/-- A way to shuffle a list. -/
structure Shuffle (α : Type) where
  random_shuffle : List α → List α
  perm : ∀ l, (random_shuffle l).Perm l

/-- What `Check` does until the transaction is proposed: a pool with enough entries stops accepting
more, and the transaction of the entries is shuffled. -/
def Check (fFloatingCity : Bool) (GetMaxPoolTransactions : ℕ) (GetAdjustedTime : UInt32)
    (shuffleIn : Shuffle CTxIn) (shuffleOut : Shuffle CTxOut) (pool : CMNenginePool) : CMNenginePool :=
  let pool :=
    if fFloatingCity ∧ pool.state = POOL_STATUS_ACCEPTING_ENTRIES ∧
        GetMaxPoolTransactions ≤ pool.entries.length then
      { pool with state := POOL_STATUS_FINALIZE_TRANSACTION }
    else pool
  if pool.state = POOL_STATUS_FINALIZE_TRANSACTION then
    let pool := { pool with state := POOL_STATUS_SIGNING }
    if fFloatingCity then
      let txNew := txOfEntries GetAdjustedTime pool.entries
      { pool with finalTransaction :=
          { txNew with
            vin := shuffleIn.random_shuffle txNew.vin
            vout := shuffleOut.random_shuffle txNew.vout } }
    else pool
  else pool

/-! ## Signatures -/

/-- The number and the spent script of the last input that is equal to a new one, its script
included. -/
def findEqual (sev : List CTxDSIn) (newVin : CTxIn) : Option (ℕ × CScript) :=
  sev.zipIdx.foldl (fun found (s, i) =>
    if s.toCTxIn = newVin then some (i, s.prevPubKey) else found) none

/-- Whether a signature is valid for the transaction of the entries. It is when the input is not
found. -/
def SignatureValid (lib : SignatureLibrary Key) (GetAdjustedTime : UInt32) (newSig : CScript)
    (newVin : Mixing.CTxDSIn) (entries : List CMNengineEntry) : Bool :=
  match findEqual (inputs entries) newVin.toCTxIn with
  | some (n, sigPubKey) =>
    let txNew := CTransaction.withScriptSig (txOfEntries GetAdjustedTime entries) n newSig
    CBigNum.VerifyScript lib.toScriptLibrary (SCRIPT_VERIFY_P2SH ||| SCRIPT_VERIFY_STRICTENC)
      (CheckSig lib txNew n 0) newSig sigPubKey
  | none => true

def CTxDSIn.sign (s : CTxDSIn) (vin : Mixing.CTxDSIn) : CTxDSIn :=
  { s with scriptSig := vin.scriptSig, prevPubKey := vin.prevPubKey, fHasSig := true }

/-- The loop of `AddSig`: the first input that spends the same output is signed, unless it is
already. -/
def addSig (vin : Mixing.CTxDSIn) : List CTxDSIn → Option (List CTxDSIn)
  | [] => none
  | s :: sev =>
    if s.prevout = vin.prevout ∧ s.nSequence = vin.nSequence then
      if s.fHasSig then none else some (s.sign vin :: sev)
    else (addSig vin sev).map (s :: ·)

def CMNengineEntry.AddSig (vin : Mixing.CTxDSIn) (e : CMNengineEntry) : Option CMNengineEntry :=
  (addSig vin e.sev).map fun sev => { e with sev := sev }

/-- The loop over the entries: the first one that takes the signature has it. -/
def addToEntries (newVin : Mixing.CTxDSIn) : List CMNengineEntry → Option (List CMNengineEntry)
  | [] => none
  | e :: entries =>
    match e.AddSig newVin with
    | some e => some (e :: entries)
    | none => (addToEntries newVin entries).map (e :: ·)

def putScriptSig (newVin : Mixing.CTxDSIn) (finalTransaction : CTransaction) : CTransaction :=
  { finalTransaction with
    vin := finalTransaction.vin.map fun vin =>
      if newVin.prevout = vin.prevout ∧ vin.nSequence = newVin.nSequence then
        { vin with scriptSig := newVin.scriptSig }
      else vin }

def AddScriptSig (lib : SignatureLibrary Key) (GetAdjustedTime : UInt32) (newVin : Mixing.CTxDSIn)
    (pool : CMNenginePool) : Bool × CMNenginePool :=
  if pool.entries.any fun v => v.sev.any fun s => s.scriptSig = newVin.scriptSig then (false, pool)
  else if SignatureValid lib GetAdjustedTime newVin.scriptSig newVin pool.entries = false then
    (false, pool)
  else
    let pool := { pool with finalTransaction := putScriptSig newVin pool.finalTransaction }
    match addToEntries newVin pool.entries with
    | some entries => (true, { pool with entries := entries })
    | none => (false, pool)

/-- Whether all inputs are signed. -/
def SignaturesComplete (pool : CMNenginePool) : Bool :=
  pool.entries.all fun v => v.sev.all fun s => s.fHasSig

/-! ## What a call does -/

def Known (pool : CMNenginePool) (scriptSig : CScript) : Prop :=
  ∃ s ∈ inputs pool.entries, s.scriptSig = scriptSig

/-- An entry has an input for the same output that is not signed yet, and none for it before. -/
def Open (pool : CMNenginePool) (newVin : Mixing.CTxDSIn) : Prop :=
  ∃ e ∈ pool.entries, ∃ s, e.sev.find? (fun s => SameSpend s.toCTxIn newVin.toCTxIn) = some s ∧
    s.fHasSig = false

variable {newVin : Mixing.CTxDSIn} {pool : CMNenginePool}

section

variable {entries entries' : List CMNengineEntry}

theorem any_scriptSig_iff : (pool.entries.any fun v => v.sev.any fun s =>
    s.scriptSig = newVin.scriptSig) = true ↔ Known pool newVin.scriptSig := by
  simp only [List.any_eq_true, decide_eq_true_eq, Known, inputs, List.mem_flatMap]
  constructor
  · rintro ⟨v, hv, s, hs, heq⟩
    exact ⟨s, ⟨v, hv, hs⟩, heq⟩
  · rintro ⟨s, ⟨v, hv, hs⟩, heq⟩
    exact ⟨v, hv, s, hs, heq⟩

theorem findEqual_eq_none {sev : List CTxDSIn} {newVin : CTxIn}
    (h : ∀ s ∈ sev, s.scriptSig ≠ newVin.scriptSig) : findEqual sev newVin = none := by
  have hrun : ∀ (steps : List (CTxDSIn × ℕ)), (∀ step ∈ steps, step.1.scriptSig ≠ newVin.scriptSig) →
      steps.foldl (fun found (s, i) =>
        if s.toCTxIn = newVin then some (i, s.prevPubKey) else found) none = none := by
    intro steps hsteps
    induction steps with
    | nil => rfl
    | cons step steps ih =>
      have hne : step.1.toCTxIn ≠ newVin := fun heq =>
        hsteps step List.mem_cons_self (congrArg CTxIn.scriptSig heq)
      rw [List.foldl_cons]
      dsimp only
      rw [if_neg hne]
      exact ih fun step hstep => hsteps step (List.mem_cons_of_mem _ hstep)
  apply hrun
  intro step hstep
  exact h step.1 (List.fst_mem_of_mem_zipIdx hstep)

variable (GetAdjustedTime : UInt32)

theorem signatureValid_of_new (h : ¬Known pool newVin.scriptSig) :
    SignatureValid lib GetAdjustedTime newVin.scriptSig newVin pool.entries = true := by
  have hnone : findEqual (inputs pool.entries) newVin.toCTxIn = none :=
    findEqual_eq_none fun s hs heq => h ⟨s, hs, heq⟩
  unfold SignatureValid
  rw [hnone]

theorem addScriptSig_known (h : Known pool newVin.scriptSig) :
    AddScriptSig lib GetAdjustedTime newVin pool = (false, pool) := by
  unfold AddScriptSig
  rw [if_pos (any_scriptSig_iff.mpr h)]

theorem addScriptSig_new (h : ¬Known pool newVin.scriptSig) :
    AddScriptSig lib GetAdjustedTime newVin pool
      = ((addToEntries newVin pool.entries).isSome,
          { pool with
            entries := (addToEntries newVin pool.entries).getD pool.entries
            finalTransaction := putScriptSig newVin pool.finalTransaction }) := by
  unfold AddScriptSig
  rw [if_neg (any_scriptSig_iff.not.mpr h), signatureValid_of_new GetAdjustedTime h,
    if_neg (Bool.noConfusion ·)]
  dsimp only
  cases addToEntries newVin pool.entries with
  | none => rfl
  | some entries => rfl

theorem addSig_eq_some {sev sev' : List CTxDSIn} (h : addSig newVin sev = some sev') :
    ∃ before s after, sev = before ++ s :: after ∧ SameSpend s.toCTxIn newVin.toCTxIn ∧
      s.fHasSig = false ∧ sev' = before ++ s.sign newVin :: after := by
  induction sev generalizing sev' with
  | nil => simp [addSig] at h
  | cons s sev ih =>
    unfold addSig at h
    split_ifs at h with hsame hsig
    · exact ⟨[], s, sev, rfl, hsame, Bool.eq_false_iff.mpr hsig, (Option.some.inj h).symm⟩
    · obtain ⟨sev'', hrest, rfl⟩ := Option.map_eq_some_iff.mp h
      obtain ⟨before, s', after, rfl, hspend, hopen, rfl⟩ := ih hrest
      exact ⟨s :: before, s', after, rfl, hspend, hopen, rfl⟩

theorem addSig_isSome {sev : List CTxDSIn} : (addSig newVin sev).isSome = true ↔
    ∃ s, sev.find? (fun s => SameSpend s.toCTxIn newVin.toCTxIn) = some s ∧ s.fHasSig = false := by
  induction sev with
  | nil => simp [addSig]
  | cons s sev ih =>
    unfold addSig
    by_cases hsame : SameSpend s.toCTxIn newVin.toCTxIn
    · rw [if_pos ⟨hsame.1, hsame.2⟩, List.find?_cons_of_pos (by simpa using hsame)]
      cases hsig : s.fHasSig with
      | false => simp [hsig]
      | true => simp [hsig]
    · rw [if_neg fun h => hsame ⟨h.1, h.2⟩, List.find?_cons_of_neg (by simpa using hsame),
        Option.isSome_map, ih]

theorem inputs_addToEntries (h : addToEntries newVin entries = some entries') :
    ∃ before s after, inputs entries = before ++ s :: after ∧ SameSpend s.toCTxIn newVin.toCTxIn ∧
      s.fHasSig = false ∧ inputs entries' = before ++ s.sign newVin :: after := by
  induction entries generalizing entries' with
  | nil => simp [addToEntries] at h
  | cons e entries ih =>
    unfold addToEntries at h
    rcases hadd : e.AddSig newVin with _ | e'
    · rw [hadd] at h
      obtain ⟨rest, hrest, rfl⟩ := Option.map_eq_some_iff.mp h
      obtain ⟨before, s, after, hents, hspend, hopen, hrest'⟩ := ih hrest
      refine ⟨e.sev ++ before, s, after, ?_, hspend, hopen, ?_⟩
      · rw [inputs, flatMap_cons, ← inputs, hents, append_assoc]
      · rw [inputs, flatMap_cons, ← inputs, hrest', append_assoc]
    · rw [hadd] at h
      cases h
      obtain ⟨sev', hsev, rfl⟩ := Option.map_eq_some_iff.mp hadd
      obtain ⟨before, s, after, hsplit, hspend, hopen, rfl⟩ := addSig_eq_some hsev
      refine ⟨before, s, after ++ inputs entries, ?_, hspend, hopen, ?_⟩
      · rw [inputs, flatMap_cons, ← inputs, hsplit, append_assoc, List.cons_append]
      · rw [inputs, flatMap_cons, ← inputs, append_assoc, List.cons_append]

theorem addToEntries_isSome : (addToEntries newVin pool.entries).isSome = true ↔ Open pool newVin := by
  unfold Open
  induction pool.entries with
  | nil => simp [addToEntries]
  | cons e entries ih =>
    have hadd : (e.AddSig newVin).isSome = true ↔
        ∃ s, e.sev.find? (fun s => SameSpend s.toCTxIn newVin.toCTxIn) = some s ∧
          s.fHasSig = false := by
      rw [CMNengineEntry.AddSig, Option.isSome_map]
      exact addSig_isSome
    rw [List.exists_mem_cons_iff, ← hadd, addToEntries]
    rcases e.AddSig newVin with _ | e'
    · simpa using ih
    · simp

theorem addScriptSig_iff (lib : SignatureLibrary Key) (GetAdjustedTime : UInt32)
    (newVin : Mixing.CTxDSIn) (pool : CMNenginePool) :
    (AddScriptSig lib GetAdjustedTime newVin pool).1 = true ↔
      ¬Known pool newVin.scriptSig ∧ Open pool newVin := by
  by_cases hknown : Known pool newVin.scriptSig
  · rw [addScriptSig_known GetAdjustedTime hknown]
    exact ⟨nofun, fun h => absurd hknown h.1⟩
  · rw [addScriptSig_new GetAdjustedTime hknown, addToEntries_isSome]
    exact ⟨fun h => ⟨hknown, h⟩, fun h => h.2⟩

end

/-! ## Sessions -/

/-- A session: what its clients have added, and how the transaction is made of it. -/
structure Session where
  added : List (List Mixing.CTxDSIn × List CTxOut)
  finalTransaction : CTransaction
  GetMaxPoolTransactions : ℕ
  GetAdjustedTime : UInt32
  shuffleIn : Shuffle CTxIn
  shuffleOut : Shuffle CTxOut

/-- The pool with the transaction that `Check` proposes. -/
def Session.start (S : Session) : CMNenginePool :=
  Check true S.GetMaxPoolTransactions S.GetAdjustedTime S.shuffleIn S.shuffleOut
    ⟨S.added.map fun e => CMNengineEntry.Add e.1 e.2, S.finalTransaction,
      POOL_STATUS_FINALIZE_TRANSACTION⟩

def run (lib : SignatureLibrary Key) (calls : List (UInt32 × Mixing.CTxDSIn)) (pool : CMNenginePool) :
    CMNenginePool :=
  calls.foldl (fun pool call => (AddScriptSig lib call.1 call.2 pool).2) pool

def spend (s : CTxIn) : COutPoint × UInt32 := (s.prevout, s.nSequence)

def Session.spends (S : Session) : List (COutPoint × UInt32) :=
  (S.added.flatMap Prod.fst).map fun s => spend s.toCTxIn

theorem spend_eq_iff {s s' : CTxIn} : spend s = spend s' ↔ SameSpend s s' := Prod.mk_inj

theorem Session.inputs_start (S : Session) :
    inputs S.start.entries = (S.added.flatMap Prod.fst).map fun vin => ⟨vin, false⟩ := by
  have hents : S.start.entries = S.added.map fun e => CMNengineEntry.Add e.1 e.2 := rfl
  rw [hents, inputs, List.flatMap_map, List.map_flatMap]
  rfl

/-- The entries and the transaction spend what the session spends. -/
structure Tracks (S : Session) (pool : CMNenginePool) : Prop where
  entries : (inputs pool.entries).map (fun s => spend s.toCTxIn) = S.spends
  final : (pool.finalTransaction.vin.map spend).Perm S.spends

theorem Session.tracks_start (S : Session) : Tracks S S.start := by
  have hents : (inputs S.start.entries).map (fun s => spend s.toCTxIn) = S.spends := by
    rw [S.inputs_start, map_map]
    rfl
  constructor
  · exact hents
  · have hvin : (S.start.finalTransaction.vin).Perm
        ((inputs S.start.entries).map fun s => s.toCTxIn) :=
      S.shuffleIn.perm _
    have hmap := hvin.map spend
    rw [map_map] at hmap
    exact hents ▸ hmap

theorem map_spend_putScriptSig (newVin : Mixing.CTxDSIn) (tx : CTransaction) :
    (putScriptSig newVin tx).vin.map spend = tx.vin.map spend := by
  rw [putScriptSig, map_map]
  apply List.map_congr_left
  intro vin _
  rw [Function.comp_apply]
  split_ifs
  · rfl
  · rfl

theorem map_spend_addToEntries {entries entries' : List CMNengineEntry}
    (h : addToEntries newVin entries = some entries') :
    (inputs entries').map (fun s => spend s.toCTxIn)
      = (inputs entries).map (fun s => spend s.toCTxIn) := by
  obtain ⟨before, s, after, hents, -, -, hents'⟩ := inputs_addToEntries h
  have hsign : spend (s.sign newVin).toCTxIn = spend s.toCTxIn := rfl
  rw [hents, hents', List.map_append, List.map_append, List.map_cons, List.map_cons, hsign]

theorem Tracks.call {S : Session} (h : Tracks S pool) (call : UInt32 × Mixing.CTxDSIn) :
    Tracks S (AddScriptSig lib call.1 call.2 pool).2 := by
  by_cases hknown : Known pool call.2.scriptSig
  · rw [addScriptSig_known call.1 hknown]
    exact h
  · rw [addScriptSig_new call.1 hknown]
    constructor
    · dsimp only
      rcases hadd : addToEntries call.2 pool.entries with _ | entries
      · exact h.entries
      · exact (map_spend_addToEntries hadd).trans h.entries
    · dsimp only
      rw [map_spend_putScriptSig]
      exact h.final

theorem Session.tracks_run (lib : SignatureLibrary Key) (S : Session)
    (calls : List (UInt32 × Mixing.CTxDSIn)) :
    Tracks S (run lib calls S.start) := by
  induction calls using List.reverseRecOn with
  | nil => exact S.tracks_start
  | append_singleton calls call ih =>
    rw [run, List.foldl_concat]
    exact ih.call call

/-! ## Scripts that satisfy what they spend -/

def Satisfies (lib : SignatureLibrary Key) (flags : UInt32) (spent : COutPoint → Option CScript)
    (tx : CTransaction) (i : ℕ) (txin : CTxIn) : Prop :=
  ∃ scriptPubKey, spent txin.prevout = some scriptPubKey ∧
    CBigNum.VerifyScript lib.toScriptLibrary flags (CheckSig lib tx i 0) txin.scriptSig
      scriptPubKey = true

def Carries (lib : SignatureLibrary Key) (flags : UInt32) (spent : COutPoint → Option CScript)
    (tx : CTransaction) : Prop :=
  ∀ i txin, tx.vin[i]? = some txin → Satisfies lib flags spent tx i txin

def Genuine (lib : SignatureLibrary Key) (flags : UInt32) (spent : COutPoint → Option CScript)
    (pool : CMNenginePool) (newVin : Mixing.CTxDSIn) : Prop :=
  ∀ i txin, pool.finalTransaction.vin[i]? = some txin → SameSpend txin newVin.toCTxIn →
    Satisfies lib flags spent pool.finalTransaction i newVin.toCTxIn

/-- The new input is one of the session, and the transaction carries its script, which satisfies the
output there. -/
def Sound (lib : SignatureLibrary Key) (flags : UInt32) (spent : COutPoint → Option CScript)
    (pool : CMNenginePool) (newVin : Mixing.CTxDSIn) : Prop :=
  (∃ s ∈ inputs pool.entries, SameSpend s.toCTxIn newVin.toCTxIn) ∧
    ∀ i txin, pool.finalTransaction.vin[i]? = some txin → SameSpend txin newVin.toCTxIn →
      txin.scriptSig = newVin.scriptSig ∧ Satisfies lib flags spent pool.finalTransaction i txin

section

variable {flags : UInt32} {spent : COutPoint → Option CScript} {tx tx' : CTransaction} {i : ℕ}
  {txin : CTxIn}

theorem satisfies_congr (h : CTransaction.unsigned tx = CTransaction.unsigned tx') (i : ℕ)
    (txin : CTxIn) : Satisfies lib flags spent tx i txin ↔ Satisfies lib flags spent tx' i txin := by
  have hchk : CheckSig lib tx i 0 = CheckSig lib tx' i 0 := by
    funext vchSig vchPubKey scriptCode
    unfold CheckSig
    simp only [signatureHash_congr h]
  unfold Satisfies
  rw [hchk]

theorem unsigned_putScriptSig (newVin : Mixing.CTxDSIn) (tx : CTransaction) :
    CTransaction.unsigned (putScriptSig newVin tx) = CTransaction.unsigned tx := by
  unfold CTransaction.unsigned putScriptSig
  rw [map_map]
  congr 1
  apply List.map_congr_left
  intro vin _
  rw [Function.comp_apply]
  split_ifs
  · rfl
  · rfl

theorem putScriptSig_getElem? : (putScriptSig newVin tx).vin[i]? = some txin ↔
    ∃ vin, tx.vin[i]? = some vin ∧
      ((SameSpend vin newVin.toCTxIn ∧ txin = newVin.toCTxIn) ∨
        (¬SameSpend vin newVin.toCTxIn ∧ txin = vin)) := by
  rw [putScriptSig, List.getElem?_map, Option.map_eq_some_iff]
  apply exists_congr
  intro vin
  apply and_congr_right
  split_ifs with hsame
  · -- with its script the input is the new one
    have hspend : SameSpend vin newVin.toCTxIn := ⟨hsame.1.symm, hsame.2⟩
    have hnew : ({ vin with scriptSig := newVin.scriptSig } : CTxIn) = newVin.toCTxIn := by
      rw [CTxIn.mk.injEq]
      exact ⟨hspend.1, rfl, hspend.2⟩
    simp [hspend, hnew, eq_comm]
  · have hspend : ¬SameSpend vin newVin.toCTxIn := fun h => hsame ⟨h.1.symm, h.2⟩
    simp [hspend, eq_comm]

theorem sound_iff (GetAdjustedTime : UInt32)
    (h : ¬Known pool newVin.scriptSig ∧ Open pool newVin) :
    Sound lib flags spent (AddScriptSig lib GetAdjustedTime newVin pool).2 newVin ↔
      Genuine lib flags spent pool newVin := by
  obtain ⟨hknown, hopen⟩ := h
  obtain ⟨entries, hadd⟩ := Option.isSome_iff_exists.mp (addToEntries_isSome.mpr hopen)
  obtain ⟨before, s, after, -, hspend, -, hents⟩ := inputs_addToEntries hadd
  have hinput : ∃ s ∈ inputs entries, SameSpend s.toCTxIn newVin.toCTxIn :=
    ⟨s.sign newVin, hents ▸ List.mem_append_right _ List.mem_cons_self, hspend⟩
  rw [addScriptSig_new GetAdjustedTime hknown, hadd]
  unfold Sound Genuine
  simp only [Option.getD_some, hinput, true_and,
    satisfies_congr (unsigned_putScriptSig newVin pool.finalTransaction), putScriptSig_getElem?]
  constructor
  · intro hall i vin hvin hsame
    exact (hall i newVin.toCTxIn ⟨vin, hvin, .inl ⟨hsame, rfl⟩⟩ ⟨rfl, rfl⟩).2
  · rintro hall i txin ⟨vin, hvin, ⟨hsame, rfl⟩ | ⟨hother, rfl⟩⟩ hspend
    · exact ⟨rfl, hall i vin hvin hsame⟩
    · exact absurd hspend hother

def Covered (lib : SignatureLibrary Key) (flags : UInt32) (spent : COutPoint → Option CScript)
    (pool : CMNenginePool) : Prop :=
  ∀ s ∈ inputs pool.entries, s.fHasSig = true → ∀ i txin, pool.finalTransaction.vin[i]? = some txin →
    SameSpend txin s.toCTxIn → Satisfies lib flags spent pool.finalTransaction i txin

theorem Covered.call (h : Covered lib flags spent pool) (GetAdjustedTime : UInt32)
    (hcall : Known pool newVin.scriptSig ∨ Genuine lib flags spent pool newVin) :
    Covered lib flags spent (AddScriptSig lib GetAdjustedTime newVin pool).2 := by
  by_cases hknown : Known pool newVin.scriptSig
  · rw [addScriptSig_known GetAdjustedTime hknown]
    exact h
  have hgenuine := hcall.resolve_left hknown
  rw [addScriptSig_new GetAdjustedTime hknown]
  intro s hs hsig i txin htxin hspend
  rw [satisfies_congr (unsigned_putScriptSig newVin pool.finalTransaction)]
  obtain ⟨vin, hvin, ⟨hsame, rfl⟩ | ⟨hother, rfl⟩⟩ := putScriptSig_getElem?.mp htxin
  · exact hgenuine i vin hvin hsame
  · rcases hadd : addToEntries newVin pool.entries with _ | entries
    · rw [hadd] at hs
      exact h s hs hsig i txin hvin hspend
    · rw [hadd] at hs
      obtain ⟨before, s', after, hents, hspend', -, hents'⟩ := inputs_addToEntries hadd
      rw [Option.getD_some, hents', List.mem_append, List.mem_cons] at hs
      have hold : s ∈ before ∨ s ∈ after → s ∈ inputs pool.entries := by
        rw [hents, List.mem_append, List.mem_cons]
        tauto
      rcases hs with hs | rfl | hs
      · exact h s (hold (.inl hs)) hsig i txin hvin hspend
      · -- the input that is marked by this call has the new script
        exact absurd ⟨hspend.1.trans hspend'.1, hspend.2.trans hspend'.2⟩ hother
      · exact h s (hold (.inr hs)) hsig i txin hvin hspend

theorem covered_run (S : Session) (calls : List (UInt32 × Mixing.CTxDSIn))
    (hcalls : ∀ earlier call later, calls = earlier ++ call :: later →
      Known (run lib earlier S.start) call.2.scriptSig ∨
        Genuine lib flags spent (run lib earlier S.start) call.2) :
    Covered lib flags spent (run lib calls S.start) := by
  induction calls using List.reverseRecOn with
  | nil =>
    intro s hs hsig
    -- nothing is marked before the first call
    rw [run, List.foldl_nil, S.inputs_start, mem_map] at hs
    obtain ⟨vin, -, rfl⟩ := hs
    cases hsig
  | append_singleton calls call ih =>
    have hrest := ih fun earlier call' later heq =>
      hcalls earlier call' (later ++ [call]) (by rw [heq, append_assoc, List.cons_append])
    rw [run, List.foldl_concat]
    exact hrest.call call.1 (hcalls calls call [] rfl)

theorem signaturesComplete_iff : SignaturesComplete pool = true ↔
    ∀ s ∈ inputs pool.entries, s.fHasSig = true := by
  simp only [SignaturesComplete, List.all_eq_true, inputs, List.mem_flatMap]
  constructor
  · rintro h s ⟨v, hv, hs⟩
    exact h v hv s hs
  · intro h v hv s hs
    exact h s ⟨v, hv, hs⟩

theorem Covered.carries {S : Session} (h : Covered lib flags spent pool) (htracks : Tracks S pool)
    (hcomp : SignaturesComplete pool = true) :
    Carries lib flags spent pool.finalTransaction := by
  intro i txin htxin
  have hmem : spend txin ∈ S.spends :=
    htracks.final.mem_iff.mp (List.mem_map_of_mem (List.mem_of_getElem? htxin))
  rw [← htracks.entries, mem_map] at hmem
  obtain ⟨s, hs, hspend⟩ := hmem
  exact h s hs (signaturesComplete_iff.mp hcomp s hs) i txin htxin (spend_eq_iff.mp hspend.symm)

end

/-! ## Honest clients -/

def HonestSignature (lib : SignatureLibrary Key) (S : Session) (newVin : Mixing.CTxDSIn) : Prop :=
  ∃ (GetTimeMillis : ℤ) (keystore : CKeyStore lib) (setLockedCoins : Finset COutPoint)
    (client : Mixing.CMNenginePool) (sigs : List CTxIn),
    (∀ own ∈ ownInputs client.entries, own.2 ∈ S.added.flatMap Prod.fst) ∧
      (SignFinalTransaction false GetTimeMillis keystore setLockedCoins client
        S.start.finalTransaction true).dss = some sigs ∧
      newVin.toCTxIn ∈ sigs

/-- Nobody else has used the script, and nobody has sent a script for the same output. -/
def Undisturbed (S : Session) (earlier : List (UInt32 × Mixing.CTxDSIn)) (newVin : Mixing.CTxDSIn) :
    Prop :=
  (∀ vin ∈ S.added.flatMap Prod.fst, vin.scriptSig ≠ newVin.scriptSig) ∧
    ∀ call ∈ earlier, call.2.scriptSig ≠ newVin.scriptSig ∧
      ¬SameSpend call.2.toCTxIn newVin.toCTxIn

section

variable {keystore : CKeyStore lib} {S : Session} {calls : List (UInt32 × Mixing.CTxDSIn)}

theorem sigs_spend {own : List (Mixing.CMNengineEntry × Mixing.CTxDSIn)} {r r' : Signing}
    (h : own.foldlM (fun r own => signInput keystore own.1 r own.2) r = some r') :
    ∀ sig ∈ r'.sigs, sig ∈ r.sigs ∨ ∃ step ∈ own, SameSpend step.2.toCTxIn sig := by
  induction own generalizing r with
  | nil =>
    cases h
    exact fun sig hsig => .inl hsig
  | cons step own ih =>
    intro sig hsig
    rw [List.foldlM_cons] at h
    rcases hmine : findMine r.finalTransaction.vin step.2.toCTxIn with _ | mine
    · rw [signInput_none hmine] at h
      obtain hold | ⟨step', hmem, hspend⟩ := ih h sig hsig
      · exact .inl hold
      · exact .inr ⟨step', List.mem_cons_of_mem _ hmem, hspend⟩
    · rcases hcor : entryCorrect r.finalTransaction step.1 with _ | _
      · rw [signInput_refused hmine hcor] at h
        exact absurd h (by simp)
      · rw [signInput_signed hmine hcor] at h
        obtain hold | ⟨step', hmem, hspend⟩ := ih h sig hsig
        · rw [signed] at hold
          rcases List.mem_append.mp hold with hold | hnew
          · exact .inl hold
          · -- the input that is sent is the own one, with another script
            right
            refine ⟨step, List.mem_cons_self, ?_⟩
            obtain ⟨scriptSig, hscr⟩ := signSignature_script keystore step.2.prevPubKey
              r.finalTransaction mine (SIGHASH_ALL ||| SIGHASH_ANYONECANPAY).toUInt32
            rw [hscr, CTransaction.withScriptSig, List.getElem?_modify_eq, findMine_some hmine] at hnew
            obtain rfl := List.mem_singleton.mp hnew
            exact ⟨rfl, rfl⟩
        · exact .inr ⟨step', List.mem_cons_of_mem _ hmem, hspend⟩

theorem HonestSignature.mem_spends (h : HonestSignature lib S newVin) :
    spend newVin.toCTxIn ∈ S.spends := by
  obtain ⟨GetTimeMillis, keystore, setLockedCoins, client, sigs, hown, hdss, hsig⟩ := h
  unfold SignFinalTransaction at hdss
  rw [if_neg Bool.false_ne_true] at hdss
  dsimp only at hdss
  rcases hents : signEntries keystore client.entries S.start.finalTransaction with _ | r
  · rw [hents] at hdss
    exact absurd hdss (by simp)
  · rw [hents] at hdss
    dsimp only at hdss
    split_ifs at hdss
    cases hdss
    rw [signEntries_eq] at hents
    obtain hnil | ⟨step, hstep, hspend⟩ := sigs_spend hents _ hsig
    · exact absurd hnil List.not_mem_nil
    · exact List.mem_map.mpr ⟨step.2, hown step hstep, spend_eq_iff.mpr hspend⟩

theorem Session.inputs_run (lib : SignatureLibrary Key) (S : Session)
    (calls : List (UInt32 × Mixing.CTxDSIn)) :
    ∀ s ∈ inputs (run lib calls S.start).entries,
      (s.fHasSig = false ∧ s.toCTxDSIn ∈ S.added.flatMap Prod.fst) ∨
        ∃ call ∈ calls, SameSpend s.toCTxIn call.2.toCTxIn ∧ s.scriptSig = call.2.scriptSig := by
  induction calls using List.reverseRecOn with
  | nil =>
    intro s hs
    rw [run, List.foldl_nil, S.inputs_start, mem_map] at hs
    obtain ⟨vin, hvin, rfl⟩ := hs
    exact .inl ⟨rfl, hvin⟩
  | append_singleton calls call ih =>
    have hearlier : ∀ s ∈ inputs (run lib calls S.start).entries,
        (s.fHasSig = false ∧ s.toCTxDSIn ∈ S.added.flatMap Prod.fst) ∨ ∃ call' ∈ calls ++ [call],
          SameSpend s.toCTxIn call'.2.toCTxIn ∧ s.scriptSig = call'.2.scriptSig := by
      intro s hs
      obtain hadded | ⟨call', hcall', hscr⟩ := ih s hs
      · exact .inl hadded
      · exact .inr ⟨call', List.mem_append_left _ hcall', hscr⟩
    intro s hs
    rw [run, List.foldl_concat, ← run] at hs
    by_cases hknown : Known (run lib calls S.start) call.2.scriptSig
    · rw [addScriptSig_known call.1 hknown] at hs
      exact hearlier s hs
    · rw [addScriptSig_new call.1 hknown] at hs
      rcases hadd : addToEntries call.2 (run lib calls S.start).entries with _ | entries
      · rw [hadd] at hs
        exact hearlier s hs
      · obtain ⟨before, s', after, hents, hspend, -, hents'⟩ := inputs_addToEntries hadd
        rw [hadd, Option.getD_some, hents', List.mem_append, List.mem_cons] at hs
        rw [hents] at hearlier
        rcases hs with hs | rfl | hs
        · exact hearlier s (List.mem_append_left _ hs)
        · exact .inr ⟨call, List.mem_append_right _ (List.mem_singleton_self call), hspend, rfl⟩
        · exact hearlier s (List.mem_append_right _ (List.mem_cons_of_mem _ hs))

/-- A script that nobody else uses, for an output of the session that nobody has signed for, is new and
finds an entry. -/
theorem Undisturbed.open (h : Undisturbed S calls newVin) (hspend : spend newVin.toCTxIn ∈ S.spends) :
    ¬Known (run lib calls S.start) newVin.scriptSig ∧ Open (run lib calls S.start) newVin := by
  have hins := S.inputs_run lib calls
  constructor
  · rintro ⟨s, hs, hscr⟩
    obtain ⟨-, hadded⟩ | ⟨call, hcall, -, hsame⟩ := hins s hs
    · exact h.1 s.toCTxDSIn hadded hscr
    · exact (h.2 call hcall).1 (hsame.symm.trans hscr)
  · rw [← (S.tracks_run lib calls).entries, mem_map] at hspend
    obtain ⟨s, hs, hspend⟩ := hspend
    obtain ⟨e, he, hse⟩ := List.mem_flatMap.mp hs
    have hfind : (e.sev.find? fun s => SameSpend s.toCTxIn newVin.toCTxIn).isSome = true :=
      List.find?_isSome.mpr ⟨s, hse, decide_eq_true (spend_eq_iff.mp hspend)⟩
    obtain ⟨s', hfst⟩ := Option.isSome_iff_exists.mp hfind
    refine ⟨e, he, s', hfst, ?_⟩
    have hsame : SameSpend s'.toCTxIn newVin.toCTxIn := by simpa using List.find?_some hfst
    have hmem : s' ∈ inputs (run lib calls S.start).entries :=
      List.mem_flatMap.mpr ⟨e, he, List.mem_of_find?_eq_some hfst⟩
    obtain ⟨hopen, -⟩ | ⟨call, hcall, hother, -⟩ := hins s' hmem
    · exact hopen
    · -- a call for this output would have been a disturbance
      exact absurd ⟨hother.1.symm.trans hsame.1, hother.2.symm.trans hsame.2⟩ (h.2 call hcall).2

end

/-- After every run a call accepts only scripts that satisfy what they spend exactly when the script is
known, no entry takes it, or it is such a script. The signature of an honest client is accepted exactly
when its script is not known and an entry takes it, so in particular when nobody else has used either.
When the scripts of a run are known or satisfy what they spend, the transaction has such scripts once
all inputs are marked. -/
theorem session_signatures (lib : SignatureLibrary Key) (flags : UInt32)
    (spent : COutPoint → Option CScript) (S : Session) (calls : List (UInt32 × Mixing.CTxDSIn)) :
    let pool := run lib calls S.start
    (∀ GetAdjustedTime newVin,
      ((AddScriptSig lib GetAdjustedTime newVin pool).1 = true →
          Sound lib flags spent (AddScriptSig lib GetAdjustedTime newVin pool).2 newVin) ↔
        Known pool newVin.scriptSig ∨ ¬Open pool newVin ∨ Genuine lib flags spent pool newVin) ∧
    (∀ GetAdjustedTime newVin, HonestSignature lib S newVin →
      ((AddScriptSig lib GetAdjustedTime newVin pool).1 = true ↔
        ¬Known pool newVin.scriptSig ∧ Open pool newVin) ∧
      (Undisturbed S calls newVin → (AddScriptSig lib GetAdjustedTime newVin pool).1 = true)) ∧
    ((∀ earlier call later, calls = earlier ++ call :: later →
        Known (run lib earlier S.start) call.2.scriptSig ∨
          Genuine lib flags spent (run lib earlier S.start) call.2) →
      SignaturesComplete pool = true → Carries lib flags spent pool.finalTransaction) := by
  refine ⟨?_, ?_, ?_⟩
  · intro GetAdjustedTime newVin
    rw [addScriptSig_iff]
    by_cases haccepted : ¬Known (run lib calls S.start) newVin.scriptSig ∧
        Open (run lib calls S.start) newVin
    · rw [sound_iff GetAdjustedTime haccepted]
      obtain ⟨hknown, hopen⟩ := haccepted
      simp only [hknown, hopen, not_false_eq_true, not_true_eq_false, and_self, true_imp_iff, false_or]
    · have hcase : Known (run lib calls S.start) newVin.scriptSig ∨
          ¬Open (run lib calls S.start) newVin := by
        by_contra hboth
        push Not at hboth
        exact haccepted hboth
      exact iff_of_true (fun h => absurd h haccepted) (hcase.imp_right Or.inl)
  · intro GetAdjustedTime newVin hhonest
    refine ⟨addScriptSig_iff .., fun hundisturbed => ?_⟩
    exact (addScriptSig_iff ..).mpr (hundisturbed.open hhonest.mem_spends)
  · intro hcalls hcomplete
    exact (covered_run S calls hcalls).carries (S.tracks_run lib calls) hcomplete

def plainInput : Mixing.CTxDSIn := ⟨⟨⟨1, 0⟩, [], 0xffffffff⟩, plainScript⟩

def plainSession : Session where
  added := [([plainInput], [⟨10, plainScript⟩])]
  finalTransaction := ⟨1, 0, [], [], 0⟩
  GetMaxPoolTransactions := 1
  GetAdjustedTime := 0
  shuffleIn := ⟨id, List.Perm.refl⟩
  shuffleOut := ⟨id, List.Perm.refl⟩

def plainEntry : Mixing.CMNengineEntry := ⟨[plainInput], [⟨10, plainScript⟩]⟩

def plainClient : Mixing.CMNenginePool :=
  ⟨[plainEntry], ⟨1, 0, [], [], 0⟩, 0, POOL_STATUS_IDLE, 1, 0, 0, [], 0, 0, true, []⟩

def unsignedInput : Mixing.CTxDSIn := ⟨⟨⟨1, 0⟩, [OP_0], 0xffffffff⟩, []⟩

def ownersInput : Mixing.CTxDSIn :=
  { plainInput with
    toCTxIn := ((SignSignature plainStore plainScript plainSession.start.finalTransaction 0
      (SIGHASH_ALL ||| SIGHASH_ANYONECANPAY).toUInt32).2.vin.headD plainInput.toCTxIn) }

theorem ownersInput_honest : HonestSignature plainScheme plainSession ownersInput := by
  have hmatched : matched plainSession.start.finalTransaction.vout plainEntry.vout
      = [⟨10, plainScript⟩] := by
    have hvout : plainSession.start.finalTransaction.vout = [⟨10, plainScript⟩] := rfl
    simp [matched, hvout, plainEntry]
  have hcor : entryCorrect plainSession.start.finalTransaction plainEntry = true := by
    rw [entryCorrect_iff, OutputsMatch, hmatched]
    exact ⟨by decide, rfl⟩
  have hsign : signInput plainStore plainEntry ⟨plainSession.start.finalTransaction, [], []⟩ plainInput
      = some (signed plainStore ⟨plainSession.start.finalTransaction, [], []⟩ plainInput 0) :=
    signInput_signed (by decide) hcor
  have hents : signEntries plainStore plainClient.entries plainSession.start.finalTransaction
      = some (signed plainStore ⟨plainSession.start.finalTransaction, [], []⟩ plainInput 0) := by
    rw [signEntries_eq]
    exact congrArg (fun r => r >>= some) hsign
  refine ⟨0, plainStore, ∅, plainClient, [ownersInput.toCTxIn], ?_, ?_, List.mem_singleton_self _⟩
  · intro own hown
    have hplain : own = (plainEntry, plainInput) := List.mem_singleton.mp hown
    rw [hplain]
    exact List.mem_singleton_self _
  · unfold SignFinalTransaction
    dsimp only
    rw [hents]
    rfl

/-- A script that is no signature is accepted, the transaction counts as complete with it, and the
owner, whose signature is honest, is refused. -/
theorem unsigned_accepted :
    let spent : COutPoint → Option CScript := fun _ => some plainScript
    let flags := SCRIPT_VERIFY_P2SH ||| SCRIPT_VERIFY_STRICTENC
    let call := AddScriptSig plainScheme 0 unsignedInput plainSession.start
    call.1 = true ∧ ¬Sound plainScheme flags spent call.2 unsignedInput ∧
      SignaturesComplete call.2 = true ∧ ¬Carries plainScheme flags spent call.2.finalTransaction ∧
      HonestSignature plainScheme plainSession ownersInput ∧
      (AddScriptSig plainScheme 0 ownersInput call.2).1 = false := by
  have hin : (AddScriptSig plainScheme 0 unsignedInput plainSession.start).2.finalTransaction.vin[0]?
      = some unsignedInput.toCTxIn := by decide
  have hfails : ¬Satisfies plainScheme (SCRIPT_VERIFY_P2SH ||| SCRIPT_VERIFY_STRICTENC)
      (fun _ => some plainScript)
      (AddScriptSig plainScheme 0 unsignedInput plainSession.start).2.finalTransaction 0
      unsignedInput.toCTxIn := by
    rintro ⟨scriptPubKey, hspent, hverify⟩
    cases hspent
    exact absurd hverify (by decide)
  refine ⟨by decide, ?_, by decide, ?_, ownersInput_honest, by decide⟩
  · intro hsound
    exact hfails (hsound.2 0 _ hin ⟨rfl, rfl⟩).2
  · intro hcarries
    exact hfails (hcarries 0 _ hin)

end ZalemCoin.Mixing.Masternode
