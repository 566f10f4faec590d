import ZalemCoin.Floatingcity.Entries

/-!
# Masternodes have collateral

Along every run in which the announcements name the output that pays the collateral, every entry of
the list was added at a moment when its outpoint was an unspent output of the active chain that is
exactly the collateral of its key, and no two entries have the same outpoint. An announcement that
names another output of the same transaction is taken as well, when the collateral has an output next
to it that is large enough.
-/

namespace ZalemCoin.Floatingcity

open Lib Chain Script

variable (ctx : Context)

def PaysCollateral (s : NodeState) (pubkey : CPubKey) (tx : CTransaction)
    (n : UInt32) : Prop :=
  ∃ best out, s.index s.pindexBest = .ok best ∧ tx.vout[n.toNat]? = some out ∧
    out.nValue = FloatingcityCollateral best.nHeight * COIN ∧ out.scriptPubKey = payee ctx pubkey

structure HasCollateral (s : NodeState) (prevout : COutPoint) (pubkey : CPubKey) :
    Prop where
  unspent : Unspent s.txdb.txIndex prevout
  pays : ∃ txindex tx, s.txdb.txIndex prevout.hash = some txindex ∧
    readTxAt ctx txindex.pos = some tx ∧ PaysCollateral ctx s pubkey tx prevout.n
  /-- A transaction of the active chain pays it, and none spends it. -/
  active : ∀ tip above, ChainAt ctx s tip above →
    (∃ t ∈ connectedTxs ctx s (tip :: above), ctx.hashTx t.2 = prevout.hash ∧
      PaysCollateral ctx s pubkey t.2 prevout.n) ∧
      ∀ u ∈ connectedTxs ctx s (tip :: above), prevout.slot ∉ u.2.spentSlots

/-- An announcement whose transaction pays the collateral names an output that does. No block has
the hash that stands for no block. -/
def NamesCollateral (n : Node) (env : FcEnv) : Message → Prop
  | .dseep _ => True
  | .dsee m =>
    n.chain.mapBlockIndex 0 = none ∧
      (IsVinAssociatedWithPubkey ctx n.chain env.blocks m.vin m.pubkey = .ok true →
        ∃ tx hashBlock best out,
          GetTransaction ctx n.chain env.blocks m.vin.prevout.hash = some (tx, hashBlock) ∧
            n.chain.index n.chain.pindexBest = .ok best ∧
            tx.vout[m.vin.prevout.n.toNat]? = some out ∧
            isCollateral ctx best.nHeight m.pubkey out = true)

/-! ## Runs -/

/-- A step of a node: it processes a message, it removes old entries, or something happens elsewhere
in the node. -/
inductive Step (ctx : Context) (signer : CMNengineSigner)
    (allowed : Node → FcEnv → Message → Prop) : Node → Node → Prop
  | message {n n' : Node} {env : FcEnv} {message : Message} {r : Except Failure Unit}
      (hallowed : allowed n env message)
      (h : ProcessMessage ctx signer env message n = (r, n')) : Step ctx signer allowed n n'
  | checkAndRemove {n n' : Node} {env : FcEnv} {r : Except Failure Unit}
      (h : CheckAndRemove ctx env n = (r, n')) : Step ctx signer allowed n n'
  | elsewhere {n n' : Node} (h : n'.mnodeman = n.mnodeman) : Step ctx signer allowed n n'

/-- A run that starts with an empty list: its last state, and the states before, last to first. -/
inductive Run (ctx : Context) (signer : CMNengineSigner)
    (allowed : Node → FcEnv → Message → Prop) : Node → List Node → Prop
  | start {n : Node} (h : n.mnodeman.vFloatingcities = []) : Run ctx signer allowed n []
  | step {n n' : Node} {past : List Node} (hrun : Run ctx signer allowed n past)
      (h : Step ctx signer allowed n n') : Run ctx signer allowed n' (n :: past)

/-- A step of a run has added an entry, and the outpoint had the collateral when it did. -/
def AdmittedIn (states : List Node) (claim : CTxIn × CPubKey) : Prop :=
  ∃ n n', [n', n] <:+: states ∧ (∀ c ∈ n.claims, c.1.prevout ≠ claim.1.prevout) ∧
    claim ∈ n'.claims ∧ HasCollateral ctx n.chain claim.1.prevout claim.2

/-- Every entry was added when its outpoint had the collateral, and no two have the same one. -/
structure Backed (n : Node) (past : List Node) : Prop where
  admitted : ∀ mn ∈ n.mnodeman.vFloatingcities, AdmittedIn ctx (n :: past) mn.claim
  distinct : n.mnodeman.vFloatingcities.Pairwise fun mn mn' => mn.vin.prevout ≠ mn'.vin.prevout

section

variable {ctx : Context} {signer : CMNengineSigner} {env : FcEnv} {n n' : Node} {past : List Node}
  {m : Dsee}

theorem Passes.hasCollateral (h : Passes ctx env n.chain m)
    (hnames : NamesCollateral ctx n env (.dsee m)) :
    HasCollateral ctx n.chain m.vin.prevout m.pubkey := by
  obtain ⟨hzero, hnames⟩ := hnames
  obtain ⟨age, hage, hold⟩ := h.aged
  have hpos : 0 < age := by
    unfold FLOATINGCITY_MIN_CONFIRMATIONS at hold
    omega
  -- An age above zero means that the transaction is in a block of the index, so not in the pool.
  obtain ⟨tx, hashBlock, hfound, hindexed⟩ := getInputAge_pos hage hpos
  have hblock : hashBlock ≠ 0 := by
    rintro rfl
    exact hindexed hzero
  obtain ⟨hpool, txindex, hidx, hread⟩ := getTransaction_block hfound hblock
  have hunspent : Unspent n.chain.txdb.txIndex m.vin.prevout :=
    acceptableInputs_single rfl hpool h.acceptable
  obtain ⟨tx', hashBlock', best, out, hfound', hbest, hout, hcoll⟩ := hnames h.associated
  rw [hfound] at hfound'
  cases hfound'
  unfold isCollateral at hcoll
  rw [Bool.and_eq_true, beq_iff_eq, beq_iff_eq] at hcoll
  have hpays : PaysCollateral ctx n.chain m.pubkey tx m.vin.prevout.n :=
    ⟨best, out, hbest, hout, hcoll.1, hcoll.2⟩
  refine ⟨hunspent, ⟨txindex, tx, hidx, hread, hpays⟩, fun tip above hchain => ?_⟩
  obtain ⟨hmem, hhash⟩ := hchain.toConnected.mem_connectedTxs hidx hread
  constructor
  · exact ⟨(txindex.pos, tx), hmem, hhash, hpays⟩
  · exact hchain.toConnected.not_spent hunspent

/-! ## Steps and runs -/

theorem Step.cases (h : Step ctx signer (NamesCollateral ctx) n n') :
    n'.claims.Sublist n.claims ∨ ∃ claim, n'.claims = n.claims ++ [claim] ∧
      (∀ c ∈ n.claims, c.1.prevout ≠ claim.1.prevout) ∧
        HasCollateral ctx n.chain claim.1.prevout claim.2 := by
  cases h with
  | message hallow h =>
    rcases processMessage_cases h with hsame | ⟨m, rfl, hadds⟩
    · left
      rw [hsame]
    · right
      exact ⟨(m.vin, m.pubkey), hadds.claims, hadds.absent, hadds.passes.hasCollateral hallow⟩
  | checkAndRemove h => exact .inl (claims_checkAndRemove h)
  | elsewhere h =>
    left
    unfold Node.claims
    rw [h]

theorem AdmittedIn.cons {states : List Node} {claim : CTxIn × CPubKey}
    (h : AdmittedIn ctx states claim) (n : Node) : AdmittedIn ctx (n :: states) claim := by
  obtain ⟨before, after, hpart, habsent, hmem, hcoll⟩ := h
  exact ⟨before, after, hpart.trans (List.suffix_cons n states).isInfix, habsent, hmem, hcoll⟩

theorem Run.claims (h : Run ctx signer (NamesCollateral ctx) n past) :
    (∀ claim ∈ n.claims, AdmittedIn ctx (n :: past) claim) ∧
      n.claims.Pairwise fun c c' => c.1.prevout ≠ c'.1.prevout := by
  induction h with
  | start hemp =>
    unfold Node.claims
    rw [hemp]
    simp
  | @step n n' past hrun hstep ih =>
    obtain ⟨hadm, hdist⟩ := ih
    rcases hstep.cases with hsub | ⟨claim, hclaims, habsent, hcoll⟩
    · exact ⟨fun c hc => (hadm c (hsub.subset hc)).cons n', hdist.sublist hsub⟩
    · constructor
      · intro c hc
        rw [hclaims, List.mem_append, List.mem_singleton] at hc
        rcases hc with hc | rfl
        · exact (hadm c hc).cons n'
        · have hpart : [n', n] <:+: n' :: n :: past := ⟨[], past, rfl⟩
          have hmem : c ∈ n'.claims := by simp [hclaims]
          exact ⟨n, n', hpart, habsent, hmem, hcoll⟩
      · rw [hclaims, List.pairwise_append]
        refine ⟨hdist, List.pairwise_singleton _ _, fun c hc c' hc' => ?_⟩
        rw [List.mem_singleton.mp hc']
        exact habsent c hc

end

/-- Along a run whose announcements name their collateral, every entry was admitted with collateral,
and no two entries have the same outpoint. -/
theorem masternodes_backed (ctx : Context) (signer : CMNengineSigner) {n : Node} {past : List Node}
    (h : Run ctx signer (NamesCollateral ctx) n past) : Backed ctx n past := by
  obtain ⟨hadmitted, hdistinct⟩ := h.claims
  constructor
  · intro mn hmn
    exact hadmitted _ (List.mem_map_of_mem hmn)
  · unfold Node.claims at hdistinct
    rw [List.pairwise_map] at hdistinct
    exact hdistinct

/-! ## A collateral next to another output -/

def fundedKey : CPubKey := CPubKey.ofBytes (2 :: List.replicate 32 1)

/-- A transaction that pays the collateral with its first output, and something else with its second
one. -/
def fundingTx : CTransaction :=
  plainTx 11 [inputOf 5 0]
    [⟨100000 * COIN, GetScriptForDestination (.keyID 0)⟩, payTo (2000 * COIN)]

def fundingBlock : CBlock := plainBlock 1 0 0 [plainTx 10 [coinbaseInput] [payTo 0], fundingTx]

def fundingContext : Context :=
  plainContext (BlockFiles.ofBlocks (fun nFile => if nFile = 1 then some fundingBlock else none)
    (by
      intro nFile block h
      split at h
      · cases h
        decide
      · simp at h)) 1 true

def fundedNode : Node where
  chain :=
    { emptyNode with
      mapBlockIndex := Function.update (Function.update (Function.update (fun _ => none)
        1 (some (plainIndex 1 1 none fundingBlock)))
        7 (some (plainIndex 7 7 none (coinbaseBlock 7 0))))
        8 (some (plainIndex 8 8 (some 7) (coinbaseBlock 8 0)))
      pindexGenesisBlock := some 1
      pindexBest := some 8
      hashBestChain := 8
      nBestHeight := 8
      txdb := ⟨Function.update (fun _ => none) (.tx 11)
        (some (CTxIndex.new (CDiskTxPos.of 1 8 (txPosition 8 fundingBlock.vtx 1)) 2)), none⟩ }
  mnodeman := ⟨[], fun _ => none⟩
  activeFloatingcity := ⟨CTxIn.null, ⟨0, 0⟩, CPubKey.invalid⟩

def fundedEnv : FcEnv :=
  { plainEnv 2000 with
    fBlockchainSynced := true
    lockMain := fun _ => true
    shutdownRequested := false
    checkNode := fun _ => true
    blocks := [1, 7, 8]
    fFloatingCity := false
    nFloatingcityMinProtocol := MIN_POOL_PEER_PROTO_VERSION
    collateralPubKey := [OP_1] }

def anySigner : CMNengineSigner := ⟨fun _ _ _ _ _ _ _ _ _ => true, fun _ _ _ _ _ => true⟩

def fundedDsee (n : UInt32) : Dsee where
  vin := inputOf 11 n
  addr := ⟨0, 0⟩
  vchSig := []
  sigTime := 1500
  pubkey := fundedKey
  pubkey2 := fundedKey
  count := -1
  lastUpdated := 0
  protocolVersion := PROTOCOL_VERSION
  donationAddress := []
  donationPercentage := 0

def announced (n : UInt32) : Node :=
  (ProcessMessage fundingContext anySigner fundedEnv (.dsee (fundedDsee n)) fundedNode).2

theorem claims_announced :
    (announced 0).claims = [(inputOf 11 0, fundedKey)] ∧
      (announced 1).claims = [(inputOf 11 1, fundedKey)] := by
  constructor <;> decide

theorem run_announced {allowed : Node → FcEnv → Message → Prop} (n : UInt32)
    (h : allowed fundedNode fundedEnv (.dsee (fundedDsee n))) :
    Run fundingContext anySigner allowed (announced n) [fundedNode] :=
  Run.step (Run.start rfl) (Step.message h rfl)

theorem fundingTx_indexed : ∃ txindex, fundedNode.chain.txdb.txIndex 11 = some txindex ∧
    readTxAt fundingContext txindex.pos = some fundingTx :=
  ⟨CTxIndex.new (CDiskTxPos.of 1 8 (txPosition 8 fundingBlock.vtx 1)) 2, by decide, by decide⟩

/-- An announcement of the first output is one that names its collateral, and its entry is backed. -/
theorem announced_backed :
    (announced 0).claims = [(inputOf 11 0, fundedKey)] ∧
      Backed fundingContext (announced 0) [fundedNode] := by
  have hnames : NamesCollateral fundingContext fundedNode fundedEnv (.dsee (fundedDsee 0)) := by
    refine ⟨rfl, fun _ => ⟨fundingTx, 1, plainIndex 8 8 (some 7) (coinbaseBlock 8 0), _, ?_, rfl, rfl,
      ?_⟩⟩ <;> decide
  exact ⟨claims_announced.1, masternodes_backed _ anySigner (run_announced 0 hnames)⟩

/-- An announcement of the second output adds an entry that is not backed. -/
theorem announced_not_backed :
    ¬ ∀ (ctx : Context) (signer : CMNengineSigner) (n : Node) (past : List Node),
      Run ctx signer (fun _ _ _ => True) n past → Backed ctx n past := by
  intro h
  have hbacked := h fundingContext anySigner (announced 1) [fundedNode] (run_announced 1 trivial)
  obtain ⟨mn, hmn, hclaim⟩ :
      ∃ mn ∈ (announced 1).mnodeman.vFloatingcities, mn.claim = (inputOf 11 1, fundedKey) := by
    have hmem : (inputOf 11 1, fundedKey) ∈ (announced 1).claims := by
      rw [claims_announced.2]
      exact List.mem_singleton_self _
    exact List.mem_map.mp hmem
  obtain ⟨n, n', hpart, -, -, hcollateral⟩ := hbacked.admitted mn hmn
  -- The run has a single step, so the entry was added in the state with that transaction.
  have hsame : [n', n] = [announced 1, fundedNode] := hpart.eq_of_length rfl
  obtain ⟨-, rfl⟩ : n' = announced 1 ∧ n = fundedNode := by simpa using hsame
  rw [hclaim] at hcollateral
  obtain ⟨txindex, tx, hindex, hread, best, out, -, hout, hvalue, -⟩ := hcollateral.pays
  obtain ⟨txindex', hindex', hread'⟩ := fundingTx_indexed
  obtain rfl : txindex' = txindex := Option.some.inj (hindex'.symm.trans hindex)
  obtain rfl : fundingTx = tx := Option.some.inj (hread'.symm.trans hread)
  obtain rfl : payTo (2000 * COIN) = out := Option.some.inj hout
  rw [show FloatingcityCollateral best.nHeight = 100000 from rfl] at hvalue
  exact absurd hvalue (by decide)

end ZalemCoin.Floatingcity
