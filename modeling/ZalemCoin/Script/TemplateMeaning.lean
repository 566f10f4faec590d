import ZalemCoin.Script.SigOps
import ZalemCoin.Script.Spendable

/-!
# What the templates ask for

Each operation of a template succeeds on a stack of one shape only, and leaves one result. Read from the
end of a script, these shapes say what the stack below must have been for the script to end with a true
element: a signature for the key, or signatures for keys in their order, which the walk over both lists
finds whenever there are any.
-/

namespace ZalemCoin.Script

open Chain
open Option (some.inj bind_some)

variable {d : Interpreter}

/-! ## Operations that succeed -/

theorem evalOps_cons_eq_some {s t : EvalState} {op : Instruction} {ops : List Instruction} :
    evalOps d s (op :: ops) = some t ↔
      ∃ u, evalStep d op.opcode op.vch op.rest s = some u ∧ evalOps d u ops = some t := by
  rw [evalOps_cons, Option.bind_eq_some_iff]

section

variable {stack : List valtype} {nOpCount : ℕ} {script rest : CScript} {t : EvalState}

theorem evalStep_op {opcode : UInt8} (hhigh : OP_PUSHDATA4 < opcode) {vch : valtype}
    (h : evalStep d opcode vch rest ⟨stack, [], [], nOpCount, script⟩ = some t) :
    ∃ nOpCount, evalOp d true opcode rest ⟨stack, [], [], nOpCount, script⟩ = some t := by
  obtain ⟨s, hcnt, hrun⟩ := evalStep_eq_some h
  obtain ⟨nOpCount', rfl⟩ := countOp_eq_some hcnt
  unfold runOp at hrun
  rw [if_neg fun hpush => UInt8.not_le.mpr hhigh hpush.2, if_pos (.inl rfl)] at hrun
  exact ⟨nOpCount', hrun⟩

theorem evalStep_DUP (h : evalStep d OP_DUP [] rest ⟨stack, [], [], nOpCount, script⟩ = some t) :
    ∃ vch below nOpCount', stack = vch :: below ∧
      t = ⟨vch :: vch :: below, [], [], nOpCount', script⟩ := by
  obtain ⟨nOpCount', hop⟩ := evalStep_op (by decide) h
  rcases stack with _ | ⟨vch, below⟩
  · have hnone : evalOp d true OP_DUP rest ⟨[], [], [], nOpCount', script⟩ = none := rfl
    simp [hnone] at hop
  · exact ⟨vch, below, nOpCount', rfl, (some.inj hop).symm⟩

theorem evalStep_HASH160
    (h : evalStep d OP_HASH160 [] rest ⟨stack, [], [], nOpCount, script⟩ = some t) :
    ∃ vch below nOpCount', stack = vch :: below ∧
      t = ⟨d.HASH160 vch :: below, [], [], nOpCount', script⟩ := by
  obtain ⟨nOpCount', hop⟩ := evalStep_op (by decide) h
  rcases stack with _ | ⟨vch, below⟩
  · have hnone : evalOp d true OP_HASH160 rest ⟨[], [], [], nOpCount', script⟩ = none := rfl
    simp [hnone] at hop
  · exact ⟨vch, below, nOpCount', rfl, (some.inj hop).symm⟩

theorem evalStep_EQUALVERIFY {vch1 vch2 : valtype}
    (h : evalStep d OP_EQUALVERIFY [] rest ⟨vch2 :: vch1 :: stack, [], [], nOpCount, script⟩ = some t) :
    vch1 = vch2 ∧ ∃ nOpCount', t = ⟨stack, [], [], nOpCount', script⟩ := by
  obtain ⟨nOpCount', hop⟩ := evalStep_op (by decide) h
  have heq : evalOp d true OP_EQUALVERIFY rest ⟨vch2 :: vch1 :: stack, [], [], nOpCount', script⟩
      = (pushResult true (vch1 == vch2) stack).map fun stack =>
        ⟨stack, [], [], nOpCount', script⟩ := rfl
  rw [heq] at hop
  cases hsame : vch1 == vch2 with
  | false =>
    rw [hsame] at hop
    have hnone : pushResult true false stack = none := rfl
    simp [hnone] at hop
  | true =>
    rw [hsame] at hop
    exact ⟨eq_of_beq hsame, nOpCount', (some.inj hop).symm⟩

theorem evalStep_CHECKSIG
    (h : evalStep d OP_CHECKSIG [] rest ⟨stack, [], [], nOpCount, script⟩ = some t) :
    ∃ vchPubKey vchSig below nOpCount', stack = vchPubKey :: vchSig :: below ∧
      t = ⟨vchBool (d.CheckSig vchSig vchPubKey (scriptCodeOf script [vchSig])) :: below, [], [],
        nOpCount', script⟩ := by
  obtain ⟨nOpCount', hop⟩ := evalStep_op (by decide) h
  have heq : evalOp d true OP_CHECKSIG rest ⟨stack, [], [], nOpCount', script⟩
      = (CHECKSIG d OP_CHECKSIG script stack).map fun stack => ⟨stack, [], [], nOpCount', script⟩ := rfl
  rw [heq] at hop
  obtain ⟨stack', hchk, rfl⟩ := Option.map_eq_some_iff.mp hop
  rcases stack with _ | ⟨vchPubKey, _ | ⟨vchSig, below⟩⟩
  · simp [CHECKSIG] at hchk
  · simp [CHECKSIG] at hchk
  · unfold CHECKSIG at hchk
    dsimp only at hchk
    split at hchk
    · cases hchk
      exact ⟨vchPubKey, vchSig, below, nOpCount', rfl, rfl⟩
    · simp at hchk

theorem evalStep_small {opcode : UInt8} (hlow : OP_1 ≤ opcode) (hhigh : opcode ≤ OP_16)
    (h : evalStep d opcode [] rest ⟨stack, [], [], nOpCount, script⟩ = some t) :
    ∃ nOpCount', t = ⟨d.getvch (d.keep (DecodeOP_N opcode).toNat) :: stack, [], [], nOpCount',
      script⟩ := by
  obtain ⟨nOpCount', hop⟩ := evalStep_op (UInt8.lt_of_lt_of_le (by decide) hlow) h
  rw [evalOp_smallInteger d hlow hhigh] at hop
  have hone : OP_1.toNat = 81 := rfl
  have hlow' := UInt8.le_iff_toNat_le.mp hlow
  have hsub : (OP_1 - 1 : UInt8).toNat = 80 := rfl
  have hdecode : (DecodeOP_N opcode).toNat = opcode.toNat - (OP_1.toNat - 1) := by
    unfold DecodeOP_N
    rw [if_neg fun hzero => absurd (hzero ▸ hlow) (by decide),
      UInt8.toNat_sub_of_le _ _ (UInt8.le_iff_toNat_le.mpr (by omega)), hsub]
    omega
  rw [hdecode]
  exact ⟨nOpCount', (some.inj hop).symm⟩

theorem Plain.evalOps_pushed (hd : Plain d) {ops : List Instruction}
    (hops : ∀ op ∈ ops, op.opcode ≤ OP_PUSHDATA4)
    (h : evalOps d ⟨stack, [], [], nOpCount, script⟩ ops = some t) :
    t = ⟨(ops.map Instruction.vch).reverse ++ stack, [], [], nOpCount, script⟩ := by
  induction ops generalizing stack with
  | nil => exact (some.inj h).symm
  | cons op ops ih =>
    obtain ⟨u, hstep, h⟩ := evalOps_cons_eq_some.mp h
    rw [hd.evalStep_push (hops op List.mem_cons_self) _ _ rfl] at hstep
    split at hstep
    · simp at hstep
    · cases hstep
      rw [ih (fun op' hop' => hops op' (List.mem_cons_of_mem _ hop')) h]
      simp

end

/-! ## The check of several signatures -/

theorem sublist_of_checkSigs {scriptCode : CScript} {sigs keys : List valtype}
    (h : checkSigs d scriptCode sigs keys = some true) :
    List.SublistForall₂ (fun vchSig vchPubKey => d.CheckSig vchSig vchPubKey scriptCode = true)
      sigs keys := by
  induction keys generalizing sigs with
  | nil =>
    cases sigs with
    | nil => exact List.SublistForall₂.nil
    | cons vchSig sigs => simp [checkSigs] at h
  | cons vchPubKey keys ih =>
    cases sigs with
    | nil => exact List.SublistForall₂.nil
    | cons vchSig sigs =>
      unfold checkSigs at h
      dsimp only at h
      split at h
      · by_cases hsig : d.CheckSig vchSig vchPubKey scriptCode = true
        · rw [if_pos hsig] at h
          split at h
          · simp at h
          · exact (ih h).cons hsig
        · rw [if_neg hsig] at h
          split at h
          · simp at h
          · exact (ih h).cons_right
      · simp at h

theorem Plain.multisigArgs_of_some (hd : Plain d) {nOpCount m : ℕ} {keys below : List valtype}
    (hkeys : 1 ≤ keys.length ∧ keys.length ≤ 16) (hm : 1 ≤ m ∧ m ≤ 16) {args : MultisigArgs}
    (h : multisigArgs d nOpCount
      (d.getvch (d.keep keys.length) :: (keys ++ d.getvch (d.keep m) :: below)) = some args) :
    args.keys = keys ∧ args.sigs.length = m ∧ below = args.sigs ++ args.dummy :: args.rest := by
  obtain ⟨bnKeys, hbnKeys, hn⟩ := Option.map_eq_some_iff.mp (hd.count keys.length hkeys.1 hkeys.2)
  obtain ⟨bnSigs, hbnSigs, hcnt⟩ := Option.map_eq_some_iff.mp (hd.count m hm.1 hm.2)
  have hbelow : (d.getvch (d.keep keys.length) :: (keys ++ d.getvch (d.keep m) :: below)).drop
      (2 + keys.length) = below := by
    have hidx : 2 + keys.length = (keys.length + 1) + 1 := by omega
    rw [hidx, List.drop_succ_cons, ← List.drop_drop, List.drop_left]
    rfl
  have hsnd : (d.getvch (d.keep keys.length) :: (keys ++ d.getvch (d.keep m) :: below))[1 +
      keys.length]? = some (d.getvch (d.keep m)) := by
    rw [Nat.add_comm, List.getElem?_cons_succ, List.getElem?_append_right le_rfl, Nat.sub_self]
    rfl
  unfold multisigArgs at h
  rw [List.getElem?_cons_zero] at h
  dsimp only [Option.bind_eq_bind, bind_some] at h
  rw [hbnKeys, bind_some, hn] at h
  split at h
  · simp at h
  rw [Int.toNat_natCast, hsnd] at h
  dsimp only [bind_some] at h
  rw [hbnSigs, bind_some, hcnt] at h
  split at h
  · simp at h
  rw [Int.toNat_natCast, ← List.getElem?_drop, hbelow] at h
  obtain ⟨dummy, hdummy, h⟩ := Option.bind_eq_some_iff.mp h
  obtain ⟨hlong, hdummy⟩ := List.getElem?_eq_some_iff.mp hdummy
  have hrest : 3 + keys.length + m = 2 + keys.length + (m + 1) := by omega
  rw [hrest, ← List.drop_drop, hbelow] at h
  cases h
  refine ⟨List.take_left, List.length_take_of_le (by omega), ?_⟩
  rw [← hdummy, ← List.drop_eq_getElem_cons, List.take_append_drop]

theorem evalStep_CHECKMULTISIG {stack : List valtype} {nOpCount : ℕ} {script rest : CScript}
    {t : EvalState}
    (h : evalStep d OP_CHECKMULTISIG [] rest ⟨stack, [], [], nOpCount, script⟩ = some t) :
    ∃ nOpCount' args fSuccess, multisigArgs d nOpCount' stack = some args ∧
      checkSigs d (scriptCodeOf script args.sigs) args.sigs args.keys = some fSuccess ∧
      t.stack = vchBool fSuccess :: args.rest := by
  obtain ⟨nOpCount', hop⟩ := evalStep_op (by decide) h
  obtain ⟨args, hargs, hop⟩ := Option.bind_eq_some_iff.mp hop
  obtain ⟨fSuccess, hchk, hop⟩ := Option.bind_eq_some_iff.mp hop
  split at hop
  · simp at hop
  · obtain ⟨stack', hpush, hop⟩ := Option.bind_eq_some_iff.mp hop
    cases hop
    exact ⟨nOpCount', args, fSuccess, hargs, hchk, (some.inj hpush).symm⟩

/-! ## What a script is satisfied by -/

/-- What the stack has on top, last element first, when a script with these solutions accepts it. The
signatures are for the script without themselves. -/
def Satisfied (d : Interpreter) (script : CScript) (stack : List valtype) :
    txnouttype → List valtype → Prop
  | .TX_PUBKEY, vSolutions => ∃ vchPubKey vchSig below, vSolutions = [vchPubKey] ∧
      stack = vchSig :: below ∧ d.CheckSig vchSig vchPubKey (scriptCodeOf script [vchSig]) = true
  | .TX_PUBKEYHASH, vSolutions => ∃ hash vchPubKey vchSig below, vSolutions = [hash] ∧
      stack = vchPubKey :: vchSig :: below ∧ d.HASH160 vchPubKey = hash ∧
      d.CheckSig vchSig vchPubKey (scriptCodeOf script [vchSig]) = true
  | .TX_MULTISIG, vSolutions => ∃ (m n : UInt8) (pubkeys sigs : List valtype) (dummy : valtype)
      (below : List valtype), vSolutions = [m] :: (pubkeys ++ [[n]]) ∧ pubkeys.length = n.toNat ∧
      sigs.length = m.toNat ∧ stack = sigs.reverse ++ dummy :: below ∧
      List.SublistForall₂ (fun vchSig vchPubKey =>
        d.CheckSig vchSig vchPubKey (scriptCodeOf script sigs.reverse) = true) sigs pubkeys
  | .TX_NULL_DATA, _ => False
  | _, _ => True

theorem castToBool_vchBool (fValue : Bool) : CastToBool (vchBool fValue) = fValue := by
  cases fValue <;> decide

theorem Parsed.ends {script : CScript} {ops : List Instruction} (h : Parsed script ops)
    {stack : List valtype} (htrue : endsTrue (Script.evalScript d stack script) = true) :
    ∃ t, evalOps d ⟨stack, [], [], 0, script⟩ ops = some t ∧ endsTrue (some t.stack) = true := by
  have hsize : script.length ≤ nMaxScriptSize := by
    by_contra hlong
    unfold Script.evalScript at htrue
    rw [if_pos (by omega)] at htrue
    simp [endsTrue] at htrue
  rw [h.evalScript hsize] at htrue
  rcases hops : evalOps d (startState stack script) ops with _ | t
  · rw [hops] at htrue
    simp [endsTrue] at htrue
  · rw [hops, bind_some] at htrue
    split at htrue
    · exact ⟨t, hops, htrue⟩
    · simp [endsTrue] at htrue

section

variable {script : CScript} {vSolutions stack : List valtype}

theorem Plain.satisfied_pubKey (hd : Plain d)
    (hmatch : matchTemplate [OP_PUBKEY, OP_CHECKSIG] script = some vSolutions)
    (htrue : endsTrue (evalScript d stack script) = true) :
    Satisfied d script stack .TX_PUBKEY vSolutions := by
  obtain ⟨key, hpush, hparsed, rfl⟩ := matchTemplate_pubKey hmatch
  obtain ⟨t, hops, hends⟩ := hparsed.ends htrue
  obtain ⟨u, hkey, hops⟩ := evalOps_cons_eq_some.mp hops
  have hpushed := (@evalOps_cons_eq_some d _ u key []).mpr ⟨u, hkey, rfl⟩
  obtain rfl := hd.evalOps_pushed (by simpa using hpush.opcode) hpushed
  obtain ⟨v, hchk, hops⟩ := evalOps_cons_eq_some.mp hops
  obtain ⟨vchPubKey, vchSig, below, _, hstack, rfl⟩ := evalStep_CHECKSIG hchk
  cases hops
  obtain ⟨rfl, rfl⟩ := List.cons.inj hstack
  exact ⟨key.vch, vchSig, below, rfl, rfl, (castToBool_vchBool _).symm.trans hends⟩

theorem Plain.satisfied_pubKeyHash (hd : Plain d)
    (hmatch : matchTemplate [OP_DUP, OP_HASH160, OP_PUBKEYHASH, OP_EQUALVERIFY, OP_CHECKSIG] script
      = some vSolutions)
    (htrue : endsTrue (evalScript d stack script) = true) :
    Satisfied d script stack .TX_PUBKEYHASH vSolutions := by
  obtain ⟨r1, r2, hash, r4, hpush, hparsed, rfl⟩ := matchTemplate_pubKeyHash hmatch
  obtain ⟨t, hops, hends⟩ := hparsed.ends htrue
  obtain ⟨u1, hdup, hops⟩ := evalOps_cons_eq_some.mp hops
  obtain ⟨vchPubKey, below, _, rfl, rfl⟩ := evalStep_DUP hdup
  obtain ⟨u2, hhash, hops⟩ := evalOps_cons_eq_some.mp hops
  obtain ⟨_, _, _, hstack, rfl⟩ := evalStep_HASH160 hhash
  obtain ⟨rfl, rfl⟩ := List.cons.inj hstack
  obtain ⟨u3, hdata, hops⟩ := evalOps_cons_eq_some.mp hops
  have hpushed := (@evalOps_cons_eq_some d _ u3 hash []).mpr ⟨u3, hdata, rfl⟩
  obtain rfl := hd.evalOps_pushed (by simpa using hpush.opcode) hpushed
  obtain ⟨u4, hequal, hops⟩ := evalOps_cons_eq_some.mp hops
  obtain ⟨hsame, _, rfl⟩ := evalStep_EQUALVERIFY hequal
  obtain ⟨u5, hchk, hops⟩ := evalOps_cons_eq_some.mp hops
  obtain ⟨_, vchSig, below', _, hstack, rfl⟩ := evalStep_CHECKSIG hchk
  cases hops
  obtain ⟨rfl, rfl⟩ := List.cons.inj hstack
  exact ⟨hash.vch, vchPubKey, vchSig, below', rfl, rfl, hsame,
    (castToBool_vchBool _).symm.trans hends⟩

theorem Plain.satisfied_multisig (hd : Plain d)
    (hmatch : matchTemplate [OP_SMALLINTEGER, OP_PUBKEYS, OP_SMALLINTEGER, OP_CHECKMULTISIG] script
      = some vSolutions) (hcnts : MultisigCounts vSolutions = true)
    (htrue : endsTrue (evalScript d stack script) = true) :
    Satisfied d script stack .TX_MULTISIG vSolutions := by
  obtain ⟨m, n, keys, hsmallm, hsmalln, hkeys, hparsed, rfl⟩ := matchTemplate_multisig hmatch
  obtain ⟨hm, hn, hposm, hle, hcnt⟩ := multisigCounts_eq hsmallm hsmalln hparsed hcnts
  have hmost := decodeOP_N_le hn.1 hn.2.1
  obtain ⟨t, hops, htrue⟩ := hparsed.ends htrue
  obtain ⟨u1, hfst, hops⟩ := evalOps_cons_eq_some.mp hops
  rw [hm.2.2] at hfst
  obtain ⟨_, rfl⟩ := evalStep_small hm.1 hm.2.1 hfst
  rw [evalOps_append] at hops
  obtain ⟨u2, hpushed, hops⟩ := Option.bind_eq_some_iff.mp hops
  obtain rfl := hd.evalOps_pushed (fun key hkey => (hkeys key hkey).opcode) hpushed
  obtain ⟨u3, hsnd, hops⟩ := evalOps_cons_eq_some.mp hops
  rw [hn.2.2] at hsnd
  obtain ⟨_, rfl⟩ := evalStep_small hn.1 hn.2.1 hsnd
  obtain ⟨u4, hchk, hops⟩ := evalOps_cons_eq_some.mp hops
  obtain ⟨_, args, fSuccess, hargs, hsigs, hends⟩ := evalStep_CHECKMULTISIG hchk
  cases hops
  -- the counts on the stack are those of the script, so the operands are its keys and what is below
  have hlen : (keys.map Instruction.vch).reverse.length = (DecodeOP_N n.opcode).toNat := by
    rw [List.length_reverse, List.length_map, hcnt]
  rw [← hlen] at hargs
  obtain ⟨hargKeys, hargSigs, hbelow⟩ :=
    hd.multisigArgs_of_some ⟨by omega, by omega⟩ ⟨hposm, by omega⟩ hargs
  rw [hends] at htrue
  obtain rfl : fSuccess = true := (castToBool_vchBool _).symm.trans htrue
  have hmatched := sublistForall₂_reverse (sublist_of_checkSigs hsigs)
  rw [hargKeys, List.reverse_reverse] at hmatched
  refine ⟨DecodeOP_N m.opcode, DecodeOP_N n.opcode, keys.map Instruction.vch, args.sigs.reverse,
    args.dummy, args.rest, rfl, ?_, ?_, ?_, ?_⟩
  · rw [List.length_map, hcnt]
  · rw [List.length_reverse, hargSigs]
  · rw [List.reverse_reverse, hbelow]
  · rwa [List.reverse_reverse]

theorem not_endsTrue_RETURN {template : CScript}
    (hmatch : matchTemplate (OP_RETURN :: template) script = some vSolutions) :
    endsTrue (evalScript d stack script) = false := by
  obtain ⟨rest, hread, -⟩ := matchTemplate_op (by decide) hmatch
  have hfails : ∀ s : EvalState, s.vfExec = [] → evalStep d OP_RETURN [] rest s = none := by
    rintro ⟨stack, altstack, vfExec, nOpCount, code⟩ rfl
    rw [Option.eq_none_iff_forall_ne_some]
    intro t h
    obtain ⟨s, hcnt, hrun⟩ := evalStep_eq_some h
    obtain ⟨nOpCount', rfl⟩ := countOp_eq_some hcnt
    have hnone : runOp d OP_RETURN [] rest ⟨stack, altstack, [], nOpCount', code⟩ = none := rfl
    simp [hnone] at hrun
  have hloop : evalLoop d script.length (startState stack script) script = none := by
    rcases script with _ | ⟨byte, script⟩
    · simp [readInstruction] at hread
    · rw [List.length_cons]
      unfold evalLoop
      rw [hread, Option.bind_eq_bind, bind_some]
      rw [hfails _ rfl]
      rfl
  unfold evalScript
  split
  · rfl
  · have hsame : evalLoop d script.length ⟨stack, [], [], 0, script⟩ script = none := hloop
    rw [hsame]
    rfl

theorem Plain.satisfied (hd : Plain d) {whichType : txnouttype}
    (hsolver : Solver script = some (whichType, vSolutions))
    (htrue : endsTrue (evalScript d stack script) = true) :
    Satisfied d script stack whichType vSolutions := by
  by_cases htype : whichType = .TX_SCRIPTHASH
  · rw [htype]
    trivial
  obtain ⟨template, hmem, hmatch, hcnts⟩ := solver_eq_some hsolver htype
  simp only [mTemplates, List.mem_cons, Prod.mk.injEq, List.not_mem_nil, or_false] at hmem
  rcases hmem with ⟨rfl, rfl⟩ | ⟨rfl, rfl⟩ | ⟨rfl, rfl⟩ | ⟨rfl, rfl⟩ | ⟨rfl, rfl⟩
  · exact hd.satisfied_pubKey hmatch htrue
  · exact hd.satisfied_pubKeyHash hmatch htrue
  · exact hd.satisfied_multisig hmatch (hcnts rfl) htrue
  all_goals
    rw [not_endsTrue_RETURN hmatch] at htrue
    cases htrue

end

/-- An input that is verified against a script of a template leaves what the template asks for on the
stack, and the walk over signatures and keys finds signatures of keys in their order whenever there are
any. -/
theorem templates_satisfied {Key : Type} (lib : SignatureLibrary Key) (txTo : CTransaction) (nIn : ℕ)
    (flags nHashType : UInt32) :
    (∀ scriptPubKey whichType vSolutions scriptSig,
      Solver scriptPubKey = some (whichType, vSolutions) →
      CBigNum.VerifyScript lib.toScriptLibrary flags (CheckSig lib txTo nIn nHashType) scriptSig
        scriptPubKey = true →
      ∃ stack, CBigNum.EvalScript lib.toScriptLibrary flags (CheckSig lib txTo nIn nHashType) []
          scriptSig = some stack ∧
        Satisfied (CBigNum.interpreter lib.toScriptLibrary flags (CheckSig lib txTo nIn nHashType))
          scriptPubKey stack whichType vSolutions) ∧
    (hasFlag flags SCRIPT_VERIFY_STRICTENC = false → ∀ scriptCode sigs keys,
      checkSigs (CBigNum.interpreter lib.toScriptLibrary flags (CheckSig lib txTo nIn nHashType))
          scriptCode sigs keys = some true ↔
        List.SublistForall₂ (fun vchSig vchPubKey =>
          (CBigNum.interpreter lib.toScriptLibrary flags (CheckSig lib txTo nIn nHashType)).CheckSig
            vchSig vchPubKey scriptCode = true) sigs keys) := by
  constructor
  · intro scriptPubKey whichType vSolutions scriptSig hsolver hverify
    unfold CBigNum.VerifyScript verifyScript at hverify
    split at hverify
    · cases hverify
    · rename_i stack hstack
      refine ⟨stack, hstack, ?_⟩
      exact (plain_interpreter _ _ _).satisfied hsolver (Bool.and_eq_true_iff.mp hverify).1
  · intro hflag scriptCode sigs keys
    refine ⟨sublist_of_checkSigs, checkSigs_of_sublist ?_⟩
    intro vchSig _ vchPubKey _
    simp only [CBigNum.interpreter, hflag, Bool.not_false, Bool.true_or]

/-- A signature that is verified against the script of its key is left on the stack. -/
theorem plainScript_satisfied : ∃ stack,
    CBigNum.EvalScript plainLibrary 0 (CheckSig plainScheme plainTo 0 0) []
        (pushData (plainSignature 1 ++ [1])) = some stack ∧
      Satisfied (CBigNum.interpreter plainLibrary 0 (CheckSig plainScheme plainTo 0 0)) plainScript
        stack .TX_PUBKEY [plainPubKey.vch] :=
  (templates_satisfied plainScheme plainTo 0 0 0).1 plainScript .TX_PUBKEY [plainPubKey.vch] _
    (by decide) (by decide)

end ZalemCoin.Script
