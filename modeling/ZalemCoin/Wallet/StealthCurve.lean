import Mathlib.Data.ZMod.Basic
import ZalemCoin.Script.Spendable
import ZalemCoin.Wallet.Base58
import ZalemCoin.Wallet.Stealth

/-!
# Stealth payments on a curve

Sender and receiver share the product of one secret and the point of the other one, and the payment goes
to the spend key plus the point of the hash of what is shared. The points and the secrets are converted
through big numbers, whose bytes have no zeros in front: a point is written with 33 bytes, or is refused,
and a secret is filled up with zeros.
-/

namespace ZalemCoin.Wallet

open Chain Lib Script

/-! ## Big numbers -/

/-- The number with the given bytes. -/
def BN_bin2bn (s : List UInt8) : ℕ := byteNumber s

/-- The bytes of a number, without zeros in front. -/
def BN_bn2bin (a : ℕ) : List UInt8 := (leBytes a a).reverse

def BN_num_bytes (a : ℕ) : ℕ := (BN_bn2bin a).length

def compressedBytes (bnOut : ℕ) : Option (List UInt8) :=
  if BN_num_bytes bnOut ≠ ec_compressed_size then none else some (BN_bn2bin bnOut)

def secretBytes (bnSpend : ℕ) : Option (List UInt8) :=
  let nBytes := BN_num_bytes bnSpend
  if nBytes > ec_secret_size then none
  else some (List.replicate (ec_secret_size - nBytes) 0 ++ BN_bn2bin bnSpend)

theorem bin2bn_bn2bin (a : ℕ) : BN_bin2bn (BN_bn2bin a) = a := by
  unfold BN_bin2bn BN_bn2bin
  rw [← ofLittleEndian_reverse, List.reverse_reverse, ofLittleEndian_leBytes le_rfl]

theorem bn2bin_bin2bn {s : List UInt8} (h : s.head? ≠ some 0) : BN_bn2bin (BN_bin2bn s) = s := by
  unfold BN_bin2bn BN_bn2bin
  rw [← ofLittleEndian_reverse, CScriptNum.leBytes_ofLittleEndian ?_ le_rfl, List.reverse_reverse]
  intro last hlast hzero
  rw [List.getLast?_reverse, hzero] at hlast
  exact h hlast

/-- `BN_bn2bin` is the only writer without zeros in front that is read back. -/
theorem bn2bin_unique {f : ℕ → List UInt8} (hhead : ∀ a, (f a).head? ≠ some 0)
    (hread : ∀ a, BN_bin2bn (f a) = a) : f = BN_bn2bin := by
  funext a
  rw [← bn2bin_bin2bn (hhead a), hread]

theorem bin2bn_replicate (k : ℕ) (s : List UInt8) :
    BN_bin2bn (List.replicate k 0 ++ s) = BN_bin2bn s := by
  have hdrop : (List.replicate k 0 ++ s).dropWhile (· == 0) = s.dropWhile (· == 0) :=
    List.dropWhile_append_of_pos fun b hb => beq_iff_eq.mpr (List.eq_of_mem_replicate hb)
  unfold BN_bin2bn
  rw [← byteNumber_dropWhile, hdrop, byteNumber_dropWhile]

theorem secretBytes_eq {bnSpend : ℕ} (h : bnSpend < 256 ^ ec_secret_size) :
    ∃ secretOut, secretBytes bnSpend = some secretOut ∧ secretOut.length = ec_secret_size ∧
      BN_bin2bn secretOut = bnSpend := by
  have hbytes : BN_num_bytes bnSpend ≤ ec_secret_size := by
    unfold BN_num_bytes BN_bn2bin
    rw [List.length_reverse]
    exact length_leBytes h
  refine ⟨_, if_neg (not_lt.mpr hbytes), ?_, ?_⟩
  · rw [List.length_append, List.length_replicate]
    exact Nat.sub_add_cancel hbytes
  · rw [bin2bn_replicate, bin2bn_bn2bin]

/-! ## The functions of a payment -/

structure EC_GROUP (EC_POINT : Type) [AddCommGroup EC_POINT] where
  order : ℕ
  generator : EC_POINT
  EC_POINT_point2oct : EC_POINT → List UInt8
  EC_POINT_oct2point : List UInt8 → Option EC_POINT

/-- What the library says of the curve. -/
structure EC_GROUP.Lawful {EC_POINT : Type} [AddCommGroup EC_POINT] (ecgrp : EC_GROUP EC_POINT) :
    Prop where
  order_prime : ecgrp.order.Prime
  order_le : ecgrp.order ≤ 256 ^ ec_secret_size
  order_eq : addOrderOf ecgrp.generator = ecgrp.order
  /-- The point at infinity is written as one zero byte, and any other one with 33 bytes, of which the
  first one is the sign of the second coordinate, 2 or 3. -/
  infinity : ecgrp.EC_POINT_point2oct 0 = [0]
  length : ∀ P ≠ 0, (ecgrp.EC_POINT_point2oct P).length = ec_compressed_size
  sign : ∀ P ≠ 0, (ecgrp.EC_POINT_point2oct P).head? ≠ some 0
  oct2point : ∀ P, ecgrp.EC_POINT_oct2point (ecgrp.EC_POINT_point2oct P) = some P

variable {EC_POINT : Type}

namespace EC_GROUP

variable [AddCommGroup EC_POINT] (ecgrp : EC_GROUP EC_POINT)

def EC_POINT_point2bn (P : EC_POINT) : ℕ := BN_bin2bn (ecgrp.EC_POINT_point2oct P)

/-- The point that a number is; zero has no bytes and is none. -/
def EC_POINT_bn2point (bn : ℕ) : Option EC_POINT :=
  if BN_num_bytes bn = 0 then none else ecgrp.EC_POINT_oct2point (BN_bn2bin bn)

def SecretToPublicKey (secret : List UInt8) : Option (List UInt8) :=
  let bnIn := BN_bin2bn secret
  let pub := bnIn • ecgrp.generator
  let bnOut := ecgrp.EC_POINT_point2bn pub
  compressedBytes bnOut

variable (SHA256 : List UInt8 → List UInt8)

/-- The shared secret of a payment, and the public key that it pays to. The sender calls it with the
ephemeral secret and the public scan key, the receiver with the scan secret and the ephemeral public
key. -/
def StealthSecret (secret pubkey pkSpend : List UInt8) : Option (List UInt8 × List UInt8) := do
  let bnEphem := BN_bin2bn secret
  let bnQ := BN_bin2bn pubkey
  let Q ← ecgrp.EC_POINT_bn2point bnQ
  -- eQ
  let Q := bnEphem • Q
  let bnOutQ := ecgrp.EC_POINT_point2bn Q
  let vchOutQ ← compressedBytes bnOutQ
  let sharedSOut := SHA256 vchOutQ
  let bnc := BN_bin2bn sharedSOut
  -- cG
  let C := bnc • ecgrp.generator
  let bnR := BN_bin2bn pkSpend
  let R ← ecgrp.EC_POINT_bn2point bnR
  let Rout := R + C
  let bnOutR := ecgrp.EC_POINT_point2bn Rout
  let pkOut ← compressedBytes bnOutR
  return (sharedSOut, pkOut)

/-- The private key of a payment, from the secrets of the address and the ephemeral public key. -/
def StealthSecretSpend (scanSecret ephemPubkey spendSecret : List UInt8) : Option (List UInt8) := do
  let bnScanSecret := BN_bin2bn scanSecret
  let bnP := BN_bin2bn ephemPubkey
  let P ← ecgrp.EC_POINT_bn2point bnP
  -- dP
  let P := bnScanSecret • P
  let bnOutP := ecgrp.EC_POINT_point2bn P
  let vchOutP ← compressedBytes bnOutP
  let hash1 := SHA256 vchOutP
  let bnc := BN_bin2bn hash1
  let bnSpend := BN_bin2bn spendSecret
  let bnSpend := (bnSpend + bnc) % ecgrp.order
  if bnSpend = 0 then none
  secretBytes bnSpend

def StealthSharedToSecretSpend (sharedS spendSecret : List UInt8) : Option (List UInt8) := do
  let bnc := BN_bin2bn sharedS
  let bnSpend := BN_bin2bn spendSecret
  let bnSpend := (bnSpend + bnc) % ecgrp.order
  if bnSpend = 0 then none
  secretBytes bnSpend

/-! ## Points and their bytes -/

variable {ecgrp} {SHA256 : List UInt8 → List UInt8} {secret pubkey pkSpend : List UInt8}

variable (hgrp : ecgrp.Lawful)
include hgrp

theorem compressedBytes_infinity : compressedBytes (ecgrp.EC_POINT_point2bn 0) = none := by
  unfold compressedBytes EC_POINT_point2bn
  rw [hgrp.infinity]
  rfl

theorem compressedBytes_point2bn {P : EC_POINT} (hP : P ≠ 0) :
    compressedBytes (ecgrp.EC_POINT_point2bn P) = some (ecgrp.EC_POINT_point2oct P) := by
  unfold compressedBytes EC_POINT_point2bn BN_num_bytes
  rw [bn2bin_bin2bn (hgrp.sign P hP), if_neg (not_not.mpr (hgrp.length P hP))]

theorem bn2point_point2oct {P : EC_POINT} (hP : P ≠ 0) :
    ecgrp.EC_POINT_bn2point (BN_bin2bn (ecgrp.EC_POINT_point2oct P)) = some P := by
  have hbytes := bn2bin_bin2bn (hgrp.sign P hP)
  unfold EC_POINT_bn2point BN_num_bytes
  rw [hbytes, hgrp.length P hP, if_neg (by decide), hgrp.oct2point]

theorem secretToPublicKey_eq_some :
    ecgrp.SecretToPublicKey secret = some pubkey ↔
      BN_bin2bn secret • ecgrp.generator ≠ 0 ∧
        ecgrp.EC_POINT_point2oct (BN_bin2bn secret • ecgrp.generator) = pubkey := by
  unfold SecretToPublicKey
  dsimp only
  by_cases hzero : BN_bin2bn secret • ecgrp.generator = 0
  · rw [hzero, compressedBytes_infinity hgrp]
    exact iff_of_false nofun fun h => h.1 rfl
  · rw [compressedBytes_point2bn hgrp hzero, Option.some_inj]
    exact (and_iff_right hzero).symm

theorem smul_generator_eq_zero (n : ℕ) : n • ecgrp.generator = 0 ↔ ecgrp.order ∣ n := by
  rw [← hgrp.order_eq, addOrderOf_dvd_iff_nsmul_eq_zero]

theorem smul_smul_generator_ne_zero {m n : ℕ} (hm : m • ecgrp.generator ≠ 0)
    (hn : n • ecgrp.generator ≠ 0) : m • n • ecgrp.generator ≠ 0 := by
  rw [ne_eq, smul_generator_eq_zero hgrp] at hm hn
  rw [← mul_nsmul', ne_eq, smul_generator_eq_zero hgrp, hgrp.order_prime.dvd_mul]
  exact not_or.mpr ⟨hm, hn⟩

/-! ## Sender and receiver -/

theorem add_smul_generator_eq_zero (m n : ℕ) :
    m • ecgrp.generator + n • ecgrp.generator = 0 ↔ ecgrp.order ∣ m + n := by
  rw [← add_nsmul, smul_generator_eq_zero hgrp]

omit hgrp

theorem stealthSharedToSecretSpend_eq_none {sharedS spendSecret : List UInt8}
    (h : ecgrp.order ∣ BN_bin2bn spendSecret + BN_bin2bn sharedS) :
    ecgrp.StealthSharedToSecretSpend sharedS spendSecret = none := by
  unfold StealthSharedToSecretSpend
  rw [if_pos (Nat.mod_eq_zero_of_dvd h)]
  rfl

theorem stealthSharedToSecretSpend_eq_some (hgrp : ecgrp.Lawful) {sharedS spendSecret : List UInt8}
    (h : ¬ecgrp.order ∣ BN_bin2bn spendSecret + BN_bin2bn sharedS) :
    ∃ secretOut, ecgrp.StealthSharedToSecretSpend sharedS spendSecret = some secretOut ∧
      secretOut.length = ec_secret_size ∧
      ecgrp.SecretToPublicKey secretOut = some (ecgrp.EC_POINT_point2oct
        (BN_bin2bn spendSecret • ecgrp.generator + BN_bin2bn sharedS • ecgrp.generator)) := by
  set bnSpend := (BN_bin2bn spendSecret + BN_bin2bn sharedS) % ecgrp.order with hbnSpend
  have hlt : bnSpend < 256 ^ ec_secret_size :=
    (Nat.mod_lt _ hgrp.order_prime.pos).trans_le hgrp.order_le
  have hpoint : bnSpend • ecgrp.generator
      = BN_bin2bn spendSecret • ecgrp.generator + BN_bin2bn sharedS • ecgrp.generator := by
    rw [hbnSpend, ← hgrp.order_eq, mod_addOrderOf_nsmul, add_nsmul]
  obtain ⟨secretOut, hsec, hlen, hnum⟩ := secretBytes_eq hlt
  refine ⟨secretOut, ?_, hlen, ?_⟩
  · unfold StealthSharedToSecretSpend
    rw [if_neg fun hzero => h (Nat.dvd_of_mod_eq_zero hzero)]
    exact hsec
  · rw [secretToPublicKey_eq_some hgrp, hnum, hpoint]
    exact ⟨fun hzero => h ((add_smul_generator_eq_zero hgrp _ _).mp hzero), rfl⟩

theorem stealthSecret_eq (hgrp : ecgrp.Lawful) {P R : EC_POINT} (hP : P ≠ 0)
    (hsec : BN_bin2bn secret • P ≠ 0) (hR : R ≠ 0) :
    ecgrp.StealthSecret SHA256 secret (ecgrp.EC_POINT_point2oct P) (ecgrp.EC_POINT_point2oct R)
      = (compressedBytes (ecgrp.EC_POINT_point2bn (R + BN_bin2bn
          (SHA256 (ecgrp.EC_POINT_point2oct (BN_bin2bn secret • P))) • ecgrp.generator))).map
        fun pkOut => (SHA256 (ecgrp.EC_POINT_point2oct (BN_bin2bn secret • P)), pkOut) := by
  unfold StealthSecret
  dsimp only
  rw [bn2point_point2oct hgrp hP, bn2point_point2oct hgrp hR]
  dsimp only [Option.bind_eq_bind, Option.bind_some]
  rw [compressedBytes_point2bn hgrp hsec]
  rw [Option.map_eq_bind]
  rfl

theorem stealthSecretSpend_eq (hgrp : ecgrp.Lawful) {P : EC_POINT} (hP : P ≠ 0)
    (hsec : BN_bin2bn secret • P ≠ 0) (spendSecret : List UInt8) :
    ecgrp.StealthSecretSpend SHA256 secret (ecgrp.EC_POINT_point2oct P) spendSecret
      = ecgrp.StealthSharedToSecretSpend
        (SHA256 (ecgrp.EC_POINT_point2oct (BN_bin2bn secret • P))) spendSecret := by
  unfold StealthSecretSpend StealthSharedToSecretSpend
  dsimp only
  rw [bn2point_point2oct hgrp hP]
  dsimp only [Option.bind_eq_bind, Option.bind_some]
  rw [compressedBytes_point2bn hgrp hsec]
  rfl

end EC_GROUP

/-! ## The address -/

def stealth_version_byte : UInt8 := 0x28

section

variable (SHA256 : List UInt8 → List UInt8)

/-- The first four bytes of the hash of the hash of some bytes, as a number. -/
def ZalemCoinChecksum (p : List UInt8) : ℕ :=
  if p.length = 0 then 0 else ofLittleEndian ((SHA256 (SHA256 p)).take 4)

def AppendChecksum (data : List UInt8) : List UInt8 :=
  data ++ littleEndian 4 (ZalemCoinChecksum SHA256 data)

def VerifyChecksum (data : List UInt8) : Bool :=
  if data.length < 4 then false
  else
    let checksum := ofLittleEndian (data.drop (data.length - 4))
    ZalemCoinChecksum SHA256 (data.take (data.length - 4)) == checksum

namespace CStealthAddress

/-- The text of an address. The zeros are the number of signatures and the length of a prefix. -/
def Encoded (a : CStealthAddress) : Option (List Char) :=
  let raw := stealth_version_byte :: a.options
    :: (a.scan_pubkey ++ 1 :: (a.spend_pubkey ++ [0, 0]))
  EncodeBase58 (AppendChecksum SHA256 raw)

/-- Takes an address from its text. The number of spend keys, and what follows the first one of them, is
skipped. -/
def SetEncoded (a : CStealthAddress) (encodedAddress : List Char) : Bool × CStealthAddress :=
  match DecodeBase58 encodedAddress with
  | none => (false, a)
  | some raw =>
    if VerifyChecksum SHA256 raw = false then (false, a)
    else if raw.length < 1 + 1 + 33 + 1 + 33 + 1 + 1 + 4 then (false, a)
    else
      match raw with
      | version :: options :: p =>
        if version ≠ stealth_version_byte then (false, a)
        else
          (true, { a with
            options := options
            scan_pubkey := p.take 33
            spend_pubkey := (p.drop (33 + 1)).take 33 })
      | _ => (false, a)

variable {SHA256}

theorem verifyChecksum_appendChecksum (data : List UInt8) :
    VerifyChecksum SHA256 (AppendChecksum SHA256 data) = true := by
  have hlen : (AppendChecksum SHA256 data).length = data.length + 4 := List.length_append
  have hlt : ZalemCoinChecksum SHA256 data < 256 ^ 4 := by
    unfold ZalemCoinChecksum
    split_ifs
    · decide
    · exact (ofLittleEndian_lt _).trans_le
        (Nat.pow_le_pow_right (by decide) (List.length_take_le _ _))
  unfold VerifyChecksum
  rw [if_neg (by omega), hlen, Nat.add_sub_cancel]
  unfold AppendChecksum
  rw [List.take_left, List.drop_left, ofLittleEndian_littleEndian, Nat.mod_eq_of_lt hlt]
  exact beq_self_eq_true _

theorem setEncoded_encoded {a : CStealthAddress} (hscan : a.scan_pubkey.length = ec_compressed_size)
    (hspend : a.spend_pubkey.length = ec_compressed_size) :
    ∃ text, a.Encoded SHA256 = some text ∧ ∀ b : CStealthAddress, b.SetEncoded SHA256 text
      = (true, { b with
        options := a.options, scan_pubkey := a.scan_pubkey, spend_pubkey := a.spend_pubkey }) := by
  unfold ec_compressed_size at hscan hspend
  set raw := stealth_version_byte :: a.options
    :: (a.scan_pubkey ++ 1 :: (a.spend_pubkey ++ [0, 0])) with hraw
  -- The version is not zero, and so no byte in front is lost.
  have hsame : (AppendChecksum SHA256 raw).dropWhile (· == 0) = AppendChecksum SHA256 raw := by
    rw [dropWhile_zero_eq_iff]
    exact fun h => absurd (Option.some.inj h) (by decide)
  have hread := decode_encode (AppendChecksum SHA256 raw)
  rw [hsame] at hread
  obtain ⟨text, htext, hread⟩ := Option.bind_eq_some_iff.mp hread
  have hlen : (AppendChecksum SHA256 raw).length = 75 := by
    have happ : (AppendChecksum SHA256 raw).length = raw.length + 4 := List.length_append
    rw [happ, hraw, List.length_cons, List.length_cons, List.length_append, List.length_cons,
      List.length_append, hscan, hspend]
    rfl
  refine ⟨text, htext, fun b => ?_⟩
  unfold SetEncoded
  rw [hread]
  dsimp only
  rw [if_neg (by rw [verifyChecksum_appendChecksum]; exact nofun), if_neg (by omega)]
  unfold AppendChecksum
  rw [hraw, List.cons_append, List.cons_append]
  dsimp only
  rw [if_neg (not_not.mpr rfl), List.append_assoc, List.cons_append, List.append_assoc,
    List.take_left' hscan, ← List.drop_drop, List.drop_left' hscan, List.drop_one, List.tail_cons,
    List.take_left' hspend]

end CStealthAddress

end

/-! ## Sender, receiver and address -/

variable [AddCommGroup EC_POINT] {ecgrp : EC_GROUP EC_POINT} {SHA256 : List UInt8 → List UInt8}
  {scanSecret spendSecret ephemSecret scanPubkey spendPubkey ephemPubkey : List UInt8}

/-- What both sides of a payment share: the hash of the product of the two secrets with the point. -/
def EC_GROUP.sharedSecret (ecgrp : EC_GROUP EC_POINT) (SHA256 : List UInt8 → List UInt8)
    (scanSecret ephemSecret : List UInt8) : List UInt8 :=
  SHA256 (ecgrp.EC_POINT_point2oct
    (BN_bin2bn scanSecret • BN_bin2bn ephemSecret • ecgrp.generator))

/-- The sender and the receiver of a payment have the same shared secret and output key, and both ways to
the private key give the one of the output key. All of it is refused when the sum of the spend secret and
the shared one is a multiple of the order. The receiver's address can be read back from its text. -/
theorem EC_GROUP.Lawful.stealth_agreement (hgrp : ecgrp.Lawful)
    (hscan : ecgrp.SecretToPublicKey scanSecret = some scanPubkey)
    (hspend : ecgrp.SecretToPublicKey spendSecret = some spendPubkey)
    (hephem : ecgrp.SecretToPublicKey ephemSecret = some ephemPubkey) :
    (let sharedS := ecgrp.sharedSecret SHA256 scanSecret ephemSecret
      if ecgrp.order ∣ BN_bin2bn spendSecret + BN_bin2bn sharedS then
        ecgrp.StealthSecret SHA256 ephemSecret scanPubkey spendPubkey = none ∧
        ecgrp.StealthSecret SHA256 scanSecret ephemPubkey spendPubkey = none ∧
        ecgrp.StealthSecretSpend SHA256 scanSecret ephemPubkey spendSecret = none ∧
        ecgrp.StealthSharedToSecretSpend sharedS spendSecret = none
      else
        ∃ pkOut secretOut : List UInt8,
          ecgrp.StealthSecret SHA256 ephemSecret scanPubkey spendPubkey = some (sharedS, pkOut) ∧
          ecgrp.StealthSecret SHA256 scanSecret ephemPubkey spendPubkey = some (sharedS, pkOut) ∧
          ecgrp.StealthSecretSpend SHA256 scanSecret ephemPubkey spendSecret = some secretOut ∧
          ecgrp.StealthSharedToSecretSpend sharedS spendSecret = some secretOut ∧
          secretOut.length = ec_secret_size ∧
          ecgrp.SecretToPublicKey secretOut = some pkOut) ∧
    ∀ a : CStealthAddress, a.scan_pubkey = scanPubkey → a.spend_pubkey = spendPubkey →
      ∃ text, a.Encoded SHA256 = some text ∧ ∀ b : CStealthAddress, b.SetEncoded SHA256 text
        = (true, { b with
          options := a.options, scan_pubkey := a.scan_pubkey, spend_pubkey := a.spend_pubkey }) := by
  obtain ⟨hd, rfl⟩ := (EC_GROUP.secretToPublicKey_eq_some hgrp).mp hscan
  obtain ⟨hf, rfl⟩ := (EC_GROUP.secretToPublicKey_eq_some hgrp).mp hspend
  obtain ⟨he, rfl⟩ := (EC_GROUP.secretToPublicKey_eq_some hgrp).mp hephem
  refine ⟨?_, fun a hascan haspend => CStealthAddress.setEncoded_encoded ?_ ?_⟩
  · -- eQ = e(dG) = d(eG) = dP
    have hproduct := EC_GROUP.smul_smul_generator_ne_zero hgrp hd he
    have hcomm := smul_comm (BN_bin2bn ephemSecret) (BN_bin2bn scanSecret) ecgrp.generator
    have hsender := @EC_GROUP.stealthSecret_eq _ _ _ SHA256 _ hgrp _ _ hd (by rwa [hcomm]) hf
    have hreceiver := @EC_GROUP.stealthSecret_eq _ _ _ SHA256 _ hgrp _ _ he hproduct hf
    have hspends := @EC_GROUP.stealthSecretSpend_eq _ _ _ SHA256 _ hgrp _ he hproduct spendSecret
    rw [hcomm] at hsender
    rw [hsender, hreceiver, hspends]
    unfold EC_GROUP.sharedSecret
    extract_lets sharedS
    split_ifs with hdvd
    · rw [(EC_GROUP.add_smul_generator_eq_zero hgrp _ _).mpr hdvd,
        EC_GROUP.compressedBytes_infinity hgrp, EC_GROUP.stealthSharedToSecretSpend_eq_none hdvd]
      exact ⟨rfl, rfl, rfl, rfl⟩
    · obtain ⟨secretOut, hsecret, hlength, hpublic⟩ :=
        EC_GROUP.stealthSharedToSecretSpend_eq_some hgrp hdvd
      have hout := EC_GROUP.compressedBytes_point2bn hgrp
        fun hzero => hdvd ((EC_GROUP.add_smul_generator_eq_zero hgrp _ _).mp hzero)
      rw [hout]
      exact ⟨_, secretOut, rfl, rfl, hsecret, hsecret, hlength, hpublic⟩
  · rw [hascan]
    exact hgrp.length _ hd
  · rw [haspend]
    exact hgrp.length _ hf

def sevenPoints : EC_GROUP (ZMod 7) where
  order := 7
  generator := 1
  EC_POINT_point2oct P := if P = 0 then [0] else 2 :: (List.replicate 31 0 ++ [UInt8.ofNat P.val])
  EC_POINT_oct2point bytes := (bytes.getLast?).map fun b => (b.toNat : ZMod 7)

def smallSecret (b : UInt8) : List UInt8 := List.replicate 31 0 ++ [b]

def smallKey (b : UInt8) : List UInt8 := 2 :: (List.replicate 31 0 ++ [b])

theorem sevenPoints_lawful : sevenPoints.Lawful where
  order_prime := Nat.prime_seven
  order_le := by decide
  order_eq := ZMod.addOrderOf_one 7
  infinity := rfl
  length := by decide
  sign := by decide
  oct2point := by decide

def lastByteHash (data : List UInt8) : List UInt8 := smallSecret (data.getLastD 0 + 1)

/-- A payment in the small group, in which all secrets begin with zeros. -/
theorem small_payment :
    (∃ pkOut secretOut : List UInt8,
      sevenPoints.StealthSecret lastByteHash (smallSecret 5) (smallKey 3) (smallKey 2)
        = some (smallSecret 2, pkOut) ∧
      sevenPoints.StealthSecret lastByteHash (smallSecret 3) (smallKey 5) (smallKey 2)
        = some (smallSecret 2, pkOut) ∧
      sevenPoints.StealthSecretSpend lastByteHash (smallSecret 3) (smallKey 5) (smallSecret 2)
        = some secretOut ∧
      sevenPoints.StealthSharedToSecretSpend (smallSecret 2) (smallSecret 2) = some secretOut ∧
      secretOut.length = ec_secret_size ∧
      sevenPoints.SecretToPublicKey secretOut = some pkOut) ∧
    ∃ text, CStealthAddress.Encoded lastByteHash ⟨1, smallKey 3, smallKey 2, [], []⟩ = some text ∧
      CStealthAddress.SetEncoded lastByteHash ⟨0, [], [], [], []⟩ text
        = (true, ⟨1, smallKey 3, smallKey 2, [], []⟩) := by
  obtain ⟨hkeys, haddress⟩ := @sevenPoints_lawful.stealth_agreement _ _ _ lastByteHash _ _ _ _ _ _
    (show sevenPoints.SecretToPublicKey (smallSecret 3) = some (smallKey 3) by decide)
    (show sevenPoints.SecretToPublicKey (smallSecret 2) = some (smallKey 2) by decide)
    (show sevenPoints.SecretToPublicKey (smallSecret 5) = some (smallKey 5) by decide)
  have hshared : sevenPoints.sharedSecret lastByteHash (smallSecret 3) (smallSecret 5)
      = smallSecret 2 := by decide
  rw [hshared] at hkeys
  have hsum : ¬sevenPoints.order
      ∣ BN_bin2bn (smallSecret 2) + BN_bin2bn (smallSecret 2) := by decide
  refine ⟨by simpa only [if_neg hsum] using hkeys, ?_⟩
  obtain ⟨text, hwritten, hread⟩ := haddress ⟨1, smallKey 3, smallKey 2, [], []⟩ rfl rfl
  exact ⟨text, hwritten, hread _⟩

end ZalemCoin.Wallet
