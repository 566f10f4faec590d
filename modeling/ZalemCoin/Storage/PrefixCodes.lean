import ZalemCoin.Storage.BlockFormat

/-!
# What is written can be told apart

The bytes of two different values do not start each other, so that the bytes of a sequence of values
say which values they are. Unlike reading back, this holds for vectors of any size that memory has.
-/

namespace ZalemCoin.Storage

open Lib Chain

variable {α : Type} {P : α → Prop} {write : α → List UInt8}

/-- The bytes of a value, whatever follows them, are those of no other value. -/
def Separates (P : α → Prop) (write : α → List UInt8) : Prop :=
  ∀ (a b : α) (r r' : List UInt8), P a → P b → write a ++ r = write b ++ r' → a = b ∧ r = r'

theorem separates_of_reads {read : Reader α} (h : ∀ a, P a → Reads read (write a) a) :
    Separates P write := by
  intro a b r r' ha hb heq
  have hread := h a ha r
  rw [heq, h b hb r'] at hread
  cases hread
  exact ⟨rfl, rfl⟩

theorem separates_size : Separates (· < 256 ^ 8) WriteCompactSize :=
  separates_of_reads fun _ => reads_size

theorem separates_bytes : Separates (fun v => v.length < 256 ^ 8) writeBytes := by
  intro v v' r r' hv hv' heq
  unfold writeBytes at heq
  rw [List.append_assoc, List.append_assoc] at heq
  obtain ⟨hlen, hrest⟩ := separates_size _ _ _ _ hv hv' heq
  exact List.append_inj hrest hlen

theorem separates_flatMap (h : Separates P write) {v v' : List α} {r r' : List UInt8}
    (hlen : v.length = v'.length) (hv : ∀ a ∈ v, P a) (hv' : ∀ a ∈ v', P a)
    (heq : v.flatMap write ++ r = v'.flatMap write ++ r') : v = v' ∧ r = r' := by
  induction v generalizing v' with
  | nil =>
    obtain rfl := List.length_eq_zero_iff.mp hlen.symm
    exact ⟨rfl, heq⟩
  | cons a v ih =>
    rcases v' with _ | ⟨b, v'⟩
    · simp at hlen
    · rw [List.flatMap_cons, List.flatMap_cons, List.append_assoc, List.append_assoc] at heq
      obtain ⟨rfl, htail⟩ := h _ _ _ _ (hv a List.mem_cons_self) (hv' b List.mem_cons_self) heq
      obtain ⟨rfl, hrest⟩ := ih (Nat.succ.inj hlen) (fun c hc => hv c (List.mem_cons_of_mem _ hc))
        (fun c hc => hv' c (List.mem_cons_of_mem _ hc)) htail
      exact ⟨rfl, hrest⟩

theorem separates_vector (h : Separates P write) :
    Separates (fun v => v.length < 256 ^ 8 ∧ ∀ a ∈ v, P a) (writeVector write) := by
  intro v v' r r' hv hv' heq
  unfold writeVector at heq
  rw [List.append_assoc, List.append_assoc] at heq
  obtain ⟨hlen, hrest⟩ := separates_size _ _ _ _ hv.1 hv'.1 heq
  exact separates_flatMap h hlen hv.2 hv'.2 hrest

/-- A transaction as memory has it: its version and its values fit their types, and its vectors have
sizes. -/
structure InMemory (tx : CTransaction) : Prop where
  nVersion : FitsBytes 4 tx.nVersion
  vin : tx.vin.length < 256 ^ 8 ∧ ∀ txin ∈ tx.vin, txin.scriptSig.length < 256 ^ 8
  vout : tx.vout.length < 256 ^ 8 ∧
    ∀ txout ∈ tx.vout, FitsBytes 8 txout.nValue ∧ txout.scriptPubKey.length < 256 ^ 8

theorem separates_uint32 : Separates (fun _ => True) writeUInt32 :=
  separates_of_reads fun n _ => reads_uint32 n

theorem separates_int (k : ℕ) : Separates (FitsBytes k) (writeInt k) :=
  separates_of_reads fun _ h => reads_int h.1 h.2

theorem separates_txIn : Separates (fun txin => txin.scriptSig.length < 256 ^ 8) writeTxIn := by
  rintro ⟨prevout, scriptSig, nSequence⟩ ⟨prevout', scriptSig', nSequence'⟩ r r' ha hb heq
  have hpoint : Separates (fun _ => True) writeOutPoint :=
    separates_of_reads fun o _ => reads_outPoint o
  simp only [writeTxIn, List.append_assoc] at heq
  obtain ⟨rfl, hscr⟩ := hpoint _ _ _ _ trivial trivial heq
  obtain ⟨rfl, hsequence⟩ := separates_bytes _ _ _ _ ha hb hscr
  obtain ⟨rfl, rfl⟩ := separates_uint32 _ _ _ _ trivial trivial hsequence
  exact ⟨rfl, rfl⟩

theorem separates_txOut :
    Separates (fun txout => FitsBytes 8 txout.nValue ∧ txout.scriptPubKey.length < 256 ^ 8)
      writeTxOut := by
  rintro ⟨nValue, scriptPubKey⟩ ⟨nValue', scriptPubKey'⟩ r r' ha hb heq
  obtain ⟨rfl, hscr⟩ := separates_int 8 _ _ _ _ ha.1 hb.1 heq
  obtain ⟨rfl, rfl⟩ := separates_bytes _ _ _ _ ha.2 hb.2 hscr
  exact ⟨rfl, rfl⟩

theorem separates_transaction : Separates InMemory writeTransaction := by
  rintro ⟨nVersion, nTime, vin, vout, nLockTime⟩ ⟨nVersion', nTime', vin', vout', nLockTime'⟩ r r' ha hb
    heq
  simp only [writeTransaction, List.append_assoc] at heq
  obtain ⟨rfl, htime⟩ := separates_int 4 _ _ _ _ ha.nVersion hb.nVersion heq
  obtain ⟨rfl, hin⟩ := separates_uint32 _ _ _ _ trivial trivial htime
  obtain ⟨rfl, hout⟩ := separates_vector separates_txIn _ _ _ _ ha.vin hb.vin hin
  obtain ⟨rfl, hlock⟩ := separates_vector separates_txOut _ _ _ _ ha.vout hb.vout hout
  obtain ⟨rfl, rfl⟩ := separates_uint32 _ _ _ _ trivial trivial hlock
  exact ⟨rfl, rfl⟩

end ZalemCoin.Storage
