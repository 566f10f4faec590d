import ZalemCoin.Chain.ChainMoves
import ZalemCoin.Chain.PoolRemoval

/-!
# The outputs that transactions spend

Each output has a slot in the transaction index. It is unspent when its slot is free, and a transaction
that spends it marks its slot.
-/

namespace ZalemCoin.Chain

open Lib

def COutPoint.slot (o : COutPoint) : UInt256 × ℕ := (o.hash, o.n.toNat)

theorem COutPoint.slot_injective : Function.Injective COutPoint.slot := by
  rintro ⟨ah, an⟩ ⟨bh, bn⟩ hab
  obtain ⟨hhash, hn⟩ := Prod.mk.inj hab
  rw [COutPoint.mk.injEq]
  exact ⟨hhash, UInt32.toNat_inj.mp hn⟩

def Unspent (L : Ledger UInt256 CDiskTxPos) (o : COutPoint) : Prop :=
  Ledger.slot L o.slot = some CDiskTxPos.null

def CTransaction.Spends (tx : CTransaction) (o : COutPoint) : Prop :=
  tx.IsCoinBase = false ∧ o ∈ tx.prevouts

theorem CTransaction.slot_mem_spentSlots {tx : CTransaction} {o : COutPoint} :
    o.slot ∈ tx.spentSlots ↔ tx.Spends o := by
  unfold CTransaction.spentSlots CTransaction.Spends
  rcases tx.IsCoinBase with _ | _
  · have hslots : tx.vin.map (fun txin => (txin.prevout.hash, txin.prevout.n.toNat))
        = tx.prevouts.map COutPoint.slot := by
      rw [CTransaction.prevouts, List.map_map]
      rfl
    rw [if_neg Bool.false_ne_true, hslots, List.mem_map_of_injective COutPoint.slot_injective]
    simp
  · simp

end ZalemCoin.Chain
