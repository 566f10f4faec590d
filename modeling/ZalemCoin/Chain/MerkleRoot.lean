import ZalemCoin.Chain.ConnectSpec
import ZalemCoin.Chain.PlainContext
import ZalemCoin.Lib.MerkleTree

/-!
# What the merkle root of a block determines

The tree that `BuildMerkleTree` builds pairs an odd last hash with itself, so that a block and the
same block with its last transactions repeated have one root. `CheckBlock` rejects the second one
for its repeated transactions; of the blocks that it accepts, no two with different transactions
have the same root, as long as the hash has no collision in their trees.
-/

namespace ZalemCoin.Chain

open Lib

section

variable {ctx : Context}

theorem merkleLevel_eq (ctx : Context) : ∀ hashes : List UInt256,
    merkleLevel ctx hashes = Merkle.level ctx.hashPair hashes
  | [] => rfl
  | [_] => rfl
  | a :: b :: rest => by
    rw [merkleLevel, merkleLevel_eq ctx rest]
    rfl

theorem merkleRootLoop_isRoot (fuel : ℕ) (hashes : List UInt256) (hne : hashes ≠ [])
    (hfuel : hashes.length ≤ fuel) :
    ∃ height, Merkle.IsRoot ctx.hashPair hashes height (merkleRootLoop ctx fuel hashes) := by
  induction fuel generalizing hashes with
  | zero =>
    have hlen := List.length_pos_iff.mpr hne
    omega
  | succ fuel ih =>
    match hashes with
    | [a] => exact ⟨0, rfl, fun n hn => absurd hn (Nat.not_lt_zero n)⟩
    | a :: b :: rest =>
      have hlen := Merkle.length_level ctx.hashPair (a :: b :: rest)
      have hloop : merkleRootLoop ctx (fuel + 1) (a :: b :: rest)
          = merkleRootLoop ctx fuel (merkleLevel ctx (a :: b :: rest)) := rfl
      rw [hloop, merkleLevel_eq]
      simp only [List.length_cons] at hfuel hlen
      obtain ⟨height, htop, hbelow⟩ := ih (Merkle.level ctx.hashPair (a :: b :: rest))
        (fun hnil => by rw [hnil, List.length_nil] at hlen; omega) (by omega)
      refine ⟨height + 1, htop, fun n hn => ?_⟩
      cases n with
      | zero =>
        change 2 ≤ rest.length + 1 + 1
        omega
      | succ n => exact hbelow n (by omega)

def CBlock.txids (ctx : Context) (block : CBlock) : List UInt256 := block.vtx.map ctx.hashTx

theorem checkBlock_isRoot {env : Env} {s s' : NodeState} {block : CBlock}
    {fCheckPOW fCheckSig : Bool}
    (h : CheckBlock ctx env block fCheckPOW true fCheckSig s = (.ok (), s')) :
    block.txids ctx ≠ [] ∧ (block.txids ctx).Nodup ∧
      ∃ height, Merkle.IsRoot ctx.hashPair (block.txids ctx) height block.hashMerkleRoot := by
  obtain ⟨hchecked, -⟩ := checkBlock_eq_ok h
  have hids := (checkTransactions_eq_ok hchecked.transactions).2
  have hroot : block.hashMerkleRoot = BuildMerkleTree ctx block := by
    have hlast := hchecked.transactions
    obtain ⟨⟨⟩, -, hlast⟩ := bind_ok hlast
    obtain ⟨⟨⟩, -, hlast⟩ := bind_ok hlast
    obtain ⟨⟨⟩, -, hlast⟩ := bind_ok hlast
    rw [ensure_eq_ok] at hlast
    by_contra hne
    exact hlast ⟨rfl, hne⟩
  have hne : block.vtx ≠ [] := by
    have hform := hchecked.form
    obtain ⟨hsize, -⟩ := ensure_ok hform
    exact hsize.1
  have hne' : block.txids ctx ≠ [] := by
    unfold CBlock.txids
    rwa [Ne, List.map_eq_nil_iff]
  refine ⟨hne', hids, ?_⟩
  rw [hroot]
  exact merkleRootLoop_isRoot block.vtx.length (block.txids ctx) hne'
    (by unfold CBlock.txids; rw [List.length_map])

/-- The hash is ideal on the trees of two blocks: it has no collision among the pairs of hashes that
are joined in them, and the hash of no such pair is the identifier of a transaction. -/
structure IdealHash (ctx : Context) (block block' : CBlock) : Prop where
  noCollision : Merkle.NoCollision ctx.hashPair (block.txids ctx) (block'.txids ctx)
  noLeaf : Merkle.NoLeaf ctx.hashPair (block.txids ctx) (block'.txids ctx)

/-- Two blocks with the same root that `CheckBlock` accepts, by any nodes at any times, have the same
transactions in the same order. -/
theorem checkBlock_txids_eq {env env' : Env} {s s' t t' : NodeState} {block block' : CBlock}
    {fCheckPOW fCheckPOW' fCheckSig fCheckSig' : Bool}
    (h : CheckBlock ctx env block fCheckPOW true fCheckSig s = (.ok (), s'))
    (h' : CheckBlock ctx env' block' fCheckPOW' true fCheckSig' t = (.ok (), t'))
    (hideal : IdealHash ctx block block') (hroot : block.hashMerkleRoot = block'.hashMerkleRoot) :
    block.txids ctx = block'.txids ctx := by
  obtain ⟨hne, hnodup, height, hisRoot⟩ := checkBlock_isRoot h
  obtain ⟨hne', hnodup', height', hisRoot'⟩ := checkBlock_isRoot h'
  rw [← hroot] at hisRoot'
  exact Merkle.leaves_eq_of_root_eq hisRoot hisRoot' hnodup hnodup' hideal.noCollision
    hideal.noLeaf hne hne'

end

theorem chainedBlock_idealHash (block : CBlock) (hvtx : block.vtx = chainedBlock.vtx) :
    IdealHash (chainedContext true) chainedBlock block := by
  have hids : block.txids (chainedContext true) = chainedBlock.txids (chainedContext true) := by
    unfold CBlock.txids
    rw [hvtx]
  have hroot : Merkle.IsRoot (chainedContext true).hashPair
      (chainedBlock.txids (chainedContext true)) 2 85 := ⟨by decide, by decide⟩
  have hjoined : ∀ p, Merkle.Joined (chainedContext true).hashPair
      (chainedBlock.txids (chainedContext true)) p → p = (20, 21) ∨ p = (22, 22) ∨ p = (41, 44) := by
    intro p hp
    have hmem := hroot.joined_iff.mp hp
    have hpairs : Merkle.joinedPairs (chainedContext true).hashPair
        (chainedBlock.txids (chainedContext true)) 2 = [(20, 21), (22, 22), (41, 44)] := by decide
    rw [hpairs] at hmem
    simpa using hmem
  constructor
  · rw [hids]
    intro p q hp hq heq
    rcases hjoined p (by simpa using hp) with rfl | rfl | rfl <;>
      rcases hjoined q (by simpa using hq) with rfl | rfl | rfl <;>
      first | rfl | exact absurd heq (by decide)
  · rw [hids]
    intro p hp
    rcases hjoined p (by simpa using hp) with rfl | rfl | rfl <;> decide

/-- Two blocks with these transactions and different headers are accepted. -/
theorem chainedBlock_txids_eq : chainedBlock.txids (chainedContext true)
    = (plainBlock 3 1 85 chainedBlock.vtx).txids (chainedContext true) :=
  @checkBlock_txids_eq (chainedContext true) (plainEnv 1000) (plainEnv 2000) chainedNode _
    chainedNode _ chainedBlock (plainBlock 3 1 85 chainedBlock.vtx) true true true true
    (Action.eq_of_fst (by decide)) (Action.eq_of_fst (by decide))
    (chainedBlock_idealHash _ rfl) rfl

end ZalemCoin.Chain
