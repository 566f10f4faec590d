import ZalemCoin.Chain.LoadBlockIndex

/-!
# The block index that is loaded is the one that was stored

From the stored entries of a block index, read in any order, `LoadBlockIndex` makes the same block
index again: the links are those that the hashes stand for, and the trusts, which are not stored, come
out as they were computed when the blocks were added. Only the order in which the blocks were received
is not restored.
-/

namespace ZalemCoin.Chain

open Lib

/-- What a block index satisfies that can be stored and read back. -/
structure Marshallable (ctx : Context) (m : UInt256 → Option CBlockIndex) : Prop where
  /-- A stored entry computes the hash that it is stored under. -/
  hash : ∀ p i, m p = some i → (CDiskBlockIndex.of i).GetBlockHash ctx = p
  /-- Zero stands for no block. -/
  zero : m 0 = none
  /-- The block before a block is known, and is lower. -/
  prev : ∀ p i q, m p = some i → i.pprev = some q → ∃ j, m q = some j ∧ j.nHeight < i.nHeight
  /-- The next block is known. -/
  next : ∀ p i q, m p = some i → i.pnext = some q → m q ≠ none
  trust : ∀ p i, m p = some i → i.nChainTrust
    = ((i.pprev.bind m).map CBlockIndex.nChainTrust).getD 0 + i.GetBlockTrust
  stake : ∀ p i, m p = some i → i.fProofOfStake = false →
    i.prevoutStake = COutPoint.null ∧ i.nStakeTime = 0

def Scans (disk : Content DbKey.Val) (records : List CDiskBlockIndex) : Prop :=
  ∃ keys : List UInt256, keys.Nodup ∧
    (∀ key, key ∈ keys ↔ disk (.blockindex key) ≠ none) ∧
    records.map some = keys.map fun key => disk (.blockindex key)

variable {records : List CDiskBlockIndex}

theorem Scans.congr {disk disk' : Content DbKey.Val} (h : Scans disk records)
    (heq : ∀ key, disk (.blockindex key) = disk' (.blockindex key)) :
    Scans disk' records := by
  obtain ⟨keys, hnd, hkeys, hrecords⟩ := h
  refine ⟨keys, hnd, fun key => ?_, ?_⟩
  · rw [hkeys, heq]
  · rw [hrecords]
    exact List.map_congr_left fun key _ => heq key

/-- An entry after its record has been read. -/
def CBlockIndex.filled (i : CBlockIndex) : CBlockIndex := { i with nChainTrust := 0, nSequenceId := 0 }

/-- An entry after its trust has been computed. -/
def CBlockIndex.restored (i : CBlockIndex) : CBlockIndex := { i with nSequenceId := 0 }

variable {ctx : Context} {m : UInt256 → Option CBlockIndex} {done : UInt256 → Prop} {a : IndexMap}
  {p : UInt256} {i : CBlockIndex}

/-! ## Reading the records -/

variable (hm : Marshallable ctx m)
include hm

theorem insertBlockIndex_link
    (ha : Filling CBlockIndex.blank (fun p => (m p).map CBlockIndex.filled) done a)
    {link : Option UInt256} (hlink : ∀ q, link = some q → m q ≠ none) :
    (InsertBlockIndex (link.getD 0) a).1 = link ∧
      Filling CBlockIndex.blank (fun p => (m p).map CBlockIndex.filled) done
        (InsertBlockIndex (link.getD 0) a).2 ∧
      ∀ p, a.lookup p ≠ none → (InsertBlockIndex (link.getD 0) a).2.lookup p ≠ none := by
  unfold InsertBlockIndex
  rcases link with _ | q
  · exact ⟨rfl, ha, fun p hp => hp⟩
  · have hq := hlink q rfl
    have hzero : (some q).getD 0 ≠ (0 : UInt256) := by
      rintro rfl
      exact hq hm.zero
    rw [if_neg hzero]
    refine ⟨rfl, ha.mention (by simpa using hq), fun p hp => ?_⟩
    show (mention CBlockIndex.blank a q).lookup p ≠ none
    by_cases heq : p = q
    · rw [heq, lookup_mention]
      simp
    · rwa [lookup_mention_ne _ _ heq]

theorem fill_blank (hp : m p = some i) :
    (CDiskBlockIndex.of i).unserialize.fill i.pprev i.pnext CBlockIndex.blank = i.filled := by
  unfold CDiskBlockIndex.unserialize
  rcases hstake : i.fProofOfStake with _ | _
  · obtain ⟨hprev, htime⟩ := hm.stake p i hp hstake
    rw [if_neg (by simp [CDiskBlockIndex.of, hstake])]
    unfold CDiskBlockIndex.fill CDiskBlockIndex.of CBlockIndex.filled CBlockIndex.blank
    rw [← hprev, ← htime]
  · have hstor : (CDiskBlockIndex.of i).fProofOfStake = true := hstake
    rw [if_pos hstor]
    rfl

theorem loadRecord_eq_ok
    (ha : Filling CBlockIndex.blank (fun p => (m p).map CBlockIndex.filled) done a)
    (hp : m p = some i) (hnew : ¬done p) :
    ∃ a', loadRecord ctx a (CDiskBlockIndex.of i) = .ok a' ∧
      Filling CBlockIndex.blank (fun p => (m p).map CBlockIndex.filled)
        (fun q => q = p ∨ done q) a' := by
  obtain ⟨record, hrec⟩ : ∃ record, record = (CDiskBlockIndex.of i).unserialize := ⟨_, rfl⟩
  have hparts : record.GetBlockHash ctx = p ∧ record.hashPrev = i.pprev.getD 0 ∧
      record.hashNext = i.pnext.getD 0 := by
    rw [hrec]
    unfold CDiskBlockIndex.unserialize
    split <;> exact ⟨hm.hash p i hp, rfl, rfl⟩
  have hknown : ∀ q, some p = some q → m q ≠ none := by
    intro q hq
    cases hq
    simp [hp]
  have hprev : ∀ q, i.pprev = some q → m q ≠ none := by
    intro q hq
    obtain ⟨j, hj, -⟩ := hm.prev p i q hp hq
    simp [hj]
  obtain ⟨hself, ha₁, -⟩ := insertBlockIndex_link hm ha hknown
  have hent : (InsertBlockIndex p a).2.lookup p ≠ none := by
    have hzero : p ≠ 0 := by
      rintro rfl
      exact absurd (hm.zero.symm.trans hp) (by simp)
    unfold InsertBlockIndex
    rw [if_neg hzero]
    rw [lookup_mention]
    simp
  obtain ⟨hprevEq, ha₂, hkeep₂⟩ := insertBlockIndex_link hm ha₁ hprev
  obtain ⟨hnextEq, ha₃, hkeep₃⟩ := insertBlockIndex_link hm ha₂ fun q hq => hm.next p i q hp hq
  rw [Option.getD_some] at hself ha₂ hprevEq hkeep₂ ha₃ hnextEq hkeep₃
  -- The entry of the block is there, and is blank, since its record has not been read before.
  have hblank := (ha₃.unfilled p hnew).resolve_left (hkeep₃ p (hkeep₂ p hent))
  refine ⟨_, ?_, ha₃.insert (show (m p).map CBlockIndex.filled = some i.filled by rw [hp]; rfl)⟩
  unfold loadRecord
  rw [← hrec]
  dsimp only
  rw [hparts.1, hparts.2.1, hparts.2.2, hself, hprevEq, hnextEq, Option.bind_some, hblank.1,
    hrec]
  dsimp only [Option.map_some]
  rw [fill_blank hm hp]

theorem loadRecords_eq_ok {keys : List UInt256}
    (ha : Filling CBlockIndex.blank (fun p => (m p).map CBlockIndex.filled) done a)
    (hkeys : ∀ p ∈ keys, m p ≠ none ∧ ¬done p) (hnd : keys.Nodup)
    (hrecords : records.map some = keys.map fun p => (m p).map CDiskBlockIndex.of) :
    ∃ a', records.foldlM (loadRecord ctx) a = .ok a' ∧
      Filling CBlockIndex.blank (fun p => (m p).map CBlockIndex.filled)
        (fun q => q ∈ keys ∨ done q) a' := by
  induction keys generalizing records done a with
  | nil =>
    obtain rfl := List.map_eq_nil_iff.mp hrecords
    refine ⟨a, rfl, ?_⟩
    simpa using ha
  | cons p keys ih =>
    obtain ⟨hknown, hnew⟩ := hkeys p List.mem_cons_self
    obtain ⟨i, hi⟩ := Option.ne_none_iff_exists'.mp hknown
    obtain ⟨hfresh, hnd⟩ := List.nodup_cons.mp hnd
    rcases records with _ | ⟨record, records⟩
    · simp at hrecords
    rw [List.map_cons, List.map_cons, hi] at hrecords
    obtain ⟨hrec, hrest⟩ := List.cons.inj hrecords
    cases hrec
    obtain ⟨a₁, hload, ha₁⟩ := loadRecord_eq_ok hm ha hi hnew
    have hlater : ∀ q ∈ keys, m q ≠ none ∧ ¬(q = p ∨ done q) := by
      intro q hq
      obtain ⟨hknown', hnew'⟩ := hkeys q (List.mem_cons_of_mem _ hq)
      refine ⟨hknown', ?_⟩
      rintro (rfl | hdone)
      · exact hfresh hq
      · exact hnew' hdone
    obtain ⟨a', hfold, ha'⟩ := ih ha₁ hlater hnd hrest
    refine ⟨a', ?_, fun q hq => ha'.final q ?_, fun q hq => ha'.unfilled q ?_⟩
    · rw [List.foldlM_cons, hload]
      exact hfold
    · simpa [or_assoc, or_left_comm] using hq
    · simpa [or_assoc, or_left_comm] using hq

omit hm

/-! ## Computing the trusts -/

def Trusted (m : UInt256 → Option CBlockIndex) (done : UInt256 → Prop) (a : IndexMap) : Prop :=
  ∀ p, (done p → a.lookup p = (m p).map CBlockIndex.restored) ∧
    (¬done p → a.lookup p = (m p).map CBlockIndex.filled)

theorem Trusted.addTrust (hm : Marshallable ctx m) (ha : Trusted m done a) (hp : m p = some i)
    (hnew : ¬done p) (hprev : ∀ q, i.pprev = some q → done q) :
    Trusted m (fun q => q = p ∨ done q) (addTrust a p) := by
  have hlook : a.lookup p = some i.filled := by
    rw [(ha p).2 hnew, hp]
    rfl
  have hbef : (i.filled.pprev.bind fun q => a.lookup q).map CBlockIndex.nChainTrust
      = (i.pprev.bind m).map CBlockIndex.nChainTrust := by
    show (i.pprev.bind fun q => a.lookup q).map CBlockIndex.nChainTrust = _
    rcases hq : i.pprev with _ | q
    · rfl
    · rw [Option.bind_some, Option.bind_some, (ha q).1 (hprev q hq), Option.map_map]
      rfl
  have hset : Chain.addTrust a p = a.insert p i.restored := by
    unfold Chain.addTrust
    rw [hlook]
    dsimp only
    rw [hbef]
    show a.insert p { i.filled with nChainTrust :=
      ((i.pprev.bind m).map CBlockIndex.nChainTrust).getD 0 + i.GetBlockTrust } = _
    rw [← hm.trust p i hp]
    rfl
  rw [hset]
  intro q
  by_cases heq : q = p
  · subst heq
    rw [AList.lookup_insert, hp]
    exact ⟨fun _ => rfl, fun hn => absurd (.inl rfl) hn⟩
  · rw [AList.lookup_insert_ne heq]
    exact ⟨fun hdone => (ha q).1 (hdone.resolve_left heq), fun hn => (ha q).2 fun h => hn (.inr h)⟩

theorem foldl_addTrust (hm : Marshallable ctx m) {l : List (ℕ × UInt256)}
    (hsort : l.Pairwise fun x y => x.1 ≤ y.1) (hnd : (l.map Prod.snd).Nodup)
    (hheights : ∀ x ∈ l, ∃ i, m x.2 = some i ∧ i.nHeight = x.1)
    (ha : Trusted m (fun p => p ∉ l.map Prod.snd) a) :
    ∀ p, (l.foldl (fun a item => addTrust a item.2) a).lookup p
      = (m p).map CBlockIndex.restored := by
  induction l generalizing a with
  | nil => exact fun p => (ha p).1 (by simp)
  | cons x l ih =>
    obtain ⟨hlow, hsort⟩ := List.pairwise_cons.mp hsort
    obtain ⟨hfresh, hnd⟩ := List.nodup_cons.mp hnd
    obtain ⟨i, hi, hheight⟩ := hheights x List.mem_cons_self
    have hstep := ha.addTrust hm hi (by simp) fun q hq => ?_
    · rw [List.foldl_cons]
      refine ih hsort hnd (fun y hy => hheights y (List.mem_cons_of_mem _ hy)) fun p => ?_
      refine ⟨fun hp => (hstep p).1 ?_, fun hp => (hstep p).2 ?_⟩
      · by_cases heq : p = x.2
        · exact .inl heq
        · refine .inr ?_
          rw [List.map_cons, List.mem_cons]
          exact not_or.mpr ⟨heq, hp⟩
      · rw [not_not] at hp
        rintro (rfl | hn)
        · exact hfresh hp
        · exact hn (List.mem_cons_of_mem _ hp)
    · -- The block before is lower, so that it comes neither here nor later.
      obtain ⟨j, hj, hlt⟩ := hm.prev x.2 i q hi hq
      intro hmem
      obtain ⟨y, hy, rfl⟩ := List.mem_map.mp hmem
      obtain ⟨j', hj', hheight'⟩ := hheights y hy
      obtain rfl := Option.mem_unique hj hj'
      rcases List.mem_cons.mp hy with rfl | hy
      · omega
      · have hle := hlow y hy
        omega

theorem lookup_addTrusts (hm : Marshallable ctx m)
    (ha : ∀ p, a.lookup p = (m p).map CBlockIndex.filled) (p : UInt256) :
    (addTrusts a).lookup p = (m p).map CBlockIndex.restored := by
  obtain ⟨l, hl⟩ : ∃ l, l = (a.entries.map fun item => (item.2.nHeight, item.1)).insertionSort
      fun x y => x.1 ≤ y.1 := ⟨_, rfl⟩
  have hperm : l.Perm (a.entries.map fun item => (item.2.nHeight, item.1)) := by
    rw [hl]
    exact List.perm_insertionSort _ _
  have hkeys : (l.map Prod.snd).Perm a.keys := by
    refine (hperm.map Prod.snd).trans ?_
    rw [List.map_map]
    exact List.Perm.refl _
  have hmem : ∀ p, p ∈ l.map Prod.snd ↔ m p ≠ none := by
    intro p
    rw [hkeys.mem_iff, ← AList.mem_keys, ← AList.lookup_isSome, ha p]
    rcases m p with _ | j <;> simp
  unfold addTrusts
  rw [← hl]
  refine foldl_addTrust hm ?_ (hkeys.nodup_iff.mpr a.keys_nodup) (fun x hx => ?_) (fun q => ?_) p
  · rw [hl]
    have htotal : Std.Total fun x y : ℕ × UInt256 => x.1 ≤ y.1 := ⟨fun x y => Nat.le_total x.1 y.1⟩
    have htrans : IsTrans (ℕ × UInt256) fun x y => x.1 ≤ y.1 := ⟨fun x y z => Nat.le_trans⟩
    exact List.pairwise_insertionSort _ _
  · obtain ⟨item, hitem, rfl⟩ := List.mem_map.mp (hperm.mem_iff.mp hx)
    have hlook : a.lookup item.1 = some item.2 := AList.mem_lookup_iff.mpr hitem
    rw [ha] at hlook
    obtain ⟨i, hi, hfilled⟩ := Option.map_eq_some_iff.mp hlook
    refine ⟨i, hi, ?_⟩
    rw [← hfilled]
    rfl
  · refine ⟨fun hq => ?_, fun _ => ha q⟩
    have hnone : m q = none := not_not.mp fun hne => hq ((hmem q).mpr hne)
    rw [ha, hnone]
    rfl

/-! ## Loading -/

theorem loadBest_eq_ok {s : NodeState} {tip : UInt256} (hread : s.txdb.read .hashBestChain = some tip)
    {best : CBlockIndex} (hbest : s.mapBlockIndex tip = some best) :
    ∃ s', loadBest s = (.ok true, s') ∧ s'.mapBlockIndex = s.mapBlockIndex ∧
      s'.pindexBest = some tip ∧ s'.hashBestChain = tip ∧ s'.txdb = s.txdb := by
  unfold loadBest
  rw [Action.bind_of_ok (show _ = (Except.ok (some tip), s) by rw [Action.reading_apply, hread])]
  dsimp only
  rw [Action.bind_of_ok (Action.modify_apply _ s)]
  rw [Action.bind_of_ok (show _ = (Except.ok best, { s with hashBestChain := tip }) by
    rw [Action.reading_apply]
    rw [hbest])]
  exact ⟨_, rfl, rfl, rfl, rfl, rfl⟩

/-- The index that is loaded is the one that was written. -/
theorem loadIndex_eq_ok {s : NodeState} {tip : UInt256} (hm : Marshallable ctx m)
    (hdisk : ∀ p, s.txdb.disk (.blockindex p) = (m p).map CDiskBlockIndex.of)
    (hbest : s.txdb.disk .hashBestChain = some tip) (htip : m tip ≠ none)
    (hclosed : s.txdb.activeBatch = none) (hscans : Scans s.txdb.disk records) :
    ∃ s', loadIndex ctx records s = (.ok true, s') ∧
      s'.mapBlockIndex = (fun p => (m p).map CBlockIndex.restored) ∧
      s'.pindexBest = some tip ∧ s'.hashBestChain = tip ∧ s'.txdb = s.txdb := by
  obtain ⟨keys, hnd, hkeys, hrecords⟩ := hscans
  have hknown : ∀ p, p ∈ keys ↔ m p ≠ none := by
    intro p
    rw [hkeys, hdisk]
    simp
  have hrecords' : records.map some = keys.map fun p => (m p).map CDiskBlockIndex.of := by
    rw [hrecords]
    exact List.map_congr_left fun p _ => hdisk p
  obtain ⟨a, hload, ha⟩ := loadRecords_eq_ok hm (filling_empty _ _)
    (fun p hp => ⟨(hknown p).mp hp, id⟩) hnd hrecords'
  have hfilled : ∀ p, a.lookup p = (m p).map CBlockIndex.filled := by
    intro p
    refine ha.lookup_eq (fun q hq => .inl ((hknown q).mpr ?_)) p
    simpa using hq
  have hrestored := funext (lookup_addTrusts hm hfilled)
  have hread : s.txdb.read .hashBestChain = some tip := by
    unfold Store.read
    rw [hclosed]
    exact hbest
  obtain ⟨best, hbestEq⟩ := Option.ne_none_iff_exists'.mp htip
  have hent : (addTrusts a).lookup tip = some best.restored := by
    rw [lookup_addTrusts hm hfilled, hbestEq]
    rfl
  unfold loadIndex
  rw [Action.bind_of_ok (show _ = (Except.ok a, s) by rw [Action.reading_apply, hload]),
    Action.bind_of_ok (Action.modify_apply _ s)]
  obtain ⟨s', hrun, hidx, hpindex, hhash, htxdb⟩ := @loadBest_eq_ok
    { s with
      mapBlockIndex := fun p => (addTrusts a).lookup p
      pindexGenesisBlock :=
        if records.any fun record => record.GetBlockHash ctx == ctx.hashGenesisBlock then
          some ctx.hashGenesisBlock
        else none } tip hread best.restored hent
  exact ⟨s', hrun, hidx.trans hrestored, hpindex, hhash, htxdb⟩

end ZalemCoin.Chain
