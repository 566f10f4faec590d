import ZalemCoin.Chain.ChainSteps

/-!
# The way of a switch

In a tree of blocks, `Reorganize` finds the last common ancestor of the two tips, disconnects the
blocks of the old branch above it from the tip downwards, and connects those of the new branch
upwards. The links to the next block change after the commit only, and then lead along the new
branch.
-/

namespace ZalemCoin.Chain

open Lib

/-- The link of a block to the next block of the main chain. -/
def NodeState.next (s : NodeState) (p : UInt256) : Option UInt256 :=
  (s.mapBlockIndex p).bind CBlockIndex.pnext

/-- Every block below a tip has a link to the next block of the branch of the tip. -/
def LinksTo (s : NodeState) (tip : UInt256) : Prop :=
  ∀ a b, IsAncestor s.parent b tip → s.parent b = some a → s.next a = some b

/-! ## The search for the fork -/

section

variable {s : NodeState} {genesis : UInt256}

variable (h : BlockTree s genesis) {fuel : ℕ}
include h

theorem BlockTree.descend_isOk {n : ℕ} {p x : UInt256} (hp : s.mapBlockIndex p ≠ none)
    (hx : IsAncestor s.parent x p) (hlow : s.height x ≤ n) (hfuel : s.height p < fuel) :
    ∃ c, descend s n fuel p = .ok c ∧ IsAncestor s.parent c p ∧ s.mapBlockIndex c ≠ none := by
  induction fuel generalizing p with
  | zero => omega
  | succ fuel ih =>
    obtain ⟨i, hidx, hi⟩ := exists_index hp
    unfold descend
    rw [hidx]
    change ∃ c, (if n < i.nHeight then _ else _) = _ ∧ _
    have hheight := height_eq hi
    split
    · rename_i hhigh
      rcases hprev : i.pprev with _ | q
      · -- A block without a parent is its only ancestor, and that one is low enough.
        obtain rfl := hx.eq_of_root ((parent_eq hi).trans hprev)
        omega
      · have hpar : s.parent p = some q := (parent_eq hi).trans hprev
        have hstep := h.heights p q hpar
        have hxq : IsAncestor s.parent x q := by
          refine hx.of_ne hpar ?_
          rintro rfl
          omega
        obtain ⟨c, hc, hcq, hknown⟩ := ih (h.known p q hpar) hxq (by omega)
        exact ⟨c, hc, Relation.ReflTransGen.head hpar hcq, hknown⟩
    · exact ⟨p, rfl, IsAncestor.refl _ _, hp⟩

theorem BlockTree.findFork_isOk {a b : UInt256} (ha : s.mapBlockIndex a ≠ none)
    (hb : s.mapBlockIndex b ≠ none) (hfuel : s.height a < fuel) :
    ∃ f, findFork s fuel a b = .ok f ∧ IsAncestor s.parent f a ∧ IsAncestor s.parent f b := by
  induction fuel generalizing a b with
  | zero => omega
  | succ fuel ih =>
    unfold findFork
    split
    · rename_i heq
      exact ⟨a, rfl, IsAncestor.refl _ _, heq ▸ IsAncestor.refl _ _⟩
    · obtain ⟨i, hidx, hi⟩ := exists_index ha
      obtain ⟨longer, hidx', hlonger⟩ := exists_index hb
      have hheight := height_eq hi
      have hga := h.genesis_isAncestor ha
      have hlow : s.height genesis ≤ i.nHeight := by
        rcases hga.eq_or_lt h.heights with heq | hlt
        · rw [heq, hheight]
        · omega
      obtain ⟨c, hc, hcb, hknown⟩ := h.descend_isOk hb (h.genesis_isAncestor hb) hlow
        (show s.height b < longer.nHeight + 1 by rw [height_eq hlonger]; omega)
      obtain ⟨hclow, hkeep⟩ := descend_eq_ok hc
      rw [hidx, hidx']
      change ∃ f, (descend s i.nHeight (longer.nHeight + 1) b >>= _) = _ ∧ _
      rw [hc]
      change ∃ f, (if a = c then _ else _) = _ ∧ _
      split
      · rename_i heq
        exact ⟨a, rfl, IsAncestor.refl _ _, heq ▸ hcb⟩
      · rename_i hne
        rcases hprev : i.pprev with _ | q
        · -- The genesis block is the only one as low as itself.
          have hroot := h.root a ha ((parent_eq hi).trans hprev)
          rcases (hroot ▸ h.genesis_isAncestor hknown : IsAncestor s.parent a c).eq_or_lt
            h.heights with heq | hlt
          · exact absurd heq hne
          · omega
        · have hpar : s.parent a = some q := (parent_eq hi).trans hprev
          have hstep := h.heights a q hpar
          obtain ⟨f, hf, hfq, hfc⟩ := ih (h.known a q hpar) hknown (by omega)
          exact ⟨f, hf, Relation.ReflTransGen.head hpar hfq, hcb.trans hfc⟩

theorem BlockTree.blocksUntil_isOk {p f : UInt256} (hp : s.mapBlockIndex p ≠ none)
    (hf : IsAncestor s.parent f p) (hfuel : s.height p < fuel) :
    ∃ l, blocksUntil s f fuel p = .ok l := by
  induction fuel generalizing p with
  | zero => omega
  | succ fuel ih =>
    unfold blocksUntil
    split
    · exact ⟨[], rfl⟩
    · rename_i hne
      obtain ⟨i, hidx, hi⟩ := exists_index hp
      rw [hidx]
      simp only [bind, Except.bind]
      rcases hprev : i.pprev with _ | q
      · exact absurd (hf.eq_of_root ((parent_eq hi).trans hprev)).symm hne
      · have hpar : s.parent p = some q := (parent_eq hi).trans hprev
        have hstep := h.heights p q hpar
        obtain ⟨l, hl⟩ := ih (h.known p q hpar) (hf.of_ne hpar (Ne.symm hne)) (by omega)
        refine ⟨p :: l, ?_⟩
        simp only [hl]
        rfl

theorem BlockTree.findSwitch_isOk {tip new : UInt256}
    (htip : s.mapBlockIndex tip ≠ none) (hnew : s.mapBlockIndex new ≠ none)
    (hbest : s.pindexBest = some tip) :
    ∃ pfork switch, findSwitch s new = .ok switch ∧ IsFork s.parent pfork tip new ∧
      Segment s.parent tip switch.vDisconnect pfork ∧
      Segment s.parent new switch.vConnect pfork := by
  obtain ⟨i, hidx, hi⟩ := exists_index htip
  obtain ⟨j, hidx', hj⟩ := exists_index hnew
  have hfuel : s.height tip < i.nHeight + 1 := by rw [height_eq hi]; omega
  have hfuel' : s.height new < j.nHeight + 1 := by rw [height_eq hj]; omega
  obtain ⟨f, hf, hleft, hright⟩ := h.findFork_isOk htip hnew hfuel
  obtain ⟨vDisconnect, hdis⟩ := h.blocksUntil_isOk htip hleft hfuel
  obtain ⟨vConnect, hcon⟩ := h.blocksUntil_isOk hnew hright hfuel'
  refine ⟨f, ⟨vDisconnect, vConnect⟩, ?_, ⟨hleft, hright, findFork_eq_ok h.heights hf⟩,
    blocksUntil_eq_ok hdis, blocksUntil_eq_ok hcon⟩
  unfold findSwitch
  rw [hbest, hidx, hidx', Option.getD_some]
  change (findFork s (i.nHeight + 1) tip new >>= _) = _
  rw [hf]
  change (blocksUntil s f (i.nHeight + 1) tip >>= _) = _
  rw [hdis]
  change (blocksUntil s f (j.nHeight + 1) new >>= _) = _
  rw [hcon]
  rfl

end

/-! ## The links -/

section

variable {s s' : NodeState}

theorem next_congr {p : UInt256} (h : (s'.mapBlockIndex p).map CBlockIndex.pnext
    = (s.mapBlockIndex p).map CBlockIndex.pnext) : s'.next p = s.next p := by
  have hjoin (m : Option CBlockIndex) :
      m.bind CBlockIndex.pnext = (m.map CBlockIndex.pnext).join := by
    cases m <;> rfl
  unfold NodeState.next
  rw [hjoin, hjoin, h]

theorem ConnectFrame.next_eq {touched : UInt256 → Prop} (h : ConnectFrame touched s s') :
    s'.next = s.next := by
  funext p
  have hcomp (m : Option CBlockIndex) : m.map CBlockIndex.pnext
      = (m.map fun i => { i with nMint := 0, nMoneySupply := 0 }).map CBlockIndex.pnext := by
    rw [Option.map_map]
    rfl
  apply next_congr
  rw [hcomp, hcomp (s.mapBlockIndex p), h.index_touched p]

theorem setNext_next {q : UInt256} {pnext : Option UInt256}
    (h : setNext (some q) pnext s = (.ok (), s')) :
    s'.parent = s.parent ∧ ∀ p, s'.next p = if p = q then pnext else s.next p := by
  obtain ⟨i, hi, h⟩ := Action.reading_bind_eq_ok.mp h
  cases h
  have hi := index_eq_ok.mp hi
  have hset (p : UInt256) : (s.setIndex q { i with pnext := pnext }).mapBlockIndex p
      = if p = q then some { i with pnext := pnext } else s.mapBlockIndex p :=
    Function.update_apply _ _ _ _
  refine ⟨funext fun p => ?_, fun p => ?_⟩
  · show ((s.setIndex q { i with pnext := pnext }).mapBlockIndex p).bind _ = _
    rw [hset]
    split
    · rename_i hp
      rw [hp, parent_eq hi]
      rfl
    · rfl
  · show ((s.setIndex q { i with pnext := pnext }).mapBlockIndex p).bind _ = _
    rw [hset]
    split <;> rfl

theorem forM_linkPrev_next {pnext : UInt256 → Option UInt256} {l : List UInt256}
    (h : l.forM (linkPrev pnext) s = (.ok (), s')) :
    s'.parent = s.parent ∧
      ∀ p v, (∀ x ∈ l, s.parent x = some p → pnext x = v) →
        s'.next p = if ∃ x ∈ l, s.parent x = some p then v else s.next p := by
  induction l generalizing s with
  | nil =>
    cases h
    exact ⟨rfl, fun p v _ => by simp⟩
  | cons x l ih =>
    obtain ⟨t, hone, hrest⟩ := Action.forM_cons_eq_ok.mp h
    obtain ⟨hparents, hnexts⟩ := ih hrest
    obtain ⟨i, hi, hone⟩ := Action.reading_bind_eq_ok.mp hone
    have hpar := parent_eq (index_eq_ok.mp hi)
    rcases hprev : i.pprev with _ | q
    · rw [hprev] at hone hpar
      cases hone
      refine ⟨hparents, fun p v hv => ?_⟩
      rw [hnexts p v fun y hy => hv y (List.mem_cons_of_mem _ hy)]
      simp [hpar]
    · rw [hprev] at hone hpar
      obtain ⟨hsame, hset⟩ := setNext_next hone
      refine ⟨hparents.trans hsame, fun p v hv => ?_⟩
      rw [hsame] at hnexts
      rw [hnexts p v fun y hy => hv y (List.mem_cons_of_mem _ hy), hset]
      by_cases hp : p = q
      · subst hp
        have hx := hv x List.mem_cons_self hpar
        simp [hpar, hx]
      · simp [hpar, Ne.symm hp, hp]

theorem LinksTo.congr {tip : UInt256} (h : LinksTo s tip) (hnext : s'.next = s.next)
    (hpar : s'.parent = s.parent) : LinksTo s' tip := by
  intro a b hb hab
  rw [hpar] at hb hab
  rw [hnext]
  exact h a b hb hab

end

/-! ## The switch -/

section

variable {ctx : Context} {env : Env} {s s' t : NodeState} {genesis tip new pfork : UInt256}
  {switch : Switch} {switched : Switched}

theorem switchBlocks_next (ctx : Context) (env : Env) (s : NodeState) (new : UInt256) :
    (switchBlocks ctx env new s).2.next = s.next ∧
      (switchBlocks ctx env new s).2.parent = s.parent := by
  have hkeeps : KeepsFrame (fun _ => True) (switchBlocks ctx env new) := by
    refine KeepsFrame.bind (KeepsFrame.reading _) fun switch => ?_
    refine KeepsFrame.bind (keepsFrame_disconnectBranch _ _) fun vResurrect => ?_
    refine KeepsFrame.bind (fun u => ?_) fun vDelete => ?_
    · exact (keepsFrame_connectBranch _ _ u).mono fun _ _ => trivial
    · exact KeepsFrame.bind (KeepsFrame.perform _) fun _ => KeepsFrame.pure _
  exact ⟨(hkeeps s).next_eq, (hkeeps s).samePlace.parent_eq⟩

theorem reorganize_eq (h : findSwitch s new = .ok switch) :
    Reorganize ctx env new s =
      (disconnectBranch ctx switch.vDisconnect [] >>= fun vResurrect =>
        connectBranch ctx env switch.vConnect.reverse [] >>= fun vDelete =>
          WriteHashBestChain new >>= fun _ =>
            finishSwitch ctx env ⟨switch, vResurrect, vDelete⟩) s := by
  unfold Reorganize switchBlocks
  simp only [Action.bind_assoc]
  rw [Action.bind_apply, Action.reading_apply, h]
  rfl

theorem switchBlocks_switch (h : findSwitch s new = .ok switch)
    (hblocks : switchBlocks ctx env new s = (.ok switched, t)) : switched.toSwitch = switch := by
  obtain ⟨switch', hsw, hblocks⟩ := Action.reading_bind_eq_ok.mp hblocks
  obtain rfl := Except.ok.inj (h.symm.trans hsw)
  obtain ⟨vResurrect, t₁, -, hblocks⟩ := Action.bind_eq_ok.mp hblocks
  obtain ⟨vDelete, t₂, -, hblocks⟩ := Action.bind_eq_ok.mp hblocks
  obtain ⟨⟨⟩, t₃, -, hblocks⟩ := Action.bind_eq_ok.mp hblocks
  rw [← Except.ok.inj (Prod.mk.inj hblocks).1]

theorem finishSwitch_next (hchildren : ∀ x ∈ switched.vConnect, ∀ y ∈ switched.vConnect, ∀ p,
      t.parent x = some p → t.parent y = some p → x = y)
    (h : finishSwitch ctx env switched t = (.ok (), s')) :
    s'.parent = t.parent ∧
      (∀ x ∈ switched.vConnect, ∀ p, t.parent x = some p → s'.next p = some x) ∧
      ∀ p, (∀ x ∈ switched.vConnect, t.parent x ≠ some p) →
        s'.next p = if ∃ x ∈ switched.vDisconnect, t.parent x = some p then none
          else t.next p := by
  obtain ⟨⟨⟩, t₁, hcom, h⟩ := Action.bind_eq_ok.mp h
  obtain ⟨⟨⟩, t₂, hunlink, h⟩ := Action.bind_eq_ok.mp h
  obtain ⟨⟨⟩, t₃, hlink, hpool⟩ := Action.bind_eq_ok.mp h
  obtain rfl := txnCommit_eq_ok hcom
  obtain ⟨hpar₂, hnext₂⟩ := forM_linkPrev_next hunlink
  obtain ⟨hpar₃, hnext₃⟩ := forM_linkPrev_next hlink
  have hidx : s'.mapBlockIndex = t₃.mapBlockIndex :=
    (congrArg Prod.fst ((keepsChain_updateMempool ctx env _ _).of_eq hpool) :)
  have hpar : s'.parent = t₃.parent := by
    unfold NodeState.parent
    rw [hidx]
  have hnext : s'.next = t₃.next := by
    unfold NodeState.next
    rw [hidx]
  rw [hpar₂] at hpar₃ hnext₃
  refine ⟨hpar.trans hpar₃, fun x hx p hxp => ?_, fun p hp => ?_⟩
  · rw [hnext, hnext₃ p (some x) fun y hy hyp => congrArg some
      (hchildren y (List.mem_reverse.mp hy) x hx p hyp hxp)]
    exact if_pos ⟨x, List.mem_reverse.mpr hx, hxp⟩
  · rw [hnext, hnext₃ p none fun y hy hyp => absurd hyp (hp y (List.mem_reverse.mp hy)),
      if_neg (by rintro ⟨y, hy, hyp⟩; exact hp y (List.mem_reverse.mp hy) hyp)]
    exact hnext₂ p none fun _ _ _ => rfl

theorem BlockTree.linksTo_finishSwitch (h : BlockTree s genesis)
    (hfork : IsFork s.parent pfork tip new) (hdis : Segment s.parent tip switched.vDisconnect pfork)
    (hcon : Segment s.parent new switched.vConnect pfork) (hlinks : LinksTo s tip)
    (hnext : t.next = s.next) (hpar : t.parent = s.parent)
    (hfin : finishSwitch ctx env switched t = (.ok (), s')) :
    LinksTo s' new ∧ ∀ d ∈ switched.vDisconnect, ∀ a, s.parent d = some a → s'.next a ≠ some d := by
  have hheights := h.heights
  -- Two blocks of one branch with the same parent are equally high, and so the same block.
  have hchildren : ∀ x ∈ switched.vConnect, ∀ y ∈ switched.vConnect, ∀ p,
      t.parent x = some p → t.parent y = some p → x = y := by
    intro x hx y hy p hxp hyp
    rw [hpar] at hxp hyp
    refine (hcon.isAncestor_of_mem hx).eq_of_height_eq hheights (hcon.isAncestor_of_mem hy) ?_
    rw [hheights x p hxp, hheights y p hyp]
  obtain ⟨hpar', hchild, hother⟩ := finishSwitch_next hchildren hfin
  rw [hpar] at hpar' hchild hother
  -- A block that is connected was not on the old branch.
  have hnew : ∀ x ∈ switched.vConnect, ¬IsAncestor s.parent x tip := by
    intro x hx hxtip
    have hlt := hcon.lt_of_mem hheights hx
    rcases (hfork.last x hxtip (hcon.isAncestor_of_mem hx)).eq_or_lt hheights with rfl | hlow <;>
      omega
  refine ⟨fun a b hb hab => ?_, fun d hd a hda hnexta => ?_⟩
  · rw [hpar'] at hb hab
    by_cases hmem : b ∈ switched.vConnect
    · exact hchild b hmem a hab
    · -- The block is at the fork or below it, so that its parent is no parent of a block above.
      have hbfork := hcon.isAncestor_of_not_mem hb hmem
      have hstep := hheights b a hab
      have hlow : s.height b ≤ s.height pfork := by
        rcases hbfork.eq_or_lt hheights with rfl | hlt <;> omega
      rw [hother a fun x hx hxa => ?_, if_neg ?_, hnext]
      · exact hlinks a b (hfork.left.trans hbfork) hab
      · rintro ⟨x, hx, hxa⟩
        have hhigh := hdis.lt_of_mem hheights hx
        have hstep' := hheights x a hxa
        omega
      · have hhigh := hcon.lt_of_mem hheights hx
        have hstep' := hheights x a hxa
        omega
  · by_cases hex : ∃ x ∈ switched.vConnect, s.parent x = some a
    · obtain ⟨x, hx, hxa⟩ := hex
      rw [hchild x hx a hxa] at hnexta
      obtain rfl := Option.some.inj hnexta
      exact hnew x hx (hdis.isAncestor_of_mem hd)
    · rw [hother a fun x hx hxa => hex ⟨x, hx, hxa⟩, if_pos ⟨d, hd, hda⟩] at hnexta
      simp at hnexta

end

/-! ## A fork of two blocks -/

def forkedBlock (id : UInt32) : CBlock :=
  plainBlock id (if id = 1 then 0 else 1) (BitVec.ofNat 256 (10 * id.toNat))
    [plainTx (10 * id) [coinbaseInput] [payTo COIN]]

def forkedContext : Context :=
  plainContext (BlockFiles.ofBlocks
    (fun nFile => if nFile = 1 ∨ nFile = 2 ∨ nFile = 3 then some (forkedBlock nFile) else none)
    (by
      intro nFile block h
      split at h
      · rename_i hfile
        cases h
        rcases hfile with rfl | rfl | rfl <;> decide
      · simp at h)) 1 true

/-- A node whose best block is the first one of the two, with a transaction of the database
open. -/
def forkedNode : NodeState :=
  { emptyNode with
    mapBlockIndex := fun p =>
      if p = 1 then some { plainIndex 1 0 none (forkedBlock 1) with pnext := some 2 }
      else if p = 2 then some (plainIndex 2 1 (some 1) (forkedBlock 2))
      else if p = 3 then some (plainIndex 3 1 (some 1) (forkedBlock 3))
      else none
    pindexGenesisBlock := some 1
    pindexBest := some 2
    hashBestChain := 2
    nBestHeight := 1
    txdb := ⟨fun _ => none, some []⟩ }

theorem forkedNode_parent (p : UInt256) :
    forkedNode.parent p = if p = 2 ∨ p = 3 then some 1 else none := by
  show (if p = 1 then _ else _ : Option CBlockIndex).bind CBlockIndex.pprev = _
  by_cases h1 : p = 1
  · rw [h1]
    rfl
  · by_cases h2 : p = 2
    · rw [h2]
      rfl
    · by_cases h3 : p = 3
      · rw [h3]
        rfl
      · rw [if_neg h1, if_neg h2, if_neg h3, if_neg (not_or.mpr ⟨h2, h3⟩)]
        rfl

theorem forkedNode_tree : BlockTree forkedNode 1 where
  low := rfl
  heights p q hpq := by
    rw [forkedNode_parent] at hpq
    split at hpq
    · rename_i hp
      cases hpq
      rcases hp with rfl | rfl <;> rfl
    · simp at hpq
  known p q hpq := by
    rw [forkedNode_parent] at hpq
    split at hpq
    · cases hpq
      exact Option.some_ne_none _
    · simp at hpq
  root p hp hroot := by
    rw [forkedNode_parent] at hroot
    by_contra hne
    refine hp (show (if p = 1 then _ else _) = none from ?_)
    simp only [ite_eq_right_iff, reduceCtorEq, imp_false, not_or] at hroot
    rw [if_neg hne, if_neg hroot.1, if_neg hroot.2]

theorem forkedNode_links : LinksTo forkedNode 2 := by
  intro a b hb hab
  rw [forkedNode_parent] at hab
  split at hab
  · rename_i hchild
    cases hab
    rcases hchild with rfl | rfl
    · rfl
    · -- The other block is no ancestor of the best one, since it is as high.
      have hne : (3 : UInt256) ≠ 2 := by decide
      rcases hb.eq_or_lt forkedNode_tree.heights with heq | hlt
      · exact absurd heq hne
      · exact absurd hlt (by decide)
  · simp at hab

end ZalemCoin.Chain
