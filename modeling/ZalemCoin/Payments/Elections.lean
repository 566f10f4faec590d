import Mathlib.Algebra.Order.Monoid.Unbundled.WithTop
import ZalemCoin.Lib.FirstSeen
import ZalemCoin.Payments.Winners

/-!
# A node holds an election for every height

The winner of a height is elected among the announcements that a node takes: the first announcement
with a hash counts, and the one with the highest score stays, the earlier one between equal scores.
An announcement for another height is no candidate, but its hash counts as seen all the same.
-/

namespace ZalemCoin.Payments

open Chain Lib

variable {ctx : Context} {s s' : State} {winner winnerIn : CFloatingcityPaymentWinner} {h : ℤ}

/-! ## The list of winners -/

def winnerAt (l : List CFloatingcityPaymentWinner) (h : ℤ) : Option CFloatingcityPaymentWinner :=
  l.find? fun winner => winner.nBlockHeight == h

def OnePerHeight (l : List CFloatingcityPaymentWinner) : Prop :=
  (l.map CFloatingcityPaymentWinner.nBlockHeight).Nodup

theorem winnerAt_cons (l : List CFloatingcityPaymentWinner) :
    winnerAt (winner :: l) h = if winner.nBlockHeight = h then some winner else winnerAt l h := by
  unfold winnerAt
  rw [List.find?_cons]
  by_cases heq : winner.nBlockHeight = h
  · rw [if_pos heq]
    simp [heq]
  · rw [if_neg heq, beq_eq_false_iff_ne.mpr heq]

def enter (winnerIn : CFloatingcityPaymentWinner) (l : List CFloatingcityPaymentWinner) :
    List CFloatingcityPaymentWinner :=
  match replaceWinner winnerIn l with
  | some l' => l'
  | none => if l.any fun winner => winner.nBlockHeight == winnerIn.nBlockHeight then l
    else l ++ [winnerIn]

variable {l : List CFloatingcityPaymentWinner}

theorem replaceWinner_eq_none (hl : ∀ winner ∈ l, winner.nBlockHeight ≠ winnerIn.nBlockHeight) :
    replaceWinner winnerIn l = none := by
  induction l with
  | nil => rfl
  | cons winner l ih =>
    unfold replaceWinner
    rw [if_neg fun hc => hl winner List.mem_cons_self hc.1,
      ih fun w hw => hl w (List.mem_cons_of_mem _ hw)]
    rfl

theorem enter_cons_of_ne (l : List CFloatingcityPaymentWinner)
    (hne : winner.nBlockHeight ≠ winnerIn.nBlockHeight) :
    enter winnerIn (winner :: l) = winner :: enter winnerIn l := by
  have hnone : (winner.nBlockHeight == winnerIn.nBlockHeight) = false := by simpa using hne
  unfold enter
  conv_lhs => unfold replaceWinner
  rw [if_neg fun hc => hne hc.1, List.any_cons, hnone, Bool.false_or]
  rcases replaceWinner winnerIn l with _ | l'
  · simp only [Option.map_none]
    split <;> rfl
  · rfl

theorem enter_cons_of_eq (heq : winner.nBlockHeight = winnerIn.nBlockHeight)
    (hl : ∀ w ∈ l, w.nBlockHeight ≠ winnerIn.nBlockHeight) :
    enter winnerIn (winner :: l)
      = (if winner.score < winnerIn.score then winnerIn else winner) :: l := by
  unfold enter replaceWinner
  by_cases hlt : winner.score < winnerIn.score
  · rw [if_pos ⟨heq, hlt⟩, if_pos hlt]
    rw [heq]
  · have hsame : (winner.nBlockHeight == winnerIn.nBlockHeight) = true := by simpa using heq
    rw [if_neg fun hc => hlt hc.2, if_neg hlt, replaceWinner_eq_none hl]
    simp [hsame]

/-- Entering a winner changes its height only, where the higher score stays. -/
theorem enter_spec (hl : OnePerHeight l) :
    OnePerHeight (enter winnerIn l) ∧
      (∀ n ∈ (enter winnerIn l).map CFloatingcityPaymentWinner.nBlockHeight,
        n ∈ l.map CFloatingcityPaymentWinner.nBlockHeight ∨ n = winnerIn.nBlockHeight) ∧
      ∀ h, winnerAt (enter winnerIn l) h =
        if winnerIn.nBlockHeight = h then
          match winnerAt l h with
          | none => some winnerIn
          | some winner => if winner.score < winnerIn.score then some winnerIn else some winner
        else winnerAt l h := by
  induction l with
  | nil =>
    have hone : enter winnerIn [] = [winnerIn] := rfl
    rw [hone]
    refine ⟨by simp [OnePerHeight], by simp, fun h => ?_⟩
    rw [winnerAt_cons]
    rfl
  | cons winner l ih =>
    obtain ⟨hfresh, hrest⟩ := List.nodup_cons.mp hl
    by_cases heq : winner.nBlockHeight = winnerIn.nBlockHeight
    · have hothers : ∀ w ∈ l, w.nBlockHeight ≠ winnerIn.nBlockHeight := by
        intro w hw hwin
        exact hfresh (List.mem_map.mpr ⟨w, hw, hwin.trans heq.symm⟩)
      have hheight : (if winner.score < winnerIn.score then winnerIn else winner).nBlockHeight
          = winner.nBlockHeight := by
        split
        · exact heq.symm
        · rfl
      rw [enter_cons_of_eq heq hothers]
      refine ⟨?_, ?_, fun h => ?_⟩
      · unfold OnePerHeight
        rw [List.map_cons, hheight]
        exact hl
      · intro n hn
        rw [List.map_cons, hheight] at hn
        exact .inl hn
      · rw [winnerAt_cons, winnerAt_cons, hheight, heq]
        by_cases hh : winnerIn.nBlockHeight = h
        · rw [if_pos hh, if_pos hh, if_pos hh]
          dsimp only
          split <;> rfl
        · rw [if_neg hh, if_neg hh, if_neg hh]
    · obtain ⟨hnd, hheights, hat⟩ := ih hrest
      rw [enter_cons_of_ne l heq]
      refine ⟨?_, ?_, fun h => ?_⟩
      · refine List.nodup_cons.mpr ⟨fun hmem => ?_, hnd⟩
        rcases hheights _ hmem with hold | hnew
        · exact hfresh hold
        · exact heq hnew
      · intro n hn
        rcases List.mem_cons.mp hn with rfl | hn
        · exact .inl List.mem_cons_self
        · rcases hheights n hn with hold | hnew
          · exact .inl (List.mem_cons_of_mem _ hold)
          · exact .inr hnew
      · rw [winnerAt_cons, winnerAt_cons, hat h]
        by_cases hh : winner.nBlockHeight = h
        · rw [if_pos hh, if_pos hh, if_neg (fun hc => heq (hh.trans hc.symm))]
        · rw [if_neg hh, if_neg hh]

/-! ## A node holds an election for every height -/

/-- The cache of block hashes agrees with the chain. -/
def CacheOk (ctx : Context) (s : State) : Prop :=
  ∀ n hash, s.mapCacheBlockHashes n = some hash → findBlockHash ctx n = some hash

/-- What only the announcements of a node itself change. -/
def State.own (s : State) : Bool × ℤ := (s.enabled, s.nLastBlockHeight)

def scoreHash (ctx : Context) (nBlockHeight : ℤ) : Option UInt256 :=
  if ctx.chain = [] then none else findBlockHash ctx (resolveHeight ctx (nBlockHeight - 576))

def scored (ctx : Context) (winner : CFloatingcityPaymentWinner) : CFloatingcityPaymentWinner :=
  match scoreHash ctx winner.nBlockHeight with
  | none => winner
  | some blockHash => { winner with score := CalculateScore ctx blockHash winner.vin }

def electionScore (ctx : Context) (h : ℤ) (winner : CFloatingcityPaymentWinner) : WithBot ℕ :=
  if winner.nBlockHeight = h ∧ (scoreHash ctx h).isSome then ((scored ctx winner).score.toNat : ℕ)
  else ⊥

/-- Whether a node takes an announcement that is new. -/
def takes (ctx : Context) (winner : CFloatingcityPaymentWinner) : Bool :=
  ctx.synced && !ctx.chain.isEmpty && accepts ctx winner

/-- The winners of a node are those of the elections among the announcements that it has taken. -/
structure Elects (ctx : Context) (l : List CFloatingcityPaymentWinner) (s : State) : Prop where
  cache : CacheOk ctx s
  one : OnePerHeight s.vWinning
  seen : ∀ k, (s.mapSeenFloatingcityVotes k).isSome = true ↔
    k ∈ (elect (CFloatingcityPaymentWinner.GetHash ctx) (electionScore ctx 0) l).seen
  winner : ∀ h, winnerAt s.vWinning h
    = (elect (CFloatingcityPaymentWinner.GetHash ctx) (electionScore ctx h) l).best.map (scored ctx)
  recent : ∀ n ∈ s.vWinning.map CFloatingcityPaymentWinner.nBlockHeight, ctx.bestHeight - 10 ≤ n

theorem scored_eq (ctx : Context) (winner : CFloatingcityPaymentWinner) :
    ∃ score, scored ctx winner = { winner with score := score } := by
  unfold scored
  split
  · exact ⟨winner.score, rfl⟩
  · exact ⟨_, rfl⟩

@[simp]
theorem scored_nBlockHeight (ctx : Context) (winner : CFloatingcityPaymentWinner) :
    (scored ctx winner).nBlockHeight = winner.nBlockHeight := by
  obtain ⟨score, heq⟩ := scored_eq ctx winner
  rw [heq]

@[simp]
theorem scored_payee (ctx : Context) (winner : CFloatingcityPaymentWinner) :
    (scored ctx winner).payee = winner.payee := by
  obtain ⟨score, heq⟩ := scored_eq ctx winner
  rw [heq]

theorem getBlockHash_eq (hs : CacheOk ctx s) (winner : CFloatingcityPaymentWinner) :
    ∃ s', GetBlockHash ctx (winner.nBlockHeight - 576) s
        = (scoreHash ctx winner.nBlockHeight, s') ∧ CacheOk ctx s' ∧
      s'.vWinning = s.vWinning ∧
      s'.mapSeenFloatingcityVotes = s.mapSeenFloatingcityVotes ∧ s'.own = s.own := by
  unfold GetBlockHash scoreHash
  split
  · exact ⟨s, rfl, hs, rfl, rfl, rfl⟩
  · obtain ⟨n, hn⟩ : ∃ n, n = resolveHeight ctx (winner.nBlockHeight - 576) := ⟨_, rfl⟩
    rw [← hn]
    dsimp only
    rcases hcache : s.mapCacheBlockHashes n with _ | hash
    · rcases hfind : findBlockHash ctx n with _ | hash
      · exact ⟨s, rfl, hs, rfl, rfl, rfl⟩
      · refine ⟨_, rfl, fun m hash' hm => ?_, rfl, rfl, rfl⟩
        dsimp only at hm
        rw [Function.update_apply] at hm
        split at hm
        · rename_i heq
          rw [heq, hfind]
          exact hm
        · exact hs m hash' hm
    · exact ⟨s, by rw [hs _ hash hcache], hs, rfl, rfl, rfl⟩

theorem insertSeen_isSome (s : State) (winner : CFloatingcityPaymentWinner) (k : UInt256) :
    ((s.insertSeen ctx winner).mapSeenFloatingcityVotes k).isSome = true ↔
      k = winner.GetHash ctx ∨ (s.mapSeenFloatingcityVotes k).isSome = true := by
  unfold State.insertSeen
  rcases hseen : s.mapSeenFloatingcityVotes (winner.GetHash ctx) with _ | old
  · dsimp only
    rw [Function.update_apply]
    by_cases hk : k = winner.GetHash ctx
    · simp [hk]
    · simp [hk]
  · constructor
    · exact .inr
    · rintro (rfl | hk)
      · rw [hseen]
        rfl
      · exact hk

theorem addWinningFloatingcity_eq (hs : CacheOk ctx s)
    (hseen : (s.mapSeenFloatingcityVotes (winner.GetHash ctx)).isSome = true) :
    ∃ added s', AddWinningFloatingcity ctx winner s = (added, s') ∧ CacheOk ctx s' ∧
      s'.mapSeenFloatingcityVotes = s.mapSeenFloatingcityVotes ∧ s'.own = s.own ∧
      s'.vWinning = if (scoreHash ctx winner.nBlockHeight).isSome then
        enter (scored ctx winner) s.vWinning else s.vWinning := by
  obtain ⟨s₁, hget, hcache, hwinning, hseen₁, hown⟩ := getBlockHash_eq hs winner
  unfold AddWinningFloatingcity
  rw [hget]
  rcases hhash : scoreHash ctx winner.nBlockHeight with _ | blockHash
  · exact ⟨false, s₁, rfl, hcache, hseen₁, hown, hwinning⟩
  · have hscored : scored ctx winner
        = { winner with score := CalculateScore ctx blockHash winner.vin } := by
      unfold scored
      rw [hhash]
    -- The announcement is recorded already, whatever list it is entered in.
    have hrec : ∀ l, { s₁ with vWinning := l }.insertSeen ctx
        { winner with score := CalculateScore ctx blockHash winner.vin }
          = { s₁ with vWinning := l } := by
      intro l
      obtain ⟨old, hold⟩ := Option.isSome_iff_exists.mp hseen
      rw [← hseen₁] at hold
      unfold State.insertSeen
      rw [show CFloatingcityPaymentWinner.GetHash ctx
        { winner with score := CalculateScore ctx blockHash winner.vin }
          = winner.GetHash ctx from rfl]
      rw [hold]
    rw [hscored]
    unfold enter
    dsimp only
    rw [hwinning]
    simp only [Option.isSome_some, if_true]
    rcases replaceWinner { winner with score := CalculateScore ctx blockHash winner.vin }
      s.vWinning with _ | l
    · dsimp only
      split
      · exact ⟨false, s₁, rfl, hcache, hseen₁, hown, hwinning⟩
      · exact ⟨true, _, congrArg (Prod.mk true) (hrec _), hcache, hseen₁, hown, rfl⟩
    · exact ⟨true, _, congrArg (Prod.mk true) (hrec l), hcache, hseen₁, hown, rfl⟩

theorem seen_elect_eq (l : List CFloatingcityPaymentWinner) (h h' : ℤ) :
    (elect (CFloatingcityPaymentWinner.GetHash ctx) (electionScore ctx h) l).seen
      = (elect (CFloatingcityPaymentWinner.GetHash ctx) (electionScore ctx h') l).seen := by
  induction l using List.reverseRecOn with
  | nil => rfl
  | append_singleton l a ih =>
    rw [elect_append_singleton, elect_append_singleton]
    unfold Election.step
    rw [ih]
    split <;> simp [ih]

theorem level_elect (l : List CFloatingcityPaymentWinner) (h : ℤ) :
    (elect (CFloatingcityPaymentWinner.GetHash ctx) (electionScore ctx h) l).level
        (electionScore ctx h)
      = ((elect (CFloatingcityPaymentWinner.GetHash ctx) (electionScore ctx h) l).best.map
          (scored ctx)).elim (⊥ : WithBot ℕ) fun winner =>
            ((winner.score.toNat : ℕ) : WithBot ℕ) := by
  have haft := elect_after (CFloatingcityPaymentWinner.GetHash ctx) (electionScore ctx h) l
  unfold Election.level
  rcases hbest : (elect (CFloatingcityPaymentWinner.GetHash ctx) (electionScore ctx h) l).best
    with _ | winner
  · rfl
  · have hpos := (haft.elected winner hbest).2
    show electionScore ctx h winner = ((scored ctx winner).score.toNat : ℕ)
    unfold electionScore at hpos ⊢
    split at hpos
    · rw [if_pos ‹_›]
    · exact absurd hpos (lt_irrefl _)

/-- The election after an announcement that is taken. -/
theorem Elects.processMnw (hs : Elects ctx l s) (htakes : takes ctx winner = true) :
    Elects ctx (l ++ [winner]) (processMnw ctx winner s) ∧
      (processMnw ctx winner s).own = s.own := by
  obtain ⟨⟨hsynced, hchain⟩, haccepts⟩ : (ctx.synced = true ∧ ctx.chain ≠ []) ∧
      accepts ctx winner = true := by
    simpa [takes] using htakes
  unfold Payments.processMnw
  rw [if_neg (by simp [hsynced, hchain])]
  split
  · -- The hash has been seen before.
    rename_i hseen
    have hmem := (hs.seen _).mp hseen
    have hsame : ∀ h, elect (CFloatingcityPaymentWinner.GetHash ctx) (electionScore ctx h)
        (l ++ [winner])
          = elect (CFloatingcityPaymentWinner.GetHash ctx) (electionScore ctx h) l := by
      intro h
      rw [elect_append_singleton]
      unfold Election.step
      rw [seen_elect_eq l h 0, if_pos hmem]
    exact ⟨⟨hs.cache, hs.one, fun k => by rw [hsame]; exact hs.seen k,
      fun h => by rw [hsame]; exact hs.winner h, hs.recent⟩, rfl⟩
  · rename_i hfresh
    rw [if_neg (by simp [haccepts])]
    obtain ⟨s₁, hs₁⟩ : ∃ s₁, s₁ = s.insertSeen ctx winner := ⟨_, rfl⟩
    have hinsert : s₁.vWinning = s.vWinning ∧ s₁.own = s.own ∧ CacheOk ctx s₁ := by
      rw [hs₁]
      unfold State.insertSeen
      split <;> exact ⟨rfl, rfl, hs.cache⟩
    have hseen₁ : ∀ k, (s₁.mapSeenFloatingcityVotes k).isSome = true ↔
        k = winner.GetHash ctx ∨ (s.mapSeenFloatingcityVotes k).isSome = true := by
      rw [hs₁]
      exact insertSeen_isSome s winner
    rw [← hs₁]
    obtain ⟨added, s', hadd, hcache, hseen, hown, hwinning⟩ :=
      addWinningFloatingcity_eq hinsert.2.2 ((hseen₁ _).mpr (.inl rfl))
    rw [hadd]
    have hnew : ∀ h, elect (CFloatingcityPaymentWinner.GetHash ctx) (electionScore ctx h)
        (l ++ [winner]) = ⟨winner.GetHash ctx ::
          (elect (CFloatingcityPaymentWinner.GetHash ctx) (electionScore ctx h) l).seen,
          if (elect (CFloatingcityPaymentWinner.GetHash ctx) (electionScore ctx h) l).level
            (electionScore ctx h) < electionScore ctx h winner then some winner
          else (elect (CFloatingcityPaymentWinner.GetHash ctx) (electionScore ctx h) l).best⟩ := by
      intro h
      rw [elect_append_singleton]
      unfold Election.step
      rw [if_neg]
      rw [seen_elect_eq l h 0]
      exact fun hmem => hfresh ((hs.seen _).mpr hmem)
    have hlow : ctx.bestHeight - 10 ≤ winner.nBlockHeight := by
      unfold accepts at haccepts
      simp only [Bool.and_eq_true, decide_eq_true_eq] at haccepts
      omega
    rw [hinsert.1] at hwinning
    refine ⟨⟨hcache, ?_, fun k => ?_, fun h => ?_, fun n hn => ?_⟩, hown.trans hinsert.2.1⟩
    · show OnePerHeight s'.vWinning
      rw [hwinning]
      split
      · exact (enter_spec hs.one).1
      · exact hs.one
    · rw [hnew]
      show (s'.mapSeenFloatingcityVotes k).isSome = true ↔ _
      rw [hseen, hseen₁, hs.seen, List.mem_cons]
    · rw [hnew, level_elect, ← hs.winner h]
      show winnerAt s'.vWinning h = _
      rw [hwinning]
      by_cases hheight : winner.nBlockHeight = h
      · rcases hhash : scoreHash ctx h with _ | blockHash
        · -- Without a block hash, the announcement is no candidate.
          rw [hheight, hhash]
          have hbot : electionScore ctx h winner = ⊥ := by
            unfold electionScore
            rw [hhash]
            simp
          rw [hbot, if_neg not_lt_bot]
          exact hs.winner h
        · have hscore : electionScore ctx h winner = ((scored ctx winner).score.toNat : ℕ) := by
            unfold electionScore
            rw [if_pos ⟨hheight, by rw [hhash]; rfl⟩]
          rw [hheight, hhash, hscore]
          simp only [Option.isSome_some, if_true]
          rw [(enter_spec hs.one).2.2 h, if_pos (by simpa using hheight), hs.winner h]
          rcases (elect (CFloatingcityPaymentWinner.GetHash ctx) (electionScore ctx h) l).best
            with _ | old
          · show some (scored ctx winner) = Option.map (scored ctx)
              (if (⊥ : WithBot ℕ) < ((scored ctx winner).score.toNat : ℕ) then some winner else none)
            have hbot : (⊥ : WithBot ℕ) < ((scored ctx winner).score.toNat : ℕ) :=
              WithBot.bot_lt_coe _
            rw [if_pos hbot]
            rfl
          · show (if (scored ctx old).score < (scored ctx winner).score then
              some (scored ctx winner) else some (scored ctx old))
                = Option.map (scored ctx) (if (((scored ctx old).score.toNat : ℕ) : WithBot ℕ)
                  < ((scored ctx winner).score.toNat : ℕ) then some winner else some old)
            by_cases hlt : (scored ctx old).score < (scored ctx winner).score
            · rw [if_pos hlt, if_pos]
              · rfl
              · exact WithBot.coe_lt_coe.mpr (UInt64.lt_iff_toNat_lt.mp hlt)
            · rw [if_neg hlt, if_neg]
              · rfl
              · intro hlt'
                exact hlt (UInt64.lt_iff_toNat_lt.mpr (WithBot.coe_lt_coe.mp hlt'))
      · have hbot : electionScore ctx h winner = ⊥ := by
          unfold electionScore
          rw [if_neg fun hc => hheight hc.1]
        rw [hbot, if_neg not_lt_bot, ← hs.winner h]
        split
        · rw [(enter_spec hs.one).2.2 h, if_neg (by simpa using hheight)]
        · rfl
    · change n ∈ s'.vWinning.map CFloatingcityPaymentWinner.nBlockHeight at hn
      rw [hwinning] at hn
      split at hn
      · rcases (enter_spec hs.one).2.1 n hn with hold | rfl
        · exact hs.recent n hold
        · rw [scored_nBlockHeight]
          exact hlow
      · exact hs.recent n hn

end ZalemCoin.Payments
