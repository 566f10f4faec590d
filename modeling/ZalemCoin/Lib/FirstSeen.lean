import Mathlib.Data.List.Perm.Basic
import Mathlib.Data.List.Induction
import Mathlib.Order.WithBot

/-!
# Elections among messages that arrive in some order

Messages arrive one after the other. Of the messages with one key, only the first counts. Of those
that count, the one with the highest score is elected; between equal scores the earlier one stays. A
message with the lowest score of all is not a candidate, but its key is taken all the same. Who is
elected may depend on the order: the messages that some order elects are described by `CanWin`, and
`CanStayEmpty` says when some order elects nobody.
-/

namespace ZalemCoin.Lib

variable {α κ σ : Type*} [DecidableEq κ] [LinearOrder σ]

/-- The keys that have been seen, and the message that is elected so far. -/
structure Election (α κ : Type*) where
  seen : List κ
  best : Option α

/-- The score of the elected message, and the lowest one when nobody is elected. -/
def Election.level (score : α → WithBot σ) (e : Election α κ) : WithBot σ := e.best.elim ⊥ score

variable (key : α → κ) (score : α → WithBot σ)

/-- A message arrives. -/
def Election.step (e : Election α κ) (a : α) : Election α κ :=
  if key a ∈ e.seen then e
  else ⟨key a :: e.seen, if e.level score < score a then some a else e.best⟩

def elect (l : List α) : Election α κ := l.foldl (Election.step key score) ⟨[], none⟩

/-- Some order of the messages elects a message: every other key has a message without a higher
score. -/
def CanWin (l : List α) (w : α) : Prop :=
  w ∈ l ∧ ⊥ < score w ∧ ∀ x ∈ l, key x ≠ key w → ∃ y ∈ l, key y = key x ∧ score y ≤ score w

/-- Some order of the messages elects nobody: every key has a message that is not a candidate. -/
def CanStayEmpty (l : List α) : Prop := ∀ x ∈ l, ∃ y ∈ l, key y = key x ∧ score y = ⊥

variable {key score} {l l' : List α} {e : Election α κ} {a w : α}

theorem elect_append_singleton (l : List α) (a : α) :
    elect key score (l ++ [a]) = (elect key score l).step key score a := by
  unfold elect
  rw [List.foldl_append, List.foldl_cons, List.foldl_nil]

omit [DecidableEq κ] in
theorem CanWin.congr (h : CanWin key score l w) (hl : ∀ x, x ∈ l ↔ x ∈ l') :
    CanWin key score l' w := by
  obtain ⟨hmem, hpos, hothers⟩ := h
  refine ⟨(hl w).mp hmem, hpos, fun x hx hkey => ?_⟩
  obtain ⟨y, hy, hyx, hle⟩ := hothers x ((hl x).mpr hx) hkey
  exact ⟨y, (hl y).mp hy, hyx, hle⟩

omit [DecidableEq κ] [LinearOrder σ] in
theorem CanStayEmpty.congr (h : CanStayEmpty key score l) (hl : ∀ x, x ∈ l ↔ x ∈ l') :
    CanStayEmpty key score l' := by
  intro x hx
  obtain ⟨y, hy, hyx, hbot⟩ := h x ((hl x).mpr hx)
  exact ⟨y, (hl y).mp hy, hyx, hbot⟩

/-! ## Every election is one of those described -/

/-- What an election is after some messages: all of their keys have been seen, the message that
counted for a key is not above the elected one, and the elected one is a candidate. -/
structure Election.After (key : α → κ) (score : α → WithBot σ) (l : List α)
    (e : Election α κ) : Prop where
  seen : ∀ x ∈ l, key x ∈ e.seen
  counted : ∀ k ∈ e.seen, ∃ y ∈ l, key y = k ∧ score y ≤ e.level score
  elected : ∀ w, e.best = some w → w ∈ l ∧ ⊥ < score w

theorem Election.After.step (h : e.After key score l) (a : α) :
    (e.step key score a).After key score (l ++ [a]) := by
  unfold Election.step
  split
  · rename_i hseen
    refine ⟨fun x hx => ?_, fun k hk => ?_, fun w hw => ?_⟩
    · rcases List.mem_append.mp hx with hx | hx
      · exact h.seen x hx
      · rwa [List.mem_singleton.mp hx]
    · obtain ⟨y, hy, hkey, hle⟩ := h.counted k hk
      exact ⟨y, List.mem_append_left _ hy, hkey, hle⟩
    · obtain ⟨hmem, hpos⟩ := h.elected w hw
      exact ⟨List.mem_append_left _ hmem, hpos⟩
  · -- The message counts, and is elected when it is above the one that was.
    have hlevel : e.level score ≤ Election.level score
        ⟨key a :: e.seen, if e.level score < score a then some a else e.best⟩ ∧
        score a ≤ Election.level score
          ⟨key a :: e.seen, if e.level score < score a then some a else e.best⟩ := by
      by_cases hlt : e.level score < score a
      · rw [if_pos hlt]
        exact ⟨hlt.le, le_rfl⟩
      · rw [if_neg hlt]
        exact ⟨le_rfl, not_lt.mp hlt⟩
    refine ⟨fun x hx => ?_, fun k hk => ?_, fun w hw => ?_⟩
    · rcases List.mem_append.mp hx with hx | hx
      · exact List.mem_cons_of_mem _ (h.seen x hx)
      · rw [List.mem_singleton.mp hx]
        exact List.mem_cons_self
    · rcases List.mem_cons.mp hk with rfl | hk
      · exact ⟨a, by simp, rfl, hlevel.2⟩
      · obtain ⟨y, hy, hkey, hle⟩ := h.counted k hk
        exact ⟨y, List.mem_append_left _ hy, hkey, hle.trans hlevel.1⟩
    · dsimp only at hw
      split at hw
      · rename_i hlt
        cases hw
        exact ⟨by simp, lt_of_le_of_lt bot_le hlt⟩
      · obtain ⟨hmem, hpos⟩ := h.elected w hw
        exact ⟨List.mem_append_left _ hmem, hpos⟩

variable (key score) in
theorem elect_after (l : List α) : (elect key score l).After key score l := by
  induction l using List.reverseRecOn with
  | nil => exact ⟨by simp, by simp [elect], by simp [elect]⟩
  | append_singleton l a ih =>
    rw [elect_append_singleton]
    exact ih.step a

theorem canWin_of_elect (h : (elect key score l).best = some w) : CanWin key score l w := by
  have haft := elect_after key score l
  obtain ⟨hmem, hpos⟩ := haft.elected w h
  refine ⟨hmem, hpos, fun x hx _ => ?_⟩
  obtain ⟨y, hy, hkey, hle⟩ := haft.counted _ (haft.seen x hx)
  refine ⟨y, hy, hkey, ?_⟩
  unfold Election.level at hle
  rwa [h] at hle

theorem canStayEmpty_of_elect (h : (elect key score l).best = none) :
    CanStayEmpty key score l := by
  have haft := elect_after key score l
  intro x hx
  obtain ⟨y, hy, hkey, hle⟩ := haft.counted _ (haft.seen x hx)
  refine ⟨y, hy, hkey, ?_⟩
  unfold Election.level at hle
  rw [h] at hle
  exact le_bot_iff.mp hle

/-! ## Every described election happens -/

variable (key score) in
theorem foldl_best_of_not_above (l : List α)
    (h : ∀ a ∈ l, key a ∈ e.seen ∨ score a ≤ e.level score) :
    (l.foldl (Election.step key score) e).best = e.best ∧
      (∀ k ∈ e.seen, k ∈ (l.foldl (Election.step key score) e).seen) ∧
      ∀ a ∈ l, key a ∈ (l.foldl (Election.step key score) e).seen := by
  induction l generalizing e with
  | nil => exact ⟨rfl, fun k hk => hk, by simp⟩
  | cons a l ih =>
    have hbest : (e.step key score a).best = e.best := by
      unfold Election.step
      split
      · rfl
      · rename_i hfresh
        have hle := (h a List.mem_cons_self).resolve_left hfresh
        exact if_neg (not_lt.mpr hle)
    have hseen : (∀ k ∈ e.seen, k ∈ (e.step key score a).seen) ∧
        key a ∈ (e.step key score a).seen := by
      unfold Election.step
      split
      · exact ⟨fun k hk => hk, ‹_›⟩
      · exact ⟨fun k hk => List.mem_cons_of_mem _ hk, List.mem_cons_self⟩
    have hlevel : (e.step key score a).level score = e.level score := by
      unfold Election.level
      rw [hbest]
    obtain ⟨hbest', hseen', hkeys⟩ := ih (e := e.step key score a) fun b hb => by
      rw [hlevel]
      rcases h b (List.mem_cons_of_mem _ hb) with hb | hb
      · exact .inl (hseen.1 _ hb)
      · exact .inr hb
    refine ⟨hbest'.trans hbest, fun k hk => hseen' k (hseen.1 k hk), fun b hb => ?_⟩
    rcases List.mem_cons.mp hb with rfl | hb
    · exact hseen' _ hseen.2
    · exact hkeys b hb

/-- A message that can win is elected when it comes first, the messages that are not above it come
next, and the others come last. -/
theorem exists_perm_of_canWin (h : CanWin key score l w) :
    ∃ l', l'.Perm l ∧ (elect key score l').best = some w := by
  obtain ⟨hmem, hpos, hothers⟩ := h
  obtain ⟨l₁, l₂, rfl⟩ := List.append_of_mem hmem
  obtain ⟨low, hlow⟩ : ∃ low, low = (l₁ ++ l₂).filter fun a => decide (score a ≤ score w) :=
    ⟨_, rfl⟩
  obtain ⟨high, hhigh⟩ : ∃ high, high = (l₁ ++ l₂).filter fun a => !decide (score a ≤ score w) :=
    ⟨_, rfl⟩
  have hperm : (low ++ high).Perm (l₁ ++ l₂) := by
    rw [hlow, hhigh]
    exact List.filter_append_perm _ _
  refine ⟨w :: (low ++ high), (hperm.cons w).trans List.perm_middle.symm, ?_⟩
  -- The first message is elected.
  have hfst : Election.step key score ⟨[], none⟩ w = ⟨[key w], some w⟩ := by
    unfold Election.step
    rw [if_neg (by simp)]
    have hlt : Election.level score (⟨[], none⟩ : Election α κ) < score w := hpos
    rw [if_pos hlt]
  obtain ⟨hbest, hold, hseen⟩ := foldl_best_of_not_above key score low
    (e := ⟨[key w], some w⟩) fun a ha => by
      rw [hlow] at ha
      exact .inr (of_decide_eq_true (List.mem_filter.mp ha).2)
  -- The keys of those that are above it have been seen by the time that they arrive.
  obtain ⟨hbest', -, -⟩ := foldl_best_of_not_above key score high
    (e := low.foldl (Election.step key score) ⟨[key w], some w⟩) fun a ha => by
      rw [hhigh] at ha
      have hal := (List.mem_filter.mp ha).1
      left
      by_cases hkey : key a = key w
      · exact hold _ (by simp [hkey])
      · obtain ⟨y, hy, hya, hle⟩ := hothers a (by
          rcases List.mem_append.mp hal with hal | hal <;> simp [hal]) hkey
        rw [← hya]
        by_cases hyw : y ∈ l₁ ++ l₂
        · refine hseen y ?_
          rw [hlow]
          exact List.mem_filter.mpr ⟨hyw, decide_eq_true hle⟩
        · -- Of the messages, only the elected one itself is not among the others.
          have : y = w := by
            rcases List.mem_append.mp hy with hy | hy
            · exact absurd (List.mem_append_left _ hy) hyw
            · rcases List.mem_cons.mp hy with hy | hy
              · exact hy
              · exact absurd (List.mem_append_right _ hy) hyw
          exact absurd (this ▸ hya).symm hkey
  unfold elect
  rw [List.foldl_cons, hfst, List.foldl_append, hbest', hbest]

theorem exists_perm_of_canStayEmpty (h : CanStayEmpty key score l) :
    ∃ l', l'.Perm l ∧ (elect key score l').best = none := by
  obtain ⟨low, hlow⟩ : ∃ low, low = l.filter fun a => decide (score a ≤ ⊥) := ⟨_, rfl⟩
  obtain ⟨high, hhigh⟩ : ∃ high, high = l.filter fun a => !decide (score a ≤ ⊥) := ⟨_, rfl⟩
  have hperm : (low ++ high).Perm l := by
    rw [hlow, hhigh]
    exact List.filter_append_perm _ _
  refine ⟨low ++ high, hperm, ?_⟩
  obtain ⟨hbest, -, hseen⟩ := foldl_best_of_not_above key score low
    (e := ⟨[], none⟩) fun a ha => by
      rw [hlow] at ha
      exact .inr (of_decide_eq_true (List.mem_filter.mp ha).2)
  obtain ⟨hbest', -, -⟩ := foldl_best_of_not_above key score high
    (e := low.foldl (Election.step key score) ⟨[], none⟩) fun a ha => by
      rw [hhigh] at ha
      obtain ⟨y, hy, hya, hbot⟩ := h a (List.mem_filter.mp ha).1
      left
      rw [← hya]
      refine hseen y ?_
      rw [hlow]
      exact List.mem_filter.mpr ⟨hy, decide_eq_true hbot.le⟩
  unfold elect
  rw [List.foldl_append, hbest', hbest]

end ZalemCoin.Lib
