import Mathlib.Data.List.AList

/-!
# Filling a map whose entries refer to each other

Records are read in any order, and each refers to others by their keys. When a record mentions a key
that has no entry yet, a blank one is made for it, which is filled when its own record is read. Once
every record has been read, the map is the one that the records describe, provided that they mention
no key but their own.
-/

namespace ZalemCoin.Lib

variable {κ ν : Type*} [DecidableEq κ]

/-- Makes a blank entry under a key, unless the key has one. -/
def mention (blank : ν) (m : AList fun _ : κ => ν) (k : κ) : AList fun _ : κ => ν :=
  match m.lookup k with
  | some _ => m
  | none => m.insert k blank

/-- A map that is being filled: the entries under some keys are as they should be, and the others are
blank, if there are any. -/
structure Filling (blank : ν) (target : κ → Option ν) (done : κ → Prop)
    (m : AList fun _ : κ => ν) : Prop where
  final : ∀ k, done k → m.lookup k = target k
  unfilled : ∀ k, ¬done k → m.lookup k = none ∨ m.lookup k = some blank ∧ target k ≠ none

variable {blank v : ν} {target : κ → Option ν} {done : κ → Prop} {m : AList fun _ : κ => ν} {k : κ}

theorem filling_empty (blank : ν) (target : κ → Option ν) :
    Filling blank target (fun _ => False) ∅ :=
  ⟨fun _ h => h.elim, fun _ _ => .inl (AList.lookup_empty _)⟩

theorem lookup_mention (blank : ν) (m : AList fun _ : κ => ν) (k : κ) :
    (mention blank m k).lookup k = some ((m.lookup k).getD blank) := by
  unfold mention
  rcases h : m.lookup k with _ | v
  · rw [AList.lookup_insert]
    rfl
  · exact h

theorem lookup_mention_ne (blank : ν) (m : AList fun _ : κ => ν) {k' : κ} (hne : k' ≠ k) :
    (mention blank m k).lookup k' = m.lookup k' := by
  unfold mention
  split
  · rfl
  · exact AList.lookup_insert_ne hne

variable (h : Filling blank target done m)
include h

theorem Filling.mention (hk : target k ≠ none) :
    Filling blank target done (Lib.mention blank m k) := by
  refine ⟨fun k' hdone => ?_, fun k' hopen => ?_⟩
  · have hfinal := h.final k' hdone
    by_cases heq : k' = k
    · subst heq
      obtain ⟨v, hv⟩ := Option.ne_none_iff_exists'.mp hk
      rw [lookup_mention, hfinal, hv]
      rfl
    · rw [lookup_mention_ne _ _ heq]
      exact hfinal
  · by_cases heq : k' = k
    · subst heq
      rw [lookup_mention]
      rcases h.unfilled k' hopen with hnone | ⟨hblank, -⟩
      · rw [hnone]
        exact .inr ⟨rfl, hk⟩
      · rw [hblank]
        exact .inr ⟨rfl, hk⟩
    · rw [lookup_mention_ne _ _ heq]
      exact h.unfilled k' hopen

theorem Filling.insert (hk : target k = some v) :
    Filling blank target (fun k' => k' = k ∨ done k') (m.insert k v) := by
  refine ⟨fun k' hdone => ?_, fun k' hopen => ?_⟩
  · by_cases heq : k' = k
    · rw [heq, AList.lookup_insert, hk]
    · rw [AList.lookup_insert_ne heq]
      exact h.final k' (hdone.resolve_left heq)
  · rw [AList.lookup_insert_ne fun heq => hopen (.inl heq)]
    exact h.unfilled k' fun hdone => hopen (.inr hdone)

theorem Filling.lookup_eq
    (hall : ∀ k, target k ≠ none → done k) (k : κ) : m.lookup k = target k := by
  by_cases hdone : done k
  · exact h.final k hdone
  · rcases h.unfilled k hdone with hnone | ⟨-, hsome⟩
    · rw [hnone]
      by_contra hne
      exact hdone (hall k (Ne.symm hne))
    · exact absurd (hall k hsome) hdone

end ZalemCoin.Lib
