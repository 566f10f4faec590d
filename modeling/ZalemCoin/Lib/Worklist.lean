import Mathlib.Algebra.Order.BigOperators.Group.Finset

/-!
# Worklists

A search of a graph keeps a list of nodes that it still has to look at, and those that it has visited.
A node that has been visited is dropped from the list; another one is visited, and the nodes after it
go to the end of the list. A search that ends has visited what can be reached, each node once, and it
ends when only finitely many nodes have others after them.
-/

namespace ZalemCoin.Lib.Worklist

variable {α : Type*} {next next' : α → List α} {roots roots' : List α}

/-- A path leads from one of some nodes to another one. -/
def Reachable (next : α → List α) (roots : List α) (a : α) : Prop :=
  ∃ r ∈ roots, Relation.ReflTransGen (fun a b => b ∈ next a) r a

theorem Reachable.tail {a b : α} (h : Reachable next roots a) (hb : b ∈ next a) :
    Reachable next roots b := by
  obtain ⟨r, hr, hpath⟩ := h
  exact ⟨r, hr, hpath.tail hb⟩

variable {a : α} {done queue : List α} {fuel : ℕ}

theorem Reachable.mem {S : Set α} (h : Reachable next roots a) (hroots : ∀ r ∈ roots, r ∈ S)
    (hnext : ∀ a ∈ S, ∀ b ∈ next a, b ∈ S) : a ∈ S := by
  obtain ⟨r, hr, hpath⟩ := h
  induction hpath with
  | refl => exact hroots r hr
  | tail _ hstep ih => exact hnext _ ih _ hstep

/-- Starting from more nodes and following more edges reaches the same known nodes exactly when the nodes
that were reachable have these first nodes and are closed under these edges. An unknown node has no
nodes after it. -/
theorem reachable_iff_closed {known : α → Prop} (hroots : ∀ r ∈ roots, r ∈ roots')
    (hsub : ∀ a, ∀ b ∈ next a, b ∈ next' a) (hleaf : ∀ a, ¬known a → next' a = []) :
    (∀ a, known a → (Reachable next' roots' a ↔ Reachable next roots a)) ↔
      (∀ r ∈ roots', known r → Reachable next roots r) ∧
        ∀ a, Reachable next roots a → ∀ b ∈ next' a, known b → Reachable next roots b := by
  have hmono : ∀ a, Reachable next roots a → Reachable next' roots' a := fun a h =>
    h.mem (S := {a | Reachable next' roots' a})
      (fun r hr => ⟨r, hroots r hr, Relation.ReflTransGen.refl⟩)
      fun a ha b hb => Reachable.tail ha (hsub a b hb)
  constructor
  · intro h
    refine ⟨fun r hr hknown => ?_, fun a ha b hb hknown => ?_⟩
    · exact (h r hknown).mp ⟨r, hr, Relation.ReflTransGen.refl⟩
    · exact (h b hknown).mp ((hmono a ha).tail hb)
  · rintro ⟨hfst, hclosed⟩ a hknown
    refine ⟨fun h => ?_, hmono a⟩
    refine h.mem (S := {a | known a → Reachable next roots a}) hfst
      (fun a ha b hb hb' => ?_) hknown
    -- A node with others after it is known.
    have hknown : known a := by
      by_contra hnot
      rw [hleaf a hnot] at hb
      exact List.not_mem_nil hb
    exact hclosed a (ha hknown) b hb hb'

/-- The search: what it has visited in the end, in this order. The first number is that of the turns
that it may still take. -/
def visit [DecidableEq α] (next : α → List α) : ℕ → List α → List α → Option (List α)
  | _, done, [] => some done
  | 0, _, _ :: _ => none
  | fuel + 1, done, a :: queue =>
    if a ∈ done then visit next fuel done queue
    else visit next fuel (done ++ [a]) (queue ++ next a)

/-! ## What has been visited -/

/-- What a search keeps: no node has been visited twice, what is there can be reached, and what comes
first or after a visited node has been visited or is still in the list. -/
structure Visiting (next : α → List α) (roots done queue : List α) : Prop where
  nodup : done.Nodup
  reachable : ∀ a, a ∈ done ∨ a ∈ queue → Reachable next roots a
  first : ∀ a ∈ roots, a ∈ done ∨ a ∈ queue
  after : ∀ a ∈ done, ∀ b ∈ next a, b ∈ done ∨ b ∈ queue

theorem Visiting.start : Visiting next roots [] roots where
  nodup := List.nodup_nil
  reachable a h := ⟨a, h.resolve_left List.not_mem_nil, Relation.ReflTransGen.refl⟩
  first _ h := .inr h
  after _ h := absurd h List.not_mem_nil

theorem Visiting.drop (h : Visiting next roots done (a :: queue)) (ha : a ∈ done) :
    Visiting next roots done queue := by
  have hleft {b : α} (hb : b ∈ done ∨ b ∈ a :: queue) : b ∈ done ∨ b ∈ queue := by
    rcases hb with hb | hb
    · exact .inl hb
    · rcases List.mem_cons.mp hb with rfl | hb
      · exact .inl ha
      · exact .inr hb
  exact ⟨h.nodup, fun b hb => h.reachable b (hb.imp_right (List.mem_cons_of_mem a)),
    fun b hb => hleft (h.first b hb), fun b hb c hc => hleft (h.after b hb c hc)⟩

theorem Visiting.visit (h : Visiting next roots done (a :: queue)) (ha : a ∉ done) :
    Visiting next roots (done ++ [a]) (queue ++ next a) := by
  have hreach : Reachable next roots a := h.reachable a (.inr List.mem_cons_self)
  have hmove {b : α} (hb : b ∈ done ∨ b ∈ a :: queue) :
      b ∈ done ++ [a] ∨ b ∈ queue ++ next a := by
    rcases hb with hb | hb
    · exact .inl (List.mem_append_left _ hb)
    · rcases List.mem_cons.mp hb with rfl | hb
      · exact .inl List.mem_concat_self
      · exact .inr (List.mem_append_left _ hb)
  constructor
  · rw [← List.concat_eq_append]
    exact h.nodup.concat ha
  · intro b hb
    rcases hb with hb | hb
    · rcases List.mem_append.mp hb with hb | hb
      · exact h.reachable b (.inl hb)
      · rwa [List.mem_singleton.mp hb]
    · rcases List.mem_append.mp hb with hb | hb
      · exact h.reachable b (.inr (List.mem_cons_of_mem a hb))
      · exact hreach.tail hb
  · exact fun b hb => hmove (h.first b hb)
  · intro b hb c hc
    rcases List.mem_append.mp hb with hb | hb
    · exact hmove (h.after b hb c hc)
    · rw [List.mem_singleton.mp hb] at hc
      exact .inr (List.mem_append_right _ hc)

theorem Visiting.finish (h : Visiting next roots done []) :
    done.Nodup ∧ ∀ a, a ∈ done ↔ Reachable next roots a := by
  have hdone {a : α} (ha : a ∈ done ∨ a ∈ []) : a ∈ done := ha.resolve_right List.not_mem_nil
  refine ⟨h.nodup, fun a => ⟨fun ha => h.reachable a (.inl ha), fun ha => ?_⟩⟩
  exact ha.mem (S := {a | a ∈ done}) (fun r hr => hdone (h.first r hr))
    fun a ha b hb => hdone (h.after a ha b hb)

theorem visit_eq_some [DecidableEq α] {visited : List α} (hstart : Visiting next roots done queue)
    (h : visit next fuel done queue = some visited) :
    visited.Nodup ∧ ∀ a, a ∈ visited ↔ Reachable next roots a := by
  induction fuel generalizing done queue with
  | zero =>
    rcases queue with _ | ⟨a, queue⟩
    · cases h
      exact hstart.finish
    · simp [visit] at h
  | succ fuel ih =>
    rcases queue with _ | ⟨a, queue⟩
    · cases h
      exact hstart.finish
    · unfold Worklist.visit at h
      split_ifs at h with ha
      · exact ih (hstart.drop ha) h
      · exact ih (hstart.visit ha) h

/-! ## Enough turns -/

/-- The turns that a search may need: one for each node in the list, and one for each node after one
that has not been visited. -/
def turns [DecidableEq α] (next : α → List α) (K : Finset α) (done queue : List α) : ℕ :=
  queue.length + ∑ a ∈ K with a ∉ done, (next a).length

theorem visit_isSome [DecidableEq α] {K : Finset α} (hK : ∀ a ∉ K, next a = [])
    (hfuel : turns next K done queue ≤ fuel) : (visit next fuel done queue).isSome = true := by
  induction fuel generalizing done queue with
  | zero =>
    rcases queue with _ | ⟨a, queue⟩
    · rfl
    · simp [turns] at hfuel
  | succ fuel ih =>
    rcases queue with _ | ⟨a, queue⟩
    · rfl
    unfold turns at hfuel
    rw [List.length_cons] at hfuel
    unfold visit
    split_ifs with ha
    · apply ih
      unfold turns
      omega
    · apply ih
      unfold turns
      rw [List.length_append]
      -- The nodes after the visited one leave the sum, and enter the list.
      by_cases hmem : a ∈ K
      · have hsplit : (K.filter fun b => b ∉ done) = insert a (K.filter fun b => b ∉ done ++ [a]) := by
          ext b
          simp only [Finset.mem_filter, Finset.mem_insert, List.mem_append, List.mem_singleton]
          by_cases hb : b = a
          · simp [hb, hmem, ha]
          · simp [hb]
        rw [hsplit, Finset.sum_insert (by simp)] at hfuel
        omega
      · have hsame : (K.filter fun b => b ∉ done ++ [a]) = K.filter fun b => b ∉ done := by
          refine Finset.filter_congr fun b hb => ?_
          have hne : b ≠ a := fun heq => hmem (heq ▸ hb)
          simp [hne]
        rw [hK a hmem, hsame, List.length_nil]
        omega

end ZalemCoin.Lib.Worklist
