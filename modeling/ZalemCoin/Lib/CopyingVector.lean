import Mathlib.Data.List.Nodup
import Mathlib.Data.List.TakeWhile

/-!
# Vectors that copy their elements

A vector keeps its elements in a buffer. An element that is pushed back is a copy, and when the buffer
is full, the other elements are copied into a larger one. Erasing an element copies those behind it one
place down. Elements whose copies differ from them are changed by both.
-/

namespace ZalemCoin.Lib

/-- How the capacity of a full vector grows. -/
structure Growth where
  next : ℕ → ℕ
  grows : ∀ n, n < next n

/-- The elements of a vector, and how many its buffer has room for. -/
structure CopyingVector (α : Type*) where
  elems : List α
  capacity : ℕ
  fits : elems.length ≤ capacity

namespace CopyingVector

variable {α β κ τ : Type*}

/-- Whether the buffer has room for one more element. -/
def HasRoom (v : CopyingVector α) : Prop := v.elems.length < v.capacity

instance (v : CopyingVector α) : Decidable v.HasRoom := inferInstanceAs (Decidable (_ < _))

def empty : CopyingVector α := ⟨[], 0, le_rfl⟩

/-- Changes the elements in place, one after the other. -/
def write (f : β → α → α) (l : List β) (v : CopyingVector α) : CopyingVector α :=
  ⟨List.zipWith f l v.elems, v.capacity, by
    rw [List.length_zipWith]
    exact le_trans (Nat.min_le_right ..) v.fits⟩

theorem write_eq_self {f : β → α → α} {l : List β} {v : CopyingVector α}
    (h : List.zipWith f l v.elems = v.elems) : v.write f l = v := by
  rcases v with ⟨elems, capacity, fits⟩
  unfold write
  simp only [h]

/-- Changes the element at a place. -/
def modify (f : α → α) (i : ℕ) (v : CopyingVector α) : CopyingVector α :=
  ⟨v.elems.modify i f, v.capacity, (List.length_modify ..).trans_le v.fits⟩

/-- Adds a copy of an element at the end. -/
def push_back (copy : α → α) (growth : Growth) (a : α) (v : CopyingVector α) : CopyingVector α :=
  if h : v.HasRoom then ⟨v.elems ++ [copy a], v.capacity, by
    rw [List.length_append, List.length_singleton]
    exact h⟩
  else
    ⟨v.elems.map copy ++ [copy a], growth.next v.capacity, by
      have := growth.grows v.capacity
      have := v.fits
      simp only [List.length_append, List.length_map, List.length_singleton]
      omega⟩

/-- Erases the element at a place: those behind it are copied one place down. -/
def erase (copy : α → α) (i : ℕ) (v : CopyingVector α) : CopyingVector α :=
  ⟨v.elems.take i ++ (v.elems.drop (i + 1)).map copy, v.capacity, by
    have := v.fits
    simp only [List.length_append, List.length_take, List.length_map, List.length_drop]
    omega⟩

/-- The loop that erases, front to back, the elements that meet a condition. The first argument is the
number of elements that it has not seen yet. -/
def eraseLoop (copy : α → α) (p : α → Bool) : ℕ → List α → List α
  | 0, l => l
  | _ + 1, [] => []
  | n + 1, a :: l => if p a then eraseLoop copy p n (l.map copy) else a :: eraseLoop copy p n l

def eraseList (copy : α → α) (p : α → Bool) (l : List α) : List α := eraseLoop copy p l.length l

theorem length_eraseLoop_le (copy : α → α) (p : α → Bool) (n : ℕ) (l : List α) :
    (eraseLoop copy p n l).length ≤ l.length := by
  induction n generalizing l with
  | zero => exact le_rfl
  | succ n ih =>
    rcases l with _ | ⟨a, l⟩
    · exact le_rfl
    · unfold eraseLoop
      split
      · have hle := ih (l.map copy)
        rw [List.length_map] at hle
        exact hle.trans (Nat.le_succ _)
      · exact Nat.succ_le_succ (ih l)

@[simp] theorem eraseList_nil (copy : α → α) (p : α → Bool) : eraseList copy p [] = [] := rfl

theorem eraseList_cons (copy : α → α) (p : α → Bool) (a : α) (l : List α) :
    eraseList copy p (a :: l)
      = if p a then eraseList copy p (l.map copy) else a :: eraseList copy p l := by
  unfold eraseList
  rw [List.length_cons, eraseLoop, List.length_map]

def eraseIf (copy : α → α) (p : α → Bool) (v : CopyingVector α) : CopyingVector α :=
  ⟨eraseList copy p v.elems, v.capacity, (length_eraseLoop_le copy p _ v.elems).trans v.fits⟩

/-! ## Which elements are copies -/

variable {copy : α → α} {p : α → Bool} {growth : Growth} {v : CopyingVector α} {a : α}

@[simp] theorem elems_erase (copy : α → α) (i : ℕ) (v : CopyingVector α) :
    (v.erase copy i).elems = v.elems.take i ++ (v.elems.drop (i + 1)).map copy := rfl

@[simp] theorem elems_eraseIf (copy : α → α) (p : α → Bool) (v : CopyingVector α) :
    (v.eraseIf copy p).elems = eraseList copy p v.elems := rfl

theorem elems_push_back_of_hasRoom (h : v.HasRoom) :
    (v.push_back copy growth a).elems = v.elems ++ [copy a] := by
  unfold push_back
  rw [dif_pos h]

theorem elems_push_back_of_full (h : ¬v.HasRoom) :
    (v.push_back copy growth a).elems = v.elems.map copy ++ [copy a] := by
  unfold push_back
  rw [dif_neg h]

/-- In front of the first element that is erased the elements stay, and the others are copies: when
copies are not told apart by the condition, and a copy of a copy is a copy. -/
theorem eraseList_eq (hp : ∀ a, p (copy a) = p a) (hcopy : ∀ a, copy (copy a) = copy a)
    (l : List α) :
    eraseList copy p l = l.takeWhile (fun a => !p a)
      ++ ((l.dropWhile fun a => !p a).filter fun a => !p a).map copy := by
  -- Once everything has been copied, the loop is a filter.
  have hcopied : ∀ l : List α,
      eraseList copy p (l.map copy) = (l.filter fun a => !p a).map copy := by
    intro l
    induction l with
    | nil => simp
    | cons a l ih =>
      have hagain : (l.map copy).map copy = l.map copy := by simp [hcopy]
      rw [List.map_cons, eraseList_cons, hp, hagain, ih]
      rcases ha : p a with _ | _ <;> simp [ha]
  induction l with
  | nil => simp
  | cons a l ih =>
    rw [eraseList_cons, hcopied, ih]
    rcases ha : p a with _ | _ <;> simp [ha]

theorem map_eraseList {f : α → β} (hp : ∀ a, p (copy a) = p a) (hcopy : ∀ a, copy (copy a) = copy a)
    (hf : ∀ a, f (copy a) = f a) (l : List α) :
    (eraseList copy p l).map f = (l.filter fun a => !p a).map f := by
  have hmap : ∀ l : List α, (l.map copy).map f = l.map f := by
    simp [hf]
  have htake : (l.takeWhile fun a => !p a).filter (fun a => !p a) = l.takeWhile fun a => !p a := by
    apply List.filter_eq_self.mpr
    intro a ha
    exact List.mem_takeWhile_imp (p := fun a => !p a) ha
  calc (eraseList copy p l).map f
      = (l.takeWhile fun a => !p a).map f
          ++ ((l.dropWhile fun a => !p a).filter fun a => !p a).map f := by
        rw [eraseList_eq hp hcopy, List.map_append, hmap]
    _ = (((l.takeWhile fun a => !p a) ++ l.dropWhile fun a => !p a).filter fun a => !p a).map f := by
        rw [List.filter_append, htake, List.map_append]
    _ = (l.filter fun a => !p a).map f := by rw [List.takeWhile_append_dropWhile]

/-! ## What stays as it is -/

/-- Elements with the same key have the same value. -/
def Keeps (key : α → κ) (val : α → τ) (l l' : List α) : Prop :=
  ∀ a ∈ l, ∀ a' ∈ l', key a' = key a → val a' = val a

variable {key : α → κ} {val : α → τ}

theorem eq_of_key {l : List α} (hkeys : (l.map key).Nodup) {a' : α} (ha : a ∈ l) (ha' : a' ∈ l)
    (h : key a' = key a) : a' = a :=
  List.inj_on_of_nodup_map hkeys ha' ha h

theorem Keeps.congr {l₁ l₂ l' : List α}
    (h : (l₁.map fun a => (key a, val a)) = l₂.map fun a => (key a, val a))
    (hkeeps : Keeps key val l₁ l') : Keeps key val l₂ l' := by
  intro a ha a' ha' heq
  have hmem : (key a, val a) ∈ l₁.map fun a => (key a, val a) := h ▸ List.mem_map_of_mem ha
  obtain ⟨b, hb, hsame⟩ := List.mem_map.mp hmem
  obtain ⟨hkey, hval⟩ := Prod.mk.inj hsame
  rw [← hval]
  exact hkeeps b hb a' ha' (heq.trans hkey.symm)

theorem keeps_of_subset {l l' : List α} (hkeys : (l.map key).Nodup)
    (h : (l'.map fun a => (key a, val a)) ⊆ l.map fun a => (key a, val a)) : Keeps key val l l' := by
  intro a ha a' ha' heq
  obtain ⟨b, hb, hsame⟩ := List.mem_map.mp (h (List.mem_map_of_mem ha'))
  obtain ⟨hkey, hval⟩ := Prod.mk.inj hsame
  rw [← hval, eq_of_key hkeys ha hb (hkey.trans heq)]

theorem keeps_push_back_iff (hkey : ∀ a, key (copy a) = key a) (hkeys : (v.elems.map key).Nodup)
    (hnew : key a ∉ v.elems.map key) :
    Keeps key val v.elems (v.push_back copy growth a).elems ↔
      v.HasRoom ∨ ∀ b ∈ v.elems, val (copy b) = val b := by
  have hlast : ∀ b ∈ v.elems, key (copy a) ≠ key b := by
    intro b hb heq
    exact hnew (hkey a ▸ heq ▸ List.mem_map_of_mem hb)
  by_cases hroom : v.HasRoom
  · refine iff_of_true (fun b hb b' hb' h => ?_) (.inl hroom)
    rw [elems_push_back_of_hasRoom hroom] at hb'
    rcases List.mem_append.mp hb' with hb' | hb'
    · rw [eq_of_key hkeys hb hb' h]
    · rw [List.mem_singleton.mp hb'] at h
      exact absurd h (hlast b hb)
  · unfold Keeps
    rw [elems_push_back_of_full hroom]
    constructor
    · intro h
      right
      intro b hb
      exact h b hb (copy b) (List.mem_append_left _ (List.mem_map_of_mem hb)) (hkey b)
    · rintro (h | h) b hb b' hb' heq
      · exact absurd h hroom
      · rcases List.mem_append.mp hb' with hb' | hb'
        · obtain ⟨c, hc, rfl⟩ := List.mem_map.mp hb'
          rw [hkey] at heq
          rw [h c hc, eq_of_key hkeys hb hc heq]
        · rw [List.mem_singleton.mp hb'] at heq
          exact absurd heq (hlast b hb)

theorem keeps_erase_iff (hkey : ∀ a, key (copy a) = key a) (hkeys : (v.elems.map key).Nodup)
    {i : ℕ} : Keeps key val v.elems (v.erase copy i).elems ↔
      ∀ b ∈ v.elems.drop (i + 1), val (copy b) = val b := by
  constructor
  · intro h b hb
    have hcopied : copy b ∈ (v.erase copy i).elems :=
      List.mem_append_right _ (List.mem_map_of_mem hb)
    exact h b (List.mem_of_mem_drop hb) (copy b) hcopied (hkey b)
  · intro h b hb b' hb' heq
    rcases List.mem_append.mp hb' with hb' | hb'
    · rw [eq_of_key hkeys hb (List.mem_of_mem_take hb') heq]
    · obtain ⟨c, hc, rfl⟩ := List.mem_map.mp hb'
      rw [hkey] at heq
      rw [h c hc, eq_of_key hkeys hb (List.mem_of_mem_drop hc) heq]

/-- Erasing the elements that meet a condition keeps the values exactly when every element that is left
and comes after an erased one has copies with the same value. -/
theorem keeps_eraseList_iff (hp : ∀ a, p (copy a) = p a) (hcopy : ∀ a, copy (copy a) = copy a)
    (hkey : ∀ a, key (copy a) = key a) {l : List α} (hkeys : (l.map key).Nodup) :
    Keeps key val l (eraseList copy p l) ↔
      ∀ before e after, l = before ++ e :: after → p e = true →
        ∀ a ∈ after, p a = false → val (copy a) = val a := by
  rw [eraseList_eq hp hcopy]
  have hsplit := List.takeWhile_append_dropWhile (p := fun a => !p a) (l := l)
  constructor
  · intro h before e after heq he a ha hleft
    have hmem : a ∈ l := by
      rw [heq]
      simp [ha]
    -- The erased element is not in front of the first one, and so what follows it is not either.
    have hdrop : a ∈ l.dropWhile fun a => !p a := by
      have hsuffix : ∀ front : List α, (∃ x ∈ front, p x = true) →
          a ∈ (front ++ after).dropWhile fun a => !p a := by
        intro front
        induction front with
        | nil => simp
        | cons x front ih =>
          rintro ⟨y, hy, hpy⟩
          rcases hx : p x with _ | _
          · rw [List.cons_append, List.dropWhile_cons_of_pos (by simp [hx])]
            refine ih ⟨y, ?_, hpy⟩
            rcases List.mem_cons.mp hy with rfl | hy
            · rw [hx] at hpy
              simp at hpy
            · exact hy
          · rw [List.cons_append, List.dropWhile_cons_of_neg (by simp [hx])]
            simp [ha]
      have := hsuffix (before ++ [e]) ⟨e, by simp, he⟩
      rwa [List.append_assoc, List.singleton_append, ← heq] at this
    have hcopied : copy a ∈ ((l.dropWhile fun a => !p a).filter fun a => !p a).map copy :=
      List.mem_map_of_mem (List.mem_filter.mpr ⟨hdrop, by simp [hleft]⟩)
    exact h a hmem (copy a) (List.mem_append_right _ hcopied) (hkey a)
  · intro h a ha a' ha' heq
    rcases List.mem_append.mp ha' with ha' | ha'
    · have hmem : a' ∈ l := by
        rw [← hsplit]
        exact List.mem_append_left _ ha'
      rw [eq_of_key hkeys ha hmem heq]
    · obtain ⟨b, hb, rfl⟩ := List.mem_map.mp ha'
      obtain ⟨hdrop, hleft⟩ := List.mem_filter.mp hb
      have hmem : b ∈ l := by
        rw [← hsplit]
        exact List.mem_append_right _ hdrop
      rw [hkey] at heq
      obtain rfl := eq_of_key hkeys ha hmem heq
      -- The first element that is dropped is erased.
      rcases hd : l.dropWhile fun a => !p a with _ | ⟨e, after⟩
      · rw [hd] at hdrop
        simp at hdrop
      · have he : p e = true := by
          have := List.head?_dropWhile_not (fun a => !p a) l
          rw [hd] at this
          simpa using this
        rw [hd] at hdrop hsplit
        rcases List.mem_cons.mp hdrop with rfl | hdrop
        · simp [he] at hleft
        · exact h _ e after hsplit.symm he b hdrop (by simpa using hleft)

end CopyingVector

end ZalemCoin.Lib
