import ZalemCoin.Lib.Yields
import Mathlib.Data.List.Basic
import Mathlib.Data.List.Induction

/-!
# Programs that change a state and can fail

An action is a function from a state to an outcome and the state that it leaves behind. A failed
action leaves a state too: what it did before it failed is not undone. The questions that a proof
asks of an action are what a successful run did (`bind_eq_ok` takes a sequence apart), what holds of
the state however the run ended (`Keeps` composes along the program), and when a run succeeds
(`Succeeds` does too).
-/

namespace ZalemCoin.Lib

variable {ε : Type*} {β : Type}

theorem except_bind_eq_ok {α : Type} {x : Except ε α} {f : α → Except ε β} {b : β} :
    (x >>= f) = .ok b ↔ ∃ a, x = .ok a ∧ f a = .ok b := by
  cases x <;> simp [bind, Except.bind]

theorem bind_ok {α : Type} {x : Except ε α} {f : α → Except ε β} {b : β} (h : (x >>= f) = .ok b) :
    ∃ a, x = .ok a ∧ f a = .ok b :=
  except_bind_eq_ok.mp h

theorem ok_bind {α : Type} {x : Except ε α} {f : α → Except ε β} {a : α} {b : β} (hx : x = .ok a)
    (h : f a = .ok b) : (x >>= f) = .ok b :=
  except_bind_eq_ok.mpr ⟨a, hx, h⟩

theorem except_bind_eq_error {α : Type} {x : Except ε α} {f : α → Except ε β} {e : ε} :
    (x >>= f) = .error e ↔ x = .error e ∨ ∃ a, x = .ok a ∧ f a = .error e := by
  cases x <;> simp [bind, Except.bind]

/-- A loop that succeeds carries an invariant from the start to its end. The invariant may speak of
the elements that the loop has already consumed. -/
theorem foldlM_ok_induction {α : Type*} {f : β → α → Except ε β} (P : List α → β → Prop)
    {l : List α} {b b' : β} (start : P [] b)
    (step : ∀ done a rest c c', l = done ++ a :: rest → P done c → f c a = .ok c' →
      P (done ++ [a]) c') (h : l.foldlM f b = .ok b') : P l b' := by
  refine Yields.of_ok (E := fun _ => True) (Yields.foldlM P start fun done a rest c hl hc => ?_) h
  rcases hstep : f c a with e | c'
  · trivial
  · exact step done a rest c c' hl hc hstep

theorem foldlM_range_isOk {f : β → ℕ → Except ε β} (P : ℕ → β → Prop) {n : ℕ} {b : β}
    (start : P 0 b) (step : ∀ k < n, ∀ c, P k c → ∃ c', f c k = .ok c' ∧ P (k + 1) c') :
    ∃ b', (List.range n).foldlM f b = .ok b' ∧ P n b' := by
  induction n with
  | zero => exact ⟨b, rfl, start⟩
  | succ n ih =>
    obtain ⟨c, hloop, hc⟩ := ih fun k hk => step k (Nat.lt_succ_of_lt hk)
    obtain ⟨c', hstep, hc'⟩ := step n (Nat.lt_succ_self n) c hc
    refine ⟨c', ?_, hc'⟩
    rw [List.range_succ, List.foldlM_append, hloop]
    show [n].foldlM f c = _
    rw [List.foldlM_cons, hstep]
    rfl

theorem except_bind_ne_error {α : Type} {x : Except ε α} {f : α → Except ε β} {e : ε}
    (hx : x ≠ .error e) (hf : ∀ a, f a ≠ .error e) : (x >>= f) ≠ .error e := by
  intro h
  rcases except_bind_eq_error.mp h with h | ⟨a, -, h⟩
  · exact hx h
  · exact hf a h

/-- A loop does not fail with an error that its step does not fail with, in the states that it
reaches. -/
theorem foldlM_ne_error {α : Type*} {f : β → α → Except ε β} (P : List α → β → Prop) {l : List α}
    {b : β} {e : ε} (start : P [] b)
    (step : ∀ done a rest c c', l = done ++ a :: rest → P done c → f c a = .ok c' →
      P (done ++ [a]) c')
    (hf : ∀ done a rest c, l = done ++ a :: rest → P done c → f c a ≠ .error e) :
    l.foldlM f b ≠ .error e := by
  have hloop : Yields (· ≠ e) (l.foldlM f b) (P l) := by
    refine Yields.foldlM P start fun done a rest c hl hc => ?_
    rcases hstep : f c a with e' | c'
    · rintro rfl
      exact hf done a rest c hl hc hstep
    · exact step done a rest c c' hl hc hstep
  intro h
  rw [h] at hloop
  exact hloop rfl

theorem except_forM_eq_ok {α : Type*} {f : α → Except ε Unit} {l : List α} :
    l.forM f = .ok () ↔ ∀ a ∈ l, f a = .ok () := by
  induction l with
  | nil => simp [pure, Except.pure]
  | cons a l ih =>
    change (f a >>= fun _ => l.forM f) = .ok () ↔ _
    rw [except_bind_eq_ok, List.forall_mem_cons]
    constructor
    · rintro ⟨⟨⟩, ha, hl⟩
      exact ⟨ha, ih.mp hl⟩
    · rintro ⟨ha, hl⟩
      exact ⟨(), ha, ih.mpr hl⟩

/-- Fails with `e` unless the condition holds. -/
def ensure {ε : Type*} (c : Prop) [Decidable c] (e : ε) : Except ε Unit :=
  if c then .ok () else .error e

variable {c : Prop}

@[simp]
theorem ensure_eq_ok [Decidable c] {e : ε} {u : Unit} :
    ensure c e = .ok u ↔ c := by
  by_cases h : c <;> simp [ensure, h]

@[simp]
theorem ensure_eq_error [Decidable c] {e e' : ε} :
    ensure c e = .error e' ↔ ¬c ∧ e = e' := by
  by_cases h : c <;> simp [ensure, h]

section

variable [Decidable c] {e : ε} {f : Unit → Except ε β} {b : β}

theorem ensure_bind (hc : c) (h : f () = .ok b) : (ensure c e >>= f) = .ok b :=
  ok_bind (ensure_eq_ok.mpr hc) h

theorem ensure_ok (h : (ensure c e >>= f) = .ok b) : c ∧ f () = .ok b := by
  obtain ⟨⟨⟩, hc, h⟩ := bind_ok h
  exact ⟨ensure_eq_ok.mp hc, h⟩

end

/-- A computation that fails only with errors that satisfy a predicate. -/
def FailsWith {ε : Type*} {α : Type} (P : ε → Prop) (x : Except ε α) : Prop :=
  ∀ e, x = .error e → P e

namespace FailsWith

variable {ε : Type*} {α β : Type} {P Q : ε → Prop} {x : Except ε α}

theorem mono (h : FailsWith P x) (hPQ : ∀ e, P e → Q e) : FailsWith Q x :=
  fun e he => hPQ e (h e he)

variable {e : ε} {c : Prop} {γ : Type*}

theorem ne (h : FailsWith P x) (he : ¬P e) : x ≠ .error e := fun hx => he (h e hx)

theorem ok (a : α) : FailsWith P (.ok a) := fun _ he => nomatch he

theorem pure (a : α) : FailsWith P (Pure.pure a : Except ε α) := FailsWith.ok a

theorem error (h : P e) : FailsWith P (.error e : Except ε α) := by
  intro e' he'
  cases he'
  exact h

theorem ensure [Decidable c] (h : P e) : FailsWith P (ensure c e) := by
  intro e' he'
  obtain rfl := (ensure_eq_error.mp he').2
  exact h

theorem bind {f : α → Except ε β} (hx : FailsWith P x) (hf : ∀ a, FailsWith P (f a)) :
    FailsWith P (x >>= f) := by
  intro e he
  rcases except_bind_eq_error.mp he with he | ⟨a, -, he⟩
  · exact hx e he
  · exact hf a e he

theorem foldlM {f : β → γ → Except ε β} (hf : ∀ b c, FailsWith P (f b c)) (l : List γ) (b : β) :
    FailsWith P (l.foldlM f b) := by
  induction l generalizing b with
  | nil => exact pure b
  | cons c l ih =>
    exact bind (hf b c) ih

theorem forM {f : γ → Except ε Unit} (hf : ∀ c, FailsWith P (f c)) (l : List γ) :
    FailsWith P (l.forM f) := by
  induction l with
  | nil => exact pure ()
  | cons c l ih => exact bind (hf c) fun _ => ih

theorem ite [Decidable c] {y : Except ε α} (hx : FailsWith P x) (hy : FailsWith P y) :
    FailsWith P (if c then x else y) := by
  split
  · exact hx
  · exact hy

end FailsWith

/-- A program that reads and changes a state of type `σ` and returns an `α` or fails with an `ε`. -/
def Action (σ ε : Type*) (α : Type) := σ → Except ε α × σ

namespace Action

variable {σ ε : Type*} {α β : Type} {x : Action σ ε α}

instance : Monad (Action σ ε) where
  pure a := fun s => (.ok a, s)
  bind x f := fun s =>
    match x s with
    | (.ok a, s') => f a s'
    | (.error e, s') => (.error e, s')

/-- The current state. -/
def get {σ : Type} {ε : Type*} : Action σ ε σ := fun s => (.ok s, s)

/-- Changes the state. -/
def modify (f : σ → σ) : Action σ ε Unit := fun s => (.ok (), f s)

def fail (e : ε) : Action σ ε α := fun s => (.error e, s)

/-- Runs a computation that only reads the state. -/
def reading (f : σ → Except ε α) : Action σ ε α := fun s => (f s, s)

/-- Fails with `e` unless the condition holds. -/
def check (c : Prop) [Decidable c] (e : ε) : Action σ ε Unit := fun s => (ensure c e, s)

/-- Runs an action, and a handler for its failure. The handler sees the state that the failed action
left behind. -/
def handle (x : Action σ ε α) (handler : ε → Action σ ε α) : Action σ ε α := fun s =>
  match x s with
  | (.ok a, s') => (.ok a, s')
  | (.error e, s') => handler e s'

@[simp]
theorem pure_apply (a : α) (s : σ) : (pure a : Action σ ε α) s = (.ok a, s) := rfl

@[simp]
theorem get_apply {σ : Type} (s : σ) : (get : Action σ ε σ) s = (.ok s, s) := rfl

@[simp]
theorem modify_apply (f : σ → σ) (s : σ) : (modify f : Action σ ε Unit) s = (.ok (), f s) := rfl

@[simp]
theorem fail_apply (e : ε) (s : σ) : (fail e : Action σ ε α) s = (.error e, s) := rfl

@[simp]
theorem reading_apply (f : σ → Except ε α) (s : σ) : reading f s = (f s, s) := rfl

@[simp]
theorem check_apply (c : Prop) [Decidable c] (e : ε) (s : σ) :
    (check c e : Action σ ε Unit) s = (ensure c e, s) := rfl

theorem bind_apply (x : Action σ ε α) (f : α → Action σ ε β) (s : σ) :
    (x >>= f) s = match x s with
      | (.ok a, s') => f a s'
      | (.error e, s') => (.error e, s') := rfl

theorem bind_assoc {γ : Type} (x : Action σ ε α) (f : α → Action σ ε β) (g : β → Action σ ε γ) :
    ((x >>= f) >>= g) = (x >>= fun a => f a >>= g) := by
  funext s
  simp only [bind_apply]
  rcases x s with ⟨_ | a, t⟩ <;> rfl

theorem bind_of_ok {f : α → Action σ ε β} {s s' : σ} {a : α} (h : x s = (.ok a, s')) :
    (x >>= f) s = f a s' := by
  rw [bind_apply, h]

variable {f : α → Action σ ε β} {s s' : σ} {b : β} {e : ε} {r : Except ε β} {c : Prop}
  {g : Unit → Action σ ε β}

theorem bind_eq_ok :
    (x >>= f) s = (.ok b, s') ↔ ∃ a t, x s = (.ok a, t) ∧ f a t = (.ok b, s') := by
  rw [bind_apply]
  rcases x s with ⟨_ | a, t⟩ <;> simp

theorem bind_eq_error :
    (x >>= f) s = (.error e, s') ↔
      x s = (.error e, s') ∨ ∃ a t, x s = (.ok a, t) ∧ f a t = (.error e, s') := by
  rw [bind_apply]
  rcases x s with ⟨_ | a, t⟩ <;> simp

theorem handle_eq_ok {handler : ε → Action σ ε α} {a : α} :
    handle x handler s = (.ok a, s') ↔
      x s = (.ok a, s') ∨ ∃ e t, x s = (.error e, t) ∧ handler e t = (.ok a, s') := by
  unfold handle
  rcases x s with ⟨_ | b, t⟩ <;> simp

/-- A loop that succeeds on a list that is not empty succeeds on its first element, and then on the
others. -/
theorem forM_cons_eq_ok {γ : Type*} {f : γ → Action σ ε Unit} {a : γ} {l : List γ} :
    (a :: l).forM f s = (.ok (), s') ↔ ∃ t, f a s = (.ok (), t) ∧ l.forM f t = (.ok (), s') := by
  change (f a >>= fun _ => l.forM f) s = (.ok (), s') ↔ _
  rw [bind_eq_ok]
  constructor
  · rintro ⟨⟨⟩, t, h⟩
    exact ⟨t, h⟩
  · rintro ⟨t, h⟩
    exact ⟨(), t, h⟩

theorem bind_cases (h : (x >>= f) s = (r, s')) :
    (∃ e, x s = (.error e, s')) ∨ ∃ a t, x s = (.ok a, t) ∧ f a t = (r, s') := by
  rw [bind_apply] at h
  rcases hx : x s with ⟨e | a, t⟩
  · rw [hx] at h
    cases h
    exact .inl ⟨e, rfl⟩
  · rw [hx] at h
    exact .inr ⟨a, t, rfl, h⟩

theorem reading_bind_cases {f : σ → Except ε α} {g : α → Action σ ε β}
    (h : (reading f >>= g) s = (r, s')) : s' = s ∨ ∃ a, f s = .ok a ∧ g a s = (r, s') := by
  rw [bind_apply, reading_apply] at h
  rcases hf : f s with e | a
  · rw [hf] at h
    exact .inl (Prod.mk.inj h).2.symm
  · rw [hf] at h
    exact .inr ⟨a, rfl, h⟩

theorem reading_bind_eq_ok {f : σ → Except ε α} {g : α → Action σ ε β} :
    (reading f >>= g) s = (.ok b, s') ↔ ∃ a, f s = .ok a ∧ g a s = (.ok b, s') := by
  rw [bind_apply, reading_apply]
  rcases f s with e | a <;> simp

theorem check_bind_eq_ok [Decidable c] :
    (check c e >>= g) s = (.ok b, s') ↔ c ∧ g () s = (.ok b, s') := by
  rw [bind_apply, check_apply]
  by_cases h : c <;> simp [ensure, h]

theorem modify_bind (f : σ → σ) (g : Unit → Action σ ε β) (s : σ) :
    ((modify f : Action σ ε Unit) >>= g) s = g () (f s) := rfl

theorem modify_bind_eq_ok {f : σ → σ} :
    ((modify f : Action σ ε Unit) >>= g) s = (.ok b, s') ↔ g () (f s) = (.ok b, s') := Iff.rfl

theorem get_bind {σ : Type} (g : σ → Action σ ε β) (s : σ) :
    ((get : Action σ ε σ) >>= g) s = g s s := rfl

theorem check_bind_cases [Decidable c] (h : (check c e >>= g) s = (r, s')) :
    s' = s ∨ (c ∧ g () s = (r, s')) := by
  rcases reading_bind_cases h with hfail | ⟨⟨⟩, hc, hrest⟩
  · exact .inl hfail
  · exact .inr ⟨ensure_eq_ok.mp hc, hrest⟩

theorem check_bind_of [Decidable c] (h : c) (s : σ) : (check c e >>= g) s = g () s := by
  apply bind_of_ok
  exact Prod.ext (ensure_eq_ok.mpr h) rfl

theorem check_bind_of_not [Decidable c] (h : ¬c) (s : σ) : (check c e >>= g) s = (.error e, s) := by
  rw [bind_apply, check_apply, ensure, if_neg h]

theorem eq_of_fst {r : Except ε α} (h : (x s).1 = r) : x s = (r, (x s).2) := by
  rw [← h]

/-- The relation between the states before and after a run, whatever its outcome. -/
def Keeps (R : σ → σ → Prop) (x : Action σ ε α) : Prop := ∀ s, R s (x s).2

section

variable {R : σ → σ → Prop} {x : Action σ ε α}

theorem Keeps.of_eq (h : Keeps R x) {s s' : σ} {r : Except ε α} (hr : x s = (r, s')) : R s s' := by
  have := h s
  rwa [hr] at this

theorem Keeps.bind (trans : ∀ {a b c}, R a b → R b c → R a c) (hx : Keeps R x)
    (hf : ∀ a, Keeps R (f a)) : Keeps R (x >>= f) := by
  intro s
  have hxs := hx s
  rw [bind_apply]
  rcases h : x s with ⟨_ | a, t⟩ <;> rw [h] at hxs
  · exact hxs
  · exact trans hxs (hf a t)

theorem Keeps.handle (trans : ∀ {a b c}, R a b → R b c → R a c) {handler : ε → Action σ ε α}
    (hx : Keeps R x) (hh : ∀ e, Keeps R (handler e)) :
    Keeps R (Action.handle x handler) := by
  intro s
  have hxs := hx s
  unfold Action.handle
  rcases h : x s with ⟨e | a, t⟩ <;> rw [h] at hxs
  · exact trans hxs (hh e t)
  · exact hxs

end

/-- An action that maintains an invariant whatever its outcome, and whose result, when it succeeds,
satisfies a predicate. -/
def Maintains (P : σ → Prop) (x : Action σ ε α) (Q : α → Prop) : Prop :=
  ∀ s, P s → P (x s).2 ∧ ∀ a, (x s).1 = .ok a → Q a

namespace Maintains

variable {P : σ → Prop} {Q : α → Prop} {Q' : β → Prop}

variable {a : α} {x : Action σ ε α}

theorem of_eq_ok (h : Maintains P x Q) (hs : P s) (hx : x s = (.ok a, s')) :
    P s' ∧ Q a := by
  obtain ⟨hP, hQ⟩ := h s hs
  rw [hx] at hP hQ
  exact ⟨hP, hQ a rfl⟩

theorem pure (ha : Q a) : Maintains P (Pure.pure a : Action σ ε α) Q := by
  intro s hs
  refine ⟨hs, fun b hb => ?_⟩
  cases hb
  exact ha

theorem get {σ : Type} {ε : Type*} {P : σ → Prop} : Maintains P (Action.get : Action σ ε σ) P := by
  intro s hs
  refine ⟨hs, fun b hb => ?_⟩
  cases hb
  exact hs

theorem fail (e : ε) : Maintains P (Action.fail e : Action σ ε α) Q :=
  fun _ hs => ⟨hs, fun _ ha => nomatch ha⟩

theorem reading (f : σ → Except ε α) : Maintains P (Action.reading f) fun _ => True :=
  fun _ hs => ⟨hs, fun _ _ => trivial⟩

theorem check (c : Prop) [Decidable c] (e : ε) :
    Maintains P (Action.check c e : Action σ ε Unit) fun _ => True :=
  fun _ hs => ⟨hs, fun _ _ => trivial⟩

theorem modify {f : σ → σ} (h : ∀ s, P s → P (f s)) :
    Maintains P (Action.modify f : Action σ ε Unit) fun _ => True :=
  fun s hs => ⟨h s hs, fun _ _ => trivial⟩

theorem bind (hx : Maintains P x Q) (hf : ∀ a, Q a → Maintains P (f a) Q') :
    Maintains P (x >>= f) Q' := by
  intro s hs
  obtain ⟨hP, hQ⟩ := hx s hs
  rw [bind_apply]
  rcases h : x s with ⟨_ | a, t⟩ <;> rw [h] at hP hQ
  · exact ⟨hP, fun _ hb => nomatch hb⟩
  · exact hf a (hQ a rfl) t hP

theorem ite [Decidable c] {y : Action σ ε α} (hx : c → Maintains P x Q)
    (hy : ¬c → Maintains P y Q) : Maintains P (if c then x else y) Q := by
  split
  · exact hx ‹c›
  · exact hy ‹¬c›

end Maintains

/-- An action that succeeds from every state that satisfies a condition, with a result and a final
state that satisfy another. -/
def Succeeds (P : σ → Prop) (x : Action σ ε α) (Q : α → σ → Prop) : Prop :=
  ∀ s, P s → ∃ a s', x s = (.ok a, s') ∧ Q a s'

namespace Succeeds

variable {P : σ → Prop} {Q Q' : α → σ → Prop} {R : β → σ → Prop}

theorem pure {a : α} (h : ∀ s, P s → Q a s) : Succeeds P (Pure.pure a : Action σ ε α) Q :=
  fun s hs => ⟨a, s, rfl, h s hs⟩

theorem reading {f : σ → Except ε α} (h : ∀ s, P s → ∃ a, f s = .ok a ∧ Q a s) :
    Succeeds P (Action.reading f) Q := by
  intro s hs
  obtain ⟨a, ha, hQ⟩ := h s hs
  exact ⟨a, s, Prod.ext ha rfl, hQ⟩

variable {c : Prop}

theorem check [Decidable c] {Q : Unit → σ → Prop} (h : ∀ s, P s → c ∧ Q () s) :
    Succeeds P (Action.check c e : Action σ ε Unit) Q :=
  fun s hs => ⟨(), s, Prod.ext (ensure_eq_ok.mpr (h s hs).1) rfl, (h s hs).2⟩

theorem modify {f : σ → σ} {Q : Unit → σ → Prop} (h : ∀ s, P s → Q () (f s)) :
    Succeeds P (Action.modify f : Action σ ε Unit) Q :=
  fun s hs => ⟨(), f s, rfl, h s hs⟩

theorem bind (hx : Succeeds P x Q) (hf : ∀ a, Succeeds (Q a) (f a) R) : Succeeds P (x >>= f) R := by
  intro s hs
  obtain ⟨a, t, hrun, ha⟩ := hx s hs
  obtain ⟨b, s', hrest, hb⟩ := hf a t ha
  exact ⟨b, s', (bind_of_ok hrun).trans hrest, hb⟩

theorem ite [Decidable c] {y : Action σ ε α} (hx : c → Succeeds P x Q) (hy : ¬c → Succeeds P y Q) :
    Succeeds P (if c then x else y) Q := by
  split
  · exact hx ‹c›
  · exact hy ‹¬c›

end Succeeds

end Action

end ZalemCoin.Lib
