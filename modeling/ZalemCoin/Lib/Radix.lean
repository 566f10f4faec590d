import Mathlib.Data.Nat.Digits.Lemmas

/-!
# Digits in two bases

A number is carried over from one base to another by multiplying and adding in place: the digits of the
new base, of which there are a fixed number, are multiplied by the old base and the next digit is added,
from the lowest digit on with a carry (`mulAdd`). The highest digit comes first, and digits that do not
begin with zero are determined by their number (`number_injective`).
-/

namespace ZalemCoin.Lib.Radix

variable {b m carry : ℕ} {ds ds' : List ℕ}

/-- The number with the given digits, the highest one first. -/
def number (b : ℕ) (ds : List ℕ) : ℕ := ds.foldl (fun n d => b * n + d) 0

/-- Multiplies a number in place and adds to it; what does not fit is carried out. -/
def mulAdd (b m carry : ℕ) (ds : List ℕ) : ℕ × List ℕ :=
  ds.mapAccumr (fun d carry => ((carry + m * d) / b, (carry + m * d) % b)) carry

theorem number_eq_ofDigits (b : ℕ) (ds : List ℕ) : number b ds = Nat.ofDigits b ds.reverse := by
  induction ds using List.reverseRecOn with
  | nil => rfl
  | append_singleton ds d ih =>
    rw [List.reverse_append, List.reverse_singleton, List.singleton_append, Nat.ofDigits_cons, ← ih,
      Nat.add_comm]
    exact List.foldl_append

theorem number_concat (b : ℕ) (ds : List ℕ) (d : ℕ) :
    number b (ds ++ [d]) = b * number b ds + d :=
  List.foldl_append

theorem number_cons (b d : ℕ) (ds : List ℕ) :
    number b (d :: ds) = b ^ ds.length * d + number b ds := by
  rw [number_eq_ofDigits, Nat.ofDigits_reverse_cons, number_eq_ofDigits, Nat.add_comm]

theorem number_replicate_zero (b k : ℕ) : number b (List.replicate k 0) = 0 := by
  rw [number_eq_ofDigits, List.reverse_replicate, Nat.ofDigits_replicate_zero]

theorem number_dropWhile (b : ℕ) (ds : List ℕ) :
    number b (ds.dropWhile fun d => d == 0) = number b ds := by
  induction ds with
  | nil => rfl
  | cons d ds ih =>
    rw [List.dropWhile_cons]
    split_ifs with hd
    · rw [ih, number_cons, eq_of_beq hd, Nat.mul_zero, Nat.zero_add]
    · rfl

theorem number_injective (hb : 1 < b) (hds : ∀ d ∈ ds, d < b) (hds' : ∀ d ∈ ds', d < b)
    (hhead : ds.head? ≠ some 0) (hhead' : ds'.head? ≠ some 0) (h : number b ds = number b ds') :
    ds = ds' := by
  have hdigs : ∀ {ds : List ℕ}, (∀ d ∈ ds, d < b) → ds.head? ≠ some 0 →
      Nat.digits b (number b ds) = ds.reverse := by
    intro ds hds hhead
    rw [number_eq_ofDigits]
    apply Nat.digits_ofDigits b hb _ fun d hd => hds d (List.mem_reverse.mp hd)
    intro hne hlast
    apply hhead
    rw [← hlast, ← List.getLast?_eq_some_getLast hne, List.getLast?_reverse]
  apply List.reverse_injective
  rw [← hdigs hds hhead, ← hdigs hds' hhead', h]

theorem mulAdd_spec (hb : 0 < b) (m carry : ℕ) (ds : List ℕ) :
    (mulAdd b m carry ds).2.length = ds.length ∧ (∀ d ∈ (mulAdd b m carry ds).2, d < b) ∧
      number b (mulAdd b m carry ds).2 + b ^ ds.length * (mulAdd b m carry ds).1
        = m * number b ds + carry := by
  induction ds with
  | nil =>
    refine ⟨rfl, nofun, ?_⟩
    change 0 + 1 * carry = m * 0 + carry
    omega
  | cons d ds ih =>
    obtain ⟨hlen, hlt, hnum⟩ := ih
    -- The lower digits have been done, and `c` is carried to this one.
    set c := (mulAdd b m carry ds).1 with hc
    have hstep : mulAdd b m carry (d :: ds)
        = ((c + m * d) / b, (c + m * d) % b :: (mulAdd b m carry ds).2) := rfl
    rw [hstep]
    refine ⟨by rw [List.length_cons, List.length_cons, hlen], ?_, ?_⟩
    · intro e he
      rcases List.mem_cons.mp he with rfl | he
      · exact Nat.mod_lt _ hb
      · exact hlt e he
    · dsimp only
      rw [number_cons, number_cons, hlen, List.length_cons]
      calc b ^ ds.length * ((c + m * d) % b) + number b (mulAdd b m carry ds).2
            + b ^ (ds.length + 1) * ((c + m * d) / b)
          = b ^ ds.length * ((c + m * d) % b + b * ((c + m * d) / b))
            + number b (mulAdd b m carry ds).2 := by ring
        _ = number b (mulAdd b m carry ds).2 + b ^ ds.length * c + b ^ ds.length * (m * d) := by
          rw [Nat.mod_add_div]
          ring
        _ = m * (b ^ ds.length * d + number b ds) + carry := by
          rw [hnum]
          ring

end ZalemCoin.Lib.Radix
