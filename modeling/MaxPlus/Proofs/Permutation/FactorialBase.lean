import Mathlib
import MaxPlus.Permutation.Factorial

/-!
Numbers in the factorial base.

Digit `i` of a number counts its multiples of `i!`, from `0` to `i`. Adding one clears the full
digits below the carry level and raises the digit there; all digits above it stay. The factorials
that fit a 64-bit word are found by the bounded search.
-/

set_option autoImplicit false
set_option relaxedAutoImplicit false

namespace MaxPlus

open scoped Nat

theorem factorial_eq_natFactorial (n : ℕ) : factorial n = n ! := by
  induction n with
  | zero => rfl
  | succ n ih => rw [factorial, ih, Nat.factorial_succ]

private theorem factorialFrom_eq (n k : ℕ) (hk : k ≤ n) (hfit : k ! < UInt64.size) :
    factorialFrom k ! (k + 1) n = if n ! < UInt64.size then some n ! else none := by
  induction hd : n - k generalizing k with
  | zero =>
    obtain rfl : k = n := by omega
    rw [factorialFrom, if_pos (Nat.lt_succ_self k), if_pos hfit]
  | succ d ih =>
    rw [factorialFrom, if_neg (by omega), Nat.mul_comm, ← Nat.factorial_succ]
    split_ifs with hnext hn hn
    · rw [ih (k + 1) (by omega) hnext (by omega), if_pos hn]
    · rw [ih (k + 1) (by omega) hnext (by omega), if_neg hn]
    · have hle : (k + 1)! ≤ n ! := Nat.factorial_le (by omega)
      omega
    · rfl

theorem factorial?_eq (n : ℕ) :
    factorial? n = if n ! < UInt64.size then some n ! else none :=
  factorialFrom_eq n 0 (Nat.zero_le n) (by decide)

def factorialDigit (k i : ℕ) : ℕ :=
  k / i ! % (i + 1)

theorem factorialDigit_le (k i : ℕ) : factorialDigit k i ≤ i :=
  Nat.le_of_lt_succ (Nat.mod_lt _ (Nat.succ_pos i))

@[simp] theorem factorialDigit_zero (i : ℕ) : factorialDigit 0 i = 0 := by
  simp [factorialDigit]

theorem sum_factorialDigit_mul (k n : ℕ) :
    ∑ i ∈ Finset.range n, factorialDigit k i * i ! = k % n ! := by
  induction n with
  | zero => simp [Nat.mod_one]
  | succ n ih =>
    rw [Finset.sum_range_succ, ih, factorialDigit, Nat.factorial_succ, Nat.mul_comm (n + 1),
      Nat.mod_mul, Nat.mul_comm (n !)]

theorem factorial_succ_dvd_succ_iff (k i : ℕ) :
    (i + 1)! ∣ k + 1 ↔ i ! ∣ k + 1 ∧ factorialDigit k i = i := by
  have hquot : i ! ∣ k + 1 → (k + 1) / i ! = k / i ! + 1 := fun h => by
    rw [Nat.succ_div, if_pos h]
  have hfull : (i + 1) ∣ k / i ! + 1 ↔ factorialDigit k i = i := by
    rw [Nat.dvd_iff_mod_eq_zero, Nat.succ_mod_succ_eq_zero_iff, factorialDigit]
  rw [Nat.factorial_succ, Nat.mul_comm]
  constructor
  · intro h
    have hi : i ! ∣ k + 1 := (Nat.dvd_mul_right _ _).trans h
    refine ⟨hi, hfull.mp ?_⟩
    rw [← hquot hi]
    exact (Nat.dvd_div_iff_mul_dvd hi).mpr h
  · rintro ⟨hi, hd⟩
    rw [← Nat.dvd_div_iff_mul_dvd hi, hquot hi]
    exact hfull.mpr hd

private theorem factorialDigit_succ_of_not_dvd {k i : ℕ} (h : ¬ i ! ∣ k + 1) :
    factorialDigit (k + 1) i = factorialDigit k i := by
  simp only [factorialDigit, Nat.succ_div, if_neg h, Nat.add_zero]

private theorem factorialDigit_succ_of_lt {k i : ℕ} (hd : i ! ∣ k + 1)
    (hlt : factorialDigit k i < i) : factorialDigit (k + 1) i = factorialDigit k i + 1 := by
  simp only [factorialDigit] at hlt ⊢
  rw [Nat.succ_div, if_pos hd, Nat.add_mod]
  rcases Nat.eq_zero_or_pos i with rfl | hi
  · omega
  · rw [Nat.mod_eq_of_lt (a := 1) (by omega)]
    exact Nat.mod_eq_of_lt (by omega)

private theorem factorialDigit_succ_of_dvd {k i : ℕ} (h : (i + 1)! ∣ k + 1) :
    factorialDigit (k + 1) i = 0 := by
  obtain ⟨hi, _⟩ := (factorial_succ_dvd_succ_iff k i).mp h
  rw [Nat.factorial_succ, Nat.mul_comm, ← Nat.dvd_div_iff_mul_dvd hi] at h
  exact Nat.mod_eq_zero_of_dvd h

theorem factorialDigit_mul_add {m i : ℕ} (h : i < m) (c r : ℕ) :
    factorialDigit (c * m ! + r) i = factorialDigit r i := by
  obtain ⟨q, hq⟩ : (i + 1)! ∣ m ! := Nat.factorial_dvd_factorial h
  have hsplit : c * m ! + r = r + i ! * ((i + 1) * (q * c)) := by
    rw [hq, Nat.factorial_succ]
    ring
  rw [factorialDigit, factorialDigit, hsplit, Nat.add_mul_div_left _ _ (Nat.factorial_pos i),
    Nat.add_mul_mod_self_left]

theorem factorialDigit_mul_add_self {m c r : ℕ} (hc : c ≤ m) (hr : r < m !) :
    factorialDigit (c * m ! + r) m = c := by
  rw [factorialDigit, Nat.add_comm, Nat.add_mul_div_right _ _ (Nat.factorial_pos m),
    Nat.div_eq_of_lt hr, Nat.zero_add, Nat.mod_eq_of_lt (by omega)]

private theorem exists_factorial_not_dvd_succ (k : ℕ) : ∃ i, ¬ (i + 2)! ∣ k + 1 := by
  refine ⟨k, ?_⟩
  intro h
  have hle := Nat.le_of_dvd (Nat.succ_pos k) h
  have hself := Nat.self_le_factorial (k + 2)
  omega

def carryLevel (k : ℕ) : ℕ :=
  Nat.find (exists_factorial_not_dvd_succ k) + 1

theorem carryLevel_pos (k : ℕ) : 0 < carryLevel k :=
  Nat.succ_pos _

theorem not_dvd_carryLevel (k : ℕ) : ¬ (carryLevel k + 1)! ∣ k + 1 :=
  Nat.find_spec (exists_factorial_not_dvd_succ k)

theorem dvd_of_le_carryLevel {k i : ℕ} (h : i ≤ carryLevel k) : i ! ∣ k + 1 := by
  rcases i with _ | _ | i
  · simp
  · simp
  · have hlt : i < Nat.find (exists_factorial_not_dvd_succ k) := by
      rw [carryLevel] at h
      omega
    exact not_not.mp (Nat.find_min _ hlt)

private theorem not_dvd_of_carryLevel_lt {k i : ℕ} (h : carryLevel k < i) : ¬ i ! ∣ k + 1 :=
  fun hd => not_dvd_carryLevel k ((Nat.factorial_dvd_factorial h).trans hd)

theorem carryLevel_eq {k i : ℕ} (hd : i ! ∣ k + 1) (hn : ¬ (i + 1)! ∣ k + 1) :
    carryLevel k = i := by
  rcases lt_trichotomy (carryLevel k) i with h | h | h
  · exact absurd hd (not_dvd_of_carryLevel_lt h)
  · exact h
  · exact absurd (dvd_of_le_carryLevel h) hn

theorem factorialDigit_carryLevel_lt (k : ℕ) : factorialDigit k (carryLevel k) < carryLevel k := by
  refine lt_of_le_of_ne (factorialDigit_le k _) fun h => not_dvd_carryLevel k ?_
  exact (factorial_succ_dvd_succ_iff k _).mpr ⟨dvd_of_le_carryLevel le_rfl, h⟩

theorem factorialDigit_succ (k i : ℕ) :
    factorialDigit (k + 1) i =
      if i < carryLevel k then 0
      else if i = carryLevel k then factorialDigit k i + 1
      else factorialDigit k i := by
  split_ifs with hlt heq
  · exact factorialDigit_succ_of_dvd (dvd_of_le_carryLevel hlt)
  · subst heq
    exact factorialDigit_succ_of_lt (dvd_of_le_carryLevel le_rfl) (factorialDigit_carryLevel_lt k)
  · exact factorialDigit_succ_of_not_dvd (not_dvd_of_carryLevel_lt (by omega))

end MaxPlus
