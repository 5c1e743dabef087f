import MaxPlus.Proofs.Grid.Permanent
import MaxPlus.Proofs.Grid.Product

/-!
Minors, the adjoint and the expansion of the permanent along a row.

A row of the grid times a column of its adjoint is a permanent: that of the grid itself on the
diagonal, and that of a grid with two equal rows elsewhere. The latter is a sum of equal pairs,
since two permutations that differ by the exchange of the equal rows have equal terms.
-/

set_option autoImplicit false
set_option relaxedAutoImplicit false

namespace MaxPlus

namespace Grid

universe u v

variable {S : Type u} {T : Type v} {n : ℕ}

section Relations

variable [Zero S] [One S] [Add S] [Mul S]

theorem adjoint_apply (A : Grid S (n + 1) (n + 1)) (i j : Fin (n + 1)) :
    A.adjoint i j = (A.minor j i).permanent := by
  simp [adjoint]

theorem adjointByEntries_eq_adjoint (A : Grid S n n) : A.adjointByEntries = A.adjoint := by
  cases n with
  | zero => rfl
  | succ n =>
    apply ext
    intro i j
    simp [adjointByEntries, adjoint, Task.spawn]

variable [Zero T] [One T] [Add T] [Mul T]

theorem adjoint_related {R : S → T → Prop} (h : Respects R) {A : Grid S n n} {B : Grid T n n}
    (hAB : ∀ i j, R (A i j) (B i j)) (i j : Fin n) : R (A.adjoint i j) (B.adjoint i j) := by
  cases n with
  | zero => exact i.elim0
  | succ n =>
    rw [adjoint_apply, adjoint_apply]
    refine permanent_related h fun p q => ?_
    rw [minor_apply, minor_apply]
    exact hAB _ _

theorem adjoint_map {g : S → T} (h : Preserves g) (A : Grid S n n) :
    (A.map g).adjoint = A.adjoint.map g := by
  apply ext
  intro i j
  rw [map_apply]
  exact (adjoint_related h.respects (fun i j => (map_apply g A i j).symm) i j).symm

end Relations

section Expansion

variable [CommSemiring S]

theorem permanent_eq_sum_prod (A : Grid S n n) :
    A.permanent = ∑ σ : Equiv.Perm (Fin n), ∏ i, A i (σ i) := by
  simp only [permanent_eq_sum, productOver_eq_prod]

theorem permanent_minor (A : Grid S (n + 1) (n + 1)) (i c : Fin (n + 1)) :
    (A.minor i c).permanent =
      ∑ τ : Equiv.Perm (Fin n), ∏ p, A (i.succAbove p) (insertAt i c τ (i.succAbove p)) := by
  simp only [permanent_eq_sum_prod, minor_apply, skip_eq_succAbove, insertAt_succAbove]

/-- Expansion along row `i`. -/
private theorem sum_mul_permanent_minor (A : Grid S (n + 1) (n + 1)) (i : Fin (n + 1)) :
    ∑ c, A i c * (A.minor i c).permanent = A.permanent := by
  rw [permanent_eq_sum_prod, sum_perm_succ i]
  refine Finset.sum_congr rfl ?_
  intro c _
  rw [permanent_minor, Finset.mul_sum]
  refine Finset.sum_congr rfl ?_
  intro τ _
  rw [Fin.prod_univ_succAbove _ i, insertAt_self]

private theorem prod_erase_eq {M : Type u} [CommMonoid M] (i : Fin (n + 1)) (f : Fin (n + 1) → M) :
    ∏ r ∈ Finset.univ.erase i, f r = ∏ p, f (i.succAbove p) := by
  rw [Fin.univ_succAbove n i, Finset.cons_eq_insert, Finset.erase_insert, Finset.prod_map]
  · rfl
  · simp

/-- Entry `(i, j)` of the adjoint sums over the permutations that send `j` to `i`, without the
factor of row `j`. -/
theorem adjoint_eq_sum (A : Grid S n n) (i j : Fin n) :
    A.adjoint i j =
      ∑ σ : Equiv.Perm (Fin n) with σ j = i, ∏ r ∈ Finset.univ.erase j, A r (σ r) := by
  cases n with
  | zero => exact i.elim0
  | succ n =>
    rw [adjoint_apply, permanent_minor, Finset.sum_filter, sum_perm_succ j]
    simp only [insertAt_self, prod_erase_eq]
    rw [Finset.sum_comm]
    simp

def withRow (A : Grid S n n) (k : Fin n) (row : Fin n → S) : Grid S n n :=
  ofFn fun r c => if r = k then row c else A r c

theorem sum_mul_permanent_minor_of_row (A : Grid S (n + 1) (n + 1)) (k : Fin (n + 1))
    (row : Fin (n + 1) → S) :
    ∑ c, row c * (A.minor k c).permanent = (A.withRow k row).permanent := by
  rw [← sum_mul_permanent_minor _ k]
  refine Finset.sum_congr rfl ?_
  intro c _
  have hminor : (A.withRow k row).minor k c = A.minor k c := by
    apply ext
    intro p q
    simp [withRow, skip_eq_succAbove, Fin.succAbove_ne]
  rw [hminor, withRow, ofFn_apply, if_pos rfl]

theorem prod_mul_swap {M : Type u} [CommMonoid M] {f : Fin n → Fin n → M} {i k : Fin n}
    (hrows : ∀ c, f i c = f k c) (σ : Equiv.Perm (Fin n)) :
    ∏ r, f r ((σ * Equiv.swap i k) r) = ∏ r, f r (σ r) := by
  refine Fintype.prod_equiv (Equiv.swap i k) _ _ ?_
  intro r
  have hrow : ∀ c, f r c = f (Equiv.swap i k r) c := fun c => by
    rw [Equiv.swap_apply_def]
    split_ifs with hi hk
    · rw [hi, hrows]
    · rw [hk, hrows]
    · rfl
  rw [Equiv.Perm.mul_apply, hrow]

theorem permanent_eq_add_self {A : Grid S n n} {i k : Fin n} (hne : i ≠ k)
    (hrows : ∀ c, A i c = A k c) : ∃ s, A.permanent = s + s := by
  -- the permutations that order the two rows one way, against their twins
  let weight (σ : Equiv.Perm (Fin n)) : S := ∏ r, A r (σ r)
  have htwin : ∀ σ, weight (σ * Equiv.swap i k) = weight σ := prod_mul_swap hrows
  have horder : ∀ σ : Equiv.Perm (Fin n),
      (σ * Equiv.swap i k) i < (σ * Equiv.swap i k) k ↔ ¬ σ i < σ k := fun σ => by
    have hσ : σ i ≠ σ k := σ.injective.ne hne
    simp only [Equiv.Perm.mul_apply, Equiv.swap_apply_left, Equiv.swap_apply_right]
    omega
  refine ⟨∑ σ with σ i < σ k, weight σ, ?_⟩
  rw [permanent_eq_sum_prod, ← Finset.sum_filter_add_sum_filter_not _ fun σ => σ i < σ k]
  congr 1
  refine Finset.sum_equiv (Equiv.mulRight (Equiv.swap i k)) (fun σ => ?_) fun σ _ => ?_
  · simp only [Finset.mem_filter, Finset.mem_univ, true_and, Equiv.coe_mulRight, horder]
  · exact (htwin σ).symm

theorem mul_adjoint_self (A : Grid S n n) (i : Fin n) : A.mul A.adjoint i i = A.permanent := by
  cases n with
  | zero => exact i.elim0
  | succ n =>
    rw [mul_eq_sum]
    simp only [adjoint_apply]
    exact A.sum_mul_permanent_minor i

theorem mul_adjoint_of_ne (A : Grid S n n) {i k : Fin n} (hne : i ≠ k) :
    ∃ s, A.mul A.adjoint i k = s + s := by
  cases n with
  | zero => exact i.elim0
  | succ n =>
    rw [mul_eq_sum]
    simp only [adjoint_apply]
    rw [A.sum_mul_permanent_minor_of_row k fun c => A i c]
    apply permanent_eq_add_self hne
    intro c
    simp [withRow]

end Expansion

end Grid

end MaxPlus
