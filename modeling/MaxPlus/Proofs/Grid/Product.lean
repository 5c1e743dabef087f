import MaxPlus.Proofs.Algebra.Fold
import MaxPlus.Grid.Product

/-!
Products of grids as sums over the inner index, and the relations and maps that carry them over.

Over a semiring the product is associative, and the grid with `1` on its diagonal is neutral. A
scalar on the right factor can be taken out, and where the factors commute so can one on the left.
-/

set_option autoImplicit false
set_option relaxedAutoImplicit false

namespace MaxPlus

namespace Grid

universe u v

variable {S : Type u} {T : Type v} {r k c : ℕ}

private theorem dot_eq_sum [AddCommMonoid S] [Mul S] (A : Grid S r k) (B : Grid S k c) (i : Fin r)
    (j : Fin c) : A.dot B i j = ∑ t, A i t * B t j :=
  sumOver_eq_sum _

theorem mul_eq_sum [AddCommMonoid S] [Mul S] (A : Grid S r k) (B : Grid S k c) (i : Fin r)
    (j : Fin c) : A.mul B i j = ∑ t, A i t * B t j := by
  rw [mul_apply, dot_eq_sum]

section Relations

variable [Zero S] [One S] [Add S] [Mul S] [Zero T] [One T] [Add T] [Mul T] {R : S → T → Prop}

theorem mul_related (h : Respects R) {A : Grid S r k} {B : Grid S k c} {A' : Grid T r k}
    {B' : Grid T k c} (hA : ∀ i t, R (A i t) (A' i t)) (hB : ∀ t j, R (B t j) (B' t j))
    (i : Fin r) (j : Fin c) : R (A.mul B i j) (A'.mul B' i j) := by
  rw [mul_apply, mul_apply]
  exact h.sumOver fun t => h.mul (hA i t) (hB t j)

theorem scale_related (h : Respects R) {A : Grid S r c} {A' : Grid T r c} {x : S} {x' : T}
    (hA : ∀ i j, R (A i j) (A' i j)) (hx : R x x') (i : Fin r) (j : Fin c) :
    R (A.scale x i j) (A'.scale x' i j) := by
  rw [scale_apply, scale_apply]
  exact h.mul (hA i j) hx

private theorem mulVec_related (h : Respects R) {A : Grid S r c} {A' : Grid T r c} {x : Vector S c}
    {x' : Vector T c} (hA : ∀ i j, R (A i j) (A' i j)) (hx : ∀ j, R (x.get j) (x'.get j))
    (i : Fin r) : R ((A.mulVec x).get i) ((A'.mulVec x').get i) := by
  simp only [mulVec, Vector.get_eq_getElem, Vector.getElem_ofFn]
  exact h.sumOver fun j => h.mul (hA i j) (hx j)

theorem mulVec_toList_related (h : Respects R) {A : Grid S r c} {A' : Grid T r c} {xs : List S}
    {ys : List T} (hA : ∀ i j, R (A i j) (A' i j)) (hxs : List.Forall₂ R xs ys)
    (hx : xs.toArray.size = c) (hy : ys.toArray.size = c) :
    List.Forall₂ R (A.mulVec ⟨xs.toArray, hx⟩).toList (A'.mulVec ⟨ys.toArray, hy⟩).toList := by
  have hoperands : ∀ j : Fin c, R (Vector.get ⟨xs.toArray, hx⟩ j) (Vector.get ⟨ys.toArray, hy⟩ j) :=
    fun j => (List.forall₂_iff_get.mp hxs).2 j (by simpa [← hx] using j.isLt)
      (by simpa [← hy] using j.isLt)
  refine List.forall₂_iff_get.mpr ⟨by simp, fun i hi _ => ?_⟩
  simpa [Vector.get_eq_getElem] using mulVec_related h hA hoperands ⟨i, by simpa using hi⟩

theorem mul_map {g : S → T} (h : Preserves g) (A : Grid S r k) (B : Grid S k c) :
    (A.map g).mul (B.map g) = (A.mul B).map g := by
  apply ext
  intro i j
  rw [map_apply]
  exact (mul_related h.respects (fun i t => (map_apply g A i t).symm)
    (fun t j => (map_apply g B t j).symm) i j).symm

theorem scale_map {g : S → T} (h : Preserves g) (A : Grid S r c) (x : S) :
    (A.map g).scale (g x) = (A.scale x).map g := by
  apply ext
  intro i j
  rw [map_apply]
  exact (scale_related h.respects (fun i j => (map_apply g A i j).symm) rfl i j).symm

end Relations

section Laws

protected theorem mul_assoc [Semiring S] {l : ℕ} (A : Grid S r k) (B : Grid S k l)
    (C : Grid S l c) : (A.mul B).mul C = A.mul (B.mul C) := by
  apply ext
  intro i j
  simp only [mul_eq_sum, Finset.sum_mul, Finset.mul_sum, mul_assoc]
  exact Finset.sum_comm

def identity [Zero S] [One S] (n : ℕ) : Grid S n n :=
  ofFn fun i j => if i = j then 1 else 0

theorem identity_mul [Semiring S] (A : Grid S r c) : (identity r).mul A = A := by
  apply ext
  intro i j
  simp only [mul_eq_sum, identity, ofFn_apply, ite_mul, one_mul, zero_mul]
  rw [Finset.sum_ite_eq, if_pos (Finset.mem_univ i)]

theorem mul_identity [Semiring S] (A : Grid S r c) : A.mul (identity c) = A := by
  apply ext
  intro i j
  simp only [mul_eq_sum, identity, ofFn_apply, mul_ite, mul_one, mul_zero]
  rw [Finset.sum_ite_eq', if_pos (Finset.mem_univ j)]

theorem scale_scale [Semiring S] (A : Grid S r c) (x y : S) :
    (A.scale x).scale y = A.scale (x * y) := by
  apply ext
  intro i j
  rw [scale_apply, scale_apply, scale_apply, mul_assoc]

theorem mul_scale [Semiring S] (A : Grid S r k) (B : Grid S k c) (x : S) :
    A.mul (B.scale x) = (A.mul B).scale x := by
  apply ext
  intro i j
  rw [scale_apply, mul_eq_sum, mul_eq_sum, Finset.sum_mul]
  simp only [scale_apply, mul_assoc]

theorem scale_mul [CommSemiring S] (A : Grid S r k) (B : Grid S k c) (x : S) :
    (A.scale x).mul B = (A.mul B).scale x := by
  apply ext
  intro i j
  rw [scale_apply, mul_eq_sum, mul_eq_sum, Finset.sum_mul]
  simp only [scale_apply, mul_right_comm]

end Laws

theorem mulByRows_eq_mul [Zero S] [Add S] [Mul S] (A : Grid S r k) (B : Grid S k c) :
    A.mulByRows B = A.mul B := by
  apply ext
  intro i j
  simp [mulByRows, Task.spawn]

end Grid

end MaxPlus
