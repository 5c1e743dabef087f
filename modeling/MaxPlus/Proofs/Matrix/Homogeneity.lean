import MaxPlus.Proofs.Matrix.Cramer

/-!
Matrices multiplied by a scalar.

A permanent takes the scalar once for each row, and an entry of the adjoint once for each row but
one. So the solution of a system is divided by a scalar that multiplies its matrix, if the scalar
has an inverse: it is tangible and finite.
-/

set_option autoImplicit false
set_option relaxedAutoImplicit false

namespace MaxPlus

namespace NormalElement

private theorem pow_eq_ok (a : NormalElement) (n : ℕ) : a.1.pow n = .ok (a ^ n).1 := by
  have hbase : computed a = .ok a.1 := rfl
  obtain ⟨hpower, hsquare⟩ :=
    preserves_computed.respects.squareAndMultiply preserves_computed.one hbase n
  rw [squareAndMultiply_fst, one_mul] at hpower
  rw [Element.pow]
  generalize squareAndMultiply (1 : Computed Exact) (.ok a.1) n = x at hpower hsquare
  obtain ⟨result, square⟩ := x
  cases hpower
  cases hsquare
  rfl

private theorem finite_pow (k : ℤ) (n : ℕ) : finite k false ^ n = finite (n * k) false := by
  induction n with
  | zero => rw [pow_zero, one_eq_finite, Nat.cast_zero, zero_mul]
  | succ n ih =>
    rw [pow_succ, ih, finite_mul_finite, Bool.or_false, Nat.cast_succ, add_one_mul]

end NormalElement

namespace Grid

universe u

variable {S : Type u} [CommSemiring S] {n : ℕ}

private theorem permanent_scale (A : Grid S n n) (x : S) :
    (A.scale x).permanent = x ^ n * A.permanent := by
  rw [permanent_eq_sum_prod, permanent_eq_sum_prod, Finset.mul_sum]
  refine Finset.sum_congr rfl ?_
  intro σ _
  simp only [scale_apply]
  rw [Finset.prod_mul_distrib, Finset.prod_const, Finset.card_univ, Fintype.card_fin, mul_comm]

private theorem minor_scale {r c : ℕ} (A : Grid S (r + 1) (c + 1)) (x : S) (i : Fin (r + 1))
    (j : Fin (c + 1)) : (A.scale x).minor i j = (A.minor i j).scale x := by
  apply ext
  intro p q
  simp

private theorem adjoint_scale (A : Grid S (n + 1) (n + 1)) (x : S) :
    (A.scale x).adjoint = A.adjoint.scale (x ^ n) := by
  apply ext
  intro i j
  rw [scale_apply, adjoint_apply, adjoint_apply, minor_scale, permanent_scale, mul_comm]

section Solutions

open NormalElement

variable {n : ℕ}

private theorem permanent_scale_finite_iff {A : Grid NormalElement n n} {m l : ℤ} :
    (A.scale (finite m false)).permanent = finite l false ↔
      ∃ k, A.permanent = finite k false ∧ l = n * m + k := by
  rw [permanent_scale, finite_pow]
  constructor
  · intro h
    obtain ⟨k, hk⟩ := (mul_eq_tangible h).2
    rw [hk, finite_mul_finite, finite_inj] at h
    exact ⟨k, hk, h.1.symm⟩
  · rintro ⟨k, hk, rfl⟩
    rw [hk, finite_mul_finite, Bool.or_false]

private theorem cramer_scale (A : Grid NormalElement (n + 1) (n + 1))
    (b : Grid NormalElement (n + 1) 1)
    (k m : ℤ) : (A.scale (finite m false)).cramer b ((n + 1 : ℕ) * m + k) =
      (A.cramer b k).scale (finite (-m) false) := by
  -- `c ^ n` over the `c ^ (n + 1)` of the permanent
  have hratio : (n : ℤ) * m + -((n + 1 : ℕ) * m + k) = -k + -m := by
    push_cast
    ring
  rw [cramer, cramer, adjoint_scale, scale_mul, scale_scale, scale_scale, finite_pow,
    finite_mul_finite, finite_mul_finite, hratio]

end Solutions

end Grid

namespace Matrix

open NormalElement

/-- A square matrix and its multiple by `c`: what happens to the permanent, the adjoint and the
solutions. -/
structure ScalesAlong {W : Type} [Weight W] (plan : Plan) (A S : Matrix (Element W))
    (c : Element W) : Prop where
  permanent : ∃ p q r s, A.permanent plan = .ok p ∧ S.permanent plan = .ok q ∧
    c.pow A.rows = .ok r ∧ r.mul p = .ok s ∧ q.sameAs s = true
  adjoint : ∃ adj r, A.adjoint plan = .ok adj ∧ c.pow (A.rows - 1) = .ok r ∧
    Agree (S.adjoint plan) (adj.scale r)
  /-- One system has a solution just where the other has, and then a multiple of it. -/
  solution : c.isTangible = true → c.isZero = false → ∃ d, c.inverse? = some d ∧
    ∀ b : Matrix (Element W), b.Normal → b.shape = ⟨A.rows, 1⟩ →
      (∀ x, A.solve plan b = .ok x → Agree (S.solve plan b) (x.scale d)) ∧
      ∀ y, S.solve plan b = .ok y → ∃ x, A.solve plan b = .ok x

section Solutions

variable {plan : Plan} {n : ℕ} {A : Grid NormalElement (n + 1) (n + 1)}
  {b : Grid NormalElement (n + 1) 1} {m : ℤ}

private theorem solve_scale {x : Matrix (Element Exact)}
    (hx : solve plan ⟨n + 1, n + 1, A.elements⟩ ⟨n + 1, 1, b.elements⟩ = .ok x) :
    Agree (solve plan ⟨n + 1, n + 1, (A.scale (finite m false)).elements⟩ ⟨n + 1, 1, b.elements⟩)
      (x.scale (finite (-m) false).1) := by
  obtain ⟨horder, k, hk, rfl⟩ := solve_elements_eq_ok.mp hx
  have hscaled : (A.scale (finite m false)).permanent = finite ((n + 1 : ℕ) * m + k) false :=
    Grid.permanent_scale_finite_iff.mpr ⟨k, hk, rfl⟩
  rw [solve_elements_eq_ok.mpr ⟨horder, _, hscaled, rfl⟩, scale_elements]
  exact agree_elements (A.cramer_scale b k m)

private theorem exists_solve_of_scale {y : Matrix (Element Exact)}
    (hy : solve plan ⟨n + 1, n + 1, (A.scale (finite m false)).elements⟩
      ⟨n + 1, 1, b.elements⟩ = .ok y) :
    ∃ x, solve plan ⟨n + 1, n + 1, A.elements⟩ ⟨n + 1, 1, b.elements⟩ = .ok x := by
  obtain ⟨horder, l, hl, -⟩ := solve_elements_eq_ok.mp hy
  obtain ⟨k, hk, -⟩ := Grid.permanent_scale_finite_iff.mp hl
  exact ⟨_, solve_elements_eq_ok.mpr ⟨horder, k, hk, rfl⟩⟩

end Solutions

private theorem scalesAlong_elements {plan : Plan} {n : ℕ} (A : Grid NormalElement (n + 1) (n + 1))
    (c : NormalElement) (horder : n + 1 ≤ plan.maxOrder) :
    ScalesAlong plan ⟨n + 1, n + 1, A.elements⟩ ⟨n + 1, n + 1, (A.scale c).elements⟩ c.1 where
  permanent := by
    refine ⟨_, _, _, _, permanent_elements plan A horder,
      permanent_elements plan (A.scale c) horder, pow_eq_ok c (n + 1), Element.mul_eq_ok _ _, ?_⟩
    rw [← toElement_mul, sameAs_iff, Grid.permanent_scale]
  adjoint := by
    refine ⟨_, _, adjoint_elements plan A horder, pow_eq_ok c n, ?_⟩
    rw [adjoint_elements plan (A.scale c) horder, scale_elements]
    exact agree_elements (A.adjoint_scale c)
  solution htangible hfinite := by
    rcases eq_zero_or_finite_of_tangible htangible with rfl | ⟨m, rfl⟩
    · cases hfinite
    refine ⟨(finite (-m) false).1, rfl, ?_⟩
    intro b hb hshape
    obtain ⟨r, l, b⟩ := b
    obtain ⟨hr, hl⟩ := Shape.mk.inj hshape
    obtain rfl : r = n + 1 := hr
    obtain rfl : l = 1 := hl
    obtain ⟨b, rfl⟩ := b.exists_elements_eq hb
    exact ⟨fun x => solve_scale, fun y => exists_solve_of_scale⟩

/-- A scalar comes out of the permanent once for each row, and out of the adjoint once for each row
but one; a ghost or `-∞` does, too. -/
theorem exists_scale_scalesAlong (plan : Plan) {n : ℕ} {A : Grid (Element Exact) n n}
    {c : Element Exact} (hA : Normal ⟨n, n, A⟩) (hc : c.Normal) (hn : 0 < n)
    (horder : n ≤ plan.maxOrder) :
    ∃ S, scale ⟨n, n, A⟩ c = .ok S ∧ ScalesAlong plan ⟨n, n, A⟩ S c := by
  obtain ⟨n, rfl⟩ := Nat.exists_eq_succ_of_ne_zero hn.ne'
  obtain ⟨A, rfl⟩ := A.exists_elements_eq hA
  exact ⟨_, scale_elements A ⟨c, hc⟩, scalesAlong_elements A ⟨c, hc⟩ horder⟩

theorem exists_scale_scalesAlong_two_rows :
    Normal ⟨2, 2, markedSystem.grid⟩ ∧ Element.Normal (W := Exact) ⟨.int 3, false⟩ ∧ 0 < 2 ∧
      2 ≤ Plan.sequential.maxOrder ∧
      permanent .sequential markedSystem = .ok ⟨.int 2, false⟩ ∧
      solve .sequential markedSystem markedSide = .ok markedSolution ∧
      ∃ S, scale markedSystem ⟨.int 3, false⟩ = .ok S ∧
        (∃ q, permanent .sequential S = .ok q ∧ q.sameAs ⟨.int 8, false⟩ = true) ∧
        Agree (solve .sequential S markedSide)
          (.ok ⟨2, 1, ⟨#v[⟨.int 1, true⟩, ⟨.int 0, true⟩]⟩⟩) := by
  have hA : Normal ⟨2, 2, markedSystem.grid⟩ := by decide
  have hc : Element.Normal (W := Exact) ⟨.int 3, false⟩ := by decide
  have hpermanent : permanent .sequential markedSystem = .ok ⟨.int 2, false⟩ := by cbv
  have hsolve : solve .sequential markedSystem markedSide = .ok markedSolution := by cbv
  have hpow : Element.pow (W := Exact) ⟨.int 3, false⟩ 2 = .ok ⟨.int 6, false⟩ := by cbv
  have hratio : markedSolution.scale ⟨.int (-3), false⟩ =
      .ok ⟨2, 1, ⟨#v[⟨.int 1, true⟩, ⟨.int 0, true⟩]⟩⟩ := by cbv
  obtain ⟨S, hS, hscales⟩ := exists_scale_scalesAlong .sequential hA hc (by decide) (by decide)
  refine ⟨hA, hc, by decide, by decide, hpermanent, hsolve, S, hS, ?_, ?_⟩
  · obtain ⟨p, q, r, s, hp, hq, hr, hs, hsame⟩ := hscales.permanent
    obtain rfl := Except.ok.inj (hpermanent.symm.trans hp)
    obtain rfl := Except.ok.inj (hpow.symm.trans hr)
    obtain rfl := Except.ok.inj hs
    exact ⟨q, hq, hsame⟩
  · obtain ⟨d, hd, hsolution⟩ := hscales.solution rfl rfl
    obtain rfl := Option.some.inj hd
    rw [← hratio]
    exact (hsolution markedSide (by decide) rfl).1 markedSolution hsolve

end Matrix

end MaxPlus
