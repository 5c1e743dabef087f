import MaxPlus.Proofs.Element.Level
import MaxPlus.Proofs.Matrix.Plan

/-!
The operations on matrices with normal entries over exact weights.

No product fails, so every operation is the one of the semiring of the normal elements: in sequence
and in parallel alike, it ends with an error only for the shapes, the order or the permanent.
-/

set_option autoImplicit false
set_option relaxedAutoImplicit false

namespace MaxPlus

namespace Grid

variable {r k c n : ℕ}

def elements (A : Grid NormalElement r c) : Grid (Element Exact) r c :=
  A.map NormalElement.toElement

@[simp] theorem elements_apply (A : Grid NormalElement r c) (i : Fin r) (j : Fin c) :
    A.elements i j = (A i j).1 :=
  map_apply _ _ _ _

theorem exists_elements_eq (A : Grid (Element Exact) r c) (h : ∀ i j, (A i j).Normal) :
    ∃ B : Grid NormalElement r c, B.elements = A := by
  refine ⟨ofFn fun i j => ⟨A i j, h i j⟩, ?_⟩
  apply ext
  intro i j
  rw [elements_apply, ofFn_apply]

private theorem computed_elements (A : Grid NormalElement r c) :
    A.elements.computed = A.map NormalElement.computed := by
  apply ext
  intro i j
  rw [computed, map_apply, elements_apply, map_apply, NormalElement.computed]

private theorem settled_map_computed (A : Grid NormalElement r c) :
    (A.map NormalElement.computed).settled = .ok A.elements := by
  rw [settled_eq_ok_iff]
  intro i j
  rw [map_apply, elements_apply]
  rfl

def cramer (A : Grid NormalElement n n) (b : Grid NormalElement n 1) (k : ℤ) :
    Grid NormalElement n 1 :=
  (A.adjoint.mul b).scale (NormalElement.finite (-k) false)

end Grid

namespace Plan

variable (plan : Plan) {n : ℕ}

private theorem computePermanent_map (A : Grid NormalElement n n) :
    plan.computePermanent (A.map NormalElement.computed) = A.permanent.computed := by
  cases n with
  | zero =>
    rw [Grid.permanent_eq_sum_prod]
    rfl
  | succ n =>
    rw [computePermanent]
    split_ifs
    · rw [Grid.permanentByParts_map NormalElement.preserves_computed,
        Grid.permanentByParts_eq_permanent]
    · rw [Grid.permanent_map NormalElement.preserves_computed]

private theorem computeAdjoint_map (A : Grid NormalElement n n) :
    plan.computeAdjoint (A.map NormalElement.computed) = A.adjoint.map NormalElement.computed := by
  rw [computeAdjoint_eq_adjoint, Grid.adjoint_map NormalElement.preserves_computed]

theorem permanent_elements (A : Grid NormalElement n n) :
    plan.permanent A.elements =
      if plan.maxOrder < n then .error (.error (.orderTooLarge n plan.maxOrder))
      else .ok A.permanent.1 := by
  rw [permanent, checkOrder, Grid.computed_elements, computePermanent_map]
  split_ifs <;> rfl

theorem adjoint_elements (A : Grid NormalElement n n) :
    plan.adjoint A.elements =
      if plan.maxOrder < n then .error (.error (.orderTooLarge n plan.maxOrder))
      else .ok A.adjoint.elements := by
  rw [adjoint, checkOrder, Grid.computed_elements, computeAdjoint_map, Grid.settled_map_computed]
  split_ifs <;> rfl

theorem solve_elements (A : Grid NormalElement n n) (b : Grid NormalElement n 1) :
    plan.solve A.elements b.elements =
      if plan.maxOrder < n then .error (.error (.orderTooLarge n plan.maxOrder))
      else match A.permanent.tangibleInverse? with
        | some inverse => .ok ((A.adjoint.mul b).scale inverse).elements
        | none => .error (.error (.singular A.permanent.1)) := by
  rw [solve, permanent_elements, adjoint_elements]
  split_ifs with horder
  · rfl
  · simp only [bind, Except.bind, NormalElement.toElement_tangibleInverse?]
    cases A.permanent.tangibleInverse? with
    | none => rfl
    | some inverse =>
      have hinverse : (Except.ok inverse.toElement : Computed Exact) = inverse.computed := rfl
      simp only [Option.map_some, hinverse, Grid.computed_elements, Grid.settled_map_computed,
        Grid.mul_map NormalElement.preserves_computed,
        Grid.scale_map NormalElement.preserves_computed]

theorem solve_elements_eq_ok {A : Grid NormalElement n n} {b : Grid NormalElement n 1}
    {x : Grid (Element Exact) n 1} :
    plan.solve A.elements b.elements = .ok x ↔
      n ≤ plan.maxOrder ∧ ∃ k, A.permanent = .finite k false ∧ x = (A.cramer b k).elements := by
  rw [solve_elements]
  split_ifs with horder
  · constructor
    · intro h
      cases h
    · intro h
      omega
  · by_cases hghost : A.permanent.Ghostly
    · rw [hghost.tangibleInverse?_eq_none]
      constructor
      · intro h
        cases h
      · rintro ⟨-, k, hk, -⟩
        exact absurd hghost (NormalElement.not_ghostly_iff.mpr ⟨k, hk⟩)
    · obtain ⟨k, hk⟩ := NormalElement.not_ghostly_iff.mp hghost
      rw [hk, NormalElement.tangibleInverse?_finite]
      constructor
      · intro h
        cases h
        exact ⟨not_lt.mp horder, k, rfl, rfl⟩
      · rintro ⟨-, l, hl, rfl⟩
        obtain ⟨rfl, -⟩ := NormalElement.finite_inj.mp hl
        rfl

end Plan

namespace Matrix

variable {W : Type} [Weight W]

abbrev Normal (A : Matrix (Element W)) : Prop :=
  A.Forall Element.Normal

abbrev Tangible (A : Matrix (Element W)) : Prop :=
  A.Forall fun a => a.isTangible = true

theorem Tangible.normal {A : Matrix (Element W)} (h : A.Tangible) : A.Normal := by
  intro i j _
  simpa [Element.isTangible] using h i j

def toTangible (A : Matrix (Element W)) : Matrix (Element W) :=
  ⟨A.rows, A.cols, A.grid.map Element.toTangible⟩

theorem mul_def (A B : Matrix (Element W)) :
    A.mul B =
      if h : A.cols = B.rows then do
        let g ← (A.grid.computed.mul (B.grid.cast h.symm rfl).computed).settled
        return ⟨A.rows, B.cols, g⟩
      else .error (.error (.shapeMismatch .matrixProduct A.shape B.shape)) := rfl

theorem mul_elements {r k c : ℕ} (A : Grid NormalElement r k) (B : Grid NormalElement k c) :
    Matrix.mul ⟨r, k, A.elements⟩ ⟨k, c, B.elements⟩ = .ok ⟨r, c, (A.mul B).elements⟩ := by
  rw [mul_def, dif_pos rfl, Grid.cast_rfl, Grid.computed_elements, Grid.computed_elements,
    Grid.mul_map NormalElement.preserves_computed, Grid.settled_map_computed]
  rfl

theorem scale_elements {r c : ℕ} (A : Grid NormalElement r c) (x : NormalElement) :
    Matrix.scale ⟨r, c, A.elements⟩ x.1 = .ok ⟨r, c, (A.scale x).elements⟩ := by
  have hx : (Except.ok x.1 : Computed Exact) = x.computed := rfl
  rw [scale, Grid.computed_elements, hx, Grid.scale_map NormalElement.preserves_computed,
    Grid.settled_map_computed]
  rfl

theorem solve_mk (plan : Plan) {n : ℕ} (A : Grid (Element W) n n) (b : Grid (Element W) n 1) :
    solve plan ⟨n, n, A⟩ ⟨n, 1, b⟩ = (plan.solve A b).map fun x => ⟨n, 1, x⟩ := by
  rw [solve, square, dif_pos rfl]
  simp only [bind, Except.bind, dif_pos (And.intro rfl rfl), Grid.cast_rfl]
  cases plan.solve A b with
  | error e => rfl
  | ok x => rfl

theorem permanent_mk (plan : Plan) {n : ℕ} (A : Grid (Element W) n n) :
    permanent plan ⟨n, n, A⟩ = plan.permanent A := by
  rw [permanent, square, dif_pos rfl, Grid.cast_rfl]
  rfl

theorem adjoint_mk (plan : Plan) {n : ℕ} (A : Grid (Element W) n n) :
    adjoint plan ⟨n, n, A⟩ = (plan.adjoint A).map fun adj => ⟨n, n, adj⟩ := by
  rw [adjoint, square, dif_pos rfl, Grid.cast_rfl]
  simp only [bind, Except.bind]
  cases plan.adjoint A with
  | error e => rfl
  | ok adj => rfl

theorem permanent_elements (plan : Plan) {n : ℕ} (A : Grid NormalElement n n)
    (h : n ≤ plan.maxOrder) : permanent plan ⟨n, n, A.elements⟩ = .ok A.permanent.1 := by
  rw [permanent_mk, plan.permanent_elements, if_neg (not_lt.mpr h)]

theorem adjoint_elements (plan : Plan) {n : ℕ} (A : Grid NormalElement n n)
    (h : n ≤ plan.maxOrder) :
    adjoint plan ⟨n, n, A.elements⟩ = .ok ⟨n, n, A.adjoint.elements⟩ := by
  rw [adjoint_mk, plan.adjoint_elements, if_neg (not_lt.mpr h)]
  rfl

theorem solve_elements_eq_ok {plan : Plan} {n : ℕ} {A : Grid NormalElement n n}
    {b : Grid NormalElement n 1} {x : Matrix (Element Exact)} :
    solve plan ⟨n, n, A.elements⟩ ⟨n, 1, b.elements⟩ = .ok x ↔
      n ≤ plan.maxOrder ∧
        ∃ k, A.permanent = .finite k false ∧ x = ⟨n, 1, (A.cramer b k).elements⟩ := by
  rw [solve_mk]
  constructor
  · intro hx
    cases hsolve : plan.solve A.elements b.elements with
    | error e =>
      rw [hsolve] at hx
      cases hx
    | ok x' =>
      obtain ⟨horder, k, hk, rfl⟩ := plan.solve_elements_eq_ok.mp hsolve
      rw [hsolve] at hx
      cases hx
      exact ⟨horder, k, hk, rfl⟩
  · rintro ⟨horder, k, hk, rfl⟩
    rw [plan.solve_elements_eq_ok.mpr ⟨horder, k, hk, rfl⟩]
    rfl

theorem exists_eq_elements_of_square {A : Matrix (Element Exact)} (hA : A.Normal)
    (hsquare : A.cols = A.rows) :
    ∃ n, ∃ B : Grid NormalElement n n, A = ⟨n, n, B.elements⟩ := by
  obtain ⟨n, m, A⟩ := A
  obtain rfl : m = n := hsquare
  obtain ⟨B, rfl⟩ := A.exists_elements_eq hA
  exact ⟨m, B, rfl⟩

theorem sameAs_elements {r c : ℕ} {A B : Grid NormalElement r c} :
    sameAs ⟨r, c, A.elements⟩ ⟨r, c, B.elements⟩ = true ↔ A = B := by
  rw [sameAs, related_mk, Grid.related_iff]
  simp only [Grid.elements_apply, NormalElement.sameAs_iff]
  constructor
  · exact Grid.ext
  · rintro rfl i j
    rfl

/-- Both matrices exist, with one shape and the same entries, marks included. -/
def Agree (x y : Outcome W (Matrix (Element W))) : Prop :=
  ∃ A B, x = .ok A ∧ y = .ok B ∧ A.sameAs B = true

theorem agree_elements {r c : ℕ} {A B : Grid NormalElement r c} (h : A = B) :
    Agree (.ok ⟨r, c, A.elements⟩) (.ok ⟨r, c, B.elements⟩) :=
  ⟨_, _, rfl, rfl, sameAs_elements.mpr h⟩

section Shapes

variable {plan : Plan} {A b : Matrix (Element W)}

theorem permanent_of_not_square (h : A.cols ≠ A.rows) :
    A.permanent plan = .error (.error (.shapeMismatch .permanent A.shape ⟨A.rows, A.rows⟩)) := by
  rw [permanent, square, dif_neg h]
  rfl

theorem adjoint_of_not_square (h : A.cols ≠ A.rows) :
    A.adjoint plan = .error (.error (.shapeMismatch .adjoint A.shape ⟨A.rows, A.rows⟩)) := by
  rw [adjoint, square, dif_neg h]
  rfl

theorem solve_of_not_square (h : A.cols ≠ A.rows) :
    A.solve plan b = .error (.error (.shapeMismatch .solution A.shape ⟨A.rows, A.rows⟩)) := by
  rw [solve, square, dif_neg h]
  rfl

theorem solve_of_not_column (hsquare : A.cols = A.rows) (h : b.shape ≠ ⟨A.rows, 1⟩) :
    A.solve plan b = .error (.error (.shapeMismatch .solution A.shape b.shape)) := by
  have hshape : ¬ (b.rows = A.rows ∧ b.cols = 1) := by
    rintro ⟨hrows, hcols⟩
    exact h (by rw [shape, hrows, hcols])
  rw [solve, square, dif_pos hsquare]
  simp only [bind, Except.bind, dif_neg hshape]

theorem shape_of_solve_eq_ok {x : Matrix (Element W)} (hx : A.solve plan b = .ok x) :
    A.cols = A.rows ∧ b.shape = ⟨A.rows, 1⟩ := by
  by_cases hsquare : A.cols = A.rows
  · refine ⟨hsquare, ?_⟩
    by_contra hshape
    rw [solve_of_not_column hsquare hshape] at hx
    cases hx
  · rw [solve_of_not_square hsquare] at hx
    cases hx

end Shapes

theorem exists_eq_elements_of_conforming {A b : Matrix (Element Exact)} (hA : A.Normal)
    (hb : b.Normal) (hsquare : A.cols = A.rows) (hshape : b.shape = ⟨A.rows, 1⟩) :
    ∃ n, ∃ (A' : Grid NormalElement n n) (b' : Grid NormalElement n 1),
      A = ⟨n, n, A'.elements⟩ ∧ b = ⟨n, 1, b'.elements⟩ := by
  obtain ⟨n, A, rfl⟩ := exists_eq_elements_of_square hA hsquare
  obtain ⟨m, l, b⟩ := b
  cases hshape
  obtain ⟨b, rfl⟩ := b.exists_elements_eq hb
  exact ⟨_, A, b, rfl, rfl⟩

theorem exists_of_solve_eq_ok {plan : Plan} {A b x : Matrix (Element Exact)} (hA : A.Normal)
    (hb : b.Normal) (hx : A.solve plan b = .ok x) :
    ∃ n, ∃ (A' : Grid NormalElement n n) (b' : Grid NormalElement n 1) (k : ℤ),
      A = ⟨n, n, A'.elements⟩ ∧ b = ⟨n, 1, b'.elements⟩ ∧ n ≤ plan.maxOrder ∧
        A'.permanent = .finite k false ∧ x = ⟨n, 1, (A'.cramer b' k).elements⟩ := by
  obtain ⟨hsquare, hshape⟩ := shape_of_solve_eq_ok hx
  obtain ⟨n, A, b, rfl, rfl⟩ := exists_eq_elements_of_conforming hA hb hsquare hshape
  obtain ⟨horder, k, hk, rfl⟩ := solve_elements_eq_ok.mp hx
  exact ⟨n, A, b, k, rfl, rfl, horder, hk, rfl⟩

end Matrix

end MaxPlus
