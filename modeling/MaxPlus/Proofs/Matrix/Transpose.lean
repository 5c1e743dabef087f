import MaxPlus.Proofs.Matrix.Adjoint
import MaxPlus.Proofs.Matrix.Exactness
import MaxPlus.Proofs.Matrix.Parallel

/-!
Transposed matrices.

A product is transposed into the product of the transposed factors in the other order. Each entry
sums the same products with their factors exchanged, in the same order, so this holds of rounded
sums, too. The permanent takes a selection of the transposed matrix in another order of its factors;
where no sum of values is rounded, that makes no difference.
-/

set_option autoImplicit false
set_option relaxedAutoImplicit false

namespace MaxPlus

namespace Grid

section Products

variable {W : Type} [Weight W] {r k c : ℕ}

/-- Every two entries that meet in the product of the grids have a product. -/
def NoOverflow (A : Grid (Element W) r k) (B : Grid (Element W) k c) : Prop :=
  ∀ i t j, ((A i t).mul (B t j)).isOk = true

instance (A : Grid (Element W) r k) (B : Grid (Element W) k c) : Decidable (A.NoOverflow B) :=
  inferInstanceAs (Decidable (∀ i t j, ((A i t).mul (B t j)).isOk = true))

private theorem exists_settled_mul {A : Grid (Element W) r k} {B : Grid (Element W) k c}
    (h : A.NoOverflow B) : ∃ C, (A.computed.mul B.computed).settled = .ok C := by
  -- No sum fails, so only the products have to exist.
  have hsums : RespectsSums fun (x : Computed W) (_ : Unit) => ∃ a, x = .ok a := by
    constructor
    · exact ⟨0, rfl⟩
    · rintro _ _ _ _ ⟨a, rfl⟩ ⟨b, rfl⟩
      exact ⟨a + b, rfl⟩
  have hentry : ∀ i j, ∃ a, A.computed.mul B.computed i j = .ok a := by
    intro i j
    rw [mul_apply, dot]
    refine hsums.sumOver (g := fun _ => ()) fun t => ?_
    rw [computed_apply, computed_apply, Computed.ok_mul_ok]
    have hproduct := h i t j
    generalize (A i t).mul (B t j) = x at hproduct
    cases x with
    | error e => cases hproduct
    | ok p => exact ⟨p, rfl⟩
  choose C hC using hentry
  refine ⟨ofFn C, settled_eq_ok_iff.mpr fun i j => ?_⟩
  rw [hC, ofFn_apply]

private theorem computed_mul_transpose_alike {A : Grid (Element Float) r k}
    {B : Grid (Element Float) k c} (hA : ∀ i t, Weight.supported (A i t).value = true)
    (hB : ∀ t j, Weight.supported (B t j).value = true) (j : Fin c) (i : Fin r) :
    ((A.computed.mul B.computed).transpose j i).Alike
      (B.transpose.computed.mul A.transpose.computed j i) := by
  rw [transpose_apply, mul_apply, mul_apply, dot, dot]
  refine Computed.Alike.respects.sumOver fun t => ?_
  simp only [computed_apply, transpose_apply]
  exact Computed.Alike.mul_comm (hA i t) (hB t j)

end Products

end Grid

namespace Matrix

section Entries

variable {S : Type} {W : Type}

theorem transpose_transpose (A : Matrix S) : A.transpose.transpose = A := by
  rw [transpose, transpose, Grid.transpose_transpose]

private theorem get?_transpose (A : Matrix S) (i j : ℕ) : A.transpose.get? j i = A.get? i j := by
  rw [get?, get?]
  by_cases h : i < A.rows ∧ j < A.cols
  · have h' : j < A.transpose.rows ∧ i < A.transpose.cols := And.comm.mp h
    rw [dif_pos h, dif_pos h']
    exact congrArg some (A.grid.transpose_apply _ _)
  · have h' : ¬ (j < A.transpose.rows ∧ i < A.transpose.cols) := fun h' => h (And.comm.mp h')
    rw [dif_neg h, dif_neg h']

private theorem index_eq_ok_iff [Weight W] {A : Matrix (Element W)} {i j : ℕ} {a : Element W} :
    A.index i j = .ok a ↔ A.get? i j = some a := by
  rw [index]
  cases A.get? i j with
  | none => exact iff_of_false nofun nofun
  | some b => rw [Except.ok.injEq, Option.some.injEq]

end Entries

private theorem mul_transpose_agree {r k c : ℕ} {A : Grid (Element Float) r k}
    {B : Grid (Element Float) k c} (hA : Supported ⟨r, k, A⟩) (hB : Supported ⟨k, c, B⟩)
    (h : A.NoOverflow B) :
    Agree ((mul ⟨r, k, A⟩ ⟨k, c, B⟩).map transpose)
      (mul (transpose ⟨k, c, B⟩) (transpose ⟨r, k, A⟩)) := by
  obtain ⟨C, hC⟩ := Grid.exists_settled_mul h
  have htranspose : (A.computed.mul B.computed).transpose.settled = .ok C.transpose := by
    rw [Grid.settled_eq_ok_iff]
    intro j i
    rw [Grid.transpose_apply, Grid.transpose_apply]
    exact Grid.settled_eq_ok_iff.mp hC i j
  -- The transposed product settles, and what is alike entry by entry settles along.
  obtain ⟨D, hD, hCD⟩ := Grid.settled_follows
    (fun j i => (Grid.computed_mul_transpose_alike hA hB j i).follows) _ htranspose
  refine ⟨⟨c, r, C.transpose⟩, ⟨c, r, D⟩, ?_, ?_, sameAs_mk hCD⟩
  · rw [mul_def, dif_pos rfl, Grid.cast_rfl, hC]
    rfl
  · rw [transpose, transpose, mul_def, dif_pos rfl, Grid.cast_rfl, hD]
    rfl

section Exactness

variable {plan : Plan} {n : ℕ}

private theorem permanent_transpose_sameAs {A : Grid (Element Float) n n}
    (hA : ∀ i j, (A i j).WellFormed) (horder : n ≤ plan.maxOrder) (h : A.ExactSelections)
    (h' : A.transpose.ExactSelections) :
    ∃ p q, permanent plan ⟨n, n, A⟩ = .ok p ∧ permanent plan (transpose ⟨n, n, A⟩) = .ok q ∧
      q.sameAs p = true := by
  obtain ⟨B, hB⟩ := Grid.exists_readsAs hA
  obtain ⟨p, hp, hread⟩ := hB.exists_permanent plan h horder
  obtain ⟨q, hq, hread'⟩ := hB.transpose.exists_permanent plan h' horder
  refine ⟨p, q, ?_, ?_, ?_⟩
  · rw [permanent_mk, hp]
  · rw [transpose, permanent_mk, hq]
  · obtain ⟨_, _, ⟨⟩, ⟨⟩, hsame⟩ := hread'.agree hread B.permanent_transpose
    exact hsame

private theorem adjoint_transpose_agree {A : Grid (Element Float) n n}
    (hA : ∀ i j, (A i j).WellFormed) (horder : n ≤ plan.maxOrder) (h : A.ExactMinors)
    (h' : A.transpose.ExactMinors) :
    Agree (adjoint plan (transpose ⟨n, n, A⟩)) ((adjoint plan ⟨n, n, A⟩).map transpose) := by
  obtain ⟨B, hB⟩ := Grid.exists_readsAs hA
  obtain ⟨C, hC, hread⟩ := hB.exists_adjoint plan h horder
  obtain ⟨D, hD, hread'⟩ := hB.transpose.exists_adjoint plan h' horder
  rw [B.adjoint_transpose] at hread'
  refine ⟨⟨n, n, D⟩, ⟨n, n, C.transpose⟩, ?_, ?_, hread'.sameAs hread.transpose⟩
  · rw [transpose, adjoint_mk, hD]
    rfl
  · rw [adjoint_mk, hC]
    rfl

private theorem transpose_elements (B : Grid NormalElement n n) :
    transpose ⟨n, n, B.elements⟩ = ⟨n, n, B.transpose.elements⟩ := by
  rw [transpose]
  congr 1
  apply Grid.ext
  intro i j
  simp

/-- To transpose is an involution that exchanges the indices. Products that do not overflow are
transposed in the other order, with rounded sums too. The permanent stays and the adjoint is
transposed along, over doubles where no sum of values is rounded or out of range, and over exact
weights. -/
theorem transpose_laws :
    (∀ {W : Type} [Weight W] (A : Matrix (Element W)), A.transpose.transpose = A ∧
      ∀ i j a, A.transpose.index j i = .ok a ↔ A.index i j = .ok a) ∧
    (∀ {r k c : ℕ} (A : Grid (Element Float) r k) (B : Grid (Element Float) k c),
      Supported ⟨r, k, A⟩ → Supported ⟨k, c, B⟩ → A.NoOverflow B →
      Agree ((mul ⟨r, k, A⟩ ⟨k, c, B⟩).map transpose)
        (mul (transpose ⟨k, c, B⟩) (transpose ⟨r, k, A⟩))) ∧
    (∀ (plan : Plan) {n : ℕ} (A : Grid (Element Float) n n), (∀ i j, (A i j).WellFormed) →
      n ≤ plan.maxOrder →
      (A.ExactSelections → A.transpose.ExactSelections →
        ∃ p q, permanent plan ⟨n, n, A⟩ = .ok p ∧ permanent plan (transpose ⟨n, n, A⟩) = .ok q ∧
          q.sameAs p = true) ∧
      (A.ExactMinors → A.transpose.ExactMinors →
        Agree (adjoint plan (transpose ⟨n, n, A⟩)) ((adjoint plan ⟨n, n, A⟩).map transpose))) ∧
    ∀ (plan : Plan) (A : Matrix (Element Exact)), A.Normal → A.cols = A.rows →
      A.rows ≤ plan.maxOrder →
      (∃ p q, A.permanent plan = .ok p ∧ A.transpose.permanent plan = .ok q ∧
        q.sameAs p = true) ∧
      Agree (A.transpose.adjoint plan) ((A.adjoint plan).map transpose) := by
  refine ⟨?_, ?_, ?_, ?_⟩
  · intro W _ A
    refine ⟨A.transpose_transpose, fun i j a => ?_⟩
    rw [index_eq_ok_iff, index_eq_ok_iff, get?_transpose]
  · intro r k c A B
    exact mul_transpose_agree
  · intro plan n A hA horder
    exact ⟨permanent_transpose_sameAs hA horder, adjoint_transpose_agree hA horder⟩
  · intro plan A hA hsquare horder
    obtain ⟨n, B, rfl⟩ := exists_eq_elements_of_square hA hsquare
    rw [transpose_elements, adjoint_elements plan B horder, adjoint_elements plan _ horder,
      B.adjoint_transpose]
    refine ⟨⟨_, _, permanent_elements plan B horder, permanent_elements plan _ horder, ?_⟩, ?_⟩
    · rw [NormalElement.sameAs_iff, B.permanent_transpose]
    · rw [Except.map, transpose_elements]
      exact agree_elements rfl

def halves : Grid (Element Float) 2 2 :=
  ⟨#v[⟨1.5, false⟩, ⟨2.5, true⟩, ⟨0.5, false⟩, ⟨Weight.bot, false⟩]⟩

theorem transpose_laws_halves :
    Supported ⟨2, 2, halves⟩ ∧ halves.NoOverflow halves ∧ (∀ i j, (halves i j).WellFormed) ∧
      2 ≤ Plan.sequential.maxOrder ∧ halves.ExactSelections ∧ halves.transpose.ExactSelections ∧
      halves.ExactMinors ∧ halves.transpose.ExactMinors ∧
      Agree ((mul ⟨2, 2, halves⟩ ⟨2, 2, halves⟩).map transpose)
        (mul (transpose ⟨2, 2, halves⟩) (transpose ⟨2, 2, halves⟩)) ∧
      (∃ p q, permanent .sequential ⟨2, 2, halves⟩ = .ok p ∧ p.sameAs ⟨3, true⟩ = true ∧
        permanent .sequential (transpose ⟨2, 2, halves⟩) = .ok q ∧ q.sameAs p = true) ∧
      Agree (adjoint .sequential (transpose ⟨2, 2, halves⟩))
        ((adjoint .sequential ⟨2, 2, halves⟩).map transpose) ∧
      upperTriangle.Normal ∧
      Agree (upperTriangle.transpose.adjoint .sequential)
        ((upperTriangle.adjoint .sequential).map transpose) := by
  have hsupported : Supported ⟨2, 2, halves⟩ := by decide +kernel
  have hoverflow : halves.NoOverflow halves := by decide +kernel
  have hwell : ∀ i j, (halves i j).WellFormed :=
    fun i j => ⟨hsupported i j, by revert i j; decide +kernel⟩
  have hselections : halves.ExactSelections := by decide +kernel
  have hselections' : halves.transpose.ExactSelections := by decide +kernel
  have hminors : halves.ExactMinors := by decide +kernel
  have hminors' : halves.transpose.ExactMinors := by decide +kernel
  have hthree : (match permanent .sequential ⟨2, 2, halves⟩ with
    | .ok p => p.sameAs ⟨3, true⟩
    | _ => false) = true := by decide +kernel
  have hnormal : upperTriangle.Normal := by decide
  obtain ⟨-, hmul, hexact, hweights⟩ := transpose_laws
  obtain ⟨hpermanent, hadjoint⟩ := hexact .sequential halves hwell (by decide)
  obtain ⟨p, q, hp, hq, hsame⟩ := hpermanent hselections hselections'
  rw [hp] at hthree
  exact ⟨hsupported, hoverflow, hwell, by decide, hselections, hselections', hminors, hminors',
    hmul halves halves hsupported hsupported hoverflow, ⟨p, q, hp, hthree, hq, hsame⟩,
    hadjoint hminors hminors', hnormal,
    (hweights .sequential upperTriangle hnormal rfl (by decide)).2⟩

end Exactness

end Matrix

end MaxPlus
