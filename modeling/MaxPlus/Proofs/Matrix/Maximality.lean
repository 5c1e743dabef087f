import MaxPlus.Proofs.Assignment.Optimal
import MaxPlus.Proofs.Matrix.Soundness

/-!
The greatest tangible solution of a system.

Every tangible solution is a subsolution of the reduced table, so the potential bounds it. Where the
right side is tangible, the potential without its marks is a solution itself: a row above its right
side is reached along an edge as well, and the tie makes it a ghost.
-/

set_option autoImplicit false
set_option relaxedAutoImplicit false

namespace MaxPlus

namespace NormalElement

def toTangible (a : NormalElement) : NormalElement :=
  ⟨a.1.toTangible, fun _ => rfl⟩

@[simp] private theorem level_toTangible (a : NormalElement) : level a.toTangible = level a := rfl

end NormalElement

namespace Grid

open NormalElement

variable {n : ℕ} {A : Grid NormalElement n n}

namespace Optimal

variable (opt : A.Optimal)

def shifted (y : Grid NormalElement n 1) (i : Fin n) : WithBot ℤ :=
  y.levels (opt.choice i) + opt.value i

private theorem level_term (y : Grid NormalElement n 1) (i j : Fin n) :
    level (A i (opt.choice j) * y (opt.choice j) 0) = opt.weight i j + opt.shifted y j := by
  have hcancel : ((-opt.value j : ℤ) : WithBot ℤ) + (opt.value j : WithBot ℤ) = 0 := by
    rw [← WithBot.coe_add, neg_add_cancel, WithBot.coe_zero]
  unfold weight shifted levels
  rw [level_mul, add_assoc, add_left_comm _ (level (y _ 0)), hcancel, add_zero]

private theorem subsolution_of_ghostSurpasses {y b : Grid NormalElement n 1}
    (hy : ∀ j, (y j 0).1.isTangible = true)
    (hz : ∀ i, (A.mul y i 0).1.ghostSurpasses (b i 0).1 = true) :
    opt.table.Subsolution b.levels (opt.shifted y) := by
  intro i
  by_contra hnot
  rw [not_or, not_le] at hnot
  obtain ⟨habove, hedge⟩ := hnot
  -- the selected term is above all others and is not a ghost
  have hself : level (A i (opt.choice i) * y (opt.choice i) 0) = opt.shifted y i := by
    rw [level_term, weight_self, zero_add]
  have hpos : A i (opt.choice i) * y (opt.choice i) 0 ≠ 0 := by
    intro h
    rw [← hself, h] at habove
    exact not_lt_bot habove
  have hsum : A.mul y i 0 = A i (opt.choice i) * y (opt.choice i) 0 := by
    rw [mul_eq_sum]
    refine sum_eq_of_level_lt (Finset.mem_univ _) hpos ?_
    intro c _ hc
    obtain ⟨j, rfl⟩ := opt.choice.surjective c
    have hji : j ≠ i := fun h => hc (congrArg opt.choice h)
    rw [hself, level_term]
    exact not_le.mp fun hle => hedge ⟨j, hji, hle⟩
  have hghost : Ghostly (A.mul y i 0) := by
    apply ghostly_of_ghostSurpasses (hz i)
    rw [hsum, hself]
    exact habove
  rcases eq_zero_or_finite_of_tangible (hy (opt.choice i)) with hzero | ⟨l, hl⟩
  · exact hpos (by rw [hzero, mul_zero])
  · rw [hsum, hl, opt.entry, finite_mul_finite, ghostly_finite] at hghost
    exact absurd hghost Bool.false_ne_true

private theorem level_le_cramer {y b : Grid NormalElement n 1}
    (hy : ∀ j, (y j 0).1.isTangible = true)
    (hz : ∀ i, (A.mul y i 0).1.ghostSurpasses (b i 0).1 = true) (j : Fin n) :
    level (y j 0) ≤ level (A.cramer b (∑ r, opt.value r) j 0) := by
  obtain ⟨i, rfl⟩ := opt.choice.surjective j
  have hle := (opt.subsolution_of_ghostSurpasses hy hz).le_potential i
  rw [← level_cramer, shifted, levels] at hle
  exact (WithBot.add_le_add_iff_right WithBot.coe_ne_bot).mp hle

section Unmarked

variable (b : Grid NormalElement n 1)

def unmarked : Grid NormalElement n 1 :=
  (A.cramer b (∑ r, opt.value r)).map toTangible

private theorem level_term_unmarked (i j : Fin n) :
    level (A i (opt.choice j) * opt.unmarked b (opt.choice j) 0) =
      opt.table.weight i j + opt.table.potential b.levels j := by
  rw [level_term, ← level_cramer, shifted, levels, unmarked, map_apply, level_toTangible]
  rfl

private theorem level_term_unmarked_self (i : Fin n) :
    level (A i (opt.choice i) * opt.unmarked b (opt.choice i) 0) =
      opt.table.potential b.levels i := by
  rw [level_term_unmarked, ReducedTable.weight_self, zero_add]

private theorem level_mul_unmarked (i : Fin n) :
    level (A.mul (opt.unmarked b) i 0) = opt.table.potential b.levels i := by
  rw [mul_eq_sum]
  apply le_antisymm
  · rw [level_sum]
    refine Finset.sup_le ?_
    intro c _
    obtain ⟨j, rfl⟩ := opt.choice.surjective c
    rw [level_term_unmarked]
    exact ReducedTable.weight_add_potential_le i j
  · rw [← level_term_unmarked_self]
    exact level_le_sum (f := fun c => A i c * opt.unmarked b c 0) (Finset.mem_univ _)

/-- A row above its right side has a tie. -/
private theorem ghostly_mul_unmarked {i : Fin n}
    (h : level (b i 0) < level (A.mul (opt.unmarked b) i 0)) :
    Ghostly (A.mul (opt.unmarked b) i 0) := by
  have hlevel := opt.level_mul_unmarked b i
  rw [hlevel] at h
  have hsub : opt.table.Subsolution b.levels (opt.table.potential b.levels) :=
    ReducedTable.potential_subsolution
  obtain ⟨j, hji, hle⟩ := (hsub i).resolve_left h.not_ge
  rw [mul_eq_sum] at hlevel ⊢
  refine ghostly_sum_of_tie (Finset.mem_univ (opt.choice i)) (Finset.mem_univ (opt.choice j))
    (fun heq => hji (opt.choice.injective heq).symm) ?_ ?_
  · rw [hlevel, level_term_unmarked_self]
  · rw [hlevel, level_term_unmarked]
    exact hle

private theorem ghostSurpasses_mul_unmarked (hb : ∀ i, (b i 0).1.isTangible = true) (i : Fin n) :
    (A.mul (opt.unmarked b) i 0).1.ghostSurpasses (b i 0).1 = true := by
  have hle : level (b i 0) ≤ level (A.mul (opt.unmarked b) i 0) := by
    have hsource : b.levels i ≤ opt.table.potential b.levels i :=
      ReducedTable.source_le_potential i
    rw [level_mul_unmarked]
    exact hsource
  by_cases hghost : Ghostly (A.mul (opt.unmarked b) i 0)
  · exact hghost.ghostSurpasses hle
  · have heq : level (b i 0) = level (A.mul (opt.unmarked b) i 0) :=
      hle.eq_of_not_lt fun hlt => hghost (opt.ghostly_mul_unmarked b hlt)
    obtain ⟨k, hk⟩ := not_ghostly_iff.mp hghost
    rw [hk] at heq ⊢
    exact ghostSurpasses_iff.mpr (Or.inl (eq_finite_of_tangible (hb i) heq).symm)

end Unmarked

end Optimal

end Grid

namespace Matrix

/-- A tangible column whose image ghost-surpasses the right side. -/
structure TangibleSolution {W : Type} [Weight W] (A b y : Matrix (Element W)) : Prop where
  shape : y.shape = ⟨A.rows, 1⟩
  tangible : y.Tangible
  surpasses : ∃ z, A.mul y = .ok z ∧ z.ghostSurpasses b = true

section Columns

variable {n : ℕ} {A : Grid NormalElement n n} {b : Grid NormalElement n 1}

theorem TangibleSolution.exists_column {y : Matrix (Element Exact)}
    (h : TangibleSolution ⟨n, n, A.elements⟩ ⟨n, 1, b.elements⟩ y) :
    ∃ y' : Grid NormalElement n 1, y = ⟨n, 1, y'.elements⟩ := by
  have hshape := h.shape
  have hnormal := h.tangible.normal
  obtain ⟨m, l, y⟩ := y
  obtain ⟨rfl, rfl⟩ := Shape.mk.inj hshape
  obtain ⟨y, rfl⟩ := y.exists_elements_eq hnormal
  exact ⟨y, rfl⟩

private theorem tangibleSolution_elements {y : Grid NormalElement n 1} :
    TangibleSolution ⟨n, n, A.elements⟩ ⟨n, 1, b.elements⟩ ⟨n, 1, y.elements⟩ ↔
      (∀ j, (y j 0).1.isTangible = true) ∧
        ∀ i, (A.mul y i 0).1.ghostSurpasses (b i 0).1 = true := by
  constructor
  · intro h
    obtain ⟨z, hz, hsurpasses⟩ := h.surpasses
    rw [mul_elements] at hz
    cases hz
    rw [ghostSurpasses, related_column_iff] at hsurpasses
    constructor
    · intro j
      simpa using h.tangible j 0
    · intro i
      simpa using hsurpasses i
  · rintro ⟨htangible, hsurpasses⟩
    refine ⟨rfl, ?_, _, mul_elements A y, ?_⟩
    · intro j c
      obtain rfl : c = 0 := Subsingleton.elim c 0
      simpa using htangible j
    · rw [ghostSurpasses, related_column_iff]
      intro i
      simpa using hsurpasses i

private theorem related_le_elements {x y : Grid NormalElement n 1} :
    related Element.le ⟨n, 1, y.elements⟩ ⟨n, 1, x.elements⟩ = true ↔
      ∀ j, (y j 0).level ≤ (x j 0).level := by
  rw [related_column_iff]
  simp only [Grid.elements_apply, NormalElement.le_iff]

private theorem toTangible_elements (x : Grid NormalElement n 1) :
    toTangible ⟨n, 1, x.elements⟩ = ⟨n, 1, (x.map NormalElement.toTangible).elements⟩ := by
  rw [toTangible]
  congr 1
  apply Grid.ext
  intro i j
  simp [NormalElement.toTangible]

end Columns

/-- The solution bounds the values of every tangible solution. If the right side is tangible, the
solution without its marks is the greatest tangible solution. -/
theorem solve_greatest (plan : Plan) {A b x : Matrix (Element Exact)} (hA : A.Normal)
    (hb : b.Normal) (hx : A.solve plan b = .ok x) :
    (∀ y, A.TangibleSolution b y → y.related Element.le x = true) ∧
      (b.Tangible → A.TangibleSolution b x.toTangible ∧
        ∀ y, A.TangibleSolution b y → y.related Element.le x.toTangible = true) := by
  obtain ⟨n, A, b, k, rfl, rfl, -, hk, rfl⟩ := exists_of_solve_eq_ok hA hb hx
  obtain ⟨opt, rfl⟩ := Grid.exists_optimal hk
  have hbound : ∀ y, TangibleSolution ⟨n, n, A.elements⟩ ⟨n, 1, b.elements⟩ y →
      ∃ y' : Grid NormalElement n 1, y = ⟨n, 1, y'.elements⟩ ∧
        ∀ j, (y' j 0).level ≤ (A.cramer b (∑ r, opt.value r) j 0).level := by
    intro y hy
    obtain ⟨y, rfl⟩ := hy.exists_column
    obtain ⟨htangible, hsurpasses⟩ := tangibleSolution_elements.mp hy
    exact ⟨y, rfl, opt.level_le_cramer htangible hsurpasses⟩
  rw [toTangible_elements]
  constructor
  · intro y hy
    obtain ⟨y, rfl, hle⟩ := hbound y hy
    exact related_le_elements.mpr hle
  · intro htangible
    constructor
    · have hb : ∀ i, (b i 0).1.isTangible = true := by
        intro i
        simpa using htangible i 0
      refine tangibleSolution_elements.mpr ⟨?_, opt.ghostSurpasses_mul_unmarked b hb⟩
      intro j
      rw [Grid.map_apply]
      rfl
    · intro y hy
      obtain ⟨y, rfl, hle⟩ := hbound y hy
      rw [related_le_elements]
      intro j
      rw [Grid.map_apply, NormalElement.level_toTangible]
      exact hle j

def unmarkedSide : Matrix (Element Exact) :=
  ⟨2, 1, ⟨#v[⟨.int 3, false⟩, ⟨.int 5, false⟩]⟩⟩

theorem solve_greatest_two_rows :
    markedSystem.Normal ∧ unmarkedSide.Normal ∧
      markedSystem.solve .sequential unmarkedSide =
        .ok ⟨2, 1, ⟨#v[⟨.int 4, true⟩, ⟨.int 3, false⟩]⟩⟩ ∧
      markedSystem.TangibleSolution unmarkedSide ⟨2, 1, ⟨#v[⟨.int 4, false⟩, ⟨.int 3, false⟩]⟩⟩ ∧
      ∀ y, markedSystem.TangibleSolution unmarkedSide y →
        y.related Element.le ⟨2, 1, ⟨#v[⟨.int 4, false⟩, ⟨.int 3, false⟩]⟩⟩ = true := by
  have hsolve : markedSystem.solve .sequential unmarkedSide =
      .ok ⟨2, 1, ⟨#v[⟨.int 4, true⟩, ⟨.int 3, false⟩]⟩⟩ := by cbv
  have hgreatest := (solve_greatest .sequential (by decide) (by decide) hsolve).2 (by decide)
  have hunmarked : toTangible (W := Exact) ⟨2, 1, ⟨#v[⟨.int 4, true⟩, ⟨.int 3, false⟩]⟩⟩ =
      ⟨2, 1, ⟨#v[⟨.int 4, false⟩, ⟨.int 3, false⟩]⟩⟩ := by cbv
  rw [hunmarked] at hgreatest
  exact ⟨by decide, by decide, hsolve, hgreatest⟩

end Matrix

end MaxPlus
