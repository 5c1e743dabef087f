import MaxPlus.Proofs.Matrix.Permanent
import MaxPlus.Proofs.Grid.Transpose

/-!
Which systems have a solution.

A permutation is dominant if it selects tangible, finite entries and its level lies above those of
all other permutations. The permanent is tangible and finite just where there is one. So the shapes
and the order aside, a system is solved if its matrix has a dominant permutation, and refused as
singular if not: no later step of Cramer's rule can fail.

Proportional rows leave no permutation dominant, since each has the level of its twin, which
exchanges the two rows. A row of ghosts leaves none either, since each selects one of them. The
columns are the rows of the transposed grid, on which the inverse permutation selects the same.
-/

set_option autoImplicit false
set_option relaxedAutoImplicit false

namespace MaxPlus

namespace Grid

variable {n : ℕ} {A : Grid (Element Exact) n n} {σ : Equiv.Perm (Fin n)}

section Dominance

/-- The permutation selects tangible, finite entries, and every other one lies on a lower level. -/
structure Dominant (A : Grid (Element Exact) n n) (σ : Equiv.Perm (Fin n)) : Prop where
  tangible : ∀ i, (A i (σ i)).isTangible = true
  finite : ∀ i, (A i (σ i)).isZero = false
  above : ∀ τ, τ ≠ σ → A.selectedLevel τ < A.selectedLevel σ

private theorem selectedLevel_ne_bot_iff :
    A.selectedLevel σ ≠ ⊥ ↔ ∀ i, (A i (σ i)).isZero = false := by
  simp [selectedLevel_eq_bot_iff]

private theorem Dominant.selectedLevel_eq {p : Element Exact} (hσ : A.Dominant σ)
    (hp : A.DescribesSelections p) : A.selectedLevel σ = p.value.level := by
  obtain ⟨⟨τ, hτ⟩, hle⟩ := hp.greatest
  by_contra hne
  -- Another permutation attains the maximum, but `σ` lies above it.
  have hother : τ ≠ σ := fun h => hne (h ▸ hτ)
  have hlt : p.value.level < A.selectedLevel σ := hτ ▸ hσ.above τ hother
  exact absurd hlt (hle ⟨σ, rfl⟩).not_gt

private theorem DescribesSelections.exists_dominant_iff {p : Element Exact}
    (hp : A.DescribesSelections p) :
    (∃ σ, A.Dominant σ) ↔ p.isTangible = true ∧ p.isZero = false := by
  constructor
  · rintro ⟨σ, hσ⟩
    have hlevel : A.selectedLevel σ = p.value.level := hσ.selectedLevel_eq hp
    have hpos : p.isZero = false := by
      rw [Bool.eq_false_iff, Ne, Element.isZero_iff_level_eq_bot, ← hlevel]
      exact selectedLevel_ne_bot_iff.mpr hσ.finite
    have honly : ∀ τ, A.selectedLevel τ = p.value.level ↔ τ = σ := by
      intro τ
      constructor
      · intro hτ
        by_contra hne
        exact absurd (hτ.trans hlevel.symm) (hσ.above τ hne).ne
      · intro hτ
        rw [hτ, hlevel]
    exact ⟨(hp.tangible_iff hpos).mpr ⟨σ, honly, hσ.tangible⟩, hpos⟩
  · rintro ⟨htangible, hpos⟩
    obtain ⟨σ, honly, hselected⟩ := (hp.tangible_iff hpos).mp htangible
    have hlevel : A.selectedLevel σ = p.value.level := (honly σ).mpr rfl
    refine ⟨σ, hselected, ?_, fun τ hne => ?_⟩
    · rw [← selectedLevel_ne_bot_iff, hlevel, Ne, ← Element.isZero_iff_level_eq_bot, hpos]
      exact Bool.false_ne_true
    · have hle : A.selectedLevel τ ≤ p.value.level := hp.greatest.2 ⟨τ, rfl⟩
      rw [hlevel]
      exact hle.lt_of_ne fun h => hne ((honly τ).mp h)

private theorem ghostly_permanent_iff (A : Grid NormalElement n n) :
    A.permanent.Ghostly ↔ ¬ ∃ σ, A.elements.Dominant σ := by
  rw [A.describesSelections_permanent.exists_dominant_iff, NormalElement.ghostly_iff]
  simp only [Element.isTangible, Bool.not_eq_true', not_and_or, Bool.not_eq_false]

end Dominance

section Transposition

private theorem selectedLevel_transpose (A : Grid (Element Exact) n n) (σ : Equiv.Perm (Fin n)) :
    A.transpose.selectedLevel σ = A.selectedLevel σ⁻¹ := by
  refine Fintype.sum_equiv σ _ _ ?_
  intro j
  simp

theorem Dominant.transpose (hσ : A.Dominant σ) : A.transpose.Dominant σ⁻¹ where
  tangible j := by simpa using hσ.tangible (σ⁻¹ j)
  finite j := by simpa using hσ.finite (σ⁻¹ j)
  above τ hne := by
    rw [selectedLevel_transpose, selectedLevel_transpose, inv_inv]
    exact hσ.above _ fun h => hne (inv_eq_iff_eq_inv.mp h)

end Transposition

section Dependence

def ProportionalRows (A : Grid (Element Exact) n n) (p q : Fin n) : Prop :=
  ∃ c : ℤ, ∀ j, (A p j).value = .int c + (A q j).value

def GhostRow (A : Grid (Element Exact) n n) (i : Fin n) : Prop :=
  ∀ j, (A i j).ghost = true ∨ (A i j).isZero = true

/-- Two rows or two columns are proportional, or a row or a column has no tangible, finite entry. -/
inductive Dependent (A : Grid (Element Exact) n n) : Prop
  | rows {p q : Fin n} (hne : p ≠ q) (h : A.ProportionalRows p q)
  | cols {p q : Fin n} (hne : p ≠ q) (h : A.transpose.ProportionalRows p q)
  | ghostRow {i : Fin n} (h : A.GhostRow i)
  | ghostCol {j : Fin n} (h : A.transpose.GhostRow j)

variable {p q : Fin n}

private theorem selectedLevel_mul_swap_of_eq (hrows : ∀ j, (A p j).value = (A q j).value)
    (σ : Equiv.Perm (Fin n)) : A.selectedLevel (σ * Equiv.swap p q) = A.selectedLevel σ := by
  have htwin := prod_mul_swap (f := fun i j => Multiplicative.ofAdd (A i j).value.level)
    (i := p) (k := q) (fun j => by rw [hrows]) σ
  rw [← ofAdd_sum, ← ofAdd_sum] at htwin
  exact Multiplicative.ofAdd.injective htwin

private theorem selectedLevel_withRow {row : Fin n → Element Exact} {c : ℤ}
    (h : ∀ j, (A p j).value = .int c + (row j).value) (σ : Equiv.Perm (Fin n)) :
    A.selectedLevel σ = c + (A.withRow p row).selectedLevel σ := by
  rw [selectedLevel, selectedLevel, ← Finset.add_sum_erase _ _ (Finset.mem_univ p),
    ← Finset.add_sum_erase _ _ (Finset.mem_univ p), ← add_assoc]
  congr 1
  · rw [h, Exact.level_int_add, withRow, ofFn_apply, if_pos rfl]
  · refine Finset.sum_congr rfl fun i hi => ?_
    rw [withRow, ofFn_apply, if_neg (Finset.ne_of_mem_erase hi)]

private theorem ProportionalRows.selectedLevel_mul_swap (h : A.ProportionalRows p q)
    (σ : Equiv.Perm (Fin n)) : A.selectedLevel (σ * Equiv.swap p q) = A.selectedLevel σ := by
  obtain ⟨c, hc⟩ := h
  have hrows : ∀ j, (A.withRow p (A q) p j).value = (A.withRow p (A q) q j).value := fun j => by
    simp [withRow]
  rw [selectedLevel_withRow hc, selectedLevel_withRow hc, selectedLevel_mul_swap_of_eq hrows]

private theorem ProportionalRows.not_dominant (h : A.ProportionalRows p q) (hne : p ≠ q)
    (σ : Equiv.Perm (Fin n)) : ¬ A.Dominant σ := by
  intro hσ
  have htwin : σ * Equiv.swap p q ≠ σ := by
    simpa [Equiv.swap_eq_one_iff] using hne
  exact absurd (h.selectedLevel_mul_swap σ) (hσ.above _ htwin).ne

private theorem GhostRow.not_dominant {i : Fin n} (h : A.GhostRow i) (σ : Equiv.Perm (Fin n)) :
    ¬ A.Dominant σ := by
  intro hσ
  rcases h (σ i) with hghost | hzero
  · have htangible := hσ.tangible i
    rw [Element.isTangible, hghost] at htangible
    cases htangible
  · rw [hσ.finite i] at hzero
    cases hzero

private theorem Dependent.not_dominant (h : A.Dependent) : ¬ ∃ σ, A.Dominant σ := by
  rintro ⟨σ, hσ⟩
  cases h with
  | rows hne h => exact h.not_dominant hne σ hσ
  | cols hne h => exact h.not_dominant hne σ⁻¹ hσ.transpose
  | ghostRow h => exact h.not_dominant σ hσ
  | ghostCol h => exact h.not_dominant σ⁻¹ hσ.transpose

end Dependence

end Grid

namespace Matrix

variable {plan : Plan} {A b : Matrix (Element Exact)}

def HasDominant (A : Matrix (Element Exact)) : Prop :=
  ∃ (h : A.cols = A.rows) (σ : Equiv.Perm (Fin A.rows)), (A.grid.cast rfl h).Dominant σ

private theorem hasDominant_mk {n : ℕ} {A : Grid (Element Exact) n n} :
    HasDominant ⟨n, n, A⟩ ↔ ∃ σ, A.Dominant σ := by
  constructor
  · rintro ⟨_, σ, hσ⟩
    exact ⟨σ, hσ⟩
  · rintro ⟨σ, hσ⟩
    exact ⟨rfl, σ, hσ⟩

/-- The outcomes of the solver, each with what leads to it. The conditions exclude each other. -/
inductive SolveOutcome (plan : Plan) (A b : Matrix (Element Exact)) :
    Outcome Exact (Matrix (Element Exact)) → Prop
  | notSquare (hsquare : A.cols ≠ A.rows) : SolveOutcome plan A b
      (.error (.error (.shapeMismatch .solution A.shape ⟨A.rows, A.rows⟩)))
  | notColumn (hsquare : A.cols = A.rows) (hshape : b.shape ≠ ⟨A.rows, 1⟩) : SolveOutcome plan A b
      (.error (.error (.shapeMismatch .solution A.shape b.shape)))
  | tooLarge (hsquare : A.cols = A.rows) (hshape : b.shape = ⟨A.rows, 1⟩)
      (horder : plan.maxOrder < A.rows) : SolveOutcome plan A b
      (.error (.error (.orderTooLarge A.rows plan.maxOrder)))
  | solved {x : Matrix (Element Exact)} (hsquare : A.cols = A.rows) (hshape : b.shape = ⟨A.rows, 1⟩)
      (horder : A.rows ≤ plan.maxOrder) (hdominant : A.HasDominant) (hx : x.shape = ⟨A.rows, 1⟩) :
      SolveOutcome plan A b (.ok x)
  | singular {p : Element Exact} (hsquare : A.cols = A.rows) (hshape : b.shape = ⟨A.rows, 1⟩)
      (horder : A.rows ≤ plan.maxOrder) (hdominant : ¬ A.HasDominant)
      (hp : A.permanent plan = .ok p) : SolveOutcome plan A b (.error (.error (.singular p)))

private theorem SolveOutcome.isOk_iff {y : Outcome Exact (Matrix (Element Exact))}
    (h : SolveOutcome plan A b y) : (∃ x, y = .ok x) ↔
      A.cols = A.rows ∧ b.shape = ⟨A.rows, 1⟩ ∧ A.rows ≤ plan.maxOrder ∧ A.HasDominant := by
  cases h with
  | notSquare hsquare => simp [hsquare]
  | notColumn hsquare hshape => simp [hshape]
  | tooLarge hsquare hshape horder => simp [horder.not_ge]
  | solved hsquare hshape horder hdominant hx => simp [hsquare, hshape, horder, hdominant]
  | singular hsquare hshape horder hdominant hp => simp [hdominant]

private theorem solveOutcome_elements (plan : Plan) {n : ℕ} (A : Grid NormalElement n n)
    (b : Grid NormalElement n 1) : SolveOutcome plan ⟨n, n, A.elements⟩ ⟨n, 1, b.elements⟩
      (solve plan ⟨n, n, A.elements⟩ ⟨n, 1, b.elements⟩) := by
  rw [solve_mk, plan.solve_elements]
  split_ifs with horder
  · exact .tooLarge rfl rfl horder
  · have horder : n ≤ plan.maxOrder := not_lt.mp horder
    have hdominant : ¬ A.permanent.Ghostly ↔ HasDominant ⟨n, n, A.elements⟩ := by
      rw [A.ghostly_permanent_iff, not_not, hasDominant_mk]
    by_cases hghost : A.permanent.Ghostly
    · rw [hghost.tangibleInverse?_eq_none]
      exact .singular rfl rfl horder (fun h => hdominant.mpr h hghost)
        (permanent_elements plan A horder)
    · obtain ⟨k, hk⟩ := NormalElement.not_ghostly_iff.mp hghost
      rw [hk, NormalElement.tangibleInverse?_finite]
      exact .solved rfl rfl horder (hdominant.mp hghost) rfl

/-- What the solver returns for every system and every plan. -/
theorem solve_outcome (plan : Plan) (hA : A.Normal) (hb : b.Normal) :
    SolveOutcome plan A b (A.solve plan b) ∧
      ((∃ x, A.solve plan b = .ok x) ↔
        A.cols = A.rows ∧ b.shape = ⟨A.rows, 1⟩ ∧ A.rows ≤ plan.maxOrder ∧ A.HasDominant) := by
  have houtcome : SolveOutcome plan A b (A.solve plan b) := by
    by_cases hsquare : A.cols = A.rows
    · by_cases hshape : b.shape = ⟨A.rows, 1⟩
      · obtain ⟨n, A, b, rfl, rfl⟩ := exists_eq_elements_of_conforming hA hb hsquare hshape
        exact solveOutcome_elements plan A b
      · rw [solve_of_not_column hsquare hshape]
        exact .notColumn hsquare hshape
    · rw [solve_of_not_square hsquare]
      exact .notSquare hsquare
  exact ⟨houtcome, houtcome.isOk_iff⟩

def tieSide : Grid (Element Exact) 3 1 where
  entries := #v[⟨.int 9, false⟩, ⟨.int 3, true⟩, ⟨.bot, false⟩]

theorem solve_outcome_beatenTie :
    Normal ⟨3, 3, beatenTie⟩ ∧ Normal ⟨3, 1, tieSide⟩ ∧
      solve .sequential ⟨3, 3, beatenTie⟩ ⟨3, 1, tieSide⟩ =
        .ok ⟨3, 1, ⟨#v[⟨.int 8, false⟩, ⟨.int 8, false⟩, ⟨.int 8, false⟩]⟩⟩ ∧
      HasDominant ⟨3, 3, beatenTie⟩ := by
  have hsolve : solve .sequential ⟨3, 3, beatenTie⟩ ⟨3, 1, tieSide⟩ =
      .ok ⟨3, 1, ⟨#v[⟨.int 8, false⟩, ⟨.int 8, false⟩, ⟨.int 8, false⟩]⟩⟩ := by cbv
  obtain ⟨-, hiff⟩ := solve_outcome .sequential (A := ⟨3, 3, beatenTie⟩) (b := ⟨3, 1, tieSide⟩)
    (by decide) (by decide)
  exact ⟨by decide, by decide, hsolve, (hiff.mp ⟨_, hsolve⟩).2.2.2⟩

/-- The permanent of a dependent matrix is a ghost or `-∞`, and every right side is refused. -/
theorem solve_singular_of_dependent (plan : Plan) {n : ℕ} {A : Grid (Element Exact) n n}
    (hA : Normal ⟨n, n, A⟩) (horder : n ≤ plan.maxOrder) (hdependent : A.Dependent) :
    ∃ p, permanent plan ⟨n, n, A⟩ = .ok p ∧ (p.ghost = true ∨ p.isZero = true) ∧
      ∀ b : Grid (Element Exact) n 1,
        solve plan ⟨n, n, A⟩ ⟨n, 1, b⟩ = .error (.error (.singular p)) := by
  obtain ⟨B, rfl⟩ := A.exists_elements_eq hA
  have hghost : B.permanent.Ghostly := B.ghostly_permanent_iff.mpr hdependent.not_dominant
  have hp : permanent plan ⟨n, n, B.elements⟩ = .ok B.permanent.1 :=
    permanent_elements plan B horder
  have hinverse : B.permanent.1.tangibleInverse? = none := by
    rw [NormalElement.toElement_tangibleInverse?, hghost.tangibleInverse?_eq_none]
    rfl
  refine ⟨B.permanent.1, hp, NormalElement.ghostly_iff.mp hghost, fun b => ?_⟩
  rw [permanent_mk] at hp
  rw [solve_mk, Plan.solve_eq_error_of_permanent hp hinverse b]
  rfl

def proportionalColumns : Grid (Element Exact) 3 3 where
  entries := #v[⟨.int 0, false⟩, ⟨.int 2, false⟩, ⟨.int 5, true⟩,
    ⟨.int 1, true⟩, ⟨.int 0, false⟩, ⟨.int 6, false⟩,
    ⟨.bot, false⟩, ⟨.int 3, false⟩, ⟨.bot, false⟩]

theorem solve_singular_of_dependent_columns :
    Normal ⟨3, 3, proportionalColumns⟩ ∧ 3 ≤ Plan.sequential.maxOrder ∧
      proportionalColumns.Dependent ∧
      ∀ b : Grid (Element Exact) 3 1, solve .sequential ⟨3, 3, proportionalColumns⟩ ⟨3, 1, b⟩ =
        .error (.error (.singular ⟨.int 9, true⟩)) := by
  have hdependent : proportionalColumns.Dependent :=
    .cols (p := 2) (q := 0) (by decide) ⟨5, by decide⟩
  have hpermanent : permanent .sequential ⟨3, 3, proportionalColumns⟩ = .ok ⟨.int 9, true⟩ := by cbv
  obtain ⟨p, hp, -, hsolve⟩ :=
    solve_singular_of_dependent .sequential (by decide) (by decide) hdependent
  obtain rfl := Except.ok.inj (hpermanent.symm.trans hp)
  exact ⟨by decide, by decide, hdependent, hsolve⟩

end Matrix

end MaxPlus
