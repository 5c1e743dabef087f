import MaxPlus.Proofs.Matrix.Normal

/-!
What the value and the mark of a permanent say.

A permutation selects an entry in each row, and the values it selects add up to its level. The value
of the permanent is the greatest level. A finite permanent is tangible just where one permutation
alone has that level and selects no ghost.
-/

set_option autoImplicit false
set_option relaxedAutoImplicit false

namespace MaxPlus

namespace Grid

open NormalElement

variable {n : ℕ}

/-- The sum of the values that a permutation selects; `-∞` absorbs. -/
def selectedLevel (A : Grid (Element Exact) n n) (σ : Equiv.Perm (Fin n)) : WithBot ℤ :=
  ∑ i, (A i (σ i)).value.level

theorem selectedLevel_eq_bot_iff {A : Grid (Element Exact) n n} {σ : Equiv.Perm (Fin n)} :
    A.selectedLevel σ = ⊥ ↔ ∃ i, (A i (σ i)).isZero = true := by
  simp only [selectedLevel, WithBot.sum_eq_bot_iff, Finset.mem_univ, true_and,
    Element.isZero_iff_level_eq_bot]

/-- What an element says about the selections of a grid, if it is the permanent. -/
structure DescribesSelections (A : Grid (Element Exact) n n) (p : Element Exact) : Prop where
  greatest : IsGreatest (Set.range A.selectedLevel) p.value.level
  isZero_iff : p.isZero = true ↔ ∀ σ : Equiv.Perm (Fin n), ∃ i, (A i (σ i)).isZero = true
  tangible_of_isZero : p.isZero = true → p.isTangible = true
  /-- One permutation attains the maximum, and it selects tangible entries. -/
  tangible_iff : p.isZero = false → (p.isTangible = true ↔
    ∃ σ, (∀ τ, A.selectedLevel τ = p.value.level ↔ τ = σ) ∧ ∀ i, (A i (σ i)).isTangible = true)

section Selections

variable (A : Grid NormalElement n n)

private theorem selectedLevel_elements (σ : Equiv.Perm (Fin n)) :
    A.elements.selectedLevel σ = level (∏ i, A i (σ i)) := by
  rw [selectedLevel, level_prod]
  exact Finset.sum_congr rfl fun i _ => by rw [elements_apply, level_value]

private theorem level_permanent :
    level A.permanent = Finset.univ.sup fun σ => A.elements.selectedLevel σ := by
  rw [permanent_eq_sum_prod, level_sum]
  exact Finset.sup_congr rfl fun σ _ => (A.selectedLevel_elements σ).symm

private theorem isGreatest_level_permanent :
    IsGreatest (Set.range A.elements.selectedLevel) (level A.permanent) := by
  rw [level_permanent]
  constructor
  · obtain ⟨σ, -, hσ⟩ :=
      Finset.exists_mem_eq_sup Finset.univ Finset.univ_nonempty A.elements.selectedLevel
    exact ⟨σ, hσ.symm⟩
  · rintro _ ⟨σ, rfl⟩
    exact Finset.le_sup (Finset.mem_univ σ)

private theorem isZero_permanent_iff :
    A.permanent.1.isZero = true ↔
      ∀ σ : Equiv.Perm (Fin n), ∃ i, (A.elements i (σ i)).isZero = true := by
  rw [NormalElement.isZero_iff, level_permanent, Finset.sup_eq_bot_iff]
  simp only [Finset.mem_univ, forall_const, selectedLevel_eq_bot_iff]

private theorem exists_selection_of_tangible {k : ℤ} (hk : A.permanent = finite k false) :
    ∃ σ, (∀ τ, A.elements.selectedLevel τ = k ↔ τ = σ) ∧
      ∀ i, (A.elements i (σ i)).isTangible = true := by
  rw [permanent_eq_sum_prod] at hk
  obtain ⟨σ, -, htop, hothers⟩ := exists_top_of_sum_tangible hk
  refine ⟨σ, fun τ => ⟨fun hτ => ?_, fun hτ => ?_⟩, fun i => ?_⟩
  · by_contra hne
    rw [selectedLevel_elements] at hτ
    exact absurd hτ (hothers τ (Finset.mem_univ τ) hne).ne
  · rw [hτ, selectedLevel_elements, htop, level_finite]
  · obtain ⟨l, hl⟩ := exists_finite_of_prod_tangible htop i (Finset.mem_univ i)
    rw [elements_apply, hl]
    rfl

private theorem permanent_eq_of_unique {σ : Equiv.Perm (Fin n)}
    (hσ : ∀ τ, A.elements.selectedLevel τ = level A.permanent ↔ τ = σ)
    (hpos : level A.permanent ≠ ⊥) : A.permanent = ∏ i, A i (σ i) := by
  have htop : level (∏ i, A i (σ i)) = level A.permanent := by
    rw [← selectedLevel_elements]
    exact (hσ σ).mpr rfl
  rw [permanent_eq_sum_prod] at htop hpos ⊢
  refine sum_eq_of_level_lt (Finset.mem_univ σ) ?_ ?_
  · rwa [Ne, ← level_eq_bot, htop]
  · intro τ hτ hne
    have hle := level_le_sum (f := fun τ => ∏ i, A i (τ i)) hτ
    refine htop ▸ hle.lt_of_ne ?_
    -- A second permutation on the level of the permanent would be `σ` itself.
    intro heq
    refine hne ((hσ τ).mp ?_)
    rw [selectedLevel_elements, permanent_eq_sum_prod]
    exact heq

theorem describesSelections_permanent : A.elements.DescribesSelections A.permanent.1 where
  greatest := by
    rw [level_value]
    exact A.isGreatest_level_permanent
  isZero_iff := A.isZero_permanent_iff
  tangible_of_isZero h := by
    rw [level_eq_bot.mp (NormalElement.isZero_iff.mp h)]
    rfl
  tangible_iff h := by
    have hpos : level A.permanent ≠ ⊥ := by
      rw [Ne, ← NormalElement.isZero_iff, h]
      exact Bool.false_ne_true
    rw [level_value]
    constructor
    · intro htangible
      rcases eq_zero_or_finite_of_tangible htangible with hzero | ⟨k, hk⟩
      · rw [hzero] at hpos
        exact absurd rfl hpos
      · rw [hk, level_finite]
        exact A.exists_selection_of_tangible hk
    · rintro ⟨σ, hσ, htangible⟩
      rw [A.permanent_eq_of_unique hσ hpos]
      refine isTangible_prod fun i _ => ?_
      simpa using htangible i

end Selections

end Grid

namespace Matrix

/-- The permanent is the greatest sum that a permutation selects, and it is tangible just where
nothing ties with that sum and no ghost takes part in it. -/
theorem permanent_describesSelections (plan : Plan) {n : ℕ} (A : Grid (Element Exact) n n)
    (hA : Normal ⟨n, n, A⟩) (horder : n ≤ plan.maxOrder) :
    ∃ p, permanent plan ⟨n, n, A⟩ = .ok p ∧ A.DescribesSelections p := by
  obtain ⟨B, rfl⟩ := A.exists_elements_eq hA
  exact ⟨_, permanent_elements plan B horder, B.describesSelections_permanent⟩

def beatenTie : Grid (Element Exact) 3 3 where
  entries := #v[⟨.int 0, false⟩, ⟨.int 0, false⟩, ⟨.int 1, false⟩,
    ⟨.int 0, false⟩, ⟨.bot, false⟩, ⟨.int 0, false⟩,
    ⟨.int 0, false⟩, ⟨.int 0, false⟩, ⟨.bot, false⟩]

theorem permanent_describesSelections_beatenTie :
    Normal ⟨3, 3, beatenTie⟩ ∧ 3 ≤ Plan.sequential.maxOrder ∧
      permanent .sequential ⟨3, 3, beatenTie⟩ = .ok ⟨.int 1, false⟩ ∧
      permanent ⟨10, 3⟩ ⟨3, 3, beatenTie⟩ = .ok ⟨.int 1, false⟩ ∧
      beatenTie.DescribesSelections ⟨.int 1, false⟩ := by
  have hpermanent : permanent .sequential ⟨3, 3, beatenTie⟩ = .ok ⟨.int 1, false⟩ := by cbv
  obtain ⟨p, hp, hdescribes⟩ :=
    permanent_describesSelections .sequential beatenTie (by decide) (by decide)
  obtain rfl := Except.ok.inj (hpermanent.symm.trans hp)
  exact ⟨by decide, by decide, hpermanent, by cbv, hdescribes⟩

end Matrix

end MaxPlus
