import MaxPlus.Proofs.Grid.Adjoint

/-!
The permanent and the adjoint of a product of grids.

Multiplied out, the permanent of `A * B` has a term for every way to choose a row of `B` for each
row of `A`. A choice that takes some row of `B` twice adds a sum of equal pairs. If the factors are
square the other choices are the permutations, and they add up to the product of the two permanents.
A minor of the product has one row of `B` more than it needs: each row may be the one left out, and
the choices that leave it out add up to a product of two minor permanents.
-/

set_option autoImplicit false
set_option relaxedAutoImplicit false

namespace MaxPlus

namespace Grid

universe u

variable {S : Type u} {n : ℕ}

def selectRows {r k c : ℕ} (A : Grid S r c) (f : Fin k → Fin r) : Grid S k c :=
  ofFn fun i j => A (f i) j

@[simp] theorem selectRows_apply {r k c : ℕ} (A : Grid S r c) (f : Fin k → Fin r) (i : Fin k)
    (j : Fin c) : A.selectRows f i j = A (f i) j := by
  simp [selectRows]

def selectCols {r k c : ℕ} (A : Grid S r c) (f : Fin k → Fin c) : Grid S r k :=
  ofFn fun i j => A i (f j)

@[simp] private theorem selectCols_apply {r k c : ℕ} (A : Grid S r c) (f : Fin k → Fin c)
    (i : Fin r) (j : Fin k) : A.selectCols f i j = A i (f j) := by
  simp [selectCols]

section Choices

variable {M : Type u} [AddCommMonoid M]

private theorem sum_injective_eq_sum_perm (g : (Fin n → Fin n) → M) :
    ∑ f with Function.Injective f, g f = ∑ τ : Equiv.Perm (Fin n), g τ := by
  refine (Finset.sum_bij (fun (τ : Equiv.Perm (Fin n)) _ => ⇑τ) ?_ ?_ ?_ ?_).symm
  · intro τ _
    exact Finset.mem_filter.mpr ⟨Finset.mem_univ _, τ.injective⟩
  · intro τ _ τ' _ h
    exact DFunLike.coe_injective h
  · intro f hf
    have hbijective := Finite.injective_iff_bijective.mp (Finset.mem_filter.mp hf).2
    exact ⟨Equiv.ofBijective f hbijective, Finset.mem_univ _, rfl⟩
  · intro τ _
    rfl

private theorem exists_eq_succAbove_of_injective {f : Fin n → Fin (n + 1)}
    (hf : Function.Injective f) :
    ∃ t : Fin (n + 1), ∃ τ : Equiv.Perm (Fin n), ∀ p, f p = t.succAbove (τ p) := by
  have hmissed : ∃ t, ∀ p, f p ≠ t := by
    by_contra hall
    push Not at hall
    have hcard := Fintype.card_le_of_surjective f hall
    simp at hcard
  obtain ⟨t, ht⟩ := hmissed
  choose g hg using fun p => Fin.exists_succAbove_eq (ht p)
  have hinjective : Function.Injective g := by
    intro p p' h
    apply hf
    rw [← hg p, ← hg p', h]
  have hbijective := Finite.injective_iff_bijective.mp hinjective
  exact ⟨t, Equiv.ofBijective g hbijective, fun p => (hg p).symm⟩

private theorem succAbove_perm_injective :
    Function.Injective fun (x : Fin (n + 1) × Equiv.Perm (Fin n)) (p : Fin n) =>
      x.1.succAbove (x.2 p) := by
  rintro ⟨t, τ⟩ ⟨t', τ'⟩ h
  have hchoice : ∀ p, t.succAbove (τ p) = t'.succAbove (τ' p) := fun p => congrFun h p
  have ht : t = t' := by
    by_contra hne
    obtain ⟨q, hq⟩ := Fin.exists_succAbove_eq (Ne.symm hne)
    have hmeets := hchoice (τ.symm q)
    rw [τ.apply_symm_apply, hq] at hmeets
    exact t'.succAbove_ne _ hmeets.symm
  subst ht
  have hτ : τ = τ' := Equiv.ext fun p => t.succAbove_right_injective (hchoice p)
  rw [hτ]

private theorem sum_injective_eq_sum_succAbove (g : (Fin n → Fin (n + 1)) → M) :
    ∑ f with Function.Injective f, g f =
      ∑ t : Fin (n + 1), ∑ τ : Equiv.Perm (Fin n), g fun p => t.succAbove (τ p) := by
  rw [← Fintype.sum_prod_type']
  refine (Finset.sum_bij (fun (x : Fin (n + 1) × Equiv.Perm (Fin n)) _ p => x.1.succAbove (x.2 p))
    ?_ ?_ ?_ ?_).symm
  · rintro ⟨t, τ⟩ _
    have hinjective : Function.Injective fun p => t.succAbove (τ p) :=
      t.succAbove_right_injective.comp τ.injective
    exact Finset.mem_filter.mpr ⟨Finset.mem_univ _, hinjective⟩
  · intro x _ y _ h
    exact succAbove_perm_injective h
  · intro f hf
    obtain ⟨t, τ, hτ⟩ := exists_eq_succAbove_of_injective (Finset.mem_filter.mp hf).2
    exact ⟨⟨t, τ⟩, Finset.mem_univ _, funext fun p => (hτ p).symm⟩
  · intro x _
    rfl

end Choices

variable [CommSemiring S]

theorem permanent_selectRows (A : Grid S n n) (τ : Equiv.Perm (Fin n)) :
    (A.selectRows τ).permanent = A.permanent := by
  rw [permanent_eq_sum_prod, permanent_eq_sum_prod]
  refine Fintype.sum_equiv (Equiv.mulRight τ⁻¹) _ _ fun σ => ?_
  refine Fintype.prod_equiv τ _ _ fun i => ?_
  rw [selectRows_apply, Equiv.coe_mulRight, Equiv.Perm.mul_apply, Equiv.Perm.inv_def,
    τ.symm_apply_apply]

section Expansion

variable {k : ℕ}

private theorem permanent_selectRows_of_not_injective (A : Grid S k n) {f : Fin n → Fin k}
    (hf : ¬ Function.Injective f) : ∃ s, (A.selectRows f).permanent = s + s := by
  obtain ⟨i, l, hrow, hne⟩ := Function.not_injective_iff.mp hf
  refine permanent_eq_add_self hne fun c => ?_
  rw [selectRows_apply, selectRows_apply, hrow]

private theorem permanent_mul_eq_sum (A : Grid S n k) (B : Grid S k n) :
    (A.mul B).permanent =
      ∑ f : Fin n → Fin k, (∏ i, A i (f i)) * (B.selectRows f).permanent := by
  calc (A.mul B).permanent
      = ∑ σ : Equiv.Perm (Fin n), ∏ i, ∑ t, A i t * B t (σ i) := by
        rw [permanent_eq_sum_prod]
        simp only [mul_eq_sum]
    _ = ∑ σ : Equiv.Perm (Fin n), ∑ f : Fin n → Fin k, ∏ i, A i (f i) * B (f i) (σ i) := by
        refine Finset.sum_congr rfl fun σ _ => ?_
        rw [Finset.prod_univ_sum, Fintype.piFinset_univ]
    _ = ∑ f : Fin n → Fin k, ∑ σ : Equiv.Perm (Fin n), ∏ i, A i (f i) * B (f i) (σ i) :=
        Finset.sum_comm
    _ = ∑ f : Fin n → Fin k, (∏ i, A i (f i)) * (B.selectRows f).permanent := by
        refine Finset.sum_congr rfl fun f _ => ?_
        rw [permanent_eq_sum_prod, Finset.mul_sum]
        simp only [Finset.prod_mul_distrib, selectRows_apply]

private theorem exists_permanent_mul_eq_injective_add (A : Grid S n k) (B : Grid S k n) :
    ∃ s, (A.mul B).permanent =
      ∑ f with Function.Injective f, (∏ i, A i (f i)) * (B.selectRows f).permanent + (s + s) := by
  have hothers : ∀ f : Fin n → Fin k, ∃ s, ¬ Function.Injective f →
      (∏ i, A i (f i)) * (B.selectRows f).permanent = s + s := by
    intro f
    by_cases hf : Function.Injective f
    · exact ⟨0, absurd hf⟩
    · obtain ⟨s, hs⟩ := B.permanent_selectRows_of_not_injective hf
      exact ⟨(∏ i, A i (f i)) * s, fun _ => by rw [hs, mul_add]⟩
  choose s hs using hothers
  refine ⟨∑ f with ¬ Function.Injective f, s f, ?_⟩
  rw [permanent_mul_eq_sum, ← Finset.sum_filter_add_sum_filter_not _ Function.Injective,
    ← Finset.sum_add_distrib]
  congr 1
  exact Finset.sum_congr rfl fun f hf => hs f (Finset.mem_filter.mp hf).2

end Expansion

/-- The permanent is multiplicative up to a sum of equal pairs. -/
theorem exists_permanent_mul_eq_add (A B : Grid S n n) :
    ∃ s, (A.mul B).permanent = A.permanent * B.permanent + (s + s) := by
  obtain ⟨s, hs⟩ := exists_permanent_mul_eq_injective_add A B
  have hpermutations :
      ∑ f with Function.Injective f, (∏ i, A i (f i)) * (B.selectRows f).permanent =
        A.permanent * B.permanent := by
    rw [sum_injective_eq_sum_perm, permanent_eq_sum_prod A, Finset.sum_mul]
    simp only [permanent_selectRows]
  exact ⟨s, hs.trans (congrArg (· + (s + s)) hpermutations)⟩

section Adjoints

private theorem minor_mul (A B : Grid S (n + 1) (n + 1)) (j i : Fin (n + 1)) :
    (A.mul B).minor j i = (A.selectRows j.succAbove).mul (B.selectCols i.succAbove) := by
  apply ext
  intro p q
  rw [minor_apply, mul_eq_sum, mul_eq_sum]
  simp only [skip_eq_succAbove, selectRows_apply, selectCols_apply]

private theorem permanent_selectRows_succAbove (B : Grid S (n + 1) (n + 1)) (t i : Fin (n + 1))
    (τ : Equiv.Perm (Fin n)) :
    ((B.selectCols i.succAbove).selectRows fun p => t.succAbove (τ p)).permanent =
      (B.minor t i).permanent := by
  have hminor : ((B.selectCols i.succAbove).selectRows fun p => t.succAbove (τ p)) =
      (B.minor t i).selectRows τ := by
    apply ext
    intro p q
    simp only [selectRows_apply, selectCols_apply, minor_apply, skip_eq_succAbove]
  rw [hminor, permanent_selectRows]

theorem exists_adjoint_mul_eq_add (A B : Grid S n n) (i j : Fin n) :
    ∃ s, (A.mul B).adjoint i j = B.adjoint.mul A.adjoint i j + (s + s) := by
  cases n with
  | zero => exact i.elim0
  | succ n =>
    obtain ⟨s, hs⟩ := exists_permanent_mul_eq_injective_add (A.selectRows j.succAbove)
      (B.selectCols i.succAbove)
    have hchoices : ∑ f with Function.Injective f, (∏ p, A.selectRows j.succAbove p (f p)) *
        ((B.selectCols i.succAbove).selectRows f).permanent = B.adjoint.mul A.adjoint i j := by
      calc ∑ f with Function.Injective f, (∏ p, A.selectRows j.succAbove p (f p)) *
              ((B.selectCols i.succAbove).selectRows f).permanent
          = ∑ t, (∑ τ : Equiv.Perm (Fin n), ∏ p, A (j.succAbove p) (t.succAbove (τ p))) *
              (B.minor t i).permanent := by
            rw [sum_injective_eq_sum_succAbove]
            simp only [permanent_selectRows_succAbove, selectRows_apply, Finset.sum_mul]
        _ = ∑ t, (A.minor j t).permanent * (B.minor t i).permanent := by
            simp only [permanent_minor, insertAt_succAbove]
        _ = B.adjoint.mul A.adjoint i j := by
            rw [mul_eq_sum]
            simp only [adjoint_apply, mul_comm]
    refine ⟨s, ?_⟩
    rw [adjoint_apply, minor_mul, hs, hchoices]

end Adjoints

end Grid

end MaxPlus
