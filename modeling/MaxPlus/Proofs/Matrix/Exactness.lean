import MaxPlus.Proofs.Element.Units
import MaxPlus.Proofs.Matrix.Normal

/-!
Permanents and adjoints over doubles, where no sum is rounded or out of range.

Only products form sums of values, each of them from the first factor on, so what has to be exact is
the step from every beginning of a product to the next factor. A sum of elements has the value of
one of its operands. Counted in units of the smallest positive double, the permanent and the adjoint
are then those of the grid of normal elements.
-/

set_option autoImplicit false
set_option relaxedAutoImplicit false

namespace MaxPlus

namespace Element

instance (x y : Float) : Decidable (Binary64.ExactSum x y) :=
  inferInstanceAs (Decidable (_ → _ → _))

instance : (x y : Computed Float) → Decidable (ExactProduct x y)
  | .ok a, .ok b => decidable_of_iff (Binary64.ExactSum a.value b.value)
      ⟨ExactProduct.ok_ok, fun h => h a b rfl rfl⟩
  | .error _, _ => isTrue fun _ _ h => nomatch h
  | .ok _, .error _ => isTrue fun _ _ _ h => nomatch h

/-- Every factor is multiplied exactly to the product of those before it. -/
def ExactSteps {n : ℕ} (f : Fin n → Computed Float) : Prop :=
  ∀ i : Fin n, ExactProduct (productOver fun j : Fin i => f (j.castLE i.isLt.le)) (f i)

instance {n : ℕ} (f : Fin n → Computed Float) : Decidable (ExactSteps f) :=
  inferInstanceAs (Decidable (∀ _ : Fin n, _))

namespace Reads

theorem respectsSums : RespectsSums Reads where
  zero := zero
  add := add

theorem productOver {n : ℕ} {f : Fin n → Computed Float} {r : Fin n → NormalElement}
    (h : ExactSteps f) (hf : ∀ i, Reads (f i) (r i)) :
    Reads (MaxPlus.productOver f) (∏ i, r i) := by
  induction n with
  | zero => exact one
  | succ n ih =>
    have hinit : Reads (MaxPlus.productOver fun i : Fin n => f i.castSucc)
        (∏ i : Fin n, r i.castSucc) := ih (fun i => h i.castSucc) fun i => hf i.castSucc
    have hlast := hinit.mul (hf (Fin.last n)) (h (Fin.last n))
    rw [Fin.prod_univ_castSucc, MaxPlus.productOver, productFrom, Fin.foldl_succ_last]
    exact hlast

end Reads

end Element

open Element

namespace Grid

variable {n : ℕ}

def ExactSelections (A : Grid (Element Float) n n) : Prop :=
  ∀ σ : Equiv.Perm (Fin n), ExactSteps fun i => .ok (A i (σ i))

instance (A : Grid (Element Float) n n) : Decidable A.ExactSelections :=
  inferInstanceAs (Decidable (∀ _ : Equiv.Perm (Fin n), _))

def ExactMinors : {n : ℕ} → Grid (Element Float) n n → Prop
  | 0, _ => True
  | _ + 1, A => ∀ i j, (A.minor i j).ExactSelections

instance : {n : ℕ} → (A : Grid (Element Float) n n) → Decidable A.ExactMinors
  | 0, _ => isTrue trivial
  | n + 1, A => inferInstanceAs (Decidable (∀ i j : Fin (n + 1), (A.minor i j).ExactSelections))

def ReadsAs {r c : ℕ} (A : Grid (Element Float) r c) (B : Grid NormalElement r c) : Prop :=
  ∀ i j, Reads (.ok (A i j)) (B i j)

theorem exists_readsAs {r c : ℕ} {A : Grid (Element Float) r c} (hA : ∀ i j, (A i j).WellFormed) :
    ∃ B, A.ReadsAs B := by
  refine ⟨ofFn fun i j => ⟨(A i j).inUnits, (hA i j).normal_inUnits⟩, ?_⟩
  intro i j
  rw [ofFn_apply]
  exact ⟨A i j, rfl, hA i j, rfl⟩

private theorem exists_settled_readsAs {r c : ℕ} {A : Grid (Computed Float) r c}
    {B : Grid NormalElement r c} (h : ∀ i j, Reads (A i j) (B i j)) :
    ∃ C, A.settled = .ok C ∧ C.ReadsAs B := by
  obtain ⟨C, hC, hreads⟩ := exists_settled h
  exact ⟨C, hC, fun i j => ⟨C i j, rfl, hreads i j⟩⟩

namespace ReadsAs

section Shapes

variable {r c : ℕ} {A A' : Grid (Element Float) r c} {B : Grid NormalElement r c}

theorem transpose (h : A.ReadsAs B) : A.transpose.ReadsAs B.transpose := by
  intro j i
  rw [transpose_apply, transpose_apply]
  exact h i j

theorem sameAs (h : A.ReadsAs B) (h' : A'.ReadsAs B) :
    Matrix.sameAs ⟨r, c, A⟩ ⟨r, c, A'⟩ = true := by
  rw [Matrix.sameAs, Matrix.related_mk, related_iff]
  intro i j
  obtain ⟨a, b, ha, hb, hab⟩ := (h i j).agree (h' i j) rfl
  cases ha
  cases hb
  exact hab

end Shapes

theorem minor {r c : ℕ} {A : Grid (Element Float) (r + 1) (c + 1)}
    {B : Grid NormalElement (r + 1) (c + 1)} (h : A.ReadsAs B) (i : Fin (r + 1))
    (j : Fin (c + 1)) : (A.minor i j).ReadsAs (B.minor i j) := by
  intro p q
  rw [minor_apply, minor_apply]
  exact h _ _

section Expansions

variable {A : Grid (Element Float) n n} {B : Grid NormalElement n n}

private theorem productOver_selection (h : A.ReadsAs B) (hexact : A.ExactSelections)
    (σ : Equiv.Perm (Fin n)) :
    Reads (productOver fun i => A.computed i (σ i)) (∏ i, B i (σ i)) := by
  simp only [computed_apply]
  exact .productOver (hexact σ) fun i => h i (σ i)

private theorem computed_adjoint (h : A.ReadsAs B) (hexact : A.ExactMinors) (i j : Fin n) :
    Reads (A.computed.adjoint i j) (B.adjoint i j) := by
  cases n with
  | zero => exact i.elim0
  | succ n =>
    rw [adjoint_apply, adjoint_apply, minor_computed, permanent_eq_sum_prod]
    exact permanent_related_sum Reads.respectsSums
      ((h.minor j i).productOver_selection (hexact j i))

theorem exists_permanent (plan : Plan) (h : A.ReadsAs B) (hexact : A.ExactSelections)
    (horder : n ≤ plan.maxOrder) :
    ∃ p, plan.permanent A = .ok p ∧ Reads (.ok p) B.permanent := by
  have hsum : Reads (plan.computePermanent A.computed) B.permanent := by
    rw [permanent_eq_sum_prod]
    exact plan.computePermanent_related_sum Reads.respectsSums (h.productOver_selection hexact)
  obtain ⟨p, hp, hwell, hunits⟩ := hsum
  refine ⟨p, ?_, p, rfl, hwell, hunits⟩
  rw [Plan.permanent_of_le A horder, hp]
  rfl

theorem exists_adjoint (plan : Plan) (h : A.ReadsAs B) (hexact : A.ExactMinors)
    (horder : n ≤ plan.maxOrder) : ∃ C, plan.adjoint A = .ok C ∧ C.ReadsAs B.adjoint := by
  rw [Plan.adjoint_of_le A horder]
  exact exists_settled_readsAs (h.computed_adjoint hexact)

end Expansions

end ReadsAs

end Grid

end MaxPlus
