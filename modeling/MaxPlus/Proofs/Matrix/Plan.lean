import MaxPlus.Proofs.Grid.Adjoint
import MaxPlus.Matrix.Cramer

/-!
What the operations on matrices of elements come down to.

A grid of computed elements settles just where every entry has an element. A plan chooses the order
in which the terms of a permanent are added, and nothing else: what the terms are related to, term
by term, has a sum that the permanent is related to under every plan, and the adjoint is the same
under all of them.
-/

set_option autoImplicit false
set_option relaxedAutoImplicit false

namespace MaxPlus

universe u

theorem Follows.demanded {W V α β : Type} {P : α → β → Prop} {x : Except (Unsupported W) α}
    {y : Except (Unsupported V) β} (h : Follows P x y) :
    Follows P (MaxPlus.demanded x) (MaxPlus.demanded y) := by
  cases x with
  | error e => exact .error _ _
  | ok a =>
    obtain ⟨b, rfl, hab⟩ := h a rfl
    exact .ok hab

namespace Grid

variable {W V : Type} {r c : ℕ}

@[simp] theorem computed_apply (A : Grid (Element W) r c) (i : Fin r) (j : Fin c) :
    A.computed i j = .ok (A i j) :=
  map_apply _ _ _ _

theorem minor_computed (A : Grid (Element W) (r + 1) (c + 1)) (i : Fin (r + 1))
    (j : Fin (c + 1)) : A.computed.minor i j = (A.minor i j).computed := by
  apply ext
  intro p q
  simp

theorem computed_follows {P : Element W → Element V → Prop} {A : Grid (Element W) r c}
    {B : Grid (Element V) r c} (h : ∀ i j, P (A i j) (B i j)) (i : Fin r) (j : Fin c) :
    Follows P (A.computed i j) (B.computed i j) := by
  rw [computed_apply, computed_apply]
  exact .ok (h i j)

theorem settled_eq_ok_iff {A : Grid (Computed W) r c} {B : Grid (Element W) r c} :
    A.settled = .ok B ↔ ∀ i j, A i j = .ok (B i j) := by
  rw [← sequence_eq_ok_iff, settled]
  cases A.sequence <;> simp [demanded]

theorem exists_settled {Q : Fin r → Fin c → Element W → Prop} {A : Grid (Computed W) r c}
    (h : ∀ i j, ∃ a, A i j = .ok a ∧ Q i j a) :
    ∃ B, A.settled = .ok B ∧ ∀ i j, Q i j (B i j) := by
  choose a ha hQ using h
  refine ⟨ofFn a, settled_eq_ok_iff.mpr fun i j => ?_, fun i j => ?_⟩
  · rw [ofFn_apply, ha]
  · rw [ofFn_apply]
    exact hQ i j

theorem settled_eq_error {A : Grid (Computed W) r c} {f : Failure W} (h : A.settled = .error f) :
    ∃ cause, f = .fault (.unsupported cause) := by
  rw [settled] at h
  generalize A.sequence = x at h
  cases x with
  | error cause =>
    cases h
    exact ⟨cause, rfl⟩
  | ok B => cases h

theorem settled_follows {P : Element W → Element V → Prop} {A : Grid (Computed W) r c}
    {B : Grid (Computed V) r c} (h : ∀ i j, Follows P (A i j) (B i j)) :
    Follows (fun C D => ∀ i j, P (C i j) (D i j)) A.settled B.settled := by
  intro C hC
  exact exists_settled fun i j => h i j (C i j) (settled_eq_ok_iff.mp hC i j)

end Grid

namespace Plan

theorem checkOrder_follows {W V α β : Type} {P : α → β → Prop} {x : Outcome W α}
    {y : Outcome V β} (plan : Plan) (n : ℕ) (h : Follows P x y) :
    Follows P (plan.checkOrder n >>= fun _ => x) (plan.checkOrder n >>= fun _ => y) := by
  rw [checkOrder, checkOrder]
  split_ifs
  · exact .error _ _
  · exact h

variable {W V : Type} [Weight W] [Weight V] (plan : Plan) {n : ℕ}

/-- No order of the terms takes the permanent away from their sum. -/
theorem computePermanent_related_sum {T : Type u} [AddCommMonoid T] {R : Computed W → T → Prop}
    (h : RespectsSums R) {A : Grid (Computed W) n n} {t : Equiv.Perm (Fin n) → T}
    (ht : ∀ σ : Equiv.Perm (Fin n), R (productOver fun i => A i (σ i)) (t σ)) :
    R (plan.computePermanent A) (∑ σ, t σ) := by
  cases n with
  | zero =>
    rw [Fintype.sum_unique]
    exact ht default
  | succ n =>
    rw [computePermanent]
    split_ifs
    · exact Grid.permanentByParts_related_sum h plan.schedule ht
    · exact Grid.permanent_related_sum h ht

theorem computePermanent_related {R : Computed W → Computed V → Prop} (h : Respects R)
    {A : Grid (Computed W) n n} {B : Grid (Computed V) n n} (hAB : ∀ i j, R (A i j) (B i j)) :
    R (plan.computePermanent A) (plan.computePermanent B) := by
  cases n with
  | zero => exact h.one
  | succ n =>
    rw [computePermanent, computePermanent]
    split_ifs
    · exact Grid.permanentByParts_related h plan.schedule hAB
    · exact Grid.permanent_related h hAB

theorem computeAdjoint_eq_adjoint (A : Grid (Computed W) n n) :
    plan.computeAdjoint A = A.adjoint := by
  rw [computeAdjoint, Grid.adjointByEntries_eq_adjoint, ite_self]

variable {plan}

theorem permanent_of_le (A : Grid (Element W) n n) (h : n ≤ plan.maxOrder) :
    plan.permanent A = demanded (plan.computePermanent A.computed) := by
  rw [permanent, checkOrder, if_neg (not_lt.mpr h)]
  rfl

theorem permanent_of_lt (A : Grid (Element W) n n) (h : plan.maxOrder < n) :
    plan.permanent A = .error (.error (.orderTooLarge n plan.maxOrder)) := by
  rw [permanent, checkOrder, if_pos h]
  rfl

theorem adjoint_of_le (A : Grid (Element W) n n) (h : n ≤ plan.maxOrder) :
    plan.adjoint A = A.computed.adjoint.settled := by
  rw [adjoint, checkOrder, if_neg (not_lt.mpr h), computeAdjoint_eq_adjoint]
  rfl

theorem adjoint_of_lt (A : Grid (Element W) n n) (h : plan.maxOrder < n) :
    plan.adjoint A = .error (.error (.orderTooLarge n plan.maxOrder)) := by
  rw [adjoint, checkOrder, if_pos h]
  rfl

theorem adjoint_eq {plan' : Plan} (hmax : plan.maxOrder = plan'.maxOrder)
    (A : Grid (Element W) n n) : plan.adjoint A = plan'.adjoint A := by
  rw [adjoint, adjoint, checkOrder, checkOrder, hmax, computeAdjoint_eq_adjoint,
    computeAdjoint_eq_adjoint]

theorem solve_eq_error_of_permanent {A : Grid (Element W) n n} {p : Element W}
    (hp : plan.permanent A = .ok p) (hinverse : p.tangibleInverse? = none)
    (b : Grid (Element W) n 1) : plan.solve A b = .error (.error (.singular p)) := by
  rw [solve, hp]
  simp only [bind, Except.bind]
  rw [hinverse]

end Plan

end MaxPlus
