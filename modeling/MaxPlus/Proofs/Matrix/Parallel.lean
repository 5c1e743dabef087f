import MaxPlus.Proofs.Element.Agreement
import MaxPlus.Proofs.Matrix.Normal
import MaxPlus.Proofs.Matrix.Plan

/-!
What the parallel threshold changes, over all doubles.

Two plans with one largest order add the terms of a permanent in different orders. The permanents
overflow together, or they have one value, and one mark unless the value is `-∞`. There a product of
finite values that falls below the range keeps its mark, and the last term decides. A system is
singular then in any case, so the solver does not depend on the threshold, and the adjoint of a
matrix sums every minor in one order.
-/

set_option autoImplicit false
set_option relaxedAutoImplicit false

namespace MaxPlus

open Binary64

namespace Grid

variable {W : Type} [Weight W] {n : ℕ}

def selection (A : Grid (Element W) n n) (σ : Equiv.Perm (Fin n)) : Computed W :=
  productOver fun i => .ok (A i (σ i))

end Grid

namespace Plan

variable {n : ℕ}

section Permanents

variable {A : Grid (Element Float) n n}

private theorem computePermanent_alike_or_isZero (plan plan' : Plan)
    (hA : ∀ i j, Weight.supported (A i j).value = true) :
    Computed.Alike (plan.computePermanent A.computed) (plan'.computePermanent A.computed) ∨
      ∃ p p', plan.computePermanent A.computed = .ok p ∧
        plan'.computePermanent A.computed = .ok p' ∧ Equals p.value p'.value ∧
        p.isZero = true ∧ p'.isZero = true := by
  have hterm : ∀ σ : Equiv.Perm (Fin n), ∃ t,
      Computed.Tallied (productOver fun i => A.computed i (σ i)) t := fun σ => by
    refine Computed.Tallied.exists_of_alike (Computed.Alike.respects.productOver fun i => ?_)
    rw [Grid.computed_apply]
    exact .ok (.refl (hA i (σ i)))
  choose t ht using hterm
  exact (plan.computePermanent_related_sum Computed.Tallied.respectsSums ht).alike_or_isZero
    (plan'.computePermanent_related_sum Computed.Tallied.respectsSums ht)

private theorem normal_computePermanent (plan : Plan) (h : ∀ σ a, A.selection σ = .ok a → a.Normal)
    {p : Element Float} (hp : plan.computePermanent A.computed = .ok p) : p.Normal := by
  -- A predicate that every sum keeps is a relation to the one-point monoid.
  have hsums : RespectsSums fun (x : Computed Float) (_ : PUnit) => ∀ a, x = .ok a → a.Normal := by
    constructor
    · rintro _ ⟨⟩
      exact Element.normal_zero
    · intro x y _ _ hx hy a ha
      cases x with
      | error e => cases ha
      | ok b =>
        cases y with
        | error e => cases ha
        | ok c =>
          cases ha
          exact (hx b rfl).add (hy c rfl)
  refine plan.computePermanent_related_sum hsums (t := fun _ => PUnit.unit) ?_ p hp
  simpa only [Grid.computed_apply, Grid.selection] using h

end Permanents

end Plan

namespace Outcome

variable {α β : Type}

/-- Two outcomes that a caller does not tell apart: related results, equal errors, or two faults. -/
inductive Agree (P : α → α → Prop) : Outcome Float α → Outcome Float α → Prop
  | ok {a b : α} (h : P a b) : Agree P (.ok a) (.ok b)
  | error {e e' : Error Float} (h : (e == e') = true) :
    Agree P (.error (.error e)) (.error (.error e'))
  | fault (f f' : Fault Float) : Agree P (.error (.fault f)) (.error (.fault f'))

theorem Agree.bind {P : α → α → Prop} {Q : β → β → Prop} {x y : Outcome Float α}
    {f g : α → Outcome Float β} (h : Agree P x y) (hfg : ∀ {a b}, P a b → Agree Q (f a) (g b)) :
    Agree Q (x >>= f) (y >>= g) := by
  cases h with
  | ok h => exact hfg h
  | error h => exact .error h
  | fault k k' => exact .fault k k'

theorem Agree.map {P : α → α → Prop} {Q : β → β → Prop} {f : α → β} {x y : Outcome Float α}
    (h : Agree P x y) (hf : ∀ {a b}, P a b → Q (f a) (f b)) : Agree Q (x.map f) (y.map f) := by
  cases h with
  | ok h => exact .ok (hf h)
  | error h => exact .error h
  | fault g g' => exact .fault g g'

end Outcome

theorem Computed.Alike.demanded {x y : Computed Float} (h : Alike x y) :
    Outcome.Agree Element.Alike (MaxPlus.demanded x) (MaxPlus.demanded y) := by
  cases h with
  | ok h => exact .ok h
  | overflow => exact .fault _ _

namespace Grid

variable {r c : ℕ}

private theorem settled_agree {A B : Grid (Computed Float) r c} (h : ∀ i j, (A i j).Alike (B i j)) :
    Outcome.Agree (fun C D => ∀ i j, (C i j).Alike (D i j)) A.settled B.settled := by
  cases hA : A.settled with
  | ok C =>
    obtain ⟨D, hD, hCD⟩ := settled_follows (fun i j => (h i j).follows) C hA
    rw [hD]
    exact .ok hCD
  | error f =>
    obtain ⟨cause, rfl⟩ := settled_eq_error hA
    cases hB : B.settled with
    | ok D =>
      obtain ⟨C, hC, -⟩ := settled_follows (fun i j => (h i j).symm.follows) D hB
      rw [hC] at hA
      cases hA
    | error g =>
      obtain ⟨cause', rfl⟩ := settled_eq_error hB
      exact .fault _ _

theorem computed_alike {A B : Grid (Element Float) r c} (h : ∀ i j, (A i j).Alike (B i j))
    (i : Fin r) (j : Fin c) : (A.computed i j).Alike (B.computed i j) := by
  rw [computed_apply, computed_apply]
  exact .ok (h i j)

end Grid

namespace Plan

variable {n : ℕ} {A : Grid (Element Float) n n} {b : Grid (Element Float) n 1}

private theorem adjoint_agree {plan plan' : Plan} (hmax : plan.maxOrder = plan'.maxOrder)
    (hA : ∀ i j, Weight.supported (A i j).value = true) :
    Outcome.Agree (fun x y => ∀ i j, (x i j).Alike (y i j)) (plan.adjoint A) (plan'.adjoint A) := by
  rw [adjoint_eq hmax]
  by_cases horder : n ≤ plan'.maxOrder
  · rw [adjoint_of_le A horder]
    exact Grid.settled_agree (Grid.adjoint_related Computed.Alike.respects
      (Grid.computed_alike fun i j => .refl (hA i j)))
  · rw [adjoint_of_lt A (not_le.mp horder)]
    exact .error (by simp [BEq.beq, Error.beq])

private theorem solve_eq_error_of_isZero {plan : Plan} {p : Element Float}
    (horder : n ≤ plan.maxOrder) (hp : plan.computePermanent A.computed = .ok p)
    (hzero : p.isZero = true) : plan.solve A b = .error (.error (.singular p)) := by
  have hpermanent : plan.permanent A = .ok p := by
    rw [permanent_of_le A horder, hp]
    rfl
  exact solve_eq_error_of_permanent hpermanent (Element.tangibleInverse?_of_isZero hzero) b

private theorem solve_agree_of_permanents {plan plan' : Plan}
    (hmax : plan.maxOrder = plan'.maxOrder) (hA : ∀ i j, Weight.supported (A i j).value = true)
    (hb : ∀ i j, Weight.supported (b i j).value = true)
    (h : Outcome.Agree Element.Alike (plan.permanent A) (plan'.permanent A)) :
    Outcome.Agree (fun x y => ∀ i j, (x i j).Alike (y i j)) (plan.solve A b) (plan'.solve A b) := by
  have hside := Grid.computed_alike fun i j => .refl (hb i j)
  rw [solve, solve]
  refine h.bind fun {p p'} hp => ?_
  rcases hp.tangibleInverse? with ⟨hnone, hnone'⟩ | ⟨c, d, hc, hd, hcd⟩
  · rw [hnone, hnone']
    exact .error hp.value.beq
  · rw [hc, hd]
    refine (adjoint_agree hmax hA).bind fun hadj => ?_
    refine (Grid.settled_agree (Grid.mul_related Computed.Alike.respects
      (Grid.computed_alike hadj) hside)).bind fun hprod => ?_
    exact Grid.settled_agree (Grid.scale_related Computed.Alike.respects
      (Grid.computed_alike hprod) (.ok hcd))

private theorem solve_agree {plan plan' : Plan} (hmax : plan.maxOrder = plan'.maxOrder)
    (hA : ∀ i j, Weight.supported (A i j).value = true)
    (hb : ∀ i j, Weight.supported (b i j).value = true) :
    Outcome.Agree (fun x y => ∀ i j, (x i j).Alike (y i j)) (plan.solve A b) (plan'.solve A b) := by
  by_cases horder : n ≤ plan.maxOrder
  · have horder' : n ≤ plan'.maxOrder := hmax ▸ horder
    rcases computePermanent_alike_or_isZero plan plan' hA with
      h | ⟨p, p', hp, hp', hvalue, hzero, hzero'⟩
    · refine solve_agree_of_permanents hmax hA hb ?_
      rw [permanent_of_le A horder, permanent_of_le A horder']
      exact h.demanded
    · -- The marks may differ, but no inverse is taken.
      rw [solve_eq_error_of_isZero horder hp hzero, solve_eq_error_of_isZero horder' hp' hzero']
      exact .error hvalue.beq
  · refine solve_agree_of_permanents hmax hA hb ?_
    rw [permanent_of_lt A (not_le.mp horder), permanent_of_lt A (hmax ▸ not_le.mp horder), hmax]
    exact .error (by simp [BEq.beq, Error.beq])

end Plan

namespace Matrix

abbrev Supported {W : Type} [Weight W] (A : Matrix (Element W)) : Prop :=
  A.Forall fun a => Weight.supported a.value = true

theorem sameAs_mk {r c : ℕ} {A B : Grid (Element Float) r c} (h : ∀ i j, (A i j).Alike (B i j)) :
    sameAs ⟨r, c, A⟩ ⟨r, c, B⟩ = true := by
  rw [sameAs, related_mk, Grid.related_iff]
  exact fun i j => (h i j).sameAs

/-- Permanents under plans with one largest order overflow together, or both exist with one value.
They have one mark too if they are not `-∞`, or if no selection falls to a `-∞` with a mark. -/
theorem permanent_agrees (plan plan' : Plan) (hmax : plan.maxOrder = plan'.maxOrder) {n : ℕ}
    {A : Grid (Element Float) n n} (hA : Supported ⟨n, n, A⟩) (horder : n ≤ plan.maxOrder) :
    (∃ v w v' w', permanent plan ⟨n, n, A⟩ = .error (.fault (.unsupported (.overflow v w))) ∧
        permanent plan' ⟨n, n, A⟩ = .error (.fault (.unsupported (.overflow v' w')))) ∨
      ∃ p p', permanent plan ⟨n, n, A⟩ = .ok p ∧ permanent plan' ⟨n, n, A⟩ = .ok p' ∧
        (p == p') = true ∧ (p.isZero = false → p.sameAs p' = true) ∧
        ((∀ σ a, A.selection σ = .ok a → a.Normal) → p.sameAs p' = true) := by
  rw [permanent_mk, permanent_mk, Plan.permanent_of_le A horder,
    Plan.permanent_of_le A (hmax ▸ horder)]
  rcases Plan.computePermanent_alike_or_isZero plan plan' hA with
    h | ⟨p, p', hp, hp', hvalue, hzero, hzero'⟩
  · generalize plan.computePermanent A.computed = x at h
    generalize plan'.computePermanent A.computed = y at h
    cases h with
    | overflow v w v' w' => exact Or.inl ⟨v, w, v', w', rfl, rfl⟩
    | @ok p p' h =>
      exact Or.inr ⟨p, p', rfl, rfl, h.value.beq, fun _ => h.sameAs, fun _ => h.sameAs⟩
  · refine Or.inr ⟨p, p', by rw [hp]; rfl, by rw [hp']; rfl, hvalue.beq, ?_, ?_⟩
    · intro hfinite
      rw [hzero] at hfinite
      cases hfinite
    · intro hnormal
      rw [Element.sameAs, hvalue.beq, plan.normal_computePermanent hnormal hp hzero,
        plan'.normal_computePermanent hnormal hp' hzero']
      rfl

def markedUnderflow : Grid (Element Float) 4 4 :=
  Grid.ofFn fun i j => ⟨Float.ofBits 0xffd0000000000000, decide (i = 0 ∧ j = 1)⟩

/-- The last term in sequence selects the mark, and the last one in parallel does not. -/
theorem permanent_differs_markedUnderflow :
    ∃ p p', permanent .sequential ⟨4, 4, markedUnderflow⟩ = .ok p ∧
      permanent ⟨10, 1⟩ ⟨4, 4, markedUnderflow⟩ = .ok p' ∧
      p.isZero = true ∧ p.ghost = true ∧ p'.isZero = true ∧ p'.ghost = false ∧
      p.sameAs p' = false := by
  have h : (match permanent .sequential ⟨4, 4, markedUnderflow⟩,
      permanent ⟨10, 1⟩ ⟨4, 4, markedUnderflow⟩ with
    | .ok p, .ok p' => p.isZero && p.ghost && p'.isZero && !p'.ghost && !p.sameAs p'
    | _, _ => false) = true := by decide +kernel
  split at h
  · simp_all
  · cases h

def beatenUnderflow (n : ℕ) : Grid (Element Float) n n :=
  Grid.ofFn fun i j => if i = j then ⟨1.5, false⟩ else ⟨Float.ofBits 0xffd0000000000000, true⟩

theorem permanent_agrees_beatenUnderflow :
    Plan.sequential.maxOrder = (Plan.mk 10 1).maxOrder ∧ Supported ⟨4, 4, beatenUnderflow 4⟩ ∧
      4 ≤ Plan.sequential.maxOrder ∧
      ∃ p p', permanent .sequential ⟨4, 4, beatenUnderflow 4⟩ = .ok p ∧
        permanent ⟨10, 1⟩ ⟨4, 4, beatenUnderflow 4⟩ = .ok p' ∧ p.sameAs p' = true ∧
        (p.value == 6) = true ∧ p.ghost = false := by
  have hsupported : Supported ⟨4, 4, beatenUnderflow 4⟩ := by decide +kernel
  have hsix : (match permanent .sequential ⟨4, 4, beatenUnderflow 4⟩ with
    | .ok p => !p.isZero && p.value == 6 && !p.ghost
    | _ => false) = true := by decide +kernel
  refine ⟨rfl, hsupported, by decide, ?_⟩
  rcases permanent_agrees .sequential ⟨10, 1⟩ rfl hsupported (by decide) with
    ⟨v, w, v', w', h, -⟩ | ⟨p, p', hp, hp', -, hmark, -⟩
  · rw [h] at hsix
    cases hsix
  · rw [hp] at hsix
    simp only [Bool.and_eq_true, Bool.not_eq_true'] at hsix
    exact ⟨p, p', hp, hp', hmark hsix.1.1, hsix.1.2, hsix.2⟩

/-- The adjoint and the solution of a system do not depend on the threshold: the adjoint has one
outcome, and the system two faults, two equal errors or two solutions with the same entries. -/
theorem adjoint_solve_agree (plan plan' : Plan) (hmax : plan.maxOrder = plan'.maxOrder)
    {A b : Matrix (Element Float)} (hA : A.Supported) (hb : b.Supported) :
    A.adjoint plan = A.adjoint plan' ∧
      Outcome.Agree (fun x y => x.sameAs y = true) (A.adjoint plan) (A.adjoint plan') ∧
      Outcome.Agree (fun x y => x.sameAs y = true) (A.solve plan b) (A.solve plan' b) := by
  refine ⟨by simp only [adjoint, Plan.adjoint_eq hmax], ?_⟩
  obtain ⟨n, m, A⟩ := A
  by_cases hsquare : m = n
  · subst hsquare
    constructor
    · rw [adjoint_mk, adjoint_mk]
      exact (Plan.adjoint_agree hmax hA).map sameAs_mk
    · obtain ⟨r, c, b⟩ := b
      by_cases hshape : r = m ∧ c = 1
      · obtain ⟨rfl, rfl⟩ := hshape
        rw [solve_mk, solve_mk]
        exact (Plan.solve_agree hmax hA hb).map sameAs_mk
      · rw [solve, solve, square, dif_pos rfl]
        simp only [bind, Except.bind, dif_neg hshape]
        exact .error (by simp [BEq.beq, Error.beq])
  · rw [adjoint, adjoint, solve, solve, square, square, dif_neg hsquare, dif_neg hsquare]
    exact ⟨.error (by simp [BEq.beq, Error.beq]), .error (by simp [BEq.beq, Error.beq])⟩

def beatenSide : Grid (Element Float) 2 1 :=
  Grid.ofFn fun i _ => ⟨Float.ofBits 0xffd0000000000000, decide (i = 0)⟩

theorem adjoint_solve_agree_beatenUnderflow :
    Plan.sequential.maxOrder = (Plan.mk 10 1).maxOrder ∧
      Supported ⟨2, 2, beatenUnderflow 2⟩ ∧ Supported ⟨2, 1, beatenSide⟩ ∧
      ∃ x y, solve .sequential ⟨2, 2, beatenUnderflow 2⟩ ⟨2, 1, beatenSide⟩ = .ok x ∧
        solve ⟨10, 1⟩ ⟨2, 2, beatenUnderflow 2⟩ ⟨2, 1, beatenSide⟩ = .ok y ∧
        x.sameAs y = true := by
  have hA : Supported ⟨2, 2, beatenUnderflow 2⟩ := by decide +kernel
  have hb : Supported ⟨2, 1, beatenSide⟩ := by decide +kernel
  have hok : (solve .sequential ⟨2, 2, beatenUnderflow 2⟩ ⟨2, 1, beatenSide⟩).isOk = true := by
    decide +kernel
  refine ⟨rfl, hA, hb, ?_⟩
  obtain ⟨-, -, hagree⟩ := adjoint_solve_agree .sequential ⟨10, 1⟩ rfl hA hb
  generalize solve .sequential ⟨2, 2, beatenUnderflow 2⟩ ⟨2, 1, beatenSide⟩ = x at hagree hok
  generalize solve ⟨10, 1⟩ ⟨2, 2, beatenUnderflow 2⟩ ⟨2, 1, beatenSide⟩ = y at hagree
  cases hagree with
  | ok h => exact ⟨_, _, rfl, rfl, h⟩
  | error => cases hok
  | fault => cases hok

end Matrix

end MaxPlus
