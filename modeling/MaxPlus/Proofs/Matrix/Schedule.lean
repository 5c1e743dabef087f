import MaxPlus.Proofs.Algebra.Reduction
import MaxPlus.Proofs.Element.Maximum
import MaxPlus.Proofs.Matrix.Parallel

/-!
What the schedule of a parallel sum changes: nothing.

The terms of a permanent keep their order under every schedule, and only the sums are put together
in another way. Sums of doubles that elements carry are associative to the last bit, signs of zeros
and marks of `-∞` included, and of several overflows the first one stays in front. So a matrix has
one permanent and a system one solution under all schedules.
-/

set_option autoImplicit false
set_option relaxedAutoImplicit false

namespace MaxPlus

open Binary64

namespace Element

variable {a b c : Element Float}

section Ties

variable (ha : Weight.supported a.value = true) (hb : Weight.supported b.value = true)
  (h : rank a.value = rank b.value)
include ha hb h

private theorem rank_add_of_rank_eq : rank (a + b).value = rank b.value := by
  rw [add_of_rank_eq ha hb h]
  split_ifs
  · rfl
  · exact h

private theorem add_add_of_rank_eq (hc : Weight.supported c.value = true)
    (h' : rank b.value = rank c.value) : a + b + c = a + (b + c) := by
  have hsum : rank (a + b).value = rank c.value := (rank_add_of_rank_eq ha hb h).trans h'
  have hsum' : rank a.value = rank (b + c).value :=
    (h.trans h').trans (rank_add_of_rank_eq hb hc h').symm
  rw [add_of_rank_eq (supported_value_add ha hb) hc hsum,
    add_of_rank_eq ha (supported_value_add hb hc) hsum', add_of_rank_eq hb hc h']
  have hzero : b.isZero = c.isZero := isZero_eq_of_rank_eq hb hc h'
  cases hbot : c.isZero with
  | true => simp [hbot]
  | false =>
    have hself : isZero (⟨b.value, true⟩ : Element Float) = b.isZero := rfl
    simp [add_of_rank_eq ha hb h, hself, hzero, hbot]

end Ties

protected theorem zero_add (a : Element Float) : 0 + a = a := by
  have hzero : isZero (0 : Element Float) = true := rfl
  rw [add_def, add, if_pos hzero]

/-- Sums are associative to the last bit. -/
private theorem add_assoc_of_supported (ha : Weight.supported a.value = true)
    (hb : Weight.supported b.value = true) (hc : Weight.supported c.value = true) :
    a + b + c = a + (b + c) := by
  have hsum := supported_value_add hb hc
  rcases lt_trichotomy (rank a.value) (rank b.value) with hab | hab | hab
  · rw [add_eq_right_of_rank_lt ha hb hab]
    rcases lt_trichotomy (rank b.value) (rank c.value) with hbc | hbc | hbc
    · rw [add_eq_right_of_rank_lt hb hc hbc, add_eq_right_of_rank_lt ha hc (hab.trans hbc)]
    · have hrank : rank a.value < rank (b + c).value :=
        hab.trans_eq (hbc.trans (rank_add_of_rank_eq hb hc hbc).symm)
      rw [add_eq_right_of_rank_lt ha hsum hrank]
    · rw [add_eq_left_of_rank_lt hb hc hbc, add_eq_right_of_rank_lt ha hb hab]
  · rcases lt_trichotomy (rank b.value) (rank c.value) with hbc | hbc | hbc
    · have hrank : rank (a + b).value < rank c.value :=
        (rank_add_of_rank_eq ha hb hab).trans_lt hbc
      rw [add_eq_right_of_rank_lt (supported_value_add ha hb) hc hrank,
        add_eq_right_of_rank_lt hb hc hbc, add_eq_right_of_rank_lt ha hc (hab.trans_lt hbc)]
    · exact add_add_of_rank_eq ha hb hab hc hbc
    · have hrank : rank c.value < rank (a + b).value :=
        hbc.trans_eq (rank_add_of_rank_eq ha hb hab).symm
      rw [add_eq_left_of_rank_lt (supported_value_add ha hb) hc hrank,
        add_eq_left_of_rank_lt hb hc hbc]
  · rw [add_eq_left_of_rank_lt ha hb hab]
    rcases lt_trichotomy (rank b.value) (rank c.value) with hbc | hbc | hbc
    · rw [add_eq_right_of_rank_lt hb hc hbc]
    · have hrank : rank (b + c).value < rank a.value :=
        (rank_add_of_rank_eq hb hc hbc).trans_lt (hbc.symm.trans_lt hab)
      rw [add_eq_left_of_rank_lt ha hsum hrank,
        add_eq_left_of_rank_lt ha hc (hbc.symm.trans_lt hab)]
    · rw [add_eq_left_of_rank_lt hb hc hbc, add_eq_left_of_rank_lt ha hb hab,
        add_eq_left_of_rank_lt ha hc (hbc.trans hab)]

end Element

namespace Computed

def Supported (x : Computed Float) : Prop :=
  ∀ a, x = .ok a → Weight.supported a.value = true

theorem Alike.supported {x y : Computed Float} (h : Alike x y) : x.Supported := by
  rintro a rfl
  cases h with
  | ok h => exact h.value.supported

private theorem addsInAnyOrder : AddsInAnyOrder Supported where
  add := by
    rintro (e | a) (e' | b) hx hy s h
    · cases h
    · cases h
    · cases h
    · cases h
      exact Element.supported_value_add (hx a rfl) (hy b rfl)
  assoc := by
    rintro (e | a) (e' | b) (e'' | c) hx hy hz
    case ok.ok.ok =>
      exact congrArg Except.ok (Element.add_assoc_of_supported (hx a rfl) (hy b rfl) (hz c rfl))
    all_goals rfl
  zero_add := by
    rintro (e | a) -
    · rfl
    · exact congrArg Except.ok (Element.zero_add a)

end Computed

namespace Plan

variable {n : ℕ} {A : Grid (Element Float) n n} (plan : Plan) (schedule : Schedule)

private theorem computePermanent_reschedule (hA : ∀ i j, Weight.supported (A i j).value = true) :
    { plan with schedule := schedule }.computePermanent A.computed =
      plan.computePermanent A.computed := by
  cases n with
  | zero => rfl
  | succ n =>
    have halike := Grid.computed_alike fun i j => .refl (hA i j)
    have hpart : ∀ c, (A.computed.part c).Supported := fun c =>
      (Grid.part_related Computed.Alike.respects halike c).supported
    have hparts : A.computed.permanentByParts schedule =
        A.computed.permanentByParts plan.schedule := by
      rw [Grid.permanentByParts_eq_value, Grid.permanentByParts_eq_value]
      exact schedule.value_eq_of_addsInAnyOrder Computed.addsInAnyOrder _ hpart
    rw [computePermanent, computePermanent, hparts]
    rfl

private theorem permanent_reschedule (hA : ∀ i j, Weight.supported (A i j).value = true) :
    { plan with schedule := schedule }.permanent A = plan.permanent A := by
  rw [permanent, permanent, computePermanent_reschedule plan schedule hA]
  rfl

private theorem solve_reschedule (hA : ∀ i j, Weight.supported (A i j).value = true)
    (b : Grid (Element Float) n 1) :
    { plan with schedule := schedule }.solve A b = plan.solve A b := by
  have hadjoint : { plan with schedule := schedule }.adjoint A = plan.adjoint A := adjoint_eq rfl A
  rw [solve, solve, permanent_reschedule plan schedule hA, hadjoint]

end Plan

namespace Matrix

variable {A : Matrix (Element Float)} (plan : Plan) (schedule : Schedule)

/-- A permanent has one value, to the last bit, and one mark under every schedule, and where a
product overflows the same one is reported. -/
private theorem permanent_reschedule (hA : A.Supported) :
    A.permanent { plan with schedule := schedule } = A.permanent plan := by
  obtain ⟨n, m, A⟩ := A
  by_cases hsquare : m = n
  · subst hsquare
    rw [permanent_mk, permanent_mk]
    exact plan.permanent_reschedule schedule hA
  · rw [permanent, permanent, square, dif_neg hsquare]
    rfl

private theorem solve_reschedule (hA : A.Supported) (b : Matrix (Element Float)) :
    A.solve { plan with schedule := schedule } b = A.solve plan b := by
  obtain ⟨n, m, A⟩ := A
  by_cases hsquare : m = n
  · subst hsquare
    have hsolve := plan.solve_reschedule schedule hA
    rw [solve, solve, square, dif_pos rfl]
    simp only [bind, Except.bind, Grid.cast_rfl, hsolve]
  · rw [solve, solve, square, dif_neg hsquare]
    rfl

end Matrix

end MaxPlus
