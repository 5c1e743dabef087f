import MaxPlus.Proofs.Algebra.Results
import MaxPlus.Proofs.Element.Units
import MaxPlus.Proofs.Weight.Arithmetic

/-!
Computations over doubles that agree.

Elements are alike if nothing but the sign of a zero tells them apart. Sums and products of alike
elements are alike, or overflow together. Sums taken in different orders agree less: two of them
can end in a `-∞` with a mark and one without. Counted in exact arithmetic with every `-∞` tangible,
and with an overflow as the top, each sum is what its terms add up to in any order.
-/

set_option autoImplicit false
set_option relaxedAutoImplicit false

namespace MaxPlus

open Binary64

namespace Element

/-- The same element up to the sign of a zero, with a supported value. -/
structure Alike (a b : Element Float) : Prop where
  value : Equals a.value b.value
  ghost : a.ghost = b.ghost

theorem tangibleInverse?_of_isZero {W : Type} [Weight W] {a : Element W} (h : a.isZero = true) :
    a.tangibleInverse? = none := by
  rw [tangibleInverse?, inverse?, if_pos h, ite_self]

namespace Alike

variable {a b a' b' : Element Float}

theorem refl (ha : Weight.supported a.value = true) : Alike a a :=
  ⟨.of_units ha ha rfl, rfl⟩

theorem symm (h : Alike a b) : Alike b a :=
  ⟨.of_units h.value.supported' h.value.supported h.value.units_eq.symm, h.ghost.symm⟩

theorem sameAs (h : Alike a b) : a.sameAs b = true := by
  rw [Element.sameAs, h.value.beq, h.ghost, beq_self_eq_true]
  rfl

theorem isZero_eq (h : Alike a b) : a.isZero = b.isZero :=
  h.value.beq_bot

private theorem of_inUnits (ha : Weight.supported a.value = true)
    (hb : Weight.supported b.value = true) (h : a.inUnits = b.inUnits) : Alike a b :=
  ⟨.of_units ha hb (congrArg (fun e : Element Exact => e.value) h),
    congrArg (fun e : Element Exact => e.ghost) h⟩

private theorem inUnits_eq (h : Alike a b) : a.inUnits = b.inUnits := by
  rw [inUnits, inUnits, h.value.units_eq, h.ghost]

theorem add (ha : Alike a a') (hb : Alike b b') : Alike (a + b) (a' + b') := by
  refine of_inUnits (supported_value_add ha.value.supported hb.value.supported)
    (supported_value_add ha.value.supported' hb.value.supported') ?_
  rw [inUnits_add ha.value.supported hb.value.supported,
    inUnits_add ha.value.supported' hb.value.supported', ha.inUnits_eq, hb.inUnits_eq]

theorem tangibleInverse? (h : Alike a b) :
    a.tangibleInverse? = none ∧ b.tangibleInverse? = none ∨
      ∃ c d, a.tangibleInverse? = some c ∧ b.tangibleInverse? = some d ∧ Alike c d := by
  have hinverse : a.inverse? = none ∧ b.inverse? = none ∨
      ∃ c d, a.inverse? = some c ∧ b.inverse? = some d ∧ Alike c d := by
    rw [inverse?, inverse?, ← h.isZero_eq]
    cases hzero : a.isZero with
    | true => exact Or.inl ⟨rfl, rfl⟩
    | false => exact Or.inr ⟨_, _, rfl, rfl, h.value.neg hzero, h.ghost⟩
  rw [Element.tangibleInverse?, Element.tangibleInverse?, isTangible, isTangible, ← h.ghost]
  split_ifs
  · exact hinverse
  · exact Or.inl ⟨rfl, rfl⟩

end Alike

end Element

namespace Computed

/-- Both elements exist and are alike, or two products overflow. -/
inductive Alike : Computed Float → Computed Float → Prop
  | ok {a b : Element Float} (h : a.Alike b) : Alike (.ok a) (.ok b)
  | overflow (v w v' w' : Float) : Alike (.error (.overflow v w)) (.error (.overflow v' w'))

namespace Alike

variable {x y : Computed Float}

theorem symm (h : Alike x y) : Alike y x := by
  cases h with
  | ok h => exact .ok h.symm
  | overflow v w v' w' => exact .overflow v' w' v w

theorem follows (h : Alike x y) : Follows Element.Alike x y := by
  cases h with
  | ok h => exact .ok h
  | overflow => exact .error _ _

theorem mul_elements {a b a' b' : Element Float} (ha : a.Alike a') (hb : b.Alike b') :
    Alike (a.mul b) (a'.mul b') := by
  rw [Element.mul, Element.mul, ha.isZero_eq, hb.isZero_eq, ha.value.isTop_add hb.value]
  split_ifs with hzero htop
  · exact .ok (.refl rfl)
  · exact .overflow _ _ _ _
  · refine .ok ⟨ha.value.add hb.value ?_, ?_⟩
    · rw [ha.value.isTop_add hb.value]
      exact Bool.eq_false_iff.mpr htop
    · rw [ha.ghost, hb.ghost]

theorem mul_comm {a b : Element Float} (ha : Weight.supported a.value = true)
    (hb : Weight.supported b.value = true) : Alike (a.mul b) (b.mul a) := by
  have hself : Alike (a.mul b) (a.mul b) := mul_elements (.refl ha) (.refl hb)
  rw [Element.mul] at hself
  rw [Element.mul, Element.mul, Bool.or_comm b.isZero, Bool.or_comm b.ghost,
    Binary64.add_comm b.value]
  split_ifs at hself ⊢ with hzero htop
  · exact hself
  · exact .overflow _ _ _ _
  · exact hself

theorem respects : Respects Alike where
  zero := .ok (.refl rfl)
  one := .ok (.refl rfl)
  add hx hy := by
    cases hx with
    | ok ha =>
      cases hy with
      | ok hb => exact .ok (ha.add hb)
      | overflow => exact .overflow _ _ _ _
    | overflow => exact .overflow _ _ _ _
  mul hx hy := by
    cases hx with
    | ok ha =>
      cases hy with
      | ok hb => exact mul_elements ha hb
      | overflow => exact .overflow _ _ _ _
    | overflow => exact .overflow _ _ _ _

end Alike

end Computed

namespace NormalElement

/-- The element with its mark, but for the mark of `-∞`. -/
def unmarkedBot (a : Element Exact) : NormalElement where
  toElement := ⟨a.value, a.ghost && !a.isZero⟩
  normal := by
    intro h
    change a.isZero = true at h
    change (a.ghost && !a.isZero) = false
    rw [h, Bool.not_true, Bool.and_false]

private theorem unmarkedBot_bot (ghost : Bool) : unmarkedBot ⟨.bot, ghost⟩ = 0 := by
  cases ghost <;> rfl

private theorem unmarkedBot_toElement (a : NormalElement) : unmarkedBot a.1 = a := by
  rcases a.eq_zero_or_finite with rfl | ⟨k, ghost, rfl⟩
  · rfl
  · cases ghost <;> rfl

private theorem unmarkedBot_add (a b : Element Exact) :
    unmarkedBot (a + b) = unmarkedBot a + unmarkedBot b := by
  obtain ⟨v, g⟩ := a
  obtain ⟨w, h⟩ := b
  cases v with
  | bot =>
    rw [unmarkedBot_bot, zero_add]
    rfl
  | int k =>
    cases w with
    | bot =>
      rw [unmarkedBot_bot, add_zero]
      rfl
    | int l =>
      change unmarkedBot (finite k g + finite l h).1 =
        unmarkedBot (finite k g).1 + unmarkedBot (finite l h).1
      simp only [unmarkedBot_toElement]

end NormalElement

namespace Computed

/-- A computed element in units and with every `-∞` tangible, and an overflow as the top. -/
inductive Tallied : Computed Float → WithTop NormalElement → Prop
  | ok {a : Element Float} (h : Weight.supported a.value = true) :
    Tallied (.ok a) (NormalElement.unmarkedBot a.inUnits)
  | overflow (v w : Float) : Tallied (.error (.overflow v w)) ⊤

namespace Tallied

variable {x y : Computed Float} {t : WithTop NormalElement}

theorem respectsSums : RespectsSums Tallied where
  zero := .ok (a := 0) rfl
  add hx hy := by
    cases hx with
    | ok ha =>
      cases hy with
      | ok hb =>
        rw [← WithTop.coe_add, ← NormalElement.unmarkedBot_add, ← Element.inUnits_add ha hb]
        exact .ok (Element.supported_value_add ha hb)
      | overflow =>
        rw [WithTop.add_top]
        exact .overflow _ _
    | overflow =>
      rw [WithTop.top_add]
      exact .overflow _ _

theorem exists_of_alike (h : Alike x x) : ∃ t, Tallied x t := by
  cases h with
  | ok h => exact ⟨_, .ok h.value.supported⟩
  | overflow v w => exact ⟨_, .overflow v w⟩

/-- What tallies the same is alike, but for the marks of two `-∞`. -/
theorem alike_or_isZero (hx : Tallied x t) (hy : Tallied y t) :
    Alike x y ∨ ∃ a b, x = .ok a ∧ y = .ok b ∧ Equals a.value b.value ∧
      a.isZero = true ∧ b.isZero = true := by
  cases hx with
  | overflow v w =>
    cases hy with
    | overflow v' w' => exact Or.inl (.overflow v w v' w')
  | @ok a ha =>
    generalize hs : (NormalElement.unmarkedBot a.inUnits : WithTop NormalElement) = s at hy
    cases hy with
    | overflow v w => cases hs
    | @ok b hb =>
      have hab := congrArg NormalElement.toElement (WithTop.coe_injective hs)
      have hvalue : Equals a.value b.value :=
        .of_units ha hb (congrArg (fun e : Element Exact => e.value) hab)
      have hzero : a.isZero = b.isZero := hvalue.beq_bot
      cases h : a.isZero with
      | true => exact Or.inr ⟨a, b, rfl, rfl, hvalue, h, hzero ▸ h⟩
      | false =>
        have hmark : (a.ghost && !a.inUnits.isZero) = (b.ghost && !b.inUnits.isZero) :=
          congrArg (fun e : Element Exact => e.ghost) hab
        rw [Element.isZero_inUnits ha, Element.isZero_inUnits hb, ← hzero, h, Bool.not_false,
          Bool.and_true, Bool.and_true] at hmark
        exact Or.inl (.ok ⟨hvalue, hmark⟩)

end Tallied

end Computed

end MaxPlus
