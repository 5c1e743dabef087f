import MaxPlus.Proofs.Element.Level
import MaxPlus.Proofs.Element.Simulation
import MaxPlus.Proofs.Weight.Units

/-!
The laws of the semiring for elements over doubles.

Counted in units of the smallest positive double, a well-formed element is a normal element over
exact weights. A sum of elements carries over as it is, and a product does where the sum of the two
values is exact. Two sides of a law that carry over to the same normal element are the same element.
-/

set_option autoImplicit false
set_option relaxedAutoImplicit false

namespace MaxPlus

namespace Computed

variable {W : Type} [Weight W]

/-- Both elements exist, and they have the same value and the same mark. -/
def Agree (x y : Computed W) : Prop :=
  ∃ a b, x = .ok a ∧ y = .ok b ∧ a.sameAs b = true

structure SemiringLaws (x y z : Computed W) : Prop where
  add_comm : Agree (x + y) (y + x)
  add_assoc : Agree (x + y + z) (x + (y + z))
  zero_add : Agree (0 + x) x
  add_zero : Agree (x + 0) x
  mul_comm : Agree (x * y) (y * x)
  mul_assoc : Agree (x * y * z) (x * (y * z))
  one_mul : Agree (1 * x) x
  mul_one : Agree (x * 1) x
  zero_mul : Agree (0 * x) 0
  mul_zero : Agree (x * 0) 0
  mul_add : Agree (x * (y + z)) (x * y + x * z)
  add_mul : Agree ((x + y) * z) (x * z + y * z)

end Computed

namespace Element

open Binary64

/-- The value is finite or `-∞`, and `-∞` is tangible. -/
structure WellFormed {W : Type} [Weight W] (a : Element W) : Prop where
  supported : Weight.supported a.value = true
  normal : a.Normal

theorem value_add {W : Type} [Weight W] (a b : Element W) :
    (a + b).value = a.value ∨ (a + b).value = b.value := by
  rw [add_def, add]
  split_ifs
  · exact Or.inr rfl
  · exact Or.inl rfl
  · exact Or.inl rfl
  · exact Or.inr rfl
  · exact Or.inl rfl

theorem supported_value_add {W : Type} [Weight W] {a b : Element W}
    (ha : Weight.supported a.value = true) (hb : Weight.supported b.value = true) :
    Weight.supported (a + b).value = true := by
  rcases value_add a b with h | h
  · rw [h, ha]
  · rw [h, hb]

theorem WellFormed.add {W : Type} [Weight W] {a b : Element W} (ha : a.WellFormed)
    (hb : b.WellFormed) : (a + b).WellFormed where
  supported := supported_value_add ha.supported hb.supported
  normal := ha.normal.add hb.normal

/-- The element with its value in units of the smallest positive double. -/
def inUnits (a : Element Float) : Element Exact :=
  ⟨units a.value, a.ghost⟩

section Units

variable {a b : Element Float}

theorem isZero_inUnits (ha : Weight.supported a.value = true) : a.inUnits.isZero = a.isZero :=
  (beq_bot_units ha).symm

theorem WellFormed.normal_inUnits (ha : a.WellFormed) : a.inUnits.Normal := by
  intro hzero
  rw [isZero_inUnits ha.supported] at hzero
  exact ha.normal hzero

theorem sameAs_inUnits (ha : Weight.supported a.value = true)
    (hb : Weight.supported b.value = true) : a.sameAs b = a.inUnits.sameAs b.inUnits := by
  rw [sameAs, beq_units ha hb]
  rfl

theorem inUnits_add (ha : Weight.supported a.value = true) (hb : Weight.supported b.value = true) :
    (a + b).inUnits = a.inUnits + b.inUnits :=
  onValue_add (isZero_inUnits ha) (isZero_inUnits hb) (lt_units ha hb).symm (lt_units hb ha).symm

theorem exists_units_eq_int (ha : Weight.supported a.value = true) (hzero : a.isZero = false) :
    ∃ k, units a.value = .int k := by
  rw [← isZero_inUnits ha] at hzero
  cases hvalue : units a.value with
  | bot =>
    rw [isZero, inUnits, hvalue] at hzero
    cases hzero
  | int k => exact ⟨k, rfl⟩

private theorem exists_mul_eq_ok (ha : a.WellFormed) (hb : b.WellFormed)
    (h : ExactSum a.value b.value) :
    ∃ p, a.mul b = .ok p ∧ p.WellFormed ∧ p.inUnits = a.inUnits.times b.inUnits := by
  rw [mul, times, isZero_inUnits ha.supported, isZero_inUnits hb.supported]
  by_cases hzero : (a.isZero || b.isZero) = true
  · rw [if_pos hzero, if_pos hzero]
    exact ⟨0, rfl, ⟨rfl, normal_zero⟩, rfl⟩
  · rw [if_neg hzero, if_neg hzero]
    rw [Bool.not_eq_true, Bool.or_eq_false_iff] at hzero
    obtain ⟨k, hk⟩ := exists_units_eq_int ha.supported hzero.1
    obtain ⟨l, hl⟩ := exists_units_eq_int hb.supported hzero.2
    have hsum : units (a.value + b.value) = units a.value + units b.value := by
      apply h
      · rw [hk]
        exact Exact.int_ne_bot k
      · rw [hl]
        exact Exact.int_ne_bot l
    have hint : units (a.value + b.value) = .int (k + l) := by
      rw [hsum, hk, hl]
      rfl
    have hsupported := supported_of_units hint
    have htop : Weight.isTop (a.value + b.value) = false := by
      rw [Weight.supported, Bool.not_eq_true', Bool.or_eq_false_iff] at hsupported
      exact hsupported.2
    have hfinite : (a.value + b.value == Weight.bot) = false := by
      rw [beq_bot_units hsupported, hint]
      rfl
    rw [htop, if_neg Bool.false_ne_true]
    refine ⟨_, rfl, ⟨hsupported, ?_⟩, ?_⟩
    · intro hbot
      rw [isZero, hfinite] at hbot
      cases hbot
    · rw [inUnits, hsum]
      rfl

end Units

def ExactProduct (x y : Computed Float) : Prop :=
  ∀ a b, x = .ok a → y = .ok b → ExactSum a.value b.value

namespace ExactProduct

variable {a b c : Element Float} {x y : Computed Float}

theorem symm (h : ExactProduct x y) : ExactProduct y x :=
  fun b a hb ha => (h a b ha hb).symm

theorem ok_ok (h : ExactSum a.value b.value) : ExactProduct (.ok a) (.ok b) := by
  rintro _ _ ⟨⟩ ⟨⟩
  exact h

private theorem zero_left (y : Computed Float) : ExactProduct 0 y := by
  rintro _ b ⟨⟩ _
  exact exactSum_bot b.value

private theorem one_left (y : Computed Float) : ExactProduct 1 y := by
  rintro _ b ⟨⟩ _
  exact exactSum_unit b.value

private theorem add_left (ha : ExactProduct (.ok a) x) (hb : ExactProduct (.ok b) x) :
    ExactProduct (.ok a + .ok b) x := by
  rintro _ c ⟨⟩ hc
  rcases value_add a b with h | h
  · rw [h]
    exact ha a c rfl hc
  · rw [h]
    exact hb b c rfl hc

theorem mul_left (h : ExactSum (a.value + b.value) c.value) :
    ExactProduct (.ok a * .ok b) (.ok c) := by
  rintro p _ hp ⟨⟩
  rw [Computed.ok_mul_ok, mul] at hp
  split_ifs at hp with hzero
  · cases hp
    exact exactSum_bot c.value
  · cases hp
    exact h

end ExactProduct

def Reads (x : Computed Float) (r : NormalElement) : Prop :=
  ∃ a, x = .ok a ∧ a.WellFormed ∧ a.inUnits = r.1

namespace Reads

variable {x y : Computed Float} {r s : NormalElement}

theorem zero : Reads 0 0 :=
  ⟨0, rfl, ⟨rfl, normal_zero⟩, rfl⟩

theorem one : Reads 1 1 :=
  ⟨1, rfl, ⟨rfl, fun _ => rfl⟩, rfl⟩

theorem add (hx : Reads x r) (hy : Reads y s) : Reads (x + y) (r + s) := by
  obtain ⟨a, rfl, ha, hra⟩ := hx
  obtain ⟨b, rfl, hb, hrb⟩ := hy
  refine ⟨a + b, rfl, ha.add hb, ?_⟩
  rw [inUnits_add ha.supported hb.supported, hra, hrb, NormalElement.toElement_add]

theorem mul (hx : Reads x r) (hy : Reads y s) (h : ExactProduct x y) : Reads (x * y) (r * s) := by
  obtain ⟨a, rfl, ha, hra⟩ := hx
  obtain ⟨b, rfl, hb, hrb⟩ := hy
  obtain ⟨p, hp, hwell, hunits⟩ := exists_mul_eq_ok ha hb (h a b rfl rfl)
  refine ⟨p, hp, hwell, ?_⟩
  rw [hunits, hra, hrb, NormalElement.toElement_mul]

theorem agree (hx : Reads x r) (hy : Reads y s) (h : r = s) : x.Agree y := by
  obtain ⟨a, rfl, ha, hra⟩ := hx
  obtain ⟨b, rfl, hb, hrb⟩ := hy
  refine ⟨a, b, rfl, rfl, ?_⟩
  rw [sameAs_inUnits ha.supported hb.supported, hra, hrb]
  exact NormalElement.sameAs_iff.mpr h

end Reads

/-- No sum that the laws form of three values is rounded or out of range. -/
structure ExactSums (x y z : Float) : Prop where
  first_second : ExactSum x y
  second_third : ExactSum y z
  first_third : ExactSum x z
  left_first : ExactSum (x + y) z
  right_first : ExactSum x (y + z)

/-- Well-formed elements obey the laws of a commutative semiring, marks included, wherever the sums
of their values are exact. -/
theorem semiringLaws_of_exactSums {a b c : Element Float} (ha : a.WellFormed) (hb : b.WellFormed)
    (hc : c.WellFormed) (h : ExactSums a.value b.value c.value) :
    Computed.SemiringLaws (.ok a) (.ok b) (.ok c) := by
  have hx : Reads (.ok a) ⟨a.inUnits, ha.normal_inUnits⟩ := ⟨a, rfl, ha, rfl⟩
  have hy : Reads (.ok b) ⟨b.inUnits, hb.normal_inUnits⟩ := ⟨b, rfl, hb, rfl⟩
  have hz : Reads (.ok c) ⟨c.inUnits, hc.normal_inUnits⟩ := ⟨c, rfl, hc, rfl⟩
  -- Sums carry over as they are; each product of a law needs an exact sum of its own.
  have hab := ExactProduct.ok_ok h.first_second
  have hbc := ExactProduct.ok_ok h.second_third
  have hac := ExactProduct.ok_ok h.first_third
  have hxy := hx.mul hy hab
  have hyz := hy.mul hz hbc
  have hxz := hx.mul hz hac
  exact {
    add_comm := (hx.add hy).agree (hy.add hx) (add_comm _ _)
    add_assoc := ((hx.add hy).add hz).agree (hx.add (hy.add hz)) (add_assoc _ _ _)
    zero_add := (Reads.zero.add hx).agree hx (zero_add _)
    add_zero := (hx.add Reads.zero).agree hx (add_zero _)
    mul_comm := hxy.agree (hy.mul hx hab.symm) (mul_comm _ _)
    mul_assoc := (hxy.mul hz (.mul_left h.left_first)).agree
      (hx.mul hyz (ExactProduct.mul_left h.right_first.symm).symm) (mul_assoc _ _ _)
    one_mul := (Reads.one.mul hx (.one_left _)).agree hx (one_mul _)
    mul_one := (hx.mul Reads.one (ExactProduct.one_left _).symm).agree hx (mul_one _)
    zero_mul := (Reads.zero.mul hx (.zero_left _)).agree Reads.zero (zero_mul _)
    mul_zero := (hx.mul Reads.zero (ExactProduct.zero_left _).symm).agree Reads.zero (mul_zero _)
    mul_add := (hx.mul (hy.add hz) (ExactProduct.add_left hab.symm hac.symm).symm).agree
      (hxy.add hxz) (mul_add _ _ _)
    add_mul := ((hx.add hy).mul hz (.add_left hac hbc)).agree (hxz.add hyz) (add_mul _ _ _) }

theorem semiringLaws_of_exactSums_tie :
    WellFormed (⟨1.5, true⟩ : Element Float) ∧ WellFormed (⟨2.5, false⟩ : Element Float) ∧
      ExactSums 1.5 2.5 2.5 ∧
      Computed.SemiringLaws (.ok ⟨1.5, true⟩ : Computed Float) (.ok ⟨2.5, false⟩)
        (.ok ⟨2.5, false⟩) := by
  have hghost : WellFormed (⟨1.5, true⟩ : Element Float) :=
    ⟨by decide +kernel, by decide +kernel⟩
  have htangible : WellFormed (⟨2.5, false⟩ : Element Float) :=
    ⟨by decide +kernel, fun _ => rfl⟩
  have hexact : ExactSums 1.5 2.5 2.5 := by
    constructor <;> exact fun _ _ => by decide +kernel
  exact ⟨hghost, htangible, hexact, semiringLaws_of_exactSums hghost htangible htangible hexact⟩

end Element

end MaxPlus
