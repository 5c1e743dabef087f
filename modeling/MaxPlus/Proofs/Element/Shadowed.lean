import MaxPlus.Proofs.Element.Simulation
import MaxPlus.Proofs.Element.WellFormed
import MaxPlus.Proofs.Weight.Integers

/-!
Doubles beside the exact weights that they stand for.

Every operation is made on both: on the double with its rounding, and on its shadow without. All
comparisons are those of the doubles. A sum is refused if the double is not the integer of its
shadow, or if that integer lies above a limit. So what is computed without a refusal has formed no
sum that is rounded, out of range or above the limit. Without the shadows it is the computation over
doubles, and without the doubles the one over exact weights.
-/

set_option autoImplicit false
set_option relaxedAutoImplicit false

namespace MaxPlus

open Binary64

structure Shadowed (limit : ℕ) where
  double : Float
  shadow : Exact

namespace Shadowed

variable {limit m k : ℕ}

/-- The double is its shadow, which is `-∞` or an integer of at most this magnitude. -/
structure Within (m : ℕ) (x : Shadowed limit) : Prop where
  represents : Represents x.double x.shadow
  le : x.shadow.magnitude ≤ m

instance (m : ℕ) (x : Shadowed limit) : Decidable (x.Within m) :=
  decidable_of_iff (Represents x.double x.shadow ∧ x.shadow.magnitude ≤ m)
    ⟨fun h => ⟨h.1, h.2⟩, fun h => ⟨h.represents, h.le⟩⟩

/-- The sums and comparisons of the doubles, where only sums within the limit exist. -/
instance : Weight (Shadowed limit) where
  add x y := ⟨x.double + y.double, x.shadow + y.shadow⟩
  neg x := ⟨-x.double, -x.shadow⟩
  beq x y := x.double == y.double
  bot := ⟨Weight.bot, Weight.bot⟩
  unit := ⟨Weight.unit, Weight.unit⟩
  lt x y := Weight.lt x.double y.double
  isTop x := !decide (x.Within limit)
  isUnordered x := Weight.isUnordered x.double
  text x := Weight.text x.double

def ofFloat (limit : ℕ) (x : Float) : Shadowed limit :=
  ⟨x, integer x⟩

theorem Within.mono {x : Shadowed limit} (h : x.Within m) (hle : m ≤ k) : x.Within k :=
  ⟨h.represents, h.le.trans hle⟩

theorem within_bot (m : ℕ) : (Weight.bot : Shadowed limit).Within m :=
  ⟨.bot, Nat.zero_le m⟩

theorem within_unit (m : ℕ) : (Weight.unit : Shadowed limit).Within m :=
  ⟨.unit, Nat.zero_le m⟩

end Shadowed

namespace Element

/-- The value is `-∞` or an integer of at most this magnitude. -/
def IntegerUpTo (bound : ℕ) (a : Element Float) : Prop :=
  ∃ v : Exact, Represents a.value v ∧ v.magnitude ≤ bound

private theorem integerUpTo_iff {bound : ℕ} {a : Element Float} : a.IntegerUpTo bound ↔
    Represents a.value (integer a.value) ∧ (integer a.value).magnitude ≤ bound := by
  constructor
  · rintro ⟨v, hv, hle⟩
    rw [hv.integer_eq]
    exact ⟨hv, hle⟩
  · rintro ⟨hv, hle⟩
    exact ⟨_, hv, hle⟩

instance (bound : ℕ) (a : Element Float) : Decidable (a.IntegerUpTo bound) :=
  decidable_of_iff _ integerUpTo_iff.symm

section Shadows

variable {limit m k : ℕ} {a b c : Element (Shadowed limit)}

theorem IntegerUpTo.within {a : Element Float} (h : a.IntegerUpTo m) :
    (a.onValue (Shadowed.ofFloat limit)).value.Within m :=
  ⟨(integerUpTo_iff.mp h).1, (integerUpTo_iff.mp h).2⟩

theorem onValue_double_isZero (a : Element (Shadowed limit)) :
    (a.onValue Shadowed.double).isZero = a.isZero := rfl

theorem onValue_shadow_isZero (ha : a.value.Within m) :
    (a.onValue Shadowed.shadow).isZero = a.isZero :=
  ha.represents.beq_bot.symm

private theorem mul_shadowed_eq_ok_iff : a.mul b = .ok c ↔
    ((a.isZero || b.isZero) = true ∧ c = 0) ∨
      ((a.isZero || b.isZero) = false ∧ (a.value + b.value).Within limit ∧
        c = ⟨a.value + b.value, a.ghost || b.ghost⟩) := by
  have htop : Weight.isTop (a.value + b.value) = !decide ((a.value + b.value).Within limit) := rfl
  rw [mul, htop]
  cases hzero : a.isZero || b.isZero with
  | true => simp [eq_comm]
  | false =>
    by_cases hsum : (a.value + b.value).Within limit
    · simp [hsum, eq_comm]
    · simp [hsum]

theorem within_value_add (ha : a.value.Within m) (hb : b.value.Within m) :
    (a + b).value.Within m := by
  rcases value_add a b with h | h
  · rwa [h]
  · rwa [h]

private theorem exists_represents_int (ha : a.value.Within m) (hzero : a.isZero = false) :
    ∃ i : ℤ, a.value.shadow = .int i ∧ Represents a.value.double (.int i) ∧ i.natAbs ≤ m := by
  obtain ⟨hrepresents, hle⟩ := ha
  rw [isZero, show (a.value == Weight.bot) = (a.value.double == Weight.bot) from rfl,
    hrepresents.beq_bot] at hzero
  cases hshadow : a.value.shadow with
  | bot =>
    rw [hshadow] at hzero
    cases hzero
  | int i =>
    rw [hshadow] at hrepresents hle
    exact ⟨i, rfl, hrepresents, hle⟩

/-- Up to `2 ^ 53` the bounds of the factors add up to one of the product. -/
theorem exists_mul_within (ha : a.value.Within m) (hb : b.value.Within k) (hle : m + k ≤ limit)
    (hlimit : limit ≤ 2 ^ 53) : ∃ c, a.mul b = .ok c ∧ c.value.Within (m + k) := by
  cases hzero : a.isZero || b.isZero with
  | true => exact ⟨0, mul_shadowed_eq_ok_iff.mpr (Or.inl ⟨hzero, rfl⟩), Shadowed.within_bot _⟩
  | false =>
    obtain ⟨hazero, hbzero⟩ := Bool.or_eq_false_iff.mp hzero
    obtain ⟨i, hi, hx, hi'⟩ := exists_represents_int ha hazero
    obtain ⟨j, hj, hy, hj'⟩ := exists_represents_int hb hbzero
    have habs : (i + j).natAbs ≤ m + k := (Int.natAbs_add_le i j).trans (Nat.add_le_add hi' hj')
    have hshadow : (a.value + b.value).shadow = .int (i + j) := by
      rw [show (a.value + b.value).shadow = a.value.shadow + b.value.shadow from rfl, hi, hj]
      rfl
    have hsum : (a.value + b.value).Within (m + k) := by
      constructor
      · rw [hshadow]
        exact hx.add hy ((habs.trans hle).trans hlimit)
      · rw [hshadow]
        exact habs
    exact ⟨_, mul_shadowed_eq_ok_iff.mpr (Or.inr ⟨hzero, hsum.mono hle, rfl⟩), hsum⟩

theorem within_of_tangibleInverse? (ha : a.value.Within m) (h : a.tangibleInverse? = some b) :
    b.value.Within m := by
  rw [tangibleInverse?, inverse?] at h
  split_ifs at h with htangible hzero
  cases h
  rw [Bool.not_eq_true] at hzero
  obtain ⟨i, hi, -, hle⟩ := exists_represents_int ha hzero
  refine ⟨ha.represents.neg hzero, ?_⟩
  rw [show (-a.value).shadow = -a.value.shadow from rfl, hi]
  exact (Int.natAbs_neg i).trans_le hle

theorem simulates_double : Simulates fun (a : Element (Shadowed limit)) b =>
    b = a.onValue Shadowed.double where
  zero := rfl
  one := rfl
  add := by
    rintro a b _ _ rfl rfl
    exact (onValue_add rfl rfl rfl rfl).symm
  mul := by
    rintro a b _ _ rfl rfl c hc
    have hzero : ∀ d : Element (Shadowed limit), (d.onValue Shadowed.double).isZero = d.isZero :=
      fun _ => rfl
    rw [mul, hzero, hzero]
    rcases mul_shadowed_eq_ok_iff.mp hc with ⟨hbot, rfl⟩ | ⟨hfinite, hsum, rfl⟩
    · exact ⟨0, if_pos hbot, rfl⟩
    · have hsupported := hsum.represents.supported
      rw [Weight.supported, Bool.not_eq_true', Bool.or_eq_false_iff] at hsupported
      have htop : Weight.isTop ((a.onValue Shadowed.double).value +
          (b.onValue Shadowed.double).value) = false := hsupported.2
      rw [hfinite, if_neg Bool.false_ne_true, htop, if_neg Bool.false_ne_true]
      exact ⟨_, rfl, rfl⟩
  tangibleInverse? := by
    rintro a b _ rfl h
    rw [tangibleInverse?_onValue (onValue_double_isZero a) rfl, h]
    exact ⟨_, rfl, rfl⟩

theorem simulates_shadow : Simulates fun (a : Element (Shadowed limit)) b =>
    a.value.Within limit ∧ b = a.onValue Shadowed.shadow where
  zero := ⟨Shadowed.within_bot limit, rfl⟩
  one := ⟨Shadowed.within_unit limit, rfl⟩
  add := by
    rintro a b _ _ ⟨ha, rfl⟩ ⟨hb, rfl⟩
    refine ⟨within_value_add ha hb, (onValue_add (onValue_shadow_isZero ha)
      (onValue_shadow_isZero hb) ?_ ?_).symm⟩
    · exact (ha.represents.lt_eq hb.represents).symm
    · exact (hb.represents.lt_eq ha.represents).symm
  mul := by
    rintro a b _ _ ⟨ha, rfl⟩ ⟨hb, rfl⟩ c hc
    have hzero := onValue_shadow_isZero ha
    have hzero' := onValue_shadow_isZero hb
    rw [mul_eq_ok, times, hzero, hzero']
    rcases mul_shadowed_eq_ok_iff.mp hc with ⟨hbot, rfl⟩ | ⟨hfinite, hsum, rfl⟩
    · rw [if_pos hbot]
      exact ⟨0, rfl, Shadowed.within_bot limit, rfl⟩
    · rw [hfinite, if_neg Bool.false_ne_true]
      exact ⟨_, rfl, hsum, rfl⟩
  tangibleInverse? := by
    rintro a b _ ⟨ha, rfl⟩ h
    rw [tangibleInverse?_onValue (onValue_shadow_isZero ha) rfl, h]
    exact ⟨_, rfl, within_of_tangibleInverse? ha h, rfl⟩

end Shadows

end Element

end MaxPlus
