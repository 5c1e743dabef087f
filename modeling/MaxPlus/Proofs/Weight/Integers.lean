import MaxPlus.Proofs.Weight.Sums

/-!
The integers among the doubles.

The number one is `2 ^ 1074` times the smallest positive double. Up to `2 ^ 53` every integer is a
double, so the sum of two doubles that are integers is exact for as long as it is not above. The
order of such doubles is the order of the integers, with `-∞` below them.
-/

set_option autoImplicit false
set_option relaxedAutoImplicit false

namespace MaxPlus

@[irreducible]
def Binary64.unitsOfOne : ℕ := 2 ^ 1074

namespace Exact

def magnitude : Exact → ℕ
  | bot => 0
  | int k => k.natAbs

def inUnits : Exact → Exact
  | bot => bot
  | int k => int (k * Binary64.unitsOfOne)

end Exact

namespace Binary64

/-- The double is `-∞` or the integer. -/
structure Represents (x : Float) (v : Exact) : Prop where
  supported : Weight.supported x = true
  units_eq : units x = v.inUnits

instance (x : Float) (v : Exact) : Decidable (Represents x v) :=
  decidable_of_iff (Weight.supported x = true ∧ units x = v.inUnits)
    ⟨fun h => ⟨h.1, h.2⟩, fun h => ⟨h.supported, h.units_eq⟩⟩

def integer (x : Float) : Exact :=
  match units x with
  | .bot => .bot
  | .int u => .int (u / unitsOfOne)

private theorem unitsOfOne_pos : (0 : ℤ) < unitsOfOne := by
  unfold unitsOfOne
  exact Int.natCast_pos.mpr (pow_pos two_pos _)

private theorem short_mul_two_pow {m t : ℕ} (hm : m ≤ 2 ^ 53) (ht : t < 2045) :
    Short (m * 2 ^ t) ∧ m * 2 ^ t < limit := by
  rw [← two_mul_leastNormal] at hm
  rcases hm.lt_or_eq with hlt | rfl
  · exact ⟨⟨m, t, hlt, rfl⟩, mul_two_pow_lt_limit hlt ht.le⟩
  · have heq : 2 * leastNormal * 2 ^ t = leastNormal * 2 ^ (t + 1) := by ring
    have hlt : leastNormal < 2 * leastNormal := by decide
    rw [heq]
    exact ⟨⟨leastNormal, t + 1, hlt, rfl⟩, mul_two_pow_lt_limit hlt ht⟩

private theorem short_mul_unitsOfOne {m : ℕ} (hm : m ≤ 2 ^ 53) :
    Short (m * unitsOfOne) ∧ m * unitsOfOne < limit := by
  unfold unitsOfOne
  exact short_mul_two_pow hm (by decide)

namespace Represents

variable {x y : Float} {v w : Exact} {k l : ℤ}

theorem bot : Represents Weight.bot .bot :=
  ⟨rfl, rfl⟩

theorem unit : Represents Weight.unit (.int 0) := by
  refine ⟨rfl, ?_⟩
  rw [units_unit, Exact.inUnits, zero_mul]

theorem of_units (h : units x = .int (k * unitsOfOne)) : Represents x (.int k) :=
  ⟨supported_of_units h, h⟩

theorem add (hx : Represents x (.int k)) (hy : Represents y (.int l))
    (hsum : (k + l).natAbs ≤ 2 ^ 53) : Represents (x + y) (.int (k + l)) := by
  have hsettles := settles_units_add hx.units_eq hy.units_eq
  rw [← add_mul] at hsettles
  have habs : ((k + l) * (unitsOfOne : ℤ)).natAbs = (k + l).natAbs * unitsOfOne := by
    rw [Int.natAbs_mul, Int.natAbs_natCast]
  obtain ⟨hshort, hlimit⟩ := short_mul_unitsOfOne hsum
  rw [← habs] at hshort hlimit
  apply of_units
  rw [units]
  generalize (x + y).toModel.unpack = u at hsettles
  cases hsettles with
  | rounded hR _ hu => rw [hu, hR.eq_of_short hshort, Int.sign_mul_natAbs]
  | above _ hR hle => exact absurd (hR.eq_of_short hshort ▸ hle) hlimit.not_ge
  | below _ hR hle => exact absurd (hR.eq_of_short hshort ▸ hle) hlimit.not_ge

theorem beq_bot (h : Represents x v) : (x == Weight.bot) = (v == Weight.bot) := by
  rw [beq_bot_units h.supported, h.units_eq]
  cases v <;> rfl

theorem neg (h : Represents x v) (hbot : (x == Weight.bot) = false) : Represents (-x) (-v) := by
  refine ⟨(supported_neg h.supported hbot).1, ?_⟩
  rw [units_neg h.supported hbot, h.units_eq]
  cases v with
  | bot => rfl
  | int k => exact congrArg Exact.int (neg_mul k _).symm

theorem lt_eq (hx : Represents x v) (hy : Represents y w) : Weight.lt x y = Weight.lt v w := by
  rw [lt_units hx.supported hy.supported, hx.units_eq, hy.units_eq]
  cases v with
  | bot => cases w <;> rfl
  | int k =>
    cases w with
    | bot => rfl
    | int l =>
      rw [Exact.inUnits, Exact.inUnits, Exact.lt_int, Exact.lt_int, decide_eq_decide]
      exact mul_lt_mul_iff_left₀ unitsOfOne_pos

theorem integer_eq (h : Represents x v) : integer x = v := by
  rw [integer, h.units_eq]
  cases v with
  | bot => rfl
  | int k => exact congrArg Exact.int (Int.mul_ediv_cancel k unitsOfOne_pos.ne')

end Represents

end Binary64

end MaxPlus
