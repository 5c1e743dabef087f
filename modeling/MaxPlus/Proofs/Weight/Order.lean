import MaxPlus.Proofs.Element.Level
import MaxPlus.Proofs.Weight.Units

/-!
The order of the doubles that elements carry.

Their ranks, the values in units of the smallest positive double with a bottom for `-∞`, are
linearly ordered, and every comparison of two such doubles is the one of their ranks.
-/

set_option autoImplicit false
set_option relaxedAutoImplicit false

namespace MaxPlus

namespace Exact

theorem lt_iff {a b : Exact} : Weight.lt a b = true ↔ a.level < b.level := by
  cases a with
  | bot =>
    cases b with
    | bot => exact iff_of_false Bool.false_ne_true (lt_irrefl _)
    | int l => exact iff_of_true rfl (WithBot.bot_lt_coe l)
  | int k =>
    cases b with
    | bot => exact iff_of_false Bool.false_ne_true not_lt_bot
    | int l =>
      rw [lt_int, decide_eq_true_eq]
      exact WithBot.coe_lt_coe.symm

private theorem level_injective : Function.Injective level := by
  intro a b h
  cases a with
  | bot =>
    cases b with
    | bot => rfl
    | int l => exact absurd h WithBot.bot_ne_coe
  | int k =>
    cases b with
    | bot => exact absurd h WithBot.coe_ne_bot
    | int l => exact congrArg int (WithBot.coe_injective h)

end Exact

namespace Binary64

/-- The value in units of the smallest positive double, with a bottom for `-∞`. -/
def rank (x : Float) : WithBot ℤ :=
  (units x).level

variable {x y : Float} (hx : Weight.supported x = true) (hy : Weight.supported y = true)
include hx hy

theorem lt_iff_rank_lt : Weight.lt x y = true ↔ rank x < rank y := by
  rw [lt_units hx hy, Exact.lt_iff, rank, rank]

theorem beq_iff_rank_eq : (x == y) = true ↔ rank x = rank y := by
  rw [beq_units hx hy, beq_iff_eq]
  exact Exact.level_injective.eq_iff.symm

theorem le_iff_rank_le : Weight.le x y = true ↔ rank x ≤ rank y := by
  rw [Weight.le, Bool.or_eq_true, lt_iff_rank_lt hx hy, beq_iff_rank_eq hx hy, le_iff_lt_or_eq]

theorem compare_eq_cmp_rank : Weight.compare x y = some (cmp (rank x) (rank y)) := by
  have hlt := lt_iff_rank_lt hx hy
  have heq := beq_iff_rank_eq hx hy
  have hgt := lt_iff_rank_lt hy hx
  rw [Weight.compare]
  rcases lt_trichotomy (rank x) (rank y) with h | h | h
  · rw [if_pos (hlt.mpr h), (cmp_eq_lt_iff _ _).mpr h]
  · rw [if_neg (mt hlt.mp h.not_lt), if_pos (heq.mpr h), (cmp_eq_eq_iff _ _).mpr h]
  · rw [if_neg (mt hlt.mp h.not_gt), if_neg (mt heq.mp h.ne'), if_pos (hgt.mpr h),
      (cmp_eq_gt_iff _ _).mpr h]

end Binary64

namespace Element

open Binary64

variable {a b : Element Float} (ha : Weight.supported a.value = true)
  (hb : Weight.supported b.value = true)
include ha

theorem isZero_iff_rank_eq_bot : a.isZero = true ↔ rank a.value = ⊥ :=
  beq_iff_rank_eq ha rfl

include hb

theorem isZero_eq_of_rank_eq (h : rank a.value = rank b.value) : a.isZero = b.isZero := by
  rw [Bool.eq_iff_iff, isZero_iff_rank_eq_bot ha, isZero_iff_rank_eq_bot hb, h]

end Element

end MaxPlus
