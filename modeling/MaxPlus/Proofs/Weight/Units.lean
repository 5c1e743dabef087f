import MaxPlus.Proofs.Weight.Canonical
import MaxPlus.Weight.Exact

/-!
Doubles as exact weights.

Every finite double is an integer multiple of the smallest positive one. Counted in these units, the
doubles that an element may carry compare as exact weights do. Sums need not agree: a sum is exact
if it is neither rounded nor out of range.
-/

set_option autoImplicit false
set_option relaxedAutoImplicit false

namespace MaxPlus

private theorem Weight.compare_beq_lt {W : Type} [Weight W] (a b : W) :
    (Weight.compare a b == some .lt) = Weight.lt a b := by
  unfold Weight.compare
  split_ifs with hlt heq hgt
  · exact hlt.symm
  all_goals exact (Bool.not_eq_true _ ▸ hlt).symm

namespace Exact

theorem int_ne_bot (k : ℤ) : int k ≠ bot := by
  intro h
  cases h

theorem lt_int (k l : ℤ) : Weight.lt (int k) (int l) = decide (k < l) := rfl

private theorem compare_int (k l : ℤ) : Weight.compare (int k) (int l) = some
    (Ord.compare k l) := by
  simp only [Weight.compare, lt_int, decide_eq_true_eq, beq_iff_eq, int.injEq]
  rcases lt_trichotomy k l with h | rfl | h
  · rw [if_pos h, compare_lt_iff_lt.mpr h]
  · rw [if_neg (lt_irrefl k), if_pos rfl, compare_eq_iff_eq.mpr rfl]
  · rw [if_neg h.not_gt, if_neg h.ne', if_pos h, compare_gt_iff_gt.mpr h]

private theorem compare_beq_eq (a b : Exact) : (Weight.compare a b == some .eq) = (a == b) := by
  cases a with
  | bot => cases b <;> rfl
  | int k =>
    cases b with
    | bot => rfl
    | int l =>
      rw [compare_int, Bool.eq_iff_iff, beq_iff_eq, beq_iff_eq, Option.some.injEq,
        compare_eq_iff_eq, int.injEq]

protected theorem add_comm (a b : Exact) : a + b = b + a := by
  cases a <;> cases b <;> try rfl
  exact congrArg int (Int.add_comm _ _)

end Exact

namespace Binary64

open Float.Model Float.Model.UnpackedFloat

def magnitude (m : ℕ) (q : ℤ) : ℕ :=
  m * 2 ^ (q - leastExponent).toNat

private theorem magnitude_pos {m : ℕ} (h : 0 < m) (q : ℤ) : 0 < magnitude m q := by
  unfold magnitude
  positivity

private theorem magnitude_lt_of_exponent_lt {m m' : ℕ} {q q' : ℤ} (hm : m < 2 * leastNormal)
    (hq : leastExponent ≤ q) (hm' : leastNormal ≤ m') (h : q < q') :
    magnitude m q < magnitude m' q' := by
  have hexp : (q - leastExponent).toNat + 1 ≤ (q' - leastExponent).toNat := by omega
  calc m * 2 ^ (q - leastExponent).toNat
      < 2 * leastNormal * 2 ^ (q - leastExponent).toNat := by gcongr
    _ = leastNormal * 2 ^ ((q - leastExponent).toNat + 1) := by
        rw [pow_succ]
        ring
    _ ≤ m' * 2 ^ (q' - leastExponent).toNat := by
        gcongr
        decide

private theorem compare_magnitude {s s' : Sign} {m m' : ℕ} {q q' : ℤ} {hm : 0 < m} {hm' : 0 < m'}
    (h : Canonical (.finite s m q hm)) (h' : Canonical (.finite s' m' q' hm')) :
    (compare q q').then (compare m m') = compare (magnitude m q) (magnitude m' q') := by
  obtain ⟨hlt, hlow, -, hnormal⟩ := h
  obtain ⟨hlt', hlow', -, hnormal'⟩ := h'
  -- The greater exponent is not the least one, so the significand beside it has its full length.
  rcases lt_trichotomy q q' with hq | rfl | hq
  · have hmag := magnitude_lt_of_exponent_lt hlt hlow (hnormal'.resolve_right (by omega)) hq
    rw [compare_lt_iff_lt.mpr hq, compare_lt_iff_lt.mpr hmag]
    rfl
  · have hmono : StrictMono fun m => magnitude m q := fun _ _ hlt =>
      Nat.mul_lt_mul_of_pos_right hlt (by positivity)
    rw [compare_eq_iff_eq.mpr rfl, ← cmp_eq_compare, ← cmp_eq_compare]
    exact (hmono.cmp_map_eq m m').symm
  · have hmag := magnitude_lt_of_exponent_lt hlt' hlow' (hnormal.resolve_right (by omega)) hq
    rw [compare_gt_iff_gt.mpr hq, compare_gt_iff_gt.mpr hmag]
    rfl

def unpackedUnits : UnpackedFloat → Exact
  | .finite s m q _ => .int (s.apply (magnitude m q))
  | .zero _ => .int 0
  | _ => .bot

/-- A double in units of the smallest positive one, and `-∞` for all that is not finite. -/
def units (x : Float) : Exact :=
  unpackedUnits x.toModel.unpack

section Order

private theorem compare_natCast (a b : ℕ) : Ord.compare (a : ℤ) (b : ℤ) = Ord.compare a b := by
  rw [← cmp_eq_compare, ← cmp_eq_compare, Nat.strictMono_cast.cmp_map_eq]

private theorem compare_neg_natCast (a b : ℕ) :
    Ord.compare (-(a : ℤ)) (-(b : ℤ)) = (Ord.compare a b).swap := by
  have hneg : StrictAnti fun k : ℤ => -k := fun _ _ h => neg_lt_neg h
  rw [← compare_natCast, ← cmp_eq_compare, ← cmp_eq_compare, cmp_swap, hneg.cmp_map_eq]

private theorem compare_finite_finite {s s' : Sign} {m m' : ℕ} {q q' : ℤ} {hm : 0 < m}
    {hm' : 0 < m'} (h : Canonical (.finite s m q hm)) (h' : Canonical (.finite s' m' q' hm')) :
    UnpackedFloat.compare (.finite s m q hm) (.finite s' m' q' hm') =
      some (Ord.compare (s.apply (magnitude m q)) (s'.apply (magnitude m' q'))) := by
  have hpos : (0 : ℤ) < magnitude m q := by exact_mod_cast magnitude_pos hm q
  have hpos' : (0 : ℤ) < magnitude m' q' := by exact_mod_cast magnitude_pos hm' q'
  cases s with
  | negative =>
    cases s' with
    | negative =>
      simp only [UnpackedFloat.compare, Sign.apply, compare_neg_natCast, compare_magnitude h h']
    | positive =>
      simp only [UnpackedFloat.compare, Sign.apply]
      rw [compare_lt_iff_lt.mpr (by omega)]
  | positive =>
    cases s' with
    | negative =>
      simp only [UnpackedFloat.compare, Sign.apply]
      rw [compare_gt_iff_gt.mpr (by omega)]
    | positive =>
      simp only [UnpackedFloat.compare, Sign.apply, compare_natCast, compare_magnitude h h']

private theorem compare_zero_finite {s s' : Sign} {m : ℕ} {q : ℤ} {hm : 0 < m} :
    UnpackedFloat.compare (.zero s) (.finite s' m q hm) =
      some (Ord.compare 0 (s'.apply (magnitude m q))) := by
  have hpos : (0 : ℤ) < magnitude m q := by exact_mod_cast magnitude_pos hm q
  cases s' with
  | negative =>
    simp only [UnpackedFloat.compare, Sign.apply]
    rw [compare_gt_iff_gt.mpr (by omega)]
  | positive =>
    simp only [UnpackedFloat.compare, Sign.apply]
    rw [compare_lt_iff_lt.mpr (by omega)]

private theorem compare_finite_zero {s s' : Sign} {m : ℕ} {q : ℤ} {hm : 0 < m} :
    UnpackedFloat.compare (.finite s m q hm) (.zero s') =
      some (Ord.compare (s.apply (magnitude m q)) 0) := by
  have hpos : (0 : ℤ) < magnitude m q := by exact_mod_cast magnitude_pos hm q
  cases s with
  | negative =>
    simp only [UnpackedFloat.compare, Sign.apply]
    rw [compare_lt_iff_lt.mpr (by omega)]
  | positive =>
    simp only [UnpackedFloat.compare, Sign.apply]
    rw [compare_gt_iff_gt.mpr (by omega)]

inductive Supported : UnpackedFloat → Prop
  | bot : Supported (.infinity .negative)
  | zero (s : Sign) : Supported (.zero s)
  | finite (s : Sign) (m : ℕ) (q : ℤ) (hm : 0 < m) : Supported (.finite s m q hm)

theorem supported_iff {x : Float} : Weight.supported x = true ↔ Supported x.toModel.unpack := by
  have htop : Weight.isTop x = x.toModel.unpack.beq (.infinity .positive) := rfl
  have hnan : Weight.isUnordered x = x.toModel.unpack.isNaN := rfl
  rw [Weight.supported, htop, hnan]
  cases x.toModel.unpack with
  | notANumber => exact iff_of_false Bool.false_ne_true nofun
  | infinity s =>
    cases s with
    | positive => exact iff_of_false Bool.false_ne_true nofun
    | negative => exact iff_of_true rfl .bot
  | zero s => exact iff_of_true rfl (.zero s)
  | finite s m q hm =>
    refine iff_of_true ?_ (.finite s m q hm)
    cases s <;> rfl

theorem supported_of_units {x : Float} {k : ℤ} (h : units x = .int k) :
    Weight.supported x = true := by
  rw [supported_iff]
  rw [units] at h
  cases hx : x.toModel.unpack with
  | notANumber =>
    rw [hx] at h
    cases h
  | infinity s =>
    rw [hx] at h
    cases h
  | zero s => exact .zero s
  | finite s m q hm => exact .finite s m q hm

private theorem compare_unpackedUnits {u v : UnpackedFloat} (hu : Canonical u) (hv : Canonical v)
    (hu' : Supported u) (hv' : Supported v) :
    u.compare v = Weight.compare (unpackedUnits u) (unpackedUnits v) := by
  cases hu' with
  | bot => cases hv' <;> rfl
  | zero s =>
    cases hv' with
    | bot => rfl
    | zero s' => rfl
    | finite s' m' q' hm' => exact compare_zero_finite.trans (Exact.compare_int _ _).symm
  | finite s m q hm =>
    cases hv' with
    | bot => cases s <;> rfl
    | zero s' => exact compare_finite_zero.trans (Exact.compare_int _ _).symm
    | finite s' m' q' hm' => exact (compare_finite_finite hu hv).trans (Exact.compare_int _ _).symm

private theorem compare_units {x y : Float} (hx : Weight.supported x = true)
    (hy : Weight.supported y = true) :
    x.toModel.unpack.compare y.toModel.unpack = Weight.compare (units x) (units y) :=
  compare_unpackedUnits (canonical_unpack _) (canonical_unpack _) (supported_iff.mp hx)
    (supported_iff.mp hy)

theorem lt_units {x y : Float} (hx : Weight.supported x = true) (hy : Weight.supported y = true) :
    Weight.lt x y = Weight.lt (units x) (units y) := by
  have hlt : Weight.lt x y = x.toModel.unpack.lt y.toModel.unpack :=
    Bool.eq_iff_iff.mpr (decide_eq_true_iff.trans decide_eq_true_iff)
  rw [hlt, UnpackedFloat.lt, compare_units hx hy, Weight.compare_beq_lt]

theorem beq_units {x y : Float} (hx : Weight.supported x = true) (hy : Weight.supported y = true) :
    (x == y) = (units x == units y) := by
  have hbeq : (x == y) = x.toModel.unpack.beq y.toModel.unpack := rfl
  rw [hbeq, UnpackedFloat.beq, compare_units hx hy, Exact.compare_beq_eq]

theorem beq_bot_units {x : Float} (hx : Weight.supported x = true) :
    (x == Weight.bot) = (units x == Exact.bot) :=
  beq_units hx (y := Weight.bot) rfl

end Order

section Sums

theorem units_unit : units Weight.unit = .int 0 := rfl

private theorem unpacked_add_comm (u v : UnpackedFloat) :
    UnpackedFloat.add .binary64 u v = UnpackedFloat.add .binary64 v u := by
  cases u with
  | notANumber => cases v <;> rfl
  | infinity s =>
    cases v with
    | infinity s' => cases s <;> cases s' <;> rfl
    | notANumber => rfl
    | zero s' => rfl
    | finite s' m' q' hm' => rfl
  | zero s =>
    cases v with
    | zero s' => cases s <;> cases s' <;> rfl
    | notANumber => rfl
    | infinity s' => rfl
    | finite s' m' q' hm' => rfl
  | finite s m q hm =>
    cases v with
    | finite s' m' q' hm' =>
      simp only [UnpackedFloat.add]
      rw [min_comm, Int.add_comm]
    | notANumber => rfl
    | infinity s' => rfl
    | zero s' => rfl

protected theorem add_comm (x y : Float) : x + y = y + x :=
  congrArg (fun u => Float.ofModel (Float.Model.pack u)) (unpacked_add_comm _ _)

private theorem unpackedUnits_zero_add {u : UnpackedFloat} (hu : Canonical u)
    (hu' : Supported u) :
    unpackedUnits (Float.Model.pack (UnpackedFloat.add .binary64 (.zero .positive) u)).unpack =
      unpackedUnits u := by
  cases hu' with
  | bot => rfl
  | zero s => cases s <;> rfl
  | finite s m q hm =>
    change unpackedUnits (Float.Model.pack (.finite s m q hm)).unpack = _
    rw [unpack_pack_finite hu]

private theorem units_unit_add {x : Float} (hx : Weight.supported x = true) :
    units (Weight.unit + x) = units x :=
  unpackedUnits_zero_add (canonical_unpack _) (supported_iff.mp hx)

def ExactSum (x y : Float) : Prop :=
  units x ≠ .bot → units y ≠ .bot → units (x + y) = units x + units y

theorem ExactSum.symm {x y : Float} (h : ExactSum x y) : ExactSum y x := by
  intro hy hx
  rw [Binary64.add_comm, h hx hy, Exact.add_comm]

theorem exactSum_bot (y : Float) : ExactSum Weight.bot y :=
  fun h => absurd rfl h

theorem exactSum_unit (x : Float) : ExactSum Weight.unit x := by
  intro _ hx
  cases hk : units x with
  | bot => exact absurd hk hx
  | int k =>
    rw [units_unit_add (supported_of_units hk), hk, units_unit]
    exact congrArg Exact.int (zero_add k).symm

end Sums

end Binary64

end MaxPlus
