import MaxPlus.Proofs.Weight.Units

/-!
What sums and negatives of doubles are, when they are not exact.

A sum of supported doubles is a number: it may leave the range at either end, but no two infinities
of opposite sign meet. Doubles that are equal are the same or two zeros, and the sign of a zero has
no effect on a sum beyond the sign of a zero.
-/

set_option autoImplicit false
set_option relaxedAutoImplicit false

namespace MaxPlus.Binary64

open Float.Model Float.Model.UnpackedFloat

section Range

private theorem isNaN_roundWithAccuracy (s : Sign) (m : ℕ) (q : ℤ) (accuracy : Accuracy) :
    (roundWithAccuracy .binary64 s m q accuracy).isNaN = false := by
  rw [roundWithAccuracy]
  simp only
  split_ifs <;> rfl

private theorem isNaN_normalize (m q : ℤ) (s : Sign) :
    (UnpackedFloat.normalize .binary64 m q s).isNaN = false := by
  unfold UnpackedFloat.normalize
  split
  · exact isNaN_roundWithAccuracy _ _ _ _
  · rfl
  · exact isNaN_roundWithAccuracy _ _ _ _

private theorem isNaN_add {u v : UnpackedFloat} (hu : Supported u) (hv : Supported v) :
    (UnpackedFloat.add .binary64 u v).isNaN = false := by
  cases hu with
  | bot => cases hv <;> rfl
  | zero s =>
    cases hv with
    | bot => rfl
    | zero s' => cases s <;> cases s' <;> rfl
    | finite s' m' q' hm' => rfl
  | finite s m q hm =>
    cases hv with
    | bot => rfl
    | zero s' => rfl
    | finite s' m' q' hm' => exact isNaN_normalize _ _ _

variable {x y : Float}

theorem supported_add (hx : Weight.supported x = true) (hy : Weight.supported y = true)
    (htop : Weight.isTop (x + y) = false) : Weight.supported (x + y) = true := by
  have hordered : Weight.isUnordered (x + y) = false :=
    isNaN_unpack_pack (isNaN_add (supported_iff.mp hx) (supported_iff.mp hy))
  rw [Weight.supported, hordered, htop]
  rfl

theorem units_neg (hx : Weight.supported x = true) (hbot : (x == Weight.bot) = false) :
    units (-x) = -units x := by
  have hneg : units (-x) = unpackedUnits (Float.Model.pack x.toModel.unpack.neg).unpack := rfl
  have hcanonical : Canonical x.toModel.unpack := canonical_unpack _
  rw [beq_bot_units hx, units] at hbot
  rw [hneg, units]
  rw [supported_iff] at hx
  generalize x.toModel.unpack = u at *
  cases hx with
  | bot => cases hbot
  | zero s => cases s <;> rfl
  | finite s m q hm =>
    have hnegative : Canonical (.finite (-s) m q hm) := hcanonical
    rw [UnpackedFloat.neg, unpack_pack_finite hnegative]
    cases s with
    | negative => exact congrArg Exact.int (neg_neg _).symm
    | positive => rfl

theorem supported_neg (hx : Weight.supported x = true) (hbot : (x == Weight.bot) = false) :
    Weight.supported (-x) = true ∧ (-x == Weight.bot) = false := by
  have hneg := units_neg hx hbot
  rw [beq_bot_units hx] at hbot
  cases hk : units x with
  | bot =>
    rw [hk] at hbot
    cases hbot
  | int k =>
    rw [hk] at hneg
    have hsupported := supported_of_units hneg
    refine ⟨hsupported, ?_⟩
    rw [beq_bot_units hsupported, hneg]
    rfl

end Range

section Equality

/-- The same number, or two zeros. -/
inductive Alike : UnpackedFloat → UnpackedFloat → Prop
  | same (u : UnpackedFloat) : Alike u u
  | zeros (s s' : Sign) : Alike (.zero s) (.zero s')

private theorem alike_of_compare_eq {s : Sign} {m m' : ℕ} {q q' : ℤ} {hm : 0 < m} {hm' : 0 < m'}
    (h : (compare q q').then (compare m m') = .eq) :
    Alike (.finite s m q hm) (.finite s m' q' hm') := by
  rw [Ordering.then_eq_eq, compare_eq_iff_eq, compare_eq_iff_eq] at h
  obtain ⟨rfl, rfl⟩ := h
  exact .same _

private theorem alike_of_beq {u v : UnpackedFloat} (hu : Supported u) (hv : Supported v)
    (h : u.beq v = true) : Alike u v := by
  rw [UnpackedFloat.beq, beq_iff_eq] at h
  cases hu with
  | bot =>
    cases hv with
    | bot => exact .same _
    | zero s' => cases h
    | finite s' m' q' hm' => cases h
  | zero s =>
    cases hv with
    | bot => cases h
    | zero s' => exact .zeros s s'
    | finite s' m' q' hm' => cases s' <;> cases h
  | finite s m q hm =>
    cases hv with
    | bot => cases s <;> cases h
    | zero s' => cases s <;> cases h
    | finite s' m' q' hm' =>
      -- The comparison is by sign, then by exponent and significand.
      cases s <;> cases s'
      case negative.negative =>
        exact alike_of_compare_eq (Ordering.swap_eq_eq.mp (Option.some.inj h))
      case positive.positive => exact alike_of_compare_eq (Option.some.inj h)
      all_goals cases h

private theorem supported_of_unpacked_beq {u v : UnpackedFloat} (hu : Supported u)
    (h : u.beq v = true) : Supported v := by
  cases v with
  | notANumber => cases hu <;> cases h
  | infinity s =>
    cases s with
    | negative => exact .bot
    | positive =>
      cases hu with
      | bot => cases h
      | zero s => cases h
      | finite s m q hm => cases s <;> cases h
  | zero s => exact .zero s
  | finite s m q hm => exact .finite s m q hm

theorem supported_of_beq {x y : Float} (hx : Weight.supported x = true) (h : (x == y) = true) :
    Weight.supported y = true :=
  supported_iff.mpr (supported_of_unpacked_beq (supported_iff.mp hx) h)

namespace Alike

variable {u u' v v' : UnpackedFloat}

theorem add (hu : Alike u u') (hv : Alike v v') :
    Alike (UnpackedFloat.add .binary64 u v) (UnpackedFloat.add .binary64 u' v') := by
  cases hu with
  | same u =>
    cases hv with
    | same v => exact .same _
    | zeros s s' =>
      cases u with
      | zero r => cases r <;> cases s <;> cases s' <;> exact .zeros _ _
      | notANumber => exact .same _
      | infinity r => exact .same _
      | finite r m q hm => exact .same _
  | zeros r r' =>
    cases hv with
    | same v =>
      cases v with
      | zero s => cases r <;> cases r' <;> cases s <;> exact .zeros _ _
      | notANumber => exact .same _
      | infinity s => exact .same _
      | finite s m q hm => exact .same _
    | zeros s s' => cases r <;> cases r' <;> cases s <;> cases s' <;> exact .zeros _ _

theorem pack (h : Alike u v) : Alike (Float.Model.pack u).unpack (Float.Model.pack v).unpack := by
  cases h with
  | same u => exact .same _
  | zeros s s' => cases s <;> cases s' <;> exact .zeros _ _

private theorem unpackedUnits_eq (h : Alike u v) : unpackedUnits u = unpackedUnits v := by
  cases h <;> rfl

private theorem beq_top (h : Alike u v) : u.beq (.infinity .positive) = v.beq
    (.infinity .positive) := by
  cases h <;> rfl

end Alike

structure Equals (x y : Float) : Prop where
  supported : Weight.supported x = true
  supported' : Weight.supported y = true
  beq : (x == y) = true

namespace Equals

variable {x x' y y' : Float}

theorem of_units (hx : Weight.supported x = true) (hy : Weight.supported y = true)
    (h : units x = units y) : Equals x y where
  supported := hx
  supported' := hy
  beq := by rw [beq_units hx hy, h, beq_self_eq_true]

theorem units_eq (h : Equals x y) : units x = units y := by
  simpa [beq_units h.supported h.supported'] using h.beq

private theorem alike_add (hx : Equals x x') (hy : Equals y y') :
    Alike (x + y).toModel.unpack (x' + y').toModel.unpack := by
  have hx' := alike_of_beq (supported_iff.mp hx.supported) (supported_iff.mp hx.supported') hx.beq
  have hy' := alike_of_beq (supported_iff.mp hy.supported) (supported_iff.mp hy.supported') hy.beq
  exact (hx'.add hy').pack

theorem isTop_add (hx : Equals x x') (hy : Equals y y') :
    Weight.isTop (x + y) = Weight.isTop (x' + y') :=
  (alike_add hx hy).beq_top

theorem add (hx : Equals x x') (hy : Equals y y') (htop : Weight.isTop (x + y) = false) :
    Equals (x + y) (x' + y') :=
  of_units (supported_add hx.supported hy.supported htop)
    (supported_add hx.supported' hy.supported' (hx.isTop_add hy ▸ htop))
    (alike_add hx hy).unpackedUnits_eq

theorem beq_bot (h : Equals x y) : (x == Weight.bot) = (y == Weight.bot) := by
  rw [beq_bot_units h.supported, beq_bot_units h.supported', h.units_eq]

theorem neg (h : Equals x y) (hbot : (x == Weight.bot) = false) : Equals (-x) (-y) := by
  have hbot' : (y == Weight.bot) = false := h.beq_bot ▸ hbot
  refine of_units (supported_neg h.supported hbot).1 (supported_neg h.supported' hbot').1 ?_
  rw [units_neg h.supported hbot, units_neg h.supported' hbot', h.units_eq]

end Equals

end Equality

end MaxPlus.Binary64
