import MaxPlus.Proofs.Weight.Rounding

/-!
What sums of doubles become.

The exact sum of two finite doubles is an integer in units of the smallest positive one. It becomes
a rounded number of the same sign, or an infinity. So a positive sum lies between the same short
numbers before and after, and a sum that is not positive never reaches the top.
-/

set_option autoImplicit false
set_option relaxedAutoImplicit false

namespace MaxPlus.Binary64

open Float.Model Float.Model.UnpackedFloat

private theorem exists_of_unpackedUnits {u : UnpackedFloat} (hu : Canonical u) {k : ℤ}
    (h : unpackedUnits u = .int k) : (∃ s, u = .zero s ∧ k = 0) ∨
      ∃ s m t, ∃ hm : 0 < m, u = .finite s m (leastExponent + (t : ℕ)) hm ∧
        m < 2 * leastNormal ∧ t ≤ 2045 ∧ k = s.apply (m * 2 ^ t : ℕ) := by
  cases u with
  | notANumber => cases h
  | infinity s => cases h
  | zero s =>
    cases h
    exact Or.inl ⟨s, rfl, rfl⟩
  | finite s m q hm =>
    cases h
    obtain ⟨hlt, hlow, hhigh, -⟩ := hu
    obtain ⟨t, ht⟩ := Int.le.dest hlow
    obtain rfl : leastExponent + (t : ℕ) = q := ht
    have hexponent : (leastExponent + t - leastExponent).toNat = t := by omega
    refine Or.inr ⟨s, m, t, hm, rfl, hlt, ?_, ?_⟩
    · rw [leastExponent, greatestExponent] at hhigh
      omega
    · rw [magnitude, hexponent]

private theorem natAbs_apply (s : Sign) (n : ℕ) : (s.apply n).natAbs = n := by
  cases s with
  | negative => exact (Int.natAbs_neg _).trans (Int.natAbs_natCast n)
  | positive => exact Int.natAbs_natCast n

private theorem short_zero : Short 0 :=
  ⟨0, 0, by decide, rfl⟩

private theorem short_lt_limit_of_unpackedUnits {u : UnpackedFloat} (hu : Canonical u) {k : ℤ}
    (h : unpackedUnits u = .int k) : Short k.natAbs ∧ k.natAbs < limit := by
  rcases exists_of_unpackedUnits hu h with ⟨s, -, rfl⟩ | ⟨s, m, t, hm, -, hlt, ht, rfl⟩
  · exact ⟨short_zero, limit_pos⟩
  · rw [natAbs_apply]
    exact ⟨⟨m, t, hlt, rfl⟩, mul_two_pow_lt_limit hlt ht⟩

/-- What an exact sum becomes: a rounded number of the same sign, or an infinity. -/
inductive Settles (j : ℤ) : UnpackedFloat → Prop
  | rounded {u : UnpackedFloat} {R : ℕ} (hR : RoundsTo j.natAbs R) (hlt : R < limit)
    (hu : unpackedUnits u = .int (j.sign * R)) : Settles j u
  | above {R : ℕ} (hj : 0 < j) (hR : RoundsTo j.natAbs R) (hle : limit ≤ R) :
    Settles j (.infinity .positive)
  | below {R : ℕ} (hj : j < 0) (hR : RoundsTo j.natAbs R) (hle : limit ≤ R) :
    Settles j (.infinity .negative)

private theorem settles_of_unpackedUnits {u : UnpackedFloat} (hu : Canonical u) {k : ℤ}
    (h : unpackedUnits u = .int k) : Settles k (Float.Model.pack u).unpack := by
  have hlt := (short_lt_limit_of_unpackedUnits hu h).2
  have hpack : (Float.Model.pack u).unpack = u := by
    rcases exists_of_unpackedUnits hu h with ⟨s, rfl, -⟩ | ⟨s, m, t, hm, rfl, -⟩
    · cases s <;> rfl
    · exact unpack_pack_finite hu
  rw [hpack]
  exact .rounded (.refl _) hlt (by rw [Int.sign_mul_natAbs, h])

private theorem sign_apply_mul (s : Sign) {n : ℕ} (hn : 0 < n) (R : ℕ) :
    (s.apply n).sign * R = s.apply R := by
  have hpos : (0 : ℤ) < n := by omega
  cases s with
  | negative =>
    have hsign : (-(n : ℤ)).sign = -1 := Int.sign_eq_neg_one_of_neg (by omega)
    rw [Sign.apply, hsign, neg_one_mul]
    rfl
  | positive =>
    rw [Sign.apply, Int.sign_eq_one_of_pos hpos, one_mul]
    rfl

private theorem Rounds.settles {s : Sign} {N : ℕ} {u : UnpackedFloat} (h : Rounds s N u)
    (hN : 0 < N) : Settles (s.apply N) (Float.Model.pack u).unpack := by
  obtain ⟨R, hR, ⟨hlt, hunits⟩ | ⟨hle, hinf⟩⟩ := h.exists_unpack_pack
  · refine .rounded ((natAbs_apply s N).symm ▸ hR) hlt ?_
    rw [hunits, sign_apply_mul s hN]
  · rw [hinf]
    cases s with
    | negative =>
      have hneg : Sign.negative.apply N < 0 := by
        rw [Sign.apply]
        omega
      exact .below hneg ((natAbs_apply .negative N).symm ▸ hR) hle
    | positive => exact .above (Int.natCast_pos.mpr hN) hR hle

private theorem settles_normalize (M : ℤ) (t : ℕ) : Settles (M * 2 ^ t) (Float.Model.pack
    (UnpackedFloat.normalize .binary64 M (leastExponent + t) .positive)).unpack := by
  rcases lt_trichotomy M 0 with hM | rfl | hM
  · obtain ⟨m, rfl⟩ := Int.exists_eq_neg_ofNat hM.le
    have hm : 0 < m := by omega
    have hvalue : -(m : ℤ) * 2 ^ t = Sign.negative.apply (m * 2 ^ t : ℕ) := by
      rw [Sign.apply]
      push_cast
      ring
    rw [UnpackedFloat.normalize, compare_lt_iff_lt.mpr hM, hvalue]
    simp only [neg_neg, Int.toNat_natCast]
    exact (rounds_round .negative hm t).settles (by positivity)
  · rw [zero_mul, UnpackedFloat.normalize, compare_eq_iff_eq.mpr rfl]
    exact settles_of_unpackedUnits (u := .zero .positive) trivial rfl
  · obtain ⟨m, rfl⟩ := Int.eq_ofNat_of_zero_le hM.le
    have hm : 0 < m := by omega
    have hvalue : (m : ℤ) * 2 ^ t = Sign.positive.apply (m * 2 ^ t : ℕ) := by
      rw [Sign.apply]
      push_cast
      rfl
    rw [UnpackedFloat.normalize, compare_gt_iff_gt.mpr hM, hvalue]
    simp only [Int.toNat_natCast]
    exact (rounds_round .positive hm t).settles (by positivity)

private theorem apply_mul (s : Sign) (a b : ℤ) : s.apply a * b = s.apply (a * b) := by
  cases s with
  | negative => exact Int.neg_mul a b
  | positive => rfl

private theorem exists_add_finite (s s' : Sign) {m m' : ℕ} (hm : 0 < m) (hm' : 0 < m') (t t' : ℕ) :
    ∃ (M : ℤ) (r : ℕ), UnpackedFloat.add .binary64 (.finite s m (leastExponent + t) hm)
        (.finite s' m' (leastExponent + t') hm') =
          UnpackedFloat.normalize .binary64 M (leastExponent + r) .positive ∧
      M * 2 ^ r = s.apply (m * 2 ^ t : ℕ) + s'.apply (m' * 2 ^ t' : ℕ) := by
  have hmin : min (leastExponent + t) (leastExponent + t') = leastExponent + (min t t' : ℕ) := by
    omega
  have hshift : ∀ e : ℕ, (leastExponent + e - (leastExponent + (min t t' : ℕ))).toNat =
      e - min t t' := by
    intro e
    omega
  have hexponent : ∀ e : ℕ, min t t' ≤ e → 2 ^ (e - min t t') * 2 ^ min t t' = 2 ^ e := by
    intro e he
    rw [← pow_add, Nat.sub_add_cancel he]
  refine ⟨s.apply (m * 2 ^ (t - min t t') : ℕ) + s'.apply (m' * 2 ^ (t' - min t t') : ℕ),
    min t t', ?_, ?_⟩
  · simp only [UnpackedFloat.add, decreaseExponent, hmin, hshift, Nat.shiftLeft_eq]
  · have hcast : ∀ (n e : ℕ), min t t' ≤ e →
        ((n * 2 ^ (e - min t t') : ℕ) : ℤ) * 2 ^ min t t' = (n * 2 ^ e : ℕ) := by
      intro n e he
      rw [← hexponent e he]
      push_cast
      ring
    rw [add_mul, apply_mul, apply_mul, hcast m t (min_le_left _ _), hcast m' t' (min_le_right _ _)]

private theorem settles_add {u v : UnpackedFloat} (hu : Canonical u) (hv : Canonical v) {k l : ℤ}
    (hk : unpackedUnits u = .int k) (hl : unpackedUnits v = .int l) :
    Settles (k + l) (Float.Model.pack (UnpackedFloat.add .binary64 u v)).unpack := by
  rcases exists_of_unpackedUnits hu hk with ⟨s, rfl, rfl⟩ | ⟨s, m, t, hm, rfl, -, -, rfl⟩
  · have hsum : unpackedUnits (UnpackedFloat.add .binary64 (.zero s) v) = .int l ∧
        Canonical (UnpackedFloat.add .binary64 (.zero s) v) := by
      rcases exists_of_unpackedUnits hv hl with ⟨s', rfl, rfl⟩ | ⟨s', m', t', hm', rfl, -⟩
      · cases s <;> cases s' <;> exact ⟨rfl, trivial⟩
      · exact ⟨hl, hv⟩
    rw [zero_add]
    exact settles_of_unpackedUnits hsum.2 hsum.1
  · rcases exists_of_unpackedUnits hv hl with ⟨s', rfl, rfl⟩ | ⟨s', m', t', hm', rfl, -, -, rfl⟩
    · rw [add_zero]
      exact settles_of_unpackedUnits hu hk
    · obtain ⟨M, r, hadd, hM⟩ := exists_add_finite s s' hm hm' t t'
      rw [hadd, ← hM]
      exact settles_normalize M r

variable {x y : Float} {k l : ℤ}

theorem short_lt_limit_of_units (hx : units x = .int k) : Short k.natAbs ∧ k.natAbs < limit :=
  short_lt_limit_of_unpackedUnits (canonical_unpack _) hx

theorem settles_units_add (hx : units x = .int k) (hy : units y = .int l) :
    Settles (k + l) (x + y).toModel.unpack :=
  settles_add (canonical_unpack _) (canonical_unpack _) hx hy

theorem isTop_eq_false_of_units {j : ℤ} (h : units x = .int j) : Weight.isTop x = false := by
  have hsupported := supported_of_units h
  rw [Weight.supported, Bool.not_eq_true', Bool.or_eq_false_iff] at hsupported
  exact hsupported.2

/-- A positive sum is rounded, and it is the top from the limit on. -/
theorem exists_units_add_of_pos (hx : units x = .int k) (hy : units y = .int l)
    (hpos : 0 < k + l) :
    ∃ R : ℕ, RoundsTo (k + l).natAbs R ∧
      ((R < limit ∧ units (x + y) = .int R) ∨ (limit ≤ R ∧ Weight.isTop (x + y) = true)) := by
  have htop : Weight.isTop (x + y) = (x + y).toModel.unpack.beq (.infinity .positive) := rfl
  have hsettles := settles_units_add hx hy
  rw [units, htop]
  generalize (x + y).toModel.unpack = w at hsettles
  cases hsettles with
  | @rounded _ R hR hlt hw =>
    rw [Int.sign_eq_one_of_pos hpos, one_mul] at hw
    exact ⟨R, hR, Or.inl ⟨hlt, hw⟩⟩
  | @above R _ hR hle => exact ⟨R, hR, Or.inr ⟨hle, rfl⟩⟩
  | below hneg => omega

theorem units_add_of_nonpos (hx : units x = .int k) (hy : units y = .int l) (hle : k + l ≤ 0) :
    Weight.isTop (x + y) = false ∧ ∀ j, units (x + y) = .int j → j ≤ 0 := by
  have htop : Weight.isTop (x + y) = (x + y).toModel.unpack.beq (.infinity .positive) := rfl
  have hsettles := settles_units_add hx hy
  have hrounded := @isTop_eq_false_of_units (x + y)
  rw [units, htop] at *
  generalize (x + y).toModel.unpack = w at *
  cases hsettles with
  | @rounded _ R hR hlt hw =>
    refine ⟨hrounded hw, fun j hj => ?_⟩
    rw [hw] at hj
    cases hj
    exact mul_nonpos_of_nonpos_of_nonneg (Int.sign_nonpos_iff.mpr hle) (Int.natCast_nonneg R)
  | above hpos => omega
  | below => exact ⟨rfl, fun j hj => by cases hj⟩

end MaxPlus.Binary64
