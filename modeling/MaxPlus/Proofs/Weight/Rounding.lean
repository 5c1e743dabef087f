import MaxPlus.Proofs.Weight.Arithmetic

/-!
How numbers are rounded to doubles.

In units of the smallest positive double the number is an integer. Its digits after the first 53 are
cut off, and what is left may be increased by one. So a number of at most 53 digits that is not
below the integer is not below the rounded one, and the same above. The rounded number is the result
if it lies in the range; otherwise the result is an infinity.
-/

set_option autoImplicit false
set_option relaxedAutoImplicit false

namespace MaxPlus.Binary64

open Float.Model Float.Model.UnpackedFloat

section Digits

/-- At most 53 binary digits, and zeros after them. -/
def Short (N : ℕ) : Prop :=
  ∃ m t, m < 2 * leastNormal ∧ N = m * 2 ^ t

def cut (N : ℕ) : ℕ :=
  N.log2 - 52

/-- What bounds the number among the short ones bounds the rounded number too. -/
structure RoundsTo (N R : ℕ) : Prop where
  le : ∀ {Z}, Short Z → N ≤ Z → R ≤ Z
  ge : ∀ {Z}, Short Z → Z ≤ N → Z ≤ R

variable {N R Z : ℕ}

theorem RoundsTo.refl (N : ℕ) : RoundsTo N N :=
  ⟨fun _ h => h, fun _ h => h⟩

theorem RoundsTo.eq_of_short (h : RoundsTo N R) (hN : Short N) : R = N :=
  (h.le hN le_rfl).antisymm (h.ge hN le_rfl)

private theorem leastNormal_eq : leastNormal = 2 ^ 52 := rfl

theorem two_mul_leastNormal : 2 * leastNormal = 2 ^ 53 := rfl

private theorem div_two_pow_cut_lt (N : ℕ) : N / 2 ^ cut N < 2 * leastNormal := by
  have hpos : 0 < 2 ^ cut N := by positivity
  rw [Nat.div_lt_iff_lt_mul hpos, two_mul_leastNormal, ← pow_add]
  calc N < 2 ^ (N.log2 + 1) := Nat.lt_log2_self
    _ ≤ 2 ^ (53 + cut N) := by
      refine Nat.pow_le_pow_right (by decide) ?_
      rw [cut]
      omega

private theorem leastNormal_le_div (h : 0 < cut N) : leastNormal ≤ N / 2 ^ cut N := by
  have hpos : 0 < 2 ^ cut N := by positivity
  rw [cut] at h
  have hN : N ≠ 0 := by
    rintro rfl
    rw [Nat.log2_zero] at h
    omega
  rw [Nat.le_div_iff_mul_le hpos, leastNormal_eq, ← pow_add]
  have hlog : 52 + cut N = N.log2 := by
    rw [cut]
    omega
  rw [hlog]
  exact Nat.log2_self_le hN

private theorem Short.dvd_or_lt (h : Short Z) (c : ℕ) : 2 ^ c ∣ Z ∨ Z < leastNormal * 2 ^ c := by
  obtain ⟨m, t, hm, rfl⟩ := h
  rcases le_or_gt c t with hct | htc
  · exact Or.inl ((pow_dvd_pow 2 hct).mul_left m)
  · right
    calc m * 2 ^ t < 2 * leastNormal * 2 ^ t := by gcongr
      _ = leastNormal * 2 ^ (t + 1) := by ring
      _ ≤ leastNormal * 2 ^ c :=
        Nat.mul_le_mul_left _ (Nat.pow_le_pow_right (by decide) htc)

private theorem roundsTo_of_bounds (hlow : N / 2 ^ cut N * 2 ^ cut N ≤ R)
    (hhigh : R ≤ (N / 2 ^ cut N + 1) * 2 ^ cut N) (hexact : 2 ^ cut N ∣ N → R = N) :
    RoundsTo N R := by
  by_cases hdvd : 2 ^ cut N ∣ N
  · rw [hexact hdvd]
    exact .refl N
  have hpos : 0 < 2 ^ cut N := by positivity
  have hcut : 0 < cut N := by
    rw [Nat.pos_iff_ne_zero]
    intro hzero
    rw [hzero, pow_zero] at hdvd
    exact hdvd (one_dvd N)
  have hfloor : N / 2 ^ cut N * 2 ^ cut N ≤ N := Nat.div_mul_le_self N _
  have hne : N / 2 ^ cut N * 2 ^ cut N ≠ N := fun h => hdvd (Dvd.intro_left _ h)
  -- Digits are cut off, so what is left has its full length. A short number that does not end in as
  -- many zeros is then too small to lie on the other side.
  have hlong : leastNormal * 2 ^ cut N ≤ N / 2 ^ cut N * 2 ^ cut N :=
    Nat.mul_le_mul_right _ (leastNormal_le_div hcut)
  constructor
  · intro Z hZ hle
    rcases hZ.dvd_or_lt (cut N) with ⟨w, rfl⟩ | hsmall
    · have hw : N / 2 ^ cut N < w := by
        rw [Nat.div_lt_iff_lt_mul hpos, mul_comm]
        refine lt_of_le_of_ne hle fun h => hdvd (Dvd.intro w h.symm)
      calc R ≤ (N / 2 ^ cut N + 1) * 2 ^ cut N := hhigh
        _ ≤ w * 2 ^ cut N := Nat.mul_le_mul_right _ hw
        _ = 2 ^ cut N * w := mul_comm _ _
    · omega
  · intro Z hZ hle
    rcases hZ.dvd_or_lt (cut N) with ⟨w, rfl⟩ | hsmall
    · have hw : w ≤ N / 2 ^ cut N := by
        rwa [Nat.le_div_iff_mul_le hpos, mul_comm]
      calc 2 ^ cut N * w = w * 2 ^ cut N := mul_comm _ _
        _ ≤ N / 2 ^ cut N * 2 ^ cut N := Nat.mul_le_mul_right _ hw
        _ ≤ R := hlow
    · omega

end Digits

section Shifts

private theorem mantissa_shiftRight (em : ExtendedMantissa) (d : ℕ) :
    (em >>> d).mantissa = em.mantissa / 2 ^ d := by
  induction d with
  | zero => exact (Nat.div_one _).symm
  | succ d ih =>
    have hstep : (em >>> (d + 1)).mantissa = (em >>> d).mantissa / 2 := rfl
    rw [hstep, ih, Nat.div_div_eq_div_mul, pow_succ]

private theorem shiftRight_of_dvd {m d : ℕ} (h : 2 ^ d ∣ m) :
    (ExtendedMantissa.mk m false false) >>> d = ⟨m / 2 ^ d, false, false⟩ := by
  induction d with
  | zero =>
    rw [pow_zero, Nat.div_one]
    rfl
  | succ d ih =>
    have hstep : (ExtendedMantissa.mk m false false) >>> (d + 1) =
      ((ExtendedMantissa.mk m false false) >>> d).shiftRightOne := rfl
    rw [pow_succ] at h
    have hlast : 2 ∣ m / 2 ^ d := Nat.dvd_div_of_mul_dvd h
    rw [hstep, ih (dvd_of_mul_right_dvd h), ExtendedMantissa.shiftRightOne,
      Nat.mod_eq_zero_of_dvd hlast, Nat.div_div_eq_div_mul, pow_succ]
    rfl

private theorem le_roundedMantissa (em : ExtendedMantissa) : em.mantissa ≤ em.roundedMantissa := by
  obtain ⟨m, r, s⟩ := em
  cases r <;> cases s
  · exact le_rfl
  · exact le_rfl
  · exact Nat.le_add_right m _
  · exact Nat.le_add_right m 1

private theorem roundedMantissa_le (em : ExtendedMantissa) :
    em.roundedMantissa ≤ em.mantissa + 1 := by
  obtain ⟨m, r, s⟩ := em
  have hbit : m % 2 < 2 := Nat.mod_lt m (by decide)
  cases r <;> cases s
  · exact Nat.le_add_right m 1
  · exact Nat.le_add_right m 1
  · exact Nat.add_le_add_left (Nat.lt_succ_iff.mp hbit) m
  · exact le_rfl

private theorem log2_mul_two_pow {m : ℕ} (hm : m ≠ 0) (t : ℕ) : (m * 2 ^ t).log2 = m.log2 + t := by
  rw [Nat.log2_eq_iff (by positivity)]
  have hlow := Nat.log2_self_le hm
  have hhigh := Nat.lt_log2_self (n := m)
  constructor
  · rw [pow_add]
    exact Nat.mul_le_mul_right _ hlow
  · rw [add_right_comm, pow_add]
    exact Nat.mul_lt_mul_of_pos_right hhigh (by positivity)

private theorem targetExponent_eq {m : ℕ} (hm : m ≠ 0) (t : ℕ) :
    Format.binary64.targetExponent (totalExponent m (leastExponent + t)) =
      leastExponent + cut (m * 2 ^ t) := by
  have hbits : Format.binary64.mantissaBits = 53 := rfl
  have hmin : Format.binary64.minExponent = -1074 := rfl
  rw [Format.targetExponent, totalExponent, hbits, hmin, cut, log2_mul_two_pow hm, leastExponent]
  omega

private theorem shiftToTargetExponent_eq {m : ℕ} (hm : m ≠ 0) (t : ℕ) :
    shiftToTargetExponent .binary64 m (leastExponent + t) .exact =
      ((ExtendedMantissa.mk m false false) >>> (cut (m * 2 ^ t) - t),
        leastExponent + (t + (cut (m * 2 ^ t) - t) : ℕ)) := by
  have hshift : (leastExponent + cut (m * 2 ^ t) - (leastExponent + t)).toNat =
      cut (m * 2 ^ t) - t := by omega
  rw [shiftToTargetExponent, targetExponent_eq hm, shiftToExponent]
  simp only [hshift]
  rw [Nat.cast_add, add_assoc]
  rfl

private theorem exists_carried {m : ℕ} (hpos : 0 < m) (hm : m ≤ 2 * leastNormal) (t : ℕ) :
    ∃ m' t', shiftToTargetExponent .binary64 m (leastExponent + t) .exact =
        (⟨m', false, false⟩, leastExponent + (t' : ℕ)) ∧
      m' * 2 ^ t' = m * 2 ^ t ∧ 0 < m' ∧ m' < 2 * leastNormal ∧
      (m' = m ∧ t' = t ∨ leastNormal ≤ m') := by
  rcases hm.lt_or_eq with hlt | rfl
  · have hlog : m.log2 < 53 := (Nat.log2_lt hpos.ne').mpr hlt
    have hshift : cut (m * 2 ^ t) - t = 0 := by
      rw [cut, log2_mul_two_pow hpos.ne']
      omega
    refine ⟨m, t, ?_, rfl, hpos, hlt, Or.inl ⟨rfl, rfl⟩⟩
    rw [shiftToTargetExponent_eq hpos.ne', hshift]
    rfl
  · have hlog : (2 * leastNormal).log2 = 53 := by
      rw [two_mul_leastNormal, Nat.log2_two_pow]
    have hshift : cut (2 * leastNormal * 2 ^ t) - t = 1 := by
      rw [cut, log2_mul_two_pow hpos.ne', hlog]
      omega
    refine ⟨leastNormal, t + 1, ?_, by ring, by decide, by decide, Or.inr le_rfl⟩
    rw [shiftToTargetExponent_eq hpos.ne', hshift]
    rfl

end Shifts

section Range

/-- The least power of two above all doubles, in units of the smallest positive one. -/
@[irreducible]
def limit : ℕ := 2 ^ 2098

private theorem two_pow_le_limit {e : ℕ} (h : e ≤ 2098) : 2 ^ e ≤ limit := by
  unfold limit
  exact pow_le_pow_right₀ one_le_two h

private theorem limit_le_two_pow {e : ℕ} (h : 2098 ≤ e) : limit ≤ 2 ^ e := by
  unfold limit
  exact pow_le_pow_right₀ one_le_two h

theorem two_pow_succ_le_limit {e : ℕ} (h : 2 ^ e < limit) : 2 ^ (e + 1) ≤ limit := by
  refine two_pow_le_limit ?_
  by_contra hlarge
  exact (limit_le_two_pow (by omega)).not_gt h

theorem limit_pos : 0 < limit :=
  (Nat.two_pow_pos 0).trans_le (two_pow_le_limit (Nat.zero_le 2098))

theorem mul_two_pow_lt_limit {m t : ℕ} (hm : m < 2 * leastNormal) (ht : t ≤ 2045) :
    m * 2 ^ t < limit :=
  calc m * 2 ^ t < 2 * leastNormal * 2 ^ t := Nat.mul_lt_mul_of_pos_right hm (Nat.two_pow_pos t)
    _ = 2 ^ (53 + t) := by rw [two_mul_leastNormal, ← pow_add]
    _ ≤ limit := two_pow_le_limit (by omega)

private theorem unpack_pack_infinity (s : Sign) {m : ℕ} {q : ℤ} (hm : 0 < m)
    (h : greatestExponent < q) : (Float.Model.pack (.finite s m q hm)).unpack = .infinity s := by
  have hlarge : 2 ^ 11 ≤ (q + Format.binary64.exponentBias + (52 : ℕ)).toNat + 1 := by
    have hbias : Format.binary64.exponentBias = 1023 := rfl
    rw [greatestExponent] at h
    rw [hbias]
    omega
  change UnpackedFloat.unpack .binary64 (UnpackedFloat.pack .binary64 (.finite s m q hm)) = _
  rw [UnpackedFloat.pack]
  simp only
  rw [if_pos hlarge]
  cases s <;> rfl

private theorem rounded_bounds {m t : ℕ} (hm : 0 < m) (ht : t ≤ cut (m * 2 ^ t)) {q : ℕ}
    (hq : ((ExtendedMantissa.mk m false false) >>> (cut (m * 2 ^ t) - t)).roundedMantissa = q) :
    0 < q ∧ q ≤ 2 * leastNormal ∧ (leastNormal ≤ q ∨ cut (m * 2 ^ t) = 0) ∧
      RoundsTo (m * 2 ^ t) (q * 2 ^ cut (m * 2 ^ t)) := by
  obtain ⟨d, hd⟩ := Nat.exists_eq_add_of_le ht
  have hlt := div_two_pow_cut_lt (m * 2 ^ t)
  have hlong := @leastNormal_le_div (m * 2 ^ t)
  have hround := @roundsTo_of_bounds (m * 2 ^ t) (q * 2 ^ cut (m * 2 ^ t))
  have hN : 0 < m * 2 ^ t := by positivity
  have hpos : 0 < 2 ^ t := by positivity
  have hfloor : m * 2 ^ t / 2 ^ cut (m * 2 ^ t) = m / 2 ^ d := by
    rw [hd, add_comm, pow_add, Nat.mul_div_mul_right _ _ hpos]
  rw [hfloor] at hlt hlong hround
  rw [hd, Nat.add_sub_cancel_left] at hq
  have hmantissa := mantissa_shiftRight (ExtendedMantissa.mk m false false) d
  have hlow : m / 2 ^ d ≤ q := by
    rw [← hq, ← hmantissa]
    exact le_roundedMantissa _
  have hhigh : q ≤ m / 2 ^ d + 1 := by
    rw [← hq, ← hmantissa]
    exact roundedMantissa_le _
  refine ⟨?_, by omega, ?_, hround (Nat.mul_le_mul_right _ hlow) (Nat.mul_le_mul_right _ hhigh) ?_⟩
  · rcases Nat.eq_zero_or_pos (cut (m * 2 ^ t)) with hzero | hcut
    · rw [hzero, pow_zero, Nat.div_one] at hfloor
      omega
    · have hleast : 0 < leastNormal := by decide
      exact (hleast.trans_le (hlong hcut)).trans_le hlow
  · rcases Nat.eq_zero_or_pos (cut (m * 2 ^ t)) with hzero | hcut
    · exact Or.inr hzero
    · exact Or.inl ((hlong hcut).trans hlow)
  · intro hdvd
    rw [hd, add_comm, pow_add] at hdvd
    have hdvd' : 2 ^ d ∣ m := Nat.dvd_of_mul_dvd_mul_right hpos hdvd
    rw [shiftRight_of_dvd hdvd'] at hq
    have hexact : m / 2 ^ d = q := hq
    rw [← hexact, hd, add_comm, pow_add, ← mul_assoc, Nat.div_mul_cancel hdvd']

/-- The rounded number in the form of a double, but the exponent may be too large. -/
inductive Rounds (s : Sign) (N : ℕ) : UnpackedFloat → Prop
  | finite {m t : ℕ} (hm : 0 < m) (hlt : m < 2 * leastNormal) (hnormal : leastNormal ≤ m ∨ t = 0)
    (hround : RoundsTo N (m * 2 ^ t)) : Rounds s N (.finite s m (leastExponent + t) hm)

private theorem rounds_roundWithAccuracy (s : Sign) {m t : ℕ} (hm : 0 < m)
    (ht : t ≤ cut (m * 2 ^ t)) :
    Rounds s (m * 2 ^ t) (roundWithAccuracy .binary64 s m (leastExponent + t) .exact) := by
  obtain ⟨q, hq⟩ : ∃ q, ((ExtendedMantissa.mk m false false) >>>
      (cut (m * 2 ^ t) - t)).roundedMantissa = q := ⟨_, rfl⟩
  obtain ⟨hpos, hle, hnormal, hround⟩ := rounded_bounds hm ht hq
  obtain ⟨m', t', hcarried, hvalue, hpos', hlt', hsame⟩ :=
    exists_carried hpos hle (cut (m * 2 ^ t))
  have hnormal' : leastNormal ≤ m' ∨ t' = 0 := by
    rcases hsame with ⟨rfl, rfl⟩ | hlong
    · exact hnormal
    · exact Or.inl hlong
  rw [roundWithAccuracy, shiftToTargetExponent_eq hm.ne']
  simp only [hq, Nat.add_sub_cancel' ht, hcarried]
  rw [dif_neg hpos'.ne']
  exact .finite hpos' hlt' hnormal' (hvalue ▸ hround)

private theorem round_eq (s : Sign) {m : ℕ} (hm : 0 < m) (t : ℕ) :
    UnpackedFloat.round .binary64 s m (leastExponent + t) =
      roundWithAccuracy .binary64 s (m * 2 ^ (t - cut (m * 2 ^ t)))
        (leastExponent + (min t (cut (m * 2 ^ t)) : ℕ)) .exact := by
  have hshift : (leastExponent + t - (leastExponent + cut (m * 2 ^ t))).toNat =
      t - cut (m * 2 ^ t) := by omega
  have hexponent : leastExponent + t - (t - cut (m * 2 ^ t) : ℕ) =
      leastExponent + (min t (cut (m * 2 ^ t)) : ℕ) := by omega
  rw [UnpackedFloat.round, targetExponent_eq hm.ne']
  simp only [decreaseExponent, hshift, hexponent, Nat.shiftLeft_eq]

theorem rounds_round (s : Sign) {m : ℕ} (hm : 0 < m) (t : ℕ) :
    Rounds s (m * 2 ^ t) (UnpackedFloat.round .binary64 s m (leastExponent + t)) := by
  have hvalue : m * 2 ^ (t - cut (m * 2 ^ t)) * 2 ^ min t (cut (m * 2 ^ t)) = m * 2 ^ t := by
    rw [mul_assoc, ← pow_add]
    congr 2
    omega
  have hpos : 0 < m * 2 ^ (t - cut (m * 2 ^ t)) := by positivity
  have hrounded := rounds_roundWithAccuracy s hpos (t := min t (cut (m * 2 ^ t)))
  rw [hvalue] at hrounded
  rw [round_eq s hm]
  exact hrounded (min_le_right _ _)

/-- Below the limit the result is the rounded number, and else an infinity. -/
theorem Rounds.exists_unpack_pack {s : Sign} {N : ℕ} {u : UnpackedFloat} (h : Rounds s N u) :
    ∃ R, RoundsTo N R ∧
      ((R < limit ∧ unpackedUnits (Float.Model.pack u).unpack = .int (s.apply R)) ∨
        (limit ≤ R ∧ (Float.Model.pack u).unpack = .infinity s)) := by
  obtain @⟨m, t, hm, hlt, hnormal, hround⟩ := h
  refine ⟨m * 2 ^ t, hround, ?_⟩
  rcases lt_or_ge t 2046 with ht | ht
  · left
    constructor
    · exact mul_two_pow_lt_limit hlt (by omega)
    · have hcanonical : Canonical (.finite s m (leastExponent + t) hm) := by
        refine ⟨hlt, by omega, ?_, by omega⟩
        rw [leastExponent, greatestExponent]
        omega
      have hexponent : (leastExponent + t - leastExponent).toNat = t := by omega
      rw [unpack_pack_finite hcanonical, unpackedUnits, magnitude, hexponent]
  · right
    constructor
    · calc limit ≤ 2 ^ (52 + t) := limit_le_two_pow (by omega)
        _ = leastNormal * 2 ^ t := by rw [leastNormal_eq, ← pow_add]
        _ ≤ m * 2 ^ t := Nat.mul_le_mul_right _ (by omega)
    · refine unpack_pack_infinity s hm ?_
      rw [leastExponent, greatestExponent]
      omega

end Range

end MaxPlus.Binary64
