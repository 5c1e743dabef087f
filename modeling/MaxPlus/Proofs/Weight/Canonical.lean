import Mathlib
import MaxPlus.Weight.Binary64

/-!
Doubles taken apart and put together.

A finite double is a sign, a significand below `2 ^ 53` and an exponent. The significand has its
full length, or else the exponent is the least one. Numbers of this shape are the ones that come
out of a bit pattern, and putting one of them together loses nothing.
-/

set_option autoImplicit false
set_option relaxedAutoImplicit false

namespace MaxPlus.Binary64

open Float.Model Float.Model.UnpackedFloat

def greatestExponent : ℤ := 971

/-- The numbers that a bit pattern can stand for. -/
def Canonical : UnpackedFloat → Prop
  | .finite _ m q _ =>
    m < 2 * leastNormal ∧ leastExponent ≤ q ∧ q ≤ greatestExponent ∧
      (leastNormal ≤ m ∨ q = leastExponent)
  | _ => True

private theorem toNat_one_append (v : BitVec 52) : (1#1 ++ v).toNat = leastNormal + v.toNat := by
  rw [BitVec.toNat_append, ← Nat.shiftLeft_add_eq_or_of_lt v.isLt, Nat.shiftLeft_eq]
  simp [leastNormal]

private theorem exponentBias_binary64 : Format.binary64.exponentBias = 1023 := rfl

private theorem mantissaBits_binary64 : Format.binary64.mantissaBits = 53 := rfl

theorem canonical_unpack (b : BitVec Format.binary64.numBits) :
    Canonical (UnpackedFloat.unpack .binary64 b) := by
  have hmantissa : (unpackMantissa b).toNat < 2 ^ 52 := BitVec.isLt _
  have hexponent : (unpackExponent b).toNat < 2 ^ 11 := BitVec.isLt _
  rw [UnpackedFloat.unpack]
  simp only [exponentBias_binary64]
  split_ifs with htop hinf hlow hzero
  · trivial
  · trivial
  · trivial
  · have hexp : (unpackExponent b).toNat = 0 := by
      rw [hlow]
      rfl
    simp only [Canonical, leastExponent, greatestExponent, leastNormal, hexp]
    omega
  · have hne : (unpackExponent b).toNat ≠ 2 ^ 11 - 1 := fun h => htop (BitVec.eq_of_toNat_eq h)
    have hpos : (unpackExponent b).toNat ≠ 0 := fun h => hlow (BitVec.eq_of_toNat_eq h)
    have happend : (1#1 ++ unpackMantissa b).toNat = leastNormal + (unpackMantissa b).toNat :=
      toNat_one_append _
    simp only [Canonical, leastExponent, greatestExponent]
    rw [happend, leastNormal]
    omega

private theorem unpackSign_packComponents (s : Sign) (e : BitVec 11) (m : BitVec 52) :
    Sign.ofBitVec (unpackSign (packComponents .binary64 s e m)) = s := by
  simp only [unpackSign, packComponents, BitVec.extractLsb]
  rw [BitVec.extractLsb'_append_eq_of_le (by omega), BitVec.extractLsb'_append_eq_of_le (by omega)]
  cases s <;> rfl

private theorem unpack_packComponents_normal (s : Sign) {e m : ℕ} (hpos : 0 < e) (he : e < 2047)
    (hlow : leastNormal ≤ m) (hhigh : m < 2 * leastNormal) :
    UnpackedFloat.unpack .binary64
        (packComponents .binary64 s (BitVec.ofNat 11 e) (BitVec.ofNat 52 m)) =
      .finite s m (e - 1075) (Nat.lt_of_lt_of_le (by decide) hlow) := by
  have hexponent : (BitVec.ofNat 11 e).toNat = e := by
    rw [BitVec.toNat_ofNat, Nat.mod_eq_of_lt (by omega)]
  have hmantissa : (1#1 ++ BitVec.ofNat 52 m).toNat = m := by
    rw [toNat_one_append, BitVec.toNat_ofNat]
    rw [leastNormal] at *
    omega
  have htop : BitVec.ofNat 11 e ≠ -1#11 := by
    rw [BitVec.toNat_ne, hexponent]
    exact he.ne
  have hzero : BitVec.ofNat 11 e ≠ 0#11 := by
    rw [BitVec.toNat_ne, hexponent]
    exact hpos.ne'
  rw [UnpackedFloat.unpack]
  simp only [unpackMantissa_packComponents, unpackExponent_packComponents,
    unpackSign_packComponents]
  rw [if_neg htop, if_neg hzero]
  simp only [hmantissa, hexponent, exponentBias_binary64]
  congr 1

private theorem unpack_packComponents_subnormal (s : Sign) {m : ℕ} (hpos : 0 < m)
    (hhigh : m < leastNormal) :
    UnpackedFloat.unpack .binary64 (packComponents .binary64 s 0#11 (BitVec.ofNat 52 m)) =
      .finite s m leastExponent hpos := by
  have hmantissa : (BitVec.ofNat 52 m).toNat = m := by
    rw [BitVec.toNat_ofNat]
    exact Nat.mod_eq_of_lt hhigh
  have hzero : BitVec.ofNat 52 m ≠ 0#52 := by
    rw [BitVec.toNat_ne, hmantissa]
    exact hpos.ne'
  rw [UnpackedFloat.unpack]
  simp only [unpackMantissa_packComponents, unpackExponent_packComponents,
    unpackSign_packComponents]
  rw [if_neg (by decide), if_pos trivial, dif_neg hzero]
  simp only [hmantissa]
  rfl

theorem unpack_pack_finite {s : Sign} {m : ℕ} {q : ℤ} {hm : 0 < m}
    (h : Canonical (.finite s m q hm)) :
    (Float.Model.pack (.finite s m q hm)).unpack = .finite s m q hm := by
  obtain ⟨hlt, hlow, hhigh, hnormal⟩ := h
  rw [leastExponent] at hlow
  rw [greatestExponent] at hhigh
  have hbiased : (q + Format.binary64.exponentBias + (52 : ℕ)).toNat = (q + 1075).toNat := by
    rw [exponentBias_binary64]
    congr 1
    omega
  change UnpackedFloat.unpack .binary64 (UnpackedFloat.pack .binary64 (.finite s m q hm)) = _
  rw [UnpackedFloat.pack]
  simp only [hbiased, mantissaBits_binary64]
  rw [if_neg (by omega)]
  -- The length of the significand tells whether its leading digit is implied.
  by_cases hlog : m.log2 + 1 = 53
  · have hle : leastNormal ≤ m := by
      have hself := Nat.log2_self_le hm.ne'
      rwa [show m.log2 = 52 by omega] at hself
    rw [if_pos hlog, unpack_packComponents_normal s (by omega) (by omega) hle hlt]
    congr 1
    omega
  · have hsmall : m < leastNormal := by
      by_contra hge
      have hlow52 : 52 ≤ m.log2 := (Nat.le_log2 hm.ne').mpr (not_lt.mp hge)
      have hhigh53 : m.log2 < 53 := (Nat.log2_lt hm.ne').mpr hlt
      omega
    rw [if_neg hlog, unpack_packComponents_subnormal s hm hsmall,
      hnormal.resolve_left (not_le.mpr hsmall)]

private theorem isNaN_unpack_packComponents (s : Sign) {e : BitVec 11} (m : BitVec 52)
    (he : e ≠ -1#11) :
    (UnpackedFloat.unpack .binary64 (packComponents .binary64 s e m)).isNaN = false := by
  rw [UnpackedFloat.unpack]
  simp only [unpackMantissa_packComponents, unpackExponent_packComponents]
  rw [if_neg he]
  split_ifs <;> rfl

theorem isNaN_unpack_pack {u : UnpackedFloat} (h : u.isNaN = false) :
    (Float.Model.pack u).unpack.isNaN = false := by
  cases u with
  | notANumber => cases h
  | infinity s => cases s <;> rfl
  | zero s => cases s <;> rfl
  | finite s m q hm =>
    change (UnpackedFloat.unpack .binary64 (UnpackedFloat.pack .binary64 _)).isNaN = false
    rw [UnpackedFloat.pack]
    simp only
    split_ifs with hlarge
    · cases s <;> rfl
    · refine isNaN_unpack_packComponents s _ fun h => hlarge ?_
      have hfield := congrArg BitVec.toNat h
      rw [BitVec.toNat_ofNat, show (-1#11).toNat = 2 ^ 11 - 1 from rfl] at hfield
      have hle := Nat.mod_le (q + Format.binary64.exponentBias + (52 : ℕ)).toNat (2 ^ 11)
      omega
    · exact isNaN_unpack_packComponents s _ (by decide)

end MaxPlus.Binary64
