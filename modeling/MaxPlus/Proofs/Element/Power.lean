import MaxPlus.Proofs.Element.WellFormed
import MaxPlus.Proofs.Weight.Sums

/-!
When the powers of an element exist.

Values that are not positive never leave the range at the top. A positive value doubles exactly with
every square, and the running product stays below the running square. So a power fails just where
the square after the highest bit of the exponent does. That square is not a factor of the power, and
the power of a large value fails although the product of as many copies exists.
-/

set_option autoImplicit false
set_option relaxedAutoImplicit false

namespace MaxPlus

namespace Element

open Binary64

variable {a b : Element Float} {j k l n : ℕ}

def HasUnits (a : Element Float) (k : ℕ) : Prop :=
  units a.value = .int k

structure Nonpositive (a : Element Float) : Prop where
  supported : Weight.supported a.value = true
  le : ∀ i, units a.value = .int i → i ≤ 0

private theorem nonpositive_or_hasUnits (ha : Weight.supported a.value = true) :
    a.Nonpositive ∨ ∃ k, 0 < k ∧ a.HasUnits k := by
  cases hk : units a.value with
  | bot =>
    refine Or.inl ⟨ha, fun i hi => ?_⟩
    rw [hk] at hi
    cases hi
  | int i =>
    rcases le_or_gt i 0 with hle | hpos
    · refine Or.inl ⟨ha, fun i' hi' => ?_⟩
      rw [hk] at hi'
      cases hi'
      exact hle
    · obtain ⟨k, rfl⟩ := Int.eq_ofNat_of_zero_le hpos.le
      exact Or.inr ⟨k, by omega, hk⟩

private theorem isZero_eq_false_of_units {i : ℤ} (h : units a.value = .int i) :
    a.isZero = false := by
  rw [isZero, beq_bot_units (supported_of_units h), h]
  rfl

private theorem mul_eq_of_not_isZero (ha : a.isZero = false) (hb : b.isZero = false) :
    a.mul b = if Weight.isTop (a.value + b.value) then .error (.overflow a.value b.value)
      else .ok ⟨a.value + b.value, a.ghost || b.ghost⟩ := by
  rw [mul, ha, hb]
  rfl

namespace Nonpositive

theorem zero : Nonpositive 0 :=
  ⟨rfl, fun _ h => by cases h⟩

theorem one : Nonpositive 1 := by
  refine ⟨rfl, fun i hi => ?_⟩
  cases units_unit.symm.trans hi
  exact le_rfl

theorem add (ha : a.Nonpositive) (hb : b.Nonpositive) : (a + b).Nonpositive := by
  refine ⟨supported_value_add ha.supported hb.supported, fun i hi => ?_⟩
  rcases value_add a b with h | h
  · exact ha.le i (h ▸ hi)
  · exact hb.le i (h ▸ hi)

theorem mul (ha : a.Nonpositive) (hb : b.Nonpositive) : ∃ c, a.mul b = .ok c ∧ c.Nonpositive := by
  by_cases hzero : (a.isZero || b.isZero) = true
  · refine ⟨0, ?_, zero⟩
    rw [Element.mul, if_pos hzero]
  · rw [Bool.not_eq_true, Bool.or_eq_false_iff] at hzero
    obtain ⟨i, hi⟩ := exists_units_eq_int ha.supported hzero.1
    obtain ⟨i', hi'⟩ := exists_units_eq_int hb.supported hzero.2
    obtain ⟨htop, hle⟩ := units_add_of_nonpos hi hi' (add_nonpos (ha.le i hi) (hb.le i' hi'))
    rw [mul_eq_of_not_isZero hzero.1 hzero.2, htop]
    exact ⟨_, rfl, supported_add ha.supported hb.supported htop, hle⟩

def BothEnd (x y : Computed Float) : Prop :=
  ∃ c, x = .ok c ∧ y = .ok c ∧ c.Nonpositive

private theorem bothEnd_ok (ha : a.Nonpositive) : BothEnd (.ok a) (.ok a) :=
  ⟨a, rfl, rfl, ha⟩

theorem respects : Respects BothEnd where
  zero := bothEnd_ok zero
  one := bothEnd_ok one
  add := by
    rintro _ _ _ _ ⟨a, rfl, rfl, ha⟩ ⟨b, rfl, rfl, hb⟩
    exact bothEnd_ok (ha.add hb)
  mul := by
    rintro _ _ _ _ ⟨a, rfl, rfl, ha⟩ ⟨b, rfl, rfl, hb⟩
    obtain ⟨c, hc, hle⟩ := ha.mul hb
    exact ⟨c, hc, hc, hle⟩

end Nonpositive

private theorem mul_of_hasUnits (ha : a.HasUnits k) (hb : b.HasUnits l) (hpos : 0 < k + l) :
    ∃ R, RoundsTo (k + l) R ∧
      ((R < limit ∧ ∃ c, a.mul b = .ok c ∧ c.HasUnits R) ∨
        (limit ≤ R ∧ ∃ e, a.mul b = .error e)) := by
  have hmul := mul_eq_of_not_isZero (isZero_eq_false_of_units ha) (isZero_eq_false_of_units hb)
  have hsum := exists_units_add_of_pos ha hb (by omega)
  rw [show ((k : ℤ) + l).natAbs = k + l by omega] at hsum
  obtain ⟨R, hR, ⟨hlt, hunits⟩ | ⟨hle, htop⟩⟩ := hsum
  · rw [isTop_eq_false_of_units hunits] at hmul
    exact ⟨R, hR, Or.inl ⟨hlt, ⟨a.value + b.value, a.ghost || b.ghost⟩, hmul, hunits⟩⟩
  · rw [htop] at hmul
    exact ⟨R, hR, Or.inr ⟨hle, .overflow a.value b.value, hmul⟩⟩

private theorem HasUnits.short (ha : a.HasUnits k) : Short k :=
  (short_lt_limit_of_units ha).1

private theorem HasUnits.lt_limit (ha : a.HasUnits k) : k < limit :=
  (short_lt_limit_of_units ha).2

private theorem short_two_mul (h : Short k) : Short (2 * k) := by
  obtain ⟨m, t, hm, rfl⟩ := h
  exact ⟨m, t + 1, hm, by ring⟩

private theorem square_of_hasUnits (ha : a.HasUnits k) (hpos : 0 < k) :
    (2 * k < limit ∧ ∃ c, a.mul a = .ok c ∧ c.HasUnits (2 * k)) ∨
      (limit ≤ 2 * k ∧ ∃ e, a.mul a = .error e) := by
  obtain ⟨R, hR, h⟩ := mul_of_hasUnits ha ha (by omega)
  rw [← two_mul] at hR
  rwa [hR.eq_of_short (short_two_mul ha.short)] at h

section Loop

private theorem size_eq_succ (hn : n ≠ 0) : n.size = (n / 2).size + 1 := by
  have hbit := Nat.bit_bodd_div2 n
  have hsize := Nat.size_bit (b := n.bodd) (n := n.div2) (hbit.symm ▸ hn)
  rwa [hbit, Nat.div2_val] at hsize

private theorem squareAndMultiply_error (result : Computed Float) (e : Unsupported Float) (n : ℕ) :
    (squareAndMultiply result (.error e) n).2 = .error e := by
  induction n using Nat.strong_induction_on generalizing result with
  | _ n ih =>
    rw [squareAndMultiply]
    split_ifs with hn hbit
    · rfl
    · exact ih _ (by omega) _
    · exact ih _ (by omega) _

private theorem squareAndMultiply_of_limit_le (result : Computed Float) (hb : b.HasUnits k)
    (hpos : 0 < k)
    (h : limit ≤ 2 ^ n.size * k) : ∃ e, (squareAndMultiply result (.ok b) n).2 = .error e := by
  induction n using Nat.strong_induction_on generalizing result b k with
  | _ n ih =>
    have hlt := hb.lt_limit
    rcases eq_or_ne n 0 with rfl | hn
    · rw [Nat.size_zero, pow_zero, one_mul] at h
      omega
    · rw [squareAndMultiply, if_neg hn]
      rcases square_of_hasUnits hb hpos with ⟨-, c, hc, hunits⟩ | ⟨-, e, he⟩
      · have hrest : limit ≤ 2 ^ (n / 2).size * (2 * k) := by
          rwa [size_eq_succ hn, pow_succ, mul_assoc] at h
        rw [Computed.ok_mul_ok, hc]
        exact ih _ (by omega) _ hunits (by omega) hrest
      · rw [Computed.ok_mul_ok, he]
        exact ⟨e, squareAndMultiply_error _ e _⟩

private theorem exists_squareAndMultiply (ha : a.HasUnits j) (hb : b.HasUnits k) (hle : j ≤ k)
    (hpos : 0 < k) (h : 2 ^ n.size * k < limit) :
    ∃ c d, squareAndMultiply (.ok a : Computed Float) (.ok b) n = (.ok c, .ok d) := by
  induction n using Nat.strong_induction_on generalizing a b j k with
  | _ n ih =>
    rcases eq_or_ne n 0 with rfl | hn
    · rw [squareAndMultiply, if_pos rfl]
      exact ⟨a, b, rfl⟩
    · have hrest : 2 ^ (n / 2).size * (2 * k) < limit := by
        rwa [size_eq_succ hn, pow_succ, mul_assoc] at h
      have hdouble : 2 * k < limit := by
        have hone : 1 ≤ 2 ^ (n / 2).size := Nat.one_le_two_pow
        calc 2 * k = 1 * (2 * k) := (one_mul _).symm
          _ ≤ 2 ^ (n / 2).size * (2 * k) := Nat.mul_le_mul_right _ hone
          _ < limit := hrest
      rcases square_of_hasUnits hb hpos with ⟨-, d, hd, hsquare⟩ | ⟨hlimit, -⟩
      · rw [squareAndMultiply, if_neg hn, Computed.ok_mul_ok, Computed.ok_mul_ok, hd]
        split_ifs with hbit
        · obtain ⟨R, hR, hcase⟩ := mul_of_hasUnits ha hb (by omega)
          have hRle : R ≤ 2 * k := hR.le (short_two_mul hb.short) (by omega)
          rcases hcase with ⟨-, c, hc, hproduct⟩ | ⟨hlimit, -⟩
          · rw [hc]
            exact ih _ (by omega) hproduct hsquare hRle (by omega) hrest
          · omega
        · exact ih _ (by omega) ha hsquare (by omega) (by omega) hrest
      · omega

private theorem hasUnits_one : HasUnits 1 0 :=
  units_unit

private theorem exists_pow_iff_squareAndMultiply : (∃ c, a.pow n = .ok c) ↔
    ∃ c d, squareAndMultiply 1 (.ok a : Computed Float) n = (.ok c, .ok d) := by
  rw [pow]
  generalize squareAndMultiply 1 (.ok a : Computed Float) n = x
  obtain ⟨result, square⟩ := x
  cases result with
  | error e =>
    refine iff_of_false ?_ ?_
    · rintro ⟨_, ⟨⟩⟩
    · rintro ⟨_, _, ⟨⟩⟩
  | ok c =>
    cases square with
    | error e =>
      refine iff_of_false ?_ ?_
      · rintro ⟨_, ⟨⟩⟩
      · rintro ⟨_, _, ⟨⟩⟩
    | ok d => exact iff_of_true ⟨c, rfl⟩ ⟨c, d, rfl⟩

private theorem exists_pow_iff_of_hasUnits (ha : a.HasUnits k) (hpos : 0 < k) :
    (∃ c, a.pow n = .ok c) ↔ 2 ^ n.size * k < limit := by
  rw [exists_pow_iff_squareAndMultiply]
  constructor
  · rintro ⟨c, d, h⟩
    by_contra hlimit
    obtain ⟨e, he⟩ := squareAndMultiply_of_limit_le 1 ha hpos (not_lt.mp hlimit)
    rw [h] at he
    cases he
  · exact exists_squareAndMultiply hasUnits_one ha (Nat.zero_le k) hpos

private theorem Nonpositive.exists_pow (ha : a.Nonpositive) : ∃ c, a.pow n = .ok c := by
  obtain ⟨⟨c, hc, -⟩, ⟨d, hd, -⟩⟩ := respects.squareAndMultiply respects.one ha.bothEnd_ok n
  exact exists_pow_iff_squareAndMultiply.mpr ⟨c, d, Prod.ext hc hd⟩

end Loop

section Products

private theorem product_replicate_succ (a : Element Float) (n : ℕ) :
    product (List.replicate (n + 1) a) = product (List.replicate n a) * .ok a := by
  rw [product, product, List.replicate_succ', List.map_append, MaxPlus.product, List.foldl_append]
  rfl

private theorem Nonpositive.exists_product (ha : a.Nonpositive) :
    ∃ c, product (List.replicate n a) = .ok c := by
  have hcopies : List.Forall₂ BothEnd ((List.replicate n a).map .ok)
      ((List.replicate n a).map .ok) := by
    rw [List.map_replicate]
    exact List.forall₂_same.mpr fun x hx => (List.eq_of_mem_replicate hx).symm ▸ ha.bothEnd_ok
  obtain ⟨c, hc, -⟩ := respects.product hcopies
  exact ⟨c, hc⟩

private theorem le_of_product_eq_ok (ha : a.HasUnits k) (hpos : 0 < k) (hn : n < 2 * leastNormal)
    {c : Element Float} (h : product (List.replicate n a) = .ok c) :
    ∃ i, c.HasUnits i ∧ n * 2 ^ k.log2 ≤ i := by
  induction n generalizing c with
  | zero =>
    cases h
    exact ⟨0, hasUnits_one, (Nat.zero_mul _).le⟩
  | succ n ih =>
    rw [product_replicate_succ] at h
    cases hd : product (List.replicate n a) with
    | error e =>
      rw [hd] at h
      cases h
    | ok d =>
      rw [hd, Computed.ok_mul_ok] at h
      obtain ⟨i, hi, hle⟩ := ih (by omega) hd
      obtain ⟨R, hR, ⟨-, c', hc', hunits⟩ | ⟨-, e, he⟩⟩ := mul_of_hasUnits hi ha (by omega)
      · cases h.symm.trans hc'
        refine ⟨R, hunits, hR.ge ⟨n + 1, k.log2, hn, rfl⟩ ?_⟩
        rw [Nat.succ_mul]
        exact Nat.add_le_add hle (Nat.log2_self_le hpos.ne')
      · rw [he] at h
        cases h

private theorem exists_product_of_lt (ha : a.HasUnits k) (hpos : 0 < k) (hn : n < 2 * leastNormal)
    (hlt : n * 2 ^ (k.log2 + 1) < limit) :
    ∃ c i, product (List.replicate n a) = .ok c ∧ c.HasUnits i ∧ i ≤ n * 2 ^ (k.log2 + 1) := by
  induction n with
  | zero => exact ⟨1, 0, rfl, hasUnits_one, Nat.zero_le _⟩
  | succ n ih =>
    have hbefore : n * 2 ^ (k.log2 + 1) ≤ (n + 1) * 2 ^ (k.log2 + 1) :=
      Nat.mul_le_mul_right _ (Nat.le_succ n)
    obtain ⟨d, i, hd, hi, hle⟩ := ih (by omega) (hbefore.trans_lt hlt)
    have hself : k < 2 ^ (k.log2 + 1) := Nat.lt_log2_self
    have hsum : i + k ≤ (n + 1) * 2 ^ (k.log2 + 1) := by
      rw [Nat.succ_mul]
      exact Nat.add_le_add hle hself.le
    rw [product_replicate_succ, hd, Computed.ok_mul_ok]
    obtain ⟨R, hR, hcase⟩ := mul_of_hasUnits hi ha (by omega)
    have hRle : R ≤ (n + 1) * 2 ^ (k.log2 + 1) := hR.le ⟨n + 1, k.log2 + 1, hn, rfl⟩ hsum
    rcases hcase with ⟨-, c, hc, hunits⟩ | ⟨hlimit, -⟩
    · exact ⟨c, R, hc, hunits, hRle⟩
    · omega

private theorem two_pow_size_lt (hn : n < UInt32.size) : 2 ^ n.size < 2 * leastNormal := by
  have hsize : n.size ≤ 32 := Nat.size_le.mpr hn
  calc 2 ^ n.size ≤ 2 ^ 32 := Nat.pow_le_pow_right Nat.two_pos hsize
    _ < 2 * leastNormal := by decide

private theorem two_pow_mul_two_pow_succ_le_limit {s e : ℕ} (h : 2 ^ s * 2 ^ e < limit) :
    2 ^ s * 2 ^ (e + 1) ≤ limit := by
  rw [← pow_add] at h ⊢
  exact two_pow_succ_le_limit h

/-- The product of the copies reaches at least their number times the highest power of two below the
value. Both are powers of two, as the limit is, so the value itself fits below the limit too. -/
private theorem two_pow_size_mul_lt_limit (ha : a.HasUnits k) (hpos : 0 < k) (hn : n < UInt32.size)
    (h : ∃ c, product (List.replicate (2 ^ n.size) a) = .ok c) : 2 ^ n.size * k < limit := by
  obtain ⟨c, hc⟩ := h
  obtain ⟨i, hi, hle⟩ := le_of_product_eq_ok ha hpos (two_pow_size_lt hn) hc
  have hpower : 2 ^ n.size * 2 ^ k.log2 < limit := by exact_mod_cast hle.trans_lt hi.lt_limit
  calc 2 ^ n.size * k
      < 2 ^ n.size * 2 ^ (k.log2 + 1) :=
        Nat.mul_lt_mul_of_pos_left Nat.lt_log2_self (Nat.two_pow_pos _)
    _ ≤ limit := two_pow_mul_two_pow_succ_le_limit hpower

private theorem exists_product_of_two_pow_size_mul_lt (ha : a.HasUnits k) (hpos : 0 < k)
    (hn : n < UInt32.size) (h : 2 ^ n.size * k < limit) :
    ∃ c, product (List.replicate n a) = .ok c := by
  have hself : n < 2 ^ n.size := Nat.lt_size_self n
  have hpower : 2 ^ n.size * 2 ^ k.log2 < limit :=
    (Nat.mul_le_mul_left _ (Nat.log2_self_le hpos.ne')).trans_lt h
  have hproduct : n * 2 ^ (k.log2 + 1) < limit :=
    calc n * 2 ^ (k.log2 + 1)
        < 2 ^ n.size * 2 ^ (k.log2 + 1) := Nat.mul_lt_mul_of_pos_right hself (Nat.two_pow_pos _)
      _ ≤ limit := two_pow_mul_two_pow_succ_le_limit hpower
  obtain ⟨c, i, hc, -⟩ := exists_product_of_lt ha hpos (hself.trans (two_pow_size_lt hn)) hproduct
  exact ⟨c, hc⟩

end Products

/-- With `m` binary digits in the exponent, the power exists just where `2 ^ m` times the value lies
below `2 ^ 1024`. So it exists if the product of `2 ^ m` copies does, and if it exists, so does the
product of as many copies as the exponent says. -/
theorem exists_pow_iff_of_supported (ha : Weight.supported a.value = true)
    (hn : n < UInt32.size) :
    ((∃ c, a.pow n = .ok c) ↔
        ∀ i, units a.value = .int i → 2 ^ n.size * i < (limit : ℤ)) ∧
      ((∃ c, product (List.replicate (2 ^ n.size) a) = .ok c) → ∃ c, a.pow n = .ok c) ∧
      ((∃ c, a.pow n = .ok c) → ∃ c, product (List.replicate n a) = .ok c) := by
  rcases nonpositive_or_hasUnits ha with ha | ⟨k, hpos, hk⟩
  · refine ⟨iff_of_true ha.exists_pow fun i hi => ?_, fun _ => ha.exists_pow,
      fun _ => ha.exists_product⟩
    have hlimit : (0 : ℤ) < limit := by exact_mod_cast limit_pos
    exact (mul_nonpos_of_nonneg_of_nonpos (by positivity) (ha.le i hi)).trans_lt hlimit
  · have hpow : (∃ c, a.pow n = .ok c) ↔ 2 ^ n.size * k < limit :=
      exists_pow_iff_of_hasUnits hk hpos
    rw [hpow]
    refine ⟨⟨?_, ?_⟩, two_pow_size_mul_lt_limit hk hpos hn,
      exists_product_of_two_pow_size_mul_lt hk hpos hn⟩
    · intro h i hi
      cases hk.symm.trans hi
      exact_mod_cast h
    · intro h
      exact_mod_cast h k hk

def largeGhost : Element Float :=
  ⟨Float.ofBits 0x7fc0000000000000, true⟩

theorem exists_pow_iff_of_supported_three :
    Weight.supported largeGhost.value = true ∧ 3 < UInt32.size ∧ ∃ c, largeGhost.pow 3 = .ok c := by
  have hsupported : Weight.supported largeGhost.value = true := by decide +kernel
  have hsize : Nat.size 3 = 2 :=
    (Nat.size_le.mpr (by decide)).antisymm (Nat.lt_size.mpr (by decide))
  have hproduct : (product (List.replicate (2 ^ 2) largeGhost)).isOk = true := by decide +kernel
  obtain ⟨-, hpow, -⟩ := exists_pow_iff_of_supported hsupported (n := 3) (by decide)
  refine ⟨hsupported, by decide, hpow ?_⟩
  rw [hsize]
  cases hc : product (List.replicate (2 ^ 2) largeGhost) with
  | error e =>
    rw [hc] at hproduct
    cases hproduct
  | ok c => exact ⟨c, rfl⟩

def hugeGain : Float :=
  Float.ofBits 0x7fe1ccf385ebc8a0

/-- The product of one copy exists, but the first power forms the square and fails. -/
theorem product_one_pow_one_overflow :
    Weight.supported hugeGain = true ∧
      (∃ c, product (List.replicate 1 ⟨hugeGain, false⟩) = .ok c) ∧
      ¬∃ c, pow ⟨hugeGain, false⟩ 1 = .ok c := by
  have hproduct : product (List.replicate 1 ⟨hugeGain, false⟩) = mul 1 ⟨hugeGain, false⟩ := rfl
  have hsquare : mul ⟨hugeGain, false⟩ ⟨hugeGain, false⟩ =
      .error (.overflow hugeGain hugeGain) := by
    rw [mul, if_neg (by decide +kernel), if_pos (by decide +kernel)]
  refine ⟨by decide +kernel, ?_, ?_⟩
  · rw [hproduct, mul, if_neg (by decide +kernel), if_neg (by decide +kernel)]
    exact ⟨_, rfl⟩
  · rw [exists_pow_iff_squareAndMultiply, squareAndMultiply, if_neg one_ne_zero,
      Computed.ok_mul_ok, hsquare]
    rintro ⟨c, d, hpow⟩
    have hfails := squareAndMultiply_error (if 1 % 2 = 1 then 1 * .ok ⟨hugeGain, false⟩ else 1)
      (.overflow hugeGain hugeGain) (1 / 2)
    rw [hpow] at hfails
    cases hfails

end Element

end MaxPlus
