import MaxPlus.Proofs.Permutation.FactorialBase

/-!
What a sequence of exchanges does to the places.

Step `k` exchanges two places that depend on the carry from `k` to `k + 1` alone, so one sequence
of rearrangements serves every number of places. The first `(m + 1)!` of them move only the first
`m + 1` places: such a full pass swaps the first and the last of them if `m` is even, and runs
through all of them in one cycle if `m` is odd. From this, `m + 2` passes in a row bring a new
number to place `m + 1` each time, and no rearrangement comes twice.
-/

set_option autoImplicit false
set_option relaxedAutoImplicit false

namespace MaxPlus

open scoped Nat

def exchange (level d : ℕ) : Equiv.Perm ℕ :=
  Equiv.swap (if level % 2 = 0 then 0 else d) level

/-- The places that the numbers come from after `k` steps. -/
def rearrangement : ℕ → Equiv.Perm ℕ
  | 0 => 1
  | k + 1 => rearrangement k * exchange (carryLevel k) (factorialDigit k (carryLevel k))

@[simp] theorem rearrangement_zero : rearrangement 0 = 1 := rfl

theorem rearrangement_succ (k : ℕ) :
    rearrangement (k + 1) =
      rearrangement k * exchange (carryLevel k) (factorialDigit k (carryLevel k)) := rfl

private theorem exchange_apply_of_lt {level d j : ℕ} (hd : d < level) (hj : level < j) :
    exchange level d j = j := by
  apply Equiv.swap_apply_of_ne_of_ne
  · split_ifs <;> omega
  · omega

theorem exchange_lt {n level d i : ℕ} (hlevel : level < n) (hd : d < level) (hi : i < n) :
    exchange level d i < n := by
  rw [exchange, Equiv.swap_apply_def]
  split_ifs <;> omega

theorem carryLevel_lt {m k : ℕ} (hk : k + 1 < m !) : carryLevel k < m := by
  by_contra h
  exact Nat.not_dvd_of_pos_of_lt (Nat.succ_pos k) hk (dvd_of_le_carryLevel (not_lt.mp h))

theorem rearrangement_apply_of_le {n k j : ℕ} (hk : k < n !) (hj : n ≤ j) :
    rearrangement k j = j := by
  induction k with
  | zero => rfl
  | succ k ih =>
    have hlevel := carryLevel_lt hk
    rw [rearrangement_succ, Equiv.Perm.mul_apply,
      exchange_apply_of_lt (factorialDigit_carryLevel_lt k) (by omega), ih (by omega)]

theorem rearrangement_lt {n k i : ℕ} (hk : k < n !) (hi : i < n) : rearrangement k i < n := by
  by_contra h
  have hfix := rearrangement_apply_of_le hk (not_lt.mp h)
  have := (rearrangement k).injective hfix
  omega

/-- Within a block of `m!` steps the exchanges are those of the first block. -/
private theorem rearrangement_mul_add {m r : ℕ} (c : ℕ) (hr : r < m !) :
    rearrangement (c * m ! + r) = rearrangement (c * m !) * rearrangement r := by
  induction r with
  | zero => simp
  | succ r ih =>
    have hlevel := carryLevel_lt hr
    have hdvd : ∀ i ≤ m, i ! ∣ c * m ! + r + 1 ↔ i ! ∣ r + 1 := fun i hi => by
      rw [Nat.add_assoc]
      exact Nat.dvd_add_right (dvd_mul_of_dvd_right (Nat.factorial_dvd_factorial hi) c)
    have hcarry : carryLevel (c * m ! + r) = carryLevel r := by
      apply carryLevel_eq
      · rw [hdvd _ hlevel.le]
        exact dvd_of_le_carryLevel le_rfl
      · rw [hdvd _ hlevel]
        exact not_dvd_carryLevel r
    rw [← Nat.add_assoc, rearrangement_succ, ih (by omega), hcarry,
      factorialDigit_mul_add hlevel, mul_assoc, ← rearrangement_succ]

/-- What the first `(m + 1)!` steps but one do: the net effect of a pass over the levels up to
`m`. -/
def fullPass (m : ℕ) : Equiv.Perm ℕ :=
  rearrangement ((m + 1)! - 1)

/-- Between two blocks stands a full pass and one exchange on the next level. -/
private theorem rearrangement_succ_mul {m c : ℕ} (hc : c ≤ m) :
    rearrangement ((c + 1) * (m + 1)!) =
      rearrangement (c * (m + 1)!) * fullPass m * exchange (m + 1) c := by
  have hpos := Nat.factorial_pos (m + 1)
  have hlast : (m + 1)! - 1 < (m + 1)! := by omega
  have hk : (c + 1) * (m + 1)! = c * (m + 1)! + ((m + 1)! - 1) + 1 := by
    rw [Nat.succ_mul]
    omega
  have hcarry : carryLevel (c * (m + 1)! + ((m + 1)! - 1)) = m + 1 := by
    apply carryLevel_eq
    · rw [← hk]
      exact dvd_mul_left _ _
    · rw [← hk, Nat.factorial_succ (m + 1)]
      apply Nat.not_dvd_of_pos_of_lt (by positivity)
      exact Nat.mul_lt_mul_of_pos_right (by omega) hpos
  rw [hk, rearrangement_succ, hcarry, factorialDigit_mul_add_self (by omega) hlast,
    rearrangement_mul_add c hlast, fullPass]

private theorem fullPass_succ (m : ℕ) :
    fullPass (m + 1) = rearrangement ((m + 1) * (m + 1)!) * fullPass m := by
  have hpos := Nat.factorial_pos (m + 1)
  have hlast : (m + 2)! - 1 = (m + 1) * (m + 1)! + ((m + 1)! - 1) := by
    rw [Nat.factorial_succ (m + 1), Nat.succ_mul]
    omega
  rw [fullPass, hlast, rearrangement_mul_add _ (by omega), fullPass]

private theorem formPerm_cons_concat {α : Type} [DecidableEq α] {x a : α} {l : List α}
    (h : (x :: (l ++ [a])).Nodup) :
    (x :: (l ++ [a])).formPerm = (l ++ [a]).formPerm * Equiv.swap x a := by
  rw [← List.formPerm_rotate_one _ h, Equiv.swap_comm, ← List.formPerm_append_pair]
  simp

section OddLevel

/-- The places in the order in which the exchanges on the odd level `m + 1` reach them, the last
one first. -/
def tour (m c : ℕ) : List ℕ :=
  ((List.range c).map (Equiv.swap 0 m)).reverse ++ [m + 1]

private theorem tour_succ (m c : ℕ) : tour m (c + 1) = Equiv.swap 0 m c :: tour m c := by
  simp [tour, List.range_succ]

private theorem swap_zero_le {m i : ℕ} (hi : i ≤ m) : Equiv.swap 0 m i ≤ m := by
  rw [Equiv.swap_apply_def]
  split_ifs <;> omega

private theorem le_of_mem_tour {m c i : ℕ} (hc : c ≤ m + 1) (hi : i ∈ tour m c) : i ≤ m + 1 := by
  simp only [tour, List.mem_append, List.mem_reverse, List.mem_map, List.mem_range,
    List.mem_singleton] at hi
  rcases hi with ⟨j, hj, rfl⟩ | rfl
  · exact (swap_zero_le (by omega)).trans (by omega)
  · exact le_rfl

private theorem nodup_tour {m c : ℕ} (hc : c ≤ m + 1) : (tour m c).Nodup := by
  refine List.nodup_append.mpr ⟨?_, List.nodup_singleton _, ?_⟩
  · exact List.nodup_reverse.mpr (List.nodup_range.map (Equiv.swap 0 m).injective)
  · intro i hi j hj
    simp only [List.mem_reverse, List.mem_map, List.mem_range, List.mem_singleton] at hi hj
    obtain ⟨d, hd, rfl⟩ := hi
    have := swap_zero_le (m := m) (i := d) (by omega)
    omega

variable {m : ℕ}

private theorem swap_pow_succ_apply (hm : Even m) {c : ℕ} (hc : c ≤ m) :
    (Equiv.swap 0 m ^ (c + 1)) c = Equiv.swap 0 m c := by
  rcases Nat.even_or_odd c with heven | hodd
  · have hsquare : Equiv.swap 0 m ^ c = 1 := by
      obtain ⟨q, rfl⟩ := heven
      rw [← two_mul, pow_mul, sq, Equiv.swap_mul_self, one_pow]
    rw [pow_succ, hsquare, one_mul]
  · have hne0 : c ≠ 0 := by rintro rfl; simp at hodd
    have hnem : c ≠ m := by rintro rfl; exact Nat.not_even_iff_odd.mpr hodd hm
    rw [Equiv.swap_apply_of_ne_of_ne hne0 hnem]
    exact Equiv.Perm.pow_apply_eq_self_of_apply_eq_self
      (Equiv.swap_apply_of_ne_of_ne hne0 hnem) _

private theorem swap_pow_apply_succ (c : ℕ) : (Equiv.swap 0 m ^ c) (m + 1) = m + 1 :=
  Equiv.Perm.pow_apply_eq_self_of_apply_eq_self
    (Equiv.swap_apply_of_ne_of_ne (by omega) (by omega)) _

private theorem rearrangement_mul_of_even (hm : Even m) (hpass : fullPass m = Equiv.swap 0 m)
    {c : ℕ} (hc : c ≤ m + 1) :
    rearrangement (c * (m + 1)!) = (tour m c).formPerm * Equiv.swap 0 m ^ c := by
  induction c with
  | zero => simp [tour]
  | succ c ih =>
    have hex : exchange (m + 1) c = Equiv.swap c (m + 1) := by
      rw [exchange, if_neg (by rw [Nat.even_iff] at hm; omega)]
    have hconj : Equiv.swap 0 m ^ (c + 1) * Equiv.swap c (m + 1) =
        Equiv.swap (Equiv.swap 0 m c) (m + 1) * Equiv.swap 0 m ^ (c + 1) := by
      rw [Equiv.mul_swap_eq_swap_mul, swap_pow_succ_apply hm (by omega), swap_pow_apply_succ]
    have hgrow : (tour m (c + 1)).formPerm =
        (tour m c).formPerm * Equiv.swap (Equiv.swap 0 m c) (m + 1) := by
      have hnodup := nodup_tour hc
      rw [tour_succ] at hnodup ⊢
      exact formPerm_cons_concat hnodup
    rw [rearrangement_succ_mul (by omega), ih (by omega), hpass, hex, mul_assoc, mul_assoc,
      ← mul_assoc (Equiv.swap 0 m ^ c), ← pow_succ, hconj, ← mul_assoc, hgrow]

private theorem rearrangement_mul_apply_of_even (hm : Even m) (hpass : fullPass m = Equiv.swap 0 m)
    {c : ℕ} (hc : c ≤ m + 1) :
    rearrangement (c * (m + 1)!) (m + 1) = if c = 0 then m + 1 else Equiv.swap 0 m (c - 1) := by
  rw [rearrangement_mul_of_even hm hpass hc, Equiv.Perm.mul_apply, swap_pow_apply_succ]
  cases c with
  | zero => simp [tour]
  | succ c =>
    rw [tour_succ, if_neg (Nat.succ_ne_zero c), Nat.add_sub_cancel]
    exact List.formPerm_cons_concat_apply_last _ _ _

/-- A pass over an odd level is one cycle through all its places. -/
private theorem fullPass_succ_of_even (hm : Even m) (hpass : fullPass m = Equiv.swap 0 m) :
    fullPass (m + 1) = (0 :: tour m m).formPerm := by
  have htour : tour m (m + 1) = 0 :: tour m m := by
    rw [tour_succ, Equiv.swap_apply_right]
  have hsquare : Equiv.swap 0 m ^ (m + 2) = 1 := by
    obtain ⟨q, rfl⟩ := hm
    rw [← two_mul, ← Nat.mul_succ, pow_mul, sq, Equiv.swap_mul_self, one_pow]
  rw [fullPass_succ, rearrangement_mul_of_even hm hpass le_rfl, hpass, mul_assoc, ← pow_succ,
    hsquare, mul_one, htour]

end OddLevel

section EvenLevel

variable {m : ℕ} {l : List ℕ}

private theorem formPerm_mul_swap (hl : ((m + 1) :: (l ++ [0])).Nodup) :
    (0 :: l).formPerm * Equiv.swap 0 (m + 1) = ((m + 1) :: (l ++ [0])).formPerm := by
  have hrotate : (0 :: l).formPerm = (l ++ [0]).formPerm := by
    have hnodup : (0 :: l).Nodup :=
      (List.perm_append_singleton 0 l).nodup_iff.mp (List.nodup_cons.mp hl).2
    rw [← List.formPerm_rotate_one _ hnodup]
    simp
  rw [formPerm_cons_concat hl, hrotate, Equiv.swap_comm]

private theorem rearrangement_mul_of_odd (hm : Odd m) (hpass : fullPass m = (0 :: l).formPerm)
    (hl : ((m + 1) :: (l ++ [0])).Nodup) {c : ℕ} (hc : c ≤ m + 1) :
    rearrangement (c * (m + 1)!) = ((m + 1) :: (l ++ [0])).formPerm ^ c := by
  induction c with
  | zero => simp
  | succ c ih =>
    have hex : exchange (m + 1) c = Equiv.swap 0 (m + 1) := by
      rw [exchange, if_pos (by rw [Nat.odd_iff] at hm; omega)]
    rw [rearrangement_succ_mul (by omega), ih (by omega), hpass, hex, mul_assoc,
      formPerm_mul_swap hl, pow_succ]

private theorem fullPass_succ_of_odd (hm : Odd m) (hpass : fullPass m = (0 :: l).formPerm)
    (hl : ((m + 1) :: (l ++ [0])).Nodup) (hlen : l.length = m) :
    fullPass (m + 1) = Equiv.swap 0 (m + 1) := by
  have hcycle : ((m + 1) :: (l ++ [0])).formPerm ^ (m + 2) = 1 := by
    simpa [hlen] using List.formPerm_pow_length_eq_one_of_nodup _ hl
  have hpass' : fullPass m = ((m + 1) :: (l ++ [0])).formPerm * Equiv.swap 0 (m + 1) := by
    rw [← formPerm_mul_swap hl, mul_assoc, Equiv.swap_mul_self, mul_one, hpass]
  rw [fullPass_succ, rearrangement_mul_of_odd hm hpass hl le_rfl, hpass', ← mul_assoc, ← pow_succ,
    hcycle, one_mul]

end EvenLevel

private theorem nodup_cons_tour (m : ℕ) : ((m + 2) :: (tour m m ++ [0])).Nodup := by
  have htour : (0 :: tour m m).Nodup := by
    simpa [tour_succ] using nodup_tour (m := m) le_rfl
  have hle : ∀ i ∈ tour m m ++ [0], i ≤ m + 1 := by
    intro i hi
    rcases List.mem_append.mp hi with hi | hi
    · exact le_of_mem_tour (by omega) hi
    · simp only [List.mem_singleton] at hi
      omega
  refine List.nodup_cons.mpr ⟨?_, ?_⟩
  · intro hmem
    have hlast := hle _ hmem
    omega
  · exact (List.perm_append_singleton 0 (tour m m)).nodup_iff.mpr htour

private theorem fullPass_of_even : ∀ {m : ℕ}, Even m → fullPass m = Equiv.swap 0 m
  | 0, _ => by simp [fullPass, Equiv.Perm.one_def]
  | 1, h => absurd h (by decide)
  | m + 2, h => by
    have hm : Even m := by simpa [Nat.even_add] using h
    apply fullPass_succ_of_odd hm.add_one (fullPass_succ_of_even hm (fullPass_of_even hm))
      (nodup_cons_tour m)
    simp [tour]

private theorem rearrangement_mul_apply_inj {m c c' : ℕ} (hc : c ≤ m + 1) (hc' : c' ≤ m + 1)
    (h : rearrangement (c * (m + 1)!) (m + 1) = rearrangement (c' * (m + 1)!) (m + 1)) :
    c = c' := by
  rcases Nat.even_or_odd m with hm | hm
  · have hpass := fullPass_of_even hm
    have hle : ∀ d, d - 1 ≤ m → Equiv.swap 0 m (d - 1) ≠ m + 1 := fun d hd he => by
      have := swap_zero_le hd
      omega
    rw [rearrangement_mul_apply_of_even hm hpass hc,
      rearrangement_mul_apply_of_even hm hpass hc'] at h
    split_ifs at h with h0 h0' h0'
    · omega
    · exact absurd h.symm (hle c' (by omega))
    · exact absurd h (hle c (by omega))
    · have := (Equiv.swap 0 m).injective h
      omega
  · obtain ⟨q, rfl⟩ : ∃ q, m = q + 1 := ⟨m - 1, by have := hm.pos; omega⟩
    have hq : Even q := by simpa [Nat.odd_add_one] using hm
    have hpass := fullPass_succ_of_even hq (fullPass_of_even hq)
    have hnodup := nodup_cons_tour q
    have hlen : ((q + 2) :: (tour q q ++ [0])).length = q + 3 := by simp [tour]
    rw [rearrangement_mul_of_odd hm hpass hnodup hc, rearrangement_mul_of_odd hm hpass hnodup hc',
      List.formPerm_pow_apply_head _ _ hnodup, List.formPerm_pow_apply_head _ _ hnodup] at h
    have hmod := (List.Nodup.getElem_inj_iff hnodup).mp h
    rwa [hlen, Nat.mod_eq_of_lt (by omega), Nat.mod_eq_of_lt (by omega)] at hmod

theorem rearrangement_inj {m k k' : ℕ} (hk : k < (m + 1)!) (hk' : k' < (m + 1)!)
    (h : rearrangement k = rearrangement k') : k = k' := by
  induction m generalizing k k' with
  | zero => simp at hk hk'; omega
  | succ m ih =>
    have hpos := Nat.factorial_pos (m + 1)
    -- each step belongs to a block, and place `m + 1` tells which
    have hblock : ∀ {k}, k < (m + 2)! → ∃ c r, c ≤ m + 1 ∧ r < (m + 1)! ∧
        k = c * (m + 1)! + r := fun {k} hk => by
      refine ⟨k / (m + 1)!, k % (m + 1)!, ?_, Nat.mod_lt _ hpos, ?_⟩
      · rw [Nat.factorial_succ (m + 1)] at hk
        exact Nat.le_of_lt_succ ((Nat.div_lt_iff_lt_mul hpos).mpr hk)
      · rw [Nat.mul_comm, Nat.div_add_mod]
    obtain ⟨c, r, hc, hr, rfl⟩ := hblock hk
    obtain ⟨c', r', hc', hr', rfl⟩ := hblock hk'
    rw [rearrangement_mul_add c hr, rearrangement_mul_add c' hr'] at h
    have hplace := congrArg (fun p : Equiv.Perm ℕ => p (m + 1)) h
    simp only [Equiv.Perm.mul_apply, rearrangement_apply_of_le hr le_rfl,
      rearrangement_apply_of_le hr' le_rfl] at hplace
    obtain rfl := rearrangement_mul_apply_inj hc hc' hplace
    rw [ih hr hr' (mul_left_cancel h)]

end MaxPlus
