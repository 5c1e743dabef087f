import MaxPlus.Proofs.Permutation.Exchange
import MaxPlus.Permutation.Walk

/-!
The walk goes through every permutation once.

After `k + 1` steps the counters are the digits of `k` in the factorial base and the walk stands at
the rearrangement of number `k`. A step adds one to the number, until all digits are full. The
rearrangements below `n!` are as many as there are permutations and no two are equal, so they are
all of them.
-/

set_option autoImplicit false
set_option relaxedAutoImplicit false

namespace MaxPlus

open scoped Nat

universe u

variable {n : ℕ}

/-- The rearrangement of number `k` on the first `n` places. -/
noncomputable def permutationAt (k : Fin n !) : Equiv.Perm (Fin n) :=
  Equiv.ofBijective (fun i => ⟨rearrangement k i, rearrangement_lt k.isLt i.isLt⟩)
    (Finite.injective_iff_bijective.mp fun _ _ h =>
      Fin.ext ((rearrangement k).injective (congrArg Fin.val h)))

@[simp] theorem val_permutationAt (k : Fin n !) (i : Fin n) :
    (permutationAt k i).val = rearrangement k i := rfl

private theorem permutationAt_injective : Function.Injective (permutationAt (n := n)) := by
  intro k k' h
  have hperm : rearrangement k = rearrangement k' := by
    ext i
    rcases lt_or_ge i n with hi | hi
    · simpa using congrArg (fun σ : Equiv.Perm (Fin n) => (σ ⟨i, hi⟩).val) h
    · rw [rearrangement_apply_of_le k.isLt hi, rearrangement_apply_of_le k'.isLt hi]
  have hle : n ! ≤ (n + 1)! := Nat.factorial_le (Nat.le_succ n)
  exact Fin.ext (rearrangement_inj (k.isLt.trans_le hle) (k'.isLt.trans_le hle) hperm)

theorem permutationAt_bijective : Function.Bijective (permutationAt (n := n)) := by
  rw [Fintype.bijective_iff_injective_and_card]
  exact ⟨permutationAt_injective, by simp [Fintype.card_perm]⟩

def arrangementOf (σ : Equiv.Perm (Fin n)) : Arrangement n :=
  Vector.ofFn σ

@[simp] theorem get_arrangementOf (σ : Equiv.Perm (Fin n)) (i : Fin n) :
    (arrangementOf σ).get i = σ i := by
  simp [arrangementOf, Vector.get_eq_getElem]

private theorem arrangementOf_injective : Function.Injective (arrangementOf (n := n)) := by
  intro σ τ h
  ext i
  simpa [arrangementOf] using congrArg (fun p : Arrangement n => (p.get i).val) h

namespace Walk

section Steps

variable (w : Walk n)

theorem next_of_started (h : w.started = true) : w.next = w.climb := by
  rw [next, if_pos h]

private theorem climb_of_le (h : n ≤ w.level) : w.climb = (none, w) := by
  rw [climb, dif_neg (by omega)]

private theorem climb_of_full (h : w.level < n) (hc : w.level ≤ w.counters[w.level]) :
    w.climb =
      climb { w with counters := w.counters.set w.level 0 h, level := w.level + 1 } := by
  rw [climb, dif_pos h, dif_neg (by omega)]

def exchangedWith (p : Fin n) (h : w.level < n) : Arrangement n :=
  w.current.swap p w.level p.isLt h

def exchanged (h : w.level < n) (hc : w.counters[w.level] < w.level) : Arrangement n :=
  w.exchangedWith (w.partner h hc) h

private theorem climb_of_lt (h : w.level < n) (hc : w.counters[w.level] < w.level) :
    w.climb =
      (some (w.exchanged h hc),
        { w with
          current := w.exchanged h hc
          counters := w.counters.set w.level (w.counters[w.level] + 1) h
          level := 1 }) := by
  rw [climb, dif_pos h, dif_pos hc]
  rfl

private theorem get_exchanged (h : w.level < n) (hc : w.counters[w.level] < w.level) (i : Fin n) :
    (w.exchanged h hc).get i =
      w.current.get ⟨exchange w.level w.counters[w.level] i, exchange_lt h hc i.isLt⟩ := by
  have hpartner : (w.partner h hc).val =
      if w.level % 2 = 0 then 0 else w.counters[w.level] := by
    rw [partner]
    split_ifs <;> rfl
  simp only [exchanged, exchangedWith, Vector.get_eq_getElem, Vector.getElem_swap, exchange,
    Equiv.swap_apply_def, ← hpartner]
  split_ifs <;> simp_all

end Steps

noncomputable def climbing (k : Fin n !) (level : ℕ) : Walk n where
  current := arrangementOf (permutationAt k)
  counters := Vector.ofFn fun i => if i < level then 0 else factorialDigit k i
  level := level
  started := true

noncomputable def standing (k : Fin n !) : Walk n :=
  climbing k 1

def lastNumber (n : ℕ) : Fin n ! :=
  ⟨(n !) - 1, Nat.sub_lt (Nat.factorial_pos n) Nat.one_pos⟩

noncomputable def finished (n : ℕ) : Walk n :=
  climbing (lastNumber n) (max n 1)

private theorem climb_climbing_of_dvd {k : Fin n !} {level : ℕ} (h : level < n)
    (hd : (level + 1)! ∣ k.val + 1) :
    (climbing k level).climb = (climbing k (level + 1)).climb := by
  have hfull := ((factorial_succ_dvd_succ_iff k level).mp hd).2
  rw [climb_of_full (climbing k level) h (by simp [climbing, hfull])]
  congr 1
  simp only [climbing, Walk.mk.injEq, true_and, and_true]
  apply Vector.ext
  intro i hi
  rw [Vector.getElem_set]
  simp only [Vector.getElem_ofFn]
  split_ifs <;> first | rfl | omega

private theorem climb_climbing {k : Fin n !} {level level' : ℕ} (hle : level ≤ level')
    (hn : level' ≤ n) (hd : level' ! ∣ k.val + 1) :
    (climbing k level).climb = (climbing k level').climb := by
  induction level', hle using Nat.le_induction with
  | base => rfl
  | succ level' _ ih =>
    rw [ih (by omega) ((Nat.factorial_dvd_factorial (Nat.le_succ _)).trans hd)]
    exact climb_climbing_of_dvd hn hd

private theorem climb_climbing_carryLevel {k : Fin n !} {level : ℕ} (hcarry : carryLevel k = level)
    (hlevel : level < n) (h : k.val + 1 < n !) : (climbing k level).climb =
      (some (arrangementOf (permutationAt ⟨k.val + 1, h⟩)), standing ⟨k.val + 1, h⟩) := by
  have hcounter : (climbing k level).counters[level] = factorialDigit k level := by
    simp [climbing]
  have hlt : (climbing k level).counters[level] < level := by
    rw [hcounter, ← hcarry]
    exact factorialDigit_carryLevel_lt k
  have hcurrent : (climbing k level).exchanged hlevel hlt =
      arrangementOf (permutationAt ⟨k.val + 1, h⟩) := by
    apply Vector.ext
    intro i hi
    have hget := get_exchanged (climbing k level) hlevel hlt ⟨i, hi⟩
    apply Fin.ext
    calc ((climbing k level).exchanged hlevel hlt)[i].val
        = rearrangement k (exchange level (factorialDigit k level) i) := by
          rw [← hcounter]
          exact congrArg Fin.val (hget.trans (get_arrangementOf _ _))
      _ = (arrangementOf (permutationAt ⟨k.val + 1, h⟩))[i].val := by
          simp [arrangementOf, rearrangement_succ, hcarry]
  have hcounters : (climbing k level).counters.set level
      ((climbing k level).counters[level] + 1) hlevel =
      (standing ⟨k.val + 1, h⟩).counters := by
    apply Vector.ext
    intro i hi
    have hpos : 0 < level := hcarry ▸ carryLevel_pos k
    rw [Vector.getElem_set, hcounter]
    simp only [climbing, standing, Vector.getElem_ofFn, factorialDigit_succ, hcarry]
    rcases eq_or_ne level i with rfl | hne
    · simp [hpos.ne']
    · split_ifs <;> omega
  rw [climb_of_lt (climbing k level) hlevel hlt]
  refine Prod.ext (congrArg some hcurrent) ?_
  exact congrArg₂ (fun p c => Walk.mk p c 1 true) hcurrent hcounters

theorem next_standing_of_lt {k : Fin n !} (h : k.val + 1 < n !) :
    (standing k).next =
      (some (arrangementOf (permutationAt ⟨k.val + 1, h⟩)), standing ⟨k.val + 1, h⟩) := by
  have hlevel : carryLevel k < n := carryLevel_lt h
  have hclimb : (standing k).climb = (climbing k (carryLevel k)).climb :=
    climb_climbing (carryLevel_pos k) hlevel.le (dvd_of_le_carryLevel le_rfl)
  rw [next_of_started _ rfl, hclimb]
  exact climb_climbing_carryLevel rfl hlevel h

theorem next_standing_lastNumber (n : ℕ) : (standing (lastNumber n)).next = (none, finished n) := by
  rw [next_of_started _ rfl, finished]
  rcases Nat.eq_zero_or_pos n with rfl | hpos
  · exact climb_of_le _ (Nat.zero_le _)
  · have hdvd : n ! ∣ (lastNumber n).val + 1 := by
      rw [lastNumber, Nat.sub_add_cancel (Nat.factorial_pos n)]
    rw [max_eq_left hpos, standing, climb_climbing hpos le_rfl hdvd]
    exact climb_of_le _ le_rfl

theorem next_finished (n : ℕ) : (finished n).next = (none, finished n) := by
  rw [next_of_started _ rfl]
  exact climb_of_le _ (le_max_left n 1)

theorem permutationAt_zero (h : 0 < n !) : permutationAt ⟨0, h⟩ = 1 := by
  ext i
  simp

theorem next_start (n : ℕ) :
    (start n).next = (some (arrangementOf 1), standing ⟨0, Nat.factorial_pos n⟩) := by
  have hcounters : Vector.replicate n 0 = (standing ⟨0, Nat.factorial_pos n⟩).counters := by
    apply Vector.ext
    intro i hi
    simp [standing, climbing]
  have hcurrent : arrangementOf 1 = (standing ⟨0, Nat.factorial_pos n⟩).current := by
    rw [standing, climbing, permutationAt_zero]
  refine Prod.ext rfl ?_
  exact congrArg₂ (fun p c => Walk.mk p c 1 true) hcurrent hcounters

def after (w : Walk n) (k : ℕ) : Walk n :=
  (fun v : Walk n => v.next.2)^[k] w

def yield (w : Walk n) (k : ℕ) : Option (Arrangement n) :=
  (w.after k).next.1

private theorem after_succ (w : Walk n) (k : ℕ) : w.after (k + 1) = (w.after k).next.2 :=
  Function.iterate_succ_apply' _ k w

theorem after_next (w : Walk n) (k : ℕ) : w.next.2.after k = w.after (k + 1) :=
  (Function.iterate_succ_apply _ k w).symm

theorem yield_next (w : Walk n) (k : ℕ) : w.next.2.yield k = w.yield (k + 1) := by
  rw [yield, after_next, yield]

private theorem after_start_succ (k : Fin n !) : (start n).after (k.val + 1) = standing k := by
  obtain ⟨k, hk⟩ := k
  induction k with
  | zero => rw [after_succ, after, Function.iterate_zero, id, next_start]
  | succ k ih => rw [after_succ, ih (by omega), next_standing_of_lt hk]

theorem after_start_of_lt {k : ℕ} (hk : n ! < k) : (start n).after k = finished n := by
  induction k, hk using Nat.le_induction with
  | base =>
    have hlast := after_start_succ (lastNumber n)
    rw [lastNumber, Nat.sub_add_cancel (Nat.factorial_pos n)] at hlast
    rw [after_succ, hlast]
    exact congrArg Prod.snd (next_standing_lastNumber n)
  | succ k _ ih => rw [after_succ, ih, next_finished]

theorem yield_start (k : Fin n !) :
    (start n).yield k = some (arrangementOf (permutationAt k)) := by
  obtain ⟨k, hk⟩ := k
  cases k with
  | zero => rw [yield, after, Function.iterate_zero, id, next_start, permutationAt_zero]
  | succ k => rw [yield, after_start_succ ⟨k, by omega⟩, next_standing_of_lt hk]

theorem yield_start_of_le {k : ℕ} (hk : n ! ≤ k) : (start n).yield k = none := by
  rcases hk.eq_or_lt with rfl | hlt
  · have hlast := after_start_succ (lastNumber n)
    rw [lastNumber, Nat.sub_add_cancel (Nat.factorial_pos n)] at hlast
    rw [yield, hlast]
    exact congrArg Prod.fst (next_standing_lastNumber n)
  · rw [yield, after_start_of_lt hlt, next_finished]

/-- Repeated calls to `next` give every permutation once, the identity first, and nothing after
call number `n! - 1`. -/
structure Enumerates (w : Walk n) : Prop where
  first : w.yield 0 = some (arrangementOf 1)
  permutation : ∀ k < n !, ∃ σ : Equiv.Perm (Fin n), w.yield k = some (arrangementOf σ)
  once : ∀ σ : Equiv.Perm (Fin n), ∃! k, w.yield k = some (arrangementOf σ)
  exhausted : ∀ k, n ! ≤ k → w.yield k = none

private theorem start_enumerates (n : ℕ) : (start n).Enumerates where
  first := by rw [yield_start ⟨0, Nat.factorial_pos n⟩, permutationAt_zero]
  permutation k hk := ⟨permutationAt ⟨k, hk⟩, yield_start ⟨k, hk⟩⟩
  once σ := by
    obtain ⟨k, hk, hunique⟩ := permutationAt_bijective.existsUnique σ
    refine ⟨k, hk ▸ yield_start k, fun j (hj : (start n).yield j = _) => ?_⟩
    have hlt : j < n ! := by
      by_contra h
      simp [yield_start_of_le (not_lt.mp h)] at hj
    have hsome := (yield_start ⟨j, hlt⟩).symm.trans hj
    exact congrArg Fin.val (hunique ⟨j, hlt⟩ (arrangementOf_injective (Option.some.inj hsome)))
  exhausted k hk := yield_start_of_le hk

/-- A walk at its start and a walk that was reset at any point enumerate the permutations, and
their number is the factorial wherever it fits a word. -/
theorem enumerates_of_fresh (n : ℕ) :
    (start n).Enumerates ∧ (∀ w : Walk n, w.reset.Enumerates) ∧
      factorial? n = if n ! ≤ UInt64.size - 1 then some n ! else none := by
  refine ⟨start_enumerates n, fun w => start_enumerates n, ?_⟩
  rw [factorial?_eq]
  congr 1
  exact propext (Nat.lt_iff_le_pred (by decide))

end Walk

end MaxPlus
