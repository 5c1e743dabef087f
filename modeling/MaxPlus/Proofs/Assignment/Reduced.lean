import Mathlib

/-!
Reduced tables and their greatest subsolutions.

A table of weights is reduced if its diagonal is `0` and every permutation but the identity has a
negative sum. A subsolution gives each place at most its source value, or at most what an edge to
another place leaves of that place's value. The greatest subsolution sums the edges of a
permutation that leads from the place to a source: edges that never reach a source would close a
cycle, and a cycle is a permutation without a negative sum.
-/

set_option autoImplicit false
set_option relaxedAutoImplicit false

namespace MaxPlus

/-- Weights of the edges between places, where only the identity is an optimal permutation. -/
structure ReducedTable (ι : Type) [Fintype ι] [DecidableEq ι] where
  weight : ι → ι → WithBot ℤ
  weight_self : ∀ i, weight i i = 0
  sum_lt : ∀ π : Equiv.Perm ι, π ≠ 1 → ∑ i, weight i (π i) < 0

namespace ReducedTable

variable {ι : Type} [Fintype ι] [DecidableEq ι] (table : ReducedTable ι)

def detour (π : Equiv.Perm ι) (t : ι) : WithBot ℤ :=
  ∑ r ∈ Finset.univ.erase t, table.weight r (π r)

private theorem detour_one (t : ι) : table.detour 1 t = 0 :=
  Finset.sum_eq_zero fun r _ => table.weight_self r

private theorem detour_of_fixed {π : Equiv.Perm ι} {t : ι} (h : π t = t) :
    table.detour π t = ∑ r, table.weight r (π r) := by
  rw [detour, ← Finset.add_sum_erase _ _ (Finset.mem_univ t), h, weight_self, zero_add]

private theorem detour_nonpos_of_fixed {π : Equiv.Perm ι} {t : ι} (h : π t = t) :
    table.detour π t ≤ 0 := by
  by_cases hπ : π = 1
  · rw [hπ, detour_one]
  · rw [detour_of_fixed table h]
    exact (table.sum_lt π hπ).le

private theorem detour_mul_swap {π : Equiv.Perm ι} {i t : ι} (hfix : π i = i) (hne : i ≠ t) :
    table.detour (π * Equiv.swap i t) t = table.weight i (π t) + table.detour π t := by
  have hmem : i ∈ Finset.univ.erase t := Finset.mem_erase.mpr ⟨hne, Finset.mem_univ i⟩
  rw [detour, detour, ← Finset.add_sum_erase _ _ hmem, ← Finset.add_sum_erase _ _ hmem, hfix,
    weight_self, zero_add, Equiv.Perm.mul_apply, Equiv.swap_apply_left]
  congr 1
  refine Finset.sum_congr rfl ?_
  intro r hr
  have hri : r ≠ i := Finset.ne_of_mem_erase hr
  have hrt : r ≠ t := Finset.ne_of_mem_erase (Finset.mem_of_mem_erase hr)
  rw [Equiv.Perm.mul_apply, Equiv.swap_apply_of_ne_of_ne hri hrt]

/-- The greatest value that a permutation leads from a source to `i`. -/
def potential (source : ι → WithBot ℤ) (i : ι) : WithBot ℤ :=
  Finset.univ.sup fun t =>
    (Finset.univ.filter fun π : Equiv.Perm ι => π t = i).sup fun π => table.detour π t + source t

variable {table} {source y : ι → WithBot ℤ}

theorem le_potential {i t : ι} {π : Equiv.Perm ι} (h : π t = i) :
    table.detour π t + source t ≤ table.potential source i := by
  have hmem : π ∈ Finset.univ.filter fun π : Equiv.Perm ι => π t = i := by simpa using h
  calc table.detour π t + source t
      ≤ (Finset.univ.filter fun π : Equiv.Perm ι => π t = i).sup
          fun π => table.detour π t + source t :=
        Finset.le_sup (f := fun π => table.detour π t + source t) hmem
    _ ≤ table.potential source i :=
        Finset.le_sup (f := fun t => (Finset.univ.filter fun π : Equiv.Perm ι => π t = i).sup
          fun π => table.detour π t + source t) (Finset.mem_univ t)

private theorem potential_le {i : ι} {bound : WithBot ℤ}
    (h : ∀ t (π : Equiv.Perm ι), π t = i → table.detour π t + source t ≤ bound) :
    table.potential source i ≤ bound := by
  refine Finset.sup_le fun t _ => Finset.sup_le fun π hπ => h t π ?_
  simpa using hπ

theorem source_le_potential (i : ι) : source i ≤ table.potential source i := by
  have h : table.detour 1 i + source i ≤ table.potential source i :=
    le_potential (Equiv.Perm.one_apply i)
  rwa [detour_one, zero_add] at h

/-- Each place has at most its source value, or at most what an edge leaves of another value. -/
def Subsolution (table : ReducedTable ι) (source y : ι → WithBot ℤ) : Prop :=
  ∀ i, y i ≤ source i ∨ ∃ j, j ≠ i ∧ y i ≤ table.weight i j + y j

theorem potential_subsolution : table.Subsolution source (table.potential source) := by
  intro i
  by_contra hnot
  rw [not_or, not_le] at hnot
  obtain ⟨hsource, hedge⟩ := hnot
  have hbound : table.potential source i ≤ max (source i)
      ((Finset.univ.erase i).sup fun j => table.weight i j + table.potential source j) := by
    refine potential_le ?_
    intro t π hπ
    by_cases hti : i = t
    · subst hti
      calc table.detour π i + source i ≤ 0 + source i := by
            gcongr
            exact table.detour_nonpos_of_fixed hπ
        _ = source i := zero_add _
        _ ≤ _ := le_max_left _ _
    · -- undo the step from `i` to the place `j` that comes next
      have hji : π i ≠ i := fun h => hti (π.injective (h.trans hπ.symm))
      have hfix : (π * Equiv.swap i t) i = i := by
        rw [Equiv.Perm.mul_apply, Equiv.swap_apply_left, hπ]
      have hnext : (π * Equiv.swap i t) t = π i := by
        rw [Equiv.Perm.mul_apply, Equiv.swap_apply_right]
      have hdetour : table.detour π t =
          table.weight i (π i) + table.detour (π * Equiv.swap i t) t := by
        rw [← hnext, ← table.detour_mul_swap hfix hti, mul_assoc, Equiv.swap_mul_self, mul_one]
      calc table.detour π t + source t
          = table.weight i (π i) + (table.detour (π * Equiv.swap i t) t + source t) := by
            rw [hdetour, add_assoc]
        _ ≤ table.weight i (π i) + table.potential source (π i) := by
            gcongr
            exact le_potential hnext
        _ ≤ (Finset.univ.erase i).sup fun j => table.weight i j + table.potential source j :=
            Finset.le_sup (f := fun j => table.weight i j + table.potential source j)
              (Finset.mem_erase.mpr ⟨hji, Finset.mem_univ _⟩)
        _ ≤ _ := le_max_right _ _
  rcases le_max_iff.mp hbound with hle | hle
  · exact absurd hle hsource.not_ge
  · rw [Finset.le_sup_iff (bot_le.trans_lt hsource)] at hle
    obtain ⟨j, hj, hle⟩ := hle
    exact hedge ⟨j, Finset.ne_of_mem_erase hj, hle⟩

variable (table) in
private theorem eq_one_of_le {π : Equiv.Perm ι} {v : ι → ℤ}
    (h : ∀ r, (v r : WithBot ℤ) ≤ table.weight r (π r) + v (π r)) : π = 1 := by
  by_contra hπ
  have hneg := table.sum_lt π hπ
  have hsum : ((∑ r, v r : ℤ) : WithBot ℤ) ≤
      ∑ r, table.weight r (π r) + ((∑ r, v r : ℤ) : WithBot ℤ) := by
    calc ((∑ r, v r : ℤ) : WithBot ℤ) = ∑ r, (v r : WithBot ℤ) := WithBot.coe_sum _ _
      _ ≤ ∑ r, (table.weight r (π r) + v (π r)) := Finset.sum_le_sum fun r _ => h r
      _ = ∑ r, table.weight r (π r) + ∑ r, (v (π r) : WithBot ℤ) := Finset.sum_add_distrib
      _ = ∑ r, table.weight r (π r) + ((∑ r, v r : ℤ) : WithBot ℤ) := by
        rw [Equiv.sum_comp π fun r => (v r : WithBot ℤ), WithBot.coe_sum]
  cases hw : ∑ r, table.weight r (π r) with
  | bot =>
    rw [hw, WithBot.bot_add] at hsum
    exact absurd hsum (WithBot.bot_lt_coe _).not_ge
  | coe w =>
    rw [hw] at hsum hneg
    norm_cast at hsum hneg
    omega

section Following

variable {next : ι → ι} {good : ι → Prop}

private theorem iterate_ne_bot
    (hstep : ∀ r, ¬ good r → y r ≤ table.weight r (next r) + y (next r)) {i : ι}
    (hi : y i ≠ ⊥) (hbad : ∀ m, ¬ good (next^[m] i)) (m : ℕ) : y (next^[m] i) ≠ ⊥ := by
  induction m with
  | zero => exact hi
  | succ m ih =>
    intro hbot
    rw [Function.iterate_succ_apply'] at hbot
    have hle := hstep _ (hbad m)
    rw [hbot, WithBot.add_bot] at hle
    exact ih (le_bot_iff.mp hle)

omit [DecidableEq ι] in
private theorem exists_perm_of_periodic {p : ι} {period : ℕ} (hpos : 0 < period)
    (hp : Function.IsPeriodicPt next period p) :
    ∃ π : Equiv.Perm ι, (∀ m, π (next^[m] p) = next^[m + 1] p) ∧
      ∀ r, (∀ m, next^[m] p ≠ r) → π r = r := by
  classical
  let orbit : Set ι := Set.range fun m => next^[m] p
  have hmaps : Set.MapsTo next orbit orbit := by
    rintro _ ⟨m, rfl⟩
    exact ⟨m + 1, Function.iterate_succ_apply' next m p⟩
  have hinj : Set.InjOn next orbit := by
    rintro _ ⟨l, rfl⟩ _ ⟨m, rfl⟩ heq
    exact (hp.apply_iterate l).eq_of_apply_eq_same (hp.apply_iterate m) hpos heq
  have hbij : Set.BijOn next orbit orbit :=
    ((Set.toFinite orbit).injOn_iff_bijOn_of_mapsTo hmaps).mp hinj
  refine ⟨Equiv.Perm.ofSubtype (hbij.equiv next), ?_, ?_⟩
  · intro m
    rw [Function.iterate_succ_apply']
    exact Equiv.Perm.ofSubtype_apply_of_mem (hbij.equiv next) ⟨m, rfl⟩
  · intro r hr
    refine Equiv.Perm.ofSubtype_apply_of_not_mem (hbij.equiv next) ?_
    rintro ⟨m, hm⟩
    exact hr m hm

omit [DecidableEq ι] in
private theorem exists_periodic_iterate (next : ι → ι) (i : ι) :
    ∃ m period, 0 < period ∧ Function.IsPeriodicPt next period (next^[m] i) := by
  obtain ⟨first, again, hne, heq⟩ :=
    Finite.exists_ne_map_eq_of_infinite fun m => next^[m] i
  wlog hlt : first < again generalizing first again
  · exact this again first hne.symm heq.symm (by omega)
  refine ⟨first, again - first, by omega, ?_⟩
  show next^[again - first] (next^[first] i) = next^[first] i
  rw [← Function.iterate_add_apply, Nat.sub_add_cancel hlt.le]
  exact heq.symm

/-- Edges that do not lower a finite value close no cycle. -/
private theorem next_eq_of_periodic {p : ι} {period : ℕ} (hpos : 0 < period)
    (hp : Function.IsPeriodicPt next period p) (hstep : ∀ m, y (next^[m] p) ≤
      table.weight (next^[m] p) (next^[m + 1] p) + y (next^[m + 1] p))
    (hfinite : ∀ m, y (next^[m] p) ≠ ⊥) : next p = p := by
  obtain ⟨π, horbit, hrest⟩ := exists_perm_of_periodic hpos hp
  have hvalue : ∀ m, (((y (next^[m] p)).unbotD 0 : ℤ) : WithBot ℤ) = y (next^[m] p) := by
    intro m
    obtain ⟨v, hv⟩ := WithBot.ne_bot_iff_exists.mp (hfinite m)
    rw [← hv, WithBot.unbotD_coe]
  have hone : π = 1 := by
    refine table.eq_one_of_le (v := fun r => (y r).unbotD 0) ?_
    intro r
    by_cases hr : ∃ m, next^[m] p = r
    · obtain ⟨m, rfl⟩ := hr
      rw [horbit, hvalue, hvalue]
      exact hstep m
    · rw [hrest r (not_exists.mp hr), table.weight_self, zero_add]
  have hp0 := horbit 0
  rw [hone] at hp0
  exact hp0.symm

private theorem exists_good (hstep : ∀ r, ¬ good r → y r ≤ table.weight r (next r) + y (next r))
    (hmove : ∀ r, ¬ good r → next r ≠ r) {i : ι} (hi : y i ≠ ⊥) : ∃ m, good (next^[m] i) := by
  by_contra hnone
  have hbad : ∀ m, ¬ good (next^[m] i) := not_exists.mp hnone
  obtain ⟨first, period, hpos, hp⟩ := exists_periodic_iterate next i
  have hshift : ∀ m, next^[m] (next^[first] i) = next^[m + first] i := fun m =>
    (Function.iterate_add_apply next m first i).symm
  have hclosed : next (next^[first] i) = next^[first] i := by
    have hedge : ∀ m, y (next^[m] (next^[first] i)) ≤ table.weight (next^[m] (next^[first] i))
        (next^[m + 1] (next^[first] i)) + y (next^[m + 1] (next^[first] i)) := by
      intro m
      rw [hshift, hshift, Nat.succ_add, Function.iterate_succ_apply']
      exact hstep _ (hbad _)
    refine next_eq_of_periodic hpos hp hedge ?_
    intro m
    rw [hshift]
    exact iterate_ne_bot hstep hi hbad _
  exact hmove _ (hbad first) hclosed

/-- The way from `i` to the first good place, as a permutation that moves no place off the way. -/
private theorem exists_detour (hstep : ∀ r, ¬ good r → y r ≤ table.weight r (next r) + y (next r))
    (m : ℕ) {i : ι} (hgood : good (next^[m] i)) (hbad : ∀ l < m, ¬ good (next^[l] i)) :
    ∃ π : Equiv.Perm ι, π (next^[m] i) = i ∧ (∀ r, (∀ l ≤ m, next^[l] i ≠ r) → π r = r) ∧
      y i ≤ table.detour π (next^[m] i) + y (next^[m] i) := by
  induction m generalizing i with
  | zero =>
    refine ⟨1, rfl, fun _ _ => rfl, ?_⟩
    rw [detour_one, zero_add, Function.iterate_zero, id]
  | succ m ih =>
    rw [Function.iterate_succ_apply] at hgood ⊢
    obtain ⟨π, hstart, hrest, hle⟩ := ih hgood fun l hl => hbad (l + 1) (by omega)
    have hi : ¬ good i := hbad 0 (by omega)
    have hit : i ≠ next^[m] (next i) := fun h => hi (h ▸ hgood)
    have hfix : π i = i := by
      -- were `i` on the rest of the way, a good place would come before the first one
      apply hrest i
      intro l hl heq
      apply hbad (m - l) (by omega)
      rw [← heq, ← Function.iterate_add_apply, Nat.sub_add_cancel hl]
      exact hgood
    refine ⟨π * Equiv.swap i (next^[m] (next i)), ?_, ?_, ?_⟩
    · rw [Equiv.Perm.mul_apply, Equiv.swap_apply_right, hfix]
    · intro r hr
      have hri : r ≠ i := (hr 0 (by omega)).symm
      have hrt : r ≠ next^[m] (next i) := (hr (m + 1) le_rfl).symm
      rw [Equiv.Perm.mul_apply, Equiv.swap_apply_of_ne_of_ne hri hrt]
      exact hrest r fun l hl => hr (l + 1) (by omega)
    · calc y i ≤ table.weight i (next i) + y (next i) := hstep i hi
        _ ≤ table.weight i (next i) +
            (table.detour π (next^[m] (next i)) + y (next^[m] (next i))) := by gcongr
        _ = _ := by rw [table.detour_mul_swap hfix hit, hstart, add_assoc]

end Following

/-- The potential is the greatest subsolution. -/
theorem Subsolution.le_potential (hy : table.Subsolution source y) (i : ι) :
    y i ≤ table.potential source i := by
  classical
  by_cases hi : y i = ⊥
  · rw [hi]
    exact bot_le
  have hedge : ∀ r, ∃ j, ¬ y r ≤ source r → j ≠ r ∧ y r ≤ table.weight r j + y j := by
    intro r
    by_cases hr : y r ≤ source r
    · exact ⟨r, fun h => absurd hr h⟩
    · obtain ⟨j, hj⟩ := (hy r).resolve_left hr
      exact ⟨j, fun _ => hj⟩
  choose next hnext using hedge
  have hstep : ∀ r, ¬ y r ≤ source r → y r ≤ table.weight r (next r) + y (next r) :=
    fun r hr => (hnext r hr).2
  have hmove : ∀ r, ¬ y r ≤ source r → next r ≠ r := fun r hr => (hnext r hr).1
  have hreach : ∃ m, y (next^[m] i) ≤ source (next^[m] i) := exists_good hstep hmove hi
  have hfirst : y (next^[Nat.find hreach] i) ≤ source (next^[Nat.find hreach] i) :=
    Nat.find_spec hreach
  obtain ⟨π, hstart, -, hle⟩ :=
    exists_detour hstep (Nat.find hreach) hfirst fun l hl => Nat.find_min hreach hl
  calc y i ≤ table.detour π _ + y (next^[Nat.find hreach] i) := hle
    _ ≤ table.detour π _ + source (next^[Nat.find hreach] i) := by gcongr
    _ ≤ table.potential source i := ReducedTable.le_potential hstart

theorem weight_add_potential_le (i j : ι) :
    table.weight i j + table.potential source j ≤ table.potential source i := by
  by_cases hji : j = i
  · rw [hji, table.weight_self, zero_add]
  by_contra hnot
  -- the potential could be raised at `i` and would stay a subsolution
  let raised : ι → WithBot ℤ :=
    Function.update (table.potential source) i (table.weight i j + table.potential source j)
  have hself : raised i = table.weight i j + table.potential source j := Function.update_self ..
  have hother : ∀ r, r ≠ i → raised r = table.potential source r := fun r hr =>
    Function.update_of_ne hr ..
  have hraised : ∀ r, table.potential source r ≤ raised r := by
    intro r
    by_cases hri : r = i
    · rw [hri, hself]
      exact (not_le.mp hnot).le
    · rw [hother r hri]
  have hsub : table.Subsolution source raised := by
    intro r
    by_cases hri : r = i
    · refine Or.inr ⟨j, hri ▸ hji, ?_⟩
      rw [hri, hself, hother j hji]
    · rw [hother r hri]
      refine (potential_subsolution r).imp_right ?_
      rintro ⟨t, htr, hle⟩
      refine ⟨t, htr, hle.trans ?_⟩
      gcongr
      exact hraised t
  have hle := hsub.le_potential i
  rw [hself] at hle
  exact hnot hle

end ReducedTable

end MaxPlus
