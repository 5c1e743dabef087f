import MaxPlus.Proofs.Element.WellFormed
import MaxPlus.Proofs.Weight.Order

/-!
The sum of a list as its marked maximum.

The marked maximum of a list has the greatest value, and it is tangible if one tangible element
alone has that value. Add those of two lists, and the greater one forgets the marks of the other,
while a tie is attained twice: the sum is the marked maximum of both lists together. So the sum of a
list is its marked maximum, whatever ties were met and beaten on the way. A list has one marked
maximum only, so neither the order of the terms nor the way they are parted has an effect.
-/

set_option autoImplicit false
set_option relaxedAutoImplicit false

namespace MaxPlus

namespace Element

/-- No element lies above it, and one of them has its value unless it is `-∞`. It is tangible if it
is `-∞`, or if exactly one element has its value and this one is tangible. -/
structure IsMaximumOf {W : Type} [Weight W] (s : Element W) (xs : List (Element W)) : Prop where
  le : ∀ a ∈ xs, a.le s = true
  attained : s.isZero = false → ∃ a ∈ xs, (a == s) = true
  isTangible_iff : s.isTangible = true ↔
    s.isZero = true ∨ ∃ a, xs.filter (· == s) = [a] ∧ a.isTangible = true

theorem IsMaximumOf.perm {W : Type} [Weight W] {s : Element W} {xs ys : List (Element W)}
    (h : s.IsMaximumOf xs) (hperm : xs.Perm ys) : s.IsMaximumOf ys where
  le a ha := h.le a (hperm.mem_iff.mpr ha)
  attained hpos := by
    obtain ⟨a, ha, hself⟩ := h.attained hpos
    exact ⟨a, hperm.mem_iff.mp ha, hself⟩
  isTangible_iff := by
    have hfilter : ∀ a, xs.filter (· == s) = [a] ↔ ys.filter (· == s) = [a] := by
      intro a
      rw [← List.perm_singleton, ← List.perm_singleton]
      exact (hperm.filter _).congr_left _
    simp only [h.isTangible_iff, hfilter]

open Binary64

variable {a b s t : Element Float} {xs ys : List (Element Float)}

section Sums

variable (ha : Weight.supported a.value = true) (hb : Weight.supported b.value = true)
include ha hb

theorem add_eq_left_of_rank_lt (h : rank b.value < rank a.value) : a + b = a := by
  have hzero : a.isZero = false := by
    rw [← Bool.not_eq_true, isZero_iff_rank_eq_bot ha]
    exact h.ne_bot
  have hlt : Weight.lt b.value a.value = true := (lt_iff_rank_lt hb ha).mpr h
  simp [add_def, add, hzero, hlt]

theorem add_eq_right_of_rank_lt (h : rank a.value < rank b.value) : a + b = b := by
  have hzero : b.isZero = false := by
    rw [← Bool.not_eq_true, isZero_iff_rank_eq_bot hb]
    exact h.ne_bot
  have hlt : Weight.lt a.value b.value = true := (lt_iff_rank_lt ha hb).mpr h
  have hgt : Weight.lt b.value a.value = false := by
    rw [← Bool.not_eq_true, lt_iff_rank_lt hb ha]
    exact h.not_gt
  simp [add_def, add, hzero, hlt, hgt]

theorem add_of_rank_eq (h : rank a.value = rank b.value) :
    a + b = if b.isZero then b else ⟨a.value, true⟩ := by
  have hgt : Weight.lt b.value a.value = false := by
    rw [← Bool.not_eq_true, lt_iff_rank_lt hb ha]
    exact h.not_gt
  have hlt : Weight.lt a.value b.value = false := by
    rw [← Bool.not_eq_true, lt_iff_rank_lt ha hb]
    exact h.not_lt
  have hzero : a.isZero = b.isZero := isZero_eq_of_rank_eq ha hb h
  cases hbot : b.isZero with
  | true => simp [add_def, add, hzero, hbot]
  | false => simp [add_def, add, hzero, hbot, hgt, hlt]

omit ha hb in
private theorem isTangible_add_of_rank_eq (ha : a.WellFormed) (hb : b.WellFormed)
    (h : rank a.value = rank b.value) : (a + b).isTangible = true ↔ (a + b).isZero = true := by
  have hzero : a.isZero = b.isZero := isZero_eq_of_rank_eq ha.supported hb.supported h
  rw [add_of_rank_eq ha.supported hb.supported h]
  cases hbot : b.isZero with
  | true =>
    have hghost : b.ghost = false := hb.normal hbot
    simp [isTangible, hghost, hbot]
  | false =>
    have hvalue : isZero (⟨a.value, true⟩ : Element Float) = a.isZero := rfl
    simp [isTangible, hvalue, hzero, hbot]

end Sums

namespace IsMaximumOf

theorem nil : IsMaximumOf (0 : Element Float) [] where
  le := by simp
  attained := nofun
  isTangible_iff := iff_of_true rfl (Or.inl rfl)

private theorem singleton (ha : a.WellFormed) : a.IsMaximumOf [a] := by
  have hself : (a == a) = true := (beq_iff_rank_eq ha.supported ha.supported).mpr rfl
  refine ⟨?_, fun _ => ⟨a, by simp, hself⟩, ?_⟩
  · intro x hx
    obtain rfl := List.mem_singleton.mp hx
    exact (le_iff_rank_le ha.supported ha.supported).mpr le_rfl
  · have hfilter : [a].filter (· == a) = [a] := by simp [hself]
    constructor
    · intro h
      exact Or.inr ⟨a, hfilter, h⟩
    · rintro (hzero | ⟨x, hx, h⟩)
      · simp [isTangible, ha.normal hzero]
      · obtain rfl := List.singleton_inj.mp (hfilter.symm.trans hx)
        exact h

variable (h : s.IsMaximumOf xs) (hs : s.WellFormed) (hxs : ∀ a ∈ xs, a.WellFormed)
include h hs hxs

private theorem rank_le (ha : a ∈ xs) : rank a.value ≤ rank s.value :=
  (le_iff_rank_le (hxs a ha).supported hs.supported).mp (h.le a ha)

private theorem exists_rank_eq (hpos : s.isZero = false) :
    ∃ a ∈ xs, rank a.value = rank s.value := by
  obtain ⟨a, ha, hself⟩ := h.attained hpos
  exact ⟨a, ha, (beq_iff_rank_eq (hxs a ha).supported hs.supported).mp hself⟩

section Levels

variable (hb : Weight.supported b.value = true) (hrank : rank s.value = rank b.value)
include hb hrank

private theorem le_of_rank_eq (ha : a ∈ xs) : a.le b = true := by
  have hle : rank a.value ≤ rank b.value := (h.rank_le hs hxs ha).trans hrank.le
  exact (le_iff_rank_le (hxs a ha).supported hb).mpr hle

private theorem exists_beq_of_rank_eq (hpos : b.isZero = false) : ∃ a ∈ xs, (a == b) = true := by
  have hzero : s.isZero = b.isZero := isZero_eq_of_rank_eq hs.supported hb hrank
  obtain ⟨a, ha, hself⟩ := h.exists_rank_eq hs hxs (hzero.trans hpos)
  exact ⟨a, ha, (beq_iff_rank_eq (hxs a ha).supported hb).mpr (hself.trans hrank)⟩

end Levels

omit hxs in
private theorem append_of_lt (hys : ∀ b ∈ ys, b.WellFormed)
    (hlt : ∀ b ∈ ys, rank b.value < rank s.value) : s.IsMaximumOf (xs ++ ys) where
  le a ha := by
    rcases List.mem_append.mp ha with ha | ha
    · exact h.le a ha
    · exact (le_iff_rank_le (hys a ha).supported hs.supported).mpr (hlt a ha).le
  attained hpos := by
    obtain ⟨a, ha, hself⟩ := h.attained hpos
    exact ⟨a, List.mem_append_left ys ha, hself⟩
  isTangible_iff := by
    have hfilter : ys.filter (· == s) = [] := List.filter_eq_nil_iff.mpr fun b hb heq =>
      (hlt b hb).ne ((beq_iff_rank_eq (hys b hb).supported hs.supported).mp heq)
    rw [List.filter_append, hfilter, List.append_nil]
    exact h.isTangible_iff

variable (k : t.IsMaximumOf ys) (ht : t.WellFormed) (hys : ∀ b ∈ ys, b.WellFormed)
include k ht hys

private theorem append_of_rank_eq (heq : rank s.value = rank t.value) :
    (s + t).IsMaximumOf (xs ++ ys) := by
  have hsum : rank (s + t).value = rank s.value := by
    rcases value_add s t with hvalue | hvalue
    · rw [hvalue]
    · rw [hvalue, heq]
  have hsupported := (hs.add ht).supported
  have hleft := h.exists_beq_of_rank_eq hs hxs hsupported hsum.symm
  have hright := k.exists_beq_of_rank_eq ht hys hsupported (hsum.trans heq).symm
  refine ⟨?_, ?_, ?_⟩
  · intro a ha
    rcases List.mem_append.mp ha with ha | ha
    · exact h.le_of_rank_eq hs hxs hsupported hsum.symm ha
    · exact k.le_of_rank_eq ht hys hsupported (hsum.trans heq).symm ha
  · intro hpos
    obtain ⟨a, ha, hself⟩ := hleft hpos
    exact ⟨a, List.mem_append_left ys ha, hself⟩
  · rw [isTangible_add_of_rank_eq hs ht heq]
    refine ⟨Or.inl, ?_⟩
    rintro (hbot | ⟨x, hfilter, -⟩)
    · exact hbot
    by_contra hpos
    rw [Bool.not_eq_true] at hpos
    rw [List.filter_append, List.append_eq_singleton_iff] at hfilter
    rcases hfilter with ⟨hnone, -⟩ | ⟨-, hnone⟩
    · obtain ⟨a, ha, hself⟩ := hleft hpos
      exact List.filter_eq_nil_iff.mp hnone a ha hself
    · obtain ⟨b, hb, hself⟩ := hright hpos
      exact List.filter_eq_nil_iff.mp hnone b hb hself

/-- The sum of the maxima of two lists is the maximum of both. -/
private theorem append : (s + t).IsMaximumOf (xs ++ ys) := by
  rcases lt_trichotomy (rank s.value) (rank t.value) with hlt | heq | hlt
  · have hbelow : ∀ a ∈ xs, rank a.value < rank t.value :=
      fun a ha => (h.rank_le hs hxs ha).trans_lt hlt
    rw [add_eq_right_of_rank_lt hs.supported ht.supported hlt]
    exact (k.append_of_lt ht hxs hbelow).perm List.perm_append_comm
  · exact h.append_of_rank_eq hs hxs k ht hys heq
  · have hbelow : ∀ b ∈ ys, rank b.value < rank s.value :=
      fun b hb => (k.rank_le ht hys hb).trans_lt hlt
    rw [add_eq_left_of_rank_lt hs.supported ht.supported hlt]
    exact h.append_of_lt hs hys hbelow

omit k hys in
private theorem rank_le_rank (k : t.IsMaximumOf xs) : rank s.value ≤ rank t.value := by
  cases hzero : s.isZero with
  | true =>
    rw [(isZero_iff_rank_eq_bot hs.supported).mp hzero]
    exact bot_le
  | false =>
    obtain ⟨a, ha, hrank⟩ := h.exists_rank_eq hs hxs hzero
    rw [← hrank]
    exact k.rank_le ht hxs ha

omit k hys in
theorem sameAs (k : t.IsMaximumOf xs) : s.sameAs t = true := by
  have hrank : rank s.value = rank t.value :=
    (h.rank_le_rank hs hxs ht k).antisymm (k.rank_le_rank ht hxs hs h)
  have hzero := isZero_eq_of_rank_eq hs.supported ht.supported hrank
  have hfilter : xs.filter (· == s) = xs.filter (· == t) := by
    refine List.filter_congr fun a ha => ?_
    rw [Bool.eq_iff_iff, beq_def, beq_def, beq_iff_rank_eq (hxs a ha).supported hs.supported,
      beq_iff_rank_eq (hxs a ha).supported ht.supported, hrank]
  have htangible : s.isTangible = t.isTangible := by
    rw [Bool.eq_iff_iff, h.isTangible_iff, k.isTangible_iff, hzero, hfilter]
  have hghost : s.ghost = t.ghost := Bool.not_inj htangible
  have hvalue : (s.value == t.value) = true :=
    (beq_iff_rank_eq hs.supported ht.supported).mpr hrank
  simp [Element.sameAs, hvalue, hghost]

end IsMaximumOf

private theorem isMaximumOf_sum (hxs : ∀ a ∈ xs, a.WellFormed) :
    (MaxPlus.sum xs).IsMaximumOf xs := by
  induction xs using List.reverseRecOn with
  | nil => exact .nil
  | append_singleton xs a ih =>
    have hinit : ∀ b ∈ xs, b.WellFormed := fun b hb => hxs b (by simp [hb])
    have hlast : a.WellFormed := hxs a (by simp)
    have hsum : MaxPlus.sum (xs ++ [a]) = MaxPlus.sum xs + a := by simp [MaxPlus.sum]
    rw [hsum]
    exact (ih hinit).append (.sum hinit) hinit (.singleton hlast) hlast (by simpa using hlast)

/-- The sum of a list is its greatest element, tangible just where nothing ties with it and it is
no ghost. The order of the terms has no effect, and a list can be summed in two parts. -/
theorem sum_isMaximumOf (hxs : ∀ a ∈ xs, a.WellFormed) :
    (MaxPlus.sum xs).IsMaximumOf xs ∧
      (∀ ys : List (Element Float), ys.Perm xs →
        (MaxPlus.sum ys).sameAs (MaxPlus.sum xs) = true) ∧
      ∀ ys : List (Element Float), (∀ b ∈ ys, b.WellFormed) →
        (MaxPlus.sum (xs ++ ys)).sameAs (MaxPlus.sum xs + MaxPlus.sum ys) = true := by
  have hmax := isMaximumOf_sum hxs
  refine ⟨hmax, ?_, ?_⟩
  · intro ys hperm
    have hys : ∀ b ∈ ys, b.WellFormed := fun b hb => hxs b (hperm.mem_iff.mp hb)
    exact ((isMaximumOf_sum hys).perm hperm).sameAs (.sum hys) hxs (.sum hxs) hmax
  · intro ys hys
    have hboth : ∀ a ∈ xs ++ ys, a.WellFormed := List.forall_mem_append.mpr ⟨hxs, hys⟩
    have hparts := hmax.append (.sum hxs) hxs (isMaximumOf_sum hys) (.sum hys) hys
    exact (isMaximumOf_sum hboth).sameAs (.sum hboth) hboth ((WellFormed.sum hxs).add (.sum hys))
      hparts

def beatenTies : List (Element Float) :=
  [⟨1.5, false⟩, ⟨1.5, false⟩, 0, ⟨2.5, false⟩, ⟨0.5, true⟩]

def tangibleTop : Element Float :=
  ⟨2.5, false⟩

theorem sum_isMaximumOf_beatenTies :
    (∀ a ∈ beatenTies, a.WellFormed) ∧ (MaxPlus.sum beatenTies).IsMaximumOf beatenTies ∧
      (MaxPlus.sum beatenTies).sameAs tangibleTop = true ∧
      beatenTies.reverse.Perm beatenTies ∧
      (MaxPlus.sum beatenTies.reverse).sameAs (MaxPlus.sum beatenTies) = true ∧
      (MaxPlus.sum (beatenTies ++ beatenTies)).sameAs
        (MaxPlus.sum beatenTies + MaxPlus.sum beatenTies) = true ∧
      (MaxPlus.sum (beatenTies ++ beatenTies)).sameAs tangibleTop.toGhost = true := by
  have hterms : ∀ a ∈ beatenTies, a.WellFormed := by
    simp only [beatenTies, List.forall_mem_cons]
    refine ⟨?_, ?_, ?_, ?_, ?_, by simp⟩ <;> exact ⟨by decide +kernel, by decide +kernel⟩
  obtain ⟨hmax, hperm, happend⟩ := sum_isMaximumOf hterms
  exact ⟨hterms, hmax, by decide +kernel, List.reverse_perm _, hperm _ (List.reverse_perm _),
    happend _ hterms, by decide +kernel⟩

end Element

end MaxPlus
