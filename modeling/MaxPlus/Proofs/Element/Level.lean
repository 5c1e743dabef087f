import MaxPlus.Element.Relation
import MaxPlus.Proofs.Element.Semiring

/-!
Levels and ghosts of the normal elements.

The level of an element is its value, with `-∞` as the bottom. A sum has the greatest level among
its terms and a product the sum of the levels. An element is ghostly if adding it to itself does
not change it: it is a ghost or `-∞`. A sum that is not ghostly has one term above all others and
is that term.
-/

set_option autoImplicit false
set_option relaxedAutoImplicit false

namespace MaxPlus

def Exact.level : Exact → WithBot ℤ
  | bot => ⊥
  | int k => k

theorem Exact.level_int_add (k : ℤ) (v : Exact) : (int k + v).level = k + v.level := by
  cases v with
  | bot => rfl
  | int l => exact WithBot.coe_add k l

theorem Element.isZero_iff_level_eq_bot {a : Element Exact} :
    a.isZero = true ↔ a.value.level = ⊥ := by
  obtain ⟨v, ghost⟩ := a
  cases v with
  | bot => exact iff_of_true rfl rfl
  | int k => exact iff_of_false Bool.false_ne_true WithBot.coe_ne_bot

namespace NormalElement

def level (a : NormalElement) : WithBot ℤ :=
  match a.1.value with
  | .bot => ⊥
  | .int k => k

@[simp] theorem level_zero : level 0 = ⊥ := rfl

@[simp] theorem level_finite (k : ℤ) (ghost : Bool) : level (finite k ghost) = k := rfl

theorem level_eq_bot {a : NormalElement} : level a = ⊥ ↔ a = 0 := by
  rcases a.eq_zero_or_finite with rfl | ⟨k, g, rfl⟩
  · simp
  · simp only [level_finite, WithBot.coe_ne_bot, false_iff]
    intro h
    exact absurd (congrArg level h) (WithBot.coe_ne_bot)

theorem level_value (a : NormalElement) : a.1.value.level = level a := by
  rcases a.eq_zero_or_finite with rfl | ⟨k, g, rfl⟩ <;> rfl

theorem isZero_iff {a : NormalElement} : a.1.isZero = true ↔ level a = ⊥ := by
  rw [Element.isZero_iff_level_eq_bot, level_value]

private theorem level_add (a b : NormalElement) : level (a + b) = max (level a) (level b) := by
  rcases a.eq_zero_or_finite with rfl | ⟨k, g, rfl⟩
  · simp
  rcases b.eq_zero_or_finite with rfl | ⟨l, h, rfl⟩
  · simp
  rw [finite_add_finite, level_finite, level_finite, ← WithBot.coe_max]
  split_ifs
  · rw [level_finite, max_eq_left (by omega)]
  · rw [level_finite, max_eq_right (by omega)]
  · rw [level_finite, max_eq_left (by omega)]

theorem level_mul (a b : NormalElement) : level (a * b) = level a + level b := by
  rcases a.eq_zero_or_finite with rfl | ⟨k, g, rfl⟩
  · simp
  rcases b.eq_zero_or_finite with rfl | ⟨l, h, rfl⟩
  · simp
  rw [finite_mul_finite, level_finite, level_finite, level_finite, WithBot.coe_add]

section Families

variable {ι : Type} (s : Finset ι) (f : ι → NormalElement)

theorem level_sum : level (∑ i ∈ s, f i) = s.sup fun i => level (f i) := by
  classical
  induction s using Finset.induction_on with
  | empty => simp
  | insert a s ha ih => rw [Finset.sum_insert ha, level_add, ih, Finset.sup_insert]

theorem level_prod : level (∏ i ∈ s, f i) = ∑ i ∈ s, level (f i) := by
  classical
  induction s using Finset.induction_on with
  | empty => rfl
  | insert a s ha ih => rw [Finset.prod_insert ha, level_mul, ih, Finset.sum_insert ha]

end Families

def Ghostly (a : NormalElement) : Prop :=
  a + a = a

private theorem add_self_finite (k : ℤ) (ghost : Bool) :
    finite k ghost + finite k ghost = finite k true := by
  rw [finite_add_finite, if_neg (lt_irrefl k), if_neg (lt_irrefl k)]

theorem ghostly_add_self (a : NormalElement) : Ghostly (a + a) := by
  rcases a.eq_zero_or_finite with rfl | ⟨k, g, rfl⟩
  · exact zero_add 0
  · rw [add_self_finite]
    exact add_self_finite k true

theorem Ghostly.add {a b : NormalElement} (ha : Ghostly a) (hb : Ghostly b) : Ghostly (a + b) := by
  rw [Ghostly, add_add_add_comm, ha, hb]

theorem Ghostly.mul_right {a : NormalElement} (ha : Ghostly a) (b : NormalElement) :
    Ghostly (a * b) := by
  rw [Ghostly, ← add_mul, ha]

theorem Ghostly.sum {ι : Type} {s : Finset ι} {f : ι → NormalElement}
    (h : ∀ i ∈ s, Ghostly (f i)) : Ghostly (∑ i ∈ s, f i) :=
  Finset.sum_induction f Ghostly (fun _ _ => Ghostly.add) (zero_add 0) h

theorem finite_inj {k l : ℤ} {g h : Bool} : finite k g = finite l h ↔ k = l ∧ g = h := by
  constructor
  · intro heq
    exact ⟨WithBot.coe_injective (congrArg level heq), congrArg (fun a => a.1.ghost) heq⟩
  · rintro ⟨rfl, rfl⟩
    rfl

theorem ghostly_finite {k : ℤ} {ghost : Bool} : Ghostly (finite k ghost) ↔ ghost = true := by
  rw [Ghostly, add_self_finite, finite_inj]
  exact ⟨fun h => h.2.symm, fun h => ⟨rfl, h.symm⟩⟩

theorem ghostly_iff {a : NormalElement} : Ghostly a ↔ a.1.ghost = true ∨ a.1.isZero = true := by
  rcases a.eq_zero_or_finite with rfl | ⟨k, g, rfl⟩
  · exact iff_of_true (zero_add 0) (Or.inr rfl)
  · rw [ghostly_finite]
    exact ⟨Or.inl, fun h => h.resolve_right Bool.false_ne_true⟩

theorem eq_zero_or_finite_of_tangible {a : NormalElement} (h : a.1.isTangible = true) :
    a = 0 ∨ ∃ k, a = finite k false := by
  rcases a.eq_zero_or_finite with rfl | ⟨k, g, rfl⟩
  · exact Or.inl rfl
  · cases g with
    | false => exact Or.inr ⟨k, rfl⟩
    | true => cases h

theorem eq_finite_of_tangible {a : NormalElement} {k : ℤ} (h : a.1.isTangible = true)
    (hk : level a = k) : a = finite k false := by
  rcases eq_zero_or_finite_of_tangible h with rfl | ⟨l, rfl⟩
  · exact absurd hk.symm WithBot.coe_ne_bot
  · rw [WithBot.coe_injective hk]

theorem not_ghostly_iff {a : NormalElement} : ¬ Ghostly a ↔ ∃ k, a = finite k false := by
  constructor
  · intro hghost
    rcases a.eq_zero_or_finite with rfl | ⟨k, g, rfl⟩
    · exact absurd (zero_add 0) hghost
    · rw [ghostly_finite, Bool.not_eq_true] at hghost
      exact ⟨k, hghost ▸ rfl⟩
  · rintro ⟨k, rfl⟩
    rw [ghostly_finite]
    exact Bool.false_ne_true

def tangibleInverse? (a : NormalElement) : Option NormalElement :=
  match a with
  | ⟨⟨.int k, false⟩, _⟩ => some (finite (-k) false)
  | _ => none

@[simp] theorem tangibleInverse?_finite (k : ℤ) :
    tangibleInverse? (finite k false) = some (finite (-k) false) := rfl

theorem Ghostly.tangibleInverse?_eq_none {a : NormalElement} (ha : Ghostly a) :
    tangibleInverse? a = none := by
  rcases a.eq_zero_or_finite with rfl | ⟨k, g, rfl⟩
  · rfl
  · obtain rfl := ghostly_finite.mp ha
    rfl

theorem toElement_tangibleInverse? (a : NormalElement) :
    a.1.tangibleInverse? = a.tangibleInverse?.map toElement := by
  rcases a.eq_zero_or_finite with rfl | ⟨k, g, rfl⟩
  · rfl
  · cases g <;> rfl

section Dominance

theorem add_eq_left_of_level_lt {a b : NormalElement} (h : level b < level a) : a + b = a := by
  rcases a.eq_zero_or_finite with rfl | ⟨k, g, rfl⟩
  · exact absurd h not_lt_bot
  rcases b.eq_zero_or_finite with rfl | ⟨l, i, rfl⟩
  · exact add_zero _
  rw [finite_add_finite, if_pos (WithBot.coe_lt_coe.mp h)]

theorem add_eq_tangible {a b : NormalElement} {k : ℤ} (h : a + b = finite k false) :
    (a = finite k false ∧ level b < k) ∨ (b = finite k false ∧ level a < k) := by
  rcases lt_trichotomy (level a) (level b) with hlt | heq | hlt
  · rw [add_comm, add_eq_left_of_level_lt hlt] at h
    subst h
    exact Or.inr ⟨rfl, hlt⟩
  · rcases a.eq_zero_or_finite with rfl | ⟨l, g, rfl⟩
    · rw [zero_add] at h
      subst h
      exact absurd heq.symm WithBot.coe_ne_bot
    rcases b.eq_zero_or_finite with rfl | ⟨m, i, rfl⟩
    · exact absurd heq WithBot.coe_ne_bot
    obtain rfl : l = m := WithBot.coe_injective heq
    rw [finite_add_finite, if_neg (lt_irrefl l), if_neg (lt_irrefl l), finite_inj] at h
    exact absurd h.2.symm Bool.false_ne_true
  · rw [add_eq_left_of_level_lt hlt] at h
    subst h
    exact Or.inl ⟨rfl, hlt⟩

theorem mul_eq_tangible {a b : NormalElement} {k : ℤ} (h : a * b = finite k false) :
    (∃ l, a = finite l false) ∧ ∃ m, b = finite m false := by
  rcases a.eq_zero_or_finite with rfl | ⟨l, g, rfl⟩
  · rw [zero_mul] at h
    exact absurd (congrArg level h).symm WithBot.coe_ne_bot
  rcases b.eq_zero_or_finite with rfl | ⟨m, i, rfl⟩
  · rw [mul_zero] at h
    exact absurd (congrArg level h).symm WithBot.coe_ne_bot
  rw [finite_mul_finite, finite_inj, Bool.or_eq_false_iff] at h
  obtain ⟨rfl, rfl⟩ := h.2
  exact ⟨⟨l, rfl⟩, ⟨m, rfl⟩⟩

variable {ι : Type} {s : Finset ι} {f : ι → NormalElement}

theorem level_le_sum {i : ι} (hi : i ∈ s) : level (f i) ≤ level (∑ j ∈ s, f j) := by
  rw [level_sum]
  exact Finset.le_sup (f := fun j => level (f j)) hi

theorem sum_eq_of_level_lt {i : ι} (hi : i ∈ s) (hpos : f i ≠ 0)
    (h : ∀ j ∈ s, j ≠ i → level (f j) < level (f i)) : ∑ j ∈ s, f j = f i := by
  classical
  rw [← Finset.add_sum_erase s f hi]
  apply add_eq_left_of_level_lt
  rw [level_sum, Finset.sup_lt_iff (bot_lt_iff_ne_bot.mpr (level_eq_bot.not.mpr hpos))]
  intro j hj
  exact h j (Finset.mem_of_mem_erase hj) (Finset.ne_of_mem_erase hj)

theorem exists_top_of_sum_tangible {k : ℤ} (h : ∑ j ∈ s, f j = finite k false) :
    ∃ i ∈ s, f i = finite k false ∧ ∀ j ∈ s, j ≠ i → level (f j) < k := by
  classical
  induction s using Finset.induction_on with
  | empty => exact absurd (congrArg level h).symm WithBot.coe_ne_bot
  | insert a s ha ih =>
    rw [Finset.sum_insert ha] at h
    rcases add_eq_tangible h with ⟨htop, hrest⟩ | ⟨htop, hlow⟩
    · refine ⟨a, Finset.mem_insert_self a s, htop, ?_⟩
      intro j hj hne
      exact (level_le_sum (Finset.mem_of_mem_insert_of_ne hj hne)).trans_lt hrest
    · obtain ⟨i, hi, hfi, hothers⟩ := ih htop
      refine ⟨i, Finset.mem_insert_of_mem hi, hfi, ?_⟩
      intro j hj hne
      rcases Finset.mem_insert.mp hj with rfl | hj
      · exact hlow
      · exact hothers j hj hne

theorem isTangible_prod (h : ∀ i ∈ s, (f i).1.isTangible = true) :
    (∏ i ∈ s, f i).1.isTangible = true := by
  refine Finset.prod_induction f (fun a => a.1.isTangible = true) ?_ rfl h
  intro a b ha hb
  rcases eq_zero_or_finite_of_tangible ha with rfl | ⟨k, rfl⟩
  · rw [zero_mul]
    rfl
  rcases eq_zero_or_finite_of_tangible hb with rfl | ⟨l, rfl⟩
  · rw [mul_zero]
    rfl
  rw [finite_mul_finite]
  rfl

theorem ghostly_sum_of_tie {i j : ι} (hi : i ∈ s) (hj : j ∈ s) (hne : i ≠ j)
    (htie : level (∑ t ∈ s, f t) ≤ level (f i)) (htie' : level (∑ t ∈ s, f t) ≤ level (f j)) :
    Ghostly (∑ t ∈ s, f t) := by
  by_contra hghost
  obtain ⟨k, hk⟩ := not_ghostly_iff.mp hghost
  obtain ⟨t, -, -, hothers⟩ := exists_top_of_sum_tangible hk
  rw [hk, level_finite] at htie htie'
  by_cases hit : i = t
  · exact absurd (hothers j hj fun hjt => hne (hit.trans hjt.symm)) htie'.not_gt
  · exact absurd (hothers i hi hit) htie.not_gt

theorem exists_finite_of_prod_tangible {k : ℤ} (h : ∏ j ∈ s, f j = finite k false) :
    ∀ i ∈ s, ∃ l, f i = finite l false := by
  classical
  intro i hi
  rw [← Finset.mul_prod_erase s f hi] at h
  exact (mul_eq_tangible h).1

end Dominance

section Relations

theorem le_iff {a b : NormalElement} : a.1.le b.1 = true ↔ level a ≤ level b := by
  have hfinite : ∀ k l : ℤ, Weight.le (Exact.int k) (Exact.int l) = (decide (k < l) ||
      decide (Exact.int k = Exact.int l)) := fun _ _ => rfl
  rcases a.eq_zero_or_finite with rfl | ⟨k, g, rfl⟩
  · rcases b.eq_zero_or_finite with rfl | ⟨l, h, rfl⟩
    · exact iff_of_true rfl le_rfl
    · exact iff_of_true rfl bot_le
  rcases b.eq_zero_or_finite with rfl | ⟨l, h, rfl⟩
  · exact iff_of_false Bool.false_ne_true (WithBot.bot_lt_coe k).not_ge
  · rw [level_finite, level_finite, WithBot.coe_le_coe, Element.le, finite, finite, hfinite]
    simp only [Bool.or_eq_true, decide_eq_true_eq, Exact.int.injEq]
    omega

theorem sameAs_iff {a b : NormalElement} : a.1.sameAs b.1 = true ↔ a = b := by
  rw [Element.sameAs, Bool.and_eq_true, beq_iff_eq, beq_iff_eq]
  constructor
  · rintro ⟨hvalue, hghost⟩
    exact NormalElement.ext (by rw [Element.mk.injEq]; exact ⟨hvalue, hghost⟩)
  · rintro rfl
    exact ⟨rfl, rfl⟩

theorem ghostSurpasses_iff {a b : NormalElement} :
    a.1.ghostSurpasses b.1 = true ↔ a = b ∨ (a.1.ghost = true ∧ level b ≤ level a) := by
  rw [Element.ghostSurpasses, Bool.or_eq_true, sameAs_iff, Bool.and_eq_true, ← le_iff, Element.le]

theorem Ghostly.ghostSurpasses {a b : NormalElement} (ha : Ghostly a) (hle : level b ≤ level a) :
    a.1.ghostSurpasses b.1 = true := by
  rw [ghostSurpasses_iff]
  rcases a.eq_zero_or_finite with rfl | ⟨k, g, rfl⟩
  · exact Or.inl (level_eq_bot.mp (le_bot_iff.mp hle)).symm
  · exact Or.inr ⟨ghostly_finite.mp ha, hle⟩

theorem ghostly_of_ghostSurpasses {a b : NormalElement} (h : a.1.ghostSurpasses b.1 = true)
    (hlt : level b < level a) : Ghostly a := by
  rcases ghostSurpasses_iff.mp h with rfl | ⟨hghost, -⟩
  · exact absurd hlt (lt_irrefl _)
  · rcases a.eq_zero_or_finite with rfl | ⟨k, g, rfl⟩
    · exact zero_add 0
    · exact ghostly_finite.mpr hghost

theorem ghostSurpasses_add_ghostly (b : NormalElement) {g : NormalElement} (hg : Ghostly g) :
    (b + g).1.ghostSurpasses b.1 = true := by
  by_cases hghost : Ghostly (b + g)
  · apply hghost.ghostSurpasses
    rw [level_add]
    exact le_max_left _ _
  · obtain ⟨k, hk⟩ := not_ghostly_iff.mp hghost
    rcases add_eq_tangible hk with ⟨hb, hlt⟩ | ⟨htop, -⟩
    · exact ghostSurpasses_iff.mpr (Or.inl (hk.trans hb.symm))
    · exact absurd hg (not_ghostly_iff.mpr ⟨k, htop⟩)

end Relations

end NormalElement

end MaxPlus
