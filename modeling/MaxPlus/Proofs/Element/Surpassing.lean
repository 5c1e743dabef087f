import MaxPlus.Proofs.Element.Level

/-!
Ghost surpassing as an order of the semiring.

One normal element ghost-surpasses another if it is the other plus something ghostly. Ghostly
elements are closed under sums and multiples, so sums and products of elements surpass those of the
elements that they surpass. An element that is neither a ghost nor `-∞` surpasses itself alone, and
of two elements that surpass each other there is only one.
-/

set_option autoImplicit false
set_option relaxedAutoImplicit false

namespace MaxPlus

namespace NormalElement

/-- The first element is the second one plus something ghostly. -/
def Surpasses (a b : NormalElement) : Prop :=
  ∃ g, Ghostly g ∧ a = b + g

theorem Surpasses.refl (a : NormalElement) : Surpasses a a :=
  ⟨0, zero_add 0, (add_zero a).symm⟩

theorem Ghostly.add_eq {a b : NormalElement} (ha : Ghostly a) (hle : level b ≤ level a) :
    b + a = a := by
  rcases hle.lt_or_eq with hlt | heq
  · rw [add_comm, add_eq_left_of_level_lt hlt]
  rcases a.eq_zero_or_finite with rfl | ⟨k, g, rfl⟩
  · rw [level_eq_bot.mp heq, add_zero]
  rcases b.eq_zero_or_finite with rfl | ⟨l, h, rfl⟩
  · rw [zero_add]
  obtain rfl := ghostly_finite.mp ha
  obtain rfl : l = k := WithBot.coe_injective heq
  rw [finite_add_finite, if_neg (lt_irrefl l), if_neg (lt_irrefl l)]

theorem surpasses_iff {a b : NormalElement} : a.1.ghostSurpasses b.1 = true ↔ Surpasses a b := by
  constructor
  · intro h
    rcases ghostSurpasses_iff.mp h with rfl | ⟨hghost, hle⟩
    · exact .refl a
    · have ha : Ghostly a := ghostly_iff.mpr (Or.inl hghost)
      exact ⟨a, ha, (ha.add_eq hle).symm⟩
  · rintro ⟨g, hg, rfl⟩
    exact ghostSurpasses_add_ghostly b hg

namespace Surpasses

theorem trans {a b c : NormalElement} (hab : Surpasses a b) (hbc : Surpasses b c) :
    Surpasses a c := by
  obtain ⟨g, hg, rfl⟩ := hab
  obtain ⟨h, hh, rfl⟩ := hbc
  exact ⟨h + g, hh.add hg, add_assoc c h g⟩

theorem antisymm {a b : NormalElement} (hab : Surpasses a b) (hba : Surpasses b a) : a = b := by
  obtain ⟨g, -, hg⟩ := hab
  obtain ⟨h, hh, hsum⟩ := hba
  have hb : b + h = b := by rw [hsum, add_assoc, hh]
  calc a = b + h + g := by rw [hb, hg]
    _ = b + g + h := add_right_comm b h g
    _ = b := by rw [← hg, ← hsum]

theorem respects : Respects Surpasses where
  zero := .refl 0
  one := .refl 1
  add := by
    rintro _ _ a b ⟨g, hg, rfl⟩ ⟨h, hh, rfl⟩
    exact ⟨g + h, hg.add hh, add_add_add_comm a g b h⟩
  mul := by
    rintro _ _ a b ⟨g, hg, rfl⟩ ⟨h, hh, rfl⟩
    exact ⟨h * a + g * (b + h), (hh.mul_right a).add (hg.mul_right _), by ring⟩

theorem eq_of_tangible {b : NormalElement} {k : ℤ} (h : Surpasses (finite k false) b) :
    b = finite k false := by
  obtain ⟨g, hg, hsum⟩ := h
  rcases add_eq_tangible hsum.symm with ⟨hb, -⟩ | ⟨htop, -⟩
  · exact hb
  · exact absurd hg (not_ghostly_iff.mpr ⟨k, htop⟩)

end Surpasses

end NormalElement

end MaxPlus
