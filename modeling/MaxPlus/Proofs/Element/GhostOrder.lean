import MaxPlus.Proofs.Element.Surpassing
import MaxPlus.Proofs.Element.WellFormed
import MaxPlus.Proofs.Weight.Order

/-!
Ghost surpassing as an order of the elements over doubles.

The test compares marks and values only, so counted in units of the smallest positive double it is
the test of the semiring. A well-formed element surpasses another if it is the other plus a ghost or
`-∞`. As a summand it may serve itself where it is a ghost, and `-∞` serves where the two are the
same. Where two elements surpass each other they are the same up to the sign of a zero.
-/

set_option autoImplicit false
set_option relaxedAutoImplicit false

namespace MaxPlus

universe u

/-- A partial order on what satisfies `p`. What is related both ways need not be equal but is the
same by `same`. -/
structure PartialOrderUpTo {α : Type u} (p : α → Prop) (rel same : α → α → Bool) : Prop where
  refl : ∀ {a}, p a → rel a a = true
  trans : ∀ {a b c}, p a → p b → p c → rel a b = true → rel b c = true → rel a c = true
  both_iff : ∀ {a b}, p a → p b → (rel a b = true ∧ rel b a = true ↔ same a b = true)

namespace Element

open Binary64

def Ghostly {W : Type} [Weight W] (a : Element W) : Prop :=
  a.ghost = true ∨ a.isZero = true

instance {W : Type} [Weight W] (a : Element W) : Decidable a.WellFormed :=
  decidable_of_iff (Weight.supported a.value = true ∧ a.Normal)
    ⟨fun h => ⟨h.1, h.2⟩, fun h => ⟨h.supported, h.normal⟩⟩

variable {a b g : Element Float}

def WellFormed.normalElement (ha : a.WellFormed) : NormalElement :=
  ⟨a.inUnits, ha.normal_inUnits⟩

private theorem WellFormed.normalElement_add (ha : a.WellFormed) (hb : b.WellFormed) :
    (ha.add hb).normalElement = ha.normalElement + hb.normalElement :=
  NormalElement.ext (inUnits_add ha.supported hb.supported)

section Tests

variable (ha : a.WellFormed) (hb : b.WellFormed)
include ha hb

private theorem sameAs_iff_normalElement :
    a.sameAs b = true ↔ ha.normalElement = hb.normalElement := by
  rw [sameAs_inUnits ha.supported hb.supported]
  exact NormalElement.sameAs_iff (a := ha.normalElement) (b := hb.normalElement)

private theorem ghostSurpasses_inUnits :
    a.ghostSurpasses b = a.inUnits.ghostSurpasses b.inUnits := by
  rw [ghostSurpasses, ghostSurpasses, Weight.le, Weight.le, lt_units hb.supported ha.supported,
    beq_units hb.supported ha.supported, sameAs_inUnits ha.supported hb.supported]
  rfl

private theorem ghostSurpasses_iff_surpasses :
    a.ghostSurpasses b = true ↔ ha.normalElement.Surpasses hb.normalElement := by
  rw [ghostSurpasses_inUnits ha hb]
  exact NormalElement.surpasses_iff (a := ha.normalElement) (b := hb.normalElement)

theorem exists_ghostly_of_ghostSurpasses (h : a.ghostSurpasses b = true) :
    ∃ g : Element Float, g.WellFormed ∧ g.Ghostly ∧ a.sameAs (b + g) = true := by
  rw [ghostSurpasses_inUnits ha hb] at h
  have hcases := NormalElement.ghostSurpasses_iff (a := ha.normalElement) (b := hb.normalElement)
  rcases hcases.mp h with heq | ⟨hghost, hle⟩
  · have hzero := WellFormed.zero
    refine ⟨0, hzero, Or.inr rfl, ?_⟩
    rw [sameAs_iff_normalElement ha (hb.add hzero), hb.normalElement_add hzero, heq]
    exact (add_zero _).symm
  · have hghostly : ha.normalElement.Ghostly := NormalElement.ghostly_iff.mpr (Or.inl hghost)
    refine ⟨a, ha, Or.inl hghost, ?_⟩
    rw [sameAs_iff_normalElement ha (hb.add ha), hb.normalElement_add ha, hghostly.add_eq hle]

end Tests

section Summands

private theorem WellFormed.sameAs_of_isZero (ha : a.WellFormed) (hb : b.WellFormed)
    (hzero : a.isZero = true) (hzero' : b.isZero = true) : a.sameAs b = true := by
  have hrank := (isZero_iff_rank_eq_bot ha.supported).mp hzero
  have hrank' := (isZero_iff_rank_eq_bot hb.supported).mp hzero'
  rw [sameAs, (beq_iff_rank_eq ha.supported hb.supported).mpr (hrank.trans hrank'.symm),
    ha.normal hzero, hb.normal hzero']
  rfl

private theorem of_sameAs (ha : Weight.supported a.value = true) (h : a.sameAs b = true) :
    Weight.supported b.value = true ∧ rank a.value = rank b.value ∧ a.ghost = b.ghost := by
  obtain ⟨hvalue, hghost⟩ := (Bool.and_eq_true _ _).mp h
  have hb := supported_of_beq ha hvalue
  exact ⟨hb, (beq_iff_rank_eq ha hb).mp hvalue, beq_iff_eq.mp hghost⟩

theorem ghostSurpasses_of_sameAs_add (ha : a.WellFormed) (hb : b.WellFormed) (hg : g.Ghostly)
    (h : a.sameAs (b + g) = true) : a.ghostSurpasses b = true := by
  have hle := le_iff_rank_le hb.supported ha.supported
  rw [ghostSurpasses, Bool.or_eq_true, Bool.and_eq_true, hle]
  -- The sum is `g` if `b` is `-∞`, then `b` in two cases, then `g` above `b`, and last a tie.
  rw [add_def, add] at h
  split_ifs at h with hzero hzero' hgt hlt
  · obtain ⟨hsupported, hrank, hghost⟩ := of_sameAs ha.supported h
    rcases hg with hmark | hnone
    · have hbot := (isZero_iff_rank_eq_bot hb.supported).mp hzero
      exact Or.inr ⟨hghost.trans hmark, hbot ▸ bot_le⟩
    · have hzero' := isZero_eq_of_rank_eq ha.supported hsupported hrank
      exact Or.inl (ha.sameAs_of_isZero hb (hzero'.trans hnone) hzero)
  · exact Or.inl h
  · exact Or.inl h
  · obtain ⟨hsupported, hrank, hghost⟩ := of_sameAs ha.supported h
    have hrank' := (lt_iff_rank_lt hb.supported hsupported).mp hlt
    exact Or.inr ⟨hghost.trans (hg.resolve_right hzero'), hrank ▸ hrank'.le⟩
  · obtain ⟨-, hrank, hghost⟩ := of_sameAs ha.supported h
    exact Or.inr ⟨hghost, hrank.ge⟩

end Summands

theorem partialOrder_ghostSurpasses :
    PartialOrderUpTo WellFormed ghostSurpasses (sameAs (W := Float)) where
  refl ha := (ghostSurpasses_iff_surpasses ha ha).mpr (.refl _)
  trans := by
    intro a b c ha hb hc hab hbc
    rw [ghostSurpasses_iff_surpasses ha hb] at hab
    rw [ghostSurpasses_iff_surpasses hb hc] at hbc
    exact (ghostSurpasses_iff_surpasses ha hc).mpr (hab.trans hbc)
  both_iff := by
    intro a b ha hb
    rw [ghostSurpasses_iff_surpasses ha hb, ghostSurpasses_iff_surpasses hb ha,
      sameAs_iff_normalElement ha hb]
    constructor
    · exact fun h => h.1.antisymm h.2
    · intro h
      rw [h]
      exact ⟨.refl _, .refl _⟩

end Element

end MaxPlus
