import MaxPlus.Proofs.Element.Units
import MaxPlus.Proofs.Weight.Arithmetic

/-!
Operations on elements over doubles that keep them well formed.

The neutral elements, the constructor, sums, inverses and both maps between ghosts and tangible
elements do. A product has a supported value, and nothing more.
-/

set_option autoImplicit false
set_option relaxedAutoImplicit false

namespace MaxPlus

namespace Element

open Binary64

variable {a b c : Element Float}

theorem ofWeight_of_ne_bot {v : Float} (ghost : Bool) (hsupported : Weight.supported v = true)
    (hbot : (v == Weight.bot) = false) : ofWeight v ghost = .ok ⟨v, ghost⟩ := by
  rw [ofWeight, if_pos hsupported, hbot, Bool.not_false, Bool.and_true]

theorem WellFormed.zero : (0 : Element Float).WellFormed :=
  ⟨rfl, normal_zero⟩

theorem WellFormed.one : (1 : Element Float).WellFormed :=
  ⟨rfl, fun _ => rfl⟩

theorem WellFormed.ofWeight {v : Float} {ghost : Bool} (h : Element.ofWeight v ghost = .ok a) :
    a.WellFormed := by
  rw [Element.ofWeight] at h
  split_ifs at h with hsupported
  cases h
  refine ⟨hsupported, fun hzero => ?_⟩
  change (ghost && !(v == Weight.bot)) = false
  rw [show (v == Weight.bot) = true from hzero, Bool.not_true, Bool.and_false]

theorem WellFormed.sum {xs : List (Element Float)} (hxs : ∀ a ∈ xs, a.WellFormed) :
    (MaxPlus.sum xs).WellFormed :=
  List.foldlRecOn xs _ zero fun _ hacc a ha => hacc.add (hxs a ha)

theorem WellFormed.toGhost (ha : a.WellFormed) : a.toGhost.WellFormed := by
  refine ⟨ha.supported, fun hzero => ?_⟩
  rw [Element.toGhost, show a.isZero = true from hzero]
  rfl

theorem WellFormed.toTangible (ha : a.WellFormed) : a.toTangible.WellFormed :=
  ⟨ha.supported, fun _ => rfl⟩

theorem supported_mul {a b c : Element Float} (ha : Weight.supported a.value = true)
    (hb : Weight.supported b.value = true) (h : a.mul b = .ok c) :
    Weight.supported c.value = true := by
  rw [mul] at h
  split_ifs at h with hzero htop
  · cases h
    rfl
  · cases h
    exact supported_add ha hb (Bool.eq_false_iff.mpr htop)

theorem WellFormed.inverse? {a b : Element Float} (ha : a.WellFormed) (h : a.inverse? = some b) :
    b.WellFormed := by
  rw [Element.inverse?] at h
  split_ifs at h with hzero
  cases h
  obtain ⟨hsupported, hbot⟩ := supported_neg ha.supported (Bool.eq_false_iff.mpr hzero)
  refine ⟨hsupported, fun h => ?_⟩
  rw [isZero, hbot] at h
  cases h

end Element

end MaxPlus
