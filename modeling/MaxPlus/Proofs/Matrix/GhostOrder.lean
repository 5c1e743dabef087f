import MaxPlus.Proofs.Element.GhostOrder
import MaxPlus.Proofs.Matrix.Layout

/-!
Ghost surpassing as an order of the matrices over doubles.

Matrices of one shape are compared entry by entry. So one matrix surpasses another if it is the
other plus a matrix of ghosts and `-∞`, and what makes the test a partial order on the entries makes
it one on the matrices.
-/

set_option autoImplicit false
set_option relaxedAutoImplicit false

namespace MaxPlus

namespace Matrix

private theorem partialOrder_related {S : Type} {p : S → Prop} {rel same : S → S → Bool}
    (h : PartialOrderUpTo p rel same) :
    PartialOrderUpTo (Forall p) (related rel) (related same) where
  refl := by
    intro A hA
    rw [related_mk, Grid.related_iff]
    exact fun i j => h.refl (hA i j)
  trans := by
    intro A B C hA hB hC hab hbc
    obtain ⟨r, c, A, B, rfl, rfl, hab'⟩ := exists_grids_of_related hab
    obtain ⟨_, _, B, C, hmid, rfl, hbc'⟩ := exists_grids_of_related hbc
    cases hmid
    rw [related_mk, Grid.related_iff]
    exact fun i j => h.trans (hA i j) (hB i j) (hC i j) (hab' i j) (hbc' i j)
  both_iff := by
    intro A B hA hB
    constructor
    · rintro ⟨hab, hba⟩
      obtain ⟨r, c, A, B, rfl, rfl, hab'⟩ := exists_grids_of_related hab
      rw [related_mk, Grid.related_iff] at hba ⊢
      exact fun i j => (h.both_iff (hA i j) (hB i j)).mp ⟨hab' i j, hba i j⟩
    · intro hsame
      obtain ⟨r, c, A, B, rfl, rfl, hsame'⟩ := exists_grids_of_related hsame
      rw [related_mk, related_mk, Grid.related_iff, Grid.related_iff]
      have hboth := fun i j => (h.both_iff (hA i j) (hB i j)).mpr (hsame' i j)
      exact ⟨fun i j => (hboth i j).1, fun i j => (hboth i j).2⟩

variable {A B G : Matrix (Element Float)}

/-- All three have one shape, and every entry of `A` is the one of `B` plus the one of `G`. -/
structure IsSum (A B G : Matrix (Element Float)) : Prop where
  shape : A.shape = B.shape
  summand_shape : G.shape = B.shape
  entry : ∀ {i j : ℕ}, i < A.rows → j < A.cols →
    ∃ a b g, A.get i j = .ok a ∧ B.get i j = .ok b ∧ G.get i j = .ok g ∧ a.sameAs (b + g) = true

private theorem isSum_mk {r c : ℕ} {A B G : Grid (Element Float) r c} :
    IsSum ⟨r, c, A⟩ ⟨r, c, B⟩ ⟨r, c, G⟩ ↔ ∀ i j, (A i j).sameAs (B i j + G i j) = true := by
  constructor
  · intro h i j
    obtain ⟨a, b, g, ha, hb, hg, hsum⟩ := h.entry i.isLt j.isLt
    rw [get_mk] at ha hb hg
    cases ha
    cases hb
    cases hg
    exact hsum
  · intro h
    refine ⟨rfl, rfl, fun {i j} hi hj => ?_⟩
    exact ⟨_, _, _, get_mk A ⟨i, hi⟩ ⟨j, hj⟩, get_mk B ⟨i, hi⟩ ⟨j, hj⟩, get_mk G ⟨i, hi⟩ ⟨j, hj⟩,
      h ⟨i, hi⟩ ⟨j, hj⟩⟩

abbrev Ghostly (A : Matrix (Element Float)) : Prop :=
  A.Forall Element.Ghostly

private theorem exists_isSum_of_ghostSurpasses (hA : A.Forall Element.WellFormed)
    (hB : B.Forall Element.WellFormed) (h : A.ghostSurpasses B = true) :
    ∃ G : Matrix (Element Float), G.Forall Element.WellFormed ∧ G.Ghostly ∧ IsSum A B G := by
  obtain ⟨r, c, A, B, rfl, rfl, hentries⟩ := exists_grids_of_related h
  choose G hwell hghostly hsum using fun i j =>
    Element.exists_ghostly_of_ghostSurpasses (hA i j) (hB i j) (hentries i j)
  refine ⟨⟨r, c, Grid.ofFn G⟩, ?_, ?_, isSum_mk.mpr ?_⟩
  all_goals
    intro i j
    simp only [Grid.ofFn_apply]
  · exact hwell i j
  · exact hghostly i j
  · exact hsum i j

private theorem ghostSurpasses_of_isSum (hA : A.Forall Element.WellFormed)
    (hB : B.Forall Element.WellFormed) (hG : G.Ghostly) (h : IsSum A B G) :
    A.ghostSurpasses B = true := by
  obtain ⟨r, c, A⟩ := A
  obtain ⟨r', c', B⟩ := B
  obtain ⟨r'', c'', G⟩ := G
  cases h.shape
  cases h.summand_shape
  rw [ghostSurpasses, related_mk, Grid.related_iff]
  intro i j
  exact Element.ghostSurpasses_of_sameAs_add (hA i j) (hB i j) (hG i j) (isSum_mk.mp h i j)

/-- A well-formed element surpasses those of which it is the sum with a ghost or `-∞`, a matrix
those of which it is the sum with a matrix of ghosts and `-∞`. Both relations are partial orders up
to being the same. -/
theorem ghostSurpasses_iff_sum_and_partialOrder :
    (∀ {a b : Element Float}, a.WellFormed → b.WellFormed →
      (a.ghostSurpasses b = true ↔
        ∃ g : Element Float, g.WellFormed ∧ g.Ghostly ∧ a.sameAs (b + g) = true) ∧
      ∀ g : Element Float, g.Ghostly → a.sameAs (b + g) = true → a.ghostSurpasses b = true) ∧
    PartialOrderUpTo Element.WellFormed Element.ghostSurpasses (Element.sameAs (W := Float)) ∧
    (∀ {A B : Matrix (Element Float)}, A.Forall Element.WellFormed → B.Forall Element.WellFormed →
      (A.ghostSurpasses B = true ↔
        ∃ G : Matrix (Element Float), G.Forall Element.WellFormed ∧ G.Ghostly ∧ IsSum A B G) ∧
      ∀ G : Matrix (Element Float), G.Ghostly → IsSum A B G → A.ghostSurpasses B = true) ∧
    PartialOrderUpTo (Forall Element.WellFormed) ghostSurpasses (sameAs (W := Float)) := by
  refine ⟨?_, Element.partialOrder_ghostSurpasses, ?_,
    partialOrder_related Element.partialOrder_ghostSurpasses⟩
  · intro a b ha hb
    have hsum := fun g hg => Element.ghostSurpasses_of_sameAs_add (g := g) ha hb hg
    refine ⟨⟨Element.exists_ghostly_of_ghostSurpasses ha hb, ?_⟩, hsum⟩
    rintro ⟨g, -, hg, h⟩
    exact hsum g hg h
  · intro A B hA hB
    have hsum := fun G hG => ghostSurpasses_of_isSum (G := G) hA hB hG
    refine ⟨⟨exists_isSum_of_ghostSurpasses hA hB, ?_⟩, hsum⟩
    rintro ⟨G, -, hG, h⟩
    exact hsum G hG h

def rowWith (a : Element Float) : Matrix (Element Float) :=
  ⟨1, 3, Grid.ofFn ![![a, ⟨1.5, false⟩, 0]]⟩

theorem ghostSurpasses_iff_sum_and_partialOrder_chain :
    (rowWith ⟨4, true⟩).Forall Element.WellFormed ∧ (rowWith ⟨2, true⟩).Forall Element.WellFormed ∧
      (rowWith ⟨2, false⟩).Forall Element.WellFormed ∧
      (∃ g : Element Float, g.WellFormed ∧ g.Ghostly ∧
        (⟨2, true⟩ : Element Float).sameAs (⟨2, false⟩ + g) = true) ∧
      (∃ G : Matrix (Element Float), G.Forall Element.WellFormed ∧ G.Ghostly ∧
        IsSum (rowWith ⟨4, true⟩) (rowWith ⟨2, false⟩) G) ∧
      (rowWith ⟨2, false⟩).ghostSurpasses (rowWith ⟨2, true⟩) = false := by
  obtain ⟨helement, -, hmatrix, horder⟩ := ghostSurpasses_iff_sum_and_partialOrder
  have hhigh : (rowWith ⟨4, true⟩).Forall Element.WellFormed := by decide +kernel
  have hmiddle : (rowWith ⟨2, true⟩).Forall Element.WellFormed := by decide +kernel
  have hlow : (rowWith ⟨2, false⟩).Forall Element.WellFormed := by decide +kernel
  have hupper : (rowWith ⟨4, true⟩).ghostSurpasses (rowWith ⟨2, true⟩) = true := by decide +kernel
  have hlower : (rowWith ⟨2, true⟩).ghostSurpasses (rowWith ⟨2, false⟩) = true := by decide +kernel
  have hdiffer : (rowWith ⟨2, true⟩).sameAs (rowWith ⟨2, false⟩) = false := by decide +kernel
  refine ⟨hhigh, hmiddle, hlow, ?_, ?_, ?_⟩
  · have hwell : (⟨2, true⟩ : Element Float).WellFormed := by decide +kernel
    have hwell' : (⟨2, false⟩ : Element Float).WellFormed := by decide +kernel
    exact (helement hwell hwell').1.mp (by decide +kernel)
  · exact (hmatrix hhigh hlow).1.mp (horder.trans hhigh hmiddle hlow hupper hlower)
  · by_contra hback
    rw [Bool.not_eq_false] at hback
    rw [(horder.both_iff hmiddle hlow).mp ⟨hlower, hback⟩] at hdiffer
    cases hdiffer

end Matrix

end MaxPlus
