import MaxPlus.Matrix.Construction
import MaxPlus.Proofs.Matrix.Normal

/-!
The algebra of the matrix product over exact weights.

Products are associative, and a scalar may stand at either factor or at the product. An identity
changes nothing on either side. There is one for every order whose square a word can count; a matrix
without columns may have more rows than that. The laws leave open whether a word counts the entries
of a product. Where none does, no memory holds the product, and there is nothing to compare.
-/

set_option autoImplicit false
set_option relaxedAutoImplicit false

namespace MaxPlus

namespace Matrix

section Identities

variable {W : Type} [Weight W]

private theorem identity_def (n : ℕ) :
    (identity n : Outcome W (Matrix (Element W))) =
      if (Shape.mk n n).fits then .ok ⟨n, n, Grid.ofFn fun i j => if i = j then 1 else 0⟩
      else .error (.fault (.shapeTooLarge ⟨n, n⟩)) := rfl

private theorem exists_identity_iff (n : ℕ) :
    (∃ I : Matrix (Element W), identity n = .ok I) ↔ n * n < UInt64.size := by
  rw [identity_def, Shape.fits]
  by_cases hn : n * n < UInt64.size
  · rw [if_pos (decide_eq_true hn)]
    exact iff_of_true ⟨_, rfl⟩ hn
  · rw [if_neg (by simpa using hn)]
    exact iff_of_false (fun ⟨_, h⟩ => nomatch h) hn

private theorem identity_eq_ok {n : ℕ} {I : Matrix (Element Exact)} (h : identity n = .ok I) :
    I = ⟨n, n, (Grid.identity n : Grid NormalElement n n).elements⟩ := by
  rw [identity_def] at h
  split_ifs at h
  cases h
  congr 1
  apply Grid.ext
  intro i j
  rw [Grid.elements_apply, Grid.identity, Grid.ofFn_apply, Grid.ofFn_apply]
  split_ifs <;> rfl

end Identities

/-- What holds of the product of matrices that go together, and of a scalar. -/
structure ProductLaws {W : Type} [Weight W] (A B C : Matrix (Element W)) (x : Element W) :
    Prop where
  mul_assoc : Agree (A.mul B >>= fun AB => AB.mul C) (B.mul C >>= fun BC => A.mul BC)
  identity_mul : ∀ I, identity A.rows = .ok I → Agree (I.mul A) (.ok A)
  mul_identity : ∀ I, identity A.cols = .ok I → Agree (A.mul I) (.ok A)
  scale_mul : Agree (A.scale x >>= fun xA => xA.mul B) (A.mul B >>= fun AB => AB.scale x)
  mul_scale : Agree (B.scale x >>= fun xB => A.mul xB) (A.mul B >>= fun AB => AB.scale x)
  scale_mul_eq_mul_scale :
    Agree (A.scale x >>= fun xA => xA.mul B) (B.scale x >>= fun xB => A.mul xB)

private theorem productLaws_elements {r k l c : ℕ} (A : Grid NormalElement r k)
    (B : Grid NormalElement k l) (C : Grid NormalElement l c) (x : NormalElement) :
    ProductLaws ⟨r, k, A.elements⟩ ⟨k, l, B.elements⟩ ⟨l, c, C.elements⟩ x.1 where
  mul_assoc := by
    simp only [mul_elements, bind, Except.bind]
    exact agree_elements (A.mul_assoc B C)
  identity_mul I hI := by
    rw [identity_eq_ok hI, mul_elements]
    exact agree_elements A.identity_mul
  mul_identity I hI := by
    rw [identity_eq_ok hI, mul_elements]
    exact agree_elements A.mul_identity
  scale_mul := by
    simp only [mul_elements, scale_elements, bind, Except.bind]
    exact agree_elements (A.scale_mul B x)
  mul_scale := by
    simp only [mul_elements, scale_elements, bind, Except.bind]
    exact agree_elements (A.mul_scale B x)
  scale_mul_eq_mul_scale := by
    simp only [mul_elements, scale_elements, bind, Except.bind]
    exact agree_elements ((A.scale_mul B x).trans (A.mul_scale B x).symm)

/-- Conforming matrices with normal entries obey the laws of the product, with inner dimensions of
zero too, and an identity is missing only where a word cannot count its entries. That a word counts
the entries of the products is not asked. -/
theorem productLaws_of_conforming {A B C : Matrix (Element Exact)} {x : Element Exact}
    (hA : A.Normal) (hB : B.Normal) (hC : C.Normal) (hx : x.Normal) (hAB : A.cols = B.rows)
    (hBC : B.cols = C.rows) :
    ProductLaws A B C x ∧
      ∀ n, (∃ I : Matrix (Element Exact), identity n = .ok I) ↔ n * n < UInt64.size := by
  obtain ⟨r, k, A⟩ := A
  obtain ⟨k', l, B⟩ := B
  obtain ⟨l', c, C⟩ := C
  obtain rfl : k = k' := hAB
  obtain rfl : l = l' := hBC
  obtain ⟨A, rfl⟩ := A.exists_elements_eq hA
  obtain ⟨B, rfl⟩ := B.exists_elements_eq hB
  obtain ⟨C, rfl⟩ := C.exists_elements_eq hC
  exact ⟨productLaws_elements A B C ⟨x, hx⟩, exists_identity_iff⟩

def evenRow : Matrix (Element Exact) :=
  ⟨1, 2, ⟨#v[⟨.int 0, false⟩, ⟨.int 0, false⟩]⟩⟩

def raggedTable : Matrix (Element Exact) :=
  ⟨2, 2, ⟨#v[⟨.int 1, false⟩, ⟨.int 2, true⟩, ⟨.int 1, false⟩, ⟨.bot, false⟩]⟩⟩

def steepColumn : Matrix (Element Exact) :=
  ⟨2, 1, ⟨#v[⟨.int 0, false⟩, ⟨.int (-2), false⟩]⟩⟩

theorem productLaws_of_conforming_tie :
    evenRow.Normal ∧ raggedTable.Normal ∧ steepColumn.Normal ∧
      Element.Normal (W := Exact) ⟨.int 2, true⟩ ∧ evenRow.cols = raggedTable.rows ∧
      raggedTable.cols = steepColumn.rows ∧
      evenRow.mul raggedTable = .ok ⟨1, 2, ⟨#v[⟨.int 1, true⟩, ⟨.int 2, true⟩]⟩⟩ ∧
      (evenRow.mul raggedTable >>= fun AB => AB.mul steepColumn) =
        .ok ⟨1, 1, ⟨#v[⟨.int 1, true⟩]⟩⟩ ∧
      ProductLaws evenRow raggedTable steepColumn ⟨.int 2, true⟩ :=
  ⟨by decide, by decide, by decide, by decide, rfl, rfl, by cbv, by cbv,
    (productLaws_of_conforming (by decide) (by decide) (by decide) (by decide) rfl rfl).1⟩

end Matrix

end MaxPlus
