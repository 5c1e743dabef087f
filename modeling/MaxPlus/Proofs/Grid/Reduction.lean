import MaxPlus.Proofs.Grid.Permanent

/-!
Parts of a permanent that are combined in any order of completion.

Where `+` is associative and commutative with the identity `0`, every way to add the parts gives the
permanent, empty ranges among them included.
-/

set_option autoImplicit false
set_option relaxedAutoImplicit false

namespace MaxPlus

universe u

namespace Grid

variable {S : Type u} [AddCommMonoid S] [One S] [Mul S] {n : ℕ}

/-- However the parts are combined, the result is the permanent, and so it is where they are added
one by one. -/
theorem permanentOfList_eq_reduction (xs : List S) (h : xs.length = (n + 1) * (n + 1)) :
    ∃ A : Grid S (n + 1) (n + 1), ofList? (n + 1) (n + 1) xs = some A ∧
      (∀ t : Reduction (Fin (n + 1)), t.places = List.finRange (n + 1) →
        permanentOfList xs (n + 1) = .ok (t.value A.part)) ∧
      ∀ schedule, permanentByPartsOfList xs (n + 1) schedule = permanentOfList xs (n + 1) := by
  obtain ⟨A, hA, -⟩ := ofList?_eq_some h
  have hpermanent : permanentOfList xs (n + 1) = .ok A.permanent := by
    rw [permanentOfList, hA]
  refine ⟨A, hA, ?_, ?_⟩
  · intro t ht
    rw [hpermanent, t.value_eq_sum A.part ht, sum_part]
  · intro schedule
    rw [hpermanent, permanentByPartsOfList, hA]
    exact congrArg Except.ok (A.permanentByParts_eq_permanent schedule)

theorem permanentOfList_eq_reduction_two_rows :
    [1, 2, 3, 4].length = 2 * 2 ∧
      (Reduction.join (.join .empty (.place 0)) (.place 1)).places = List.finRange 2 ∧
      permanentOfList [1, 2, 3, 4] 2 = .ok
        ((Reduction.join (.join .empty (.place 0)) (.place 1)).value
          (part (S := ℕ) (n := 1) ⟨#v[1, 2, 3, 4]⟩)) ∧
      permanentByPartsOfList [1, 2, 3, 4] 2 = permanentOfList [1, 2, 3, 4] 2 := by
  obtain ⟨A, hA, htree, hparts⟩ := permanentOfList_eq_reduction (n := 1) [1, 2, 3, 4] rfl
  obtain rfl : ⟨#v[1, 2, 3, 4]⟩ = A := Option.some.inj hA
  exact ⟨rfl, rfl, htree _ rfl, hparts .inOrder⟩

end Grid

end MaxPlus
