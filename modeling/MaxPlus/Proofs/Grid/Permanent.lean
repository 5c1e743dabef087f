import MaxPlus.Proofs.Algebra.Reduction
import MaxPlus.Proofs.Grid.Entries
import MaxPlus.Proofs.Permutation.Sum
import MaxPlus.Grid.Permanent

/-!
The permanent as a sum over the symmetric group.

Only `+` has to be associative and commutative: each term keeps its factors in the order of the
rows. The parts of the permanent are the sums over the permutations with one choice for the first
row, so they add up to it.
-/

set_option autoImplicit false
set_option relaxedAutoImplicit false

namespace MaxPlus

namespace Grid

universe u v

variable {S : Type u} {T : Type v} {n : ℕ}

theorem skip_eq_succAbove (i : Fin (n + 1)) : skip i = i.succAbove := by
  funext p
  simp [skip, Fin.succAbove, Fin.lt_def]

private theorem term_arrangementOf [One S] [Mul S] (A : Grid S n n) (σ : Equiv.Perm (Fin n)) :
    A.term (arrangementOf σ) = productOver fun i => A i (σ i) := by
  simp [term]

private theorem partTerm_arrangementOf [One S] [Mul S] (A : Grid S (n + 1) (n + 1))
    (c : Fin (n + 1)) (τ : Equiv.Perm (Fin n)) :
    A.partTerm c (1 * A 0 c) (arrangementOf τ) =
      productOver fun i => A i (insertAt 0 c τ i) := by
  have hrow : ∀ i : Fin n, insertAt 0 c τ i.succ = skip c (τ i) := fun i => by
    rw [← Fin.succAbove_zero, insertAt_succAbove, skip_eq_succAbove]
  rw [productOver, productFrom_succ, insertAt_self, partTerm]
  simp only [get_arrangementOf, hrow]

theorem permanentByParts_eq_value [Zero S] [One S] [Add S] [Mul S] (schedule : Schedule)
    (A : Grid S (n + 1) (n + 1)) :
    A.permanentByParts schedule = (schedule.reduction (n + 1)).value A.part := by
  simp [permanentByParts, Task.spawn]

private theorem place_lt_length {xs : List S} (h : xs.length = n * n) (i j : Fin n) :
    i.val * n + j.val < xs.length := by
  rw [h]
  exact place_lt i j

theorem ofList?_eq_some {xs : List S} (h : xs.length = n * n) :
    ∃ A : Grid S n n, ofList? n n xs = some A ∧
      ∀ i j, A i j = xs.get ⟨i.val * n + j.val, place_lt_length h i j⟩ := by
  refine ⟨⟨⟨xs.toArray, by simpa using h⟩⟩, dif_pos h, ?_⟩
  intro i j
  simp [entry]

section Sums

variable [AddCommMonoid S] [One S] [Mul S]

theorem permanent_eq_sum (A : Grid S n n) :
    A.permanent = ∑ σ : Equiv.Perm (Fin n), productOver fun i => A i (σ i) := by
  rw [permanent, sumArrangements_eq_sum]
  exact Finset.sum_congr rfl fun σ _ => A.term_arrangementOf σ

private theorem part_eq_sum (A : Grid S (n + 1) (n + 1)) (c : Fin (n + 1)) :
    A.part c = ∑ τ : Equiv.Perm (Fin n), productOver fun i => A i (insertAt 0 c τ i) := by
  rw [part, sumArrangements_eq_sum]
  exact Finset.sum_congr rfl fun τ _ => A.partTerm_arrangementOf c τ

theorem sum_part (A : Grid S (n + 1) (n + 1)) : ∑ c, A.part c = A.permanent := by
  rw [permanent_eq_sum, sum_perm_succ 0]
  exact Finset.sum_congr rfl fun c _ => A.part_eq_sum c

theorem permanentByParts_eq_permanent (schedule : Schedule) (A : Grid S (n + 1) (n + 1)) :
    A.permanentByParts schedule = A.permanent := by
  rw [permanentByParts_eq_value, schedule.value_eq_sum, sum_part]

/-- The permanent of a list of `n * n` entries is the sum over all permutations of the products of
the entries that they select, multiplied from the first row on. For `n = 0` it is `0 + 1`. -/
theorem permanentOfList_eq_sum (xs : List S) (h : xs.length = n * n) :
    permanentOfList xs n =
        .ok (∑ σ : Equiv.Perm (Fin n), product (List.ofFn fun i =>
          xs.get ⟨i.val * n + (σ i).val, place_lt_length h i (σ i)⟩)) ∧
      (n = 0 → permanentOfList xs n = .ok (0 + 1)) := by
  obtain ⟨A, hA, hentry⟩ := ofList?_eq_some h
  have hsum : permanentOfList xs n = .ok A.permanent := by rw [permanentOfList, hA]
  constructor
  · rw [hsum, permanent_eq_sum]
    simp only [product_ofFn, hentry]
  · intro hn
    subst hn
    rw [hsum, permanent_eq_sum, zero_add]
    simp [productOver, productFrom]

theorem permanentOfList_two_rows :
    [1, 2, 3, 4].length = 2 * 2 ∧ permanentOfList [1, 2, 3, 4] 2 = .ok 10 :=
  ⟨rfl, (permanentOfList_eq_sum [1, 2, 3, 4] rfl).1.trans (congrArg Except.ok (by decide))⟩

end Sums

section Relations

variable [Zero S] [One S] [Add S] [Mul S]

section Sums

variable [AddCommMonoid T] {R : S → T → Prop}

theorem permanent_related_sum (h : RespectsSums R) {A : Grid S n n} {t : Equiv.Perm (Fin n) → T}
    (ht : ∀ σ : Equiv.Perm (Fin n), R (productOver fun i => A i (σ i)) (t σ)) :
    R A.permanent (∑ σ, t σ) :=
  h.sumArrangements_sum fun σ => by simpa only [term_arrangementOf] using ht σ

theorem permanentByParts_related_sum (h : RespectsSums R) (schedule : Schedule)
    {A : Grid S (n + 1) (n + 1)} {t : Equiv.Perm (Fin (n + 1)) → T}
    (ht : ∀ σ : Equiv.Perm (Fin (n + 1)), R (productOver fun i => A i (σ i)) (t σ)) :
    R (A.permanentByParts schedule) (∑ σ, t σ) := by
  have hpart : ∀ c, R (A.part c) (∑ τ, t (insertAt 0 c τ)) := fun c =>
    h.sumArrangements_sum fun τ => by simpa only [partTerm_arrangementOf] using ht (insertAt 0 c τ)
  rw [permanentByParts_eq_value, sum_perm_succ 0, ← schedule.value_eq_sum]
  exact h.reduction hpart _

end Sums

variable [Zero T] [One T] [Add T] [Mul T] {R : S → T → Prop}

theorem permanent_related (h : Respects R) {A : Grid S n n} {B : Grid T n n}
    (hAB : ∀ i j, R (A i j) (B i j)) : R A.permanent B.permanent :=
  h.sumArrangements fun p => h.productOver fun i => hAB i (p.get i)

theorem part_related (h : Respects R) {A : Grid S (n + 1) (n + 1)} {B : Grid T (n + 1) (n + 1)}
    (hAB : ∀ i j, R (A i j) (B i j)) (c : Fin (n + 1)) : R (A.part c) (B.part c) :=
  h.sumArrangements fun _ => h.productFrom (h.mul h.one (hAB 0 c)) fun i => hAB i.succ _

theorem permanentByParts_related (h : Respects R) (schedule : Schedule)
    {A : Grid S (n + 1) (n + 1)} {B : Grid T (n + 1) (n + 1)} (hAB : ∀ i j, R (A i j) (B i j)) :
    R (A.permanentByParts schedule) (B.permanentByParts schedule) := by
  rw [permanentByParts_eq_value, permanentByParts_eq_value]
  exact h.reduction (part_related h hAB) _

theorem permanent_map {g : S → T} (h : Preserves g) (A : Grid S n n) :
    (A.map g).permanent = g A.permanent :=
  (permanent_related h.respects fun i j => (map_apply g A i j).symm).symm

theorem permanentByParts_map {g : S → T} (h : Preserves g) (schedule : Schedule)
    (A : Grid S (n + 1) (n + 1)) :
    (A.map g).permanentByParts schedule = g (A.permanentByParts schedule) :=
  (permanentByParts_related h.respects schedule fun i j => (map_apply g A i j).symm).symm

end Relations

end Grid

end MaxPlus
