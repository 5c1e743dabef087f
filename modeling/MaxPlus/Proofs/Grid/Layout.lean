import MaxPlus.Proofs.Grid.Permanent

/-!
The row-by-row layout of the entries of a grid.

A grid of `r` rows and `c` columns lies in a list of `r * c` entries, and the entry in row `i` and
column `j` stands at place `i * c + j`. A row is a slice of the list. To remove a row and a column
is to drop the places whose quotient or remainder by `c` is theirs, and what is left is as long as
the smaller grid needs.
-/

set_option autoImplicit false
set_option relaxedAutoImplicit false

namespace MaxPlus

namespace Grid

universe u v

variable {S : Type u} {T : Type v} {r c : ℕ}

theorem length_toList (A : Grid S r c) : A.toList.length = r * c := by
  simp [toList]

theorem getElem?_toList (A : Grid S r c) (i : Fin r) (j : Fin c) :
    A.toList[i.val * c + j.val]? = some (A i j) := by
  have hplace := place_lt i j
  rw [List.getElem?_eq_getElem (by rw [length_toList]; exact hplace)]
  simp [toList, entry]

theorem toList_map (f : S → T) (A : Grid S r c) : (A.map f).toList = A.toList.map f := by
  rw [toList, toList, map, Vector.toList_map]

theorem toList_eq_flatMap (A : Grid S r c) :
    A.toList = (List.finRange r).flatMap fun i => (List.finRange c).map fun j => A i j := by
  have hentries : A.toList = List.ofFn fun k : Fin (r * c) => A.entries[k] := by
    apply List.ext_getElem
    · simp [toList]
    · intro k hk _
      simp [toList]
  rw [hentries, List.ofFn_mul, List.flatMap_def, List.ofFn_eq_map]
  simp only [List.ofFn_eq_map]
  rfl

/-- The places of two loops, one inside the other, are counted by quotient and remainder. -/
theorem flatMap_range_eq_map (f : ℕ → ℕ → S) (r c : ℕ) :
    ((List.range r).flatMap fun i => (List.range c).map (f i)) =
      (List.range (r * c)).map fun k => f (k / c) (k % c) := by
  induction r with
  | zero => rw [Nat.zero_mul, List.range_zero, List.flatMap_nil, List.map_nil]
  | succ r ih =>
    have hrow : ((List.range c).map fun j => f ((r * c + j) / c) ((r * c + j) % c)) =
        (List.range c).map (f r) := by
      refine List.map_congr_left fun j hj => ?_
      have hj : j < c := List.mem_range.mp hj
      have hpos : 0 < c := Nat.zero_lt_of_lt hj
      rw [Nat.mul_comm r c, Nat.mul_add_div hpos, Nat.div_eq_of_lt hj, Nat.mul_add_mod,
        Nat.mod_eq_of_lt hj, Nat.add_zero]
    rw [List.range_succ, List.flatMap_append, List.flatMap_singleton, ih, Nat.succ_mul,
      List.range_add, List.map_append, List.map_map]
    exact congrArg _ hrow.symm

theorem ofList?_toList (A : Grid S r c) : ofList? r c A.toList = some A := by
  rw [ofList?, dif_pos A.length_toList]
  rfl

theorem toList_row (A : Grid S r c) (i : Fin r) :
    (A.row i).toList = A.toList.extract (i.val * c) (i.val * c + c) := by
  have hrow : (i.val + 1) * c ≤ r * c := Nat.mul_le_mul_right c i.isLt
  rw [Nat.succ_mul] at hrow
  apply List.ext_getElem?
  intro j
  by_cases hj : j < c
  · have hentry := A.getElem?_toList i ⟨j, hj⟩
    rw [List.extract_eq_take_drop, List.getElem?_take_of_lt (by omega), List.getElem?_drop, hentry]
    simp [row, hj]
  · rw [List.getElem?_eq_none (by simpa using hj),
      List.getElem?_eq_none (by simp [length_toList]; omega)]

theorem toList_transpose (A : Grid S r c) :
    A.transpose.toList =
      (List.range c).flatMap fun j => (List.range r).filterMap fun i => A.toList[i * c + j]? := by
  have hcolumn : ∀ j : Fin c, ((List.range r).filterMap fun i => A.toList[i * c + j.val]?) =
      (List.finRange r).map fun i => A i j := by
    intro j
    rw [← List.map_coe_finRange_eq_range, List.filterMap_map, ← List.filterMap_eq_map]
    congr 1
    funext i
    exact A.getElem?_toList i j
  rw [toList_eq_flatMap, ← List.map_coe_finRange_eq_range (n := c), List.flatMap_map]
  simp only [hcolumn, transpose_apply]

section Minors

/-- What is left of a list of rows of `c` entries without the places in row `i` and column `j`. -/
def survivors (xs : List S) (c i j : ℕ) : List S :=
  (xs.zipIdx.filter fun x => x.2 / c != i && x.2 % c != j).map Prod.fst

private theorem flatMap_filter {α : Type v} {β : Type u} (p : α → Bool) (f : α → List β)
    (xs : List α) : (xs.filter p).flatMap f = xs.flatMap fun x => if p x then f x else [] := by
  induction xs with
  | nil => rfl
  | cons x xs ih =>
    rw [List.filter_cons, List.flatMap_cons, ← ih]
    split_ifs
    · rw [List.flatMap_cons]
    · rfl

private theorem filter_ne_finRange {n : ℕ} (i : Fin (n + 1)) :
    (List.finRange (n + 1)).filter (· != i) = (List.finRange n).map (skip i) := by
  have hmono : StrictMono (skip i) := by
    rw [skip_eq_succAbove]
    exact i.strictMono_succAbove
  have hkept : ((List.finRange (n + 1)).filter (· != i)).SortedLT :=
    ((List.sortedLT_finRange (n + 1)).pairwise.filter _).sortedLT
  have hskipped : ((List.finRange n).map (skip i)).SortedLT :=
    hmono.sortedLT_listMap.mpr (List.sortedLT_finRange n)
  refine hkept.eq_of_mem_iff hskipped fun k => ?_
  simp only [List.mem_filter, List.mem_finRange, true_and, bne_iff_ne, List.mem_map,
    skip_eq_succAbove]
  exact Fin.exists_succAbove_eq_iff.symm

private theorem zipIdx_toList (A : Grid S r c) :
    A.toList.zipIdx = (List.finRange r).flatMap fun i =>
      (List.finRange c).map fun j => (A i j, i.val * c + j.val) := by
  have hplaces : A.toList.zipIdx = (ofFn fun i j => (A i j, i.val * c + j.val)).toList := by
    apply List.ext_getElem
    · simp [length_toList]
    · intro k hk _
      have hk' : k < r * c := by simpa [length_toList] using hk
      have hentry := A.getElem_entries ⟨k, hk'⟩
      have hplace : (rowOf (⟨k, hk'⟩ : Fin (r * c))).val * c +
          (colOf (⟨k, hk'⟩ : Fin (r * c))).val = k := by
        rw [rowOf, colOf, Nat.mul_comm]
        exact Nat.div_add_mod k c
      simp only [Fin.getElem_fin] at hentry
      simp [toList, ofFn, hentry, hplace]
  rw [hplaces, toList_eq_flatMap]
  simp only [ofFn_apply]

/-- The entries that a smaller grid keeps are those at the places that are not dropped. -/
theorem toList_minor (A : Grid S (r + 1) (c + 1)) (i : Fin (r + 1)) (j : Fin (c + 1)) :
    (A.minor i j).toList = survivors A.toList (c + 1) i j := by
  have hquotient : ∀ (k : Fin (r + 1)) (l : Fin (c + 1)),
      (k.val * (c + 1) + l.val) / (c + 1) = k.val := fun k l => by
    rw [Nat.add_comm, Nat.add_mul_div_right _ _ (Nat.succ_pos c), Nat.div_eq_of_lt l.isLt,
      Nat.zero_add]
  have hremainder : ∀ (k : Fin (r + 1)) (l : Fin (c + 1)),
      (k.val * (c + 1) + l.val) % (c + 1) = l.val := fun k l => by
    rw [Nat.add_comm, Nat.add_mul_mod_self_right, Nat.mod_eq_of_lt l.isLt]
  have hval : ∀ {n : ℕ} (k l : Fin n), (k.val != l.val) = (k != l) := fun k l => by
    rw [bne, bne, Bool.eq_iff_iff]
    simp [Fin.ext_iff]
  have hrow : ∀ k : Fin (r + 1),
      ((List.finRange (c + 1)).filter fun l => k.val != i.val && l.val != j.val).map (A k) =
        if k != i then (List.finRange c).map fun q => A k (skip j q) else [] := by
    intro k
    simp only [hval]
    split_ifs with hk
    · rw [hk]
      simp only [Bool.true_and]
      rw [filter_ne_finRange, List.map_map]
      rfl
    · rw [Bool.not_eq_true] at hk
      simp [hk]
  calc (A.minor i j).toList
      = (List.finRange r).flatMap fun p =>
          (List.finRange c).map fun q => A (skip i p) (skip j q) := by
        rw [toList_eq_flatMap]
        simp only [minor_apply]
    _ = ((List.finRange (r + 1)).filter (· != i)).flatMap fun k =>
          (List.finRange c).map fun q => A k (skip j q) := by
        rw [filter_ne_finRange, List.flatMap_map]
    _ = (List.finRange (r + 1)).flatMap fun k =>
          ((List.finRange (c + 1)).filter fun l => k.val != i.val && l.val != j.val).map (A k) := by
        rw [flatMap_filter]
        simp only [hrow]
    _ = survivors A.toList (c + 1) i j := by
        rw [survivors, zipIdx_toList, List.filter_flatMap, List.map_flatMap]
        simp only [List.filter_map, List.map_map, Function.comp_def, hquotient, hremainder]

end Minors

section Permanents

variable [Zero S] [One S] [Add S] [Mul S] {n : ℕ}

theorem permanentOfList_toList (A : Grid S n n) :
    permanentOfList A.toList n = .ok A.permanent := by
  rw [permanentOfList, ofList?_toList]

theorem permanentByPartsOfList_toList (schedule : Schedule) (A : Grid S (n + 1) (n + 1)) :
    permanentByPartsOfList A.toList (n + 1) schedule = .ok (A.permanentByParts schedule) := by
  rw [permanentByPartsOfList, ofList?_toList]

end Permanents

end Grid

end MaxPlus
