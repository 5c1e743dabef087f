import MaxPlus.Proofs.Matrix.Layout
import MaxPlus.Proofs.Matrix.Reachable

/-!
The ways to multiply.

Each entry of a product comes from a row and a column alone: their elements are multiplied place by
place, and the products are added from the first one on. A product in sequence, for which the
operator stands too, one with a task for each row and the product with a list all do this, so they
have one outcome, be it entries, marks and signs of zeros included, or the first overflow. In
particular a product of matrices has the products with the columns as its columns.
-/

set_option autoImplicit false
set_option relaxedAutoImplicit false

namespace MaxPlus

universe u

theorem sum_ofFn {S : Type u} [Zero S] [Add S] {n : ℕ} (f : Fin n → S) :
    sum (List.ofFn f) = sumOver f := by
  rw [sum, sumOver, Fin.foldl_eq_finRange_foldl, List.ofFn_eq_map, List.foldl_map]

private theorem demanded_eq_ok_iff {W α : Type} {x : Except (Unsupported W) α} {a : α} :
    demanded x = .ok a ↔ x = .ok a := by
  cases x <;> simp [demanded]

/-- What a row gives with a column. -/
def Element.inner {W : Type} [Weight W] (xs ys : List (Element W)) : Computed W :=
  sum (List.zipWith Element.mul xs ys : List (Computed W))

namespace Grid

variable {W : Type} {r k c : ℕ}

private theorem toList_row_eq_ofFn (A : Grid (Element W) r c) (i : Fin r) :
    (A.row i).toList = List.ofFn fun j => A i j := by
  rw [row, Vector.toList_ofFn]

private theorem settled_map_toList (A : Grid (Computed W) r c) :
    A.settled.map toList = demanded (A.toList.mapM id) := by
  rw [settled, sequence, toList, ← toList_mapM]
  cases (A.entries.mapM id : Except (Unsupported W) (Vector (Element W) (r * c))) <;> rfl

theorem toList_of_settled_eq_ok {A : Grid (Computed W) r c} {B : Grid (Element W) r c}
    (h : A.settled = .ok B) : A.toList = B.toList.map .ok := by
  have hlist := A.settled_map_toList
  rw [h] at hlist
  rw [← mapM_eq_ok_iff_map.mp (demanded_eq_ok_iff.mp hlist.symm), List.map_id]

variable [Weight W]

private theorem inner_ofFn (x y : Fin k → Element W) :
    Element.inner (List.ofFn x) (List.ofFn y) = sumOver fun t => (x t).mul (y t) := by
  rw [Element.inner, ← sum_ofFn]
  congr 1
  simp only [List.ofFn_eq_map, List.zipWith_map, List.zipWith_self]

private theorem mul_computed_apply (A : Grid (Element W) r k) (B : Grid (Element W) k c) (i : Fin r)
    (j : Fin c) : A.computed.mul B.computed i j =
      Element.inner (A.row i).toList (List.ofFn fun t => B t j) := by
  rw [mul_apply, dot, toList_row_eq_ofFn, inner_ofFn]
  simp only [computed_apply, Computed.ok_mul_ok]

private theorem toList_mulVec_computed (A : Grid (Element W) r c) (xs : List (Element W))
    (h : (xs.map Except.ok : List (Computed W)).toArray.size = c) :
    (A.computed.mulVec ⟨(xs.map .ok).toArray, h⟩).toList =
      List.ofFn fun i => Element.inner (A.row i).toList xs := by
  obtain rfl : xs.length = c := by simpa using h
  rw [mulVec, Vector.toList_ofFn]
  congr 1
  funext i
  have hxs : List.ofFn (fun j : Fin xs.length => xs[j.val]) = xs := List.ofFn_getElem
  calc (sumOver fun j => A.computed i j * (Vector.mk (xs.map Except.ok).toArray h)[j])
      = sumOver fun j => (A i j).mul xs[j.val] := by
        congr 1
        funext j
        rw [computed_apply]
        simp
    _ = Element.inner (A.row i).toList xs := by rw [← inner_ofFn, hxs, toList_row_eq_ofFn]

end Grid

namespace Matrix

section Lines

variable {S : Type} {r c : ℕ}

def rowSlices (A : Matrix S) : List (List S) :=
  (List.range A.rows).map fun i => A.toList.extract (i * A.cols) (i * A.cols + A.cols)

def columnList (A : Matrix S) (j : ℕ) : List S :=
  (List.range A.rows).filterMap fun i => A.get? i j

private theorem rowSlices_mk (A : Grid S r c) :
    rowSlices ⟨r, c, A⟩ = (List.finRange r).map fun i => (A.row i).toList := by
  rw [rowSlices, ← List.map_coe_finRange_eq_range, List.map_map]
  congr 1
  funext i
  exact (A.toList_row i).symm

private theorem columnList_mk (A : Grid S r c) (j : Fin c) :
    columnList ⟨r, c, A⟩ j = List.ofFn fun i => A i j := by
  rw [columnList, ← List.map_coe_finRange_eq_range, List.filterMap_map, List.ofFn_eq_map,
    ← List.filterMap_eq_map]
  congr 1
  funext i
  exact get?_mk A i j

theorem exists_column {W : Type} (xs : List (Element W)) :
    ∃ b : Matrix (Element W), column xs = .ok b ∧ b.shape = ⟨xs.length, 1⟩ ∧
      b.columnList 0 = xs ∧ b.toList = xs := by
  have hconverted : ToElement.collect (tableOf xs) = .ok (tableOf xs) :=
    collect_eq_ok_iff.mpr fun _ => rfl
  refine ⟨⟨xs.length, 1, Grid.ofFn fun i _ => (tableOf xs).get i⟩, ?_, rfl, ?_, ?_⟩
  · exact congrArg (reported · >>= _) hconverted
  · refine (columnList_mk _ (0 : Fin 1)).trans ?_
    simp [tableOf, Vector.get_eq_getElem]
  · exact toList_single (tableOf xs)

end Lines

variable {W : Type} [Weight W] {r k c : ℕ}

private theorem mulVec_of_length {A : Matrix (Element W)} {xs : List (Element W)}
    (h : xs.length = A.cols) :
    A.mulVec xs = demanded ((A.rowSlices.map fun row => Element.inner row xs).mapM id) := by
  obtain ⟨r, c, A⟩ := A
  rw [mulVec, dif_pos h]
  simp only [Grid.toList_mulVec_computed]
  rw [rowSlices_mk, List.map_map, List.ofFn_eq_map]
  rfl

private theorem mulVec_of_mismatch {A : Matrix (Element W)} {xs : List (Element W)}
    (h : xs.length ≠ A.cols) :
    A.mulVec xs = .error (.error (.shapeMismatch .vectorProduct A.shape ⟨xs.length, 1⟩)) :=
  dif_neg h

private theorem mul_of_mismatch {A B : Matrix (Element W)} (h : A.cols ≠ B.rows) :
    A.mul B = .error (.error (.shapeMismatch .matrixProduct A.shape B.shape)) := by
  rw [mul_def, dif_neg h]

private theorem mul_mk (A : Grid (Element W) r k) (B : Grid (Element W) k c) :
    mul ⟨r, k, A⟩ ⟨k, c, B⟩ = (A.computed.mul B.computed).settled.map fun C => ⟨r, c, C⟩ := by
  rw [mul_def, dif_pos rfl, Grid.cast_rfl]
  cases (A.computed.mul B.computed).settled <;> rfl

private theorem mul_map_toList {A B : Matrix (Element W)} (h : A.cols = B.rows) :
    (A.mul B).map toList = demanded ((A.rowSlices.flatMap fun row =>
      (List.range B.cols).map fun j => Element.inner row (B.columnList j)).mapM id) := by
  obtain ⟨r, k, A⟩ := A
  obtain ⟨k', c, B⟩ := B
  obtain rfl : k = k' := h
  have hentries : (A.computed.mul B.computed).toList = (rowSlices ⟨r, k, A⟩).flatMap fun row =>
      (List.range c).map fun j => Element.inner row (columnList ⟨k, c, B⟩ j) := by
    rw [rowSlices_mk, List.flatMap_map, Grid.toList_eq_flatMap, ← List.map_coe_finRange_eq_range]
    simp only [List.map_map, Function.comp_def, columnList_mk, Grid.mul_computed_apply]
  rw [mul_mk, ← hentries, ← Grid.settled_map_toList]
  cases (A.computed.mul B.computed).settled <;> rfl

theorem toList_of_mul_eq_ok {A B C : Matrix (Element W)} (hinner : A.cols = B.rows)
    (h : A.mul B = .ok C) :
    C.toList.map .ok = A.rowSlices.flatMap fun row =>
      (List.range B.cols).map fun j => Element.inner row (B.columnList j) := by
  have hentries := mul_map_toList hinner
  rw [h] at hentries
  rw [← mapM_eq_ok_iff_map.mp (demanded_eq_ok_iff.mp hentries.symm), List.map_id]

section Columns

private theorem mulVec_eq_mul_column {A b : Matrix (Element W)} {xs : List (Element W)}
    (h : xs.length = A.cols) (hshape : b.shape = ⟨xs.length, 1⟩) (hb : b.columnList 0 = xs) :
    A.mulVec xs = (A.mul b).map toList := by
  have hrows : b.rows = xs.length := congrArg Shape.rows hshape
  have hcols : b.cols = 1 := congrArg Shape.cols hshape
  rw [mulVec_of_length h, mul_map_toList (h.symm.trans hrows.symm), hcols]
  simp only [List.range_one, List.map_singleton, hb, ← List.map_eq_flatMap]

private theorem mulVec_mk_eq_ok_iff {A : Grid (Element W) r c} {xs : List (Element W)}
    (h : xs.length = c) {y : Fin r → Element W} : mulVec ⟨r, c, A⟩ xs = .ok (List.ofFn y) ↔
      ∀ i, Element.inner (A.row i).toList xs = .ok (y i) := by
  rw [mulVec_of_length h, demanded_eq_ok_iff, rowSlices_mk, List.map_map, ← List.ofFn_eq_map,
    mapM_ofFn_eq_ok_iff]
  rfl

private theorem mul_mk_eq_ok_iff {A : Grid (Element W) r k} {B : Grid (Element W) k c}
    {C : Grid (Element W) r c} : mul ⟨r, k, A⟩ ⟨k, c, B⟩ = .ok ⟨r, c, C⟩ ↔
      ∀ j : Fin c, mulVec ⟨r, k, A⟩ (columnList ⟨k, c, B⟩ j) = .ok (columnList ⟨r, c, C⟩ j) := by
  have hsettled : mul ⟨r, k, A⟩ ⟨k, c, B⟩ = .ok ⟨r, c, C⟩ ↔
      (A.computed.mul B.computed).settled = .ok C := by
    rw [mul_mk]
    cases (A.computed.mul B.computed).settled <;> simp [Except.map]
  rw [hsettled, Grid.settled_eq_ok_iff, forall_comm]
  refine forall_congr' fun j => ?_
  rw [columnList_mk, columnList_mk, mulVec_mk_eq_ok_iff List.length_ofFn]
  simp only [Grid.mul_computed_apply]

theorem mul_eq_ok_iff {A B C : Matrix (Element W)} :
    A.mul B = .ok C ↔ A.cols = B.rows ∧ C.shape = ⟨A.rows, B.cols⟩ ∧
      ∀ j < B.cols, A.mulVec (B.columnList j) = .ok (C.columnList j) := by
  by_cases hinner : A.cols = B.rows
  · have hshape := shape_of_mul_eq_ok (A := A) (B := B) (C := C)
    obtain ⟨r, k, A⟩ := A
    obtain ⟨k', c, B⟩ := B
    obtain ⟨r', c', C⟩ := C
    obtain rfl : k = k' := hinner
    constructor
    · intro h
      obtain ⟨rfl, rfl⟩ : r' = r ∧ c' = c := Shape.mk.inj (hshape h)
      exact ⟨rfl, rfl, fun j hj => mul_mk_eq_ok_iff.mp h ⟨j, hj⟩⟩
    · rintro ⟨-, hshape', hcolumns⟩
      obtain ⟨rfl, rfl⟩ : r' = r ∧ c' = c := Shape.mk.inj hshape'
      exact mul_mk_eq_ok_iff.mpr fun j => hcolumns j j.isLt
  · rw [mul_of_mismatch hinner]
    exact iff_of_false nofun fun h => hinner h.1

end Columns

/-- The ways to multiply with `A` from the left have one outcome. Equal outcomes have equal entries,
marks and signs of zeros included, or one failure. -/
structure ProductsAgree (A : Matrix (Element W)) : Prop where
  operator : ∀ B, A * B = A.mul B
  byRows : ∀ B, A.mulByRows B = A.mul B
  mismatch : ∀ B, A.cols ≠ B.rows →
    A.mul B = .error (.error (.shapeMismatch .matrixProduct A.shape B.shape))
  /-- The entries lie row by row, and each comes from a row of `A` and a column of `B`. -/
  entries : ∀ B, A.cols = B.rows → (A.mul B).map toList = demanded ((A.rowSlices.flatMap fun row =>
    (List.range B.cols).map fun j => Element.inner row (B.columnList j)).mapM id)
  /-- The product with a list is the product with its column. -/
  column : ∀ xs, ∃ b, column xs = .ok b ∧ b.shape = ⟨xs.length, 1⟩ ∧ b.toList = xs ∧
    (xs.length = A.cols → A.mulVec xs = (A.mul b).map toList) ∧
    (xs.length ≠ A.cols →
      A.mulVec xs = .error (.error (.shapeMismatch .vectorProduct A.shape b.shape)) ∧
        A.mul b = .error (.error (.shapeMismatch .matrixProduct A.shape b.shape)))
  /-- The columns of a product are the products with the columns. -/
  columns : ∀ B C, A.mul B = .ok C ↔ A.cols = B.rows ∧ C.shape = ⟨A.rows, B.cols⟩ ∧
    ∀ j < B.cols, A.mulVec (B.columnList j) = .ok (C.columnList j)

/-- Over every weight type, rounded sums and marked `-∞` included, all ways to multiply agree. -/
theorem productsAgree (A : Matrix (Element W)) : A.ProductsAgree where
  operator _ := rfl
  byRows B := A.mulByRows_eq_mul B
  mismatch _ := mul_of_mismatch
  entries _ := mul_map_toList
  column xs := by
    obtain ⟨b, hb, hshape, hcolumn, hlist⟩ := exists_column xs
    refine ⟨b, hb, hshape, hlist, fun h => mulVec_eq_mul_column h hshape hcolumn, fun h => ?_⟩
    have hrows : b.rows = xs.length := congrArg Shape.rows hshape
    rw [mulVec_of_mismatch h, mul_of_mismatch (by omega), hshape]
    exact ⟨rfl, rfl⟩
  columns _ _ := mul_eq_ok_iff

def markedDebts : Matrix (Element Float) :=
  ⟨2, 2, Grid.ofFn fun i j => ⟨Reachable.hugeDebt, i != j⟩⟩

def twoDebts : List (Element Float) :=
  [⟨Reachable.hugeDebt, false⟩, ⟨Reachable.hugeDebt, false⟩]

theorem productsAgree_markedDebts :
    ∃ (b C : Matrix (Element Float)) (ys : List (Element Float)), column twoDebts = .ok b ∧
      markedDebts.mul b = .ok C ∧ markedDebts.mulByRows b = .ok C ∧
      markedDebts.mulVec twoDebts = .ok ys ∧ C.toList = ys ∧
      ys.map Element.isZero = [true, true] ∧ ys.map Element.ghost = [true, false] := by
  have hagree := productsAgree markedDebts
  obtain ⟨b, hb, -, -, hcolumn, -⟩ := hagree.column twoDebts
  have hequal := hcolumn rfl
  have hvalues : ((markedDebts.mulVec twoDebts).toOption.map fun ys =>
      (ys.map Element.isZero, ys.map Element.ghost)) = some ([true, true], [true, false]) := by
    decide +kernel
  rw [hequal] at hvalues
  cases hC : markedDebts.mul b with
  | error f =>
    rw [hC] at hvalues
    cases hvalues
  | ok C =>
    rw [hC] at hvalues hequal
    obtain ⟨hzeros, hghosts⟩ := Prod.mk.inj (Option.some.inj hvalues)
    exact ⟨b, C, C.toList, hb, hC, (hagree.byRows b).trans hC, hequal, rfl, hzeros, hghosts⟩

end Matrix

end MaxPlus
