import MaxPlus.Proofs.Grid.Layout
import MaxPlus.Proofs.Matrix.Construction
import MaxPlus.Proofs.Matrix.Normal

/-!
Shapes and places.

Every operation fixes the shape of its result, and what is in the row and the column of a place is
found in the list of the entries. A matrix is its shape with the entries at all places.
-/

set_option autoImplicit false
set_option relaxedAutoImplicit false

namespace MaxPlus

namespace Matrix

section Shapes

variable {W : Type} {A B : Matrix (Element W)}

theorem fits_transpose (h : A.shape.fits = true) : A.transpose.shape.fits = true := by
  rw [Shape.fits, decide_eq_true_eq] at h ⊢
  calc A.cols * A.rows = A.rows * A.cols := Nat.mul_comm _ _
    _ < UInt64.size := h

private theorem shape_of_minor_eq_ok {i j : ℕ} (h : A.minor i j = .ok B) :
    B.shape = ⟨A.rows - 1, A.cols - 1⟩ := by
  obtain ⟨r, c, A⟩ := A
  cases r with
  | zero => cases h
  | succ r =>
    cases c with
    | zero => cases h
    | succ c =>
      rw [minor] at h
      split_ifs at h
      cases h
      rfl

theorem fits_minor {i j : ℕ} (hA : A.shape.fits = true) (h : A.minor i j = .ok B) :
    B.shape.fits = true := by
  rw [shape_of_minor_eq_ok h]
  rw [Shape.fits, decide_eq_true_eq] at hA ⊢
  calc (A.rows - 1) * (A.cols - 1)
      ≤ A.rows * A.cols := Nat.mul_le_mul (Nat.sub_le _ 1) (Nat.sub_le _ 1)
    _ < UInt64.size := hA

private theorem fits_of_shape {r c : ℕ} {f : Fin r → Fin c → Element W}
    (h : (if (Shape.mk r c).fits then .ok ⟨r, c, Grid.ofFn f⟩
      else .error (.fault (.shapeTooLarge ⟨r, c⟩)) : Outcome W (Matrix (Element W))) = .ok A) :
    A.shape.fits = true := by
  split_ifs at h with hfits
  cases h
  exact hfits

theorem fits_zeros [Weight W] {r c : ℕ} (h : zeros r c = .ok A) : A.shape.fits = true :=
  fits_of_shape h

theorem fits_identity [Weight W] {n : ℕ} (h : identity n = .ok A) : A.shape.fits = true :=
  fits_of_shape h

theorem fits_ofRows {α : Type} [ToElement α W] {rows : List (List α)} (h : ofRows rows = .ok A) :
    A.shape.fits = true := by
  obtain ⟨hfits, converted, -, rfl⟩ := exists_of_ofRows_eq_ok h
  exact hfits

theorem fits_ofEntries {r c : ℕ} {xs : List (Element W)} (h : ofEntries r c xs = .ok A) :
    A.shape.fits = true := by
  rw [ofEntries] at h
  split_ifs at h with hfits
  cases hlist : Grid.ofList? r c xs with
  | none =>
    rw [hlist] at h
    cases h
  | some g =>
    rw [hlist] at h
    cases h
    exact hfits

variable [Weight W]

theorem shape_of_mul_eq_ok {C : Matrix (Element W)} (h : A.mul B = .ok C) :
    C.shape = ⟨A.rows, B.cols⟩ := by
  rw [mul_def] at h
  split_ifs at h with hinner
  obtain ⟨g, -, hC⟩ := exists_of_bind_eq_ok h
  cases hC
  rfl

theorem shape_of_scale_eq_ok {x : Element W} (h : A.scale x = .ok B) : B.shape = A.shape := by
  obtain ⟨g, -, hB⟩ := exists_of_bind_eq_ok h
  cases hB
  rfl

theorem cols_eq_rows_of_adjoint_eq_ok {plan : Plan} (h : A.adjoint plan = .ok B) :
    A.cols = A.rows := by
  obtain ⟨g, hg, -⟩ := exists_of_bind_eq_ok h
  rw [square] at hg
  split_ifs at hg with hsquare
  exact hsquare

theorem shape_of_adjoint_eq_ok {plan : Plan} (h : A.adjoint plan = .ok B) :
    B.shape = A.shape := by
  have hsquare := cols_eq_rows_of_adjoint_eq_ok h
  obtain ⟨g, -, h⟩ := exists_of_bind_eq_ok h
  obtain ⟨adj, -, hB⟩ := exists_of_bind_eq_ok h
  cases hB
  rw [shape, shape, hsquare]

theorem solution_shape_of_solve_eq_ok {plan : Plan} {b x : Matrix (Element W)}
    (h : A.solve plan b = .ok x) : x.shape = b.shape := by
  obtain ⟨-, hshape⟩ := shape_of_solve_eq_ok h
  obtain ⟨system, -, h⟩ := exists_of_bind_eq_ok h
  rw [dif_pos ⟨congrArg Shape.rows hshape, congrArg Shape.cols hshape⟩] at h
  obtain ⟨solution, -, hx⟩ := exists_of_bind_eq_ok h
  cases hx
  exact hshape.symm

end Shapes

section Places

variable {S : Type}

theorem get?_mk {r c : ℕ} (A : Grid S r c) (i : Fin r) (j : Fin c) :
    get? ⟨r, c, A⟩ i j = some (A i j) :=
  dif_pos ⟨i.isLt, j.isLt⟩

theorem get?_eq_none {A : Matrix S} {i j : ℕ} (h : ¬(i < A.rows ∧ j < A.cols)) :
    A.get? i j = none :=
  dif_neg h

theorem ext_get? {A B : Matrix S} (hshape : A.shape = B.shape)
    (h : ∀ i j, A.get? i j = B.get? i j) : A = B := by
  obtain ⟨r, c, A⟩ := A
  obtain ⟨r', c', B⟩ := B
  cases hshape
  congr 1
  apply Grid.ext
  intro i j
  have hentry := h i j
  rw [get?_mk, get?_mk] at hentry
  exact Option.some.inj hentry

end Places

section Reading

variable {W : Type} {r c : ℕ} (A : Grid (Element W) r c)

theorem get_mk (i : Fin r) (j : Fin c) : get ⟨r, c, A⟩ i j = .ok (A i j) := by
  rw [get, get?, dif_pos ⟨i.isLt, j.isLt⟩]

theorem index_mk (i : Fin r) (j : Fin c) : index ⟨r, c, A⟩ i j = .ok (A i j) := by
  rw [index, get?, dif_pos ⟨i.isLt, j.isLt⟩]

theorem row_mk (i : Fin r) :
    row ⟨r, c, A⟩ i = .ok (A.toList.extract (i.val * c) (i.val * c + c)) := by
  rw [row, dif_pos i.isLt, A.toList_row]

theorem minor_mk (A : Grid (Element W) (r + 1) (c + 1)) (i : Fin (r + 1)) (j : Fin (c + 1)) :
    minor ⟨r + 1, c + 1, A⟩ i j = .ok ⟨r, c, A.minor i j⟩ := by
  rw [minor, dif_pos ⟨i.isLt, j.isLt⟩]

theorem map_ok_toList : A.toList.map .ok = A.computed.toList :=
  (Grid.toList_map _ A).symm

theorem ofEntries_toList (h : (Shape.mk r c).fits = true) :
    ofEntries r c A.toList = .ok ⟨r, c, A⟩ := by
  rw [ofEntries, if_pos h, Grid.ofList?_toList]

end Reading

section Numbers

private theorem map_get_finRange {S : Type} {n : ℕ} (v : Vector S n) :
    (List.finRange n).map v.get = v.toList := by
  rw [← List.ofFn_eq_map, ← Vector.toList_ofFn]
  congr 1
  ext i hi
  rw [Vector.getElem_ofFn, Vector.get_eq_getElem]

theorem toList_single {S : Type} {n : ℕ} (v : Vector S n) :
    (Grid.ofFn fun i (_ : Fin 1) => v.get i).toList = v.toList := by
  rw [Grid.toList_eq_flatMap, ← map_get_finRange v, List.map_eq_flatMap]
  simp only [Grid.ofFn_apply]
  rfl

private theorem toList_rows {S : Type} {r c : ℕ} (vs : Vector (Vector S c) r) :
    (Grid.ofFn fun i j => (vs.get i).get j).toList = (vs.toList.map Vector.toList).flatten := by
  rw [Grid.toList_eq_flatMap, ← map_get_finRange vs, List.map_map, List.flatMap_def]
  congr 2
  funext i
  simp only [Grid.ofFn_apply, Function.comp_apply]
  exact map_get_finRange (vs.get i)

variable {W α : Type} [ToElement α W] {A : Matrix (Element W)}

private theorem map_toElement_of_collect_eq_ok {n : ℕ} {xs : Vector α n} {v : Vector (Element W) n}
    (h : ToElement.collect xs = .ok v) : xs.toList.map ToElement.toElement = v.toList.map .ok :=
  vector_mapM_eq_ok_iff_map.mp h

private theorem map_toElement_of_convertRow_eq_ok {c : ℕ} {xs : List α} {v : Vector (Element W) c}
    (h : convertRow c xs = .ok v) : xs.map ToElement.toElement = v.toList.map .ok := by
  rw [convertRow] at h
  split_ifs at h
  exact map_toElement_of_collect_eq_ok (reported_eq_ok_iff.mp h)

theorem toList_of_column_eq_ok {xs : List α} (h : column xs = .ok A) :
    xs.map ToElement.toElement = A.toList.map .ok := by
  obtain ⟨converted, hconverted, rfl⟩ := exists_of_column_eq_ok h
  rw [toList, toList_single]
  exact map_toElement_of_collect_eq_ok hconverted

/-- The entries of a table are the elements of its numbers, one row after the other. -/
theorem toList_of_ofRows_eq_ok {rows : List (List α)} (h : ofRows rows = .ok A) :
    rows.flatten.map ToElement.toElement = A.toList.map .ok := by
  obtain ⟨-, converted, hconverted, rfl⟩ := exists_of_ofRows_eq_ok h
  have hrows : List.Forall₂ (fun xs v => xs.map ToElement.toElement = v.toList.map .ok)
      (tableOf rows).toList converted.toList := by
    rw [vector_mapM_eq_ok_iff_toList, mapM_eq_ok_iff] at hconverted
    exact hconverted.imp fun _ _ => map_toElement_of_convertRow_eq_ok
  rw [← List.forall₂_map_right_iff, ← List.forall₂_map_left_iff, List.forall₂_eq_eq_eq] at hrows
  calc rows.flatten.map ToElement.toElement
      = (rows.map fun xs => xs.map ToElement.toElement).flatten := List.map_flatten ..
    _ = (converted.toList.map fun v => v.toList.map .ok).flatten := congrArg List.flatten hrows
    _ = (converted.toList.map Vector.toList).flatten.map .ok := by
      rw [List.map_flatten, List.map_map]
      rfl
    _ = _ := by rw [toList, toList_rows]

end Numbers

end Matrix

end MaxPlus
