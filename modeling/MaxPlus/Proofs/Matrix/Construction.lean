import MaxPlus.Proofs.Grid.Entries
import MaxPlus.Matrix.Construction

/-!
Where the entries of a built matrix come from.

A matrix that is built from a list, from rows or from a shape, or taken from another matrix, has no
entries but those it was given. So what holds of all that goes in holds of every entry.
-/

set_option autoImplicit false
set_option relaxedAutoImplicit false

namespace MaxPlus

universe u

namespace Grid

variable {S : Type u} {r c : ℕ}

private theorem mem_of_ofList?_eq_some {xs : List S} {A : Grid S r c} (h : ofList? r c xs = some A)
    (i : Fin r) (j : Fin c) : A i j ∈ xs := by
  rw [ofList?] at h
  split_ifs at h with hlength
  cases h
  simp [entry]

end Grid

namespace Matrix

section Taking

variable {W : Type} {p : Element W → Prop} {A B : Matrix (Element W)}

theorem forall_ofEntries {r c : ℕ} {xs : List (Element W)} (h : ofEntries r c xs = .ok A)
    (hxs : ∀ a ∈ xs, p a) : A.Forall p := by
  rw [ofEntries] at h
  split_ifs at h
  cases hlist : Grid.ofList? r c xs with
  | none =>
    rw [hlist] at h
    cases h
  | some g =>
    rw [hlist] at h
    cases h
    exact fun i j => hxs _ (Grid.mem_of_ofList?_eq_some hlist i j)

theorem forall_transpose (h : A.Forall p) : A.transpose.Forall p := by
  obtain ⟨r, c, A⟩ := A
  have hentry : ∀ j i, p (A.transpose j i) := fun j i => by
    rw [Grid.transpose_apply]
    exact h i j
  exact hentry

theorem forall_minor {i j : ℕ} (hB : A.minor i j = .ok B) (h : A.Forall p) : B.Forall p := by
  obtain ⟨r, c, A⟩ := A
  cases r with
  | zero => cases hB
  | succ r =>
    cases c with
    | zero => cases hB
    | succ c =>
      rw [minor] at hB
      split_ifs at hB
      cases hB
      intro k l
      rw [Grid.minor_apply]
      exact h _ _

theorem forall_get {i j : ℕ} {a : Element W} (ha : A.get i j = .ok a) (h : A.Forall p) : p a := by
  rw [get, get?] at ha
  split_ifs at ha
  cases ha
  exact h _ _

theorem forall_row {i : ℕ} {xs : List (Element W)} (hxs : A.row i = .ok xs) (h : A.Forall p) :
    ∀ a ∈ xs, p a := by
  rw [row] at hxs
  split_ifs at hxs with hi
  cases hxs
  intro a ha
  obtain ⟨j, hj, rfl⟩ := Vector.mem_iff_getElem.mp (Vector.mem_toList_iff.mp ha)
  rw [Grid.row, Vector.getElem_ofFn]
  exact h _ _

end Taking

private theorem forall_of_shape {W : Type} {p : Element W → Prop} {A : Matrix (Element W)} {r c : ℕ}
    {f : Fin r → Fin c → Element W} (h : (if (Shape.mk r c).fits then .ok ⟨r, c, Grid.ofFn f⟩
      else .error (.fault (.shapeTooLarge ⟨r, c⟩)) : Outcome W (Matrix (Element W))) = .ok A)
    (hf : ∀ i j, p (f i j)) : A.Forall p := by
  split_ifs at h
  cases h
  intro i j
  rw [Grid.ofFn_apply]
  exact hf i j

section Building

variable {W : Type} [Weight W] {p : Element W → Prop} {A : Matrix (Element W)}

theorem forall_zeros {r c : ℕ} (h : zeros r c = .ok A) (hzero : p 0) : A.Forall p :=
  forall_of_shape h fun _ _ => hzero

theorem forall_identity {n : ℕ} (h : identity n = .ok A) (hzero : p 0) (hone : p 1) :
    A.Forall p := by
  refine forall_of_shape h fun i j => ?_
  split_ifs
  · exact hone
  · exact hzero

end Building

section Numbers

variable {W α : Type} [ToElement α W] {p : Element W → Prop} {A : Matrix (Element W)}

theorem reported_eq_ok_iff {β : Type} {x : Except (Unsupported W) β} {b : β} :
    reported x = .ok b ↔ x = .ok b := by
  cases x <;> simp [reported]

theorem collect_eq_ok_iff {n : ℕ} {xs : Vector α n} {v : Vector (Element W) n} :
    ToElement.collect xs = .ok v ↔ ∀ k, ToElement.toElement (xs.get k) = .ok (v.get k) :=
  vector_mapM_eq_ok_iff

private theorem exists_of_convertRow_eq_ok {c : ℕ} {xs : List α} {v : Vector (Element W) c}
    (h : convertRow c xs = .ok v) (j : Fin c) :
    ∃ x ∈ xs, ToElement.toElement x = .ok (v.get j) := by
  rw [convertRow] at h
  split_ifs at h with hlength
  rw [reported_eq_ok_iff, collect_eq_ok_iff] at h
  exact ⟨_, by simp [Vector.get_eq_getElem], h j⟩

variable {rows : List (List α)}

def tableShape (rows : List (List α)) : Shape :=
  ⟨rows.length, (rows.headD []).length⟩

def tableOf {β : Type} (rows : List β) : Vector β rows.length :=
  ⟨rows.toArray, List.size_toArray⟩

theorem ofRows_of_fits (h : (tableShape rows).fits = true) :
    ofRows rows =
      ((tableOf rows).mapM (convertRow (rows.headD []).length)).map fun converted =>
        ⟨rows.length, (rows.headD []).length, Grid.ofFn fun i j => (converted.get i).get j⟩ := by
  refine (if_pos h).trans ?_
  cases hconverted : (tableOf rows).mapM (convertRow (rows.headD []).length) with
  | error f => exact congrArg (· >>= _) hconverted
  | ok converted => exact congrArg (· >>= _) hconverted

theorem ofRows_of_not_fits (h : (tableShape rows).fits ≠ true) :
    ofRows rows = .error (.error (.shapeMismatch .rowConstruction (tableShape rows)
      ⟨UInt64.size - 1, 1⟩)) :=
  if_neg h

/-- A table that makes a matrix can be counted, and each of its rows was converted. -/
theorem exists_of_ofRows_eq_ok (h : ofRows rows = .ok A) :
    (tableShape rows).fits = true ∧
      ∃ converted, (tableOf rows).mapM (convertRow (rows.headD []).length) = .ok converted ∧
        A = ⟨rows.length, (rows.headD []).length,
          Grid.ofFn fun i j => (converted.get i).get j⟩ := by
  by_cases hfits : (tableShape rows).fits = true
  · rw [ofRows_of_fits hfits] at h
    cases hconverted : (tableOf rows).mapM (convertRow (rows.headD []).length) with
    | error f =>
      rw [hconverted] at h
      cases h
    | ok converted =>
      rw [hconverted] at h
      cases h
      exact ⟨hfits, converted, rfl, rfl⟩
  · rw [ofRows_of_not_fits hfits] at h
    cases h

theorem forall_ofRows (h : ofRows rows = .ok A)
    (hrows : ∀ xs ∈ rows, ∀ x ∈ xs, ∀ a, ToElement.toElement x = .ok a → p a) : A.Forall p := by
  obtain ⟨-, converted, hconverted, rfl⟩ := exists_of_ofRows_eq_ok h
  intro i j
  obtain ⟨x, hx, ha⟩ := exists_of_convertRow_eq_ok (vector_mapM_eq_ok_iff.mp hconverted i) j
  rw [Grid.ofFn_apply]
  have hmem : (tableOf rows).get i ∈ rows := by simp [tableOf, Vector.get_eq_getElem]
  exact hrows _ hmem x hx _ ha

theorem exists_of_column_eq_ok {xs : List α} (h : column xs = .ok A) :
    ∃ converted, ToElement.collect (tableOf xs) = .ok converted ∧
      A = ⟨xs.length, 1, Grid.ofFn fun i _ => converted.get i⟩ := by
  obtain ⟨converted, hconverted, hA⟩ := exists_of_bind_eq_ok h
  cases hA
  exact ⟨converted, reported_eq_ok_iff.mp hconverted, rfl⟩

theorem forall_column {xs : List α} (h : column xs = .ok A)
    (hxs : ∀ x ∈ xs, ∀ a, ToElement.toElement x = .ok a → p a) : A.Forall p := by
  obtain ⟨converted, hconverted, rfl⟩ := exists_of_column_eq_ok h
  intro i j
  rw [Grid.ofFn_apply]
  have hmem : (tableOf xs).get i ∈ xs := by simp [tableOf, Vector.get_eq_getElem]
  exact hxs _ hmem _ (collect_eq_ok_iff.mp hconverted i)

end Numbers

end Matrix

end MaxPlus
