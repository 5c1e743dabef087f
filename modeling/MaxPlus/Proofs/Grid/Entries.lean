import MaxPlus.Proofs.Algebra.Results
import MaxPlus.Matrix.Basic

/-!
Relations between grids and between matrices, entry by entry.
-/

set_option autoImplicit false
set_option relaxedAutoImplicit false

namespace MaxPlus

universe u v

namespace Grid

variable {S : Type u} {T : Type v} {r c : ℕ}

theorem getElem_entries (A : Grid S r c) (p : Fin (r * c)) :
    A.entries[p] = A (rowOf p) (colOf p) := by
  have hplace : (rowOf p).val * c + (colOf p).val = p.val := by
    rw [rowOf, colOf, Nat.mul_comm]
    exact Nat.div_add_mod p.val c
  simp [entry, hplace]

theorem related_iff {p : S → T → Bool} {A : Grid S r c} {B : Grid T r c} :
    A.related p B = true ↔ ∀ i j, p (A i j) (B i j) = true := by
  rw [related, Vector.all_eq_true]
  constructor
  · intro h i j
    simpa [entry] using h (i.val * c + j.val) (place_lt i j)
  · intro h k hk
    have hA := A.getElem_entries ⟨k, hk⟩
    have hB := B.getElem_entries ⟨k, hk⟩
    simp only [Fin.getElem_fin] at hA hB
    rw [Vector.getElem_zipWith, hA, hB]
    exact h _ _

theorem sequence_eq_ok_iff {ε : Type u} {A : Grid (Except ε S) r c} {B : Grid S r c} :
    A.sequence = .ok B ↔ ∀ i j, A i j = .ok (B i j) := by
  have hentries : A.sequence = .ok B ↔ A.entries.mapM id = .ok B.entries := by
    rw [sequence]
    cases A.entries.mapM id with
    | error e => exact iff_of_false nofun nofun
    | ok v =>
      constructor
      · intro h
        cases h
        rfl
      · intro h
        cases h
        rfl
  rw [hentries, vector_mapM_eq_ok_iff]
  constructor
  · intro h i j
    simpa [entry, Vector.get_eq_getElem] using h ⟨i.val * c + j.val, place_lt i j⟩
  · intro h k
    have hA : A.entries.get k = A (rowOf k) (colOf k) := A.getElem_entries k
    have hB : B.entries.get k = B (rowOf k) (colOf k) := B.getElem_entries k
    rw [hA, hB]
    exact h _ _

end Grid

namespace Matrix

variable {S : Type u}

theorem related_mk {r c : ℕ} (p : S → S → Bool) (A B : Grid S r c) :
    related p ⟨r, c, A⟩ ⟨r, c, B⟩ = A.related p B := by
  rw [related, dif_pos ⟨rfl, rfl⟩, Grid.cast_rfl]

theorem exists_grids_of_related {p : S → S → Bool} {A B : Matrix S} (h : A.related p B = true) :
    ∃ r c, ∃ C D : Grid S r c, A = ⟨r, c, C⟩ ∧ B = ⟨r, c, D⟩ ∧ ∀ i j, p (C i j) (D i j) = true := by
  obtain ⟨r, c, C⟩ := A
  obtain ⟨r', c', D⟩ := B
  by_cases hshape : r = r' ∧ c = c'
  · obtain ⟨rfl, rfl⟩ := hshape
    rw [related_mk, Grid.related_iff] at h
    exact ⟨r, c, C, D, rfl, rfl, h⟩
  · rw [related, dif_neg hshape] at h
    cases h

theorem related_column_iff {n : ℕ} {p : S → S → Bool} {x y : Grid S n 1} :
    related p ⟨n, 1, x⟩ ⟨n, 1, y⟩ = true ↔ ∀ i, p (x i 0) (y i 0) = true := by
  rw [related_mk, Grid.related_iff]
  simp only [Fin.forall_fin_one]

def Forall (p : S → Prop) (A : Matrix S) : Prop :=
  ∀ i j, p (A.grid i j)

instance (p : S → Prop) [DecidablePred p] (A : Matrix S) : Decidable (A.Forall p) :=
  inferInstanceAs (Decidable (∀ i j, p (A.grid i j)))

end Matrix

end MaxPlus
