/-!
Rectangular grids of entries, with their shape in the type.

The entries are stored row by row. `Grid.ofFn` builds a grid and `A i j` reads it; `ofFn_apply`
and `ext` say that a grid is no more than the function from places to entries.
-/

set_option autoImplicit false
set_option relaxedAutoImplicit false

namespace MaxPlus

universe u v

/-- An entry of `S` for each of `r` rows and `c` columns, stored row by row. -/
structure Grid (S : Type u) (r c : Nat) where
  entries : Vector S (r * c)

namespace Grid

variable {S : Type u} {T : Type v} {r c : Nat}

theorem place_lt (i : Fin r) (j : Fin c) : i.val * c + j.val < r * c := by
  have h : (i.val + 1) * c ≤ r * c := Nat.mul_le_mul_right c i.isLt
  rw [Nat.succ_mul] at h
  omega

def entry (A : Grid S r c) (i : Fin r) (j : Fin c) : S :=
  have := place_lt i j
  A.entries[i.val * c + j.val]

instance : CoeFun (Grid S r c) fun _ => Fin r → Fin c → S := ⟨entry⟩

def rowOf (k : Fin (r * c)) : Fin r :=
  ⟨k.val / c, Nat.div_lt_of_lt_mul (Nat.mul_comm r c ▸ k.isLt)⟩

def colOf (k : Fin (r * c)) : Fin c :=
  ⟨k.val % c, Nat.mod_lt _ (Nat.pos_of_ne_zero fun h => by
    have := k.isLt
    simp [h] at this)⟩

def ofFn (f : Fin r → Fin c → S) : Grid S r c :=
  ⟨Vector.ofFn fun k => f (rowOf k) (colOf k)⟩

@[simp] theorem ofFn_apply (f : Fin r → Fin c → S) (i : Fin r) (j : Fin c) :
    ofFn f i j = f i j := by
  have hc : 0 < c := Nat.lt_of_le_of_lt (Nat.zero_le _) j.isLt
  have hi : (i.val * c + j.val) / c = i.val := by
    rw [Nat.add_comm, Nat.add_mul_div_right _ _ hc, Nat.div_eq_of_lt j.isLt, Nat.zero_add]
  have hj : (i.val * c + j.val) % c = j.val := by
    rw [Nat.add_comm, Nat.add_mul_mod_self_right, Nat.mod_eq_of_lt j.isLt]
  simp only [entry, ofFn, Vector.getElem_ofFn]
  congr 1
  · exact Fin.ext hi
  · exact Fin.ext hj

theorem ext {A B : Grid S r c} (h : ∀ i j, A i j = B i j) : A = B := by
  cases A with
  | mk as =>
  cases B with
  | mk bs =>
  congr
  apply Vector.ext
  intro k hk
  have hplace : (rowOf ⟨k, hk⟩).val * c + (colOf ⟨k, hk⟩).val = k := by
    simpa [rowOf, colOf, Nat.mul_comm] using Nat.div_add_mod k c
  simpa [entry, hplace] using h (rowOf ⟨k, hk⟩) (colOf ⟨k, hk⟩)

/-- The grid of a list of entries, row by row, if their number is right. -/
def ofList? (r c : Nat) (xs : List S) : Option (Grid S r c) :=
  if h : xs.length = r * c then some ⟨⟨xs.toArray, by simpa using h⟩⟩ else none

def toList (A : Grid S r c) : List S :=
  A.entries.toList

def map (f : S → T) (A : Grid S r c) : Grid T r c :=
  ⟨A.entries.map f⟩

@[simp] theorem map_apply (f : S → T) (A : Grid S r c) (i : Fin r) (j : Fin c) :
    A.map f i j = f (A i j) := by
  simp [entry, map]

def row (A : Grid S r c) (i : Fin r) : Vector S c :=
  Vector.ofFn fun j => A i j

def transpose (A : Grid S r c) : Grid S c r :=
  ofFn fun j i => A i j

@[simp] theorem transpose_apply (A : Grid S r c) (j : Fin c) (i : Fin r) :
    A.transpose j i = A i j := by
  simp [transpose]

def related (p : S → T → Bool) (A : Grid S r c) (B : Grid T r c) : Bool :=
  (Vector.zipWith p A.entries B.entries).all id

def cast {r' c' : Nat} (hr : r = r') (hc : c = c') (A : Grid S r c) : Grid S r' c' :=
  hr ▸ hc ▸ A

@[simp] theorem cast_rfl (A : Grid S r c) : A.cast rfl rfl = A := rfl

/-- Skips place `i` of one more: the places from `i` on move up by one. -/
def skip {n : Nat} (i : Fin (n + 1)) (p : Fin n) : Fin (n + 1) :=
  if p.val < i.val then p.castSucc else p.succ

/-- The grid without row `i` and column `j`. -/
def minor (A : Grid S (r + 1) (c + 1)) (i : Fin (r + 1)) (j : Fin (c + 1)) : Grid S r c :=
  ofFn fun p q => A (skip i p) (skip j q)

@[simp] theorem minor_apply (A : Grid S (r + 1) (c + 1)) (i : Fin (r + 1)) (j : Fin (c + 1))
    (p : Fin r) (q : Fin c) : A.minor i j p q = A (skip i p) (skip j q) := by
  simp [minor]

/-- A grid of results becomes the result of a grid: the first failure in the row-by-row order,
if there is one. -/
def sequence {ε : Type v} (A : Grid (Except ε S) r c) : Except ε (Grid S r c) :=
  (A.entries.mapM id).map mk

end Grid

end MaxPlus
