import MaxPlus.Proofs.Grid.Transpose
import MaxPlus.Proofs.Matrix.Layout

/-!
Minors of matrices of any shape.

Where a row and a column are taken out, the ones behind them move up by one. So an entry of the
minor is the entry at the place that it had before. Two rows and two columns can be taken out in
either order, if the second ones go by the numbers that are theirs after the first are gone, and to
take them out of the transpose is to transpose what is left.
-/

set_option autoImplicit false
set_option relaxedAutoImplicit false

namespace MaxPlus

/-- The number that `p` had before number `i` was taken out. -/
def numberBefore (i p : ℕ) : ℕ :=
  if p < i then p else p + 1

def numberAfter (i p : ℕ) : ℕ :=
  if p < i then p else p - 1

section Numbers

variable {i p n : ℕ}

private theorem numberBefore_lt_iff (hi : i ≤ n) : numberBefore i p < n + 1 ↔ p < n := by
  rw [numberBefore]
  split_ifs <;> omega

private theorem numberAfter_lt (hi : i < n + 1) (hp : p < n + 1) (hne : i ≠ p) :
    numberAfter i p < n := by
  rw [numberAfter]
  split_ifs <;> omega

private theorem numberBefore_comm (hne : i ≠ n) (p : ℕ) :
    numberBefore i (numberBefore (numberAfter i n) p) =
      numberBefore n (numberBefore (numberAfter n i) p) := by
  simp only [numberBefore, numberAfter]
  rcases hne.lt_or_gt with hlt | hgt
  all_goals split_ifs <;> omega

end Numbers

private theorem Grid.val_skip {n : ℕ} (i : Fin (n + 1)) (p : Fin n) :
    (Grid.skip i p).val = numberBefore i p := by
  rw [Grid.skip, numberBefore]
  split_ifs <;> rfl

namespace Matrix

variable {W : Type} {A B : Matrix (Element W)} {i j : ℕ}

private theorem exists_grid_of_lt (hi : i < A.rows) (hj : j < A.cols) :
    ∃ r c, ∃ (C : Grid (Element W) (r + 1) (c + 1)) (k : Fin (r + 1)) (l : Fin (c + 1)),
      A = ⟨r + 1, c + 1, C⟩ ∧ i = k ∧ j = l := by
  obtain ⟨r, c, C⟩ := A
  obtain ⟨r, rfl⟩ := Nat.exists_eq_succ_of_ne_zero (Nat.ne_zero_of_lt hi)
  obtain ⟨c, rfl⟩ := Nat.exists_eq_succ_of_ne_zero (Nat.ne_zero_of_lt hj)
  exact ⟨r, c, C, ⟨i, hi⟩, ⟨j, hj⟩, rfl, rfl, rfl⟩

private theorem minor_of_not_lt (h : ¬(i < A.rows ∧ j < A.cols)) :
    A.minor i j = .error (.error (.indexOutOfRange i j A.shape)) := by
  obtain ⟨r, c, A⟩ := A
  cases r with
  | zero => rfl
  | succ r =>
    cases c with
    | zero => rfl
    | succ c => rw [minor, dif_neg h]

private theorem get?_minor {r c : ℕ} (A : Grid (Element W) (r + 1) (c + 1)) (i : Fin (r + 1))
    (j : Fin (c + 1)) (p q : ℕ) : get? ⟨r, c, A.minor i j⟩ p q =
      get? ⟨r + 1, c + 1, A⟩ (numberBefore i p) (numberBefore j q) := by
  have hrow := numberBefore_lt_iff (p := p) (Nat.lt_succ_iff.mp i.isLt)
  have hcol := numberBefore_lt_iff (p := q) (Nat.lt_succ_iff.mp j.isLt)
  by_cases h : p < r ∧ q < c
  · have hentry := get?_mk A (Grid.skip i ⟨p, h.1⟩) (Grid.skip j ⟨q, h.2⟩)
    rw [Grid.val_skip, Grid.val_skip] at hentry
    rw [hentry, ← Grid.minor_apply]
    exact get?_mk (A.minor i j) ⟨p, h.1⟩ ⟨q, h.2⟩
  · rw [get?_eq_none h, get?_eq_none]
    rwa [hrow, hcol]

/-- `B` is what is left of `A` without row `i` and column `j`. -/
structure Without (A B : Matrix (Element W)) (i j : ℕ) : Prop where
  shape : B.shape = ⟨A.rows - 1, A.cols - 1⟩
  entry : ∀ {p q : ℕ}, p < A.rows - 1 → q < A.cols - 1 →
    ∃ a, A.get (numberBefore i p) (numberBefore j q) = .ok a ∧ B.get p q = .ok a
  /-- In the list of the entries the places in row `i` and in column `j` are dropped. -/
  toList : B.toList = Grid.survivors A.toList A.cols i j
  transpose : A.transpose.minor j i = .ok B.transpose

private theorem exists_minor_without (hi : i < A.rows) (hj : j < A.cols) :
    ∃ B, A.minor i j = .ok B ∧ A.Without B i j := by
  obtain ⟨r, c, A, i, j, rfl, rfl, rfl⟩ := exists_grid_of_lt hi hj
  refine ⟨_, minor_mk A i j, ?_⟩
  constructor
  case shape => rfl
  case entry =>
    intro p q hp hq
    have hentry := get?_minor A i j p q
    rw [get?_mk (A.minor i j) ⟨p, hp⟩ ⟨q, hq⟩] at hentry
    refine ⟨A.minor i j ⟨p, hp⟩ ⟨q, hq⟩, ?_, get_mk (A.minor i j) ⟨p, hp⟩ ⟨q, hq⟩⟩
    rw [get, ← hentry]
  case toList => exact A.toList_minor i j
  case transpose =>
    rw [Matrix.transpose, minor_mk, A.minor_transpose]
    rfl

def withoutTwo (A : Matrix (Element W)) (i i' j j' : ℕ) : Outcome W (Matrix (Element W)) := do
  (← A.minor i j).minor (numberAfter i i') (numberAfter j j')

structure TwoOf (n i i' : ℕ) : Prop where
  lt : i < n
  lt' : i' < n
  ne : i ≠ i'

theorem TwoOf.symm {n i i' : ℕ} (h : TwoOf n i i') : TwoOf n i' i :=
  ⟨h.lt', h.lt, h.ne.symm⟩

private theorem exists_withoutTwo {i' j' : ℕ} (hi : TwoOf A.rows i i') (hj : TwoOf A.cols j j') :
    ∃ C, A.withoutTwo i i' j j' = .ok C ∧ C.shape = ⟨A.rows - 2, A.cols - 2⟩ ∧
      ∀ p q, C.get? p q = A.get? (numberBefore i (numberBefore (numberAfter i i') p))
        (numberBefore j (numberBefore (numberAfter j j') q)) := by
  obtain ⟨r, c, A, i, j, rfl, rfl, rfl⟩ := exists_grid_of_lt hi.lt hj.lt
  have hrow : numberAfter i i' < r := numberAfter_lt hi.lt hi.lt' hi.ne
  have hcol : numberAfter j j' < c := numberAfter_lt hj.lt hj.lt' hj.ne
  obtain ⟨r, c, M, k, l, hM, hk, hl⟩ :=
    exists_grid_of_lt (A := ⟨r, c, A.minor i j⟩) hrow hcol
  cases hM
  refine ⟨⟨r, c, (A.minor i j).minor k l⟩, ?_, rfl, fun p q => ?_⟩
  · rw [withoutTwo, minor_mk]
    simp only [bind, Except.bind]
    rw [hk, hl, minor_mk]
  · rw [get?_minor, get?_minor, hk, hl]

private theorem exists_withoutTwo_eq {i' j' : ℕ} (hi : TwoOf A.rows i i') (hj : TwoOf A.cols j j') :
    ∃ C, A.withoutTwo i i' j j' = .ok C ∧ A.withoutTwo i' i j j' = .ok C ∧
      A.withoutTwo i i' j' j = .ok C ∧ A.withoutTwo i' i j' j = .ok C := by
  obtain ⟨C, hC, hshape, hentry⟩ := exists_withoutTwo hi hj
  -- What is left has one shape in every order, so it only matters where its entries are read.
  have heq : ∀ {k k' l l' : ℕ}, TwoOf A.rows k k' → TwoOf A.cols l l' →
      (∀ p, numberBefore k (numberBefore (numberAfter k k') p) =
        numberBefore i (numberBefore (numberAfter i i') p)) →
      (∀ q, numberBefore l (numberBefore (numberAfter l l') q) =
        numberBefore j (numberBefore (numberAfter j j') q)) →
      A.withoutTwo k k' l l' = .ok C := by
    intro k k' l l' hk hl hrows hcols
    obtain ⟨D, hD, hshape', hentry'⟩ := exists_withoutTwo hk hl
    rw [hD]
    refine congrArg Except.ok (ext_get? (hshape'.trans hshape.symm) fun p q => ?_)
    rw [hentry, hentry', hrows, hcols]
  have hrows := numberBefore_comm hi.ne.symm
  have hcols := numberBefore_comm hj.ne.symm
  exact ⟨C, hC, heq hi.symm hj hrows fun _ => rfl, heq hi hj.symm (fun _ => rfl) hcols,
    heq hi.symm hj.symm hrows hcols⟩

/-- A row and a column can be taken out where both are in range, and what is left has the entries
of the other rows and columns in their order. Two rows and two columns can be taken out in any
order. -/
theorem minor_eq_without (A : Matrix (Element W)) (i j : ℕ) :
    (A.minor i j = .error (.error (.indexOutOfRange i j A.shape)) ↔
      A.rows ≤ i ∨ A.cols ≤ j) ∧
    (i < A.rows → j < A.cols → ∃ B, A.minor i j = .ok B ∧ A.Without B i j) ∧
    ∀ i' j', TwoOf A.rows i i' → TwoOf A.cols j j' →
      ∃ C, A.withoutTwo i i' j j' = .ok C ∧ A.withoutTwo i' i j j' = .ok C ∧
        A.withoutTwo i i' j' j = .ok C ∧ A.withoutTwo i' i j' j = .ok C := by
  refine ⟨?_, exists_minor_without, fun i' j' => exists_withoutTwo_eq⟩
  by_cases h : i < A.rows ∧ j < A.cols
  · obtain ⟨B, hB, -⟩ := exists_minor_without h.1 h.2
    rw [hB]
    exact iff_of_false nofun (by omega)
  · exact iff_of_true (minor_of_not_lt h) (by omega)

def numbered : Matrix (Element Exact) :=
  ⟨3, 4, Grid.ofFn fun i j => ⟨.int (10 * i.val + j.val), i.val == j.val⟩⟩

theorem minor_eq_without_numbered :
    numbered.minor 1 4 = .error (.error (.indexOutOfRange 1 4 ⟨3, 4⟩)) ∧
      (∃ B, numbered.minor 1 2 = .ok B ∧ numbered.Without B 1 2 ∧
        B.toList = [⟨.int 0, true⟩, ⟨.int 1, false⟩, ⟨.int 3, false⟩, ⟨.int 20, false⟩,
          ⟨.int 21, false⟩, ⟨.int 23, false⟩]) ∧
      TwoOf 3 1 0 ∧ TwoOf 4 2 3 ∧
      ∃ C, numbered.withoutTwo 1 0 2 3 = .ok C ∧ numbered.withoutTwo 0 1 3 2 = .ok C ∧
        C.toList = [⟨.int 20, false⟩, ⟨.int 21, false⟩] := by
  obtain ⟨herror, -, -⟩ := minor_eq_without numbered 1 4
  obtain ⟨-, hminor, htwo⟩ := minor_eq_without numbered 1 2
  have hrows : TwoOf 3 1 0 := ⟨by decide, by decide, by decide⟩
  have hcols : TwoOf 4 2 3 := ⟨by decide, by decide, by decide⟩
  obtain ⟨B, hB, hwithout⟩ := hminor (by decide) (by decide)
  obtain ⟨C, hC, -, -, hC'⟩ := htwo 0 3 hrows hcols
  refine ⟨herror.mpr (Or.inr le_rfl), ⟨B, hB, hwithout, ?_⟩, hrows, hcols, C, hC, hC', ?_⟩
  · cases hB
    rfl
  · cases hC
    rfl

end Matrix

end MaxPlus
