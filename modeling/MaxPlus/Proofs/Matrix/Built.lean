import MaxPlus.Proofs.Matrix.Product

/-!
The row-by-row layout of matrices.

However a matrix is built, its entries lie row by row in a list of their number, and a word can
count them. So every access to a row and a column in range stays inside the list, and so does every
slice of a row. The permanent and the adjoint pass on lists of the right length, so they never meet
a misfit, and only the shape or the order of the matrix makes them report an error.
-/

set_option autoImplicit false
set_option relaxedAutoImplicit false

namespace MaxPlus

namespace Matrix

variable {W : Type} [Weight W]

/-- What some sequence of operations gives, from the constructors on, each time with no more entries
than a word can count. -/
inductive Built : Matrix (Element W) → Prop
  | ofEntries {r c : ℕ} {xs : List (Element W)} {A : Matrix (Element W)}
    (h : ofEntries r c xs = .ok A) : Built A
  | ofRows {α : Type} [ToElement α W] {rows : List (List α)} {A : Matrix (Element W)}
    (h : ofRows rows = .ok A) : Built A
  | column {α : Type} [ToElement α W] {xs : List α} {A : Matrix (Element W)}
    (h : column xs = .ok A) (hfits : A.shape.fits = true) : Built A
  | zeros {r c : ℕ} {A : Matrix (Element W)} (h : zeros r c = .ok A) : Built A
  | identity {n : ℕ} {A : Matrix (Element W)} (h : identity n = .ok A) : Built A
  | transpose {A : Matrix (Element W)} (hA : Built A) : Built A.transpose
  | minor {A B : Matrix (Element W)} {i j : ℕ} (hA : Built A) (h : A.minor i j = .ok B) : Built B
  | mul {A B C : Matrix (Element W)} (hA : Built A) (hB : Built B) (h : A.mul B = .ok C)
    (hfits : C.shape.fits = true) : Built C
  | mulByRows {A B C : Matrix (Element W)} (hA : Built A) (hB : Built B)
    (h : A.mulByRows B = .ok C) (hfits : C.shape.fits = true) : Built C
  | scale {A B : Matrix (Element W)} {x : Element W} (hA : Built A) (h : A.scale x = .ok B) :
    Built B
  | scaleBy {α : Type} [ToElement α W] {A B : Matrix (Element W)} {x : α} (hA : Built A)
    (h : A.scaleBy x = .ok B) : Built B
  | adjoint {plan : Plan} {A B : Matrix (Element W)} (hA : Built A) (h : A.adjoint plan = .ok B) :
    Built B
  | solve {plan : Plan} {A b x : Matrix (Element W)} (hA : Built A) (hb : Built b)
    (h : A.solve plan b = .ok x) : Built x

theorem Built.fits {A : Matrix (Element W)} (h : Built A) : A.shape.fits = true := by
  induction h with
  | ofEntries h => exact fits_ofEntries h
  | ofRows h => exact fits_ofRows h
  | column _ hfits => exact hfits
  | zeros h => exact fits_zeros h
  | identity h => exact fits_identity h
  | transpose _ hA => exact fits_transpose hA
  | minor _ h hA => exact fits_minor hA h
  | mul _ _ _ hfits => exact hfits
  | mulByRows _ _ _ hfits => exact hfits
  | scale _ h hA => rw [shape_of_scale_eq_ok h, hA]
  | scaleBy _ h hA =>
    obtain ⟨a, -, hscale⟩ := exists_of_bind_eq_ok h
    rw [shape_of_scale_eq_ok hscale, hA]
  | adjoint _ h hA => rw [shape_of_adjoint_eq_ok h, hA]
  | solve _ _ h _ hb => rw [solution_shape_of_solve_eq_ok h, hb]

/-- The permanent of the list of the minor without row `j` and column `i`. -/
def minorPermanent (A : Matrix (Element W)) (i j : ℕ) : Except Grid.Misfit (Computed W) :=
  Grid.permanentOfList ((Grid.survivors A.toList A.cols j i).map .ok) (A.rows - 1)

/-- The entries lie row by row in a list of their number, each operation lists those of its result
in this order, and whatever reads the list stays in its bounds. -/
structure LaidOut (A : Matrix (Element W)) : Prop where
  length : A.toList.length = A.rows * A.cols
  fits : A.toList.length < UInt64.size
  /-- Row `i` and column `j` in range are place `i * c + j` of the list. -/
  entry : ∀ {i j : ℕ}, i < A.rows → j < A.cols →
    ∃ a, A.toList[i * A.cols + j]? = some a ∧ A.get i j = .ok a ∧ A.index i j = .ok a
  row : ∀ {i : ℕ}, i < A.rows → i * A.cols + A.cols ≤ A.toList.length ∧
    A.row i = .ok (A.toList.extract (i * A.cols) (i * A.cols + A.cols))
  /-- The numbers of a table become the entries, one row after the other. -/
  ofRows : ∀ {α : Type} [ToElement α W] {rows : List (List α)}, ofRows rows = .ok A →
    rows.flatten.map ToElement.toElement = A.toList.map .ok
  column : ∀ {α : Type} [ToElement α W] {xs : List α}, column xs = .ok A →
    xs.map ToElement.toElement = A.toList.map .ok
  mul_shape : ∀ {B C : Matrix (Element W)}, A.mul B = .ok C → C.shape = ⟨A.rows, B.cols⟩
  /-- A product goes through the columns of `B` for each row of `A`. -/
  mul_entries : ∀ {B C : Matrix (Element W)}, (A.mul B = .ok C ∨ A.mulByRows B = .ok C) →
    C.toList.map .ok = A.rowSlices.flatMap fun row =>
      (List.range B.cols).map fun j => Element.inner row (B.columnList j)
  scale_shape : ∀ {x : Element W} {B : Matrix (Element W)}, A.scale x = .ok B → B.shape = A.shape
  scale_entries : ∀ {x : Element W} {B : Matrix (Element W)}, A.scale x = .ok B →
    B.toList.map .ok = A.toList.map fun a => a.mul x
  adjoint_shape : ∀ {plan : Plan} {B : Matrix (Element W)}, A.adjoint plan = .ok B →
    B.shape = A.shape
  solve_shape : ∀ {plan : Plan} {b x : Matrix (Element W)}, A.solve plan b = .ok x →
    x.shape = b.shape
  transpose : A.transpose.toList = (List.range A.cols).flatMap fun j =>
    (List.range A.rows).filterMap fun i => A.toList[i * A.cols + j]?
  /-- A row and a column in range can be removed, and what is left has the right number. -/
  minor : ∀ {i j : ℕ}, i < A.rows → j < A.cols → ∃ B, A.minor i j = .ok B ∧
    B.shape = ⟨A.rows - 1, A.cols - 1⟩ ∧ B.toList = Grid.survivors A.toList A.cols i j
  /-- The permanent of the list, in sequence or by parts, never meets a misfit. -/
  permanent : ∀ plan : Plan, A.cols = A.rows → 0 < A.rows → A.rows ≤ plan.maxOrder →
    ∃ p, (if plan.isParallel A.rows then
        Grid.permanentByPartsOfList (A.toList.map .ok) A.rows plan.schedule
      else Grid.permanentOfList (A.toList.map .ok) A.rows) = .ok p ∧ A.permanent plan = demanded p
  /-- Each entry of the adjoint is the permanent of the list of a minor. -/
  adjoint_entry : ∀ {i j : ℕ}, A.cols = A.rows → i < A.rows → j < A.rows →
    ∃ B p, A.minor j i = .ok B ∧
      Grid.permanentOfList (B.toList.map .ok) (A.rows - 1) = .ok p ∧
      ∀ (plan : Plan) adj, A.adjoint plan = .ok adj → adj.get i j = demanded p
  /-- Two loops, one inside the other, list the entries of the adjoint, and so does a loop over
  their places. -/
  adjoint_entries : ∀ {plan : Plan} {adj : Matrix (Element W)}, A.adjoint plan = .ok adj →
    (adj.toList.map fun a => .ok (.ok a)) =
        ((List.range A.rows).flatMap fun i => (List.range A.rows).map (A.minorPermanent i)) ∧
      (adj.toList.map fun a => .ok (.ok a)) =
        (List.range (A.rows * A.rows)).map fun k => A.minorPermanent (k / A.rows) (k % A.rows)
  /-- The entries of the adjoint make a matrix, and up to the largest order nothing is reported. -/
  adjoint : ∀ plan : Plan, A.cols = A.rows → A.rows ≤ plan.maxOrder →
    (∀ e, A.adjoint plan ≠ .error (.error e)) ∧
      ∀ adj, A.adjoint plan = .ok adj → ofEntries A.rows A.rows adj.toList = .ok adj

section Squares

variable {n : ℕ}

private theorem permanentOfList_computed (A : Grid (Element W) n n) :
    Grid.permanentOfList (A.toList.map .ok) n = .ok A.computed.permanent := by
  rw [map_ok_toList, Grid.permanentOfList_toList]

private theorem exists_permanentOfList (plan : Plan) (A : Grid (Element W) (n + 1) (n + 1))
    (horder : n + 1 ≤ plan.maxOrder) : ∃ p, (if plan.isParallel (n + 1) then
        Grid.permanentByPartsOfList (A.toList.map .ok) (n + 1) plan.schedule
      else Grid.permanentOfList (A.toList.map .ok) (n + 1)) = .ok p ∧
        permanent plan ⟨n + 1, n + 1, A⟩ = demanded p := by
  refine ⟨plan.computePermanent A.computed, ?_, ?_⟩
  · rw [Plan.computePermanent, permanentOfList_computed, map_ok_toList,
      Grid.permanentByPartsOfList_toList]
    split_ifs <;> rfl
  · rw [permanent_mk, Plan.permanent_of_le A horder]

private theorem exists_adjoint_of_eq_ok {plan : Plan} {A : Grid (Element W) n n}
    {adj : Matrix (Element W)} (h : adjoint plan ⟨n, n, A⟩ = .ok adj) :
    ∃ B : Grid (Element W) n n, adj = ⟨n, n, B⟩ ∧
      ∀ i j, A.computed.adjoint i j = .ok (B i j) := by
  rw [adjoint_mk] at h
  rcases lt_or_ge plan.maxOrder n with hlarge | horder
  · rw [Plan.adjoint_of_lt A hlarge] at h
    cases h
  · rw [Plan.adjoint_of_le A horder] at h
    cases hsettled : A.computed.adjoint.settled with
    | error f =>
      rw [hsettled] at h
      cases h
    | ok B =>
      rw [hsettled] at h
      cases h
      exact ⟨B, rfl, Grid.settled_eq_ok_iff.mp hsettled⟩

private theorem exists_minor_permanentOfList (A : Grid (Element W) (n + 1) (n + 1))
    (i j : Fin (n + 1)) : ∃ B p, minor ⟨n + 1, n + 1, A⟩ j i = .ok B ∧
      Grid.permanentOfList (B.toList.map .ok) n = .ok p ∧
      ∀ (plan : Plan) adj, adjoint plan ⟨n + 1, n + 1, A⟩ = .ok adj →
        adj.get i j = demanded p := by
  refine ⟨⟨n, n, A.minor j i⟩, (A.minor j i).computed.permanent, minor_mk A j i,
    permanentOfList_computed _, ?_⟩
  intro plan adj hadj
  obtain ⟨B, rfl, hentry⟩ := exists_adjoint_of_eq_ok hadj
  have hB := hentry i j
  rw [Grid.adjoint_apply, Grid.minor_computed] at hB
  rw [get_mk, hB]
  rfl

private theorem adjoint_ne_error {plan : Plan} (A : Grid (Element W) n n)
    (horder : n ≤ plan.maxOrder) (e : Error W) : adjoint plan ⟨n, n, A⟩ ≠ .error (.error e) := by
  intro h
  rw [adjoint_mk, Plan.adjoint_of_le A horder] at h
  cases hsettled : A.computed.adjoint.settled with
  | error f =>
    obtain ⟨cause, rfl⟩ := Grid.settled_eq_error hsettled
    rw [hsettled] at h
    cases h
  | ok B =>
    rw [hsettled] at h
    cases h

end Squares

private theorem toList_of_scale_eq_ok {A B : Matrix (Element W)} {x : Element W}
    (h : A.scale x = .ok B) : B.toList.map .ok = A.toList.map fun a => a.mul x := by
  obtain ⟨g, hg, hB⟩ := exists_of_bind_eq_ok h
  cases hB
  calc g.toList.map .ok
      = (A.grid.computed.scale (.ok x)).toList := (Grid.toList_of_settled_eq_ok hg).symm
    _ = A.toList.map fun a => Except.ok a * Except.ok x := by
      rw [Grid.scale, Grid.computed, Grid.toList_map, Grid.toList_map, List.map_map]
      rfl
    _ = A.toList.map fun a => a.mul x := rfl

private theorem minorPermanent_of_adjoint_eq_ok {n : ℕ} {plan : Plan} {A B : Grid (Element W) n n}
    (h : adjoint plan ⟨n, n, A⟩ = .ok ⟨n, n, B⟩) (i j : Fin n) :
    minorPermanent ⟨n, n, A⟩ i j = .ok (.ok (B i j)) := by
  obtain ⟨C, hC, hentry⟩ := exists_adjoint_of_eq_ok h
  cases hC
  cases n with
  | zero => exact i.elim0
  | succ n =>
    have hlist : Grid.survivors A.toList (n + 1) j i = (A.minor j i).toList :=
      (A.toList_minor j i).symm
    have hentry := hentry i j
    rw [Grid.adjoint_apply, Grid.minor_computed] at hentry
    rw [← hentry, ← permanentOfList_computed, ← hlist]
    rfl

private theorem toList_of_adjoint_eq_ok {plan : Plan} {A adj : Matrix (Element W)}
    (h : A.adjoint plan = .ok adj) : (adj.toList.map fun a => .ok (.ok a)) =
      (List.range A.rows).flatMap fun i => (List.range A.rows).map (A.minorPermanent i) := by
  have hshape := shape_of_adjoint_eq_ok h
  have hsquare := cols_eq_rows_of_adjoint_eq_ok h
  obtain ⟨n, n', A⟩ := A
  obtain ⟨r, c, B⟩ := adj
  cases hshape
  obtain rfl : n' = n := hsquare
  have hentry := minorPermanent_of_adjoint_eq_ok h
  show (B.toList.map fun a => Except.ok (Except.ok a)) = _
  rw [Grid.toList_eq_flatMap, List.map_flatMap, ← List.map_coe_finRange_eq_range,
    List.flatMap_map]
  simp only [List.map_map, Function.comp_def, hentry]

/-- Everything that is built is laid out. -/
theorem laidOut_of_built {A : Matrix (Element W)} (h : Built A) : A.LaidOut := by
  have hfits := h.fits
  obtain ⟨r, c, A⟩ := A
  have hlength : toList ⟨r, c, A⟩ = A.toList := rfl
  constructor
  case length => exact A.length_toList
  case fits =>
    rw [hlength, A.length_toList]
    exact of_decide_eq_true hfits
  case entry =>
    intro i j hi hj
    exact ⟨A ⟨i, hi⟩ ⟨j, hj⟩, A.getElem?_toList ⟨i, hi⟩ ⟨j, hj⟩, get_mk A ⟨i, hi⟩ ⟨j, hj⟩,
      index_mk A ⟨i, hi⟩ ⟨j, hj⟩⟩
  case row =>
    intro i hi
    refine ⟨?_, row_mk A ⟨i, hi⟩⟩
    rw [hlength, A.length_toList]
    calc i * c + c = (i + 1) * c := (Nat.succ_mul i c).symm
      _ ≤ r * c := Nat.mul_le_mul_right c hi
  case ofRows => exact toList_of_ofRows_eq_ok
  case column => exact toList_of_column_eq_ok
  case mul_entries =>
    intro B C h
    have hmul : mul ⟨r, c, A⟩ B = .ok C := h.elim id (mulByRows_eq_mul _ B).symm.trans
    exact toList_of_mul_eq_ok (mul_eq_ok_iff.mp hmul).1 hmul
  case scale_entries => exact toList_of_scale_eq_ok
  case adjoint_entries =>
    intro plan adj hadj
    have hloops := toList_of_adjoint_eq_ok hadj
    exact ⟨hloops, hloops.trans (Grid.flatMap_range_eq_map _ r r)⟩
  case mul_shape => exact shape_of_mul_eq_ok
  case scale_shape => exact shape_of_scale_eq_ok
  case adjoint_shape => exact shape_of_adjoint_eq_ok
  case solve_shape => exact solution_shape_of_solve_eq_ok
  case transpose => exact A.toList_transpose
  case minor =>
    intro i j hi hj
    obtain ⟨r, rfl⟩ := Nat.exists_eq_succ_of_ne_zero (Nat.ne_zero_of_lt hi)
    obtain ⟨c, rfl⟩ := Nat.exists_eq_succ_of_ne_zero (Nat.ne_zero_of_lt hj)
    exact ⟨_, minor_mk A ⟨i, hi⟩ ⟨j, hj⟩, rfl, A.toList_minor ⟨i, hi⟩ ⟨j, hj⟩⟩
  case permanent =>
    intro plan hsquare hpos horder
    obtain rfl : c = r := hsquare
    obtain ⟨n, rfl⟩ := Nat.exists_eq_succ_of_ne_zero hpos.ne'
    exact exists_permanentOfList plan A horder
  case adjoint_entry =>
    intro i j hsquare hi hj
    obtain rfl : c = r := hsquare
    obtain ⟨n, rfl⟩ := Nat.exists_eq_succ_of_ne_zero (Nat.ne_zero_of_lt hi)
    exact exists_minor_permanentOfList A ⟨i, hi⟩ ⟨j, hj⟩
  case adjoint =>
    intro plan hsquare horder
    obtain rfl : c = r := hsquare
    refine ⟨adjoint_ne_error A horder, fun adj hadj => ?_⟩
    obtain ⟨B, rfl, -⟩ := exists_adjoint_of_eq_ok hadj
    exact ofEntries_toList B hfits

def tallMatrix : Matrix (Element Exact) :=
  transpose ⟨2, 3, ⟨#v[⟨.int 1, false⟩, ⟨.int 2, true⟩, ⟨.int 3, false⟩, ⟨.int 4, false⟩, 0,
    ⟨.int 6, false⟩]⟩⟩

theorem laidOut_of_built_tallMatrix :
    tallMatrix.Built ∧ tallMatrix.toList.length = 3 * 2 ∧
      (∃ a, tallMatrix.toList[2 * 2 + 0]? = some a ∧ tallMatrix.get 2 0 = .ok a) ∧
      ∃ B, tallMatrix.minor 1 0 = .ok B ∧ B.shape = ⟨2, 1⟩ ∧
        B.toList = [⟨.int 4, false⟩, ⟨.int 6, false⟩] := by
  have hentries : ofEntries 2 3 [⟨.int 1, false⟩, ⟨.int 2, true⟩, ⟨.int 3, false⟩,
    ⟨.int 4, false⟩, 0, ⟨.int 6, false⟩] = .ok tallMatrix.transpose := rfl
  have hbuilt : tallMatrix.Built := .transpose (.ofEntries hentries)
  have hlaid := laidOut_of_built hbuilt
  obtain ⟨a, hplace, hget, -⟩ := hlaid.entry (i := 2) (j := 0) (by decide) (by decide)
  obtain ⟨B, hB, hshape, hkept⟩ := hlaid.minor (i := 1) (j := 0) (by decide) (by decide)
  exact ⟨hbuilt, hlaid.length, ⟨a, hplace, hget⟩, B, hB, hshape, hkept⟩

end Matrix

end MaxPlus
