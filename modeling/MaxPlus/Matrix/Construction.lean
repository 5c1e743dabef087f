import MaxPlus.Element.Conversion
import MaxPlus.Matrix.Basic

/-!
Matrices from entries, rows, columns and shapes.

The first row of a table says how many columns there are. A table whose entries a word cannot count
is reported before any row is read. Then the rows are taken in turn: a row must be as long as the
first one and is converted from its first number on, and what fails first is reported. Beyond their
number nothing is asked of the entries: memory for them is taken to be there.
-/

set_option autoImplicit false
set_option relaxedAutoImplicit false

namespace MaxPlus

namespace Matrix

variable {W : Type} [Weight W]

/-- The matrix of a shape with the given entries, row by row. -/
def ofEntries (rows cols : Nat) (entries : List (Element W)) : Outcome W (Matrix (Element W)) :=
  let mismatch : Outcome W (Matrix (Element W)) :=
    .error (.error (.shapeMismatch .construction ⟨rows, cols⟩ ⟨entries.length, 1⟩))
  if (Shape.mk rows cols).fits then
    match Grid.ofList? rows cols entries with
    | some g => .ok ⟨rows, cols, g⟩
    | none => mismatch
  else mismatch

section Numbers

variable {α : Type} [ToElement α W]

/-- The elements of a row that must have `cols` numbers. -/
def convertRow (cols : Nat) (xs : List α) : Outcome W (Vector (Element W) cols) :=
  if h : xs.length = cols then
    reported (ToElement.collect ⟨xs.toArray, by simpa using h⟩)
  else .error (.error (.shapeMismatch .rowConstruction ⟨1, cols⟩ ⟨1, xs.length⟩))

/-- The matrix of a list of rows; no rows make the matrix without rows and columns. -/
def ofRows (rows : List (List α)) : Outcome W (Matrix (Element W)) :=
  let cols := (rows.headD []).length
  let table : Vector (List α) rows.length := ⟨rows.toArray, by simp⟩
  if (Shape.mk rows.length cols).fits then do
    let converted ← table.mapM (convertRow cols)
    return ⟨rows.length, cols, Grid.ofFn fun i j => converted[i][j]⟩
  else
    .error (.error (.shapeMismatch .rowConstruction ⟨rows.length, cols⟩ ⟨UInt64.size - 1, 1⟩))

def column (xs : List α) : Outcome W (Matrix (Element W)) := do
  let converted ← reported (ToElement.collect ⟨xs.toArray, List.size_toArray⟩)
  return ⟨xs.length, 1, Grid.ofFn fun i _ => converted[i]⟩

end Numbers

/-- A grid of the given shape if its entries can be counted. -/
private def ofShape (rows cols : Nat) (f : Fin rows → Fin cols → Element W) :
    Outcome W (Matrix (Element W)) :=
  if (Shape.mk rows cols).fits then .ok ⟨rows, cols, Grid.ofFn f⟩
  else .error (.fault (.shapeTooLarge ⟨rows, cols⟩))

def zeros (rows cols : Nat) : Outcome W (Matrix (Element W)) :=
  ofShape rows cols fun _ _ => 0

def identity (n : Nat) : Outcome W (Matrix (Element W)) :=
  ofShape n n fun i j => if i = j then 1 else 0

end Matrix

end MaxPlus
