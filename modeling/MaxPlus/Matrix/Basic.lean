import MaxPlus.Failure
import MaxPlus.Grid.Basic

/-!
Matrices: grids whose shape is known when the program runs.

Reading an entry out of range is an error under `get` and a fault under `index`. Equality of
matrices looks at shape and values, `sameAs` at the marks too.
-/

set_option autoImplicit false
set_option relaxedAutoImplicit false

namespace MaxPlus

universe u

structure Matrix (S : Type u) where
  rows : Nat
  cols : Nat
  grid : Grid S rows cols

namespace Matrix

section Entries

variable {S : Type u}

def shape (A : Matrix S) : Shape :=
  ⟨A.rows, A.cols⟩

def isSquare (A : Matrix S) : Bool :=
  A.rows == A.cols

def toList (A : Matrix S) : List S :=
  A.grid.toList

def get? (A : Matrix S) (i j : Nat) : Option S :=
  if h : i < A.rows ∧ j < A.cols then some (A.grid ⟨i, h.1⟩ ⟨j, h.2⟩) else none

def transpose (A : Matrix S) : Matrix S :=
  ⟨A.cols, A.rows, A.grid.transpose⟩

/-- Equal shapes, and a relation between the entries at every place. -/
def related (p : S → S → Bool) (A B : Matrix S) : Bool :=
  if h : A.rows = B.rows ∧ A.cols = B.cols then (A.grid.cast h.1 h.2).related p B.grid else false

end Entries

variable {W : Type} [Weight W]

instance : BEq (Matrix (Element W)) := ⟨related (· == ·)⟩

def sameAs : Matrix (Element W) → Matrix (Element W) → Bool :=
  related Element.sameAs

def ghostSurpasses : Matrix (Element W) → Matrix (Element W) → Bool :=
  related Element.ghostSurpasses

/-- The entry in row `i` and column `j`; out of range it is an error. -/
def get (A : Matrix (Element W)) (i j : Nat) : Outcome W (Element W) :=
  match A.get? i j with
  | some a => .ok a
  | none => .error (.error (.indexOutOfRange i j A.shape))

/-- The entry in row `i` and column `j`; out of range it is a fault. -/
def index (A : Matrix (Element W)) (i j : Nat) : Outcome W (Element W) :=
  match A.get? i j with
  | some a => .ok a
  | none => .error (.fault (.indexOutOfRange i j A.shape))

/-- Row `i`; out of range it is a fault. -/
def row (A : Matrix (Element W)) (i : Nat) : Outcome W (List (Element W)) :=
  if h : i < A.rows then .ok (A.grid.row ⟨i, h⟩).toList else .error (.fault (.rowOutOfRange i))

/-- The matrix without row `i` and column `j`; out of range it is an error. -/
def minor (A : Matrix (Element W)) (i j : Nat) : Outcome W (Matrix (Element W)) :=
  match A with
  | ⟨r + 1, c + 1, g⟩ =>
    if h : i < r + 1 ∧ j < c + 1 then .ok ⟨r, c, g.minor ⟨i, h.1⟩ ⟨j, h.2⟩⟩
    else .error (.error (.indexOutOfRange i j A.shape))
  | _ => .error (.error (.indexOutOfRange i j A.shape))

/-- A line for each row between the two lines of the frame. -/
def text (A : Matrix (Element W)) : String :=
  let line (i : Fin A.rows) : String :=
    "[" ++ ", ".intercalate ((A.grid.row i).toList.map Element.text) ++ "]\n"
  "SupertropicalMatrix(\n" ++ String.join ((List.finRange A.rows).map line) ++ ")"

end Matrix

end MaxPlus
