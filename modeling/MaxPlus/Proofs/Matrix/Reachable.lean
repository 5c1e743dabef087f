import MaxPlus.Proofs.Element.Watched
import MaxPlus.Proofs.Matrix.Construction
import MaxPlus.Proofs.Matrix.Simulation

/-!
The elements and matrices that a program can build over doubles.

Constructors, the ghost map and sums never mark `-∞`. A product of finite elements can: if the sum
of their values falls below the range, the value is `-∞` and the mark stays. That is the only way:
where every product is watched, `-∞` is tangible in all that can be built.
-/

set_option autoImplicit false
set_option relaxedAutoImplicit false

namespace MaxPlus

inductive Datum where
  | element (a : Element Float)
  | matrix (A : Matrix (Element Float))

namespace Matrix

def watched (A : Matrix (Element Float)) : Matrix (Element Watched) :=
  ⟨A.rows, A.cols, A.grid.map Element.watched⟩

end Matrix

/-- What some sequence of operations gives, from the constructors on. Where `watch` holds, no
product may fall below the range: each operation that forms products must have a result over the
watched doubles too. -/
inductive Reachable (watch : Prop) : Datum → Prop
  | ofWeight {v : Float} {ghost : Bool} {a : Element Float} (h : Element.ofWeight v ghost = .ok a) :
    Reachable watch (.element a)
  | zero : Reachable watch (.element 0)
  | one : Reachable watch (.element 1)
  | add {a b : Element Float} (ha : Reachable watch (.element a))
    (hb : Reachable watch (.element b)) : Reachable watch (.element (a + b))
  | sum {xs : List (Element Float)} (hxs : ∀ a ∈ xs, Reachable watch (.element a)) :
    Reachable watch (.element (MaxPlus.sum xs))
  | inverse {a b : Element Float} (ha : Reachable watch (.element a)) (h : a.inverse? = some b) :
    Reachable watch (.element b)
  | toGhost {a : Element Float} (ha : Reachable watch (.element a)) :
    Reachable watch (.element a.toGhost)
  | toTangible {a : Element Float} (ha : Reachable watch (.element a)) :
    Reachable watch (.element a.toTangible)
  | mul {a b c : Element Float} (ha : Reachable watch (.element a))
    (hb : Reachable watch (.element b)) (h : a.mul b = .ok c)
    (hwatch : watch → ∃ d, a.watched.mul b.watched = .ok d) : Reachable watch (.element c)
  | pow {a b : Element Float} {n : ℕ} (ha : Reachable watch (.element a)) (h : a.pow n = .ok b)
    (hwatch : watch → ∃ d, a.watched.pow n = .ok d) : Reachable watch (.element b)
  | product {xs : List (Element Float)} {a : Element Float}
    (hxs : ∀ x ∈ xs, Reachable watch (.element x)) (h : Element.product xs = .ok a)
    (hwatch : watch → ∃ d, Element.product (xs.map Element.watched) = .ok d) :
    Reachable watch (.element a)
  | ofEntries {r c : ℕ} {xs : List (Element Float)} {A : Matrix (Element Float)}
    (hxs : ∀ a ∈ xs, Reachable watch (.element a)) (h : Matrix.ofEntries r c xs = .ok A) :
    Reachable watch (.matrix A)
  | ofRows {α : Type} [ToElement α Float] {rows : List (List α)} {A : Matrix (Element Float)}
    (hrows : ∀ xs ∈ rows, ∀ x ∈ xs, ∀ a, ToElement.toElement x = .ok a →
      Reachable watch (.element a)) (h : Matrix.ofRows rows = .ok A) : Reachable watch (.matrix A)
  | column {α : Type} [ToElement α Float] {xs : List α} {A : Matrix (Element Float)}
    (hxs : ∀ x ∈ xs, ∀ a, ToElement.toElement x = .ok a → Reachable watch (.element a))
    (h : Matrix.column xs = .ok A) : Reachable watch (.matrix A)
  | zeros {r c : ℕ} {A : Matrix (Element Float)} (h : Matrix.zeros r c = .ok A) :
    Reachable watch (.matrix A)
  | identity {n : ℕ} {A : Matrix (Element Float)} (h : Matrix.identity n = .ok A) :
    Reachable watch (.matrix A)
  | get {A : Matrix (Element Float)} {i j : ℕ} {a : Element Float}
    (hA : Reachable watch (.matrix A)) (h : A.get i j = .ok a) : Reachable watch (.element a)
  | row {A : Matrix (Element Float)} {i : ℕ} {xs : List (Element Float)} {a : Element Float}
    (hA : Reachable watch (.matrix A)) (h : A.row i = .ok xs) (ha : a ∈ xs) :
    Reachable watch (.element a)
  | transpose {A : Matrix (Element Float)} (hA : Reachable watch (.matrix A)) :
    Reachable watch (.matrix A.transpose)
  | minor {A B : Matrix (Element Float)} {i j : ℕ} (hA : Reachable watch (.matrix A))
    (h : A.minor i j = .ok B) : Reachable watch (.matrix B)
  | mulVec {A : Matrix (Element Float)} {xs ys : List (Element Float)} {a : Element Float}
    (hA : Reachable watch (.matrix A)) (hxs : ∀ x ∈ xs, Reachable watch (.element x))
    (h : A.mulVec xs = .ok ys) (ha : a ∈ ys)
    (hwatch : watch → ∃ d, A.watched.mulVec (xs.map Element.watched) = .ok d) :
    Reachable watch (.element a)
  | matrixMul {A B C : Matrix (Element Float)} (hA : Reachable watch (.matrix A))
    (hB : Reachable watch (.matrix B)) (h : A.mul B = .ok C)
    (hwatch : watch → ∃ D, A.watched.mul B.watched = .ok D) : Reachable watch (.matrix C)
  | mulByRows {A B C : Matrix (Element Float)} (hA : Reachable watch (.matrix A))
    (hB : Reachable watch (.matrix B)) (h : A.mulByRows B = .ok C)
    (hwatch : watch → ∃ D, A.watched.mulByRows B.watched = .ok D) : Reachable watch (.matrix C)
  | scale {A B : Matrix (Element Float)} {x : Element Float} (hA : Reachable watch (.matrix A))
    (hx : Reachable watch (.element x)) (h : A.scale x = .ok B)
    (hwatch : watch → ∃ D, A.watched.scale x.watched = .ok D) : Reachable watch (.matrix B)
  | permanent {A : Matrix (Element Float)} {plan : Plan} {p : Element Float}
    (hA : Reachable watch (.matrix A)) (h : A.permanent plan = .ok p)
    (hwatch : watch → ∃ d, A.watched.permanent plan = .ok d) : Reachable watch (.element p)
  | adjoint {A B : Matrix (Element Float)} {plan : Plan} (hA : Reachable watch (.matrix A))
    (h : A.adjoint plan = .ok B) (hwatch : watch → ∃ D, A.watched.adjoint plan = .ok D) :
    Reachable watch (.matrix B)
  | solve {A b x : Matrix (Element Float)} {plan : Plan} (hA : Reachable watch (.matrix A))
    (hb : Reachable watch (.matrix b)) (h : A.solve plan b = .ok x)
    (hwatch : watch → ∃ D, A.watched.solve plan b.watched = .ok D) : Reachable watch (.matrix x)

def Datum.WellFormed : Datum → Prop
  | element a => a.WellFormed
  | matrix A => A.Forall Element.WellFormed

namespace Element

variable {a : Element Float}

private theorem wellFormed_of_follows {ε δ : Type} {x : Except ε (Element Watched)}
    {y : Except δ (Element Float)} (h : Follows Watches x y) (hx : ∃ d, x = .ok d)
    (hy : y = .ok a) : a.WellFormed := by
  obtain ⟨d, hd⟩ := hx
  exact (h.of_ok hd hy).wellFormed

private theorem wellFormed_of_forall₂_watches {xs : List (Element Watched)}
    {ys : List (Element Float)} (h : List.Forall₂ Watches xs ys) (ha : a ∈ ys) : a.WellFormed := by
  induction h with
  | nil => cases ha
  | cons hxy _ ih =>
    rcases List.mem_cons.mp ha with rfl | ha
    · exact hxy.wellFormed
    · exact ih ha

private theorem forall₂_watches {xs : List (Element Float)} (hxs : ∀ a ∈ xs, a.WellFormed) :
    List.Forall₂ Watches (xs.map watched) xs :=
  List.forall₂_map_left_iff.mpr (List.forall₂_same.mpr fun a ha => ⟨rfl, hxs a ha⟩)

end Element

namespace Matrix

variable {A B : Matrix (Element Float)}

private theorem linked_watched (hA : A.Forall Element.WellFormed) :
    Linked Element.Watches A.watched A := by
  obtain ⟨r, c, A⟩ := A
  exact .mk fun i j => ⟨Grid.map_apply _ _ _ _, hA i j⟩

private theorem forall_wellFormed_of_follows {x : Outcome Watched (Matrix (Element Watched))}
    {y : Outcome Float (Matrix (Element Float))} (h : Follows (Linked Element.Watches) x y)
    (hx : ∃ D, x = .ok D) (hy : y = .ok A) : A.Forall Element.WellFormed := by
  obtain ⟨D, hD⟩ := hx
  cases h.of_ok hD hy with
  | mk h => exact fun i j => (h i j).wellFormed

end Matrix

namespace Reachable

open Element (forall₂_watches wellFormed_of_forall₂_watches wellFormed_of_follows)
open Element.Watches (simulates)

theorem wellFormed {d : Datum} (h : Reachable True d) : d.WellFormed := by
  induction h with
  | ofWeight h => exact .ofWeight h
  | zero => exact Element.WellFormed.zero
  | one => exact Element.WellFormed.one
  | add _ _ ha hb => exact Element.WellFormed.add ha hb
  | sum _ hxs => exact .sum hxs
  | inverse _ h ha => exact Element.WellFormed.inverse? ha h
  | toGhost _ ha => exact Element.WellFormed.toGhost ha
  | toTangible _ ha => exact Element.WellFormed.toTangible ha
  | mul _ _ h hwatch ha hb =>
    exact wellFormed_of_follows (simulates.mul ⟨rfl, ha⟩ ⟨rfl, hb⟩) (hwatch trivial) h
  | pow _ h hwatch ha =>
    exact wellFormed_of_follows (simulates.pow ⟨rfl, ha⟩ _) (hwatch trivial) h
  | product _ h hwatch hxs =>
    exact wellFormed_of_follows (simulates.product (forall₂_watches hxs)) (hwatch trivial) h
  | ofEntries _ h hxs => exact Matrix.forall_ofEntries h hxs
  | ofRows _ h hrows => exact Matrix.forall_ofRows h hrows
  | column _ h hxs => exact Matrix.forall_column h hxs
  | zeros h => exact Matrix.forall_zeros h .zero
  | identity h => exact Matrix.forall_identity h .zero .one
  | get _ h hA => exact Matrix.forall_get h hA
  | row _ h ha hA => exact Matrix.forall_row h hA _ ha
  | transpose _ hA => exact Matrix.forall_transpose hA
  | minor _ h hA => exact Matrix.forall_minor h hA
  | mulVec _ _ h ha hwatch hA hxs =>
    obtain ⟨ds, hds⟩ := hwatch trivial
    have hys := (Matrix.mulVec_follows simulates (Matrix.linked_watched hA)
      (forall₂_watches hxs)).of_ok hds h
    exact wellFormed_of_forall₂_watches hys ha
  | matrixMul _ _ h hwatch hA hB =>
    exact Matrix.forall_wellFormed_of_follows (Matrix.mul_follows simulates
      (Matrix.linked_watched hA) (Matrix.linked_watched hB)) (hwatch trivial) h
  | mulByRows _ _ h hwatch hA hB =>
    rw [Matrix.mulByRows_eq_mul] at h hwatch
    exact Matrix.forall_wellFormed_of_follows (Matrix.mul_follows simulates
      (Matrix.linked_watched hA) (Matrix.linked_watched hB)) (hwatch trivial) h
  | scale _ _ h hwatch hA hx =>
    exact Matrix.forall_wellFormed_of_follows (Matrix.scale_follows simulates
      (Matrix.linked_watched hA) ⟨rfl, hx⟩) (hwatch trivial) h
  | permanent _ h hwatch hA =>
    exact wellFormed_of_follows (Matrix.permanent_follows _ simulates (Matrix.linked_watched hA))
      (hwatch trivial) h
  | adjoint _ h hwatch hA =>
    exact Matrix.forall_wellFormed_of_follows (Matrix.adjoint_follows _ simulates
      (Matrix.linked_watched hA)) (hwatch trivial) h
  | solve _ _ h hwatch hA hb =>
    exact Matrix.forall_wellFormed_of_follows (Matrix.solve_follows _ simulates
      (Matrix.linked_watched hA) (Matrix.linked_watched hb)) (hwatch trivial) h

/-- Where no product falls below the range, `-∞` is never a ghost. -/
theorem sameAs_zero_of_watched {a : Element Float} (h : Reachable True (.element a))
    (hzero : a.isZero = true) : a.sameAs 0 = true := by
  have hghost : a.ghost = false := h.wellFormed.normal hzero
  rw [Element.sameAs, hghost, Element.value_zero, show (a.value == Weight.bot) = true from hzero]
  rfl

theorem sameAs_zero_of_watched_bot :
    ∃ a, Reachable True (.element a) ∧ a.isZero = true ∧ a.sameAs 0 = true := by
  have hghost : Reachable True (.element ⟨1.5, true⟩) :=
    .ofWeight (Element.ofWeight_of_ne_bot true (by decide +kernel) (by decide +kernel))
  have hproduct : Element.mul 0 (⟨1.5, true⟩ : Element Float) = .ok 0 := rfl
  have hbot : Reachable True (.element 0) := .mul .zero hghost hproduct fun _ => ⟨0, rfl⟩
  exact ⟨0, hbot, rfl, sameAs_zero_of_watched hbot rfl⟩

def hugeDebt : Float :=
  Float.ofBits 0xffe0000000000000

/-- The value of the square is `-∞`, and the mark stays. -/
theorem exists_marked_bot :
    ∃ a, Reachable False (.element a) ∧ a.isZero = true ∧ a.ghost = true ∧
      a.sameAs 0 = false := by
  have hghost : Reachable False (.element ⟨hugeDebt, true⟩) :=
    .ofWeight (Element.ofWeight_of_ne_bot true (by decide +kernel) (by decide +kernel))
  have hsquare : Element.mul ⟨hugeDebt, true⟩ ⟨hugeDebt, true⟩ =
      .ok ⟨hugeDebt + hugeDebt, true⟩ := by
    rw [Element.mul, if_neg (by decide +kernel), if_neg (by decide +kernel)]
    rfl
  exact ⟨_, .mul hghost hghost hsquare False.elim, by decide +kernel, rfl, by decide +kernel⟩

end Reachable

end MaxPlus
