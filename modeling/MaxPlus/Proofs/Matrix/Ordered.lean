import MaxPlus.Proofs.Matrix.Layout
import MaxPlus.Proofs.Matrix.Reachable
import MaxPlus.Proofs.Weight.Order

/-!
The order of all that can be built.

What every single operation keeps holds of all that a program can build. One such property is that
the value is neither NaN nor `+∞`. So the values order all elements, any two of them compare, and a
sum falls back to a tie only where the two values are equal.
-/

set_option autoImplicit false
set_option relaxedAutoImplicit false

namespace MaxPlus

namespace Element

variable {W : Type} {Q : Element W → Prop} {a : Element W}

/-- What the constructor gives to every element, and every operation to its result. -/
structure Kept [Weight W] (Q : Element W → Prop) : Prop where
  ofWeight : ∀ {v ghost a}, Element.ofWeight v ghost = .ok a → Q a
  zero : Q 0
  one : Q 1
  add : ∀ {a b}, Q a → Q b → Q (a + b)
  mul : ∀ {a b c}, Q a → Q b → a.mul b = .ok c → Q c
  inverse? : ∀ {a b}, Q a → a.inverse? = some b → Q b
  toGhost : ∀ {a}, Q a → Q a.toGhost
  toTangible : ∀ {a}, Q a → Q a.toTangible

structure Same (Q : Element W → Prop) (a b : Element W) : Prop where
  eq : a = b
  holds : Q b

namespace Kept

variable [Weight W]

theorem simulates (h : Kept Q) : Simulates (Same Q) where
  zero := ⟨rfl, h.zero⟩
  one := ⟨rfl, h.one⟩
  add := by
    rintro _ _ a b ⟨rfl, ha⟩ ⟨rfl, hb⟩
    exact ⟨rfl, h.add ha hb⟩
  mul := by
    rintro _ _ a b ⟨rfl, ha⟩ ⟨rfl, hb⟩ c hc
    exact ⟨c, hc, rfl, h.mul ha hb hc⟩
  tangibleInverse? := by
    rintro _ c a ⟨rfl, ha⟩ hc
    refine ⟨c, hc, rfl, ?_⟩
    rw [tangibleInverse?] at hc
    split_ifs at hc
    exact h.inverse? ha hc

theorem sum (h : Kept Q) {xs : List (Element W)} (hxs : ∀ a ∈ xs, Q a) : Q (MaxPlus.sum xs) :=
  List.foldlRecOn xs _ h.zero fun _ hacc a ha => h.add hacc (hxs a ha)

end Kept

private theorem holds_of_follows {ε : Type} {x : Except ε (Element W)} (h : Follows (Same Q) x x)
    (hx : x = .ok a) : Q a :=
  (h.of_ok hx hx).holds

theorem forall₂_same {xs : List (Element W)} (hxs : ∀ a ∈ xs, Q a) :
    List.Forall₂ (Same Q) xs xs :=
  List.forall₂_same.mpr fun a ha => ⟨rfl, hxs a ha⟩

end Element

namespace Matrix

open Element (Same)

variable {W : Type} {Q : Element W → Prop} {A : Matrix (Element W)}

private theorem linked_same (hA : A.Forall Q) : Linked (Same Q) A A := by
  obtain ⟨r, c, A⟩ := A
  exact .mk fun i j => ⟨rfl, hA i j⟩

private theorem forall_of_linked {B : Matrix (Element W)} (h : Linked (Same Q) A B) :
    B.Forall Q := by
  obtain @⟨r, c, A, B, h⟩ := h
  exact fun i j => (h i j).holds

private theorem forall_of_follows {x : Outcome W (Matrix (Element W))}
    (h : Follows (Linked (Same Q)) x x) (hx : x = .ok A) : A.Forall Q :=
  forall_of_linked (h.of_ok hx hx)

end Matrix

def Datum.Holds (Q : Element Float → Prop) : Datum → Prop
  | element a => Q a
  | matrix A => A.Forall Q

namespace Reachable

open Element (Kept forall₂_same holds_of_follows)
open MaxPlus.Matrix (forall_of_follows linked_same)

variable {watch : Prop}

/-- A property that every operation keeps holds of all that can be built. -/
private theorem holds {Q : Element Float → Prop} (hQ : Kept Q) {d : Datum} (h : Reachable watch d) :
    d.Holds Q := by
  have hsim := hQ.simulates
  induction h with
  | ofWeight h => exact hQ.ofWeight h
  | zero => exact hQ.zero
  | one => exact hQ.one
  | add _ _ ha hb => exact hQ.add ha hb
  | sum _ hxs => exact hQ.sum hxs
  | inverse _ h ha => exact hQ.inverse? ha h
  | toGhost _ ha => exact hQ.toGhost ha
  | toTangible _ ha => exact hQ.toTangible ha
  | mul _ _ h _ ha hb => exact hQ.mul ha hb h
  | pow _ h _ ha => exact holds_of_follows (hsim.pow ⟨rfl, ha⟩ _) h
  | product _ h _ hxs => exact holds_of_follows (hsim.product (forall₂_same hxs)) h
  | ofEntries _ h hxs => exact Matrix.forall_ofEntries h hxs
  | ofRows _ h hrows => exact Matrix.forall_ofRows h hrows
  | column _ h hxs => exact Matrix.forall_column h hxs
  | zeros h => exact Matrix.forall_zeros h hQ.zero
  | identity h => exact Matrix.forall_identity h hQ.zero hQ.one
  | get _ h hA => exact Matrix.forall_get h hA
  | row _ h ha hA => exact Matrix.forall_row h hA _ ha
  | transpose _ hA => exact Matrix.forall_transpose hA
  | minor _ h hA => exact Matrix.forall_minor h hA
  | mulVec _ _ h ha _ hA hxs =>
    have hys := (Matrix.mulVec_follows hsim (linked_same hA) (forall₂_same hxs)).of_ok h h
    exact (List.forall₂_same.mp hys _ ha).holds
  | matrixMul _ _ h _ hA hB =>
    exact forall_of_follows (Matrix.mul_follows hsim (linked_same hA) (linked_same hB)) h
  | mulByRows _ _ h _ hA hB =>
    rw [Matrix.mulByRows_eq_mul] at h
    exact forall_of_follows (Matrix.mul_follows hsim (linked_same hA) (linked_same hB)) h
  | scale _ _ h _ hA hx =>
    exact forall_of_follows (Matrix.scale_follows hsim (linked_same hA) ⟨rfl, hx⟩) h
  | permanent _ h _ hA =>
    exact holds_of_follows (Matrix.permanent_follows _ hsim (linked_same hA)) h
  | adjoint _ h _ hA =>
    exact forall_of_follows (Matrix.adjoint_follows _ hsim (linked_same hA)) h
  | solve _ _ h _ hA hb =>
    exact forall_of_follows (Matrix.solve_follows _ hsim (linked_same hA) (linked_same hb)) h

end Reachable

section Values

open Binary64

def Binary64.Comparable (v : Float) : Prop :=
  v.isNaN = false ∧ (v == top) = false

private theorem Binary64.supported_iff_comparable {v : Float} :
    Weight.supported v = true ↔ Comparable v := by
  have hsupported : Weight.supported v = !(v.isNaN || v == top) := rfl
  rw [hsupported, Bool.not_eq_true', Bool.or_eq_false_iff]
  rfl

namespace Element

private theorem exists_ofWeight_iff {v : Float} {ghost : Bool} :
    (∃ a, ofWeight v ghost = .ok a) ↔ Comparable v := by
  rw [← supported_iff_comparable, ofWeight]
  split_ifs with hsupported
  · exact iff_of_true ⟨_, rfl⟩ hsupported
  · refine iff_of_false ?_ hsupported
    rintro ⟨_, ⟨⟩⟩

private theorem kept_supported : Kept fun a : Element Float => Weight.supported a.value = true where
  ofWeight h := (WellFormed.ofWeight h).supported
  zero := rfl
  one := rfl
  add := supported_value_add
  mul := supported_mul
  inverse? := by
    intro a b ha h
    rw [inverse?] at h
    split_ifs at h with hzero
    cases h
    exact (supported_neg ha (Bool.eq_false_iff.mpr hzero)).1
  toGhost := id
  toTangible := id

/-- The values order these elements linearly up to equality of values, any two compare, and a sum
falls back to a tie only where the values are equal. -/
structure OrderedByValue (S : Element Float → Prop) : Prop where
  total : ∀ {a b}, S a → S b → a.le b = true ∨ b.le a = true
  trans : ∀ {a b c}, S a → S b → S c → a.le b = true → b.le c = true → a.le c = true
  antisymm : ∀ {a b}, S a → S b → a.le b = true → b.le a = true → (a == b) = true
  lt_iff : ∀ {a b}, S a → S b → (a.lt b = true ↔ a.le b = true ∧ b.le a = false)
  compare : ∀ {a b}, S a → S b → ∃ verdict, a.compare b = some verdict
  tie : ∀ {a b}, S a → S b → a.isZero = false → b.isZero = false → b.lt a = false →
    a.lt b = false → a.compare b = some .eq ∧ (a == b) = true

private theorem orderedByValue_of_supported {S : Element Float → Prop}
    (hS : ∀ a, S a → Weight.supported a.value = true) : OrderedByValue S := by
  have hle : ∀ {a b}, S a → S b → (a.le b = true ↔ rank a.value ≤ rank b.value) :=
    fun ha hb => le_iff_rank_le (hS _ ha) (hS _ hb)
  have hlt : ∀ {a b}, S a → S b → (a.lt b = true ↔ rank a.value < rank b.value) :=
    fun ha hb => lt_iff_rank_lt (hS _ ha) (hS _ hb)
  have heq : ∀ {a b}, S a → S b → ((a == b) = true ↔ rank a.value = rank b.value) :=
    fun ha hb => beq_iff_rank_eq (hS _ ha) (hS _ hb)
  have hcompare : ∀ {a b}, S a → S b → a.compare b = some (cmp (rank a.value) (rank b.value)) :=
    fun ha hb => compare_eq_cmp_rank (hS _ ha) (hS _ hb)
  constructor
  case total =>
    intro a b ha hb
    rw [hle ha hb, hle hb ha]
    exact le_total _ _
  case trans =>
    intro a b c ha hb hc hab hbc
    rw [hle ha hb] at hab
    rw [hle hb hc] at hbc
    exact (hle ha hc).mpr (hab.trans hbc)
  case antisymm =>
    intro a b ha hb hab hba
    exact (heq ha hb).mpr (((hle ha hb).mp hab).antisymm ((hle hb ha).mp hba))
  case lt_iff =>
    intro a b ha hb
    rw [hlt ha hb, hle ha hb, ← Bool.not_eq_true, hle hb ha]
    exact lt_iff_le_not_ge
  case compare =>
    intro a b ha hb
    exact ⟨_, hcompare ha hb⟩
  case tie =>
    intro a b ha hb _ _ hba hab
    rw [← Bool.not_eq_true, hlt hb ha, not_lt] at hba
    rw [← Bool.not_eq_true, hlt ha hb, not_lt] at hab
    have hrank := hba.antisymm hab
    rw [hcompare ha hb, heq ha hb]
    exact ⟨congrArg some ((cmp_eq_eq_iff _ _).mpr hrank), hrank⟩

end Element

namespace Reachable

def Converts (α : Type) [ToElement α Float] : Prop :=
  ∀ (x : α) (a : Element Float), ToElement.toElement x = .ok a → Reachable False (.element a)

theorem supported {watch : Prop} {a : Element Float} (h : Reachable watch (.element a)) :
    Weight.supported a.value = true :=
  h.holds Element.kept_supported

theorem forall_entries {watch : Prop} {A : Matrix (Element Float)}
    (h : Reachable watch (.matrix A)) : A.Forall fun a => Reachable watch (.element a) := by
  obtain ⟨r, c, A⟩ := A
  intro i j
  exact .get h (Matrix.get_mk A i j)

/-- NaN and `+∞` become no element, no operation gives them, and so the values order all that can
be built. -/
theorem orderedByValue_of_reachable :
    (∀ v ghost, (∃ a, Element.ofWeight v ghost = .ok a) ↔ Comparable v) ∧
      (Converts Float ∧ Converts Float32 ∧ Converts Int8 ∧ Converts Int16 ∧ Converts Int32 ∧
        Converts Int64 ∧ Converts UInt8 ∧ Converts UInt16 ∧ Converts UInt32 ∧ Converts UInt64) ∧
      (∀ a, Reachable False (.element a) → Comparable a.value) ∧
      (∀ A, Reachable False (.matrix A) →
        A.Forall fun a => Reachable False (.element a) ∧ Comparable a.value) ∧
      Element.OrderedByValue fun a => Reachable False (.element a) := by
  have hcomparable : ∀ a, Reachable False (.element a) → Comparable a.value :=
    fun a ha => supported_iff_comparable.mp ha.supported
  have hconverts : ∀ (v : Float) a, Element.tangible v = .ok a → Reachable False (.element a) :=
    fun _ _ h => .ofWeight h
  refine ⟨fun _ _ => Element.exists_ofWeight_iff, ?_, hcomparable, ?_,
    Element.orderedByValue_of_supported fun _ ha => ha.supported⟩
  · exact ⟨fun x => hconverts x, fun x => hconverts x.toFloat, fun x => hconverts (.ofInt x.toInt),
      fun x => hconverts (.ofInt x.toInt), fun x => hconverts (.ofInt x.toInt),
      fun x => hconverts (.ofInt x.toInt), fun x => hconverts (.ofInt x.toNat),
      fun x => hconverts (.ofInt x.toNat), fun x => hconverts (.ofInt x.toNat),
      fun x => hconverts (.ofInt x.toNat)⟩
  · intro A hA i j
    exact ⟨hA.forall_entries i j, hcomparable _ (hA.forall_entries i j)⟩

theorem orderedByValue_of_reachable_markedBot :
    ∃ a, Element.mul ⟨hugeDebt, true⟩ ⟨hugeDebt, true⟩ = .ok a ∧ a.isZero = true ∧
      a.ghost = true ∧ Comparable a.value ∧ (∃ verdict, a.compare ⟨1.5, true⟩ = some verdict) ∧
      Element.compare (⟨1.5, false⟩ : Element Float) ⟨1.5, true⟩ = some .eq ∧
      ∀ A, Matrix.identity 2 = .ok A → A.Forall fun a : Element Float => Comparable a.value := by
  have hfinite : ∀ ghost, Reachable False (.element ⟨1.5, ghost⟩) := fun ghost =>
    .ofWeight (Element.ofWeight_of_ne_bot ghost (by decide +kernel) (by decide +kernel))
  have hdebt : Reachable False (.element ⟨hugeDebt, true⟩) :=
    .ofWeight (Element.ofWeight_of_ne_bot true (by decide +kernel) (by decide +kernel))
  have hsquare : Element.mul ⟨hugeDebt, true⟩ ⟨hugeDebt, true⟩ =
      .ok ⟨hugeDebt + hugeDebt, true⟩ := by
    rw [Element.mul, if_neg (by decide +kernel), if_neg (by decide +kernel)]
    rfl
  have hbot : Reachable False (.element ⟨hugeDebt + hugeDebt, true⟩) :=
    .mul hdebt hdebt hsquare False.elim
  obtain ⟨-, -, hcomparable, hentries, hordered⟩ := orderedByValue_of_reachable
  have htie := hordered.tie (hfinite false) (hfinite true) (by decide +kernel) (by decide +kernel)
    (by decide +kernel) (by decide +kernel)
  exact ⟨_, hsquare, by decide +kernel, rfl, hcomparable _ hbot,
    hordered.compare hbot (hfinite true), htie.1,
    fun A hA i j => (hentries A (.identity hA) i j).2⟩

end Reachable

end Values

end MaxPlus
