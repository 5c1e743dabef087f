import MaxPlus.Proofs.Algebra.Relation
import MaxPlus.Proofs.Algebra.Results
import MaxPlus.Algebra.Computed

/-!
One arithmetic of elements that follows another.

Two weight types may round, refuse and compare in different ways. If the elements of the second one
keep up with every single operation that succeeds in the first, they keep up with whole products and
powers. A map of the values that keeps their order and tells `-∞` from them keeps sums as they are.
-/

set_option autoImplicit false
set_option relaxedAutoImplicit false

namespace MaxPlus

namespace Computed

variable {W : Type} [Weight W]

theorem add_eq_bind (x y : Computed W) :
    x + y = Except.bind x fun a => Except.bind y fun b => .ok (a + b) := by
  cases x <;> cases y <;> rfl

theorem mul_eq_bind (x y : Computed W) :
    x * y = Except.bind x fun a => Except.bind y fun b => a.mul b := by
  cases x <;> cases y <;> rfl

end Computed

namespace Element

variable {W V : Type}

def onValue (f : W → V) (a : Element W) : Element V :=
  ⟨f a.value, a.ghost⟩

variable [Weight W] [Weight V]

theorem onValue_add {f : W → V} {a b : Element W} (ha : (a.onValue f).isZero = a.isZero)
    (hb : (b.onValue f).isZero = b.isZero)
    (hlt : Weight.lt (f a.value) (f b.value) = Weight.lt a.value b.value)
    (hgt : Weight.lt (f b.value) (f a.value) = Weight.lt b.value a.value) :
    (a + b).onValue f = a.onValue f + b.onValue f := by
  have hlt' : Weight.lt (a.onValue f).value (b.onValue f).value = Weight.lt a.value b.value := hlt
  have hgt' : Weight.lt (b.onValue f).value (a.onValue f).value = Weight.lt b.value a.value := hgt
  simp only [add_def, add, ha, hb, hlt', hgt']
  split_ifs <;> rfl

theorem tangibleInverse?_onValue {f : W → V} {a : Element W}
    (hzero : (a.onValue f).isZero = a.isZero) (hneg : f (-a.value) = -f a.value) :
    (a.onValue f).tangibleInverse? = a.tangibleInverse?.map (onValue f) := by
  have hghost : (a.onValue f).isTangible = a.isTangible := rfl
  have hinverse : (⟨-f a.value, a.ghost⟩ : Element V) = onValue f ⟨-a.value, a.ghost⟩ := by
    rw [onValue, hneg]
  rw [tangibleInverse?, tangibleInverse?, inverse?, inverse?, hghost, hzero]
  split_ifs
  · rfl
  · exact congrArg some hinverse
  · rfl

/-- Related operands have related results, wherever the first operation has one. -/
structure Simulates (P : Element W → Element V → Prop) : Prop where
  zero : P 0 0
  one : P 1 1
  add : ∀ {a b : Element W} {a' b' : Element V}, P a a' → P b b' → P (a + b) (a' + b')
  mul : ∀ {a b : Element W} {a' b' : Element V}, P a a' → P b b' →
    Follows P (a.mul b) (a'.mul b')
  tangibleInverse? : ∀ {a b : Element W} {a' : Element V}, P a a' → a.tangibleInverse? = some b →
    ∃ b', a'.tangibleInverse? = some b' ∧ P b b'

namespace Simulates

variable {P : Element W → Element V → Prop}

theorem respects (h : Simulates P) :
    Respects fun (x : Computed W) (y : Computed V) => Follows P x y where
  zero := .ok h.zero
  one := .ok h.one
  add hx hy := by
    rw [Computed.add_eq_bind, Computed.add_eq_bind]
    exact hx.bind fun ha => hy.bind fun hb => .ok (h.add ha hb)
  mul hx hy := by
    rw [Computed.mul_eq_bind, Computed.mul_eq_bind]
    exact hx.bind fun ha => hy.bind fun hb => h.mul ha hb

theorem product (h : Simulates P) {xs : List (Element W)} {ys : List (Element V)}
    (hxs : List.Forall₂ P xs ys) : Follows P (Element.product xs) (Element.product ys) :=
  h.respects.product (List.rel_map (fun _ _ hab => Follows.ok hab) hxs)

theorem pow (h : Simulates P) {a : Element W} {a' : Element V} (ha : P a a') (n : ℕ) :
    Follows P (a.pow n) (a'.pow n) := by
  obtain ⟨hresult, hsquare⟩ := h.respects.squareAndMultiply h.respects.one (.ok ha) n
  rw [Element.pow, Element.pow]
  generalize squareAndMultiply 1 (.ok a : Computed W) n = x at hresult hsquare
  generalize squareAndMultiply 1 (.ok a' : Computed V) n = y at hresult hsquare
  obtain ⟨result, square⟩ := x
  obtain ⟨result', square'⟩ := y
  cases result with
  | error e => exact .error e _
  | ok b =>
    cases square with
    | error e => exact .error e _
    | ok c =>
      obtain ⟨b', rfl, hb⟩ := hresult b rfl
      obtain ⟨c', rfl, -⟩ := hsquare c rfl
      exact .ok hb

end Simulates

end Element

end MaxPlus
