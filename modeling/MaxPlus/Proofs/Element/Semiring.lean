import Mathlib
import MaxPlus.Proofs.Algebra.Fold
import MaxPlus.Algebra.Computed
import MaxPlus.Weight.Exact

/-!
The semiring of the normal elements over exact weights.

An element is normal if `-∞` comes without a mark. Over exact weights every product exists, and the
normal elements form a commutative semiring: `-∞` alone is the zero, and every other element is an
integer with a mark. A computed element that comes from a normal one never fails.
-/

set_option autoImplicit false
set_option relaxedAutoImplicit false

namespace MaxPlus

namespace Element

variable {W : Type} [Weight W]

def Normal (a : Element W) : Prop :=
  a.isZero = true → a.ghost = false

instance (a : Element W) : Decidable a.Normal :=
  inferInstanceAs (Decidable (a.isZero = true → a.ghost = false))

@[simp] theorem normal_zero : (0 : Element W).Normal := fun _ => rfl

theorem Normal.add {a b : Element W} (ha : a.Normal) (hb : b.Normal) : (a + b).Normal := by
  rw [add_def, Element.add]
  split_ifs with hzero
  · exact hb
  · exact ha
  · exact ha
  · exact hb
  · exact fun h => absurd h hzero

def times (a b : Element Exact) : Element Exact :=
  if a.isZero || b.isZero then 0 else ⟨a.value + b.value, a.ghost || b.ghost⟩

theorem mul_eq_ok (a b : Element Exact) : a.mul b = .ok (a.times b) := by
  rw [mul, times]
  split_ifs with hzero htop
  · rfl
  · cases htop
  · rfl

theorem Normal.times (a b : Element Exact) : (a.times b).Normal := by
  obtain ⟨v, g⟩ := a
  obtain ⟨w, h⟩ := b
  cases v <;> cases w <;> intro hzero
  case int.int k l => exact absurd hzero Bool.false_ne_true
  all_goals rfl

end Element

/-- An element over exact weights whose `-∞` is tangible. -/
structure NormalElement extends Element Exact where
  normal : toElement.Normal

namespace NormalElement

@[ext] theorem ext {a b : NormalElement} (h : a.1 = b.1) : a = b := by
  cases a
  cases b
  cases h
  rfl

def finite (k : ℤ) (ghost : Bool) : NormalElement :=
  ⟨⟨.int k, ghost⟩, fun h => absurd h (by simp [Element.isZero, Weight.bot])⟩

instance : Zero NormalElement := ⟨⟨0, Element.normal_zero⟩⟩

instance : One NormalElement := ⟨finite 0 false⟩

instance : Add NormalElement := ⟨fun a b => ⟨a.1 + b.1, a.2.add b.2⟩⟩

instance : Mul NormalElement := ⟨fun a b => ⟨a.1.times b.1, Element.Normal.times a.1 b.1⟩⟩

@[simp] theorem toElement_zero : (0 : NormalElement).1 = 0 := rfl

@[simp] theorem toElement_one : (1 : NormalElement).1 = 1 := rfl

@[simp] theorem toElement_add (a b : NormalElement) : (a + b).1 = a.1 + b.1 := rfl

@[simp] theorem toElement_mul (a b : NormalElement) : (a * b).1 = a.1.times b.1 := rfl

theorem eq_zero_or_finite (a : NormalElement) : a = 0 ∨ ∃ k ghost, a = finite k ghost := by
  obtain ⟨⟨v, ghost⟩, h⟩ := a
  cases v with
  | bot =>
    obtain rfl : ghost = false := h rfl
    exact Or.inl rfl
  | int k => exact Or.inr ⟨k, ghost, rfl⟩

theorem one_eq_finite : (1 : NormalElement) = finite 0 false := rfl

private theorem zero_add' (a : NormalElement) : 0 + a = a := rfl

private theorem add_zero' (a : NormalElement) : a + 0 = a := by
  rcases a.eq_zero_or_finite with rfl | ⟨k, g, rfl⟩ <;> rfl

theorem finite_add_finite (k l : ℤ) (g h : Bool) :
    finite k g + finite l h =
      if l < k then finite k g else if k < l then finite l h else finite k true := by
  have hzero : ∀ (m : ℤ) (i : Bool), Element.isZero (finite m i).1 = false := fun _ _ => rfl
  have hlt : ∀ (m m' : ℤ) (i i' : Bool),
      Weight.lt (finite m i).1.value (finite m' i').1.value = decide (m < m') :=
    fun _ _ _ _ => rfl
  ext1
  simp only [toElement_add, Element.add_def, Element.add, hzero, hlt, decide_eq_true_eq,
    Bool.false_eq_true, if_false]
  split_ifs <;> rfl

private theorem zero_mul' (a : NormalElement) : 0 * a = 0 := rfl

private theorem mul_zero' (a : NormalElement) : a * 0 = 0 := by
  rcases a.eq_zero_or_finite with rfl | ⟨k, g, rfl⟩ <;> rfl

theorem finite_mul_finite (k l : ℤ) (g h : Bool) :
    finite k g * finite l h = finite (k + l) (g || h) := rfl

private theorem add_comm' (a b : NormalElement) : a + b = b + a := by
  rcases a.eq_zero_or_finite with rfl | ⟨k, g, rfl⟩
  · rw [zero_add', add_zero']
  rcases b.eq_zero_or_finite with rfl | ⟨l, h, rfl⟩
  · rw [zero_add', add_zero']
  rw [finite_add_finite, finite_add_finite]
  grind

private theorem add_assoc' (a b c : NormalElement) : a + b + c = a + (b + c) := by
  rcases a.eq_zero_or_finite with rfl | ⟨k, g, rfl⟩
  · simp only [zero_add']
  rcases b.eq_zero_or_finite with rfl | ⟨l, h, rfl⟩
  · simp only [zero_add', add_zero']
  rcases c.eq_zero_or_finite with rfl | ⟨m, i, rfl⟩
  · simp only [add_zero']
  simp only [finite_add_finite]
  grind [finite_add_finite]

private theorem mul_comm' (a b : NormalElement) : a * b = b * a := by
  rcases a.eq_zero_or_finite with rfl | ⟨k, g, rfl⟩
  · rw [zero_mul', mul_zero']
  rcases b.eq_zero_or_finite with rfl | ⟨l, h, rfl⟩
  · rw [zero_mul', mul_zero']
  rw [finite_mul_finite, finite_mul_finite, add_comm, Bool.or_comm]

private theorem mul_assoc' (a b c : NormalElement) : a * b * c = a * (b * c) := by
  rcases a.eq_zero_or_finite with rfl | ⟨k, g, rfl⟩
  · simp only [zero_mul']
  rcases b.eq_zero_or_finite with rfl | ⟨l, h, rfl⟩
  · simp only [zero_mul', mul_zero']
  rcases c.eq_zero_or_finite with rfl | ⟨m, i, rfl⟩
  · simp only [mul_zero']
  simp only [finite_mul_finite, add_assoc, Bool.or_assoc]

private theorem one_mul' (a : NormalElement) : 1 * a = a := by
  rcases a.eq_zero_or_finite with rfl | ⟨k, g, rfl⟩
  · exact mul_zero' 1
  · rw [one_eq_finite, finite_mul_finite, zero_add, Bool.false_or]

/-- Multiplying keeps the order of the values, and a tie stays a tie. -/
private theorem left_distrib' (a b c : NormalElement) : a * (b + c) = a * b + a * c := by
  rcases a.eq_zero_or_finite with rfl | ⟨k, g, rfl⟩
  · simp only [zero_mul', zero_add']
  rcases b.eq_zero_or_finite with rfl | ⟨l, h, rfl⟩
  · simp only [zero_add', mul_zero']
  rcases c.eq_zero_or_finite with rfl | ⟨m, i, rfl⟩
  · simp only [add_zero', mul_zero']
  simp only [finite_mul_finite, finite_add_finite, add_lt_add_iff_left]
  split_ifs <;> simp only [finite_mul_finite, Bool.or_true]

instance : CommSemiring NormalElement where
  add_assoc := add_assoc'
  zero_add := zero_add'
  add_zero := add_zero'
  add_comm := add_comm'
  mul_assoc := mul_assoc'
  one_mul := one_mul'
  mul_one a := by rw [mul_comm', one_mul']
  zero_mul := zero_mul'
  mul_zero := mul_zero'
  mul_comm := mul_comm'
  left_distrib := left_distrib'
  right_distrib a b c := by rw [mul_comm', left_distrib', mul_comm' c, mul_comm' c]
  nsmul := nsmulRec

def computed (a : NormalElement) : Computed Exact :=
  .ok a.1

theorem preserves_computed : Preserves computed where
  zero := rfl
  one := rfl
  add _ _ := rfl
  mul a b := (Element.mul_eq_ok a.1 b.1).symm

end NormalElement

end MaxPlus
