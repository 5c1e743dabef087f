import MaxPlus.Proofs.Element.Simulation
import MaxPlus.Proofs.Element.WellFormed

/-!
Doubles whose sums are watched at both ends of the range.

A sum of finite doubles that rounds to `+∞` is refused, but one that rounds to `-∞` is not, and the
product of elements then keeps its mark. Over watched doubles both are refused. So an operation has
a watched result just where no product of it falls below the range, and the result is the same as
without the watch.
-/

set_option autoImplicit false
set_option relaxedAutoImplicit false

namespace MaxPlus

open Binary64

structure Watched where
  double : Float

/-- The sums and comparisons of the doubles, where `-∞` is as little the sum of finite weights as
`+∞`. -/
instance : Weight Watched where
  add x y := ⟨x.double + y.double⟩
  neg x := ⟨-x.double⟩
  beq x y := x.double == y.double
  bot := ⟨Weight.bot⟩
  unit := ⟨Weight.unit⟩
  lt x y := Weight.lt x.double y.double
  isTop x := Weight.isTop x.double || x.double == Weight.bot
  isUnordered x := Weight.isUnordered x.double
  text x := Weight.text x.double

namespace Element

def watched (a : Element Float) : Element Watched :=
  ⟨⟨a.value⟩, a.ghost⟩

private theorem watched_add (a b : Element Float) : a.watched + b.watched = (a + b).watched :=
  (onValue_add (f := Watched.mk) rfl rfl rfl rfl).symm

private theorem mul_watched_eq_ok_iff {a b : Element Float} {c : Element Watched} :
    a.watched.mul b.watched = .ok c ↔ ∃ d, a.mul b = .ok d ∧ c = d.watched ∧
      (d.isZero = true → a.isZero = true ∨ b.isZero = true) := by
  have hmul : a.watched.mul b.watched =
      if a.isZero || b.isZero then .ok 0
      else if Weight.isTop (a.value + b.value) || a.value + b.value == Weight.bot then
        .error (.overflow ⟨a.value⟩ ⟨b.value⟩)
      else .ok (watched ⟨a.value + b.value, a.ghost || b.ghost⟩) := rfl
  rw [hmul, mul]
  by_cases hzero : (a.isZero || b.isZero) = true
  · rw [if_pos hzero, if_pos hzero]
    rw [Bool.or_eq_true] at hzero
    constructor
    · rintro ⟨⟩
      exact ⟨0, rfl, rfl, fun _ => hzero⟩
    · rintro ⟨_, ⟨⟩, rfl, -⟩
      rfl
  · rw [if_neg hzero, if_neg hzero]
    by_cases htop : Weight.isTop (a.value + b.value) = true
    · rw [htop, Bool.true_or, if_pos rfl, if_pos rfl]
      refine iff_of_false (fun h => by cases h) ?_
      rintro ⟨_, ⟨⟩, -⟩
    · rw [Bool.not_eq_true] at htop
      rw [htop, Bool.false_or, if_neg Bool.false_ne_true]
      split_ifs with hbot
      · refine iff_of_false (fun h => by cases h) ?_
        rintro ⟨_, ⟨⟩, -, h⟩
        exact hzero (by simpa using h hbot)
      · constructor
        · rintro ⟨⟩
          exact ⟨_, rfl, rfl, fun h => absurd h hbot⟩
        · rintro ⟨_, ⟨⟩, rfl, -⟩
          rfl

private theorem tangibleInverse?_watched (a : Element Float) :
    a.watched.tangibleInverse? = a.tangibleInverse?.map watched :=
  tangibleInverse?_onValue (f := Watched.mk) rfl rfl

structure Watches (a : Element Watched) (b : Element Float) : Prop where
  eq : a = b.watched
  wellFormed : b.WellFormed

namespace Watches

theorem simulates : Simulates Watches where
  zero := ⟨rfl, .zero⟩
  one := ⟨rfl, .one⟩
  add := by
    rintro _ _ a b ⟨rfl, ha⟩ ⟨rfl, hb⟩
    exact ⟨watched_add a b, ha.add hb⟩
  mul := by
    rintro _ _ a b ⟨rfl, ha⟩ ⟨rfl, hb⟩ c hc
    obtain ⟨d, hd, rfl, hfactor⟩ := mul_watched_eq_ok_iff.mp hc
    refine ⟨d, hd, rfl, supported_mul ha.supported hb.supported hd, fun hzero => ?_⟩
    have hbot : a.mul b = .ok 0 := by
      rw [mul, if_pos]
      simpa using hfactor hzero
    rw [hd] at hbot
    cases hbot
    rfl
  tangibleInverse? := by
    rintro _ c a ⟨rfl, ha⟩ hc
    rw [tangibleInverse?_watched, Option.map_eq_some_iff] at hc
    obtain ⟨d, hd, rfl⟩ := hc
    refine ⟨d, hd, rfl, ?_⟩
    rw [Element.tangibleInverse?] at hd
    split_ifs at hd
    exact ha.inverse? hd

end Watches

end Element

end MaxPlus
