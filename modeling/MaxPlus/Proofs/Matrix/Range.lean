import MaxPlus.Proofs.Element.Shadowed
import MaxPlus.Proofs.Matrix.Simulation

/-!
The range in which Cramer's rule over doubles is exact.

Sums of elements keep a bound on the integers, and products add up the bounds of their factors. With
`n` rows and entries up to `B` the permanent is bounded by `n * B`, the minors by `(n - 1) * B`, and
so the adjoint times the right side by `n * B` again. The last factor is the inverse of the
permanent, so no sum lies above `2 * n * B`. Up to `2 ^ 53` all of them are exact.
-/

set_option autoImplicit false
set_option relaxedAutoImplicit false

namespace MaxPlus

variable {limit m k n r c : ℕ}

namespace Computed

def Within (m : ℕ) (x : Computed (Shadowed limit)) : Prop :=
  ∃ a, x = .ok a ∧ a.value.Within m

private theorem within_ok {a : Element (Shadowed limit)} (ha : a.value.Within m) :
    Within m (.ok a) :=
  ⟨a, rfl, ha⟩

theorem Within.add {x y : Computed (Shadowed limit)} (hx : x.Within m) (hy : y.Within m) :
    (x + y).Within m := by
  obtain ⟨a, rfl, ha⟩ := hx
  obtain ⟨b, rfl, hb⟩ := hy
  exact within_ok (Element.within_value_add ha hb)

private theorem respectsSums_within (m : ℕ) :
    RespectsSums fun (x : Computed (Shadowed limit)) (_ : Unit) => x.Within m where
  zero := within_ok (Shadowed.within_bot m)
  add := Within.add

variable (hlimit : limit ≤ 2 ^ 53)
include hlimit

theorem Within.mul {x y : Computed (Shadowed limit)} (hx : x.Within m) (hy : y.Within k)
    (hle : m + k ≤ limit) : (x * y).Within (m + k) := by
  obtain ⟨a, rfl, ha⟩ := hx
  obtain ⟨b, rfl, hb⟩ := hy
  exact Element.exists_mul_within ha hb hle hlimit

private theorem within_productOver {f : Fin n → Computed (Shadowed limit)}
    (hf : ∀ i, (f i).Within m) (hle : n * m ≤ limit) : (productOver f).Within (n * m) := by
  induction n with
  | zero => exact within_ok (Shadowed.within_unit _)
  | succ n ih =>
    rw [Nat.succ_mul] at hle ⊢
    have hinit : (productOver fun i : Fin n => f i.castSucc).Within (n * m) :=
      ih (fun i => hf i.castSucc) (by omega)
    rw [productOver, productFrom, Fin.foldl_succ_last]
    exact hinit.mul hlimit (hf (Fin.last n)) hle

end Computed

namespace Grid

variable (hlimit : limit ≤ 2 ^ 53)
include hlimit

private theorem within_selection {A : Grid (Element (Shadowed limit)) n n}
    (hA : ∀ i j, (A i j).value.Within m) (hle : n * m ≤ limit) (σ : Equiv.Perm (Fin n)) :
    (productOver fun i => A.computed i (σ i)).Within (n * m) := by
  simp only [computed_apply]
  exact Computed.within_productOver hlimit (fun i => Computed.within_ok (hA i (σ i))) hle

private theorem within_computePermanent (plan : Plan) {A : Grid (Element (Shadowed limit)) n n}
    (hA : ∀ i j, (A i j).value.Within m) (hle : n * m ≤ limit) :
    (plan.computePermanent A.computed).Within (n * m) :=
  plan.computePermanent_related_sum (Computed.respectsSums_within (n * m)) (t := fun _ => ())
    (within_selection hlimit hA hle)

private theorem within_adjoint {A : Grid (Element (Shadowed limit)) n n}
    (hA : ∀ i j, (A i j).value.Within m) (hle : (n - 1) * m ≤ limit) (i j : Fin n) :
    (A.computed.adjoint i j).Within ((n - 1) * m) := by
  cases n with
  | zero => exact i.elim0
  | succ n =>
    rw [adjoint_apply, minor_computed]
    refine permanent_related_sum (Computed.respectsSums_within (n * m)) (t := fun _ => ())
      (within_selection hlimit (fun p q => ?_) hle)
    rw [minor_apply]
    exact hA _ _

private theorem within_mul {A : Grid (Element (Shadowed limit)) r n}
    {B : Grid (Element (Shadowed limit)) n c} (hA : ∀ i j, (A i j).value.Within m)
    (hB : ∀ i j, (B i j).value.Within k) (hle : m + k ≤ limit) (i : Fin r) (j : Fin c) :
    (A.computed.mul B.computed i j).Within (m + k) := by
  rw [mul_apply]
  refine (Computed.respectsSums_within (m + k)).sumOver (g := fun _ => ()) fun t => ?_
  rw [computed_apply, computed_apply]
  exact (Computed.within_ok (hA i t)).mul hlimit (Computed.within_ok (hB t j)) hle

private theorem within_scale {A : Grid (Element (Shadowed limit)) r c}
    {x : Element (Shadowed limit)}
    (hA : ∀ i j, (A i j).value.Within m) (hx : x.value.Within k) (hle : m + k ≤ limit) (i : Fin r)
    (j : Fin c) : (A.computed.scale (.ok x) i j).Within (m + k) := by
  rw [scale_apply, computed_apply]
  exact (Computed.within_ok (hA i j)).mul hlimit (Computed.within_ok hx) hle

end Grid

namespace Plan

variable {plan : Plan} {A : Grid (Element (Shadowed limit)) n n}
  {b : Grid (Element (Shadowed limit)) n 1}

private theorem exists_permanent_within (hlimit : limit ≤ 2 ^ 53) (horder : n ≤ plan.maxOrder)
    (hA : ∀ i j, (A i j).value.Within m) (hle : n * m ≤ limit) :
    ∃ p, plan.permanent A = .ok p ∧ p.value.Within (n * m) := by
  obtain ⟨p, hp, hwithin⟩ := Grid.within_computePermanent hlimit plan hA hle
  refine ⟨p, ?_, hwithin⟩
  rw [permanent_of_le A horder, hp]
  rfl

private theorem exists_solve_within (hlimit : limit ≤ 2 ^ 53) (horder : n ≤ plan.maxOrder)
    (hA : ∀ i j, (A i j).value.Within m) (hb : ∀ i j, (b i j).value.Within m)
    (hle : n * m + n * m ≤ limit) {p inverse : Element (Shadowed limit)}
    (hp : plan.permanent A = .ok p) (hwithin : p.value.Within (n * m))
    (hinverse : p.tangibleInverse? = some inverse) : ∃ x, plan.solve A b = .ok x := by
  have hminors : (n - 1) * m ≤ n * m := Nat.mul_le_mul_right m (Nat.sub_le n 1)
  obtain ⟨adj, hadj, hadjoint⟩ := Grid.exists_settled (Grid.within_adjoint hlimit hA (by omega))
  -- The entry of the right side makes up for the row that a minor leaves out.
  have hproduct : ∀ i j, (adj.computed.mul b.computed i j).Within (n * m) := by
    intro i j
    have hrows : (n - 1) * m + m = n * m := by
      rw [← Nat.succ_mul, Nat.succ_eq_add_one, Nat.sub_add_cancel i.pos]
    rw [← hrows]
    exact Grid.within_mul hlimit hadjoint hb (by omega) i j
  obtain ⟨y, hy, hright⟩ := Grid.exists_settled hproduct
  have hscaled := Grid.within_scale hlimit hright
    (Element.within_of_tangibleInverse? hwithin hinverse) hle
  obtain ⟨x, hx, -⟩ := Grid.exists_settled hscaled
  refine ⟨x, ?_⟩
  rw [solve, hp, adjoint_of_le A horder, hadj]
  simp only [bind, Except.bind, hinverse, hy, hx]

end Plan

namespace Matrix

def onValues {W V : Type} (f : W → V) (A : Matrix (Element W)) : Matrix (Element V) :=
  ⟨A.rows, A.cols, A.grid.map (Element.onValue f)⟩

private theorem onValues_onValues {W V U : Type} (f : V → U) (g : W → V) (A : Matrix (Element W)) :
    (A.onValues g).onValues f = A.onValues (f ∘ g) :=
  congrArg (fun v => mk A.rows A.cols ⟨v⟩) Vector.map_map

private theorem onValues_id {W : Type} (A : Matrix (Element W)) : A.onValues id = A :=
  congrArg (fun v => mk A.rows A.cols ⟨v⟩) (Vector.map_id _)

section Shadows

variable (limit : ℕ) (A : Matrix (Element Float))

private theorem double_ofFloat :
    (A.onValues (Shadowed.ofFloat limit)).onValues Shadowed.double = A :=
  (onValues_onValues _ _ A).trans A.onValues_id

private theorem shadow_ofFloat : (A.onValues (Shadowed.ofFloat limit)).onValues Shadowed.shadow =
    A.onValues Binary64.integer :=
  onValues_onValues _ _ A

variable {A} in
private theorem forall_within_ofFloat (hA : A.Forall (Element.IntegerUpTo m)) :
    (A.onValues (Shadowed.ofFloat limit)).Forall fun a => a.value.Within m := by
  intro i j
  have hentry : (A.onValues (Shadowed.ofFloat limit)).grid i j =
      (A.grid i j).onValue (Shadowed.ofFloat limit) := Grid.map_apply _ A.grid i j
  rw [hentry]
  exact (hA i j).within

end Shadows

/-- A system over shadowed doubles and the same over doubles and over exact weights have the same
solution, or they have the same singular permanent. There is no fault. -/
inductive SolvedAlike {limit : ℕ} : Outcome (Shadowed limit) (Matrix (Element (Shadowed limit))) →
    Outcome Float (Matrix (Element Float)) → Outcome Exact (Matrix (Element Exact)) → Prop
  | solution {x : Matrix (Element (Shadowed limit))} (h : x.Forall fun a => a.value.Within limit) :
    SolvedAlike (.ok x) (.ok (x.onValues Shadowed.double)) (.ok (x.onValues Shadowed.shadow))
  | singular {p : Element (Shadowed limit)} (h : p.value.Within limit) :
    SolvedAlike (.error (.error (.singular p)))
      (.error (.error (.singular (p.onValue Shadowed.double))))
      (.error (.error (.singular (p.onValue Shadowed.shadow))))

private theorem solvedAlike_of_within (plan : Plan) {A b : Matrix (Element (Shadowed limit))}
    (hlimit : limit ≤ 2 ^ 53) (horder : n ≤ plan.maxOrder) (hle : n * m + n * m ≤ limit)
    (hsquare : A.shape = ⟨n, n⟩) (hcolumn : b.shape = ⟨n, 1⟩)
    (hA : A.Forall fun a => a.value.Within m) (hb : b.Forall fun a => a.value.Within m) :
    SolvedAlike (solve plan A b)
      (solve plan (A.onValues Shadowed.double) (b.onValues Shadowed.double))
      (solve plan (A.onValues Shadowed.shadow) (b.onValues Shadowed.shadow)) := by
  obtain ⟨r, c, A⟩ := A
  obtain ⟨r', c', b⟩ := b
  obtain ⟨rfl, rfl⟩ : n = r ∧ n = c := Shape.mk.inj hsquare.symm
  obtain ⟨rfl, rfl⟩ : n = r' ∧ 1 = c' := Shape.mk.inj hcolumn.symm
  have hsmall : Fin n → m ≤ limit := fun i =>
    calc m ≤ n * m := Nat.le_mul_of_pos_left m i.pos
      _ ≤ limit := by omega
  have hdouble : ∀ {r c : ℕ} (B : Grid (Element (Shadowed limit)) r c) i j,
      B.map (Element.onValue Shadowed.double) i j = (B i j).onValue Shadowed.double :=
    fun B => Grid.map_apply _ B
  have hshadow : ∀ {c : ℕ} {B : Grid (Element (Shadowed limit)) n c},
      (∀ i j, (B i j).value.Within m) → ∀ i j, (B i j).value.Within limit ∧
        B.map (Element.onValue Shadowed.shadow) i j = (B i j).onValue Shadowed.shadow :=
    fun hB i j => ⟨(hB i j).mono (hsmall i), Grid.map_apply _ _ i j⟩
  obtain ⟨p, hp, hwithin⟩ := Plan.exists_permanent_within hlimit horder hA (by omega)
  obtain ⟨_, hpD, rfl⟩ := plan.permanent_follows Element.simulates_double (hdouble A) p hp
  obtain ⟨_, hpS, hp', rfl⟩ := plan.permanent_follows Element.simulates_shadow (hshadow hA) p hp
  simp only [onValues, solve_mk]
  cases hinverse : p.tangibleInverse? with
  | none =>
    rw [plan.solve_eq_error_of_permanent hp hinverse, plan.solve_eq_error_of_permanent hpD,
      plan.solve_eq_error_of_permanent hpS]
    · exact .singular hp'
    · rw [Element.tangibleInverse?_onValue (Element.onValue_shadow_isZero hp') rfl, hinverse]
      rfl
    · rw [Element.tangibleInverse?_onValue (Element.onValue_double_isZero p) rfl, hinverse]
      rfl
  | some inverse =>
    obtain ⟨x, hx⟩ := Plan.exists_solve_within hlimit horder hA hb hle hp hwithin hinverse
    obtain ⟨xD, hxD, hD⟩ :=
      plan.solve_follows Element.simulates_double (hdouble A) (hdouble b) x hx
    obtain ⟨xS, hxS, hS⟩ :=
      plan.solve_follows Element.simulates_shadow (hshadow hA) (hshadow hb) x hx
    obtain rfl : xD = x.map (Element.onValue Shadowed.double) :=
      Grid.ext fun i j => (hD i j).trans (hdouble x i j).symm
    obtain rfl : xS = x.map (Element.onValue Shadowed.shadow) :=
      Grid.ext fun i j => (hS i j).2.trans (Grid.map_apply _ x i j).symm
    rw [hx, hxD, hxS]
    exact .solution (x := ⟨n, 1, x⟩) fun i j => (hS i j).1

/-- With `n` rows, and with integers up to `B` and `-∞` as entries, every sum that is formed on the
way to the solution is an integer up to `2 * n * B`. If that is at most `2 ^ 53`, no sum over
doubles is rounded or out of range, and the outcome is the one over exact weights. -/
theorem solve_exact_of_integerUpTo (plan : Plan) {n B : ℕ} {A b : Matrix (Element Float)}
    (hB : 2 * n * B ≤ 2 ^ 53) (horder : n ≤ plan.maxOrder) (hA : A.shape = ⟨n, n⟩)
    (hb : b.shape = ⟨n, 1⟩) (hentries : A.Forall (Element.IntegerUpTo B))
    (hside : b.Forall (Element.IntegerUpTo B)) :
    SolvedAlike
      (solve plan (A.onValues (Shadowed.ofFloat (2 * n * B)))
        (b.onValues (Shadowed.ofFloat (2 * n * B))))
      (solve plan A b)
      (solve plan (A.onValues Binary64.integer) (b.onValues Binary64.integer)) := by
  have hle : n * B + n * B ≤ 2 * n * B := by
    rw [mul_assoc, two_mul]
  have hsolved := solvedAlike_of_within plan hB horder hle (A := A.onValues _) (b := b.onValues _)
    hA hb (forall_within_ofFloat (2 * n * B) hentries) (forall_within_ofFloat (2 * n * B) hside)
  rwa [double_ofFloat, double_ofFloat, shadow_ofFloat, shadow_ofFloat] at hsolved

def wide : Float :=
  2251799813685248

def wideSystem : Matrix (Element Float) :=
  ⟨2, 2, Grid.ofFn ![![⟨wide, false⟩, ⟨-wide, true⟩], ![⟨Weight.bot, true⟩, ⟨wide, false⟩]]⟩

def wideSide : Matrix (Element Float) :=
  ⟨2, 1, Grid.ofFn ![![⟨wide, true⟩], ![⟨-wide, false⟩]]⟩

theorem solve_exact_of_integerUpTo_wide :
    2 * 2 * 2 ^ 51 ≤ 2 ^ 53 ∧ wideSystem.Forall (Element.IntegerUpTo (2 ^ 51)) ∧
      wideSide.Forall (Element.IntegerUpTo (2 ^ 51)) ∧
      (wideSystem.solve .sequential wideSide).isOk = true ∧
      SolvedAlike
        (solve .sequential (wideSystem.onValues (Shadowed.ofFloat (2 * 2 * 2 ^ 51)))
          (wideSide.onValues (Shadowed.ofFloat (2 * 2 * 2 ^ 51))))
        (wideSystem.solve .sequential wideSide)
        (solve .sequential (wideSystem.onValues Binary64.integer)
          (wideSide.onValues Binary64.integer)) := by
  have hentries : wideSystem.Forall (Element.IntegerUpTo (2 ^ 51)) := by decide +kernel
  have hside : wideSide.Forall (Element.IntegerUpTo (2 ^ 51)) := by decide +kernel
  exact ⟨by decide, hentries, hside, by decide +kernel,
    solve_exact_of_integerUpTo .sequential (by decide) (by decide) rfl rfl hentries hside⟩

end Matrix

end MaxPlus
