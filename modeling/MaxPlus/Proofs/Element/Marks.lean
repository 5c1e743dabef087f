import MaxPlus.Proofs.Element.Simulation

/-!
Two runs on elements that differ in their marks.

The operations choose their branches by the values alone. So two runs on the same values fail
together and in the same way, or have results of one value. A result takes its mark from an operand
or from either of two, or has the mark that its branch gives it. So a relation between marks that
holds between equal ones and passes through disjunctions holds between the marks of the results too.
-/

set_option autoImplicit false
set_option relaxedAutoImplicit false

namespace MaxPlus

/-- The relations between marks that the operations pass on. -/
structure MarkRelation (r : Bool → Bool → Prop) : Prop where
  refl : ∀ g, r g g
  or : ∀ {g g' h h'}, r g g' → r h h' → r (g || h) (g' || h')

namespace MarkRelation

theorem any : MarkRelation fun _ _ => True where
  refl _ := trivial
  or _ _ := trivial

theorem below : MarkRelation fun g g' => g = true → g' = true where
  refl _ := id
  or hg hh := by
    rw [Bool.or_eq_true, Bool.or_eq_true]
    exact Or.imp hg hh

end MarkRelation

namespace Element

variable {W : Type}

structure Tied (r : Bool → Bool → Prop) (a b : Element W) : Prop where
  value : a.value = b.value
  mark : r a.ghost b.ghost

abbrev SameValue : Element W → Element W → Prop :=
  Tied fun _ _ => True

/-- The same value, and a ghost on the right wherever there is one on the left. -/
abbrev MarkedBelow : Element W → Element W → Prop :=
  Tied fun g g' => g = true → g' = true

variable {r : Bool → Bool → Prop}

theorem Tied.refl (hr : MarkRelation r) (a : Element W) : Tied r a a :=
  ⟨rfl, hr.refl a.ghost⟩

variable [Weight W] {a a' b b' : Element W}

/-- Sums and products of related elements fail in the same way or are related. -/
abbrev Lockstep (P : Element W → Element W → Prop) : Prop :=
  Respects fun x y : Computed W => Matches P x y

namespace Tied

theorem isZero_eq (h : Tied r a b) : a.isZero = b.isZero := by
  rw [isZero, isZero, h.value]

theorem add (hr : MarkRelation r) (ha : Tied r a a') (hb : Tied r b b') :
    Tied r (a + b) (a' + b') := by
  rw [add_def, add_def, Element.add, Element.add, ha.isZero_eq, hb.isZero_eq, ha.value, hb.value]
  split_ifs
  · exact hb
  · exact ha
  · exact ha
  · exact hb
  · exact ⟨rfl, hr.refl true⟩

theorem mul (hr : MarkRelation r) (ha : Tied r a a') (hb : Tied r b b') :
    Matches (Tied r) (a.mul b) (a'.mul b') := by
  rw [Element.mul, Element.mul, ha.isZero_eq, hb.isZero_eq, ha.value, hb.value]
  split_ifs
  · exact .ok (.refl hr 0)
  · exact .error _
  · exact .ok ⟨rfl, hr.or ha.mark hb.mark⟩

theorem respectsSums (hr : MarkRelation r) : RespectsSums (Tied r : Element W → _) where
  zero := .refl hr 0
  add := add hr

theorem lockstep (hr : MarkRelation r) : Lockstep (Tied r : Element W → _) where
  zero := .ok (.refl hr 0)
  one := .ok (.refl hr 1)
  add hx hy := by
    rw [Computed.add_eq_bind, Computed.add_eq_bind]
    exact hx.bind fun ha => hy.bind fun hb => .ok (ha.add hr hb)
  mul hx hy := by
    rw [Computed.mul_eq_bind, Computed.mul_eq_bind]
    exact hx.bind fun ha => hy.bind fun hb => ha.mul hr hb

end Tied

/-- A run on fewer marks succeeds wherever the run on more of them does. An inverse is taken of a
tangible element only, so the converse fails. -/
theorem MarkedBelow.simulates : Simulates fun a b : Element W => MarkedBelow b a where
  zero := .refl .below 0
  one := .refl .below 1
  add ha hb := ha.add .below hb
  mul ha hb := (ha.mul .below hb).flip.follows
  tangibleInverse? := by
    intro a b a' h hb
    rw [Element.tangibleInverse?, inverse?] at hb
    split_ifs at hb with htangible hzero
    cases hb
    have htangible' : a'.isTangible = true := by
      rw [isTangible, Bool.not_eq_true'] at htangible ⊢
      by_contra hghost
      rw [h.mark (Bool.eq_true_of_not_eq_false hghost)] at htangible
      cases htangible
    refine ⟨⟨-a'.value, a'.ghost⟩, ?_, by rw [h.value], h.mark⟩
    rw [Element.tangibleInverse?, if_pos htangible', inverse?, h.isZero_eq, if_neg hzero]

variable {P : Element W → Element W → Prop}

theorem product_matches (h : Lockstep P) {xs ys : List (Element W)}
    (hxs : List.Forall₂ P xs ys) :
    Matches P (Element.product xs) (Element.product ys) :=
  h.product (List.rel_map (fun _ _ hab => Matches.ok hab) hxs)

theorem pow_matches (h : Lockstep P) (ha : P a a') (n : ℕ) :
    Matches P (a.pow n) (a'.pow n) := by
  obtain ⟨hresult, hsquare⟩ := h.squareAndMultiply h.one (.ok ha) n
  rw [pow, pow]
  generalize squareAndMultiply 1 (.ok a : Computed W) n = x at hresult hsquare
  generalize squareAndMultiply 1 (.ok a' : Computed W) n = y at hresult hsquare
  obtain ⟨result, square⟩ := x
  obtain ⟨result', square'⟩ := y
  cases hresult with
  | error e => exact .error e
  | ok hb =>
    cases hsquare with
    | error e => exact .error e
    | ok _ => exact .ok hb

end Element

end MaxPlus
