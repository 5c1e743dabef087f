import MaxPlus.Proofs.Element.Marks
import MaxPlus.Proofs.Matrix.Simulation

/-!
What the marks of a matrix have to do with the results.

Two runs on matrices with the same values and any marks fail together and in the same way, or give
the same values. If the first run has fewer ghosts, so does its result. A system is the exception:
more ghosts can make it singular, and then the first run alone has a solution.
-/

set_option autoImplicit false
set_option relaxedAutoImplicit false

namespace MaxPlus

theorem Matches.demanded {W α β : Type} {P : α → β → Prop} {x : Except (Unsupported W) α}
    {y : Except (Unsupported W) β} (h : Matches P x y) :
    Matches P (MaxPlus.demanded x) (MaxPlus.demanded y) := by
  cases h with
  | ok h => exact .ok h
  | error e => exact .error _

variable {W : Type} {P : Element W → Element W → Prop}

namespace Grid

variable {r c : ℕ}

private theorem computed_matches {A A' : Grid (Element W) r c} (h : ∀ i j, P (A i j) (A' i j))
    (i : Fin r) (j : Fin c) : Matches P (A.computed i j) (A'.computed i j) := by
  rw [computed_apply, computed_apply]
  exact .ok (h i j)

private theorem settled_matches {A A' : Grid (Computed W) r c}
    (h : ∀ i j, Matches P (A i j) (A' i j)) :
    Matches (fun C C' => ∀ i j, P (C i j) (C' i j)) A.settled A'.settled := by
  have hentries : ∀ k, Matches P (id (A.entries.get k)) (id (A'.entries.get k)) := by
    intro k
    have hA : A.entries.get k = A (rowOf k) (colOf k) := A.getElem_entries k
    have hA' : A'.entries.get k = A' (rowOf k) (colOf k) := A'.getElem_entries k
    rw [id, id, hA, hA']
    exact h _ _
  refine ((Matches.vector_mapM hentries).map fun {as bs} hab i j => ?_).demanded
  simpa [entry, Vector.get_eq_getElem] using hab ⟨i.val * c + j.val, place_lt i j⟩

end Grid

private theorem Plan.checkOrder_matches {α β : Type} {Q : α → β → Prop} {x : Outcome W α}
    {y : Outcome W β} (plan : Plan) (n : ℕ) (h : Matches Q x y) :
    Matches Q (plan.checkOrder n >>= fun _ => x) (plan.checkOrder n >>= fun _ => y) := by
  rw [checkOrder]
  split_ifs
  · exact .error _
  · exact h

theorem Matrix.Linked.flip {A A' : Matrix (Element W)} (h : Linked P A A') :
    Linked (fun a b => P b a) A' A := by
  cases h with
  | mk h => exact .mk h

variable [Weight W]

namespace Plan

variable (plan : Plan) {n : ℕ} {A A' : Grid (Element W) n n}

private theorem permanent_matches (h : Element.Lockstep P)
    (hA : ∀ i j, P (A i j) (A' i j)) : Matches P (plan.permanent A) (plan.permanent A') :=
  plan.checkOrder_matches n (plan.computePermanent_related h (Grid.computed_matches hA)).demanded

private theorem adjoint_matches (h : Element.Lockstep P)
    (hA : ∀ i j, P (A i j) (A' i j)) :
    Matches (fun B B' => ∀ i j, P (B i j) (B' i j)) (plan.adjoint A) (plan.adjoint A') := by
  rw [adjoint, adjoint, computeAdjoint_eq_adjoint, computeAdjoint_eq_adjoint]
  exact plan.checkOrder_matches n
    (Grid.settled_matches (Grid.adjoint_related h (Grid.computed_matches hA)))

end Plan

namespace Matrix

open Element (MarkedBelow SameValue Tied)

section Operations

variable {A A' : Matrix (Element W)}

private theorem mul_matches (h : Element.Lockstep P) (hA : Linked P A A')
    {B B' : Matrix (Element W)} (hB : Linked P B B') :
    Matches (Linked P) (A.mul B) (A'.mul B') := by
  obtain @⟨r, k, A, A', hA⟩ := hA
  obtain @⟨k', c, B, B', hB⟩ := hB
  rw [mul_def, mul_def]
  by_cases hshape : k = k'
  · subst hshape
    rw [dif_pos rfl, dif_pos rfl, Grid.cast_rfl, Grid.cast_rfl]
    exact (Grid.settled_matches (Grid.mul_related h (Grid.computed_matches hA)
      (Grid.computed_matches hB))).bind fun hC => .ok (.mk hC)
  · rw [dif_neg hshape, dif_neg hshape]
    exact .error _

private theorem scale_matches (h : Element.Lockstep P) (hA : Linked P A A')
    {x x' : Element W} (hx : P x x') : Matches (Linked P) (A.scale x) (A'.scale x') := by
  obtain @⟨r, c, A, A', hA⟩ := hA
  exact (Grid.settled_matches (Grid.scale_related h (Grid.computed_matches hA) (.ok hx))).bind
    fun hC => .ok (.mk hC)

private theorem mulVec_matches (h : Element.Lockstep P) (hA : Linked P A A')
    {xs xs' : List (Element W)} (hxs : List.Forall₂ P xs xs') :
    Matches (List.Forall₂ P) (A.mulVec xs) (A'.mulVec xs') := by
  obtain @⟨r, c, A, A', hA⟩ := hA
  have hlength := hxs.length_eq
  rw [mulVec, mulVec]
  by_cases hshape : xs.length = c
  · rw [dif_pos hshape, dif_pos (hlength ▸ hshape)]
    have hrows := Grid.mulVec_toList_related h (Grid.computed_matches hA)
      (List.rel_map (fun _ _ hab => .ok hab) hxs)
    exact (Matches.mapM (hrows _ _) id).demanded
  · rw [dif_neg hshape, dif_neg (hlength ▸ hshape), hlength]
    exact .error _

private theorem permanent_matches (plan : Plan) (h : Element.Lockstep P)
    (hA : Linked P A A') : Matches P (A.permanent plan) (A'.permanent plan) := by
  obtain @⟨n, m, A, A', hA⟩ := hA
  by_cases hsquare : m = n
  · subst hsquare
    rw [permanent_mk, permanent_mk]
    exact plan.permanent_matches h hA
  · rw [permanent_of_not_square hsquare, permanent_of_not_square hsquare]
    exact .error _

private theorem adjoint_matches (plan : Plan) (h : Element.Lockstep P)
    (hA : Linked P A A') : Matches (Linked P) (A.adjoint plan) (A'.adjoint plan) := by
  obtain @⟨n, m, A, A', hA⟩ := hA
  by_cases hsquare : m = n
  · subst hsquare
    rw [adjoint_mk, adjoint_mk]
    exact (plan.adjoint_matches h hA).map .mk
  · rw [adjoint_of_not_square hsquare, adjoint_of_not_square hsquare]
    exact .error _

end Operations

/-- Every operation, run on related operands, fails in the same way or has related results. -/
structure RunsAlike (P : Element W → Element W → Prop) : Prop where
  add : ∀ {a a' b b'}, P a a' → P b b' → P (a + b) (a' + b')
  mul : ∀ {a a' b b'}, P a a' → P b b' → Matches P (a.mul b) (a'.mul b')
  pow : ∀ (n : ℕ) {a a'}, P a a' → Matches P (a.pow n) (a'.pow n)
  sum : ∀ {xs xs'}, List.Forall₂ P xs xs' → P (MaxPlus.sum xs) (MaxPlus.sum xs')
  product : ∀ {xs xs'}, List.Forall₂ P xs xs' →
    Matches P (Element.product xs) (Element.product xs')
  matrixMul : ∀ {A A' B B'}, Linked P A A' → Linked P B B' →
    Matches (Linked P) (A.mul B) (A'.mul B')
  mulVec : ∀ {A A' xs xs'}, Linked P A A' → List.Forall₂ P xs xs' →
    Matches (List.Forall₂ P) (A.mulVec xs) (A'.mulVec xs')
  scale : ∀ {A A' x x'}, Linked P A A' → P x x' → Matches (Linked P) (A.scale x) (A'.scale x')
  permanent : ∀ (plan : Plan) {A A'}, Linked P A A' →
    Matches P (A.permanent plan) (A'.permanent plan)
  adjoint : ∀ (plan : Plan) {A A'}, Linked P A A' →
    Matches (Linked P) (A.adjoint plan) (A'.adjoint plan)

private theorem runsAlike_tied {r : Bool → Bool → Prop} (hr : MarkRelation r) :
    RunsAlike (Tied r : Element W → _) where
  add ha hb := ha.add hr hb
  mul ha hb := ha.mul hr hb
  pow n _ _ ha := Element.pow_matches (Tied.lockstep hr) ha n
  sum hxs := (Tied.respectsSums hr).sum hxs
  product hxs := Element.product_matches (Tied.lockstep hr) hxs
  matrixMul hA hB := mul_matches (Tied.lockstep hr) hA hB
  mulVec hA hxs := mulVec_matches (Tied.lockstep hr) hA hxs
  scale hA hx := scale_matches (Tied.lockstep hr) hA hx
  permanent plan _ _ hA := permanent_matches plan (Tied.lockstep hr) hA
  adjoint plan _ _ hA := adjoint_matches plan (Tied.lockstep hr) hA

/-- No mark has an effect on a value or a failure, and operands with more ghosts have results with
more ghosts. A system that has a solution has one with any ghosts removed. -/
theorem marks_only_reach_marks :
    RunsAlike (SameValue : Element W → _) ∧
      RunsAlike (MarkedBelow : Element W → _) ∧
      ∀ (plan : Plan) {A A' b b' x' : Matrix (Element W)}, Linked MarkedBelow A A' →
        Linked MarkedBelow b b' → A'.solve plan b' = .ok x' →
        ∃ x, A.solve plan b = .ok x ∧ Linked MarkedBelow x x' := by
  refine ⟨runsAlike_tied .any, runsAlike_tied .below, ?_⟩
  intro plan A A' b b' x' hA hb hx'
  obtain ⟨x, hx, hlinked⟩ :=
    solve_follows plan MarkedBelow.simulates hA.flip hb.flip x' hx'
  exact ⟨x, hx, hlinked.flip⟩

def roundedSystem (mark : Bool) : Matrix (Element Float) :=
  ⟨2, 2, ⟨#v[⟨Float.ofBits 0x4341c37937e08000, false⟩, ⟨0.5, mark⟩,
    ⟨Weight.bot, false⟩, ⟨1.5, false⟩]⟩⟩

def roundedSide (mark : Bool) : Matrix (Element Float) :=
  ⟨2, 1, ⟨#v[⟨2.5, mark⟩, ⟨-3.5, false⟩]⟩⟩

theorem marks_only_reach_marks_roundedSystem :
    Linked MarkedBelow (roundedSystem false) (roundedSystem true) ∧
      Linked MarkedBelow (roundedSide false) (roundedSide true) ∧
      ∃ x x', (roundedSystem true).solve .sequential (roundedSide true) = .ok x' ∧
        x'.toList.map Element.ghost = [true, false] ∧
        (roundedSystem false).solve .sequential (roundedSide false) = .ok x ∧
        x.toList.map Element.ghost = [false, false] ∧ Linked MarkedBelow x x' := by
  have hA : Linked MarkedBelow (roundedSystem false) (roundedSystem true) := by
    refine .mk fun i j => ?_
    fin_cases i <;> fin_cases j <;> exact ⟨rfl, nofun⟩
  have hb : Linked MarkedBelow (roundedSide false) (roundedSide true) := by
    refine .mk fun i j => ?_
    fin_cases i <;> fin_cases j <;> exact ⟨rfl, nofun⟩
  have hghosts : ∀ mark, ((roundedSystem mark).solve .sequential (roundedSide mark)).toOption.map
      (fun x => x.toList.map Element.ghost) = some [mark, false] := by decide +kernel
  have hghosts' := hghosts true
  cases hx' : (roundedSystem true).solve .sequential (roundedSide true) with
  | error e =>
    rw [hx'] at hghosts'
    cases hghosts'
  | ok x' =>
    obtain ⟨x, hx, hlinked⟩ := marks_only_reach_marks.2.2 .sequential hA hb hx'
    have hghosts := hghosts false
    rw [hx'] at hghosts'
    rw [hx] at hghosts
    exact ⟨hA, hb, x, x', rfl, Option.some.inj hghosts', hx, Option.some.inj hghosts, hlinked⟩

end Matrix

end MaxPlus
