import MaxPlus.Proofs.Algebra.Fold
import MaxPlus.Algebra.Reduction

/-!
What does not depend on the schedule of a sum.

A relation that respects sums passes through every schedule, so where `+` is associative and
commutative each of them gives the sum. To give one and the same value, be it rounded or marked,
less is enough: `+` is associative on the values that occur, and `0` may be left out in front.
-/

set_option autoImplicit false
set_option relaxedAutoImplicit false

namespace MaxPlus

universe u v w

variable {ι : Type w} {S : Type u} {T : Type v} {n : ℕ}

theorem RespectsSums.reduction [Zero S] [Add S] [Zero T] [Add T] {R : S → T → Prop}
    (h : RespectsSums R) {f : ι → S} {g : ι → T} (hfg : ∀ i, R (f i) (g i)) (t : Reduction ι) :
    R (t.value f) (t.value g) := by
  induction t with
  | empty => exact h.zero
  | place i => exact hfg i
  | join left right ihl ihr => exact h.add ihl ihr

namespace Reduction

private theorem Leading.places_ne_nil {t : Reduction ι} (h : t.Leading) : t.places ≠ [] := by
  induction t with
  | empty => exact h.elim
  | place i => exact List.cons_ne_nil i []
  | join left right _ ihr => exact List.append_ne_nil_of_right_ne_nil _ (ihr h.2)

private theorem value_eq_sum_map [AddMonoid S] (f : ι → S) (t : Reduction ι) :
    t.value f = (t.places.map f).sum := by
  induction t with
  | empty => rfl
  | place i => exact (List.sum_singleton).symm
  | join left right ihl ihr => rw [value, places, List.map_append, List.sum_append, ihl, ihr]

theorem value_eq_sum [AddCommMonoid S] (f : Fin n → S) {t : Reduction (Fin n)}
    (ht : t.places = List.finRange n) : t.value f = ∑ i, f i := by
  rw [value_eq_sum_map, ht, ← List.ofFn_eq_map, List.sum_ofFn]

end Reduction

theorem Schedule.value_eq_sum [AddCommMonoid S] (schedule : Schedule) (f : Fin n → S) :
    (schedule.reduction n).value f = ∑ i, f i :=
  Reduction.value_eq_sum f (schedule.places_reduction n)

/-- On these values `+` stays among them and is associative, and `0` is neutral on the left. -/
structure AddsInAnyOrder [Zero S] [Add S] (p : S → Prop) : Prop where
  add : ∀ {a b}, p a → p b → p (a + b)
  assoc : ∀ {a b c}, p a → p b → p c → a + b + c = a + (b + c)
  zero_add : ∀ {a}, p a → 0 + a = a

namespace AddsInAnyOrder

variable [Zero S] [Add S] {p : S → Prop} (h : AddsInAnyOrder p)

include h

private theorem foldl_add {x y : S} (hx : p x) (hy : p y) {zs : List S} (hzs : ∀ z ∈ zs, p z) :
    zs.foldl (· + ·) (x + y) = x + zs.foldl (· + ·) y := by
  induction zs generalizing y with
  | nil => rfl
  | cons z zs ih =>
    obtain ⟨hz, hzs⟩ := List.forall_mem_cons.mp hzs
    rw [List.foldl_cons, List.foldl_cons, h.assoc hx hy hz, ih (h.add hy hz) hzs]

private theorem foldl_eq_add_sum {x : S} (hx : p x) {ys : List S} (hne : ys ≠ [])
    (hys : ∀ y ∈ ys, p y) : ys.foldl (· + ·) x = x + sum ys := by
  obtain ⟨y, zs, rfl⟩ := List.exists_cons_of_ne_nil hne
  obtain ⟨hy, hzs⟩ := List.forall_mem_cons.mp hys
  rw [sum, List.foldl_cons, List.foldl_cons, h.zero_add hy, h.foldl_add hx hy hzs]

variable {f : ι → S} (hf : ∀ i, p (f i)) {t : Reduction ι}

include hf

private theorem value_mem (ht : t.Leading) : p (t.value f) := by
  induction t with
  | empty => exact ht.elim
  | place i => exact hf i
  | join left right ihl ihr =>
    obtain ⟨rfl | hl, hr⟩ := ht
    · rw [Reduction.value, Reduction.value, h.zero_add (ihr hr)]
      exact ihr hr
    · exact h.add (ihl hl) (ihr hr)

/-- Every reduction whose ranges begin with places adds them as if from the first to the last. -/
theorem value_eq_sum (ht : t.Leading) : t.value f = sum (t.places.map f) := by
  induction t with
  | empty => exact ht.elim
  | place i => exact (h.zero_add (hf i)).symm
  | join left right ihl ihr =>
    obtain ⟨rfl | hl, hr⟩ := ht
    · exact (h.zero_add (h.value_mem hf hr)).trans (ihr hr)
    · have hright : right.places.map f ≠ [] := by
        rw [ne_eq, List.map_eq_nil_iff]
        exact hr.places_ne_nil
      have hmem : ∀ y ∈ right.places.map f, p y := List.forall_mem_map.mpr fun i _ => hf i
      calc left.value f + right.value f
          = left.value f + sum (right.places.map f) := by rw [ihr hr]
        _ = (right.places.map f).foldl (· + ·) (left.value f) :=
          (h.foldl_eq_add_sum (h.value_mem hf hl) hright hmem).symm
        _ = sum ((left.places ++ right.places).map f) := by
          rw [ihl hl, sum, sum, List.map_append, List.foldl_append]

end AddsInAnyOrder

theorem Schedule.value_eq_of_addsInAnyOrder [Zero S] [Add S] {p : S → Prop}
    (h : AddsInAnyOrder p) (schedule schedule' : Schedule) {f : Fin (n + 1) → S}
    (hf : ∀ i, p (f i)) :
    (schedule.reduction (n + 1)).value f = (schedule'.reduction (n + 1)).value f := by
  rw [h.value_eq_sum hf (schedule.leading_reduction n),
    h.value_eq_sum hf (schedule'.leading_reduction n), schedule.places_reduction,
    schedule'.places_reduction]

end MaxPlus
