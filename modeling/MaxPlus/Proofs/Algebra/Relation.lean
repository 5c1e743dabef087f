import Mathlib
import MaxPlus.Algebra.Fold

/-!
Relations between two carriers that the operations respect.

Two runs of one sum, product or power that start from related operands keep related results, step
by step. No law is used, so the relation may tie a carrier without laws to one that has them, and
two runs that fail in different places to each other.
-/

set_option autoImplicit false
set_option relaxedAutoImplicit false

namespace MaxPlus

universe u v

variable {S : Type u} {T : Type v} {n : ℕ}

private theorem finFoldl_related {R : S → T → Prop} {f : S → Fin n → S} {g : T → Fin n → T}
    (hstep : ∀ {a b} i, R a b → R (f a i) (g b i)) {a : S} {b : T} (hab : R a b) :
    R (Fin.foldl n f a) (Fin.foldl n g b) := by
  induction n with
  | zero => exact hab
  | succ n ih =>
    rw [Fin.foldl_succ_last, Fin.foldl_succ_last]
    exact hstep (Fin.last n) (ih fun i => hstep i.castSucc)

section Sums

variable [Zero S] [Add S] [Zero T] [Add T]

/-- The zeros are related, and so are the sums of related operands. -/
structure RespectsSums (R : S → T → Prop) : Prop where
  zero : R 0 0
  add : ∀ {a b : S} {a' b' : T}, R a a' → R b b' → R (a + b) (a' + b')

namespace RespectsSums

variable {R : S → T → Prop}

theorem sum (h : RespectsSums R) {xs : List S} {ys : List T} (hxs : List.Forall₂ R xs ys) :
    R (MaxPlus.sum xs) (MaxPlus.sum ys) :=
  List.rel_foldl (R := R) (P := R) (fun _ _ hacc _ _ hx => h.add hacc hx) h.zero hxs

theorem sum_ofFn (h : RespectsSums R) {f : Fin n → S} {g : Fin n → T} (hfg : ∀ i, R (f i) (g i)) :
    R (MaxPlus.sum (List.ofFn f)) (MaxPlus.sum (List.ofFn g)) := by
  rw [List.ofFn_eq_map, List.ofFn_eq_map]
  exact h.sum (List.forall₂_map_left_iff.mpr (List.forall₂_map_right_iff.mpr
    (List.forall₂_same.mpr fun i _ => hfg i)))

theorem sumOver (h : RespectsSums R) {f : Fin n → S} {g : Fin n → T} (hfg : ∀ i, R (f i) (g i)) :
    R (MaxPlus.sumOver f) (MaxPlus.sumOver g) :=
  finFoldl_related (fun i hacc => h.add hacc (hfg i)) h.zero

end RespectsSums

end Sums

variable [Zero S] [One S] [Add S] [Mul S] [Zero T] [One T] [Add T] [Mul T]

/-- Both neutral elements are related, and so are the sums and products of related operands. -/
structure Respects (R : S → T → Prop) : Prop extends RespectsSums R where
  one : R 1 1
  mul : ∀ {a b : S} {a' b' : T}, R a a' → R b b' → R (a * b) (a' * b')

namespace Respects

variable {R : S → T → Prop}

theorem product (h : Respects R) {xs : List S} {ys : List T} (hxs : List.Forall₂ R xs ys) :
    R (MaxPlus.product xs) (MaxPlus.product ys) :=
  List.rel_foldl (R := R) (P := R) (fun _ _ hacc _ _ hx => h.mul hacc hx) h.one hxs

theorem productFrom (h : Respects R) {head : S} {head' : T} (hhead : R head head')
    {f : Fin n → S} {g : Fin n → T} (hfg : ∀ i, R (f i) (g i)) :
    R (MaxPlus.productFrom head f) (MaxPlus.productFrom head' g) :=
  finFoldl_related (fun i hacc => h.mul hacc (hfg i)) hhead

theorem productOver (h : Respects R) {f : Fin n → S} {g : Fin n → T} (hfg : ∀ i, R (f i) (g i)) :
    R (MaxPlus.productOver f) (MaxPlus.productOver g) :=
  h.productFrom h.one hfg

theorem squareAndMultiply (h : Respects R) {result base : S} {result' base' : T}
    (hresult : R result result') (hbase : R base base') (n : ℕ) :
    R (MaxPlus.squareAndMultiply result base n).1 (MaxPlus.squareAndMultiply result' base' n).1 ∧
      R (MaxPlus.squareAndMultiply result base n).2
        (MaxPlus.squareAndMultiply result' base' n).2 := by
  induction n using Nat.strong_induction_on generalizing result base result' base' with
  | _ n ih =>
    rw [MaxPlus.squareAndMultiply.eq_def result, MaxPlus.squareAndMultiply.eq_def result']
    split_ifs with hn hbit
    · exact ⟨hresult, hbase⟩
    · exact ih _ (Nat.div_lt_self (Nat.pos_of_ne_zero hn) one_lt_two) (h.mul hresult hbase)
        (h.mul hbase hbase)
    · exact ih _ (Nat.div_lt_self (Nat.pos_of_ne_zero hn) one_lt_two) hresult (h.mul hbase hbase)

end Respects

end MaxPlus
