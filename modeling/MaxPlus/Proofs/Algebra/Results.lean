import Mathlib

/-!
Computations that may fail.

A traversal has a result just where each step has one. One computation follows another if it
succeeds wherever the other does, with a related result; this passes through every further step.
Two computations match if they also fail together and in the same way.
-/

set_option autoImplicit false
set_option relaxedAutoImplicit false

namespace MaxPlus

universe u v w

theorem exists_of_bind_eq_ok {ε : Type u} {α β : Type v} {x : Except ε α} {f : α → Except ε β}
    {b : β} (h : x >>= f = .ok b) : ∃ a, x = .ok a ∧ f a = .ok b := by
  cases x with
  | error e => cases h
  | ok a => exact ⟨a, rfl, h⟩

section Traversals

variable {ε : Type u} {α : Type v} {β : Type u}

theorem mapM_eq_ok_iff {f : α → Except ε β} {xs : List α} {ys : List β} :
    xs.mapM f = .ok ys ↔ List.Forall₂ (fun x y => f x = .ok y) xs ys := by
  induction xs generalizing ys with
  | nil =>
    rw [List.mapM_nil, List.forall₂_nil_left_iff]
    exact ⟨fun h => (Except.ok.inj h).symm, fun h => congrArg Except.ok h.symm⟩
  | cons x xs ih =>
    rw [List.mapM_cons, List.forall₂_cons_left_iff]
    constructor
    · intro h
      cases hx : f x with
      | error e =>
        rw [hx] at h
        cases h
      | ok y =>
        cases hxs : xs.mapM f with
        | error e =>
          rw [hx, hxs] at h
          cases h
        | ok zs =>
          rw [hx, hxs] at h
          cases h
          exact ⟨y, zs, rfl, ih.mp hxs, rfl⟩
    · rintro ⟨y, zs, hx, hzs, rfl⟩
      rw [hx, ih.mpr hzs]
      rfl

theorem mapM_eq_ok_iff_map {f : α → Except ε β} {xs : List α} {ys : List β} :
    xs.mapM f = .ok ys ↔ xs.map f = ys.map .ok := by
  rw [mapM_eq_ok_iff, ← List.forall₂_eq_eq_eq, List.forall₂_map_left_iff,
    List.forall₂_map_right_iff]

theorem mapM_ofFn_eq_ok_iff {n : ℕ} {f : α → Except ε β} {x : Fin n → α} {y : Fin n → β} :
    (List.ofFn x).mapM f = .ok (List.ofFn y) ↔ ∀ i, f (x i) = .ok (y i) := by
  rw [mapM_eq_ok_iff, List.forall₂_iff_get]
  simp only [List.length_ofFn, true_and]
  constructor
  · intro h i
    simpa using h i i.isLt i.isLt
  · intro h i hi _
    simpa using h ⟨i, hi⟩

theorem toList_mapM {n : ℕ} (f : α → Except ε β) (xs : Vector α n) :
    Vector.toList <$> xs.mapM f = xs.toList.mapM f := by
  rw [← Vector.toList_toArray, ← Array.toList_mapM, ← Vector.toArray_mapM, Functor.map_map]
  rfl

theorem vector_mapM_eq_ok_iff_toList {n : ℕ} {f : α → Except ε β} {xs : Vector α n}
    {ys : Vector β n} : xs.mapM f = .ok ys ↔ xs.toList.mapM f = .ok ys.toList := by
  rw [← toList_mapM]
  cases xs.mapM f with
  | error e => exact iff_of_false nofun nofun
  | ok zs =>
    constructor
    · intro h
      cases h
      rfl
    · intro h
      exact congrArg Except.ok (Vector.toList_inj.mp (Except.ok.inj h))

theorem vector_mapM_eq_ok_iff {n : ℕ} {f : α → Except ε β} {xs : Vector α n} {ys : Vector β n} :
    xs.mapM f = .ok ys ↔ ∀ k, f (xs.get k) = .ok (ys.get k) := by
  rw [vector_mapM_eq_ok_iff_toList, mapM_eq_ok_iff, List.forall₂_iff_get]
  constructor
  · rintro ⟨-, h⟩ k
    simpa [Vector.get_eq_getElem] using h k (by simp) (by simp)
  · intro h
    refine ⟨by simp, fun i hx hy => ?_⟩
    simpa [Vector.get_eq_getElem] using h ⟨i, by simpa using hx⟩

theorem vector_mapM_eq_ok_iff_map {n : ℕ} {f : α → Except ε β} {xs : Vector α n}
    {ys : Vector β n} : xs.mapM f = .ok ys ↔ xs.toList.map f = ys.toList.map .ok := by
  rw [vector_mapM_eq_ok_iff_toList, mapM_eq_ok_iff_map]

end Traversals

section Following

variable {ε δ : Type u} {α α' β β' : Type v}

/-- The second computation succeeds wherever the first one does, and the results are related. -/
def Follows (P : α → β → Prop) (x : Except ε α) (y : Except δ β) : Prop :=
  ∀ a, x = .ok a → ∃ b, y = .ok b ∧ P a b

namespace Follows

variable {P : α → β → Prop} {Q : α' → β' → Prop}

theorem ok {a : α} {b : β} (h : P a b) : Follows P (.ok a : Except ε α) (.ok b : Except δ β) := by
  rintro _ ⟨⟩
  exact ⟨b, rfl, h⟩

theorem error (e : ε) (y : Except δ β) : Follows P (.error e) y := by
  rintro _ ⟨⟩

theorem bind {x : Except ε α} {y : Except δ β} {f : α → Except ε α'} {g : β → Except δ β'}
    (h : Follows P x y) (hfg : ∀ {a b}, P a b → Follows Q (f a) (g b)) :
    Follows Q (x >>= f) (y >>= g) := by
  cases x with
  | error e => exact error e _
  | ok a =>
    obtain ⟨b, rfl, hab⟩ := h a rfl
    exact hfg hab

theorem map {x : Except ε α} {y : Except δ β} {f : α → α'} {g : β → β'} (h : Follows P x y)
    (hfg : ∀ {a b}, P a b → Q (f a) (g b)) : Follows Q (x.map f) (y.map g) := by
  cases x with
  | error e => exact error e _
  | ok a =>
    obtain ⟨b, rfl, hab⟩ := h a rfl
    exact ok (hfg hab)

theorem of_ok {x : Except ε α} {y : Except δ β} (h : Follows P x y) {a : α} {b : β}
    (hx : x = .ok a) (hy : y = .ok b) : P a b := by
  obtain ⟨b', hb', hab⟩ := h a hx
  cases hy.symm.trans hb'
  exact hab

theorem mapM {κ : Type u} {ι : Type u} {R : κ → ι → Prop} {xs : List κ} {ys : List ι}
    {f : κ → Except ε α} {g : ι → Except δ β} (hxs : List.Forall₂ R xs ys)
    (hfg : ∀ {k i}, R k i → Follows P (f k) (g i)) :
    Follows (List.Forall₂ P) (xs.mapM f) (ys.mapM g) := by
  induction hxs with
  | nil => exact .ok .nil
  | cons hxy _ ih =>
    rw [List.mapM_cons, List.mapM_cons]
    exact (hfg hxy).bind fun hab => ih.bind fun habs => .ok (.cons hab habs)

end Follows

end Following

section Matching

variable {ε : Type u} {α α' β β' : Type v}

/-- Both computations succeed, with related results, or both end in the same failure. -/
inductive Matches (P : α → β → Prop) : Except ε α → Except ε β → Prop
  | ok {a : α} {b : β} (h : P a b) : Matches P (.ok a) (.ok b)
  | error (e : ε) : Matches P (.error e) (.error e)

namespace Matches

variable {P : α → β → Prop} {Q : α' → β' → Prop}

theorem flip {x : Except ε α} {y : Except ε β} (h : Matches P x y) :
    Matches (fun b a => P a b) y x := by
  cases h with
  | ok h => exact .ok h
  | error e => exact .error e

theorem follows {x : Except ε α} {y : Except ε β} (h : Matches P x y) : Follows P x y := by
  cases h with
  | ok h => exact .ok h
  | error e => exact .error e _

theorem bind {x : Except ε α} {y : Except ε β} {f : α → Except ε α'} {g : β → Except ε β'}
    (h : Matches P x y) (hfg : ∀ {a b}, P a b → Matches Q (f a) (g b)) :
    Matches Q (x >>= f) (y >>= g) := by
  cases h with
  | ok h => exact hfg h
  | error e => exact .error e

theorem map {x : Except ε α} {y : Except ε β} {f : α → α'} {g : β → β'} (h : Matches P x y)
    (hfg : ∀ {a b}, P a b → Q (f a) (g b)) : Matches Q (x.map f) (y.map g) := by
  cases h with
  | ok h => exact .ok (hfg h)
  | error e => exact .error e

theorem mapM {κ ι : Type w} {R : κ → ι → Prop} {f : κ → Except ε α} {g : ι → Except ε β}
    {xs : List κ} {ys : List ι} (hxs : List.Forall₂ R xs ys)
    (hfg : ∀ {k i}, R k i → Matches P (f k) (g i)) :
    Matches (List.Forall₂ P) (xs.mapM f) (ys.mapM g) := by
  induction hxs with
  | nil => exact .ok .nil
  | cons hxy _ ih =>
    rw [List.mapM_cons, List.mapM_cons]
    exact (hfg hxy).bind fun hab => ih.bind fun habs => .ok (.cons hab habs)

end Matches

theorem Matches.vector_mapM {κ ι : Type w} {α β : Type u} {P : α → β → Prop} {n : ℕ}
    {f : κ → Except ε α} {g : ι → Except ε β} {xs : Vector κ n} {ys : Vector ι n}
    (h : ∀ k, Matches P (f (xs.get k)) (g (ys.get k))) :
    Matches (fun as bs => ∀ k, P (as.get k) (bs.get k)) (xs.mapM f) (ys.mapM g) := by
  have hlist : Matches (List.Forall₂ P) (Vector.toList <$> xs.mapM f)
      (Vector.toList <$> ys.mapM g) := by
    rw [toList_mapM, toList_mapM]
    refine Matches.mapM (List.forall₂_iff_get.mpr ⟨by simp, fun i hi _ => ?_⟩) id
    simpa [Vector.get_eq_getElem] using h ⟨i, by simpa using hi⟩
  generalize xs.mapM f = x at hlist
  generalize ys.mapM g = y at hlist
  cases x with
  | error e =>
    cases y with
    | error e' =>
      cases hlist
      exact .error e
    | ok bs => cases hlist
  | ok as =>
    cases y with
    | error e' => cases hlist
    | ok bs =>
      cases hlist with
      | ok hlist =>
        refine .ok fun k => ?_
        simpa [Vector.get_eq_getElem] using (List.forall₂_iff_get.mp hlist).2 k (by simp) (by simp)

end Matching

end MaxPlus
