import MaxPlus.Proofs.Permutation.Enumeration

/-!
What any sequence of calls to `next` and `reset` leaves of a walk.

A session counts the permutations given out since the start or the last reset. Between two calls it
is in one of three phases: before the first permutation, at permutation number `k`, or at the end.
A call takes each phase to a phase, so every run ends in one, and the counters, the level and the
answer to the next call are read off it.

The walk is stored in two plain lists, where an index can miss. `Buffers` is that storage with every
access checked, and no check ever fails.
-/

set_option autoImplicit false
set_option relaxedAutoImplicit false

namespace MaxPlus

open scoped Nat

variable {n : ℕ}

/-- `q` is `p` with two places exchanged, and these are the places where they differ. -/
def ExchangedOnce (p q : Arrangement n) : Prop :=
  ∃ a b : Fin n, a ≠ b ∧ q = p.swap a b a.isLt b.isLt ∧ ∀ i, q.get i ≠ p.get i ↔ i = a ∨ i = b

private theorem swap_arrangementOf (σ : Equiv.Perm (Fin n)) (a b : Fin n) :
    (arrangementOf σ).swap a b a.isLt b.isLt = arrangementOf (σ * Equiv.swap a b) := by
  apply Vector.ext
  intro i hi
  simp only [arrangementOf, Vector.getElem_swap, Vector.getElem_ofFn, Equiv.Perm.mul_apply,
    Equiv.swap_apply_def, Fin.ext_iff]
  split_ifs <;> rfl

private theorem exchangedOnce_swap (σ : Equiv.Perm (Fin n)) {a b : Fin n} (h : a ≠ b) :
    ExchangedOnce (arrangementOf σ) ((arrangementOf σ).swap a b a.isLt b.isLt) := by
  refine ⟨a, b, h, rfl, fun i => ?_⟩
  rw [swap_arrangementOf, get_arrangementOf, get_arrangementOf, Equiv.Perm.mul_apply,
    σ.injective.ne_iff, Equiv.swap_apply_ne_self_iff]
  exact and_iff_right h

namespace Walk

private theorem val_partner (w : Walk n) (h : w.level < n) (hc : w.counters[w.level] < w.level) :
    (w.partner h hc).val = if w.level % 2 = 0 then 0 else w.counters[w.level] := by
  rw [partner]
  split_ifs <;> rfl

private theorem partner_ne (w : Walk n) (h : w.level < n) (hc : w.counters[w.level] < w.level) :
    w.partner h hc ≠ ⟨w.level, h⟩ := by
  rw [partner]
  split_ifs with heven <;> simp only [ne_eq, Fin.mk.injEq] <;> omega

/-- The permutation found is the one before with two places exchanged. -/
private theorem exists_swap_of_climb (w : Walk n) {p : Arrangement n} {w' : Walk n}
    (h : w.climb = (some p, w')) : ∃ a b : Fin n, a ≠ b ∧ p = w.current.swap a b a.isLt b.isLt := by
  fun_induction climb w with
  | case1 w hlevel hc q =>
    have hp : q = p := Option.some.inj (congrArg Prod.fst h)
    exact ⟨w.partner hlevel hc, ⟨w.level, hlevel⟩, w.partner_ne hlevel hc, hp.symm⟩
  | case2 w hlevel hc ih =>
    -- a level that is cleared on the way leaves the permutation as it is
    exact ih h
  | case3 w hlevel => simp at h

private theorem exchangedOnce_permutationAt {k : Fin n !} (h : k.val + 1 < n !) :
    ExchangedOnce (arrangementOf (permutationAt k))
      (arrangementOf (permutationAt ⟨k.val + 1, h⟩)) := by
  have hnext := next_standing_of_lt h
  rw [next_of_started _ rfl] at hnext
  obtain ⟨a, b, hne, hswap⟩ := exists_swap_of_climb _ hnext
  rw [hswap]
  exact exchangedOnce_swap _ hne

private theorem next_standing_of_le {k : Fin n !} (h : n ! ≤ k.val + 1) :
    (standing k).next = (none, finished n) := by
  obtain rfl : k = lastNumber n := Fin.ext (by simp only [lastNumber]; omega)
  exact next_standing_lastNumber n

private theorem counters_standing (k : Fin n !) {i : ℕ} (h : i < n) :
    (standing k).counters[i] = factorialDigit k i := by
  have hzero : factorialDigit k 0 = 0 := Nat.le_zero.mp (factorialDigit_le k 0)
  simp only [standing, climbing, Vector.getElem_ofFn]
  split_ifs with hi
  · rw [Nat.lt_one_iff.mp hi, hzero]
  · rfl

private theorem counters_finished {i : ℕ} (h : i < n) : (finished n).counters[i] = 0 := by
  simp only [finished, climbing, Vector.getElem_ofFn]
  exact if_pos (h.trans_le (le_max_left n 1))

end Walk

/-- A walk as it is stored: two lists and two variables. -/
structure Buffers where
  perm : List ℕ
  counters : List ℕ
  level : ℕ
  started : Bool

namespace Buffers

def ofSize (n : ℕ) : Buffers where
  perm := List.range n
  counters := List.replicate n 0
  level := 1
  started := false

def exchange? (xs : List ℕ) (a b : ℕ) : Option (List ℕ) := do
  let x ← xs[a]?
  let y ← xs[b]?
  return (xs.set a y).set b x

/-- The search for the next exchange with every access checked: `none` is a missed index. -/
def climb? (s : Buffers) : Option (Option (List ℕ) × Buffers) :=
  if s.level < s.perm.length then do
    let c ← s.counters[s.level]?
    if c < s.level then
      let p ← exchange? s.perm (if s.level % 2 = 0 then 0 else c) s.level
      let counters := s.counters.set s.level (c + 1)
      return (some p, { s with perm := p, counters := counters, level := 1 })
    else
      climb? { s with counters := s.counters.set s.level 0, level := s.level + 1 }
  else
    some (none, s)
termination_by s.perm.length - s.level

def next? (s : Buffers) : Option (Option (List ℕ) × Buffers) :=
  if s.started then s.climb?
  else some (some s.perm, { s with started := true })

def reset (s : Buffers) : Buffers where
  perm := s.perm.mapIdx fun i _ => i
  counters := s.counters.map fun _ => 0
  level := 1
  started := false

private theorem climb?_of_lt {s : Buffers} {c : ℕ} {p : List ℕ} (hlevel : s.level < s.perm.length)
    (hcounter : s.counters[s.level]? = some c) (hc : c < s.level)
    (hp : exchange? s.perm (if s.level % 2 = 0 then 0 else c) s.level = some p) :
    s.climb? = some (some p,
      { s with perm := p, counters := s.counters.set s.level (c + 1), level := 1 }) := by
  rw [climb?, if_pos hlevel, hcounter]
  simp [hc, hp]

private theorem climb?_of_full {s : Buffers} {c : ℕ} (hlevel : s.level < s.perm.length)
    (hcounter : s.counters[s.level]? = some c) (hc : ¬ c < s.level) :
    s.climb? = climb? { s with counters := s.counters.set s.level 0, level := s.level + 1 } := by
  rw [climb?, if_pos hlevel, hcounter]
  simp [hc]

private theorem climb?_of_le {s : Buffers} (hlevel : s.perm.length ≤ s.level) :
    s.climb? = some (none, s) := by
  rw [climb?, if_neg (not_lt.mpr hlevel)]

end Buffers

namespace Walk

def numbers (p : Arrangement n) : List ℕ :=
  p.toList.map Fin.val

@[simp] private theorem length_numbers (p : Arrangement n) : (numbers p).length = n := by
  simp [numbers]

private theorem numbers_getElem? (p : Arrangement n) {i : ℕ} (h : i < n) :
    (numbers p)[i]? = some p[i].val := by
  simp [numbers, h]

private theorem numbers_swap (p : Arrangement n) (a b : Fin n) :
    numbers (p.swap a b a.isLt b.isLt) =
      ((numbers p).set a (p.get b).val).set b (p.get a).val := by
  simp only [numbers, Vector.swap, Vector.toList_mk, Array.toList_swap, List.map_set]
  rfl

def buffers (w : Walk n) : Buffers where
  perm := numbers w.current
  counters := w.counters.toList
  level := w.level
  started := w.started

private theorem buffers_start (n : ℕ) : (start n).buffers = Buffers.ofSize n := by
  rw [buffers, Buffers.ofSize, Buffers.mk.injEq]
  refine ⟨?_, ?_, rfl, rfl⟩
  · apply List.ext_getElem <;> simp [numbers, start]
  · simp [start]

private theorem buffers_reset (w : Walk n) : w.buffers.reset = Buffers.ofSize n := by
  rw [Buffers.reset, Buffers.ofSize, Buffers.mk.injEq]
  refine ⟨?_, ?_, rfl, rfl⟩
  · apply List.ext_getElem <;> simp [buffers]
  · simp [buffers, List.map_const']

private theorem counters_buffers (w : Walk n) {i : ℕ} (h : i < n) :
    w.buffers.counters[i]? = some w.counters[i] := by
  simp [buffers, h]

private theorem exchange?_numbers (p : Arrangement n) (a b : Fin n) :
    Buffers.exchange? (numbers p) a b = some (numbers (p.swap a b a.isLt b.isLt)) := by
  rw [numbers_swap, Buffers.exchange?, numbers_getElem? p a.isLt, numbers_getElem? p b.isLt]
  rfl

private theorem length_perm_buffers (w : Walk n) : w.buffers.perm.length = n :=
  length_numbers w.current

/-- The stored walk goes through the levels as the walk does, and no index misses. -/
private theorem climb?_buffers (w : Walk n) :
    w.buffers.climb? = some (w.climb.1.map numbers, w.climb.2.buffers) := by
  fun_induction climb w with
  | case1 w h hc p =>
    have hexchange : Buffers.exchange? w.buffers.perm
        (if w.level % 2 = 0 then 0 else w.counters[w.level]) w.level = some (numbers p) := by
      rw [← w.val_partner h hc]
      exact exchange?_numbers w.current (w.partner h hc) ⟨w.level, h⟩
    rw [Buffers.climb?_of_lt (h.trans_eq w.length_perm_buffers.symm) (w.counters_buffers h) hc
      hexchange]
    simp only [buffers, Option.map_some, Vector.toList_set]
  | case2 w h hc ih =>
    rw [Buffers.climb?_of_full (h.trans_eq w.length_perm_buffers.symm) (w.counters_buffers h) hc,
      ← ih]
    simp only [buffers, Vector.toList_set]
  | case3 w h =>
    exact Buffers.climb?_of_le (w.length_perm_buffers.trans_le (not_lt.mp h))

private theorem next?_buffers (w : Walk n) :
    w.buffers.next? = some (w.next.1.map numbers, w.next.2.buffers) := by
  unfold next Buffers.next?
  cases hs : w.started with
  | false => simp [buffers, hs]
  | true => simpa [buffers, hs] using w.climb?_buffers

end Walk

inductive Call where
  | next
  | reset

def Buffers.call? (s : Buffers) : Call → Option Buffers
  | .next => s.next?.map Prod.snd
  | .reset => some s.reset

/-- A walk in use, and the permutations it has given out since the start or the last reset. -/
structure Session (n : ℕ) where
  walk : Walk n
  given : List (Arrangement n)

namespace Session

def fresh (n : ℕ) : Session n :=
  ⟨Walk.start n, []⟩

def call (s : Session n) : Call → Session n
  | .next => ⟨s.walk.next.2, s.given ++ s.walk.next.1.toList⟩
  | .reset => ⟨s.walk.reset, []⟩

def run (n : ℕ) (calls : List Call) : Session n :=
  calls.foldl call (fresh n)

private theorem run_concat (n : ℕ) (calls : List Call) (c : Call) :
    run n (calls ++ [c]) = (run n calls).call c :=
  List.foldl_concat ..

private theorem buffers_call (s : Session n) (c : Call) :
    s.walk.buffers.call? c = some (s.call c).walk.buffers := by
  cases c with
  | next => rw [Buffers.call?, Walk.next?_buffers]; rfl
  | reset => rw [Buffers.call?, Walk.buffers_reset, ← Walk.buffers_start]; rfl

private theorem buffers_run (n : ℕ) (calls : List Call) :
    calls.foldlM Buffers.call? (Buffers.ofSize n) = some (run n calls).walk.buffers := by
  induction calls using List.reverseRecOn with
  | nil => exact congrArg some (Walk.buffers_start n).symm
  | append_singleton calls c ih =>
    rw [List.foldlM_append, ih, run_concat, ← buffers_call]
    simp

/-- Where a session stands between two calls: before the first permutation, at permutation number
`k`, or at the end. -/
inductive Phase : Session n → Prop
  | fresh : Phase (fresh n)
  | standing (k : Fin n !) (given : List (Arrangement n)) (hgiven : given.length = k) :
      Phase ⟨Walk.standing k, given ++ [arrangementOf (permutationAt k)]⟩
  | finished (given : List (Arrangement n)) (hgiven : given.length = n !) :
      Phase ⟨Walk.finished n, given⟩

private theorem call_next_of_some {s : Session n} {p : Arrangement n} {w : Walk n}
    (h : s.walk.next = (some p, w)) : s.call .next = ⟨w, s.given ++ [p]⟩ := by
  rw [call, h]
  rfl

private theorem call_next_of_none {s : Session n} {w : Walk n} (h : s.walk.next = (none, w)) :
    s.call .next = ⟨w, s.given⟩ := by
  rw [call, h]
  exact congrArg (Session.mk w) (List.append_nil _)

private theorem Phase.call {s : Session n} (h : Phase s) (c : Call) : Phase (s.call c) := by
  cases c with
  | reset => exact Phase.fresh
  | next =>
    cases h with
    | fresh =>
      rw [call_next_of_some (Walk.next_start n), ← Walk.permutationAt_zero (Nat.factorial_pos n)]
      exact Phase.standing ⟨0, Nat.factorial_pos n⟩ [] rfl
    | standing k given hgiven =>
      -- number `n! - 1` is the last one, and the call after it ends the walk
      rcases lt_or_ge (k.val + 1) n ! with hk | hk
      · rw [call_next_of_some (Walk.next_standing_of_lt hk)]
        exact Phase.standing ⟨k.val + 1, hk⟩ _ (by simp [hgiven])
      · rw [call_next_of_none (Walk.next_standing_of_le hk)]
        exact Phase.finished _ (by simp; omega)
    | finished given hgiven =>
      rw [call_next_of_none (Walk.next_finished n)]
      exact Phase.finished given hgiven

private theorem phase_run (n : ℕ) (calls : List Call) : Phase (run n calls) := by
  induction calls using List.reverseRecOn with
  | nil => exact Phase.fresh
  | append_singleton calls c ih => exact run_concat n calls c ▸ ih.call c

/-- What a successful call leaves, if `given` was given out before it: the walk `w` stands at the
permutation `p` of number `k = given.length`, with the digits of `k` in its counters. -/
structure Answered (given : List (Arrangement n)) (p : Arrangement n) (w : Walk n) : Prop where
  number_lt : given.length < (n !)
  current : w.current = p
  level : w.level = 1
  digit : ∀ i (h : i < n), w.counters[i] = factorialDigit given.length i
  number : given.length = ∑ i : Fin n, w.counters[i] * (i.val !)
  exchanged : ∀ q, given.getLast? = some q → ExchangedOnce q p

/-- What the call that finds the end leaves, and any number of calls to `next` after it. -/
structure Ended (given : List (Arrangement n)) (w : Walk n) : Prop where
  number : given.length = (n !)
  cleared : ∀ i (h : i < n), w.counters[i] = 0
  still : ∀ m, (List.replicate m Call.next).foldl call ⟨w, given⟩ = ⟨w, given⟩

private theorem answered_standing {given : List (Arrangement n)} {k : Fin n !}
    (hgiven : given.length = k) (hexchanged : ∀ q, given.getLast? = some q →
      ExchangedOnce q (arrangementOf (permutationAt k))) :
    Answered given (arrangementOf (permutationAt k)) (Walk.standing k) where
  number_lt := hgiven ▸ k.isLt
  current := rfl
  level := rfl
  digit i h := by rw [Walk.counters_standing k h, hgiven]
  number :=
    calc given.length
        = k.val % n ! := by rw [hgiven, Nat.mod_eq_of_lt k.isLt]
      _ = ∑ i ∈ Finset.range n, factorialDigit k i * i ! := (sum_factorialDigit_mul k n).symm
      _ = ∑ i : Fin n, factorialDigit k i * i.val ! := Finset.sum_range _
      _ = ∑ i : Fin n, (Walk.standing k).counters[i] * i.val ! :=
        Finset.sum_congr rfl fun i _ => by rw [Fin.getElem_fin, Walk.counters_standing k i.isLt]
  exchanged := hexchanged

private theorem Phase.answered {s : Session n} (h : Phase s) {p : Arrangement n} {w : Walk n}
    (hnext : s.walk.next = (some p, w)) : Answered s.given p w := by
  cases h with
  | fresh =>
    have heq := (Walk.next_start n).symm.trans hnext
    rw [← Walk.permutationAt_zero (Nat.factorial_pos n)] at heq
    cases heq
    exact answered_standing rfl (by simp [Session.fresh])
  | standing k given hgiven =>
    rcases lt_or_ge (k.val + 1) n ! with hk | hk
    · cases (Walk.next_standing_of_lt hk).symm.trans hnext
      refine answered_standing (by simp [hgiven]) fun q hq => ?_
      obtain rfl : arrangementOf (permutationAt k) = q := by simpa using hq
      exact Walk.exchangedOnce_permutationAt hk
    · cases (Walk.next_standing_of_le hk).symm.trans hnext
  | finished given hgiven => cases (Walk.next_finished n).symm.trans hnext

private theorem ended_finished {given : List (Arrangement n)} (hgiven : given.length = n !) :
    Ended given (Walk.finished n) where
  number := hgiven
  cleared _ h := Walk.counters_finished h
  still m := by
    induction m with
    | zero => rfl
    | succ m ih =>
      rw [List.replicate_succ, List.foldl_cons, call_next_of_none (Walk.next_finished n), ih]

private theorem Phase.ended {s : Session n} (h : Phase s) {w : Walk n}
    (hnext : s.walk.next = (none, w)) : Ended s.given w := by
  cases h with
  | fresh => cases (Walk.next_start n).symm.trans hnext
  | standing k given hgiven =>
    rcases lt_or_ge (k.val + 1) n ! with hk | hk
    · cases (Walk.next_standing_of_lt hk).symm.trans hnext
    · cases (Walk.next_standing_of_le hk).symm.trans hnext
      exact ended_finished (by simp; omega)
  | finished given hgiven =>
    cases (Walk.next_finished n).symm.trans hnext
    exact ended_finished hgiven

private theorem Phase.exists_permutation {s : Session n} (h : Phase s) :
    ∃ σ : Equiv.Perm (Fin n), s.walk.current = arrangementOf σ := by
  cases h with
  | fresh => exact ⟨1, rfl⟩
  | standing k _ _ => exact ⟨permutationAt k, rfl⟩
  | finished _ _ => exact ⟨permutationAt (Walk.lastNumber n), rfl⟩

private theorem Phase.counter_le {s : Session n} (h : Phase s) {i : ℕ} (hi : i < n) :
    s.walk.counters[i] ≤ i := by
  cases h with
  | fresh => simp [Session.fresh, Walk.start]
  | standing k _ _ => exact (Walk.counters_standing k hi).trans_le (factorialDigit_le k i)
  | finished _ _ => exact (Walk.counters_finished hi).trans_le (Nat.zero_le i)

/-- What holds of a walk after any calls. It stands at a permutation with its counters in range, and
the stored walk has missed no index and answers as it does. A call to `next` succeeds at fewer than
`n!` permutations given and leaves the next number, or it finds the end at `n!` of them. A reset is
a new walk, though it only writes over the lists. -/
structure Invariant (n : ℕ) (calls : List Call) : Prop where
  permutation : ∃ σ : Equiv.Perm (Fin n), (run n calls).walk.current = arrangementOf σ
  counters_length : (run n calls).walk.buffers.counters.length = n
  counter_le : ∀ i (h : i < n), (run n calls).walk.counters[i] ≤ i
  inBounds : calls.foldlM Buffers.call? (Buffers.ofSize n) = some (run n calls).walk.buffers
  next? : (run n calls).walk.buffers.next? =
    some ((run n calls).walk.next.1.map Walk.numbers, (run n calls).walk.next.2.buffers)
  answered : ∀ p w, (run n calls).walk.next = (some p, w) → Answered (run n calls).given p w
  ended : ∀ w, (run n calls).walk.next = (none, w) → Ended (run n calls).given w
  reset : run n (calls ++ [.reset]) = fresh n
  reset_buffers : (run n calls).walk.buffers.reset = Buffers.ofSize n

/-- Every sequence of calls keeps the invariant. -/
theorem invariant_of_calls (n : ℕ) (calls : List Call) : Invariant n calls where
  permutation := (phase_run n calls).exists_permutation
  counters_length := by simp [Walk.buffers]
  counter_le _ h := (phase_run n calls).counter_le h
  inBounds := buffers_run n calls
  next? := Walk.next?_buffers _
  answered _ _ h := (phase_run n calls).answered h
  ended _ h := (phase_run n calls).ended h
  reset := run_concat n calls .reset
  reset_buffers := Walk.buffers_reset _

end Session

end MaxPlus
