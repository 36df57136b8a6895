import Mathlib.Logic.Function.Basic
import Weldr.TransitionSystems

/-! A state that results flip. In each state one kind of result counts towards leaving it;
every state has a counter of its own, which waits while another state holds. A counter that
a result of the other kind has stopped starts again at one, without a look at the
threshold. -/
namespace StreakCounters

open TransitionSystems

structure Rules (S : Type*) where
  other : S → S
  threshold : S → ℕ
  against : S → Bool

structure Counters (S : Type*) where
  state : S
  count : S → Option ℕ

def bump (threshold : ℕ) (counts : Bool) (c : Option ℕ) : Option ℕ × Bool :=
  if counts then
    match c with
    | some n => if n + 1 ≥ threshold then (some 0, true) else (some (n + 1), false)
    | none => (some 1, false)
  else (none, false)

variable {S : Type*} [DecidableEq S] {R : Rules S} {c : Counters S} {st : S} {rs : List Bool}

def next (R : Rules S) (c : Counters S) (v : Bool) : Counters S :=
  let r := bump (R.threshold c.state) (v = R.against c.state) (c.count c.state)
  { state := if r.2 then R.other c.state else c.state
    count := Function.update c.count c.state r.1 }

def streakSystem (R : Rules S) : System (Counters S) Bool :=
  { Enabled := fun _ _ => True, next := next R }

/-- The last `n` results all count against `st`, and `st` held from before the first of
them on. -/
def Lasting (R : Rules S) (c : Counters S) (st : S) (n : ℕ) (rs : List Bool) : Prop :=
  ∃ pre, rs = pre ++ List.replicate n (R.against st) ∧
    ∀ q, q <+: List.replicate n (R.against st) → ((streakSystem R).run c (pre ++ q)).state = st

theorem lasting_zero (h : ((streakSystem R).run c rs).state = st) : Lasting R c st 0 rs := by
  refine ⟨rs, by simp, ?_⟩
  intro q hq
  have hnil : q = [] := List.prefix_nil.mp hq
  rw [hnil, List.append_nil, h]

theorem lasting_succ {n : ℕ} (h : Lasting R c st n rs)
    (hst : ((streakSystem R).run c (rs ++ [R.against st])).state = st) :
    Lasting R c st (n + 1) (rs ++ [R.against st]) := by
  obtain ⟨pre, rfl, hq⟩ := h
  have hrep : List.replicate (n + 1) (R.against st) =
      List.replicate n (R.against st) ++ [R.against st] := List.replicate_succ'
  refine ⟨pre, by rw [hrep, List.append_assoc], ?_⟩
  intro q hpre
  rw [hrep] at hpre
  rcases List.prefix_concat_iff.mp hpre with rfl | hpre
  · rw [← List.append_assoc]; exact hst
  · exact hq q hpre

theorem lasting_le {m n : ℕ} (hmn : m ≤ n) (h : Lasting R c st n rs) : Lasting R c st m rs := by
  obtain ⟨pre, rfl, hq⟩ := h
  have hrep : List.replicate n (R.against st) =
      List.replicate (n - m) (R.against st) ++ List.replicate m (R.against st) := by
    rw [List.replicate_append_replicate, Nat.sub_add_cancel hmn]
  refine ⟨pre ++ List.replicate (n - m) (R.against st), by rw [hrep, List.append_assoc], ?_⟩
  intro q hpre
  rw [List.append_assoc]
  apply hq
  rw [hrep]
  exact (List.prefix_append_right_inj _).mpr hpre

/-- What the counters mean after the results `rs`: the one in use counts no more than the
results since its state holds, and one that waits counts nothing. -/
structure Counted (R : Rules S) (c : Counters S) (rs : List Bool) : Prop where
  used : Lasting R c ((streakSystem R).run c rs).state
    ((((streakSystem R).run c rs).count ((streakSystem R).run c rs).state).getD 0) rs
  waiting : ∀ st, st ≠ ((streakSystem R).run c rs).state →
    (((streakSystem R).run c rs).count st).getD 0 = 0

theorem run_concat (rs : List Bool) (v : Bool) :
    (streakSystem R).run c (rs ++ [v]) = next R ((streakSystem R).run c rs) v :=
  (streakSystem R).run_append c rs [v]

theorem counted_nil (h : ∀ st, (c.count st).getD 0 = 0) : Counted R c [] := by
  constructor
  · have hz : (((streakSystem R).run c []).count ((streakSystem R).run c []).state).getD 0 = 0 :=
      h _
    rw [hz]
    exact lasting_zero rfl
  · exact fun st _ => h st

theorem next_cases (R : Rules S) (c : Counters S) (v : Bool) :
    (v ≠ R.against c.state ∧
      next R c v = { c with count := Function.update c.count c.state none }) ∨
    (v = R.against c.state ∧ (∀ n, c.count c.state = some n → n + 1 < R.threshold c.state) ∧
      next R c v = { c with
        count := Function.update c.count c.state (some ((c.count c.state).getD 0 + 1)) }) ∨
    (v = R.against c.state ∧ (∃ n, c.count c.state = some n ∧ R.threshold c.state ≤ n + 1) ∧
      next R c v =
        { state := R.other c.state
          count := Function.update c.count c.state (some 0) }) := by
  by_cases hv : v = R.against c.state
  · cases hn : c.count c.state with
    | none =>
      refine Or.inr (Or.inl ⟨hv, by simp, ?_⟩)
      simp [next, bump, hv, hn]
    | some n =>
      by_cases ht : n + 1 ≥ R.threshold c.state
      · refine Or.inr (Or.inr ⟨hv, ⟨n, rfl, ht⟩, ?_⟩)
        simp [next, bump, hv, hn, ht]
      · refine Or.inr (Or.inl ⟨hv, by intro m hm; cases hm; omega, ?_⟩)
        simp [next, bump, hv, hn, ht]
  · refine Or.inl ⟨hv, ?_⟩
    simp [next, bump, hv]

theorem counted_concat (h : Counted R c rs) (v : Bool) : Counted R c (rs ++ [v]) := by
  have hstep := run_concat (R := R) (c := c) rs v
  rcases next_cases R ((streakSystem R).run c rs) v with
    ⟨-, hn⟩ | ⟨hv, -, hn⟩ | ⟨-, -, hn⟩ <;> rw [hn] at hstep <;> constructor
  · rw [hstep]
    simp only [Function.update_self, Option.getD_none]
    exact lasting_zero (by rw [hstep])
  · intro st hst
    rw [hstep] at hst ⊢
    simp only [Function.update_of_ne hst]
    exact h.waiting st hst
  · rw [hstep]
    simp only [Function.update_self, Option.getD_some]
    rw [hv] at hstep ⊢
    exact lasting_succ h.used (by rw [hstep])
  · intro st hst
    rw [hstep] at hst ⊢
    simp only [Function.update_of_ne hst]
    exact h.waiting st hst
  · -- after a flip the new state starts from a counter that was waiting
    have hzero : ∀ st, (Function.update ((streakSystem R).run c rs).count
        ((streakSystem R).run c rs).state (some 0) st).getD 0 = 0 := by
      intro st
      by_cases hst : st = ((streakSystem R).run c rs).state
      · rw [hst, Function.update_self]; rfl
      · rw [Function.update_of_ne hst]; exact h.waiting st hst
    rw [hstep]
    simp only [hzero]
    exact lasting_zero (by rw [hstep])
  · intro st hst
    rw [hstep]
    by_cases hold : st = ((streakSystem R).run c rs).state
    · simp [hold]
    · simp only [Function.update_of_ne hold]
      exact h.waiting st hold

theorem counted_run (h : ∀ st, (c.count st).getD 0 = 0) (rs : List Bool) : Counted R c rs := by
  induction rs using List.reverseRecOn with
  | nil => exact counted_nil h
  | append_singleton rs v ih => exact counted_concat ih v

/-- No premature flip: a result that ends `st` is the last of `threshold st` in a row that
count against `st`, all of them received since `st` holds. -/
theorem flip_streak (h : ∀ st, (c.count st).getD 0 = 0) {v : Bool}
    (hst : ((streakSystem R).run c rs).state = st)
    (hflip : ((streakSystem R).run c (rs ++ [v])).state ≠ st) :
    v = R.against st ∧ Lasting R c st (R.threshold st - 1) rs := by
  have hused := (counted_run (R := R) h rs).used
  have hstep := run_concat (R := R) (c := c) rs v
  rcases next_cases R ((streakSystem R).run c rs) v with
    ⟨-, hn⟩ | ⟨-, -, hn⟩ | ⟨hv, ⟨n, hcount, ht⟩, -⟩
  · exact absurd (by rw [hstep, hn]; exact hst) hflip
  · exact absurd (by rw [hstep, hn]; exact hst) hflip
  · rw [hcount] at hused
    rw [hst] at hv hused ht
    exact ⟨hv, lasting_le (by simp only [Option.getD_some]; omega) hused⟩

def receivedIn (st : S) (c : Counters S) (v : Bool) : List Bool :=
  if c.state = st then [v] else []

/-- A counter is running exactly if the last result that it took counts against its state. -/
theorem running_iff (c : Counters S) (st : S) (rs : List Bool) :
    ((streakSystem R).run c rs).count st ≠ none ↔
      match ((streakSystem R).observe (receivedIn st) c rs).getLast? with
      | none => c.count st ≠ none
      | some v => v = R.against st := by
  induction rs using List.reverseRecOn with
  | nil => simp
  | append_singleton rs v ih =>
    have hobs : (streakSystem R).observe (receivedIn st) c (rs ++ [v]) =
        (streakSystem R).observe (receivedIn st) c rs ++
          receivedIn st ((streakSystem R).run c rs) v := by
      rw [System.observe_append]; simp
    rw [run_concat, hobs]
    by_cases hst : ((streakSystem R).run c rs).state = st
    · rcases next_cases R ((streakSystem R).run c rs) v with
        ⟨hv, hn⟩ | ⟨hv, -, hn⟩ | ⟨hv, -, hn⟩ <;> rw [hn] <;> rw [hst] at hv <;>
        simp [receivedIn, hst, hv]
    · have hkeep : (next R ((streakSystem R).run c rs) v).count st =
          ((streakSystem R).run c rs).count st := Function.update_of_ne (Ne.symm hst) _ _
      rw [hkeep, ih]
      simp [receivedIn, hst]

/-- From a running counter, the threshold's worth of results flips the state. -/
theorem flips_of_running {n k : ℕ} (hst : c.state = st) (hn : c.count st = some n)
    (hother : R.other st ≠ st) (hk : 1 ≤ k) (ht : R.threshold st ≤ n + k) :
    ∃ j ≤ k, ((streakSystem R).run c (List.replicate j (R.against st))).state ≠ st := by
  induction k generalizing c n with
  | zero => omega
  | succ k ih =>
    rcases next_cases R c (R.against st) with ⟨hv, -⟩ | ⟨-, hlt, hnext⟩ | ⟨-, -, hnext⟩
    · exact absurd (by rw [hst]) hv
    · rw [hst] at hlt hnext
      have hlt := hlt n hn
      obtain ⟨j, hj, hrun⟩ := ih (c := next R c (R.against st)) (n := n + 1)
        (by rw [hnext]) (by simp [hnext, hn]) (by omega) (by omega)
      exact ⟨j + 1, by omega, hrun⟩
    · refine ⟨1, by omega, ?_⟩
      change (next R c (R.against st)).state ≠ st
      rw [hnext, hst]
      exact hother

/-- Late flips are exactly those of a stopped counter under the threshold one. -/
theorem flips_within_iff (hst : c.state = st) (hother : R.other st ≠ st)
    (ht : 1 ≤ R.threshold st) :
    (∃ j ≤ R.threshold st,
        ((streakSystem R).run c (List.replicate j (R.against st))).state ≠ st) ↔
      2 ≤ R.threshold st ∨ c.count st ≠ none := by
  cases hn : c.count st with
  | some n =>
    have h := flips_of_running hst hn hother ht (Nat.le_add_left _ _)
    simpa using h
  | none =>
    rcases next_cases R c (R.against st) with
      ⟨hv, -⟩ | ⟨-, -, hnext⟩ | ⟨-, ⟨n, hsome, -⟩, -⟩
    · exact absurd (by rw [hst]) hv
    · rw [hst] at hnext
      constructor
      · rintro ⟨j, hj, hrun⟩
        left
        by_contra hlt
        have hcases : j = 0 ∨ j = 1 := by omega
        rcases hcases with rfl | rfl
        · exact hrun hst
        · apply hrun
          change (next R c (R.against st)).state = st
          rw [hnext]
      · intro h
        have ht : 2 ≤ R.threshold st := by simpa using h
        have hst' : (next R c (R.against st)).state = st := by rw [hnext]
        have hn' : (next R c (R.against st)).count st = some 1 := by simp [hnext, hn]
        have hk : 1 ≤ R.threshold st - 1 := by omega
        obtain ⟨j, hj, hrun⟩ := flips_of_running hst' hn' hother hk (by omega)
        exact ⟨j + 1, by omega, hrun⟩
    · rw [hst, hn] at hsome
      cases hsome

end StreakCounters
