/-
Runs of a deterministic step function under an arbitrary schedule.

A concurrent system is given by a state type σ, a type of operations ο (who moves, and which of its moves) and a total
`step : σ → ο → σ`. An operation that is not enabled leaves the state as it is, so every list of operations is a
schedule and "every interleaving" is a quantifier over lists.

- `run`: the state after a schedule.
- `run_inv`: a predicate kept by each step holds after every schedule.
- `run_inv_at`: the same for what is said of the positions in the schedule.
- `Meets`, `run_inv_meets`: the same with a condition on the state before each operation.
- `forall_take_iff_meets`: when the condition is exact.
- `run_map`: a projection that commutes with the steps commutes with the runs.
- `Fair`, `after`: endless schedules that come back to every operation.
- `fair_rests`: a system that can change only so many times comes to rest under them.
-/
import Mathlib.Logic.Function.Basic
import Mathlib.Data.List.Basic
import Mathlib.Order.WellFounded

namespace Runs

section
variable {σ τ ο : Type*}

/-- the state after a schedule -/
def run (step : σ → ο → σ) (s : σ) (ops : List ο) : σ := ops.foldl step s

@[simp] theorem run_nil (step : σ → ο → σ) (s : σ) : run step s [] = s := rfl

theorem run_cons (step : σ → ο → σ) (s : σ) (o : ο) (ops : List ο) :
    run step s (o :: ops) = run step (step s o) ops := rfl

theorem run_append (step : σ → ο → σ) (s : σ) (a b : List ο) : run step s (a ++ b) = run step (run step s a) b := by
  simp [run, List.foldl_append]

theorem run_snoc (step : σ → ο → σ) (s : σ) (ops : List ο) (o : ο) :
    run step s (ops ++ [o]) = step (run step s ops) o := by
  simp [run, List.foldl_append]

/-- **Invariant rule.** What every step keeps holds after every schedule. -/
theorem run_inv (step : σ → ο → σ) (I : σ → Prop) (hstep : ∀ s o, I s → I (step s o)) (s : σ) (h : I s)
    (ops : List ο) : I (run step s ops) := by
  induction ops generalizing s with
  | nil => exact h
  | cons o ops ih => exact ih _ (hstep s o h)

theorem run_take_succ (step : σ → ο → σ) (s : σ) {ops : List ο} {n : ℕ} {o : ο} (ho : ops[n]? = some o) :
    run step s (ops.take (n + 1)) = step (run step s (ops.take n)) o := by
  rw [List.take_add_one, ho, Option.toList_some, run_snoc]

/-- the invariant rule for a statement about the whole schedule and the number of operations done -/
theorem run_inv_at (step : σ → ο → σ) (s : σ) (ops : List ο) (I : ℕ → σ → Prop) (h : I 0 s)
    (hstep : ∀ n o, ops[n]? = some o → I n (run step s (ops.take n)) → I (n + 1) (step (run step s (ops.take n)) o)) :
    ∀ n ≤ ops.length, I n (run step s (ops.take n)) := by
  intro n
  induction n with
  | zero => exact fun _ => h
  | succ n ih =>
    intro hn
    obtain ⟨o, ho⟩ : ∃ o, ops[n]? = some o := ⟨_, List.getElem?_eq_getElem hn⟩
    rw [run_take_succ step s ho]
    exact hstep n o ho (ih (Nat.le_of_succ_le hn))

/-- every operation of the schedule is done in a state that meets the condition -/
def Meets (step : σ → ο → σ) (C : σ → ο → Prop) : σ → List ο → Prop
  | _, [] => True
  | s, o :: ops => C s o ∧ Meets step C (step s o) ops

theorem meets_append (step : σ → ο → σ) (C : σ → ο → Prop) (s : σ) (a b : List ο) :
    Meets step C s (a ++ b) ↔ Meets step C s a ∧ Meets step C (run step s a) b := by
  induction a generalizing s with
  | nil => exact (and_iff_right trivial).symm
  | cons o a ih =>
    rw [List.cons_append, run_cons]
    exact (and_congr_right fun _ => ih _).trans and_assoc.symm

/-- the invariant rule for schedules that meet a condition -/
theorem run_inv_meets (step : σ → ο → σ) (C : σ → ο → Prop) (I : σ → Prop) (hstep : ∀ s o, C s o → I s → I (step s o))
    (s : σ) (h : I s) (ops : List ο) (hops : Meets step C s ops) : I (run step s ops) := by
  induction ops generalizing s with
  | nil => exact h
  | cons o ops ih => exact ih _ (hstep s o hops.1 h) hops.2

/-- **Exact condition.** If what the condition keeps is lost with the first operation that does not meet it, the schedules
that meet it are those after which it holds in every state. -/
theorem forall_take_iff_meets (step : σ → ο → σ) (C : σ → ο → Prop) (I A : σ → Prop) (hA : ∀ s, I s → A s)
    (hstep : ∀ s o, C s o → I s → I (step s o)) (hbad : ∀ s o, I s → ¬ C s o → ¬ A (step s o)) (s : σ) (h : I s)
    (ops : List ο) : (∀ n, A (run step s (ops.take n))) ↔ Meets step C s ops := by
  induction ops generalizing s with
  | nil =>
    refine ⟨fun _ => trivial, fun _ n => ?_⟩
    rw [List.take_nil]
    exact hA s h
  | cons o ops ih =>
    constructor
    · intro hall
      have hC : C s o := by_contra fun hC => hbad s o h hC (hall 1)
      exact ⟨hC, (ih _ (hstep s o hC h)).mp fun n => hall (n + 1)⟩
    · rintro ⟨hC, hrest⟩ n
      cases n with
      | zero => exact hA s h
      | succ n => exact (ih _ (hstep s o hC h)).mpr hrest n

/-- a projection that commutes with each step commutes with every run -/
theorem run_map (f : σ → τ) (step : σ → ο → σ) (step' : τ → ο → τ) (h : ∀ s o, f (step s o) = step' (f s) o) (s : σ)
    (ops : List ο) : f (run step s ops) = run step' (f s) ops := by
  induction ops generalizing s with
  | nil => rfl
  | cons o ops ih => rw [run_cons, ih, h, run_cons]

end

/-! ## Endless schedules -/

section
variable {σ ο : Type*} {step : σ → ο → σ} {s : σ} {sched : ℕ → ο}

/-- the schedule comes back to every operation -/
def Fair (sched : ℕ → ο) : Prop := ∀ o n, ∃ m, n ≤ m ∧ sched m = o

/-- the state after n operations of a schedule -/
def after (step : σ → ο → σ) (s : σ) (sched : ℕ → ο) : ℕ → σ
  | 0 => s
  | n + 1 => step (after step s sched n) (sched n)

theorem after_eq_run (step : σ → ο → σ) (s : σ) (sched : ℕ → ο) (n : ℕ) :
    after step s sched n = run step s ((List.range n).map sched) := by
  induction n with
  | zero => rfl
  | succ n ih =>
    rw [List.range_succ, List.map_append, after, ih]
    exact (run_snoc ..).symm

/-- **Coming to rest.** If every step that changes the state is one less in some measure, a fair schedule reaches a state
that no operation changes. -/
theorem fair_rests {I : σ → Prop} (left : σ → ℕ) (h : I s) (hstep : ∀ s o, I s → I (step s o))
    (hless : ∀ s o, I s → step s o = s ∨ left (step s o) < left s) (hfair : Fair sched) :
    ∃ k, ∀ o, step (after step s sched k) o = after step s sched k := by
  have hI : ∀ k, I (after step s sched k) := by
    intro k
    rw [after_eq_run]
    exact run_inv step I hstep s h _
  -- from where the least is left, nothing changes any more
  let m := fun k => left (after step s sched k)
  obtain ⟨k, hmin⟩ : ∃ k, ∀ i, m k ≤ m i := ⟨Function.argmin m, fun i => Function.argmin_le m i⟩
  have hsame : ∀ d, after step s sched (k + d) = after step s sched k := by
    intro d
    induction d with
    | zero => rfl
    | succ d ih =>
      rcases hless _ (sched (k + d)) (hI (k + d)) with hs | hs
      · exact hs.trans ih
      · have hle : left (after step s sched k) ≤ left (after step s sched (k + d + 1)) := hmin (k + d + 1)
        rw [← ih] at hle
        exact absurd hs (not_lt.mpr hle)
  refine ⟨k, fun o => ?_⟩
  obtain ⟨i, hki, rfl⟩ := hfair o k
  obtain ⟨d, rfl⟩ := Nat.exists_eq_add_of_le hki
  have hnext := hsame (d + 1)
  rw [← hsame d]
  exact hnext.trans (hsame d).symm

end

end Runs
