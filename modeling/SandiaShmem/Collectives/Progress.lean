/-
Calls of a collective under fair schedules.

A collective is free of deadlock if in every state at rest all members are at the end of their program. The programs are
those of a single call (`once`) or of some number of calls with nothing in between (`callsTimes`).

- `once_finishes`, `calls_finish`: then every fair schedule brings all members to the end.
-/
import SandiaShmem.Core.Progress
import SandiaShmem.Collectives.Calls

namespace SandiaShmem.Collectives

open OneSided OneSided.Machine
open Runs (Fair)

/-- there is a number above all members -/
theorem exists_bound (ms : List ℕ) : ∃ b, ∀ v ∈ ms, v < b :=
  ⟨ms.sum + 1, fun _ hv => Nat.lt_succ_of_le (List.le_sum_of_mem hv)⟩

/-- a single call has no instructions behind its body -/
theorem once_prog_none {α : Type*} {ms : List ℕ} {op : α → α → α} {body : ℕ → List Instr} {v t : ℕ}
    (h : (body v).length ≤ t) : (once ms op body).prog v t = none := by
  simp only [once]
  split_ifs
  · exact List.getElem?_eq_none h
  · rfl

theorem once_upTo {α : Type*} (ms : List ℕ) (op : α → α → α) (body : ℕ → List Instr) :
    (once ms op body).upTo (fun v => (body v).length) = once ms op body :=
  upTo_eq_self fun _ _ => once_prog_none

/-- **No deadlock in a single call.** If nobody is behind in any state at rest, all return under a fair schedule. -/
theorem once_finishes {α : Type*} {ms : List ℕ} {op : α → α → α} {body : ℕ → List Instr} {s : St α}
    (h0 : ∀ v, s.pc v = 0)
    (hrest : ∀ ops, (once ms op body).Resting (fun v => (body v).length) ((once ms op body).run s ops) →
      ∀ v ∈ ms, (body v).length ≤ ((once ms op body).run s ops).pc v) {sched : ℕ → Op} (hfair : Fair sched) :
    ∃ n, ∀ v ∈ ms, ((once ms op body).after s sched n).pc v = (body v).length := by
  obtain ⟨b, hb⟩ := exists_bound ms
  have hbelow : ∀ r t, b ≤ r → (once ms op body).prog r t = none := by
    intro r t hr
    have hnot : r ∉ ms := fun hmem => absurd (hb r hmem) (not_lt.mpr hr)
    simp [once, hnot]
  have hpc : ∀ r, s.pc r ≤ (body r).length := fun r => by rw [h0 r]; exact Nat.zero_le _
  obtain ⟨n, hn⟩ := fair_finishes hbelow hpc (fun t => ∀ v ∈ ms, (body v).length ≤ t.pc v) hrest hfair
  rw [once_upTo] at hn
  refine ⟨n, fun v hv => le_antisymm ?_ (hn v hv)⟩
  have hle := (upTo_run (M := once ms op body) hpc ((List.range n).map sched)).2 v
  rwa [once_upTo, ← after_eq_run] at hle

/-- the members make K calls each -/
def callsTimes (members : List ℕ) (body : ℕ → List Instr) (K : ℕ) : Machine Unit :=
  (calls members body).upTo fun v => K * (body v).length

/-- **No deadlock in repeated calls.** If nobody is behind in any state at rest, all calls return under a fair schedule. -/
theorem calls_finish {ms : List ℕ} {body : ℕ → List Instr} {K : ℕ} {s : St Unit} (h0 : ∀ v, s.pc v = 0)
    (hrest : ∀ ops, (calls ms body).Resting (fun v => K * (body v).length) ((calls ms body).run s ops) →
      ∀ v ∈ ms, K * (body v).length ≤ ((calls ms body).run s ops).pc v) {sched : ℕ → Op} (hfair : Fair sched) :
    ∃ n, ∀ v ∈ ms, ∀ k < K, Returned body ((callsTimes ms body K).after s sched n) v k := by
  obtain ⟨b, hb⟩ := exists_bound ms
  have hbelow : ∀ r t, b ≤ r → (calls ms body).prog r t = none := by
    intro r t hr
    have hnot : r ∉ ms := fun hmem => absurd (hb r hmem) (not_lt.mpr hr)
    simp [calls, hnot]
  obtain ⟨n, hn⟩ := fair_finishes hbelow (fun r => by rw [h0 r]; exact Nat.zero_le _)
    (fun t => ∀ v ∈ ms, K * (body v).length ≤ t.pc v) hrest hfair
  refine ⟨n, fun v hv k hk => le_trans ?_ (hn v hv)⟩
  exact Nat.mul_le_mul_right _ hk

end SandiaShmem.Collectives
