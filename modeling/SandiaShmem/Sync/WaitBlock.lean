/-
Waiting for a variable without polling it: `SHMEM_WAIT_BLOCK` and `SHMEM_WAIT_UNTIL_BLOCK` (`src/shmem_synchronization.h`).

The loop reads the variable, samples the counter of received messages, reads the variable again, and sleeps in
`shmem_transport_received_cntr_wait` until the counter is above the sample. A remote update changes the variable first and is
counted later, so that several updates may be in the variable and not in the counter. The counter has 64 bits and does not
wrap around.

- `Inv`: if the waiter is going to sleep and no update came after the sample, the condition fails.
- `wait_block_safe`: why the loop is left, and when it sleeps.
- `wait_block_leaves`: a waiter whose condition holds leaves with its next two steps.
-/
import SandiaShmem.Core.Runs
import SandiaShmem.Sync.Compare

namespace SandiaShmem.Sync.WaitBlock

/-! ## Model -/

/-- the two macros -/
inductive Macro (α : Type*) where
  /-- `SHMEM_WAIT_BLOCK(var, value)` -/
  | waitBlock (value : α)
  /-- `SHMEM_WAIT_UNTIL_BLOCK(var, cond, value)` -/
  | waitUntilBlock (cond : CmpOp) (value : α)

inductive Pc where
  /-- the variable is read in front of the loop, or at its end -/
  | test
  /-- `target_cntr = shmem_transport_received_cntr_get()` -/
  | get
  /-- the variable is read again -/
  | retest
  /-- `shmem_transport_received_cntr_wait(target_cntr + 1)` -/
  | wait
  /-- behind the loop -/
  | left
deriving DecidableEq, Repr

/-- the variable, how many updates it has seen, the counter, and the waiter with what it has read last -/
structure St (α : Type*) where
  mem : α
  applied : ℕ
  received_cntr : ℕ
  pc : Pc
  target_cntr : ℕ
  last : α

/-- remote updates, their counting, and the steps of the waiter -/
inductive Op (α : Type*) where
  | update (a : α)
  | count
  | wait

variable {α : Type*} [LinearOrder α]

/-- the loop is left when a read has returned a -/
def Macro.holds (m : Macro α) (a : α) : Bool :=
  match m with
  | .waitBlock value => a ≠ value
  | .waitUntilBlock cond value => comp cond a value

/-- the next step of the waiter -/
def St.next (m : Macro α) (s : St α) : St α :=
  match s.pc with
  | .test => { s with last := s.mem, pc := if m.holds s.mem then .left else .get }
  | .get => { s with target_cntr := s.received_cntr, pc := .retest }
  | .retest => { s with last := s.mem, pc := if m.holds s.mem then .left else .wait }
  | .wait => if s.target_cntr + 1 ≤ s.received_cntr then { s with pc := .test } else s
  | .left => s

def step (m : Macro α) (s : St α) : Op α → St α
  | .update a => { s with mem := a, applied := s.applied + 1 }
  | .count => if s.received_cntr < s.applied then { s with received_cntr := s.received_cntr + 1 } else s
  | .wait => s.next m

/-- n updates have been applied and counted -/
def init (a : α) (n : ℕ) : St α := ⟨a, n, n, .test, 0, a⟩

/-- the waiter sleeps -/
def St.Blocked (s : St α) : Prop := s.pc = .wait ∧ s.received_cntr < s.target_cntr + 1

/-! ## Invariant -/

variable {m : Macro α} {s : St α}

structure Inv (m : Macro α) (s : St α) : Prop where
  counted : s.received_cntr ≤ s.applied
  sampled : s.pc = .retest ∨ s.pc = .wait → s.target_cntr ≤ s.received_cntr
  /-- with no update after the sample, the second read was up to date -/
  current : s.pc = .wait → s.applied = s.target_cntr → m.holds s.mem = false
  left : s.pc = .left → m.holds s.last = true

theorem inv_init (a : α) (n : ℕ) : Inv m (init a n) := by
  refine ⟨le_refl n, fun h => ?_, fun h => absurd h Pc.noConfusion, fun h => absurd h Pc.noConfusion⟩
  rcases h with h | h <;> exact absurd h Pc.noConfusion

theorem Inv.update (h : Inv m s) (a : α) : Inv m (step m s (.update a)) := by
  refine ⟨h.counted.trans (Nat.le_succ _), h.sampled, fun hw happ => ?_, h.left⟩
  have happ : s.applied + 1 = s.target_cntr := happ
  have := h.counted
  have := h.sampled (.inr hw)
  omega

theorem Inv.count (h : Inv m s) : Inv m (step m s .count) := by
  simp only [step]
  split
  · rename_i hlt
    exact ⟨hlt, fun hpc => (h.sampled hpc).trans (Nat.le_succ _), h.current, h.left⟩
  · exact h

theorem Inv.next (h : Inv m s) : Inv m (s.next m) := by
  unfold St.next
  split
  · split
    · rename_i hholds
      exact ⟨h.counted, by simp, fun hw => absurd hw Pc.noConfusion, fun _ => hholds⟩
    · exact ⟨h.counted, by simp, fun hw => absurd hw Pc.noConfusion, fun hl => absurd hl Pc.noConfusion⟩
  · exact ⟨h.counted, fun _ => le_refl _, fun hw => absurd hw Pc.noConfusion, fun hl => absurd hl Pc.noConfusion⟩
  · rename_i hpc
    have hle := h.sampled (.inl hpc)
    split
    · rename_i hholds
      exact ⟨h.counted, by simp, fun hw => absurd hw Pc.noConfusion, fun _ => hholds⟩
    · rename_i hholds
      exact ⟨h.counted, fun _ => hle, fun _ _ => Bool.eq_false_iff.mpr hholds, fun hl => absurd hl Pc.noConfusion⟩
  · split
    · exact ⟨h.counted, by simp, fun hw => absurd hw Pc.noConfusion, fun hl => absurd hl Pc.noConfusion⟩
    · exact h
  · exact h

theorem Inv.step (h : Inv m s) (o : Op α) : Inv m (step m s o) := by
  cases o with
  | update a => exact h.update a
  | count => exact h.count
  | wait => exact h.next

theorem inv_run (m : Macro α) (a : α) (n : ℕ) (ops : List (Op α)) : Inv m (Runs.run (step m) (init a n) ops) :=
  Runs.run_inv (WaitBlock.step m) (Inv m) (fun _ o h => h.step o) (init a n) (inv_init a n) ops

/-- a sleeping waiter with everything counted has read the variable after the last update -/
theorem Inv.blocked (h : Inv m s) (hb : s.Blocked) (hall : s.received_cntr = s.applied) : m.holds s.mem = false := by
  obtain ⟨hpc, hlt⟩ := hb
  have hle := h.sampled (.inr hpc)
  exact h.current hpc (by omega)

/-- only a read for which the condition holds leaves the loop -/
theorem leaves_of_step {o : Op α} (hin : s.pc ≠ .left) (hout : (step m s o).pc = .left) :
    m.holds s.mem = true ∧ (step m s o).mem = s.mem := by
  cases o with
  | update a => exact absurd hout hin
  | count =>
    simp only [step] at hout
    split at hout <;> exact absurd hout hin
  | wait =>
    simp only [step, St.next] at hout ⊢
    split at hout
    · split at hout
      · rename_i hholds
        exact ⟨hholds, rfl⟩
      · exact absurd hout Pc.noConfusion
    · exact absurd hout Pc.noConfusion
    · split at hout
      · rename_i hholds
        exact ⟨hholds, rfl⟩
      · exact absurd hout Pc.noConfusion
    · split at hout
      · exact absurd hout Pc.noConfusion
      · exact absurd hout hin
    · exact absurd hout hin

/-! ## Waiting -/

/-- **No wake-up is lost.** For both macros, every comparison and value, and every interleaving of updates, their counting
and the waiter: a loop that has been left has read a value for which the condition holds, it is left only in a state where
the variable has such a value, and when all updates have been counted the waiter does not sleep with the condition true. -/
theorem wait_block_safe (m : Macro α) (a : α) (n : ℕ) (ops : List (Op α)) :
    let s := Runs.run (step m) (init a n) ops
    (s.pc = .left → m.holds s.last = true) ∧
      (∀ o, s.pc ≠ .left → (step m s o).pc = .left → m.holds (step m s o).mem = true) ∧
      ¬ (s.Blocked ∧ m.holds s.mem = true ∧ s.received_cntr = s.applied) := by
  intro s
  have h : Inv m s := inv_run m a n ops
  refine ⟨h.left, fun o hin hout => ?_, ?_⟩
  · obtain ⟨hholds, hmem⟩ := leaves_of_step hin hout
    rw [hmem]
    exact hholds
  · rintro ⟨hb, hholds, hall⟩
    exact absurd ((h.blocked hb hall).symm.trans hholds) Bool.noConfusion

/-- **The waiter wakes up.** When the condition holds and all updates have been counted, it leaves the loop with its next
two steps. -/
theorem wait_block_leaves (m : Macro α) (a : α) (n : ℕ) (ops : List (Op α))
    (hholds : m.holds (Runs.run (step m) (init a n) ops).mem = true)
    (hall : (Runs.run (step m) (init a n) ops).received_cntr = (Runs.run (step m) (init a n) ops).applied) :
    (Runs.run (step m) (init a n) (ops ++ [.wait, .wait])).pc = .left := by
  have h := inv_run m a n ops
  rw [Runs.run_append]
  generalize Runs.run (step m) (init a n) ops = s at h hholds hall
  rw [Runs.run_cons, Runs.run_cons, Runs.run_nil]
  show ((s.next m).next m).pc = .left
  cases hpc : s.pc with
  | test => simp [St.next, hpc, hholds]
  | get => simp [St.next, hpc, hholds]
  | retest => simp [St.next, hpc, hholds]
  | wait =>
    have hwake : s.target_cntr + 1 ≤ s.received_cntr := by
      by_contra hlt
      exact absurd ((h.blocked ⟨hpc, not_le.mp hlt⟩ hall).symm.trans hholds) Bool.noConfusion
    simp [St.next, hpc, hwake, hholds]
  | left => simp [St.next, hpc]

end SandiaShmem.Sync.WaitBlock
