/-
Local completion of the OFI transport (`src/transport_ofi.h`): `shmem_transport_put_wait`.

A thread puts and updates a target with `shmem_transport_put_nb` and `shmem_transport_atomicv`, with one completion
variable for all of them, and calls `shmem_transport_put_wait` before it writes to its source buffers again. Operations that
are injected or bounce-buffered have copied their data; all others read the source buffer until they complete. put_nb counts
itself in the variable when it posts such operations, and put_wait calls a quiet when something has been counted. atomicv
never counts itself.

The thread is one of the threads of the model of quiet; the others call what they like on the context.

- `put_wait_done`: where put_wait returns, all operations that read a source buffer have completed, if no put_wait is called
  with an atomic operation in chunks before it and nothing counted.
- `put_wait_early`: with one such atomic operation, put_wait returns before its operations have completed.
-/
import SandiaShmem.Transport.OfiFragments
import SandiaShmem.Transport.OfiPosts

namespace SandiaShmem.Transport.PutWait

open SandiaShmem.Transport.OfiFragments (Chunked)
open SandiaShmem.Transport.OfiPosts
open SandiaShmem.Transport.OfiQuiet hiding step init

/-! ## Model -/

/-- what the thread is doing with its variable: nothing, one of the calls, or put_wait has just returned -/
inductive Phase where
  | idle
  | putNb (len : ℕ)
  | atomicv (full_len max_atomic_size : ℕ)
  | waiting
  | waited
deriving DecidableEq, Repr

/-- the thread calls only after its last call has returned -/
def Phase.free : Phase → Bool
  | .idle => true
  | .waited => true
  | _ => false

/-- the context, the variable, and beside the program the operations that read a source buffer, and whether an atomic
operation was cut into chunks since a put_wait last waited -/
structure Session where
  w : Watched
  completion : ℤ
  phase : Phase
  direct : List ℕ
  uncounted : Bool

def init : Session := ⟨OfiPosts.init, 0, .idle, [], false⟩

/-- the calls of the thread, its return from them, and every other step of the context -/
inductive Op where
  | put_nb (len : ℕ)
  | atomicv (full_len max_atomic_size dtsize : ℕ)
  | put_wait
  | ret
  | other (o : OfiQuiet.Op)
deriving DecidableEq, Repr

variable (P : Params) (t : ℕ)

/-- `shmem_transport_put_nb` takes the branch of `shmem_transport_ofi_put_large` -/
def Large (len : ℕ) : Prop := ¬ len ≤ P.max_buffered_send ∧ ¬ (len ≤ P.bounce_buffer_size ∧ P.bounce)

instance (len : ℕ) : Decidable (Large P len) := by
  unfold Large
  infer_instance

def Session.call (z : Session) (c : Call) (phase : Phase) : Session :=
  if Accepts P z.w.st t then { z with w := OfiPosts.step P z.w (.call t c), phase := phase } else z

/-- the end of a call -/
def Session.ret (z : Session) : Session :=
  match z.phase with
  | .putNb len =>
    -- shmem_transport_ofi_put_large(...); (*completion)++
    if Large P len then
      { z with completion := z.completion + 1, direct := z.direct ++ z.w.mine t, phase := .idle }
    else { z with phase := .idle }
  | .atomicv full_len max_atomic_size =>
    if Chunked P full_len max_atomic_size then
      { z with direct := z.direct ++ z.w.mine t, uncounted := true, phase := .idle }
    else { z with phase := .idle }
  | .waiting =>
    -- (*completion)--
    { z with completion := z.completion - 1, uncounted := false, phase := .waited }
  | _ => z

def step (z : Session) : Op → Session
  | .put_nb len => if z.phase.free then z.call P t (.putNb len) (.putNb len) else z
  | .atomicv full_len max_atomic_size dtsize =>
    if z.phase.free then z.call P t (.atomicv full_len max_atomic_size dtsize) (.atomicv full_len max_atomic_size)
    else z
  | .put_wait =>
    if z.phase.free then
      if 0 < z.completion then z.call P t .putQuiet .waiting else { z with phase := .waited }
    else z
  | .ret => if (z.w.st.thr t).code = [] then z.ret P t else z
  | .other o =>
    match o with
    | .call u _ => if u = t then z else { z with w := OfiPosts.step P z.w o }
    | _ => { z with w := OfiPosts.step P z.w o }

/-- the caller may write to its source buffers where put_wait returns -/
def Done (z : Session) : Prop := z.phase = .waited → ∀ k ∈ z.direct, z.w.st.put.acked k = true

/-- a put_wait finds something counted, or no atomic operation was cut into chunks since one waited -/
def Counted (z : Session) (o : Op) : Prop := o = .put_wait → 0 < z.completion ∨ z.uncounted = false

/-! ## Invariant -/

variable {P t} {z : Session}

structure Inv (P : Params) (t : ℕ) (z : Session) : Prop where
  st : OfiQuiet.Inv P z.w.st
  own : Own z.w t
  /-- the assertion of put_wait -/
  completion : 0 ≤ z.completion
  issued : ∀ k ∈ z.direct, k < z.w.st.put.issued
  waits : z.phase = .waiting → 0 < z.completion ∧ Waits z.w.st t z.direct
  counted : z.completion = 0 → z.uncounted = false → ∀ k ∈ z.direct, z.w.st.put.acked k = true
  done : Done z

theorem inv_init : Inv P t init :=
  ⟨OfiQuiet.inv_init, own_init t, le_refl _, fun _ hk => absurd hk List.not_mem_nil, fun h => absurd h Phase.noConfusion,
    fun _ _ _ hk => absurd hk List.not_mem_nil, fun h => absurd h Phase.noConfusion⟩

/-- a step of the context -/
theorem Inv.context (h : Inv P t z) (o : OfiQuiet.Op) : Inv P t { z with w := OfiPosts.step P z.w o } := by
  have hle : Tally.Le z.w.st.put (OfiPosts.step P z.w o).st.put := step_put_le z.w.st o
  refine ⟨h.st.step o, h.own.step h.st o, h.completion, ?_, ?_, ?_, ?_⟩
  · exact fun k hk => (h.issued k hk).trans_le hle.issued
  · exact fun hph => ⟨(h.waits hph).1, (h.waits hph).2.step h.st o⟩
  · exact fun hc hu k hk => hle.acked k (h.counted hc hu k hk)
  · exact fun hph k hk => hle.acked k (h.done hph k hk)

/-- a call that is no put_wait begins -/
theorem Inv.call (h : Inv P t z) (c : Call) {phase : Phase} (hwaiting : phase ≠ .waiting) (hwaited : phase ≠ .waited) :
    Inv P t (z.call P t c phase) := by
  unfold Session.call
  split
  · have hctx := h.context (.call t c)
    exact ⟨hctx.st, hctx.own, hctx.completion, hctx.issued, fun hph => absurd hph hwaiting, hctx.counted,
      fun hph => absurd hph hwaited⟩
  · exact h

theorem Inv.wait (h : Inv P t z) (hpos : 0 < z.completion) : Inv P t (z.call P t .putQuiet .waiting) := by
  unfold Session.call
  split
  · rename_i hacc
    have hctx := h.context (.call t .putQuiet)
    refine ⟨hctx.st, hctx.own, hctx.completion, hctx.issued, fun _ => ⟨hpos, hctx.issued, .inl ?_⟩, hctx.counted,
      fun hph => absurd hph Phase.noConfusion⟩
    have hcode : Instr.quiet ∈ live ((OfiPosts.step P z.w (.call t .putQuiet)).st.thr t).code := by
      rw [step_call hacc]
      exact List.mem_singleton_self _
    exact hcode
  · exact h

theorem Inv.ret (h : Inv P t z) (hidle : (z.w.st.thr t).code = []) : Inv P t (z.ret P t) := by
  have hnew : ∀ k ∈ z.direct ++ z.w.mine t, k < z.w.st.put.issued := by
    intro k hk
    exact (List.mem_append.mp hk).elim (h.issued k) (h.own.issued k)
  unfold Session.ret
  split
  · rename_i len hph
    split
    · have hc := h.completion
      refine ⟨h.st, h.own, ?_, hnew, fun hph => absurd hph Phase.noConfusion, fun hzero => ?_,
        fun hph => absurd hph Phase.noConfusion⟩
      · show 0 ≤ z.completion + 1
        omega
      · have hzero : z.completion + 1 = 0 := hzero
        omega
    · exact ⟨h.st, h.own, h.completion, h.issued, fun hph => absurd hph Phase.noConfusion, h.counted,
        fun hph => absurd hph Phase.noConfusion⟩
  · rename_i full_len max_atomic_size hph
    split
    · exact ⟨h.st, h.own, h.completion, hnew, fun hph => absurd hph Phase.noConfusion,
        fun _ hu => absurd hu Bool.noConfusion, fun hph => absurd hph Phase.noConfusion⟩
    · exact ⟨h.st, h.own, h.completion, h.issued, fun hph => absurd hph Phase.noConfusion, h.counted,
        fun hph => absurd hph Phase.noConfusion⟩
  · rename_i hph
    obtain ⟨hpos, hwaits⟩ := h.waits hph
    -- the quiet of put_wait has returned
    have hall : ∀ k ∈ z.direct, z.w.st.put.acked k = true := by
      rcases hwaits.phase with hquiet | ⟨hend, -⟩ | hover
      · rw [hidle] at hquiet
        exact absurd hquiet List.not_mem_nil
      · rw [hidle] at hend
        exact absurd hend List.not_mem_nil
      · exact hover
    refine ⟨h.st, h.own, ?_, h.issued, fun hph => absurd hph Phase.noConfusion, fun _ _ => hall, fun _ => hall⟩
    show 0 ≤ z.completion - 1
    omega
  · exact h

theorem Inv.step (h : Inv P t z) {o : Op} (hC : Counted z o) : Inv P t (step P t z o) := by
  cases o with
  | put_nb len =>
    simp only [PutWait.step]
    split
    · exact h.call _ Phase.noConfusion Phase.noConfusion
    · exact h
  | atomicv full_len max_atomic_size dtsize =>
    simp only [PutWait.step]
    split
    · exact h.call _ Phase.noConfusion Phase.noConfusion
    · exact h
  | put_wait =>
    simp only [PutWait.step]
    split_ifs with hfree hpos
    · exact h.wait hpos
    · have hzero : z.completion = 0 := le_antisymm (not_lt.mp hpos) h.completion
      have hall := h.counted hzero ((hC rfl).resolve_left hpos)
      exact ⟨h.st, h.own, h.completion, h.issued, fun hph => absurd hph Phase.noConfusion, h.counted, fun _ => hall⟩
    · exact h
  | ret =>
    simp only [PutWait.step]
    split
    · rename_i hidle
      exact h.ret hidle
    · exact h
  | other o =>
    simp only [PutWait.step]
    split
    · split
      · exact h
      · exact h.context _
    · exact h.context _

/-- **put_wait waits for what was counted.** In every run in which no put_wait is called with nothing counted and an atomic
operation in chunks since one last waited, all operations that read a source buffer have completed where put_wait returns. -/
theorem put_wait_done (P : Params) (t : ℕ) (ops : List Op) (hops : Runs.Meets (step P t) Counted init ops) :
    Done (Runs.run (step P t) init ops) :=
  (Runs.run_inv_meets (step P t) Counted (Inv P t) (fun _ _ hC h => h.step hC) init inv_init ops hops).done

instance (z : Session) (o : Op) : Decidable (Counted z o) := by
  unfold Counted
  infer_instance

instance meetsCounted (P : Params) (t : ℕ) (z : Session) (ops : List Op) :
    Decidable (Runs.Meets (step P t) Counted z ops) :=
  match ops with
  | [] => inferInstanceAs (Decidable True)
  | o :: ops =>
    have := meetsCounted P t (step P t z o) ops
    inferInstanceAs (Decidable (_ ∧ _))

/-- operations of more than 8 bytes read the source buffer; a fence does not wait -/
def ordered : Params := ⟨8, 0, 1024, 0, 1, false, false, true, false, true⟩

/-- an update of 16 bytes, as two operations of 8 -/
def update : List Op := [Op.atomicv 16 8 8] ++ List.replicate 6 (Op.other (.exec 0 .ok)) ++ [Op.ret]

/-- a put of 16 bytes -/
def put : List Op := [Op.put_nb 16] ++ List.replicate 4 (Op.other (.exec 0 .ok)) ++ [Op.ret]

/-- put_wait, which finds the put counted -/
def putUpdateWait : List Op :=
  put ++ update ++ [Op.put_wait] ++ List.replicate 2 (Op.other (.exec 0 .ok)) ++
    [Op.other (.complete 1), .other (.complete 2), .other (.complete 0)] ++ List.replicate 5 (Op.other (.exec 0 .ok)) ++
      [Op.ret]

theorem put_wait_done_put :
    let z := Runs.run (step ordered 0) init putUpdateWait
    z.phase = .waited ∧ z.direct = [0, 1, 2] ∧ ∀ k ∈ z.direct, z.w.st.put.acked k = true := by
  intro z
  have hphase : z.phase = .waited := by decide +kernel
  exact ⟨hphase, by decide +kernel, put_wait_done ordered 0 putUpdateWait (by decide +kernel) hphase⟩

/-- **An update in chunks is not waited for.** It has counted nothing, so put_wait returns at once, with both operations
under way. -/
theorem put_wait_early : ¬ ∀ (P : Params) (t : ℕ) (ops : List Op), Done (Runs.run (step P t) init ops) := by
  intro h
  have hack := h ordered 0 (update ++ [.put_wait]) (by decide +kernel) 0 (by decide +kernel)
  exact absurd hack (by decide +kernel)

end SandiaShmem.Transport.PutWait
