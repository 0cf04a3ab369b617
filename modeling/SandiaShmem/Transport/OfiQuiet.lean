/-
Put quiet of the OFI transport (`src/transport_ofi.h`), for one context.

Every operation is counted in pending_put_cntr before it is handed to the provider, which counts its completion in
put_cntr. `shmem_transport_put_quiet` first waits until no bounce buffer is in use, then compares the two counters: it
polls them, put_cntr first, and after put_poll_limit polls it blocks in `fi_cntr_wait`. Bounce buffers come from a free
list and go back to it when their completion is read from the completion queue; both happen under the lock of the list.

The threads are interleaved at every access to shared data and may all use the context, unless the context is private or
serialized: then no lock is taken and the application calls from one thread at a time. A thread holds the rest of its
call as a list of instructions; loops and branches put their instructions in front of the rest. Bounce buffers are
numbered in the order of their allocation.

- `Inv`: counters, buffers, locks and threads.
- `put_quiet_complete`: every state of every run.
-/
import SandiaShmem.Core.Runs
import SandiaShmem.Core.Tally

namespace SandiaShmem.Transport.OfiQuiet

/-! ## Model -/

/-- sizes, limits and build options -/
structure Params where
  max_buffered_send : ℕ
  bounce_buffer_size : ℕ
  max_msg_size : ℕ
  max_bounce_buffers : ℕ
  put_poll_limit : ℤ
  /-- the context has bounce buffers: `ctx->bounce_buffers != NULL`, and `ctx->options & SHMEMX_CTX_BOUNCE_BUFFER` -/
  bounce : Bool
  /-- the context is private or serialized -/
  serial : Bool
  USE_CTX_LOCK : Bool
  USE_FI_FENCE : Bool
  WANT_TOTAL_DATA_ORDERING : Bool

inductive Instr where
  /-- `SHMEM_TRANSPORT_OFI_CTX_LOCK` and `SHMEM_TRANSPORT_OFI_CTX_UNLOCK` -/
  | ctxLock
  | ctxUnlock
  /-- `SHMEM_TRANSPORT_OFI_CNTR_INC(&ctx->pending_put_cntr)` -/
  | inc
  /-- `SHMEM_TRANSPORT_OFI_CTX_BB_LOCK` and `SHMEM_TRANSPORT_OFI_CTX_BB_UNLOCK` -/
  | bbLock
  | bbUnlock
  /-- `while (nalloc >= max_bounce_buffers) drain_cq`, in front of the allocation -/
  | throttle
  /-- `shmem_free_list_alloc` and `pending_bb_cntr++` -/
  | bbAlloc
  /-- `shmem_transport_ofi_drain_cq` -/
  | drain
  /-- `while (nalloc > 0) drain_cq` -/
  | drainAll
  /-- the call of the provider and its retries; `bb` says that the data are in a bounce buffer -/
  | post (bb : Bool)
  /-- `shmem_transport_put_quiet` -/
  | quiet
  /-- the condition of the polling loop, its reads of put_cntr and of pending_put_cntr -/
  | pollTest (poll_count : ℕ)
  | pollRead (poll_count : ℕ)
  | pollCmp (poll_count : ℕ)
  /-- `cnt_new = pending_put_cntr` before the second loop -/
  | waitFor
  /-- `cnt = cnt_new; fi_cntr_wait(ctx->put_cntr, cnt, -1)` -/
  | cntrWait
  /-- `cnt_new = pending_put_cntr`, and around the loop again if `cnt < cnt_new` -/
  | recheck
  /-- `shmem_transport_put_quiet` returns -/
  | quietEnd
  /-- `shmem_transport_get_wait`, which waits for another counter -/
  | getWait
  /-- the call returns to an application that calls from one thread at a time -/
  | appEnd
deriving DecidableEq, Repr

/-- `shmem_transport_put_scalar`, and `shmem_transport_atomic` -/
def putScalar : List Instr := [.ctxLock, .inc, .post false, .ctxUnlock]

/-- n fragments of a large transfer -/
def fragments (n : ℕ) : List Instr := (List.replicate n [Instr.inc, .post false]).flatten

/-- `create_bounce_buffer` -/
def createBounceBuffer : List Instr := [.bbLock, .throttle, .bbUnlock]

variable (P : Params)

/-- `shmem_transport_ofi_put_large` -/
def putLarge (len : ℕ) : List Instr :=
  .ctxLock :: (fragments ((len + P.max_msg_size - 1) / P.max_msg_size) ++ [.ctxUnlock])

/-- `shmem_transport_put_nb` -/
def putNb (len : ℕ) : List Instr :=
  if len ≤ P.max_buffered_send then putScalar
  else if len ≤ P.bounce_buffer_size ∧ P.bounce then
    [.ctxLock, .inc] ++ createBounceBuffer ++ [.post true, .ctxUnlock]
  else putLarge P len

/-- `shmem_transport_put_nbi` -/
def putNbi (len : ℕ) : List Instr := if len ≤ P.max_buffered_send then putScalar else putLarge P len

/-- `shmem_transport_fence` -/
def fence : List Instr := if P.WANT_TOTAL_DATA_ORDERING then [.getWait] else [.quiet, .getWait]

/-- `shmem_transport_put_signal_nbi` -/
def putSignalNbi (len : ℕ) : List Instr :=
  (if len ≤ P.max_buffered_send then putScalar else putLarge P len) ++ (if P.USE_FI_FENCE then [] else fence P) ++
    putScalar

/-- `shmem_transport_atomicv`, with the sizes the provider and the datatype give -/
def atomicv (full_len max_atomic_size dtsize : ℕ) : List Instr :=
  let len := full_len / dtsize
  let chunk := max_atomic_size / dtsize
  let ops : List Instr :=
    if full_len ≤ min P.max_buffered_send max_atomic_size then [.inc, .post false]
    else if full_len ≤ min P.bounce_buffer_size max_atomic_size ∧ P.bounce then
      createBounceBuffer ++ [.inc, .post true]
    else fragments ((len + chunk - 1) / chunk)
  .ctxLock :: (ops ++ [.ctxUnlock])

/-- a call on the context -/
inductive Call where
  | putScalar
  | putNb (len : ℕ)
  | putNbi (len : ℕ)
  | putSignalNbi (len : ℕ)
  | atomic
  | atomicv (full_len max_atomic_size dtsize : ℕ)
  | putQuiet
deriving DecidableEq, Repr

def Call.code : Call → List Instr
  | .putScalar => OfiQuiet.putScalar
  | .putNb len => OfiQuiet.putNb P len
  | .putNbi len => OfiQuiet.putNbi P len
  | .putSignalNbi len => OfiQuiet.putSignalNbi P len
  | .atomic => OfiQuiet.putScalar
  | .atomicv full_len max_atomic_size dtsize => OfiQuiet.atomicv P full_len max_atomic_size dtsize
  | .putQuiet => [.quiet]

/-- the body of `shmem_transport_put_quiet` -/
def quietBody : List Instr :=
  .ctxLock :: ((if P.bounce then [.bbLock, .drainAll, .bbUnlock] else []) ++ [.pollTest 0, .ctxUnlock, .quietEnd])

/-- a bounce buffer: not allocated yet, allocated by a thread that has not posted it, with the provider, completed and in
the completion queue, back in the free list -/
inductive Stage where
  | unused
  | held (t : ℕ)
  | flying
  | queued
  | freed
deriving DecidableEq, Repr

/-- a thread: the rest of its call, the operation and the buffer it is issuing, the variables of a quiet, what had been
counted when its quiet was called, and whether it is between the lock and the unlock of the free list -/
structure Thread where
  code : List Instr
  cur : ℕ
  buf : ℕ
  success : ℕ
  cnt : ℕ
  cnt_new : ℕ
  start : ℕ
  startbb : ℕ
  inbb : Bool

def Thread.idle : Thread := ⟨[], 0, 0, 0, 0, 0, 0, 0, false⟩

/-- the state; `put` holds pending_put_cntr and put_cntr, `app` the thread that an application with one caller at a time
has in a call, and `failed` says that the assertion `cnt == cnt_new` has failed -/
structure St where
  put : Tally
  pending_bb_cntr : ℕ
  completed_bb_cntr : ℕ
  nalloc : ℕ
  stage : ℕ → Stage
  lock : Option ℕ
  bbHolder : Option ℕ
  app : Option ℕ
  thr : ℕ → Thread
  failed : Bool

def init : St := ⟨.zero, 0, 0, 0, fun _ => .unused, none, none, none, fun _ => .idle, false⟩

def St.setThr (s : St) (t : ℕ) (x : Thread) : St := { s with thr := Function.update s.thr t x }
def St.setStage (s : St) (b : ℕ) (g : Stage) : St := { s with stage := Function.update s.stage b g }

/-- how the provider answers: with an event of a buffer, with -FI_EAGAIN, or by accepting what it is given -/
inductive Answer where
  | event (b : ℕ)
  | again
  | ok
deriving DecidableEq, Repr

/-- thread t executes its next instruction, in front of `rest` -/
def exec (s : St) (t : ℕ) (rest : List Instr) (a : Answer) : Instr → St
  | .ctxLock =>
    if P.USE_CTX_LOCK ∧ ¬ P.serial then
      if s.lock = none then { s with lock := some t }.setThr t { s.thr t with code := rest } else s
    else s.setThr t { s.thr t with code := rest }
  | .ctxUnlock =>
    if P.USE_CTX_LOCK ∧ ¬ P.serial then { s with lock := none }.setThr t { s.thr t with code := rest }
    else s.setThr t { s.thr t with code := rest }
  | .inc => { s with put := s.put.inc }.setThr t { s.thr t with code := rest, cur := s.put.issued }
  | .bbLock =>
    if P.serial then s.setThr t { s.thr t with code := rest, inbb := true }
    else if s.bbHolder = none then { s with bbHolder := some t }.setThr t { s.thr t with code := rest, inbb := true }
    else s
  | .bbUnlock =>
    if P.serial then s.setThr t { s.thr t with code := rest, inbb := false }
    else { s with bbHolder := none }.setThr t { s.thr t with code := rest, inbb := false }
  | .throttle =>
    if P.max_bounce_buffers ≤ s.nalloc then s.setThr t { s.thr t with code := .drain :: .throttle :: rest }
    else s.setThr t { s.thr t with code := .bbAlloc :: rest }
  | .bbAlloc =>
    { s with
      nalloc := s.nalloc + 1
      pending_bb_cntr := s.pending_bb_cntr + 1
      stage := Function.update s.stage s.pending_bb_cntr (.held t) }.setThr t
        { s.thr t with code := rest, buf := s.pending_bb_cntr }
  | .drain =>
    match a with
    | .event b =>
      -- the frag is of type SHMEM_TRANSPORT_OFI_TYPE_BOUNCE: only buffered operations ask for a completion
      if s.stage b = .queued then
        { s with
          nalloc := s.nalloc - 1
          completed_bb_cntr := s.completed_bb_cntr + 1
          stage := Function.update s.stage b .freed }
      else s
    | _ => s.setThr t { s.thr t with code := rest }
  | .drainAll =>
    if 0 < s.nalloc then s.setThr t { s.thr t with code := .drain :: .drainAll :: rest }
    else s.setThr t { s.thr t with code := rest }
  | .post bb =>
    match a with
    | .ok =>
      { s with
        put := s.put.post (s.thr t).cur
        stage := if bb then Function.update s.stage (s.thr t).buf .flying else s.stage }.setThr t
          { s.thr t with code := rest }
    | _ =>
      -- try_again
      if P.bounce then s.setThr t { s.thr t with code := .bbLock :: .drain :: .bbUnlock :: .post bb :: rest } else s
  | .quiet =>
    s.setThr t { s.thr t with code := quietBody P ++ rest, start := s.put.issued, startbb := s.pending_bb_cntr }
  | .pollTest poll_count =>
    if (poll_count : ℤ) < P.put_poll_limit ∨ P.put_poll_limit < 0 then
      s.setThr t { s.thr t with code := .pollRead poll_count :: rest }
    else s.setThr t { s.thr t with code := .waitFor :: rest }
  | .pollRead poll_count =>
    s.setThr t { s.thr t with code := .pollCmp poll_count :: rest, success := s.put.count }
  | .pollCmp poll_count =>
    if (s.thr t).success < s.put.pending then
      s.setThr t { s.thr t with
        code := .ctxUnlock :: .ctxLock :: .pollTest (poll_count + 1) :: rest
        cnt := s.put.pending }
    else s.setThr t { s.thr t with code := rest, cnt := s.put.pending }
  | .waitFor => s.setThr t { s.thr t with code := .cntrWait :: rest, cnt_new := s.put.pending }
  | .cntrWait =>
    if (s.thr t).cnt_new ≤ s.put.count then
      s.setThr t { s.thr t with code := .recheck :: rest, cnt := (s.thr t).cnt_new }
    else s
  | .recheck =>
    if (s.thr t).cnt < s.put.pending then
      s.setThr t { s.thr t with code := .cntrWait :: rest, cnt_new := s.put.pending }
    else
      { s with failed := s.failed || decide ((s.thr t).cnt ≠ s.put.pending) }.setThr t
        { s.thr t with code := rest, cnt_new := s.put.pending }
  | .quietEnd => s.setThr t { s.thr t with code := rest }
  | .getWait => s.setThr t { s.thr t with code := rest }
  | .appEnd => { s with app := none }.setThr t { s.thr t with code := [] }

/-- what can happen -/
inductive Op where
  | call (t : ℕ) (c : Call)
  | exec (t : ℕ) (a : Answer)
  /-- the provider completes an operation and counts it -/
  | complete (k : ℕ)
  /-- the provider puts the completion of a buffered operation into the queue -/
  | event (b : ℕ)
deriving DecidableEq, Repr

/-- one step; what is not possible changes nothing -/
def step (s : St) : Op → St
  | .call t c =>
    if (s.thr t).code = [] then
      if P.serial then
        if s.app = none then { s with app := some t }.setThr t { s.thr t with code := c.code P ++ [Instr.appEnd] } else s
      else s.setThr t { s.thr t with code := c.code P }
    else s
  | .exec t a =>
    match (s.thr t).code with
    | [] => s
    | i :: rest => exec P s t rest a i
  | .complete k => if s.put.posted k = true ∧ s.put.acked k = false then { s with put := s.put.ack k } else s
  | .event b => if s.stage b = .flying then s.setStage b .queued else s

/-- `shmem_transport_pcntr_get_issued_write` -/
def issuedWrite (s : St) : ℕ := s.put.pending + if P.bounce then s.pending_bb_cntr else 0

/-- `shmem_transport_pcntr_get_completed_write` -/
def completedWrite (s : St) : ℕ := s.put.count + if P.bounce then s.completed_bb_cntr else 0


/-! ## Invariants -/

/-- well-formed code, given whether the thread has the lock of the free list (b), has counted an operation that it has
not posted (o), has a buffer for it (h) and is in a quiet (q); it ends with none of these -/
def CodeOk : Bool → Bool → Bool → Bool → List Instr → Prop
  | b, o, h, q, [] => b = false ∧ o = false ∧ h = false ∧ q = false
  | b, o, h, q, .inc :: r => o = false ∧ CodeOk b true h q r
  | b, o, h, q, .bbLock :: r => b = false ∧ CodeOk true o h q r
  | b, o, h, q, .bbUnlock :: r => b = true ∧ CodeOk false o h q r
  | b, o, h, q, .throttle :: r => b = true ∧ h = false ∧ CodeOk b o true q r
  | b, o, h, q, .bbAlloc :: r => b = true ∧ h = false ∧ CodeOk b o true q r
  | b, o, h, q, .drain :: r => b = true ∧ CodeOk b o h q r
  | b, o, h, q, .drainAll :: r => b = true ∧ q = true ∧ CodeOk b o h q r
  | b, o, h, q, .post bb :: r => b = false ∧ o = true ∧ h = bb ∧ CodeOk b false false q r
  | b, o, h, q, .quiet :: r => b = false ∧ q = false ∧ CodeOk b o h q r
  | b, o, h, q, .pollTest _ :: r => q = true ∧ CodeOk b o h q r
  | b, o, h, q, .pollRead _ :: r => q = true ∧ CodeOk b o h q r
  | b, o, h, q, .pollCmp _ :: r => q = true ∧ CodeOk b o h q r
  | b, o, h, q, .waitFor :: r => q = true ∧ CodeOk b o h q r
  | b, o, h, q, .cntrWait :: r => q = true ∧ CodeOk b o h q r
  | b, o, h, q, .recheck :: r => q = true ∧ CodeOk b o h q r
  | b, o, h, q, .quietEnd :: r => q = true ∧ CodeOk b o h false r
  | b, o, h, q, .ctxLock :: r => CodeOk b o h q r
  | b, o, h, q, .ctxUnlock :: r => CodeOk b o h q r
  | b, o, h, q, .getWait :: r => CodeOk b o h q r
  | b, o, h, q, .appEnd :: _ => b = false ∧ o = false ∧ h = false ∧ q = false

/-- the counters are still to be compared in this quiet -/
def polls : List Instr → Bool
  | [] => false
  | .quietEnd :: _ => false
  | .pollTest _ :: _ => true
  | .pollRead _ :: _ => true
  | .pollCmp _ :: _ => true
  | .waitFor :: _ => true
  | .cntrWait :: _ => true
  | .recheck :: _ => true
  | _ :: r => polls r

/-- the buffers are still to be waited for in this quiet -/
def drains : List Instr → Bool
  | [] => false
  | .quietEnd :: _ => false
  | .drainAll :: _ => true
  | _ :: r => drains r

/-- an instruction that relies on what the one before has found -/
def Instr.transient : Instr → Bool
  | .bbAlloc => true
  | .pollCmp _ => true
  | .recheck => true
  | _ => false

/-- what the next instruction relies on -/
def HeadOk (s : St) (x : Thread) : Prop :=
  match x.code with
  | .bbAlloc :: _ => s.nalloc < P.max_bounce_buffers
  | .pollCmp _ :: _ => x.success ≤ s.put.count
  | .recheck :: _ => x.cnt ≤ s.put.count
  | _ => True

/-- a quiet: what it has waited for is done -/
structure QuietOk (s : St) (x : Thread) : Prop where
  start : x.start ≤ s.put.issued
  startbb : x.startbb ≤ s.pending_bb_cntr
  polled : polls x.code = true ∨ (x.start ≤ s.put.count ∧ ∀ k < x.start, s.put.acked k = true)
  drained : drains x.code = true ∨ P.bounce = false ∨ x.startbb ≤ s.completed_bb_cntr

/-- thread t, with local state x -/
structure ThrOk (s : St) (t : ℕ) (x : Thread) : Prop where
  code : ∃ o h q, CodeOk x.inbb o h q x.code ∧ (o = true → x.cur < s.put.issued) ∧
    (h = true → s.stage x.buf = .held t) ∧ (q = true → QuietOk P s x)
  tail : ∀ i ∈ x.code.tail, i.transient = false
  head : HeadOk P s x

/-- the buffers that are back in the free list -/
def freedBufs (s : St) : Finset ℕ := (Finset.range s.pending_bb_cntr).filter fun b => s.stage b = .freed

structure BufOk (s : St) : Prop where
  nalloc : s.nalloc + s.completed_bb_cntr = s.pending_bb_cntr
  freed : s.completed_bb_cntr = (freedBufs s).card
  unused : ∀ b, s.pending_bb_cntr ≤ b → s.stage b = .unused
  max : s.nalloc ≤ P.max_bounce_buffers

structure LockOk (s : St) : Prop where
  bb : P.serial = false → ∀ t, (s.thr t).inbb = true → s.bbHolder = some t
  app : P.serial = true → ∀ t, (s.thr t).code ≠ [] → s.app = some t

structure Inv (s : St) : Prop where
  wf : s.put.WF
  sync : s.put.pending = s.put.issued
  bufs : BufOk P s
  locks : LockOk P s
  failed : s.failed = false
  thr : ∀ t, ThrOk P s t (s.thr t)

variable {P} {s s' : St} {t u : ℕ} {x : Thread} {i : Instr} {rest : List Instr}

theorem ThrOk.inbb_code (h : ThrOk P s t x) (hin : x.inbb = true) : x.code ≠ [] := by
  obtain ⟨o, b, q, hcode, -⟩ := h.code
  intro hnil
  rw [hnil] at hcode
  exact absurd (hin.symm.trans hcode.1) (by decide)

/-- one thread at a time is between the lock and the unlock -/
theorem Inv.inbb_unique (h : Inv P s) (ht : (s.thr t).inbb = true) (hu : (s.thr u).inbb = true) : t = u := by
  cases hser : P.serial with
  | false => exact Option.some.inj ((h.locks.bb hser t ht).symm.trans (h.locks.bb hser u hu))
  | true =>
    have htc := h.locks.app hser t ((h.thr t).inbb_code ht)
    have huc := h.locks.app hser u ((h.thr u).inbb_code hu)
    exact Option.some.inj (htc.symm.trans huc)

/-- s' is later than s, and nothing that thread u relies on has been taken away -/
structure Later (s s' : St) (u : ℕ) : Prop where
  put : Tally.Le s.put s'.put
  pending_bb : s.pending_bb_cntr ≤ s'.pending_bb_cntr
  completed_bb : s.completed_bb_cntr ≤ s'.completed_bb_cntr
  stage : ∀ b, s.stage b = .held u → s'.stage b = .held u

theorem QuietOk.later (h : QuietOk P s x) (hl : Later s s' u) : QuietOk P s' x := by
  refine ⟨h.start.trans hl.put.issued, h.startbb.trans hl.pending_bb, ?_, ?_⟩
  · apply h.polled.imp_right
    intro hdone
    exact ⟨hdone.1.trans hl.put.count, fun k hk => hl.put.acked k (hdone.2 k hk)⟩
  · apply h.drained.imp_right
    exact Or.imp_right fun hdone => hdone.trans hl.completed_bb

theorem ThrOk.later (h : ThrOk P s u x) (hl : Later s s' u) (hn : s'.nalloc ≤ s.nalloc ∨ x.inbb = false) :
    ThrOk P s' u x := by
  obtain ⟨o, b, q, hcode, hcur, hbuf, hq⟩ := h.code
  refine ⟨⟨o, b, q, hcode, fun ho => (hcur ho).trans_le hl.put.issued, fun hb => hl.stage _ (hbuf hb),
    fun hq' => (hq hq').later hl⟩, h.tail, ?_⟩
  have hhead := h.head
  unfold HeadOk at hhead ⊢
  split <;> rename_i hc <;> simp only [hc] at hhead
  · rw [hc] at hcode
    have hin := hcode.1
    rcases hn with hn | hout
    · exact hn.trans_lt hhead
    · exact absurd (hin.symm.trans hout) (by decide)
  · exact hhead.trans hl.put.count
  · exact hhead.trans hl.put.count
  · trivial

/-- **One thread moves.** It keeps its own invariant and those of the counters, the buffers and the locks, and takes
nothing from the others. -/
theorem Inv.move (h : Inv P s) (t : ℕ) (hwf : s'.put.WF) (hsync : s'.put.pending = s'.put.issued) (hb : BufOk P s')
    (hl : LockOk P s') (hf : s'.failed = false) (hthr : ∀ u, u ≠ t → s'.thr u = s.thr u)
    (hlater : ∀ u, u ≠ t → Later s s' u) (hn : s'.nalloc ≤ s.nalloc ∨ (s.thr t).inbb = true)
    (ht : ThrOk P s' t (s'.thr t)) : Inv P s' := by
  refine ⟨hwf, hsync, hb, hl, hf, fun u => ?_⟩
  by_cases hu : u = t
  · exact hu ▸ ht
  · rw [hthr u hu]
    refine (h.thr u).later (hlater u hu) (hn.imp_right fun hin => ?_)
    cases huin : (s.thr u).inbb with
    | false => rfl
    | true => exact absurd (h.inbb_unique huin hin) hu

theorem later_of_eq (hput : s'.put = s.put) (hp : s'.pending_bb_cntr = s.pending_bb_cntr)
    (hc : s'.completed_bb_cntr = s.completed_bb_cntr) (hst : s'.stage = s.stage) : Later s s' u :=
  ⟨hput ▸ Tally.Le.refl _, hp.ge, hc.ge, fun _ hb => hst ▸ hb⟩

@[simp] theorem setThr_put (s : St) (t : ℕ) (x : Thread) : (s.setThr t x).put = s.put := rfl
@[simp] theorem setThr_thr_self (s : St) (t : ℕ) (x : Thread) : (s.setThr t x).thr t = x := by simp [St.setThr]
theorem setThr_thr_ne (s : St) (x : Thread) (h : u ≠ t) : (s.setThr t x).thr u = s.thr u := by simp [St.setThr, h]

theorem LockOk.app_of_move (h : LockOk P s) (hcode : (s.thr t).code ≠ []) (hthr : ∀ u, u ≠ t → s'.thr u = s.thr u)
    (happ : s'.app = s.app) (hser : P.serial = true) : ∀ u, (s'.thr u).code ≠ [] → s'.app = some u := by
  intro u hne
  rw [happ]
  by_cases hu : u = t
  · exact hu ▸ h.app hser t hcode
  · rw [hthr u hu] at hne
    exact h.app hser u hne

/-- the locks after a change of one thread that keeps the lock it has -/
theorem LockOk.move (h : LockOk P s) (hcode : (s.thr t).code ≠ []) (hthr : ∀ u, u ≠ t → s'.thr u = s.thr u)
    (hbb : (s'.thr t).inbb = (s.thr t).inbb) (hholder : s'.bbHolder = s.bbHolder) (happ : s'.app = s.app) :
    LockOk P s' := by
  refine ⟨fun hser u hin => ?_, h.app_of_move hcode hthr happ⟩
  rw [hholder]
  by_cases hu : u = t
  · subst hu
    rw [hbb] at hin
    exact h.bb hser u hin
  · rw [hthr u hu] at hin
    exact h.bb hser u hin

/-- a change of one thread and of the locks -/
theorem Inv.relock (h : Inv P s) (lock holder app : Option ℕ) (hx : ThrOk P s t x)
    (hl : LockOk P ({ s with lock := lock, bbHolder := holder, app := app }.setThr t x)) :
    Inv P ({ s with lock := lock, bbHolder := holder, app := app }.setThr t x) := by
  refine h.move t h.wf h.sync ⟨h.bufs.nalloc, h.bufs.freed, h.bufs.unused, h.bufs.max⟩ hl h.failed
    (fun u hu => setThr_thr_ne _ _ hu) (fun u _ => later_of_eq rfl rfl rfl rfl) (.inl (le_refl _)) ?_
  rw [setThr_thr_self]
  exact hx.later (later_of_eq rfl rfl rfl rfl) (.inl (le_refl _))

/-- a change of one thread, and of the lock of the context -/
theorem Inv.goto (h : Inv P s) (hcode : (s.thr t).code ≠ []) (lock : Option ℕ) (hx : ThrOk P s t x)
    (hbb : x.inbb = (s.thr t).inbb) : Inv P ({ s with lock := lock }.setThr t x) :=
  h.relock lock s.bbHolder s.app hx
    (h.locks.move hcode (fun _ hu => setThr_thr_ne _ _ hu) (by rw [setThr_thr_self, hbb]) rfl rfl)

/-! ## Threads -/

theorem headOk_of_fresh (h : ∀ i ∈ x.code, i.transient = false) : HeadOk P s x := by
  unfold HeadOk
  split <;> rename_i hc
  · exact absurd (h _ (hc ▸ List.mem_cons_self)) Bool.noConfusion
  · exact absurd (h _ (hc ▸ List.mem_cons_self)) Bool.noConfusion
  · exact absurd (h _ (hc ▸ List.mem_cons_self)) Bool.noConfusion
  · trivial

theorem ThrOk.fresh (h : ThrOk P s t x) (hc : x.code = i :: rest) : ∀ j ∈ rest, j.transient = false := by
  intro j hj
  apply h.tail
  rw [hc]
  exact hj

/-- a thread goes on with other code and the same obligations -/
theorem ThrOk.recode {x' : Thread} (h : ThrOk P s t x)
    (hcode : ∀ o b q, CodeOk x.inbb o b q x.code → CodeOk x'.inbb o b q x'.code) (hcur : x'.cur = x.cur)
    (hbuf : x'.buf = x.buf) (hq : QuietOk P s x → QuietOk P s x') (htail : ∀ i ∈ x'.code.tail, i.transient = false)
    (hhead : HeadOk P s x') : ThrOk P s t x' := by
  obtain ⟨o, b, q, hok, hcur', hbuf', hq'⟩ := h.code
  refine ⟨⟨o, b, q, hcode o b q hok, fun ho => ?_, fun hb => ?_, fun hqt => hq (hq' hqt)⟩, htail, hhead⟩
  · rw [hcur]
    exact hcur' ho
  · rw [hbuf]
    exact hbuf' hb

/-- an instruction that only the locks or the get counter see -/
def Instr.plain : Instr → Bool
  | .ctxLock => true
  | .ctxUnlock => true
  | .getWait => true
  | .drain => true
  | _ => false

theorem QuietOk.pop (h : QuietOk P s x) (hc : x.code = i :: rest) (hp : polls (i :: rest) = polls rest)
    (hd : drains (i :: rest) = drains rest) : QuietOk P s { x with code := rest } := by
  refine ⟨h.start, h.startbb, ?_, ?_⟩
  · have := h.polled
    rwa [hc, hp] at this
  · have := h.drained
    rwa [hc, hd] at this

theorem ThrOk.pop (h : ThrOk P s t x) (hc : x.code = i :: rest) (hi : i.plain = true) :
    ThrOk P s t { x with code := rest } := by
  have hfresh := h.fresh hc
  refine h.recode ?_ rfl rfl (fun hq => hq.pop hc ?_ ?_) (fun j hj => hfresh j (List.mem_of_mem_tail hj))
    (headOk_of_fresh hfresh)
  · intro o b q hok
    rw [hc] at hok
    cases i <;> first | exact hok | exact hok.2 | exact absurd hi Bool.noConfusion
  · cases i <;> first | rfl | exact absurd hi Bool.noConfusion
  · cases i <;> first | rfl | exact absurd hi Bool.noConfusion

theorem Inv.code_ne (hc : (s.thr t).code = i :: rest) : (s.thr t).code ≠ [] := by
  rw [hc]
  exact List.cons_ne_nil _ _

theorem Inv.pop (h : Inv P s) (hc : (s.thr t).code = i :: rest) (hi : i.plain = true) (lock : Option ℕ) :
    Inv P ({ s with lock := lock }.setThr t { s.thr t with code := rest }) :=
  h.goto (Inv.code_ne hc) lock ((h.thr t).pop hc hi) rfl

/-! ## Instructions -/

theorem Inv.ctxLock (h : Inv P s) (hc : (s.thr t).code = .ctxLock :: rest) (a : Answer) :
    Inv P (exec P s t rest a .ctxLock) := by
  simp only [exec]
  split
  · split
    · exact h.pop hc rfl _
    · exact h
  · exact h.pop hc rfl s.lock

theorem Inv.ctxUnlock (h : Inv P s) (hc : (s.thr t).code = .ctxUnlock :: rest) (a : Answer) :
    Inv P (exec P s t rest a .ctxUnlock) := by
  simp only [exec]
  split
  · exact h.pop hc rfl _
  · exact h.pop hc rfl s.lock

theorem Inv.inc (h : Inv P s) (hc : (s.thr t).code = .inc :: rest) (a : Answer) :
    Inv P (exec P s t rest a .inc) := by
  have hfresh := (h.thr t).fresh hc
  have hlater : ∀ u, Later s ({ s with put := s.put.inc }.setThr t { s.thr t with code := rest, cur := s.put.issued }) u :=
    fun u => ⟨Tally.le_inc _, le_refl _, le_refl _, fun _ hb => hb⟩
  refine h.move t h.wf.inc ?_ ⟨h.bufs.nalloc, h.bufs.freed, h.bufs.unused, h.bufs.max⟩ ?_ h.failed
    (fun u hu => setThr_thr_ne _ _ hu) (fun u _ => hlater u) (.inl (le_refl _)) ?_
  · exact congrArg (· + 1) h.sync
  · exact h.locks.move (Inv.code_ne hc) (fun u hu => setThr_thr_ne _ _ hu) (by simp [exec]) rfl rfl
  · simp only [exec, setThr_thr_self]
    obtain ⟨o, b, q, hok, -, hbuf, hq⟩ := (h.thr t).code
    rw [hc] at hok
    refine ⟨⟨true, b, q, hok.2, fun _ => Nat.lt_succ_self _, hbuf, fun hqt => ?_⟩,
      fun j hj => hfresh j (List.mem_of_mem_tail hj), headOk_of_fresh hfresh⟩
    have := ((hq hqt).pop hc rfl rfl).later (hlater t)
    exact ⟨this.start, this.startbb, this.polled, this.drained⟩

theorem Inv.bbLock (h : Inv P s) (hc : (s.thr t).code = .bbLock :: rest) (a : Answer) :
    Inv P (exec P s t rest a .bbLock) := by
  have hfresh := (h.thr t).fresh hc
  have hx : ThrOk P s t { s.thr t with code := rest, inbb := true } := by
    refine (h.thr t).recode (fun o b q hok => ?_) rfl rfl (fun hq => ?_)
      (fun j hj => hfresh j (List.mem_of_mem_tail hj)) (headOk_of_fresh hfresh)
    · rw [hc] at hok
      exact hok.2
    · have := hq.pop hc rfl rfl
      exact ⟨this.start, this.startbb, this.polled, this.drained⟩
  simp only [exec]
  cases hser : P.serial with
  | true =>
    rw [if_pos rfl]
    exact h.relock s.lock s.bbHolder s.app hx ⟨fun hf => absurd (hser.symm.trans hf) (by decide),
      h.locks.app_of_move (Inv.code_ne hc) (fun _ hu => setThr_thr_ne _ _ hu) rfl⟩
  | false =>
    rw [if_neg (by decide)]
    split
    · rename_i hfree
      refine h.relock s.lock (some t) s.app hx ⟨fun _ u hin => ?_, fun hf => absurd (hser.symm.trans hf) (by decide)⟩
      by_cases hu : u = t
      · exact congrArg some hu.symm
      · rw [setThr_thr_ne _ _ hu] at hin
        exact absurd ((h.locks.bb hser u hin).symm.trans hfree) (by simp)
    · exact h

theorem Inv.bbUnlock (h : Inv P s) (hc : (s.thr t).code = .bbUnlock :: rest) (a : Answer) :
    Inv P (exec P s t rest a .bbUnlock) := by
  have hfresh := (h.thr t).fresh hc
  have hin : (s.thr t).inbb = true := by
    obtain ⟨o, b, q, hok, -⟩ := (h.thr t).code
    rw [hc] at hok
    exact hok.1
  have hx : ThrOk P s t { s.thr t with code := rest, inbb := false } := by
    refine (h.thr t).recode (fun o b q hok => ?_) rfl rfl (fun hq => ?_)
      (fun j hj => hfresh j (List.mem_of_mem_tail hj)) (headOk_of_fresh hfresh)
    · rw [hc] at hok
      exact hok.2
    · have := hq.pop hc rfl rfl
      exact ⟨this.start, this.startbb, this.polled, this.drained⟩
  simp only [exec]
  cases hser : P.serial with
  | true =>
    rw [if_pos rfl]
    exact h.relock s.lock s.bbHolder s.app hx ⟨fun hf => absurd (hser.symm.trans hf) (by decide),
      h.locks.app_of_move (Inv.code_ne hc) (fun _ hu => setThr_thr_ne _ _ hu) rfl⟩
  | false =>
    rw [if_neg (by decide)]
    refine h.relock s.lock none s.app hx ⟨fun _ u hinu => ?_, fun hf => absurd (hser.symm.trans hf) (by decide)⟩
    by_cases hu : u = t
    · subst hu
      rw [setThr_thr_self] at hinu
      exact absurd hinu Bool.noConfusion
    · rw [setThr_thr_ne _ _ hu] at hinu
      exact absurd (h.inbb_unique hinu hin) hu

theorem Inv.throttle (h : Inv P s) (hc : (s.thr t).code = .throttle :: rest) (a : Answer) :
    Inv P (exec P s t rest a .throttle) := by
  have hfresh := (h.thr t).fresh hc
  have hquiet : ∀ c, polls c = polls rest → drains c = drains rest → QuietOk P s (s.thr t) →
      QuietOk P s { s.thr t with code := c } := by
    intro c hp hd hq
    refine ⟨hq.start, hq.startbb, ?_, ?_⟩
    · have := hq.polled
      rw [hc] at this
      exact this.imp_left hp.trans
    · have := hq.drained
      rw [hc] at this
      exact this.imp_left hd.trans
  simp only [exec]
  split
  · refine h.goto (Inv.code_ne hc) s.lock ((h.thr t).recode (fun o b q hok => ?_) rfl rfl (hquiet _ rfl rfl) ?_ trivial)
      rfl
    · rw [hc] at hok
      exact ⟨hok.1, hok⟩
    · rintro j (_ | ⟨_, hj⟩)
      · rfl
      · exact hfresh j hj
  · rename_i hroom
    refine h.goto (Inv.code_ne hc) s.lock ((h.thr t).recode (fun o b q hok => ?_) rfl rfl (hquiet _ rfl rfl) ?_ ?_) rfl
    · rw [hc] at hok
      exact hok
    · exact hfresh
    · exact Nat.lt_of_not_le hroom

/-- the buffers after an allocation -/
theorem BufOk.alloc (h : BufOk P s) (hroom : s.nalloc < P.max_bounce_buffers) (hn : s'.nalloc = s.nalloc + 1)
    (hp : s'.pending_bb_cntr = s.pending_bb_cntr + 1) (hcb : s'.completed_bb_cntr = s.completed_bb_cntr)
    (hst : s'.stage = Function.update s.stage s.pending_bb_cntr (.held t)) : BufOk P s' := by
  have hnew : freedBufs s' = freedBufs s := by
    ext b
    simp only [freedBufs, Finset.mem_filter, Finset.mem_range, hp, hst]
    by_cases hb : b = s.pending_bb_cntr
    · subst hb
      simp
    · rw [Function.update_of_ne hb]
      constructor
      · exact fun hf => ⟨lt_of_le_of_ne (Nat.le_of_lt_succ hf.1) hb, hf.2⟩
      · exact fun hf => ⟨hf.1.trans (Nat.lt_succ_self _), hf.2⟩
  refine ⟨?_, ?_, fun b hb => ?_, ?_⟩
  · have := h.nalloc
    omega
  · rw [hcb, hnew]
    exact h.freed
  · rw [hp] at hb
    rw [hst, Function.update_of_ne (by omega)]
    exact h.unused b (by omega)
  · omega

theorem Inv.bbAlloc (h : Inv P s) (hc : (s.thr t).code = .bbAlloc :: rest) (a : Answer) :
    Inv P (exec P s t rest a .bbAlloc) := by
  have hfresh := (h.thr t).fresh hc
  have hroom : s.nalloc < P.max_bounce_buffers := by
    have := (h.thr t).head
    simpa only [HeadOk, hc] using this
  obtain ⟨o, b, q, hok, hcur, -, hq⟩ := (h.thr t).code
  rw [hc] at hok
  obtain ⟨hin, -, hok⟩ := hok
  have hnew : s.stage s.pending_bb_cntr = .unused := h.bufs.unused _ (le_refl _)
  have hlater : ∀ u, Later s (exec P s t rest a .bbAlloc) u := by
    intro u
    refine ⟨Tally.Le.refl _, Nat.le_succ _, le_refl _, fun c hheld => ?_⟩
    have hne : c ≠ s.pending_bb_cntr := by
      intro heq
      rw [heq, hnew] at hheld
      exact Stage.noConfusion hheld
    exact (Function.update_of_ne hne _ _).trans hheld
  refine h.move t h.wf h.sync (h.bufs.alloc hroom rfl rfl rfl rfl) ?_ h.failed (fun u hu => setThr_thr_ne _ _ hu)
    (fun u _ => hlater u) (.inr hin) ?_
  · exact h.locks.move (Inv.code_ne hc) (fun u hu => setThr_thr_ne _ _ hu) (by simp [exec]) rfl rfl
  · refine ⟨⟨o, true, q, ?_, ?_, fun _ => ?_, fun hqt => ?_⟩, ?_, ?_⟩ <;> simp only [exec, setThr_thr_self]
    · exact hok
    · exact hcur
    · exact Function.update_self _ _ _
    · have := ((hq hqt).pop hc rfl rfl).later (hlater t)
      exact ⟨this.start, this.startbb, this.polled, this.drained⟩
    · exact fun j hj => hfresh j (List.mem_of_mem_tail hj)
    · exact headOk_of_fresh hfresh

/-- the buffers after a completion is read -/
theorem BufOk.free {c : ℕ} (h : BufOk P s) (hq : s.stage c = .queued) (hn : s'.nalloc = s.nalloc - 1)
    (hp : s'.pending_bb_cntr = s.pending_bb_cntr) (hcb : s'.completed_bb_cntr = s.completed_bb_cntr + 1)
    (hst : s'.stage = Function.update s.stage c .freed) : BufOk P s' := by
  have hlt : c < s.pending_bb_cntr := by
    by_contra hge
    rw [h.unused c (by omega)] at hq
    exact Stage.noConfusion hq
  have hnot : c ∉ freedBufs s := by simp [freedBufs, hq]
  have hnew : freedBufs s' = insert c (freedBufs s) := by
    ext b
    simp only [freedBufs, Finset.mem_filter, Finset.mem_range, Finset.mem_insert, hp, hst]
    by_cases hb : b = c
    · subst hb
      simp [hlt]
    · rw [Function.update_of_ne hb]
      simp [hb]
  have hcard : (insert c (freedBufs s)).card ≤ s.pending_bb_cntr := by
    rw [← hnew, freedBufs, hp]
    exact (Finset.card_filter_le _ _).trans (Finset.card_range _).le
  rw [Finset.card_insert_of_notMem hnot, ← h.freed] at hcard
  have hcount := h.nalloc
  have hmax := h.max
  refine ⟨by omega, ?_, fun b hb => ?_, by omega⟩
  · rw [hcb, hnew, Finset.card_insert_of_notMem hnot, ← h.freed]
  · rw [hp] at hb
    rw [hst, Function.update_of_ne (by omega)]
    exact h.unused b hb

theorem Inv.drain (h : Inv P s) (hc : (s.thr t).code = .drain :: rest) (a : Answer) :
    Inv P (exec P s t rest a .drain) := by
  cases a with
  | event c =>
    simp only [exec]
    split
    · rename_i hqueued
      have hlater : ∀ u, Later s { s with
          nalloc := s.nalloc - 1
          completed_bb_cntr := s.completed_bb_cntr + 1
          stage := Function.update s.stage c .freed } u := by
        intro u
        refine ⟨Tally.Le.refl _, le_refl _, Nat.le_succ _, fun d hheld => ?_⟩
        have hne : d ≠ c := by
          intro heq
          rw [heq, hqueued] at hheld
          exact Stage.noConfusion hheld
        exact (Function.update_of_ne hne _ _).trans hheld
      exact h.move t h.wf h.sync (h.bufs.free hqueued rfl rfl rfl rfl) ⟨h.locks.bb, h.locks.app⟩ h.failed
        (fun _ _ => rfl) (fun u _ => hlater u) (.inl (Nat.sub_le _ _))
        ((h.thr t).later (hlater t) (.inl (Nat.sub_le _ _)))
    · exact h
  | again => exact h.pop hc rfl s.lock
  | ok => exact h.pop hc rfl s.lock

theorem Inv.drainAll (h : Inv P s) (hc : (s.thr t).code = .drainAll :: rest) (a : Answer) :
    Inv P (exec P s t rest a .drainAll) := by
  have hfresh := (h.thr t).fresh hc
  simp only [exec]
  split
  · refine h.goto (Inv.code_ne hc) s.lock ((h.thr t).recode (fun o b q hok => ?_) rfl rfl (fun hq => ?_) ?_ trivial) rfl
    · rw [hc] at hok
      exact ⟨hok.1, hok⟩
    · have hp := hq.polled
      rw [hc] at hp
      exact ⟨hq.start, hq.startbb, hp, .inl rfl⟩
    · rintro j (_ | ⟨_, hj⟩)
      · rfl
      · exact hfresh j hj
  · rename_i hzero
    refine h.goto (Inv.code_ne hc) s.lock ((h.thr t).recode (fun o b q hok => ?_) rfl rfl (fun hq => ?_)
      (fun j hj => hfresh j (List.mem_of_mem_tail hj)) (headOk_of_fresh hfresh)) rfl
    · rw [hc] at hok
      exact hok.2.2
    · have hp := hq.polled
      rw [hc] at hp
      have hcount := h.bufs.nalloc
      have hstart := hq.startbb
      exact ⟨hq.start, hq.startbb, hp, .inr (.inr (by show (s.thr t).startbb ≤ _; omega))⟩

/-- a buffer goes to the provider, or its completion into the queue -/
theorem BufOk.restage {c : ℕ} {g : Stage} (h : BufOk P s) (hused : s.stage c ≠ .unused) (hold : s.stage c ≠ .freed)
    (hg : g ≠ .freed) (hn : s'.nalloc = s.nalloc) (hp : s'.pending_bb_cntr = s.pending_bb_cntr)
    (hcb : s'.completed_bb_cntr = s.completed_bb_cntr) (hst : s'.stage = Function.update s.stage c g) :
    BufOk P s' := by
  have hsame : freedBufs s' = freedBufs s := by
    ext b
    simp only [freedBufs, Finset.mem_filter, Finset.mem_range, hp, hst]
    by_cases hb : b = c
    · subst hb
      simp [hold, hg]
    · rw [Function.update_of_ne hb]
  refine ⟨by rw [hn, hcb, hp, h.nalloc], by rw [hcb, hsame, h.freed], fun b hb => ?_, hn ▸ h.max⟩
  rw [hp] at hb
  have hunused := h.unused b hb
  have hne : b ≠ c := by
    rintro rfl
    exact hused hunused
  rw [hst, Function.update_of_ne hne, hunused]

theorem Inv.post {bb : Bool} (h : Inv P s) (hc : (s.thr t).code = .post bb :: rest) (a : Answer) :
    Inv P (exec P s t rest a (.post bb)) := by
  have hfresh := (h.thr t).fresh hc
  have hretry : Inv P (if P.bounce = true then s.setThr t { s.thr t with
      code := .bbLock :: .drain :: .bbUnlock :: .post bb :: rest } else s) := by
    split
    · refine h.goto (Inv.code_ne hc) s.lock ((h.thr t).recode (fun o b q hok => ?_) rfl rfl (fun hq => ?_) ?_ trivial)
        rfl
      · rw [hc] at hok
        exact ⟨hok.1, rfl, rfl, rfl, hok.2.1, hok.2.2.1, hok.1 ▸ hok.2.2.2⟩
      · have hp := hq.polled
        have hd := hq.drained
        rw [hc] at hp hd
        exact ⟨hq.start, hq.startbb, hp, hd⟩
      · simp only [List.tail_cons, List.forall_mem_cons]
        exact ⟨rfl, rfl, rfl, hfresh⟩
    · exact h
  cases a with
  | event c => exact hretry
  | again => exact hretry
  | ok =>
    obtain ⟨o, b, q, hok, hcur, hbuf, hq⟩ := (h.thr t).code
    rw [hc] at hok
    obtain ⟨hout, ho, rfl, hok⟩ := hok
    have hlt : (s.thr t).cur < s.put.issued := hcur ho
    have hlater : ∀ u, u ≠ t → Later s (exec P s t rest .ok (.post b)) u := by
      intro u hu
      refine ⟨Tally.le_post _ _, le_refl _, le_refl _, fun c hheld => ?_⟩
      cases b with
      | false => exact hheld
      | true =>
        have hne : c ≠ (s.thr t).buf := by
          rintro rfl
          exact hu (Stage.held.inj (hheld.symm.trans (hbuf rfl)))
        exact (Function.update_of_ne hne _ _).trans hheld
    refine h.move t (h.wf.post hlt) h.sync ?_ ?_ h.failed (fun u hu => setThr_thr_ne _ _ hu) hlater (.inl (le_refl _)) ?_
    · cases b with
      | false => exact ⟨h.bufs.nalloc, h.bufs.freed, h.bufs.unused, h.bufs.max⟩
      | true =>
        have hmine := hbuf rfl
        exact h.bufs.restage (by rw [hmine]; exact Stage.noConfusion) (by rw [hmine]; exact Stage.noConfusion)
          Stage.noConfusion rfl rfl rfl rfl
    · exact h.locks.move (Inv.code_ne hc) (fun u hu => setThr_thr_ne _ _ hu) (by simp [exec]) rfl rfl
    · refine ⟨⟨false, false, q, ?_, fun hf => absurd hf Bool.noConfusion, fun hf => absurd hf Bool.noConfusion,
        fun hqt => ?_⟩, ?_, ?_⟩ <;> simp only [exec, setThr_thr_self]
      · exact hok
      · have := (hq hqt).pop hc rfl rfl
        exact ⟨this.start, this.startbb, this.polled, this.drained⟩
      · exact fun j hj => hfresh j (List.mem_of_mem_tail hj)
      · exact headOk_of_fresh hfresh

theorem quietBody_fresh (P : Params) : ∀ j ∈ quietBody P, j.transient = false := by
  unfold quietBody
  cases P.bounce <;> decide

theorem Inv.quiet (h : Inv P s) (hc : (s.thr t).code = .quiet :: rest) (a : Answer) :
    Inv P (exec P s t rest a .quiet) := by
  have hfresh := (h.thr t).fresh hc
  obtain ⟨o, b, q, hok, hcur, hbuf, -⟩ := (h.thr t).code
  rw [hc] at hok
  obtain ⟨hout, rfl, hok⟩ := hok
  rw [hout] at hok
  refine h.goto (Inv.code_ne hc) s.lock ⟨⟨o, b, true, ?_, hcur, hbuf, fun _ => ?_⟩, ?_, trivial⟩ rfl
  · show CodeOk (s.thr t).inbb o b true (quietBody P ++ rest)
    rw [hout]
    cases hb : P.bounce <;> simp [quietBody, hb, CodeOk, hok]
  · refine ⟨le_refl _, le_refl _, .inl ?_, ?_⟩
    · show polls (quietBody P ++ rest) = true
      cases hb : P.bounce <;> simp [quietBody, hb, polls]
    · show drains (quietBody P ++ rest) = true ∨ _
      cases hb : P.bounce
      · exact .inr (.inl rfl)
      · exact .inl (by simp [quietBody, hb, drains])
  · intro j hj
    rcases List.mem_append.mp (List.mem_of_mem_tail hj) with hbody | hrest
    · exact quietBody_fresh P j hbody
    · exact hfresh j hrest

theorem Inv.quietEnd (h : Inv P s) (hc : (s.thr t).code = .quietEnd :: rest) (a : Answer) :
    Inv P (exec P s t rest a .quietEnd) := by
  have hfresh := (h.thr t).fresh hc
  obtain ⟨o, b, q, hok, hcur, hbuf, -⟩ := (h.thr t).code
  rw [hc] at hok
  exact h.goto (Inv.code_ne hc) s.lock ⟨⟨o, b, false, hok.2, hcur, hbuf, fun hf => absurd hf Bool.noConfusion⟩,
    fun j hj => hfresh j (List.mem_of_mem_tail hj), headOk_of_fresh hfresh⟩ rfl

/-- the comparison of the counters goes on -/
theorem ThrOk.polling {x' : Thread} (h : ThrOk P s t x) (hcode : ∀ o b q, CodeOk x.inbb o b q x.code →
      CodeOk x'.inbb o b q x'.code) (hcur : x'.cur = x.cur) (hbuf : x'.buf = x.buf) (hstart : x'.start = x.start)
    (hstartbb : x'.startbb = x.startbb) (hp : polls x'.code = true) (hd : drains x'.code = drains x.code)
    (htail : ∀ i ∈ x'.code.tail, i.transient = false) (hhead : HeadOk P s x') : ThrOk P s t x' := by
  refine h.recode hcode hcur hbuf (fun hq => ⟨?_, ?_, .inl hp, ?_⟩) htail hhead
  · rw [hstart]
    exact hq.start
  · rw [hstartbb]
    exact hq.startbb
  · rw [hd, hstartbb]
    exact hq.drained

/-- the comparison of the counters has succeeded -/
theorem ThrOk.polled {x' : Thread} (h : ThrOk P s t x) (hcode : ∀ o b q, CodeOk x.inbb o b q x.code →
      CodeOk x'.inbb o b q x'.code) (hcur : x'.cur = x.cur) (hbuf : x'.buf = x.buf) (hstart : x'.start = x.start)
    (hstartbb : x'.startbb = x.startbb) (hall : ∀ k < s.put.issued, s.put.acked k = true)
    (hcount : s.put.issued ≤ s.put.count) (hd : drains x'.code = drains x.code)
    (hfresh : ∀ i ∈ x'.code, i.transient = false) : ThrOk P s t x' := by
  refine h.recode hcode hcur hbuf (fun hq => ⟨?_, ?_, .inr ⟨?_, fun k hk => ?_⟩, ?_⟩)
    (fun j hj => hfresh j (List.mem_of_mem_tail hj)) (headOk_of_fresh hfresh)
  · rw [hstart]
    exact hq.start
  · rw [hstartbb]
    exact hq.startbb
  · rw [hstart]
    exact hq.start.trans hcount
  · rw [hstart] at hk
    exact hall k (hk.trans_le hq.start)
  · rw [hd, hstartbb]
    exact hq.drained

theorem Inv.pollTest {n : ℕ} (h : Inv P s) (hc : (s.thr t).code = .pollTest n :: rest) (a : Answer) :
    Inv P (exec P s t rest a (.pollTest n)) := by
  have hfresh := (h.thr t).fresh hc
  simp only [exec]
  split
  · refine h.goto (Inv.code_ne hc) s.lock ((h.thr t).polling (fun o b q hok => ?_) rfl rfl rfl rfl rfl ?_ hfresh
      trivial) rfl
    · rw [hc] at hok
      exact hok
    · rw [hc]
      rfl
  · refine h.goto (Inv.code_ne hc) s.lock ((h.thr t).polling (fun o b q hok => ?_) rfl rfl rfl rfl rfl ?_ hfresh
      trivial) rfl
    · rw [hc] at hok
      exact hok
    · rw [hc]
      rfl

theorem Inv.pollRead {n : ℕ} (h : Inv P s) (hc : (s.thr t).code = .pollRead n :: rest) (a : Answer) :
    Inv P (exec P s t rest a (.pollRead n)) := by
  have hfresh := (h.thr t).fresh hc
  refine h.goto (Inv.code_ne hc) s.lock ((h.thr t).polling (fun o b q hok => ?_) rfl rfl rfl rfl rfl ?_ hfresh ?_) rfl
  · rw [hc] at hok
    exact hok
  · rw [hc]
    rfl
  · exact le_refl s.put.count

theorem Inv.pollCmp {n : ℕ} (h : Inv P s) (hc : (s.thr t).code = .pollCmp n :: rest) (a : Answer) :
    Inv P (exec P s t rest a (.pollCmp n)) := by
  have hfresh := (h.thr t).fresh hc
  have hread : (s.thr t).success ≤ s.put.count := by
    have := (h.thr t).head
    simpa only [HeadOk, hc] using this
  simp only [exec]
  split
  · refine h.goto (Inv.code_ne hc) s.lock ((h.thr t).polling (fun o b q hok => ?_) rfl rfl rfl rfl rfl ?_ ?_ trivial) rfl
    · rw [hc] at hok
      exact hok
    · rw [hc]
      rfl
    · simp only [List.tail_cons, List.forall_mem_cons]
      exact ⟨rfl, rfl, hfresh⟩
  · rename_i hcmp
    have hcmp : s.put.pending ≤ (s.thr t).success := Nat.le_of_not_lt hcmp
    refine h.goto (Inv.code_ne hc) s.lock ((h.thr t).polled (fun o b q hok => ?_) rfl rfl rfl rfl
      (h.wf.read_then_compare h.sync hread hcmp) ?_ ?_ hfresh) rfl
    · rw [hc] at hok
      exact hok.2
    · exact (h.sync.symm.le.trans hcmp).trans hread
    · rw [hc]
      rfl

theorem Inv.waitFor (h : Inv P s) (hc : (s.thr t).code = .waitFor :: rest) (a : Answer) :
    Inv P (exec P s t rest a .waitFor) := by
  have hfresh := (h.thr t).fresh hc
  refine h.goto (Inv.code_ne hc) s.lock ((h.thr t).polling (fun o b q hok => ?_) rfl rfl rfl rfl rfl ?_ hfresh
    trivial) rfl
  · rw [hc] at hok
    exact hok
  · rw [hc]
    rfl

theorem Inv.cntrWait (h : Inv P s) (hc : (s.thr t).code = .cntrWait :: rest) (a : Answer) :
    Inv P (exec P s t rest a .cntrWait) := by
  have hfresh := (h.thr t).fresh hc
  simp only [exec]
  split
  · rename_i hle
    refine h.goto (Inv.code_ne hc) s.lock ((h.thr t).polling (fun o b q hok => ?_) rfl rfl rfl rfl rfl ?_ hfresh ?_) rfl
    · rw [hc] at hok
      exact hok
    · rw [hc]
      rfl
    · exact hle
  · exact h

theorem Inv.recheck (h : Inv P s) (hc : (s.thr t).code = .recheck :: rest) (a : Answer) :
    Inv P (exec P s t rest a .recheck) := by
  have hfresh := (h.thr t).fresh hc
  have hcnt : (s.thr t).cnt ≤ s.put.count := by
    have := (h.thr t).head
    simpa only [HeadOk, hc] using this
  simp only [exec]
  split
  · refine h.goto (Inv.code_ne hc) s.lock ((h.thr t).polling (fun o b q hok => ?_) rfl rfl rfl rfl rfl ?_ hfresh
      trivial) rfl
    · rw [hc] at hok
      exact hok
    · rw [hc]
      rfl
  · rename_i hcmp
    have hcmp : s.put.pending ≤ (s.thr t).cnt := Nat.le_of_not_lt hcmp
    -- what the wait has seen completed had been counted
    have heq : (s.thr t).cnt = s.put.pending := by
      have := h.wf.count_le
      have := h.sync
      omega
    have hflag : (s.failed || decide ((s.thr t).cnt ≠ s.put.pending)) = s.failed := by simp [heq]
    rw [hflag]
    refine h.goto (Inv.code_ne hc) s.lock ((h.thr t).polled (fun o b q hok => ?_) rfl rfl rfl rfl
      (h.wf.read_then_compare h.sync hcnt hcmp) ?_ ?_ hfresh) rfl
    · rw [hc] at hok
      exact hok.2
    · exact (h.sync.symm.le.trans hcmp).trans hcnt
    · rw [hc]
      rfl

theorem Inv.getWait (h : Inv P s) (hc : (s.thr t).code = .getWait :: rest) (a : Answer) :
    Inv P (exec P s t rest a .getWait) :=
  h.pop hc rfl s.lock

theorem Inv.appEnd (h : Inv P s) (hc : (s.thr t).code = .appEnd :: rest) (a : Answer) :
    Inv P (exec P s t rest a .appEnd) := by
  obtain ⟨o, b, q, hok, -⟩ := (h.thr t).code
  rw [hc] at hok
  obtain ⟨hout, -⟩ := hok
  have hx : ThrOk P s t { s.thr t with code := [] } :=
    ⟨⟨false, false, false, ⟨hout, rfl, rfl, rfl⟩, Bool.noConfusion, Bool.noConfusion, Bool.noConfusion⟩,
      fun j hj => absurd hj List.not_mem_nil, trivial⟩
  refine h.relock s.lock s.bbHolder none hx ⟨fun hser u hin => ?_, fun hser u hne => ?_⟩
  · by_cases hu : u = t
    · subst hu
      rw [setThr_thr_self] at hin
      exact absurd (hout.symm.trans hin) Bool.noConfusion
    · rw [setThr_thr_ne _ _ hu] at hin
      exact h.locks.bb hser u hin
  · by_cases hu : u = t
    · subst hu
      rw [setThr_thr_self] at hne
      exact absurd rfl hne
    · -- only the thread that is in a call has code
      rw [setThr_thr_ne _ _ hu] at hne
      have htu := (h.locks.app hser t (Inv.code_ne hc)).symm.trans (h.locks.app hser u hne)
      exact absurd (Option.some.inj htu).symm hu

/-- **One instruction.** -/
theorem Inv.exec (h : Inv P s) (hc : (s.thr t).code = i :: rest) (a : Answer) : Inv P (exec P s t rest a i) := by
  cases i with
  | ctxLock => exact h.ctxLock hc a
  | ctxUnlock => exact h.ctxUnlock hc a
  | inc => exact h.inc hc a
  | bbLock => exact h.bbLock hc a
  | bbUnlock => exact h.bbUnlock hc a
  | throttle => exact h.throttle hc a
  | bbAlloc => exact h.bbAlloc hc a
  | drain => exact h.drain hc a
  | drainAll => exact h.drainAll hc a
  | post bb => exact h.post hc a
  | quiet => exact h.quiet hc a
  | pollTest n => exact h.pollTest hc a
  | pollRead n => exact h.pollRead hc a
  | pollCmp n => exact h.pollCmp hc a
  | waitFor => exact h.waitFor hc a
  | cntrWait => exact h.cntrWait hc a
  | recheck => exact h.recheck hc a
  | quietEnd => exact h.quietEnd hc a
  | getWait => exact h.getWait hc a
  | appEnd => exact h.appEnd hc a

/-! ## Calls -/

/-- code that starts and ends with nothing held and nothing owed -/
def Fits (c : List Instr) : Prop :=
  (∀ r, CodeOk false false false false r → CodeOk false false false false (c ++ r)) ∧ ∀ i ∈ c, i.transient = false

theorem Fits.nil : Fits [] := ⟨fun _ hr => hr, fun _ hi => absurd hi List.not_mem_nil⟩

theorem Fits.append {c d : List Instr} (hc : Fits c) (hd : Fits d) : Fits (c ++ d) := by
  refine ⟨fun r hr => ?_, fun i hi => ?_⟩
  · rw [List.append_assoc]
    exact hc.1 _ (hd.1 _ hr)
  · exact (List.mem_append.mp hi).elim (hc.2 i) (hd.2 i)

theorem fits_lock : Fits [.ctxLock] := ⟨fun _ hr => hr, by decide⟩

theorem fits_unlock : Fits [.ctxUnlock] := ⟨fun _ hr => hr, by decide⟩

theorem fits_issue : Fits [.inc, .post false] := ⟨fun _ hr => ⟨rfl, rfl, rfl, rfl, hr⟩, by decide⟩

theorem fits_putScalar : Fits putScalar := ⟨fun _ hr => ⟨rfl, rfl, rfl, rfl, hr⟩, by decide⟩

theorem fits_fragments (n : ℕ) : Fits (fragments n) := by
  induction n with
  | zero => exact Fits.nil
  | succ n ih => exact fits_issue.append ih

theorem fits_putLarge (len : ℕ) : Fits (putLarge P len) := fits_lock.append ((fits_fragments _).append fits_unlock)

theorem fits_putNb (len : ℕ) : Fits (putNb P len) := by
  unfold putNb
  split
  · exact fits_putScalar
  · split
    · exact ⟨fun _ hr => ⟨rfl, rfl, rfl, rfl, rfl, rfl, rfl, rfl, hr⟩, by decide⟩
    · exact fits_putLarge len

theorem fits_putNbi (len : ℕ) : Fits (putNbi P len) := by
  unfold putNbi
  split
  · exact fits_putScalar
  · exact fits_putLarge len

theorem fits_getWait : Fits [.getWait] := ⟨fun _ hr => hr, by decide⟩

theorem fits_quiet : Fits [.quiet] := ⟨fun _ hr => ⟨rfl, rfl, hr⟩, by decide⟩

theorem fits_fence : Fits (fence P) := by
  unfold fence
  split
  · exact fits_getWait
  · exact fits_quiet.append fits_getWait

theorem fits_putSignalNbi (len : ℕ) : Fits (putSignalNbi P len) := by
  refine ((fits_putNbi len).append ?_).append fits_putScalar
  split
  · exact Fits.nil
  · exact fits_fence

theorem fits_atomicv (full_len max_atomic_size dtsize : ℕ) : Fits (atomicv P full_len max_atomic_size dtsize) := by
  refine fits_lock.append (Fits.append ?_ fits_unlock)
  split
  · exact fits_issue
  · split
    · exact ⟨fun _ hr => ⟨rfl, rfl, rfl, rfl, rfl, rfl, rfl, rfl, hr⟩, by decide⟩
    · exact fits_fragments _

theorem Call.fits (c : Call) : Fits (c.code P) := by
  cases c with
  | putScalar => exact fits_putScalar
  | putNb len => exact fits_putNb len
  | putNbi len => exact fits_putNbi len
  | putSignalNbi len => exact fits_putSignalNbi len
  | atomic => exact fits_putScalar
  | atomicv full_len max_atomic_size dtsize => exact fits_atomicv full_len max_atomic_size dtsize
  | putQuiet => exact fits_quiet

theorem fits_appEnd : Fits [.appEnd] := ⟨fun _ _ => ⟨rfl, rfl, rfl, rfl⟩, by decide⟩

theorem ThrOk.call {c : List Instr} (hout : x.inbb = false) (hc : Fits c) : ThrOk P s t { x with code := c } := by
  have hok := hc.1 [] ⟨rfl, rfl, rfl, rfl⟩
  rw [List.append_nil] at hok
  exact ⟨⟨false, false, false, hout ▸ hok, Bool.noConfusion, Bool.noConfusion, Bool.noConfusion⟩,
    fun j hj => hc.2 j (List.mem_of_mem_tail hj), headOk_of_fresh hc.2⟩

theorem Inv.call (h : Inv P s) (t : ℕ) (c : Call) : Inv P (step P s (.call t c)) := by
  simp only [step]
  split
  · rename_i hidle
    have hout : (s.thr t).inbb = false := by
      obtain ⟨o, b, q, hok, -⟩ := (h.thr t).code
      rw [hidle] at hok
      exact hok.1
    have hbb : ∀ (y : Thread) (app : Option ℕ), y.inbb = false → P.serial = false →
        ∀ u, (({ s with app := app }.setThr t y).thr u).inbb = true → s.bbHolder = some u := by
      intro y app hy hser u hin
      by_cases hu : u = t
      · subst hu
        rw [setThr_thr_self, hy] at hin
        exact absurd hin Bool.noConfusion
      · rw [setThr_thr_ne _ _ hu] at hin
        exact h.locks.bb hser u hin
    split
    · rename_i hser
      split
      · rename_i hfree
        refine h.relock s.lock s.bbHolder (some t) (ThrOk.call hout (c.fits.append fits_appEnd))
          ⟨hbb _ _ hout, fun _ u hne => ?_⟩
        by_cases hu : u = t
        · exact congrArg some hu.symm
        · rw [setThr_thr_ne _ _ hu] at hne
          exact absurd ((h.locks.app hser u hne).symm.trans hfree) (by simp)
      · exact h
    · rename_i hser
      exact h.relock s.lock s.bbHolder s.app (ThrOk.call hout c.fits) ⟨hbb _ _ hout, fun hf => absurd hf hser⟩
  · exact h

/-! ## Runs -/

theorem Inv.complete (h : Inv P s) (k : ℕ) : Inv P (step P s (.complete k)) := by
  simp only [step]
  split
  · rename_i hk
    have hlater : ∀ u, Later s { s with put := s.put.ack k } u := fun u =>
      ⟨Tally.le_ack _ _, le_refl _, le_refl _, fun _ hb => hb⟩
    exact ⟨h.wf.ack hk.1 hk.2, h.sync, ⟨h.bufs.nalloc, h.bufs.freed, h.bufs.unused, h.bufs.max⟩,
      ⟨h.locks.bb, h.locks.app⟩, h.failed, fun u => (h.thr u).later (hlater u) (.inl (le_refl _))⟩
  · exact h

theorem Inv.event (h : Inv P s) (b : ℕ) : Inv P (step P s (.event b)) := by
  simp only [step]
  split
  · rename_i hfly
    have hlater : ∀ u, Later s (s.setStage b .queued) u := by
      intro u
      refine ⟨Tally.Le.refl _, le_refl _, le_refl _, fun c hheld => ?_⟩
      have hne : c ≠ b := by
        rintro rfl
        exact absurd (hfly.symm.trans hheld) Stage.noConfusion
      exact (Function.update_of_ne hne _ _).trans hheld
    have hbufs : BufOk P (s.setStage b .queued) :=
      h.bufs.restage (by rw [hfly]; exact Stage.noConfusion) (by rw [hfly]; exact Stage.noConfusion)
        Stage.noConfusion rfl rfl rfl rfl
    exact ⟨h.wf, h.sync, hbufs, ⟨h.locks.bb, h.locks.app⟩, h.failed,
      fun u => (h.thr u).later (hlater u) (.inl (le_refl _))⟩
  · exact h

theorem inv_init : Inv P init := by
  refine ⟨Tally.wf_zero, rfl, ⟨rfl, rfl, fun _ _ => rfl, Nat.zero_le _⟩,
    ⟨fun _ _ hf => absurd hf Bool.noConfusion, fun _ _ hf => absurd rfl hf⟩, rfl, fun t => ?_⟩
  exact ThrOk.call (x := Thread.idle) rfl Fits.nil

theorem Inv.step (h : Inv P s) (o : Op) : Inv P (step P s o) := by
  cases o with
  | call t c => exact h.call t c
  | exec t a =>
    simp only [OfiQuiet.step]
    split
    · exact h
    · rename_i i rest hc
      exact h.exec hc a
  | complete k => exact h.complete k
  | event b => exact h.event b

theorem inv_run (ops : List Op) : Inv P (Runs.run (step P) init ops) :=
  Runs.run_inv (step P) (Inv P) (fun _ o h => h.step o) init inv_init ops

/-- where a quiet returns, everything it covers has completed -/
theorem Inv.returns (h : Inv P s) (hc : (s.thr t).code = .quietEnd :: rest) :
    (s.thr t).start ≤ s.put.count ∧ (∀ k < (s.thr t).start, s.put.acked k = true) ∧
      (P.bounce = false ∨ (s.thr t).startbb ≤ s.completed_bb_cntr) := by
  obtain ⟨o, b, q, hok, -, -, hq⟩ := (h.thr t).code
  rw [hc] at hok
  have hquiet := hq hok.1
  have hpolled := hquiet.polled
  have hdrained := hquiet.drained
  rw [hc] at hpolled hdrained
  have hdone := hpolled.resolve_left Bool.noConfusion
  exact ⟨hdone.1, hdone.2, hdrained.resolve_left Bool.noConfusion⟩

/-- **A quiet covers what was issued before it.** In every run, with any threads and any provider: where a quiet returns,
every operation counted before its call has completed, and if nothing was counted since, the performance counters of
issued and of completed writes are equal; the assertion at the end of a quiet never fails; and the bounce buffers in use
are those requested and not completed, never more than the limit. -/
theorem put_quiet_complete (P : Params) (ops : List Op) :
    let s := Runs.run (step P) init ops
    (∀ t rest, (s.thr t).code = .quietEnd :: rest → (∀ k < (s.thr t).start, s.put.acked k = true) ∧
        (s.put.pending = (s.thr t).start → s.pending_bb_cntr = (s.thr t).startbb →
          issuedWrite P s = completedWrite P s)) ∧
      s.failed = false ∧
      s.nalloc = s.pending_bb_cntr - s.completed_bb_cntr ∧ s.nalloc ≤ P.max_bounce_buffers := by
  intro s
  have h : Inv P s := inv_run ops
  have hcount := h.bufs.nalloc
  refine ⟨fun t rest hc => ?_, h.failed, by omega, h.bufs.max⟩
  obtain ⟨hstart, hall, hbb⟩ := h.returns hc
  refine ⟨hall, fun hsame hsamebb => ?_⟩
  have hle := h.wf.count_le
  have hsync := h.sync
  unfold issuedWrite completedWrite
  cases hb : P.bounce with
  | false =>
    simp only [Bool.false_eq_true, if_false]
    omega
  | true =>
    have hbb' := hbb.resolve_left (by simp [hb])
    simp only [if_true]
    omega

/-- bounce buffers of 64 bytes, one at a time; a quiet polls once -/
def small : Params := ⟨8, 64, 1024, 1, 1, true, false, true, false, false⟩

/-- a thread puts 16 bytes and waits for them: the first poll fails, and the operation completes during fi_cntr_wait -/
def putThenQuiet : List Op :=
  [Op.call 0 (.putNb 16)] ++ List.replicate 8 (Op.exec 0 .ok) ++ [Op.event 0, .call 0 .putQuiet] ++
    List.replicate 4 (Op.exec 0 .ok) ++ [Op.exec 0 (.event 0)] ++ List.replicate 10 (Op.exec 0 .ok) ++ [Op.complete 0] ++
      List.replicate 3 (Op.exec 0 .ok)

theorem put_quiet_complete_small :
    let s := Runs.run (step small) init putThenQuiet
    (s.thr 0).code = [.quietEnd] ∧ (s.thr 0).start = 1 ∧ (s.thr 0).startbb = 1 ∧ s.put.acked 0 = true ∧
      issuedWrite small s = completedWrite small s := by
  intro s
  have hcode : (s.thr 0).code = [.quietEnd] := by decide +kernel
  have hstart : (s.thr 0).start = 1 := by decide +kernel
  have hstartbb : (s.thr 0).startbb = 1 := by decide +kernel
  obtain ⟨hall, heq⟩ := (put_quiet_complete small putThenQuiet).1 0 [] hcode
  refine ⟨hcode, hstart, hstartbb, hall 0 ?_, heq ?_ ?_⟩
  · show 0 < (s.thr 0).start
    rw [hstart]
    exact Nat.one_pos
  · show s.put.pending = (s.thr 0).start
    rw [hstart]
    decide +kernel
  · show s.pending_bb_cntr = (s.thr 0).startbb
    rw [hstartbb]
    decide +kernel

end SandiaShmem.Transport.OfiQuiet
