/-
Quiet and fence of the Portals4 transport (`src/transport_portals4.h`, `src/transport_portals4.c`).

Every operation is counted before it is posted: in the pending_put_cntr of its context, or, when it goes through the event
queue (bounce-buffered and long transfers, vector atomics), in the one pending_put_event_cntr of the PE. Portals counts
acknowledgements in a counting event for each. A quiet waits for both. With total data ordering a fence is a quiet only
when long_pending is set, a flag of the PE that long transfers of all contexts set and a fence clears.

The threads of a PE are interleaved at every access to shared data. A thread holds the rest of its call as a list of
instructions; loops and branches put their instructions in front of the rest. Contexts are numbered in the order of their
creation; context 0 is the default one.

- `QInv`: every run in which no context is created once the event counter has been used.
- `quiet_acked`: quiet under this condition.
- `FInv`, `fence_acked`: fence, when a fence finds the flag set only for its own context or the event counter
  (`FenceApart`).
-/
import SandiaShmem.Core.Runs
import SandiaShmem.Core.Tally

namespace SandiaShmem.Transport.PtlQuiet

/-! ## Model -/

/-- the pairs of a pending counter and a counting event -/
inductive Cntr where
  /-- `pending_put_event_cntr` and `put_event_ct_h` -/
  | event
  /-- `pending_put_cntr` and `put_ct` of a context -/
  | put (ctx : ℕ)
  /-- `pending_get_cntr` and `get_ct` of a context -/
  | get (ctx : ℕ)
deriving DecidableEq, Repr

inductive Instr where
  /-- `shmem_internal_cntr_inc`, and the operation behind it -/
  | issue (q : Cntr)
  /-- `PtlPut`, `PtlAtomic` or `PtlGet` -/
  | post (q : Cntr)
  /-- `long_pending = 1` -/
  | setLong (ctx : ℕ)
  /-- `cnt_new = shmem_internal_cntr_read(..)` before the loop of a wait -/
  | waitFor (q : Cntr)
  /-- `cnt = cnt_new; PtlCTWait(.., cnt, ..)` -/
  | ctWait (q : Cntr)
  /-- `cnt_new = shmem_internal_cntr_read(..)`, and around the loop again if `cnt < cnt_new` -/
  | recheck (q : Cntr)
  /-- `0 != long_pending` -/
  | testLong (ctx : ℕ)
  /-- `long_pending = 0` -/
  | clearLong
  /-- the call returns -/
  | done
deriving DecidableEq, Repr

/-- the sizes the calls compare with -/
structure Sizes where
  max_volatile_size : ℕ
  bounce_buffer_size : ℕ
  max_atomic_size : ℕ

/-- `shmem_transport_put_scalar` and `shmem_transport_atomic` -/
def putScalar (ctx : ℕ) : List Instr := [.issue (.put ctx)]

/-- `shmem_transport_get` and the fetching atomics -/
def get (ctx : ℕ) : List Instr := [.issue (.get ctx)]

/-- `shmem_transport_put_nbi` -/
def putNbi (Z : Sizes) (ctx len : ℕ) : List Instr :=
  if len ≤ Z.max_volatile_size then [.issue (.put ctx)] else [.issue (.put ctx), .setLong ctx]

/-- `shmem_transport_put_nb`; `buffered` is the option SHMEMX_CTX_BOUNCE_BUFFER of the context. A bounce-buffered and a
long transfer differ in the buffer, not in the counters. -/
def putNb (Z : Sizes) (buffered : Bool) (ctx len : ℕ) : List Instr :=
  if buffered then
    if len ≤ Z.max_volatile_size then [.issue (.put ctx)] else [.issue .event, .setLong ctx]
  else putNbi Z ctx len

/-- how many operations `shmem_transport_atomicv` posts for a long transfer -/
def atomicvOps (Z : Sizes) (len : ℕ) : ℕ := (len + Z.max_atomic_size - 1) / Z.max_atomic_size

/-- `shmem_transport_atomicv` -/
def atomicv (Z : Sizes) (ctx len : ℕ) : List Instr :=
  if len ≤ Z.max_volatile_size then [.issue (.put ctx)]
  else if len ≤ min Z.bounce_buffer_size Z.max_atomic_size then [.issue .event, .setLong ctx]
  else List.replicate (atomicvOps Z len) (.issue .event) ++ [.setLong ctx]

/-- the waits of `shmem_transport_quiet` -/
def quietWaits (ctx : ℕ) : List Instr := [.waitFor (.get ctx), .waitFor .event, .waitFor (.put ctx)]

/-- `shmem_transport_fence` with total data ordering -/
def fence (ctx : ℕ) : List Instr := [.testLong ctx, .done]

/-- a call on a context -/
inductive Call where
  | putScalar
  | get
  | putNbi (len : ℕ)
  | putNb (buffered : Bool) (len : ℕ)
  | atomicv (len : ℕ)
  | quiet
  | fence
deriving DecidableEq, Repr

def Call.code (Z : Sizes) (ctx : ℕ) : Call → List Instr
  | .putScalar => PtlQuiet.putScalar ctx
  | .get => PtlQuiet.get ctx
  | .putNbi len => PtlQuiet.putNbi Z ctx len
  | .putNb buffered len => PtlQuiet.putNb Z buffered ctx len
  | .atomicv len => PtlQuiet.atomicv Z ctx len
  | .quiet => quietWaits ctx ++ [.done]
  | .fence => PtlQuiet.fence ctx

/-- the counters a quiet waits for -/
def quietCntrs (ctx : ℕ) : List Cntr := [.get ctx, .event, .put ctx]

/-- a thread: the rest of its call, the number of the operation it is issuing, its variables cnt and cnt_new, the
operations of its call so far; and what was issued (flagged) on the context when its quiet (fence) was called -/
structure Thread where
  code : List Instr
  cur : ℕ
  cnt : ℕ
  cnt_new : ℕ
  mine : List (Cntr × ℕ)
  start : Cntr → ℕ
  flags : List (Cntr × ℕ)

def Thread.idle : Thread := ⟨[], 0, 0, 0, [], fun _ => 0, []⟩

/-- the state; `flagged` are the operations of a context behind which long_pending was set, and `failed` says that an
assertion `cnt == cnt_new` has failed -/
structure St where
  tally : Cntr → Tally
  long_pending : Bool
  flagged : ℕ → List (Cntr × ℕ)
  thr : ℕ → Thread
  contexts : ℕ
  destroyed : ℕ → Bool
  failed : Bool

def init : St := ⟨fun _ => .zero, false, fun _ => [], fun _ => .idle, 1, fun _ => false, false⟩

/-- the context exists -/
def St.alive (s : St) (ctx : ℕ) : Prop := ctx < s.contexts ∧ s.destroyed ctx = false

instance (s : St) (ctx : ℕ) : Decidable (s.alive ctx) := inferInstanceAs (Decidable (_ ∧ _))

def St.setThr (s : St) (t : ℕ) (x : Thread) : St := { s with thr := Function.update s.thr t x }
def St.setTally (s : St) (q : Cntr) (T : Tally) : St := { s with tally := Function.update s.tally q T }

/-- thread t calls a transport function on a context -/
def enter (Z : Sizes) (s : St) (t ctx : ℕ) (c : Call) : St :=
  s.setThr t { s.thr t with
    code := c.code Z ctx
    mine := []
    start := fun q => if c = .quiet ∧ q ∈ quietCntrs ctx then (s.tally q).issued else 0
    flags := if c = .fence then s.flagged ctx else [] }

/-- thread t executes its next instruction, in front of `rest` -/
def exec (s : St) (t : ℕ) (rest : List Instr) : Instr → St
  | .issue q =>
    (s.setTally q (s.tally q).inc).setThr t { s.thr t with code := .post q :: rest, cur := (s.tally q).issued }
  | .post q =>
    (s.setTally q ((s.tally q).post (s.thr t).cur)).setThr t
      { s.thr t with code := rest, mine := (q, (s.thr t).cur) :: (s.thr t).mine }
  | .setLong ctx =>
    { s with
      long_pending := true
      flagged := Function.update s.flagged ctx ((s.thr t).mine ++ s.flagged ctx) }.setThr t { s.thr t with code := rest }
  | .waitFor q => s.setThr t { s.thr t with code := .ctWait q :: rest, cnt_new := (s.tally q).pending }
  | .ctWait q =>
    if (s.thr t).cnt_new ≤ (s.tally q).count then
      s.setThr t { s.thr t with code := .recheck q :: rest, cnt := (s.thr t).cnt_new }
    else s
  | .recheck q =>
    if (s.thr t).cnt < (s.tally q).pending then
      s.setThr t { s.thr t with code := .ctWait q :: rest, cnt_new := (s.tally q).pending }
    else
      { s with failed := s.failed || decide ((s.thr t).cnt ≠ (s.tally q).pending) }.setThr t
        { s.thr t with code := rest, cnt_new := (s.tally q).pending }
  | .testLong ctx =>
    if s.long_pending then s.setThr t { s.thr t with code := quietWaits ctx ++ .clearLong :: rest }
    else s.setThr t { s.thr t with code := rest }
  | .clearLong => { s with long_pending := false }.setThr t { s.thr t with code := rest }
  | .done => s.setThr t { s.thr t with code := rest }

/-- what can happen -/
inductive Op where
  | call (t ctx : ℕ) (c : Call)
  | exec (t : ℕ)
  /-- Portals acknowledges an operation -/
  | ack (q : Cntr) (k : ℕ)
  /-- `shmem_transport_ctx_create` -/
  | create
  /-- `shmem_transport_ctx_destroy` -/
  | destroy (ctx : ℕ)
deriving DecidableEq, Repr

/-- one step; what is not possible changes nothing -/
def step (Z : Sizes) (s : St) : Op → St
  | .call t ctx c => if (s.thr t).code = [] ∧ s.alive ctx then enter Z s t ctx c else s
  | .exec t =>
    match (s.thr t).code with
    | [] => s
    | i :: rest => exec s t rest i
  | .ack q k =>
    if (s.tally q).posted k = true ∧ (s.tally q).acked k = false then s.setTally q ((s.tally q).ack k) else s
  | .create =>
    -- the creation writes 0 to pending_put_event_cntr; the new context has counters of its own
    { s.setTally .event ((s.tally .event).write 0) with contexts := s.contexts + 1 }
  | .destroy ctx => { s with destroyed := Function.update s.destroyed ctx true }

/-! ## Threads -/

@[simp] theorem setThr_tally (s : St) (t : ℕ) (x : Thread) : (s.setThr t x).tally = s.tally := rfl
@[simp] theorem setThr_failed (s : St) (t : ℕ) (x : Thread) : (s.setThr t x).failed = s.failed := rfl
@[simp] theorem setThr_flagged (s : St) (t : ℕ) (x : Thread) : (s.setThr t x).flagged = s.flagged := rfl
@[simp] theorem setThr_long (s : St) (t : ℕ) (x : Thread) : (s.setThr t x).long_pending = s.long_pending := rfl
@[simp] theorem setTally_thr (s : St) (q : Cntr) (T : Tally) : (s.setTally q T).thr = s.thr := rfl
@[simp] theorem setTally_failed (s : St) (q : Cntr) (T : Tally) : (s.setTally q T).failed = s.failed := rfl
@[simp] theorem setTally_flagged (s : St) (q : Cntr) (T : Tally) : (s.setTally q T).flagged = s.flagged := rfl
@[simp] theorem setTally_long (s : St) (q : Cntr) (T : Tally) : (s.setTally q T).long_pending = s.long_pending := rfl

@[simp] theorem setThr_thr_self (s : St) (t : ℕ) (x : Thread) : (s.setThr t x).thr t = x := by simp [St.setThr]

theorem setThr_thr_other (s : St) {t t' : ℕ} (x : Thread) (h : t' ≠ t) : (s.setThr t x).thr t' = s.thr t' := by
  simp [St.setThr, h]

@[simp] theorem setTally_tally_self (s : St) (q : Cntr) (T : Tally) : (s.setTally q T).tally q = T := by
  simp [St.setTally]

theorem setTally_tally_other (s : St) {q q' : Cntr} (T : Tally) (h : q' ≠ q) : (s.setTally q T).tally q' = s.tally q' := by
  simp [St.setTally, h]

/-- the instructions calls are made of; the others only come first, in the middle of one of these -/
def Instr.fresh : Instr → Bool
  | .post _ => false
  | .ctWait _ => false
  | .recheck _ => false
  | _ => true

/-- the rest of the call has a wait for q in it -/
def Waiting (q : Cntr) (code : List Instr) : Prop :=
  .waitFor q ∈ code ∨ .ctWait q ∈ code ∨ .recheck q ∈ code

/-- a thread beside the counters -/
structure ThrOk (tally : Cntr → Tally) (x : Thread) : Prop where
  tail : ∀ i ∈ x.code.tail, i.fresh = true
  cur : ∀ q rest, x.code = .post q :: rest → x.cur < (tally q).issued
  waited : ∀ q rest, x.code = .recheck q :: rest → x.cnt ≤ (tally q).count
  start : ∀ q, ∀ k < x.start q, k < (tally q).issued ∧ ((tally q).acked k = true ∨ Waiting q x.code)

theorem ThrOk.mono {tally tally' : Cntr → Tally} {x : Thread} (h : ThrOk tally x)
    (hle : ∀ q, (tally q).Le (tally' q)) : ThrOk tally' x := by
  refine ⟨h.tail, fun q rest hc => ?_, fun q rest hc => ?_, fun q k hk => ?_⟩
  · exact lt_of_lt_of_le (h.cur q rest hc) (hle q).issued
  · exact le_trans (h.waited q rest hc) (hle q).count
  · obtain ⟨hlt, hack⟩ := h.start q k hk
    exact ⟨lt_of_lt_of_le hlt (hle q).issued, hack.imp_left ((hle q).acked k)⟩

/-- a thread that goes on with instructions of calls -/
theorem ThrOk.of_fresh {tally : Cntr → Tally} {x : Thread} (hf : ∀ i ∈ x.code, i.fresh = true)
    (hs : ∀ q, ∀ k < x.start q, k < (tally q).issued ∧ ((tally q).acked k = true ∨ Waiting q x.code)) :
    ThrOk tally x := by
  refine ⟨fun i hi => hf i (List.mem_of_mem_tail hi), fun q rest hc => ?_, fun q rest hc => ?_, hs⟩
  · exact absurd (hf (.post q) (by rw [hc]; exact List.mem_cons_self)) (by simp [Instr.fresh])
  · exact absurd (hf (.recheck q) (by rw [hc]; exact List.mem_cons_self)) (by simp [Instr.fresh])

theorem Waiting.of_cons {q : Cntr} {i : Instr} {rest : List Instr} (h : Waiting q (i :: rest)) (h1 : i ≠ .waitFor q)
    (h2 : i ≠ .ctWait q) (h3 : i ≠ .recheck q) : Waiting q rest := by
  rcases h with h | h | h
  · exact Or.inl ((List.mem_cons.mp h).resolve_left h1.symm)
  · exact Or.inr (Or.inl ((List.mem_cons.mp h).resolve_left h2.symm))
  · exact Or.inr (Or.inr ((List.mem_cons.mp h).resolve_left h3.symm))

theorem Waiting.cons {q : Cntr} {rest : List Instr} (h : Waiting q rest) (i : Instr) : Waiting q (i :: rest) := by
  rcases h with h | h | h
  · exact Or.inl (List.mem_cons_of_mem _ h)
  · exact Or.inr (Or.inl (List.mem_cons_of_mem _ h))
  · exact Or.inr (Or.inr (List.mem_cons_of_mem _ h))

/-- a wait that begins or goes on -/
theorem Waiting.change {q q' : Cntr} {i i' : Instr} {rest : List Instr} (h : Waiting q' (i :: rest))
    (hi : i = .waitFor q ∨ i = .ctWait q ∨ i = .recheck q) (hi' : i' = .ctWait q ∨ i' = .recheck q) :
    Waiting q' (i' :: rest) := by
  by_cases hq : q' = q
  · subst hq
    rcases hi' with rfl | rfl
    · exact Or.inr (Or.inl List.mem_cons_self)
    · exact Or.inr (Or.inr List.mem_cons_self)
  · refine Waiting.cons (h.of_cons ?_ ?_ ?_) _
    all_goals rcases hi with rfl | rfl | rfl <;> simp [Ne.symm hq]

/-! ## Quiet -/

/-- counters, threads, and the assertion -/
structure QInv (s : St) : Prop where
  wf : ∀ q, (s.tally q).WF
  sync : ∀ q, (s.tally q).pending = (s.tally q).issued
  thr : ∀ t, ThrOk s.tally (s.thr t)
  ok : s.failed = false

theorem QInv.init : QInv init :=
  ⟨fun _ => Tally.wf_zero, fun _ => rfl, fun _ => ThrOk.of_fresh (by simp [PtlQuiet.init, Thread.idle])
    (by simp [PtlQuiet.init, Thread.idle]), rfl⟩

/-- one thread moves, and the counters only grow -/
theorem QInv.update {s s' : St} {t : ℕ} (h : QInv s) (hwf : ∀ q, (s'.tally q).WF)
    (hsync : ∀ q, (s'.tally q).pending = (s'.tally q).issued) (hle : ∀ q, (s.tally q).Le (s'.tally q))
    (hother : ∀ t' ≠ t, s'.thr t' = s.thr t') (ht : ThrOk s'.tally (s'.thr t)) (hok : s'.failed = false) : QInv s' := by
  refine ⟨hwf, hsync, fun t' => ?_, hok⟩
  by_cases htt : t' = t
  · exact htt ▸ ht
  · rw [hother t' htt]
    exact (h.thr t').mono hle

/-- the counters stay as they are -/
theorem QInv.update_thr {s s' : St} {t : ℕ} (h : QInv s) (htally : s'.tally = s.tally)
    (hother : ∀ t' ≠ t, s'.thr t' = s.thr t') (ht : ThrOk s.tally (s'.thr t)) (hok : s'.failed = false) : QInv s' := by
  refine h.update (t := t) ?_ ?_ ?_ hother (by rw [htally]; exact ht) hok
  · intro q; rw [htally]; exact h.wf q
  · intro q; rw [htally]; exact h.sync q
  · intro q; rw [htally]; exact Tally.Le.refl _

theorem QInv.setTally {s : St} (h : QInv s) {q : Cntr} {T : Tally} (hwf : T.WF) (hsync : T.pending = T.issued)
    (hle : (s.tally q).Le T) : QInv (s.setTally q T) := by
  have hcases : ∀ q', (s.setTally q T).tally q' = if q' = q then T else s.tally q' := by
    intro q'
    split_ifs with hq
    · subst hq; simp
    · exact setTally_tally_other s T hq
  refine ⟨fun q' => ?_, fun q' => ?_, fun t => (h.thr t).mono fun q' => ?_, h.ok⟩
  · rw [hcases]; split_ifs
    · exact hwf
    · exact h.wf q'
  · rw [hcases]; split_ifs
    · exact hsync
    · exact h.sync q'
  · rw [hcases]; split_ifs with hq
    · exact hq ▸ hle
    · exact Tally.Le.refl _

theorem fresh_code (Z : Sizes) (ctx : ℕ) (c : Call) : ∀ i ∈ c.code Z ctx, i.fresh = true := by
  intro i hi
  cases c with
  | putScalar => simp [Call.code, putScalar] at hi; rw [hi]; rfl
  | get => simp [Call.code, get] at hi; rw [hi]; rfl
  | putNbi len =>
    simp only [Call.code, putNbi] at hi
    split_ifs at hi
    all_goals simp at hi; rcases hi with rfl | rfl <;> rfl
  | putNb buffered len =>
    simp only [Call.code, putNb, putNbi] at hi
    split_ifs at hi
    all_goals simp at hi; rcases hi with rfl | rfl <;> rfl
  | atomicv len =>
    simp only [Call.code, atomicv] at hi
    split_ifs at hi
    · simp at hi; rw [hi]; rfl
    · simp at hi; rcases hi with rfl | rfl <;> rfl
    · rcases List.mem_append.mp hi with hi | hi
      · rw [(List.mem_replicate.mp hi).2]; rfl
      · rw [List.mem_singleton.mp hi]; rfl
  | quiet =>
    simp [Call.code, quietWaits] at hi
    rcases hi with rfl | rfl | rfl | rfl <;> rfl
  | fence =>
    simp [Call.code, fence] at hi
    rcases hi with rfl | rfl <;> rfl

/-- a call begins -/
theorem QInv.enter {s : St} (h : QInv s) (Z : Sizes) (t ctx : ℕ) (c : Call) : QInv (enter Z s t ctx c) := by
  refine h.update_thr (t := t) rfl (fun t' ht => setThr_thr_other _ _ ht) ?_ h.ok
  rw [PtlQuiet.enter, setThr_thr_self]
  refine ThrOk.of_fresh (fresh_code Z ctx c) ?_
  intro q k hk
  dsimp only at hk ⊢
  split_ifs at hk with hq
  · obtain ⟨rfl, hq⟩ := hq
    refine ⟨hk, Or.inr (Or.inl ?_)⟩
    simp only [quietCntrs, List.mem_cons, List.not_mem_nil, or_false] at hq
    rcases hq with rfl | rfl | rfl <;> simp [Call.code, quietWaits]
  · omega

/-- an instruction that leaves the rest of the call, when nothing that is waited for depends on it -/
theorem ThrOk.pop {tally : Cntr → Tally} {x y : Thread} {i : Instr} {rest : List Instr} (h : ThrOk tally x)
    (hc : x.code = i :: rest) (hy : y.code = rest) (hstart : y.start = x.start)
    (hi : ∀ q, ∀ k < x.start q, (tally q).acked k = true ∨ (i ≠ .waitFor q ∧ i ≠ .ctWait q ∧ i ≠ .recheck q)) :
    ThrOk tally y := by
  refine ThrOk.of_fresh (fun j hj => ?_) (fun q k hk => ?_)
  · rw [hy] at hj
    exact h.tail j (by rw [hc]; exact hj)
  · rw [hstart] at hk
    obtain ⟨hlt, hack | hw⟩ := h.start q k hk
    · exact ⟨hlt, Or.inl hack⟩
    · refine ⟨hlt, ?_⟩
      rcases hi q k hk with hack | ⟨h1, h2, h3⟩
      · exact Or.inl hack
      · rw [hc] at hw
        rw [hy]
        exact Or.inr (hw.of_cons h1 h2 h3)

/-- the tail of a call stays behind a new first instruction -/
theorem ThrOk.swap {tally : Cntr → Tally} {x y : Thread} {i j : Instr} {rest : List Instr} (h : ThrOk tally x)
    (hc : x.code = i :: rest) (hy : y.code = j :: rest) (hstart : y.start = x.start)
    (hcur : ∀ q, j = .post q → y.cur < (tally q).issued) (hcnt : ∀ q, j = .recheck q → y.cnt ≤ (tally q).count)
    (hw : ∀ q, Waiting q (i :: rest) → Waiting q (j :: rest)) : ThrOk tally y := by
  refine ⟨fun k hk => ?_, fun q r hq => ?_, fun q r hq => ?_, fun q k hk => ?_⟩
  · rw [hy] at hk
    exact h.tail k (by rw [hc]; exact hk)
  · rw [hy, List.cons.injEq] at hq
    exact hcur q hq.1
  · rw [hy, List.cons.injEq] at hq
    exact hcnt q hq.1
  · rw [hstart] at hk
    obtain ⟨hlt, hack⟩ := h.start q k hk
    rw [hc] at hack
    rw [hy]
    exact ⟨hlt, hack.imp_right (hw q)⟩

/-- **An instruction.** -/
theorem QInv.exec {s : St} (h : QInv s) {t : ℕ} {i : Instr} {rest : List Instr} (hc : (s.thr t).code = i :: rest) :
    QInv (exec s t rest i) := by
  have ht := h.thr t
  cases i with
  | issue q =>
    have h1 := h.setTally (h.wf q).inc (congrArg (· + 1) (h.sync q)) (Tally.le_inc _)
    refine h1.update_thr (t := t) rfl (fun t' ht => setThr_thr_other _ _ ht) ?_ h.ok
    rw [PtlQuiet.exec, setThr_thr_self]
    refine (h1.thr t).swap hc rfl rfl ?_ (by simp) ?_
    · intro q' hq
      simp only [Instr.post.injEq] at hq
      subst hq
      simp [Tally.inc]
    · intro q' hw
      exact (hw.of_cons (by simp) (by simp) (by simp)).cons _
  | post q =>
    have hlt := ht.cur q rest hc
    have h1 := h.setTally ((h.wf q).post hlt) (h.sync q) (Tally.le_post _ _)
    refine h1.update_thr (t := t) rfl (fun t' ht => setThr_thr_other _ _ ht) ?_ h.ok
    rw [PtlQuiet.exec, setThr_thr_self]
    exact (h1.thr t).pop hc rfl rfl fun q k _ => Or.inr (by simp)
  | setLong ctx =>
    refine h.update_thr (t := t) rfl (fun t' ht => setThr_thr_other _ _ ht) ?_ h.ok
    rw [PtlQuiet.exec, setThr_thr_self]
    exact ht.pop hc rfl rfl fun q k _ => Or.inr (by simp)
  | waitFor q =>
    refine h.update_thr (t := t) rfl (fun t' ht => setThr_thr_other _ _ ht) ?_ h.ok
    rw [PtlQuiet.exec, setThr_thr_self]
    exact ht.swap hc rfl rfl (by simp) (by simp) fun q' hw => hw.change (Or.inl rfl) (Or.inl rfl)
  | ctWait q =>
    rw [PtlQuiet.exec]
    split_ifs with hwait
    · refine h.update_thr (t := t) rfl (fun t' ht => setThr_thr_other _ _ ht) ?_ h.ok
      rw [setThr_thr_self]
      refine ht.swap hc rfl rfl (by simp) ?_ fun q' hw => hw.change (Or.inr (Or.inl rfl)) (Or.inr rfl)
      intro q' hq
      simp only [Instr.recheck.injEq] at hq
      exact hq ▸ hwait
    · exact h
  | recheck q =>
    have hle := ht.waited q rest hc
    rw [PtlQuiet.exec]
    split_ifs with hmore
    · refine h.update_thr (t := t) rfl (fun t' ht => setThr_thr_other _ _ ht) ?_ h.ok
      rw [setThr_thr_self]
      exact ht.swap hc rfl rfl (by simp) (by simp) fun q' hw => hw.change (Or.inr (Or.inr rfl)) (Or.inl rfl)
    · -- as many have been acknowledged as have been issued
      have hcount := (h.wf q).count_le
      have hsync := h.sync q
      have hall := (h.wf q).all_acked (by omega)
      refine h.update_thr (t := t) rfl (fun t' ht => setThr_thr_other _ _ ht) ?_ ?_
      · rw [setThr_thr_self]
        refine ht.pop hc rfl rfl fun q' k hk => ?_
        by_cases hq : q' = q
        · subst hq
          exact Or.inl (hall k (ht.start q' k hk).1)
        · exact Or.inr ⟨by simp, by simp, by simpa using Ne.symm hq⟩
      · rw [setThr_failed]
        simp only [h.ok, Bool.false_or, decide_eq_false_iff_not, not_not]
        omega
  | testLong ctx =>
    rw [PtlQuiet.exec]
    split_ifs with hlong
    · refine h.update_thr (t := t) rfl (fun t' ht => setThr_thr_other _ _ ht) ?_ h.ok
      rw [setThr_thr_self]
      refine ThrOk.of_fresh (fun j hj => ?_) (fun q k hk => ?_)
      · simp only [quietWaits, List.cons_append, List.nil_append, List.mem_cons] at hj
        rcases hj with rfl | rfl | rfl | rfl | hj
        · rfl
        · rfl
        · rfl
        · rfl
        · exact ht.tail j (by rw [hc]; exact hj)
      · obtain ⟨hlt, hack | hw⟩ := ht.start q k hk
        · exact ⟨hlt, Or.inl hack⟩
        · rw [hc] at hw
          have hrest := hw.of_cons (by simp) (by simp) (by simp)
          exact ⟨hlt, Or.inr ((((hrest.cons _).cons _).cons _).cons _)⟩
    · refine h.update_thr (t := t) rfl (fun t' ht => setThr_thr_other _ _ ht) ?_ h.ok
      rw [setThr_thr_self]
      exact ht.pop hc rfl rfl fun q k _ => Or.inr (by simp)
  | clearLong =>
    refine h.update_thr (t := t) rfl (fun t' ht => setThr_thr_other _ _ ht) ?_ h.ok
    rw [PtlQuiet.exec, setThr_thr_self]
    exact ht.pop hc rfl rfl fun q k _ => Or.inr (by simp)
  | done =>
    refine h.update_thr (t := t) rfl (fun t' ht => setThr_thr_other _ _ ht) ?_ h.ok
    rw [PtlQuiet.exec, setThr_thr_self]
    exact ht.pop hc rfl rfl fun q k _ => Or.inr (by simp)

/-- no context is created once an operation has been counted in the event counter -/
def CreatesEarly (s : St) : Op → Prop
  | .create => (s.tally .event).pending = 0
  | _ => True

instance (s : St) (o : Op) : Decidable (CreatesEarly s o) := by
  unfold CreatesEarly
  split <;> infer_instance

theorem QInv.step {s : St} (Z : Sizes) {o : Op} (hcond : CreatesEarly s o) (h : QInv s) : QInv (step Z s o) := by
  cases o with
  | call t ctx c =>
    rw [PtlQuiet.step]
    split_ifs
    · exact h.enter Z t ctx c
    · exact h
  | exec t =>
    rw [PtlQuiet.step]
    split
    · exact h
    · rename_i i rest hc
      exact h.exec hc
  | ack q k =>
    rw [PtlQuiet.step]
    split_ifs with hk
    · exact h.setTally ((h.wf q).ack hk.1 hk.2) (h.sync q) (Tally.le_ack _ _)
    · exact h
  | create =>
    -- the counter is zero already
    have h0 : (s.tally .event).pending = 0 := hcond
    have hsync : ((s.tally .event).write 0).pending = ((s.tally .event).write 0).issued := by
      rw [Tally.write, ← h0]
      exact h.sync .event
    have h1 := h.setTally ((h.wf .event).write 0) hsync (Tally.le_write _ _)
    exact ⟨h1.wf, h1.sync, h1.thr, h1.ok⟩
  | destroy ctx => exact ⟨h.wf, h.sync, h.thr, h.ok⟩

theorem not_waiting_done (q : Cntr) : ¬ Waiting q [.done] := by
  rintro (h | h | h) <;> simp at h

/-- **Quiet waits for every earlier operation.** In every run in which contexts are created only before the event counter
is used: no assertion fails, and when a quiet returns, every operation that had been issued on its context when it was
called has been acknowledged, those of the event counter included. -/
theorem quiet_acked (Z : Sizes) (ops : List Op) (hops : Runs.Meets (step Z) CreatesEarly init ops) :
    let s := Runs.run (step Z) init ops
    s.failed = false ∧
      ∀ t, (s.thr t).code = [.done] → ∀ q, ∀ k < (s.thr t).start q, (s.tally q).acked k = true := by
  have h := Runs.run_inv_meets (step Z) CreatesEarly QInv (fun _ _ hc h => h.step Z hc) init QInv.init ops hops
  refine ⟨h.ok, fun t hcode q k hk => ?_⟩
  refine ((h.thr t).start q k hk).2.resolve_right ?_
  rw [hcode]
  exact not_waiting_done q

/-- volatile transfers of up to 8 bytes -/
def sizes : Sizes := ⟨8, 64, 64⟩

/-- a buffered put on a new context, its acknowledgement, and a quiet -/
def putQuiet : List Op :=
  [.create, .call 0 1 (.putNb true 64), .exec 0, .exec 0, .exec 0, .call 0 1 .quiet, .exec 0, .exec 0, .exec 0, .exec 0,
    .ack .event 0, .exec 0, .exec 0, .exec 0, .exec 0, .exec 0]

instance meetsDecidable (Z : Sizes) (s : St) (ops : List Op) : Decidable (Runs.Meets (step Z) CreatesEarly s ops) :=
  match ops with
  | [] => inferInstanceAs (Decidable True)
  | o :: ops =>
    have := meetsDecidable Z (step Z s o) ops
    inferInstanceAs (Decidable (_ ∧ _))

theorem quiet_acked_put :
    ((Runs.run (step sizes) init putQuiet).thr 0).code = [.done] ∧
      ((Runs.run (step sizes) init putQuiet).tally .event).acked 0 = true := by
  have hcode : ((Runs.run (step sizes) init putQuiet).thr 0).code = [.done] := by decide
  exact ⟨hcode, (quiet_acked sizes putQuiet (by decide)).2 0 hcode .event 0 (by decide)⟩

/-- **A creation hides the operations counted before it.** A buffered put is acknowledged, a context is created, and a
second buffered put is issued: the quiet behind it returns without its acknowledgement. -/
theorem create_breaks_quiet :
    ¬ ∀ (Z : Sizes) (ops : List Op),
      (Runs.run (step Z) init ops).failed = false ∧
        ∀ t, ((Runs.run (step Z) init ops).thr t).code = [.done] →
          ∀ q, ∀ k < ((Runs.run (step Z) init ops).thr t).start q, ((Runs.run (step Z) init ops).tally q).acked k = true := by
  intro h
  have hack := (h sizes [.call 0 0 (.putNb true 64), .exec 0, .exec 0, .exec 0, .ack .event 0, .create,
    .call 0 0 (.putNb true 64), .exec 0, .exec 0, .exec 0, .call 0 0 .quiet, .exec 0, .exec 0, .exec 0, .exec 0, .exec 0,
    .exec 0, .exec 0, .exec 0, .exec 0]).2 0 (by decide) .event 1 (by decide)
  exact absurd hack (by decide)

/-! ## Fence -/

/-- the counters of the long and buffered transfers of a context -/
def putCntrs (ctx : ℕ) : List Cntr := [.event, .put ctx]

theorem putCntrs_subset (ctx : ℕ) : putCntrs ctx ⊆ quietCntrs ctx := List.subset_cons_self _ _

/-- a thread beside the flagged operations -/
structure FThr (tally : Cntr → Tally) (flagged : ℕ → List (Cntr × ℕ)) (x : Thread) : Prop where
  /-- what a call with a long transfer has posted is waited for by a quiet on its context -/
  mine : ∀ ctx, .setLong ctx ∈ x.code →
    (∀ y ∈ x.mine, y.1 ∈ putCntrs ctx ∧ y.2 < (tally y.1).issued) ∧
      ∀ q, .issue q ∈ x.code ∨ .post q ∈ x.code → q ∈ putCntrs ctx
  /-- what a fence has to wait for has been acknowledged, or is waited for, or the flag has still to be tested -/
  flags : ∀ y ∈ x.flags, y.2 < (tally y.1).issued ∧
    ((tally y.1).acked y.2 = true ∨ Waiting y.1 x.code ∨ ∃ ctx, .testLong ctx ∈ x.code ∧ y ∈ flagged ctx)

theorem FThr.mono {tally tally' : Cntr → Tally} {flagged flagged' : ℕ → List (Cntr × ℕ)} {x : Thread}
    (h : FThr tally flagged x) (hle : ∀ q, (tally q).Le (tally' q)) (hfl : ∀ ctx, flagged ctx ⊆ flagged' ctx) :
    FThr tally' flagged' x := by
  refine ⟨fun ctx hs => ?_, fun y hy => ?_⟩
  · obtain ⟨h1, h2⟩ := h.mine ctx hs
    exact ⟨fun y hy => ⟨(h1 y hy).1, lt_of_lt_of_le (h1 y hy).2 (hle _).issued⟩, h2⟩
  · obtain ⟨hlt, hcase⟩ := h.flags y hy
    refine ⟨lt_of_lt_of_le hlt (hle _).issued, ?_⟩
    rcases hcase with hack | hw | ⟨ctx, htest, hmem⟩
    · exact Or.inl ((hle _).acked _ hack)
    · exact Or.inr (Or.inl hw)
    · exact Or.inr (Or.inr ⟨ctx, htest, hfl ctx hmem⟩)

/-- what a thread does before it clears the flag -/
def beforeClear (code : List Instr) : List Instr := code.takeWhile fun i => i ≠ .clearLong

theorem beforeClear_cons {i : Instr} (h : i ≠ .clearLong) (rest : List Instr) :
    beforeClear (i :: rest) = i :: beforeClear rest := List.takeWhile_cons_of_pos (decide_eq_true h)

/-- before a fence clears the flag it waits for the flagged operations that have not been acknowledged -/
def Drains (tally : Cntr → Tally) (flagged : ℕ → List (Cntr × ℕ)) (code : List Instr) : Prop :=
  .clearLong ∈ code → ∀ ctx, ∀ y ∈ flagged ctx, (tally y.1).acked y.2 = true ∨ Waiting y.1 (beforeClear code)

section
variable {tally tally' : Cntr → Tally} {flagged : ℕ → List (Cntr × ℕ)} {i j : Instr} {rest : List Instr}

theorem Drains.mono {code : List Instr} (h : Drains tally flagged code) (hle : ∀ q, (tally q).Le (tally' q)) :
    Drains tally' flagged code := fun hc ctx y hy => (h hc ctx y hy).imp_left ((hle _).acked _)

theorem Drains.pop (h : Drains tally flagged (i :: rest))
    (hi : i ≠ .clearLong ∨ ∀ ctx, ∀ y ∈ flagged ctx, (tally y.1).acked y.2 = true)
    (hw : ∀ ctx, ∀ y ∈ flagged ctx, (tally y.1).acked y.2 = true ∨
      (i ≠ .waitFor y.1 ∧ i ≠ .ctWait y.1 ∧ i ≠ .recheck y.1)) : Drains tally flagged rest := by
  intro hc ctx y hy
  rcases hi with hi | hall
  · rcases h (List.mem_cons_of_mem _ hc) ctx y hy with hack | hwait
    · exact .inl hack
    · rw [beforeClear_cons hi] at hwait
      exact (hw ctx y hy).imp_right fun hne => hwait.of_cons hne.1 hne.2.1 hne.2.2
  · exact .inl (hall ctx y hy)

theorem Drains.swap (h : Drains tally flagged (i :: rest)) (hi : i ≠ .clearLong) (hj : j ≠ .clearLong)
    (hw : ∀ q rest, Waiting q (i :: rest) → Waiting q (j :: rest)) : Drains tally flagged (j :: rest) := by
  intro hc ctx y hy
  have hc := (List.mem_cons.mp hc).resolve_left (Ne.symm hj)
  refine (h (List.mem_cons_of_mem _ hc) ctx y hy).imp_right fun hwait => ?_
  rw [beforeClear_cons hi] at hwait
  rw [beforeClear_cons hj]
  exact hw _ _ hwait

theorem Drains.of_not_mem {code : List Instr} (h : .clearLong ∉ code) : Drains tally flagged code :=
  fun hc => absurd hc h

end

theorem clearLong_notMem (Z : Sizes) (ctx : ℕ) (c : Call) : .clearLong ∉ c.code Z ctx := by
  cases c with
  | putScalar => simp [Call.code, putScalar]
  | get => simp [Call.code, get]
  | putNbi len =>
    simp only [Call.code, putNbi]
    split_ifs <;> simp
  | putNb buffered len =>
    simp only [Call.code, putNb, putNbi]
    split_ifs <;> simp
  | atomicv len =>
    simp only [Call.code, atomicv]
    split_ifs <;> simp
  | quiet => simp [Call.code, quietWaits]
  | fence => simp [Call.code, fence]

/-- flagged operations, what a flag that is not set means, and what fences wait for before they clear it -/
structure FInv (s : St) : Prop where
  quiet : QInv s
  flagged : ∀ ctx, ∀ y ∈ s.flagged ctx, y.1 ∈ putCntrs ctx ∧ y.2 < (s.tally y.1).issued
  clear : s.long_pending = false → ∀ ctx, ∀ y ∈ s.flagged ctx, (s.tally y.1).acked y.2 = true
  thr : ∀ t, FThr s.tally s.flagged (s.thr t)
  drains : ∀ t, Drains s.tally s.flagged (s.thr t).code

theorem FInv.init : FInv init :=
  ⟨QInv.init, fun _ _ hy => absurd hy (by simp [PtlQuiet.init]), fun _ _ _ hy => absurd hy (by simp [PtlQuiet.init]),
    fun _ => ⟨fun _ hs => absurd hs (by simp [PtlQuiet.init, Thread.idle]),
      fun _ hy => absurd hy (by simp [PtlQuiet.init, Thread.idle])⟩,
    fun _ => Drains.of_not_mem (by simp [PtlQuiet.init, Thread.idle])⟩

/-- one thread moves, counters and flagged operations only grow, and the flag stays as it is -/
theorem FInv.update {s s' : St} {t : ℕ} (h : FInv s) (hq : QInv s') (hle : ∀ q, (s.tally q).Le (s'.tally q))
    (hfl : s'.flagged = s.flagged) (hlong : s'.long_pending = s.long_pending) (hother : ∀ t' ≠ t, s'.thr t' = s.thr t')
    (ht : FThr s'.tally s'.flagged (s'.thr t)) (hd : Drains s'.tally s.flagged (s'.thr t).code) : FInv s' := by
  refine ⟨hq, fun ctx y hy => ?_, fun hl ctx y hy => ?_, fun t' => ?_, fun t' => ?_⟩
  · rw [hfl] at hy
    exact ⟨(h.flagged ctx y hy).1, lt_of_lt_of_le (h.flagged ctx y hy).2 (hle _).issued⟩
  · rw [hfl] at hy
    rw [hlong] at hl
    exact (hle _).acked _ (h.clear hl ctx y hy)
  · by_cases htt : t' = t
    · exact htt ▸ ht
    · rw [hother t' htt, hfl]
      exact (h.thr t').mono hle fun _ => List.Subset.refl _
  · rw [hfl]
    by_cases htt : t' = t
    · exact htt ▸ hd
    · rw [hother t' htt]
      exact (h.drains t').mono hle

/-- an instruction that leaves the rest of the call -/
theorem FThr.pop {tally : Cntr → Tally} {flagged : ℕ → List (Cntr × ℕ)} {x y : Thread} {i : Instr} {rest : List Instr}
    (h : FThr tally flagged x) (hc : x.code = i :: rest) (hy : y.code = rest) (hflags : y.flags = x.flags)
    (hmine : ∀ ctx, .setLong ctx ∈ rest → ∀ z ∈ y.mine, z ∈ x.mine ∨ z.1 ∈ putCntrs ctx ∧ z.2 < (tally z.1).issued)
    (hi : ∀ z ∈ x.flags, (tally z.1).acked z.2 = true ∨
      (i ≠ .waitFor z.1 ∧ i ≠ .ctWait z.1 ∧ i ≠ .recheck z.1 ∧ ∀ ctx, i = .testLong ctx → z ∉ flagged ctx)) :
    FThr tally flagged y := by
  have hsub : ∀ j, j ∈ rest → j ∈ x.code := fun j hj => by rw [hc]; exact List.mem_cons_of_mem _ hj
  refine ⟨fun ctx hs => ?_, fun z hz => ?_⟩
  · rw [hy] at hs ⊢
    obtain ⟨h1, h2⟩ := h.mine ctx (hsub _ hs)
    refine ⟨fun z hz => ?_, fun q hq => h2 q (hq.imp (hsub _) (hsub _))⟩
    rcases hmine ctx hs z hz with hz | hz
    · exact h1 z hz
    · exact hz
  · rw [hflags] at hz
    rw [hy]
    obtain ⟨hlt, hcase⟩ := h.flags z hz
    refine ⟨hlt, ?_⟩
    rcases hi z hz with hack | ⟨h1, h2, h3, h4⟩
    · exact Or.inl hack
    · rcases hcase with hack | hw | ⟨ctx, htest, hmem⟩
      · exact Or.inl hack
      · rw [hc] at hw
        exact Or.inr (Or.inl (hw.of_cons h1 h2 h3))
      · rw [hc] at htest
        rcases List.mem_cons.mp htest with heq | htest
        · exact absurd hmem (h4 ctx heq.symm)
        · exact Or.inr (Or.inr ⟨ctx, htest, hmem⟩)

/-- the tail of a call stays behind a new first instruction -/
theorem FThr.swap {tally : Cntr → Tally} {flagged : ℕ → List (Cntr × ℕ)} {x y : Thread} {i j : Instr} {rest : List Instr}
    (h : FThr tally flagged x) (hc : x.code = i :: rest) (hy : y.code = j :: rest) (hflags : y.flags = x.flags)
    (hmine : y.mine = x.mine) (hset : ∀ ctx, j ≠ .setLong ctx) (hi : ∀ ctx, i ≠ .testLong ctx)
    (hj : ∀ q, j = .issue q ∨ j = .post q → i = .issue q)
    (hw : ∀ q, Waiting q (i :: rest) → Waiting q (j :: rest)) : FThr tally flagged y := by
  have hsub : ∀ k, k ∈ rest → k ∈ x.code := fun k hk => by rw [hc]; exact List.mem_cons_of_mem _ hk
  refine ⟨fun ctx hs => ?_, fun z hz => ?_⟩
  · rw [hy] at hs ⊢
    rw [hmine]
    have hs := (List.mem_cons.mp hs).resolve_left fun heq => hset ctx heq.symm
    obtain ⟨h1, h2⟩ := h.mine ctx (hsub _ hs)
    refine ⟨h1, fun q hq => ?_⟩
    have hcases : j = .issue q ∨ j = .post q ∨ .issue q ∈ rest ∨ .post q ∈ rest := by
      rcases hq with hq | hq
      · rcases List.mem_cons.mp hq with hq | hq
        · exact Or.inl hq.symm
        · exact Or.inr (Or.inr (Or.inl hq))
      · rcases List.mem_cons.mp hq with hq | hq
        · exact Or.inr (Or.inl hq.symm)
        · exact Or.inr (Or.inr (Or.inr hq))
    rcases hcases with hq | hq | hq | hq
    · exact h2 q (Or.inl (by rw [hc, hj q (Or.inl hq)]; exact List.mem_cons_self))
    · exact h2 q (Or.inl (by rw [hc, hj q (Or.inr hq)]; exact List.mem_cons_self))
    · exact h2 q (Or.inl (hsub _ hq))
    · exact h2 q (Or.inr (hsub _ hq))
  · rw [hflags] at hz
    rw [hy]
    obtain ⟨hlt, hcase⟩ := h.flags z hz
    refine ⟨hlt, ?_⟩
    rcases hcase with hack | hwait | ⟨ctx, htest, hmem⟩
    · exact Or.inl hack
    · rw [hc] at hwait
      exact Or.inr (Or.inl (hw z.1 hwait))
    · rw [hc] at htest
      rcases List.mem_cons.mp htest with heq | htest
      · exact absurd heq.symm (hi ctx)
      · exact Or.inr (Or.inr ⟨ctx, List.mem_cons_of_mem _ htest, hmem⟩)

theorem setTally_le {s : St} {q : Cntr} {T : Tally} (hle : (s.tally q).Le T) (q' : Cntr) :
    (s.tally q').Le ((s.setTally q T).tally q') := by
  by_cases hq : q' = q
  · subst hq
    rw [setTally_tally_self]
    exact hle
  · rw [setTally_tally_other s T hq]
    exact Tally.Le.refl _

/-- a call begins -/
theorem FThr.enter {tally : Cntr → Tally} {flagged : ℕ → List (Cntr × ℕ)} {x : Thread} (Z : Sizes) (ctx : ℕ) (c : Call)
    (hcode : x.code = c.code Z ctx) (hmine : x.mine = []) (hflags : x.flags = if c = .fence then flagged ctx else [])
    (hfl : ∀ y ∈ flagged ctx, y.2 < (tally y.1).issued) : FThr tally flagged x := by
  refine ⟨fun ctx' hs => ⟨fun y hy => absurd hy (by simp [hmine]), fun q hq => ?_⟩, fun y hy => ?_⟩
  · -- the counters of a call with a long transfer
    rw [hcode] at hs hq
    cases c with
    | putScalar => simp [Call.code, putScalar] at hs
    | get => simp [Call.code, get] at hs
    | putNbi len =>
      simp only [Call.code, putNbi] at hs hq
      split_ifs at hs hq
      · simp at hs
      · simp at hs hq
        simp [hs, hq, putCntrs]
    | putNb buffered len =>
      simp only [Call.code, putNb, putNbi] at hs hq
      split_ifs at hs hq
      all_goals simp at hs hq
      all_goals simp [hs, hq, putCntrs]
    | atomicv len =>
      simp only [Call.code, atomicv] at hs hq
      split_ifs at hs hq
      · simp at hs
      · simp at hs hq
        simp [hq, putCntrs]
      · have hq : q = .event := by
          simp only [List.mem_append, List.mem_replicate, List.mem_singleton, Instr.issue.injEq, reduceCtorEq,
            and_false, or_false] at hq
          exact hq.2
        simp [hq, putCntrs]
    | quiet => simp [Call.code, quietWaits] at hs
    | fence => simp [Call.code, fence] at hs
  · rw [hflags] at hy
    split_ifs at hy with hc
    · subst hc
      refine ⟨hfl y hy, Or.inr (Or.inr ⟨ctx, ?_, hy⟩)⟩
      rw [hcode]
      simp [Call.code, fence]
    · exact absurd hy (by simp)

/-- a flag that is set: the quiet waits for the counters of the context -/
theorem FThr.tested {tally : Cntr → Tally} {flagged : ℕ → List (Cntr × ℕ)} {x : Thread} {ctx : ℕ} {rest : List Instr}
    (h : FThr tally flagged x) (hc : x.code = .testLong ctx :: rest)
    (hfl : ∀ y ∈ flagged ctx, y.1 ∈ quietCntrs ctx) :
    FThr tally flagged { x with code := quietWaits ctx ++ .clearLong :: rest } := by
  have hsub : ∀ k, k ∈ rest → k ∈ x.code := fun k hk => by rw [hc]; exact List.mem_cons_of_mem _ hk
  refine ⟨fun ctx' hs => ?_, fun z hz => ?_⟩
  · simp only [quietWaits, List.cons_append, List.nil_append, List.mem_cons, reduceCtorEq, false_or] at hs ⊢
    obtain ⟨h1, h2⟩ := h.mine ctx' (hsub _ hs)
    exact ⟨h1, fun q hq => h2 q (hq.imp (hsub _) (hsub _))⟩
  · obtain ⟨hlt, hcase⟩ := h.flags z hz
    refine ⟨hlt, ?_⟩
    rcases hcase with hack | hw | ⟨ctx', htest, hmem⟩
    · exact Or.inl hack
    · rw [hc] at hw
      have hrest := hw.of_cons (by simp) (by simp) (by simp)
      exact Or.inr (Or.inl ((((hrest.cons _).cons _).cons _).cons _))
    · rw [hc] at htest
      rcases List.mem_cons.mp htest with heq | htest
      · obtain rfl := Instr.testLong.inj heq
        have hz1 := hfl z hmem
        simp only [quietCntrs, List.mem_cons, List.not_mem_nil, or_false] at hz1
        refine Or.inr (Or.inl (Or.inl ?_))
        rcases hz1 with hz1 | hz1 | hz1 <;> simp [quietWaits, hz1]
      · exact Or.inr (Or.inr ⟨ctx', by simp [htest], hmem⟩)

/-- Long transfers and fences keep apart. When a fence finds the flag set, no flagged transfer that is counted in the
pending_put_cntr of another context is outstanding; and when a transfer sets the flag, every fence that is going to clear
it still waits for the transfer, or it has been acknowledged. -/
def FenceApart (s : St) : Op → Prop
  | .exec t =>
    (∀ ctx, (s.thr t).code.head? = some (.testLong ctx) → s.long_pending = true → ∀ c ≠ ctx, ∀ k,
      (.put c, k) ∈ s.flagged c → (s.tally (.put c)).acked k = true) ∧
    (∀ ctx, (s.thr t).code.head? = some (.setLong ctx) → ∀ t', .clearLong ∈ (s.thr t').code → ∀ y ∈ (s.thr t).mine,
      (s.tally y.1).acked y.2 = true ∨ Waiting y.1 (beforeClear (s.thr t').code))
  | _ => True

/-- the flag is set: the fence waits for the flagged transfers -/
theorem FInv.drains_tested {s : St} (h : FInv s) {t ctx : ℕ} {rest : List Instr} (hc : (s.thr t).code = .testLong ctx :: rest)
    (hcond : FenceApart s (.exec t)) (hlong : s.long_pending = true) :
    Drains s.tally s.flagged (quietWaits ctx ++ .clearLong :: rest) := by
  intro _ c y hy
  have hfirst : beforeClear (quietWaits ctx ++ .clearLong :: rest) = quietWaits ctx := rfl
  have hq := (h.flagged c y hy).1
  rw [hfirst]
  simp only [putCntrs, List.mem_cons, List.not_mem_nil, or_false] at hq
  rcases hq with hq | hq
  · exact .inr (.inl (by simp [quietWaits, hq]))
  · by_cases hcc : c = ctx
    · subst hcc
      exact .inr (.inl (by simp [quietWaits, hq]))
    · have hack := hcond.1 ctx (by rw [hc]; rfl) hlong c hcc y.2 (hq ▸ hy)
      rw [hq]
      exact .inl hack

section
variable {s : St} {t ctx : ℕ} {q : Cntr} {rest : List Instr}

/-- the transfer is flagged; every fence that is going to clear the flag still waits for it -/
theorem FInv.exec_setLong (h : FInv s) (hc : (s.thr t).code = .setLong ctx :: rest) (hcond : FenceApart s (.exec t)) :
    FInv (exec s t rest (.setLong ctx)) := by
  have hq := h.quiet.exec hc
  have ht := h.thr t
  have hsame : ∀ q, (s.tally q).Le (s.tally q) := fun q => Tally.Le.refl _
  have hmine := ht.mine ctx (by rw [hc]; exact List.mem_cons_self)
  have hsub : ∀ c, s.flagged c ⊆ Function.update s.flagged ctx ((s.thr t).mine ++ s.flagged ctx) c := by
    intro c y hy
    by_cases hcc : c = ctx
    · subst hcc
      rw [Function.update_self]
      exact List.mem_append_right _ hy
    · rwa [Function.update_of_ne hcc]
  have hcases : ∀ c, ∀ y ∈ Function.update s.flagged ctx ((s.thr t).mine ++ s.flagged ctx) c,
      (c = ctx ∧ y ∈ (s.thr t).mine) ∨ y ∈ s.flagged c := by
    intro c y hy
    by_cases hcc : c = ctx
    · subst hcc
      rw [Function.update_self] at hy
      exact (List.mem_append.mp hy).imp_left fun hy => ⟨rfl, hy⟩
    · rw [Function.update_of_ne hcc] at hy
      exact .inr hy
  -- every fence that will clear the flag still waits for what is flagged now
  have hgrown : ∀ t', Drains s.tally (Function.update s.flagged ctx ((s.thr t).mine ++ s.flagged ctx)) (s.thr t').code := by
    intro t' hclear c y hy
    rcases hcases c y hy with ⟨-, hy⟩ | hy
    · exact hcond.2 ctx (by rw [hc]; rfl) t' hclear y hy
    · exact h.drains t' hclear c y hy
  refine ⟨hq, fun c y hy => ?_, fun hl => absurd hl (by simp [PtlQuiet.exec]), fun t' => ?_, fun t' => ?_⟩
  · rcases hcases c y hy with ⟨rfl, hm⟩ | hf
    · exact hmine.1 y hm
    · exact h.flagged c y hf
  · by_cases htt : t' = t
    · subst htt
      rw [PtlQuiet.exec, setThr_thr_self]
      exact (ht.mono hsame hsub).pop hc rfl rfl (fun _ _ z hz => Or.inl hz) fun z _ => Or.inr (by simp)
    · rw [PtlQuiet.exec, setThr_thr_other _ _ htt]
      exact (h.thr t').mono hsame hsub
  · by_cases htt : t' = t
    · subst htt
      rw [PtlQuiet.exec, setThr_thr_self]
      have hown := hgrown t'
      rw [hc] at hown
      exact hown.pop (.inl (by simp)) fun _ _ _ => Or.inr (by simp)
    · rw [PtlQuiet.exec, setThr_thr_other _ _ htt]
      exact hgrown t'

/-- the wait for q is over, or starts again -/
theorem FInv.exec_recheck (h : FInv s) (hc : (s.thr t).code = .recheck q :: rest) :
    FInv (exec s t rest (.recheck q)) := by
  have hq := h.quiet.exec hc
  have ht := h.thr t
  have hd := h.drains t
  rw [hc] at hd
  have hsame : ∀ q, (s.tally q).Le (s.tally q) := fun q => Tally.Le.refl _
  have hle := (h.quiet.thr t).waited q rest hc
  rw [PtlQuiet.exec] at hq ⊢
  split_ifs at hq ⊢ with hmore
  · refine h.update (t := t) hq hsame rfl rfl (fun t' ht => setThr_thr_other _ _ ht) ?_ ?_
    · rw [setThr_thr_self]
      exact ht.swap hc rfl rfl rfl (by simp) (by simp) (by simp) fun q' hw =>
        hw.change (Or.inr (Or.inr rfl)) (Or.inl rfl)
    · rw [setThr_thr_self]
      exact hd.swap (by simp) (by simp) fun q' _ hw => hw.change (Or.inr (Or.inr rfl)) (Or.inl rfl)
  · have hcount := (h.quiet.wf q).count_le
    have hsync := h.quiet.sync q
    have hall := (h.quiet.wf q).all_acked (by omega)
    -- the wait for q is over for all that has been issued
    have hover : ∀ z : Cntr × ℕ, z.2 < (s.tally z.1).issued → (s.tally z.1).acked z.2 = true ∨ q ≠ z.1 := by
      intro z hlt
      by_cases hzq : z.1 = q
      · rw [hzq] at hlt ⊢
        exact Or.inl (hall _ hlt)
      · exact Or.inr (Ne.symm hzq)
    refine h.update (t := t) hq hsame rfl rfl (fun t' ht => setThr_thr_other _ _ ht) ?_ ?_
    · rw [setThr_thr_self]
      refine ht.pop hc rfl rfl (fun _ _ z hz => Or.inl hz) fun z hz => ?_
      exact (hover z (ht.flags z hz).1).imp_right fun hne => ⟨by simp, by simp, by simpa using hne, by simp⟩
    · rw [setThr_thr_self]
      refine hd.pop (.inl (by simp)) fun ctx z hz => ?_
      exact (hover z (h.flagged ctx z hz).2).imp_right fun hne => ⟨by simp, by simp, by simpa using hne⟩

/-- the fence has waited for all that is flagged -/
theorem FInv.exec_clearLong (h : FInv s) (hc : (s.thr t).code = .clearLong :: rest) :
    FInv (exec s t rest .clearLong) := by
  have hq := h.quiet.exec hc
  have ht := h.thr t
  have hd := h.drains t
  rw [hc] at hd
  -- nothing is waited for any more
  have hall : ∀ ctx, ∀ y ∈ s.flagged ctx, (s.tally y.1).acked y.2 = true := by
    intro ctx y hy
    refine (hd List.mem_cons_self ctx y hy).resolve_right fun hw => ?_
    rcases hw with hw | hw | hw <;> simp [beforeClear] at hw
  refine ⟨hq, fun ctx y hy => h.flagged ctx y hy, fun _ => hall, fun t' => ?_, fun t' => ?_⟩
  · by_cases htt : t' = t
    · subst htt
      rw [PtlQuiet.exec, setThr_thr_self]
      exact ht.pop hc rfl rfl (fun _ _ z hz => Or.inl hz) fun z _ => Or.inr (by simp)
    · rw [PtlQuiet.exec, setThr_thr_other _ _ htt]
      exact h.thr t'
  · exact fun _ ctx y hy => .inl (hall ctx y hy)

end

/-- **An instruction.** -/
theorem FInv.exec {s : St} (h : FInv s) {t : ℕ} {i : Instr} {rest : List Instr} (hc : (s.thr t).code = i :: rest)
    (hcond : FenceApart s (.exec t)) : FInv (exec s t rest i) := by
  have hq := h.quiet.exec hc
  have ht := h.thr t
  have hd := h.drains t
  rw [hc] at hd
  have hsame : ∀ q, (s.tally q).Le (s.tally q) := fun q => Tally.Le.refl _
  cases i with
  | issue q =>
    have hle := setTally_le (T := (s.tally q).inc) (Tally.le_inc _)
    refine h.update (t := t) hq hle rfl rfl (fun t' ht => setThr_thr_other _ _ ht) ?_ ?_
    · rw [PtlQuiet.exec, setThr_thr_self]
      refine (ht.mono hle fun _ => List.Subset.refl _).swap hc rfl rfl rfl (by simp) (by simp) ?_ ?_
      · intro q' hq
        simpa using hq
      · intro q' hw
        exact (hw.of_cons (by simp) (by simp) (by simp)).cons _
    · rw [PtlQuiet.exec, setThr_thr_self]
      exact (hd.mono hle).swap (by simp) (by simp) fun q' _ hw => (hw.of_cons (by simp) (by simp) (by simp)).cons _
  | post q =>
    have hlt := (h.quiet.thr t).cur q rest hc
    have hle := setTally_le (T := (s.tally q).post (s.thr t).cur) (Tally.le_post _ _)
    refine h.update (t := t) hq hle rfl rfl (fun t' ht => setThr_thr_other _ _ ht) ?_ ?_
    · rw [PtlQuiet.exec, setThr_thr_self]
      refine (ht.mono hle fun _ => List.Subset.refl _).pop hc rfl rfl ?_ fun z _ => Or.inr (by simp)
      intro ctx hs z hz
      rcases List.mem_cons.mp hz with rfl | hz
      · refine Or.inr ⟨?_, ?_⟩
        · refine (ht.mine ctx ?_).2 q (Or.inr ?_)
          · rw [hc]; exact List.mem_cons_of_mem _ hs
          · rw [hc]; exact List.mem_cons_self
        · simpa [Tally.post] using hlt
      · exact Or.inl hz
    · rw [PtlQuiet.exec, setThr_thr_self]
      exact (hd.mono hle).pop (.inl (by simp)) fun _ _ _ => Or.inr (by simp)
  | setLong ctx => exact h.exec_setLong hc hcond
  | waitFor q =>
    refine h.update (t := t) hq hsame rfl rfl (fun t' ht => setThr_thr_other _ _ ht) ?_ ?_
    · rw [PtlQuiet.exec, setThr_thr_self]
      exact ht.swap hc rfl rfl rfl (by simp) (by simp) (by simp) fun q' hw => hw.change (Or.inl rfl) (Or.inl rfl)
    · rw [PtlQuiet.exec, setThr_thr_self]
      exact hd.swap (by simp) (by simp) fun q' _ hw => hw.change (Or.inl rfl) (Or.inl rfl)
  | ctWait q =>
    rw [PtlQuiet.exec] at hq ⊢
    split_ifs at hq ⊢ with hwait
    · refine h.update (t := t) hq hsame rfl rfl (fun t' ht => setThr_thr_other _ _ ht) ?_ ?_
      · rw [setThr_thr_self]
        exact ht.swap hc rfl rfl rfl (by simp) (by simp) (by simp) fun q' hw =>
          hw.change (Or.inr (Or.inl rfl)) (Or.inr rfl)
      · rw [setThr_thr_self]
        exact hd.swap (by simp) (by simp) fun q' _ hw => hw.change (Or.inr (Or.inl rfl)) (Or.inr rfl)
    · exact h
  | recheck q => exact h.exec_recheck hc
  | testLong ctx =>
    rw [PtlQuiet.exec] at hq ⊢
    split_ifs at hq ⊢ with hlong
    · refine h.update (t := t) hq hsame rfl rfl (fun t' ht => setThr_thr_other _ _ ht) ?_ ?_
      · rw [setThr_thr_self]
        exact ht.tested hc fun y hy => putCntrs_subset ctx (h.flagged ctx y hy).1
      · rw [setThr_thr_self]
        exact h.drains_tested hc hcond hlong
    · refine h.update (t := t) hq hsame rfl rfl (fun t' ht => setThr_thr_other _ _ ht) ?_ ?_
      · rw [setThr_thr_self]
        refine ht.pop hc rfl rfl (fun _ _ z hz => Or.inl hz) fun z hz => ?_
        by_cases hmem : z ∈ s.flagged ctx
        · exact Or.inl (h.clear (by simpa using hlong) ctx z hmem)
        · refine Or.inr ⟨by simp, by simp, by simp, fun ctx' heq => ?_⟩
          simp only [Instr.testLong.injEq] at heq
          exact heq ▸ hmem
      · rw [setThr_thr_self]
        exact hd.pop (.inl (by simp)) fun _ _ _ => Or.inr (by simp)
  | clearLong => exact h.exec_clearLong hc
  | done =>
    refine h.update (t := t) hq hsame rfl rfl (fun t' ht => setThr_thr_other _ _ ht) ?_ ?_
    · rw [PtlQuiet.exec, setThr_thr_self]
      exact ht.pop hc rfl rfl (fun _ _ z hz => Or.inl hz) fun z _ => Or.inr (by simp)
    · rw [PtlQuiet.exec, setThr_thr_self]
      exact hd.pop (.inl (by simp)) fun _ _ _ => Or.inr (by simp)

theorem FInv.step {s : St} (Z : Sizes) {o : Op} (hcond : CreatesEarly s o ∧ FenceApart s o) (h : FInv s) :
    FInv (step Z s o) := by
  obtain ⟨hcreate, hapart⟩ := hcond
  have hq := h.quiet.step Z hcreate
  cases o with
  | call t ctx c =>
    rw [PtlQuiet.step] at hq ⊢
    split_ifs at hq ⊢
    · refine h.update (t := t) hq (fun q => Tally.Le.refl _) rfl rfl (fun t' ht => setThr_thr_other _ _ ht) ?_ ?_
      · rw [PtlQuiet.enter, setThr_thr_self]
        exact FThr.enter Z ctx c rfl rfl rfl fun y hy => (h.flagged ctx y hy).2
      · rw [PtlQuiet.enter, setThr_thr_self]
        exact Drains.of_not_mem (clearLong_notMem Z ctx c)
    · exact h
  | exec t =>
    rw [PtlQuiet.step]
    split
    · exact h
    · rename_i i rest hc
      exact h.exec hc hapart
  | ack q k =>
    rw [PtlQuiet.step] at hq ⊢
    split_ifs at hq ⊢
    · have hle := setTally_le (T := (s.tally q).ack k) (Tally.le_ack _ _)
      exact h.update (t := 0) hq hle rfl rfl (fun _ _ => rfl) ((h.thr 0).mono hle fun _ => List.Subset.refl _)
        ((h.drains 0).mono hle)
    · exact h
  | create =>
    have hle := setTally_le (T := (s.tally .event).write 0) (Tally.le_write _ _)
    exact h.update (t := 0) hq hle rfl rfl (fun _ _ => rfl) ((h.thr 0).mono hle fun _ => List.Subset.refl _)
      ((h.drains 0).mono hle)
  | destroy ctx =>
    exact h.update (t := 0) hq (fun q => Tally.Le.refl _) rfl rfl (fun _ _ => rfl) (h.thr 0) (h.drains 0)

/-- **Fence orders the transfers of its context.** With total data ordering, in every run in which contexts are created
early and long transfers of other contexts and fences keep apart: when a fence returns, every long or buffered transfer
that had been issued on its context when it was called has been acknowledged. -/
theorem fence_acked (Z : Sizes) (ops : List Op)
    (hops : Runs.Meets (step Z) (fun s o => CreatesEarly s o ∧ FenceApart s o) init ops) :
    let s := Runs.run (step Z) init ops
    ∀ t, (s.thr t).code = [.done] → ∀ y ∈ (s.thr t).flags, (s.tally y.1).acked y.2 = true := by
  have h := Runs.run_inv_meets (step Z) (fun s o => CreatesEarly s o ∧ FenceApart s o) FInv
    (fun _ _ hc h => h.step Z hc) init FInv.init ops hops
  intro s t hcode y hy
  rcases ((h.thr t).flags y hy).2 with hack | hw | ⟨ctx, htest, -⟩
  · exact hack
  · rw [hcode] at hw
    exact absurd hw (not_waiting_done _)
  · rw [hcode] at htest
    exact absurd htest (by simp)

/-- a buffered put on a new context and a long put on the default context, a fence there that waits for both, and a fence
on the new context that has nothing to wait for -/
def putFence : List Op :=
  [.create, .call 0 1 (.putNb true 64), .exec 0, .exec 0, .exec 0, .call 0 0 (.putNbi 64), .exec 0, .exec 0, .exec 0,
    .call 0 0 .fence, .exec 0, .exec 0, .exec 0, .exec 0, .exec 0, .ack .event 0, .exec 0, .exec 0, .exec 0,
    .ack (.put 0) 0, .exec 0, .exec 0, .exec 0, .exec 0, .call 0 1 .fence, .exec 0]

/-- the instructions that the condition is about -/
def Instr.flag : Instr → Bool
  | .testLong _ => true
  | .setLong _ => true
  | _ => false

theorem apart_of_head {s : St} {t : ℕ} (h : (s.thr t).code.head?.map Instr.flag ≠ some true) : FenceApart s (.exec t) := by
  refine ⟨fun ctx hc => absurd ?_ h, fun ctx hc => absurd ?_ h⟩
  · rw [hc]
    rfl
  · rw [hc]
    rfl

/-- nobody is in a fence -/
theorem apart_of_setLong {s : St} {t : ℕ} (ctx : ℕ) (h : (s.thr t).code.head? = some (.setLong ctx))
    (hnone : ∀ t', .clearLong ∉ (s.thr t').code) : FenceApart s (.exec t) :=
  ⟨fun ctx' hc => absurd (h.symm.trans hc) (by simp), fun _ _ t' hclear => absurd hclear (hnone t')⟩

theorem putFence_meets : Runs.Meets (step sizes) (fun s o => CreatesEarly s o ∧ FenceApart s o) init putFence := by
  have hplain : ∀ {s : St}, (s.thr 0).code.head?.map Instr.flag ≠ some true →
      CreatesEarly s (.exec 0) ∧ FenceApart s (.exec 0) := fun h => ⟨trivial, apart_of_head h⟩
  refine ⟨⟨rfl, trivial⟩, ⟨trivial, trivial⟩, hplain (by decide), hplain (by decide), ⟨trivial, ?_⟩, ⟨trivial, trivial⟩,
    hplain (by decide), hplain (by decide), ⟨trivial, ?_⟩, ⟨trivial, trivial⟩, ⟨trivial, ?_, ?_⟩, hplain (by decide),
    hplain (by decide), hplain (by decide), hplain (by decide), ⟨trivial, trivial⟩, hplain (by decide), hplain (by decide),
    hplain (by decide), ⟨trivial, trivial⟩, hplain (by decide), hplain (by decide), hplain (by decide), hplain (by decide),
    ⟨trivial, trivial⟩, ⟨trivial, ?_, ?_⟩, trivial⟩
  · refine apart_of_setLong 1 (by decide) fun t' => ?_
    cases t' with
    | zero => decide
    | succ n => exact List.not_mem_nil
  · refine apart_of_setLong 0 (by decide) fun t' => ?_
    cases t' with
    | zero => decide
    | succ n => exact List.not_mem_nil
  · -- the put of the new context is counted in the event counter
    intro ctx hc _ c hne k hk
    obtain rfl : 0 = ctx := Instr.testLong.inj (Option.some.inj hc)
    rcases c with _ | _ | n
    · exact absurd rfl hne
    · exact absurd (List.mem_singleton.mp hk) (by simp)
    · exact absurd hk List.not_mem_nil
  · exact fun ctx hc => absurd (Option.some.inj hc) (by simp)
  · exact fun _ _ hlong => absurd hlong (by decide)
  · exact fun ctx hc => absurd (Option.some.inj hc) (by simp)

theorem fence_acked_put :
    ((Runs.run (step sizes) init putFence).thr 0).code = [.done] ∧
      ((Runs.run (step sizes) init putFence).tally .event).acked 0 = true := by
  have hcode : ((Runs.run (step sizes) init putFence).thr 0).code = [.done] := by decide
  exact ⟨hcode, fence_acked sizes putFence putFence_meets 0 hcode (.event, 0) (by decide)⟩

/-- **A fence on another context hides a transfer.** A long put on context 1 is outstanding; a fence on the default context
clears the flag; the fence on context 1 behind it returns at once. -/
theorem fence_hides_transfer :
    ¬ ∀ (Z : Sizes) (ops : List Op), Runs.Meets (step Z) CreatesEarly init ops →
      ∀ t, ((Runs.run (step Z) init ops).thr t).code = [.done] → ∀ y ∈ ((Runs.run (step Z) init ops).thr t).flags,
        ((Runs.run (step Z) init ops).tally y.1).acked y.2 = true := by
  intro h
  have hack := h sizes [.create, .call 0 1 (.putNbi 64), .exec 0, .exec 0, .exec 0, .call 0 0 .fence, .exec 0, .exec 0,
    .exec 0, .exec 0, .exec 0, .exec 0, .exec 0, .exec 0, .exec 0, .exec 0, .exec 0, .exec 0, .call 0 1 .fence, .exec 0]
    (by decide) 0 (by decide) (.put 1, 0) (by decide)
  exact absurd hack (by decide)

end SandiaShmem.Transport.PtlQuiet
