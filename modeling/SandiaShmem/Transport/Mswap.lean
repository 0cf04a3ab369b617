/-
Masked swap of a 32-bit word where the network has none: the loops of `shmem_transport_mswap` (`src/transport_ucx.h`) and
`shmem_shr_transport_mswap` (`src/shr_transport.h4`).

Both read the word, compute its new value and write it if the word is still what was read. The UCX loop gives the new value
to `shmem_transport_cswap` in dest, gets the old value of the word back in dest, and compares it with what it has read; the
shared-memory loop uses a strong compare-exchange. Any number of threads call either of them any number of times, and other
parties change the word in atomic updates of any kind. dest does not overlap source and mask.

- `Inv`: the words of a run, and how far the calls are.
- `exec_word`: a step of a call leaves the word alone, or succeeds.
- `mswap_atomic`: every call that has returned.
-/
import SandiaShmem.Core.Runs
import SandiaShmem.Core.Linear

namespace SandiaShmem.Transport.Mswap

open Linear

/-! ## Model -/

/-- `(v & ~mask) | (source & mask)` -/
def merge (source mask v : BitVec 32) : BitVec 32 := (v &&& ~~~mask) ||| (source &&& mask)

/-- the two loops -/
inductive Way where
  | ucx
  | shr
deriving DecidableEq, Repr

/-- the next step of a thread; v is its variable of that name -/
inductive Pc where
  | idle
  /-- `shmem_transport_atomic_fetch` -/
  | fetch
  /-- `memcpy(dest, source, len)` in `shmem_transport_cswap`, with the new value for source -/
  | copy (v : BitVec 32)
  /-- UCP_ATOMIC_FETCH_OP_CSWAP -/
  | cswap (v : BitVec 32)
  /-- `if (*dest == v) done = 1` -/
  | check (v : BitVec 32)
  /-- `__atomic_load_n` -/
  | load
  /-- `__atomic_compare_exchange` -/
  | exchange (v : BitVec 32)
  /-- `*dest = v` -/
  | store (v : BitVec 32) (done : Bool)
deriving DecidableEq, Repr

/-- the first step of the loop -/
def Way.first : Way → Pc
  | .ucx => .fetch
  | .shr => .load

/-- a thread with the arguments of its call; `start` is the step with which the call began -/
structure Thread where
  pc : Pc
  source : BitVec 32
  mask : BitVec 32
  dest : BitVec 32
  way : Way
  start : ℕ

/-- a call that has returned, with the steps that began and ended it -/
structure Completed where
  thread : ℕ
  way : Way
  source : BitVec 32
  mask : BitVec 32
  dest : BitVec 32
  start : ℕ
  stop : ℕ
deriving DecidableEq, Repr

/-- the word, the threads, and beside the program the number of steps and the calls that have returned -/
structure St where
  word : BitVec 32
  thr : ℕ → Thread
  now : ℕ
  completed : List Completed

def init (word : BitVec 32) : St := ⟨word, fun _ => ⟨.idle, 0, 0, 0, .ucx, 0⟩, 0, []⟩

def St.setThr (s : St) (t : ℕ) (x : Thread) : St := { s with thr := Function.update s.thr t x }

/-- thread t returns, with the local state x -/
def St.ret (s : St) (t : ℕ) (x : Thread) : St :=
  { s with completed := s.completed ++ [(⟨t, x.way, x.source, x.mask, x.dest, x.start, s.now⟩ : Completed)] }.setThr t
    { x with pc := .idle }

/-- the next step of a thread with local state x -/
def exec (s : St) (t : ℕ) (x : Thread) : St :=
  match x.pc with
  | .idle => s
  | .fetch => s.setThr t { x with pc := .copy s.word }
  | .copy v => s.setThr t { x with pc := .cswap v, dest := merge x.source x.mask v }
  | .cswap v =>
    { s with word := if s.word = v then x.dest else s.word }.setThr t { x with pc := .check v, dest := s.word }
  | .check v => if x.dest = v then s.ret t x else s.setThr t { x with pc := .fetch }
  | .load => s.setThr t { x with pc := .exchange s.word }
  | .exchange v =>
    if s.word = v then { s with word := merge x.source x.mask v }.setThr t { x with pc := .store v true }
    else s.setThr t { x with pc := .store s.word false }
  | .store v done => if done then s.ret t { x with dest := v } else s.setThr t { x with pc := .load, dest := v }

inductive Op where
  | call (t : ℕ) (way : Way) (source mask : BitVec 32)
  | exec (t : ℕ)
  /-- another atomic update of the word -/
  | other (f : BitVec 32 → BitVec 32)

def act (s : St) : Op → St
  | .call t way source mask =>
    if (s.thr t).pc = .idle then
      s.setThr t ⟨way.first, source, mask, (s.thr t).dest, way, s.now⟩
    else s
  | .exec t => exec s t (s.thr t)
  | .other f => { s with word := f s.word }

def step (s : St) (o : Op) : St := { act s o with now := s.now + 1 }

/-! ## One step -/

variable {s : St} {t u : ℕ}

@[simp] theorem setThr_word (s : St) (t : ℕ) (x : Thread) : (s.setThr t x).word = s.word := rfl
@[simp] theorem setThr_completed (s : St) (t : ℕ) (x : Thread) : (s.setThr t x).completed = s.completed := rfl
@[simp] theorem setThr_thr_self (s : St) (t : ℕ) (x : Thread) : (s.setThr t x).thr t = x := by simp [St.setThr]
theorem setThr_thr_ne (s : St) (x : Thread) (h : u ≠ t) : (s.setThr t x).thr u = s.thr u := by simp [St.setThr, h]

/-- bits outside the mask -/
theorem merge_outside (source mask v : BitVec 32) : merge source mask v &&& ~~~mask = v &&& ~~~mask := by
  ext i
  simp only [merge, BitVec.getElem_and, BitVec.getElem_or, BitVec.getElem_not]
  cases mask[i] <;> simp

/-- **An attempt.** A step of a thread leaves the word alone, or finds in it what the thread has read and writes. -/
theorem exec_word (s : St) (t : ℕ) (x : Thread) :
    (exec s t x).word = s.word ∨ (x.pc = .cswap s.word ∧ (exec s t x).word = x.dest) ∨
      (x.pc = .exchange s.word ∧ (exec s t x).word = merge x.source x.mask s.word) := by
  unfold exec St.ret
  cases hpc : x.pc with
  | cswap v =>
    simp only [setThr_word]
    split
    · rename_i heq
      exact .inr (.inl ⟨by rw [heq], rfl⟩)
    · exact .inl rfl
  | exchange v =>
    simp only
    split
    · rename_i heq
      exact .inr (.inr ⟨by rw [heq], by rw [heq]; rfl⟩)
    · exact .inl rfl
  | check v =>
    simp only
    split <;> exact .inl rfl
  | store v done =>
    simp only
    split <;> exact .inl rfl
  | _ => exact .inl rfl

/-! ## Invariant -/

section
variable {word : ℕ → BitVec 32} {own : ℕ → Prop} {n : ℕ} {x x' : Thread}

/-- how far the call of a thread is, after n steps of the run -/
def Phase (word : ℕ → BitVec 32) (own : ℕ → Prop) (n : ℕ) (x : Thread) : Prop :=
  match x.pc with
  | .idle => True
  | .fetch => Unchanged word own x.start n
  | .copy _ => Unchanged word own x.start n
  | .cswap v => x.dest = merge x.source x.mask v ∧ Unchanged word own x.start n
  | .check v => if x.dest = v then Once word own x.start n v (merge x.source x.mask v) else Unchanged word own x.start n
  | .load => Unchanged word own x.start n
  | .exchange _ => Unchanged word own x.start n
  | .store v done =>
    if done then Once word own x.start n v (merge x.source x.mask v) else Unchanged word own x.start n

/-- a step that leaves the word alone, or is not one of the thread -/
theorem Phase.succ (h : Phase word own n x) (hn : own n → word (n + 1) = word n) : Phase word own (n + 1) x := by
  unfold Phase at h ⊢
  cases hpc : x.pc with
  | idle => trivial
  | fetch => exact Unchanged.succ (by simpa only [hpc] using h) hn
  | copy v => exact Unchanged.succ (by simpa only [hpc] using h) hn
  | cswap v =>
    simp only [hpc] at h
    exact ⟨h.1, h.2.succ hn⟩
  | check v =>
    simp only [hpc] at h ⊢
    split_ifs at h ⊢
    · exact h.succ hn
    · exact h.succ hn
  | load => exact Unchanged.succ (by simpa only [hpc] using h) hn
  | exchange v => exact Unchanged.succ (by simpa only [hpc] using h) hn
  | store v done =>
    simp only [hpc] at h ⊢
    split_ifs at h ⊢
    · exact h.succ hn
    · exact h.succ hn

end

/-- step k of the schedule is one of thread t -/
def Own (ops : List Op) (t k : ℕ) : Prop := ops[k]? = some (.exec t)

/-- thread t is in a call -/
structure Going (word : ℕ → BitVec 32) (ops : List Op) (n t : ℕ) (x : Thread) : Prop where
  start : x.start < n
  call : ops[x.start]? = some (.call t x.way x.source x.mask)
  phase : Phase word (Own ops t) n x

/-- the call has returned: it began and ended with steps of its thread, and one step in between was its instant -/
structure Finished (word : ℕ → BitVec 32) (ops : List Op) (n : ℕ) (c : Completed) : Prop where
  stop : c.stop < n
  call : ops[c.start]? = some (.call c.thread c.way c.source c.mask)
  ret : ops[c.stop]? = some (.exec c.thread)
  once : Once word (Own ops c.thread) c.start c.stop c.dest (merge c.source c.mask c.dest)

structure Inv (word : ℕ → BitVec 32) (ops : List Op) (n : ℕ) (s : St) : Prop where
  now : s.now = n
  thr : ∀ t, (s.thr t).pc = .idle ∨ Going word ops n t (s.thr t)
  completed : ∀ c ∈ s.completed, Finished word ops n c

section
variable {word : ℕ → BitVec 32} {ops : List Op} {n : ℕ} {x x' : Thread} {c : Completed} {o : Op}

theorem inv_init (w : BitVec 32) : Inv word ops 0 (init w) :=
  ⟨rfl, fun _ => .inl rfl, fun _ hc => absurd hc List.not_mem_nil⟩

theorem Finished.succ (h : Finished word ops n c) : Finished word ops (n + 1) c :=
  ⟨Nat.lt_succ_of_lt h.stop, h.call, h.ret, h.once⟩

theorem Going.succ (h : Going word ops n t x) (hn : Own ops t n → word (n + 1) = word n) : Going word ops (n + 1) t x :=
  ⟨Nat.lt_succ_of_lt h.start, h.call, h.phase.succ hn⟩

/-- the steps of the others -/
theorem Going.other (h : Going word ops n u x) (ho : ops[n]? = some o) (hne : o ≠ .exec u) :
    Going word ops (n + 1) u x :=
  h.succ fun hown => absurd (Option.some.inj (ho.symm.trans hown)) hne

/-- the thread goes on in its call -/
theorem Going.goto (h : Going word ops n t x) (hstart : x'.start = x.start) (hway : x'.way = x.way)
    (hsource : x'.source = x.source) (hmask : x'.mask = x.mask) (hphase : Phase word (Own ops t) (n + 1) x') :
    Going word ops (n + 1) t x' := by
  refine ⟨?_, ?_, hphase⟩
  · rw [hstart]
    exact Nat.lt_succ_of_lt h.start
  · rw [hstart, hway, hsource, hmask]
    exact h.call

/-- one thread moves within its call -/
theorem Inv.goto {w : BitVec 32} (h : Inv word ops n s) (ho : ops[n]? = some (.exec t))
    (hx : Going word ops (n + 1) t x) : Inv word ops (n + 1) { { s with word := w }.setThr t x with now := s.now + 1 } := by
  refine ⟨congrArg (· + 1) h.now, fun u => ?_, fun c hc => (h.completed c hc).succ⟩
  by_cases hu : u = t
  · subst hu
    exact .inr (by simpa [St.setThr] using hx)
  · have hsame : ({ { s with word := w }.setThr t x with now := s.now + 1 } : St).thr u = s.thr u := by
      simp [St.setThr, hu]
    rw [hsame]
    exact (h.thr u).imp_right fun hg => hg.other ho fun heq => hu (Op.exec.inj heq).symm

/-- one thread returns -/
theorem Inv.ret (h : Inv word ops n s) (ho : ops[n]? = some (.exec t)) (hg : Going word ops n t (s.thr t))
    (hx : x.start = (s.thr t).start ∧ x.way = (s.thr t).way ∧ x.source = (s.thr t).source ∧ x.mask = (s.thr t).mask)
    (honce : Once word (Own ops t) x.start n x.dest (merge x.source x.mask x.dest)) :
    Inv word ops (n + 1) { s.ret t x with now := s.now + 1 } := by
  refine ⟨congrArg (· + 1) h.now, fun u => ?_, fun c hc => ?_⟩
  · by_cases hu : u = t
    · subst hu
      exact .inl (by simp [St.ret, St.setThr])
    · have hsame : ({ s.ret t x with now := s.now + 1 } : St).thr u = s.thr u := by simp [St.ret, St.setThr, hu]
      rw [hsame]
      exact (h.thr u).imp_right fun hg => hg.other ho fun heq => hu (Op.exec.inj heq).symm
  · rcases List.mem_append.mp hc with hc | hc
    · exact (h.completed c hc).succ
    · obtain rfl := List.mem_singleton.mp hc
      obtain ⟨h1, h2, h3, h4⟩ := hx
      refine ⟨?_, ?_, ?_, ?_⟩
      · show s.now < n + 1
        rw [h.now]
        exact Nat.lt_succ_self n
      · show ops[x.start]? = some (.call t x.way x.source x.mask)
        rw [h1, h2, h3, h4]
        exact hg.call
      · show ops[s.now]? = _
        rw [h.now]
        exact ho
      · show Once word (Own ops t) x.start s.now x.dest (merge x.source x.mask x.dest)
        rw [h.now]
        exact honce

/-- the next step of a call -/
theorem Inv.exec (h : Inv word ops n s) (ho : ops[n]? = some (.exec t)) (hg : Going word ops n t (s.thr t))
    (hpc : (s.thr t).pc ≠ .idle) (hw : word n = s.word) (hw' : word (n + 1) = (exec s t (s.thr t)).word) :
    Inv word ops (n + 1) { exec s t (s.thr t) with now := s.now + 1 } := by
  have hphase := hg.phase
  unfold Phase at hphase
  unfold Mswap.exec at hw' ⊢
  generalize hx : s.thr t = x at hg hpc hphase hw' ⊢
  have hown : Own ops t n := ho
  cases hcode : x.pc with
  | idle => exact absurd hcode hpc
  | fetch =>
    simp only [hcode] at hphase hw' ⊢
    exact h.goto ho (hg.goto rfl rfl rfl rfl (hphase.succ fun _ => hw'.trans hw.symm))
  | copy v =>
    simp only [hcode] at hphase hw' ⊢
    exact h.goto ho (hg.goto rfl rfl rfl rfl ⟨rfl, hphase.succ fun _ => hw'.trans hw.symm⟩)
  | cswap v =>
    simp only [hcode, setThr_word] at hphase hw' ⊢
    obtain ⟨hdest, hphase⟩ := hphase
    refine h.goto ho (hg.goto rfl rfl rfl rfl ?_)
    simp only [Phase]
    split_ifs at hw' ⊢ with heq
    · -- the word is what the thread has read: this is the instant
      exact hphase.once hg.start hown (hw.trans heq) (hw'.trans hdest)
    · exact hphase.succ fun _ => hw'.trans hw.symm
  | check v =>
    simp only [hcode] at hphase hw' ⊢
    split_ifs at hphase hw' ⊢ with hdest
    · subst hx
      refine h.ret ho hg ⟨rfl, rfl, rfl, rfl⟩ ?_
      rw [hdest]
      exact hphase
    · exact h.goto ho (hg.goto rfl rfl rfl rfl (hphase.succ fun _ => hw'.trans hw.symm))
  | load =>
    simp only [hcode] at hphase hw' ⊢
    exact h.goto ho (hg.goto rfl rfl rfl rfl (hphase.succ fun _ => hw'.trans hw.symm))
  | exchange v =>
    simp only [hcode] at hphase hw' ⊢
    split_ifs at hw' ⊢ with heq
    · refine h.goto ho (hg.goto rfl rfl rfl rfl ?_)
      exact hphase.once hg.start hown (hw.trans heq) hw'
    · refine h.goto ho (hg.goto rfl rfl rfl rfl ?_)
      exact hphase.succ fun _ => hw'.trans hw.symm
  | store v done =>
    simp only [hcode] at hphase hw' ⊢
    split_ifs at hphase hw' ⊢
    · subst hx
      exact h.ret ho hg ⟨rfl, rfl, rfl, rfl⟩ hphase
    · exact h.goto ho (hg.goto rfl rfl rfl rfl (hphase.succ fun _ => hw'.trans hw.symm))

/-- nothing happens to the threads -/
theorem Inv.same {w : BitVec 32} (h : Inv word ops n s) (ho : ops[n]? = some o)
    (hidle : ∀ u, o = .exec u → (s.thr u).pc = .idle) : Inv word ops (n + 1) { s with word := w, now := s.now + 1 } := by
  refine ⟨congrArg (· + 1) h.now, fun u => ?_, fun c hc => (h.completed c hc).succ⟩
  by_cases hu : o = .exec u
  · exact .inl (hidle u hu)
  · exact (h.thr u).imp_right fun hg => hg.other ho hu

/-- a call begins -/
theorem Going.start_call {way : Way} {source mask dest : BitVec 32} (ho : ops[n]? = some (.call t way source mask)) :
    Going word ops (n + 1) t ⟨way.first, source, mask, dest, way, n⟩ := by
  refine ⟨Nat.lt_succ_self n, ho, ?_⟩
  cases way <;> exact Unchanged.start word (Own ops t) n

theorem Inv.call {way : Way} {source mask : BitVec 32} (h : Inv word ops n s)
    (ho : ops[n]? = some (.call t way source mask)) : Inv word ops (n + 1) (step s (.call t way source mask)) := by
  simp only [step, act]
  split
  · refine ⟨congrArg (· + 1) h.now, fun u => ?_, fun c hc => (h.completed c hc).succ⟩
    by_cases hu : u = t
    · subst hu
      right
      simp only [setThr_thr_self]
      rw [h.now]
      exact Going.start_call ho
    · have hsame : ∀ x, (s.setThr t x).thr u = s.thr u := fun x => setThr_thr_ne s x hu
      simp only [hsame]
      exact (h.thr u).imp_right fun hg => hg.other ho Op.noConfusion
  · exact h.same ho fun u heq => absurd heq Op.noConfusion

theorem Inv.step (h : Inv word ops n s) (ho : ops[n]? = some o) (hw : word n = s.word)
    (hw' : word (n + 1) = (step s o).word) : Inv word ops (n + 1) (step s o) := by
  cases o with
  | call t way source mask => exact h.call ho
  | exec t =>
    by_cases hidle : (s.thr t).pc = .idle
    · have hsame : Mswap.exec s t (s.thr t) = s := by
        unfold Mswap.exec
        rw [hidle]
      simp only [Mswap.step, act, hsame]
      refine h.same ho fun u heq => ?_
      rw [← Op.exec.inj heq]
      exact hidle
    · exact h.exec ho ((h.thr t).resolve_left hidle) hidle hw hw'
  | other f => exact h.same ho fun u heq => absurd heq Op.noConfusion

end

/-! ## Runs -/

/-- the word before step k of a schedule -/
def wordAt (w : BitVec 32) (ops : List Op) (k : ℕ) : BitVec 32 := (Runs.run step (init w) (ops.take k)).word

theorem inv_run (w : BitVec 32) (ops : List Op) :
    ∀ n ≤ ops.length, Inv (wordAt w ops) ops n (Runs.run step (init w) (ops.take n)) := by
  refine Runs.run_inv_at step (init w) ops (Inv (wordAt w ops) ops) (inv_init w) fun n o ho h => ?_
  refine h.step ho rfl ?_
  rw [wordAt, Runs.run_take_succ step (init w) ho]

/-- a thread that is about to write has the new value -/
theorem Going.writes {word : ℕ → BitVec 32} {ops : List Op} {n : ℕ} {x : Thread} {v : BitVec 32}
    (h : Going word ops n t x) (hpc : x.pc = .cswap v) : x.dest = merge x.source x.mask v := by
  have hphase := h.phase
  unfold Phase at hphase
  simp only [hpc] at hphase
  exact hphase.1

/-- **A masked swap is atomic.** In every run, with any calls of both loops in any threads and any other updates:

- every call that has returned has one step between its first and its last with which the word changed from the value left
  in dest to that value with the bits of the mask from source, and with no other step it changed the word;
- no step of any call changes a bit outside its mask, and a step that is no successful attempt leaves the word alone. -/
theorem mswap_atomic (w : BitVec 32) (ops : List Op) :
    let s := Runs.run step (init w) ops
    (∀ c ∈ s.completed, c.stop < ops.length ∧ ops[c.start]? = some (.call c.thread c.way c.source c.mask) ∧
        ops[c.stop]? = some (.exec c.thread) ∧
        Once (wordAt w ops) (Own ops c.thread) c.start c.stop c.dest (merge c.source c.mask c.dest)) ∧
      ∀ t, (step s (.exec t)).word &&& ~~~(s.thr t).mask = s.word &&& ~~~(s.thr t).mask ∧
        ((s.thr t).pc ≠ .cswap s.word → (s.thr t).pc ≠ .exchange s.word → (step s (.exec t)).word = s.word) := by
  intro s
  have h : Inv (wordAt w ops) ops ops.length s := by
    have hrun := inv_run w ops ops.length (Nat.le_refl _)
    rwa [List.take_length] at hrun
  refine ⟨fun c hc => ?_, fun t => ?_⟩
  · have hfin := h.completed c hc
    exact ⟨hfin.stop, hfin.call, hfin.ret, hfin.once⟩
  · show (exec s t (s.thr t)).word &&& _ = _ ∧ (_ → _ → (exec s t (s.thr t)).word = s.word)
    rcases exec_word s t (s.thr t) with hsame | ⟨hpc, hword⟩ | ⟨hpc, hword⟩
    · rw [hsame]
      exact ⟨rfl, fun _ _ => rfl⟩
    · have hg : Going (wordAt w ops) ops ops.length t (s.thr t) :=
        (h.thr t).resolve_left (by rw [hpc]; exact Pc.noConfusion)
      rw [hword, hg.writes hpc]
      exact ⟨merge_outside _ _ _, fun hne _ => absurd hpc hne⟩
    · rw [hword]
      exact ⟨merge_outside _ _ _, fun _ hne => absurd hpc hne⟩

/-- thread 0 sets the upper half and thread 1 the lower half: the first attempt of thread 0 fails, and both updates stay -/
example :
    (Runs.run step (init 0) ([.call 0 .ucx 0xAAAA0000#32 0xFFFF0000#32, .exec 0, .exec 0, .call 1 .shr 0xBBBB#32 0xFFFF#32] ++
      List.replicate 3 (.exec 1) ++ List.replicate 6 (.exec 0))).completed =
        [⟨1, .shr, 0xBBBB#32, 0xFFFF#32, 0, 3, 6⟩, ⟨0, .ucx, 0xAAAA0000#32, 0xFFFF0000#32, 0xBBBB#32, 0, 12⟩] := by
  decide +kernel

end SandiaShmem.Transport.Mswap
