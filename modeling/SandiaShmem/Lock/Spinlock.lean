/-
The ticket spinlock of the library's threads (`src/shmem_atomic.h`).

`shmem_spinlock_lock` takes a ticket from `enter` and loads `exit` until it reads its ticket, `shmem_spinlock_unlock`
adds one to `exit`. Both counters have w bits and wrap around. Every atomic access is a step of its own, and a schedule
is any list of them: the fetch_add of a lock, one load of its loop, an unlock. A thread unlocks only what it holds.

The abstract lock is `FifoLock`: the fetch_add on `enter` joins the queue, the load that reads the ticket acquires.
- `step_inv`: each step keeps the queue and the tickets in it aligned with `exit`, while fewer than 2^w threads are in.
- `spinlock_ok`: after every schedule the holder is unique, the tickets are served in order, `enter - exit` counts the
  holder and the waiting threads, and `shmem_spinlock_fini` passes when there are none. Witness: `spinlock_ok_three`.
-/
import SandiaShmem.Core.FifoLock
import SandiaShmem.Core.Runs
import Mathlib.Data.Set.Card
import Mathlib.Tactic

namespace SandiaShmem.Lock.Spinlock

open FifoLock

variable {T : Type*} [DecidableEq T] {w : ℕ}

/-- where a thread is: outside, in the loop of `shmem_spinlock_lock` with its ticket, past it -/
inductive Pc (w : ℕ) where
  | idle
  | spin (val : BitVec w)
  | past
deriving DecidableEq, Repr

/-- `shmem_spinlock_t`, the threads, and what has happened so far -/
structure St (T : Type*) (w : ℕ) where
  enter : BitVec w
  exit : BitVec w
  pc : T → Pc w
  hist : List (Ev T)

/-- the steps: the fetch_add of `shmem_spinlock_lock`, one load of its loop, `shmem_spinlock_unlock` -/
inductive Op (T : Type*) where
  | lock (t : T)
  | load (t : T)
  | unlock (t : T)
deriving DecidableEq, Repr

/-- the counters at any equal value (`shmem_spinlock_init` stores 0), no thread in -/
def init (c : BitVec w) : St T w := ⟨c, c, fun _ => .idle, []⟩

/-- `val = __atomic_fetch_add(&lock->enter, 1)` -/
def lock (t : T) (s : St T w) : St T w :=
  { s with enter := s.enter + 1, pc := Function.update s.pc t (.spin s.enter), hist := s.hist ++ [.enqueue t] }

/-- the load that reads the ticket ends the loop -/
def past (t : T) (s : St T w) : St T w :=
  { s with pc := Function.update s.pc t .past, hist := s.hist ++ [.acquire t] }

/-- `__atomic_fetch_add(&lock->exit, 1)` -/
def unlock (t : T) (s : St T w) : St T w :=
  { s with exit := s.exit + 1, pc := Function.update s.pc t .idle, hist := s.hist ++ [.release t] }

/-- one step of the schedule; it changes nothing when the thread is not there -/
def step (s : St T w) : Op T → St T w
  | .lock t => if s.pc t = .idle then lock t s else s
  | .load t =>
    match s.pc t with
    | .spin val => if val = s.exit then past t s else s
    | _ => s
  | .unlock t => if s.pc t = .past then unlock t s else s

/-- the threads that hold or wait -/
def active (s : St T w) : Set T := {t | s.pc t ≠ .idle}

/-- the assertion of `shmem_spinlock_fini` -/
def fini (s : St T w) : Bool := s.enter = s.exit

/-- what the lock promises -/
structure LockOk (s : St T w) : Prop where
  exclusive : ∀ t u, s.pc t = .past → s.pc u = .past → t = u
  order : acquired s.hist <+: enqueued s.hist
  count : ((s.enter - s.exit).toNat : ℕ∞) = (active s).encard
  fini : active s = ∅ → fini s = true

/-! ## The tickets of the queue -/

/-- the abstract lock with the queue q: the i-th thread of the queue has the ticket `exit + i` -/
structure Inv (s : St T w) (q : FifoLock.St T) : Prop where
  acc : accepts FifoLock.init s.hist = some q
  enter : s.enter = s.exit + BitVec.ofNat w q.queue.length
  queued : ∀ i t, q.queue[i]? = some t →
    s.pc t = if i = 0 ∧ q.granted = true then .past else .spin (s.exit + BitVec.ofNat w i)
  idle : ∀ t, t ∉ q.queue → s.pc t = .idle

/-- a ticket of the queue is the value of `exit` only at its head -/
theorem eq_zero_of_ticket {x : BitVec w} {i : ℕ} (hi : i < 2 ^ w) (h : x + BitVec.ofNat w i = x) : i = 0 := by
  have h0 : BitVec.ofNat w i = 0#w := by simpa using h
  have hn := congrArg BitVec.toNat h0
  rwa [BitVec.toNat_ofNat, Nat.mod_eq_of_lt hi, BitVec.toNat_ofNat, Nat.zero_mod] at hn

theorem ofNat_succ (n : ℕ) : BitVec.ofNat w (n + 1) = BitVec.ofNat w n + 1 := by
  rw [BitVec.ofNat_add]; rfl

theorem init_inv (c : BitVec w) : Inv (init c : St T w) FifoLock.init := by
  refine ⟨rfl, ?_, fun i t h => ?_, fun t _ => rfl⟩
  · simp [init, FifoLock.init]
  · simp [FifoLock.init] at h

variable {s : St T w} {q : FifoLock.St T}

theorem Inv.nodup (h : Inv s q) : q.queue.Nodup := (accepts_book _ _ h.acc).nodup

/-- a thread is in the queue once it has its ticket -/
theorem Inv.mem_iff (h : Inv s q) (t : T) : t ∈ q.queue ↔ s.pc t ≠ .idle := by
  constructor
  · intro ht
    obtain ⟨i, hi⟩ := List.mem_iff_getElem?.mp ht
    rw [h.queued i t hi]
    split_ifs <;> simp
  · intro hpc
    by_contra ht
    exact hpc (h.idle t ht)

theorem Inv.encard (h : Inv s q) : (active s).encard = q.queue.length := by
  have hset : active s = (q.queue.toFinset : Set T) := by
    ext t
    simp [active, h.mem_iff]
  rw [hset, Set.encard_coe_eq_coe_finsetCard, List.toFinset_card_of_nodup h.nodup]

/-- a holder is the head of the queue, and the head has been granted the lock -/
theorem Inv.of_past (h : Inv s q) {t : T} (ht : s.pc t = .past) : q.queue.head? = some t ∧ q.granted = true := by
  have hmem : t ∈ q.queue := (h.mem_iff t).mpr (by simp [ht])
  obtain ⟨i, hi⟩ := List.mem_iff_getElem?.mp hmem
  have hpc := h.queued i t hi
  rw [ht] at hpc
  split_ifs at hpc with h0
  rw [List.head?_eq_getElem?, ← h0.1]
  exact ⟨hi, h0.2⟩

/-- a waiting thread that reads its ticket is the head of the queue, and the lock is free -/
theorem Inv.of_spin (h : Inv s q) (hlen : q.queue.length < 2 ^ w) {t : T} (ht : s.pc t = .spin s.exit) :
    q.queue.head? = some t ∧ q.granted = false := by
  have hmem : t ∈ q.queue := (h.mem_iff t).mpr (by simp [ht])
  obtain ⟨i, hi⟩ := List.mem_iff_getElem?.mp hmem
  have hpc := h.queued i t hi
  rw [ht] at hpc
  split_ifs at hpc with h0
  have hlt : i < q.queue.length := (List.getElem?_eq_some_iff.mp hi).1
  have hi0 : i = 0 := eq_zero_of_ticket (hlt.trans hlen) (Pc.spin.inj hpc).symm
  rw [List.head?_eq_getElem?, ← hi0]
  exact ⟨hi, by simpa [hi0] using h0⟩

/-! ## The steps -/

/-- the new ticket is the one after the last of the queue -/
theorem lock_inv (h : Inv s q) {t : T} (ht : s.pc t = .idle) : Inv (lock t s) { q with queue := q.queue ++ [t] } := by
  have hnot : t ∉ q.queue := fun hm => (h.mem_iff t).mp hm ht
  have hheld := (accepts_book _ _ h.acc).held
  constructor
  · rw [lock, accepts_snoc, h.acc]
    simp [FifoLock.step, hnot]
  · simp only [lock, List.length_append, List.length_singleton]
    rw [ofNat_succ, ← BitVec.add_assoc, ← h.enter]
  · intro i u hu
    rw [List.getElem?_append] at hu
    split_ifs at hu with hlt
    · have hne : u ≠ t := fun e => hnot (e ▸ List.mem_of_getElem? hu)
      simpa [lock, Function.update_of_ne hne] using h.queued i u hu
    · obtain ⟨hi, rfl⟩ : i = q.queue.length ∧ t = u := by
        rw [List.getElem?_singleton] at hu
        split_ifs at hu with h0
        exact ⟨by omega, Option.some.inj hu⟩
      -- an empty queue has granted nothing
      have hfree : ¬ (i = 0 ∧ q.granted = true) := fun h0 =>
        hheld h0.2 (List.length_eq_zero_iff.mp (hi.symm.trans h0.1))
      rw [if_neg hfree, hi]
      exact (Function.update_self ..).trans (congrArg Pc.spin h.enter)
  · intro u hu
    rw [List.mem_append, not_or, List.mem_singleton] at hu
    simpa [lock, Function.update_of_ne hu.2] using h.idle u hu.1

/-- the head gets the lock -/
theorem past_inv (h : Inv s q) {t : T} (hhead : q.queue.head? = some t) (hfree : q.granted = false) :
    Inv (past t s) { q with granted := true } := by
  constructor
  · rw [past, accepts_snoc, h.acc]
    simp [FifoLock.step, hhead, hfree]
  · exact h.enter
  · intro i u hu
    rw [List.head?_eq_getElem?] at hhead
    by_cases hi : i = 0
    · obtain rfl : t = u := Option.some.inj (hhead.symm.trans (hi ▸ hu))
      rw [if_pos ⟨hi, rfl⟩]
      exact Function.update_self ..
    · have hne : u ≠ t := by
        rintro rfl
        have hlt := (List.getElem?_eq_some_iff.mp hu).1
        exact hi ((List.getElem?_inj hlt h.nodup).mp (hu.trans hhead.symm))
      have hpc := h.queued i u hu
      rw [if_neg fun h0 => hi h0.1] at hpc ⊢
      exact (Function.update_of_ne hne ..).trans hpc
  · intro u hu
    have hne : u ≠ t := fun e => hu (e ▸ List.mem_of_head? hhead)
    exact (Function.update_of_ne hne ..).trans (h.idle u hu)

/-- the head leaves: every ticket behind it is one nearer to `exit` -/
theorem unlock_inv (h : Inv s q) {t : T} (hhead : q.queue.head? = some t) (hheld : q.granted = true) :
    Inv (unlock t s) ⟨q.queue.tail, false⟩ := by
  obtain ⟨rest, hq⟩ : ∃ rest, q.queue = t :: rest := List.head?_eq_some_iff.mp hhead
  have hnot : t ∉ rest := (List.nodup_cons.mp (hq ▸ h.nodup)).1
  constructor
  · rw [unlock, accepts_snoc, h.acc]
    simp [FifoLock.step, hhead, hheld]
  · have he := h.enter
    rw [hq, List.length_cons, ofNat_succ] at he
    simp only [unlock, hq, List.tail_cons]
    rw [he, BitVec.add_assoc, BitVec.add_comm 1]
  · intro i u hu
    rw [hq, List.tail_cons] at hu
    have hne : u ≠ t := fun e => hnot (e ▸ List.mem_of_getElem? hu)
    have hpc := h.queued (i + 1) u (by rw [hq, List.getElem?_cons_succ, hu])
    rw [if_neg (by simp), ofNat_succ] at hpc
    rw [if_neg (by simp)]
    simp only [unlock, Function.update_of_ne hne, hpc]
    rw [BitVec.add_assoc, BitVec.add_comm 1]
  · intro u hu
    rw [hq, List.tail_cons] at hu
    by_cases hut : u = t
    · exact hut ▸ Function.update_self ..
    · have hidle := h.idle u (by rw [hq, List.mem_cons, not_or]; exact ⟨hut, hu⟩)
      exact (Function.update_of_ne hut ..).trans hidle

/-- each step keeps the tickets aligned -/
theorem step_inv (h : Inv s q) (hfew : (active s).encard < 2 ^ w) (o : Op T) : ∃ q', Inv (step s o) q' := by
  rw [h.encard] at hfew
  have hlen : q.queue.length < 2 ^ w := by exact_mod_cast hfew
  cases o with
  | lock t =>
    simp only [step]
    split_ifs with ht
    · exact ⟨_, lock_inv h ht⟩
    · exact ⟨q, h⟩
  | load t =>
    simp only [step]
    split
    · rename_i val hval
      split_ifs with he
      · have hspin := h.of_spin hlen (he ▸ hval)
        exact ⟨_, past_inv h hspin.1 hspin.2⟩
      · exact ⟨q, h⟩
    · exact ⟨q, h⟩
  | unlock t =>
    simp only [step]
    split_ifs with ht
    · have hpast := h.of_past ht
      exact ⟨_, unlock_inv h hpast.1 hpast.2⟩
    · exact ⟨q, h⟩

/-- what the aligned tickets say about the lock -/
theorem lockOk_of_inv (h : Inv s q) (hfew : (active s).encard < 2 ^ w) : LockOk s := by
  have hlen : q.queue.length < 2 ^ w := by
    rw [h.encard] at hfew
    exact_mod_cast hfew
  refine ⟨fun t u ht hu => ?_, acquired_prefix _ _ h.acc, ?_, fun hnone => ?_⟩
  · exact Option.some.inj ((h.of_past ht).1.symm.trans (h.of_past hu).1)
  · rw [h.encard, h.enter, BitVec.add_comm, BitVec.add_sub_cancel, BitVec.toNat_ofNat, Nat.mod_eq_of_lt hlen]
  · have h0 : (q.queue.length : ℕ∞) = 0 := by rw [← h.encard, hnone, Set.encard_empty]
    have hq : q.queue.length = 0 := by exact_mod_cast h0
    simp [fini, h.enter, hq]

omit [DecidableEq T] in
/-- there are never 2^w threads in when there are fewer of them at all -/
theorem few_of_card [Fintype T] (hT : Fintype.card T < 2 ^ w) (s : St T w) : (active s).encard < 2 ^ w := by
  apply Set.encard_le_card.trans_lt
  rw [ENat.card_eq_coe_fintype_card]
  exact_mod_cast hT

/-- **The spinlock is safe.** In every schedule in which at no time 2^w threads or more hold or wait, whatever the equal
values the counters start from. -/
theorem spinlock_ok (c : BitVec w) (ops : List (Op T))
    (hfew : ∀ n, (active (Runs.run step (init c) (ops.take n))).encard < 2 ^ w) : LockOk (Runs.run step (init c) ops) := by
  have hinv : ∀ n ≤ ops.length, ∃ q, Inv (Runs.run step (init c) (ops.take n)) q :=
    Runs.run_inv_at step (init c) ops (fun _ s => ∃ q, Inv s q) ⟨_, init_inv c⟩
      fun n o _ ⟨_, hq⟩ => step_inv hq (hfew n) o
  obtain ⟨q, hq⟩ := hinv ops.length le_rfl
  have hend := hfew ops.length
  rw [List.take_length] at hq hend
  exact lockOk_of_inv hq hend

/-- three threads on two-bit counters that start at 3: `enter` wraps at once, and thread 1 has the ticket 0 -/
def wrapping : List (Op (Fin 3)) := [.lock 0, .lock 1, .load 1, .load 0, .lock 2, .unlock 0, .load 2, .load 1]

/-- thread 1 waits while thread 0 is past, and enters before thread 2 -/
theorem spinlock_ok_three :
    ((Runs.run step (init 3#2) (wrapping.take 4)).pc 0 = .past ∧ (Runs.run step (init 3#2) (wrapping.take 4)).pc 1 = .spin 0 ∧
      acquired (Runs.run step (init 3#2) wrapping).hist = [0, 1]) ∧
    LockOk (Runs.run step (init 3#2) wrapping) :=
  ⟨by decide, spinlock_ok 3#2 _ fun _ => few_of_card (by decide) _⟩

end SandiaShmem.Lock.Spinlock
