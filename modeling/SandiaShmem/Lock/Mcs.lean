/-
The distributed MCS lock of `src/shmem_lock.h`: `shmem_internal_set_lock`, `shmem_internal_test_lock` and
`shmem_internal_clear_lock` on one `lock_t`, for any number of PEs and any interleaving.

State: `last` (the word on PE 0), `data` (the word of every PE: NEXT in the low 31 bits, SIGNAL in the top bit) and,
for every PE, where it is in the code (`Pc`, with the local variables that are still read). Both words are C `int`s,
so they are 32-bit vectors; a PE number plus one is stored in them, which is why a job has fewer than 2^31 PEs.

Steps, one for each call of the transport (each is one atomic step on its target word):
- `atomic_set` + `quiet` of the own `data` word (`setInit`, `testInit`);
- `swap` and `cswap` of `last` (`setSwap`, `testCswap`, `clearCswap`);
- `mswap` of the NEXT or of the SIGNAL bits of another PE's `data` (`setLink`, `clearSignal`);
- `atomic_fetch` of the own `data` word and the exit test after it (`setFetch`, `clearFetch`);
- leaving `SHMEM_WAIT(&(lock->data), cur_data)` (`setWait`, `clearWait`).
A PE starts `set_lock` or `test_lock` only when it is idle and `clear_lock` only when it holds the lock.

The history `log` records when a PE's `swap` or successful `cswap` took effect (`enqueue`), when a PE got the lock
(`acquire`) and when its release took effect (`release`), in the vocabulary of `FifoLock`.
-/
import SandiaShmem.Core.Runs
import SandiaShmem.Core.FifoLock

namespace SandiaShmem.Lock

open FifoLock (Ev)

/-! ## Words -/

/-- a C `int` -/
abbrev Word := BitVec 32

def NEXT_MASK : Word := 0x7FFFFFFF#32

def SIGNAL_MASK : Word := 0x80000000#32

/-- `NEXT(A)` -/
def NEXT (a : Word) : Word := a &&& NEXT_MASK

/-- `SIGNAL(A)` -/
def SIGNAL (a : Word) : Word := a &&& SIGNAL_MASK

/-- the masked swap: the bits of `mask` come from `src`, the others stay -/
def mswap (old src mask : Word) : Word := (old &&& ~~~mask) ||| (src &&& mask)

/-- `shmem_internal_my_pe + 1` -/
def me (p : ℕ) : Word := BitVec.ofNat 32 (p + 1)

/-- the PE a non-zero link names: `curr - 1` -/
def peOf (w : Word) : ℕ := (w - 1).toNat

/-- a job: `shmem_internal_num_pes` is a positive `int` -/
structure Job where
  numPes : ℕ
  pos : 0 < numPes
  int : numPes < 2 ^ 31

/-! ## The lock -/

/-- where a PE is in the code of the lock, before the step named -/
inductive Pc where
  | idle
  | setInit
  | setSwap
  | setLink (curr : Word)
  | setFetch
  | setWait (cur_data : Word)
  | held
  | testInit
  | testCswap
  | clearCswap
  | clearFetch
  | clearWait (cur_data : Word)
  | clearSignal (cur_data : Word)
deriving DecidableEq, Repr

structure St where
  last : Word
  data : ℕ → Word
  pc : ℕ → Pc

/-- the lock is all-zero on every PE, and nobody is in its code -/
def init : St := ⟨0, fun _ => 0, fun _ => .idle⟩

inductive Op where
  | setLock (p : ℕ)
  | testLock (p : ℕ)
  | clearLock (p : ℕ)
  | exec (p : ℕ)
deriving DecidableEq, Repr

def St.goto (s : St) (p : ℕ) (c : Pc) : St := { s with pc := Function.update s.pc p c }

def St.store (s : St) (p : ℕ) (w : Word) : St := { s with data := Function.update s.data p w }

def St.setLast (s : St) (w : Word) : St := { s with last := w }

@[simp] theorem St.goto_last (s : St) (p : ℕ) (c : Pc) : (s.goto p c).last = s.last := rfl
@[simp] theorem St.goto_data (s : St) (p : ℕ) (c : Pc) : (s.goto p c).data = s.data := rfl
@[simp] theorem St.goto_pc (s : St) (p : ℕ) (c : Pc) : (s.goto p c).pc = Function.update s.pc p c := rfl
@[simp] theorem St.store_last (s : St) (p : ℕ) (w : Word) : (s.store p w).last = s.last := rfl
@[simp] theorem St.store_data (s : St) (p : ℕ) (w : Word) : (s.store p w).data = Function.update s.data p w := rfl
@[simp] theorem St.store_pc (s : St) (p : ℕ) (w : Word) : (s.store p w).pc = s.pc := rfl
@[simp] theorem St.setLast_last (s : St) (w : Word) : (s.setLast w).last = w := rfl
@[simp] theorem St.setLast_data (s : St) (w : Word) : (s.setLast w).data = s.data := rfl
@[simp] theorem St.setLast_pc (s : St) (w : Word) : (s.setLast w).pc = s.pc := rfl

/-- the next step of PE p inside `set_lock`, `test_lock` or `clear_lock` -/
def exec (s : St) (p : ℕ) : St :=
  match s.pc p with
  | .idle => s
  -- shmem_internal_set_lock
  | .setInit => (s.store p 0).goto p .setSwap
  | .setSwap =>
    let curr := s.last
    (s.setLast (me p)).goto p (if curr ≠ 0 then .setLink curr else .held)
  | .setLink curr => (s.store (peOf curr) (mswap (s.data (peOf curr)) (me p) NEXT_MASK)).goto p .setFetch
  | .setFetch => s.goto p (if SIGNAL (s.data p) ≠ 0 then .held else .setWait (s.data p))
  | .setWait cur_data => if s.data p ≠ cur_data then s.goto p .setFetch else s
  | .held => s
  -- shmem_internal_test_lock: cswap of last from 0 to me; 0 is returned iff it succeeds
  | .testInit => (s.store p 0).goto p .testCswap
  | .testCswap => if s.last = 0 then (s.setLast (me p)).goto p .held else s.goto p .idle
  -- shmem_internal_clear_lock: cswap of last from me to 0
  | .clearCswap => if s.last = me p then (s.setLast 0).goto p .idle else s.goto p .clearFetch
  | .clearFetch => s.goto p (if NEXT (s.data p) ≠ 0 then .clearSignal (s.data p) else .clearWait (s.data p))
  | .clearWait cur_data => if s.data p ≠ cur_data then s.goto p .clearFetch else s
  | .clearSignal cur_data =>
    (s.store (peOf (NEXT cur_data)) (mswap (s.data (peOf (NEXT cur_data))) SIGNAL_MASK SIGNAL_MASK)).goto p .idle

/-- the events of that step -/
def execEvents (s : St) (p : ℕ) : List (Ev ℕ) :=
  match s.pc p with
  | .setSwap => if s.last ≠ 0 then [.enqueue p] else [.enqueue p, .acquire p]
  | .setFetch => if SIGNAL (s.data p) ≠ 0 then [.acquire p] else []
  | .testCswap => if s.last = 0 then [.enqueue p, .acquire p] else []
  | .clearCswap => if s.last = me p then [.release p] else []
  | .clearSignal _ => [.release p]
  | _ => []

/-- one step of the job: a PE of the job calls a lock function, if it may, or goes on inside one -/
def step (J : Job) (s : St) : Op → St
  | .setLock p => if p < J.numPes ∧ s.pc p = .idle then s.goto p .setInit else s
  | .testLock p => if p < J.numPes ∧ s.pc p = .idle then s.goto p .testInit else s
  | .clearLock p => if p < J.numPes ∧ s.pc p = .held then s.goto p .clearCswap else s
  | .exec p => if p < J.numPes then exec s p else s

def events (J : Job) (s : St) : Op → List (Ev ℕ)
  | .exec p => if p < J.numPes then execEvents s p else []
  | _ => []

def run (J : Job) (ops : List Op) : St := Runs.run (step J) init ops

/-- PE p holds the lock: `set_lock`, or a `test_lock` that returned 0, has returned, and `clear_lock` is not called -/
def Holds (s : St) (p : ℕ) : Prop := s.pc p = .held

instance (s : St) (p : ℕ) : Decidable (Holds s p) := inferInstanceAs (Decidable (_ = _))

/-! ## The history -/

/-- PE p's next step is its swap or cswap on `last`, to get the lock -/
def atLast (s : St) (p : ℕ) : Prop := s.pc p = .setSwap ∨ s.pc p = .testCswap

instance (s : St) (p : ℕ) : Decidable (atLast s p) := inferInstanceAs (Decidable (_ ∨ _))

/-- for every PE, whether its latest swap or cswap on `last` to get the lock returned 0 -/
def returned (J : Job) (s : St) (r : ℕ → Bool) : Op → ℕ → Bool
  | .exec p => if p < J.numPes ∧ atLast s p then Function.update r p (decide (s.last = 0)) else r
  | _ => r

/-- the lock, the history of its events and what the swaps and cswaps on `last` returned -/
structure LSt where
  c : St
  log : List (Ev ℕ)
  ret0 : ℕ → Bool

def linit : LSt := ⟨init, [], fun _ => false⟩

def stepL (J : Job) (t : LSt) (o : Op) : LSt :=
  ⟨step J t.c o, t.log ++ events J t.c o, returned J t.c t.ret0 o⟩

def runL (J : Job) (ops : List Op) : LSt := Runs.run (stepL J) linit ops

/-- the projection is exact: the history does not influence the lock -/
theorem runL_c (J : Job) (ops : List Op) : (runL J ops).c = run J ops :=
  Runs.run_map LSt.c (stepL J) (step J) (fun _ _ => rfl) linit ops

/-! ## Bit facts -/

theorem getLsbD_NEXT_MASK (i : ℕ) : NEXT_MASK.getLsbD i = decide (i < 31) := by
  by_cases h : i < 32
  · interval_cases i <;> decide
  · rw [BitVec.getLsbD_of_ge _ _ (by omega)]; simp; omega

theorem getLsbD_SIGNAL_MASK (i : ℕ) : SIGNAL_MASK.getLsbD i = decide (i = 31) := by
  by_cases h : i < 32
  · interval_cases i <;> decide
  · rw [BitVec.getLsbD_of_ge _ _ (by omega)]; simp; omega

@[simp] theorem NEXT_zero : NEXT 0 = 0 := by decide

@[simp] theorem SIGNAL_zero : SIGNAL 0 = 0 := by decide

@[simp] theorem NEXT_NEXT (w : Word) : NEXT (NEXT w) = NEXT w := by
  simp [NEXT, BitVec.and_assoc]

/-- storing NEXT bits gives the stored link -/
theorem NEXT_mswap_next (d w : Word) : NEXT (mswap d w NEXT_MASK) = NEXT w := by
  apply BitVec.eq_of_getLsbD_eq
  intro i hi
  simp only [NEXT, mswap, BitVec.getLsbD_and, BitVec.getLsbD_or, BitVec.getLsbD_not, getLsbD_NEXT_MASK]
  by_cases h : i < 31 <;> simp [h]

/-- storing NEXT bits leaves SIGNAL -/
theorem SIGNAL_mswap_next (d w : Word) : SIGNAL (mswap d w NEXT_MASK) = SIGNAL d := by
  apply BitVec.eq_of_getLsbD_eq
  intro i hi
  simp only [SIGNAL, mswap, BitVec.getLsbD_and, BitVec.getLsbD_or, BitVec.getLsbD_not, getLsbD_NEXT_MASK,
    getLsbD_SIGNAL_MASK]
  by_cases h : i = 31 <;> simp [h]

/-- setting the SIGNAL bit leaves NEXT -/
theorem NEXT_mswap_signal (d : Word) : NEXT (mswap d SIGNAL_MASK SIGNAL_MASK) = NEXT d := by
  apply BitVec.eq_of_getLsbD_eq
  intro i hi
  simp only [NEXT, mswap, BitVec.getLsbD_and, BitVec.getLsbD_or, BitVec.getLsbD_not, getLsbD_NEXT_MASK,
    getLsbD_SIGNAL_MASK]
  by_cases h : i = 31 <;> simp [h, hi]

/-- setting the SIGNAL bit sets it -/
theorem SIGNAL_mswap_signal (d : Word) : SIGNAL (mswap d SIGNAL_MASK SIGNAL_MASK) ≠ 0 := by
  intro h
  have h31 := congrArg (fun w => w.getLsbD 31) h
  simp [SIGNAL, mswap, getLsbD_SIGNAL_MASK] at h31
  exact absurd h31 (by decide)

theorem me_toNat {p : ℕ} (hp : p < 2 ^ 31) : (me p).toNat = p + 1 := by
  unfold me
  rw [BitVec.toNat_ofNat]
  omega

theorem me_ne_zero {p : ℕ} (hp : p < 2 ^ 31) : me p ≠ 0 := by
  intro h
  have := congrArg BitVec.toNat h
  rw [me_toNat hp] at this
  simp at this

theorem me_inj {p q : ℕ} (hp : p < 2 ^ 31) (hq : q < 2 ^ 31) (h : me p = me q) : p = q := by
  have := congrArg BitVec.toNat h
  rw [me_toNat hp, me_toNat hq] at this
  omega

theorem peOf_me {p : ℕ} (hp : p < 2 ^ 31) : peOf (me p) = p := by
  have h1 : (me p).toNat = p + 1 := me_toNat hp
  unfold peOf
  bv_omega

theorem NEXT_me {p : ℕ} (hp : p + 1 < 2 ^ 31) : NEXT (me p) = me p := by
  apply BitVec.eq_of_toNat_eq
  have h1 : (me p).toNat = p + 1 := me_toNat (by omega)
  have h2 : NEXT_MASK.toNat = 2 ^ 31 - 1 := by decide
  rw [NEXT, BitVec.toNat_and, h2, Nat.and_two_pow_sub_one_eq_mod, h1]
  exact Nat.mod_eq_of_lt hp

end SandiaShmem.Lock
