/-
The break of the symmetric heap (`shmem_internal_get_next` in `src/symmetric_heap_c.c`), which the allocator moves to
get more memory or to give some back.

The new break is computed modulo 2^64 before it is checked. The check against the start compares addresses, and the one
against the end looks at a signed difference, which is negative for a break 2^63 or more above the start.

- `CallOk`: what a call is to do, in exact integers.
- `getNext_ok_iff`: one call does that exactly if the increment is `InReach`.
- `heap_ok_iff`: all calls of a sequence are right exactly if each increment is in reach of the break it finds.
-/
import SandiaShmem.Core.CInt
import SandiaShmem.Core.Runs

namespace SandiaShmem.Runtime.SymHeap

open CInt Runs

/-! ## Model -/

/-- `shmem_internal_heap_base` and `shmem_internal_heap_length`, which is a `long` -/
structure Heap where
  heap_base : ℤ
  heap_length : ℤ
  base_nonneg : 0 ≤ heap_base
  length_nonneg : 0 ≤ heap_length
  length_fits : Fits 64 heap_length
  bound : heap_base + heap_length < 2 ^ 64

/-- an `intptr_t` -/
abbrev Incr := {x : ℤ // Fits 64 x}

/-- a call: the break before, the increment, the break after, and what is returned -/
structure Call where
  before : ℤ
  incr : ℤ
  after : ℤ
  ret : ℤ
deriving DecidableEq, Repr

/-- `shmem_internal_heap_curr`, and the last call -/
structure St where
  heap_curr : ℤ
  last : Option Call
deriving DecidableEq, Repr

/-- `(void *) -1` -/
def failed : ℤ := uwrap 64 (-1)

/-- `shmem_internal_get_next` -/
def getNext (H : Heap) (heap_curr incr : ℤ) : Call :=
  let orig := heap_curr
  let heap_curr := uwrap 64 (heap_curr + incr)
  if heap_curr < H.heap_base then
    -- "symmetric heap pointer pushed below start"
    ⟨orig, incr, H.heap_base, orig⟩
  else if wrap 64 (heap_curr - H.heap_base) > H.heap_length then
    -- "Out of symmetric memory"
    ⟨orig, incr, orig, failed⟩
  else ⟨orig, incr, heap_curr, orig⟩

def step (H : Heap) (s : St) (incr : Incr) : St :=
  let c := getNext H s.heap_curr incr
  ⟨c.after, some c⟩

/-- `shmem_internal_symmetric_init` -/
def init (H : Heap) : St := ⟨H.heap_base, none⟩

/-! ## What a call is to do -/

def InHeap (H : Heap) (x : ℤ) : Prop := H.heap_base ≤ x ∧ x ≤ H.heap_base + H.heap_length

/-- a call fails and leaves the break alone, if it would move it beyond the end; else it returns the break it found -/
structure CallOk (H : Heap) (c : Call) : Prop where
  bound : InHeap H c.after
  failed_iff : c.ret = failed ↔ H.heap_base + H.heap_length < c.before + c.incr
  unchanged : H.heap_base + H.heap_length < c.before + c.incr → c.after = c.before
  old : c.before + c.incr ≤ H.heap_base + H.heap_length → c.ret = c.before

/-- the break is in the heap, and the last call was right -/
structure HeapOk (H : Heap) (s : St) : Prop where
  bound : InHeap H s.heap_curr
  last : ∀ c ∈ s.last, CallOk H c

/-- the break moves within the address space and less than 2^63 above the start, and it is not the address that stands
for failure; if it is, the call is right for an empty heap and an increment up -/
def InReach (H : Heap) (heap_curr incr : ℤ) : Prop :=
  (0 ≤ heap_curr + incr ∧ heap_curr + incr < 2 ^ 64 ∧ heap_curr + incr - H.heap_base < 2 ^ 63 ∧
      heap_curr ≠ 2 ^ 64 - 1) ∨
    (heap_curr = 2 ^ 64 - 1 ∧ H.heap_length = 0 ∧ 0 < incr)

variable {H : Heap} {heap_curr incr : ℤ}

theorem failed_eq : failed = 2 ^ 64 - 1 := by decide

/-- the new break as the code computes it: exact, below the start of all addresses, or beyond their end -/
theorem newBreak_cases (hcurr : 0 ≤ heap_curr) (hlt : heap_curr < 2 ^ 64) (hincr : Fits 64 incr) :
    (0 ≤ heap_curr + incr ∧ heap_curr + incr < 2 ^ 64 ∧ uwrap 64 (heap_curr + incr) = heap_curr + incr) ∨
      (heap_curr + incr < 0 ∧ uwrap 64 (heap_curr + incr) = heap_curr + incr + 2 ^ 64) ∨
      (2 ^ 64 ≤ heap_curr + incr ∧ uwrap 64 (heap_curr + incr) = heap_curr + incr - 2 ^ 64) := by
  obtain ⟨h1, h2⟩ := hincr
  norm_num at h1 h2
  unfold uwrap
  omega

/-- the difference the code checks, for a break at or above the start -/
theorem difference_cases {x : ℤ} (h0 : 0 ≤ x) (hlt : x < 2 ^ 64) :
    (x < 2 ^ 63 ∧ wrap 64 x = x) ∨ (2 ^ 63 ≤ x ∧ wrap 64 x = x - 2 ^ 64) := by
  by_cases hx : x < 2 ^ 63
  · exact .inl ⟨hx, wrap_of_fits (by omega) ⟨by norm_num; omega, by norm_num; omega⟩⟩
  · refine .inr ⟨by omega, ?_⟩
    have := wrap_eq_of_fits (w := 64) (x := x) (m := 1) (by omega) ⟨by norm_num; omega, by norm_num; omega⟩
    omega

/-- the three ways through the function -/
theorem getNext_cases (H : Heap) (heap_curr incr : ℤ) :
    (uwrap 64 (heap_curr + incr) < H.heap_base ∧
        getNext H heap_curr incr = ⟨heap_curr, incr, H.heap_base, heap_curr⟩) ∨
      (H.heap_base ≤ uwrap 64 (heap_curr + incr) ∧
        H.heap_length < wrap 64 (uwrap 64 (heap_curr + incr) - H.heap_base) ∧
        getNext H heap_curr incr = ⟨heap_curr, incr, heap_curr, failed⟩) ∨
      (H.heap_base ≤ uwrap 64 (heap_curr + incr) ∧
        wrap 64 (uwrap 64 (heap_curr + incr) - H.heap_base) ≤ H.heap_length ∧
        getNext H heap_curr incr = ⟨heap_curr, incr, uwrap 64 (heap_curr + incr), heap_curr⟩) := by
  simp only [getNext]
  split_ifs with h1 h2
  · exact .inl ⟨h1, rfl⟩
  · exact .inr (.inl ⟨not_lt.mp h1, h2, rfl⟩)
  · exact .inr (.inr ⟨not_lt.mp h1, not_lt.mp h2, rfl⟩)

/-- the conditions on a call, on its values -/
theorem callOk_iff {before after ret : ℤ} :
    CallOk H ⟨before, incr, after, ret⟩ ↔
      InHeap H after ∧ (ret = failed ↔ H.heap_base + H.heap_length < before + incr) ∧
      (H.heap_base + H.heap_length < before + incr → after = before) ∧
      (before + incr ≤ H.heap_base + H.heap_length → ret = before) :=
  ⟨fun h => ⟨h.bound, h.failed_iff, h.unchanged, h.old⟩, fun ⟨h1, h2, h3, h4⟩ => ⟨h1, h2, h3, h4⟩⟩

theorem getNext_ok_iff (hcurr : InHeap H heap_curr) (hincr : Fits 64 incr) :
    CallOk H (getNext H heap_curr incr) ↔ InReach H heap_curr incr := by
  obtain ⟨hb1, hb2⟩ := hcurr
  have hbase := H.base_nonneg
  have hlen := H.length_nonneg
  have hfits := H.length_fits.2
  have hbound := H.bound
  have hnew := newBreak_cases (show 0 ≤ heap_curr by omega) (show heap_curr < 2 ^ 64 by omega) hincr
  obtain ⟨hi1, hi2⟩ := hincr
  norm_num at hi1 hi2 hfits
  have hu0 := uwrap_nonneg 64 (heap_curr + incr)
  have hu1 := uwrap_lt 64 (heap_curr + incr)
  rcases getNext_cases H heap_curr incr with ⟨hlow, heq⟩ | ⟨hge, hfar, heq⟩ | ⟨hge, hnear, heq⟩
  · -- pulled back to the start
    rw [heq, callOk_iff, failed_eq]
    unfold InHeap InReach
    omega
  · -- refused
    have hd := difference_cases (show 0 ≤ uwrap 64 (heap_curr + incr) - H.heap_base by omega) (by omega)
    rw [heq, callOk_iff]
    unfold InHeap InReach
    omega
  · -- moved
    have hd := difference_cases (show 0 ≤ uwrap 64 (heap_curr + incr) - H.heap_base by omega) (by omega)
    rw [heq, callOk_iff, failed_eq]
    unfold InHeap InReach
    omega

/-! ## Sequences of calls -/

theorem heapOk_init (H : Heap) : HeapOk H (init H) :=
  ⟨⟨le_refl _, by have := H.length_nonneg; simp only [init]; omega⟩, by simp [init]⟩

/-- after a call the state is as good as the call -/
theorem heapOk_step {s : St} {incr : Incr} : HeapOk H (step H s incr) ↔ CallOk H (getNext H s.heap_curr incr) := by
  constructor
  · intro h
    exact h.last _ rfl
  · intro h
    refine ⟨h.bound, ?_⟩
    rintro c ⟨⟩
    exact h

/-- **The break stays in bounds.** -/
theorem heap_ok_iff (H : Heap) (incrs : List Incr) :
    (∀ n, HeapOk H (run (step H) (init H) (incrs.take n))) ↔
      Meets (step H) (fun s incr => InReach H s.heap_curr incr) (init H) incrs := by
  refine forall_take_iff_meets (step H) _ (HeapOk H) (HeapOk H) (fun _ h => h) ?_ ?_ (init H) (heapOk_init H) incrs
  · intro s incr hreach hs
    rw [heapOk_step, getNext_ok_iff hs.bound incr.2]
    exact hreach
  · intro s incr hs hreach
    rw [heapOk_step, getNext_ok_iff hs.bound incr.2]
    exact hreach

theorem small_nonneg : (0 : ℤ) ≤ 65536 := by decide

theorem small_bound : (65536 : ℤ) + 65536 < 2 ^ 64 := by decide

/-- a heap of 64 KiB -/
def smallHeap : Heap := ⟨65536, 65536, small_nonneg, small_nonneg, by decide, small_bound⟩

/-- behind a break that is not at the start an increment of 2^63 - 1 passes -/
theorem small_overrun :
    ¬ ∀ n, HeapOk smallHeap (run (step smallHeap) (init smallHeap)
      (List.take n [⟨1, by decide⟩, ⟨2 ^ 63 - 1, by decide⟩])) := by
  intro h
  have hbound := (h 2).bound.2
  exact absurd hbound (by decide)

end SandiaShmem.Runtime.SymHeap
