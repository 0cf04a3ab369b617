/-
The state of the allocator (`src/malloc.c`), and how it gets memory from the system and gives it back.

The small bins and the tree bins of `_gm_` are in memory, the other fields of `struct malloc_state` are fields here.

The system is the break of the symmetric heap (`shmem_internal_get_next`). There is one segment: the branches that would
make a second one (`prepend_alloc`, `add_segment`) end in `Stop.segment`, and `Heap/System.lean` proves that they are
not reached.

- `MState`, `Sys`: the state, and what does not change.
- `link`, `set_link`: the links of chunks and headers. `init_bins`.
- `MORECORE`, `init_top`, `sys_alloc`, `sys_trim`.
-/
import SandiaShmem.Core.LinkedTrie
import SandiaShmem.Heap.Bins
import SandiaShmem.Heap.Layout
import SandiaShmem.Runtime.SymHeap

namespace SandiaShmem.Heap

open CInt Runtime.SymHeap LinkedTrie

/-! ## State -/

/-- the bytes of `struct malloc_state` -/
def STATE_SIZE : ℕ := 936

/-- the symmetric heap, and the parameters of the allocator; the start comes from mmap or malloc, and no address is
anywhere near 2^62 -/
structure Sys where
  heap : Runtime.SymHeap.Heap
  /-- the address of `_gm_`, which is not in the heap -/
  gm : ℕ
  /-- the page size is 2^page_bits, and the granularity is the page size -/
  page_bits : ℕ
  /-- 0 means no limit -/
  footprint_limit : ℕ
  page_le : 4 ≤ page_bits
  base_pos : 0 < heap.heap_base
  base_aligned : 16 ∣ heap.heap_base
  bound : heap.heap_base + heap.heap_length + 2 * 2 ^ page_bits + 2 ^ 12 ≤ 2 ^ 62
  gm_aligned : 8 ∣ gm
  gm_pos : 0 < gm
  gm_apart : (gm + STATE_SIZE : ℤ) ≤ heap.heap_base ∨ heap.heap_base + heap.heap_length ≤ gm

def Sys.page_size (Y : Sys) : ℕ := 2 ^ Y.page_bits

def Sys.base (Y : Sys) : ℕ := Y.heap.heap_base.toNat

def Sys.length (Y : Sys) : ℕ := Y.heap.heap_length.toNat

/-- a heap of 16 pages at 2^16 -/
def Sys.small : Sys where
  heap := ⟨2 ^ 16, 2 ^ 16, by decide, by decide, by decide, by decide⟩
  gm := 2 ^ 15
  page_bits := 12
  footprint_limit := 0
  page_le := by decide
  base_pos := by decide
  base_aligned := by decide
  bound := by decide
  gm_aligned := by decide
  gm_pos := by decide
  gm_apart := by decide

/-- `mparams.granularity` -/
def Sys.granularity (Y : Sys) : ℕ := Y.page_size

/-- `struct malloc_state`, the memory, and the break -/
structure MState where
  mem : Mem
  smallmap : BinMap
  treemap : BinMap
  dv : ℕ
  dvsize : ℕ
  top : ℕ
  topsize : ℕ
  least_addr : ℕ
  trim_check : ℕ
  release_checks : ℕ
  footprint : ℕ
  max_footprint : ℕ
  /-- USE_NONCONTIGUOUS_BIT of mflags -/
  noncontiguous : Bool
  seg_base : ℕ
  seg_size : ℕ
  heap_curr : ℤ

/-- the words of `_gm_` -/
def Sys.State (Y : Sys) (x : ℕ) : Prop := Y.gm ≤ x ∧ x < Y.gm + STATE_SIZE

instance (Y : Sys) (x : ℕ) : Decidable (Y.State x) := inferInstanceAs (Decidable (_ ∧ _))

/-- before the first call: all words of `_gm_` 0, and the break at the start of the heap -/
def MState.init (Y : Sys) (mem : Mem) : MState :=
  ⟨fun x => if Y.State x then 0 else mem x, 0, 0, 0, 0, 0, 0, 0, 0, 0, 0, 0, false, 0, 0, Y.heap.heap_base⟩

/-- a pointer, or the end of the program -/
abbrev Res := Except Stop (ℕ × MState)

def NULL : ℕ := 0

def CMFAIL : ℕ := MAX_SIZE_T

def ok_address (s : MState) (a : ℕ) : Bool := s.least_addr ≤ a

/-- `segment_holds`, for the one segment -/
def segment_holds (s : MState) (a : ℕ) : Bool := s.seg_base ≤ a && a < s.seg_base + s.seg_size

def is_page_aligned (Y : Sys) (x : ℕ) : Bool := x % Y.page_size = 0

def page_align (Y : Sys) (x : ℕ) : ℕ := align Y.page_size x

def granularity_align (Y : Sys) (x : ℕ) : ℕ := align Y.granularity x

/-! ## Links -/

/-- where the links are in a chunk -/
def offset : Field → ℕ
  | .fd => 16
  | .bk => 24
  | .child false => 32
  | .child true => 40
  | .parent => 48

/-- `p->fd`, `p->bk`, `p->child[b]` and `p->parent` -/
def link (mem : Mem) (f : Field) (p : ℕ) : ℕ := mem (p + offset f)

def set_link (mem : Mem) (f : Field) (p v : ℕ) : Mem := put mem (p + offset f) v

/-- `p->index`, an `unsigned int` -/
def index (mem : Mem) (p : ℕ) : ℕ := mem (p + 56) % 2 ^ 32

def set_index (mem : Mem) (p i : ℕ) : Mem := put mem (p + 56) (mem (p + 56) / 2 ^ 32 * 2 ^ 32 + i)

/-- the header of a small bin: a chunk of which only the links are there, from `&smallbins[2 * i + 2]` on -/
def smallbin_at (Y : Sys) (i : ℕ) : ℕ := Y.gm + 72 + 8 * (i <<< 1)

/-- `&treebins[i]` -/
def treebin_at (Y : Sys) (i : ℕ) : ℕ := Y.gm + 600 + 8 * i

/-- the loop of `init_bins`, with n bins done -/
def initBinsLoop (Y : Sys) (mem : Mem) : ℕ → Mem
  | 0 => mem
  | n + 1 =>
    let bin := smallbin_at Y n
    set_link (set_link (initBinsLoop Y mem n) .bk bin bin) .fd bin bin

def init_bins (Y : Sys) (mem : Mem) : Mem := initBinsLoop Y mem NSMALLBINS

/-! ## Memory from the system -/

/-- `shmem_internal_get_next`, where the argument becomes an `intptr_t` -/
def MORECORE (Y : Sys) (s : MState) (S : ℕ) : ℕ × MState :=
  let c := getNext Y.heap s.heap_curr (wrap 64 S)
  (c.ret.toNat, { s with heap_curr := c.after })

def init_top (s : MState) (p psize : ℕ) : MState :=
  let offset := align_offset (chunk2mem p)
  let p := p + offset
  let psize := sub psize offset
  let mem := set_head s.mem p ⟨psize, true, false⟩
  { s with top := p, topsize := psize, trim_check := DEFAULT_TRIM_THRESHOLD,
           mem := set_head mem (p + psize) ⟨TOP_FOOT_SIZE, false, false⟩ }

/-- `Cope with partial failure`; br is what the call for ssize gave. Returns tbase and tsize. -/
def partialFailure (Y : Sys) (s : MState) (nb br ssize : ℕ) : (ℕ × ℕ) × MState :=
  if br ≠ CMFAIL then
    if ssize < HALF_MAX_SIZE_T ∧ ssize < (nb + SYS_ALLOC_PADDING) % 2 ^ 64 then
      let esize := granularity_align Y (sub ((nb + SYS_ALLOC_PADDING) % 2 ^ 64) ssize)
      if esize < HALF_MAX_SIZE_T then
        let (stop, s) := MORECORE Y s esize
        if stop ≠ CMFAIL then ((br, ssize + esize), s)
        else
          let (_, s) := MORECORE Y s (sub 0 ssize)
          ((CMFAIL, 0), { s with noncontiguous := true })
      else ((br, ssize), s)
    else ((br, ssize), s)
  else ((CMFAIL, 0), { s with noncontiguous := true })

/-- `First time through or recovery` -/
def firstMorecore (Y : Sys) (s : MState) (nb asize : ℕ) : (ℕ × ℕ) × MState :=
  let (base, s) := MORECORE Y s 0
  if base ≠ CMFAIL then
    let ssize := if is_page_aligned Y base then asize else (asize + sub (page_align Y base) base) % 2 ^ 64
    let fp := (s.footprint + ssize) % 2 ^ 64
    if nb < ssize ∧ ssize < HALF_MAX_SIZE_T ∧
        (Y.footprint_limit = 0 ∨ s.footprint < fp ∧ fp ≤ Y.footprint_limit) then
      let (br, s) := MORECORE Y s ssize
      if br = base then ((base, ssize), s) else partialFailure Y s nb br ssize
    else partialFailure Y s nb CMFAIL ssize
  else partialFailure Y s nb CMFAIL asize

/-- `Subtract out existing available top space from MORECORE request` -/
def nextMorecore (Y : Sys) (s : MState) (nb : ℕ) : (ℕ × ℕ) × MState :=
  let ssize := granularity_align Y ((sub nb s.topsize + SYS_ALLOC_PADDING) % 2 ^ 64)
  if ssize < HALF_MAX_SIZE_T then
    let (br, s) := MORECORE Y s ssize
    if br = s.seg_base + s.seg_size then ((br, ssize), s) else partialFailure Y s nb br ssize
  else partialFailure Y s nb CMFAIL ssize

/-- the call of MORECORE that need not extend the segment -/
def noncontiguousMorecore (Y : Sys) (s : MState) (nb asize : ℕ) : (ℕ × ℕ) × MState :=
  if asize < HALF_MAX_SIZE_T then
    let (br, s) := MORECORE Y s asize
    let (stop, s) := MORECORE Y s 0
    if br ≠ CMFAIL ∧ stop ≠ CMFAIL ∧ br < stop ∧ nb + TOP_FOOT_SIZE < stop - br then ((br, stop - br), s)
    else ((CMFAIL, 0), s)
  else ((CMFAIL, 0), s)

/-- tbase and tsize, or CMFAIL; there is no mmap between the two ways -/
def moreMemory (Y : Sys) (s : MState) (nb asize : ℕ) : (ℕ × ℕ) × MState :=
  let ((tbase, tsize), s) :=
    if s.noncontiguous then ((CMFAIL, 0), s)
    else if s.top = 0 ∨ segment_holds s s.top = false then firstMorecore Y s nb asize
    else nextMorecore Y s nb
  if tbase = CMFAIL then noncontiguousMorecore Y s nb asize else ((tbase, tsize), s)

/-- what is done with new memory: a first segment, or the one there is gets longer -/
def addMemory (Y : Sys) (s : MState) (tbase tsize : ℕ) : Except Stop MState :=
  let footprint := s.footprint + tsize
  let s := { s with footprint, max_footprint := max s.max_footprint footprint }
  if s.top = 0 then
    let least_addr := if s.least_addr = 0 ∨ tbase < s.least_addr then tbase else s.least_addr
    .ok (init_top { s with least_addr, seg_base := tbase, seg_size := tsize, release_checks := MAX_RELEASE_CHECK_RATE,
                           mem := init_bins Y s.mem } tbase (sub tsize TOP_FOOT_SIZE))
  else if tbase = s.seg_base + s.seg_size ∧ segment_holds s s.top then
    .ok (init_top { s with seg_size := s.seg_size + tsize } s.top (s.topsize + tsize))
  else .error .segment

/-- the beginning of the top chunk becomes a chunk -/
def split_top (s : MState) (nb : ℕ) : ℕ × MState :=
  let rsize := s.topsize - nb
  let p := s.top
  let r := p + nb
  let mem := set_head s.mem r ⟨rsize, true, false⟩
  (chunk2mem p, { s with topsize := rsize, top := r, mem := set_size_and_pinuse_of_inuse_chunk mem p nb })

def sys_alloc (Y : Sys) (s : MState) (nb : ℕ) : Res :=
  let asize := granularity_align Y ((nb + SYS_ALLOC_PADDING) % 2 ^ 64)
  let fp := (s.footprint + asize) % 2 ^ 64
  if asize ≤ nb then .ok (NULL, s)
  else if Y.footprint_limit ≠ 0 ∧ (fp ≤ s.footprint ∨ Y.footprint_limit < fp) then .ok (NULL, s)
  else
    let ((tbase, tsize), s) := moreMemory Y s nb asize
    if tbase ≠ CMFAIL then do
      let s ← addMemory Y s tbase tsize
      if nb < s.topsize then .ok (split_top s nb) else .ok (NULL, s)
    else .ok (NULL, s)

/-! ## Memory back to the system -/

/-- the calls of MORECORE in `sys_trim`: how much has been given back -/
def releaseTop (Y : Sys) (s : MState) (pad : ℕ) : ℕ × MState :=
  let unit := Y.granularity
  let extra := sub ((s.topsize - pad + (unit - 1)) / unit) 1 * unit
  let extra := if HALF_MAX_SIZE_T ≤ extra then HALF_MAX_SIZE_T + 1 - unit else extra
  let (old_br, s) := MORECORE Y s 0
  if old_br = s.seg_base + s.seg_size then
    let (rel_br, s) := MORECORE Y s (sub 0 extra)
    let (new_br, s) := MORECORE Y s 0
    if rel_br ≠ CMFAIL ∧ new_br < old_br then (old_br - new_br, s) else (0, s)
  else (0, s)

def sys_trim (Y : Sys) (s : MState) (pad : ℕ) : MState :=
  if pad < MAX_REQUEST ∧ s.top ≠ 0 then
    let pad := pad + TOP_FOOT_SIZE
    let (released, s) := if pad < s.topsize then releaseTop Y s pad else (0, s)
    let s :=
      if released ≠ 0 then
        init_top { s with seg_size := s.seg_size - released, footprint := s.footprint - released } s.top
          (s.topsize - released)
      else s
    if released = 0 ∧ s.trim_check < s.topsize then { s with trim_check := MAX_SIZE_T } else s
  else s

/-- `release_unused_segments`: with one segment only the counter is reset -/
def release_unused_segments (s : MState) : MState := { s with release_checks := MAX_RELEASE_CHECK_RATE }

end SandiaShmem.Heap
