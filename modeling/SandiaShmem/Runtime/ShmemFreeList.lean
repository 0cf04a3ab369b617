/-
The free list of the transports (`src/shmem_free_list.c`, `src/shmem_free_list.h`).

A list is carved out of chunks: a header that links the chunks, and `num_elements` = 2 slots of `element_size` bytes. A
free item holds the link to the next one in its own first bytes, over whatever the element keeps there. The memory is
bytes. A run is any sequence of `shmem_free_list_more`, `shmem_free_list_alloc` and `shmem_free_list_free` of an item
that is handed out, with the answers of `malloc`, and of writes of the user to the items it holds.

`num_elements * fl->element_size` is computed in 32 bits. From an element size of 2^31 on it wraps around, and the chunk
is smaller than the two elements in it.
- `step_inv`: below 2^31 each step keeps the list, the links of the chunks and the slots as they should be.
- `listOk_iff`: the list is right after every run iff the element size is below 2^31.
- `not_listOk_of_large`: from 2^31 on, the second chunk may be in the middle of the elements of the first.
-/
import SandiaShmem.Core.ByteMem
import SandiaShmem.Core.FreeList
import SandiaShmem.Core.Runs
import Mathlib.Tactic

namespace SandiaShmem.Runtime.ShmemFreeList

open ByteMem FreeList Runs

/-- `uint32_t element_size`: the size of a structure that begins with a `shmem_free_list_item_t` -/
structure ElementSize where
  size : ℕ
  item : 8 ≤ size
  fits : size < 2 ^ 32

/-- `shmem_free_list_item_init_fn_t`: it writes to the item only -/
structure InitFn (E : ElementSize) where
  run : Mem → ℕ → Mem
  frame : ∀ m item x, x < item ∨ item + E.size ≤ x → run m item x = m x

/-- `shmem_free_list_t` in its memory. `chunks` are the addresses that malloc has returned, `out` the items handed out,
`inits` the calls of `init_fn`. -/
structure St where
  mem : Mem
  nalloc : BitVec 64
  allocs : Option ℕ
  head : Option ℕ
  chunks : List ℕ
  out : List ℕ
  inits : List ℕ

/-- `calloc(1, sizeof(shmem_free_list_t))` in `shmem_free_list_init`, which then calls `shmem_free_list_more` -/
def init (m : Mem) : St := ⟨m, 0, none, none, [], [], []⟩

/-- what a run is made of; r is the answer of malloc -/
inductive Op where
  | more (r : Option ℕ)
  | alloc (r : Option ℕ)
  | free (item : ℕ)
  | write (item : ℕ) (bytes : ℕ → BitVec 8)

/-- what the number of elements is set to, after it has been computed from the page size -/
def num_elements : ℕ := 2

/-- `sizeof(shmem_free_list_alloc_t) + num_elements * fl->element_size`, an `unsigned int` in the product -/
def chunkSize (E : ElementSize) : ℕ := 8 + num_elements * E.size % 2 ^ 32

/-- an address that malloc may return: aligned, and the bytes asked for do not meet those of an earlier chunk -/
def Legal (E : ElementSize) (s : St) (buf : ℕ) : Prop :=
  0 < buf ∧ 16 ∣ buf ∧ buf + chunkSize E ≤ 2 ^ 64 ∧ ∀ c ∈ s.chunks, Apart buf (chunkSize E) c (chunkSize E)

instance (E : ElementSize) (s : St) : DecidablePred (Legal E s) := fun _ => inferInstanceAs (Decidable (_ ∧ _))

/-- `malloc`; it fails too where the answer is not one it can give -/
def malloc (E : ElementSize) (s : St) (r : Option ℕ) : Option ℕ := r.filter fun buf => Legal E s buf

/-- `p->next = q` -/
def setNext (p : ℕ) (q : Option ℕ) (s : St) : St := { s with mem := storePtr s.mem p q }

section
variable (E : ElementSize) (f : InitFn E)

/-- `fl->init_fn(item)` -/
def init_fn (item : ℕ) (s : St) : St := { s with mem := f.run s.mem item, inits := s.inits ++ [item] }

/-- the loop over the elements from item on; the second result is `last` -/
def carve : ℕ → ℕ → St → St × Option ℕ
  | 0, _, s => (s, none)
  | k + 1, item, s =>
    let next := item + E.size
    if k = 0 then (setNext item none (init_fn E f item s), some item)
    else carve k next (setNext item (some next) (init_fn E f item s))

/-- `shmem_free_list_more` -/
def more (r : Option ℕ) (s : St) : ℕ × St :=
  match malloc E s r with
  | none => (1, s)
  | some buf =>
    let first := buf + 8
    let (s1, last) := carve E f num_elements first { s with chunks := buf :: s.chunks }
    let s2 := { setNext buf s1.allocs s1 with allocs := some buf }
    let s3 := match last with | some item => setNext item s2.head s2 | none => s2
    (0, { s3 with head := some first })

/-- `item = fl->head; fl->head = item->next; fl->nalloc++` -/
def take (s : St) : Option ℕ × St :=
  match s.head with
  | some item => (some item, { s with head := loadPtr s.mem item, nalloc := s.nalloc + 1, out := item :: s.out })
  | none => (none, s)

/-- `shmem_free_list_alloc` -/
def alloc (r : Option ℕ) (s : St) : Option ℕ × St :=
  let (ret, s1) := if s.head = none then more E f r s else (0, s)
  if ret ≠ 0 then (none, s1) else take s1

/-- `shmem_free_list_free` -/
def free (item : ℕ) (s : St) : St :=
  { setNext item s.head s with head := some item, nalloc := s.nalloc - 1, out := s.out.erase item }

/-- the user writes to the item -/
def write (item : ℕ) (bytes : ℕ → BitVec 8) (s : St) : St :=
  { s with mem := fun x => if item ≤ x ∧ x < item + E.size then bytes (x - item) else s.mem x }

/-- a step of a run; items that are not handed out are neither freed nor written -/
def step (s : St) : Op → St
  | .more r => (more E f r s).2
  | .alloc r => (alloc E f r s).2
  | .free item => if item ∈ s.out then free item s else s
  | .write item bytes => if item ∈ s.out then write E item bytes s else s

end

/-- the slots of a chunk -/
def chunkSlots (E : ElementSize) (buf : ℕ) : List ℕ :=
  (List.range num_elements).map fun i => buf + 8 + i * E.size

/-- the slots of all chunks -/
def slots (E : ElementSize) (s : St) : List ℕ := s.chunks.flatMap (chunkSlots E)

/-- the free list as it should be -/
structure ListOk (E : ElementSize) (f : InitFn E) (s : St) : Prop where
  items : ∃ l, Chain (loadPtr s.mem) s.head l ∧ l.Nodup ∧ (∀ x ∈ l, x ∉ s.out) ∧
    ∀ x, x ∈ l ∨ x ∈ s.out ↔ x ∈ slots E s
  chunks : Chain (loadPtr s.mem) s.allocs s.chunks
  disjoint : (slots E s).Pairwise fun x y => Apart x E.size y E.size
  headers : ∀ x ∈ slots E s, ∀ c ∈ s.chunks, Apart x E.size c 8
  out : s.out.Nodup
  nalloc : s.nalloc.toNat = s.out.length
  inits : s.inits.Nodup ∧ ∀ x, x ∈ s.inits ↔ x ∈ slots E s
  failing : ∀ r, (alloc E f r s).1 = none ↔ s.head = none ∧ malloc E s r = none
  unchanged : ∀ r, (alloc E f r s).1 = none → (alloc E f r s).2 = s

/-! ## The slots -/

variable {E : ElementSize} {f : InitFn E} {s : St} {l : List ℕ}

theorem chunkSlots_eq (buf : ℕ) : chunkSlots E buf = [buf + 8, buf + 8 + E.size] := by
  simp [chunkSlots, num_elements, List.range_succ]

/-- the bytes of a chunk when the product does not wrap around -/
def fullSize (E : ElementSize) : ℕ := 8 + 2 * E.size

theorem chunkSize_eq (hE : E.size < 2 ^ 31) : chunkSize E = fullSize E := by
  rw [chunkSize, fullSize, num_elements, Nat.mod_eq_of_lt (by omega)]

/-- a slot lies in its chunk, behind the header -/
theorem slot_bounds {buf x : ℕ} (hx : x ∈ chunkSlots E buf) : buf + 8 ≤ x ∧ x + E.size ≤ buf + fullSize E := by
  rw [chunkSlots_eq] at hx
  simp only [List.mem_cons, List.not_mem_nil, or_false] at hx
  unfold fullSize
  omega

/-- what the representation is -/
structure Inv (E : ElementSize) (s : St) (l : List ℕ) : Prop where
  free : Chain (loadPtr s.mem) s.head l
  allocs : Chain (loadPtr s.mem) s.allocs s.chunks
  perm : (l ++ s.out).Perm (slots E s)
  apart : s.chunks.Pairwise fun b c => Apart b (fullSize E) c (fullSize E)
  range : ∀ b ∈ s.chunks, 0 < b ∧ b + fullSize E ≤ 2 ^ 64
  nalloc : s.nalloc = BitVec.ofNat 64 s.out.length
  inits : s.inits.Perm (slots E s)

theorem init_inv (m : Mem) : Inv E (init m) [] := by
  constructor <;> simp [init, slots, Chain]

theorem Inv.slots_apart (h : Inv E s l) : (slots E s).Pairwise fun x y => Apart x E.size y E.size := by
  rw [slots, List.pairwise_flatMap]
  refine ⟨fun b _ => ?_, h.apart.imp fun hbc x hx y hy => ?_⟩
  · rw [chunkSlots_eq]
    simp [Apart]
  · have hx' := slot_bounds hx
    have hy' := slot_bounds hy
    exact hbc.mono ⟨by omega, hx'.2⟩ ⟨by omega, hy'.2⟩

theorem Inv.slots_nodup (h : Inv E s l) : (slots E s).Nodup := by
  refine h.slots_apart.imp fun hxy heq => ?_
  have := E.item
  unfold Apart at hxy
  omega

theorem Inv.slot_header (h : Inv E s l) {x c : ℕ} (hx : x ∈ slots E s) (hc : c ∈ s.chunks) : Apart x E.size c 8 := by
  obtain ⟨b, hb, hxb⟩ := List.mem_flatMap.mp hx
  have hbounds := slot_bounds hxb
  by_cases hbc : b = c
  · exact .inr (hbc ▸ hbounds.1)
  · have hchunks := h.apart.forall hb hc hbc
    exact hchunks.mono ⟨by omega, hbounds.2⟩ ⟨le_rfl, by unfold fullSize; omega⟩

theorem Inv.slot_range (h : Inv E s l) {x : ℕ} (hx : x ∈ slots E s) : 0 < x ∧ x + E.size ≤ 2 ^ 64 := by
  obtain ⟨b, hb, hxb⟩ := List.mem_flatMap.mp hx
  have hbounds := slot_bounds hxb
  have hrange := h.range b hb
  omega

theorem Inv.mem_slots (h : Inv E s l) (x : ℕ) : x ∈ l ∨ x ∈ s.out ↔ x ∈ slots E s := by
  rw [← h.perm.mem_iff, List.mem_append]

theorem Inv.nodup (h : Inv E s l) : (l ++ s.out).Nodup := h.perm.nodup_iff.mpr h.slots_nodup

/-- two different slots do not meet -/
theorem Inv.slot_slot (h : Inv E s l) {x y : ℕ} (hx : x ∈ slots E s) (hy : y ∈ slots E s) (hne : x ≠ y) :
    Apart x E.size y E.size := h.slots_apart.forall hx hy hne

theorem Inv.isPtr_head (h : Inv E s l) : IsPtr s.head := by
  intro x hx
  have hrange := h.slot_range ((h.mem_slots x).mp (.inl (h.free.head_mem hx)))
  have := E.item
  omega

theorem Inv.isPtr_allocs (h : Inv E s l) : IsPtr s.allocs := by
  intro b hb
  have hrange := h.range b (h.allocs.head_mem hb)
  unfold fullSize at hrange
  omega

/-- fewer than 2^64 items are handed out: they do not meet, and none is at 0 -/
theorem Inv.out_lt (h : Inv E s l) : s.out.length < 2 ^ 64 := by
  have hsub : s.out.toFinset ⊆ Finset.Ico 1 (2 ^ 64) := by
    intro x hx
    have hrange := h.slot_range ((h.mem_slots x).mp (.inr (List.mem_toFinset.mp hx)))
    have := E.item
    rw [Finset.mem_Ico]
    omega
  have hcard := Finset.card_le_card hsub
  rw [List.toFinset_card_of_nodup h.nodup.of_append_right, Nat.card_Ico] at hcard
  omega

/-- a write to bytes that are no link of a free item and no header -/
theorem Inv.frame (h : Inv E s l) {m : Mem} {a n : ℕ} (hm : ∀ x, x < a ∨ a + n ≤ x → m x = s.mem x)
    (hl : ∀ x ∈ l, Apart x 8 a n) (hc : ∀ c ∈ s.chunks, Apart c 8 a n) :
    Chain (loadPtr m) s.head l ∧ Chain (loadPtr m) s.allocs s.chunks :=
  ⟨h.free.congr fun x hx => loadPtr_of_agree (agree_of_apart hm (hl x hx)),
    h.allocs.congr fun c hx => loadPtr_of_agree (agree_of_apart hm (hc c hx))⟩

/-- in particular a write to an item that is handed out -/
theorem Inv.frame_out (h : Inv E s l) {m : Mem} {item n : ℕ} (hitem : item ∈ s.out) (hn : n ≤ E.size)
    (hm : ∀ x, x < item ∨ item + n ≤ x → m x = s.mem x) :
    Chain (loadPtr m) s.head l ∧ Chain (loadPtr m) s.allocs s.chunks := by
  have hslot := (h.mem_slots item).mp (.inr hitem)
  refine h.frame hm (fun x hx => ?_) fun c hc => ?_
  · have hne : x ≠ item := fun heq => (List.disjoint_of_nodup_append h.nodup) hx (heq ▸ hitem)
    exact (h.slot_slot ((h.mem_slots x).mp (.inl hx)) hslot hne).mono ⟨le_rfl, by have := E.item; omega⟩
      ⟨le_rfl, by omega⟩
  · exact (h.slot_header hslot hc).symm.mono ⟨le_rfl, le_rfl⟩ ⟨le_rfl, by omega⟩

/-! ## The calls -/

/-- the memory after `shmem_free_list_more` -/
def moreMem (E : ElementSize) (f : InitFn E) (buf : ℕ) (s : St) : Mem :=
  let item0 := buf + 8
  let item1 := item0 + E.size
  let m0 := storePtr (f.run s.mem item0) item0 (some item1)
  let m1 := storePtr (f.run m0 item1) item1 none
  storePtr (storePtr m1 buf s.allocs) item1 s.head

theorem more_none {r : Option ℕ} (hr : malloc E s r = none) : more E f r s = (1, s) := by simp only [more, hr]

theorem more_some {r : Option ℕ} {buf : ℕ} (hr : malloc E s r = some buf) :
    more E f r s = (0, { s with
      mem := moreMem E f buf s, allocs := some buf, head := some (buf + 8), chunks := buf :: s.chunks
      inits := s.inits ++ chunkSlots E buf }) := by
  simp [more, hr, carve, num_elements, moreMem, init_fn, setNext, chunkSlots_eq]

theorem loadPtr_run {m : Mem} {item a : ℕ} (h : Apart a 8 item E.size) : loadPtr (f.run m item) a = loadPtr m a :=
  loadPtr_of_agree (agree_of_apart (fun _ hx => f.frame m item _ hx) h)

/-- outside the chunk nothing changes -/
theorem moreMem_outside {buf x : ℕ} (hx : x < buf ∨ buf + fullSize E ≤ x) : moreMem E f buf s x = s.mem x := by
  have := E.item
  unfold fullSize at hx
  rw [moreMem, storePtr_of_outside _ _ (by omega), storePtr_of_outside _ _ (by omega),
    storePtr_of_outside _ _ (by omega), f.frame _ _ _ (by omega), storePtr_of_outside _ _ (by omega),
    f.frame _ _ _ (by omega)]

/-- the links of the new chunk -/
theorem moreMem_links {buf : ℕ} (hbuf : 0 < buf ∧ buf + fullSize E ≤ 2 ^ 64) (hhead : IsPtr s.head)
    (hallocs : IsPtr s.allocs) :
    loadPtr (moreMem E f buf s) buf = s.allocs ∧ loadPtr (moreMem E f buf s) (buf + 8) = some (buf + 8 + E.size) ∧
      loadPtr (moreMem E f buf s) (buf + 8 + E.size) = s.head := by
  have hitem := E.item
  unfold fullSize at hbuf
  have hheader : Apart buf 8 (buf + 8 + E.size) 8 := .inl (by omega)
  have hlink : Apart (buf + 8) 8 (buf + 8 + E.size) 8 := .inl (by omega)
  have hslot : Apart (buf + 8) 8 (buf + 8 + E.size) E.size := .inl (by omega)
  have hptr : IsPtr (some (buf + 8 + E.size)) := isPtr_some.mpr (by omega)
  refine ⟨?_, ?_, loadPtr_storePtr _ _ hhead⟩
  · rw [moreMem, loadPtr_storePtr_of_apart _ _ hheader]
    exact loadPtr_storePtr _ _ hallocs
  · -- the link of item 0 is written before item 1 is initialised and linked
    rw [moreMem, loadPtr_storePtr_of_apart _ _ hlink, loadPtr_storePtr_of_apart _ _ (.inr le_rfl),
      loadPtr_storePtr_of_apart _ _ hlink, loadPtr_run hslot]
    exact loadPtr_storePtr _ _ hptr

theorem malloc_legal {r : Option ℕ} {buf : ℕ} (hr : malloc E s r = some buf) : Legal E s buf :=
  of_decide_eq_true (Option.filter_eq_some_iff.mp hr).2

/-- a new chunk: its two slots in front of the list -/
theorem more_inv (h : Inv E s l) (hE : E.size < 2 ^ 31) {r : Option ℕ} {buf : ℕ} (hr : malloc E s r = some buf) :
    Inv E (more E f r s).2 ((buf + 8) :: (buf + 8 + E.size) :: l) := by
  obtain ⟨hpos, -, htop, hold⟩ := malloc_legal hr
  rw [chunkSize_eq hE] at htop hold
  obtain ⟨hlink, hlink0, hlink1⟩ := moreMem_links (f := f) ⟨hpos, htop⟩ h.isPtr_head h.isPtr_allocs
  have hslot : ∀ x ∈ l, Apart x 8 buf (fullSize E) := by
    intro x hx
    obtain ⟨b, hb, hxb⟩ := List.mem_flatMap.mp ((h.mem_slots x).mp (.inl hx))
    have hbounds := slot_bounds hxb
    have := E.item
    exact (hold b hb).symm.mono ⟨by omega, by omega⟩ ⟨le_rfl, le_rfl⟩
  have hheader : ∀ c ∈ s.chunks, Apart c 8 buf (fullSize E) := fun c hc =>
    (hold c hc).symm.mono ⟨le_rfl, by unfold fullSize; omega⟩ ⟨le_rfl, le_rfl⟩
  obtain ⟨hfree, hallocs⟩ := h.frame (fun x hx => moreMem_outside (f := f) hx) hslot hheader
  have hslots : slots E (more E f r s).2 = [buf + 8, buf + 8 + E.size] ++ slots E s := by
    rw [more_some hr, slots, List.flatMap_cons, chunkSlots_eq]; rfl
  rw [more_some hr] at hslots ⊢
  constructor
  · exact ⟨rfl, hlink0, hlink1 ▸ hfree⟩
  · exact ⟨rfl, hlink ▸ hallocs⟩
  · rw [hslots]
    exact h.perm.append_left [buf + 8, buf + 8 + E.size]
  · exact List.pairwise_cons.mpr ⟨hold, h.apart⟩
  · exact List.forall_mem_cons.mpr ⟨⟨hpos, htop⟩, h.range⟩
  · exact h.nalloc
  · rw [hslots, chunkSlots_eq]
    exact (h.inits.append_right _).trans List.perm_append_comm

/-- the item at the head is handed out -/
theorem take_inv (h : Inv E s l) {item : ℕ} (hhead : s.head = some item) : ∃ l', Inv E (take s).2 l' := by
  cases l with
  | nil => exact absurd (hhead.symm.trans h.free) (by simp)
  | cons y l =>
    obtain rfl : y = item := Option.some.inj (h.free.1.symm.trans hhead)
    have htake : take s =
        (some y, { s with head := loadPtr s.mem y, nalloc := s.nalloc + 1, out := y :: s.out }) := by
      simp only [take, hhead]
    rw [htake]
    refine ⟨l, h.free.2, h.allocs, List.perm_middle.trans h.perm, h.apart, h.range, ?_, h.inits⟩
    change s.nalloc + 1 = BitVec.ofNat 64 (s.out.length + 1)
    rw [h.nalloc, BitVec.ofNat_add]; rfl

/-- an item in use goes back to the head -/
theorem free_inv (h : Inv E s l) {item : ℕ} (hitem : item ∈ s.out) : Inv E (free item s) (item :: l) := by
  obtain ⟨hfree, hallocs⟩ := h.frame_out hitem E.item fun x hx => storePtr_of_outside s.mem s.head hx
  constructor
  · refine ⟨rfl, ?_⟩
    have hlink : loadPtr (free item s).mem item = s.head := loadPtr_storePtr s.mem item h.isPtr_head
    rw [hlink]
    exact hfree
  · exact hallocs
  · exact (List.perm_middle.symm.trans ((List.perm_cons_erase hitem).symm.append_left l)).trans h.perm
  · exact h.apart
  · exact h.range
  · have hpos : 0 < s.out.length := List.length_pos_of_mem hitem
    have hlen : s.out.length = (s.out.erase item).length + 1 := by
      rw [List.length_erase_of_mem hitem]
      omega
    change s.nalloc - 1 = BitVec.ofNat 64 (s.out.erase item).length
    rw [h.nalloc, hlen, BitVec.ofNat_add]
    exact BitVec.add_sub_cancel _ _
  · exact h.inits

theorem write_inv (h : Inv E s l) {item : ℕ} (hitem : item ∈ s.out) (bytes : ℕ → BitVec 8) :
    Inv E (write E item bytes s) l := by
  have hm : ∀ x, x < item ∨ item + E.size ≤ x → (write E item bytes s).mem x = s.mem x := fun x hx =>
    if_neg fun hin => by omega
  obtain ⟨hfree, hallocs⟩ := h.frame_out hitem le_rfl hm
  exact ⟨hfree, hallocs, h.perm, h.apart, h.range, h.nalloc, h.inits⟩

/-- what `shmem_free_list_alloc` does in each case -/
theorem alloc_cases (r : Option ℕ) (s : St) :
    (s.head = none ∧ malloc E s r = none ∧ alloc E f r s = (none, s)) ∨
    (s.head = none ∧ (∃ buf, malloc E s r = some buf) ∧ alloc E f r s = take (more E f r s).2) ∨
    (s.head ≠ none ∧ alloc E f r s = take s) := by
  by_cases hhead : s.head = none
  · rcases hr : malloc E s r with _ | buf
    · exact .inl ⟨hhead, rfl, by simp [alloc, hhead, more_none hr]⟩
    · exact .inr (.inl ⟨hhead, ⟨buf, rfl⟩, by simp [alloc, hhead, more_some hr]⟩)
  · exact .inr (.inr ⟨hhead, by simp [alloc, hhead]⟩)

theorem take_ne_none (h : s.head ≠ none) : (take s).1 ≠ none := by
  obtain ⟨item, hitem⟩ := Option.ne_none_iff_exists'.mp h
  simp [take, hitem]

theorem alloc_inv (h : Inv E s l) (hE : E.size < 2 ^ 31) (r : Option ℕ) : ∃ l', Inv E (alloc E f r s).2 l' := by
  rcases alloc_cases (E := E) (f := f) r s with ⟨-, -, he⟩ | ⟨-, ⟨buf, hr⟩, he⟩ | ⟨hhead, he⟩
  · exact ⟨l, he ▸ h⟩
  · rw [he]
    exact take_inv (more_inv h hE hr) (by rw [more_some hr])
  · obtain ⟨item, hitem⟩ := Option.ne_none_iff_exists'.mp hhead
    rw [he]
    exact take_inv h hitem

/-- each step keeps the representation -/
theorem step_inv (hE : E.size < 2 ^ 31) (o : Op) (h : ∃ l, Inv E s l) : ∃ l, Inv E (step E f s o) l := by
  obtain ⟨l, h⟩ := h
  cases o with
  | more r =>
    rcases hr : malloc E s r with _ | buf
    · exact ⟨l, by rw [step, more_none hr]; exact h⟩
    · exact ⟨_, more_inv h hE hr⟩
  | alloc r => exact alloc_inv h hE r
  | free item =>
    simp only [step]
    split_ifs with hitem
    · exact ⟨_, free_inv h hitem⟩
    · exact ⟨l, h⟩
  | write item bytes =>
    simp only [step]
    split_ifs with hitem
    · exact ⟨_, write_inv h hitem bytes⟩
    · exact ⟨l, h⟩

/-- what the representation says about the list -/
theorem listOk_of_inv (h : Inv E s l) : ListOk E f s where
  items := ⟨l, h.free, h.nodup.of_append_left, fun _ hx => List.disjoint_of_nodup_append h.nodup hx, h.mem_slots⟩
  chunks := h.allocs
  disjoint := h.slots_apart
  headers := fun _ hx _ hc => h.slot_header hx hc
  out := h.nodup.of_append_right
  nalloc := by rw [h.nalloc, BitVec.toNat_ofNat, Nat.mod_eq_of_lt h.out_lt]
  inits := ⟨h.inits.nodup_iff.mpr h.slots_nodup, fun _ => h.inits.mem_iff⟩
  failing := by
    intro r
    rcases alloc_cases (E := E) (f := f) r s with ⟨hhead, hr, he⟩ | ⟨hhead, ⟨buf, hr⟩, he⟩ | ⟨hhead, he⟩
    · simp [he, hhead, hr]
    · have hne : (more E f r s).2.head ≠ none := by simp [more_some hr]
      simp [he, hr, take_ne_none hne]
    · simp [he, hhead, take_ne_none hhead]
  unchanged := by
    intro r hnone
    rcases alloc_cases (E := E) (f := f) r s with ⟨-, -, he⟩ | ⟨-, ⟨buf, hr⟩, he⟩ | ⟨hhead, he⟩
    · rw [he]
    · rw [he] at hnone
      exact absurd hnone (take_ne_none (by simp [more_some hr]))
    · rw [he] at hnone
      exact absurd hnone (take_ne_none hhead)

/-! ## The size of a chunk -/

/-- the first aligned address behind the bytes that the first chunk got at address 16 -/
def nextChunk (E : ElementSize) : ℕ := 16 * ((16 + chunkSize E + 15) / 16)

/-- two calls of `shmem_free_list_more` -/
def twoChunks (E : ElementSize) : List Op := [.more (some 16), .more (some (nextChunk E))]

/-- from 2^31 on the second chunk may lie in the elements of the first -/
theorem not_listOk_of_large (hE : 2 ^ 31 ≤ E.size) (m : Mem) : ¬ ListOk E f (run (step E f) (init m) (twoChunks E)) := by
  have hfits := E.fits
  have hsize : chunkSize E = 8 + (2 * E.size - 2 ^ 32) := by
    unfold chunkSize num_elements
    omega
  have hnext : 16 + chunkSize E ≤ nextChunk E ∧ nextChunk E ≤ 31 + chunkSize E ∧ 16 ∣ nextChunk E := by
    unfold nextChunk
    omega
  have hfirst : malloc E (init m) (some 16) = some 16 := by
    have hlegal : Legal E (init m) 16 := ⟨by decide, by decide, by omega, fun _ hc => absurd hc List.not_mem_nil⟩
    simp [malloc, hlegal]
  have hsecond : malloc E (more E f (some 16) (init m)).2 (some (nextChunk E)) = some (nextChunk E) := by
    have hlegal : Legal E (more E f (some 16) (init m)).2 (nextChunk E) := by
      refine ⟨by omega, hnext.2.2, by omega, fun c hc => ?_⟩
      rw [more_some hfirst] at hc
      obtain rfl : c = 16 := List.mem_singleton.mp hc
      exact .inr hnext.1
    simp [malloc, hlegal]
  intro hok
  have hdis := hok.disjoint
  have hslots : slots E (run (step E f) (init m) (twoChunks E)) =
      [nextChunk E + 8, nextChunk E + 8 + E.size, 24, 24 + E.size] := by
    simp only [twoChunks, run_cons, run_nil, step, slots]
    rw [more_some hsecond, more_some hfirst]
    simp [init, chunkSlots_eq]
  -- the first slot of the second chunk meets both slots of the first chunk, or the first, or the second
  rw [hslots, List.pairwise_cons] at hdis
  have h0 := hdis.1 24 (by simp)
  have h1 := hdis.1 (24 + E.size) (by simp)
  unfold Apart at h0 h1
  omega

/-- an `init_fn` that writes nothing -/
def noInit (E : ElementSize) : InitFn E := ⟨fun m _ => m, fun _ _ _ _ => rfl⟩

/-- bounce buffers of 2 GiB, with the 16 bytes in front of the data -/
def largeBuffers : ElementSize := ⟨2 ^ 31 + 16, by decide, by decide⟩

/-- malloc is asked for 40 bytes at 16, and the next chunk at 64 lies in the elements -/
theorem large_not_listOk : ¬ ListOk largeBuffers (noInit largeBuffers)
    (run (step largeBuffers (noInit largeBuffers)) (init fun _ => 0) [.more (some 16), .more (some 64)]) :=
  not_listOk_of_large (by decide) _

/-- **Exact condition.** The free list is right after every run iff the element size is below 2^31. -/
theorem listOk_iff (E : ElementSize) :
    (∀ (f : InitFn E) (m : Mem) (ops : List Op), ListOk E f (run (step E f) (init m) ops)) ↔ E.size < 2 ^ 31 := by
  constructor
  · intro hall
    by_contra hge
    exact not_listOk_of_large (not_lt.mp hge) (fun _ => 0) (hall (noInit E) _ _)
  · intro hE f m ops
    obtain ⟨l, hl⟩ := run_inv (step E f) (fun s => ∃ l, Inv E s l) (fun _ o => step_inv hE o) (init m) ⟨[], init_inv m⟩ ops
    exact listOk_of_inv hl

end SandiaShmem.Runtime.ShmemFreeList
