/-
The symmetric heap as its users see it (`src/symmetric_heap_c.c`): the calls of one PE, and what the PEs write into the
blocks. The barriers of the calls are not part of this; here the build checks that pointers are in the heap.

- `Related`: the blocks of the user are the chunks in use.
- `exec_refines`: a legal call is one of the steps of an allocator.
- `heap_run`: whatever legal calls are made from the start, the heap does not stop, and it behaves as an allocator.
-/
import SandiaShmem.Core.Allocator
import SandiaShmem.Heap.Memalign

namespace SandiaShmem.Heap

open Blocks BitScan BitTrie WordMem While Allocator

/-! ## Model -/

/-- `SHMEM_ERR_CHECK_SYMMETRIC_HEAP` -/
def in_symmetric_heap (Y : Sys) (ptr : ℕ) : Bool := Y.base ≤ ptr && ptr < Y.base + Y.length

def shmem_malloc (Y : Sys) (s : MState) (size : ℕ) : Res := if size = 0 then .ok (NULL, s) else dlmalloc Y s size

def shmem_calloc (Y : Sys) (s : MState) (count size : ℕ) : Res :=
  if size = 0 ∨ count = 0 then .ok (NULL, s) else dlcalloc Y s count size

def shmem_internal_free (Y : Sys) (s : MState) (ptr : ℕ) : Except Stop MState :=
  if ptr ≠ NULL then dlfree Y s ptr else .ok s

def shmem_free (Y : Sys) (s : MState) (ptr : ℕ) : Except Stop MState :=
  if ptr ≠ NULL ∧ in_symmetric_heap Y ptr = false then .error .usage else shmem_internal_free Y s ptr

def shmem_realloc (Y : Sys) (s : MState) (ptr size : ℕ) : Res :=
  if size = 0 ∧ ptr = NULL then .ok (ptr, s)
  else if ptr ≠ NULL ∧ in_symmetric_heap Y ptr = false then .error .usage
  else if size = 0 ∧ ptr ≠ NULL then do
    let s ← dlfree Y s ptr
    .ok (NULL, s)
  else dlrealloc Y s ptr size

def shmem_align (Y : Sys) (s : MState) (fuel alignment size : ℕ) : Outcome Res :=
  if size = 0 then .returned (.ok (NULL, s))
  else if alignment = 0 then .returned (.ok (NULL, s))
  else dlmemalign Y s fuel alignment size

/-- a call, or a byte that some PE writes -/
inductive Op where
  | malloc (size : ℕ)
  | calloc (count size : ℕ)
  | realloc (ptr size : ℕ)
  | align (alignment size : ℕ)
  | free (ptr : ℕ)
  | write (x b : ℕ)
deriving DecidableEq, Repr

/-- what is returned, if the program goes on; `shmem_free` and a write return nothing -/
def exec (Y : Sys) (fuel : ℕ) (s : MState) : Op → Option (ℕ × MState)
  | .malloc size => (shmem_malloc Y s size).toOption
  | .calloc count size => (shmem_calloc Y s count size).toOption
  | .realloc ptr size => (shmem_realloc Y s ptr size).toOption
  | .align alignment size =>
    match shmem_align Y s fuel alignment size with
    | .returned r => r.toOption
    | .stopped | .running => none
  | .free ptr => ((shmem_free Y s ptr).toOption).map fun s => (NULL, s)
  | .write x b => some (NULL, { s with mem := setByte s.mem x b })

/-- what is asked of the allocator -/
def Op.call : Op → Call
  | malloc size => .alloc size MALLOC_ALIGNMENT false
  | calloc count size => .alloc (count * size) MALLOC_ALIGNMENT true
  | realloc ptr size =>
    if ptr = NULL then .alloc size MALLOC_ALIGNMENT false
    else if size = 0 then .free ptr
    else .resize ptr size
  | align alignment size => .alloc size (2 ^ Nat.clog 2 alignment) false
  | free ptr => .free ptr
  | write x b => .store x b

/-- sizes are not near 2^63, and alignments not above it -/
def Op.Ok : Op → Prop
  | malloc size | realloc _ size => TameReq size
  | calloc count size => count < 2 ^ 64 ∧ size < 2 ^ 64 ∧ TameReq (count * size)
  | align alignment size => alignment ≤ 2 ^ 63 ∧ TameReq (memalign_bytes alignment size)
  | free _ | write .. => True

/-! ## The blocks of the user -/

/-- each block is in a chunk of its own, and no other chunk is in use -/
structure Tracks (Y : Sys) (bs : List (ℕ × Tag)) (live : ℕ → Option ℕ) : Prop where
  block : ∀ x n, live x = some n → ∃ p k, x = chunk2mem p ∧ At Y.base bs p k .used ∧ n + CHUNK_OVERHEAD ≤ k
  chunk : ∀ p k, At Y.base bs p k .used → live (chunk2mem p) ≠ none

/-- the allocator's state is that of the heap -/
def Related (Y : Sys) (S : Store) (s : MState) : Prop :=
  ∃ bs, Valid Y s bs ∧ Tracks Y bs S.live ∧ ∀ x n, S.live x = some n → ∀ i < n, S.byte (x + i) = byte s.mem (x + i)

section
variable {Y : Sys} {s s' : MState} {S : Store} {bs bs' : List (ℕ × Tag)} {p q n m k x fuel : ℕ} {live : ℕ → Option ℕ}

theorem chunk2mem_inj (h : chunk2mem p = chunk2mem q) : p = q := Nat.add_right_cancel h

theorem Tracks.remove (h : Tracks Y bs live)
    (hlive : ∀ r i, At Y.base bs' r i .used ↔ At Y.base bs r i .used ∧ r ≠ p) :
    Tracks Y bs' (Function.update live (chunk2mem p) none) := by
  refine ⟨fun x j hx => ?_, fun r i hr => ?_⟩
  · obtain ⟨hne, hx'⟩ := update_none_sub hx
    obtain ⟨r, i, rfl, hr, hle⟩ := h.block x j hx'
    exact ⟨r, i, rfl, (hlive r i).mpr ⟨hr, fun heq => hne (heq ▸ rfl)⟩, hle⟩
  · obtain ⟨hr', hne⟩ := (hlive r i).mp hr
    rw [Function.update_of_ne fun heq => hne (chunk2mem_inj heq)]
    exact h.chunk r i hr'

/-- a new block, where the others are in the row already -/
theorem tracks_add {other : ℕ → ℕ → Prop} (hblock : ∀ x j, live x = some j → ∃ r i, x = chunk2mem r ∧ other r i ∧
      j + CHUNK_OVERHEAD ≤ i) (hchunk : ∀ r i, other r i → live (chunk2mem r) ≠ none)
    (hlive : ∀ r i, At Y.base bs' r i .used ↔ other r i ∨ (r = q ∧ i = m)) (hnew : ∀ i, ¬ other q i)
    (hfits : n + CHUNK_OVERHEAD ≤ m) : Tracks Y bs' (Function.update live (chunk2mem q) (some n)) := by
  refine ⟨fun x j hx => ?_, fun r i hr => ?_⟩
  · by_cases hxq : x = chunk2mem q
    · rw [hxq, Function.update_self, Option.some.injEq] at hx
      exact ⟨q, m, hxq, (hlive q m).mpr (.inr ⟨rfl, rfl⟩), hx ▸ hfits⟩
    · rw [Function.update_of_ne hxq] at hx
      obtain ⟨r, i, rfl, hr, hle⟩ := hblock x j hx
      exact ⟨r, i, rfl, (hlive r i).mpr (.inl hr), hle⟩
  · rcases (hlive r i).mp hr with hr' | ⟨rfl, -⟩
    · have hne : r ≠ q := fun heq => hnew i (heq ▸ hr')
      rw [Function.update_of_ne fun heq => hne (chunk2mem_inj heq)]
      exact hchunk r i hr'
    · rw [Function.update_self]
      exact Option.some_ne_none n

/-- a chunk in use that no block is in has room for a new block -/
theorem new_block (h : Inv Y s' bs') (hq : At Y.base bs' q m .used) (hfits : n + CHUNK_OVERHEAD ≤ m)
    (hother : ∀ x j, live x = some j → ∃ r i, x = chunk2mem r ∧ At Y.base bs' r i .used ∧ r ≠ q ∧ j + CHUNK_OVERHEAD ≤ i) :
    New Y.base (Y.base + Y.length) live (chunk2mem q) n := by
  have hm := h.chunk hq
  have htop := h.topsize_le
  unfold CHUNK_OVERHEAD SIZE_T_SIZE at hfits hother
  have hmem : ∀ r, chunk2mem r = r + 16 := fun _ => rfl
  refine ⟨by rw [hmem]; omega, by rw [hmem]; omega, by rw [hmem]; omega, fun x j hx => ?_⟩
  obtain ⟨r, i, rfl, hr, hne, hle⟩ := hother x j hx
  refine ⟨fun heq => hne (chunk2mem_inj heq).symm, ?_⟩
  rw [hmem, hmem]
  rcases hq.disjoint h.pos hr with ⟨heq, -⟩ | hlt | hlt
  · exact absurd heq.symm hne
  · omega
  · omega

theorem Related.of_same (h : Related Y S s) (hvalid : ∀ bs, Valid Y s bs → Valid Y s' bs) (hmem : s'.mem = s.mem) :
    Related Y S s' := by
  obtain ⟨bs, hv, ht, hb⟩ := h
  exact ⟨bs, hvalid bs hv, ht, hmem ▸ hb⟩

theorem Failed.related {nb : ℕ} (hf : Failed Y s s' bs nb) (h : Related Y S s) : Related Y S s' := by
  obtain ⟨flag, rfl⟩ := hf.same
  refine h.of_same (fun bs hv => ?_) rfl
  rcases hv with hv | ⟨hv, hbs⟩
  · exact .inl ⟨hv.base, hv.curr, hv.fits, hv.least, hv.footprint, hv.layout, hv.tags, hv.top, hv.size, hv.dv, hv.free,
      hv.binned.of_same rfl rfl rfl⟩
  · exact .inr ⟨⟨hv.curr, hv.zero, hv.bins, hv.state⟩, hbs⟩

/-- the bytes of a block are its chunk's -/
theorem Tracks.byte_eq {mem mem' : Mem} (h : Inv Y s bs) (ht : Tracks Y bs live) (hx : live x = some n) {i : ℕ}
    (hi : i < n) (hdata : ∀ p k, x = chunk2mem p → At Y.base bs p k .used → ∀ y, Payload p k y → mem' y = mem y) :
    byte mem' (x + i) = byte mem (x + i) := by
  obtain ⟨p, k, rfl, hp, hle⟩ := ht.block x n hx
  obtain ⟨h1, h2, -⟩ := h.chunk hp
  exact byte_payload h1 h2 (by omega) (hdata p k rfl hp)

/-! ## Steps -/

/-- a chunk for n bytes has been made, and nothing else has changed for the users -/
structure Made (Y : Sys) (s s' : MState) (bs bs' : List (ℕ × Tag)) (n q m : ℕ) : Prop where
  inv : Inv Y s' bs'
  fits : n + CHUNK_OVERHEAD ≤ m
  new : ∀ i, ¬ At Y.base bs q i .used
  live : ∀ r i, At Y.base bs' r i .used ↔ At Y.base bs r i .used ∨ (r = q ∧ i = m)
  data : ∀ r i, At Y.base bs r i .used → ∀ y, Payload r i y → s'.mem y = s.mem y

theorem Allocated.made (h : Allocated Y s s' bs bs' (request2size n) q m) (hn : n < MAX_REQUEST) :
    Made Y s s' bs bs' n q m :=
  ⟨h.inv, (request2size_spec hn).2.2.1.trans h.fits, h.new, h.live, h.data⟩

theorem AlignedAt.made (h : AlignedAt Y s s' bs bs' k (request2size n) q m) (hn : n < MAX_REQUEST) :
    Made Y s s' bs bs' n q m :=
  ⟨h.inv, (request2size_spec hn).2.2.1.trans h.fits, h.new, h.live, h.data⟩

/-- a new chunk is a step of the allocator -/
theorem Made.step {a : ℕ} {c : Bool} (h : Made Y s s' bs bs' n q m) (hv : Valid Y s bs) (ht : Tracks Y bs S.live)
    (hb : ∀ x n, S.live x = some n → ∀ i < n, S.byte (x + i) = byte s.mem (x + i)) (ha : a ∣ chunk2mem q)
    (hclear : c = true → ∀ i < n, byte s'.mem (chunk2mem q + i) = 0) :
    ∃ S', Step Y.base (Y.base + Y.length) S (.alloc n a c) (chunk2mem q) S' ∧ Related Y S' s' := by
  have hq : At Y.base bs' q m .used := (h.live q m).mpr (.inr ⟨rfl, rfl⟩)
  have hkept : ∀ x j, S.live x = some j → ∀ i < j, byte s'.mem (x + i) = S.byte (x + i) := by
    intro x j hx i hi
    rw [hb x j hx i hi]
    rcases hv with hv | ⟨-, rfl⟩
    · exact ht.byte_eq hv hx hi fun p k _ hp => h.data p k hp
    · obtain ⟨p, k, -, hp, -⟩ := ht.block x j hx
      exact hp.elim
  refine ⟨⟨Function.update S.live (chunk2mem q) (some n), byte s'.mem⟩,
    .alloc (new_block h.inv hq h.fits fun x j hx => ?_) ha rfl hclear fun x j _ hx => hkept x j hx,
    bs', .inl h.inv, tracks_add ht.block ht.chunk h.live h.new h.fits, fun _ _ _ _ _ => rfl⟩
  obtain ⟨r, i, rfl, hr, hle⟩ := ht.block x j hx
  exact ⟨r, i, rfl, (h.live r i).mpr (.inl hr), fun heq => h.new i (heq ▸ hr), hle⟩

theorem chunk2mem_aligned (h : Inv Y s bs) (hp : At Y.base bs p k .used) : MALLOC_ALIGNMENT ∣ chunk2mem p := by
  have := (h.chunk hp).1
  unfold MALLOC_ALIGNMENT chunk2mem TWO_SIZE_T_SIZES SIZE_T_SIZE
  omega

/-- a call of `dlmalloc` -/
theorem malloc_step (hR : Related Y S s) (hreq : TameReq n) :
    ∃ r s' S', dlmalloc Y s n = .ok (r, s') ∧ Step Y.base (Y.base + Y.length) S (.alloc n MALLOC_ALIGNMENT false) r S' ∧
      Related Y S' s' := by
  have hR' := hR
  obtain ⟨bs, hv, ht, hb⟩ := hR
  rcases dlmalloc_spec hv hreq with ⟨s', hcall, hfail⟩ | ⟨q, m, s', bs', hcall, hmax, hall⟩
  · refine ⟨NULL, s', S, hcall, .refused, ?_⟩
    rcases hfail with ⟨-, rfl⟩ | ⟨hfail, -⟩
    · exact hR'
    · exact hfail.related hR'
  · have hmade := hall.made hmax
    have hq := (hmade.live q m).mpr (.inr ⟨rfl, rfl⟩)
    obtain ⟨S', hstep, hrel⟩ := hmade.step (c := false) hv ht hb (chunk2mem_aligned hmade.inv hq) nofun
    exact ⟨_, s', S', hcall, hstep, hrel⟩

/-- a call of `dlcalloc` -/
theorem calloc_step {count size : ℕ} (hR : Related Y S s) (hc : count < 2 ^ 64) (hs : size < 2 ^ 64)
    (hreq : TameReq (count * size)) :
    ∃ r s' S', dlcalloc Y s count size = .ok (r, s') ∧
      Step Y.base (Y.base + Y.length) S (.alloc (count * size) MALLOC_ALIGNMENT true) r S' ∧ Related Y S' s' := by
  have hR' := hR
  obtain ⟨bs, hv, ht, hb⟩ := hR
  rcases dlcalloc_spec hv hc hs hreq with ⟨s', hcall, hfail⟩ | ⟨q, m, s', bs', hcall, hmax, hall, hzero⟩
  · refine ⟨NULL, s', S, hcall, .refused, ?_⟩
    rcases hfail with ⟨-, rfl⟩ | ⟨hfail, -⟩
    · exact hR'
    · exact hfail.related hR'
  · have hmade := hall.made hmax
    have hq := (hmade.live q m).mpr (.inr ⟨rfl, rfl⟩)
    obtain ⟨S', hstep, hrel⟩ := hmade.step (c := true) hv ht hb (chunk2mem_aligned hmade.inv hq) fun _ => hzero
    exact ⟨_, s', S', hcall, hstep, hrel⟩

/-- a call of `dlmemalign` -/
theorem memalign_step {alignment : ℕ} (hR : Related Y S s) (halign : alignment ≤ 2 ^ 63) (hfuel : 64 ≤ fuel)
    (hreq : TameReq (memalign_bytes alignment n)) :
    ∃ r s' S', dlmemalign Y s fuel alignment n = .returned (.ok (r, s')) ∧
      Step Y.base (Y.base + Y.length) S (.alloc n (2 ^ Nat.clog 2 alignment) false) r S' ∧ Related Y S' s' := by
  have hR' := hR
  obtain ⟨bs, hv, ht, hb⟩ := hR
  rcases dlmemalign_spec hv halign hfuel hreq with ⟨s', hcall, hfail⟩ | ⟨q, m, s', bs', hcall, hmax, hall⟩
  · refine ⟨NULL, s', S, hcall, .refused, ?_⟩
    rcases hfail with ⟨-, rfl⟩ | hnull
    · exact hR'
    · rcases dlmalloc_spec hv hreq with ⟨s₁, hcall₁, hfail⟩ | ⟨q, m, s₁, bs', hcall₁, -⟩
      · rw [hnull, Except.ok.injEq, Prod.mk.injEq] at hcall₁
        obtain ⟨-, rfl⟩ := hcall₁
        rcases hfail with ⟨-, rfl⟩ | ⟨hfail, -⟩
        · exact hR'
        · exact hfail.related hR'
      · rw [hnull, Except.ok.injEq, Prod.mk.injEq] at hcall₁
        exact absurd hcall₁.1.symm chunk2mem_ne_null
  · have hmade := hall.made hmax
    obtain ⟨S', hstep, hrel⟩ := hmade.step (c := false) hv ht hb hall.aligned nofun
    exact ⟨_, s', S', hcall, hstep, hrel⟩

/-- a block of the user is a chunk in use, after the first call -/
theorem Related.block (hR : Related Y S s) (hx : S.live x = some n) : ∃ bs p k, Inv Y s bs ∧ Tracks Y bs S.live ∧
    (∀ x n, S.live x = some n → ∀ i < n, S.byte (x + i) = byte s.mem (x + i)) ∧ x = chunk2mem p ∧
    At Y.base bs p k .used ∧ n + CHUNK_OVERHEAD ≤ k := by
  obtain ⟨bs, hv, ht, hb⟩ := hR
  obtain ⟨p, k, hxp, hp, hle⟩ := ht.block x n hx
  rcases hv with hv | ⟨-, rfl⟩
  · exact ⟨bs, p, k, hv, ht, hb, hxp, hp, hle⟩
  · exact hp.elim

/-- a call of `dlfree` -/
theorem free_step (hR : Related Y S s) (hx : S.live x = some n) :
    ∃ s' S', dlfree Y s x = .ok s' ∧ Step Y.base (Y.base + Y.length) S (.free x) 0 S' ∧ Related Y S' s' := by
  obtain ⟨bs, p, k, hv, ht, hb, rfl, hp, -⟩ := hR.block hx
  obtain ⟨s', bs', hcall, hfreed⟩ := dlfree_spec hv hp
  have hkept : ∀ y j, y ≠ chunk2mem p → S.live y = some j → ∀ i < j, byte s'.mem (y + i) = S.byte (y + i) := by
    intro y j hne hy i hi
    rw [hb y j hy i hi]
    refine ht.byte_eq hv hy hi fun r l hyr hr => hfreed.data r l hr fun heq => hne ?_
    rw [hyr, heq]
  refine ⟨s', ⟨Function.update S.live (chunk2mem p) none, byte s'.mem⟩, hcall, .free hx rfl hkept,
    bs', .inl hfreed.inv, ht.remove hfreed.live, fun _ _ _ _ _ => rfl⟩

/-- a call of `dlrealloc` for a block -/
theorem realloc_step (hR : Related Y S s) (hx : S.live x = some m) (hreq : TameReq n) :
    ∃ r s' S', dlrealloc Y s x n = .ok (r, s') ∧ Step Y.base (Y.base + Y.length) S (.resize x n) r S' ∧
      Related Y S' s' := by
  have hR' := hR
  obtain ⟨bs, p, k, hv, ht, hb, rfl, hp, hmk⟩ := hR.block hx
  rcases dlrealloc_spec hv hp hreq with ⟨s', hcall, hfail⟩ | ⟨q, j, s', bs', hcall, hmax, hmoved⟩
  · refine ⟨NULL, s', S, hcall, .stuck, ?_⟩
    rcases hfail with ⟨-, rfl⟩ | ⟨-, hfail, -⟩
    · exact hR'
    · exact hfail.related hR'
  · have hfits : n + CHUNK_OVERHEAD ≤ j := (request2size_spec hmax).2.2.1.trans hmoved.fits
    have hq : At Y.base bs' q j .used := (hmoved.live q j).mpr (.inr ⟨rfl, rfl⟩)
    have hnew : ∀ i, ¬ (At Y.base bs q i .used ∧ q ≠ p) := fun i hi => hmoved.new hi.2 i hi.1
    have hothers : ∀ y i, Function.update S.live (chunk2mem p) none y = some i →
        ∃ r l, y = chunk2mem r ∧ (At Y.base bs r l .used ∧ r ≠ p) ∧ i + CHUNK_OVERHEAD ≤ l := by
      intro y i hy
      obtain ⟨hne, hy'⟩ := update_none_sub hy
      obtain ⟨r, l, rfl, hr, hle⟩ := ht.block y i hy'
      exact ⟨r, l, rfl, ⟨hr, fun heq => hne (heq ▸ rfl)⟩, hle⟩
    have hkept : ∀ y i, y ≠ chunk2mem p → S.live y = some i → ∀ l < i, byte s'.mem (y + l) = S.byte (y + l) := by
      intro y i hne hy l hl
      rw [hb y i hy l hl]
      refine ht.byte_eq hv hy hl fun r l hyr hr => hmoved.data r l hr fun heq => hne ?_
      rw [hyr, heq]
    refine ⟨chunk2mem q, s', ⟨Function.update (Function.update S.live (chunk2mem p) none) (chunk2mem q) (some n),
      byte s'.mem⟩, hcall, .resize hx (new_block hmoved.inv hq hfits fun y i hy => ?_) rfl (fun i hi hi' => ?_) hkept,
      bs', .inl hmoved.inv, tracks_add hothers (fun r i hr => ?_) hmoved.live hnew hfits, fun _ _ _ _ _ => rfl⟩
    · obtain ⟨r, l, rfl, hr, hle⟩ := hothers y i hy
      exact ⟨r, l, rfl, (hmoved.live r l).mpr (.inl hr), fun heq => hnew l (heq ▸ hr), hle⟩
    · dsimp only
      rw [hmoved.kept i hi (by omega), hb _ m hx i hi']
    · rw [Function.update_of_ne fun heq => hr.2 (chunk2mem_inj heq)]
      exact ht.chunk r i hr.1

/-- a byte of a block is written -/
theorem write_step {b y : ℕ} (hR : Related Y S s) (hb : b < 256) (hx : S.live x = some n) (hy : x ≤ y ∧ y < x + n) :
    ∃ S', Step Y.base (Y.base + Y.length) S (.store y b) 0 S' ∧ Related Y S' { s with mem := setByte s.mem y b } := by
  obtain ⟨bs, p, k, hv, ht, hbytes, rfl, hp, hle⟩ := hR.block hx
  have hchunk := hv.chunk hp
  refine ⟨⟨S.live, Function.update S.byte y b⟩, .store rfl (Function.update_self ..)
    fun z hz => Function.update_of_ne hz .., bs, .inl (hv.user_write hp fun z hz => setByte_of_ne fun heq => hz ?_), ht,
    fun z j hz i hi => ?_⟩
  · subst heq
    unfold Payload
    unfold chunk2mem at hy
    unfold CHUNK_OVERHEAD TWO_SIZE_T_SIZES SIZE_T_SIZE at *
    omega
  · dsimp only
    rw [byte_setByte]
    by_cases hzy : z + i = y
    · rw [if_pos hzy, hzy, Function.update_self, Nat.mod_eq_of_lt hb]
    · rw [if_neg hzy, Function.update_of_ne hzy]
      exact hbytes z j hz i hi

/-! ## Runs -/

theorem Related.in_heap (hR : Related Y S s) (hx : S.live x = some n) : in_symmetric_heap Y x = true ∧ x ≠ NULL := by
  obtain ⟨bs, p, k, hv, -, -, rfl, hp, -⟩ := hR.block hx
  have hchunk := hv.chunk hp
  have htop := hv.topsize_le
  refine ⟨?_, chunk2mem_ne_null⟩
  unfold in_symmetric_heap chunk2mem TWO_SIZE_T_SIZES SIZE_T_SIZE
  simp only [Bool.and_eq_true, decide_eq_true_eq]
  omega

/-- **A legal call does not stop.** It is one of the steps of an allocator. -/
theorem exec_refines (op : Op) (hfuel : 64 ≤ fuel) (hR : Related Y S s) (hlegal : Legal S op.call) (hok : op.Ok) :
    ∃ r s' S', exec Y fuel s op = some (r, s') ∧ Step Y.base (Y.base + Y.length) S op.call r S' ∧ Related Y S' s' := by
  cases op with
  | malloc size =>
    by_cases hz : size = 0
    · exact ⟨NULL, s, S, by simp [exec, shmem_malloc, hz, Except.toOption], .refused, hR⟩
    · obtain ⟨r, s', S', hcall, hstep, hrel⟩ := malloc_step hR hok
      exact ⟨r, s', S', by simp [exec, shmem_malloc, hz, hcall, Except.toOption], hstep, hrel⟩
  | calloc count size =>
    by_cases hz : size = 0 ∨ count = 0
    · exact ⟨NULL, s, S, by simp [exec, shmem_calloc, hz, Except.toOption], .refused, hR⟩
    · obtain ⟨r, s', S', hcall, hstep, hrel⟩ := calloc_step hR hok.1 hok.2.1 hok.2.2
      exact ⟨r, s', S', by simp [exec, shmem_calloc, hz, hcall, Except.toOption], hstep, hrel⟩
  | realloc ptr size =>
    by_cases hp : ptr = NULL
    · subst hp
      by_cases hz : size = 0
      · exact ⟨NULL, s, S, by simp [exec, shmem_realloc, hz, Except.toOption], by simpa [Op.call] using .refused, hR⟩
      · obtain ⟨r, s', S', hcall, hstep, hrel⟩ := malloc_step hR hok
        refine ⟨r, s', S', ?_, by simpa [Op.call] using hstep, hrel⟩
        simp [exec, shmem_realloc, hz, dlrealloc, hcall, Except.toOption]
    · by_cases hz : size = 0
      · have hcallEq : (Op.realloc ptr size).call = .free ptr := by simp [Op.call, hp, hz]
        rw [hcallEq] at hlegal ⊢
        obtain ⟨n, hn⟩ := Option.ne_none_iff_exists'.mp (hlegal.resolve_left hp)
        obtain ⟨s', S', hcall, hstep, hrel⟩ := free_step hR hn
        refine ⟨NULL, s', S', ?_, hstep, hrel⟩
        simp [exec, shmem_realloc, hz, hp, (hR.in_heap hn).1, hcall, Except.toOption, bind, Except.bind]
      · have hcallEq : (Op.realloc ptr size).call = .resize ptr size := by simp [Op.call, hp, hz]
        rw [hcallEq] at hlegal ⊢
        obtain ⟨n, hn⟩ := Option.ne_none_iff_exists'.mp hlegal
        obtain ⟨r, s', S', hcall, hstep, hrel⟩ := realloc_step hR hn hok
        refine ⟨r, s', S', ?_, hstep, hrel⟩
        simp [exec, shmem_realloc, hz, (hR.in_heap hn).1, hcall, Except.toOption]
  | align alignment size =>
    by_cases hz : size = 0
    · exact ⟨NULL, s, S, by simp [exec, shmem_align, hz, Except.toOption], .refused, hR⟩
    · by_cases ha : alignment = 0
      · exact ⟨NULL, s, S, by simp [exec, shmem_align, hz, ha, Except.toOption], .refused, hR⟩
      · obtain ⟨r, s', S', hcall, hstep, hrel⟩ := memalign_step hR hok.1 hfuel hok.2
        exact ⟨r, s', S', by simp [exec, shmem_align, hz, ha, hcall, Except.toOption], hstep, hrel⟩
  | free ptr =>
    by_cases hp : ptr = NULL
    · subst hp
      exact ⟨NULL, s, S, by simp [exec, shmem_free, shmem_internal_free, Except.toOption], .nothing, hR⟩
    · obtain ⟨n, hn⟩ := Option.ne_none_iff_exists'.mp (hlegal.resolve_left hp)
      obtain ⟨s', S', hcall, hstep, hrel⟩ := free_step hR hn
      refine ⟨NULL, s', S', ?_, hstep, hrel⟩
      simp [exec, shmem_free, shmem_internal_free, hp, (hR.in_heap hn).1, hcall, Except.toOption]
  | write y b =>
    obtain ⟨hb, x, n, hx, hy⟩ := hlegal
    obtain ⟨S', hstep, hrel⟩ := write_step hR hb hx hy
    exact ⟨NULL, _, S', rfl, hstep, hrel⟩

theorem related_init (Y : Sys) (mem : Mem) : Related Y .empty (.init Y mem) :=
  ⟨[], .inr ⟨fresh_init Y mem, rfl⟩, ⟨nofun, fun _ _ h => h.elim⟩, nofun⟩

/-- **The heap behaves as an allocator.** Whatever a client does from the start, if all it does is legal then no call stops
the program, the history is one of an allocator, and no two blocks overlap. -/
theorem heap_run (Y : Sys) (mem : Mem) (client : List (Op × ℕ) → Op) (hfuel : 64 ≤ fuel)
    (hclient : ∀ tr S, Steps Y.base (Y.base + Y.length) .empty (calls Op.call tr) S →
      Legal S (client tr).call ∧ (client tr).Ok) (n : ℕ) :
    ∃ tr s S, play (exec Y fuel) client (.init Y mem) n = some (tr, s) ∧ tr.length = n ∧
      Steps Y.base (Y.base + Y.length) .empty (calls Op.call tr) S ∧ Related Y S s ∧
      Good Y.base (Y.base + Y.length) S := by
  obtain ⟨tr, s, S, hplay, hlen, hsteps, hR, -⟩ := play_refines (fun _ _ _ => exec_refines _ hfuel) (related_init Y mem)
    hclient n
  exact ⟨tr, s, S, hplay, hlen, hsteps, hR, hsteps.good good_empty⟩

/-- a client that writes into its block, has it resized, and frees it -/
def writer : List (Op × ℕ) → Op
  | [(.malloc 100, p)] => if p = 0 then .malloc 8 else .write (p + 99) 7
  | [(.malloc 100, p), (.write .., _)] => if p = 0 then .malloc 8 else .realloc p 5000
  | [(.malloc 100, _), (.write .., _), (.realloc _ 5000, q)] => if q = 0 then .malloc 8 else .free q
  | _ => .malloc 100

theorem writer_legal {lo hi : ℕ} (tr : List (Op × ℕ)) (h : Steps lo hi .empty (calls Op.call tr) S) :
    Legal S (writer tr).call ∧ (writer tr).Ok := by
  have htame : ∀ n, n ≤ 5000 → TameReq n := fun n hn => .inl (by omega)
  have hblock : ∀ {p S₁}, Steps lo hi .empty [((Op.malloc 100).call, p)] S₁ → p ≠ 0 → S₁.live p = some 100 := by
    intro p S₁ hsteps hp
    obtain ⟨S₀, -, hstep⟩ := (Steps.snoc_iff []).mp hsteps
    rw [hstep.live_alloc hp, Function.update_self]
  unfold writer
  split
  · rename_i p
    split_ifs with hp
    · exact ⟨trivial, htame 8 (by decide)⟩
    · exact ⟨⟨by decide, p, 100, hblock h hp, by omega, by omega⟩, trivial⟩
  · rename_i p x b r
    split_ifs with hp
    · exact ⟨trivial, htame 8 (by decide)⟩
    · obtain ⟨S₁, hsteps, hstep⟩ := (Steps.snoc_iff [((Op.malloc 100).call, p)]).mp h
      have hlive : S.live p ≠ none := by
        rw [hstep.live_store, hblock hsteps hp]
        exact Option.some_ne_none 100
      have hcall : (Op.realloc p 5000).call = .resize p 5000 := by simp [Op.call, NULL, hp]
      rw [hcall]
      exact ⟨hlive, htame 5000 (le_refl _)⟩
  · rename_i p x b r y q
    split_ifs with hq
    · exact ⟨trivial, htame 8 (by decide)⟩
    · refine ⟨.inr ?_, trivial⟩
      obtain ⟨S₁, -, hstep⟩ :=
        (Steps.snoc_iff [((Op.malloc 100).call, p), ((Op.write x b).call, r)]).mp h
      by_cases hy : y = NULL
      · rw [Op.call, if_pos hy] at hstep
        rw [hstep.live_alloc hq, Function.update_self]
        exact Option.some_ne_none 5000
      · rw [Op.call, if_neg hy, if_neg (by decide)] at hstep
        rw [hstep.live_resize hq]
        exact Option.some_ne_none 5000
  · exact ⟨trivial, htame 100 (by decide)⟩

theorem heap_run_small : ∃ tr s S, play (exec .small 64) writer (.init .small fun _ => 0) 4 = some (tr, s) ∧
    tr = [(.malloc 100, 65552), (.write 65651 7, 0), (.realloc 65552 5000, 65664), (.free 65664, 0)] ∧
    Steps Sys.small.base (Sys.small.base + Sys.small.length) .empty (calls Op.call tr) S ∧
    Related .small S s ∧ Good Sys.small.base (Sys.small.base + Sys.small.length) S := by
  obtain ⟨tr, s, S, hplay, -, hsteps, hR, hgood⟩ :=
    heap_run .small (fun _ => 0) writer (le_refl 64) (fun tr _ h => writer_legal tr h) 4
  have htr : (play (exec .small 64) writer (.init .small fun _ => 0) 4).map Prod.fst =
      some [(.malloc 100, 65552), (.write 65651 7, 0), (.realloc 65552 5000, 65664), (.free 65664, 0)] := by
    decide +kernel
  rw [hplay, Option.map_some, Option.some.injEq] at htr
  exact ⟨tr, s, S, hplay, htr, hsteps, hR, hgood⟩

/-- **The heap leaves the blocks alone.** Whatever legal calls are made about other blocks and bytes, a byte of a block is
in memory what it has been. -/
theorem heap_keeps_byte (client : List (Op × ℕ) → Op) {i : ℕ} (hfuel : 64 ≤ fuel) (hR : Related Y S s)
    (hx : S.live x = some n) (hi : i < n)
    (hclient : ∀ tr S', Steps Y.base (Y.base + Y.length) S (calls Op.call tr) S' →
      Legal S' (client tr).call ∧ (client tr).Ok)
    (hnot : ∀ tr, ¬ Touches x (x + i) (client tr).call) (k : ℕ) :
    ∃ tr s', play (exec Y fuel) client s k = some (tr, s') ∧ tr.length = k ∧ byte s'.mem (x + i) = byte s.mem (x + i) := by
  obtain ⟨tr, s', S', hplay, hlen, hsteps, ⟨bs', -, -, hbytes'⟩, hmem⟩ :=
    play_refines (fun _ _ _ => exec_refines _ hfuel) hR hclient k
  obtain ⟨bs, -, -, hbytes⟩ := hR
  have hnot' : ∀ c ∈ calls Op.call tr, ¬ Touches x (x + i) c.1 := by
    intro c hc
    obtain ⟨op, hop, rfl⟩ := List.mem_map.mp hc
    obtain ⟨tr', htr'⟩ := hmem op hop
    rw [htr']
    exact hnot tr'
  obtain ⟨hlive, hbyte⟩ := hsteps.untouched hx hi hnot'
  exact ⟨tr, s', hplay, hlen, by rw [← hbytes' x n hlive i hi, hbyte, hbytes x n hx i hi]⟩

/-! ### Histories -/

/-- the small heap after calls from the start -/
def after (ops : List Op) : Option MState :=
  ops.foldl (fun s op => s.bind fun s => (exec .small 64 s op).map Prod.snd) (some (.init .small fun _ => 0))

/-- what the next call returns -/
def answer (ops : List Op) (op : Op) : Option ℕ := (after ops).bind fun s => (exec .small 64 s op).map Prod.fst

/-- the heap after legal calls, and its blocks -/
def Reached (ops : List Op) (S : Store) : Prop := ∃ s, after ops = some s ∧ Related .small S s

theorem reached_nil : Reached [] .empty := ⟨_, rfl, related_init ..⟩

theorem Reached.exec {ops : List Op} {r : ℕ} (op : Op) (h : Reached ops S) (hlegal : Legal S op.call) (hok : op.Ok)
    (hr : answer ops op = some r) :
    ∃ S', Reached (ops ++ [op]) S' ∧ Step Sys.small.base (Sys.small.base + Sys.small.length) S op.call r S' := by
  obtain ⟨s, hafter, hR⟩ := h
  obtain ⟨r', s', S', hexec, hstep, hR'⟩ := exec_refines op (le_refl 64) hR hlegal hok
  rw [answer, hafter, Option.bind_some, hexec, Option.map_some, Option.some.injEq] at hr
  subst hr
  refine ⟨S', ⟨s', ?_, hR'⟩, hstep⟩
  rw [after, List.foldl_append, ← after, hafter]
  simp [hexec]

theorem Reached.malloc {ops : List Op} {r : ℕ} (h : Reached ops S) (hn : TameReq n)
    (hr : answer ops (.malloc n) = some r) (hne : r ≠ 0) :
    ∃ S', Reached (ops ++ [.malloc n]) S' ∧ S'.live = Function.update S.live r (some n) := by
  obtain ⟨S', hS', hstep⟩ := h.exec (.malloc n) trivial hn hr
  exact ⟨S', hS', hstep.live_alloc hne⟩

theorem Reached.free {ops : List Op} {r : ℕ} (h : Reached ops S) (hp : p ≠ 0) (hlive : S.live p ≠ none)
    (hr : answer ops (.free p) = some r) :
    ∃ S', Reached (ops ++ [.free p]) S' ∧ S'.live = Function.update S.live p none := by
  obtain ⟨S', hS', hstep⟩ := h.exec (.free p) (.inr hlive) trivial hr
  exact ⟨S', hS', (hstep.live_free hp).2⟩

theorem heap_keeps_byte_small : ∃ s tr s', after [.malloc 100, .write 65559 9] = some s ∧
    play (exec .small 64) (fun _ => .malloc 8) s 2 = some (tr, s') ∧ tr.length = 2 ∧
    byte s'.mem (65552 + 7) = byte s.mem (65552 + 7) := by
  obtain ⟨S₁, h₁, hlive₁⟩ := reached_nil.malloc (n := 100) (r := 65552) (.inl (by decide)) (by decide +kernel) (by decide)
  have hblock : S₁.live 65552 = some 100 := by rw [hlive₁, Function.update_self]
  obtain ⟨S₂, ⟨s, hafter, hR⟩, hstep⟩ := h₁.exec (.write 65559 9) (r := 0)
    ⟨by decide, 65552, 100, hblock, by decide, by decide⟩ trivial (by decide +kernel)
  have hkeep : ∃ tr s', play (Heap.exec .small 64) (fun _ => .malloc 8) s 2 = some (tr, s') ∧ tr.length = 2 ∧
      byte s'.mem (65552 + 7) = byte s.mem (65552 + 7) :=
    heap_keeps_byte (fun _ => .malloc 8) (le_refl 64) hR (hstep.live_store ▸ hblock) (show 7 < 100 by decide)
      (fun _ _ _ => ⟨trivial, .inl (by decide)⟩) (fun _ => id) 2
  obtain ⟨tr, s', hplay, hlen, hbyte⟩ := hkeep
  exact ⟨s, tr, s', hafter, hplay, hlen, hbyte⟩

end

/-! ## Nothing is lost -/

section
variable {Y : Sys} {s : MState} {S : Store} {bs : List (ℕ × Tag)} {fuel alignment size : ℕ}

/-- without chunks in use there are no chunks: two free ones are not neighbours, nor is one next to the top chunk -/
theorem Inv.nil_of_no_used (h : Inv Y s bs) (hno : ∀ p k, ¬ At Y.base bs p k .used) : bs = [] := by
  cases bs with
  | nil => rfl
  | cons b rest =>
    obtain ⟨k, t⟩ := b
    obtain rfl | rfl : t = .used ∨ t = .free := h.tags (k, t) List.mem_cons_self
    · exact absurd (.inl ⟨rfl, rfl, rfl⟩) (hno Y.base k)
    · have h' : Inv Y s ([] ++ (k, .free) :: rest) := h
      obtain ⟨j, rest', rfl⟩ := h'.next_used
      exact absurd (.inr (.inl ⟨rfl, rfl, rfl⟩)) (hno (Y.base + k) j)

/-- **No space is lost.** In a heap that legal calls have reached, with no sizes near 2^63: when the last block has been
freed, the heap is one top chunk again, and the bins are empty. -/
theorem heap_all_freed (hR : Related Y S s) (hnone : ∀ x, S.live x = none) :
    s.dvsize = 0 ∧ s.smallmap = 0 ∧ s.treemap = 0 ∧
      (s.top = 0 ∨ (s.top = Y.base ∧ s.topsize + TOP_FOOT_SIZE = s.footprint)) := by
  obtain ⟨bs, hv, ht, -⟩ := hR
  rcases hv with h | ⟨h, -⟩
  · have hnil := h.nil_of_no_used fun p k hp => ht.chunk p k hp (hnone _)
    subst hnil
    have hfree : frees Y.base [] \ {s.dv} = ∅ := by simp
    obtain ⟨b, hbins⟩ := h.binned
    have hb := hbins.binned
    rw [hfree] at hb
    rw [← hbins.smallmap, ← hbins.treemap]
    refine ⟨?_, ?_, ?_, .inr ⟨by simpa using h.top, ?_⟩⟩
    · rcases h.dv with ⟨-, hz⟩ | hat
      · exact hz
      · exact hat.elim
    · refine eq_zero_iff.mpr fun i _ => ?_
      by_contra hset
      obtain ⟨hne, -, hmem⟩ := hb.small.bin i (Bool.not_eq_false _ ▸ hset)
      obtain ⟨p, ps, hps⟩ := List.exists_cons_of_ne_nil hne
      exact (hmem p (hps ▸ List.mem_cons_self)).1.1
    · refine eq_zero_iff.mpr fun i _ => ?_
      by_contra hset
      have hne := (hb.tree.map_iff i).mp (Bool.not_eq_false _ ▸ hset)
      cases hT : b.treebins i with
      | nil => exact hne hT
      | node t chain l r => exact ((hb.tree.bin i t (by rw [hT]; simp [Trie.toList])).1).1
    · have hsize := h.seg_size_eq
      rw [h.footprint, hsize, top_foot_size_eq]
      simp
  · obtain ⟨htop, -, -, hdv, -⟩ := h.zero
    exact ⟨hdv, h.bins.1, h.bins.2, .inl htop⟩

theorem heap_all_freed_small :
    ∃ s, after [.malloc 100, .malloc 200, .malloc 300, .free 65664, .free 65552, .free 65872] = some s ∧
      s.dvsize = 0 ∧ s.smallmap = 0 ∧ s.treemap = 0 ∧
      (s.top = 0 ∨ (s.top = Sys.small.base ∧ s.topsize + TOP_FOOT_SIZE = s.footprint)) := by
  obtain ⟨S₁, h₁, hlive₁⟩ := reached_nil.malloc (n := 100) (r := 65552) (.inl (by decide)) (by decide +kernel) (by decide)
  obtain ⟨S₂, h₂, hlive₂⟩ := h₁.malloc (n := 200) (r := 65664) (.inl (by decide)) (by decide +kernel) (by decide)
  obtain ⟨S₃, h₃, hlive₃⟩ := h₂.malloc (n := 300) (r := 65872) (.inl (by decide)) (by decide +kernel) (by decide)
  have hlive : S₃.live = fun x => if x = 65872 then some 300 else if x = 65664 then some 200 else
      if x = 65552 then some 100 else none := by
    funext x
    simp only [hlive₃, hlive₂, hlive₁, Store.empty, Function.update_apply]
  obtain ⟨S₄, h₄, hlive₄⟩ := h₃.free (p := 65664) (r := 0) (by decide) (by simp [hlive]) (by decide +kernel)
  obtain ⟨S₅, h₅, hlive₅⟩ := h₄.free (p := 65552) (r := 0) (by decide) (by simp [hlive₄, hlive]) (by decide +kernel)
  obtain ⟨S₆, ⟨s, hafter, hR⟩, hlive₆⟩ := h₅.free (p := 65872) (r := 0) (by decide) (by simp [hlive₅, hlive₄, hlive])
    (by decide +kernel)
  refine ⟨s, hafter, heap_all_freed hR fun x => ?_⟩
  simp only [hlive₆, hlive₅, hlive₄, hlive, Function.update_apply]
  split_ifs <;> rfl

/-- **Which alignments are accepted.** A call returns exactly if the size is 0 or the alignment is not above 2^63. -/
theorem shmem_align_returns_iff (hR : Related Y S s) (halign : alignment < 2 ^ 64)
    (hreq : alignment ≤ 2 ^ 63 → TameReq (memalign_bytes alignment size)) :
    (∃ fuel r s', shmem_align Y s fuel alignment size = .returned (.ok (r, s'))) ↔ size = 0 ∨ alignment ≤ 2 ^ 63 := by
  by_cases hz : size = 0
  · exact iff_of_true ⟨0, NULL, s, by simp [shmem_align, hz]⟩ (.inl hz)
  by_cases hle : alignment ≤ 2 ^ 63
  · refine iff_of_true ?_ (.inr hle)
    by_cases ha : alignment = 0
    · exact ⟨0, NULL, s, by simp [shmem_align, hz, ha]⟩
    · obtain ⟨r, s', S', hcall, -⟩ := memalign_step hR hle (le_refl 64) (hreq hle)
      exact ⟨64, r, s', by simp [shmem_align, hz, ha, hcall]⟩
  · refine iff_of_false ?_ (not_or.mpr ⟨hz, hle⟩)
    rintro ⟨fuel, r, s', hret⟩
    have ha : alignment ≠ 0 := by omega
    rw [shmem_align, if_neg hz, if_neg ha, dlmemalign_running (not_le.mp hle) halign] at hret
    cases hret

theorem shmem_align_returns_small :
    (∃ fuel r s', shmem_align .small (.init .small fun _ => 0) fuel 4096 100 = .returned (.ok (r, s'))) ∧
      ¬ ∃ fuel r s', shmem_align .small (.init .small fun _ => 0) fuel (2 ^ 63 + 1) 100 = .returned (.ok (r, s')) :=
  ⟨(shmem_align_returns_iff (related_init .small fun _ => 0) (by decide) fun _ => .inl (by decide)).mpr
      (.inr (by decide)),
    fun h => absurd ((shmem_align_returns_iff (related_init .small fun _ => 0) (by decide)
      fun hle => absurd hle (by decide)).mp h) (by decide)⟩

end

end SandiaShmem.Heap
