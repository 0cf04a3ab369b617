/-
Sizes and head words of the chunks of the symmetric heap (`src/malloc.c`, as `src/symmetric_heap_c.c` uses it: 8-byte
`size_t`, no footers, no mmap, no locks).

A chunk at p begins with two words, prev_foot and head. The head holds the size, a multiple of 16, and in its low bits
whether the chunk before it and the chunk itself are in use. The bytes from p + 16 on are the user's, and they include
prev_foot of the next chunk.

- `request2size_spec`: the chunk for a request.
- `align_spec`: rounding up to a power of two.
- `Head.ofWord_word`: a head word can be taken apart again.
-/
import Mathlib.Tactic

namespace SandiaShmem.Heap

/-! ## Constants -/

def SIZE_T_SIZE : ℕ := 8

def MAX_SIZE_T : ℕ := 2 ^ 64 - 1

def HALF_MAX_SIZE_T : ℕ := MAX_SIZE_T / 2

def MALLOC_ALIGNMENT : ℕ := 2 * SIZE_T_SIZE

def CHUNK_ALIGN_MASK : ℕ := MALLOC_ALIGNMENT - 1

def TWO_SIZE_T_SIZES : ℕ := 2 * SIZE_T_SIZE

def CHUNK_OVERHEAD : ℕ := SIZE_T_SIZE

/-- `sizeof(mchunk)`, a multiple of the alignment -/
def MIN_CHUNK_SIZE : ℕ := 32

/-- `(-MIN_CHUNK_SIZE) << 2` -/
def MAX_REQUEST : ℕ := (2 ^ 64 - MIN_CHUNK_SIZE) * 4 % 2 ^ 64

def MIN_REQUEST : ℕ := MIN_CHUNK_SIZE - CHUNK_OVERHEAD - 1

def MIN_LARGE_SIZE : ℕ := 2 ^ 8

def MAX_SMALL_SIZE : ℕ := MIN_LARGE_SIZE - 1

def MAX_SMALL_REQUEST : ℕ := MAX_SMALL_SIZE - CHUNK_ALIGN_MASK - CHUNK_OVERHEAD

def DEFAULT_TRIM_THRESHOLD : ℕ := 2 * 1024 * 1024

def MAX_RELEASE_CHECK_RATE : ℕ := MAX_SIZE_T

/-! ## Arithmetic of size_t -/

/-- `a - b` -/
def sub (a b : ℕ) : ℕ := (a + 2 ^ 64 - b) % 2 ^ 64

/-- `(x + (a - 1)) & ~(a - 1)`, for a power of two -/
def align (a x : ℕ) : ℕ := (x + (a - 1)) % 2 ^ 64 / a * a

/-- how far an address is from the next aligned one -/
def align_offset (x : ℕ) : ℕ :=
  if x % MALLOC_ALIGNMENT = 0 then 0 else (MALLOC_ALIGNMENT - x % MALLOC_ALIGNMENT) % MALLOC_ALIGNMENT

def pad_request (req : ℕ) : ℕ := (req + CHUNK_OVERHEAD + CHUNK_ALIGN_MASK) % 2 ^ 64 / MALLOC_ALIGNMENT * MALLOC_ALIGNMENT

def request2size (req : ℕ) : ℕ := if req < MIN_REQUEST then MIN_CHUNK_SIZE else pad_request req

def chunk2mem (p : ℕ) : ℕ := p + TWO_SIZE_T_SIZES

def mem2chunk (mem : ℕ) : ℕ := mem - TWO_SIZE_T_SIZES

/-- `sizeof(struct malloc_segment)` is 32 -/
def TOP_FOOT_SIZE : ℕ := align_offset (chunk2mem 0) + pad_request 32 + MIN_CHUNK_SIZE

def SYS_ALLOC_PADDING : ℕ := TOP_FOOT_SIZE + MALLOC_ALIGNMENT

theorem top_foot_size_eq : TOP_FOOT_SIZE = 80 := by decide

theorem sys_alloc_padding_eq : SYS_ALLOC_PADDING = 96 := by decide

theorem max_request_eq : MAX_REQUEST = 2 ^ 64 - 128 := by decide

theorem max_small_request_eq : MAX_SMALL_REQUEST = 232 := by decide

theorem sub_of_le {a b : ℕ} (h : b ≤ a) (ha : a < 2 ^ 64) : sub a b = a - b := by
  unfold sub
  omega

/-- a difference that wraps around is larger than any that does not -/
theorem sub_of_lt {a b : ℕ} (h : a < b) (hb : b < 2 ^ 64) : sub a b = 2 ^ 64 - (b - a) := by
  unfold sub
  omega

/-- the chunk for a request holds it and the word in front of it -/
theorem request2size_spec {req : ℕ} (h : req < MAX_REQUEST) :
    MIN_CHUNK_SIZE ≤ request2size req ∧ 16 ∣ request2size req ∧ req + CHUNK_OVERHEAD ≤ request2size req ∧
      request2size req ≤ req + MIN_CHUNK_SIZE := by
  rw [max_request_eq] at h
  unfold request2size pad_request MIN_REQUEST MIN_CHUNK_SIZE CHUNK_OVERHEAD CHUNK_ALIGN_MASK MALLOC_ALIGNMENT SIZE_T_SIZE
  split_ifs with hmin
  · omega
  · rw [Nat.mod_eq_of_lt (by omega)]
    omega

/-- rounding up stays above the number unless it wraps around, and then it gives 0 -/
theorem align_spec {k x : ℕ} (hk : k < 64) (hx : x < 2 ^ 64) :
    (x ≤ align (2 ^ k) x ∧ align (2 ^ k) x < x + 2 ^ k ∧ align (2 ^ k) x < 2 ^ 64 ∧ 2 ^ k ∣ align (2 ^ k) x) ∨
      (align (2 ^ k) x = 0 ∧ 2 ^ 64 < x + 2 ^ k) := by
  have hpos : 0 < 2 ^ k := by positivity
  have hle : 2 ^ k ≤ 2 ^ 63 := Nat.pow_le_pow_right (by decide) (by omega)
  unfold align
  by_cases hwrap : x + (2 ^ k - 1) < 2 ^ 64
  · rw [Nat.mod_eq_of_lt hwrap]
    have hdiv := Nat.div_add_mod (x + (2 ^ k - 1)) (2 ^ k)
    have hmod := Nat.mod_lt (x + (2 ^ k - 1)) hpos
    rw [Nat.mul_comm] at hdiv
    exact .inl ⟨by omega, by omega, by omega, dvd_mul_left ..⟩
  · have hmod : (x + (2 ^ k - 1)) % 2 ^ 64 = x + (2 ^ k - 1) - 2 ^ 64 := by omega
    rw [hmod, Nat.div_eq_of_lt (by omega)]
    exact .inr ⟨Nat.zero_mul _, by omega⟩

/-! ## Heads -/

/-- the head of a chunk, taken apart: its size, PINUSE_BIT and CINUSE_BIT -/
@[ext] structure Head where
  size : ℕ
  pinuse : Bool
  cinuse : Bool
deriving DecidableEq, Repr

def PINUSE_BIT : ℕ := 1

def CINUSE_BIT : ℕ := 2

def FLAG_BITS : ℕ := 7

/-- the word in memory -/
def Head.word (h : Head) : ℕ :=
  h.size ||| (if h.pinuse then PINUSE_BIT else 0) ||| (if h.cinuse then CINUSE_BIT else 0)

/-- `chunksize`, `pinuse` and `cinuse` of a word -/
def Head.ofWord (w : ℕ) : Head :=
  ⟨w / (FLAG_BITS + 1) * (FLAG_BITS + 1), (w &&& PINUSE_BIT) ≠ 0, (w &&& CINUSE_BIT) ≠ 0⟩

theorem or_low {m b : ℕ} (hb : b < 8) : 8 * m ||| b = 8 * m + b :=
  (Nat.two_pow_add_eq_or_of_lt (i := 3) hb m).symm

theorem and_pinuse (w : ℕ) : w &&& PINUSE_BIT = w % 2 := Nat.and_one_is_mod w

theorem and_cinuse (w : ℕ) : w &&& CINUSE_BIT = w / 2 % 2 * 2 := by
  have hdiv := Nat.and_div_two (a := w) (b := 2)
  have hmod := Nat.and_mod_two_pow (a := w) (b := 2) (n := 1)
  rw [pow_one, Nat.mod_self, Nat.and_zero] at hmod
  rw [Nat.and_one_is_mod] at hdiv
  rw [CINUSE_BIT]
  omega

theorem Head.ofWord_eq (w : ℕ) : Head.ofWord w = ⟨w / 8 * 8, w % 2 = 1, w / 2 % 2 = 1⟩ := by
  rw [Head.ofWord, and_pinuse, and_cinuse]
  simp only [FLAG_BITS, Head.mk.injEq, decide_eq_decide, true_and]
  omega

theorem Head.word_eq {h : Head} (hsize : 8 ∣ h.size) :
    h.word = h.size + (if h.pinuse then 1 else 0) + (if h.cinuse then 2 else 0) := by
  obtain ⟨n, p, c⟩ := h
  obtain ⟨m, rfl⟩ : 8 ∣ n := hsize
  rw [Head.word, Nat.or_assoc]
  cases p <;> cases c <;> simp [PINUSE_BIT, CINUSE_BIT, or_low]

/-- a size has its three low bits free for the flags -/
theorem Head.ofWord_word {h : Head} (hsize : 8 ∣ h.size) : Head.ofWord h.word = h := by
  rw [Head.word_eq hsize, Head.ofWord_eq]
  obtain ⟨n, p, c⟩ := h
  obtain ⟨m, rfl⟩ : 8 ∣ n := hsize
  cases p <;> cases c <;> simp <;> omega

/-- `head |= PINUSE_BIT` -/
theorem Head.ofWord_or (w : ℕ) : Head.ofWord (w ||| PINUSE_BIT) = { Head.ofWord w with pinuse := true } := by
  have h : w ||| 1 = w / 2 * 2 + 1 := by
    have hdiv := Nat.or_div_two (a := w) (b := 1)
    have hmod : (w ||| 1) % 2 = 1 := by simp [Nat.or_mod_two_eq_one]
    simp only [Nat.reduceDiv, Nat.or_zero] at hdiv
    omega
  rw [PINUSE_BIT, h, Head.ofWord_eq, Head.ofWord_eq]
  simp only [Head.mk.injEq, decide_eq_true_eq, decide_eq_decide]
  omega

/-- `head &= ~PINUSE_BIT` -/
theorem Head.ofWord_clear (w : ℕ) : Head.ofWord (w / 2 * 2) = { Head.ofWord w with pinuse := false } := by
  rw [Head.ofWord_eq, Head.ofWord_eq]
  simp only [Head.mk.injEq, decide_eq_false_iff_not, decide_eq_decide]
  omega

end SandiaShmem.Heap
