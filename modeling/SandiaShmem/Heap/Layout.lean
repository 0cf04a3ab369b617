/-
The chunks of the heap in memory (`src/malloc.c`): the macros that read and write heads and feet, and what the chunks of
a segment look like.

The words in memory are those of the user and those of the allocator: the head of each chunk, and the size of a free
chunk at its end. The word at the beginning of a chunk is the last one of the chunk before it.

- `BlockOk`, `Layout`: the heads and feet of chunks that lie one behind the other. The last one stands for the word
  behind the top chunk.
- `layout_append`, `Layout.at`: the parts of a segment.
- `Layout.replace`: some chunks of a segment may be replaced by others.
- `Layout.payload`: the words of the user are not read.
-/
import SandiaShmem.Core.Blocks
import SandiaShmem.Heap.Chunks

namespace SandiaShmem.Heap

open Blocks

/-! ## Model -/

/-- the 8-byte word at an address -/
abbrev Mem := ℕ → ℕ

def head (mem : Mem) (p : ℕ) : Head := Head.ofWord (mem (p + SIZE_T_SIZE))

def prev_foot (mem : Mem) (p : ℕ) : ℕ := mem p

def chunksize (mem : Mem) (p : ℕ) : ℕ := (head mem p).size

def pinuse (mem : Mem) (p : ℕ) : Bool := (head mem p).pinuse

def cinuse (mem : Mem) (p : ℕ) : Bool := (head mem p).cinuse

/-- `(p->head & INUSE_BITS) != PINUSE_BIT` -/
def is_inuse (mem : Mem) (p : ℕ) : Bool := !pinuse mem p || cinuse mem p

/-- `(p->head & INUSE_BITS) == 0` -/
def is_mmapped (mem : Mem) (p : ℕ) : Bool := !pinuse mem p && !cinuse mem p

def put (mem : Mem) (x w : ℕ) : Mem := Function.update mem x w

def set_head (mem : Mem) (p : ℕ) (h : Head) : Mem := put mem (p + SIZE_T_SIZE) h.word

def set_foot (mem : Mem) (p s : ℕ) : Mem := put mem (p + s) s

/-- `p->head |= PINUSE_BIT` -/
def set_pinuse (mem : Mem) (p : ℕ) : Mem := put mem (p + SIZE_T_SIZE) (mem (p + SIZE_T_SIZE) ||| PINUSE_BIT)

/-- `p->head &= ~PINUSE_BIT` -/
def clear_pinuse (mem : Mem) (p : ℕ) : Mem := put mem (p + SIZE_T_SIZE) (mem (p + SIZE_T_SIZE) / 2 * 2)

def set_inuse (mem : Mem) (p s : ℕ) : Mem := set_pinuse (set_head mem p ⟨s, pinuse mem p, true⟩) (p + s)

def set_inuse_and_pinuse (mem : Mem) (p s : ℕ) : Mem := set_pinuse (set_head mem p ⟨s, true, true⟩) (p + s)

def set_size_and_pinuse_of_inuse_chunk (mem : Mem) (p s : ℕ) : Mem := set_head mem p ⟨s, true, true⟩

def set_size_and_pinuse_of_free_chunk (mem : Mem) (p s : ℕ) : Mem := set_foot (set_head mem p ⟨s, true, false⟩) p s

def set_free_with_pinuse (mem : Mem) (p s n : ℕ) : Mem := set_size_and_pinuse_of_free_chunk (clear_pinuse mem n) p s

/-! ## Reads after writes -/

section
variable {mem : Mem} {p q s x w : ℕ} {h : Head}

theorem put_of_ne (hne : x ≠ q) : put mem q w x = mem x := Function.update_of_ne hne ..

@[simp] theorem put_self : put mem x w x = w := Function.update_self ..

theorem head_put_of_ne (hne : q + 8 ≠ x) : head (put mem x w) q = head mem q := by
  rw [head, SIZE_T_SIZE, put_of_ne hne, head, SIZE_T_SIZE]

theorem head_set_head (hsize : 8 ∣ h.size) : head (set_head mem p h) q = if q = p then h else head mem q := by
  split_ifs with hq
  · rw [hq, head, set_head, put_self, Head.ofWord_word hsize]
  · rw [set_head, head_put_of_ne (by unfold SIZE_T_SIZE; omega)]

theorem set_head_of_ne (hne : x ≠ p + 8) : set_head mem p h x = mem x := put_of_ne hne

/-- feet are at multiples of 16, heads are not -/
theorem head_set_foot (hp : 16 ∣ p + s) (hq : 16 ∣ q) : head (set_foot mem p s) q = head mem q :=
  head_put_of_ne (by omega)

theorem set_foot_of_ne (hne : x ≠ p + s) : set_foot mem p s x = mem x := put_of_ne hne

theorem head_set_pinuse :
    head (set_pinuse mem p) q = if q = p then { head mem q with pinuse := true } else head mem q := by
  split_ifs with hq
  · rw [hq, head, set_pinuse, put_self, Head.ofWord_or, head]
  · rw [set_pinuse, head_put_of_ne (by unfold SIZE_T_SIZE; omega)]

theorem set_pinuse_of_ne (hne : x ≠ p + 8) : set_pinuse mem p x = mem x := put_of_ne hne

theorem head_clear_pinuse :
    head (clear_pinuse mem p) q = if q = p then { head mem q with pinuse := false } else head mem q := by
  split_ifs with hq
  · rw [hq, head, clear_pinuse, put_self, Head.ofWord_clear, head]
  · rw [clear_pinuse, head_put_of_ne (by unfold SIZE_T_SIZE; omega)]

theorem clear_pinuse_of_ne (hne : x ≠ p + 8) : clear_pinuse mem p x = mem x := put_of_ne hne

end

/-! ## Chunks in a row -/

/-- what a chunk is: in use, free, the top chunk, or the space behind it -/
inductive Tag where
  | used
  | free
  | top
  | foot
deriving DecidableEq, Repr

/-- the least size -/
def Tag.min : Tag → ℕ
  | used | free => MIN_CHUNK_SIZE
  | top | foot => MALLOC_ALIGNMENT

/-- a chunk of size n at a; pin says whether the chunk before it is in use -/
structure BlockOk (mem : Mem) (a : ℕ) (pin : Bool) (n : ℕ) (t : Tag) : Prop where
  head_eq : head mem a = ⟨n, pin, t = .used⟩
  aligned : 16 ∣ n
  min_le : t.min ≤ n
  pinned : t = .free ∨ t = .top → pin = true
  foot : t = .free → mem (a + n) = n

def Layout (mem : Mem) : ℕ → Bool → List (ℕ × Tag) → Prop
  | _, _, [] => True
  | a, pin, b :: bs => BlockOk mem a pin b.1 b.2 ∧ Layout mem (a + b.1) (b.2 = .used) bs

/-- whether the last chunk is in use -/
def pinAfter (pin : Bool) : List (ℕ × Tag) → Bool
  | [] => pin
  | b :: bs => pinAfter (b.2 = .used) bs

section
variable {mem mem' : Mem} {a p n : ℕ} {pin pin' : Bool} {t : Tag} {bs pre mid mid' post : List (ℕ × Tag)}

theorem BlockOk.pos (h : BlockOk mem a pin n t) : 16 ≤ n := by
  have hmin := h.min_le
  cases t <;> simp only [Tag.min, MIN_CHUNK_SIZE, MALLOC_ALIGNMENT, SIZE_T_SIZE] at hmin <;> omega

/-- the head, and for a free chunk the foot, is all that is read -/
theorem BlockOk.congr (h : BlockOk mem a pin n t) (hhead : mem' (a + 8) = mem (a + 8))
    (hfoot : t = .free → mem' (a + n) = mem (a + n)) : BlockOk mem' a pin n t := by
  refine ⟨?_, h.aligned, h.min_le, h.pinned, fun ht => (hfoot ht).trans (h.foot ht)⟩
  rw [head, SIZE_T_SIZE, hhead]
  exact h.head_eq

theorem layout_append :
    Layout mem a pin (pre ++ post) ↔ Layout mem a pin pre ∧ Layout mem (a + total pre) (pinAfter pin pre) post := by
  induction pre generalizing a pin with
  | nil => simp [Layout, pinAfter]
  | cons b bs ih => simp only [List.cons_append, Layout, ih, total_cons, pinAfter, and_assoc, Nat.add_assoc]

theorem Layout.pos (h : Layout mem a pin bs) : ∀ b ∈ bs, 0 < b.1 := by
  induction bs generalizing a pin with
  | nil => simp
  | cons b bs ih =>
    have hb := h.1.pos
    rw [List.forall_mem_cons]
    exact ⟨by omega, ih h.2⟩

theorem Layout.dvd (h : Layout mem a pin bs) : ∀ b ∈ bs, 16 ∣ b.1 := by
  induction bs generalizing a pin with
  | nil => simp
  | cons b bs ih =>
    rw [List.forall_mem_cons]
    exact ⟨h.1.aligned, ih h.2⟩

/-- the words behind the first up to the end are all that is read -/
theorem Layout.congr (h : Layout mem a pin bs) (heq : ∀ x, a + 8 ≤ x → x ≤ a + total bs → mem' x = mem x) :
    Layout mem' a pin bs := by
  induction bs generalizing a pin with
  | nil => trivial
  | cons b bs ih =>
    have hb := h.1.pos
    rw [total_cons] at heq
    refine ⟨h.1.congr (heq _ (le_refl _) (by omega)) fun _ => heq _ (by omega) (by omega), ih h.2 fun x h1 h2 => ?_⟩
    exact heq x (by omega) (by omega)

/-- every chunk is as it should be -/
theorem Layout.at (h : Layout mem a pin bs) (hp : At a bs p n t) : ∃ pin', BlockOk mem p pin' n t := by
  induction bs generalizing a pin with
  | nil => exact hp.elim
  | cons b bs ih =>
    rcases hp with ⟨rfl, rfl, rfl⟩ | hp
    · exact ⟨pin, h.1⟩
    · exact ih h.2 hp

theorem Layout.chunksize_eq (h : Layout mem a pin bs) (hp : At a bs p n t) : chunksize mem p = n := by
  obtain ⟨_, hok⟩ := h.at hp
  rw [chunksize, hok.head_eq]

/-- the first chunk may learn whether the one before it is in use -/
theorem Layout.repin (h : Layout mem a pin bs) (hhead : bs ≠ [] → head mem' a = { head mem a with pinuse := pin' })
    (hpin : ∀ b ∈ bs.head?, b.2 = .free ∨ b.2 = .top → pin' = true)
    (heq : ∀ x, a + 8 < x → x ≤ a + total bs → mem' x = mem x) : Layout mem' a pin' bs := by
  cases bs with
  | nil => trivial
  | cons b bs =>
    have hb := h.1.pos
    rw [total_cons] at heq
    refine ⟨⟨?_, h.1.aligned, h.1.min_le, hpin b rfl, fun ht => ?_⟩, h.2.congr fun x h1 h2 => heq x (by omega) (by omega)⟩
    · rw [hhead (by simp), h.1.head_eq]
    · rw [heq _ (by omega) (by omega), h.1.foot ht]

/-- chunks in the middle may be replaced by others of the same total size, where the one behind them learns whether the
last is in use -/
theorem Layout.replace (mid mid' post : List (ℕ × Tag)) (h : Layout mem a pin (pre ++ (mid ++ post)))
    (hmid : Layout mem' (a + total pre) (pinAfter pin pre) mid') (htotal : total mid' = total mid)
    (houtside : ∀ x, x < a + total pre + 8 ∨ a + total pre + total mid + 8 < x → mem' x = mem x)
    (hnext : post ≠ [] → head mem' (a + total pre + total mid) =
      { head mem (a + total pre + total mid) with pinuse := pinAfter (pinAfter pin pre) mid' })
    (hpin : ∀ b ∈ post.head?, b.2 = .free ∨ b.2 = .top → pinAfter (pinAfter pin pre) mid' = true) :
    Layout mem' a pin (pre ++ (mid' ++ post)) := by
  rw [layout_append, layout_append] at h ⊢
  refine ⟨h.1.congr fun x _ h2 => houtside x (.inl (by omega)), hmid, ?_⟩
  rw [htotal]
  exact h.2.2.repin hnext hpin fun x h1 _ => houtside x (.inr h1)

/-- the words of a chunk that are its user's: those behind its head and the first of the next chunk -/
def Payload (p n x : ℕ) : Prop := p + TWO_SIZE_T_SIZES ≤ x ∧ x ≤ p + n

/-- the words of a user may be anything -/
theorem Layout.payload (h : Layout mem a pin bs) (hp : At a bs p n .used)
    (heq : ∀ x, ¬ Payload p n x → mem' x = mem x) : Layout mem' a pin bs := by
  obtain ⟨pre, post, rfl, rfl⟩ := hp.split
  rw [layout_append] at h ⊢
  unfold Payload TWO_SIZE_T_SIZES SIZE_T_SIZE at heq
  have hn := h.2.1.pos
  refine ⟨h.1.congr fun x h1 h2 => heq x (by omega), ?_, h.2.2.congr fun x h1 h2 => heq x ?_⟩
  · exact h.2.1.congr (heq _ (by omega)) nofun
  · dsimp only at h1
    omega

end

end SandiaShmem.Heap
