/-
What holds of the allocator between calls: the segment is a row of chunks that ends with the top chunk, no two free
chunks are neighbours, and the bins and the dv hold exactly the free chunks. During a call, a chunk that is about to be
merged or used has left its bin already.

- `Inv`, `InvOn`: all this, between calls and during one.
- `InvOn.unlink`, `InvOn.first`, `InvOn.enter`: a chunk leaves its bin or enters it.
- `Layout.whole`, `Layout.carve`, `Layout.carveTop`: what becomes of the row when a chunk is taken out of a free one.
- `frees`, `live`: the free chunks and those in use.
-/
import SandiaShmem.Heap.Linked

namespace SandiaShmem.Heap

open Blocks

/-! ## Free chunks -/

/-- the addresses of the free chunks -/
def frees (a : ℕ) (bs : List (ℕ × Tag)) : Set ℕ := {p | ∃ n, At a bs p n .free}

section
variable {a p q n m : ℕ} {t : Tag} {bs pre post : List (ℕ × Tag)} {mem mem' : Mem} {pin : Bool}

theorem mem_frees_append : q ∈ frees a (pre ++ post) ↔ q ∈ frees a pre ∨ q ∈ frees (a + total pre) post := by
  simp only [frees, Set.mem_ofPred_eq, at_append, exists_or]

theorem mem_frees_cons : q ∈ frees a ((n, t) :: bs) ↔ (q = a ∧ t = .free) ∨ q ∈ frees (a + n) bs := by
  simp only [frees, Set.mem_ofPred_eq, at_cons, exists_or]
  constructor
  · rintro (⟨_, h1, _, h2⟩ | h)
    · exact .inl ⟨h1, h2.symm⟩
    · exact .inr h
  · rintro (⟨h1, h2⟩ | h)
    · exact .inl ⟨n, h1, rfl, h2.symm⟩
    · exact .inr h

@[simp] theorem frees_nil : frees a [] = ∅ := by
  ext q
  simp [frees]

theorem le_of_mem_frees (h : q ∈ frees a bs) : a ≤ q := h.choose_spec.bounds.1

theorem lt_of_mem_frees (h : q ∈ frees a bs) (hpos : ∀ b ∈ bs, 0 < b.1) : q < a + total bs := by
  obtain ⟨n, hat⟩ := h
  have h1 := hpos _ hat.mem
  have h2 := hat.bounds
  dsimp only at h1
  omega

/-- in a row with a chunk in the middle, the other free chunks are before or behind it -/
theorem frees_split (hpos : ∀ b ∈ pre ++ (n, t) :: post, 0 < b.1) (hp : p = a + total pre) :
    (∀ q ∈ frees a pre, q < p) ∧ ∀ q ∈ frees (a + total pre + n) post, p < q := by
  subst hp
  refine ⟨fun q hq => lt_of_mem_frees hq fun b hb => hpos b (List.mem_append_left _ hb), fun q hq => ?_⟩
  have hn := hpos (n, t) (by simp)
  have := le_of_mem_frees hq
  dsimp only at hn
  omega

/-- a free chunk becomes one in use -/
theorem frees_whole (hpos : ∀ b ∈ pre ++ (n, .free) :: post, 0 < b.1) (hp : p = a + total pre) :
    frees a (pre ++ (n, .used) :: post) = frees a (pre ++ (n, .free) :: post) \ {p} := by
  obtain ⟨h1, h2⟩ := frees_split hpos hp
  ext q
  simp only [mem_frees_append, mem_frees_cons, Set.mem_sdiff, Set.mem_singleton_iff, reduceCtorEq, and_false, false_or,
    and_true, ← hp]
  constructor
  · rintro (hq | hq)
    · exact ⟨.inl hq, (h1 q hq).ne⟩
    · exact ⟨.inr (.inr (hp ▸ hq)), (h2 q (hp ▸ hq)).ne'⟩
  · rintro ⟨hq | rfl | hq, hne⟩
    · exact .inl hq
    · exact absurd rfl hne
    · exact .inr hq

/-- a free chunk becomes one in use and a smaller free one -/
theorem frees_carve (hpos : ∀ b ∈ pre ++ (n + m, .free) :: post, 0 < b.1) (hp : p = a + total pre) :
    frees a (pre ++ (n, .used) :: (m, .free) :: post) =
      insert (p + n) (frees a (pre ++ (n + m, .free) :: post) \ {p}) := by
  obtain ⟨h1, h2⟩ := frees_split hpos hp
  ext q
  simp only [mem_frees_append, mem_frees_cons, Set.mem_sdiff, Set.mem_singleton_iff, Set.mem_insert_iff, reduceCtorEq,
    and_false, false_or, and_true, ← hp, ← Nat.add_assoc] at h2 ⊢
  constructor
  · rintro (hq | hq | hq)
    · exact .inr ⟨.inl hq, (h1 q hq).ne⟩
    · exact .inl hq
    · exact .inr ⟨.inr (.inr hq), (h2 q hq).ne'⟩
  · rintro (hq | ⟨hq | rfl | hq, hne⟩)
    · exact .inr (.inl hq)
    · exact .inl hq
    · exact absurd rfl hne
    · exact .inr (.inr hq)

/-- where there was no chunk there is none after a chunk has been cut -/
theorem notMem_frees_mid (hpos : ∀ b ∈ pre ++ (n, t) :: post, 0 < b.1) (hm : 0 < m) (hlt : m < n) :
    a + total pre + m ∉ frees a (pre ++ (n, t) :: post) := by
  obtain ⟨h1, -⟩ := frees_split hpos (a := a) rfl
  rw [mem_frees_append, mem_frees_cons]
  rintro (hq | ⟨hq, -⟩ | hq)
  · have := h1 _ hq
    omega
  · omega
  · have := le_of_mem_frees hq
    omega

/-- heads and feet are all that is read -/
theorem Layout.congr_read (h : Layout mem a pin bs) (hhead : ∀ p n t, At a bs p n t → mem' (p + 8) = mem (p + 8))
    (hfoot : ∀ p n, At a bs p n .free → mem' (p + n) = mem (p + n)) : Layout mem' a pin bs := by
  induction bs generalizing a pin with
  | nil => trivial
  | cons b bs ih =>
    refine ⟨h.1.congr (hhead a b.1 b.2 (.inl ⟨rfl, rfl, rfl⟩)) fun ht => hfoot a b.1 (.inl ⟨rfl, rfl, ht.symm⟩),
      ih h.2 (fun p n t hp => hhead p n t (.inr hp)) fun p n hp => hfoot p n (.inr hp)⟩

/-- chunks that are in both rows have the same size in both memories -/
theorem chunksize_congr {bs' : List (ℕ × Tag)} (h : Layout mem a pin bs) (h' : Layout mem' a pin bs')
    (hp : At a bs p n t) (hp' : At a bs' p n t) : chunksize mem' p = chunksize mem p := by
  rw [h.chunksize_eq hp, h'.chunksize_eq hp']

end

/-! ## Taking a chunk out of a free one -/

section
variable {a p q x n m s : ℕ} {bs pre post : List (ℕ × Tag)} {mem : Mem} {pin : Bool}

theorem head_set_inuse_and_pinuse (hs : 16 ∣ s) (hpos : 0 < s) : head (set_inuse_and_pinuse mem p s) q =
    if q = p then ⟨s, true, true⟩ else if q = p + s then { head mem q with pinuse := true } else head mem q := by
  have h8 : 8 ∣ s := (by decide : 8 ∣ 16).trans hs
  rw [set_inuse_and_pinuse, head_set_pinuse, head_set_head h8]
  by_cases hq : q = p
  · simp [hq, hpos.ne']
  · simp [hq]

theorem set_inuse_and_pinuse_of_ne (h1 : x ≠ p + 8) (h2 : x ≠ p + s + 8) : set_inuse_and_pinuse mem p s x = mem x := by
  rw [set_inuse_and_pinuse, set_pinuse_of_ne h2, set_head_of_ne h1]

theorem head_set_inuse_chunk (hs : 16 ∣ s) :
    head (set_size_and_pinuse_of_inuse_chunk mem p s) q = if q = p then ⟨s, true, true⟩ else head mem q :=
  head_set_head ((by decide : 8 ∣ 16).trans hs)

theorem set_inuse_chunk_of_ne (h : x ≠ p + 8) : set_size_and_pinuse_of_inuse_chunk mem p s x = mem x :=
  set_head_of_ne h

theorem head_set_free_chunk (hs : 16 ∣ s) (hp : 16 ∣ p) (hq : 16 ∣ q) :
    head (set_size_and_pinuse_of_free_chunk mem p s) q = if q = p then ⟨s, true, false⟩ else head mem q := by
  rw [set_size_and_pinuse_of_free_chunk, head_set_foot (dvd_add hp hs) hq, head_set_head ((by decide : 8 ∣ 16).trans hs)]

theorem set_free_chunk_of_ne (h1 : x ≠ p + 8) (h2 : x ≠ p + s) : set_size_and_pinuse_of_free_chunk mem p s x = mem x := by
  rw [set_size_and_pinuse_of_free_chunk, set_foot_of_ne h2, set_head_of_ne h1]

theorem set_free_chunk_foot : set_size_and_pinuse_of_free_chunk mem p s (p + s) = s := put_self

/-- the chunk before a free one is in use -/
theorem Layout.pinned (h : Layout mem a pin (pre ++ (n, .free) :: post)) : pinAfter pin pre = true :=
  (layout_append.mp h).2.1.pinned (.inl rfl)

/-- and so is the one behind it -/
theorem Layout.next_used (h : Layout mem a pin (pre ++ (n, .free) :: post)) :
    ∀ b ∈ post.head?, b.2 = .used ∨ b.2 = .foot := by
  have hpost := (layout_append.mp h).2.2
  cases post with
  | nil => simp
  | cons b bs =>
    simp only [List.head?_cons, Option.mem_def, Option.some.injEq, forall_eq']
    have hpin := hpost.1.pinned
    simp only [reduceCtorEq, decide_false, Bool.false_eq_true, imp_false, not_or] at hpin
    obtain ⟨m, t⟩ := b
    cases t <;> simp_all

/-- a free chunk becomes one in use -/
theorem Layout.whole (h : Layout mem a pin (pre ++ (n, .free) :: post)) (hp : p = a + total pre) :
    Layout (set_inuse_and_pinuse mem p n) a pin (pre ++ (n, .used) :: post) := by
  have hok := (layout_append.mp h).2.1
  have hn := hok.pos
  have hpin := h.pinned
  have h16 : 16 ∣ n := hok.aligned
  subst hp
  refine h.replace [(n, .free)] [(n, .used)] _ ⟨⟨?_, h16, hok.min_le, by simp, by simp⟩, trivial⟩ rfl
    ?_ ?_ ?_
  · rw [head_set_inuse_and_pinuse h16 (by omega), if_pos rfl, hpin]
    rfl
  · intro x hx
    simp only [total_cons, total_nil] at hx
    exact set_inuse_and_pinuse_of_ne (by omega) (by omega)
  · intro _
    simp only [total_cons, total_nil, Nat.add_zero, pinAfter, decide_true]
    rw [head_set_inuse_and_pinuse h16 (by omega), if_neg (by omega), if_pos rfl]
  · intro _ _ _
    rfl

/-- a free chunk becomes one in use and a smaller free one -/
theorem Layout.carve (h : Layout mem a pin (pre ++ (n + m, .free) :: post)) (ha : 16 ∣ a) (hp : p = a + total pre)
    (hn : 16 ∣ n) (hn' : MIN_CHUNK_SIZE ≤ n) (hm : MIN_CHUNK_SIZE ≤ m) :
    Layout (set_size_and_pinuse_of_free_chunk (set_size_and_pinuse_of_inuse_chunk mem p n) (p + n) m) a pin
      (pre ++ (n, .used) :: (m, .free) :: post) := by
  have hok := (layout_append.mp h).2.1
  have hpin := h.pinned
  have h16 : 16 ∣ n + m := hok.aligned
  have hm16 : 16 ∣ m := (Nat.dvd_add_right hn).mp h16
  have hpre : 16 ∣ total pre := total_dvd fun b hb => h.dvd b (List.mem_append_left _ hb)
  have hp16 : 16 ∣ p := hp ▸ dvd_add ha hpre
  unfold MIN_CHUNK_SIZE at hn' hm
  have hnext := h.next_used
  subst hp
  refine h.replace [(n + m, .free)] [(n, .used), (m, .free)] _
    ⟨⟨?_, hn, hn', by simp, by simp⟩, ⟨?_, hm16, hm, fun _ => rfl, fun _ => ?_⟩, trivial⟩ ?_ ?_ ?_ ?_
  · rw [head_set_free_chunk hm16 (dvd_add hp16 hn) hp16, if_neg (by omega), head_set_inuse_chunk hn, if_pos rfl, hpin]
    rfl
  · rw [head_set_free_chunk hm16 (dvd_add hp16 hn) (dvd_add hp16 hn), if_pos rfl]
    rfl
  · exact set_free_chunk_foot
  · simp
  · intro x hx
    simp only [total_cons, total_nil] at hx
    rw [set_free_chunk_of_ne (by omega) (by omega), set_inuse_chunk_of_ne (by omega)]
  · intro hpost
    obtain ⟨b, bs, rfl⟩ := List.exists_cons_of_ne_nil hpost
    have hold := (layout_append.mp h).2.2.1.head_eq
    simp only [total_cons, total_nil, Nat.add_zero, pinAfter] at hold ⊢
    rw [head_set_free_chunk hm16 (dvd_add hp16 hn) (dvd_add hp16 h16), if_neg (by omega), head_set_inuse_chunk hn,
      if_neg (by omega), hold]
  · intro b hb hb'
    rcases hnext b hb with hu | hu <;> simp [hu] at hb'

/-- the top chunk gets smaller -/
theorem Layout.carveTop (h : Layout mem a pin (pre ++ [(n + m, .top), (TOP_FOOT_SIZE, .foot)])) (hp : p = a + total pre)
    (hn : 16 ∣ n) (hn' : MIN_CHUNK_SIZE ≤ n) (hm : 0 < m) :
    Layout (set_size_and_pinuse_of_inuse_chunk (set_head mem (p + n) ⟨m, true, false⟩) p n) a pin
      (pre ++ [(n, .used), (m, .top), (TOP_FOOT_SIZE, .foot)]) := by
  have hok := (layout_append.mp h).2.1
  have hpin := hok.pinned (.inr rfl)
  have h16 : 16 ∣ n + m := hok.aligned
  have hm16 : 16 ∣ m := (Nat.dvd_add_right hn).mp h16
  have h8 : 8 ∣ m := (by decide : 8 ∣ 16).trans hm16
  unfold MIN_CHUNK_SIZE at hn'
  have hm' : 16 ≤ m := Nat.le_of_dvd hm hm16
  subst hp
  refine h.replace [(n + m, .top)] [(n, .used), (m, .top)] [(TOP_FOOT_SIZE, .foot)]
    ⟨⟨?_, hn, hn', by simp, by simp⟩, ⟨?_, hm16, hm', fun _ => rfl, by simp⟩, trivial⟩ ?_ ?_ ?_ ?_
  · rw [head_set_inuse_chunk hn, if_pos rfl, hpin]
    rfl
  · rw [head_set_inuse_chunk hn, if_neg (by omega), head_set_head h8, if_pos rfl]
    rfl
  · simp
  · intro x hx
    simp only [total_cons, total_nil] at hx
    rw [set_inuse_chunk_of_ne (by omega), set_head_of_ne (by omega)]
  · intro _
    have hold := (layout_append.mp h).2.2.1.head_eq
    simp only [total_cons, total_nil, Nat.add_zero, pinAfter] at hold ⊢
    rw [head_set_inuse_chunk hn, if_neg (by omega), head_set_head h8, if_neg (by omega), hold]
  · simp

end

/-! ## Invariant -/

/-- the chunks before the top chunk, and the end of the segment -/
def fullRow (s : MState) (bs : List (ℕ × Tag)) : List (ℕ × Tag) := bs ++ [(s.topsize, .top), (TOP_FOOT_SIZE, .foot)]

/-- the segment has been made, bs are the chunks before the top chunk, and those of F are in the bins -/
structure InvOn (Y : Sys) (s : MState) (bs : List (ℕ × Tag)) (F : Set ℕ) : Prop where
  base : s.seg_base = Y.base
  curr : s.heap_curr = s.seg_base + s.seg_size
  fits : s.seg_size ≤ Y.length
  least : s.least_addr = s.seg_base
  footprint : s.footprint = s.seg_size
  layout : Layout s.mem Y.base true (fullRow s bs)
  tags : ∀ b ∈ bs, b.2 = .used ∨ b.2 = .free
  top : s.top = Y.base + total bs
  size : total (fullRow s bs) = s.seg_size
  dv : (s.dv = 0 ∧ s.dvsize = 0) ∨ At Y.base bs s.dv s.dvsize .free
  free : F ⊆ frees Y.base bs
  binned : InBins Y s F

/-- between calls: all free chunks but the dv are in the bins -/
abbrev Inv (Y : Sys) (s : MState) (bs : List (ℕ × Tag)) : Prop := InvOn Y s bs (frees Y.base bs \ {s.dv})

/-- nothing has been allocated from the system -/
structure Fresh (Y : Sys) (s : MState) : Prop where
  curr : s.heap_curr = Y.heap.heap_base
  zero : s.top = 0 ∧ s.topsize = 0 ∧ s.dv = 0 ∧ s.dvsize = 0 ∧ s.least_addr = 0 ∧ s.footprint = 0
  bins : s.smallmap = 0 ∧ s.treemap = 0
  state : ∀ x, Y.State x → s.mem x = 0

theorem fresh_init (Y : Sys) (mem : Mem) : Fresh Y (.init Y mem) :=
  ⟨rfl, ⟨rfl, rfl, rfl, rfl, rfl, rfl⟩, ⟨rfl, rfl⟩, fun _ hx => if_pos hx⟩

theorem Sys.base_pos' (Y : Sys) : 0 < Y.base := by
  have := Y.base_pos
  unfold Sys.base
  omega

theorem Sys.base_dvd (Y : Sys) : 16 ∣ Y.base := by
  have h1 := Y.base_aligned
  have h2 := Y.base_pos
  unfold Sys.base
  omega

theorem Sys.base_cast (Y : Sys) : (Y.base : ℤ) = Y.heap.heap_base := Int.toNat_of_nonneg Y.heap.base_nonneg

theorem Sys.length_cast (Y : Sys) : (Y.length : ℤ) = Y.heap.heap_length := Int.toNat_of_nonneg Y.heap.length_nonneg

theorem Sys.bound' (Y : Sys) : Y.base + Y.length + 2 * Y.page_size + 2 ^ 12 ≤ 2 ^ 62 := by
  have h1 := Y.bound
  rw [← Y.base_cast, ← Y.length_cast] at h1
  have h2 : (2 : ℤ) ^ Y.page_bits = (Y.page_size : ℤ) := by
    unfold Sys.page_size
    push_cast
    rfl
  rw [h2] at h1
  omega

section
variable {Y : Sys} {s : MState} {bs pre post : List (ℕ × Tag)} {p q n m : ℕ} {t : Tag} {F G : Set ℕ}

theorem InvOn.layout_bs (h : InvOn Y s bs F) : Layout s.mem Y.base true bs := (layout_append.mp h.layout).1

theorem InvOn.pos (h : InvOn Y s bs F) : ∀ b ∈ bs, 0 < b.1 := h.layout_bs.pos

theorem InvOn.seg_size_eq (h : InvOn Y s bs F) : s.seg_size = total bs + s.topsize + 80 := by
  have := h.size
  simp only [fullRow, total_append, total_cons, total_nil, top_foot_size_eq] at this
  omega

theorem InvOn.at_full (hp : At Y.base bs p n t) : At Y.base (fullRow s bs) p n t := (at_append ..).mpr (.inl hp)

/-- chunks are aligned, in the segment, and not too small -/
theorem InvOn.chunk (h : InvOn Y s bs F) (hp : At Y.base bs p n t) :
    16 ∣ p ∧ 16 ∣ n ∧ 32 ≤ n ∧ Y.base ≤ p ∧ p + n ≤ s.top := by
  obtain ⟨_, hok⟩ := h.layout_bs.at hp
  refine ⟨hp.dvd Y.base_dvd h.layout_bs.dvd, hok.aligned, ?_, hp.bounds.1, h.top ▸ hp.bounds.2⟩
  have hmin := hok.min_le
  rcases h.tags _ hp.mem with ht | ht <;>
  · dsimp only at ht
    rw [ht] at hmin
    exact hmin

theorem InvOn.top_pos (h : InvOn Y s bs F) : 0 < s.top := by
  have h1 := h.top
  have h2 := Y.base_pos'
  omega

theorem InvOn.top_ok (h : InvOn Y s bs F) : 16 ∣ s.top ∧ 16 ∣ s.topsize ∧ 16 ≤ s.topsize := by
  have hok := (layout_append.mp h.layout).2.1
  refine ⟨?_, hok.aligned, hok.pos⟩
  rw [h.top]
  exact dvd_add Y.base_dvd (total_dvd h.layout_bs.dvd)

theorem InvOn.topsize_le (h : InvOn Y s bs F) : s.top + s.topsize + 80 ≤ Y.base + Y.length := by
  have h1 := h.seg_size_eq
  have h2 := h.fits
  have h3 := h.top
  omega

theorem InvOn.zero_notMem (_ : InvOn Y s bs F) : 0 ∉ frees Y.base bs := fun h0 => by
  have h1 := le_of_mem_frees h0
  have h2 := Y.base_pos'
  omega

/-- the dv is a free chunk, unless its size is 0 -/
theorem InvOn.dv_at (h : InvOn Y s bs F) (hdv : s.dvsize ≠ 0) : At Y.base bs s.dv s.dvsize .free :=
  h.dv.resolve_left fun hz => hdv hz.2

theorem InvOn.least_le (h : InvOn Y s bs F) : ∀ p ∈ frees Y.base bs, s.least_addr ≤ p := fun p hp => by
  rw [h.least, h.base]
  exact le_of_mem_frees hp

theorem InvOn.chunksize_eq (h : InvOn Y s bs F) (hp : At Y.base bs p n t) : chunksize s.mem p = n :=
  h.layout_bs.chunksize_eq hp

/-- the words of a user are in no other chunk, nor in the head of one -/
theorem payload_outside {a k x : ℕ} {t' : Tag} (hpos : ∀ b ∈ bs, 0 < b.1) (hq : At a bs q k .used)
    (hp : At a bs p n t') (hne : t' ≠ .used) (hx : Payload q k x) : x ≤ p ∨ p + n + 16 ≤ x := by
  obtain ⟨h1, h2⟩ := hx
  unfold TWO_SIZE_T_SIZES SIZE_T_SIZE at h1
  rcases hq.disjoint hpos hp with ⟨-, -, ht⟩ | h | h
  · exact absurd ht.symm hne
  · omega
  · omega

theorem InvOn.free_size (h : InvOn Y s bs F) (hp : p ∈ frees Y.base bs) : At Y.base bs p (chunksize s.mem p) .free := by
  obtain ⟨n, hat⟩ := hp
  rwa [h.chunksize_eq hat]

theorem InvOn.free_le (h : InvOn Y s bs F) (hp : At Y.base bs p n .free) : n ≤ Y.length := by
  have h1 := h.chunk hp
  have h2 := h.topsize_le
  omega

/-- chunks of the row are apart -/
theorem InvOn.apart (h : InvOn Y s bs F) (hp : At Y.base bs p n t) (hq : q ∈ frees Y.base bs) (hne : q ≠ p) :
    q + chunksize s.mem q ≤ p ∨ p + n ≤ q := by
  rcases (h.free_size hq).disjoint h.pos hp with ⟨heq, -, -⟩ | h1 | h1
  · exact absurd heq hne
  · exact .inl h1
  · exact .inr h1

/-- the segment and the state of the allocator are apart -/
theorem Sys.state_outside (Y : Sys) {x : ℕ} (hx : Y.State x) : x < Y.base ∨ Y.base + Y.length ≤ x := by
  obtain ⟨h1, h2⟩ := hx
  have h3 := Y.gm_apart
  rw [← Y.base_cast, ← Y.length_cast] at h3
  omega

theorem InvOn.nodes_frees (h : InvOn Y s bs F) : Nodes Y s (frees Y.base bs) := by
  have htop := h.topsize_le
  have hseg := h.seg_size_eq
  have hpos := h.top
  refine ⟨fun q hq => ?_, fun q hq => ?_, fun q hq => ?_, fun q hq r hr hne => ?_, fun q hq => ?_⟩
  · have hchunk := h.chunk (h.free_size hq)
    rw [h.least, h.base, h.footprint]
    omega
  · have h1 := le_of_mem_frees hq
    have h2 := Y.base_pos'
    omega
  · exact (h.chunk (h.free_size hq)).2.2.1
  · exact h.apart (h.free_size hr) hq hne
  · have hchunk := h.chunk (h.free_size hq)
    have h3 := Y.gm_apart
    rw [← Y.base_cast, ← Y.length_cast] at h3
    omega

theorem InvOn.nodes (h : InvOn Y s bs F) : Nodes Y s F := h.nodes_frees.mono h.free

/-! ### Links -/

/-- heads, feet and the words of a user are no links -/
theorem InvOn.relinked_row {s₁ : MState} {x : ℕ} (h : InvOn Y s bs F) (hr : Relinked Y G s s₁) (hG : G ⊆ frees Y.base bs)
    (hp : At Y.base (fullRow s bs) p n t) (hx : p ≤ x) (hle : x ≤ p + n) (hlink : x < p + 16 ∨ x = p + n ∨ t ≠ .free)
    (hend : x < Y.base + s.seg_size) : s₁.mem x = s.mem x := by
  have hbounds := hp.bounds
  have hfits := h.fits
  refine hr.outside x (fun hstate => ?_) ?_
  · have := Y.state_outside hstate
    omega
  · rintro q hq ⟨h1, h2⟩
    have hq' := InvOn.at_full (s := s) (h.free_size (hG hq))
    rcases hq'.disjoint h.layout.pos hp with ⟨rfl, rfl, rfl⟩ | h3 | h3
    · rcases hlink with hlt | heq | hne
      · omega
      · omega
      · exact hne rfl
    · omega
    · omega

theorem InvOn.relinked_payload {s₁ : MState} {x : ℕ} (h : InvOn Y s bs F) (hr : Relinked Y G s s₁)
    (hG : G ⊆ frees Y.base bs) (hp : At Y.base bs p n .used) (hx : Payload p n x) : s₁.mem x = s.mem x := by
  have hchunk := h.chunk hp
  have htop := h.top
  have hseg := h.seg_size_eq
  obtain ⟨h1, h2⟩ := hx
  exact h.relinked_row hr hG (InvOn.at_full hp) ((Nat.le_add_right ..).trans h1) h2 (.inr (.inr nofun)) (by omega)

/-- the row stays as it is when only links change -/
theorem InvOn.relinked {s₁ : MState} {F₁ : Set ℕ} (h : InvOn Y s bs F) (hr : Relinked Y G s s₁) (hG : G ⊆ frees Y.base bs)
    (hF₁ : F₁ ⊆ frees Y.base bs) (hb : InBins Y s₁ F₁) : InvOn Y s₁ bs F₁ := by
  have hlayout : Layout s₁.mem Y.base true (fullRow s bs) := by
    have htop := h.top
    have hseg := h.seg_size_eq
    refine h.layout.congr_read (fun q k t hq => ?_) fun q k hq => ?_
    · obtain ⟨_, hok⟩ := h.layout.at hq
      have hpos := hok.pos
      have hbounds := hq.bounds
      rw [h.size] at hbounds
      exact h.relinked_row hr hG hq (by omega) (by omega) (.inl (by omega)) (by omega)
    · have hfree : At Y.base bs q k .free := by
        simpa [fullRow, at_append, at_cons] using hq
      have hchunk := h.chunk hfree
      exact h.relinked_row hr hG hq (by omega) (le_refl _) (.inr (.inl rfl)) (by omega)
  obtain ⟨mem', sm, tm, rfl⟩ : ∃ mem' sm tm, s₁ = { s with mem := mem', smallmap := sm, treemap := tm } :=
    ⟨_, _, _, hr.same⟩
  exact ⟨h.base, h.curr, h.fits, h.least, h.footprint, hlayout, h.tags, h.top, h.size, h.dv, hF₁, hb⟩

/-- **A chunk leaves its bin.** -/
theorem InvOn.unlink (h : InvOn Y s bs F) (hp : p ∈ F) (hn : chunksize s.mem p = n) :
    ∃ s₁, unlink_chunk Y s p n = .ok s₁ ∧ Relinked Y F s s₁ ∧ InvOn Y s₁ bs (F \ {p}) := by
  obtain ⟨s₁, hop, hr, hb⟩ := h.binned.unlink h.nodes hp hn
  exact ⟨s₁, hop, hr, h.relinked hr h.free (Set.sdiff_subset.trans h.free) hb⟩

/-- **The first chunk leaves a small bin.** -/
theorem InvOn.first {i : ℕ} (h : InvOn Y s bs F) (hmark : s.smallmap.getLsbD i = true) :
    ∃ p s₁, link s.mem .fd (smallbin_at Y i) = p ∧ p ∈ F ∧ chunksize s.mem p = small_index2size i ∧
      unlink_first_small_chunk s (smallbin_at Y i) p i = .ok s₁ ∧ Relinked Y F s s₁ ∧ InvOn Y s₁ bs (F \ {p}) := by
  obtain ⟨p, s₁, hp, hmem, hsize, hop, hr, hb⟩ := h.binned.first h.nodes hmark
  exact ⟨p, s₁, hp, hmem, hsize, hop, hr, h.relinked hr h.free (Set.sdiff_subset.trans h.free) hb⟩

/-- **A chunk enters its bin.** -/
theorem InvOn.enter (h : InvOn Y s bs F) (hp : At Y.base bs p n .free) (hpF : p ∉ F) :
    ∃ s₁, insert_chunk Y s p n = .ok s₁ ∧ Relinked Y (insert p F) s s₁ ∧ InvOn Y s₁ bs (insert p F) := by
  have hsub : insert p F ⊆ frees Y.base bs := Set.insert_subset ⟨n, hp⟩ h.free
  obtain ⟨s₁, hop, hr, hb⟩ := h.binned.insert (h.nodes_frees.mono hsub) hpF (h.chunksize_eq hp)
    ((by decide : 8 ∣ 16).trans (h.chunk hp).2.1) (h.free_le hp)
  exact ⟨s₁, hop, hr, h.relinked hr hsub hsub hb⟩

/-- a part of the row changes in which no chunk of F is -/
theorem InvOn.binned_frame {s' : MState} (h : InvOn Y s bs F) (hsm : s'.smallmap = s.smallmap)
    (htm : s'.treemap = s.treemap) (hp : Y.base ≤ p) (hn : p + n + 8 < Y.base + Y.length)
    (hout : ∀ x, x < p + 8 ∨ p + n + 8 < x → s'.mem x = s.mem x)
    (hF : ∀ q ∈ F, q + chunksize s.mem q ≤ p ∨ p + n ≤ q)
    (hsize : ∀ q ∈ F, chunksize s'.mem q = chunksize s.mem q) : InBins Y s' F := by
  refine h.binned.congr h.nodes hsm htm hsize (fun q hq x hx => hout x ?_) fun x hx => hout x ?_
  · obtain ⟨h1, h2⟩ := hx
    have := hF q hq
    omega
  · have := Y.state_outside hx
    omega

end

section
variable {Y : Sys} {s : MState} {bs pre post : List (ℕ × Tag)} {p q n m : ℕ} {t : Tag} {F G : Set ℕ}

/-! ## Allocation -/

/-- a chunk for nb bytes has been made at p, nothing else has changed for the users, and the chunks of F are in the bins -/
structure AllocatedOn (Y : Sys) (s s' : MState) (bs bs' : List (ℕ × Tag)) (F : Set ℕ) (nb p m : ℕ) : Prop where
  inv : InvOn Y s' bs' F
  fits : nb ≤ m
  tight : m < nb + MIN_CHUNK_SIZE
  new : ∀ k, ¬ At Y.base bs p k .used
  live : ∀ q k, At Y.base bs' q k .used ↔ At Y.base bs q k .used ∨ (q = p ∧ k = m)
  data : ∀ q k, At Y.base bs q k .used → ∀ x, Payload q k x → s'.mem x = s.mem x

/-- and the call is over -/
abbrev Allocated (Y : Sys) (s s' : MState) (bs bs' : List (ℕ × Tag)) (nb p m : ℕ) : Prop :=
  AllocatedOn Y s s' bs bs' (frees Y.base bs' \ {s'.dv}) nb p m

theorem new_of_free (h : InvOn Y s bs F) (hp : At Y.base bs p n .free) (k : ℕ) : ¬ At Y.base bs p k .used := fun hk => by
  cases (hp.unique h.pos hk).2

section
variable {s₁ s' : MState} {bs' : List (ℕ × Tag)} {nb : ℕ}

theorem AllocatedOn.done (h : AllocatedOn Y s s' bs bs' F nb p m) (hF : F = frees Y.base bs' \ {s'.dv}) :
    Allocated Y s s' bs bs' nb p m := by
  rwa [hF] at h

/-- a chunk has left its bin before -/
theorem AllocatedOn.of_relinked (h : InvOn Y s bs F) (hr : Relinked Y F s s₁) (ha : AllocatedOn Y s₁ s' bs bs' G nb p m) :
    AllocatedOn Y s s' bs bs' G nb p m :=
  ⟨ha.inv, ha.fits, ha.tight, ha.new, ha.live, fun q k hq x hx =>
    (ha.data q k hq x hx).trans (h.relinked_payload hr h.free hq hx)⟩

/-- a chunk enters its bin afterwards -/
theorem AllocatedOn.enter (h : AllocatedOn Y s s' bs bs' F nb p m) (hq : At Y.base bs' q n .free) (hqF : q ∉ F) :
    ∃ s₁, insert_chunk Y s' q n = .ok s₁ ∧ Relinked Y (insert q F) s' s₁ ∧
      AllocatedOn Y s s₁ bs bs' (insert q F) nb p m := by
  obtain ⟨s₁, hop, hr, hinv⟩ := h.inv.enter hq hqF
  refine ⟨s₁, hop, hr, hinv, h.fits, h.tight, h.new, h.live, fun r k hrk x hx => ?_⟩
  rw [← h.data r k hrk x hx]
  exact h.inv.relinked_payload hr hinv.free ((h.live r k).mpr (.inl hrk)) hx

/-- the dv is another chunk -/
theorem InvOn.set_dv (dv' dvsize' : ℕ) (h : InvOn Y s bs F)
    (hdv : (dv' = 0 ∧ dvsize' = 0) ∨ At Y.base bs dv' dvsize' .free) :
    InvOn Y { s with dv := dv', dvsize := dvsize' } bs F :=
  ⟨h.base, h.curr, h.fits, h.least, h.footprint, h.layout, h.tags, h.top, h.size, hdv, h.free,
    h.binned.of_same rfl rfl rfl⟩

theorem AllocatedOn.set_dv (dv' dvsize' : ℕ) (h : AllocatedOn Y s s' bs bs' F nb p m)
    (hdv : (dv' = 0 ∧ dvsize' = 0) ∨ At Y.base bs' dv' dvsize' .free) :
    AllocatedOn Y s { s' with dv := dv', dvsize := dvsize' } bs bs' F nb p m :=
  ⟨h.inv.set_dv dv' dvsize' hdv, h.fits, h.tight, h.new, h.live, h.data⟩

end

/-- a free chunk is taken as it is -/
theorem InvOn.take_whole {nb : ℕ} (dv' dvsize' : ℕ) (h : InvOn Y s bs F) (hp : At Y.base bs p n .free) (hpF : p ∉ F)
    (hdv : (dv' = 0 ∧ dvsize' = 0) ∨ (At Y.base bs dv' dvsize' .free ∧ dv' ≠ p)) (hfits : nb ≤ n)
    (htight : n < nb + MIN_CHUNK_SIZE) :
    ∃ bs', frees Y.base bs' = frees Y.base bs \ {p} ∧
      AllocatedOn Y s { s with mem := set_inuse_and_pinuse s.mem p n, dv := dv', dvsize := dvsize' } bs bs' F nb p n := by
  have hchunk := h.chunk hp
  have hend := h.topsize_le
  have hapart : ∀ q ∈ F, q + chunksize s.mem q ≤ p ∨ p + n ≤ q := fun q hq =>
    h.apart hp (h.free hq) (ne_of_mem_of_not_mem hq hpF)
  obtain ⟨pre, post, rfl, hpre⟩ := hp.split
  have hlay := h.layout
  rw [fullRow, List.append_assoc, List.cons_append] at hlay
  have hlay' := hlay.whole hpre
  have hfrees := frees_whole h.pos hpre
  have htotal : total (pre ++ (n, Tag.used) :: post) = total (pre ++ (n, Tag.free) :: post) := by simp
  have hsize := h.size
  have htop := h.top
  refine ⟨pre ++ (n, .used) :: post, hfrees,
    ⟨h.base, h.curr, h.fits, h.least, h.footprint, ?_, ?_, ?_, ?_, ?_, ?_, ?_⟩, hfits, htight,
    new_of_free h hp, fun q k => ?_, fun q k hq x hx => ?_⟩
  · rw [fullRow, List.append_assoc, List.cons_append]
    exact hlay'
  · intro b hb
    have htags := h.tags b
    simp only [List.mem_append, List.mem_cons] at hb htags
    rcases hb with hb | rfl | hb
    · exact htags (.inl hb)
    · exact .inl rfl
    · exact htags (.inr (.inr hb))
  · rw [htotal]
    exact htop
  · rw [fullRow, total_append] at hsize ⊢
    rw [htotal]
    exact hsize
  · refine hdv.imp_right ?_
    rintro ⟨hat, hne⟩
    rw [at_append, at_cons] at hat ⊢
    rcases hat with hat | ⟨heq, -⟩ | hat
    · exact .inl hat
    · exact absurd (heq.trans hpre.symm) hne
    · exact .inr (.inr hat)
  · rw [hfrees]
    exact fun q hq => ⟨h.free hq, ne_of_mem_of_not_mem hq hpF⟩
  · refine h.binned_frame (p := p) (n := n) rfl rfl hchunk.2.2.2.1 (by omega) (fun x hx => ?_) hapart fun q hq => ?_
    · exact set_inuse_and_pinuse_of_ne (by omega) (by omega)
    obtain ⟨k, hk⟩ := h.free hq
    have hne := ne_of_mem_of_not_mem hq hpF
    have hk' : At Y.base (pre ++ (n, Tag.used) :: post) q k .free := by
      rw [at_append, at_cons] at hk ⊢
      rcases hk with hk | ⟨heq, -⟩ | hk
      · exact .inl hk
      · exact absurd (heq.trans hpre.symm) hne
      · exact .inr (.inr hk)
    refine chunksize_congr h.layout_bs ?_ hk hk'
    rw [← List.cons_append, ← List.append_assoc] at hlay'
    exact (layout_append.mp hlay').1
  · simp only [at_append, at_cons, reduceCtorEq, and_false, false_or, and_true, ← hpre]
    tauto
  · have := payload_outside h.pos hq hp (by simp) hx
    exact set_inuse_and_pinuse_of_ne (by omega) (by omega)

/-- a free chunk is cut in two, and the first part taken -/
theorem InvOn.take_carve (dv' dvsize' : ℕ) {mem' : Mem} (h : InvOn Y s bs F)
    (hp : At Y.base bs p (n + m) .free) (hpF : p ∉ F) (hn : 16 ∣ n) (hn' : MIN_CHUNK_SIZE ≤ n) (hm : MIN_CHUNK_SIZE ≤ m)
    (hmem : mem' = set_size_and_pinuse_of_free_chunk (set_size_and_pinuse_of_inuse_chunk s.mem p n) (p + n) m)
    (hdv : (dv' = 0 ∧ dvsize' = 0) ∨ (At Y.base bs dv' dvsize' .free ∧ dv' ≠ p) ∨ (dv' = p + n ∧ dvsize' = m)) :
    ∃ bs', frees Y.base bs' = insert (p + n) (frees Y.base bs \ {p}) ∧ p + n ∉ frees Y.base bs ∧
      At Y.base bs' (p + n) m .free ∧ (∀ q k, At Y.base bs q k .free → q ≠ p → At Y.base bs' q k .free) ∧
      AllocatedOn Y s { s with mem := mem', dv := dv', dvsize := dvsize' } bs bs' F n p n := by
  have hchunk := h.chunk hp
  have hend := h.topsize_le
  have hapart : ∀ q ∈ F, q + chunksize s.mem q ≤ p ∨ p + (n + m) ≤ q := fun q hq =>
    h.apart hp (h.free hq) (ne_of_mem_of_not_mem hq hpF)
  have hnew := new_of_free h hp
  have hpayload : ∀ q k, At Y.base bs q k .used → ∀ x, Payload q k x → mem' x = s.mem x := by
    intro q k hq x hx
    have := payload_outside h.pos hq hp (by simp) hx
    simp only [hmem]
    rw [set_free_chunk_of_ne (by omega) (by omega), set_inuse_chunk_of_ne (by omega)]
  obtain ⟨pre, post, rfl, hpre⟩ := hp.split
  have hlay := h.layout
  rw [fullRow, List.append_assoc, List.cons_append] at hlay
  have hlay' := hlay.carve Y.base_dvd hpre hn hn' hm
  rw [← hmem, ← List.cons_append, ← List.cons_append, ← List.append_assoc] at hlay'
  have hnot := notMem_frees_mid h.pos (a := Y.base) (m := n) (by unfold MIN_CHUNK_SIZE at hn'; omega)
    (by unfold MIN_CHUNK_SIZE at hm; omega)
  rw [← hpre] at hnot
  have hat : ∀ q k, At Y.base (pre ++ (n + m, Tag.free) :: post) q k .free → q ≠ p →
      At Y.base (pre ++ (n, Tag.used) :: (m, Tag.free) :: post) q k .free := by
    intro q k hk hne
    simp only [at_append, at_cons, ← hpre, Nat.add_assoc] at hk ⊢
    rcases hk with hk | ⟨heq, -⟩ | hk
    · exact .inl hk
    · exact absurd heq hne
    · exact .inr (.inr (.inr hk))
  have hrest : At Y.base (pre ++ (n, Tag.used) :: (m, Tag.free) :: post) (p + n) m .free := by
    rw [at_append, at_cons, at_cons, ← hpre]
    exact .inr (.inr (.inl ⟨rfl, rfl, rfl⟩))
  have hrow := (layout_append.mp hlay').1
  have hfrees := frees_carve h.pos hpre
  have htotal : total (pre ++ (n, Tag.used) :: (m, Tag.free) :: post) = total (pre ++ (n + m, Tag.free) :: post) := by
    simp [Nat.add_assoc]
  have hsize := h.size
  have htop := h.top
  refine ⟨pre ++ (n, .used) :: (m, .free) :: post, hfrees, hnot, hrest, hat,
    ⟨h.base, h.curr, h.fits, h.least, h.footprint, hlay', ?_, ?_, ?_, ?_, ?_, ?_⟩, le_refl _,
    by unfold MIN_CHUNK_SIZE; omega, hnew, fun q k => ?_, hpayload⟩
  · intro b hb
    have htags := h.tags b
    simp only [List.mem_append, List.mem_cons] at hb htags
    rcases hb with hb | rfl | rfl | hb
    · exact htags (.inl hb)
    · exact .inl rfl
    · exact .inr rfl
    · exact htags (.inr (.inr hb))
  · rw [htotal]
    exact htop
  · rw [fullRow, total_append] at hsize ⊢
    rw [htotal]
    exact hsize
  · rcases hdv with hz | ⟨hdvat, hne⟩ | ⟨rfl, rfl⟩
    · exact .inl hz
    · exact .inr (hat _ _ hdvat hne)
    · exact .inr hrest
  · rw [hfrees]
    exact fun q hq => .inr ⟨h.free hq, ne_of_mem_of_not_mem hq hpF⟩
  · refine h.binned_frame (p := p) (n := n + m) rfl rfl hchunk.2.2.2.1 (by omega) (fun x hx => ?_) hapart fun q hq => ?_
    · simp only [hmem]
      rw [set_free_chunk_of_ne (by omega) (by omega), set_inuse_chunk_of_ne (by omega)]
    · obtain ⟨k, hk⟩ := h.free hq
      exact chunksize_congr h.layout_bs hrow hk (hat q k hk (ne_of_mem_of_not_mem hq hpF))
  · simp only [at_append, at_cons, reduceCtorEq, and_false, false_or, and_true, ← hpre, Nat.add_assoc]
    tauto

/-- the beginning of the top chunk is taken -/
theorem InvOn.split_top (h : Inv Y s bs) (hn : 16 ∣ n) (hn' : MIN_CHUNK_SIZE ≤ n) (hlt : n < s.topsize) :
    ∃ bs', (split_top s n).1 = chunk2mem s.top ∧ Allocated Y s (split_top s n).2 bs bs' n s.top n := by
  obtain ⟨m, hm⟩ := Nat.exists_eq_add_of_lt hlt
  have hlay := h.layout
  rw [fullRow, hm, Nat.add_assoc] at hlay
  have hlay' := hlay.carveTop h.top hn hn' (Nat.succ_pos m)
  rw [← show bs ++ [(n, Tag.used)] ++ [(m + 1, Tag.top), (TOP_FOOT_SIZE, Tag.foot)] =
    bs ++ [(n, Tag.used), (m + 1, Tag.top), (TOP_FOOT_SIZE, Tag.foot)] by simp] at hlay'
  have hrest : s.topsize - n = m + 1 := by omega
  have hsize := h.size
  have htop := h.top
  have hend := h.topsize_le
  have hfull : ∀ q k, At Y.base bs q k .free → At Y.base (bs ++ [(n, Tag.used)]) q k .free :=
    fun q k hk => (at_append ..).mpr (.inl hk)
  have hfrees : frees Y.base (bs ++ [(n, Tag.used)]) = frees Y.base bs := by
    ext q
    simp [mem_frees_append, mem_frees_cons]
  have hmem : ∀ x, x < s.top + 8 ∨ s.top + n + 8 < x → (Heap.split_top s n).2.mem x = s.mem x := by
    intro x hx
    simp only [Heap.split_top]
    rw [set_inuse_chunk_of_ne (by omega), set_head_of_ne (by omega)]
  refine ⟨bs ++ [(n, .used)], rfl, ⟨h.base, h.curr, h.fits, h.least, h.footprint, ?_, ?_, ?_, ?_, ?_, ?_, ?_⟩, le_refl _,
    by unfold MIN_CHUNK_SIZE; omega, fun k hk => ?_, fun q k => ?_, fun q k hq x hx => ?_⟩
  · rw [fullRow, Heap.split_top]
    simp only [hrest]
    exact hlay'
  · intro b hb
    rcases List.mem_append.mp hb with hb | hb
    · exact h.tags b hb
    · rw [List.mem_singleton.mp hb]
      exact .inl rfl
  · rw [Heap.split_top]
    simp only [total_append, total_cons, total_nil, h.top]
    omega
  · rw [fullRow, Heap.split_top]
    simp only [fullRow, total_append, total_cons, total_nil, hrest] at hsize ⊢
    omega
  · exact h.dv.imp_right (hfull _ _)
  · exact Set.sdiff_subset
  · rw [hfrees]
    refine h.binned_frame (p := s.top) (n := n) rfl rfl (by omega) (by omega) hmem (fun q hq => .inl ?_) fun q hq => ?_
    · exact (h.chunk (h.free_size (h.free hq))).2.2.2.2
    obtain ⟨⟨k, hk⟩, -⟩ := hq
    refine chunksize_congr h.layout_bs ?_ hk (hfull q k hk)
    rw [Heap.split_top]
    simp only [hrest]
    exact (layout_append.mp hlay').1
  · have h1 := (h.chunk hk).2.2
    omega
  · simp only [at_append, at_cons, at_nil, or_false, h.top, and_true]
  · obtain ⟨h1, h2⟩ := hx
    have h3 := (h.chunk hq).2.2.2.2
    exact hmem x (.inl (by omega))

end

end SandiaShmem.Heap
