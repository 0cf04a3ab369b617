/-
The calls that are made of allocation and freeing (`dlcalloc`, `dlrealloc`, `dlmemalign` in `src/malloc.c`).

- `try_realloc_chunk_spec`: a chunk changes its size in place, or there is no room behind it.
- `dlrealloc_spec`: the bytes of the user are kept, wherever the chunk is afterwards.
- `dlcalloc_spec`: the product that is too large is found, and the bytes are 0.
-/
import SandiaShmem.Core.WordMem
import SandiaShmem.Heap.Reshape

namespace SandiaShmem.Heap

open Blocks WordMem

/-! ## Model -/

/-- `mmap_resize`, where there is no `mremap` -/
def mmap_resize (Y : Sys) (s : MState) (oldp nb : ℕ) : ℕ :=
  let oldsize := chunksize s.mem oldp
  if is_small nb then NULL
  else if nb + SIZE_T_SIZE ≤ oldsize ∧ oldsize - nb ≤ 2 * Y.granularity then oldp else NULL

/-- a chunk keeps its first nb bytes, and the others are freed -/
def give_back (Y : Sys) (s : MState) (p nb rsize : ℕ) : Except Stop MState :=
  let r := p + nb
  dispose_chunk Y { s with mem := set_inuse (set_inuse s.mem p nb) r rsize } r rsize

/-- `extend into top` -/
def extend_into_top (s : MState) (p nb oldsize : ℕ) : Res :=
  if nb < oldsize + s.topsize then
    let newtopsize := oldsize + s.topsize - nb
    let newtop := p + nb
    let mem := set_head (set_inuse s.mem p nb) newtop ⟨newtopsize, true, false⟩
    .ok (p, { s with mem, top := newtop, topsize := newtopsize })
  else .ok (NULL, s)

/-- `extend into dv` -/
def extend_into_dv (s : MState) (p nb oldsize : ℕ) : Res :=
  if nb ≤ oldsize + s.dvsize then
    let dsize := oldsize + s.dvsize - nb
    if MIN_CHUNK_SIZE ≤ dsize then
      let r := p + nb
      let mem := set_size_and_pinuse_of_free_chunk (set_inuse s.mem p nb) r dsize
      .ok (p, { s with mem := clear_pinuse mem (r + dsize), dv := r, dvsize := dsize })
    else .ok (p, { s with mem := set_inuse s.mem p (oldsize + s.dvsize), dv := 0, dvsize := 0 })
  else .ok (NULL, s)

/-- `extend into next free chunk` -/
def extend_into_free (Y : Sys) (s : MState) (p nb oldsize : ℕ) : Res :=
  let next := p + oldsize
  let nextsize := chunksize s.mem next
  if nb ≤ oldsize + nextsize then do
    let rsize := oldsize + nextsize - nb
    let s ← unlink_chunk Y s next nextsize
    if rsize < MIN_CHUNK_SIZE then .ok (p, { s with mem := set_inuse s.mem p (oldsize + nextsize) })
    else
      let s ← give_back Y s p nb rsize
      .ok (p, s)
  else .ok (NULL, s)

/-- the chunk, or 0 -/
def try_realloc_chunk (Y : Sys) (s : MState) (p nb : ℕ) : Res :=
  let oldsize := chunksize s.mem p
  let next := p + oldsize
  if ok_address s p ∧ is_inuse s.mem p ∧ p < next ∧ pinuse s.mem next then
    if is_mmapped s.mem p then .ok (mmap_resize Y s p nb, s)
    else if nb ≤ oldsize then
      if MIN_CHUNK_SIZE ≤ oldsize - nb then do
        let s ← give_back Y s p nb (oldsize - nb)
        .ok (p, s)
      else .ok (p, s)
    else if next = s.top then extend_into_top s p nb oldsize
    else if next = s.dv then extend_into_dv s p nb oldsize
    else if cinuse s.mem next = false then extend_into_free Y s p nb oldsize
    else .ok (NULL, s)
  else .error .usage

/-- `overhead_for`; what an mmapped chunk needs is two words -/
def overhead_for (mem : Mem) (p : ℕ) : ℕ := if is_mmapped mem p then TWO_SIZE_T_SIZES else CHUNK_OVERHEAD

def memcpy (mem : Mem) (dst src n : ℕ) : Mem := write mem dst n fun o => mem (src + o)

/-- `memset` with 0 -/
def memset (mem : Mem) (dst n : ℕ) : Mem := write mem dst n fun _ => 0

def dlrealloc (Y : Sys) (s : MState) (oldmem bytes : ℕ) : Res :=
  if oldmem = NULL then dlmalloc Y s bytes
  else if MAX_REQUEST ≤ bytes then .ok (NULL, s)
  else do
    let oldp := mem2chunk oldmem
    let (newp, s) ← try_realloc_chunk Y s oldp (request2size bytes)
    if newp ≠ 0 then .ok (chunk2mem newp, s)
    else
      let (mem, s) ← dlmalloc Y s bytes
      if mem ≠ NULL then
        let oc := chunksize s.mem oldp - overhead_for s.mem oldp
        let s ← dlfree Y { s with mem := memcpy s.mem mem oldmem (if oc < bytes then oc else bytes) } oldmem
        .ok (mem, s)
      else .ok (NULL, s)

/-- the number of bytes that `dlcalloc` asks for -/
def calloc_req (n_elements elem_size : ℕ) : ℕ :=
  if n_elements ≠ 0 then
    let req := n_elements * elem_size % 2 ^ 64
    if 2 ^ 16 ≤ n_elements ||| elem_size ∧ req / n_elements ≠ elem_size then MAX_SIZE_T else req
  else 0

def dlcalloc (Y : Sys) (s : MState) (n_elements elem_size : ℕ) : Res := do
  let req := calloc_req n_elements elem_size
  let (mem, s) ← dlmalloc Y s req
  if mem ≠ NULL then .ok (mem, { s with mem := memset s.mem mem req }) else .ok (NULL, s)

/-! ## try_realloc_chunk -/

section
variable {Y : Sys} {s s' : MState} {bs bs' : List (ℕ × Tag)} {p q a b n nb k x : ℕ}

/-- a chunk of size n has size m now, its user's words are kept, and nothing else has changed for the users -/
structure Resized (Y : Sys) (s s' : MState) (bs bs' : List (ℕ × Tag)) (p n m : ℕ) : Prop where
  inv : Inv Y s' bs'
  live : ∀ q k, At Y.base bs' q k .used ↔ (At Y.base bs q k .used ∧ q ≠ p) ∨ (q = p ∧ k = m)
  data : ∀ q k, At Y.base bs q k .used → q ≠ p → ∀ x, Payload q k x → s'.mem x = s.mem x
  own : ∀ x, Payload p n x → Payload p m x → s'.mem x = s.mem x

theorem Reshaped.resized {mid' : List (ℕ × Tag)} {m : ℕ} (h : Reshaped Y s s' bs bs' p mid')
    (hmid : ∀ q k, At p mid' q k .used ↔ q = p ∧ k = m)
    (own : ∀ x, Payload p n x → Payload p m x → s'.mem x = s.mem x) : Resized Y s s' bs bs' p n m :=
  ⟨h.inv, fun q k => by rw [h.live, hmid], h.data, own⟩

/-- first larger, then smaller -/
theorem Resized.trans {s₁ : MState} {bs₁ : List (ℕ × Tag)} {m j : ℕ} (h : Resized Y s s₁ bs bs₁ p n m)
    (h' : Resized Y s₁ s' bs₁ bs' p m j) (hle : j ≤ m) : Resized Y s s' bs bs' p n j := by
  refine ⟨h'.inv, fun q k => ?_, fun q k hq hne x hx => ?_, fun x hx hx' => ?_⟩
  · rw [h'.live, h.live]
    constructor
    · rintro (⟨hq | hq, hne⟩ | hq)
      · exact .inl hq
      · exact absurd hq.1 hne
      · exact .inr hq
    · rintro (hq | hq)
      · exact .inl ⟨.inl hq, hq.2⟩
      · exact .inr hq
  · rw [h'.data q k ((h.live q k).mpr (.inl ⟨hq, hne⟩)) hne x hx, h.data q k hq hne x hx]
  · have hm : Payload p m x := ⟨hx'.1, hx'.2.trans (by omega)⟩
    rw [h'.own x hm hx', h.own x hx hm]

/-- a chunk has left its bin before -/
theorem Resized.of_relinked {s₁ : MState} {m : ℕ} {F : Set ℕ} (h : InvOn Y s bs F) (hp : At Y.base bs p n .used)
    (hr : Relinked Y F s s₁) (hres : Resized Y s₁ s' bs bs' p n m) : Resized Y s s' bs bs' p n m :=
  ⟨hres.inv, hres.live, fun q k hq hne x hx => (hres.data q k hq hne x hx).trans (h.relinked_payload hr h.free hq hx),
    fun x hx hx' => (hres.own x hx hx').trans (h.relinked_payload hr h.free hp hx)⟩

/-- the rest of a chunk is given back -/
theorem give_back_spec {m : Mem} (h : Inv Y s bs) (hp : At Y.base bs p (nb + b) .used) (hnb : 16 ∣ nb)
    (hnb' : MIN_CHUNK_SIZE ≤ nb) (hb : MIN_CHUNK_SIZE ≤ b)
    (hmem : CutMem s.mem (set_inuse (set_inuse m p nb) (p + nb) b) p nb b) :
    ∃ s' bs', give_back Y { s with mem := m } p nb b = .ok s' ∧ Resized Y s s' bs bs' p (nb + b) nb := by
  have hpos := h.pos
  obtain ⟨bs₁, hcut⟩ := h.cut hp hnb hnb' hb hmem
  unfold MIN_CHUNK_SIZE at hnb' hb
  have hat : At Y.base bs₁ (p + nb) b .used := (hcut.live ..).mpr (.inr (by simp))
  have hat' : At Y.base bs₁ p nb .used := (hcut.live ..).mpr (.inr (by simp))
  obtain ⟨s', bs', hcall, hfreed⟩ := dispose_chunk_spec hcut.inv hat
  have hapart : ∀ q k, At Y.base bs q k .used → q ≠ p + nb := by
    rintro q k hq rfl
    have h1 := (h.chunk hq).2.2.1
    rcases hq.disjoint hpos hp with ⟨heq, -⟩ | hlt | hlt <;> omega
  refine ⟨s', bs', hcall, hfreed.inv, fun q k => ?_, fun q k hq hne x hx => ?_, fun x hx hx' => ?_⟩
  · rw [hfreed.live, hcut.live]
    simp only [at_cons, at_nil, or_false, and_true]
    constructor
    · rintro ⟨(hq | hq | hq), hne⟩
      · exact .inl hq
      · exact .inr hq
      · exact absurd hq.1 hne
    · rintro (hq | hq)
      · exact ⟨.inl hq, hapart q k hq.1⟩
      · exact ⟨.inr (.inl hq), by omega⟩
  · have hq' := (hcut.live q k).mpr (.inl ⟨hq, hne⟩)
    rw [hfreed.data q k hq' (hapart q k hq) x hx, hcut.data q k hq hne x hx]
  · rw [hfreed.data p nb hat' (by omega) x hx']
    obtain ⟨h1, h2⟩ := hx'
    unfold TWO_SIZE_T_SIZES SIZE_T_SIZE at h1
    exact hmem.other x (by omega) (by omega) (by omega)

/-- the same cut, seen from the memory in which the two parts have been one chunk -/
theorem CutMem.of_joined {mem mem' : Mem} (h : CutMem mem mem' p a b) (h16 : 16 ∣ a + b) (hpos : 0 < a + b) :
    CutMem (set_inuse mem p (a + b)) mem' p a b := by
  refine ⟨?_, h.second, ?_, fun x h1 h2 h3 => ?_⟩
  · rw [h.first, pinuse, pinuse, head_set_inuse h16 hpos, if_pos rfl]
    rfl
  · rw [h.next, Nat.add_assoc, head_set_inuse h16 hpos, if_neg (by omega), if_pos rfl]
  · rw [h.other x h1 h2 h3, set_inuse_of_ne h1 (by omega)]

/-- the chunk is too small, and there is no room behind it -/
def NoRoomBehind (Y : Sys) (s : MState) (bs : List (ℕ × Tag)) (p n nb : ℕ) : Prop :=
  n < nb ∧ ∀ k t, At Y.base (fullRow s bs) (p + n) k t → (t = .free → n + k < nb) ∧ (t = .top → n + k ≤ nb)

/-- what is behind the chunk decides -/
theorem noRoomBehind_iff {t : Tag} (h : Inv Y s bs) (hlt : n < nb) (hat : At Y.base (fullRow s bs) (p + n) k t) :
    NoRoomBehind Y s bs p n nb ↔ (t = .free → n + k < nb) ∧ (t = .top → n + k ≤ nb) := by
  refine ⟨fun hroom => hroom.2 k t hat, fun hk => ⟨hlt, fun j u hj => ?_⟩⟩
  obtain ⟨rfl, rfl⟩ := hat.unique h.layout.pos hj
  exact hk

/-- what a try to resize in place does -/
def Tried (Y : Sys) (s : MState) (bs : List (ℕ × Tag)) (p n nb : ℕ) (res : Res) : Prop :=
  (res = .ok (NULL, s) ∧ NoRoomBehind Y s bs p n nb) ∨
    ∃ m s' bs', res = .ok (p, s') ∧ ¬ NoRoomBehind Y s bs p n nb ∧ nb ≤ m ∧ m < nb + MIN_CHUNK_SIZE ∧
      Resized Y s s' bs bs' p n m

variable {pre post : List (ℕ × Tag)}

theorem extend_into_top_spec (h : Inv Y s (pre ++ [(n, .used)])) (hp : p = Y.base + total pre) (hnb : 16 ∣ nb)
    (hnb' : MIN_CHUNK_SIZE ≤ nb) (hbig : n < nb) : Tried Y s (pre ++ [(n, .used)]) p n nb (extend_into_top s p nb n) := by
  have hmin : MIN_CHUNK_SIZE = 32 := rfl
  have hroom := noRoomBehind_iff h (p := p) hbig (k := s.topsize) (t := .top) (by
    rw [fullRow, at_append, hp]
    exact .inr (.inl ⟨by simp [Nat.add_assoc], rfl, rfl⟩))
  simp only [reduceCtorEq, false_implies, true_and, true_implies] at hroom
  unfold Tried extend_into_top
  rw [hroom]
  by_cases hlt : nb < n + s.topsize
  · have hab : nb + (n + s.topsize - nb) = n + s.topsize := by omega
    obtain ⟨bs', hres⟩ := h.extend_top hp hnb hnb' (by omega) hab rfl
    rw [if_pos hlt]
    refine .inr ⟨nb, _, bs', rfl, not_le.mpr hlt, le_refl _, by omega, hres.resized (by simp) fun x hx hx' => ?_⟩
    obtain ⟨h1, h2⟩ := hx
    unfold TWO_SIZE_T_SIZES SIZE_T_SIZE at h1
    dsimp only
    rw [set_head_of_ne (by omega), set_inuse_of_ne (by omega) (by omega)]
  · rw [if_neg hlt]
    exact .inl ⟨rfl, not_lt.mp hlt⟩

/-- the words of the user when the chunk gets larger -/
theorem set_inuse_own {m : ℕ} (hm : n ≤ m) (hx : Payload p n x) : set_inuse s.mem p m x = s.mem x := by
  obtain ⟨h1, h2⟩ := hx
  unfold TWO_SIZE_T_SIZES SIZE_T_SIZE at h1
  exact set_inuse_of_ne (by omega) (by omega)

/-- what is behind a chunk in the row -/
theorem at_behind {t u : Tag} (hp : p = Y.base + total pre) :
    At Y.base (fullRow s (pre ++ (n, u) :: (k, t) :: post)) (p + n) k t := by
  rw [fullRow, at_append, at_append, at_cons, at_cons, hp]
  exact .inl (.inr (.inr (.inl ⟨rfl, rfl, rfl⟩)))

theorem extend_into_dv_spec (h : Inv Y s (pre ++ (n, .used) :: (s.dvsize, .free) :: post)) (hp : p = Y.base + total pre)
    (hdv : p + n = s.dv) (hnb : 16 ∣ nb) (hnb' : MIN_CHUNK_SIZE ≤ nb) (hbig : n < nb) :
    Tried Y s (pre ++ (n, .used) :: (s.dvsize, .free) :: post) p n nb (extend_into_dv s p nb n) := by
  have hmin : MIN_CHUNK_SIZE = 32 := rfl
  have hroom := noRoomBehind_iff h hbig (at_behind hp)
  simp only [reduceCtorEq, false_implies, and_true, true_implies] at hroom
  unfold Tried extend_into_dv
  rw [hroom]
  by_cases hle : nb ≤ n + s.dvsize
  · rw [if_pos hle]
    by_cases hcut : MIN_CHUNK_SIZE ≤ n + s.dvsize - nb
    · rw [if_pos hcut]
      have hab : nb + (n + s.dvsize - nb) = n + s.dvsize := by omega
      obtain ⟨bs', hres⟩ := h.absorb_dv hp hdv hnb hnb' hcut hab rfl
      refine .inr ⟨nb, _, bs', rfl, not_lt.mpr hle, le_refl _, by omega, hres.resized (by simp) fun x hx hx' => ?_⟩
      obtain ⟨h1, h2⟩ := hx
      unfold TWO_SIZE_T_SIZES SIZE_T_SIZE at h1
      dsimp only
      rw [clear_pinuse_of_ne (by omega), set_free_chunk_of_ne (by omega) (by omega), set_inuse_of_ne (by omega) (by omega)]
    · rw [if_neg hcut]
      obtain ⟨bs', hres⟩ := h.absorb 0 0 hp
        (by rw [hdv, Set.sdiff_singleton_eq_self (a := 0) fun hz => h.zero_notMem hz.1]) (.inl ⟨rfl, rfl⟩)
      refine .inr ⟨n + s.dvsize, _, bs', rfl, not_lt.mpr hle, hle, by omega, hres.resized (by simp) fun x hx hx' => ?_⟩
      exact set_inuse_own (by omega) hx
  · rw [if_neg hle]
    exact .inl ⟨rfl, not_le.mp hle⟩

theorem extend_into_free_spec (h : Inv Y s (pre ++ (n, .used) :: (k, .free) :: post)) (hp : p = Y.base + total pre)
    (hdv : p + n ≠ s.dv) (hnb : 16 ∣ nb) (hnb' : MIN_CHUNK_SIZE ≤ nb) (hbig : n < nb) :
    Tried Y s (pre ++ (n, .used) :: (k, .free) :: post) p n nb (extend_into_free Y s p nb n) := by
  have hmin : MIN_CHUNK_SIZE = 32 := rfl
  have hroom := noRoomBehind_iff h hbig (at_behind hp)
  simp only [reduceCtorEq, false_implies, and_true, true_implies] at hroom
  have hat : At Y.base (pre ++ (n, Tag.used) :: (k, .free) :: post) (p + n) k .free := by
    rw [at_append, at_cons, at_cons, ← hp]
    exact .inr (.inr (.inl ⟨rfl, rfl, rfl⟩))
  have hksize : chunksize s.mem (p + n) = k := h.chunksize_eq hat
  unfold Tried extend_into_free
  simp only [hroom, hksize]
  by_cases hle : nb ≤ n + k
  · have hfree : p + n ∈ frees Y.base (pre ++ (n, Tag.used) :: (k, .free) :: post) \ {s.dv} := ⟨⟨k, hat⟩, hdv⟩
    obtain ⟨s₁, hun, hr, h₁⟩ := h.unlink hfree hksize
    obtain ⟨bs₁, hres⟩ := h₁.absorb s₁.dv s₁.dvsize hp (by rw [sdiff_right_comm, hr.dv])
      (h₁.dv.imp_right fun hdvat => ⟨hdvat, hr.dv ▸ hdv.symm⟩)
    have hgrown : Resized Y s₁ _ _ bs₁ p n (n + k) := hres.resized (by simp) fun x hx _ => set_inuse_own (by omega) hx
    have hpat : At Y.base (pre ++ (n, Tag.used) :: (k, .free) :: post) p n .used := hp ▸ At.of_split rfl
    simp only [if_pos hle, hun, bind, Except.bind]
    by_cases hcut : n + k - nb < MIN_CHUNK_SIZE
    · rw [if_pos hcut]
      exact .inr ⟨n + k, _, bs₁, rfl, not_lt.mpr hle, hle, by omega, hgrown.of_relinked h hpat hr⟩
    · rw [if_neg hcut]
      obtain ⟨b, hb⟩ := Nat.exists_eq_add_of_le hle
      have hsub : n + k - nb = b := by omega
      have h16 : 16 ∣ nb + b :=
        hb ▸ dvd_add (h.layout_bs.dvd (n, Tag.used) (by simp)) (h.layout_bs.dvd (k, Tag.free) (by simp))
      rw [hsub] at hcut ⊢
      have hmem := (cutMem_forward s₁.mem (p := p) hnb ((Nat.dvd_add_right hnb).mp h16) (by omega)
        (by omega)).of_joined h16 (by omega)
      rw [hb] at hgrown
      have hat₁ : At Y.base bs₁ p (nb + b) .used := (hgrown.live ..).mpr (.inr ⟨rfl, rfl⟩)
      obtain ⟨s', bs', hcall, hshrunk⟩ := give_back_spec hgrown.inv hat₁ hnb hnb' (not_lt.mp hcut) hmem
      rw [hcall]
      exact .inr ⟨nb, s', bs', rfl, not_lt.mpr hle, le_refl _, by omega,
        (hgrown.trans hshrunk (by omega)).of_relinked h hpat hr⟩
  · rw [if_neg hle]
    exact .inl ⟨rfl, not_le.mp hle⟩

/-- **Resizing in place.** It succeeds exactly when there is room behind the chunk. -/
theorem try_realloc_chunk_spec (h : Inv Y s bs) (hp : At Y.base bs p n .used) (hnb : 16 ∣ nb)
    (hnb' : MIN_CHUNK_SIZE ≤ nb) : Tried Y s bs p n nb (try_realloc_chunk Y s p nb) := by
  have hchunk := h.chunk hp
  have hsize := h.chunksize_eq hp
  have hmin : MIN_CHUNK_SIZE = 32 := rfl
  obtain ⟨pre, post, rfl, hpre⟩ := hp.split
  obtain ⟨pin, hok⟩ := h.layout_bs.at hp
  have hnext := h.next_head [(n, .used)] post hpre
  simp only [total_cons, total_nil, Nat.add_zero, pinAfter, decide_true] at hnext
  have hcheck : ok_address s p = true ∧ is_inuse s.mem p = true ∧ p < p + n ∧ pinuse s.mem (p + n) = true := by
    refine ⟨decide_eq_true ?_, ?_, by omega, ?_⟩
    · rw [h.least, h.base]
      exact hchunk.2.2.2.1
    · rw [is_inuse, cinuse, hok.head_eq]
      simp
    · rw [pinuse, hnext]
      cases post <;> rfl
  have hmm : ¬ is_mmapped s.mem p = true := by
    rw [is_mmapped, cinuse, hok.head_eq]
    simp
  unfold try_realloc_chunk
  simp only [hsize, if_pos hcheck, if_neg hmm]
  by_cases hbig : nb ≤ n
  · have hroom : ¬ NoRoomBehind Y s (pre ++ (n, .used) :: post) p n nb := fun hno => not_le.mpr hno.1 hbig
    rw [if_pos hbig]
    by_cases hrest : MIN_CHUNK_SIZE ≤ n - nb
    · obtain ⟨b, rfl⟩ := Nat.exists_eq_add_of_le hbig
      rw [Nat.add_sub_cancel_left] at hrest ⊢
      have h16 : 16 ∣ b := (Nat.dvd_add_right hnb).mp hchunk.2.1
      obtain ⟨s', bs', hcall, hres⟩ := give_back_spec h hp hnb hnb' hrest
        (cutMem_forward _ hnb h16 (by omega) (by omega))
      simp only [if_pos hrest, hcall, bind, Except.bind]
      exact .inr ⟨nb, s', bs', rfl, hroom, le_refl _, by omega, hres⟩
    · rw [if_neg hrest]
      refine .inr ⟨n, s, _, rfl, hroom, hbig, by omega, h, fun q k => ?_, fun _ _ _ _ _ _ => rfl, fun _ _ _ => rfl⟩
      constructor
      · intro hq
        by_cases hqp : q = p
        · subst hqp
          exact .inr ⟨rfl, (hq.unique h.pos hp).1⟩
        · exact .inl ⟨hq, hqp⟩
      · rintro (⟨hq, -⟩ | ⟨rfl, rfl⟩)
        · exact hq
        · exact hp
  · rw [if_neg hbig]
    have hlt := not_le.mp hbig
    cases post with
    | nil =>
      have htop : p + n = s.top := by
        rw [h.top, hpre]
        simp [Nat.add_assoc]
      rw [if_pos htop]
      exact extend_into_top_spec h hpre hnb hnb' hlt
    | cons b rest =>
      obtain ⟨k, t⟩ := b
      have hat : At Y.base (pre ++ (n, Tag.used) :: (k, t) :: rest) (p + n) k t := by
        rw [at_append, at_cons, at_cons, ← hpre]
        exact .inr (.inr (.inl ⟨rfl, rfl, rfl⟩))
      have hk := h.chunk hat
      have hntop : ¬ p + n = s.top := by omega
      rw [if_neg hntop]
      obtain rfl | rfl : t = .used ∨ t = .free := h.tags (k, t) hat.mem
      · -- a chunk in use is behind
        have hndv : ¬ p + n = s.dv := by
          intro heq
          rcases h.dv with ⟨hz, -⟩ | hdv
          · omega
          · rw [← heq] at hdv
            cases (hdv.unique h.pos hat).2
        have hcin : ¬ cinuse s.mem (p + n) = false := by
          rw [cinuse, hnext]
          simp
        rw [if_neg hndv, if_neg hcin]
        exact .inl ⟨rfl, (noRoomBehind_iff h hlt (at_behind hpre)).mpr (by simp)⟩
      · have hcin : cinuse s.mem (p + n) = false := by
          rw [cinuse, hnext]
          rfl
        by_cases hdv : p + n = s.dv
        · have hdvsize : s.dvsize = k := by
            have hdvat := h.dv_at fun hz => by
              have := h.dv_zero hz
              omega
            rw [← hdv] at hdvat
            exact (hdvat.unique h.pos hat).1
          subst hdvsize
          rw [if_pos hdv]
          exact extend_into_dv_spec h hpre hdv hnb hnb' hlt
        · rw [if_neg hdv, if_pos hcin]
          exact extend_into_free_spec h hpre hdv hnb hnb' hlt

end

/-! ## The bytes of a user -/

section
variable {Y : Sys} {s s' : MState} {bs bs' : List (ℕ × Tag)} {p q n m k i len x : ℕ} {mem mem' : Mem} {src : ℕ → ℕ}

theorem chunk2mem_dvd (h : 16 ∣ p) : 8 ∣ chunk2mem p := by
  unfold chunk2mem TWO_SIZE_T_SIZES SIZE_T_SIZE
  omega

theorem byte_payload (hp : 16 ∣ p) (hn : 16 ∣ n) (hi : i + CHUNK_OVERHEAD < n)
    (heq : ∀ x, Payload p n x → mem' x = mem x) : byte mem' (chunk2mem p + i) = byte mem (chunk2mem p + i) := by
  refine byte_congr (heq _ ⟨?_, ?_⟩) <;>
  · unfold chunk2mem TWO_SIZE_T_SIZES SIZE_T_SIZE
    unfold CHUNK_OVERHEAD SIZE_T_SIZE at hi
    omega

/-- bytes that the chunk holds are its user's -/
theorem write_of_not_payload (hn : 16 ∣ m) (hlen : len + CHUNK_OVERHEAD ≤ m) (hx : ¬ Payload q m x) :
    write mem (chunk2mem q) len src x = mem x := by
  refine if_neg fun hin => hx ?_
  unfold Payload
  unfold chunk2mem at hin
  unfold CHUNK_OVERHEAD TWO_SIZE_T_SIZES SIZE_T_SIZE at *
  omega

theorem InvOn.user_bytes {F : Set ℕ} (src : ℕ → ℕ) (h : InvOn Y s bs F) (hq : At Y.base bs q m .used)
    (hlen : len + CHUNK_OVERHEAD ≤ m) : InvOn Y { s with mem := write s.mem (chunk2mem q) len src } bs F :=
  h.user_write hq fun _ hx => write_of_not_payload (h.chunk hq).2.1 hlen hx

/-- no two chunks share a word of a user -/
theorem payload_apart (hpos : ∀ b ∈ bs, 0 < b.1) (hp : At Y.base bs p n .used) (hq : At Y.base bs q k .used) (hne : p ≠ q)
    (hx : Payload p n x) : ¬ Payload q k x := by
  rintro ⟨h1, h2⟩
  obtain ⟨h3, h4⟩ := hx
  unfold TWO_SIZE_T_SIZES SIZE_T_SIZE at h1 h3
  rcases hp.disjoint hpos hq with ⟨heq, -⟩ | h | h
  · exact hne heq
  · omega
  · omega

end

/-! ## dlrealloc -/

section
variable {Y : Sys} {s : MState} {bs : List (ℕ × Tag)} {p n bytes : ℕ}

/-- the chunk p of size n has been replaced by q of size m, which may be the same chunk, with the bytes of its user -/
structure Moved (Y : Sys) (s s' : MState) (bs bs' : List (ℕ × Tag)) (p n q m bytes : ℕ) : Prop where
  inv : Inv Y s' bs'
  fits : request2size bytes ≤ m
  tight : m < request2size bytes + MIN_CHUNK_SIZE
  new : q ≠ p → ∀ k, ¬ At Y.base bs q k .used
  live : ∀ r k, At Y.base bs' r k .used ↔ (At Y.base bs r k .used ∧ r ≠ p) ∨ (r = q ∧ k = m)
  data : ∀ r k, At Y.base bs r k .used → r ≠ p → ∀ x, Payload r k x → s'.mem x = s.mem x
  kept : ∀ i, i < bytes → i + CHUNK_OVERHEAD < n → byte s'.mem (chunk2mem q + i) = byte s.mem (chunk2mem p + i)

theorem chunk2mem_ne_null : chunk2mem p ≠ NULL := by
  unfold chunk2mem NULL TWO_SIZE_T_SIZES SIZE_T_SIZE
  omega

/-- **Reallocation.** The bytes of the user are where the returned pointer is, and nothing changes for the others. If it
fails then there is no room behind the chunk nor anywhere else. -/
theorem dlrealloc_spec (h : Inv Y s bs) (hp : At Y.base bs p n .used) (hreq : TameReq bytes) :
    (∃ s', dlrealloc Y s (chunk2mem p) bytes = .ok (NULL, s') ∧
        ((MAX_REQUEST ≤ bytes ∧ s' = s) ∨
          (NoRoomBehind Y s bs p n (request2size bytes) ∧ Failed Y s s' bs (request2size bytes) ∧
            (Y.length < 2 ^ 40 → NoneFits Y s bs (request2size bytes))))) ∨
      ∃ q m s' bs', dlrealloc Y s (chunk2mem p) bytes = .ok (chunk2mem q, s') ∧ bytes < MAX_REQUEST ∧
        Moved Y s s' bs bs' p n q m bytes := by
  have hmem2 : mem2chunk (chunk2mem p) = p := Nat.add_sub_cancel ..
  have hchunk := h.chunk hp
  unfold dlrealloc
  rw [if_neg chunk2mem_ne_null]
  by_cases hmax : MAX_REQUEST ≤ bytes
  · rw [if_pos hmax]
    exact .inl ⟨s, rfl, .inl ⟨hmax, rfl⟩⟩
  obtain ⟨hmin, h16, hlo, hhi⟩ := request2size_spec (not_le.mp hmax)
  rw [if_neg hmax, hmem2]
  rcases try_realloc_chunk_spec h hp h16 hmin with ⟨hcall, hroom⟩ | ⟨m, s', bs', hcall, -, hfits, htight, hres⟩
  · have hz : ¬ NULL ≠ 0 := not_not.mpr rfl
    simp only [hcall, bind, Except.bind, if_neg hz]
    rcases dlmalloc_spec (.inl h) hreq with ⟨s', hmalloc, hfail⟩ | ⟨q, m, s₁, bs₁, hmalloc, -, hall⟩
    · have hz' : ¬ NULL ≠ NULL := not_not.mpr rfl
      simp only [hmalloc, if_neg hz']
      refine .inl ⟨s', rfl, .inr ⟨hroom, ?_⟩⟩
      exact hfail.resolve_left fun hbig => hmax hbig.1
    · have hp₁ : At Y.base bs₁ p n .used := (hall.live ..).mpr (.inl hp)
      have hq₁ : At Y.base bs₁ q m .used := (hall.live ..).mpr (.inr ⟨rfl, rfl⟩)
      have hqp : q ≠ p := fun heq => hall.new n (heq ▸ hp)
      have hover : overhead_for s₁.mem p = CHUNK_OVERHEAD := by
        obtain ⟨_, hok⟩ := hall.inv.layout_bs.at hp₁
        rw [overhead_for, is_mmapped, cinuse, hok.head_eq]
        simp
      have hoc : chunksize s₁.mem p - overhead_for s₁.mem p = n - CHUNK_OVERHEAD := by
        rw [hover, hall.inv.chunksize_eq hp₁]
      obtain ⟨len, hlen⟩ : ∃ len, (if n - CHUNK_OVERHEAD < bytes then n - CHUNK_OVERHEAD else bytes) = len := ⟨_, rfl⟩
      have hfits := hall.fits
      have hlen' : len + CHUNK_OVERHEAD ≤ m := by
        split_ifs at hlen <;> omega
      have hm := hall.inv.chunk hq₁
      have hwritten := hall.inv.user_bytes (fun o => s₁.mem (chunk2mem p + o)) hq₁ hlen'
      obtain ⟨s', bs', hfree, hfreed⟩ := dlfree_spec hwritten hp₁
      have hne := chunk2mem_ne_null (p := q)
      simp only [hmalloc, if_pos hne, hoc, hlen]
      refine .inr ⟨q, m, s', bs', ?_, not_le.mp hmax, hfreed.inv, hfits, hall.tight, fun _ => hall.new, fun r k => ?_,
        fun r k hr hne x hx => ?_, fun i hi hi' => ?_⟩
      · unfold memcpy
        rw [hfree]
      · rw [hfreed.live, hall.live]
        constructor
        · rintro ⟨hr | hr, hne⟩
          · exact .inl ⟨hr, hne⟩
          · exact .inr hr
        · rintro (⟨hr, hne⟩ | ⟨rfl, rfl⟩)
          · exact ⟨.inl hr, hne⟩
          · exact ⟨.inr ⟨rfl, rfl⟩, hqp⟩
      · have hr₁ := (hall.live r k).mpr (.inl hr)
        have hrq : r ≠ q := fun heq => hall.new k (heq ▸ hr)
        rw [hfreed.data r k hr₁ hne x hx, ← hall.data r k hr x hx]
        dsimp only
        exact write_of_not_payload hm.2.1 hlen' (payload_apart hall.inv.pos hr₁ hq₁ hrq hx)
      · have hilen : i < len := by
          split_ifs at hlen <;> omega
        calc byte s'.mem (chunk2mem q + i)
            = byte (write s₁.mem (chunk2mem q) len fun o => s₁.mem (chunk2mem p + o)) (chunk2mem q + i) :=
              byte_payload hm.1 hm.2.1 (by omega) (hfreed.data q m hq₁ hqp)
          _ = byte s₁.mem (chunk2mem p + i) := byte_copy (chunk2mem_dvd hm.1) (chunk2mem_dvd hchunk.1) hilen
          _ = byte s.mem (chunk2mem p + i) := byte_payload hchunk.1 hchunk.2.1 hi' (hall.data p n hp)
  · have hp0 : p ≠ 0 := by
      have := Y.base_pos'
      omega
    have hq : At Y.base bs' p m .used := (hres.live ..).mpr (.inr ⟨rfl, rfl⟩)
    have hm := hres.inv.chunk hq
    simp only [hcall, bind, Except.bind, if_pos hp0]
    refine .inr ⟨p, m, s', bs', rfl, not_le.mp hmax, hres.inv, hfits, htight, fun hne => absurd rfl hne, hres.live,
      hres.data, fun i hi hi' => ?_⟩
    -- the byte is in both sizes
    refine byte_payload (n := min n m) hchunk.1 ?_ (by omega) fun x hx => ?_
    · rcases min_choice n m with hmin | hmin <;> rw [hmin]
      · exact hchunk.2.1
      · exact hm.2.1
    · exact hres.own x ⟨hx.1, hx.2.trans (by omega)⟩ ⟨hx.1, hx.2.trans (by omega)⟩

end

/-! ## dlcalloc -/

section
variable {Y : Sys} {s : MState} {bs : List (ℕ × Tag)} {n_elements elem_size : ℕ}

/-- a product that does not fit is found by the division -/
theorem calloc_req_eq (hn : n_elements < 2 ^ 64) (he : elem_size < 2 ^ 64) : calloc_req n_elements elem_size =
    if n_elements * elem_size < 2 ^ 64 then n_elements * elem_size else MAX_SIZE_T := by
  unfold calloc_req
  by_cases hz : n_elements = 0
  · simp [hz]
  · have hpos : 0 < n_elements := Nat.pos_of_ne_zero hz
    rw [if_pos hz]
    by_cases hfit : n_elements * elem_size < 2 ^ 64
    · rw [if_pos hfit]
      simp only [Nat.mod_eq_of_lt hfit, Nat.mul_div_cancel_left _ hpos]
      simp
    · have hover : 2 ^ 16 ≤ n_elements ||| elem_size := by
        by_contra hlt
        have h1 := Nat.left_le_or (n := n_elements) (m := elem_size)
        have h2 := Nat.right_le_or (n := n_elements) (m := elem_size)
        have := Nat.mul_le_mul (show n_elements ≤ 2 ^ 16 by omega) (show elem_size ≤ 2 ^ 16 by omega)
        omega
      have hdiv : n_elements * elem_size % 2 ^ 64 / n_elements ≠ elem_size := by
        intro heq
        have h1 := Nat.mul_div_le (n_elements * elem_size % 2 ^ 64) n_elements
        rw [heq] at h1
        have := Nat.mod_lt (n_elements * elem_size) (show 0 < 2 ^ 64 by decide)
        omega
      simp only [if_pos (And.intro hover hdiv), if_neg hfit]

theorem dlmalloc_max {bytes : ℕ} (h : Valid Y s bs) (hmax : MAX_REQUEST ≤ bytes) :
    dlmalloc Y s bytes = .ok (NULL, s) := by
  have hsmall : ¬ bytes ≤ MAX_SMALL_REQUEST := by
    rw [max_request_eq] at hmax
    rw [max_small_request_eq]
    omega
  rw [dlmalloc, if_neg hsmall, if_pos hmax]
  exact malloc_rest_max h

/-- **Allocation of elements.** As for a call with the product, which is not allowed to overflow, and the bytes are 0. -/
theorem dlcalloc_spec (h : Valid Y s bs) (hn : n_elements < 2 ^ 64) (he : elem_size < 2 ^ 64)
    (hreq : TameReq (n_elements * elem_size)) :
    (∃ s', dlcalloc Y s n_elements elem_size = .ok (NULL, s') ∧
        ((MAX_REQUEST ≤ n_elements * elem_size ∧ s' = s) ∨
          (Failed Y s s' bs (request2size (n_elements * elem_size)) ∧
            (Y.length < 2 ^ 40 → NoneFits Y s bs (request2size (n_elements * elem_size)))))) ∨
      ∃ p m s' bs', dlcalloc Y s n_elements elem_size = .ok (chunk2mem p, s') ∧ n_elements * elem_size < MAX_REQUEST ∧
        Allocated Y s s' bs bs' (request2size (n_elements * elem_size)) p m ∧
        ∀ i, i < n_elements * elem_size → byte s'.mem (chunk2mem p + i) = 0 := by
  have hz : ¬ NULL ≠ NULL := not_not.mpr rfl
  have hmax := max_request_eq
  unfold dlcalloc
  rw [calloc_req_eq hn he]
  generalize n_elements * elem_size = req at *
  by_cases hfit : req < 2 ^ 64
  · simp only [if_pos hfit]
    rcases dlmalloc_spec h hreq with ⟨s', hmalloc, hfail⟩ | ⟨p, m, s₁, bs₁, hmalloc, hlt, hall⟩
    · simp only [hmalloc, bind, Except.bind, if_neg hz]
      exact .inl ⟨s', rfl, hfail⟩
    · have hp₁ : At Y.base bs₁ p m .used := (hall.live ..).mpr (.inr ⟨rfl, rfl⟩)
      have hm := hall.inv.chunk hp₁
      have hlo := (request2size_spec hlt).2.2.1
      have hfits := hall.fits
      have hlen : req + CHUNK_OVERHEAD ≤ m := by omega
      have hne := chunk2mem_ne_null (p := p)
      simp only [hmalloc, bind, Except.bind, if_pos hne]
      refine .inr ⟨p, m, _, bs₁, rfl, hlt, ⟨hall.inv.user_bytes _ hp₁ hlen, hfits, hall.tight, hall.new, hall.live,
        fun q k hq x hx => ?_⟩, fun i hi => ?_⟩
      · have hqp : q ≠ p := fun heq => hall.new k (heq ▸ hq)
        rw [← hall.data q k hq x hx]
        unfold memset
        dsimp only
        exact write_of_not_payload hm.2.1 hlen
          (payload_apart hall.inv.pos ((hall.live q k).mpr (.inl hq)) hp₁ hqp hx)
      · unfold memset
        dsimp only
        rw [byte_write (chunk2mem_dvd hm.1), if_pos ⟨by omega, by omega⟩]
        simp
  · simp only [if_neg hfit]
    simp only [dlmalloc_max h (show MAX_REQUEST ≤ MAX_SIZE_T by decide), bind, Except.bind, if_neg hz]
    exact .inl ⟨s, rfl, .inl ⟨by omega, rfl⟩⟩

end

end SandiaShmem.Heap
