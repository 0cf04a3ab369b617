/-
Allocation (`dlmalloc` in `src/malloc.c`): a small request from a small bin, the dv or a tree bin, a large one from a
tree bin or the dv, and either of them from the top chunk, which gets memory from the system if it is too small.
-/
import SandiaShmem.Heap.Search
import SandiaShmem.Heap.System

namespace SandiaShmem.Heap

open BitScan BitTrie LinkedTrie Blocks

/-! ## Model -/

/-- a chunk from the dv -/
def use_dv (s : MState) (nb : ℕ) : ℕ × MState :=
  let rsize := s.dvsize - nb
  let p := s.dv
  if MIN_CHUNK_SIZE ≤ rsize then
    -- split dv
    let r := p + nb
    let mem := set_size_and_pinuse_of_free_chunk s.mem r rsize
    (chunk2mem p, { s with dv := r, dvsize := rsize, mem := set_size_and_pinuse_of_inuse_chunk mem p nb })
  else
    -- exhaust dv
    (chunk2mem p, { s with dvsize := 0, dv := 0, mem := set_inuse_and_pinuse s.mem p s.dvsize })

/-- `if (DVS != 0) insert_small_chunk(M, DV, DVS)` -/
def bin_dv (Y : Sys) (s : MState) : Except Stop MState :=
  if s.dvsize ≠ 0 then insert_small_chunk Y s s.dv s.dvsize else .ok s

/-- the old dv goes to its bin -/
def replace_dv (Y : Sys) (s : MState) (P S : ℕ) : Except Stop MState := do
  let s ← bin_dv Y s
  .ok { s with dvsize := S, dv := P }

/-- `Remainderless fit to a smallbin` -/
def small_exact (Y : Sys) (s : MState) (idx : ℕ) : Res := do
  let b := smallbin_at Y idx
  let p := link s.mem .fd b
  let s ← unlink_first_small_chunk s b p idx
  .ok (chunk2mem p, { s with mem := set_inuse_and_pinuse s.mem p (small_index2size idx) })

/-- `Use chunk in next nonempty smallbin` -/
def small_next (Y : Sys) (s : MState) (nb i : ℕ) : Res := do
  let b := smallbin_at Y i
  let p := link s.mem .fd b
  let s ← unlink_first_small_chunk s b p i
  let rsize := small_index2size i - nb
  if rsize < MIN_CHUNK_SIZE then
    .ok (chunk2mem p, { s with mem := set_inuse_and_pinuse s.mem p (small_index2size i) })
  else
    let r := p + nb
    let mem := set_size_and_pinuse_of_inuse_chunk s.mem p nb
    let s ← replace_dv Y { s with mem := set_size_and_pinuse_of_free_chunk mem r rsize } r rsize
    .ok (chunk2mem p, s)

/-- NULL if the dv is a better fit -/
def tmalloc_large (Y : Sys) (s : MState) (nb : ℕ) : Res := do
  let (v, rsize) ← findLarge Y s nb
  if v ≠ 0 ∧ rsize < sub s.dvsize nb then
    if ok_address s v ∧ v < v + nb then do
      let s ← unlink_large_chunk Y s v
      if rsize < MIN_CHUNK_SIZE then
        .ok (chunk2mem v, { s with mem := set_inuse_and_pinuse s.mem v (rsize + nb) })
      else
        let r := v + nb
        let mem := set_size_and_pinuse_of_free_chunk (set_size_and_pinuse_of_inuse_chunk s.mem v nb) r rsize
        let s ← insert_chunk Y { s with mem } r rsize
        .ok (chunk2mem v, s)
    else .error .corruption
  else .ok (NULL, s)

def tmalloc_small (Y : Sys) (s : MState) (nb : ℕ) : Res := do
  let (v, rsize) ← findSmall Y s nb
  if ok_address s v ∧ v < v + nb then do
    let s ← unlink_large_chunk Y s v
    if rsize < MIN_CHUNK_SIZE then
      .ok (chunk2mem v, { s with mem := set_inuse_and_pinuse s.mem v (rsize + nb) })
    else
      let r := v + nb
      let mem := set_size_and_pinuse_of_free_chunk (set_size_and_pinuse_of_inuse_chunk s.mem v nb) r rsize
      let s ← replace_dv Y { s with mem } r rsize
      .ok (chunk2mem v, s)
  else .error .corruption

/-- from the dv, the top chunk, or the system -/
def malloc_rest (Y : Sys) (s : MState) (nb : ℕ) : Res :=
  if nb ≤ s.dvsize then .ok (use_dv s nb)
  else if nb < s.topsize then .ok (split_top s nb)
  else sys_alloc Y s nb

def malloc_small (Y : Sys) (s : MState) (nb : ℕ) : Res :=
  let idx := small_index nb
  let smallbits := s.smallmap >>> idx
  if smallbits &&& 3 ≠ 0 then small_exact Y s (idx + (~~~smallbits &&& 1).toNat)
  else if s.dvsize < nb then
    if smallbits ≠ 0 then
      let leftbits := (smallbits <<< idx) &&& leftBits (single 32 idx)
      small_next Y s nb (ctz (leastBit leftbits))
    else if s.treemap ≠ 0 then do
      let (mem, s) ← tmalloc_small Y s nb
      if mem ≠ NULL then .ok (mem, s) else malloc_rest Y s nb
    else malloc_rest Y s nb
  else malloc_rest Y s nb

def malloc_large (Y : Sys) (s : MState) (nb : ℕ) : Res :=
  if s.treemap ≠ 0 then do
    let (mem, s) ← tmalloc_large Y s nb
    if mem ≠ NULL then .ok (mem, s) else malloc_rest Y s nb
  else malloc_rest Y s nb

def dlmalloc (Y : Sys) (s : MState) (bytes : ℕ) : Res :=
  if bytes ≤ MAX_SMALL_REQUEST then
    malloc_small Y s (if bytes < MIN_REQUEST then MIN_CHUNK_SIZE else pad_request bytes)
  else if MAX_REQUEST ≤ bytes then malloc_rest Y s MAX_SIZE_T
  else malloc_large Y s (pad_request bytes)

/-! ## Chunks from bins -/

section
variable {Y : Sys} {s s₁ : MState} {bs : List (ℕ × Tag)} {p n m nb i : ℕ} {F : Set ℕ}

/-- another chunk than the dv leaves the dv as it is -/
theorem InvOn.dv_other (h : InvOn Y s bs F) (hne : p ≠ s.dv) :
    (s.dv = 0 ∧ s.dvsize = 0) ∨ (At Y.base bs s.dv s.dvsize .free ∧ s.dv ≠ p) :=
  h.dv.imp_right fun hat => ⟨hat, hne.symm⟩

theorem InvOn.dv_zero (h : InvOn Y s bs F) (hz : s.dvsize = 0) : s.dv = 0 := by
  rcases h.dv with hdv | hat
  · exact hdv.1
  · have := (h.chunk hat).2.2.1
    omega

/-- the free chunks without the dv, if there is none -/
theorem InvOn.frees_zero (h : InvOn Y s bs F) : frees Y.base bs \ {0} = frees Y.base bs :=
  Set.sdiff_singleton_eq_self h.zero_notMem

/-- the old dv goes to a small bin -/
theorem AllocatedOn.bin_dv {s' : MState} {bs' : List (ℕ × Tag)} (h : AllocatedOn Y s s' bs bs' F nb p m)
    (hdvF : s'.dv ∉ F) (hsmall : s'.dvsize < MIN_LARGE_SIZE) :
    ∃ s₁, Heap.bin_dv Y s' = .ok s₁ ∧
      AllocatedOn Y s s₁ bs bs' (if s'.dvsize = 0 then F else insert s'.dv F) nb p m := by
  unfold Heap.bin_dv
  by_cases hz : s'.dvsize = 0
  · rw [if_neg (not_not.mpr hz), if_pos hz]
    exact ⟨s', rfl, h⟩
  · obtain ⟨s₁, hop, -, hall⟩ := h.enter (h.inv.dv_at hz) hdvF
    rw [insert_chunk, if_pos (is_small_iff.mpr hsmall)] at hop
    rw [if_pos hz, if_neg hz]
    exact ⟨s₁, hop, hall⟩

/-- a free chunk that has left its bin is taken as it is -/
theorem InvOn.take_unbinned_whole (h : InvOn Y s bs F) (hF : F = (frees Y.base bs \ {s.dv}) \ {p})
    (hp : At Y.base bs p n .free) (hpdv : p ≠ s.dv) (hfits : nb ≤ n) (htight : n < nb + MIN_CHUNK_SIZE) :
    ∃ bs', Allocated Y s { s with mem := set_inuse_and_pinuse s.mem p n } bs bs' nb p n := by
  obtain ⟨bs', hfrees, hall⟩ := h.take_whole s.dv s.dvsize hp (by simp [hF]) (h.dv_other hpdv) hfits htight
  exact ⟨bs', hall.done (by rw [hF, hfrees, sdiff_right_comm])⟩

/-- or it is cut in two, and the rest is the new dv -/
theorem InvOn.take_unbinned_dv {mem' : Mem} (h : InvOn Y s bs F) (hF : F = (frees Y.base bs \ {s.dv}) \ {p})
    (hp : At Y.base bs p (nb + m) .free) (hpdv : p ≠ s.dv) (hn : 16 ∣ nb) (hn' : MIN_CHUNK_SIZE ≤ nb)
    (hm : MIN_CHUNK_SIZE ≤ m) (hsmall : s.dvsize < MIN_LARGE_SIZE)
    (hmem : mem' = set_size_and_pinuse_of_free_chunk (set_size_and_pinuse_of_inuse_chunk s.mem p nb) (p + nb) m) :
    ∃ s' bs', replace_dv Y { s with mem := mem' } (p + nb) m = .ok s' ∧ Allocated Y s s' bs bs' nb p nb := by
  obtain ⟨bs', hfrees, hnot, hrest, -, hall⟩ := h.take_carve s.dv s.dvsize hp (by simp [hF]) hn hn' hm hmem
    ((h.dv_other hpdv).imp_right .inl)
  obtain ⟨s₁, hop, hall₁⟩ := hall.bin_dv (by simp [hF]) hsmall
  have hset : (if s.dvsize = 0 then F else insert s.dv F) = frees Y.base bs \ {p} := by
    by_cases hz : s.dvsize = 0
    · rw [if_pos hz, hF, h.dv_zero hz, h.frees_zero]
    · have hmem : s.dv ∈ frees Y.base bs \ {p} := ⟨⟨_, h.dv_at hz⟩, hpdv.symm⟩
      rw [if_neg hz, hF, sdiff_right_comm, Set.insert_sdiff_singleton, Set.insert_eq_of_mem hmem]
  refine ⟨_, bs', by simp only [replace_dv, hop, bind, Except.bind], (hall₁.set_dv (p + nb) m (.inr hrest)).done ?_⟩
  dsimp only
  rw [hset, hfrees, Set.insert_sdiff_self_of_notMem fun hmem' => hnot hmem'.1]

/-- or the rest goes to its bin -/
theorem InvOn.take_unbinned_bin {mem' : Mem} (h : InvOn Y s bs F) (hF : F = (frees Y.base bs \ {s.dv}) \ {p})
    (hp : At Y.base bs p (nb + m) .free) (hpdv : p ≠ s.dv) (hn : 16 ∣ nb) (hn' : MIN_CHUNK_SIZE ≤ nb)
    (hm : MIN_CHUNK_SIZE ≤ m)
    (hmem : mem' = set_size_and_pinuse_of_free_chunk (set_size_and_pinuse_of_inuse_chunk s.mem p nb) (p + nb) m) :
    ∃ s' bs', insert_chunk Y { s with mem := mem' } (p + nb) m = .ok s' ∧ Allocated Y s s' bs bs' nb p nb := by
  obtain ⟨bs', hfrees, hnot, hrest, -, hall⟩ := h.take_carve s.dv s.dvsize hp (by simp [hF]) hn hn' hm hmem
    ((h.dv_other hpdv).imp_right .inl)
  obtain ⟨s', hop, hr, hall'⟩ := hall.enter hrest (fun hmem' => hnot (h.free hmem'))
  have hdv : p + nb ∉ ({s.dv} : Set ℕ) := by
    intro hdv
    rcases h.dv with ⟨hz, -⟩ | hat
    · have hzero : p + nb = 0 := (Set.mem_singleton_iff.mp hdv).trans hz
      unfold MIN_CHUNK_SIZE at hn'
      omega
    · exact hnot (Set.mem_singleton_iff.mp hdv ▸ ⟨_, hat⟩)
  refine ⟨s', bs', hop, hall'.done ?_⟩
  rw [hr.dv, hfrees, hF, Set.insert_sdiff_of_notMem _ hdv, sdiff_right_comm]

/-- a chunk of the very size from a small bin -/
theorem small_exact_spec (h : Inv Y s bs) (hi : s.smallmap.getLsbD i = true) (hfits : nb ≤ small_index2size i)
    (htight : small_index2size i < nb + MIN_CHUNK_SIZE) :
    ∃ p s' bs', small_exact Y s i = .ok (chunk2mem p, s') ∧ Allocated Y s s' bs bs' nb p (small_index2size i) := by
  obtain ⟨p, s₁, hfd, hp, hsize, hun, hr, h₁⟩ := h.first hi
  have hat := h.free_size hp.1
  rw [hsize] at hat
  obtain ⟨bs', hall⟩ := h₁.take_unbinned_whole (by rw [hr.dv]) hat (hr.dv ▸ hp.2) hfits htight
  exact ⟨p, _, bs', by simp only [small_exact, hfd, hun, bind, Except.bind], hall.of_relinked h hr⟩

/-- a larger chunk from a small bin -/
theorem small_next_spec (h : Inv Y s bs) (hi : s.smallmap.getLsbD i = true) (hfits : nb ≤ small_index2size i)
    (hn : 16 ∣ nb) (hn' : MIN_CHUNK_SIZE ≤ nb) (hsmall : s.dvsize < MIN_LARGE_SIZE) :
    ∃ p m s' bs', small_next Y s nb i = .ok (chunk2mem p, s') ∧ Allocated Y s s' bs bs' nb p m := by
  obtain ⟨p, s₁, hfd, hp, hsize, hun, hr, h₁⟩ := h.first hi
  have hat := h.free_size hp.1
  rw [hsize] at hat
  have hpdv : p ≠ s₁.dv := hr.dv ▸ hp.2
  by_cases hrest : small_index2size i - nb < MIN_CHUNK_SIZE
  · obtain ⟨bs', hall⟩ := h₁.take_unbinned_whole (by rw [hr.dv]) hat hpdv hfits (by omega)
    exact ⟨p, _, _, bs', by simp only [small_next, hfd, hun, bind, Except.bind, if_pos hrest], hall.of_relinked h hr⟩
  · rw [← Nat.add_sub_cancel' hfits] at hat
    obtain ⟨s', bs', hdv, hall⟩ := h₁.take_unbinned_dv (by rw [hr.dv]) hat hpdv hn hn' (not_lt.mp hrest)
      (hr.dvsize ▸ hsmall) rfl
    exact ⟨p, _, s', bs', by simp only [small_next, hfd, hun, bind, Except.bind, if_neg hrest, hdv], hall.of_relinked h hr⟩

/-! ## Chunks from tree bins -/

theorem InvOn.address_ok (h : InvOn Y s bs F) (hp : p ∈ frees Y.base bs) (hpos : 0 < nb) :
    ok_address s p = true ∧ p < p + nb :=
  ⟨decide_eq_true (h.least_le p hp), by omega⟩

/-- a chunk from a tree bin leaves it -/
theorem Inv.unlink_large (h : Inv Y s bs) (hp : Large Y s bs p) :
    ∃ s₁, unlink_large_chunk Y s p = .ok s₁ ∧ Relinked Y (frees Y.base bs \ {s.dv}) s s₁ ∧
      InvOn Y s₁ bs ((frees Y.base bs \ {s.dv}) \ {p}) := by
  obtain ⟨s₁, hun, hr, h₁⟩ := h.unlink hp.1 rfl
  rw [unlink_chunk, if_neg (by rw [is_small_iff]; exact not_lt.mpr hp.2)] at hun
  exact ⟨s₁, hun, hr, h₁⟩

theorem tmalloc_small_spec (h : Inv Y s bs) (hmap : s.treemap ≠ 0) (hn : 16 ∣ nb) (hn' : MIN_CHUNK_SIZE ≤ nb)
    (hnb : nb < MIN_LARGE_SIZE) (hsmall : s.dvsize < MIN_LARGE_SIZE) :
    ∃ p m s' bs', tmalloc_small Y s nb = .ok (chunk2mem p, s') ∧ Allocated Y s s' bs bs' nb p m := by
  have hpos : 0 < nb := by
    unfold MIN_CHUNK_SIZE at hn'
    omega
  obtain ⟨b, hb⟩ := h.binned
  rw [← hb.treemap] at hmap
  obtain ⟨v, rsize, hbest, hlarge, hsize⟩ := bestSmall_spec h hb hmap hnb.le hpos
  have hfind := findSmall_eq h hb hmap hnb.le hpos
  have hptr : Fit.ptr (some v, rsize) = (v, rsize) := rfl
  rw [hbest, hptr] at hfind
  have hat := h.free_size hlarge.1.1
  rw [← hsize] at hat
  obtain ⟨s₁, hun, hr, h₁⟩ := h.unlink_large hlarge
  have hok := h.address_ok hlarge.1.1 hpos
  have hpdv : v ≠ s₁.dv := hr.dv ▸ hlarge.1.2
  unfold tmalloc_small
  simp only [hfind, bind, Except.bind, if_pos hok, hun]
  by_cases hrest : rsize < MIN_CHUNK_SIZE
  · obtain ⟨bs', hall⟩ := h₁.take_unbinned_whole (by rw [hr.dv]) hat hpdv (Nat.le_add_right ..) (by omega)
    rw [if_pos hrest, Nat.add_comm rsize]
    exact ⟨v, _, _, bs', rfl, hall.of_relinked h hr⟩
  · obtain ⟨s', bs', hdv, hall⟩ := h₁.take_unbinned_dv (by rw [hr.dv]) hat hpdv hn hn' (not_lt.mp hrest)
      (hr.dvsize ▸ hsmall) rfl
    rw [if_neg hrest, hdv]
    exact ⟨v, _, s', bs', rfl, hall.of_relinked h hr⟩

theorem tmalloc_large_spec {b : Bins} (h : Inv Y s bs) (hb : BinsOf Y s bs b) (hn : 16 ∣ nb) (hn' : MIN_CHUNK_SIZE ≤ nb)
    (hlt : nb < 2 ^ 64) :
    (tmalloc_large Y s nb = .ok (NULL, s) ∧
        ∀ v, (b.bestLarge (chunksize s.mem) nb).1 = some v → sub s.dvsize nb ≤ (b.bestLarge (chunksize s.mem) nb).2) ∨
      ∃ p m s' bs', tmalloc_large Y s nb = .ok (chunk2mem p, s') ∧ Allocated Y s s' bs bs' nb p m := by
  have hpos : 0 < nb := by
    unfold MIN_CHUNK_SIZE at hn'
    omega
  have hspec := bestLarge_spec h hb hpos hlt
  have hfind := findLarge_eq h hb hpos hlt
  unfold tmalloc_large
  rw [hfind]
  generalize b.bestLarge (chunksize s.mem) nb = best at hspec ⊢
  obtain ⟨v, rsize⟩ := best
  cases v with
  | none =>
    have hptr : Fit.ptr (none, rsize) = (0, rsize) := rfl
    rw [hptr]
    refine .inl ⟨?_, nofun⟩
    simp only [bind, Except.bind, ne_eq, not_true_eq_false, false_and, if_false]
  | some v =>
    obtain ⟨hlarge, hsize⟩ := hspec v rfl
    have hv0 : v ≠ 0 := fun heq => h.zero_notMem (heq ▸ hlarge.1.1)
    have hptr : Fit.ptr (some v, rsize) = (v, rsize) := rfl
    rw [hptr]
    simp only [bind, Except.bind, ne_eq, hv0, not_false_eq_true, true_and]
    by_cases hbetter : rsize < sub s.dvsize nb
    · have hat := h.free_size hlarge.1.1
      rw [← hsize] at hat
      obtain ⟨s₁, hun, hr, h₁⟩ := h.unlink_large hlarge
      have hok := h.address_ok hlarge.1.1 hpos
      have hpdv : v ≠ s₁.dv := hr.dv ▸ hlarge.1.2
      simp only [if_pos hbetter, if_pos hok, hun]
      refine .inr ?_
      by_cases hrest : rsize < MIN_CHUNK_SIZE
      · obtain ⟨bs', hall⟩ := h₁.take_unbinned_whole (by rw [hr.dv]) hat hpdv (Nat.le_add_right ..)
          (Nat.add_lt_add_left hrest _)
        rw [if_pos hrest, Nat.add_comm rsize]
        exact ⟨v, _, _, bs', rfl, hall.of_relinked h hr⟩
      · obtain ⟨s', bs', hins, hall⟩ := h₁.take_unbinned_bin (by rw [hr.dv]) hat hpdv hn hn' (not_lt.mp hrest) rfl
        rw [if_neg hrest, hins]
        exact ⟨v, _, s', bs', rfl, hall.of_relinked h hr⟩
    · refine .inl ⟨by rw [if_neg hbetter], ?_⟩
      rintro _ ⟨⟩
      exact not_lt.mp hbetter

/-! ## The dv -/

/-- the two heads and the foot may be written in any order -/
theorem inuse_free_comm (mem : Mem) {m : ℕ} (hn : 16 ∣ n) (hpos : 0 < n) (hm : 16 ∣ m) :
    set_size_and_pinuse_of_inuse_chunk (set_size_and_pinuse_of_free_chunk mem (p + n) m) p n =
      set_size_and_pinuse_of_free_chunk (set_size_and_pinuse_of_inuse_chunk mem p n) (p + n) m := by
  unfold set_size_and_pinuse_of_inuse_chunk set_size_and_pinuse_of_free_chunk set_foot set_head put SIZE_T_SIZE
  rw [Function.update_comm (by omega), Function.update_comm (a := p + n + 8) (b := p + 8) (by omega)]

theorem use_dv_spec (h : Inv Y s bs) (hn : 16 ∣ nb) (hn' : MIN_CHUNK_SIZE ≤ nb) (hfits : nb ≤ s.dvsize) :
    ∃ m bs', (use_dv s nb).1 = chunk2mem s.dv ∧ Allocated Y s (use_dv s nb).2 bs bs' nb s.dv m := by
  have hpos : 0 < nb := by
    unfold MIN_CHUNK_SIZE at hn'
    omega
  have hat := h.dv_at (by omega)
  have hchunk := h.chunk hat
  have hdvF : s.dv ∉ frees Y.base bs \ {s.dv} := fun hmem => hmem.2 rfl
  unfold use_dv
  simp only
  by_cases hrest : MIN_CHUNK_SIZE ≤ s.dvsize - nb
  · rw [if_pos hrest]
    have hm : 16 ∣ s.dvsize - nb := Nat.dvd_sub hchunk.2.1 hn
    rw [inuse_free_comm s.mem hn hpos hm]
    have hat' := hat
    rw [← Nat.add_sub_cancel' hfits] at hat'
    obtain ⟨bs', hfrees, hnot, -, -, hall⟩ := h.take_carve (s.dv + nb) (s.dvsize - nb) hat' hdvF hn hn' hrest rfl
      (.inr (.inr ⟨rfl, rfl⟩))
    refine ⟨nb, bs', rfl, hall.done ?_⟩
    rw [hfrees, Set.insert_sdiff_self_of_notMem fun hmem => hnot hmem.1]
  · rw [if_neg hrest]
    obtain ⟨bs', hfrees, hall⟩ := h.take_whole 0 0 hat hdvF (.inl ⟨rfl, rfl⟩) hfits (by omega)
    refine ⟨_, bs', rfl, hall.done ?_⟩
    have h0 : 0 ∉ frees Y.base bs \ {s.dv} := fun hz => h.zero_notMem hz.1
    rw [hfrees, Set.sdiff_singleton_eq_self h0]

end

/-! ## dlmalloc -/

/-- between calls -/
def Valid (Y : Sys) (s : MState) (bs : List (ℕ × Tag)) : Prop := Inv Y s bs ∨ (Fresh Y s ∧ bs = [])

/-- requests for which the arithmetic of the break is right: those that are not near 2^63 -/
def TameReq (bytes : ℕ) : Prop := bytes ≤ 2 ^ 62 ∨ 3 * 2 ^ 62 ≤ bytes

/-- a call has failed: at most the way to get memory is another one from now on -/
structure Failed (Y : Sys) (s s' : MState) (bs : List (ℕ × Tag)) (nb : ℕ) : Prop where
  same : ∃ flag, s' = { s with noncontiguous := flag }
  top : s.topsize ≤ nb
  room : NoRoom Y s.footprint nb
  dv : s.dvsize < nb

section
variable {Y : Sys} {s : MState} {bs : List (ℕ × Tag)} {nb bytes : ℕ}

theorem malloc_rest_spec (h : Valid Y s bs) (hnb : Tame nb) (hlt : nb < 2 ^ 64) (hn : 16 ∣ nb) (hn' : MIN_CHUNK_SIZE ≤ nb) :
    (∃ s', malloc_rest Y s nb = .ok (NULL, s') ∧ Failed Y s s' bs nb) ∨
      ∃ p m s' bs', malloc_rest Y s nb = .ok (chunk2mem p, s') ∧ Allocated Y s s' bs bs' nb p m := by
  have hpos : 0 < nb := by
    unfold MIN_CHUNK_SIZE at hn'
    omega
  unfold malloc_rest
  rcases h with h | ⟨h, rfl⟩
  · by_cases hdv : nb ≤ s.dvsize
    · obtain ⟨m, bs', hp, hall⟩ := use_dv_spec h hn hn' hdv
      rw [if_pos hdv]
      exact .inr ⟨_, m, _, bs', by rw [← hp], hall⟩
    by_cases htop : nb < s.topsize
    · obtain ⟨bs', hp, hall⟩ := h.split_top hn hn' htop
      rw [if_neg hdv, if_pos htop]
      exact .inr ⟨_, nb, _, bs', by rw [← hp], hall⟩
    rw [if_neg hdv, if_neg htop]
    rcases sys_alloc_inv h hnb hlt hn hn' (not_lt.mp htop) with ⟨flag, hfail, hno⟩ | ⟨s', bs', heq, hall⟩
    · exact .inl ⟨_, hfail, ⟨flag, rfl⟩, not_lt.mp htop, h.footprint ▸ hno, not_le.mp hdv⟩
    · exact .inr ⟨_, nb, s', bs', heq, hall⟩
  · obtain ⟨-, htop, -, hdv, -, hfoot⟩ := h.zero
    rw [if_neg (by omega), if_neg (by omega)]
    rcases sys_alloc_fresh h hnb hlt hn hn' with ⟨flag, hfail, hno⟩ | ⟨s', bs', heq, hinv, hlive⟩
    · exact .inl ⟨_, hfail, ⟨flag, rfl⟩, by omega, hfoot ▸ hno, by omega⟩
    · exact .inr ⟨Y.base, nb, s', bs', heq, hinv, le_refl _, by unfold MIN_CHUNK_SIZE; omega, by simp,
        fun q k => by simp [hlive], fun q k hq => hq.elim⟩

/-- no chunk in the small bins is large enough -/
theorem Inv.small_none (h : Inv Y s bs) (hbits : s.smallmap >>> small_index nb = 0) :
    ∀ q ∈ frees Y.base bs \ {s.dv}, chunksize s.mem q < MIN_LARGE_SIZE → chunksize s.mem q < nb := by
  intro q hq hsmall
  by_contra hge
  obtain ⟨b, hb⟩ := h.binned
  have hmark := (hb.binned.small.all q ⟨hq, is_small_iff.mpr hsmall⟩).1
  rw [hb.smallmap] at hmark
  have hidx : small_index nb ≤ small_index (chunksize s.mem q) := by
    simp only [small_index, SMALLBIN_SHIFT, Nat.shiftRight_eq_div_pow]
    exact Nat.div_le_div_right (not_lt.mp hge)
  have hzero := eq_zero_iff.mp hbits (small_index (chunksize s.mem q) - small_index nb)
  rw [BitVec.getLsbD_ushiftRight, Nat.add_sub_cancel' hidx, hmark] at hzero
  have := BitVec.lt_of_getLsbD hmark
  exact absurd (hzero (by omega)) (by simp)

/-- no free chunk holds nb bytes -/
def NoneFits (Y : Sys) (s : MState) (bs : List (ℕ × Tag)) (nb : ℕ) : Prop :=
  ∀ q ∈ frees Y.base bs \ {s.dv}, chunksize s.mem q < nb

theorem malloc_small_spec (h : Valid Y s bs) (hn : 16 ∣ nb) (hn' : MIN_CHUNK_SIZE ≤ nb) (hlt : nb < MIN_LARGE_SIZE) :
    (∃ s', malloc_small Y s nb = .ok (NULL, s') ∧ Failed Y s s' bs nb ∧ NoneFits Y s bs nb) ∨
      ∃ p m s' bs', malloc_small Y s nb = .ok (chunk2mem p, s') ∧ Allocated Y s s' bs bs' nb p m := by
  have hlt' := hlt
  unfold MIN_LARGE_SIZE at hlt'
  have hrest := malloc_rest_spec h (show Tame nb from .inl (by omega)) (by omega) hn hn'
  have h8 : 8 ∣ nb := (by decide : 8 ∣ 16).trans hn
  have hsize := small_size_index h8
  have hnext : small_index2size (small_index nb + 1) = nb + 8 := by
    simp only [small_index2size, small_index, SMALLBIN_SHIFT, Nat.shiftLeft_eq, Nat.shiftRight_eq_div_pow] at hsize ⊢
    omega
  unfold malloc_small
  simp only
  rcases h with h | ⟨h, rfl⟩
  swap
  · -- nothing in any bin
    have hzero : s.smallmap >>> small_index nb = 0 := by simp [h.bins.1]
    have hmap : s.treemap = 0 := h.bins.2
    simp only [hzero, hmap, ne_eq, not_true, if_false, ite_self]
    refine hrest.imp_left ?_
    rintro ⟨s', heq, hfail⟩
    refine ⟨s', heq, hfail, fun q hq => ?_⟩
    simp at hq
  by_cases hexact : s.smallmap >>> small_index nb &&& 3 ≠ 0
  · obtain ⟨hmark, hle⟩ := lowTwo_spec hexact
    rw [if_pos hexact]
    rw [BitVec.getLsbD_ushiftRight] at hmark
    generalize (~~~(s.smallmap >>> small_index nb) &&& 1).toNat = d at hmark hle ⊢
    have hd : small_index2size (small_index nb + d) = nb + 8 * d := by
      rcases Nat.le_one_iff_eq_zero_or_eq_one.mp hle with rfl | rfl
      · exact hsize
      · exact hnext
    obtain ⟨p, s', bs', heq, hall⟩ := small_exact_spec h hmark (show nb ≤ _ by omega)
      (by unfold MIN_CHUNK_SIZE; omega)
    exact .inr ⟨p, _, s', bs', heq, hall⟩
  rw [if_neg hexact]
  by_cases hdv : s.dvsize < nb
  swap
  · -- the dv is large enough
    rw [if_neg hdv]
    refine hrest.imp_left ?_
    rintro ⟨s', heq, hfail⟩
    exact absurd hfail.dv hdv
  rw [if_pos hdv]
  have hsmall : s.dvsize < MIN_LARGE_SIZE := hdv.trans hlt
  by_cases hbits : s.smallmap >>> small_index nb ≠ 0
  · rw [if_pos hbits]
    obtain ⟨j, hj32, hj⟩ := exists_of_ne_zero hbits
    -- the two lowest bits are not set
    have hj2 : j ≠ 0 := by
      rintro rfl
      refine hexact fun hz => ?_
      have hbit := eq_zero_iff.mp hz 0 (by decide)
      rw [BitVec.getLsbD_and, hj] at hbit
      exact absurd hbit (by decide)
    rw [BitVec.getLsbD_ushiftRight] at hj
    have hleft : (((s.smallmap >>> small_index nb) <<< small_index nb) &&&
        leftBits (single 32 (small_index nb))).getLsbD (small_index nb + j) = true := by
      rw [BitVec.getLsbD_and, getLsbD_ushiftRight_shiftLeft, hj,
        getLsbD_leftBits_single.mpr ⟨by omega, BitVec.lt_of_getLsbD hj⟩]
      simp
    obtain ⟨hscan, -⟩ := scan_spec hleft
    generalize ctz (leastBit (((s.smallmap >>> small_index nb) <<< small_index nb) &&&
        leftBits (single 32 (small_index nb)))) = i at hscan ⊢
    rw [BitVec.getLsbD_and, getLsbD_ushiftRight_shiftLeft, Bool.and_eq_true, Bool.and_eq_true] at hscan
    obtain ⟨⟨hmark, -⟩, hgt⟩ := hscan
    have hgt' := (getLsbD_leftBits_single.mp hgt).1
    have hfits : nb ≤ small_index2size i := by
      simp only [small_index2size, small_index, SMALLBIN_SHIFT, Nat.shiftLeft_eq, Nat.shiftRight_eq_div_pow] at hsize hgt' ⊢
      omega
    obtain ⟨p, m, s', bs', heq, hall⟩ := small_next_spec h hmark hfits hn hn' hsmall
    exact .inr ⟨p, m, s', bs', heq, hall⟩
  rw [if_neg hbits]
  by_cases hmap : s.treemap ≠ 0
  · rw [if_pos hmap]
    obtain ⟨p, m, s', bs', heq, hall⟩ := tmalloc_small_spec h hmap hn hn' hlt hsmall
    have hne : chunk2mem p ≠ NULL := by
      unfold chunk2mem NULL TWO_SIZE_T_SIZES SIZE_T_SIZE
      omega
    simp only [heq, bind, Except.bind, if_pos hne]
    exact .inr ⟨p, m, s', bs', rfl, hall⟩
  · rw [if_neg hmap]
    refine hrest.imp_left ?_
    rintro ⟨s', heq, hfail⟩
    refine ⟨s', heq, hfail, fun q hq => ?_⟩
    by_cases hq' : chunksize s.mem q < MIN_LARGE_SIZE
    · exact h.small_none (not_not.mp hbits) q hq hq'
    · obtain ⟨b, hb⟩ := h.binned
      exact absurd ⟨hq, not_lt.mp hq'⟩ (hb.large_none (hb.treemap.trans (not_not.mp hmap)) q)

theorem malloc_large_spec (h : Valid Y s bs) (hnb : Tame nb) (hlt : nb < 2 ^ 64) (hn : 16 ∣ nb) (hn' : MIN_CHUNK_SIZE ≤ nb) :
    (∃ s', malloc_large Y s nb = .ok (NULL, s') ∧ Failed Y s s' bs nb ∧
        (Inv Y s bs → ∃ b, BinsOf Y s bs b ∧ (b.bestLarge (chunksize s.mem) nb).1 = none)) ∨
      ∃ p m s' bs', malloc_large Y s nb = .ok (chunk2mem p, s') ∧ Allocated Y s s' bs bs' nb p m := by
  have hrest := malloc_rest_spec h hnb hlt hn hn'
  have hpos : 0 < nb := by
    unfold MIN_CHUNK_SIZE at hn'
    omega
  unfold malloc_large
  by_cases hmap : s.treemap ≠ 0
  · rw [if_pos hmap]
    rcases h with h | ⟨h, rfl⟩
    · obtain ⟨b, hb⟩ := h.binned
      rcases tmalloc_large_spec h hb hn hn' hlt with ⟨heq, hdv⟩ | ⟨p, m, s', bs', heq, hall⟩
      · simp only [heq, bind, Except.bind, ne_eq, not_true, if_false]
        refine hrest.imp_left ?_
        rintro ⟨s', heq', hfail⟩
        refine ⟨s', heq', hfail, fun _ => ⟨b, hb, ?_⟩⟩
        -- had it found a chunk, the dv would have been a better fit
        by_contra hsome
        obtain ⟨v, hv⟩ := Option.ne_none_iff_exists'.mp hsome
        have hle := hdv v hv
        obtain ⟨hlarge, hsize⟩ := bestLarge_spec h hb hpos hlt v hv
        have hmax := h.large_lt hlarge
        have hbound := Y.bound'
        rw [sub_of_lt hfail.dv hlt] at hle
        omega
      · have hne : chunk2mem p ≠ NULL := by
          unfold chunk2mem NULL TWO_SIZE_T_SIZES SIZE_T_SIZE
          omega
        simp only [heq, bind, Except.bind, if_pos hne]
        exact .inr ⟨p, m, s', bs', rfl, hall⟩
    · exact absurd h.bins.2 hmap
  · rw [if_neg hmap]
    refine hrest.imp_left ?_
    rintro ⟨s', heq, hfail⟩
    refine ⟨s', heq, hfail, fun h => ?_⟩
    obtain ⟨b, hb⟩ := h.binned
    refine ⟨b, hb, ?_⟩
    by_contra hsome
    obtain ⟨v, hv⟩ := Option.ne_none_iff_exists'.mp hsome
    exact hb.large_none (hb.treemap.trans (not_not.mp hmap)) v (bestLarge_spec h hb hpos hlt v hv).1

end

/-! ## What a call does -/

section
variable {Y : Sys} {s : MState} {bs : List (ℕ × Tag)} {bytes : ℕ}

/-- a request that is too large is refused -/
theorem malloc_rest_max (h : Valid Y s bs) : malloc_rest Y s MAX_SIZE_T = .ok (NULL, s) := by
  have hbound := Y.bound'
  have hfoot : s.dvsize ≤ Y.length ∧ s.topsize ≤ Y.length := by
    rcases h with h | ⟨h, -⟩
    · have htop := h.topsize_le
      have hpos := h.top
      refine ⟨?_, by omega⟩
      rcases h.dv with ⟨-, hz⟩ | hat
      · omega
      · exact h.free_le hat
    · obtain ⟨-, htop, -, hdv, -⟩ := h.zero
      omega
  have hasize : granularity_align Y ((MAX_SIZE_T + SYS_ALLOC_PADDING) % 2 ^ 64) ≤ MAX_SIZE_T := by
    rcases granularity_align_spec Y (x := (MAX_SIZE_T + SYS_ALLOC_PADDING) % 2 ^ 64) (Nat.mod_lt _ (by decide)) with h | h
    · unfold MAX_SIZE_T at h ⊢
      omega
    · rw [h.1]
      exact Nat.zero_le _
  unfold malloc_rest sys_alloc
  rw [if_neg (by unfold MAX_SIZE_T; omega), if_neg (by unfold MAX_SIZE_T; omega)]
  simp only [if_pos hasize]

/-- **Allocation.** A call returns a new chunk that holds the request, or it fails: then no free chunk is large enough
and there is no room for pages for one. The checks of the lists never fail. -/
theorem dlmalloc_spec (h : Valid Y s bs) (hreq : TameReq bytes) :
    (∃ s', dlmalloc Y s bytes = .ok (NULL, s') ∧
        ((MAX_REQUEST ≤ bytes ∧ s' = s) ∨
          (Failed Y s s' bs (request2size bytes) ∧ (Y.length < 2 ^ 40 → NoneFits Y s bs (request2size bytes))))) ∨
      ∃ p m s' bs', dlmalloc Y s bytes = .ok (chunk2mem p, s') ∧ bytes < MAX_REQUEST ∧
        Allocated Y s s' bs bs' (request2size bytes) p m := by
  unfold dlmalloc
  by_cases hsmall : bytes ≤ MAX_SMALL_REQUEST
  · rw [if_pos hsmall]
    rw [max_small_request_eq] at hsmall
    have hmax : bytes < MAX_REQUEST := by
      rw [max_request_eq]
      omega
    obtain ⟨hmin, h16, -, -⟩ := request2size_spec hmax
    have hlt : request2size bytes < MIN_LARGE_SIZE := by
      unfold request2size pad_request MIN_REQUEST MIN_CHUNK_SIZE CHUNK_OVERHEAD CHUNK_ALIGN_MASK MALLOC_ALIGNMENT
        SIZE_T_SIZE MIN_LARGE_SIZE
      split_ifs <;> omega
    have heq : (if bytes < MIN_REQUEST then MIN_CHUNK_SIZE else pad_request bytes) = request2size bytes := rfl
    rw [heq]
    rcases malloc_small_spec h h16 hmin hlt with ⟨s', hcall, hfail, hnone⟩ | ⟨p, m, s', bs', hcall, hall⟩
    · exact .inl ⟨s', hcall, .inr ⟨hfail, fun _ => hnone⟩⟩
    · exact .inr ⟨p, m, s', bs', hcall, hmax, hall⟩
  rw [if_neg hsmall]
  by_cases hmax : MAX_REQUEST ≤ bytes
  · rw [if_pos hmax]
    exact .inl ⟨s, malloc_rest_max h, .inl ⟨hmax, rfl⟩⟩
  rw [if_neg hmax]
  rw [max_small_request_eq] at hsmall
  obtain ⟨hmin, h16, hlo, hhi⟩ := request2size_spec (not_le.mp hmax)
  have heq : pad_request bytes = request2size bytes := by
    rw [request2size, if_neg]
    unfold MIN_REQUEST MIN_CHUNK_SIZE CHUNK_OVERHEAD SIZE_T_SIZE
    omega
  rw [max_request_eq] at hmax
  have hhi' : request2size bytes < 2 ^ 64 := by
    unfold MIN_CHUNK_SIZE at hhi
    omega
  have htame : Tame (request2size bytes) := by
    unfold MIN_CHUNK_SIZE at hhi
    exact hreq.imp (fun _ => by omega) fun _ => by omega
  rw [heq]
  rcases malloc_large_spec h htame hhi' h16 hmin with ⟨s', hcall, hfail, hnone⟩ | ⟨p, m, s', bs', hcall, hall⟩
  · refine .inl ⟨s', hcall, .inr ⟨hfail, fun hlen q hq => ?_⟩⟩
    rcases h with h | ⟨-, rfl⟩
    · have hlarge : MIN_LARGE_SIZE ≤ request2size bytes := by
        unfold MIN_LARGE_SIZE CHUNK_OVERHEAD SIZE_T_SIZE at *
        omega
      by_cases hq' : chunksize s.mem q < MIN_LARGE_SIZE
      · exact hq'.trans_le hlarge
      · obtain ⟨b, hb, hnone⟩ := hnone h
        exact ((bestLarge_best h hb hlen hlarge hhi').none hnone).2 q ⟨hq, not_lt.mp hq'⟩
    · simp at hq
  · exact .inr ⟨p, m, s', bs', hcall, not_le.mp (by rw [max_request_eq]; omega), hall⟩

end

end SandiaShmem.Heap
