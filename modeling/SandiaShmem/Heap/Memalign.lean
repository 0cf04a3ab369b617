/-
Allocation with an alignment (`internal_memalign` and `dlmemalign` in `src/malloc.c`).

The alignment is rounded up to a power of two by a loop that doubles. Above 2^63 there is no power of two that fits, and
the loop doubles 0.

- `round_alignment_spec`, `round_alignment_running`: the loop.
- `dlmemalign_spec`: the returned chunk is aligned, and what is before and behind it is free again.
- `dlmemalign_running`: a call that does not return.
-/
import SandiaShmem.Core.While
import SandiaShmem.Heap.Realloc

namespace SandiaShmem.Heap

open Blocks While

/-! ## Model -/

/-- `Ensure a power of 2` -/
def round_alignment (fuel alignment : ℕ) : Outcome ℕ :=
  if alignment &&& sub alignment 1 ≠ 0 then
    loop (fun a => a < alignment) (fun a => some (a * 2 % 2 ^ 64)) fuel (MALLOC_ALIGNMENT * 2)
  else .returned alignment

/-- the chunk is moved to the next aligned place in it, and the space before that is freed -/
def give_back_lead (Y : Sys) (s : MState) (p alignment : ℕ) : Res :=
  let br := mem2chunk (align alignment (chunk2mem p))
  let newp := if MIN_CHUNK_SIZE ≤ br - p then br else br + alignment
  let leadsize := newp - p
  let newsize := chunksize s.mem p - leadsize
  if is_mmapped s.mem p then
    .ok (newp, { s with mem := put (put s.mem newp (prev_foot s.mem p + leadsize)) (newp + SIZE_T_SIZE) newsize })
  else do
    let s ← dispose_chunk Y { s with mem := set_inuse (set_inuse s.mem newp newsize) p leadsize } p leadsize
    .ok (newp, s)

/-- `misaligned` -/
def aligned_chunk (Y : Sys) (s : MState) (p alignment : ℕ) : Res :=
  if chunk2mem p &&& (alignment - 1) ≠ 0 then give_back_lead Y s p alignment else .ok (p, s)

/-- `Give back spare room at the end` -/
def give_back_tail (Y : Sys) (s : MState) (p nb : ℕ) : Except Stop MState :=
  if is_mmapped s.mem p = false then
    let size := chunksize s.mem p
    if nb + MIN_CHUNK_SIZE < size then give_back Y s p nb (size - nb) else .ok s
  else .ok s

/-- what is asked for, so that there is an aligned place in it -/
def memalign_req (alignment bytes : ℕ) : ℕ := request2size bytes + alignment + MIN_CHUNK_SIZE - CHUNK_OVERHEAD

/-- with an alignment that is a power of two -/
def memalign_rounded (Y : Sys) (s : MState) (alignment bytes : ℕ) : Res :=
  if sub MAX_REQUEST alignment ≤ bytes then .ok (NULL, s)
  else do
    let (mem, s) ← dlmalloc Y s (memalign_req alignment bytes)
    if mem ≠ NULL then
      let (p, s) ← aligned_chunk Y s (mem2chunk mem) alignment
      let s ← give_back_tail Y s p (request2size bytes)
      .ok (chunk2mem p, s)
    else .ok (NULL, s)

def internal_memalign (Y : Sys) (s : MState) (fuel alignment bytes : ℕ) : Outcome Res :=
  let alignment := if alignment < MIN_CHUNK_SIZE then MIN_CHUNK_SIZE else alignment
  match round_alignment fuel alignment with
  | .returned alignment => .returned (memalign_rounded Y s alignment bytes)
  | .stopped => .stopped
  | .running => .running

def dlmemalign (Y : Sys) (s : MState) (fuel alignment bytes : ℕ) : Outcome Res :=
  if alignment ≤ MALLOC_ALIGNMENT then .returned (dlmalloc Y s bytes) else internal_memalign Y s fuel alignment bytes

/-! ## The loop -/

section
variable {alignment fuel : ℕ}

/-- **Rounding up.** The result is the least power of two that is not below the alignment. -/
theorem round_alignment_spec (hlo : MIN_CHUNK_SIZE ≤ alignment) (hhi : alignment ≤ 2 ^ 63) (hfuel : 64 ≤ fuel) :
    round_alignment fuel alignment = .returned (2 ^ Nat.clog 2 alignment) := by
  unfold MIN_CHUNK_SIZE at hlo
  have hclog : Nat.clog 2 alignment ≤ 63 := Nat.clog_le_of_le_pow hhi
  have hsub : sub alignment 1 = alignment - 1 := sub_of_le (by omega) (by omega)
  unfold round_alignment
  rw [hsub]
  by_cases hpow : alignment &&& (alignment - 1) = 0
  · obtain ⟨k, rfl⟩ := (Nat.and_sub_one_eq_zero_iff_isPowerOfTwo (by omega)).mp hpow
    rw [if_neg (not_not.mpr hpow), Nat.clog_pow 2 k (by decide)]
  · rw [if_pos hpow]
    have hlow : 5 ≤ Nat.clog 2 alignment := by
      by_contra hlt
      have := (Nat.clog_le_iff_le_pow (by decide)).mp (show Nat.clog 2 alignment ≤ 4 by omega)
      omega
    have hrule := loop_rule (fun a => decide (a < alignment)) (fun a => some (a * 2 % 2 ^ 64))
      (fun k a => a = 2 ^ (5 + k) ∧ 5 + k ≤ Nat.clog 2 alignment) 64 ?_ ?_ fuel 0 (MALLOC_ALIGNMENT * 2) ?_ (by omega)
    · rcases hrule with ⟨k, a, hret, ⟨rfl, hle⟩, hdone⟩ | ⟨-, _, _, _, hnone⟩
      · have hge : alignment ≤ 2 ^ (5 + k) := not_lt.mp (of_decide_eq_false hdone)
        rw [hret, le_antisymm hle (Nat.clog_le_of_le_pow hge)]
      · cases hnone
    · rintro k a ⟨-, hle⟩ -
      omega
    · rintro k a a' ⟨rfl, hle⟩ hcond hbody
      have hlt := (Nat.lt_clog_iff_pow_lt (by decide)).mpr (of_decide_eq_true hcond)
      have hpow : 2 ^ (5 + k) * 2 = 2 ^ (5 + (k + 1)) := by ring
      have hle' : 2 ^ (5 + (k + 1)) < 2 ^ 64 := Nat.pow_lt_pow_right (by decide) (by omega)
      rw [Option.some.injEq, hpow, Nat.mod_eq_of_lt hle'] at hbody
      exact ⟨hbody.symm, by omega⟩
    · exact ⟨rfl, hlow⟩

/-- above 2^63 there is no end -/
theorem round_alignment_running (hlo : 2 ^ 63 < alignment) (hhi : alignment < 2 ^ 64) (fuel : ℕ) :
    round_alignment fuel alignment = .running := by
  have hsub : sub alignment 1 = alignment - 1 := sub_of_le (by omega) (by omega)
  have hpow : alignment &&& (alignment - 1) ≠ 0 := by
    intro hz
    obtain ⟨k, rfl⟩ := (Nat.and_sub_one_eq_zero_iff_isPowerOfTwo (by omega)).mp hz
    have h1 := (Nat.pow_lt_pow_iff_right (by decide)).mp hlo
    have h2 := (Nat.pow_lt_pow_iff_right (by decide)).mp hhi
    omega
  unfold round_alignment
  rw [hsub, if_pos hpow]
  refine loop_forever _ _ (fun a => a = 0 ∨ ∃ j ≤ 63, a = 2 ^ j) (fun a ha => decide_eq_true ?_) (fun a ha => ?_) fuel _
    (.inr ⟨5, by decide, rfl⟩)
  · rcases ha with rfl | ⟨j, hj, rfl⟩
    · omega
    · exact (Nat.pow_le_pow_right (by decide) hj).trans_lt hlo
  · refine ⟨_, rfl, ?_⟩
    rcases ha with rfl | ⟨j, hj, rfl⟩
    · exact .inl rfl
    · rw [← pow_succ]
      rcases hj.lt_or_eq with hlt | rfl
      · exact .inr ⟨j + 1, hlt, Nat.mod_eq_of_lt (Nat.pow_lt_pow_right (by decide) (by omega))⟩
      · exact .inl (Nat.mod_self _)

end

/-! ## What is given back -/

section
variable {Y : Sys} {s s' : MState} {bs bs' : List (ℕ × Tag)} {p n q m nb k fuel alignment bytes : ℕ}

/-- a chunk in use has been replaced by a part of it, and nothing else has changed for the users -/
structure Placed (Y : Sys) (s s' : MState) (bs bs' : List (ℕ × Tag)) (p n q m : ℕ) : Prop where
  inv : Inv Y s' bs'
  inside : p ≤ q ∧ q + m ≤ p + n
  live : ∀ r i, At Y.base bs' r i .used ↔ (At Y.base bs r i .used ∧ r ≠ p) ∨ (r = q ∧ i = m)
  data : ∀ r i, At Y.base bs r i .used → r ≠ p → ∀ x, Payload r i x → s'.mem x = s.mem x

theorem Placed.refl (h : Inv Y s bs) (hp : At Y.base bs p n .used) : Placed Y s s bs bs p n p n := by
  refine ⟨h, ⟨le_refl _, le_refl _⟩, fun r i => ?_, fun _ _ _ _ _ _ => rfl⟩
  constructor
  · intro hr
    by_cases hrp : r = p
    · subst hrp
      exact .inr ⟨rfl, (hr.unique h.pos hp).1⟩
    · exact .inl ⟨hr, hrp⟩
  · rintro (⟨hr, -⟩ | ⟨rfl, rfl⟩)
    · exact hr
    · exact hp

theorem Placed.trans {s₁ : MState} {bs₁ : List (ℕ × Tag)} {q₁ m₁ : ℕ} (h : Inv Y s bs) (hp : At Y.base bs p n .used)
    (h₁ : Placed Y s s₁ bs bs₁ p n q₁ m₁) (h₂ : Placed Y s₁ s' bs₁ bs' q₁ m₁ q m) (hm : 0 < m) :
    Placed Y s s' bs bs' p n q m := by
  have hi₁ := h₁.inside
  have hi₂ := h₂.inside
  have hother : ∀ r i, At Y.base bs r i .used → r ≠ p → r ≠ q₁ := by
    rintro r i hr hne rfl
    have := (h.chunk hr).2.2.1
    rcases hr.disjoint h.pos hp with ⟨heq, -⟩ | hlt | hlt
    · exact hne heq
    · omega
    · omega
  refine ⟨h₂.inv, ⟨by omega, by omega⟩, fun r i => ?_, fun r i hr hne x hx => ?_⟩
  · rw [h₂.live, h₁.live]
    constructor
    · rintro (⟨hr | hr, hne⟩ | hr)
      · exact .inl hr
      · exact absurd hr.1 hne
      · exact .inr hr
    · rintro (hr | hr)
      · exact .inl ⟨.inl hr, hother r i hr.1 hr.2⟩
      · exact .inr hr
  · rw [h₂.data r i ((h₁.live r i).mpr (.inl ⟨hr, hne⟩)) (hother r i hr hne) x hx, h₁.data r i hr hne x hx]

theorem Inv.not_mmapped (h : Inv Y s bs) (hp : At Y.base bs p n .used) : is_mmapped s.mem p = false := by
  obtain ⟨_, hok⟩ := h.layout_bs.at hp
  rw [is_mmapped, cinuse, hok.head_eq]
  simp

/-- an aligned place in the chunk that leaves room for a free chunk before it -/
theorem aligned_place (hk : 5 ≤ k) (hk' : k ≤ 63) (hp : 16 ∣ p) (hbound : p ≤ 2 ^ 62) (hmis : ¬ 2 ^ k ∣ chunk2mem p) :
    ∃ lead, (if MIN_CHUNK_SIZE ≤ mem2chunk (align (2 ^ k) (chunk2mem p)) - p then
        mem2chunk (align (2 ^ k) (chunk2mem p)) else mem2chunk (align (2 ^ k) (chunk2mem p)) + 2 ^ k) = p + lead ∧
      2 ^ k ∣ chunk2mem (p + lead) ∧ MIN_CHUNK_SIZE ≤ lead ∧ lead ≤ 2 ^ k + 16 ∧ 16 ∣ lead := by
  have hpow : 2 ^ k ≤ 2 ^ 63 := Nat.pow_le_pow_right (by decide) hk'
  have hdvd : 32 ∣ 2 ^ k := pow_dvd_pow 2 hk
  have hmem : chunk2mem p = p + 16 := rfl
  rw [hmem] at hmis ⊢
  rcases align_spec (k := k) (x := p + 16) (by omega) (by omega) with ⟨h1, h2, -, h4⟩ | ⟨-, hwrap⟩
  · generalize align (2 ^ k) (p + 16) = A at *
    have hA : A ≠ p + 16 := fun heq => hmis (heq ▸ h4)
    have h16 : 16 ∣ A := ((by decide : 16 ∣ 32).trans hdvd).trans h4
    have hchunk : mem2chunk A = A - 16 := rfl
    rw [hchunk, MIN_CHUNK_SIZE]
    by_cases hroom : 32 ≤ A - 16 - p
    · refine ⟨A - 16 - p, ?_, ?_, hroom, by omega, by omega⟩
      · rw [if_pos hroom]
        omega
      · have heq : chunk2mem (p + (A - 16 - p)) = A := by
          unfold chunk2mem TWO_SIZE_T_SIZES SIZE_T_SIZE
          omega
        rw [heq]
        exact h4
    · refine ⟨A - 16 - p + 2 ^ k, ?_, ?_, by omega, by omega, by omega⟩
      · rw [if_neg hroom]
        omega
      · have heq : chunk2mem (p + (A - 16 - p + 2 ^ k)) = A + 2 ^ k := by
          unfold chunk2mem TWO_SIZE_T_SIZES SIZE_T_SIZE
          omega
        rw [heq]
        exact dvd_add h4 (dvd_refl _)
  · omega

/-- the space before the aligned place -/
theorem give_back_lead_spec (h : Inv Y s bs) (hp : At Y.base bs p m .used) (hk : 5 ≤ k) (hk' : k ≤ 63)
    (hmis : ¬ 2 ^ k ∣ chunk2mem p) (hnb : MIN_CHUNK_SIZE ≤ nb) (hroom : nb + 2 ^ k + MIN_CHUNK_SIZE ≤ m) :
    ∃ q j s' bs', give_back_lead Y s p (2 ^ k) = .ok (q, s') ∧ Placed Y s s' bs bs' p m q j ∧ nb ≤ j ∧
      2 ^ k ∣ chunk2mem q := by
  have hM : MIN_CHUNK_SIZE = 32 := rfl
  have hchunk := h.chunk hp
  have htop := h.topsize_le
  have hbound := Y.bound'
  obtain ⟨lead, hnewp, haligned, hlead, hle, h16⟩ := aligned_place hk hk' hchunk.1 (by omega) hmis
  obtain ⟨j, rfl⟩ := Nat.exists_eq_add_of_le (show lead ≤ m by omega)
  have hj16 : 16 ∣ j := (Nat.dvd_add_right h16).mp hchunk.2.1
  obtain ⟨bs₁, hcut⟩ := h.cut hp h16 hlead (by omega)
    (cutMem_backward s.mem (p := p) h16 hj16 (by omega) (by omega))
  have hat : At Y.base bs₁ p lead .used := (hcut.live ..).mpr (.inr (by simp))
  obtain ⟨s', bs', hcall, hfreed⟩ := dispose_chunk_spec hcut.inv hat
  refine ⟨p + lead, j, s', bs', ?_, ⟨hfreed.inv, ⟨by omega, by omega⟩, fun r i => ?_, fun r i hr hne x hx => ?_⟩,
    by omega, haligned⟩
  · have hmm : ¬ is_mmapped s.mem p = true := by simp [h.not_mmapped hp]
    unfold give_back_lead
    simp only [hnewp, h.chunksize_eq hp, Nat.add_sub_cancel_left, if_neg hmm, hcall, bind, Except.bind]
  · rw [hfreed.live, hcut.live]
    simp only [at_cons, at_nil, or_false, and_true]
    constructor
    · rintro ⟨hr | hr | hr, hne⟩
      · exact .inl hr
      · exact absurd hr.1 hne
      · exact .inr hr
    · rintro (hr | hr)
      · exact ⟨.inl hr, hr.2⟩
      · exact ⟨.inr (.inr hr), by omega⟩
  · rw [hfreed.data r i ((hcut.live ..).mpr (.inl ⟨hr, hne⟩)) hne x hx, hcut.data r i hr hne x hx]

/-- the space behind what is needed -/
theorem give_back_tail_spec (h : Inv Y s bs) (hp : At Y.base bs p m .used) (hnb : 16 ∣ nb) (hnb' : MIN_CHUNK_SIZE ≤ nb)
    (hle : nb ≤ m) :
    ∃ j s' bs', give_back_tail Y s p nb = .ok s' ∧ Placed Y s s' bs bs' p m p j ∧ nb ≤ j ∧ j ≤ nb + MIN_CHUNK_SIZE := by
  have hM : MIN_CHUNK_SIZE = 32 := rfl
  unfold give_back_tail
  simp only [if_pos (h.not_mmapped hp), h.chunksize_eq hp]
  by_cases hbig : nb + MIN_CHUNK_SIZE < m
  · rw [if_pos hbig]
    obtain ⟨b, rfl⟩ := Nat.exists_eq_add_of_le hle
    have h16 : 16 ∣ b := (Nat.dvd_add_right hnb).mp (h.chunk hp).2.1
    obtain ⟨s', bs', hcall, hres⟩ := give_back_spec h hp hnb hnb' (by omega)
      (cutMem_forward _ hnb h16 (by omega) (by omega))
    rw [Nat.add_sub_cancel_left]
    exact ⟨nb, s', bs', hcall, ⟨hres.inv, ⟨le_refl _, by omega⟩, hres.live, hres.data⟩, le_refl _, by omega⟩
  · rw [if_neg hbig]
    exact ⟨m, s, bs, rfl, Placed.refl h hp, hle, by omega⟩

/-! ## dlmemalign -/

/-- a chunk for nb bytes has been made at q, and nothing else has changed for the users -/
structure AlignedAt (Y : Sys) (s s' : MState) (bs bs' : List (ℕ × Tag)) (k nb q m : ℕ) : Prop where
  inv : Inv Y s' bs'
  aligned : 2 ^ k ∣ chunk2mem q
  fits : nb ≤ m
  tight : m ≤ nb + MIN_CHUNK_SIZE
  new : ∀ i, ¬ At Y.base bs q i .used
  live : ∀ r i, At Y.base bs' r i .used ↔ At Y.base bs r i .used ∨ (r = q ∧ i = m)
  data : ∀ r i, At Y.base bs r i .used → ∀ x, Payload r i x → s'.mem x = s.mem x

/-- a part of a new chunk is a new chunk -/
theorem Placed.alignedAt {s₁ : MState} {bs₁ : List (ℕ × Tag)} {req j : ℕ} (hall : Allocated Y s s₁ bs bs₁ req p m)
    (hpl : Placed Y s₁ s' bs₁ bs' p m q j) (haligned : 2 ^ k ∣ chunk2mem q) (hfits : nb ≤ j)
    (htight : j ≤ nb + MIN_CHUNK_SIZE) (hpos : 0 < j) : AlignedAt Y s s' bs bs' k nb q j := by
  have hp₁ : At Y.base bs₁ p m .used := (hall.live ..).mpr (.inr ⟨rfl, rfl⟩)
  have hne : ∀ r i, At Y.base bs r i .used → r ≠ p := fun r i hr heq => hall.new i (heq ▸ hr)
  have hin := hpl.inside
  refine ⟨hpl.inv, haligned, hfits, htight, fun i hi => ?_, fun r i => ?_, fun r i hr x hx => ?_⟩
  · have hi₁ := (hall.live q i).mpr (.inl hi)
    have := (hall.inv.chunk hi₁).2.2.1
    rcases hi₁.disjoint hall.inv.pos hp₁ with ⟨heq, -⟩ | hlt | hlt
    · exact hne q i hi heq
    · omega
    · omega
  · rw [hpl.live, hall.live]
    constructor
    · rintro (⟨hr | hr, hne⟩ | hr)
      · exact .inl hr
      · exact absurd hr.1 hne
      · exact .inr hr
    · rintro (hr | hr)
      · exact .inl ⟨.inl hr, hne r i hr⟩
      · exact .inr hr
  · rw [hpl.data r i ((hall.live r i).mpr (.inl hr)) (hne r i hr) x hx, hall.data r i hr x hx]

theorem memalign_req_spec (hk' : k ≤ 63) (hbytes : bytes < sub MAX_REQUEST (2 ^ k)) :
    bytes < MAX_REQUEST ∧
      (memalign_req (2 ^ k) bytes < MAX_REQUEST →
        request2size bytes + 2 ^ k + MIN_CHUNK_SIZE ≤ request2size (memalign_req (2 ^ k) bytes)) := by
  have hpow : 2 ^ k ≤ 2 ^ 63 := Nat.pow_le_pow_right (by decide) hk'
  have hpos : 0 < 2 ^ k := by positivity
  rw [max_request_eq, sub_of_le (by omega) (by omega)] at hbytes
  refine ⟨by rw [max_request_eq]; omega, fun hreq => ?_⟩
  have hlo := (request2size_spec hreq).2.2.1
  unfold memalign_req MIN_CHUNK_SIZE CHUNK_OVERHEAD SIZE_T_SIZE at *
  omega

theorem memalign_rounded_spec (h : Valid Y s bs) (hk : 5 ≤ k) (hk' : k ≤ 63) (hreq : TameReq (memalign_req (2 ^ k) bytes)) :
    (∃ s', memalign_rounded Y s (2 ^ k) bytes = .ok (NULL, s') ∧
        ((MAX_REQUEST - 2 ^ k ≤ bytes ∧ s' = s) ∨
          dlmalloc Y s (memalign_req (2 ^ k) bytes) = .ok (NULL, s'))) ∨
      ∃ q m s' bs', memalign_rounded Y s (2 ^ k) bytes = .ok (chunk2mem q, s') ∧ bytes < MAX_REQUEST ∧
        AlignedAt Y s s' bs bs' k (request2size bytes) q m := by
  have hM : MIN_CHUNK_SIZE = 32 := rfl
  have hz : ¬ NULL ≠ NULL := not_not.mpr rfl
  have hpow : 2 ^ k ≤ 2 ^ 63 := Nat.pow_le_pow_right (by decide) hk'
  have hsub : sub MAX_REQUEST (2 ^ k) = MAX_REQUEST - 2 ^ k := by
    rw [max_request_eq]
    exact sub_of_le (by omega) (by omega)
  unfold memalign_rounded
  by_cases hbig : sub MAX_REQUEST (2 ^ k) ≤ bytes
  · rw [if_pos hbig]
    exact .inl ⟨s, rfl, .inl ⟨hsub ▸ hbig, rfl⟩⟩
  rw [if_neg hbig]
  obtain ⟨hbytes, hroom⟩ := memalign_req_spec hk' (not_le.mp hbig)
  obtain ⟨hmin, h16, -, -⟩ := request2size_spec hbytes
  rcases dlmalloc_spec h hreq with ⟨s', hmalloc, -⟩ | ⟨p, m, s₁, bs₁, hmalloc, hlt, hall⟩
  · simp only [hmalloc, bind, Except.bind, if_neg hz]
    exact .inl ⟨s', rfl, .inr rfl⟩
  · have hp₁ : At Y.base bs₁ p m .used := (hall.live ..).mpr (.inr ⟨rfl, rfl⟩)
    have hfits := (hroom hlt).trans hall.fits
    have hmem : mem2chunk (chunk2mem p) = p := Nat.add_sub_cancel ..
    have hne := chunk2mem_ne_null (p := p)
    -- an aligned place in the new chunk
    have hplace : ∃ q j s₂ bs₂, aligned_chunk Y s₁ p (2 ^ k) = .ok (q, s₂) ∧ Placed Y s₁ s₂ bs₁ bs₂ p m q j ∧
        request2size bytes ≤ j ∧ 2 ^ k ∣ chunk2mem q := by
      rw [aligned_chunk, Nat.and_two_pow_sub_one_eq_mod]
      by_cases hmis : chunk2mem p % 2 ^ k ≠ 0
      · rw [if_pos hmis]
        exact give_back_lead_spec hall.inv hp₁ hk hk' (fun hdvd => hmis (Nat.mod_eq_zero_of_dvd hdvd)) hmin hfits
      · rw [if_neg hmis]
        exact ⟨p, m, s₁, bs₁, rfl, Placed.refl hall.inv hp₁, by omega, Nat.dvd_of_mod_eq_zero (not_not.mp hmis)⟩
    obtain ⟨q, j, s₂, bs₂, hlead, hpl, hj, haligned⟩ := hplace
    have hq₂ : At Y.base bs₂ q j .used := (hpl.live ..).mpr (.inr ⟨rfl, rfl⟩)
    obtain ⟨i, s', bs', htail, hpl', hi, hi'⟩ := give_back_tail_spec hpl.inv hq₂ h16 hmin hj
    simp only [hmalloc, bind, Except.bind, if_pos hne, hmem, hlead, htail]
    have hpos : 0 < i := by omega
    exact .inr ⟨q, i, s', bs', rfl, hbytes, (hpl.trans hall.inv hp₁ hpl' hpos).alignedAt hall haligned hi hi' hpos⟩

/-- what `dlmemalign` asks of `dlmalloc` -/
def memalign_bytes (alignment bytes : ℕ) : ℕ :=
  if alignment ≤ MALLOC_ALIGNMENT then bytes else memalign_req (2 ^ Nat.clog 2 (max alignment MIN_CHUNK_SIZE)) bytes

/-- **Aligned allocation.** For every alignment up to 2^63: the pointer is aligned to the least power of two that is not
below it. -/
theorem dlmemalign_spec (h : Valid Y s bs) (halign : alignment ≤ 2 ^ 63) (hfuel : 64 ≤ fuel)
    (hreq : TameReq (memalign_bytes alignment bytes)) :
    (∃ s', dlmemalign Y s fuel alignment bytes = .returned (.ok (NULL, s')) ∧
        ((MAX_REQUEST - 2 ^ Nat.clog 2 (max alignment MIN_CHUNK_SIZE) ≤ bytes ∧ s' = s) ∨
          dlmalloc Y s (memalign_bytes alignment bytes) = .ok (NULL, s'))) ∨
      ∃ q m s' bs', dlmemalign Y s fuel alignment bytes = .returned (.ok (chunk2mem q, s')) ∧ bytes < MAX_REQUEST ∧
        AlignedAt Y s s' bs bs' (Nat.clog 2 alignment) (request2size bytes) q m := by
  unfold dlmemalign
  unfold memalign_bytes at *
  by_cases hsmall : alignment ≤ MALLOC_ALIGNMENT
  · rw [if_pos hsmall] at hreq ⊢
    rw [if_pos hsmall]
    rcases dlmalloc_spec h hreq with ⟨s', hmalloc, -⟩ | ⟨q, m, s', bs', hmalloc, hmax, hall⟩
    · exact .inl ⟨s', by rw [hmalloc], .inr hmalloc⟩
    · have hq : At Y.base bs' q m .used := (hall.live ..).mpr (.inr ⟨rfl, rfl⟩)
      have h16 : 2 ^ 4 ∣ chunk2mem q := by
        have := (hall.inv.chunk hq).1
        unfold chunk2mem TWO_SIZE_T_SIZES SIZE_T_SIZE
        omega
      have hclog : Nat.clog 2 alignment ≤ 4 := Nat.clog_le_of_le_pow hsmall
      refine .inr ⟨q, m, s', bs', by rw [hmalloc], hmax, hall.inv, (pow_dvd_pow 2 hclog).trans h16, hall.fits, hall.tight.le,
        hall.new, hall.live, hall.data⟩
  · rw [if_neg hsmall] at hreq ⊢
    rw [if_neg hsmall]
    have hmax : (if alignment < MIN_CHUNK_SIZE then MIN_CHUNK_SIZE else alignment) = max alignment MIN_CHUNK_SIZE := by
      split_ifs <;> omega
    have hhi : max alignment MIN_CHUNK_SIZE ≤ 2 ^ 63 := max_le halign (by decide)
    have hk : 5 ≤ Nat.clog 2 (max alignment MIN_CHUNK_SIZE) := by
      rw [show 5 = Nat.clog 2 MIN_CHUNK_SIZE by decide]
      exact Nat.clog_mono_right 2 (le_max_right ..)
    have hk' : Nat.clog 2 (max alignment MIN_CHUNK_SIZE) ≤ 63 := Nat.clog_le_of_le_pow hhi
    have hle : Nat.clog 2 alignment ≤ Nat.clog 2 (max alignment MIN_CHUNK_SIZE) := Nat.clog_mono_right 2 (le_max_left ..)
    simp only [internal_memalign, hmax, round_alignment_spec (le_max_right ..) hhi hfuel]
    rcases memalign_rounded_spec h hk hk' hreq with ⟨s', hcall, hfail⟩ | ⟨q, m, s', bs', hcall, hmax, hall⟩
    · exact .inl ⟨s', by rw [hcall], hfail⟩
    · exact .inr ⟨q, m, s', bs', by rw [hcall], hmax, hall.inv, (pow_dvd_pow 2 hle).trans hall.aligned, hall.fits,
        hall.tight, hall.new, hall.live, hall.data⟩

/-- **No return.** For every alignment above 2^63, however long the loop runs. -/
theorem dlmemalign_running (hlo : 2 ^ 63 < alignment) (hhi : alignment < 2 ^ 64) :
    dlmemalign Y s fuel alignment bytes = .running := by
  have hsmall : ¬ alignment ≤ MALLOC_ALIGNMENT := by
    unfold MALLOC_ALIGNMENT SIZE_T_SIZE
    omega
  have hmin : ¬ alignment < MIN_CHUNK_SIZE := by
    unfold MIN_CHUNK_SIZE
    omega
  unfold dlmemalign
  simp only [if_neg hsmall, internal_memalign, if_neg hmin, round_alignment_running hlo hhi]

end

end SandiaShmem.Heap
