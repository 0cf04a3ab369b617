/-
Memory from the system and back (`sys_alloc`, `sys_trim`): there is always one segment, which ends at the break.

- `MORECORE_up`, `MORECORE_down`: what the break of the symmetric heap does.
- `sys_alloc_spec`: new memory extends the segment, or there is no room for it.
- `sys_trim_spec`: the segment gets shorter by pages.
-/
import SandiaShmem.Heap.Inv

namespace SandiaShmem.Heap

open Blocks CInt Runtime.SymHeap

/-! ## The break -/

section
variable {Y : Sys} {s : MState} {c S : ℕ}

theorem wrap_of_lt (hS : S < 2 ^ 63) : wrap 64 (S : ℤ) = S :=
  wrap_of_fits (by decide) ⟨by norm_num, by norm_num; omega⟩

/-- up: it moves if the new one is not beyond the end -/
theorem MORECORE_up (hc : s.heap_curr = (c : ℤ)) (hb : Y.base ≤ c) (hS : c + S < Y.base + 2 ^ 63) :
    MORECORE Y s S =
      if c + S ≤ Y.base + Y.length then (c, { s with heap_curr := ((c + S : ℕ) : ℤ) }) else (CMFAIL, s) := by
  have hbound := Y.bound'
  have hpos := Y.base_pos'
  rw [MORECORE, wrap_of_lt (by omega), getNext, hc, ← Y.base_cast, ← Y.length_cast, ← Nat.cast_add,
    uwrap_of_lt (by omega) (by norm_num; omega), wrap_of_fits (by omega) ⟨by norm_num; omega, by norm_num; omega⟩]
  rw [if_neg (by omega)]
  split_ifs with h1 h2 h2
  · omega
  · simp [failed_eq, CMFAIL, MAX_SIZE_T, ← hc]
  · simp
  · omega

/-- down: it moves, to the start at the farthest -/
theorem MORECORE_down (hc : s.heap_curr = (c : ℤ)) (hb : Y.base + S ≤ c) (he : c ≤ Y.base + Y.length) (hS : 0 < S) :
    MORECORE Y s (sub 0 S) = (c, { s with heap_curr := ((c - S : ℕ) : ℤ) }) := by
  have hbound := Y.bound'
  have hneg : wrap 64 ((sub 0 S : ℕ) : ℤ) = -(S : ℤ) := by
    have hcast : ((sub 0 S : ℕ) : ℤ) - 1 * 2 ^ 64 = -(S : ℤ) := by
      rw [sub_of_lt hS (by omega)]
      omega
    rw [wrap_eq_of_fits (m := 1) (by omega) ⟨by rw [hcast]; norm_num; omega, by rw [hcast]; norm_num; omega⟩, hcast]
  have hcurr : (c : ℤ) + -(S : ℤ) = ((c - S : ℕ) : ℤ) := by omega
  rw [MORECORE, hneg, getNext, hc, ← Y.base_cast, ← Y.length_cast, hcurr, uwrap_of_lt (by omega) (by norm_num; omega),
    wrap_of_fits (by omega) ⟨by norm_num; omega, by norm_num; omega⟩, if_neg (by omega), if_neg (by omega)]
  simp

/-- a call with 0 tells the break -/
theorem MORECORE_zero (hc : s.heap_curr = (c : ℤ)) (hb : Y.base ≤ c) (he : c ≤ Y.base + Y.length) :
    MORECORE Y s 0 = (c, s) := by
  have hbound := Y.bound'
  rw [MORECORE_up hc hb (by omega), Nat.add_zero, if_pos he, ← hc]

end

/-! ## More memory -/

/-- sizes for which the arithmetic of the break is right: those that are not near 2^63 -/
def Tame (nb : ℕ) : Prop := nb ≤ 2 ^ 62 + 2 ^ 5 ∨ 3 * 2 ^ 62 ≤ nb

section
variable {Y : Sys} {s : MState} {bs : List (ℕ × Tag)} {nb asize : ℕ}

theorem Sys.page_ok (Y : Sys) : 16 ∣ Y.page_size ∧ 16 ≤ Y.page_size ∧ Y.page_size ≤ 2 ^ 62 ∧ Y.page_bits < 64 := by
  have hle := Y.page_le
  have hbound := Y.bound'
  have h16 : 16 ∣ Y.page_size := pow_dvd_pow 2 hle
  have hpos : 0 < Y.page_size := by
    unfold Sys.page_size
    positivity
  refine ⟨h16, Nat.le_of_dvd hpos h16, by omega, ?_⟩
  by_contra hlt
  have : 2 ^ 64 ≤ Y.page_size := Nat.pow_le_pow_right (by decide) (not_lt.mp hlt)
  omega

/-- a size rounded up to pages, unless it wraps around -/
theorem granularity_align_spec (Y : Sys) {x : ℕ} (hx : x < 2 ^ 64) :
    (x ≤ granularity_align Y x ∧ granularity_align Y x < x + Y.page_size ∧ granularity_align Y x < 2 ^ 64 ∧
        Y.page_size ∣ granularity_align Y x) ∨ (granularity_align Y x = 0 ∧ 2 ^ 64 < x + Y.page_size) :=
  align_spec (k := Y.page_bits) Y.page_ok.2.2.2 hx

/-- pages fill the address space without a rest -/
theorem page_le_of_dvd (Y : Sys) {x : ℕ} (hdvd : Y.page_size ∣ x) (hx : x < 2 ^ 64) : x + Y.page_size ≤ 2 ^ 64 := by
  have hall : Y.page_size ∣ 2 ^ 64 - x := Nat.dvd_sub (pow_dvd_pow 2 Y.page_ok.2.2.2.le) hdvd
  have := Nat.le_of_dvd (by omega) hall
  omega

/-- a larger size gives at least as many pages -/
theorem granularity_align_mono (Y : Sys) {x y : ℕ} (hxy : x ≤ y) (hy : y + Y.page_size ≤ 2 ^ 64) :
    granularity_align Y x ≤ granularity_align Y y := by
  have hpos := Y.page_ok.2.1
  unfold granularity_align align Sys.granularity
  rw [Nat.mod_eq_of_lt (by omega), Nat.mod_eq_of_lt (by omega)]
  exact Nat.mul_le_mul_right _ (Nat.div_le_div_right (by omega))

/-- what MORECORE is asked for: for tame sizes it is in range, or too much to be asked for -/
theorem asize_spec (Y : Sys) (hnb : Tame nb) (hlt : nb < 2 ^ 64) (ha : 16 ∣ nb)
    (hasize : asize = granularity_align Y ((nb + SYS_ALLOC_PADDING) % 2 ^ 64)) (hle : nb < asize) :
    nb + SYS_ALLOC_PADDING ≤ asize ∧ 16 ∣ asize ∧ asize < nb + SYS_ALLOC_PADDING + Y.page_size ∧
      nb + SYS_ALLOC_PADDING + Y.page_size ≤ 2 ^ 64 ∧
      (HALF_MAX_SIZE_T ≤ asize ∧ 3 * 2 ^ 62 ≤ nb ∨ asize ≤ 2 ^ 62 + 2 ^ 12 + Y.page_size ∧ asize < HALF_MAX_SIZE_T) := by
  have hbound := Y.bound'
  have hpos := Y.base_pos'
  obtain ⟨hp16, hpge, hple, -⟩ := Y.page_ok
  rw [sys_alloc_padding_eq] at hasize ⊢
  unfold HALF_MAX_SIZE_T MAX_SIZE_T
  have hspec := granularity_align_spec Y (x := (nb + 96) % 2 ^ 64) (Nat.mod_lt _ (by decide))
  rw [← hasize] at hspec
  rcases hspec with ⟨h1, h2, h3, h4⟩ | ⟨h1, -⟩
  · have hnowrap : (nb + 96) % 2 ^ 64 = nb + 96 := by
      refine Nat.mod_eq_of_lt ?_
      by_contra hge
      have : (nb + 96) % 2 ^ 64 = nb + 96 - 2 ^ 64 := by omega
      rcases hnb with h | h <;> omega
    rw [hnowrap] at h1 h2
    have hroom := page_le_of_dvd Y h4 h3
    refine ⟨h1, hp16.trans h4, h2, by omega, ?_⟩
    rcases hnb with h | h <;> omega
  · omega

theorem partialFailure_failed (ssize : ℕ) :
    partialFailure Y s nb CMFAIL ssize = ((CMFAIL, 0), { s with noncontiguous := true }) := by
  simp [partialFailure]

/-- the segment ends at the break -/
theorem Inv.curr' (h : Inv Y s bs) : s.heap_curr = ((s.seg_base + s.seg_size : ℕ) : ℤ) := by
  rw [h.curr]
  push_cast
  rfl

/-- the break is asked to move from the end of the segment -/
theorem noncontiguousMorecore_spec {c : ℕ} (hc : s.heap_curr = (c : ℤ)) (hb : Y.base ≤ c) (he : c ≤ Y.base + Y.length)
    (hlarge : HALF_MAX_SIZE_T ≤ asize ∨ asize ≤ 2 ^ 62 + 2 ^ 12 + Y.page_size ∧ asize < HALF_MAX_SIZE_T)
    (hnb : nb + TOP_FOOT_SIZE < asize) :
    noncontiguousMorecore Y s nb asize =
      if asize < HALF_MAX_SIZE_T ∧ c + asize ≤ Y.base + Y.length then
        ((c, asize), { s with heap_curr := ((c + asize : ℕ) : ℤ) })
      else ((CMFAIL, 0), s) := by
  have hbound := Y.bound'
  have hpos := Y.base_pos'
  unfold noncontiguousMorecore
  by_cases hhalf : asize < HALF_MAX_SIZE_T
  · have hle : asize ≤ 2 ^ 62 + 2 ^ 12 + Y.page_size := by omega
    have hle' : c + asize < Y.base + 2 ^ 63 := by omega
    by_cases hroom : c + asize ≤ Y.base + Y.length
    · have hc' : c ≠ CMFAIL := by
        unfold CMFAIL MAX_SIZE_T
        omega
      have hc'' : c + asize ≠ CMFAIL := by
        unfold CMFAIL MAX_SIZE_T
        omega
      simp only [hhalf, if_true, true_and, MORECORE_up hc hb hle', hroom,
        MORECORE_zero (s := { s with heap_curr := ((c + asize : ℕ) : ℤ) }) rfl (by omega) hroom]
      rw [if_pos ⟨hc', hc'', by omega, by omega⟩, Nat.add_sub_cancel_left]
    · simp only [hhalf, if_true, true_and, MORECORE_up hc hb hle', hroom, if_false, MORECORE_zero hc hb he]
      simp
  · simp [hhalf]

/-- an existing segment is extended, or there is no room for asize more bytes -/
theorem moreMemory_inv (h : Inv Y s bs) (hnb : Tame nb) (hlt : nb < 2 ^ 64) (ha : 16 ∣ nb)
    (hasize : asize = granularity_align Y ((nb + SYS_ALLOC_PADDING) % 2 ^ 64)) (hle : nb < asize)
    (htop : s.topsize ≤ nb) :
    (∃ tsize, moreMemory Y s nb asize = ((s.seg_base + s.seg_size, tsize),
          { s with heap_curr := ((s.seg_base + s.seg_size + tsize : ℕ) : ℤ) }) ∧
        16 ∣ tsize ∧ s.seg_size + tsize ≤ Y.length ∧ nb + 16 ≤ s.topsize + tsize) ∨
      (∃ flag, moreMemory Y s nb asize = ((CMFAIL, 0), { s with noncontiguous := flag })) ∧
        (HALF_MAX_SIZE_T ≤ asize ∨ Y.length < s.seg_size + asize) := by
  obtain ⟨h1, h16, h2, h3, h4⟩ := asize_spec Y hnb hlt ha hasize hle
  rw [sys_alloc_padding_eq] at h1 h2 h3 hasize
  have hbound := Y.bound'
  have hpos := Y.base_pos'
  have hbase := h.base
  have hfits := h.fits
  have hseg := h.seg_size_eq
  have htopeq := h.top
  have hne : s.seg_base + s.seg_size ≠ CMFAIL := by
    unfold CMFAIL MAX_SIZE_T
    omega
  have hlarge : HALF_MAX_SIZE_T ≤ asize ∨ asize ≤ 2 ^ 62 + 2 ^ 12 + Y.page_size ∧ asize < HALF_MAX_SIZE_T :=
    h4.imp_left And.left
  have hfoot : nb + TOP_FOOT_SIZE < asize := by
    rw [top_foot_size_eq]
    omega
  by_cases hflag : s.noncontiguous = true
  · -- only the call for all of asize is left
    have hnon := noncontiguousMorecore_spec (s := s) h.curr' (by omega) (by omega) hlarge hfoot
    simp only [moreMemory, hflag, if_true, hnon]
    split_ifs with hroom
    · exact .inl ⟨asize, rfl, h16, by omega, by omega⟩
    · exact .inr ⟨⟨s.noncontiguous, rfl⟩, by omega⟩
  · have hholds : ¬ (s.top = 0 ∨ segment_holds s s.top = false) := by
      have htop0 := h.top_pos
      simp only [segment_holds, Bool.and_eq_false_iff, decide_eq_false_iff_not]
      omega
    have hx : nb - s.topsize + 96 < 2 ^ 64 := by omega
    have hmono : granularity_align Y (nb - s.topsize + 96) ≤ asize := by
      rw [hasize, Nat.mod_eq_of_lt (show nb + 96 < 2 ^ 64 by omega)]
      exact granularity_align_mono Y (by omega) (by omega)
    have hspec := granularity_align_spec Y hx
    unfold HALF_MAX_SIZE_T MAX_SIZE_T at h4
    simp only [moreMemory, hflag, if_false, hholds, nextMorecore, sys_alloc_padding_eq, sub_of_le htop hlt,
      Nat.mod_eq_of_lt hx, Bool.false_eq_true]
    generalize granularity_align Y (nb - s.topsize + 96) = ssize at hmono hspec
    have hspec' : nb - s.topsize + 96 ≤ ssize ∧ 16 ∣ ssize := by
      rcases hspec with ⟨h5, -, -, h6⟩ | ⟨-, h6⟩
      · exact ⟨h5, Y.page_ok.1.trans h6⟩
      · omega
    have hfail : ∀ s' : MState, s' = { s with noncontiguous := true } →
        (Y.length < s.seg_size + asize ∨ HALF_MAX_SIZE_T ≤ asize) →
        noncontiguousMorecore Y s' nb asize = ((CMFAIL, 0), s') := by
      rintro s' rfl hno
      rw [noncontiguousMorecore_spec (s := { s with noncontiguous := true }) h.curr' (by omega) (by omega) hlarge hfoot,
        if_neg (by omega)]
    by_cases hhalf : ssize < HALF_MAX_SIZE_T
    · have hle' : s.seg_base + s.seg_size + ssize < Y.base + 2 ^ 63 := by
        unfold HALF_MAX_SIZE_T MAX_SIZE_T at hhalf
        omega
      simp only [if_pos hhalf, MORECORE_up h.curr' (show Y.base ≤ s.seg_base + s.seg_size by omega) hle']
      by_cases hroom : s.seg_base + s.seg_size + ssize ≤ Y.base + Y.length
      · simp only [if_pos hroom, if_true, if_neg hne]
        exact .inl ⟨ssize, by simp [hflag], hspec'.2, by omega, by omega⟩
      · have hno : Y.length < s.seg_size + asize ∨ HALF_MAX_SIZE_T ≤ asize := .inl (by omega)
        simp only [if_neg hroom, if_neg (Ne.symm hne), partialFailure_failed, if_true, hfail _ rfl hno]
        exact .inr ⟨⟨true, rfl⟩, hno.symm⟩
    · have hno : Y.length < s.seg_size + asize ∨ HALF_MAX_SIZE_T ≤ asize := .inr (by omega)
      simp only [if_neg hhalf, partialFailure_failed, if_true, hfail _ rfl hno]
      exact .inr ⟨⟨true, rfl⟩, hno.symm⟩

/-- a first segment is made at the start of the heap, or there is no room for asize bytes -/
theorem moreMemory_fresh (h : Fresh Y s) (hnb : Tame nb) (hlt : nb < 2 ^ 64) (ha : 16 ∣ nb)
    (hasize : asize = granularity_align Y ((nb + SYS_ALLOC_PADDING) % 2 ^ 64)) (hle : nb < asize) :
    (∃ tsize flag, moreMemory Y s nb asize = ((Y.base, tsize),
          { s with noncontiguous := flag, heap_curr := ((Y.base + tsize : ℕ) : ℤ) }) ∧
        16 ∣ tsize ∧ tsize ≤ Y.length ∧ nb + 96 ≤ tsize) ∨
      (∃ flag, moreMemory Y s nb asize = ((CMFAIL, 0), { s with noncontiguous := flag })) ∧
        (HALF_MAX_SIZE_T ≤ asize ∨ Y.length < asize) := by
  obtain ⟨h1, h16, h2, h3, h4⟩ := asize_spec Y hnb hlt ha hasize hle
  rw [sys_alloc_padding_eq] at h1 h2 h3
  have hbound := Y.bound'
  have hpos := Y.base_pos'
  have hcurr : s.heap_curr = (Y.base : ℤ) := h.curr.trans Y.base_cast.symm
  have hne : Y.base ≠ CMFAIL := by
    unfold CMFAIL MAX_SIZE_T
    omega
  have hlarge : HALF_MAX_SIZE_T ≤ asize ∨ asize ≤ 2 ^ 62 + 2 ^ 12 + Y.page_size ∧ asize < HALF_MAX_SIZE_T :=
    h4.imp_left And.left
  have hfoot : nb + TOP_FOOT_SIZE < asize := by
    rw [top_foot_size_eq]
    omega
  have hnon : ∀ flag, noncontiguousMorecore Y { s with noncontiguous := flag } nb asize =
      if asize < HALF_MAX_SIZE_T ∧ Y.base + asize ≤ Y.base + Y.length then
        ((Y.base, asize), { s with noncontiguous := flag, heap_curr := ((Y.base + asize : ℕ) : ℤ) })
      else ((CMFAIL, 0), { s with noncontiguous := flag }) := fun flag =>
    noncontiguousMorecore_spec (s := { s with noncontiguous := flag }) hcurr (le_refl _) (by omega) hlarge hfoot
  -- the way through the second call
  have hsecond : ∀ flag, (∃ tsize flag', noncontiguousMorecore Y { s with noncontiguous := flag } nb asize =
        ((Y.base, tsize), { s with noncontiguous := flag', heap_curr := ((Y.base + tsize : ℕ) : ℤ) }) ∧
          16 ∣ tsize ∧ tsize ≤ Y.length ∧ nb + 96 ≤ tsize) ∨
      (∃ flag', noncontiguousMorecore Y { s with noncontiguous := flag } nb asize =
        ((CMFAIL, 0), { s with noncontiguous := flag' })) ∧ (HALF_MAX_SIZE_T ≤ asize ∨ Y.length < asize) := by
    intro flag
    rw [hnon]
    split_ifs with hroom
    · exact .inl ⟨asize, flag, rfl, h16, by omega, h1⟩
    · exact .inr ⟨⟨flag, rfl⟩, by omega⟩
  by_cases hflag : s.noncontiguous = true
  · simp only [moreMemory, hflag, if_true]
    exact hsecond s.noncontiguous
  · have hfirst : s.top = 0 ∨ segment_holds s s.top = false := .inl h.zero.1
    simp only [moreMemory, if_neg hflag, if_pos hfirst, firstMorecore, MORECORE_zero hcurr (le_refl _)
      (show Y.base ≤ Y.base + Y.length by omega), if_pos hne]
    -- the bytes up to the next page
    generalize hssize : (if is_page_aligned Y Y.base = true then asize else
      (asize + sub (page_align Y Y.base) Y.base) % 2 ^ 64) = ssize
    have hpad : HALF_MAX_SIZE_T ≤ asize ∨ 16 ∣ ssize ∧ asize ≤ ssize ∧ ssize < asize + Y.page_size := by
      by_cases hal : is_page_aligned Y Y.base = true
      · rw [if_pos hal] at hssize
        exact .inr ⟨hssize ▸ h16, hssize.le, by have := Y.page_ok.2.1; omega⟩
      · rw [if_neg hal] at hssize
        refine hlarge.imp_right ?_
        rintro ⟨hsmall, _⟩
        rcases granularity_align_spec Y (x := Y.base) (by omega) with ⟨g1, g2, g3, g4⟩ | ⟨-, g⟩
        · change Y.base ≤ page_align Y Y.base at g1
          change page_align Y Y.base < _ at g2 g3
          change _ ∣ page_align Y Y.base at g4
          have h16' := Y.page_ok.1.trans g4
          have hb16 := Y.base_dvd
          rw [sub_of_le g1 g3, Nat.mod_eq_of_lt (by omega)] at hssize
          omega
        · omega
    by_cases hok : nb < ssize ∧ ssize < HALF_MAX_SIZE_T ∧ (Y.footprint_limit = 0 ∨
        s.footprint < (s.footprint + ssize) % 2 ^ 64 ∧ (s.footprint + ssize) % 2 ^ 64 ≤ Y.footprint_limit)
    · simp only [if_pos hok]
      have hhalf := hok.2.1
      unfold HALF_MAX_SIZE_T MAX_SIZE_T at hhalf h4 hpad
      obtain ⟨k1, k2, k3⟩ := hpad.resolve_left (by omega)
      simp only [MORECORE_up hcurr (le_refl _) (show Y.base + ssize < Y.base + 2 ^ 63 by omega)]
      by_cases hroom : Y.base + ssize ≤ Y.base + Y.length
      · simp only [if_pos hroom, if_true, if_neg hne]
        exact .inl ⟨ssize, s.noncontiguous, rfl, k1, by omega, by omega⟩
      · simp only [if_neg hroom, if_neg hne.symm, partialFailure_failed, if_true]
        exact hsecond true
    · simp only [if_neg hok, partialFailure_failed, if_true]
      exact hsecond true

end

/-! ## The top chunk -/

section
variable {Y : Sys} {s s' : MState} {bs : List (ℕ × Tag)} {a p q n x t z : ℕ} {pin : Bool} {mem : Mem}

theorem align_offset_of_dvd (hp : 16 ∣ p) : align_offset (chunk2mem p) = 0 := by
  unfold align_offset chunk2mem MALLOC_ALIGNMENT TWO_SIZE_T_SIZES SIZE_T_SIZE
  rw [if_pos (by omega)]

theorem init_top_eq (hp : 16 ∣ p) (ht : t < 2 ^ 64) : init_top s p t =
    { s with top := p, topsize := t, trim_check := DEFAULT_TRIM_THRESHOLD,
             mem := set_head (set_head s.mem p ⟨t, true, false⟩) (p + t) ⟨TOP_FOOT_SIZE, false, false⟩ } := by
  simp only [init_top, align_offset_of_dvd hp, Nat.add_zero, sub_of_le (Nat.zero_le t) ht, Nat.sub_zero]

/-- a top chunk of any size may be put behind chunks of which the last is in use -/
theorem Layout.newTop (h : Layout mem a pin bs) (hpin : pinAfter pin bs = true) (hp : p = a + total bs) (h16 : 16 ∣ t)
    (ht : 16 ≤ t) :
    Layout (set_head (set_head mem p ⟨t, true, false⟩) (p + t) ⟨TOP_FOOT_SIZE, false, false⟩) a pin
      (bs ++ [(t, .top), (TOP_FOOT_SIZE, .foot)]) := by
  have h8 : 8 ∣ t := (by decide : 8 ∣ 16).trans h16
  have h8' : 8 ∣ TOP_FOOT_SIZE := by decide
  subst hp
  rw [layout_append]
  refine ⟨h.congr fun x _ hx => ?_, ⟨?_, h16, ht, fun _ => hpin, by simp⟩, ⟨?_, by decide, by decide, by simp, by simp⟩,
    trivial⟩
  · rw [set_head_of_ne (by omega), set_head_of_ne (by omega)]
  · rw [head_set_head h8', if_neg (by omega), head_set_head h8, if_pos rfl, hpin]
    rfl
  · rw [head_set_head h8', if_pos rfl]
    rfl

theorem Inv.pinned_top (h : Inv Y s bs) : pinAfter true bs = true :=
  (layout_append.mp h.layout).2.1.pinned (.inr rfl)

/-- the segment may be made longer or shorter at its end -/
theorem Inv.newTop {mf : ℕ} {flag : Bool} (h : Inv Y s bs) (h16 : 16 ∣ t) (ht : 16 ≤ t) (hz : z = total bs + t + 80)
    (hfits : z ≤ Y.length)
    (hs' : s' = init_top { s with seg_size := z, footprint := z, max_footprint := mf, noncontiguous := flag,
                                  heap_curr := ((s.seg_base + z : ℕ) : ℤ) } s.top t) :
    Inv Y s' bs ∧ s'.top = s.top ∧ s'.topsize = t ∧ ∀ x ≤ s.top, s'.mem x = s.mem x := by
  have hbound := Y.bound'
  have htop16 := h.top_ok.1
  rw [init_top_eq htop16 (by omega)] at hs'
  have hmem : ∀ x ≤ s.top, s'.mem x = s.mem x := fun x hx => by
    rw [hs']
    simp only
    rw [set_head_of_ne (by omega), set_head_of_ne (by omega)]
  have hlay : Layout s'.mem Y.base true (bs ++ [(t, .top), (TOP_FOOT_SIZE, .foot)]) := by
    rw [hs']
    exact h.layout_bs.newTop h.pinned_top h.top h16 ht
  refine ⟨?_, by rw [hs'], by rw [hs'], hmem⟩
  have htop := h.top
  have hbinned : InBins Y s' (frees Y.base bs \ {s.dv}) := by
    refine h.binned_frame (p := s.top) (n := t) (by rw [hs']) (by rw [hs']) (by omega) (by omega) (fun x hx => ?_)
      (fun q hq => .inl (h.chunk (h.free_size hq.1)).2.2.2.2) fun q hq => ?_
    · rw [hs']
      simp only
      rw [set_head_of_ne (by omega), set_head_of_ne (by omega)]
    · obtain ⟨⟨k, hk⟩, -⟩ := hq
      exact chunksize_congr h.layout_bs (layout_append.mp hlay).1 hk hk
  subst hs'
  exact ⟨h.base, by push_cast; rfl, hfits, h.least, rfl, hlay, h.tags, h.top,
    by simp only [fullRow, total_append, total_cons, total_nil, top_foot_size_eq]; omega, h.dv, Set.sdiff_subset, hbinned⟩

/-- a segment is made in a new space -/
theorem Fresh.newTop {mf rc : ℕ} {flag : Bool} (h : Fresh Y s) (h16 : 16 ∣ t) (ht : 16 ≤ t) (hz : z = t + 80)
    (hfits : z ≤ Y.length)
    (hs' : s' = init_top { s with least_addr := Y.base, seg_base := Y.base, seg_size := z, release_checks := rc,
                                  footprint := z, max_footprint := mf, noncontiguous := flag,
                                  heap_curr := ((Y.base + z : ℕ) : ℤ), mem := init_bins Y s.mem } Y.base t) :
    Inv Y s' [] ∧ s'.top = Y.base ∧ s'.topsize = t := by
  have hbound := Y.bound'
  rw [init_top_eq Y.base_dvd (by omega)] at hs'
  have hlay : Layout s'.mem Y.base true ([] ++ [(t, .top), (TOP_FOOT_SIZE, .foot)]) := by
    rw [hs']
    have hnil : Layout (init_bins Y s.mem) Y.base true [] := trivial
    exact hnil.newTop rfl rfl h16 ht
  refine ⟨?_, by rw [hs'], by rw [hs']⟩
  have hbinned : InBins Y s' (frees Y.base [] \ {s.dv}) := by
    rw [frees_nil, Set.empty_sdiff]
    refine inBins_empty (by rw [hs', ← h.bins.1]) (by rw [hs', ← h.bins.2]) fun i hi => ?_
    have hout := Y.state_outside (state_treebin hi)
    rw [hs']
    simp only
    rw [set_head_of_ne (by omega), set_head_of_ne (by omega), init_bins_tree, h.state _ (state_treebin hi)]
  subst hs'
  exact ⟨rfl, by push_cast; rfl, hfits, rfl, rfl, hlay, by simp, rfl,
    by simp only [fullRow, List.nil_append, total_cons, total_nil, top_foot_size_eq]; omega,
    .inl ⟨h.zero.2.2.1, h.zero.2.2.2.1⟩, Set.sdiff_subset, hbinned⟩

end

/-! ## sys_alloc -/

/-- the bytes that a chunk of nb bytes takes from the heap, in pages -/
def pagesFor (Y : Sys) (nb : ℕ) : ℕ := (nb + SYS_ALLOC_PADDING + (Y.page_size - 1)) / Y.page_size * Y.page_size

/-- there is no room for pages for nb bytes behind what is used of the heap, or it is more than allowed -/
def NoRoom (Y : Sys) (used nb : ℕ) : Prop :=
  Y.length < used + pagesFor Y nb ∨ (Y.footprint_limit ≠ 0 ∧ Y.footprint_limit < used + pagesFor Y nb)

section
variable {Y : Sys} {s : MState} {bs : List (ℕ × Tag)} {nb asize used : ℕ}

theorem le_pagesFor (Y : Sys) (nb : ℕ) : nb + 96 ≤ pagesFor Y nb := by
  have hpos := Y.page_ok.2.1
  have hdiv := Nat.div_add_mod (nb + SYS_ALLOC_PADDING + (Y.page_size - 1)) Y.page_size
  have hmod := Nat.mod_lt (nb + SYS_ALLOC_PADDING + (Y.page_size - 1)) (show 0 < Y.page_size by omega)
  rw [Nat.mul_comm] at hdiv
  unfold pagesFor
  rw [sys_alloc_padding_eq] at *
  omega

theorem asize_eq (h : nb + 96 + Y.page_size ≤ 2 ^ 64) :
    granularity_align Y ((nb + SYS_ALLOC_PADDING) % 2 ^ 64) = pagesFor Y nb := by
  have hpos := Y.page_ok.2.1
  unfold granularity_align align pagesFor Sys.granularity
  rw [sys_alloc_padding_eq, Nat.mod_eq_of_lt (by omega), Nat.mod_eq_of_lt (by omega)]

/-- sizes that wrap around have no room -/
theorem noRoom_of_wrap (hle : granularity_align Y ((nb + SYS_ALLOC_PADDING) % 2 ^ 64) ≤ nb) :
    NoRoom Y used nb := by
  have hbound := Y.bound'
  have hpages := le_pagesFor Y nb
  by_cases hwrap : nb + 96 + Y.page_size ≤ 2 ^ 64
  · rw [asize_eq hwrap] at hle
    omega
  · exact .inl (by omega)

/-- the first two checks -/
theorem sys_alloc_checks (hlt : nb < 2 ^ 64) (hnb : Tame nb) (h16 : 16 ∣ nb) (hfoot : s.footprint = used)
    (hused : used ≤ Y.length) :
    (sys_alloc Y s nb = .ok (NULL, s) ∧ NoRoom Y used nb) ∨
      ∃ asize, asize = granularity_align Y ((nb + SYS_ALLOC_PADDING) % 2 ^ 64) ∧ nb < asize ∧ asize = pagesFor Y nb ∧
        sys_alloc Y s nb =
          (let r := moreMemory Y s nb asize
           if r.1.1 ≠ CMFAIL then do
             let s ← addMemory Y r.2 r.1.1 r.1.2
             if nb < s.topsize then .ok (split_top s nb) else .ok (NULL, s)
           else .ok (NULL, r.2)) := by
  have hbound := Y.bound'
  unfold sys_alloc
  generalize hasize : granularity_align Y ((nb + SYS_ALLOC_PADDING) % 2 ^ 64) = asize
  by_cases hle : asize ≤ nb
  · refine .inl ⟨by simp only [if_pos hle], ?_⟩
    rw [← hasize] at hle
    exact noRoom_of_wrap hle
  · obtain ⟨-, -, -, h3, -⟩ := asize_spec Y hnb hlt h16 hasize.symm (not_le.mp hle)
    rw [sys_alloc_padding_eq] at h3
    have hpages := asize_eq h3
    rw [hasize] at hpages
    by_cases hlim : Y.footprint_limit ≠ 0 ∧ ((s.footprint + asize) % 2 ^ 64 ≤ s.footprint ∨
        Y.footprint_limit < (s.footprint + asize) % 2 ^ 64)
    · refine .inl ⟨by simp only [if_neg hle, if_pos hlim], ?_⟩
      unfold NoRoom
      rw [← hpages]
      omega
    · exact .inr ⟨asize, rfl, not_le.mp hle, hpages, by simp only [if_neg hle, if_neg hlim]⟩

/-- **Memory from the system extends the one segment.** A chunk is made from it, or there is no room. -/
theorem sys_alloc_inv (h : Inv Y s bs) (hnb : Tame nb) (hlt : nb < 2 ^ 64) (h16 : 16 ∣ nb) (h32 : MIN_CHUNK_SIZE ≤ nb)
    (htop : s.topsize ≤ nb) :
    (∃ flag, sys_alloc Y s nb = .ok (NULL, { s with noncontiguous := flag }) ∧ NoRoom Y s.seg_size nb) ∨
      ∃ s' bs', sys_alloc Y s nb = .ok (chunk2mem s.top, s') ∧ Allocated Y s s' bs bs' nb s.top nb := by
  have hbound := Y.bound'
  have hfits := h.fits
  have hbase := h.base
  have htopeq := h.top
  have hseg := h.seg_size_eq
  obtain ⟨hfail, hno⟩ | ⟨asize, hasize, hlt', hpages, heq⟩ := sys_alloc_checks hlt hnb h16 h.footprint hfits
  · exact .inl ⟨s.noncontiguous, hfail, hno⟩
  rcases moreMemory_inv h hnb hlt h16 hasize hlt' htop with ⟨tsize, hmore, ht16, hfit, hroom⟩ | ⟨⟨flag, hmore⟩, hno⟩
  · -- the segment is extended
    have hne : s.seg_base + s.seg_size ≠ CMFAIL := by
      unfold CMFAIL MAX_SIZE_T
      omega
    have htop0 : ¬ s.top = 0 := h.top_pos.ne'
    have hholds : segment_holds s s.top = true := by
      simp only [segment_holds, Bool.and_eq_true, decide_eq_true_eq]
      omega
    obtain ⟨s₁, hs₁⟩ : ∃ s₁, s₁ = init_top
        { s with seg_size := s.seg_size + tsize, footprint := s.seg_size + tsize,
                 max_footprint := max s.max_footprint (s.footprint + tsize), noncontiguous := s.noncontiguous,
                 heap_curr := ((s.seg_base + (s.seg_size + tsize) : ℕ) : ℤ) } s.top (s.topsize + tsize) := ⟨_, rfl⟩
    obtain ⟨hinv, htop', htopsize, hmem⟩ := h.newTop (dvd_add h.top_ok.2.1 ht16)
      (by have := h.top_ok.2.2; omega) (by omega) hfit hs₁
    have hadd : addMemory Y { s with heap_curr := ((s.seg_base + s.seg_size + tsize : ℕ) : ℤ) } (s.seg_base + s.seg_size)
        tsize = .ok s₁ := by
      rw [hs₁]
      simp only [addMemory, if_neg htop0, h.footprint, Nat.add_assoc]
      exact if_pos ⟨trivial, hholds⟩
    have hlt'' : nb < s₁.topsize := by omega
    obtain ⟨bs', hp, hall⟩ := hinv.split_top h16 h32 hlt''
    refine .inr ⟨(split_top s₁ nb).2, bs', ?_, ?_⟩
    · simp only [heq, hmore, if_pos hne, hadd, bind, Except.bind, if_pos hlt'']
      rw [← htop', ← hp]
    · rw [htop'] at hall
      refine ⟨hall.inv, hall.fits, hall.tight, hall.new, hall.live, fun q k hq x hx => ?_⟩
      have hk := (h.chunk hq).2.2.2.2
      rw [hall.data q k hq x hx, hmem x (hx.2.trans hk)]
  · -- there is none
    refine .inl ⟨flag, by simp only [heq, hmore, ne_eq, not_true, if_false], ?_⟩
    unfold NoRoom
    rw [← hpages]
    unfold HALF_MAX_SIZE_T MAX_SIZE_T at hno
    omega

/-- **The first memory from the system.** -/
theorem sys_alloc_fresh (h : Fresh Y s) (hnb : Tame nb) (hlt : nb < 2 ^ 64) (h16 : 16 ∣ nb) (h32 : MIN_CHUNK_SIZE ≤ nb) :
    (∃ flag, sys_alloc Y s nb = .ok (NULL, { s with noncontiguous := flag }) ∧ NoRoom Y 0 nb) ∨
      ∃ s' bs', sys_alloc Y s nb = .ok (chunk2mem Y.base, s') ∧ Inv Y s' bs' ∧
        ∀ q k, At Y.base bs' q k .used ↔ q = Y.base ∧ k = nb := by
  have hbound := Y.bound'
  obtain ⟨hfail, hno⟩ | ⟨asize, hasize, hlt', hpages, heq⟩ :=
    sys_alloc_checks (Y := Y) hlt hnb h16 h.zero.2.2.2.2.2 (Nat.zero_le _)
  · exact .inl ⟨s.noncontiguous, hfail, hno⟩
  rcases moreMemory_fresh h hnb hlt h16 hasize hlt' with ⟨tsize, flag, hmore, ht16, hfit, hroom⟩ | ⟨⟨flag, hmore⟩, hno⟩
  · have hne : Y.base ≠ CMFAIL := by
      unfold CMFAIL MAX_SIZE_T
      omega
    have h80 : 16 ∣ tsize - 80 := Nat.dvd_sub ht16 (by decide)
    obtain ⟨s₁, hs₁⟩ : ∃ s₁, s₁ = init_top
        { s with least_addr := Y.base, seg_base := Y.base, seg_size := tsize, release_checks := MAX_RELEASE_CHECK_RATE,
                 footprint := tsize, max_footprint := max s.max_footprint (s.footprint + tsize), noncontiguous := flag,
                 heap_curr := ((Y.base + tsize : ℕ) : ℤ), mem := init_bins Y s.mem } Y.base (tsize - 80) := ⟨_, rfl⟩
    obtain ⟨hinv, htop', htopsize⟩ := h.newTop h80 (by unfold MIN_CHUNK_SIZE at h32; omega) (by omega) hfit hs₁
    have hadd : addMemory Y { s with noncontiguous := flag, heap_curr := ((Y.base + tsize : ℕ) : ℤ) } Y.base tsize =
        .ok s₁ := by
      have hleast : s.least_addr = 0 ∨ Y.base < s.least_addr := .inl h.zero.2.2.2.2.1
      rw [hs₁]
      simp only [addMemory, if_pos h.zero.1, if_pos hleast, top_foot_size_eq]
      rw [sub_of_le (by omega) (by omega), h.zero.2.2.2.2.2, Nat.zero_add]
    have hlt'' : nb < s₁.topsize := by omega
    obtain ⟨bs', hp, hall⟩ := hinv.split_top h16 h32 hlt''
    refine .inr ⟨(split_top s₁ nb).2, bs', ?_, hall.inv, fun q k => ?_⟩
    · simp only [heq, hmore, if_pos hne, hadd, bind, Except.bind, if_pos hlt'']
      rw [← htop', ← hp]
    · rw [hall.live, htop']
      simp
  · refine .inl ⟨flag, by simp only [heq, hmore, ne_eq, not_true, if_false], ?_⟩
    unfold NoRoom
    rw [← hpages]
    unfold HALF_MAX_SIZE_T MAX_SIZE_T at hno
    omega

/-! ## sys_trim -/

/-- whole pages are given back, and what is kept is at most a page more than asked for -/
theorem releaseTop_spec {pad : ℕ} (h : Inv Y s bs) (hpad : pad < s.topsize) (h80 : TOP_FOOT_SIZE ≤ pad) :
    ∃ extra, releaseTop Y s pad = (extra, { s with heap_curr := ((s.seg_base + (s.seg_size - extra) : ℕ) : ℤ) }) ∧
      16 ∣ extra ∧ pad < s.topsize - extra ∧ s.topsize - extra ≤ pad + Y.page_size ∧ extra < s.topsize := by
  have hbound := Y.bound'
  have hfits := h.fits
  have hbase := h.base
  have hseg := h.seg_size_eq
  obtain ⟨hp16, hpge, -⟩ := Y.page_ok
  rw [top_foot_size_eq] at h80
  have hlow : Y.base ≤ s.seg_base + s.seg_size := by omega
  have hhigh : s.seg_base + s.seg_size ≤ Y.base + Y.length := by omega
  -- one page less than it takes to cover what is too much
  have hdiv := Nat.div_add_mod (s.topsize - pad + (Y.page_size - 1)) Y.page_size
  have hmod := Nat.mod_lt (s.topsize - pad + (Y.page_size - 1)) (show 0 < Y.page_size by omega)
  have hone : 1 ≤ (s.topsize - pad + (Y.page_size - 1)) / Y.page_size :=
    (Nat.le_div_iff_mul_le (by omega)).mpr (by omega)
  have hq : (s.topsize - pad + (Y.page_size - 1)) / Y.page_size ≤ s.topsize - pad + (Y.page_size - 1) := Nat.div_le_self ..
  have hextra : ((s.topsize - pad + (Y.page_size - 1)) / Y.page_size - 1) * Y.page_size =
      Y.page_size * ((s.topsize - pad + (Y.page_size - 1)) / Y.page_size) - Y.page_size := by
    rw [Nat.sub_mul, Nat.one_mul, Nat.mul_comm]
  have hdvd : 16 ∣ ((s.topsize - pad + (Y.page_size - 1)) / Y.page_size - 1) * Y.page_size := hp16.mul_left _
  unfold releaseTop Sys.granularity
  simp only [sub_of_le hone (show _ < 2 ^ 64 by omega)]
  generalize ((s.topsize - pad + (Y.page_size - 1)) / Y.page_size - 1) * Y.page_size = extra at *
  have hhalf : ¬ HALF_MAX_SIZE_T ≤ extra := by
    unfold HALF_MAX_SIZE_T MAX_SIZE_T
    omega
  refine ⟨extra, ?_, hdvd, by omega, by omega, by omega⟩
  simp only [if_neg hhalf, MORECORE_zero h.curr' hlow hhigh, if_true]
  rcases Nat.eq_zero_or_pos extra with rfl | hpos
  · have hzero : sub 0 0 = 0 := by decide
    simp only [hzero, MORECORE_zero h.curr' hlow hhigh, lt_irrefl, and_false, if_false, Nat.sub_zero, ← h.curr']
  · have hlow' : Y.base + extra ≤ s.seg_base + s.seg_size := by omega
    have hne : s.seg_base + s.seg_size ≠ CMFAIL := by
      unfold CMFAIL MAX_SIZE_T
      omega
    simp only [MORECORE_down h.curr' hlow' hhigh hpos]
    rw [MORECORE_zero (c := s.seg_base + s.seg_size - extra) rfl (by omega) (by omega), if_pos ⟨hne, by omega⟩,
      Nat.sub_sub_self (by omega), ← Nat.add_sub_assoc (by omega)]

/-- the top chunk gets smaller, and the break goes down with it -/
theorem sys_trim_inv (pad : ℕ) (h : Inv Y s bs) :
    Inv Y (sys_trim Y s pad) bs ∧ (sys_trim Y s pad).top = s.top ∧ (∀ x ≤ s.top, (sys_trim Y s pad).mem x = s.mem x) ∧
      (sys_trim Y s pad).topsize ≤ s.topsize ∧
      (pad < MAX_REQUEST → (sys_trim Y s pad).topsize ≤ pad + TOP_FOOT_SIZE + Y.page_size) := by
  have hretrim : ∀ s' trim_check, Inv Y s' bs → Inv Y { s' with trim_check } bs := fun _ _ h' =>
    ⟨h'.base, h'.curr, h'.fits, h'.least, h'.footprint, h'.layout, h'.tags, h'.top, h'.size, h'.dv, h'.free,
      h'.binned.of_same rfl rfl rfl⟩
  unfold sys_trim
  by_cases hpad : pad < MAX_REQUEST ∧ s.top ≠ 0
  · by_cases hlt : pad + TOP_FOOT_SIZE < s.topsize
    · obtain ⟨extra, hrel, h16, hkeep, hmost, hlt'⟩ := releaseTop_spec h hlt (Nat.le_add_left ..)
      simp only [if_pos hpad, if_pos hlt, hrel]
      have hseg := h.seg_size_eq
      have hfits := h.fits
      rw [top_foot_size_eq] at hkeep
      rcases Nat.eq_zero_or_pos extra with rfl | hpos
      · simp only [ne_eq, not_true, if_false, true_and, Nat.sub_zero, ← h.curr']
        rw [Nat.sub_zero] at hmost
        split_ifs
        · exact ⟨hretrim _ _ h, rfl, fun _ _ => rfl, le_refl _, fun _ => hmost⟩
        · exact ⟨h, rfl, fun _ _ => rfl, le_refl _, fun _ => hmost⟩
      · simp only [ne_eq, hpos.ne', not_false_eq_true, if_true, false_and, if_false]
        obtain ⟨hinv, htop, hsize, hmem⟩ := h.newTop (z := s.seg_size - extra)
          (Nat.dvd_sub h.top_ok.2.1 h16) (by omega) (by omega) (by omega) rfl
        rw [h.footprint]
        exact ⟨hinv, htop, hmem, hsize.trans_le (Nat.sub_le ..), fun _ => hsize.trans_le hmost⟩
    · simp only [if_pos hpad, if_neg hlt, ne_eq, not_true, if_false, true_and]
      split_ifs
      · exact ⟨hretrim _ _ h, rfl, fun _ _ => rfl, le_refl _, fun _ => by dsimp only; omega⟩
      · exact ⟨h, rfl, fun _ _ => rfl, le_refl _, fun _ => by omega⟩
  · rw [if_neg hpad]
    refine ⟨h, rfl, fun _ _ => rfl, le_refl _, fun hlt => ?_⟩
    exact absurd ⟨hlt, h.top_pos.ne'⟩ hpad

end

end SandiaShmem.Heap
