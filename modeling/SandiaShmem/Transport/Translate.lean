/-
From a local symmetric address to its place on another PE: `shmem_transport_ofi_get_mr`, `shmem_transport_ucx_get_mr`,
PORTALS4_GET_REMOTE_ACCESS_TWOPT and XPMEM_GET_REMOTE_ACCESS (`src/transport_ofi.h`, `src/transport_ucx.h`,
`src/transport_portals4.h`, `src/transport_xpmem.h`).

There are two symmetric segments, data and heap. Each translation finds the one that an address is in and names the byte
at the same offset of that segment on the other PE, in its own terms: a memory region and an address in it, a portal table
entry and an offset, or a pointer into an attached segment. Some look for the segment with `>=`, some with `>`; those that
check nothing only compare with the start of the heap.

- `RightAt`: a translation names the byte that has the offset of the address in its segment, or reports an error.
- `ofiGetMr_right`, `ucxGetMr_right`: with `>=` a translation is right everywhere.
- `strict_right_iff`: with `>`, except for the first byte of a segment.
- `heapBase_right_iff`: without a check, for a data segment that is below the start of the heap.
- `translations_agree_iff`: when all of them are right.
-/
import Mathlib.Tactic

namespace SandiaShmem.Transport.Translate

/-! ## Model -/

inductive Segment where
  | data
  | heap
deriving DecidableEq, Repr

/-- the symmetric segments of the own PE -/
structure Layout where
  base : Segment → ℤ
  length : Segment → ℕ
  disjoint : base .data + length .data ≤ base .heap ∨ base .heap + length .heap ≤ base .data

/-- an address is in a segment -/
def Layout.Mem (L : Layout) (s : Segment) (a : ℤ) : Prop := L.base s ≤ a ∧ a < L.base s + L.length s

instance (L : Layout) (s : Segment) (a : ℤ) : Decidable (L.Mem s a) := inferInstanceAs (Decidable (_ ∧ _))

/-- what is known of the other PE -/
structure Peer where
  /-- `shmem_transport_ofi_target_data_keys`, `.._heap_keys` -/
  ofi_key : Segment → ℤ
  /-- `shmem_transport_ofi_target_data_addrs`, `.._heap_addrs` -/
  ofi_addr : Segment → ℤ
  /-- `data_rkey`, `heap_rkey` -/
  ucx_rkey : Segment → ℤ
  /-- `data_base`, `heap_base` -/
  ucx_base : Segment → ℤ
  /-- `data_pt`, `heap_pt` -/
  pt : Segment → ℤ
  /-- `data_ptr`, `heap_ptr` -/
  xpmem_ptr : Segment → ℤ

/-- the build and the provider -/
structure Build where
  ENABLE_MR_SCALABLE : Bool
  ENABLE_REMOTE_VIRTUAL_ADDRESSING : Bool
  /-- `shmem_transport_ofi_use_absolute_address` -/
  absolute_address : Bool
deriving DecidableEq, Repr

/-- a place on the other PE: the segment that was selected (none when one region holds the whole address space), the key or
portal table entry, and an address or offset -/
structure Place where
  segment : Option Segment
  region : ℤ
  addr : ℤ
deriving DecidableEq, Repr

/-- the segment whose range holds the address, its start compared by `lo`; `none` stands for the reported error -/
def byRange (L : Layout) (lo : ℤ → ℤ → Prop) [DecidableRel lo] (f : Segment → Place) (a : ℤ) : Option Place :=
  if lo (L.base .data) a ∧ a < L.base .data + L.length .data then some (f .data)
  else if lo (L.base .heap) a ∧ a < L.base .heap + L.length .heap then some (f .heap)
  else none

/-- the segment by the start of the heap alone -/
def byHeapBase (L : Layout) (f : Segment → Place) (a : ℤ) : Option Place :=
  if a < L.base .heap then some (f .data) else some (f .heap)

section
variable (B : Build) (L : Layout) (P : Peer)

/-- the key and the address that `shmem_transport_ofi_get_mr` sets when it has found the segment -/
def ofiPlace (a : ℤ) (s : Segment) : Place :=
  if B.ENABLE_MR_SCALABLE then ⟨s, if s = .data then 0 else 1, a - L.base s⟩
  else if B.ENABLE_REMOTE_VIRTUAL_ADDRESSING then ⟨s, P.ofi_key s, if B.absolute_address then a else a - L.base s⟩
  else ⟨s, P.ofi_key s, P.ofi_addr s + (a - L.base s)⟩

/-- `shmem_transport_ofi_get_mr` -/
def ofiGetMr (a : ℤ) : Option Place :=
  if B.ENABLE_MR_SCALABLE ∧ B.ENABLE_REMOTE_VIRTUAL_ADDRESSING then some ⟨none, 0, a⟩
  else byRange L (· ≤ ·) (ofiPlace B L P a) a

/-- `shmem_transport_ucx_get_mr` -/
def ucxGetMr (a : ℤ) : Option Place :=
  byRange L (· ≤ ·)
    (fun s => ⟨s, P.ucx_rkey s, if B.ENABLE_REMOTE_VIRTUAL_ADDRESSING then a else a - L.base s + P.ucx_base s⟩) a

def portals4Place (a : ℤ) (s : Segment) : Place := ⟨s, P.pt s, a - L.base s⟩

def xpmemPlace (a : ℤ) (s : Segment) : Place := ⟨s, 0, a - L.base s + P.xpmem_ptr s⟩

/-- PORTALS4_GET_REMOTE_ACCESS_TWOPT with ENABLE_ERROR_CHECKING -/
def portals4Checked (a : ℤ) : Option Place := byRange L (· < ·) (portals4Place L P a) a

/-- PORTALS4_GET_REMOTE_ACCESS_TWOPT without -/
def portals4Unchecked (a : ℤ) : Option Place := byHeapBase L (portals4Place L P a) a

/-- XPMEM_GET_REMOTE_ACCESS with ENABLE_ERROR_CHECKING; its error is the pointer NULL -/
def xpmemChecked (a : ℤ) : Option Place := byRange L (· < ·) (xpmemPlace L P a) a

/-- XPMEM_GET_REMOTE_ACCESS without -/
def xpmemUnchecked (a : ℤ) : Option Place := byHeapBase L (xpmemPlace L P a) a

end

/-- the translations -/
inductive Translation where
  | ofi
  | ucx
  | portals4Checked
  | portals4Unchecked
  | xpmemChecked
  | xpmemUnchecked
deriving DecidableEq, Repr

section
variable (B : Build) (L : Layout) (P : Peer)

def Translation.translate : Translation → ℤ → Option Place
  | .ofi => ofiGetMr B L P
  | .ucx => ucxGetMr B L P
  | .portals4Checked => Translate.portals4Checked L P
  | .portals4Unchecked => Translate.portals4Unchecked L P
  | .xpmemChecked => Translate.xpmemChecked L P
  | .xpmemUnchecked => Translate.xpmemUnchecked L P

/-- the translation checks that the address is symmetric -/
def Translation.checked : Translation → Bool
  | .ofi => !(B.ENABLE_MR_SCALABLE && B.ENABLE_REMOTE_VIRTUAL_ADDRESSING)
  | .ucx => true
  | .portals4Checked => true
  | .xpmemChecked => true
  | .portals4Unchecked => false
  | .xpmemUnchecked => false

/-- the name that a translation has for the byte at an offset of a segment of the other PE. With remote virtual addresses
the segments start at the same addresses on all PEs. -/
def Translation.name (s : Segment) (off : ℤ) : Translation → Place
  | .ofi =>
    if B.ENABLE_MR_SCALABLE then
      if B.ENABLE_REMOTE_VIRTUAL_ADDRESSING then ⟨none, 0, L.base s + off⟩ else ⟨s, if s = .data then 0 else 1, off⟩
    else
      ⟨s, P.ofi_key s,
        if B.ENABLE_REMOTE_VIRTUAL_ADDRESSING then if B.absolute_address then L.base s + off else off
        else P.ofi_addr s + off⟩
  | .ucx => ⟨s, P.ucx_rkey s, (if B.ENABLE_REMOTE_VIRTUAL_ADDRESSING then L.base s else P.ucx_base s) + off⟩
  | .portals4Checked => ⟨s, P.pt s, off⟩
  | .portals4Unchecked => ⟨s, P.pt s, off⟩
  | .xpmemChecked => ⟨s, 0, P.xpmem_ptr s + off⟩
  | .xpmemUnchecked => ⟨s, 0, P.xpmem_ptr s + off⟩

/-- a translation is right at an address: in a segment it names the byte at the offset of the address there, and in none
it reports an error if it checks -/
structure RightAt (t : Translation) (a : ℤ) : Prop where
  inside : ∀ s, L.Mem s a → t.translate B L P a = some (t.name B L P s (a - L.base s))
  outside : (∀ s, ¬ L.Mem s a) → t.checked B = true → t.translate B L P a = none

end

/-! ## The two ways to find the segment -/

section
variable {L : Layout} {lo : ℤ → ℤ → Prop} [DecidableRel lo] {f : Segment → Place} {a : ℤ}

/-- an address is in one segment at most -/
theorem Layout.Mem.unique {s s' : Segment} (h : L.Mem s a) (h' : L.Mem s' a) : s = s' := by
  obtain ⟨h1, h2⟩ := h
  obtain ⟨h1', h2'⟩ := h'
  have hd := L.disjoint
  cases s with
  | data =>
    cases s' with
    | data => rfl
    | heap => omega
  | heap =>
    cases s' with
    | data => omega
    | heap => rfl

theorem byRange_eq (hle : ∀ b a, lo b a → b ≤ a) {s : Segment} (hm : L.Mem s a) :
    byRange L lo f a = if lo (L.base s) a then some (f s) else none := by
  have hother : ∀ s', s' ≠ s → ¬ (lo (L.base s') a ∧ a < L.base s' + L.length s') :=
    fun s' hne h => hne (Layout.Mem.unique ⟨hle _ _ h.1, h.2⟩ hm)
  unfold byRange
  cases s with
  | data =>
    rw [if_neg (hother .heap nofun)]
    exact if_congr (and_iff_left hm.2) rfl rfl
  | heap =>
    rw [if_neg (hother .data nofun)]
    exact if_congr (and_iff_left hm.2) rfl rfl

theorem byRange_none (hle : ∀ b a, lo b a → b ≤ a) (hno : ∀ s, ¬ L.Mem s a) : byRange L lo f a = none := by
  unfold byRange
  rw [if_neg fun h => hno .data ⟨hle _ _ h.1, h.2⟩, if_neg fun h => hno .heap ⟨hle _ _ h.1, h.2⟩]

/-- with the start of the segment included every address is found -/
theorem byRange_le {s : Segment} (hm : L.Mem s a) : byRange L (· ≤ ·) f a = some (f s) :=
  (byRange_eq (fun _ _ h => h) hm).trans (if_pos hm.1)

/-- without it, all but the first byte -/
theorem byRange_lt_iff {s : Segment} (hm : L.Mem s a) : byRange L (· < ·) f a = some (f s) ↔ a ≠ L.base s := by
  rw [byRange_eq (fun _ _ h => le_of_lt h) hm]
  constructor
  · intro h heq
    rw [if_neg (by omega)] at h
    exact absurd h nofun
  · intro hne
    exact if_pos (lt_of_le_of_ne hm.1 (Ne.symm hne))

/-- by the start of the heap: the heap, and what of the data segment is below it -/
theorem byHeapBase_iff (hf : f .data ≠ f .heap) {s : Segment} (hm : L.Mem s a) :
    byHeapBase L f a = some (f s) ↔ (s = .data → a < L.base .heap) := by
  unfold byHeapBase
  cases s with
  | data =>
    constructor
    · intro h _
      by_contra hge
      rw [if_neg hge] at h
      exact hf (Option.some.inj h).symm
    · exact fun h => if_pos (h rfl)
  | heap => exact iff_of_true (if_neg (not_lt.mpr hm.1)) nofun

end

/-! ## The translations -/

section
variable {B : Build} {L : Layout} {P : Peer} {a : ℤ}

theorem ofiPlace_eq (hb : ¬ (B.ENABLE_MR_SCALABLE ∧ B.ENABLE_REMOTE_VIRTUAL_ADDRESSING)) (s : Segment) :
    ofiPlace B L P a s = Translation.ofi.name B L P s (a - L.base s) := by
  have hback : L.base s + (a - L.base s) = a := by omega
  simp only [ofiPlace, Translation.name, hback]
  cases hsc : B.ENABLE_MR_SCALABLE with
  | true =>
    have hva : B.ENABLE_REMOTE_VIRTUAL_ADDRESSING = false := by simpa [hsc] using hb
    simp only [hva, if_true, Bool.false_eq_true, if_false]
  | false =>
    cases B.ENABLE_REMOTE_VIRTUAL_ADDRESSING with
    | true => rfl
    | false => rfl

theorem ofiGetMr_right : RightAt B L P .ofi a where
  inside s hm := by
    change ofiGetMr B L P a = _
    unfold ofiGetMr
    by_cases hb : B.ENABLE_MR_SCALABLE ∧ B.ENABLE_REMOTE_VIRTUAL_ADDRESSING
    · have hback : L.base s + (a - L.base s) = a := by omega
      rw [if_pos hb]
      simp only [Translation.name, hb.1, hb.2, if_true, hback]
    · rw [if_neg hb, byRange_le hm, ofiPlace_eq hb]
  outside hno hc := by
    have hb : ¬ (B.ENABLE_MR_SCALABLE ∧ B.ENABLE_REMOTE_VIRTUAL_ADDRESSING) := by
      intro hb
      simp [Translation.checked, hb.1, hb.2] at hc
    exact (if_neg hb).trans (byRange_none (fun _ _ h => h) hno)

theorem ucxGetMr_right : RightAt B L P .ucx a where
  inside s hm := by
    have hback : L.base s + (a - L.base s) = a := by omega
    change ucxGetMr B L P a = _
    unfold ucxGetMr
    rw [byRange_le hm]
    simp only [Translation.name]
    cases B.ENABLE_REMOTE_VIRTUAL_ADDRESSING with
    | true => simp only [if_true, hback]
    | false => simp only [Bool.false_eq_true, if_false, add_comm]
  outside hno _ := by
    change ucxGetMr B L P a = none
    exact byRange_none (fun _ _ h => h) hno

/-- a check with `>` misses the first byte of a segment, and nothing else -/
theorem strict_right_iff {t : Translation} (ht : t = .portals4Checked ∨ t = .xpmemChecked) :
    RightAt B L P t a ↔ ∀ s, L.Mem s a → a ≠ L.base s := by
  have hin : ∀ s, L.Mem s a → (t.translate B L P a = some (t.name B L P s (a - L.base s)) ↔ a ≠ L.base s) := by
    intro s hm
    rcases ht with rfl | rfl
    · exact byRange_lt_iff (f := portals4Place L P a) hm
    · have hname : Translation.xpmemChecked.name B L P s (a - L.base s) = xpmemPlace L P a s := by
        simp [Translation.name, xpmemPlace, add_comm]
      rw [hname]
      exact byRange_lt_iff (f := xpmemPlace L P a) hm
  have hout : (∀ s, ¬ L.Mem s a) → t.translate B L P a = none := by
    intro hno
    rcases ht with rfl | rfl
    · exact byRange_none (fun _ _ h => le_of_lt h) hno
    · exact byRange_none (fun _ _ h => le_of_lt h) hno
  exact ⟨fun h s hm => (hin s hm).mp (h.inside s hm), fun h => ⟨fun s hm => (hin s hm).mpr (h s hm), fun hno _ => hout hno⟩⟩

/-- without a check, the data segment has to be below the start of the heap -/
theorem heapBase_right_iff {t : Translation} (ht : t = .portals4Unchecked ∨ t = .xpmemUnchecked) :
    RightAt B L P t a ↔ ∀ s, L.Mem s a → s = .data → a < L.base .heap := by
  have hin : ∀ s, L.Mem s a →
      (t.translate B L P a = some (t.name B L P s (a - L.base s)) ↔ (s = .data → a < L.base .heap)) := by
    intro s hm
    rcases ht with rfl | rfl
    · exact byHeapBase_iff (f := portals4Place L P a) (by simp [portals4Place]) hm
    · have hname : Translation.xpmemUnchecked.name B L P s (a - L.base s) = xpmemPlace L P a s := by
        simp [Translation.name, xpmemPlace, add_comm]
      rw [hname]
      exact byHeapBase_iff (f := xpmemPlace L P a) (by simp [xpmemPlace]) hm
  have hunchecked : t.checked B = false := by
    rcases ht with rfl | rfl
    · rfl
    · rfl
  constructor
  · exact fun h s hm => (hin s hm).mp (h.inside s hm)
  · intro h
    refine ⟨fun s hm => (hin s hm).mpr (h s hm), fun _ hc => ?_⟩
    rw [hunchecked] at hc
    exact Bool.noConfusion hc

/-- **Agreement of the translations.** At an address all translations select the segment that holds it and its offset there,
and those that check report an error when none does, exactly if the address is not the first byte of its segment, and is
below the heap when it is in the data segment. -/
theorem translations_agree_iff (B : Build) (L : Layout) (P : Peer) (a : ℤ) :
    (∀ t, RightAt B L P t a) ↔ ∀ s, L.Mem s a → a ≠ L.base s ∧ (s = .data → a < L.base .heap) := by
  constructor
  · intro h s hm
    exact ⟨(strict_right_iff (.inl rfl)).mp (h .portals4Checked) s hm,
      (heapBase_right_iff (.inl rfl)).mp (h .portals4Unchecked) s hm⟩
  · intro h t
    have hstrict : ∀ s, L.Mem s a → a ≠ L.base s := fun s hm => (h s hm).1
    have hbelow : ∀ s, L.Mem s a → s = .data → a < L.base .heap := fun s hm => (h s hm).2
    cases t with
    | ofi => exact ofiGetMr_right
    | ucx => exact ucxGetMr_right
    | portals4Checked => exact (strict_right_iff (.inl rfl)).mpr hstrict
    | portals4Unchecked => exact (heapBase_right_iff (.inl rfl)).mpr hbelow
    | xpmemChecked => exact (strict_right_iff (.inr rfl)).mpr hstrict
    | xpmemUnchecked => exact (heapBase_right_iff (.inr rfl)).mpr hbelow

end

/-- 16 bytes of data behind a heap of 256 bytes -/
def dataAboveHeap : Layout := ⟨fun s => if s = .data then 4096 else 1024, fun s => if s = .data then 16 else 256, by decide⟩

/-- a peer with the same layout -/
def samePeer : Peer :=
  ⟨fun _ => 0, dataAboveHeap.base, fun _ => 0, dataAboveHeap.base, fun s => if s = .data then 3 else 4, dataAboveHeap.base⟩

def plainBuild : Build := ⟨false, false, false⟩

/-- **The first byte, and data above the heap.** The checks with `>` report an error for the first byte of the data segment,
which UCX translates; without a check an address of data above the heap is taken for one of the heap. -/
theorem translations_disagree :
    ¬ (∀ t, RightAt plainBuild dataAboveHeap samePeer t 4096) ∧ ¬ (∀ t, RightAt plainBuild dataAboveHeap samePeer t 4100) ∧
    ucxGetMr plainBuild dataAboveHeap samePeer 4096 = some ⟨some .data, 0, 4096⟩ ∧
    portals4Checked dataAboveHeap samePeer 4096 = none ∧
    portals4Checked dataAboveHeap samePeer 4100 = some ⟨some .data, 3, 4⟩ ∧
    portals4Unchecked dataAboveHeap samePeer 4100 = some ⟨some .heap, 4, 3076⟩ := by
  refine ⟨fun h => ?_, fun h => ?_, by decide, by decide, by decide, by decide⟩
  · exact absurd ((h .portals4Checked).inside .data (by decide)) (by decide)
  · exact absurd ((h .portals4Unchecked).inside .data (by decide)) (by decide)

end SandiaShmem.Transport.Translate
