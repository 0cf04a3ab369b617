/-
The check of a symmetric buffer (`SHMEM_ERR_CHECK_SYMMETRIC` in `src/shmem_internal.h`) in front of `shmem_put`
(`SHMEM_DEF_PUT`) and `shmem_iput` (`SHMEM_DEF_IPUT` in `src/data_c.c4`), on addresses of 64 bits.

The length of the buffer and the address of its end are computed modulo 2^64. An end that wraps around is a small
address and passes the comparison with the end of the segment; for no elements the length of `shmem_iput` is not 0.

- `checkSymmetric_eq_ok`: what the check asks for.
- `put_sound_iff`, `iput_sound_iff`: for which arguments what passes is also within a segment.
- `sound_iff`: the two together.
-/
import SandiaShmem.Core.CInt

namespace SandiaShmem.Checks

open CInt

/-! ## Model -/

/-- the symmetric data segment and the symmetric heap -/
structure Segments where
  data_base : ℤ
  data_length : ℤ
  heap_base : ℤ
  heap_length : ℤ
  data_base_nonneg : 0 ≤ data_base
  data_length_nonneg : 0 ≤ data_length
  data_end : data_base + data_length < 2 ^ 64
  heap_base_nonneg : 0 ≤ heap_base
  heap_length_nonneg : 0 ≤ heap_length
  heap_end : heap_base + heap_length < 2 ^ 64

/-- what the macro prints before it aborts the job -/
inductive SymmetricError where
  /-- "Argument \"%s\" [%p..%p) exceeds sym. data region [%p..%p)" -/
  | exceedsData (ptr_base ptr_ext : ℤ)
  /-- "Argument \"%s\" [%p..%p) exceeds sym. heap region [%p..%p)" -/
  | exceedsHeap (ptr_base ptr_ext : ℤ)
  /-- "Argument \"%s\" is not symmetric (%p)" -/
  | notSymmetric (ptr_base : ℤ)
deriving DecidableEq, Repr

/-- `SHMEM_ERR_CHECK_SYMMETRIC` -/
def checkSymmetric (G : Segments) (ptr_base len : ℤ) : Except SymmetricError Unit :=
  let ptr_ext := uwrap 64 (ptr_base + len)
  let data_ext := uwrap 64 (G.data_base + G.data_length)
  let heap_ext := uwrap 64 (G.heap_base + G.heap_length)
  -- skip this check when the length is 0
  if len = 0 then .ok ()
  else if ptr_base ≥ G.data_base ∧ ptr_base < data_ext then
    if ptr_ext > data_ext then .error (.exceedsData ptr_base ptr_ext) else .ok ()
  else if ptr_base ≥ G.heap_base ∧ ptr_base < heap_ext then
    if ptr_ext > heap_ext then .error (.exceedsHeap ptr_base ptr_ext) else .ok ()
  else .error (.notSymmetric ptr_base)

/-- `sizeof(TYPE) * nelems` -/
def putLen (size nelems : ℤ) : ℤ := uwrap 64 (size * nelems)

/-- the bytes that `shmem_internal_put_nb` writes for `shmem_put`, which gives it the length it has checked -/
def putBytes (target size nelems : ℤ) : Set ℤ := {b | target ≤ b ∧ b < target + putLen size nelems}

/-- `sizeof(TYPE) * ((nelems-1) * tst + 1)` -/
def iputLen (size tst nelems : ℤ) : ℤ := uwrap 64 (size * uwrap 64 (uwrap 64 (uwrap 64 (nelems - 1) * tst) + 1))

/-- the targets of the loop of `shmem_iput`, one for each element -/
def iputTargets (size tst : ℤ) : ℕ → ℤ → List ℤ
  | 0, _ => []
  | nelems + 1, target => target :: iputTargets size tst nelems (target + size * tst)

/-- the bytes that `shmem_internal_put_scalar` writes for `shmem_iput` -/
def iputBytes (target size tst : ℤ) (nelems : ℕ) : Set ℤ :=
  {b | ∃ t ∈ iputTargets size tst nelems target, t ≤ b ∧ b < t + size}

/-! ## The check -/

namespace Segments
variable (G : Segments)

def InData (b : ℤ) : Prop := G.data_base ≤ b ∧ b < G.data_base + G.data_length

def InHeap (b : ℤ) : Prop := G.heap_base ≤ b ∧ b < G.heap_base + G.heap_length

instance (b : ℤ) : Decidable (G.InData b) := inferInstanceAs (Decidable (_ ∧ _))

instance (b : ℤ) : Decidable (G.InHeap b) := inferInstanceAs (Decidable (_ ∧ _))

/-- the end of the segment that a pointer is checked against -/
def segEnd (ptr : ℤ) : Option ℤ :=
  if G.InData ptr then some (G.data_base + G.data_length)
  else if G.InHeap ptr then some (G.heap_base + G.heap_length)
  else none

variable {G}

theorem segEnd_eq {ptr e : ℤ} (h : G.segEnd ptr = some e) :
    (G.InData ptr ∧ e = G.data_base + G.data_length) ∨ (G.InHeap ptr ∧ e = G.heap_base + G.heap_length) := by
  unfold segEnd at h
  split_ifs at h with hd hh
  · exact .inl ⟨hd, (Option.some.inj h).symm⟩
  · exact .inr ⟨hh, (Option.some.inj h).symm⟩

theorem segEnd_bounds {ptr e : ℤ} (h : G.segEnd ptr = some e) : ptr < e ∧ e < 2 ^ 64 := by
  rcases segEnd_eq h with ⟨hptr, rfl⟩ | ⟨hptr, rfl⟩
  · exact ⟨hptr.2, G.data_end⟩
  · exact ⟨hptr.2, G.heap_end⟩

/-- from the pointer to the end of its segment everything is in it -/
theorem segEnd_mem {ptr e b : ℤ} (h : G.segEnd ptr = some e) (h1 : ptr ≤ b) (h2 : b < e) : G.InData b ∨ G.InHeap b := by
  rcases segEnd_eq h with ⟨hptr, rfl⟩ | ⟨hptr, rfl⟩
  · exact .inl ⟨hptr.1.trans h1, h2⟩
  · exact .inr ⟨hptr.1.trans h1, h2⟩

/-- the last address is in none of the segments -/
theorem lt_of_mem {b : ℤ} (h : G.InData b ∨ G.InHeap b) : b + 1 < 2 ^ 64 := by
  have hd := G.data_end
  have hh := G.heap_end
  unfold InData InHeap at h
  omega

end Segments

variable {G : Segments} {ptr size tst : ℤ}

theorem checkSymmetric_eq_ok (G : Segments) (ptr len : ℤ) :
    checkSymmetric G ptr len = .ok () ↔ len = 0 ∨ ∃ e, G.segEnd ptr = some e ∧ uwrap 64 (ptr + len) ≤ e := by
  have hd := uwrap_of_lt (add_nonneg G.data_base_nonneg G.data_length_nonneg) G.data_end
  have hh := uwrap_of_lt (add_nonneg G.heap_base_nonneg G.heap_length_nonneg) G.heap_end
  unfold checkSymmetric Segments.segEnd
  simp only [hd, hh, ge_iff_le, gt_iff_lt]
  by_cases hlen : len = 0
  · simp [hlen]
  by_cases hdata : G.InData ptr
  · rw [if_neg hlen, if_pos (show _ ∧ _ from hdata), if_pos hdata]
    simp [hlen]
  by_cases hheap : G.InHeap ptr
  · rw [if_neg hlen, if_neg (show ¬ (_ ∧ _) from hdata), if_pos (show _ ∧ _ from hheap), if_neg hdata, if_pos hheap]
    simp [hlen]
  · rw [if_neg hlen, if_neg (show ¬ (_ ∧ _) from hdata), if_neg (show ¬ (_ ∧ _) from hheap), if_neg hdata, if_neg hheap]
    simp [hlen]

theorem iputLen_eq (size tst nelems : ℤ) : iputLen size tst nelems = uwrap 64 (size * ((nelems - 1) * tst + 1)) := by
  simp [iputLen]

theorem mem_iputTargets {nelems : ℕ} {target t : ℤ} :
    t ∈ iputTargets size tst nelems target ↔ ∃ k : ℕ, k < nelems ∧ t = target + k * (size * tst) := by
  induction nelems generalizing target with
  | zero => simp [iputTargets]
  | succ n ih =>
    rw [iputTargets, List.mem_cons, ih]
    constructor
    · rintro (rfl | ⟨k, hk, rfl⟩)
      · exact ⟨0, by omega, by simp⟩
      · refine ⟨k + 1, by omega, ?_⟩
        push_cast
        ring
    · rintro ⟨k, hk, rfl⟩
      cases k with
      | zero => exact .inl (by simp)
      | succ k =>
        refine .inr ⟨k, by omega, ?_⟩
        push_cast
        ring

/-! ## When the check is sound -/

/-- every byte is in one of the segments -/
def Within (G : Segments) (bytes : Set ℤ) : Prop := ∀ b ∈ bytes, G.InData b ∨ G.InHeap b

/-- what passes with an element to write is within the segments, and without one everything passes -/
structure PutSound (G : Segments) (target size : ℤ) (nelems : ℕ) : Prop where
  within : checkSymmetric G target (putLen size nelems) = .ok () → 1 ≤ nelems → Within G (putBytes target size nelems)
  empty : nelems = 0 → checkSymmetric G target (putLen size nelems) = .ok ()

structure IputSound (G : Segments) (target size tst : ℤ) (nelems : ℕ) : Prop where
  within : checkSymmetric G target (iputLen size tst nelems) = .ok () → 1 ≤ nelems →
    Within G (iputBytes target size tst nelems)
  empty : nelems = 0 → checkSymmetric G target (iputLen size tst nelems) = .ok ()

/-- what passes is within the segments, unless its end is beyond all addresses and passes modulo 2^64 -/
theorem within_iff {extent : ℤ} (bytes : Set ℤ) (hptr : 0 ≤ ptr) (hpos : 1 ≤ extent)
    (hbytes : ∀ b ∈ bytes, ptr ≤ b ∧ b < ptr + extent) (hlast : ptr + extent - 1 ∈ bytes) :
    (checkSymmetric G ptr (uwrap 64 extent) = .ok () → Within G bytes) ↔
      ptr + extent < 2 ^ 64 ∨ (uwrap 64 extent ≠ 0 ∧ ∀ e, G.segEnd ptr = some e → e < uwrap 64 (ptr + extent)) := by
  rw [checkSymmetric_eq_ok, uwrap_add_uwrap]
  constructor
  · intro h
    by_cases hlt : ptr + extent < 2 ^ 64
    · exact .inl hlt
    -- the last byte is in no segment, so the check has to refuse it
    · have hno : ¬ (uwrap 64 extent = 0 ∨ ∃ e, G.segEnd ptr = some e ∧ uwrap 64 (ptr + extent) ≤ e) := by
        intro hpass
        have := Segments.lt_of_mem (h hpass _ hlast)
        omega
      rw [not_or, not_exists] at hno
      exact .inr ⟨hno.1, fun e he => not_le.mp fun hle => hno.2 e ⟨he, hle⟩⟩
  · rintro (hlt | ⟨hne, hend⟩) hpass b hb
    · obtain ⟨h1, h2⟩ := hbytes b hb
      rw [uwrap_of_lt (by omega) (by omega), uwrap_of_lt (by omega) hlt] at hpass
      obtain ⟨e, he, hle⟩ := hpass.resolve_left (by omega)
      exact Segments.segEnd_mem he h1 (by omega)
    · obtain ⟨e, he, hle⟩ := hpass.resolve_left hne
      have := hend e he
      omega

/-- the target of `shmem_put` is in a segment and its end, with the length modulo 2^64, is beyond all addresses -/
def PutWraps (G : Segments) (target size : ℤ) (nelems : ℕ) : Prop :=
  (∃ e, G.segEnd target = some e) ∧ 2 ^ 64 ≤ target + size * nelems % 2 ^ 64

theorem put_sound_iff (G : Segments) {target : ℤ} (htarget : 0 ≤ target) (hlt : target < 2 ^ 64) (size : ℤ)
    (nelems : ℕ) : PutSound G target size nelems ↔ ¬ PutWraps G target size nelems := by
  have hlen0 : 0 ≤ putLen size nelems := uwrap_nonneg 64 _
  have hlen1 : putLen size nelems < 2 ^ 64 := uwrap_lt 64 _
  have hempty : nelems = 0 → checkSymmetric G target (putLen size nelems) = .ok () := by
    rintro rfl
    exact (checkSymmetric_eq_ok _ _ _).mpr (.inl (by simp [putLen, uwrap]))
  -- without a byte to write there is nothing to check
  by_cases hzero : putLen size nelems = 0
  · have hgood : ¬ PutWraps G target size nelems := by
      rintro ⟨-, hwrap⟩
      change 2 ^ 64 ≤ target + putLen size nelems at hwrap
      omega
    refine iff_of_true ⟨fun _ _ b hb => ?_, hempty⟩ hgood
    obtain ⟨h1, h2⟩ := hb
    omega
  · have hn : 1 ≤ nelems := by
      by_contra h0
      obtain rfl : nelems = 0 := by omega
      exact hzero (by simp [putLen, uwrap])
    have hwithin := within_iff (G := G) (putBytes target size nelems) htarget
      (show 1 ≤ putLen size nelems by omega) (fun b hb => hb) ⟨by omega, by omega⟩
    rw [uwrap_of_lt hlen0 hlen1] at hwithin
    have hwraps : PutWraps G target size nelems ↔
        (∃ e, G.segEnd target = some e) ∧ 2 ^ 64 ≤ target + putLen size nelems := Iff.rfl
    have hsound : PutSound G target size nelems ↔
        (checkSymmetric G target (putLen size nelems) = .ok () → Within G (putBytes target size nelems)) :=
      ⟨fun h hpass => h.within hpass hn, fun h => ⟨fun hpass _ => h hpass, hempty⟩⟩
    rw [hsound, hwithin, hwraps]
    constructor
    · rintro (hfit | ⟨-, hend⟩) ⟨⟨e, he⟩, hwrap⟩
      · omega
      -- a wrapped end is below the target
      · have hbounds := Segments.segEnd_bounds he
        have heq : uwrap 64 (target + putLen size nelems) = target + putLen size nelems - 1 * 2 ^ 64 :=
          uwrap_eq_of_lt (by omega) (by omega)
        have := hend e he
        omega
    · intro hno
      by_cases hfit : target + putLen size nelems < 2 ^ 64
      · exact .inl hfit
      · exact .inr ⟨hzero, fun e he => absurd ⟨⟨e, he⟩, not_lt.mp hfit⟩ hno⟩

/-- the number of bytes from the first to the last one that `shmem_iput` writes -/
def iputExtent (size tst : ℤ) (nelems : ℕ) : ℤ := size * ((nelems - 1) * tst + 1)

/-- with elements, that end is beyond all addresses, but modulo 2^64 it is not beyond the end of the segment, or the
length is 0 modulo 2^64; without, the length `size * (1 - tst)` is not 0 and leads out of the segment -/
def IputWraps (G : Segments) (target size tst : ℤ) (nelems : ℕ) : Prop :=
  if nelems = 0 then
    size * (tst - 1) % 2 ^ 64 ≠ 0 ∧ ∀ e, G.segEnd target = some e →
      target < size * (tst - 1) % 2 ^ 64 ∧ e + size * (tst - 1) % 2 ^ 64 < target + 2 ^ 64
  else
    2 ^ 64 ≤ target + iputExtent size tst nelems ∧
      (iputExtent size tst nelems % 2 ^ 64 = 0 ∨
        ∃ e, G.segEnd target = some e ∧ (target + iputExtent size tst nelems) % 2 ^ 64 ≤ e)

/-- the bytes of `shmem_iput` are in its extent, and the last one is written -/
theorem iputBytes_bounds {nelems : ℕ} (hsize : 1 ≤ size) (htst : 1 ≤ tst) (hn : 1 ≤ nelems) (target : ℤ) :
    (∀ b ∈ iputBytes target size tst nelems, target ≤ b ∧ b < target + iputExtent size tst nelems) ∧
      target + iputExtent size tst nelems - 1 ∈ iputBytes target size tst nelems := by
  have hstep : 0 ≤ size * tst := mul_nonneg (by omega) (by omega)
  have hextent : iputExtent size tst nelems = (nelems - 1) * (size * tst) + size := by
    unfold iputExtent
    ring
  refine ⟨?_, ?_⟩
  · rintro b ⟨t, ht, h1, h2⟩
    obtain ⟨k, hk, rfl⟩ := mem_iputTargets.mp ht
    have hk0 : 0 ≤ (k : ℤ) * (size * tst) := mul_nonneg (by omega) hstep
    have hk1 := mul_le_mul_of_nonneg_right (show (k : ℤ) ≤ nelems - 1 by omega) hstep
    rw [hextent]
    omega
  · refine ⟨target + (nelems - 1 : ℕ) * (size * tst), mem_iputTargets.mpr ⟨nelems - 1, by omega, rfl⟩, ?_⟩
    rw [hextent, Nat.cast_sub hn, Nat.cast_one]
    omega

/-- the end of a buffer of negative length -/
theorem uwrap_add_neg_of_le {a x : ℤ} (ha : a < 2 ^ 64) (h : x % 2 ^ 64 ≤ a) :
    uwrap 64 (a + -x) = a - x % 2 ^ 64 := by
  have hx := Int.mul_ediv_add_emod x (2 ^ 64)
  have hmod := Int.emod_nonneg x (show (2 : ℤ) ^ 64 ≠ 0 by norm_num)
  rw [uwrap_eq_of_lt (m := -(x / 2 ^ 64)) (by omega) (by omega)]
  omega

theorem uwrap_add_neg_of_lt {a x : ℤ} (ha : 0 ≤ a) (h : a < x % 2 ^ 64) :
    uwrap 64 (a + -x) = a + 2 ^ 64 - x % 2 ^ 64 := by
  have hx := Int.mul_ediv_add_emod x (2 ^ 64)
  have hmod := Int.emod_lt_of_pos x (show (0 : ℤ) < 2 ^ 64 by norm_num)
  rw [uwrap_eq_of_lt (m := -(x / 2 ^ 64) - 1) (by omega) (by omega)]
  omega

theorem uwrap_neg_eq_zero {x : ℤ} : uwrap 64 (-x) = 0 ↔ x % 2 ^ 64 = 0 := by
  unfold uwrap
  omega

theorem iput_sound_iff (G : Segments) {target size tst : ℤ} (htarget : 0 ≤ target) (hlt : target < 2 ^ 64)
    (hsize : 1 ≤ size) (htst : 1 ≤ tst) (nelems : ℕ) :
    IputSound G target size tst nelems ↔ ¬ IputWraps G target size tst nelems := by
  unfold IputWraps
  by_cases hn : nelems = 0
  · subst hn
    have hsound : IputSound G target size tst 0 ↔ checkSymmetric G target (iputLen size tst 0) = .ok () :=
      ⟨fun h => h.empty rfl, fun h => ⟨fun _ hpos => absurd hpos (by omega), fun _ => h⟩⟩
    have hlen : size * ((0 - 1) * tst + 1) = -(size * (tst - 1)) := by ring
    rw [hsound, if_pos rfl, checkSymmetric_eq_ok, iputLen_eq, hlen, uwrap_add_uwrap, uwrap_neg_eq_zero]
    constructor
    · rintro (hzero | ⟨e, he, hle⟩) ⟨hne, hall⟩
      · exact hne hzero
      · obtain ⟨h1, h2⟩ := hall e he
        rw [uwrap_add_neg_of_lt htarget h1] at hle
        omega
    · intro hno
      by_contra hcon
      rw [not_or, not_exists] at hcon
      refine hno ⟨hcon.1, fun e he => ?_⟩
      have hgt : e < uwrap 64 (target + -(size * (tst - 1))) := not_le.mp fun hle => hcon.2 e ⟨he, hle⟩
      by_cases hsmall : size * (tst - 1) % 2 ^ 64 ≤ target
      · have hbounds := Segments.segEnd_bounds he
        have hmod := Int.emod_nonneg (size * (tst - 1)) (show (2 : ℤ) ^ 64 ≠ 0 by norm_num)
        rw [uwrap_add_neg_of_le hlt hsmall] at hgt
        omega
      · rw [uwrap_add_neg_of_lt htarget (not_le.mp hsmall)] at hgt
        omega
  · have hpos : 1 ≤ nelems := by omega
    obtain ⟨hbytes, hlast⟩ := iputBytes_bounds hsize htst hpos target
    have hextent : 1 ≤ iputExtent size tst nelems := by
      have := mul_nonneg (show 0 ≤ (nelems : ℤ) - 1 by omega) (show 0 ≤ tst by omega)
      have := mul_le_mul_of_nonneg_left (show 1 ≤ ((nelems : ℤ) - 1) * tst + 1 by omega) (show 0 ≤ size by omega)
      unfold iputExtent
      omega
    have hsound : IputSound G target size tst nelems ↔
        (checkSymmetric G target (iputLen size tst nelems) = .ok () → Within G (iputBytes target size tst nelems)) :=
      ⟨fun h hpass => h.within hpass hpos, fun h => ⟨fun hpass _ => h hpass, fun h0 => absurd h0 hn⟩⟩
    rw [hsound, if_neg hn, iputLen_eq, ← iputExtent, within_iff _ htarget hextent hbytes hlast, not_and_or, not_le,
      not_or, not_exists]
    refine or_congr_right (and_congr_right fun _ => forall_congr' fun e => ?_)
    rw [not_and, not_le]
    rfl

/-- **Soundness.** `size` is the size of the type, and a stride that is not positive is refused before. -/
theorem sound_iff (G : Segments) {target size tst : ℤ} (htarget : 0 ≤ target) (hlt : target < 2 ^ 64) (hsize : 1 ≤ size)
    (htst : 1 ≤ tst) (nelems : ℕ) :
    (PutSound G target size nelems ↔ ¬ PutWraps G target size nelems) ∧
      (IputSound G target size tst nelems ↔ ¬ IputWraps G target size tst nelems) :=
  ⟨put_sound_iff G htarget hlt size nelems, iput_sound_iff G htarget hlt hsize htst nelems⟩

/-- a data segment of one page and a heap of 64 KiB -/
def smallSegments : Segments where
  data_base := 4096
  data_length := 4096
  heap_base := 65536
  heap_length := 65536
  data_base_nonneg := by decide
  data_length_nonneg := by decide
  data_end := by decide
  heap_base_nonneg := by decide
  heap_length_nonneg := by decide
  heap_end := by decide

/-- two elements of 8 bytes at the start of the heap, 3 elements apart -/
theorem sound_iff_small : PutSound smallSegments 65536 8 2 ∧ IputSound smallSegments 65536 8 3 2 := by
  have h := sound_iff smallSegments (show (0 : ℤ) ≤ 65536 by decide) (by decide) (show (1 : ℤ) ≤ 8 by decide)
    (show (1 : ℤ) ≤ 3 by decide) 2
  have hiput : ¬ IputWraps smallSegments 65536 8 3 2 := by
    rw [IputWraps, if_neg (by decide)]
    exact fun hwrap => absurd hwrap.1 (by decide)
  exact ⟨h.1.mpr fun hwrap => absurd hwrap.2 (by decide), h.2.mpr hiput⟩

/-- 2^61 - 1 elements of 8 bytes pass at the start of a heap of 64 KiB, and no elements do not at NULL -/
theorem small_unsound :
    ¬ PutSound smallSegments 65536 8 (2 ^ 61 - 1) ∧ ¬ IputSound smallSegments 0 8 2 0 := by
  constructor
  · intro h
    have hpass : checkSymmetric smallSegments 65536 (putLen 8 ((2 ^ 61 - 1 : ℕ) : ℤ)) = .ok () := by decide
    have hlast : (131072 : ℤ) ∈ putBytes 65536 8 ((2 ^ 61 - 1 : ℕ) : ℤ) := by
      refine ⟨by decide, ?_⟩
      have hlen : putLen 8 ((2 ^ 61 - 1 : ℕ) : ℤ) = 2 ^ 64 - 8 := by decide
      rw [hlen]
      norm_num
    have hin := h.within hpass (by norm_num) _ hlast
    exact absurd hin (by decide)
  · intro h
    exact absurd (h.empty rfl) (by decide)

end SandiaShmem.Checks
