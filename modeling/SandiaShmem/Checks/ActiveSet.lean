/-
The check of an active set (`SHMEM_ERR_CHECK_ACTIVE_SET` in `src/shmem_internal.h`), with the 32-bit arithmetic it is
compiled to.

The macro has two tests: the set must end within the job, and the calling PE must be in it. The end of the set is
computed modulo 2^32 and compared with `> num_pes`, where `SHMEM_ERR_CHECK_PE` has `>=`.

- `checkActiveSet_eq_ok`: what the two tests ask for together.
- `member_of_ok`: a PE that gets through has the index in the set that `shmem_internal_pe_in_active_set` returns.
- `exact_iff`: the check accepts the valid sets only, except for the sets whose end is beyond the last PE and, modulo
  2^32, not below the calling PE and not above num_pes.
-/
import SandiaShmem.Core.CInt
import SandiaShmem.Teams.Alloc

namespace SandiaShmem.Checks

open CInt

/-! ## Model -/

/-- what the macro prints before it aborts the job -/
inductive SetError where
  /-- "Invalid active set (PE_start = %d, PE_stride = %d, PE_size = %d)" -/
  | invalid (PE_start PE_stride PE_size : ℤ)
  /-- "Calling PE (%d) is not a member of the active set" -/
  | notMember (my_pe : ℤ)
deriving DecidableEq, Repr

/-- `PE_start + ((PE_size - 1) * (PE_stride))` in 32-bit arithmetic -/
def lastPe (PE_start PE_stride PE_size : ℤ) : ℤ :=
  wrap 32 (PE_start + wrap 32 (wrap 32 (PE_size - 1) * PE_stride))

/-- `SHMEM_ERR_CHECK_ACTIVE_SET` -/
def checkActiveSet (num_pes my_pe PE_start PE_stride PE_size : ℤ) : Except SetError Unit :=
  if PE_start < 0 ∨ PE_stride < 1 ∨ PE_size < 0 ∨ lastPe PE_start PE_stride PE_size > num_pes then
    .error (.invalid PE_start PE_stride PE_size)
  else if ¬ (my_pe ≥ PE_start ∧ my_pe ≤ lastPe PE_start PE_stride PE_size ∧
      (wrap 32 (my_pe - PE_start)).tmod PE_stride = 0) then
    .error (.notMember my_pe)
  else .ok ()

/-- `shmem_internal_pe_in_active_set` in 32-bit arithmetic -/
def peInActiveSet (global_pe PE_start PE_stride PE_size : ℤ) : ℤ :=
  let n := wrap 32 ((wrap 32 (global_pe - PE_start)).tdiv PE_stride)
  if global_pe < PE_start ∨ (wrap 32 (global_pe - PE_start)).tmod PE_stride ≠ 0 ∨ n ≥ PE_size then -1 else n

/-- between two PE numbers nothing wraps around, and the function is the one of the exact integers -/
theorem peInActiveSet_eq {global_pe PE_start PE_stride PE_size : ℤ} (h0 : 0 ≤ PE_start) (hle : PE_start ≤ global_pe)
    (hfit : Fits 32 global_pe) (hstride : 1 ≤ PE_stride) :
    peInActiveSet global_pe PE_start PE_stride PE_size = Teams.peInActiveSet global_pe PE_start PE_stride PE_size := by
  have hdiff : Fits 32 (global_pe - PE_start) := fits_of_le (by omega) (by omega) hfit
  have hquot : Fits 32 ((global_pe - PE_start).tdiv PE_stride) := by
    refine fits_of_le (Int.tdiv_nonneg (by omega) (by omega)) ?_ hdiff
    rw [Int.tdiv_eq_ediv_of_nonneg (by omega)]
    exact Int.ediv_le_self _ (by omega)
  simp only [peInActiveSet, Teams.peInActiveSet, wrap_of_fits (by omega) hdiff, wrap_of_fits (by omega) hquot]

/-! ## The two tests -/

/-- the exact last PE of the set -/
def setEnd (PE_start PE_stride PE_size : ℤ) : ℤ := PE_start + (PE_size - 1) * PE_stride

theorem lastPe_eq (PE_start PE_stride PE_size : ℤ) :
    lastPe PE_start PE_stride PE_size = wrap 32 (setEnd PE_start PE_stride PE_size) := by
  simp [lastPe, setEnd]

/-- the sets that are in the job and have the calling PE -/
structure ValidSet (num_pes my_pe PE_start PE_stride PE_size : ℤ) : Prop where
  start_nonneg : 0 ≤ PE_start
  stride_pos : 1 ≤ PE_stride
  size_pos : 1 ≤ PE_size
  bound : setEnd PE_start PE_stride PE_size ≤ num_pes - 1
  member : ∃ k, 0 ≤ k ∧ k < PE_size ∧ my_pe = PE_start + k * PE_stride

section
variable {num_pes my_pe PE_start PE_stride PE_size : ℤ}

/-- an empty set ends before it starts, so the second test refuses it -/
theorem checkActiveSet_eq_ok (num_pes PE_start PE_size : ℤ) (hpe : 0 ≤ my_pe) (hfit : Fits 32 my_pe)
    (hstride : Fits 32 PE_stride) :
    checkActiveSet num_pes my_pe PE_start PE_stride PE_size = .ok () ↔
      0 ≤ PE_start ∧ 1 ≤ PE_stride ∧ 1 ≤ PE_size ∧ lastPe PE_start PE_stride PE_size ≤ num_pes ∧
        PE_start ≤ my_pe ∧ my_pe ≤ lastPe PE_start PE_stride PE_size ∧ PE_stride ∣ my_pe - PE_start := by
  have hempty : 0 ≤ PE_start → 1 ≤ PE_stride → PE_start ≤ my_pe → PE_size = 0 →
      ¬ my_pe ≤ lastPe PE_start PE_stride PE_size := by
    rintro h0 h1 hle rfl
    have hend : setEnd PE_start PE_stride 0 = PE_start - PE_stride := by unfold setEnd; ring
    have hfits : Fits 32 (PE_start - PE_stride) := by
      unfold Fits at hfit hstride ⊢
      omega
    rw [lastPe_eq, hend, wrap_of_fits (by omega) hfits]
    omega
  have hmod : 0 ≤ PE_start → PE_start ≤ my_pe →
      ((wrap 32 (my_pe - PE_start)).tmod PE_stride = 0 ↔ PE_stride ∣ my_pe - PE_start) := by
    intro h0 hle
    rw [wrap_of_fits (by omega) (fits_of_le (by omega) (by omega) hfit), Int.dvd_iff_tmod_eq_zero]
  unfold checkActiveSet
  constructor
  · intro h
    split_ifs at h with h1 h2
    simp only [not_or, not_lt, gt_iff_lt] at h1
    obtain ⟨h0, hs, hz, hlast⟩ := h1
    obtain ⟨hle, hle', hd⟩ := h2
    have hne : PE_size ≠ 0 := fun hzero => hempty h0 hs hle hzero hle'
    exact ⟨h0, hs, by omega, hlast, hle, hle', (hmod h0 hle).mp hd⟩
  · rintro ⟨h0, hs, hz, hlast, hle, hle', hd⟩
    rw [if_neg (by simp only [not_or]; omega), if_neg (not_not.mpr ⟨hle, hle', (hmod h0 hle).mpr hd⟩)]

/-- where the calling PE stands in a set that passes -/
theorem exists_index (h0 : 0 ≤ PE_start) (hs : 1 ≤ PE_stride) (hz : 1 ≤ PE_size) (hle : PE_start ≤ my_pe)
    (hle' : my_pe ≤ lastPe PE_start PE_stride PE_size) (hd : PE_stride ∣ my_pe - PE_start) :
    ∃ k, 0 ≤ k ∧ k < PE_size ∧ my_pe = PE_start + k * PE_stride := by
  obtain ⟨k, hk⟩ := hd
  have hk0 : 0 ≤ k := by
    by_contra hneg
    have := mul_le_mul_of_nonneg_left (show k ≤ -1 by omega) (show 0 ≤ PE_stride by omega)
    omega
  have hmul : 0 ≤ (PE_size - 1) * PE_stride := mul_nonneg (by omega) (by omega)
  have hend : my_pe ≤ setEnd PE_start PE_stride PE_size := by
    rw [lastPe_eq] at hle'
    exact hle'.trans (wrap_le (by omega) (by unfold setEnd; omega))
  refine ⟨k, hk0, ?_, by rw [mul_comm]; omega⟩
  by_contra hge
  have := mul_le_mul_of_nonneg_right (show PE_size ≤ k by omega) (show 0 ≤ PE_stride by omega)
  unfold setEnd at hend
  rw [sub_mul, one_mul] at hend
  rw [mul_comm] at hk
  omega

/-- the index of a PE of the set -/
theorem peInActiveSet_of_index {k : ℤ} (h0 : 0 ≤ PE_start) (hs : 1 ≤ PE_stride) (hfit : Fits 32 my_pe) (hk0 : 0 ≤ k)
    (hk : k < PE_size) (hpe : my_pe = PE_start + k * PE_stride) :
    peInActiveSet my_pe PE_start PE_stride PE_size = k := by
  have hmul : 0 ≤ k * PE_stride := mul_nonneg hk0 (by omega)
  rw [peInActiveSet_eq h0 (by omega) hfit hs, hpe, Teams.peInActiveSet]
  have hdiff : PE_start + k * PE_stride - PE_start = k * PE_stride := by ring
  rw [hdiff, Int.mul_tdiv_cancel _ (by omega), Int.mul_tmod_left, if_neg (by omega)]

end

/-! ## When the check is exact -/

/-- the verdict is right, and a PE that passes gets its index -/
def CheckExact (num_pes my_pe PE_start PE_stride PE_size : ℤ) : Prop :=
  (checkActiveSet num_pes my_pe PE_start PE_stride PE_size = .ok () ↔
      ValidSet num_pes my_pe PE_start PE_stride PE_size) ∧
    (checkActiveSet num_pes my_pe PE_start PE_stride PE_size = .ok () →
      ∃ k, 0 ≤ k ∧ k < PE_size ∧ my_pe = PE_start + k * PE_stride ∧
        peInActiveSet my_pe PE_start PE_stride PE_size = k)

/-- the set has the calling PE on its grid and ends beyond the last PE of the job, but modulo 2^32 its end is in
[my_pe, num_pes] -/
structure EndsBeyond (num_pes my_pe PE_start PE_stride PE_size : ℤ) : Prop where
  start_nonneg : 0 ≤ PE_start
  stride_pos : 1 ≤ PE_stride
  size_pos : 1 ≤ PE_size
  start_le : PE_start ≤ my_pe
  grid : PE_stride ∣ my_pe - PE_start
  beyond : num_pes ≤ setEnd PE_start PE_stride PE_size
  wraps : ∃ m, my_pe ≤ setEnd PE_start PE_stride PE_size - m * 2 ^ 32 ∧
    setEnd PE_start PE_stride PE_size - m * 2 ^ 32 ≤ num_pes

theorem exact_iff {num_pes my_pe PE_start PE_stride PE_size : ℤ} (hnum : Fits 32 num_pes) (hpe : 0 ≤ my_pe)
    (hlt : my_pe < num_pes) (hstride : Fits 32 PE_stride) :
    CheckExact num_pes my_pe PE_start PE_stride PE_size ↔ ¬ EndsBeyond num_pes my_pe PE_start PE_stride PE_size := by
  have hfit : Fits 32 my_pe := fits_of_le hpe (by omega) hnum
  have hok := checkActiveSet_eq_ok num_pes PE_start PE_size hpe hfit hstride
  have hlast := lastPe_eq PE_start PE_stride PE_size
  constructor
  · -- such a set passes, and it is not valid
    intro hexact hbad
    obtain ⟨m, hm1, hm2⟩ := hbad.wraps
    have hmod : lastPe PE_start PE_stride PE_size = setEnd PE_start PE_stride PE_size - m * 2 ^ 32 := by
      rw [hlast]
      exact wrap_eq_of_fits (by omega) (fits_of_le (by omega) hm2 hnum)
    have hpass := hok.mpr
      ⟨hbad.start_nonneg, hbad.stride_pos, hbad.size_pos, by omega, hbad.start_le, by omega, hbad.grid⟩
    have hbound := (hexact.1.mp hpass).bound
    have hbeyond := hbad.beyond
    omega
  · intro hgood
    refine ⟨⟨fun hpass => ?_, fun hvalid => ?_⟩, fun hpass => ?_⟩
    · obtain ⟨h0, hs, hz, hle, hstart', hend, hd⟩ := hok.mp hpass
      refine ⟨h0, hs, hz, ?_, exists_index h0 hs hz hstart' hend hd⟩
      by_contra hbeyond
      obtain ⟨m, hm⟩ := exists_wrap 32 (setEnd PE_start PE_stride PE_size)
      rw [← hlast] at hm
      exact hgood ⟨h0, hs, hz, hstart', hd, by omega, m, by omega, by omega⟩
    · obtain ⟨h0, hs, hz, hbound, k, hk0, hk, hpe'⟩ := hvalid
      have hmul : 0 ≤ k * PE_stride := mul_nonneg hk0 (by omega)
      have hmul' := mul_le_mul_of_nonneg_right (show k ≤ PE_size - 1 by omega) (show 0 ≤ PE_stride by omega)
      have hexact : lastPe PE_start PE_stride PE_size = setEnd PE_start PE_stride PE_size := by
        rw [hlast]
        refine wrap_of_fits (by omega) (fits_of_le ?_ (show _ ≤ num_pes by omega) hnum)
        unfold setEnd
        omega
      refine hok.mpr ⟨h0, hs, hz, by omega, by omega, ?_, k, by rw [hpe', mul_comm]; ring⟩
      rw [hexact, hpe']
      unfold setEnd
      omega
    · obtain ⟨h0, hs, hz, hle, hstart', hend, hd⟩ := hok.mp hpass
      obtain ⟨k, hk0, hk, hpe'⟩ := exists_index h0 hs hz hstart' hend hd
      exact ⟨k, hk0, hk, hpe', peInActiveSet_of_index h0 hs hfit hk0 hk hpe'⟩

/-- in a job of 2 PEs the verdict on {0, 1} is right, and the one on 5 PEs that are 2^30 apart is not: they end at 2^32 -/
theorem exact_iff_two : CheckExact 2 1 0 1 2 ∧ ¬ CheckExact 2 0 0 (2 ^ 30) 5 := by
  constructor
  · exact (exact_iff (by decide) (by decide) (by decide) (by decide)).mpr fun h => absurd h.beyond (by decide)
  · have hends : EndsBeyond 2 0 0 (2 ^ 30) 5 :=
      ⟨by decide, by decide, by decide, by decide, by decide, by decide, 1, by decide, by decide⟩
    exact fun h => (exact_iff (by decide) (by decide) (by decide) (by decide)).mp h hends

/-- in a job of 2 PEs the check lets the set {0, 1, 2} pass -/
theorem three_of_two : ¬ CheckExact 2 0 0 1 3 := by
  intro h
  have hpass : checkActiveSet 2 0 0 1 3 = .ok () := by decide
  have hbound := (h.1.mp hpass).bound
  exact absurd hbound (by decide)

end SandiaShmem.Checks
