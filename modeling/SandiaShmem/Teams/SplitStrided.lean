/-
What `shmem_internal_team_split_strided` selects.

The documentation wants the triplet of the call to count PEs of the parent: the new team has the PEs start + stride * i of
the parent, and the call is in order if these are PEs of the parent. The code turns the start into a PE of the job, but
leaves the stride as it is, and it compares the last PE that it gets so with the PEs of the job, not with those of the
parent. The values of the int expressions are exact.

- `not_refused_iff`: the checks of the code; `triplet_iff`: the condition of the documentation.
- `Selects`: the call does what the documentation says.
- `selects_iff`: it does exactly for calls that stay in a parent without gaps, calls whose last PE is not even a PE of the
  job, and those that select one PE.
-/
import SandiaShmem.Teams.MyPe

namespace SandiaShmem.Teams.SplitStrided

/-! ## What a split is for -/

/-- member i of the new team, from the start and the stride that the call stores -/
def newTeamPe (parent : TeamDesc) (PE_start PE_stride i : ℤ) : ℤ := teamPe parent PE_start + PE_stride * i

/-- a team of PEs of the job -/
structure ValidTeam (C : Cfg) (t : TeamDesc) : Prop where
  stride_pos : 1 ≤ t.stride
  size_pos : 1 ≤ t.size
  lt : ∀ i < t.size, t.start + t.stride * i < C.numPes

/-- a call accepts what the documentation calls a valid triplet, and gives the PEs of the triplet a team of them -/
structure Selects (C : Cfg) (parent : TeamDesc) (PE_start PE_stride PE_size : ℤ) : Prop where
  checks : ¬ splitRefused C.numPes parent PE_start PE_stride PE_size ↔
    1 ≤ PE_stride ∧ 1 ≤ PE_size ∧
      ∀ i : ℕ, i < PE_size → 0 ≤ PE_start + PE_stride * i ∧ PE_start + PE_stride * i < parent.size
  member : ¬ splitRefused C.numPes parent PE_start PE_stride PE_size → ∀ i : ℕ, i < PE_size →
    newTeamPe parent PE_start PE_stride i = teamPe parent (PE_start + PE_stride * i)
  subset : ¬ splitRefused C.numPes parent PE_start PE_stride PE_size → ∀ i : ℕ, i < PE_size →
    ∃ j < parent.size, newTeamPe parent PE_start PE_stride i = teamPe parent j
  /-- if an index is free on all PEs of the triplet -/
  given : ¬ splitRefused C.numPes parent PE_start PE_stride PE_size →
    ∀ s, ¬ NoCommonIndex C s (activeSet (teamPe parent PE_start) PE_stride PE_size) →
      ∃ r, teamSplitStrided C s parent PE_start PE_stride PE_size = some r ∧ (∀ q, r.ret q = 0) ∧ ∀ q ∈ parent.pes,
        ((r.new_team q).isSome ↔ ∃ i : ℕ, i < PE_size ∧ newTeamPe parent PE_start PE_stride i = q) ∧
        ∀ t ∈ r.new_team q, t.size = PE_size ∧ ∀ i : ℕ, teamPe t i = newTeamPe parent PE_start PE_stride i

/-- a call with at least two PEs from a PE of the parent on either stays in a parent without gaps, or it leaves the parent
by its size or by leaving the job -/
def Aligned (C : Cfg) (parent : TeamDesc) (PE_start PE_stride PE_size : ℤ) : Prop :=
  1 ≤ PE_stride → 2 ≤ PE_size → 0 ≤ PE_start → PE_start < parent.size →
    if PE_start + PE_stride * (PE_size - 1) < parent.size then parent.stride = 1
    else parent.size < PE_size ∨ C.numPes ≤ newTeamPe parent PE_start PE_stride (PE_size - 1)

/-! ## The checks -/

section
variable {C : Cfg} {parent : TeamDesc} {PE_start PE_stride PE_size : ℤ}

/-- an int that did not overflow -/
theorem cInt_eq {x : ℤ} (h : -2 ^ 31 ≤ x ∧ x < 2 ^ 31) : cInt x = x :=
  Int.bmod_eq_of_le_mul_two (by push_cast; omega) (by push_cast; omega)

theorem not_refused_iff (hint : -2 ^ 31 ≤ newTeamPe parent PE_start PE_stride (PE_size - 1) ∧
    newTeamPe parent PE_start PE_stride (PE_size - 1) < 2 ^ 31) :
    ¬ splitRefused C.numPes parent PE_start PE_stride PE_size ↔
      (0 ≤ PE_start ∧ PE_start < parent.size) ∧ (1 ≤ PE_size ∧ PE_size ≤ parent.size) ∧ 1 ≤ PE_stride ∧
        teamPe parent PE_start < C.numPes ∧ newTeamPe parent PE_start PE_stride (PE_size - 1) < C.numPes := by
  have hend : cInt (teamPe parent PE_start + PE_stride * (PE_size - 1)) =
      newTeamPe parent PE_start PE_stride (PE_size - 1) := cInt_eq hint
  simp only [splitRefused, hend]
  omega

/-- the first and the last PE decide about a triplet -/
theorem triplet_iff {n : ℤ} (hstride : 1 ≤ PE_stride) (hsize : 1 ≤ PE_size) :
    (∀ i : ℕ, i < PE_size → 0 ≤ PE_start + PE_stride * i ∧ PE_start + PE_stride * i < n) ↔
      0 ≤ PE_start ∧ PE_start + PE_stride * (PE_size - 1) < n := by
  constructor
  · intro h
    have hfirst := (h 0 (by omega)).1
    have hlast := (h (PE_size - 1).toNat (by omega)).2
    rw [Int.toNat_of_nonneg (by omega)] at hlast
    exact ⟨by simpa using hfirst, hlast⟩
  · rintro ⟨hfirst, hlast⟩ i hi
    have hle : PE_stride * i ≤ PE_stride * (PE_size - 1) := Int.mul_le_mul_of_nonneg_left (by omega) (by omega)
    have hnonneg : 0 ≤ PE_stride * i := Int.mul_nonneg (by omega) (by omega)
    exact ⟨by omega, by omega⟩

/-- a number of the parent is the number of a PE -/
theorem ValidTeam.pe_lt (h : ValidTeam C parent) {x : ℤ} (h0 : 0 ≤ x) (hx : x < parent.size) :
    teamPe parent x < C.numPes := by
  obtain ⟨i, rfl⟩ : ∃ i : ℕ, x = i := ⟨x.toNat, by omega⟩
  have := h.lt i (by exact_mod_cast hx)
  simp only [teamPe]
  exact_mod_cast this

/-- a triplet that stays in the parent is not larger than it -/
theorem size_le_of_last (hstride : 1 ≤ PE_stride) (hsize : 1 ≤ PE_size) (h0 : 0 ≤ PE_start) {n : ℤ}
    (hlast : PE_start + PE_stride * (PE_size - 1) < n) : PE_size ≤ n := by
  have : PE_size - 1 ≤ PE_stride * (PE_size - 1) := le_mul_of_one_le_left (by omega) hstride
  omega

/-- in a parent without gaps the two strides are the same -/
theorem newTeamPe_of_one (h1 : parent.stride = 1) (i : ℤ) :
    newTeamPe parent PE_start PE_stride i = teamPe parent (PE_start + PE_stride * i) := by
  simp only [newTeamPe, teamPe, h1]
  push_cast
  ring

/-- the first member is right in any parent -/
theorem newTeamPe_zero : newTeamPe parent PE_start PE_stride 0 = teamPe parent PE_start := by
  rw [newTeamPe, Int.mul_zero, Int.add_zero]

/-! ## The teams that are given -/

theorem retReduced_zero (pes : List ℕ) : retReduced (fun _ => 0) pes = 0 := by
  induction pes with
  | nil => rfl
  | cons p pes ih => exact ih

/-- the search for an index that the members have in common finds the lowest one -/
theorem search_of_common {s : St} {child : List ℕ} (hfree : ¬ NoCommonIndex C s child) :
    ∃ i < C.TEAMS_MAX, (bit1stNonzero (availReduced s child) N_PSYNC_BYTES).filter (fun i => i < C.TEAMS_MAX) = some i ∧
      ∀ m, bitFetch (availReduced s child) m = true → i ≤ m := by
  obtain ⟨j, hj, hbit⟩ : ∃ j < C.TEAMS_MAX, bitFetch (availReduced s child) j = true := by
    unfold NoCommonIndex at hfree
    push Not at hfree
    obtain ⟨j, hj, hall⟩ := hfree
    exact ⟨j, hj, (bitFetch_availReduced _ _ _).mpr fun q hq => Bool.eq_true_of_not_eq_false (hall q hq)⟩
  have h64 := C.le
  cases hfind : bit1stNonzero (availReduced s child) N_PSYNC_BYTES with
  | none =>
    have hnone := bit1stNonzero_eq_none _ _ hfind j (by simp only [N_PSYNC_BYTES]; omega)
    exact absurd (hbit.symm.trans hnone) (by decide)
  | some i =>
    obtain ⟨-, -, hlow⟩ := bit1stNonzero_eq_some _ _ _ hfind
    have hlowest : ∀ m, bitFetch (availReduced s child) m = true → i ≤ m := by
      intro m hm
      by_contra hlt
      exact absurd (hm.symm.trans (hlow m (by omega))) (by decide)
    have hlt : i < C.TEAMS_MAX := (hlowest j hbit).trans_lt hj
    exact ⟨i, hlt, by rw [Option.filter_some, if_pos (by simpa using hlt)], hlowest⟩

/-- who gets a team, and which, when the triplet stays in the parent -/
theorem given (hacc : ¬ splitRefused C.numPes parent PE_start PE_stride PE_size)
    (hsub : ∀ q ∈ activeSet (teamPe parent PE_start) PE_stride PE_size, q ∈ parent.pes) (s : St)
    (hfree : ¬ NoCommonIndex C s (activeSet (teamPe parent PE_start) PE_stride PE_size)) :
    ∃ r, teamSplitStrided C s parent PE_start PE_stride PE_size = some r ∧ (∀ q, r.ret q = 0) ∧ ∀ q ∈ parent.pes,
      ((r.new_team q).isSome ↔ ∃ i : ℕ, i < PE_size ∧ newTeamPe parent PE_start PE_stride i = q) ∧
      ∀ t ∈ r.new_team q, t.size = PE_size ∧ ∀ i : ℕ, teamPe t i = newTeamPe parent PE_start PE_stride i := by
  obtain ⟨i, -, hfilter, -⟩ := search_of_common hfree
  have hnotsub : ¬ ∃ q ∈ activeSet (teamPe parent PE_start) PE_stride PE_size, q ∉ parent.pes := by
    rintro ⟨q, hq, hn⟩
    exact hn (hsub q hq)
  simp only [splitRefused] at hacc
  have hsize : 0 < PE_size := by omega
  have hstride : 1 ≤ PE_stride := by omega
  obtain ⟨g, hg⟩ : ∃ g : ℕ, teamPe parent PE_start = g := by
    refine ⟨(teamPe parent PE_start).toNat, (Int.toNat_of_nonneg ?_).symm⟩
    have := Int.mul_nonneg (show (0 : ℤ) ≤ parent.stride by omega) (show 0 ≤ PE_start by omega)
    unfold teamPe
    omega
  have hmem : ∀ q : ℕ, peInActiveSet q g PE_stride PE_size ≠ -1 ↔
      ∃ i : ℕ, i < PE_size ∧ newTeamPe parent PE_start PE_stride i = q := by
    intro q
    rw [peInActiveSet_ne q g PE_stride PE_size hstride hsize]
    simp only [activeSet, List.mem_map, List.mem_range, newTeamPe, hg]
    refine exists_congr fun k => and_congr (by omega) ?_
    have : 0 ≤ (k : ℤ) * PE_stride := Int.mul_nonneg (by omega) (by omega)
    rw [Int.mul_comm PE_stride]
    omega
  unfold teamSplitStrided
  simp only [splitRefused]
  rw [if_neg hacc, if_neg hnotsub, hfilter]
  refine ⟨_, rfl, fun _ => retReduced_zero _, fun q hq => ?_⟩
  simp only [hq, true_and, hg]
  refine ⟨?_, fun t ht => ?_⟩
  · rw [← hmem]
    split_ifs with h <;> simp [h]
  · split_ifs at ht with h
    · rw [← Option.some.inj ht]
      refine ⟨Int.toNat_of_nonneg hsize.le, fun k => ?_⟩
      simp only [teamPe, newTeamPe, Int.toNat_natCast, Int.toNat_of_nonneg (show 0 ≤ PE_stride by omega)] at hg ⊢
      rw [hg]
    · exact absurd ht (by simp)

/-! ## Main result -/

variable (hvalid : ValidTeam C parent) (hint : -2 ^ 31 ≤ newTeamPe parent PE_start PE_stride (PE_size - 1) ∧
  newTeamPe parent PE_start PE_stride (PE_size - 1) < 2 ^ 31)
include hvalid hint

theorem aligned_of_selects (h : Selects C parent PE_start PE_stride PE_size) :
    Aligned C parent PE_start PE_stride PE_size := by
  intro hstride hsize h0 hlt
  have hiff := h.checks
  rw [triplet_iff hstride (by omega), and_iff_right hstride, and_iff_right (by omega), and_iff_right h0] at hiff
  split_ifs with hlast
  · -- the second member is at the stride of the call, and at that of the parent
    have hone := h.member (hiff.mpr hlast) 1 (by omega)
    have hmul : (parent.stride : ℤ) * PE_stride = 1 * PE_stride := by
      simp only [newTeamPe, teamPe, Nat.cast_one, Int.mul_one, Int.mul_add] at hone
      omega
    have := Int.eq_of_mul_eq_mul_right (by omega) hmul
    exact_mod_cast this
  · by_contra hnot
    push Not at hnot
    refine hlast (hiff.mp ((not_refused_iff hint).mpr ?_))
    exact ⟨⟨h0, hlt⟩, ⟨by omega, hnot.1⟩, hstride, hvalid.pe_lt h0 hlt, hnot.2⟩

theorem checks_of_aligned (h : Aligned C parent PE_start PE_stride PE_size) :
    ¬ splitRefused C.numPes parent PE_start PE_stride PE_size ↔
      1 ≤ PE_stride ∧ 1 ≤ PE_size ∧
        ∀ i : ℕ, i < PE_size → 0 ≤ PE_start + PE_stride * i ∧ PE_start + PE_stride * i < parent.size := by
  rw [not_refused_iff hint]
  constructor
  · rintro ⟨⟨h0, hlt⟩, ⟨hsize, hle⟩, hstride, hstart, hend⟩
    refine ⟨hstride, hsize, (triplet_iff hstride hsize).mpr ⟨h0, ?_⟩⟩
    rcases hsize.eq_or_lt with h1 | h2
    · rw [← h1]
      simpa using hlt
    · by_contra hlast
      have := h hstride h2 h0 hlt
      rw [if_neg hlast] at this
      omega
  · rintro ⟨hstride, hsize, hin⟩
    obtain ⟨h0, hlast⟩ := (triplet_iff hstride hsize).mp hin
    have hnonneg : 0 ≤ PE_stride * (PE_size - 1) := Int.mul_nonneg (by omega) (by omega)
    have hlt : PE_start < parent.size := by omega
    have hstart := hvalid.pe_lt h0 hlt
    refine ⟨⟨h0, hlt⟩, ⟨hsize, size_le_of_last hstride hsize h0 hlast⟩, hstride, hstart, ?_⟩
    rcases hsize.eq_or_lt with h1 | h2
    · rw [← h1, Int.sub_self, newTeamPe_zero]
      exact hstart
    · have hone := h hstride h2 h0 hlt
      rw [if_pos hlast] at hone
      rw [newTeamPe_of_one hone]
      exact hvalid.pe_lt (by omega) hlast

theorem selects_of_aligned (h : Aligned C parent PE_start PE_stride PE_size) :
    Selects C parent PE_start PE_stride PE_size := by
  have hchecks := checks_of_aligned hvalid hint h
  have hmember : ¬ splitRefused C.numPes parent PE_start PE_stride PE_size → ∀ i : ℕ, i < PE_size →
      newTeamPe parent PE_start PE_stride i = teamPe parent (PE_start + PE_stride * i) := by
    intro hacc i hi
    obtain ⟨hstride, hsize, hin⟩ := hchecks.mp hacc
    obtain ⟨h0, hlast⟩ := (triplet_iff hstride hsize).mp hin
    rcases hsize.eq_or_lt with h1 | h2
    · obtain rfl : i = 0 := by omega
      rw [Nat.cast_zero, newTeamPe_zero, Int.mul_zero, Int.add_zero]
    · have hlt := (hin 0 (by omega)).2
      have hone := h hstride h2 h0 (by simpa using hlt)
      rw [if_pos hlast] at hone
      exact newTeamPe_of_one hone i
  have hsubset : ¬ splitRefused C.numPes parent PE_start PE_stride PE_size → ∀ i : ℕ, i < PE_size →
      ∃ j < parent.size, newTeamPe parent PE_start PE_stride i = teamPe parent j := by
    intro hacc i hi
    obtain ⟨h0, hlt⟩ := (hchecks.mp hacc).2.2 i hi
    refine ⟨(PE_start + PE_stride * i).toNat, by omega, ?_⟩
    rw [hmember hacc i hi, Int.toNat_of_nonneg h0]
  refine ⟨hchecks, hmember, hsubset, fun hacc s hfree => given hacc (fun q hq => ?_) s hfree⟩
  -- the PEs of the triplet are PEs of the parent
  obtain ⟨k, hk, rfl⟩ := List.mem_map.mp hq
  obtain ⟨j, hj, heq⟩ := hsubset hacc k (by have := List.mem_range.mp hk; omega)
  have hpe : teamPe parent j = ((parent.start + j * parent.stride : ℕ) : ℤ) := by
    simp only [teamPe]
    push_cast
    ring
  rw [newTeamPe, Int.mul_comm, hpe] at heq
  rw [heq, Int.toNat_natCast]
  exact List.mem_map.mpr ⟨j, List.mem_range.mpr hj, rfl⟩

/-- **A split selects the triplet of the parent** exactly if the call is `Aligned`. -/
theorem selects_iff : Selects C parent PE_start PE_stride PE_size ↔ Aligned C parent PE_start PE_stride PE_size :=
  ⟨aligned_of_selects hvalid hint, selects_of_aligned hvalid hint⟩

end

/-- four PEs on one node -/
def fourPes : Cfg where
  numPes := 4
  TEAMS_MAX := 10
  two_le := by decide
  le := by decide
  TEAM_SHARED_ONLY_SELF := false
  USE_XPMEM := true
  shr_rank := fun _ q => q

/-- every second PE of SHMEM_TEAM_WORLD: PE 2 gets a team and PE 1 does not -/
theorem selects_iff_world : Selects fourPes (world fourPes 0) 0 2 2 ∧
    ∃ r, teamSplitStrided fourPes (run fourPes []) (world fourPes 0) 0 2 2 = some r ∧ (r.new_team 2).isSome ∧
      ¬ (r.new_team 1).isSome := by
  have h : Selects fourPes (world fourPes 0) 0 2 2 := by
    refine (selects_iff ⟨by decide, by decide, fun i hi => ?_⟩ (by decide)).mpr fun _ _ _ _ => ?_
    · have hi : i < 4 := hi
      simp only [world, fourPes]
      omega
    · rw [if_pos (by decide)]
      rfl
  have hfree : ¬ NoCommonIndex fourPes (run fourPes []) (activeSet (teamPe (world fourPes 0) 0) 2 2) := by
    intro hno
    obtain ⟨q, hq, hbit⟩ := hno 9 (by decide)
    revert q
    decide
  obtain ⟨r, hr, -, hteam⟩ := h.given (by decide) _ hfree
  refine ⟨h, r, hr, (hteam 2 (by decide)).1.mpr ⟨1, by decide, by decide⟩, fun h1 => ?_⟩
  obtain ⟨i, hi, heq⟩ := (hteam 1 (by decide)).1.mp h1
  simp only [newTeamPe, teamPe, world] at heq
  omega

/-- splitting this team into itself gives PEs 0 and 1 instead of 0 and 2, and PE 1 is not in the parent -/
theorem split_leaves_parent : ∃ parent ∈ ((run fourPes [.split 0 0 0 2 2]).pe 0).live,
    parent.start = 0 ∧ parent.stride = 2 ∧ parent.size = 2 ∧ ¬ splitRefused fourPes.numPes parent 0 1 2 ∧
      newTeamPe parent 0 1 1 = 1 ∧ teamPe parent (0 + 1 * 1) = 2 ∧ ¬ Selects fourPes parent 0 1 2 := by
  refine ⟨⟨5, 0, 0, 2, 2, 2⟩, by decide +kernel, rfl, rfl, rfl, by decide, by decide, by decide, fun h => ?_⟩
  exact absurd (h.member (by decide) 1 (by decide)) (by decide)

end SandiaShmem.Teams.SplitStrided
