/-
Team slots: which of the TEAMS_MAX indices each PE holds, over any history of `shmem_internal_team_split_strided` and
`shmem_internal_team_destroy` (`src/shmem_team.c`).

Every PE has its own bitmap `psync_pool_avail` (bit i set: index i is free on this PE) and its own table
`shmem_internal_team_pool`. A split is a collective call of the PEs of the parent team: the members of the child AND
their bitmaps and take the lowest common free index; all PEs of the parent then agree on the return value by a MAX
reduction. The two reductions and the parent barrier are taken to be correct. A destroy is a call of one PE on its own
tables; nothing synchronises the destroys of the members of a team.

`live p` is the list of the teams PE p is a member of: those it was given by a split and has not destroyed, and the two
pre-defined teams.

A call does not complete (and changes nothing here) when some member of the child is not a PE of the parent: it never
joins the AND reduction. Note that the stride of the child counts PEs of the job, not PEs of the parent.

- `step_inv`: every completed call keeps `SlotInv`.
- `slot_allocation`: after every history the bitmap, the table and the teams of every PE agree, the members of a team
  agree on its index, and a split without a common free index fails on all PEs of the parent and changes nothing.
-/
import SandiaShmem.Core.Runs
import SandiaShmem.Teams.Bits
import SandiaShmem.Teams.Psync
import SandiaShmem.Teams.Shared

namespace SandiaShmem.Teams

/-! ## Active sets -/

/-- a C `int`: the value modulo 2^32, in [-2^31, 2^31) -/
def cInt (x : ℤ) : ℤ := x.bmod (2 ^ 32)

/-- `shmem_internal_pe_in_active_set` -/
def peInActiveSet (global_pe PE_start PE_stride PE_size : ℤ) : ℤ :=
  let n := (global_pe - PE_start).tdiv PE_stride
  if global_pe < PE_start ∨ (global_pe - PE_start).tmod PE_stride ≠ 0 ∨ n ≥ PE_size then -1 else n

/-- `shmem_internal_team_pe` -/
def teamPe (team : TeamDesc) (pe : ℤ) : ℤ := team.start + team.stride * pe

/-- the PEs of a team, in order -/
def TeamDesc.pes (t : TeamDesc) : List ℕ := (List.range t.size).map fun k : ℕ => t.start + k * t.stride

/-- the PEs of the active set (PE_start, PE_stride, PE_size), in order -/
def activeSet (PE_start PE_stride PE_size : ℤ) : List ℕ :=
  (List.range PE_size.toNat).map fun k : ℕ => (PE_start + k * PE_stride).toNat

theorem peInActiveSet_ne (q start : ℕ) (stride size : ℤ) (hstride : 1 ≤ stride) (hsize : 0 < size) :
    peInActiveSet q start stride size ≠ -1 ↔ q ∈ activeSet start stride size := by
  unfold peInActiveSet activeSet
  have hs0 : stride ≠ 0 := by omega
  simp only [List.mem_map, List.mem_range]
  constructor
  · intro h
    split_ifs at h with hc
    · exact absurd rfl h
    · simp only [not_or, not_lt, ge_iff_le, not_le, not_not] at hc
      obtain ⟨h1, h2, h3⟩ := hc
      have hd : 0 ≤ (q : ℤ) - start := by omega
      have hdiv : (q : ℤ) - start = stride * ((q : ℤ) - start).tdiv stride := by
        have := Int.mul_tdiv_add_tmod ((q : ℤ) - start) stride
        omega
      have hn : 0 ≤ ((q : ℤ) - start).tdiv stride := Int.tdiv_nonneg hd (by omega)
      refine ⟨(((q : ℤ) - start).tdiv stride).toNat, by omega, ?_⟩
      rw [Int.toNat_of_nonneg hn]
      have : (start : ℤ) + ((q : ℤ) - start).tdiv stride * stride = q := by
        rw [Int.mul_comm, ← hdiv]; omega
      rw [this]; simp
  · rintro ⟨k, hk, hq⟩
    have hks : 0 ≤ (k : ℤ) * stride := Int.mul_nonneg (by omega) (by omega)
    have hq' : (q : ℤ) - start = k * stride := by omega
    rw [hq', Int.mul_tdiv_cancel _ hs0, Int.mul_tmod_left]
    rw [if_neg]
    · omega
    · simp only [not_or, not_lt, ge_iff_le, not_le, not_not]
      exact ⟨by omega, trivial, by omega⟩

/-- member k has index k -/
theorem peInActiveSet_member {g k d n : ℕ} (hk : k < n) (hd : 1 ≤ d) : peInActiveSet ((g + k * d : ℕ) : ℤ) g d n = k := by
  have hmul : ((g + k * d : ℕ) : ℤ) - g = k * d := by push_cast; ring
  have hnonneg : (0 : ℤ) ≤ k * d := by positivity
  unfold peInActiveSet
  rw [hmul, Int.mul_tdiv_cancel _ (by omega), Int.mul_tmod_left, if_neg (by omega)]

/-! ## The job -/

/-- the job, its settings, and what `shmem_internal_get_shr_rank` returns on each PE -/
structure Cfg where
  numPes : ℕ
  TEAMS_MAX : ℕ
  two_le : 2 ≤ TEAMS_MAX
  le : TEAMS_MAX ≤ 64
  TEAM_SHARED_ONLY_SELF : Bool
  USE_XPMEM : Bool
  shr_rank : ℕ → ℕ → ℤ

/-- SHMEM_TEAM_WORLD on PE p -/
def world (C : Cfg) (p : ℕ) : TeamDesc := ⟨0, p, 0, 1, C.numPes, SHMEM_TEAM_WORLD_INDEX⟩

/-- the PEs whose heap PE p can reach -/
def Cfg.ptr (C : Cfg) (p : ℕ) : ℕ → Bool := internalPtr C.USE_XPMEM (C.shr_rank p) p

/-- start, stride and size of SHMEM_TEAM_SHARED on PE p -/
def Cfg.triplet (C : Cfg) (p : ℕ) : Triplet := sharedTriplet C.TEAM_SHARED_ONLY_SELF (C.ptr p) C.numPes p

/-- SHMEM_TEAM_SHARED on PE p; teams that start at different PEs are different teams -/
def shared (C : Cfg) (p : ℕ) : TeamDesc :=
  ⟨1 + (C.triplet p).start.toNat, p, (C.triplet p).start.toNat, (C.triplet p).stride.toNat, (C.triplet p).size.toNat,
    SHMEM_TEAM_SHARED_INDEX⟩

theorem Cfg.ptr_self (C : Cfg) (p : ℕ) : C.ptr p p = true := if_pos rfl

/-- SHMEM_TEAM_SHARED is made of PEs of the job -/
theorem shared_lt (C : Cfg) {p : ℕ} (hp : p < C.numPes) :
    0 < (shared C p).size ∧ 1 ≤ (shared C p).stride ∧
      ∀ i < (shared C p).size, (shared C p).start + (shared C p).stride * i < C.numPes := by
  obtain ⟨start, stride, size, h, hpos⟩ := sharedTriplet_lt C.TEAM_SHARED_ONLY_SELF hp (C.ptr_self p)
  have htriplet : C.triplet p = ⟨start, stride, size⟩ := h
  simp only [shared, htriplet, Int.toNat_natCast]
  exact hpos

/-- the tables of one PE -/
structure PeSt where
  psync_pool_avail : Bytes
  team_pool : ℕ → Option TeamDesc
  live : List TeamDesc

structure St where
  pe : ℕ → PeSt
  nextUid : ℕ

/-- bits 0 to TEAMS_MAX - 1 set, then the bits of the two pre-defined teams cleared -/
def initAvail (T : ℕ) : Bytes :=
  bitClear (bitClear ((List.range T).foldl bitSet fun _ => 0#8) SHMEM_TEAM_WORLD_INDEX) SHMEM_TEAM_SHARED_INDEX

/-- the tables after `shmem_internal_team_init` -/
def init (C : Cfg) : St where
  pe p := {
    psync_pool_avail := initAvail C.TEAMS_MAX
    team_pool := Function.update (Function.update (fun _ => none) SHMEM_TEAM_WORLD_INDEX (some (world C p)))
      SHMEM_TEAM_SHARED_INDEX (some (shared C p))
    live := [world C p, shared C p] }
  nextUid := C.numPes + 1

/-- a completed call of `shmem_internal_team_split_strided`: the tables after it, and what it returned and stored in
`*new_team` on each PE (`none` is SHMEM_TEAM_INVALID) -/
structure SplitResult where
  st : St
  ret : ℕ → ℤ
  new_team : ℕ → Option TeamDesc

/-- the AND reduction of the bitmaps over the members of the child -/
def availReduced (s : St) (child : List ℕ) : Bytes :=
  fun b => child.foldl (fun acc q => acc &&& (s.pe q).psync_pool_avail b) 0xFF#8

/-- the MAX reduction of `team_ret_val` over the PEs of the parent -/
def retReduced (val : ℕ → ℤ) (pes : List ℕ) : ℤ := pes.foldl (fun m q => max m (val q)) 0

/-- a member of the child takes index i -/
def PeSt.take (s : PeSt) (i : ℕ) (t : TeamDesc) : PeSt where
  psync_pool_avail := bitClear s.psync_pool_avail i
  team_pool := Function.update s.team_pool i (some t)
  live := s.live ++ [t]

/-- the two checks of `shmem_internal_team_split_strided` that make it return -1 -/
def splitRefused (numPes : ℕ) (parent : TeamDesc) (PE_start PE_stride PE_size : ℤ) : Prop :=
  let global_PE_start := teamPe parent PE_start
  let global_PE_end := cInt (global_PE_start + PE_stride * (PE_size - 1))
  (PE_start < 0 ∨ PE_start ≥ parent.size ∨ PE_size ≤ 0 ∨ PE_size > parent.size ∨ PE_stride < 1) ∨
    (global_PE_start ≥ numPes ∨ global_PE_end ≥ numPes)

instance (numPes : ℕ) (parent : TeamDesc) (PE_start PE_stride PE_size : ℤ) :
    Decidable (splitRefused numPes parent PE_start PE_stride PE_size) := inferInstanceAs (Decidable (_ ∨ _))

/-- `shmem_internal_team_split_strided` on all PEs of a valid parent; `none` when the call never completes -/
def teamSplitStrided (C : Cfg) (s : St) (parent : TeamDesc) (PE_start PE_stride PE_size : ℤ) : Option SplitResult :=
  let global_PE_start := teamPe parent PE_start
  if splitRefused C.numPes parent PE_start PE_stride PE_size then some ⟨s, fun _ => -1, fun _ => none⟩
  else
    let my_pe := fun q : ℕ => peInActiveSet q global_PE_start PE_stride PE_size
    let child := activeSet global_PE_start PE_stride PE_size
    if ∃ q ∈ child, q ∉ parent.pes then none
    else
      let psync_idx := bit1stNonzero (availReduced s child) N_PSYNC_BYTES
      match psync_idx.filter (fun i => i < C.TEAMS_MAX) with
      | none =>
        -- no more teams available
        let team_ret_val := fun q => if my_pe q ≠ -1 then 1 else 0
        some ⟨{ s with nextUid := s.nextUid + 1 }, fun _ => retReduced team_ret_val parent.pes, fun _ => none⟩
      | some i =>
        let myteam := fun q : ℕ =>
          (⟨s.nextUid, (my_pe q).toNat, global_PE_start.toNat, PE_stride.toNat, PE_size.toNat, i⟩ : TeamDesc)
        some {
          st := {
            pe := fun q => if q ∈ parent.pes ∧ my_pe q ≠ -1 then (s.pe q).take i (myteam q) else s.pe q
            nextUid := s.nextUid + 1 }
          ret := fun _ => retReduced (fun _ => 0) parent.pes
          new_team := fun q => if q ∈ parent.pes ∧ my_pe q ≠ -1 then some (myteam q) else none }

/-- `shmem_internal_team_destroy` on one PE; `none` when it stops the job with an error -/
def teamDestroy (s : PeSt) (team : TeamDesc) : Option PeSt :=
  if bitFetch s.psync_pool_avail team.psync_idx then none
  else some {
    psync_pool_avail := bitSet s.psync_pool_avail team.psync_idx
    team_pool := Function.update s.team_pool team.psync_idx none
    live := s.live.filter fun t => t.uid ≠ team.uid }

/-- the calls of a history -/
inductive Op where
  /-- all PEs of the team with this uid, as `caller` knows it, split it -/
  | split (caller uid : ℕ) (PE_start PE_stride PE_size : ℤ)
  /-- PE p destroys the team with this uid -/
  | destroy (p uid : ℕ)
deriving DecidableEq, Repr

/-- the team with this uid on PE p -/
def teamOf (s : St) (p uid : ℕ) : Option TeamDesc := (s.pe p).live.find? fun t => t.uid = uid

/-- every PE of the parent has the parent team, with the same triplet -/
def Collective (C : Cfg) (s : St) (parent : TeamDesc) : Prop :=
  ∀ q ∈ parent.pes, q < C.numPes ∧ ∃ t ∈ teamOf s q parent.uid,
    t.start = parent.start ∧ t.stride = parent.stride ∧ t.size = parent.size

instance (C : Cfg) (s : St) (parent : TeamDesc) : Decidable (Collective C s parent) :=
  inferInstanceAs (Decidable (∀ _ ∈ _, _))

/-- one call, when it is a legal one and completes -/
def step (C : Cfg) (s : St) : Op → St
  | .split caller uid PE_start PE_stride PE_size =>
    match teamOf s caller uid with
    -- a call with SHMEM_TEAM_INVALID returns 1 and does nothing else
    | none => s
    | some parent =>
      if Collective C s parent then
        match teamSplitStrided C s parent PE_start PE_stride PE_size with
        | none => s
        | some r => r.st
      else s
  | .destroy p uid =>
    match teamOf s p uid with
    -- a call with SHMEM_TEAM_INVALID returns -1 and does nothing else
    | none => s
    | some team =>
      -- `shmem_team_destroy` refuses the pre-defined teams
      if p < C.numPes ∧ team ≠ world C p ∧ team ≠ shared C p then
        match teamDestroy (s.pe p) team with
        | none => s
        | some t => { s with pe := Function.update s.pe p t }
      else s

def run (C : Cfg) (ops : List Op) : St := Runs.run (step C) (init C) ops

/-! ## The reductions -/

theorem foldl_and_bit (s : St) (child : List ℕ) (b j : ℕ) (acc : BitVec 8) :
    (child.foldl (fun acc q => acc &&& (s.pe q).psync_pool_avail b) acc).getLsbD j = true ↔
      acc.getLsbD j = true ∧ ∀ q ∈ child, ((s.pe q).psync_pool_avail b).getLsbD j = true := by
  induction child generalizing acc with
  | nil => simp
  | cons q qs ih => simp [ih, BitVec.getLsbD_and, and_assoc]

/-- a bit of the reduced bitmap is set iff it is set on every member of the child -/
theorem bitFetch_availReduced (s : St) (child : List ℕ) (i : ℕ) :
    bitFetch (availReduced s child) i = true ↔ ∀ q ∈ child, bitFetch (s.pe q).psync_pool_avail i = true := by
  have h8 : (0xFF#8).getLsbD (i % 8) = true := by
    have := Nat.mod_lt i (show 0 < 8 by decide)
    interval_cases i % 8 <;> decide
  simp only [bitFetch_eq, availReduced, foldl_and_bit, h8, true_and]

theorem retReduced_eq_one (val : ℕ → ℤ) (pes : List ℕ) (h01 : ∀ q, val q = 0 ∨ val q = 1) (q : ℕ) (hq : q ∈ pes)
    (h1 : val q = 1) : retReduced val pes = 1 := by
  have key : ∀ (l : List ℕ) (m : ℤ), m = 0 ∨ m = 1 → (m = 1 ∨ q ∈ l) →
      l.foldl (fun m q => max m (val q)) m = 1 := by
    intro l
    induction l with
    | nil => intro m _ hm; simpa using hm
    | cons x xs ih =>
      intro m hm hmem
      refine ih _ ?_ ?_
      · rcases hm with rfl | rfl <;> rcases h01 x with hx | hx <;> simp [hx]
      · rcases hmem with rfl | hmem
        · left; rcases h01 x with hx | hx <;> simp [hx]
        · rcases List.mem_cons.1 hmem with rfl | hmem
          · left; rcases hm with rfl | rfl <;> simp [h1]
          · exact Or.inr hmem
  exact key pes 0 (Or.inl rfl) (Or.inr hq)

/-- no index below TEAMS_MAX is free on every member of the child -/
def NoCommonIndex (C : Cfg) (s : St) (child : List ℕ) : Prop :=
  ∀ i < C.TEAMS_MAX, ∃ q ∈ child, bitFetch (s.pe q).psync_pool_avail i = false

/-! ## The invariant -/

/-- bitmap, table and teams of every PE agree -/
structure SlotInv (C : Cfg) (s : St) : Prop where
  bits : ∀ p < C.numPes, ∀ i, bitFetch (s.pe p).psync_pool_avail i = true ↔
    i < C.TEAMS_MAX ∧ ∀ t ∈ (s.pe p).live, t.psync_idx ≠ i
  pool : ∀ p < C.numPes, ∀ i t, (s.pe p).team_pool i = some t ↔ t ∈ (s.pe p).live ∧ t.psync_idx = i
  /-- two teams of one PE have different indices -/
  distinct : ∀ p < C.numPes, ∀ t ∈ (s.pe p).live, ∀ t' ∈ (s.pe p).live, t.psync_idx = t'.psync_idx → t = t'
  /-- the members of a team agree on its index -/
  agree : ∀ p < C.numPes, ∀ q < C.numPes, ∀ t ∈ (s.pe p).live, ∀ t' ∈ (s.pe q).live, t.uid = t'.uid →
    t.psync_idx = t'.psync_idx
  /-- a PE is one of the PEs of its teams; SHMEM_TEAM_SHARED may be an exception -/
  member : ∀ p < C.numPes, ∀ t ∈ (s.pe p).live, (t = shared C p ∨ p ∈ t.pes) ∧ t.psync_idx < C.TEAMS_MAX
  predefined : ∀ p < C.numPes, world C p ∈ (s.pe p).live ∧ shared C p ∈ (s.pe p).live
  uid : ∀ p < C.numPes, ∀ t ∈ (s.pe p).live, t.uid < s.nextUid

theorem foldl_bitSet (T i : ℕ) : bitFetch ((List.range T).foldl bitSet fun _ => 0#8) i = decide (i < T) := by
  induction T with
  | zero => simp [bitFetch_eq]
  | succ T ih =>
    rw [List.range_succ, List.foldl_append, List.foldl_cons, List.foldl_nil, bitFetch_bitSet, ih]
    rw [Bool.eq_iff_iff]
    simp; omega

theorem live_init (C : Cfg) {p : ℕ} {t : TeamDesc} :
    t ∈ ((init C).pe p).live ↔ t = world C p ∨ t = shared C p := by
  simp only [init, List.mem_cons, List.not_mem_nil, or_false]

/-- the two pre-defined teams have the first two indices -/
theorem pool_init (C : Cfg) {p i : ℕ} {t : TeamDesc} :
    ((init C).pe p).team_pool i = some t ↔ (t = world C p ∨ t = shared C p) ∧ t.psync_idx = i := by
  simp only [init, SHMEM_TEAM_WORLD_INDEX, SHMEM_TEAM_SHARED_INDEX]
  have hw : (world C p).psync_idx = 0 := rfl
  have hs : (shared C p).psync_idx = 1 := rfl
  by_cases h1 : i = 1
  · subst h1
    rw [Function.update_self]
    constructor
    · rintro ⟨⟩
      exact ⟨.inr rfl, hs⟩
    · rintro ⟨rfl | rfl, h⟩
      · exact absurd (hw.symm.trans h) (by decide)
      · rfl
  · rw [Function.update_of_ne h1]
    by_cases h0 : i = 0
    · subst h0
      rw [Function.update_self]
      constructor
      · rintro ⟨⟩
        exact ⟨.inl rfl, hw⟩
      · rintro ⟨rfl | rfl, h⟩
        · rfl
        · exact absurd (hs.symm.trans h) (by decide)
    · rw [Function.update_of_ne h0]
      refine iff_of_false nofun ?_
      rintro ⟨rfl | rfl, h⟩
      · exact h0 (h.symm.trans hw)
      · exact h1 (h.symm.trans hs)

theorem inv_init (C : Cfg) : SlotInv C (init C) := by
  have hT := C.two_le
  have hle : ∀ p < C.numPes, (C.triplet p).start.toNat < C.numPes := by
    intro p hp
    obtain ⟨hsize, -, hlt⟩ := shared_lt C hp
    exact hlt 0 hsize
  have hne : ∀ p q, (world C p).psync_idx ≠ (shared C q).psync_idx := fun p q => by
    simp only [world, shared, SHMEM_TEAM_WORLD_INDEX, SHMEM_TEAM_SHARED_INDEX]
    decide
  refine ⟨fun p hp i => ?_, fun p hp i t => ?_, fun p hp t ht t' ht' he => ?_, fun p hp q hq t ht t' ht' he => ?_,
    fun p hp t ht => ?_, fun p hp => ⟨(live_init C).mpr (.inl rfl), (live_init C).mpr (.inr rfl)⟩, fun p hp t ht => ?_⟩
  · simp only [init, initAvail, bitFetch_bitClear, foldl_bitSet, SHMEM_TEAM_WORLD_INDEX, SHMEM_TEAM_SHARED_INDEX, world,
      shared, List.mem_cons, List.not_mem_nil, or_false, forall_eq_or_imp, forall_eq, Bool.and_eq_true,
      decide_eq_true_eq]
    omega
  · rw [live_init]
    exact pool_init C
  · rcases (live_init C).mp ht with rfl | rfl <;> rcases (live_init C).mp ht' with rfl | rfl
    · rfl
    · exact absurd he (hne p p)
    · exact absurd he.symm (hne p p)
    · rfl
  · rcases (live_init C).mp ht with rfl | rfl <;> rcases (live_init C).mp ht' with rfl | rfl
    · rfl
    · simp only [world, shared] at he; omega
    · simp only [world, shared] at he; omega
    · rfl
  · rcases (live_init C).mp ht with rfl | rfl
    · refine ⟨.inr ?_, by simp only [world, SHMEM_TEAM_WORLD_INDEX]; omega⟩
      simp [TeamDesc.pes, world, hp]
    · exact ⟨.inl rfl, by simp only [shared, SHMEM_TEAM_SHARED_INDEX]; omega⟩
  · rcases (live_init C).mp ht with rfl | rfl
    · simp [world, init]
    · have := hle p hp
      simp only [shared, init]
      omega

/-! ## The calls -/

section
variable {C : Cfg} {s : St}

theorem teamOf_mem {p uid : ℕ} {t : TeamDesc} (h : teamOf s p uid = some t) : t ∈ (s.pe p).live ∧ t.uid = uid :=
  ⟨List.mem_of_find?_eq_some h, by simpa using List.find?_some h⟩

/-- what is left after a destroy was there before -/
theorem teamDestroy_live {st st' : PeSt} {team : TeamDesc} (h : teamDestroy st team = some st') {t : TeamDesc}
    (ht : t ∈ st'.live) : t ∈ st.live := by
  unfold teamDestroy at h
  split_ifs at h
  rw [← Option.some.inj h] at ht
  exact (List.mem_filter.mp ht).1

/-- one PE has at most one team with a given uid -/
theorem SlotInv.uid_inj (h : SlotInv C s) {p : ℕ} (hp : p < C.numPes) {t t' : TeamDesc} (ht : t ∈ (s.pe p).live)
    (ht' : t' ∈ (s.pe p).live) (he : t.uid = t'.uid) : t = t' :=
  h.distinct p hp t ht t' ht' (h.agree p hp p hp t ht t' ht' he)

theorem destroy_inv (h : SlotInv C s) {p : ℕ} (hp : p < C.numPes) {team : TeamDesc} (hm : team ∈ (s.pe p).live)
    (hw : team ≠ world C p) (hsh : team ≠ shared C p) {t' : PeSt} (hd : teamDestroy (s.pe p) team = some t') :
    SlotInv C { s with pe := Function.update s.pe p t' } := by
  unfold teamDestroy at hd
  split_ifs at hd with hf
  simp only [Option.some.injEq] at hd
  have hav : t'.psync_pool_avail = bitSet (s.pe p).psync_pool_avail team.psync_idx := by rw [← hd]
  have hpool : t'.team_pool = Function.update (s.pe p).team_pool team.psync_idx none := by rw [← hd]
  -- what is left on PE p: the other teams
  have hlive : ∀ t, t ∈ t'.live ↔ t ∈ (s.pe p).live ∧ t ≠ team := by
    intro t
    rw [← hd]
    simp only [ne_eq, decide_not, List.mem_filter, Bool.not_eq_true', decide_eq_false_iff_not]
    constructor
    · rintro ⟨h1, h2⟩
      exact ⟨h1, fun he => h2 (by rw [he])⟩
    · rintro ⟨h1, h2⟩
      exact ⟨h1, fun he => h2 (h.uid_inj hp h1 hm he)⟩
  have hsub : ∀ q, ∀ t ∈ (Function.update s.pe p t' q).live, t ∈ (s.pe q).live := by
    intro q t ht
    by_cases hq : q = p
    · subst hq
      rw [Function.update_self] at ht
      exact ((hlive t).1 ht).1
    · rwa [Function.update_of_ne hq] at ht
  refine ⟨?_, ?_, ?_, ?_, ?_, ?_, ?_⟩
  · intro q hq i
    by_cases hqp : q = p
    · subst hqp
      simp only [Function.update_self, hav, bitFetch_bitSet, Bool.or_eq_true, decide_eq_true_eq, h.bits q hq i]
      constructor
      · rintro (rfl | ⟨h1, h2⟩)
        · refine ⟨(h.member q hq team hm).2, fun t ht he => ?_⟩
          obtain ⟨h1, h2⟩ := (hlive t).1 ht
          exact h2 (h.distinct q hq t h1 team hm he)
        · exact ⟨h1, fun t ht => h2 t ((hlive t).1 ht).1⟩
      · rintro ⟨h1, h2⟩
        by_cases hi : i = team.psync_idx
        · exact Or.inl hi
        · refine Or.inr ⟨h1, fun t ht => ?_⟩
          by_cases hte : t = team
          · rw [hte]; exact Ne.symm hi
          · exact h2 t ((hlive t).2 ⟨ht, hte⟩)
    · simp only [Function.update_of_ne hqp]; exact h.bits q hq i
  · intro q hq i t
    by_cases hqp : q = p
    · subst hqp
      simp only [Function.update_self, hlive, hpool]
      by_cases hi : i = team.psync_idx
      · subst hi
        rw [Function.update_self]
        constructor
        · intro he; simp at he
        · rintro ⟨⟨h1, h2⟩, h3⟩
          exact absurd (h.distinct q hq t h1 team hm h3) h2
      · rw [Function.update_of_ne hi, h.pool q hq i t]
        constructor
        · rintro ⟨h1, h2⟩
          exact ⟨⟨h1, by rintro rfl; exact hi h2.symm⟩, h2⟩
        · rintro ⟨⟨h1, -⟩, h2⟩
          exact ⟨h1, h2⟩
    · simp only [Function.update_of_ne hqp]; exact h.pool q hq i t
  · exact fun q hq t ht t' ht' => h.distinct q hq t (hsub q t ht) t' (hsub q t' ht')
  · exact fun q hq r hr t ht t' ht' => h.agree q hq r hr t (hsub q t ht) t' (hsub r t' ht')
  · exact fun q hq t ht => h.member q hq t (hsub q t ht)
  · intro q hq
    by_cases hqp : q = p
    · subst hqp
      simp only [Function.update_self, hlive]
      exact ⟨⟨(h.predefined q hq).1, Ne.symm hw⟩, ⟨(h.predefined q hq).2, Ne.symm hsh⟩⟩
    · simp only [Function.update_of_ne hqp]; exact h.predefined q hq
  · exact fun q hq t ht => h.uid q hq t (hsub q t ht)

/-- the PEs of M take index i, free on all of them, for a new team -/
theorem take_inv (h : SlotInv C s) {i : ℕ} (hi : i < C.TEAMS_MAX) (M : ℕ → Prop) [DecidablePred M]
    (mt : ℕ → TeamDesc) (hfree : ∀ q < C.numPes, M q → bitFetch (s.pe q).psync_pool_avail i = true)
    (hidx : ∀ q, (mt q).psync_idx = i) (huid : ∀ q, (mt q).uid = s.nextUid) (hpes : ∀ q, M q → q ∈ (mt q).pes) :
    SlotInv C ⟨fun q => if M q then (s.pe q).take i (mt q) else s.pe q, s.nextUid + 1⟩ := by
  -- a team after the step is an old one or the new one
  have hlive : ∀ q, ∀ t ∈ (if M q then (s.pe q).take i (mt q) else s.pe q).live,
      t ∈ (s.pe q).live ∨ (M q ∧ t = mt q) := by
    intro q t ht
    split_ifs at ht with hM
    · rcases List.mem_append.1 ht with ht | ht
      · exact Or.inl ht
      · exact Or.inr ⟨hM, by simpa using ht⟩
    · exact Or.inl ht
  have hnew : ∀ q < C.numPes, M q → ∀ t ∈ (s.pe q).live, t.psync_idx ≠ i :=
    fun q hq hM => ((h.bits q hq i).1 (hfree q hq hM)).2
  refine ⟨?_, ?_, ?_, ?_, ?_, ?_, ?_⟩
  · intro q hq j
    by_cases hM : M q
    · simp only [hM, if_true, PeSt.take, bitFetch_bitClear, Bool.and_eq_true, decide_eq_true_eq, h.bits q hq j,
        List.mem_append, List.mem_singleton]
      constructor
      · rintro ⟨h1, h2, h3⟩
        refine ⟨h2, ?_⟩
        rintro t (ht | rfl)
        · exact h3 t ht
        · rw [hidx]; exact Ne.symm h1
      · rintro ⟨h1, h2⟩
        refine ⟨?_, h1, fun t ht => h2 t (Or.inl ht)⟩
        have := h2 _ (Or.inr rfl)
        rw [hidx] at this
        exact Ne.symm this
    · simp only [hM, if_false]; exact h.bits q hq j
  · intro q hq j t
    by_cases hM : M q
    · simp only [hM, if_true, PeSt.take, List.mem_append, List.mem_singleton]
      by_cases hj : j = i
      · subst hj
        rw [Function.update_self]
        constructor
        · intro he
          simp only [Option.some.injEq] at he
          exact ⟨Or.inr he.symm, by rw [← he]; exact hidx q⟩
        · rintro ⟨ht | rfl, he⟩
          · exact absurd he (hnew q hq hM t ht)
          · rfl
      · rw [Function.update_of_ne hj, h.pool q hq j t]
        constructor
        · rintro ⟨h1, h2⟩; exact ⟨Or.inl h1, h2⟩
        · rintro ⟨h1 | rfl, h2⟩
          · exact ⟨h1, h2⟩
          · exact absurd (h2.symm.trans (hidx q)) hj
    · simp only [hM, if_false]; exact h.pool q hq j t
  · intro q hq t ht t' ht' he
    rcases hlive q t ht with h1 | ⟨hM, rfl⟩ <;> rcases hlive q t' ht' with h1' | ⟨hM', rfl⟩
    · exact h.distinct q hq t h1 t' h1' he
    · exact absurd (he.trans (hidx q)) (hnew q hq hM' t h1)
    · exact absurd (he.symm.trans (hidx q)) (hnew q hq hM t' h1')
    · rfl
  · intro p hp q hq t ht t' ht' he
    rcases hlive p t ht with h1 | ⟨hM, rfl⟩ <;> rcases hlive q t' ht' with h1' | ⟨hM', rfl⟩
    · exact h.agree p hp q hq t h1 t' h1' he
    · have := h.uid p hp t h1; rw [huid] at he; omega
    · have := h.uid q hq t' h1'; rw [huid] at he; omega
    · rw [hidx, hidx]
  · intro q hq t ht
    rcases hlive q t ht with h1 | ⟨hM, rfl⟩
    · exact h.member q hq t h1
    · exact ⟨.inr (hpes q hM), by rw [hidx]; exact hi⟩
  · intro q hq
    by_cases hM : M q
    · simp only [hM, if_true, PeSt.take, List.mem_append]
      exact ⟨Or.inl (h.predefined q hq).1, Or.inl (h.predefined q hq).2⟩
    · simp only [hM, if_false]; exact h.predefined q hq
  · intro q hq t ht
    rcases hlive q t ht with h1 | ⟨hM, rfl⟩
    · exact Nat.lt_succ_of_lt (h.uid q hq t h1)
    · rw [huid]; exact Nat.lt_succ_self _

/-- the ways in which a split completes: refused arguments, no common index, a new team with index i -/
theorem split_cases {parent : TeamDesc} {PE_start PE_stride PE_size : ℤ} {r : SplitResult}
    (h : teamSplitStrided C s parent PE_start PE_stride PE_size = some r) :
    r = ⟨s, fun _ => -1, fun _ => none⟩ ∨
    ∃ g : ℕ, teamPe parent PE_start = g ∧ 0 < PE_size ∧ 1 ≤ PE_stride ∧
      (∀ q ∈ activeSet g PE_stride PE_size, q ∈ parent.pes) ∧
      ((r = ⟨{ s with nextUid := s.nextUid + 1 },
          fun _ => retReduced (fun q => if peInActiveSet q g PE_stride PE_size ≠ -1 then 1 else 0) parent.pes,
          fun _ => none⟩) ∨
        ∃ i < C.TEAMS_MAX, (∀ q ∈ activeSet g PE_stride PE_size, bitFetch (s.pe q).psync_pool_avail i = true) ∧
          ∃ mt : ℕ → TeamDesc, (∀ q, mt q = ⟨s.nextUid, (peInActiveSet q g PE_stride PE_size).toNat, g,
              PE_stride.toNat, PE_size.toNat, i⟩) ∧
            r = ⟨⟨fun q => if q ∈ parent.pes ∧ peInActiveSet q g PE_stride PE_size ≠ -1 then (s.pe q).take i (mt q)
                else s.pe q, s.nextUid + 1⟩, fun _ => retReduced (fun _ => 0) parent.pes,
              fun q => if q ∈ parent.pes ∧ peInActiveSet q g PE_stride PE_size ≠ -1 then some (mt q) else none⟩) := by
  unfold teamSplitStrided at h
  dsimp only at h
  split_ifs at h with h1 h3
  · left; simpa using h.symm
  · right
    replace h1 := (not_or.1 h1).1
    simp only [not_or, not_lt, ge_iff_le, not_le] at h1
    obtain ⟨g, hg⟩ : ∃ g : ℕ, teamPe parent PE_start = g := by
      refine ⟨(teamPe parent PE_start).toNat, (Int.toNat_of_nonneg ?_).symm⟩
      unfold teamPe
      have := Int.mul_nonneg (show (0 : ℤ) ≤ parent.stride by omega) h1.1
      omega
    rw [hg] at h h3
    refine ⟨g, hg, by omega, by omega, ?_, ?_⟩
    · intro q hq
      by_contra hn
      exact h3 ⟨q, hq, hn⟩
    · cases hf : (bit1stNonzero (availReduced s (activeSet g PE_stride PE_size)) N_PSYNC_BYTES).filter
          (fun i => i < C.TEAMS_MAX) with
      | none =>
        left
        rw [hf] at h
        simpa using h.symm
      | some i =>
        right
        rw [hf] at h
        rw [Option.filter_eq_some_iff] at hf
        obtain ⟨hb, hi⟩ := hf
        obtain ⟨-, hset, -⟩ := bit1stNonzero_eq_some _ _ _ hb
        refine ⟨i, by simpa using hi, (bitFetch_availReduced _ _ _).1 hset, _, fun q => rfl, ?_⟩
        simpa using h.symm

theorem split_inv (h : SlotInv C s) {parent : TeamDesc} {PE_start PE_stride PE_size : ℤ} {r : SplitResult}
    (hr : teamSplitStrided C s parent PE_start PE_stride PE_size = some r) : SlotInv C r.st := by
  rcases split_cases hr with rfl | ⟨g, -, hsize, hstride, hsub, rfl | ⟨i, hi, hfree, mt, hmt, rfl⟩⟩
  · exact h
  · exact { h with uid := fun p hp t ht => Nat.lt_succ_of_lt (h.uid p hp t ht) }
  · refine take_inv h hi _ mt ?_ (fun q => by rw [hmt]) (fun q => by rw [hmt]) ?_
    · rintro q - ⟨-, hq⟩
      exact hfree q ((peInActiveSet_ne q g PE_stride PE_size hstride hsize).1 hq)
    · rintro q ⟨-, hq⟩
      have hmem := (peInActiveSet_ne q g PE_stride PE_size hstride hsize).1 hq
      rw [hmt]
      simp only [activeSet, TeamDesc.pes, List.mem_map, List.mem_range] at hmem ⊢
      obtain ⟨k, hk, he⟩ := hmem
      refine ⟨k, hk, ?_⟩
      have hnn : 0 ≤ (k : ℤ) * PE_stride := Int.mul_nonneg (by omega) (by omega)
      rw [← he]
      have : ((k * PE_stride.toNat : ℕ) : ℤ) = k * PE_stride := by
        rw [Nat.cast_mul, Int.toNat_of_nonneg (by omega)]
      omega

/-- what a call does: nothing, a split that completes, or a destroy -/
inductive Calls (C : Cfg) (s : St) : St → Prop
  | idle : Calls C s s
  | split {parent : TeamDesc} {PE_start PE_stride PE_size : ℤ} {r : SplitResult} (hc : Collective C s parent)
    (hr : teamSplitStrided C s parent PE_start PE_stride PE_size = some r) : Calls C s r.st
  | destroy {p : ℕ} {team : TeamDesc} {t : PeSt} (hp : p < C.numPes) (hm : team ∈ (s.pe p).live)
    (hw : team ≠ world C p) (hsh : team ≠ shared C p) (hd : teamDestroy (s.pe p) team = some t) :
    Calls C s { s with pe := Function.update s.pe p t }

theorem step_calls (C : Cfg) (s : St) (o : Op) : Calls C s (step C s o) := by
  cases o with
  | split caller uid PE_start PE_stride PE_size =>
    simp only [step]
    split
    · exact .idle
    · split_ifs with hc
      · split
        · exact .idle
        · rename_i r hr
          exact .split hc hr
      · exact .idle
  | destroy p uid =>
    simp only [step]
    split
    · exact .idle
    · rename_i team ht
      split_ifs with hc
      · split
        · exact .idle
        · rename_i t hd
          exact .destroy hc.1 (teamOf_mem ht).1 hc.2.1 hc.2.2 hd
      · exact .idle

theorem step_inv (h : SlotInv C s) (o : Op) : SlotInv C (step C s o) := by
  have hcalls := step_calls C s o
  generalize step C s o = s' at hcalls ⊢
  cases hcalls with
  | idle => exact h
  | split _ hr => exact split_inv h hr
  | destroy hp hm hw hsh hd => exact destroy_inv h hp hm hw hsh hd

end

/-! ## Main results -/

theorem run_slotInv (C : Cfg) (ops : List Op) : SlotInv C (run C ops) :=
  Runs.run_inv (step C) (SlotInv C) (fun _ o h => step_inv h o) (init C) (inv_init C) ops

/-- a split that finds no index: the same non-zero value on every PE of the parent, no team, no change -/
theorem split_fails {C : Cfg} {s : St} {parent : TeamDesc} {PE_start PE_stride PE_size : ℤ} {r : SplitResult}
    (hr : teamSplitStrided C s parent PE_start PE_stride PE_size = some r)
    (hno : NoCommonIndex C s (activeSet (teamPe parent PE_start) PE_stride PE_size)) :
    (∃ v : ℤ, v ≠ 0 ∧ ∀ q ∈ parent.pes, r.ret q = v) ∧ (∀ q, r.new_team q = none) ∧ ∀ q, r.st.pe q = s.pe q := by
  rcases split_cases hr with rfl | ⟨g, hg, hsize, hstride, hsub, rfl | ⟨i, hi, hfree, -⟩⟩
  · exact ⟨⟨-1, by decide, fun _ _ => rfl⟩, fun _ => rfl, fun _ => rfl⟩
  · refine ⟨⟨1, by decide, fun _ _ => ?_⟩, fun _ => rfl, fun _ => rfl⟩
    have hgm : g ∈ activeSet g PE_stride PE_size := by
      simp only [activeSet, List.mem_map, List.mem_range]
      exact ⟨0, by omega, by simp⟩
    refine retReduced_eq_one _ _ (fun q => ?_) g (hsub g hgm) ?_
    · split_ifs <;> simp
    · rw [if_pos ((peInActiveSet_ne g g PE_stride PE_size hstride hsize).2 hgm)]
  · rw [hg] at hno
    obtain ⟨q, hq, hf⟩ := hno i hi
    rw [hfree q hq] at hf
    exact absurd hf (by decide)

/-- **Slot allocation.** After every history of splits and destroys, on every PE a bit of `psync_pool_avail` is set iff
its index is below TEAMS_MAX and the PE is a member of no team with that index; `shmem_internal_team_pool` holds exactly
the teams of the PE; members agree on the index of a team; teams that share a member have different indices. And every
further split that completes without a common free index returns the same non-zero value on all PEs of the parent, gives
no team and leaves all bitmaps and tables as they are. -/
theorem slot_allocation (C : Cfg) (ops : List Op) :
    SlotInv C (run C ops) ∧
    ∀ (parent : TeamDesc) (PE_start PE_stride PE_size : ℤ) (r : SplitResult),
      teamSplitStrided C (run C ops) parent PE_start PE_stride PE_size = some r →
      NoCommonIndex C (run C ops) (activeSet (teamPe parent PE_start) PE_stride PE_size) →
      (∃ v : ℤ, v ≠ 0 ∧ ∀ q ∈ parent.pes, r.ret q = v) ∧ (∀ q, r.new_team q = none) ∧
        ∀ q, r.st.pe q = (run C ops).pe q :=
  ⟨run_slotInv C ops, fun _ _ _ _ _ hr hno => split_fails hr hno⟩

/-- two PEs on different nodes with two teams at most -/
def twoPes : Cfg where
  numPes := 2
  TEAMS_MAX := 2
  two_le := le_rfl
  le := by decide
  TEAM_SHARED_ONLY_SELF := false
  USE_XPMEM := false
  shr_rank := fun p q => if q = p then 0 else -1

/-- the same PEs with three teams at most -/
def threeTeams : Cfg := { twoPes with TEAMS_MAX := 3, two_le := by decide, le := by decide }

/-- they split SHMEM_TEAM_WORLD, destroy the new team and split again -/
def splits : List Op := [.split 0 0 0 1 2, .destroy 0 2, .destroy 1 2, .split 1 0 0 1 2]

/-- the second new team has index 2 on both PEs, and a third split fails on both -/
theorem slot_allocation_exhausted :
    (∀ p < 2, ∃ t ∈ ((run threeTeams splits).pe p).live, t.uid = 3 ∧ t.psync_idx = 2) ∧
    ∃ r, teamSplitStrided threeTeams (run threeTeams splits) (world threeTeams 0) 0 1 2 = some r ∧
      NoCommonIndex threeTeams (run threeTeams splits) (activeSet (teamPe (world threeTeams 0) 0) 1 2) ∧
      (∃ v : ℤ, v ≠ 0 ∧ ∀ q ∈ (world threeTeams 0).pes, r.ret q = v) ∧ (∀ q, r.new_team q = none) ∧
        ∀ q, r.st.pe q = (run threeTeams splits).pe q := by
  have hlive : ∀ p < 2, ∃ t ∈ ((run threeTeams splits).pe p).live, t.uid = 3 ∧ t.psync_idx = 2 := by decide +kernel
  have hsome : (teamSplitStrided threeTeams (run threeTeams splits) (world threeTeams 0) 0 1 2).isSome = true := by decide +kernel
  obtain ⟨r, hr⟩ := Option.isSome_iff_exists.1 hsome
  have hno : NoCommonIndex threeTeams (run threeTeams splits) (activeSet (teamPe (world threeTeams 0) 0) 1 2) := by
    unfold NoCommonIndex
    decide +kernel
  exact ⟨hlive, r, hr, hno, (slot_allocation threeTeams splits).2 _ _ _ _ r hr hno⟩

end SandiaShmem.Teams
