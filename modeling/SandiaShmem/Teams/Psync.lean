/-
The pSync arrays of a team: `shmem_internal_team_choose_psync` and `shmem_internal_team_release_psyncs` of
`src/shmem_team.c`, and where the arrays they hand out lie in `shmem_internal_psync_pool`.

The pool has two arrays per team for back-to-back collectives (groups 1 and 2, the first TEAMS_MAX * PSYNC_CHUNK_SIZE
longs) and one per team for barriers (group 3). Addresses are offsets in longs from `shmem_internal_psync_pool`.

- `choose_cases`: what `teamChoosePsync` returns, by the state of `psync_avail`.
- `regions_ok_iff`: for which teams and states the array handed out overlaps no other array and does not depend on the
  branch it came from. The normal branch multiplies `psync_idx + i` by the size of a team's two arrays, where the layout
  asks for `psync_idx * PSYNC_CHUNK_SIZE + i * SHMEM_SYNC_SIZE`, and the fallback branch multiplies `psync_idx` by the
  size of one array: slot 1 of a team is slot 0 of the team with the next index, and the two branches agree on slot 0
  for index 0 only.
-/
import SandiaShmem.Config

namespace SandiaShmem.Teams

/-- `shmem_internal_team_op_t` -/
inductive TeamOp where
  | SYNC
  | BCAST
  | REDUCE
  | COLLECT
  | ALLTOALL
deriving DecidableEq, Repr

/-- what never changes in a `shmem_internal_team_t`, as one PE has it. `uid` stands for the identity of the team: the
same number on all its members, another number for every other team. -/
structure TeamDesc where
  uid : ℕ
  my_pe : ℕ
  start : ℕ
  stride : ℕ
  size : ℕ
  psync_idx : ℕ
deriving DecidableEq, Repr

/-- `shmem_internal_team_t` as one PE has it -/
structure Team extends TeamDesc where
  psync_avail : Fin N_PSYNCS_PER_TEAM → Bool

/-- what `shmem_internal_team_init` makes of the parameter SHMEM_TEAMS_MAX; `none` when it refuses it -/
def teamsMax (param : ℤ) : Option ℕ :=
  if param > N_PSYNC_BYTES * CHAR_BIT then none
  else if param < SHMEM_TEAMS_MIN then some SHMEM_TEAMS_MIN.toNat
  else some param.toNat

theorem teamsMax_bounds {param : ℤ} {T : ℕ} (h : teamsMax param = some T) : 2 ≤ T ∧ T ≤ 64 := by
  have h64 : ((N_PSYNC_BYTES : ℤ) * CHAR_BIT) = 64 := by decide
  have h2 : SHMEM_TEAMS_MIN = 2 := rfl
  rw [teamsMax, h64, h2] at h
  split_ifs at h
  · simp only [Option.some.injEq] at h; omega
  · simp only [Option.some.injEq] at h; omega

/-- `shmem_internal_psync_barrier_pool`: group 3 of the pool -/
def psyncBarrierPool (T : ℕ) : ℕ := PSYNC_CHUNK_SIZE * T

instance psyncs_neZero : NeZero N_PSYNCS_PER_TEAM := ⟨by decide⟩

/-- what a call of `shmem_internal_team_choose_psync` does: the array it returns, the entry of `psync_avail` it clears,
whether it had to synchronise the team first, and the team after it -/
structure Choice where
  psync : ℕ
  slot : Option (Fin N_PSYNCS_PER_TEAM)
  synced : Bool
  team : Team

/-- `shmem_internal_team_choose_psync` -/
def teamChoosePsync (T : ℕ) (team : Team) : TeamOp → Choice
  | .SYNC => ⟨psyncBarrierPool T + team.psync_idx * SHMEM_SYNC_SIZE, none, false, team⟩
  | _ =>
    match (List.finRange N_PSYNCS_PER_TEAM).find? (fun i => team.psync_avail i) with
    | some i =>
      ⟨(team.psync_idx + i) * PSYNC_CHUNK_SIZE, some i, false,
        { team with psync_avail := Function.update team.psync_avail i false }⟩
    | none =>
      -- no pSync is available: quiet, sync on the team with its barrier pSync, all entries available again
      ⟨team.psync_idx * SHMEM_SYNC_SIZE, some 0, true,
        { team with psync_avail := Function.update (fun _ => true) 0 false }⟩

/-- `shmem_internal_team_release_psyncs` -/
def teamReleasePsyncs (team : Team) : TeamOp → Team
  | .SYNC => { team with psync_avail := fun _ => true }
  | _ => team

/-- slot 0 is in use and slot 1 is not: the only states in which slot 1 is handed out -/
def onlySecond (av : Fin N_PSYNCS_PER_TEAM → Bool) : Prop := av 0 = false ∧ av 1 = true

instance (av : Fin N_PSYNCS_PER_TEAM → Bool) : Decidable (onlySecond av) := inferInstanceAs (Decidable (_ ∧ _))

/-- **The choice, by the state of `psync_avail`.** Slot 0 if it is available, else slot 1 if it is, else slot 0 again
after a sync on the team. -/
theorem choose_cases (T : ℕ) (team : Team) (op : TeamOp) (hop : op ≠ .SYNC) :
    teamChoosePsync T team op =
      if team.psync_avail 0 = true then
        ⟨team.psync_idx * PSYNC_CHUNK_SIZE, some 0, false,
          { team with psync_avail := Function.update team.psync_avail 0 false }⟩
      else if team.psync_avail 1 = true then
        ⟨(team.psync_idx + 1) * PSYNC_CHUNK_SIZE, some 1, false,
          { team with psync_avail := Function.update team.psync_avail 1 false }⟩
      else
        ⟨team.psync_idx * SHMEM_SYNC_SIZE, some 0, true,
          { team with psync_avail := Function.update (fun _ => true) 0 false }⟩ := by
  have hfind : (List.finRange N_PSYNCS_PER_TEAM).find? (fun i => team.psync_avail i) =
      if team.psync_avail 0 = true then some 0 else if team.psync_avail 1 = true then some 1 else none := by
    rw [show List.finRange N_PSYNCS_PER_TEAM = [0, 1] from by decide]
    by_cases h0 : team.psync_avail 0 = true <;> by_cases h1 : team.psync_avail 1 = true <;> simp [h0, h1]
  cases op with
  | SYNC => exact absurd rfl hop
  | _ =>
    simp only [teamChoosePsync, hfind]
    split_ifs <;> simp

/-! ## Where the arrays lie -/

/-- two arrays of SHMEM_SYNC_SIZE longs that do not overlap -/
def Apart (a b : ℕ) : Prop := a + SHMEM_SYNC_SIZE ≤ b ∨ b + SHMEM_SYNC_SIZE ≤ a

/-- the layout of the pool, for an operation `op` of team `a` beside another team `b` -/
structure RegionsOk (T : ℕ) (a b : Team) (op : TeamOp) : Prop where
  /-- apart from every array the other team can get -/
  other : ∀ av op', op' ≠ .SYNC →
    Apart (teamChoosePsync T a op).psync (teamChoosePsync T { b with psync_avail := av } op').psync
  /-- apart from every array the same team can get as its other slot -/
  slots : ∀ av op', op' ≠ .SYNC →
    (teamChoosePsync T { a with psync_avail := av } op').slot ≠ (teamChoosePsync T a op).slot →
    Apart (teamChoosePsync T a op).psync (teamChoosePsync T { a with psync_avail := av } op').psync
  /-- in groups 1 and 2 -/
  inside : (teamChoosePsync T a op).psync + SHMEM_SYNC_SIZE ≤ T * PSYNC_CHUNK_SIZE
  /-- apart from every barrier array -/
  barrier : ∀ c < T, Apart (teamChoosePsync T a op).psync (psyncBarrierPool T + c * SHMEM_SYNC_SIZE)
  /-- the same array whenever the same slot is handed out, by either branch -/
  branch : ∀ av op', op' ≠ .SYNC →
    (teamChoosePsync T { a with psync_avail := av } op').slot = (teamChoosePsync T a op).slot →
    (teamChoosePsync T { a with psync_avail := av } op').psync = (teamChoosePsync T a op).psync

/-- when the array is where the layout wants it -/
def WellPlaced (T : ℕ) (a b : Team) : Prop :=
  if onlySecond a.psync_avail then
    a.psync_idx + 1 < T ∧ b.psync_idx ≠ a.psync_idx + 1 ∧ b.psync_idx ≠ 2 * (a.psync_idx + 1)
  else a.psync_idx = 0

/-- the three arrays a team with index k can get: slot 0, slot 1, slot 0 by the fallback -/
theorem psync_cases (T : ℕ) (t : Team) (op : TeamOp) (hop : op ≠ .SYNC) :
    (onlySecond t.psync_avail ∧ (teamChoosePsync T t op).slot = some 1 ∧
      (teamChoosePsync T t op).psync = 70 * (t.psync_idx + 1)) ∨
    (¬ onlySecond t.psync_avail ∧ (teamChoosePsync T t op).slot = some 0 ∧
      (teamChoosePsync T t op).psync = if t.psync_avail 0 = true then 70 * t.psync_idx else 35 * t.psync_idx) := by
  rw [choose_cases T t op hop]
  simp only [chunk_size_eq, sync_size_eq, onlySecond]
  by_cases h0 : t.psync_avail 0 = true
  · right; simp [h0]; omega
  · by_cases h1 : t.psync_avail 1 = true
    · left; simp [h0, h1]; omega
    · right; simp [h0, h1]; omega

/-- the state of `psync_avail` in which a team gets its slot i by the normal branch -/
theorem psync_normal (T : ℕ) (t : Team) (i : Fin N_PSYNCS_PER_TEAM) :
    (teamChoosePsync T { t with psync_avail := fun j => decide (j = i) } .REDUCE).slot = some i ∧
      (teamChoosePsync T { t with psync_avail := fun j => decide (j = i) } .REDUCE).psync = 70 * (t.psync_idx + i) := by
  rw [choose_cases _ _ _ (by decide)]
  simp only [chunk_size_eq, sync_size_eq]
  have hi : i = 0 ∨ i = 1 := by revert i; decide
  rcases hi with rfl | rfl
  · simp; omega
  · simp; omega

/-- with no slot available, slot 0 comes from the fallback branch -/
theorem psync_fallback (T : ℕ) (t : Team) :
    (teamChoosePsync T { t with psync_avail := fun _ => false } .REDUCE).slot = some 0 ∧
      (teamChoosePsync T { t with psync_avail := fun _ => false } .REDUCE).psync = 35 * t.psync_idx := by
  rw [choose_cases _ _ _ (by decide)]
  simp only [sync_size_eq]
  simp; omega

/-- **The layout, exactly.** For every TEAMS_MAX (accepted or not), two live teams with distinct indices and any state of
`psync_avail`, the array handed out for a collective keeps the layout iff it is well placed: slot 0 of the team with
index 0, or a slot 1 that is neither past the last team nor an array of the other team. -/
theorem regions_ok_iff (T : ℕ) (a b : Team) (hb : b.psync_idx < T) (hab : a.psync_idx ≠ b.psync_idx) (op : TeamOp)
    (hop : op ≠ .SYNC) :
    RegionsOk T a b op ↔ WellPlaced T a b := by
  constructor
  · intro h
    unfold WellPlaced
    -- the arrays of the other team, and the other way to get slot 0, at which the layout is broken
    have hb0 := h.other (fun j => decide (j = 0)) .REDUCE (by decide)
    have hbf := h.other (fun _ => false) .REDUCE (by decide)
    have ha0 := h.branch (fun j => decide (j = 0)) .REDUCE (by decide)
    have haf := h.branch (fun _ => false) .REDUCE (by decide)
    have hin := h.inside
    rw [(psync_normal T b 0).2] at hb0
    rw [(psync_fallback T b).2] at hbf
    rw [(psync_normal T a 0).1, (psync_normal T a 0).2] at ha0
    rw [(psync_fallback T a).1, (psync_fallback T a).2] at haf
    rw [chunk_size_eq, sync_size_eq] at hin
    simp only [Apart, sync_size_eq, Fin.val_zero, Nat.add_zero] at hb0 hbf ha0
    rcases psync_cases T a op hop with ⟨h2, hs, hr⟩ | ⟨h2, hs, hr⟩
    · rw [if_pos h2]
      rw [hr] at hin hb0 hbf
      refine ⟨?_, ?_, ?_⟩ <;> omega
    · rw [if_neg h2]
      have e1 := ha0 hs.symm
      have e2 := haf hs.symm
      omega
  · intro h
    unfold WellPlaced at h
    rcases psync_cases T a op hop with ⟨h2, hs, hr⟩ | ⟨h2, hs, hr⟩
    · rw [if_pos h2] at h
      refine ⟨?_, ?_, ?_, ?_, ?_⟩
      · intro av op' hop'
        rw [hr]
        simp only [Apart, sync_size_eq]
        rcases psync_cases T { b with psync_avail := av } op' hop' with ⟨-, -, hr'⟩ | ⟨-, -, hr'⟩
        · rw [hr']; simp only; omega
        · rw [hr']; simp only; split_ifs <;> omega
      · intro av op' hop' hne
        rw [hr]
        simp only [Apart, sync_size_eq]
        rcases psync_cases T { a with psync_avail := av } op' hop' with ⟨-, hs', hr'⟩ | ⟨-, -, hr'⟩
        · exact absurd (hs'.trans hs.symm) hne
        · rw [hr']; simp only; split_ifs <;> omega
      · rw [hr, chunk_size_eq, sync_size_eq]; omega
      · intro c hc
        rw [hr]
        simp only [Apart, psyncBarrierPool, chunk_size_eq, sync_size_eq]; omega
      · intro av op' hop' he
        rcases psync_cases T { a with psync_avail := av } op' hop' with ⟨-, -, hr'⟩ | ⟨-, hs', -⟩
        · rw [hr', hr]
        · rw [hs', hs] at he; exact absurd he (by decide)
    · rw [if_neg h2] at h
      have hr0 : (teamChoosePsync T a op).psync = 0 := by rw [hr, h]; split_ifs <;> rfl
      refine ⟨?_, ?_, ?_, ?_, ?_⟩
      · intro av op' hop'
        rw [hr0]
        simp only [Apart, sync_size_eq]
        rcases psync_cases T { b with psync_avail := av } op' hop' with ⟨-, -, hr'⟩ | ⟨-, -, hr'⟩
        · rw [hr']; simp only; omega
        · rw [hr']; simp only; split_ifs <;> omega
      · intro av op' hop' hne
        rw [hr0]
        simp only [Apart, sync_size_eq]
        rcases psync_cases T { a with psync_avail := av } op' hop' with ⟨-, -, hr'⟩ | ⟨-, hs', -⟩
        · rw [hr']; simp only; omega
        · exact absurd (hs'.trans hs.symm) hne
      · rw [hr0, chunk_size_eq, sync_size_eq]; omega
      · intro c hc
        rw [hr0]
        simp only [Apart, psyncBarrierPool, chunk_size_eq, sync_size_eq]; omega
      · intro av op' hop' he
        rw [hr0]
        rcases psync_cases T { a with psync_avail := av } op' hop' with ⟨-, hs', -⟩ | ⟨-, -, hr'⟩
        · rw [hs', hs] at he; exact absurd he (by decide)
        · rw [hr']; simp only [h]; split_ifs <;> rfl

/-- SHMEM_TEAM_WORLD of a job of four PEs, seen by PE 0 -/
def world4 (av : Fin N_PSYNCS_PER_TEAM → Bool) : Team := ⟨⟨0, 0, 0, 1, 4, SHMEM_TEAM_WORLD_INDEX⟩, av⟩

/-- SHMEM_TEAM_SHARED of that job -/
def shared4 (av : Fin N_PSYNCS_PER_TEAM → Bool) : Team := ⟨⟨1, 0, 0, 1, 4, SHMEM_TEAM_SHARED_INDEX⟩, av⟩

/-- the first collective on SHMEM_TEAM_WORLD, beside SHMEM_TEAM_SHARED, with ten teams -/
theorem regions_ok_world :
    WellPlaced 10 (world4 fun _ => true) (shared4 fun _ => true) ∧
      RegionsOk 10 (world4 fun _ => true) (shared4 fun _ => true) .REDUCE := by
  have hw : WellPlaced 10 (world4 fun _ => true) (shared4 fun _ => true) := by
    rw [WellPlaced, if_neg (by decide)]; rfl
  exact ⟨hw, (regions_ok_iff 10 _ _ (by decide) (by decide) .REDUCE (by decide)).2 hw⟩

/-- **Overlapping arrays.** With one collective of SHMEM_TEAM_WORLD outstanding, the next one gets the array at offset 70,
which is also the array of the first collective on SHMEM_TEAM_SHARED. -/
theorem world_second_is_shared_first :
    ¬ ∀ (param : ℤ) (T : ℕ), teamsMax param = some T → ∀ a b : Team, a.psync_idx < T → b.psync_idx < T →
      a.psync_idx ≠ b.psync_idx → ∀ op : TeamOp, op ≠ .SYNC → RegionsOk T a b op := by
  intro h
  have hr := (h 10 10 (by decide) (world4 fun i => decide (i = 1)) (shared4 fun _ => true) (by decide) (by decide)
    (by decide) .REDUCE (by decide)).other (fun _ => true) .REDUCE (by decide)
  revert hr
  unfold Apart
  decide

end SandiaShmem.Teams
