/-
The team broadcasts: `shmem_broadcastmem` and `shmem_TYPE_broadcast` of `src/collectives_c.c4`.

Both take a pSync array of the team and call the broadcast of the team's active set, with complete = 1. When the team has
no array left, taking one synchronises the team first. The broadcast never writes the root's dest, as in the form with an
active set; the man page has dest updated on all PEs of a team.

- `others_updated`: everybody else gets the data.
- `updated_iff`: and when the root has its own.
-/
import SandiaShmem.Teams.Psync
import SandiaShmem.Collectives.Bcast

namespace SandiaShmem.Teams

open OneSided OneSided.Machine SandiaShmem.Collectives

/-- the arguments of a team broadcast; `type_size` is 1 for `shmem_broadcastmem` -/
structure BroadcastArgs where
  dest : ℕ
  source : ℕ
  nelems : ℕ
  type_size : ℕ
  PE_root : ℕ

/-- what `shmem_internal_team_choose_psync` executes: `shmem_internal_quiet` and `shmem_internal_sync` when no array is
left -/
def choosePsyncCode (T : ℕ) (team : Team) (op : TeamOp) : List Instr :=
  if (teamChoosePsync T team op).synced then [.quiet, .barIn, .barOut] else []

/-- the broadcast it calls -/
def BroadcastArgs.bcast (G : BroadcastArgs) (T : ℕ) (team : Team) : BcastArgs :=
  ⟨(teamChoosePsync T team .BCAST).psync, G.dest, G.source, G.nelems * G.type_size, true⟩

/-- `shmem_broadcastmem` and `shmem_TYPE_broadcast` on the PE my_pe, a member of the team with the active set A -/
def teamBroadcast (T : ℕ) (team : Team) (A : ActiveSet) (G : BroadcastArgs) (alg : BcastAlg) (my_pe : ℕ) : List Instr :=
  choosePsyncCode T team .BCAST ++ bcastBody A (G.bcast T team) G.PE_root alg my_pe

/-- the members of the team call it once -/
def broadcastMachine {α : Type*} (T : ℕ) (team : Team) (A : ActiveSet) (G : BroadcastArgs) (alg : BcastAlg)
    (op : α → α → α) : Machine α :=
  once A.members op (teamBroadcast T team A G alg)

/-- the active set of a team -/
structure IsActiveSet (team : Team) (A : ActiveSet) : Prop where
  start : A.PE_start = team.start
  stride : A.PE_stride = team.stride
  size : A.PE_size = team.size

/-- v has returned -/
def BroadcastReturned {α : Type*} (T : ℕ) (team : Team) (A : ActiveSet) (G : BroadcastArgs) (alg : BcastAlg)
    (s : OneSided.St α) (v : ℕ) : Prop :=
  s.pc v = (teamBroadcast T team A G alg v).length

/-- dest of v holds the data that the root's source held in m0 -/
def Updated {α : Type*} (A : ActiveSet) (G : BroadcastArgs) (m0 : ℕ → Loc → α) (s : OneSided.St α) (v : ℕ) : Prop :=
  ∀ j < G.nelems * G.type_size, s.mem v (.sym (G.dest + j)) = m0 (A.pe G.PE_root) (.sym (G.source + j))

theorem choosePsyncCode_silent (T : ℕ) (team : Team) (op : TeamOp) :
    ∀ ins ∈ choosePsyncCode T team op, ins.silent = true := by
  intro ins h
  unfold choosePsyncCode at h
  split_ifs at h
  · rcases List.mem_cons.mp h with rfl | h
    · rfl
    · rcases List.mem_cons.mp h with rfl | h
      · rfl
      · rw [List.mem_singleton.mp h]
        rfl
  · exact absurd h (by simp)

section
variable {α : Type*} {T : ℕ} {team : Team} {A : ActiveSet} {G : BroadcastArgs} {alg : BcastAlg} {op : α → α → α}

/-- a call that sends nothing leaves all memory alone -/
theorem run_mem_of_silent (h : ∀ v, bcastBody A (G.bcast T team) G.PE_root alg v = []) (c0 : ℕ → ℕ → ℤ)
    (m0 : ℕ → Loc → α) (ops : List OneSided.Op) :
    ((broadcastMachine T team A G alg op).run (OneSided.init c0 m0) ops).mem = m0 := by
  have hsilent : ∀ {v t ins}, (broadcastMachine T team A G alg op).prog v t = some ins → ins.silent = true := by
    intro v t ins hp
    simp only [broadcastMachine, once, teamBroadcast, h, List.append_nil] at hp
    split_ifs at hp
    exact choosePsyncCode_silent T team .BCAST ins (List.mem_of_getElem? hp)
  have k : (broadcastMachine T team A G alg op).Keeps fun s => s.mem = m0 := by
    refine ⟨?_, ?_, ?_⟩
    · intro s r ins _ hm hp _
      rw [advance_mem, effect_silent _ _ _ (hsilent hp), hm]
    · intro s r i j ins v _ hm _ _ _ _ _
      exact hm
    · intro s r i j ins _ hm hp hd
      have hs := hsilent hp
      have hj := hd.2.1
      rw [partsAt_eq _ hp] at hj
      cases ins <;> simp_all [Instr.silent, Instr.parts]
  exact (k.run (hist_init _ c0 m0) rfl ops).2

variable (hroot : G.PE_root < A.PE_size) (halg : alg.Valid A (G.bcast T team).len G.PE_root) (c0 : ℕ → ℕ → ℤ)
  (m0 : ℕ → Loc → α) (h0 : ∀ v ∈ A.members, c0 v (G.bcast T team).word = 0) (ops : List OneSided.Op)
include hroot halg h0

/-- who has returned and is not the root has the data; the root's memory is as it was -/
theorem others_updated :
    let s := (broadcastMachine T team A G alg op).run (OneSided.init c0 m0) ops
    (∀ v ∈ A.members, v ≠ A.pe G.PE_root → BroadcastReturned T team A G alg s v → Updated A G m0 s v) ∧
      ∀ l, s.mem (A.pe G.PE_root) l = m0 (A.pe G.PE_root) l := by
  intro s
  by_cases hcond : A.PE_size = 1 ∨ (G.bcast T team).len = 0
  · have hm : s.mem = m0 := run_mem_of_silent (bcastBody_nil hcond G.PE_root alg) c0 m0 ops
    refine ⟨fun v hv hne _ j hj => ?_, fun l => by rw [hm]⟩
    rcases hcond with h1 | hlen
    · obtain ⟨q, hq, rfl⟩ := A.mem_members.mp hv
      exact absurd (congrArg A.pe (show q = G.PE_root by omega)) hne
    · exact absurd hj (by rw [show G.nelems * G.type_size = 0 from hlen]; omega)
  · push Not at hcond
    have h2 : 2 ≤ A.PE_size := by
      have := A.size_pos
      omega
    obtain ⟨S, hr, hnodes, hedge, hbody⟩ := exists_shape hroot h2 halg hcond.2
    have hpre := choosePsyncCode_silent T team .BCAST
    have E : Embed (broadcastMachine T team A G alg op) S _ _ :=
      bcast_embed hpre hnodes hedge fun v hv => (hbody v hv).1
    obtain ⟨hh, hb, hm⟩ : (broadcastMachine T team A G alg op).Hist _ ∧ _ ∧ _ :=
      bcast_run hpre hnodes hedge (fun v hv => (hbody v hv).1) c0 m0 h0 ops
    rw [hr] at hb hm
    refine ⟨fun v hv hne hret j hj => ?_, hm⟩
    have hpos := Shape.startPos_pos (B := G.bcast T team) (S := S) (hr ▸ hne)
    have hle := Shape.startPos_le (S := S) (B := G.bcast T team) v
    have hlen : (teamBroadcast T team A G alg v).length =
        (choosePsyncCode T team .BCAST).length + (S.node (G.bcast T team) v).length := by
      rw [teamBroadcast, List.length_append, (hbody v hv).1]
    rw [Shape.length_node] at hlen
    refine hb.got_returned E hh ((hnodes v).mp hv) (hr ▸ hne) (lt_of_lt_of_eq ?_ (hret.trans hlen).symm) hj
    omega

end

/-- **Whose dest is updated.** For every active set of a team, state of its arrays, root, number of elements and
algorithm, a tree radix with indices below 2^31, in every state of every run: who has returned and is not the root has the
root's data in dest; the root keeps its memory, so that its dest has the data iff it had them before the call. -/
theorem updated_iff {α : Type*} (T : ℕ) (team : Team) (A : ActiveSet) (G : BroadcastArgs) (hroot : G.PE_root < A.PE_size)
    (alg : BcastAlg) (halg : alg.Valid A (G.bcast T team).len G.PE_root) (op : α → α → α) (c0 : ℕ → ℕ → ℤ)
    (m0 : ℕ → Loc → α) (h0 : ∀ v ∈ A.members, c0 v (G.bcast T team).word = 0) (ops : List OneSided.Op) :
    let s := (broadcastMachine T team A G alg op).run (OneSided.init c0 m0) ops
    (∀ v ∈ A.members, BroadcastReturned T team A G alg s v → (Updated A G m0 s v ↔
      (v = A.pe G.PE_root → ∀ j < G.nelems * G.type_size, m0 v (.sym (G.dest + j)) = m0 v (.sym (G.source + j))))) ∧
    ∀ l, s.mem (A.pe G.PE_root) l = m0 (A.pe G.PE_root) l := by
  intro s
  obtain ⟨hothers, hm⟩ : (∀ v ∈ A.members, v ≠ A.pe G.PE_root → BroadcastReturned T team A G alg s v → _) ∧ _ :=
    others_updated hroot halg c0 m0 h0 ops
  refine ⟨fun v hv hret => ⟨fun h hr j hj => ?_, fun h => ?_⟩, hm⟩
  · subst hr
    rw [← hm]
    exact h j hj
  · by_cases hr : v = A.pe G.PE_root
    · intro j hj
      have heq := h hr j hj
      subst hr
      rw [hm]
      exact heq
    · exact hothers v hv hr hret

/-! ## A team of two -/

/-- SHMEM_TEAM_WORLD of a job of two PEs -/
def world2 : Team := ⟨⟨0, 0, 0, 1, 2, SHMEM_TEAM_WORLD_INDEX⟩, fun _ => true⟩

def pes2 : ActiveSet := ⟨0, 1, 2, 2, Nat.one_pos, Nat.two_pos, Nat.one_lt_two⟩

/-- one byte at `source` of PE 0, to `dest` -/
def byteArgs (dest source : ℕ) : BroadcastArgs := ⟨dest, source, 1, 1, 0⟩

/-- the byte at address a of PE p is 10 p + a -/
def byteMem (p : ℕ) : Loc → ℤ
  | .sym a => 10 * p + a
  | .priv _ => 0

/-- PE 0 sends, PE 1 acknowledges, both return -/
def byteSched : List OneSided.Op :=
  [.exec 0, .capture 0 0 0, .exec 0, .exec 0, .exec 0, .deliver 0 0 0, .deliver 0 3 0, .exec 1, .exec 1, .deliver 1 1 0,
    .exec 1, .exec 1, .deliver 1 3 0, .exec 0, .exec 0, .deliver 0 5 0, .exec 0]

/-- the state then -/
def byteEnd : OneSided.St ℤ :=
  (broadcastMachine 10 world2 pes2 (byteArgs 0 1) .linear (· + ·)).run (OneSided.init (fun _ _ => 0) byteMem) byteSched

/-- PE 1 has the byte, and PE 0, the root, has its old one -/
theorem updated_one :
    BroadcastReturned 10 world2 pes2 (byteArgs 0 1) .linear byteEnd 1 ∧ Updated pes2 (byteArgs 0 1) byteMem byteEnd 1 ∧
      BroadcastReturned 10 world2 pes2 (byteArgs 0 1) .linear byteEnd 0 ∧ ¬ Updated pes2 (byteArgs 0 1) byteMem byteEnd 0 := by
  have hret : ∀ v ∈ pes2.members, BroadcastReturned 10 world2 pes2 (byteArgs 0 1) .linear byteEnd v := by
    unfold BroadcastReturned
    decide +kernel
  have h := (updated_iff 10 world2 pes2 (byteArgs 0 1) (by decide) .linear trivial (· + ·) (fun _ _ => 0)
    byteMem (fun _ _ => rfl) byteSched).1
  refine ⟨hret 1 (by decide), (h 1 (by decide) (hret 1 (by decide))).mpr fun hr => absurd hr (by decide),
    hret 0 (by decide), fun hup => ?_⟩
  exact absurd ((h 0 (by decide) (hret 0 (by decide))).mp hup rfl 0 (by decide)) (by decide)

/-- **The root's dest is not updated.** PE 0 broadcasts the byte at its address 1 to address 0; both have returned, and
PE 0 still has the old byte at address 0. -/
theorem root_not_updated :
    ¬ ∀ (T : ℕ) (team : Team) (A : ActiveSet), IsActiveSet team A → ∀ G : BroadcastArgs, G.PE_root < A.PE_size →
      ∀ alg : BcastAlg, alg.Valid A (G.bcast T team).len G.PE_root → ∀ (op : ℤ → ℤ → ℤ) (c0 : ℕ → ℕ → ℤ)
      (m0 : ℕ → Loc → ℤ), (∀ v ∈ A.members, c0 v (G.bcast T team).word = 0) → ∀ (ops : List OneSided.Op),
      ∀ v ∈ A.members,
      BroadcastReturned T team A G alg ((broadcastMachine T team A G alg op).run (OneSided.init c0 m0) ops) v →
      Updated A G m0 ((broadcastMachine T team A G alg op).run (OneSided.init c0 m0) ops) v := by
  intro h
  have hret : BroadcastReturned 10 world2 pes2 (byteArgs 0 1) .linear
      ((broadcastMachine 10 world2 pes2 (byteArgs 0 1) .linear (· + ·)).run (OneSided.init (fun _ _ => 0) byteMem)
        byteSched)
      0 := by
    unfold BroadcastReturned
    decide +kernel
  have hup := h 10 world2 pes2 ⟨rfl, rfl, rfl⟩ (byteArgs 0 1) (by decide) .linear trivial (· + ·)
    (fun _ _ => 0) byteMem (fun _ _ => rfl) byteSched 0 (by decide) hret 0 (by decide)
  revert hup
  decide +kernel

end SandiaShmem.Teams
