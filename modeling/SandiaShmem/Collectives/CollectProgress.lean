/-
No deadlock in the variable-length collect.

The members wait for their offsets one after the other, so that all have reached the barrier is an induction on the rank:
who sends the offset has sent the flag behind it. From there on it is the barrier.

- `chain_rest`: at rest all members have reached the barrier.
- `collect_total`: under every fair schedule all members return, and have the blocks of all one after the other.
-/
import SandiaShmem.Collectives.Collect
import SandiaShmem.Collectives.SyncProgress

namespace SandiaShmem.Collectives

open OneSided OneSided.Machine
open Runs (Fair)

namespace CollectArgs
variable {G : CollectArgs} {alg : BarrierAlg} {α : Type*} {m0 : ℕ → Loc → α} {s : St α} {goal : ℕ → ℕ}

section
variable (h2 : 2 ≤ G.A.PE_size) (hrest : ((G.machine (α := α) alg).static G.value).Resting goal s)
  (hgoal : ∀ r < G.A.PE_size, goal (G.A.pe r) = (G.collectLinear alg (G.A.pe r)).length)
include h2 hrest hgoal

/-- who rests outside the barrier is at its end, or waits for its offset -/
theorem rest_outside {r : ℕ} (hr : r < G.A.PE_size)
    (hout : s.pc (G.A.pe r) < G.syncPos r ∨ G.resetPos alg r ≤ s.pc (G.A.pe r)) :
    (G.collectLinear alg (G.A.pe r)).length ≤ s.pc (G.A.pe r) ∨
      (r ≠ 0 ∧ s.pc (G.A.pe r) = 0 ∧ s.cell (G.A.pe r) 1 ≠ 1) := by
  by_contra hnot
  push Not at hnot
  obtain ⟨hlt, hstart⟩ := hnot
  obtain ⟨c, hget⟩ : ∃ c, (G.collectLinear alg (G.A.pe r))[s.pc (G.A.pe r)]? = some c :=
    ⟨_, List.getElem?_eq_getElem hlt⟩
  have hat := codeAt_of_getElem h2 hr hget
  have hwait := hrest.waits (by rwa [hgoal r hr]) (prog_of h2 hr hat)
  generalize hpc : s.pc (G.A.pe r) = t at hat hstart
  cases hat with
  | wait _ h0 =>
    rcases hwait with ⟨c, cmp, x, hx, hne⟩ | ⟨c, x, hx, -⟩ | ⟨hx, -⟩
    · cases hx
      exact hne (hstart h0 rfl)
    · cases hx
    · cases hx
  | offset _ hlt =>
    rw [sendOffset] at hwait
    split_ifs at hwait <;> rcases hwait with ⟨c, cmp, x, hx, -⟩ | ⟨c, x, hx, -⟩ | ⟨hx, -⟩ <;> cases hx
  | sync _ x ins hx =>
    have := (List.getElem?_eq_some_iff.mp hx).1
    rw [resetPos] at hout
    omega
  | _ => rcases hwait with ⟨c, cmp, x, hx, -⟩ | ⟨c, x, hx, -⟩ | ⟨hx, -⟩ <;> cases hx

/-- **One after the other.** All members have reached the barrier. -/
theorem chain_rest (htotal : G.offset G.A.PE_size < 2 ^ 63) (h : Chain G alg s) :
    ∀ r < G.A.PE_size, G.syncPos r ≤ s.pc (G.A.pe r) := by
  intro r
  induction r with
  | zero =>
    intro hr
    by_contra hlt
    rcases rest_outside h2 hrest hgoal hr (.inl (not_le.mp hlt)) with hend | ⟨h0, -⟩
    · rw [length_collectLinear h2 hr, resetPos] at hend
      omega
    · exact h0 rfl
  | succ q ih =>
    intro hr
    by_contra hlt
    rcases rest_outside h2 hrest hgoal hr (.inl (not_le.mp hlt)) with hend | ⟨-, hpc, hne⟩
    · rw [length_collectLinear h2 hr, resetPos] at hend
      omega
    · -- the flag has been sent
      have hsent : sendPos q + 1 < s.pc (G.A.pe q) := by
        have := ih (by omega)
        rw [syncPos, quietPos, dataPos, if_pos hr] at this
        omega
      have hflag : s.done (G.A.pe q) (sendPos q + 1) 0 = true := by
        refine hrest.delivered _ _ _ hsent ?_
        rw [partsAt_eq _ (prog_send h2 htotal hr Nat.one_lt_two)]
        exact Nat.one_pos
      refine hne ((h.words q hr 1 Nat.one_lt_two).trans ?_)
      rw [if_pos ⟨hflag, by omega⟩]
      rfl

/-- everybody has returned -/
theorem returned_of_rest (halg : alg.Valid G.A) (htotal : G.offset G.A.PE_size < 2 ^ 63) (h : Chain G alg s)
    (hsync : Synced G alg s) : ∀ r < G.A.PE_size, (G.collectLinear alg (G.A.pe r)).length ≤ s.pc (G.A.pe r) := by
  have hreached := chain_rest h2 hrest hgoal htotal h
  intro r hr
  obtain ⟨ops, hin⟩ := hsync
  have hin : proj 2 G.syncOff (barrierLen G.A alg) s = _ := hin
  -- seen on its own, the barrier is at rest
  have hbar := hrest.slice (slice h2 halg) (fun v hv => ?_) fun v hv => ?_
  · have hbar : Machine.Resting _ (barrierLen G.A alg) (proj 2 G.syncOff (barrierLen G.A alg) s) := hbar
    rw [hin] at hbar
    have hover := barrier_rest h2 halg ops hbar _ (G.A.pe_mem hr)
    rw [← hin] at hover
    have hlen : barrierLen G.A alg (G.A.pe r) = (barrierBody G.A alg (G.A.pe r)).length := barrierLen_mem (G.A.pe_mem hr)
    simp only [proj, syncOff_pe, ← hlen] at hover
    have hpos := barrierLen_pos h2 halg (G.A.pe_mem hr)
    have hge := hreached r hr
    have hreset : G.resetPos alg r ≤ s.pc (G.A.pe r) := by
      rw [resetPos, ← hlen]
      omega
    rcases rest_outside h2 hrest hgoal hr (.inr hreset) with hend | ⟨-, h0, -⟩
    · exact hend
    · omega
  · obtain ⟨q, hq, rfl⟩ := G.A.mem_members.mp (mem_of_barrierLen hv)
    rw [syncOff_pe]
    exact hreached q hq
  · obtain ⟨q, hq, rfl⟩ := G.A.mem_members.mp (mem_of_barrierLen hv)
    have hlen : G.syncLen alg (G.A.pe q) = _ := barrierLen_mem (G.A.pe_mem hq)
    rw [syncOff_pe, hlen, hgoal q hq, length_collectLinear h2 hq]
    exact Nat.le_add_right _ _

end

/-- the programs end, and there is one above all members -/
theorem exists_ends (G : CollectArgs) (alg : BarrierAlg) (α : Type*) :
    ∃ n, ((G.machine (α := α) alg).static G.value).Ends (fun v => (G.collectLinear alg v).length) n := by
  obtain ⟨b, hb⟩ := exists_bound G.A.members
  refine ⟨b, fun v t ht => ?_, fun v t hv => ?_⟩
  · simp only [RegMachine.static, machine, List.getElem?_eq_none ht, ite_self, Option.map_none]
  · have hnot : v ∉ G.A.members := fun hmem => absurd (hb v hmem) (not_lt.mpr hv)
    simp only [RegMachine.static, machine, if_neg hnot, Option.map_none]

theorem chain_init (m0 : ℕ → Loc → α) {c0 : ℕ → ℕ → ℤ} (h0 : ∀ v ∈ G.A.members, ∀ w, c0 v w = 0) :
    Chain G alg (init c0 m0) := by
  refine ⟨fun r _ hpc => absurd hpc (Nat.not_lt_zero _), fun w _ => h0 _ (G.A.pe_mem G.A.size_pos) w, fun r hr w _ => ?_⟩
  rw [if_neg fun hc => absurd hc.1 Bool.noConfusion]
  exact h0 _ (G.A.pe_mem hr) w

/-- a single member sends nothing -/
theorem not_behind_of_one (h1 : G.A.PE_size = 1) {v t t' : ℕ} : t' ∉ (G.machine (α := α) alg).behind v t := by
  intro h
  simp only [machine] at h
  split at h
  · rename_i hc
    exact absurd (code_of_one (α := α) h1 hc).2.2.2 (by simp)
  · exact absurd h (by simp)

/-- under every fair schedule all members return -/
theorem collect_finishes (halg : alg.Valid G.A) (htotal : G.offset G.A.PE_size < 2 ^ 63) (hsep : G.Separate) (m0 : ℕ → Loc → α)
    {c0 : ℕ → ℕ → ℤ} (h0 : ∀ v ∈ G.A.members, ∀ w, c0 v w = 0) (reg0 : ℕ → ℤ) {sched : ℕ → Op} (hfair : Fair sched) :
    ∃ n, ∀ v ∈ G.A.members,
      ((G.machine alg).after ⟨init c0 m0, reg0⟩ sched n).st.pc v = (G.collectLinear alg v).length := by
  obtain ⟨b, hends⟩ := exists_ends G alg α
  rcases Nat.lt_or_ge 1 G.A.PE_size with h2 | h1
  · have hk : (G.machine alg).Keeps G.value fun s => Chain G alg s ∧ Synced G alg s ∧
        (G.region m0).Filled ((G.machine alg).static G.value) m0 s := keeps h2 halg htotal hsep
    have hbehind : ∀ v t, ∀ t' ∈ (G.machine (α := α) alg).behind v t,
        t' < t ∧ 0 < ((G.machine (α := α) alg).static G.value).partsAt v t' := by
      intro v t t' ht'
      obtain ⟨q, hq, rfl, rfl, rfl⟩ := (behind_iff h2).mp ht'
      refine ⟨Nat.lt_succ_self _, ?_⟩
      have hlt : q < G.A.PE_size := Nat.lt_of_succ_lt hq
      rw [partsAt_eq _ (prog_of h2 hlt (.offset q hq)), sendOffset_instr htotal hlt]
      exact Nat.one_pos
    have hinit : Chain G alg (init c0 m0) ∧ Synced G alg (init c0 m0) ∧
        (G.region m0).Filled ((G.machine alg).static G.value) m0 (init c0 m0) :=
      ⟨chain_init m0 h0, inBarrier_init m0 h0, Region.filled_init c0⟩
    obtain ⟨n, hrest⟩ := hk.rests hends hbehind reg0 hinit hfair
    have hinv := hk.run reg0 hinit ((List.range n).map sched)
    rw [← RegMachine.after_eq_run] at hinv
    obtain ⟨-, -, ⟨hc, hs, -⟩, -⟩ := hinv
    refine ⟨n, fun v hv => le_antisymm (hrest.pc_le v) ?_⟩
    obtain ⟨r, hr, rfl⟩ := G.A.mem_members.mp hv
    exact returned_of_rest h2 hrest (fun _ _ => rfl) halg htotal hc hs r hr
  · have h1 : G.A.PE_size = 1 := le_antisymm h1 G.A.size_pos
    have hk : (G.machine alg).Keeps G.value fun s => s.cell = c0 ∧ (G.target = G.source → s.mem = m0) ∧
        (G.region m0).Filled ((G.machine alg).static G.value) m0 s := keeps_of_one h1 hsep c0
    have hbehind : ∀ v t, ∀ t' ∈ (G.machine (α := α) alg).behind v t,
        t' < t ∧ 0 < ((G.machine (α := α) alg).static G.value).partsAt v t' := by
      intro v t t' ht'
      exact absurd ht' (not_behind_of_one h1)
    obtain ⟨n, hrest⟩ := hk.rests hends hbehind reg0 ⟨rfl, fun _ => rfl, Region.filled_init c0⟩ hfair
    refine ⟨n, fun v hv => le_antisymm (hrest.pc_le v) ?_⟩
    generalize ((G.machine alg).after ⟨init c0 m0, reg0⟩ sched n).st = s at hrest
    by_contra hlt
    obtain ⟨c, hget⟩ : ∃ c, (G.collectLinear alg v)[s.pc v]? = some c := ⟨_, List.getElem?_eq_getElem (not_le.mp hlt)⟩
    have hp : ((G.machine (α := α) alg).static G.value).prog v (s.pc v) = some (c.instr (G.value v)) := by
      simp only [RegMachine.static, machine, if_pos hv, hget, Option.map_some]
    have hins := (prog_of_one h1 hp).2.2
    rcases hrest.waits (not_le.mp hlt) hp with ⟨c, cmp, x, hx, -⟩ | ⟨c, x, hx, -⟩ | ⟨hx, -⟩
    · exact Instr.noConfusion (hins.symm.trans hx)
    · exact Instr.noConfusion (hins.symm.trans hx)
    · exact Instr.noConfusion (hins.symm.trans hx)

end CollectArgs

end SandiaShmem.Collectives
