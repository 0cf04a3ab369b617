/-
No deadlock in the barriers: if every member makes K calls, under every fair schedule all of them return from all K.

The question is which states can be at rest. There all messages have arrived, so that a counter that a member waits for
holds what has been sent to it, and a member that is behind waits for one that is behind as well. In a tree the call-ins
come up from the leaves and the acks go down from the root. In the dissemination barrier a wait is for an instruction that
is one position back in the program of the sender.

- `Inv.up_rest`, `Inv.down_rest`: in a round that all have entered, all call in, and all get their ack.
- `sync_finishes`: the linear and the tree barrier.
- `dissem_finishes`: the dissemination barrier.
- `barrier_rest`: one call of any of them, for what has a barrier in it.
-/
import SandiaShmem.Collectives.Barrier
import SandiaShmem.Collectives.Progress

namespace SandiaShmem.Collectives

open OneSided OneSided.Machine
open Runs (Fair)

/-! ## The tree -/

section
variable {T : ParentTree} {ack : ℕ → Instr} {ms : List ℕ} {s : St Unit} {u z a : ℕ → ℕ} {v k K x : ℕ} {ins : Instr}

theorem NodeAt.getElem (h : T.children v = [] → T.parent v ≠ v) (hat : NodeAt T ack v x ins) :
    (node T ack v)[x]? = some ins := by
  unfold node syncNode
  by_cases hc : T.children v = []
  · have hp := h hc
    have hup : upPos (T.children v) = 1 := by simp [upPos, hc]
    have hcl : clearPos T v = 3 := by simp [clearPos, hp, hup]
    cases hat with
    | enter => simp [hc]
    | callins hne => exact absurd hc hne
    | up =>
      rw [hup]
      simp [hc]
    | acked _ hne => exact absurd hc hne
    | ackedLeaf =>
      rw [hup]
      simp [hc]
    | clear => simp [hcl, hc]
    | cleared => simp [hcl, hc]
    | ack j c hj => simp [hc] at hj
  · have hup : upPos (T.children v) = 2 := by simp [upPos, hc]
    by_cases hp : T.parent v = v
    · have hcl : clearPos T v = 2 := by simp [clearPos, hp]
      cases hat with
      | enter => simp [hc, hp]
      | callins => simp [hc, hp]
      | up hne => exact absurd hp hne
      | acked hne => exact absurd hp hne
      | ackedLeaf hne => exact absurd hp hne
      | clear => simp [hcl, hc, hp]
      | cleared => simp [hcl, hc, hp]
      | ack j c hj => simp [hcl, hc, hp, show 2 + 2 + j = j + 4 by omega, hj]
    · have hcl : clearPos T v = 4 := by simp [clearPos, hp, hup]
      cases hat with
      | enter => simp [hc, hp]
      | callins => simp [hc, hp]
      | up => simp [hup, hc, hp]
      | acked => simp [hup, hc, hp]
      | ackedLeaf _ hnil => exact absurd hnil hc
      | clear => simp [hcl, hc, hp]
      | cleared => simp [hcl, hc, hp]
      | ack j c hj => simp [hcl, hc, hp, show 4 + 2 + j = j + 6 by omega, hj]

/-- what stands in the body is executed in every round -/
theorem Proto.prog_of (P : Proto T ack ms) (hv : v ∈ T.nodes) (hat : NodeAt T ack v x ins) (k : ℕ) :
    (calls ms (node T ack)).prog v (k * len T v + x) = some ins := by
  have hget := hat.getElem (P.leaf hv)
  have hlt := (List.getElem?_eq_some_iff.mp hget).1
  rw [node_length (P.leaf hv)] at hlt
  simp only [calls, if_pos ((P.mem v).mpr hv), node_length (P.leaf hv)]
  rw [Nat.mul_comm, Nat.mul_add_mod, Nat.mod_eq_of_lt hlt, hget]

/-- at rest with K calls to make -/
def TreeRest (T : ParentTree) (ack : ℕ → Instr) (ms : List ℕ) (K : ℕ) (s : St Unit) : Prop :=
  ∃ goal, (∀ v ∈ T.nodes, goal v = K * len T v) ∧ (calls ms (node T ack)).Resting goal s

theorem TreeRest.sent (P : Proto T ack ms) (hs : TreeRest T ack ms K s) (hv : v ∈ T.nodes) (hat : NodeAt T ack v x ins)
    (hparts : ins.parts = 1) (hlt : k * len T v + x < s.pc v) : s.done v (k * len T v + x) 0 = true := by
  obtain ⟨goal, -, hrest⟩ := hs
  refine hrest.delivered _ _ _ hlt ?_
  rw [partsAt_eq _ (P.prog_of hv hat k), hparts]
  exact Nat.one_pos

/-- who is in round k is at a wait whose condition does not hold -/
theorem TreeRest.waits (P : Proto T ack ms) (hs : TreeRest T ack ms K s) (hv : v ∈ T.nodes) (hk : k < K)
    (hpc : s.pc v = k * len T v + x) (hx : x < len T v) :
    (T.children v ≠ [] ∧ x = 1 ∧ s.cell v 0 ≠ (T.children v).length) ∨
      (v ≠ T.root ∧ x = upPos (T.children v) + 1 ∧
        ¬ (if T.children v = [] then s.cell v 0 ≠ 0 else s.cell v 0 = ((T.children v).length + 1 : ℕ))) ∨
      (x = clearPos T v + 1 ∧ s.cell v 0 ≠ 0) := by
  obtain ⟨goal, hend, hrest⟩ := hs
  have hgoal : s.pc v < goal v := by
    rw [hend v hv, hpc]
    have hle : (k + 1) * len T v ≤ K * len T v := Nat.mul_le_mul_right _ hk
    rw [Nat.add_mul, Nat.one_mul] at hle
    omega
  obtain ⟨ins, hins⟩ : ∃ ins, (calls ms (node T ack)).prog v (s.pc v) = some ins := by
    have hx' : x < (node T ack v).length := by rwa [node_length (P.leaf hv)]
    refine ⟨(node T ack v)[x], ?_⟩
    simp only [calls, if_pos ((P.mem v).mpr hv), node_length (P.leaf hv), hpc]
    rw [Nat.mul_comm, Nat.mul_add_mod, Nat.mod_eq_of_lt hx, List.getElem?_eq_getElem hx']
  have hnot := hrest.blocked v ins hgoal hins
  have hat := (P.prog hins).2
  rw [hpc, Nat.mul_comm, Nat.mul_add_mod, Nat.mod_eq_of_lt hx] at hat
  have hroot : T.parent v ≠ v → v ≠ T.root := fun hne heq => hne ((T.parent_eq_self hv).mpr heq)
  cases hat with
  | callins hne => exact .inl ⟨hne, rfl, hnot⟩
  | acked hne hc =>
    refine .inr (.inl ⟨hroot hne, rfl, ?_⟩)
    rw [if_neg hc]
    exact hnot
  | ackedLeaf hne hc =>
    refine .inr (.inl ⟨hroot hne, rfl, ?_⟩)
    rw [if_pos hc]
    exact hnot
  | cleared => exact .inr (.inr ⟨rfl, hnot⟩)
  | ack j c hj =>
    rcases P.ack v hv c (List.mem_of_getElem? hj) with h | ⟨h, -⟩
    · rw [h] at hnot
      exact absurd trivial hnot
    · rw [h] at hnot
      exact absurd trivial hnot
  | _ => exact absurd trivial hnot

/-- with all call-ins there, the wait for them is over -/
theorem Inv.called (h : Inv T s u z a) (hh : (calls ms (node T ack)).Hist s) (hv : v ∈ T.nodes)
    (hpc : s.pc v = k * len T v + 1) (hu : ∀ c ∈ T.children v, k < u c) : s.cell v 0 = (T.children v).length := by
  have hpos := clearPos_bounds hv
  have hz := h.round hh hv hpc (by omega)
  refine le_antisymm (h.le_children hh hv hpc) ?_
  have hself : 0 ≤ if v = T.root then (0 : ℤ) else (a v : ℤ) - z v := by
    split_ifs with hr
    · exact le_refl _
    · have := (h.edgeUp hh hv hr).za
      omega
  have hsum : ((T.children v).map fun _ => (1 : ℤ)).sum ≤ ((T.children v).map fun c => (u c : ℤ) - z v).sum := by
    refine List.sum_le_sum fun c hc => ?_
    have := hu c hc
    omega
  rw [h.value v hv]
  simp only [List.map_const', List.sum_replicate, nsmul_eq_mul, mul_one] at hsum
  omega

/-- with the ack there, the wait for it is over -/
theorem Inv.acknowledged (h : Inv T s u z a) (hh : (calls ms (node T ack)).Hist s) (hv : v ∈ T.nodes) (hr : v ≠ T.root)
    (hpc : s.pc v = k * len T v + (upPos (T.children v) + 1)) (ha : k < a v) :
    if T.children v = [] then s.cell v 0 ≠ 0 else s.cell v 0 = ((T.children v).length + 1 : ℕ) := by
  have hcl := clearPos_eq hv hr
  have hz := h.round hh hv hpc (by omega)
  have hval := h.value v hv
  rw [if_neg hr] at hval
  split_ifs with hc
  · rw [hc] at hval
    simp only [List.map_nil, List.sum_nil, zero_add] at hval
    omega
  · have h2 : upPos (T.children v) = 2 := by simp [upPos, hc]
    have hle := h.le_waited hh hv
    rw [waited, if_neg fun heq => hr ((T.parent_eq_self hv).mp heq)] at hle
    refine le_antisymm hle ?_
    have hsum : ((T.children v).map fun _ => (1 : ℤ)).sum ≤ ((T.children v).map fun c => (u c : ℤ) - z v).sum := by
      refine List.sum_le_sum fun c hc => ?_
      have := h.callins v hv c hc k (by omega)
      omega
    simp only [List.map_const', List.sum_replicate, nsmul_eq_mul, mul_one] at hsum
    rw [hval]
    push_cast
    omega

/-- **From the leaves up.** In a round that all have entered all call in. -/
theorem Inv.up_rest (P : Proto T ack ms) (h : Inv T s u z a) (hh : (calls ms (node T ack)).Hist s)
    (hs : TreeRest T ack ms K s) (hk : k < K) (hall : ∀ v ∈ T.nodes, k * len T v ≤ s.pc v) :
    ∀ v ∈ T.nodes, k * len T v + upPos (T.children v) < s.pc v := by
  refine T.up fun v hv ih => ?_
  by_contra hge
  obtain ⟨x, hx⟩ := Nat.exists_eq_add_of_le (hall v hv)
  have hup := upPos_bounds (T.children v)
  have hpos := clearPos_bounds hv
  have hcl : v ≠ T.root → clearPos T v = upPos (T.children v) + 2 := clearPos_eq hv
  rcases hs.waits P hv hk hx (by omega) with ⟨-, rfl, hne⟩ | ⟨-, rfl, -⟩ | ⟨rfl, -⟩
  · refine hne (h.called hh hv hx fun c hc => ?_)
    have hcm := T.child_mem hv hc
    have hcr := T.child_ne_root hv hc
    have hat : NodeAt T ack c _ _ := .up (T.parent_ne hcm hcr)
    exact (h.ups c hcm hcr k).mp (hs.sent P hcm hat rfl (ih c hc))
  · omega
  · omega

/-- **From the root down.** In a round that all have entered all are acked and cleared. -/
theorem Inv.down_rest (P : Proto T ack ms) (h : Inv T s u z a) (hh : (calls ms (node T ack)).Hist s)
    (hs : TreeRest T ack ms K s) (hk : k < K) (hall : ∀ v ∈ T.nodes, k * len T v ≤ s.pc v) :
    ∀ v ∈ T.nodes, (k + 1) * len T v ≤ s.pc v := by
  have hup := h.up_rest P hh hs hk hall
  -- a node that has its ack goes through to the end
  have hthrough : ∀ v ∈ T.nodes, (v ≠ T.root → k < a v) → (k + 1) * len T v ≤ s.pc v := by
    intro v hv hack
    by_contra hlt
    have hin := hup v hv
    rw [Nat.add_mul, Nat.one_mul] at hlt
    obtain ⟨x, hx⟩ := Nat.exists_eq_add_of_le (hall v hv)
    have hbounds := upPos_bounds (T.children v)
    rcases hs.waits P hv hk hx (by omega) with ⟨-, rfl, -⟩ | ⟨hr, rfl, hne⟩ | ⟨rfl, hne⟩
    · omega
    · exact hne (h.acknowledged hh hv hr hx (hack hr))
    · have hsent : s.done v (k * len T v + clearPos T v) 0 = true := hs.sent P hv .clear rfl (by omega)
      rcases h.zero_or_clearing hh hv hx with hf | h0
      · rw [hsent] at hf
        cases hf
      · exact hne h0
  refine T.down (hthrough T.root T.root_mem fun hne => absurd rfl hne) fun v hv hr ih => hthrough v hv fun _ => ?_
  have hp := T.parent_mem v hv
  have hmem := T.mem_children_parent hv hr
  obtain ⟨j, hj⟩ := List.getElem?_of_mem hmem
  have hjlt := (List.getElem?_eq_some_iff.mp hj).1
  refine (h.acks _ hp j v hj k).mp (hs.sent P hp (.ack j v hj) ?_ ?_)
  · rcases P.ack _ hp v hmem with heq | ⟨heq, -⟩ <;> rw [heq] <;> rfl
  · rw [Nat.add_mul, Nat.one_mul] at ih
    unfold len at ih ⊢
    omega

/-- nobody is behind at rest -/
theorem Inv.all_through (P : Proto T ack ms) (h : Inv T s u z a) (hh : (calls ms (node T ack)).Hist s)
    (hs : TreeRest T ack ms K s) : ∀ v ∈ T.nodes, K * len T v ≤ s.pc v := by
  have hrounds : ∀ k ≤ K, ∀ v ∈ T.nodes, k * len T v ≤ s.pc v := by
    intro k
    induction k with
    | zero => exact fun _ v _ => by omega
    | succ k ih => exact fun hk => h.down_rest P hh hs hk (ih (by omega))
  exact hrounds K (le_refl K)

end

/-- in a state at rest all calls of the linear and the tree barrier have returned -/
theorem sync_rest {A : ActiveSet} (h2 : 2 ≤ A.PE_size) {alg : SyncAlg}
    (hr : ∀ radix, alg = .tree radix → TreeFits radix A 0) {K : ℕ} (ops : List Op)
    (hrest : (calls A.members (syncBody A alg)).Resting (fun v => K * (syncBody A alg v).length)
      ((calls A.members (syncBody A alg)).run (init (fun _ _ => 0) fun _ _ => ()) ops)) :
    ∀ v ∈ A.members, K * (syncBody A alg v).length ≤
      ((calls A.members (syncBody A alg)).run (init (fun _ _ => 0) fun _ _ => ()) ops).pc v := by
  intro v hv
  obtain ⟨T, ack, P, hT⟩ := exists_proto A h2 alg hr
  have hlen : ∀ v ∈ A.members, (syncBody A alg v).length = len T v := fun v hv => by
    rw [(hT v hv).1, node_length (P.leaf ((P.mem v).mp hv))]
  obtain ⟨hh, u, z, a, h⟩ := P.run_inv ops
  rw [calls_congr fun v hv => (hT v hv).1] at hrest ⊢
  rw [hlen v hv]
  exact h.all_through P hh ⟨_, fun w hw => by rw [hlen w ((P.mem w).mpr hw)], hrest⟩ v ((P.mem v).mp hv)

/-- **The linear and the tree barrier have no deadlock.** For every active set of at least two PEs, every radix with
indices below 2^31 and every number of calls: under every fair schedule all members return from all their calls. -/
theorem sync_finishes (A : ActiveSet) (h2 : 2 ≤ A.PE_size) (alg : SyncAlg)
    (hr : ∀ radix, alg = .tree radix → TreeFits radix A 0) (K : ℕ) {sched : ℕ → Op} (hfair : Fair sched) :
    ∃ n, ∀ v ∈ A.members, ∀ k < K, Returned (syncBody A alg)
      ((callsTimes A.members (syncBody A alg) K).after (init (fun _ _ => 0) fun _ _ => ()) sched n) v k :=
  calls_finish (fun _ => rfl) (fun ops hrest => sync_rest h2 hr ops hrest) hfair

theorem sync_finishes_three : ∃ n, ∀ v ∈ threeOfSix.members, ∀ k < 5, Returned (syncBody threeOfSix (.tree 2))
    ((callsTimes threeOfSix.members (syncBody threeOfSix (.tree 2)) 5).after (init (fun _ _ => 0) fun _ _ => ()) cycle n)
    v k :=
  sync_finishes threeOfSix (by decide) (.tree 2) (fun radix h => SyncAlg.tree.inj h ▸ threeOfSix_fits) 5 fair_cycle

/-! ## The dissemination barrier -/

namespace Dissem

section
variable {A : ActiveSet} {s : St Unit} {D E : ℕ → ℕ → Finset ℕ} {goal : ℕ → ℕ} {r i x k : ℕ}

theorem getElem_round (hmax : A.PE_size ≤ 2 ^ 30) {my_pe : ℕ} (hi : i < rounds A) (hx : x < 4) :
    (syncDissem A my_pe)[1 + 4 * i + x]? = (round A my_pe i (2 ^ i))[x]? := by
  rw [syncDissem_eq hmax, show 1 + 4 * i + x = 4 * i + x + 1 by omega, List.cons_append, List.getElem?_cons_succ,
    List.getElem?_append_left (by rw [rounds_length]; omega),
    getElem?_flatMap_range _ (by decide) (fun i => round_length A _ i _), if_pos (by omega),
    show (4 * i + x) / 4 = i by omega, show (4 * i + x) % 4 = x by omega]

/-- with the adds of the sender there, a wait is over -/
theorem Inv.arrived (h : Inv A s D E) (hh : (machine A).Hist s) (hrest : (machine A).Resting goal s) (hr : r < A.PE_size)
    (hi : i < rounds A) (hsender : k * len A + (1 + 4 * i) < s.pc (A.pe r))
    (hpc : s.pc (A.pe (toRank A r i)) = k * len A + (2 + 4 * i)) : s.cell (A.pe (toRank A r i)) i ≠ 0 := by
  have hlen : len A = 2 + 4 * rounds A := rfl
  have hadds : Finset.range (k + 1) ⊆ D r i := by
    intro k' hk'
    have hle : k' * len A ≤ k * len A := Nat.mul_le_mul_right _ (by rw [Finset.mem_range] at hk'; omega)
    have hadd := prog_of_getElem h.small hr (x := 1 + 4 * i) (by omega) (getElem_round h.small (x := 0) hi (by decide)) k'
    refine (h.adds r hr i hi k').mp (hrest.delivered _ _ _ (by omega) ?_)
    rw [partsAt_eq _ hadd]
    exact Nat.one_pos
  have hcard := Finset.card_le_card hadds
  rw [Finset.card_range] at hcard
  rw [h.value r hr i hi, h.subs_card hh (toRank_lt A r i) hi hpc (by omega)]
  omega

/-- nobody rests where all the others are, too, or behind them -/
theorem Inv.not_last (h : Inv A s D E) (hh : (machine A).Hist s) (hrest : (machine A).Resting goal s) {n : ℕ}
    (hall : ∀ v ∈ A.members, n ≤ s.pc v) (hr : r < A.PE_size) (hgoal : n < goal (A.pe r)) : s.pc (A.pe r) ≠ n := by
  intro hpc
  have hpos : 0 < len A := by
    unfold len
    omega
  obtain ⟨ins, hins⟩ : ∃ ins, (machine A).prog (A.pe r) (s.pc (A.pe r)) = some ins := by
    have hx : s.pc (A.pe r) % len A < (syncDissem A (A.pe r)).length := by
      rw [syncDissem_length h.small]
      exact Nat.mod_lt _ hpos
    refine ⟨(syncDissem A (A.pe r))[s.pc (A.pe r) % len A], ?_⟩
    simp only [machine, calls, if_pos (A.pe_mem hr), syncDissem_length h.small]
    exact List.getElem?_eq_getElem hx
  have hwait := hrest.waits (hpc ▸ hgoal) hins
  obtain ⟨q, hq, heq, hat⟩ := prog_cases h.small hins
  rw [A.pe_inj.mp heq.symm] at hat
  have hdiv := Nat.div_add_mod (s.pc (A.pe r)) (len A)
  generalize s.pc (A.pe r) % len A = x at hat hdiv
  generalize s.pc (A.pe r) / len A = k at hdiv
  rw [Nat.mul_comm] at hdiv
  cases hat with
  | wait i hi =>
    obtain ⟨t, ht, rfl⟩ := exists_sender A hr i
    have hsender := hall (A.pe t) (A.pe_mem ht)
    have hne := h.arrived hh hrest ht hi (by omega) hdiv.symm
    rcases hwait with ⟨c, cmp, v, hw, hnot⟩ | ⟨c, v, hw, -⟩ | ⟨hw, -⟩
    · cases hw
      exact hnot hne
    · cases hw
    · cases hw
  | check i hi =>
    have hslot := (h.slot_bounds hh hr i).2
    rcases hwait with ⟨c, cmp, v, hw, -⟩ | ⟨c, v, hw, hle⟩ | ⟨hw, -⟩
    · cases hw
    · cases hw
      omega
    · cases hw
  | _ => rcases hwait with ⟨c, cmp, v, hw, -⟩ | ⟨c, v, hw, -⟩ | ⟨hw, -⟩ <;> cases hw

end

/-- in a state at rest all calls of the dissemination barrier have returned -/
theorem dissem_rest {A : ActiveSet} (hmax : A.PE_size ≤ 2 ^ 30) {K : ℕ} (ops : List Op)
    (hrest : (calls A.members (syncDissem A)).Resting (fun v => K * (syncDissem A v).length)
      ((calls A.members (syncDissem A)).run (init (fun _ _ => 0) fun _ _ => ()) ops)) :
    ∀ v ∈ A.members, K * (syncDissem A v).length ≤
      ((calls A.members (syncDissem A)).run (init (fun _ _ => 0) fun _ _ => ()) ops).pc v := by
  obtain ⟨hh, D, E, h⟩ := run_inv hmax ops
  simp only [syncDissem_length hmax] at hrest ⊢
  refine all_through fun n hn hall v hv => ?_
  obtain ⟨r, hr, rfl⟩ := A.mem_members.mp hv
  exact h.not_last hh hrest hall hr hn

/-- **The dissemination barrier has no deadlock.** For every active set of up to 2^30 PEs and every number of calls: under
every fair schedule all members return from all their calls, and no assertion stops them. -/
theorem dissem_finishes (A : ActiveSet) (hmax : A.PE_size ≤ 2 ^ 30) (K : ℕ) {sched : ℕ → Op} (hfair : Fair sched) :
    ∃ n, ∀ v ∈ A.members, ∀ k < K, Returned (syncDissem A)
      ((callsTimes A.members (syncDissem A) K).after (init (fun _ _ => 0) fun _ _ => ()) sched n) v k :=
  calls_finish (fun _ => rfl) (fun ops hrest => dissem_rest hmax ops hrest) hfair

theorem dissem_finishes_pair : ∃ n, ∀ v ∈ pair.members, ∀ k < 5, Returned (syncDissem pair)
    ((callsTimes pair.members (syncDissem pair) 5).after (init (fun _ _ => 0) fun _ _ => ()) cycle n) v k :=
  dissem_finishes pair (by decide) 5 fair_cycle

end Dissem

/-! ## One call -/

/-- in a state at rest one call of a barrier is over -/
theorem barrier_rest {A : ActiveSet} (h2 : 2 ≤ A.PE_size) {alg : BarrierAlg} (halg : alg.Valid A) (ops : List Op)
    (hrest : (calls A.members (barrierBody A alg)).Resting (barrierLen A alg)
      ((calls A.members (barrierBody A alg)).run (init (fun _ _ => 0) fun _ _ => ()) ops)) :
    ∀ v ∈ A.members, (barrierBody A alg v).length ≤
      ((calls A.members (barrierBody A alg)).run (init (fun _ _ => 0) fun _ _ => ()) ops).pc v := by
  -- one call of everybody, who is not a member included
  have hone : (calls A.members (barrierBody A alg)).Resting (fun v => 1 * (barrierBody A alg v).length)
      ((calls A.members (barrierBody A alg)).run (init (fun _ _ => 0) fun _ _ => ()) ops) := by
    refine hrest.of_goal (fun v => ?_) fun v ins hlt hp => ?_
    · rw [Nat.one_mul]
      refine (hrest.pc_le v).trans ?_
      unfold barrierLen
      split_ifs
      · exact le_refl _
      · exact Nat.zero_le _
    · rw [Nat.one_mul] at hlt
      have hv : v ∈ A.members := by
        by_contra hnot
        simp [calls, hnot] at hp
      rwa [barrierLen_mem hv]
  intro v hv
  cases alg with
  | tree alg =>
    have h := sync_rest h2 halg (K := 1) ops hone v hv
    rwa [Nat.one_mul] at h
  | dissem =>
    have h := Dissem.dissem_rest halg (K := 1) ops hone v hv
    rwa [Nat.one_mul] at h

end SandiaShmem.Collectives
