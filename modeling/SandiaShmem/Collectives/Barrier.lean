/-
The barriers inside another collective.

`shmem_internal_barrier` is a quiet and then the synchronisation that `shmem_internal_sync` chooses. Another collective
calls it once on a part of its own pSync. Of the three synchronisations it needs that nobody returns before everybody has
entered, and that the words of who has returned are zero as long as nobody calls it again.

- `syncSelect`: the choice; `none` is the error of an illegal type.
- `barrier_entered`, `barrier_zero`: one call of a synchronisation.
- `barrier_slice`, `InBarrier`: a call inside a program, and what it is good for there.
-/
import SandiaShmem.Core.Slice
import SandiaShmem.Collectives.SyncTree
import SandiaShmem.Collectives.SyncDissem

namespace SandiaShmem.Collectives

open OneSided OneSided.Machine

/-! ## Model -/

/-- the synchronisations -/
inductive BarrierAlg where
  | tree (alg : SyncAlg)
  | dissem
deriving DecidableEq, Repr

/-- what the PE my_pe does in one -/
def barrierBody (A : ActiveSet) : BarrierAlg → ℕ → List Instr
  | .tree alg => syncBody A alg
  | .dissem => Dissem.syncDissem A

/-- `shmem_internal_sync` of at least two PEs: `radix` and `COLL_CROSSOVER` are parameters of the library -/
def syncSelect (barrier_type : CollType) (radix COLL_CROSSOVER PE_size : ℕ) : Option BarrierAlg :=
  match barrier_type with
  | .AUTO => if PE_size < COLL_CROSSOVER then some (.tree .linear) else some (.tree (.tree radix))
  | .LINEAR => some (.tree .linear)
  | .TREE => some (.tree (.tree radix))
  | .DISSEM => some .dissem
  | _ => none

/-- what it asks for: a tree branches and has `int` indices, and the distances of the dissemination are `int`s -/
def BarrierAlg.Valid (A : ActiveSet) : BarrierAlg → Prop
  | .tree alg => ∀ radix, alg = .tree radix → TreeFits radix A 0
  | .dissem => A.PE_size ≤ 2 ^ 30

/-! ## One call -/

namespace Dissem
variable {A : ActiveSet} {s : St Unit} {D E : ℕ → ℕ → Finset ℕ}

/-- after one call the slots are zero -/
theorem Inv.zero_of_once (h : Inv A s D E) (hh : (machine A).Hist s) (honce : ∀ q ∈ A.members, s.pc q ≤ len A) {t : ℕ}
    (ht : t < A.PE_size) (hpc : s.pc (A.pe t) = len A) (c : ℕ) : s.cell (A.pe t) c = 0 := by
  by_cases hc : c < rounds A
  · obtain ⟨r, hr, rfl⟩ := exists_sender A ht c
    have hlen : len A = 2 + 4 * rounds A := rfl
    -- the add and the subtraction of the call have arrived, and there is no other call
    have hone : ∀ {q b : ℕ} {S : Finset ℕ}, q < A.PE_size → b + 4 * c < len A →
        (∀ k ∈ S, s.done (A.pe q) (k * len A + (b + 4 * c)) 0 = true) → S.card ≤ 1 := by
      intro q b S hq hb hS
      by_contra hgt
      obtain ⟨k, hk, hge⟩ := exists_ge_of_card (show 1 < S.card by omega)
      have hlt := (hh.doneIssued _ _ _ (hS k hk)).1
      have hle := Nat.mul_le_mul_right (len A) hge
      have := honce _ (A.pe_mem hq)
      omega
    have hD : (D r c).card ≤ 1 := hone hr (by omega) fun k hk => (h.adds r hr c hc k).mpr hk
    have hE : (E (toRank A r c) c).card ≤ 1 := hone ht (by omega) fun k hk => (h.subs _ ht c hc k).mpr hk
    have hD' := h.waits r hr c hc 0 (by omega)
    have hE' : 1 ≤ (E (toRank A r c) c).card :=
      Finset.card_pos.mpr ⟨0, h.subs_done hh ht hc (k := 0) (by omega) 0 (le_refl _)⟩
    rw [h.value r hr c hc]
    omega
  · exact h.unused _ c (by omega)

end Dissem

/-- after one call of a tree barrier the counters are zero -/
theorem Inv.zero_of_once {T : ParentTree} {ack : ℕ → Instr} {ms : List ℕ} {s : St Unit} {u z a : ℕ → ℕ}
    (h : Inv T s u z a) (hh : (calls ms (node T ack)).Hist s) (honce : ∀ q ∈ T.nodes, s.pc q ≤ len T q) {v : ℕ}
    (hv : v ∈ T.nodes) (hpc : s.pc v = len T v) : s.cell v 0 = 0 := by
  have hcount := h.at_return hh hv (k := 0) (by omega)
  rw [hcount]
  -- nobody has called in for another round
  have hnone : (T.children v).countP (fun c => s.done c ((0 + 1) * len T c + upPos (T.children c)) 0) = 0 := by
    refine List.countP_eq_zero.mpr fun c hc hd => ?_
    have hlt := (hh.doneIssued _ _ _ hd).1
    have := honce c (T.child_mem hv hc)
    omega
  rw [hnone]
  rfl

section
variable {A : ActiveSet} (h2 : 2 ≤ A.PE_size) {alg : BarrierAlg} (halg : alg.Valid A)
include h2 halg

/-- every member does something, on cells only and with members only -/
theorem barrierBody_cells {v : ℕ} (hv : v ∈ A.members) :
    0 < (barrierBody A alg v).length ∧ ∀ ins ∈ barrierBody A alg v, ins.cellular = true ∧
      ∀ pe, ins.dest = some pe → pe ∈ A.members := by
  cases alg with
  | tree alg =>
    obtain ⟨T, ack, P, hT⟩ := exists_proto A h2 alg halg
    have hvn := (P.mem v).mp hv
    have hbody : barrierBody A (.tree alg) v = node T ack v := (hT v hv).1
    rw [hbody]
    refine ⟨?_, fun ins hmem => ?_⟩
    · rw [node_length (P.leaf hvn)]
      have := clearPos_bounds hvn
      omega
    · obtain ⟨x, hx⟩ := List.getElem?_of_mem hmem
      cases nodeAt_of_node (P.leaf hvn) hx with
      | up hne =>
        refine ⟨rfl, fun pe hpe => ?_⟩
        obtain rfl := Option.some.inj hpe
        exact (P.mem _).mpr (T.parent_mem v hvn)
      | clear =>
        refine ⟨rfl, fun pe hpe => ?_⟩
        obtain rfl := Option.some.inj hpe
        exact hv
      | ack j c hc =>
        have hcm := List.mem_of_getElem? hc
        have hmem := (P.mem c).mpr (T.child_mem hvn hcm)
        rcases P.ack v hvn c hcm with heq | ⟨heq, -⟩
        · rw [heq]
          exact ⟨rfl, fun pe hpe => Option.some.inj hpe ▸ hmem⟩
        · rw [heq]
          exact ⟨rfl, fun pe hpe => Option.some.inj hpe ▸ hmem⟩
      | _ => exact ⟨rfl, fun pe hpe => absurd hpe (by simp [Instr.dest])⟩
  | dissem =>
    obtain ⟨r, hr, rfl⟩ := A.mem_members.mp hv
    refine ⟨?_, fun ins hmem => ?_⟩
    · rw [barrierBody, Dissem.syncDissem_length halg, Dissem.len]
      omega
    · obtain ⟨x, hx⟩ := List.getElem?_of_mem hmem
      cases Dissem.bodyAt_of_getElem halg hr hx with
      | add i hi => exact ⟨rfl, fun pe hpe => Option.some.inj hpe ▸ A.pe_mem (Dissem.toRank_lt A r i)⟩
      | sub i hi => exact ⟨rfl, fun pe hpe => Option.some.inj hpe ▸ A.pe_mem hr⟩
      | _ => exact ⟨rfl, fun pe hpe => absurd hpe (by simp [Instr.dest])⟩

/-- nobody returns before everybody has entered -/
theorem barrier_entered (ops : List Op) {p q : ℕ} (hp : p ∈ A.members) (hq : q ∈ A.members)
    (hret : (barrierBody A alg p).length ≤
      ((calls A.members (barrierBody A alg)).run (init (fun _ _ => 0) fun _ _ => ()) ops).pc p) :
    0 < ((calls A.members (barrierBody A alg)).run (init (fun _ _ => 0) fun _ _ => ()) ops).pc q := by
  cases alg with
  | tree alg =>
    obtain ⟨T, ack, P, hT⟩ := exists_proto A h2 alg halg
    have hM : calls A.members (barrierBody A (.tree alg)) = calls A.members (node T ack) :=
      calls_congr fun v hv => (hT v hv).1
    have hbody : barrierBody A (.tree alg) p = node T ack p := (hT p hp).1
    rw [hM] at hret ⊢
    rw [hbody, node_length (P.leaf ((P.mem p).mp hp))] at hret
    obtain ⟨hh, u, z, a, h⟩ := P.run_inv ops
    have := h.barrier hh ((P.mem p).mp hp) ((P.mem q).mp hq) (k := 0) (by rwa [Nat.zero_add, Nat.one_mul])
    rwa [Nat.zero_mul] at this
  | dissem =>
    obtain ⟨r, hr, rfl⟩ := A.mem_members.mp hp
    obtain ⟨t, ht, rfl⟩ := A.mem_members.mp hq
    rw [barrierBody, Dissem.syncDissem_length halg] at hret
    obtain ⟨hh, D, E, h⟩ := Dissem.run_inv halg ops
    have := h.barrier hh hr ht (k := 0) (by rwa [Nat.zero_add, Nat.one_mul])
    rwa [Nat.zero_mul] at this

/-- the words of who has returned are zero, as long as nobody calls again -/
theorem barrier_zero (ops : List Op)
    (honce : ∀ q ∈ A.members, ((calls A.members (barrierBody A alg)).run (init (fun _ _ => 0) fun _ _ => ()) ops).pc q ≤
      (barrierBody A alg q).length) {p : ℕ} (hp : p ∈ A.members)
    (hret : ((calls A.members (barrierBody A alg)).run (init (fun _ _ => 0) fun _ _ => ()) ops).pc p =
      (barrierBody A alg p).length) (c : ℕ) :
    ((calls A.members (barrierBody A alg)).run (init (fun _ _ => 0) fun _ _ => ()) ops).cell p c = 0 := by
  cases alg with
  | tree alg =>
    obtain ⟨T, ack, P, hT⟩ := exists_proto A h2 alg halg
    have hM : calls A.members (barrierBody A (.tree alg)) = calls A.members (node T ack) :=
      calls_congr fun v hv => (hT v hv).1
    have hlen : ∀ v ∈ A.members, (barrierBody A (.tree alg) v).length = len T v := by
      intro v hv
      rw [show barrierBody A (.tree alg) v = node T ack v from (hT v hv).1, node_length (P.leaf ((P.mem v).mp hv))]
    rw [hM] at hret honce ⊢
    by_cases hc : c = 0
    · subst hc
      obtain ⟨hh, u, z, a, h⟩ := P.run_inv ops
      refine h.zero_of_once hh (fun q hq => ?_) ((P.mem p).mp hp) (hret.trans (hlen p hp))
      have hqm := (P.mem q).mpr hq
      exact (honce q hqm).trans_eq (hlen q hqm)
    · -- there is one word only
      refine run_cell_unwritten (fun v t ins hprog => ?_) _ ops p
      obtain ⟨hv, hat⟩ := P.prog hprog
      have hne : some 0 ≠ some c := fun heq => hc (Option.some.inj heq).symm
      generalize t % len T v = x at hat
      cases hat with
      | up => exact hne
      | clear => exact hne
      | ack j d hd =>
        rcases P.ack v hv d (List.mem_of_getElem? hd) with heq | ⟨heq, -⟩ <;> rw [heq] <;> exact hne
      | _ => simp [Instr.word]
  | dissem =>
    obtain ⟨r, hr, rfl⟩ := A.mem_members.mp hp
    obtain ⟨hh, D, E, h⟩ := Dissem.run_inv halg ops
    refine h.zero_of_once hh (fun q hq => ?_) hr (hret.trans (Dissem.syncDissem_length halg _)) c
    exact (honce q hq).trans_eq (Dissem.syncDissem_length halg q)

/-! ## Inside a program -/

variable (A alg) in
/-- how long the barrier of a PE is -/
def barrierLen (v : ℕ) : ℕ := if v ∈ A.members then (barrierBody A alg v).length else 0

omit h2 halg in
theorem barrierLen_mem {v : ℕ} (hv : v ∈ A.members) : barrierLen A alg v = (barrierBody A alg v).length := if_pos hv

omit h2 halg in
theorem mem_of_barrierLen {v : ℕ} (h : 0 < barrierLen A alg v) : v ∈ A.members := by
  by_contra hv
  rw [barrierLen, if_neg hv] at h
  exact absurd h (lt_irrefl _)

theorem barrierLen_pos {v : ℕ} (hv : v ∈ A.members) : 0 < barrierLen A alg v := by
  rw [barrierLen_mem hv]
  exact (barrierBody_cells h2 halg hv).1

/-- the barrier alone leaves its words zero -/
theorem barrier_zero_alone (ops : List Op) (v : ℕ)
    (honce : ∀ q, ((calls A.members (barrierBody A alg)).run (init (fun _ _ => 0) fun _ _ => ()) ops).pc q ≤
      barrierLen A alg q) (hpos : 0 < barrierLen A alg v)
    (hret : ((calls A.members (barrierBody A alg)).run (init (fun _ _ => 0) fun _ _ => ()) ops).pc v =
      barrierLen A alg v) (c : ℕ) :
    ((calls A.members (barrierBody A alg)).run (init (fun _ _ => 0) fun _ _ => ()) ops).cell v c = 0 := by
  have hv := mem_of_barrierLen hpos
  rw [barrierLen_mem hv] at hret
  refine barrier_zero h2 halg ops (fun q hq => ?_) hv hret c
  have := honce q
  rwa [barrierLen_mem hq] at this

section
variable {α : Type*} {M : Machine α} {base : ℕ} {off : ℕ → ℕ}

/-- a barrier that stands at positions `off v` is a part of the program -/
theorem barrier_slice
    (hcode : ∀ v ∈ A.members, ∀ x ins, (barrierBody A alg v)[x]? = some ins →
      M.prog v (off v + x) = some (ins.shift base))
    (hout : ∀ v t ins, M.prog v t = some ins → t < off v ∨ off v + barrierLen A alg v ≤ t → ∀ c,
      ins.word = some (base + c) → ins = .store (base + c) 0 ∧ off v + barrierLen A alg v ≤ t) :
    Slice M (calls A.members (barrierBody A alg)) base off (barrierLen A alg) := by
  -- the first call of the barrier
  have hcall : ∀ {v x : ℕ}, x < barrierLen A alg v → v ∈ A.members ∧ x < (barrierBody A alg v).length ∧
      (calls A.members (barrierBody A alg)).prog v x = (barrierBody A alg v)[x]? := by
    intro v x hx
    have hv := mem_of_barrierLen (show 0 < barrierLen A alg v by omega)
    rw [barrierLen_mem hv] at hx
    refine ⟨hv, hx, ?_⟩
    simp only [calls, if_pos hv, Nat.mod_eq_of_lt hx]
  refine ⟨fun v x hx => ?_, fun v x ins hx hp => ?_, fun v x ins pe hx hp hd => ?_, hout⟩
  · obtain ⟨hv, hlt, hprog⟩ := hcall hx
    have hins : (barrierBody A alg v)[x]? = some _ := List.getElem?_eq_getElem hlt
    rw [hprog, hins]
    exact hcode v hv x _ hins
  · obtain ⟨hv, -, hprog⟩ := hcall hx
    rw [hprog] at hp
    exact ((barrierBody_cells h2 halg hv).2 ins (List.mem_of_getElem? hp)).1
  · obtain ⟨hv, -, hprog⟩ := hcall hx
    rw [hprog] at hp
    exact barrierLen_pos h2 halg (((barrierBody_cells h2 halg hv).2 ins (List.mem_of_getElem? hp)).2 pe hd)

variable (A alg base off) in
/-- the barrier of the program as it would be alone -/
def InBarrier (s : St α) : Prop := ∃ ops, proj base off (barrierLen A alg) s =
  (calls A.members (barrierBody A alg)).run (init (fun _ _ => 0) fun _ _ => ()) ops

omit h2 halg in
theorem inBarrier_init (m0 : ℕ → Loc → α) {c0 : ℕ → ℕ → ℤ} (h0 : ∀ v ∈ A.members, ∀ w, c0 v w = 0) :
    InBarrier A alg base off (init c0 m0) := by
  refine ⟨[], Slice.st_ext (fun v => ?_) (fun v c => ?_) (fun _ _ _ => rfl) fun v x j => ?_⟩
  · simp [proj, init, Machine.run]
  · simp only [proj, init, Machine.run, Runs.run_nil]
    split_ifs with hlen
    · exact h0 v (mem_of_barrierLen hlen) _
    · rfl
  · simp [proj, init, Machine.run]

variable {s : St α}

omit h2 halg in
/-- who is through the barrier of the program is through the barrier alone -/
theorem proj_pc_through {p : ℕ} (hpc : off p + barrierLen A alg p ≤ s.pc p) :
    (proj base off (barrierLen A alg) s).pc p = barrierLen A alg p := by
  simp only [proj]
  omega

/-- who is through the barrier has everybody in it -/
theorem InBarrier.entered (h : InBarrier A alg base off s) {p q : ℕ} (hp : p ∈ A.members) (hq : q ∈ A.members)
    (hpc : off p + barrierLen A alg p ≤ s.pc p) : off q < s.pc q := by
  obtain ⟨ops, hrun⟩ := h
  have hin := barrier_entered h2 halg ops hp hq
  rw [← hrun, proj_pc_through hpc, barrierLen_mem hp] at hin
  have := hin (le_refl _)
  simp only [proj] at this
  omega

/-- and its words of the barrier are zero -/
theorem InBarrier.zero (h : InBarrier A alg base off s) {p : ℕ} (hp : p ∈ A.members)
    (hpc : off p + barrierLen A alg p ≤ s.pc p) (c : ℕ) : s.cell p (base + c) = 0 := by
  obtain ⟨ops, hrun⟩ := h
  have hpos := barrierLen_pos h2 halg hp
  have hzero := barrier_zero_alone h2 halg ops p (fun q => ?_) hpos ?_ c
  · rwa [← hrun, Slice.proj_cell hpos] at hzero
  · rw [← hrun]
    exact min_le_right _ _
  · rw [← hrun]
    exact proj_pc_through hpc

end

end

end SandiaShmem.Collectives
