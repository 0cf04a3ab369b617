/-
No deadlock in the reductions with atomics.

At rest every node with children has told them that they may send. So the leaves have sent, their adds have come up the
tree, and the root is through; then the broadcast behind it is.

- `Words.through`: at rest all members are through with the protocol.
- `op_to_all_total`: under every fair schedule all members return, with the reduction in their target.
-/
import SandiaShmem.Collectives.BcastProgress
import SandiaShmem.Collectives.ReduceTree

namespace SandiaShmem.Collectives

open OneSided OneSided.Machine Reduction
open Runs (Fair)

namespace ReduceTree

namespace Plan
variable {R : Plan} {G : ReduceArgs} {α : Type*} {op : α → α → α} {tail : ℕ → List Instr} {s : St α} {goal : ℕ → ℕ}

section
variable (F : R.Fits G tail) (hh : (R.machine G op tail).Hist s) (hrest : (R.machine G op tail).Resting goal s)
include F hrest

/-- a word that has been sent has arrived -/
theorem sent {v t : ℕ} {ins : Instr} (hv : v ∈ R.T.nodes) (hat : R.CodeAt G v t ins) (hparts : ins.parts = 1)
    (hlt : t < s.pc v) : s.done v t 0 = true := by
  refine hrest.delivered _ _ _ hlt ?_
  rw [partsAt_eq _ (prog_of F hv hat), hparts]
  exact Nat.one_pos

/-- who rests in the protocol is at one of its waits -/
theorem waits {v : ℕ} (hv : v ∈ R.T.nodes) (hlt : s.pc v < R.off v) (hgoal : R.off v ≤ goal v) :
    (R.Inner v ∧ s.pc v = R.waitPos v ∧ s.cell v 0 ≠ (R.T.children v).length) ∨
      (R.Inner v ∧ s.pc v = R.waitPos v + 2 ∧ s.cell v 0 ≠ 0) ∨
      (v ≠ R.T.root ∧ s.pc v = R.upPos v ∧ s.cell v R.cts = 0) ∨
      (v ≠ R.T.root ∧ s.pc v = R.upPos v + 2 ∧ s.cell v R.cts ≠ 0) := by
  obtain ⟨ins, hget⟩ : ∃ ins, (R.node G v)[s.pc v]? = some ins := ⟨_, List.getElem?_eq_getElem (by rwa [length_node])⟩
  have hat := codeAt_of_getElem hget
  have hwait := hrest.waits (by omega) (prog_of F hv hat)
  generalize hpc : s.pc v = t at hat
  cases hat with
  | wait hi =>
    rcases hwait with ⟨c, cmp, w, hw, hnot⟩ | ⟨c, w, hw, -⟩ | ⟨hw, -⟩
    · cases hw
      exact .inl ⟨hi, rfl, hnot⟩
    · cases hw
    · cases hw
  | zeroed hi =>
    rcases hwait with ⟨c, cmp, w, hw, hnot⟩ | ⟨c, w, hw, -⟩ | ⟨hw, -⟩
    · cases hw
      exact .inr (.inl ⟨hi, rfl, hnot⟩)
    · cases hw
    · cases hw
  | clear hr =>
    rcases hwait with ⟨c, cmp, w, hw, hnot⟩ | ⟨c, w, hw, -⟩ | ⟨hw, -⟩
    · cases hw
      exact .inr (.inr (.inl ⟨hr, rfl, not_not.mp hnot⟩))
    · cases hw
    · cases hw
  | ctsZeroed hr =>
    rcases hwait with ⟨c, cmp, w, hw, hnot⟩ | ⟨c, w, hw, -⟩ | ⟨hw, -⟩
    · cases hw
      exact .inr (.inr (.inr ⟨hr, rfl, hnot⟩))
    · cases hw
    · cases hw
  | _ => rcases hwait with ⟨c, cmp, w, hw, -⟩ | ⟨c, w, hw, -⟩ | ⟨hw, -⟩ <;> cases hw

/-- everybody has been told that it may send -/
theorem told (hgoal : ∀ v ∈ R.T.nodes, R.off v ≤ goal v) {v : ℕ} (hv : v ∈ R.T.nodes) (hr : v ≠ R.T.root) :
    (R.flag v).IsSet s := by
  have hp := R.T.parent_mem v hv
  have hget := getElem_idxOf hv hr
  have hi := inner_of_child hget
  have hidx := (List.getElem?_eq_some_iff.mp hget).1
  suffices hlt : 3 + (R.T.children (R.T.parent v)).idxOf v < s.pc (R.T.parent v) from
    sent F hrest hp (.cts _ v hget) rfl hlt
  -- the parent waits for nothing before its counter
  by_contra hlt
  have hoff : R.waitPos (R.T.parent v) + 3 ≤ R.off (R.T.parent v) := by
    rw [off, upPos_inner hi]
    exact Nat.le_add_right _ _
  have hup := upPos_inner hi
  unfold waitPos at hoff hup
  rcases waits F hrest hp (by omega) (hgoal _ hp) with ⟨-, hpc, -⟩ | ⟨-, hpc, -⟩ | ⟨-, hpc, -⟩ | ⟨-, hpc, -⟩
  · rw [waitPos] at hpc
    omega
  · rw [waitPos] at hpc
    omega
  · omega
  · omega

include hh in
/-- **From the leaves up.** All members are through with the protocol. -/
theorem Words.through (h : R.Words s) (hgoal : ∀ v ∈ R.T.nodes, R.off v ≤ goal v) : ∀ v ∈ R.T.nodes, R.off v ≤ s.pc v := by
  refine R.T.up fun v hv ih => ?_
  by_contra hlt
  rcases waits F hrest hv (by omega) (hgoal v hv) with ⟨hi, hpc, hne⟩ | ⟨hi, hpc, hne⟩ | ⟨hr, hpc, h0⟩ | ⟨hr, hpc, hne⟩
  · have hadds : ∀ p ∈ (R.counter v).adds, s.done p.1 p.2 0 = true := by
      intro p hp
      obtain ⟨c, hc, rfl⟩ := Finset.mem_image.mp hp
      have hc := List.mem_toFinset.mp hc
      have hcr := R.T.child_ne_root hv hc
      have hend := ih c hc
      rw [off, if_neg hcr] at hend
      exact sent F hrest (R.T.child_mem hv hc) (.add hcr) rfl (show R.addPos c < s.pc c by rw [addPos]; omega)
    have hnot : ¬ (R.counter v).Cleared s := by
      intro hc
      have := cleared_pc hh hc
      omega
    refine hne ((h.counter v hv hi).cell.trans ?_)
    rw [if_neg hnot, Ledger.sum_eq_card (fun _ _ => rfl) hadds, card_adds hv]
  · have hzero := sent F hrest hv (.zero hi) rfl (by omega)
    exact hne ((h.counter v hv hi).cell.trans (if_pos ⟨_, rfl, hzero⟩))
  · have hnot : ¬ (R.flag v).Cleared s := by
      intro hc
      have : R.upPos v + 1 < s.pc v := (hh.doneIssued _ _ _ hc).1
      omega
    have hcell : s.cell v R.cts = _ := (h.flag v hv hr).cell
    rw [if_neg hnot, if_pos (told F hrest hgoal hv hr), h0] at hcell
    exact zero_ne_one hcell
  · have hlt : R.upPos v + 1 < s.pc v := by omega
    have hzero : (R.flag v).Cleared s := sent F hrest hv (.ctsZero hr) rfl hlt
    exact hne ((h.flag v hv hr).cell.trans (if_pos hzero))

end

end Plan

section
variable {G : ReduceArgs} {α : Type*} {op : α → α → α} {m0 : ℕ → Loc → α} {c0 : ℕ → ℕ → ℤ} (hsep : G.Separate)

/-- nobody rests in a copy -/
theorem rest_of_one (h1 : G.A.PE_size = 1) {radix : ℕ} {bcast : BcastAlg} {s : St α}
    (hrest : (once G.A.members op (opToAllTree G radix bcast)).Resting (fun v => (opToAllTree G radix bcast v).length) s) :
    ∀ v ∈ G.A.members, (opToAllTree G radix bcast v).length ≤ s.pc v := by
  intro v hv
  by_contra hlt
  obtain ⟨ins, hget⟩ : ∃ ins, (opToAllTree G radix bcast v)[s.pc v]? = some ins :=
    ⟨_, List.getElem?_eq_getElem (not_le.mp hlt)⟩
  have hp : (once G.A.members op (opToAllTree G radix bcast)).prog v (s.pc v) = some ins := by
    simp only [once, if_pos hv]
    exact hget
  obtain ⟨-, -, -, hins⟩ := prog_of_one h1 hp
  rcases hrest.waits (not_le.mp hlt) hp with ⟨c, cmp, w, hw, -⟩ | ⟨c, w, hw, -⟩ | ⟨hw, -⟩
  · exact Instr.noConfusion (hins.symm.trans hw)
  · exact Instr.noConfusion (hins.symm.trans hw)
  · exact Instr.noConfusion (hins.symm.trans hw)

include hsep in
/-- in a state at rest everybody has returned -/
theorem op_to_all_rest (hcount : 0 < G.count) (hassoc : ∀ a b c, op (op a b) c = op a (op b c))
    (hcomm : ∀ a b, op a b = op b a) (alg : ReduceAlg) (halg : alg.Valid G.A)
    (bcast : BcastAlg) (hbcast : bcast.Valid G.A G.count 0)
    (h0 : ∀ v ∈ G.A.members, ∀ w, c0 v w = 0) (ops : List Op)
    (hrest : (once G.A.members op (alg.body G bcast)).Resting (fun v => (alg.body G bcast v).length)
      ((once G.A.members op (alg.body G bcast)).run (init c0 m0) ops)) :
    ∀ v ∈ G.A.members,
      (alg.body G bcast v).length ≤ ((once G.A.members op (alg.body G bcast)).run (init c0 m0) ops).pc v := by
  have hsize := G.A.size_pos
  by_cases hone : G.A.PE_size = 1 ∧ ∃ radix, alg = .tree radix
  · obtain ⟨h1, radix, rfl⟩ := hone
    exact rest_of_one h1 hrest
  have h2 : alg = .linear ∨ 2 ≤ G.A.PE_size := by
    cases alg with
    | linear => exact .inl rfl
    | tree radix =>
      refine .inr ?_
      by_contra hlt
      exact hone ⟨by omega, radix, rfl⟩
  obtain ⟨R, hroot, hnodes, hcts, hpart⟩ := exists_plan halg h2
  have h0 : ∀ v ∈ R.T.nodes, ∀ w, c0 v w = 0 := fun v hv => h0 v ((hnodes v).mpr hv)
  have heq : ∀ v ∈ G.A.members, alg.body G bcast v = R.node G v ++ bcastBody G.A (bcastArgs G) 0 bcast v :=
    fun v hv => by rw [body_eq hcount h2, hpart v hv]
  have hm : once G.A.members op (alg.body G bcast) = R.machine G op _ := once_congr heq
  have hlen : ∀ v ∈ R.T.nodes,
      (alg.body G bcast v).length = R.off v + (bcastBody G.A (bcastArgs G) 0 bcast v).length := by
    intro v hv
    rw [heq v ((hnodes v).mpr hv), List.length_append, Plan.length_node]
  rw [hm] at hrest ⊢
  intro v hv
  have hvn := (hnodes v).mp hv
  have hgoal : ∀ v ∈ R.T.nodes, R.off v ≤ (alg.body G bcast v).length := fun v hv => by
    rw [hlen v hv]
    exact Nat.le_add_right _ _
  rcases Nat.lt_or_ge 1 G.A.PE_size with hgt | hle
  · obtain ⟨S, hr, hmem, hstart, hshape⟩ := exists_shape (B := bcastArgs G) hsize hgt hbcast
      (show G.count ≠ 0 by omega)
    have hshape : ∀ v ∈ G.A.members, bcastBody G.A (bcastArgs G) 0 bcast v = S.node (bcastArgs G) v :=
      fun v hv => (hshape v hv).1
    have hne : G.A.pe 1 ≠ R.T.root := by
      rw [hroot]
      exact fun h => absurd (G.A.pe_inj.mp h) Nat.one_ne_zero
    have hedge := R.T.children_root_ne_nil ((hnodes _).mp (G.A.pe_mem hgt)) hne
    have hsame : ∀ v, v ∈ R.T.nodes ↔ v ∈ S.T.nodes := fun v => (hnodes v).symm.trans (hmem v)
    have F : R.Fits G fun v => bcastBody G.A (bcastArgs G) 0 bcast v := Plan.fits_bcast hnodes hcts hshape
    have E : Embed (R.machine G op _) S (bcastArgs G) R.off := Plan.embed F hsame hstart hshape
    have hidle : BInv S (bcastArgs G) R.off (Plan.reduced G op m0) (init c0 m0) :=
      BInv.idle (hist_init (R.machine G op fun v => bcastBody G.A (bcastArgs G) 0 bcast v) c0 m0)
        (fun v _ => Nat.zero_le _) fun v hv => h0 v ((hsame v).mpr hv) 2
    obtain ⟨hh, hw, -, hb⟩ := (Plan.keeps_bcast F hsame (hr.trans hroot.symm) hedge hstart hshape hsep hassoc hcomm).run
      (hist_init _ c0 m0) ⟨Plan.words_init m0 h0, fun _ => Plan.values_init c0, hidle⟩ ops
    have hthrough := hw.through F hh hrest hgoal
    have hend := hb.finished E hh hrest (fun u hu => ?_) (fun u hu => hthrough u ((hsame u).mpr hu)) v ((hsame v).mp hvn)
    · rw [hlen v hvn, hshape v hv]
      exact hend
    · have hun := (hsame u).mpr hu
      rw [hlen u hun, hshape u ((hnodes u).mpr hun)]
  · have h1 : G.A.PE_size = 1 := by omega
    have htail : bcastBody G.A (bcastArgs G) 0 bcast = fun _ => [] :=
      funext fun v => bcastBody_nil (.inl h1) 0 bcast v
    rw [hlen v hvn, bcastBody_nil (.inl h1) 0 bcast v]
    rw [htail] at hrest ⊢
    have F : R.Fits G fun _ => [] := by
      refine ⟨hnodes, hcts, ?_, ?_, ?_⟩
      · exact fun v _ ins hmem => absurd hmem List.not_mem_nil
      · exact fun v _ ins hmem => absurd hmem List.not_mem_nil
      · exact fun v _ ins hmem => absurd hmem List.not_mem_nil
    obtain ⟨hh, hw, -⟩ := (Plan.keeps_nil F hsep).run (hist_init _ c0 m0) ⟨Plan.words_init m0 h0, Plan.values_init c0⟩ ops
    exact hw.through F hh hrest hgoal v hvn

end

/-- **Both reductions with atomics reduce.** For every active set, length, associative and commutative op and tree radix
with indices below 2^31, with target and source equal or disjoint and with either broadcast: under every fair schedule
all members return, and then the target of each is the elementwise reduction of all sources, and its pSync zero. -/
theorem op_to_all_total {α : Type*} (G : ReduceArgs) (hcount : 0 < G.count) (hsep : G.Separate) (op : α → α → α)
    (hassoc : ∀ a b c, op (op a b) c = op a (op b c)) (hcomm : ∀ a b, op a b = op b a) (alg : ReduceAlg)
    (halg : alg.Valid G.A) (bcast : BcastAlg)
    (hbcast : bcast.Valid G.A G.count 0) (c0 : ℕ → ℕ → ℤ) (m0 : ℕ → Loc → α)
    (h0 : ∀ v ∈ G.A.members, ∀ w, c0 v w = 0) {sched : ℕ → Op} (hfair : Fair sched) :
    ∃ n, let s := (once G.A.members op (alg.body G bcast)).after (init c0 m0) sched n
      ∀ v ∈ G.A.members, s.pc v = (alg.body G bcast v).length ∧ (∀ w, s.cell v w = 0) ∧ ∀ j < G.count,
        s.mem v (.sym (G.target + j)) = foldRanks op (fun r => m0 (G.A.pe r) (.sym (G.source + j))) G.A.PE_size := by
  obtain ⟨n, hn⟩ := once_finishes (fun _ => rfl)
    (fun ops hrest => op_to_all_rest hsep hcount hassoc hcomm alg halg bcast hbcast h0 ops hrest) hfair
  refine ⟨n, fun v hv => ?_⟩
  have hok : ReduceOk G op (alg.body G bcast) m0
      ((once G.A.members op (alg.body G bcast)).after (init c0 m0) sched n) := by
    rw [after_eq_run]
    exact op_to_all_ok hsep hcount hassoc hcomm alg halg bcast hbcast h0 _
  exact ⟨hn v hv, hok.zero v hv (hn v hv), hok.result v hv (hn v hv)⟩

theorem op_to_all_total_odd : ∃ n,
    let s := (once oddArgs.A.members (· + ·) ((ReduceAlg.tree 2).body oddArgs .linear)).after
      (init (fun _ _ => 0) evenMem) cycle n
    ∀ v ∈ oddArgs.A.members, s.pc v = ((ReduceAlg.tree 2).body oddArgs .linear v).length ∧ (∀ w, s.cell v w = 0) ∧
      ∀ j < oddArgs.count, s.mem v (.sym (oddArgs.target + j)) =
        foldRanks (· + ·) (fun r => evenMem (oddArgs.A.pe r) (.sym (oddArgs.source + j))) oddArgs.A.PE_size :=
  op_to_all_total oddArgs (by decide) (.inr (.inl (by decide))) (· + ·) Int.add_assoc Int.add_comm (.tree 2)
    (fun _ => oddArgs_fits) .linear trivial
    (fun _ _ => 0) evenMem (fun _ _ _ => rfl) fair_cycle

end ReduceTree

end SandiaShmem.Collectives
