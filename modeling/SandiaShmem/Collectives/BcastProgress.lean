/-
No deadlock in the broadcasts, on their own or at the end of a larger program.

At rest the data and the words behind them have gone down the tree, and the acknowledgements and zeros have come up.

- `BInv.passed_on`: when all have reached the broadcast, all pass the data on.
- `BInv.finished`: then all come to the end.
- `bcast_total`: under every fair schedule all members return, and have the root's data.
-/
import SandiaShmem.Collectives.Progress
import SandiaShmem.Collectives.Bcast

namespace SandiaShmem.Collectives

open OneSided OneSided.Machine
open Runs (Fair)

section
variable {α : Type*} {M : Machine α} {S : Shape} {B : BcastArgs} {off goal : ℕ → ℕ} {V : ℕ → α} {s : St α} {v x : ℕ}
  {ins : Instr} (E : Embed M S B off)
include E

/-- a single value that has been sent has arrived -/
theorem Embed.sent (hrest : M.Resting goal s) (hv : v ∈ S.T.nodes) (hat : S.NodeAt B v x ins) (hparts : ins.parts = 1)
    (hlt : off v + x < s.pc v) : s.done v (off v + x) 0 = true := by
  refine hrest.delivered _ _ _ hlt ?_
  rw [partsAt_eq _ (E.prog_of hv hat), hparts]
  exact Nat.one_pos

/-- who rests in the broadcast is at one of its waits -/
theorem Embed.waits (hrest : M.Resting goal s) (hgoal : goal v = off v + (S.node B v).length) (hv : v ∈ S.T.nodes)
    (hpc : s.pc v = off v + x) (hx : x < (S.node B v).length) :
    (v ≠ S.T.root ∧ x = 0 ∧ s.cell v B.word = 0) ∨
      (S.T.children v ≠ [] ∧ B.complete = true ∧ x = S.gatherPos B v ∧
        s.cell v B.word ≠ ((S.T.children v).length + (if v = S.T.root then 0 else 1) : ℕ)) ∨
      (S.Clears B v ∧ x = S.clearPos B v + 1 ∧ s.cell v B.word ≠ 0) := by
  have hget := List.getElem?_eq_getElem hx
  have hat := Shape.nodeAt_of_getElem hget
  have hprog := E.prog_of hv hat
  rw [← hpc] at hprog
  have hwait := hrest.waits (by omega) hprog
  generalize (S.node B v)[x] = ins at hat hwait
  cases hat with
  | arrive hr =>
    rcases hwait with ⟨c, cmp, w, hw, hnot⟩ | ⟨c, w, hw, -⟩ | ⟨hw, -⟩
    · cases hw
      exact .inl ⟨hr, rfl, not_not.mp hnot⟩
    · cases hw
    · cases hw
  | gather hne hc =>
    rcases hwait with ⟨c, cmp, w, hw, hnot⟩ | ⟨c, w, hw, -⟩ | ⟨hw, -⟩
    · cases hw
      exact .inr (.inl ⟨hne, hc, rfl, hnot⟩)
    · cases hw
    · cases hw
  | cleared hc =>
    rcases hwait with ⟨c, cmp, w, hw, hnot⟩ | ⟨c, w, hw, -⟩ | ⟨hw, -⟩
    · cases hw
      exact .inr (.inr ⟨hc, rfl, hnot⟩)
    · cases hw
    · cases hw
  | _ => rcases hwait with ⟨c, cmp, w, hw, -⟩ | ⟨c, w, hw, -⟩ | ⟨hw, -⟩ <;> cases hw

/-- **From the root down.** -/
theorem BInv.passed_on (h : BInv S B off V s) (hh : M.Hist s) (hrest : M.Resting goal s)
    (hgoal : ∀ v ∈ S.T.nodes, goal v = off v + (S.node B v).length) (hall : ∀ v ∈ S.T.nodes, off v ≤ s.pc v) :
    ∀ v ∈ S.T.nodes, off v + S.gatherPos B v ≤ s.pc v := by
  -- who has its word, or needs none, passes the data on
  have hthrough : ∀ v ∈ S.T.nodes, (v ≠ S.T.root → s.done (S.T.parent v) (flagOf S B off v) 0 = true) →
      off v + S.gatherPos B v ≤ s.pc v := by
    intro v hv hflag
    by_contra hlt
    obtain ⟨x, hx⟩ := Nat.exists_eq_add_of_le (hall v hv)
    have hle := Shape.startPos_le (S := S) (B := B) v
    have hlen := Shape.length_node (S := S) (B := B) v
    rcases E.waits hrest (hgoal v hv) hv hx (by omega) with ⟨hr, rfl, h0⟩ | ⟨-, -, rfl, -⟩ | ⟨-, rfl, -⟩
    · rw [h.word v hv, if_neg (BInv.not_cleared hh (by omega)), bword, if_pos ⟨hr, hflag hr⟩] at h0
      omega
    · omega
    · omega
  refine S.T.down (hthrough _ S.T.root_mem fun hne => absurd rfl hne) fun v hv hr ih => hthrough v hv fun _ => ?_
  have hp := S.T.parent_mem v hv
  have hget := getElem_idxOf hv hr
  have hidx := idxOf_lt hv hr
  refine E.sent hrest hp (.flag _ v hget) rfl ?_
  have hne : S.T.children (S.T.parent v) ≠ [] := List.ne_nil_of_length_pos (by omega)
  have hmid := Shape.length_middle (S := S) (B := B) (S.T.parent v)
  rw [if_neg hne] at hmid
  unfold Shape.gatherPos at ih
  unfold Shape.flagPos
  omega

/-- **From the leaves up.** -/
theorem BInv.finished (h : BInv S B off V s) (hh : M.Hist s) (hrest : M.Resting goal s)
    (hgoal : ∀ v ∈ S.T.nodes, goal v = off v + (S.node B v).length) (hall : ∀ v ∈ S.T.nodes, off v ≤ s.pc v) :
    ∀ v ∈ S.T.nodes, off v + (S.node B v).length ≤ s.pc v := by
  have hpassed := h.passed_on E hh hrest hgoal hall
  refine S.T.up fun v hv ih => ?_
  by_contra hlt
  have hmid := hpassed v hv
  obtain ⟨x, hx⟩ := Nat.exists_eq_add_of_le (hall v hv)
  have hle := Shape.startPos_le (S := S) (B := B) v
  rcases E.waits hrest (hgoal v hv) hv hx (by omega) with ⟨hr, rfl, -⟩ | ⟨hne, hc, rfl, hcell⟩ | ⟨hc, rfl, hcell⟩
  · have := Shape.startPos_pos (B := B) (S := S) hr
    omega
  · have hpos := Shape.gatherPos_lt hne hc
    have hacks : (acked S B off s v).card = (S.T.children v).length := by
      rw [← List.toFinset_card_of_nodup (S.T.nodup v hv), acked]
      refine Finset.card_filter_eq_iff.mpr fun c hcm => ⟨hc, ?_⟩
      have hcm : c ∈ S.T.children v := by simpa using hcm
      have hcn := S.T.child_mem hv hcm
      have hack : S.NodeAt B c _ _ := .ack (S.T.child_ne_root hv hcm) hc
      have hidx := (List.getElem?_eq_some_iff.mp hack.getElem).1
      have hend := ih c hcm
      exact E.sent hrest hcn hack rfl (by omega)
    refine hcell ?_
    rw [h.word v hv, if_neg (BInv.not_cleared hh (by omega)), bword, hacks]
    by_cases hr : v = S.T.root
    · rw [if_neg fun hand => hand.1 hr, if_pos hr]
      push_cast
      omega
    · have hstart := Shape.startPos_pos (B := B) (S := S) hr
      rw [if_pos ⟨hr, h.arrived v hv hr (by omega)⟩, if_neg hr]
      push_cast
      omega
  · have hsent := E.sent hrest hv (.clear hc) rfl (by omega)
    exact hcell (by rw [h.word v hv, if_pos ⟨hsent, hc⟩])

end

/-- **A broadcast brings the data to everybody.** For every active set, root, length and value of complete, and every
tree radix with indices below 2^31: under every fair schedule all members return, and then every member other than the
root has the root's data. -/
theorem bcast_total {α : Type*} (A : ActiveSet) (B : BcastArgs) {PE_root : ℕ} (hroot : PE_root < A.PE_size)
    (alg : BcastAlg) (halg : alg.Valid A B.len PE_root) (op : α → α → α) (c0 : ℕ → ℕ → ℤ)
    (m0 : ℕ → Loc → α) (h0 : ∀ v ∈ A.members, c0 v B.word = 0) {sched : ℕ → Op} (hfair : Fair sched) :
    ∃ n, let s := (bcastMachine A B PE_root alg op).after (init c0 m0) sched n
      ∀ v ∈ A.members, s.pc v = (bcastBody A B PE_root alg v).length ∧ s.cell v B.word = 0 ∧
        (v ≠ A.pe PE_root → ∀ j < B.len, s.mem v (.sym (B.target + j)) = bcastData A B PE_root m0 j) := by
  have hend : ∃ n, ∀ v ∈ A.members,
      ((bcastMachine A B PE_root alg op).after (init c0 m0) sched n).pc v = (bcastBody A B PE_root alg v).length := by
    refine once_finishes (fun _ => rfl) (fun ops hrest v hv => ?_) hfair
    by_cases hcond : A.PE_size = 1 ∨ B.len = 0
    · rw [bcastBody_nil hcond]
      exact Nat.zero_le _
    push Not at hcond
    have h2 : 2 ≤ A.PE_size := by
      have := A.size_pos
      omega
    obtain ⟨S, hr, hnodes, hedge, hbody⟩ := exists_shape hroot h2 halg hcond.2
    have hpre : ∀ ins ∈ ([] : List Instr), ins.silent = true := fun ins h => absurd h (by simp)
    have E : Embed (bcastAfter [] A B PE_root alg op) S B _ := bcast_embed hpre hnodes hedge fun v hv => (hbody v hv).1
    obtain ⟨hh, hb, -⟩ : (bcastAfter [] A B PE_root alg op).Hist _ ∧ _ ∧ _ :=
      bcast_run hpre hnodes hedge (fun v hv => (hbody v hv).1) c0 m0 h0 ops
    have hthrough := hb.finished E hh hrest (fun w hw => ?_) (fun _ _ => Nat.zero_le _) v ((hnodes v).mp hv)
    · rw [(hbody v hv).1]
      exact (Nat.zero_add _).symm.trans_le hthrough
    · rw [(hbody w ((hnodes w).mpr hw)).1]
      simp
  obtain ⟨n, hn⟩ := hend
  refine ⟨n, fun v hv => ?_⟩
  have hok := bcast_ok A B hroot alg halg op c0 m0 h0 ((List.range n).map sched)
  rw [← after_eq_run] at hok
  exact ⟨hn v hv, hok.zero v hv (hn v hv), fun hne j hj => hok.received v hv hne (hn v hv) j hj⟩

theorem bcast_total_even : ∃ n,
    let s := (bcastMachine evenPes evenArgs 2 (.tree 2) (· + ·)).after (init (fun _ _ => 0) evenMem) cycle n
    ∀ v ∈ evenPes.members, s.pc v = (bcastBody evenPes evenArgs 2 (.tree 2) v).length ∧ s.cell v evenArgs.word = 0 ∧
      (v ≠ evenPes.pe 2 → ∀ j < evenArgs.len, s.mem v (.sym (evenArgs.target + j)) = bcastData evenPes evenArgs 2 evenMem j) :=
  bcast_total evenPes evenArgs (show 2 < 3 by decide) (.tree 2) (fun _ _ => evenPes_fits) (· + ·)
    (fun _ _ => 0) evenMem (fun _ _ => rfl) fair_cycle

end SandiaShmem.Collectives
