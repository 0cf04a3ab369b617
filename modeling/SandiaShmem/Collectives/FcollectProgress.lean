/-
No deadlock in the fixed-length collects.

In the linear algorithm only the first member waits, for adds that nobody has to wait for; the broadcast behind it ends as
all broadcasts do. In the ring and in recursive doubling all members have the same program, and who rests where all others
have been, too, has what it waits for.

- `fcollect_total`: under every fair schedule all members return, with the concatenation in their target.
-/
import SandiaShmem.Collectives.BcastProgress
import SandiaShmem.Collectives.FcollectSelect

namespace SandiaShmem.Collectives

open OneSided OneSided.Machine
open Runs (Fair)

/-! ## Linear -/

namespace FcollectLinear
variable {G : FcollectArgs} {α : Type*} {m0 : ℕ → Loc → α} {s : St α} {tail : ℕ → List Instr} {goal : ℕ → ℕ}

/-- the first part on its own -/
theorem sync_keeps (htail : ∀ r < G.A.PE_size, ∀ ins ∈ tail (G.A.pe r), ins.word ≠ some 0) :
    (G.machine (α := α) (body G tail)).Keeps (Sync G) where
  exec _ _ _ hh h hp he := h.exec htail hh hp he
  capture _ v i j _ a _ h _ _ _ _ _ :=
    ⟨h.word.capture v i j a, fun r hr h0 => (h.others r hr h0).capture v i j a, h.waited, h.zeroed⟩
  deliver _ _ _ _ _ hh h hp hd := h.deliver htail hh hp hd

/-- nobody rests in the first part -/
theorem gathered (h : Sync G s) (hh : (G.machine (body G tail)).Hist s)
    (hrest : (G.machine (body G tail)).Resting goal s) (hgoal : ∀ r < G.A.PE_size, off G r ≤ goal (G.A.pe r)) :
    ∀ r < G.A.PE_size, off G r ≤ s.pc (G.A.pe r) := by
  have hsent : ∀ {r t : ℕ} {ins : Instr}, r < G.A.PE_size → CodeAt G r t ins → ins.parts = 1 → t < s.pc (G.A.pe r) →
      s.done (G.A.pe r) t 0 = true := by
    intro r t ins hr hat hparts hlt
    refine hrest.delivered _ _ _ hlt ?_
    rw [partsAt_eq _ (prog_of hr hat), hparts]
    exact Nat.one_pos
  -- the waits are those of the first member
  have hwaits : ∀ r < G.A.PE_size, s.pc (G.A.pe r) < off G r → r = 0 ∧
      ((s.pc (G.A.pe 0) = (copy G).length + 1 ∧ s.cell (G.A.pe 0) 0 ≠ G.A.PE_size) ∨
        (s.pc (G.A.pe 0) = (copy G).length + 3 ∧ s.cell (G.A.pe 0) 0 ≠ 0)) := by
    intro r hr hlt
    obtain ⟨ins, hget⟩ : ∃ ins, (gather G (G.A.pe r))[s.pc (G.A.pe r)]? = some ins :=
      ⟨_, List.getElem?_eq_getElem (by rwa [length_gather])⟩
    have hat := codeAt_of_getElem hget
    have hwait := hrest.waits (lt_of_lt_of_le hlt (hgoal r hr)) (prog_of hr hat)
    generalize hpc : s.pc (G.A.pe r) = t at hat
    cases hat with
    | wait =>
      rcases hwait with ⟨c, cmp, x, hx, hnot⟩ | ⟨c, x, hx, -⟩ | ⟨hx, -⟩
      · cases hx
        exact ⟨rfl, .inl ⟨hpc, hnot⟩⟩
      · cases hx
      · cases hx
    | zeroed =>
      rcases hwait with ⟨c, cmp, x, hx, hnot⟩ | ⟨c, x, hx, -⟩ | ⟨hx, -⟩
      · cases hx
        exact ⟨rfl, .inr ⟨hpc, hnot⟩⟩
      · cases hx
      · cases hx
    | _ => rcases hwait with ⟨c, cmp, x, hx, -⟩ | ⟨c, x, hx, -⟩ | ⟨hx, -⟩ <;> cases hx
  intro r hr
  by_contra hlt
  obtain ⟨rfl, hcase⟩ := hwaits r hr (not_le.mp hlt)
  rcases hcase with ⟨hpc, hne⟩ | ⟨hpc, hne⟩
  · have hadds : ∀ p ∈ (ledger G).adds, s.done p.1 p.2 0 = true := by
      intro p hp
      obtain ⟨q, hq, rfl⟩ := Finset.mem_image.mp hp
      have hq := Finset.mem_range.mp hq
      refine hsent hq (.add q) rfl ?_
      by_cases h0 : q = 0
      · rw [h0, addPos, if_pos rfl, hpc]
        exact Nat.lt_succ_self _
      · have hle : off G q ≤ s.pc (G.A.pe q) := by
          by_contra hlt
          exact h0 (hwaits q hq (not_le.mp hlt)).1
        rw [off, if_neg h0] at hle
        rw [addPos, if_neg h0]
        omega
    have hnot : ¬ (ledger G).Cleared s := by
      rintro ⟨p, hp, hd⟩
      obtain rfl := Option.some.inj hp
      have : (copy G).length + 2 < s.pc (G.A.pe 0) := (hh.doneIssued _ _ _ hd).1
      omega
    refine hne (h.word.cell.trans ?_)
    rw [if_neg hnot, Ledger.sum_eq_card (fun _ _ => rfl) hadds, card_adds]
  · have hzero := hsent hr .zero rfl (by omega)
    exact hne (h.word.cell.trans (if_pos ⟨_, rfl, hzero⟩))

/-- in a state at rest everybody has returned -/
theorem linear_rest {alg : BcastAlg} (hsep : G.Separate) (halg : alg.Valid G.A (bcastArgs G).len 0)
    (c0 : ℕ → ℕ → ℤ) (h0 : ∀ v ∈ G.A.members, ∀ w, c0 v w = 0) (ops : List Op)
    (hrest : (G.machine (fcollectLinear G alg)).Resting (fun v => (fcollectLinear G alg v).length)
      ((G.machine (fcollectLinear G alg)).run (init c0 m0) ops)) :
    ∀ v ∈ G.A.members,
      (fcollectLinear G alg v).length ≤ ((G.machine (fcollectLinear G alg)).run (init c0 m0) ops).pc v := by
  have hlen : ∀ r, (fcollectLinear G alg (G.A.pe r)).length =
      off G r + (bcastBody G.A (bcastArgs G) 0 alg (G.A.pe r)).length := fun r => by
    rw [fcollectLinear, List.length_append, length_gather]
  have hgoal : ∀ r < G.A.PE_size, off G r ≤ (fcollectLinear G alg (G.A.pe r)).length := fun r _ => by
    rw [hlen]
    exact Nat.le_add_right _ _
  intro v hv
  obtain ⟨r, hr, rfl⟩ := G.A.mem_members.mp hv
  by_cases hcond : G.A.PE_size = 1 ∨ G.len = 0
  · have hbcast : G.A.PE_size = 1 ∨ (bcastArgs G).len = 0 := hcond.imp_right fun hl => by simp [bcastArgs, hl]
    have hnone : ∀ q < G.A.PE_size, ∀ ins ∈ bcastBody G.A (bcastArgs G) 0 alg (G.A.pe q), ins.word ≠ some 0 := by
      intro q _ ins hmem
      rw [bcastBody_nil hbcast] at hmem
      exact absurd hmem List.not_mem_nil
    obtain ⟨hh, h⟩ := (sync_keeps hnone).run (hist_init _ c0 m0) (sync_init h0) ops
    rw [hlen, bcastBody_nil hbcast]
    exact gathered h hh hrest hgoal r hr
  push Not at hcond
  have hsize := G.A.size_pos
  have hblen : (bcastArgs G).len ≠ 0 := Nat.mul_ne_zero hcond.2 (by omega)
  obtain ⟨S, hroot, hnodes, hedge, hshape⟩ := exists_shape (show 0 < G.A.PE_size by omega) (by omega) halg hblen
  have hbody : ∀ v ∈ G.A.members, bcastBody G.A (bcastArgs G) 0 alg v = S.node (bcastArgs G) v :=
    fun v hv => (hshape v hv).1
  have hidle : BInv S (bcastArgs G) (start G) (G.block m0) (init c0 m0) :=
    BInv.idle (hist_init (G.machine (body G (bcastBody G.A (bcastArgs G) 0 alg))) c0 m0) (fun v _ => Nat.zero_le _)
      fun v hv => h0 v ((hnodes v).mpr hv) 1
  obtain ⟨hh, h, -, hb⟩ := (keeps hnodes hedge hbody hsep hroot).run (hist_init _ c0 m0)
    ⟨sync_init h0, Region.filled_init c0, hidle⟩ ops
  have hgathered := gathered h hh hrest hgoal
  have hend := hb.finished (embed hnodes hedge hbody) hh hrest (fun u hu => ?_) (fun u hu => ?_) _ ((hnodes _).mp hv)
  · rw [hlen, hbody _ hv]
    rwa [start_pe] at hend
  · obtain ⟨q, hq, rfl⟩ := G.A.mem_members.mp ((hnodes u).mpr hu)
    rw [hlen, hbody _ (G.A.pe_mem hq), start_pe]
  · obtain ⟨q, hq, rfl⟩ := G.A.mem_members.mp ((hnodes u).mpr hu)
    rw [start_pe]
    exact hgathered q hq

end FcollectLinear

/-! ## Ring -/

namespace FcollectRing
variable {G : FcollectArgs} {α : Type*} {m0 : ℕ → Loc → α} {s : St α} {goal : ℕ → ℕ}

/-- nobody is the last -/
theorem not_last (hlen : G.len ≠ 0) (h : Sync G s) (hh : (G.machine (fcollectRing G)).Hist s)
    (hrest : (G.machine (fcollectRing G)).Resting goal s) (hgoal : ∀ r < G.A.PE_size, goal (G.A.pe r) = clearPos G + 2)
    {t : ℕ} (ht : t < clearPos G + 2) (hall : ∀ r < G.A.PE_size, t ≤ s.pc (G.A.pe r)) {r : ℕ} (hr : r < G.A.PE_size) :
    s.pc (G.A.pe r) ≠ t := by
  intro hpc
  obtain ⟨l, hl, rfl⟩ := exists_left hr
  have hsent : ∀ {q t : ℕ} {ins : Instr}, q < G.A.PE_size → CodeAt G q t ins → ins.parts = 1 → t < s.pc (G.A.pe q) →
      s.done (G.A.pe q) t 0 = true := by
    intro q t ins hq hat hparts hlt
    refine hrest.delivered _ _ _ hlt ?_
    rw [partsAt_eq _ (prog_of hlen hq hat), hparts]
    exact Nat.one_pos
  obtain ⟨ins, hget⟩ : ∃ ins, (fcollectRing G (G.A.pe (right G l)))[t]? = some ins :=
    ⟨_, List.getElem?_eq_getElem (by rwa [length_fcollectRing hlen])⟩
  have hat := codeAt_of_getElem hlen hget
  have hprog := prog_of (α := α) hlen hr hat
  rw [← hpc] at hprog
  have hwait := hrest.waits (by rw [hgoal _ hr]; omega) hprog
  have hleft := hall l hl
  cases hat with
  | wait k hk =>
    rcases hwait with ⟨c, cmp, x, hx, hnot⟩ | ⟨c, x, hx, -⟩ | ⟨hx, -⟩
    · cases hx
      refine hnot ?_
      -- the adds up to this round have arrived
      have hsub : (Finset.range (k + 1)).image (fun k => (G.A.pe l, 4 + 5 * k)) ⊆ (ledger G l).adds :=
        Finset.image_subset_image (Finset.range_subset_range.mpr (by omega))
      have hcard : ((Finset.range (k + 1)).image fun k => (G.A.pe l, 4 + 5 * k)).card = k + 1 := by
        rw [Finset.card_image_of_injective, Finset.card_range]
        intro a b hab
        have heq : 4 + 5 * a = 4 + 5 * b := (Prod.ext_iff.mp hab).2
        omega
      have hsum := Ledger.card_le_sum (s := s) (fun _ _ => rfl) hsub fun p hp => by
        obtain ⟨k', hk', rfl⟩ := Finset.mem_image.mp hp
        have := Finset.mem_range.mp hk'
        exact hsent hl (.add k' (by omega)) rfl (by omega)
      have hcell : s.cell (G.A.pe (right G l)) 0 = _ := (h.words l hl).cell
      have hbefore : s.pc (G.A.pe (right G l)) ≤ clearPos G := by
        rw [hpc, clearPos]
        omega
      rw [if_neg (Sync.not_cleared hh hbefore)] at hcell
      rw [hcard, ← hcell] at hsum
      exact hsum
    · cases hx
    · cases hx
  | zeroed =>
    rcases hwait with ⟨c, cmp, x, hx, hnot⟩ | ⟨c, x, hx, -⟩ | ⟨hx, -⟩
    · cases hx
      have hzero := hsent hr .zero rfl (by omega)
      exact hnot ((h.words l hl).cell.trans (if_pos ⟨_, rfl, hzero⟩))
    · cases hx
    · cases hx
  | _ => rcases hwait with ⟨c, cmp, x, hx, -⟩ | ⟨c, x, hx, -⟩ | ⟨hx, -⟩ <;> cases hx

/-- in a state at rest everybody has returned -/
theorem ring_rest (hsep : G.Separate) (c0 : ℕ → ℕ → ℤ) (h0 : ∀ v ∈ G.A.members, ∀ w, c0 v w = 0) (ops : List Op)
    (hrest : (G.machine (fcollectRing G)).Resting (fun v => (fcollectRing G v).length)
      ((G.machine (fcollectRing G)).run (init c0 m0) ops)) :
    ∀ v ∈ G.A.members, (fcollectRing G v).length ≤ ((G.machine (fcollectRing G)).run (init c0 m0) ops).pc v := by
  intro v hv
  by_cases hlen : G.len = 0
  · rw [fcollectRing, if_pos hlen]
    exact Nat.zero_le _
  have hinit : Sync G (init c0 m0) := by
    refine ⟨fun l hl => Ledger.holds_init m0 (h0 _ (G.A.pe_mem (right_lt l)) 0), fun _ _ _ _ hlt => ?_,
      fun _ _ _ hlt => ?_, fun r hr w _ => h0 _ (G.A.pe_mem hr) w⟩
    · exact absurd hlt (Nat.not_lt_zero _)
    · exact absurd hlt (Nat.not_lt_zero _)
  obtain ⟨hh, h, -⟩ := (keeps hlen hsep).run (hist_init _ c0 m0) ⟨hinit, Region.filled_init c0⟩ ops
  rw [length_fcollectRing hlen]
  refine all_through (fun t ht hall w hw => ?_) v hv
  obtain ⟨r, hr, rfl⟩ := G.A.mem_members.mp hw
  exact not_last hlen h hh hrest (fun q _ => length_fcollectRing hlen _) ht (fun q hq => hall _ (G.A.pe_mem hq)) hr

end FcollectRing

/-! ## Recursive doubling -/

namespace FcollectRecdbl
variable {G : FcollectArgs} {α : Type*} {m0 : ℕ → Loc → α} {s : St α} {goal : ℕ → ℕ} {m : ℕ}

/-- nobody is the last -/
theorem not_last (hm : G.A.PE_size = 2 ^ m) (hlen : G.len ≠ 0) (h : Sync G m s)
    (hh : (G.machine (fcollectRecdbl G)).Hist s) (hrest : (G.machine (fcollectRecdbl G)).Resting goal s)
    (hgoal : ∀ r < G.A.PE_size, goal (G.A.pe r) = 2 + 6 * m) {t : ℕ} (ht : t < 2 + 6 * m)
    (hall : ∀ r < G.A.PE_size, t ≤ s.pc (G.A.pe r)) {r : ℕ} (hr : r < G.A.PE_size) : s.pc (G.A.pe r) ≠ t := by
  intro hpc
  obtain ⟨ins, hget⟩ : ∃ ins, (fcollectRecdbl G (G.A.pe r))[t]? = some ins :=
    ⟨_, List.getElem?_eq_getElem (by rwa [length_fcollectRecdbl hm hlen])⟩
  have hat := codeAt_of_getElem hm hlen hget
  have hprog := prog_of (α := α) hm hlen hr hat
  rw [← hpc] at hprog
  have hwait := hrest.waits (by rw [hgoal _ hr]; omega) hprog
  cases hat with
  | wait i hi =>
    rcases hwait with ⟨c, cmp, x, hx, hnot⟩ | ⟨c, x, hx, -⟩ | ⟨hx, -⟩
    · cases hx
      have hp := peer_lt hm hr hi
      have hpast := hall _ hp
      have hadd : s.done (G.A.pe (peer r i)) (4 + 6 * i) 0 = true := by
        refine hrest.delivered _ _ _ (by omega) ?_
        rw [partsAt_eq _ (prog_of hm hlen hp (.add i hi))]
        exact Nat.one_pos
      have hsub : ¬ s.done (G.A.pe r) (6 + 6 * i) 0 = true := by
        intro hd
        have := (hh.doneIssued _ _ _ hd).1
        omega
      refine hnot ?_
      show s.cell _ _ ≠ 0
      rw [h.word hr hi, if_pos hadd, if_neg hsub]
      decide
    · cases hx
    · cases hx
  | _ => rcases hwait with ⟨c, cmp, x, hx, -⟩ | ⟨c, x, hx, -⟩ | ⟨hx, -⟩ <;> cases hx

/-- in a state at rest everybody has returned -/
theorem recdbl_rest (hm : G.A.PE_size = 2 ^ m) (hsep : G.Separate) (c0 : ℕ → ℕ → ℤ)
    (h0 : ∀ v ∈ G.A.members, ∀ w, c0 v w = 0) (ops : List Op)
    (hrest : (G.machine (fcollectRecdbl G)).Resting (fun v => (fcollectRecdbl G v).length)
      ((G.machine (fcollectRecdbl G)).run (init c0 m0) ops)) :
    ∀ v ∈ G.A.members, (fcollectRecdbl G v).length ≤ ((G.machine (fcollectRecdbl G)).run (init c0 m0) ops).pc v := by
  intro v hv
  by_cases hlen : G.len = 0
  · rw [fcollectRecdbl, if_pos hlen]
    exact Nat.zero_le _
  have hinit : Sync G m (init c0 m0) := by
    refine ⟨fun r hr i _ => Ledger.holds_init m0 (h0 _ (G.A.pe_mem hr) i), fun _ _ _ _ hlt => ?_,
      fun r hr w _ => h0 _ (G.A.pe_mem hr) w⟩
    exact absurd hlt (Nat.not_lt_zero _)
  obtain ⟨hh, h, -⟩ := (keeps hm hlen hsep).run (hist_init _ c0 m0) ⟨hinit, Region.filled_init c0⟩ ops
  obtain ⟨r, hr, rfl⟩ := G.A.mem_members.mp hv
  rw [length_fcollectRecdbl hm hlen]
  refine all_through (fun t ht hall w hw => ?_) _ hv
  obtain ⟨q, hq, rfl⟩ := G.A.mem_members.mp hw
  exact not_last hm hlen h hh hrest (fun _ _ => length_fcollectRecdbl hm hlen _) ht
    (fun p hp => hall _ (G.A.pe_mem hp)) hq

end FcollectRecdbl

end SandiaShmem.Collectives
