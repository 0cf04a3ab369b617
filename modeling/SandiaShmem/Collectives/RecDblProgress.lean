/-
No deadlock in the recursive-doubling reduction.

At rest a rank that is not at its end is at one of the two waits of a link, and the other rank of the link has not sent
what the wait is for (`behind`). Two ranks do not wait for each other in one exchange, since one of them answers first; so
all ranks get through the exchanges one after the other (`exchanged`), and the extra peers behind them.

- `recdbl_total`: under every fair schedule all members return, with the reduction in their target.
-/
import SandiaShmem.Collectives.Progress
import SandiaShmem.Collectives.RecDbl

namespace SandiaShmem.Collectives.RecDbl

open OneSided OneSided.Machine SandiaShmem.Collectives
open Runs (Fair)

section
variable {G : Args} (hv : G.Valid)
include hv

/-- the waits between the positions of exchange i are those of link i -/
theorem link_of_pos {r w i : ℕ} (hl : G.Link r w) (hr : r < G.pow2Proc)
    (hlo : G.base r + 7 * i ≤ G.waitPos r w) (hhi : G.firstPos r w < G.base r + 7 * (i + 1)) : w = i := by
  rcases hl.cases hv with ⟨hw, hx, -, -⟩ | ⟨-, hr', -⟩ | ⟨rfl, -, he, -⟩
  · simp only [Args.firstPos, Args.waitPos, if_neg hx] at hlo hhi
    split_ifs at hlo <;> omega
  · omega
  · have hb : G.base r = 4 := by rw [Args.base, if_pos he]
    simp only [Args.waitPos, if_true, if_neg (show ¬ G.pow2Proc ≤ r by omega)] at hlo
    omega

variable {α : Type*} {op : α → α → α} {s : St α} {goal : ℕ → ℕ} (hrest : (machine G op).Resting goal s)
include hrest

/-- a word that a rank has sent has arrived -/
theorem sent {p t : ℕ} {ins : Instr} (hp : p < G.A.PE_size) (hat : G.CodeAt p t ins) (hparts : ins.parts = 1)
    (hlt : t < s.pc (G.A.pe p)) : s.done (G.A.pe p) t 0 = true := by
  refine hrest.delivered _ _ _ hlt ?_
  rw [partsAt_eq _ (prog_of hv hp hat), hparts]
  exact Nat.one_pos

variable (hs : Sync G s) (hh : (machine G op).Hist s)
  (hgoal : ∀ r < G.A.PE_size, goal (G.A.pe r) = (G.opToAllRecdblSw (G.A.pe r)).length)
include hs hh hgoal

/-- who is not at its end waits for a rank that has not sent yet -/
theorem behind {r : ℕ} (hr : r < G.A.PE_size) (hlt : s.pc (G.A.pe r) < (G.opToAllRecdblSw (G.A.pe r)).length) :
    ∃ w, G.Link r w ∧
      ((G.partner r w < r ∧ s.pc (G.A.pe r) = G.firstPos r w ∧
          s.pc (G.A.pe (G.partner r w)) ≤ G.firstPos (G.partner r w) w) ∨
        (s.pc (G.A.pe r) = G.waitPos r w ∧ s.pc (G.A.pe (G.partner r w)) ≤ G.dataPos (G.partner r w) w + 3)) := by
  obtain ⟨ins, hget⟩ : ∃ ins, (G.opToAllRecdblSw (G.A.pe r))[s.pc (G.A.pe r)]? = some ins :=
    ⟨_, List.getElem?_eq_getElem hlt⟩
  have hat := Args.codeAt_of_getElem hv hr hget
  have hwait := hrest.waits (by rw [hgoal r hr]; exact hlt) (prog_of hv hr hat)
  generalize hpc : s.pc (G.A.pe r) = t at hat
  -- the word while the rank waits for it
  have hword : ∀ w, G.Link r w → t ≤ G.waitPos r w → s.cell (G.A.pe r) w = wordVal G s r w := by
    intro w hl hle
    have hst := Args.waitPos_lt_storePos hv hl w
    rw [hs.word r hr w (Link_lt_size hv hl), if_neg (by omega)]
  cases hat with
  | waitReady w hl hhigh =>
    rcases hwait with ⟨c, cmp, x, hx, hnot⟩ | ⟨c, x, hx, -⟩ | ⟨hx, -⟩
    · cases hx
      refine ⟨w, hl, .inl ⟨hhigh, rfl, ?_⟩⟩
      by_contra hpast
      have hlp := hl.partner hv
      have hback := Args.partner_partner hv hl
      have hlow : G.partner r w < G.partner (G.partner r w) w := by rwa [hback]
      have hfirst := sent hv hrest (hlp.lt hv) (.ready w hlp hlow) rfl (not_le.mp hpast)
      -- its second value comes only after this rank has seen the first
      have hnd : ¬ s.done (G.A.pe (G.partner r w)) (G.dataPos (G.partner r w) w + 3) 0 = true := by
        intro hd
        have hpos := (hh.doneIssued _ _ _ hd).1
        have hseen := (hs.seen hv hh hlp hlow (by omega)).1
        rw [hback] at hseen
        omega
      refine hnot ((hword w hl (Args.firstPos_lt_waitPos hv hl).le).trans ?_)
      rw [wordVal, if_pos hl, if_neg hnd, if_pos ⟨hhigh, hfirst⟩]
    · cases hx
    · cases hx
  | waitData w hl =>
    rcases hwait with ⟨c, cmp, x, hx, hnot⟩ | ⟨c, x, hx, -⟩ | ⟨hx, -⟩
    · cases hx
      refine ⟨w, hl, .inr ⟨rfl, ?_⟩⟩
      by_contra hpast
      have hlp := hl.partner hv
      have hack := sent hv hrest (hlp.lt hv) (.ack w hlp) rfl (not_le.mp hpast)
      refine hnot ((hword w hl le_rfl).trans ?_)
      rw [wordVal, if_pos hl, if_pos hack]
    · cases hx
    · cases hx
  | _ => rcases hwait with ⟨c, cmp, x, hx, -⟩ | ⟨c, x, hx, -⟩ | ⟨hx, -⟩ <;> cases hx

/-- nobody rests in the handshake with an extra peer that comes before the exchanges -/
theorem joined {r : ℕ} (hr : r < G.pow2Proc) : G.base r ≤ s.pc (G.A.pe r) := by
  have hle := Args.pow2Proc_le hv
  have hend : ∀ q, G.lastPos q < G.storePos q SHMEM_REDUCE_SYNC_SIZE ∨ G.pow2Proc ≤ q := by
    intro q
    unfold Args.storePos
    split_ifs with hq
    · exact .inr hq
    · exact .inl (by omega)
  have hbase : G.base r ≤ G.lastPos r := by
    unfold Args.lastPos
    omega
  by_contra hlt
  have hlen := Args.length_code hv (r := r)
  have hend := (hend r).resolve_right (by omega)
  obtain ⟨w, hl, hcase⟩ := behind hv hrest hs hh hgoal (r := r) (by omega) (by omega)
  rcases hl.cases hv with ⟨hw, hx, -, -⟩ | ⟨-, hr', -⟩ | ⟨rfl, -, he, hp⟩
  · simp only [Args.firstPos, Args.waitPos, if_neg hx] at hcase
    omega
  · omega
  · have hlp := hl.partner hv
    have hback := Args.partner_partner hv hl
    rw [hp] at hcase hlp hback
    have hextra : G.pow2Proc ≤ r + G.pow2Proc := Nat.le_add_left ..
    simp only [Args.firstPos, Args.waitPos, Args.dataPos, if_true, if_neg (not_le.mpr hr), if_pos hextra] at hcase
    -- the extra peer is not past its answer, and waits for nothing that is missing
    have hlen' := Args.length_code hv (r := r + G.pow2Proc)
    rw [Args.storePos, if_pos hextra] at hlen'
    obtain ⟨w', hl', hcase'⟩ := behind hv hrest hs hh hgoal (hlp.lt hv) (by omega)
    rcases hl'.cases hv with ⟨-, -, hr', -⟩ | ⟨rfl, -, -, hp'⟩ | ⟨-, hr', -⟩
    · omega
    · rw [hback] at hcase'
      simp only [Args.firstPos, Args.waitPos, Args.dataPos, if_true, if_neg (not_le.mpr hr), if_pos hextra] at hcase'
      omega
    · omega

/-- **One exchange after the other.** Nobody rests in an exchange that all have reached. -/
theorem exchanged {i : ℕ} (hi : i ≤ G.log2Proc) : ∀ r < G.pow2Proc, G.base r + 7 * i ≤ s.pc (G.A.pe r) := by
  have hle := Args.pow2Proc_le hv
  induction i with
  | zero => exact fun r hr => joined hv hrest hs hh hgoal hr
  | succ i ih =>
    have ih := ih (by omega)
    -- who rests in exchange i waits for its partner there
    have hthere : ∀ q < G.pow2Proc, s.pc (G.A.pe q) < G.base q + 7 * (i + 1) →
        (G.partner q i < q ∧ s.pc (G.A.pe q) = G.firstPos q i ∧
            s.pc (G.A.pe (G.partner q i)) ≤ G.firstPos (G.partner q i) i) ∨
          (s.pc (G.A.pe q) = G.waitPos q i ∧ s.pc (G.A.pe (G.partner q i)) ≤ G.dataPos (G.partner q i) i + 3) := by
      intro q hq hlt
      have hlo := ih q hq
      have hlen := Args.length_code hv (r := q)
      rw [Args.storePos, if_neg (by omega), Args.lastPos] at hlen
      obtain ⟨w, hl, hcase⟩ := behind hv hrest hs hh hgoal (r := q) (by omega) (by omega)
      have hord := Args.firstPos_lt_waitPos hv hl
      obtain rfl : w = i := link_of_pos hv hl hq (by omega) (by omega)
      exact hcase
    intro r hr
    by_contra hlt
    have hl : G.Link r i := .inl ⟨by omega, hr⟩
    have hlp := hl.partner hv
    have hback := Args.partner_partner hv hl
    have hx : i ≠ extraWord := by
      have := Args.log2Proc_lt hv
      omega
    have hp : G.partner r i < G.pow2Proc := by
      rw [Args.partner_of_lt hv (by omega)]
      exact Args.xor_lt hv (by omega) hr
    have hlo := ih _ hp
    have hcase := hthere r hr (by omega)
    have hlt' : s.pc (G.A.pe (G.partner r i)) < G.base (G.partner r i) + 7 * (i + 1) := by
      simp only [Args.firstPos, Args.dataPos, if_neg hx] at hcase
      split_ifs at hcase <;> omega
    have hcase' := hthere _ hp hlt'
    rw [hback] at hcase'
    -- the higher rank answers before it waits for the data of the lower
    rcases Nat.lt_or_gt_of_ne (Args.partner_ne hv hl) with hhigh | hlow
    · have h1 := Args.order_high hv hl hhigh
      have h2 := Args.order_low hv hlp (by rwa [hback])
      omega
    · have h1 := Args.order_low hv hl hlow
      have h2 := Args.order_high hv hlp (by rwa [hback])
      omega

/-- **All members are at their end.** -/
theorem finished {r : ℕ} (hr : r < G.A.PE_size) : (G.opToAllRecdblSw (G.A.pe r)).length ≤ s.pc (G.A.pe r) := by
  -- behind the exchanges nobody below pow2_proc waits
  have hlow : ∀ q < G.pow2Proc, (G.opToAllRecdblSw (G.A.pe q)).length ≤ s.pc (G.A.pe q) := by
    intro q hq
    have hle := Args.pow2Proc_le hv
    have hex := exchanged hv hrest hs hh hgoal le_rfl q hq
    by_contra hlt
    obtain ⟨w, hl, hcase⟩ := behind hv hrest hs hh hgoal (r := q) (by omega) (by omega)
    have hord := Args.firstPos_lt_waitPos hv hl
    rcases hl.cases hv with ⟨hw, hx, -, -⟩ | ⟨-, hr', -⟩ | ⟨rfl, -, he, -⟩
    · have hwait : G.waitPos q w < G.base q + 7 * G.log2Proc := by
        simp only [Args.waitPos, if_neg hx]
        split_ifs <;> omega
      omega
    · omega
    · have hbase : G.base q = 4 := by rw [Args.base, if_pos he]
      have hwait : G.waitPos q extraWord = 2 := by
        rw [Args.waitPos, if_pos rfl, if_neg (by omega)]
      omega
  rcases Nat.lt_or_ge r G.pow2Proc with hlt | hge
  · exact hlow r hlt
  by_contra hlt
  obtain ⟨w, hl, hcase⟩ := behind hv hrest hs hh hgoal hr (by omega)
  rcases hl.cases hv with ⟨-, -, hr', -⟩ | ⟨rfl, -, -, hp⟩ | ⟨-, hr', -⟩
  · omega
  · have hq : G.partner r extraWord < G.pow2Proc := by
      have := Args.lt_two_mul_pow2Proc hv
      omega
    have hend := hlow _ hq
    have hlq := hl.partner hv
    have hord := Args.firstPos_lt_waitPos hv hlq
    have hst := Args.waitPos_lt_storePos hv hlq SHMEM_REDUCE_SYNC_SIZE
    rw [Args.length_code hv] at hend
    have he := hlq.hasExtra hv hq
    have hstore : G.dataPos (G.partner r extraWord) extraWord + 4 ≤ G.storePos (G.partner r extraWord) SHMEM_REDUCE_SYNC_SIZE := by
      rw [Args.storePos, if_neg (by omega), Args.dataPos, if_pos rfl, if_neg (by omega), Args.lastPos, if_pos he]
      omega
    omega
  · omega

end

/-- local reductions are of the whole target -/
theorem countsKept {G : Args} (hv : G.Valid) (hint : G.count < 2 ^ 31) :
    CountsKept G.A.members G.opToAllRecdblSw := by
  intro v hmem inb outb len hins
  obtain ⟨r, hr, rfl⟩ := G.A.mem_members.mp hmem
  obtain ⟨t, ht⟩ := List.getElem?_of_mem hins
  have hat := Args.codeAt_of_getElem hv hr ht
  generalize hi : Instr.reduceLocal inb outb len = ins at hat
  cases hat with
  | reduce w hl hlow =>
    obtain ⟨-, -, rfl⟩ := Instr.reduceLocal.inj hi
    exact CInt.wrap_of_fits (by decide) ⟨by omega, by omega⟩
  | _ => cases hi

end SandiaShmem.Collectives.RecDbl
