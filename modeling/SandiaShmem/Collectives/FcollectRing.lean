/-
The ring collect.

A member copies its block into place and then sends to its right neighbour, PE_size - 1 times, the block it received in
the round before. The pSync word counts the rounds of the left neighbour. Since every add is behind a fence, the adds
arrive in order and the data of a round before its add; a fast left neighbour may be any number of rounds ahead.

- `Sync`: the pSync words count the adds that have arrived, and who is past a wait got the add it waited for.
- `ring_ok`: the collect in every state of a run.
-/
import SandiaShmem.Collectives.Fcollect

namespace SandiaShmem.Collectives.FcollectRing

open OneSided OneSided.Machine SandiaShmem.Collectives

/-! ## Model -/

variable (G : FcollectArgs)

/-- an iteration of the loop, i from 1 on -/
def round (my_pe i : ℕ) : List Instr :=
  let my_id := G.A.rank my_pe
  let next_proc := G.A.PE_start + (my_id + 1) % G.A.PE_size * G.A.PE_stride
  let iter_offset := (my_id + 1 + G.A.PE_size - i) % G.A.PE_size * G.len
  [.putNb (G.target + iter_offset) (.sym (G.target + iter_offset)) G.len next_proc, .putWait, .fence,
    .atomicAdd 0 1 next_proc, .waitUntil 0 .GE i]

/-- `shmem_internal_fcollect_ring` on the PE my_pe -/
def fcollectRing (my_pe : ℕ) : List Instr :=
  if G.len = 0 then []
  else
    .memcpy (.sym (G.target + G.A.rank my_pe * G.len)) (.sym G.source) G.len ::
      (((List.range (G.A.PE_size - 1)).flatMap fun k => round G my_pe (k + 1)) ++
        [.putScalar 0 0 my_pe, .waitUntil 0 .EQ 0])

/-! ## Positions -/

/-- the right neighbour of a rank -/
def right (r : ℕ) : ℕ := (r + 1) % G.A.PE_size

/-- the block rank r sends in round k, from 0 on -/
def sent (r k : ℕ) : ℕ := (r + G.A.PE_size - k) % G.A.PE_size

/-- where the word is cleared -/
def clearPos : ℕ := 1 + 5 * (G.A.PE_size - 1)

/-- what stands where in the program of rank r -/
inductive CodeAt (r : ℕ) : ℕ → Instr → Prop
  | copy : CodeAt r 0 (.memcpy (.sym (G.target + r * G.len)) (.sym G.source) G.len)
  | put (k : ℕ) (hk : k < G.A.PE_size - 1) : CodeAt r (1 + 5 * k)
      (.putNb (G.target + sent G r k * G.len) (.sym (G.target + sent G r k * G.len)) G.len (G.A.pe (right G r)))
  | putWait (k : ℕ) (hk : k < G.A.PE_size - 1) : CodeAt r (2 + 5 * k) .putWait
  | fence (k : ℕ) (hk : k < G.A.PE_size - 1) : CodeAt r (3 + 5 * k) .fence
  | add (k : ℕ) (hk : k < G.A.PE_size - 1) : CodeAt r (4 + 5 * k) (.atomicAdd 0 1 (G.A.pe (right G r)))
  | wait (k : ℕ) (hk : k < G.A.PE_size - 1) : CodeAt r (5 + 5 * k) (.waitUntil 0 .GE (k + 1 : ℕ))
  | zero : CodeAt r (clearPos G) (.putScalar 0 0 (G.A.pe r))
  | zeroed : CodeAt r (clearPos G + 1) (.waitUntil 0 .EQ 0)

theorem CodeAt.at_pos {G : FcollectArgs} {r t t' : ℕ} {ins : Instr} (h : CodeAt G r t ins) (heq : t = t') :
    CodeAt G r t' ins :=
  heq ▸ h

section
variable {G} (hlen : G.len ≠ 0)
include hlen

omit hlen in
theorem length_rounds (my_pe : ℕ) :
    ((List.range (G.A.PE_size - 1)).flatMap fun k => round G my_pe (k + 1)).length = 5 * (G.A.PE_size - 1) := by
  simp [List.length_flatMap, round, Nat.mul_comm]

theorem length_fcollectRing (my_pe : ℕ) : (fcollectRing G my_pe).length = clearPos G + 2 := by
  rw [fcollectRing, if_neg hlen, List.length_cons, List.length_append, length_rounds, clearPos]
  simp only [List.length_cons, List.length_nil]
  omega

/-- instruction b of round k -/
theorem getElem_round (r : ℕ) {k b : ℕ} (hk : k < G.A.PE_size - 1) (hb : b < 5) :
    (fcollectRing G (G.A.pe r))[1 + 5 * k + b]? =
      [Instr.putNb (G.target + sent G r k * G.len) (.sym (G.target + sent G r k * G.len)) G.len (G.A.pe (right G r)),
        .putWait, .fence, .atomicAdd 0 1 (G.A.pe (right G r)), .waitUntil 0 .GE (k + 1 : ℕ)][b]? := by
  have hround : round G (G.A.pe r) (k + 1) =
      [Instr.putNb (G.target + sent G r k * G.len) (.sym (G.target + sent G r k * G.len)) G.len (G.A.pe (right G r)),
        .putWait, .fence, .atomicAdd 0 1 (G.A.pe (right G r)), .waitUntil 0 .GE (k + 1 : ℕ)] := by
    have hsent : (r + 1 + G.A.PE_size - (k + 1)) % G.A.PE_size = sent G r k := by
      rw [sent]
      congr 1
      omega
    simp only [round, G.A.rank_pe, hsent]
    rfl
  have hrounds := length_rounds (G := G) (G.A.pe r)
  rw [fcollectRing, if_neg hlen, show 1 + 5 * k + b = 5 * k + b + 1 by omega, List.getElem?_cons_succ,
    List.getElem?_append_left (by omega), getElem?_flatMap_range (fun k => round G (G.A.pe r) (k + 1))
      (show 0 < 5 by decide) (fun _ => rfl), if_pos (by omega), show (5 * k + b) / 5 = k by omega, show (5 * k + b) % 5 = b by omega, hround]

/-- what stands behind the rounds -/
theorem getElem_behind (my_pe x : ℕ) : (fcollectRing G my_pe)[clearPos G + x]? =
    [Instr.putScalar 0 0 my_pe, .waitUntil 0 .EQ 0][x]? := by
  have hrounds := length_rounds (G := G) my_pe
  rw [fcollectRing, if_neg hlen, clearPos, show 1 + 5 * (G.A.PE_size - 1) + x = 5 * (G.A.PE_size - 1) + x + 1 by omega,
    List.getElem?_cons_succ, List.getElem?_append_right (by omega), hrounds, Nat.add_sub_cancel_left]

theorem CodeAt.getElem {r t : ℕ} {ins : Instr} (h : CodeAt G r t ins) : (fcollectRing G (G.A.pe r))[t]? = some ins := by
  cases h with
  | copy => rw [fcollectRing, if_neg hlen, G.A.rank_pe, List.getElem?_cons_zero]
  | put k hk => exact getElem_round hlen r (b := 0) hk (by decide)
  | putWait k hk =>
    rw [show 2 + 5 * k = 1 + 5 * k + 1 by omega]
    exact getElem_round hlen r hk (by decide)
  | fence k hk =>
    rw [show 3 + 5 * k = 1 + 5 * k + 2 by omega]
    exact getElem_round hlen r hk (by decide)
  | add k hk =>
    rw [show 4 + 5 * k = 1 + 5 * k + 3 by omega]
    exact getElem_round hlen r hk (by decide)
  | wait k hk =>
    rw [show 5 + 5 * k = 1 + 5 * k + 4 by omega]
    exact getElem_round hlen r hk (by decide)
  | zero => exact getElem_behind hlen (G.A.pe r) 0
  | zeroed => exact getElem_behind hlen (G.A.pe r) 1

/-- the program of a member, instruction by instruction -/
theorem codeAt_of_getElem {r t : ℕ} {ins : Instr} (h : (fcollectRing G (G.A.pe r))[t]? = some ins) :
    CodeAt G r t ins := by
  have ht : t < clearPos G + 2 := by
    have := (List.getElem?_eq_some_iff.mp h).1
    rwa [length_fcollectRing hlen] at this
  rcases Nat.eq_zero_or_pos t with rfl | hpos
  · have := Option.some.inj (h.symm.trans ((CodeAt.copy (G := G) (r := r)).getElem hlen))
    exact this ▸ .copy
  rcases Nat.lt_or_ge t (clearPos G) with hlt | hge
  · obtain ⟨k, b, hk, hb, rfl⟩ : ∃ k b, k < G.A.PE_size - 1 ∧ b < 5 ∧ t = 1 + 5 * k + b := by
      simp only [clearPos] at hlt
      exact ⟨(t - 1) / 5, (t - 1) % 5, by omega, by omega, by omega⟩
    rw [getElem_round hlen r hk hb] at h
    match b, hb, h with
    | 0, _, h => simp only [List.getElem?_cons_zero, Option.some.injEq] at h; subst h; exact .put k hk
    | 1, _, h => simp at h; subst h; exact .at_pos (.putWait k hk) (by omega)
    | 2, _, h => simp at h; subst h; exact .at_pos (.fence k hk) (by omega)
    | 3, _, h => simp at h; subst h; exact .at_pos (.add k hk) (by omega)
    | 4, _, h => simp only [List.getElem?_cons_succ, List.getElem?_cons_zero, Option.some.injEq] at h; subst h
                 exact .at_pos (.wait k hk) (by omega)
  · obtain ⟨x, rfl⟩ : ∃ x, t = clearPos G + x := ⟨t - clearPos G, by omega⟩
    rw [getElem_behind hlen] at h
    match x, h with
    | 0, h => simp at h; subst h; exact .zero
    | 1, h => simp at h; subst h; exact .zeroed
    | x + 2, h => simp at h

end

/-! ## Ranks and blocks -/

section
variable {G}

theorem right_lt (r : ℕ) : right G r < G.A.PE_size := Nat.mod_lt _ G.A.size_pos

theorem right_inj {l l' : ℕ} (h : l < G.A.PE_size) (h' : l' < G.A.PE_size) (heq : right G l = right G l') : l = l' :=
  G.A.next_inj h h' heq

theorem exists_left {r : ℕ} (h : r < G.A.PE_size) : ∃ l < G.A.PE_size, right G l = r :=
  G.A.exists_previous h

theorem sent_lt (r k : ℕ) : sent G r k < G.A.PE_size := Nat.mod_lt _ G.A.size_pos

theorem sent_zero {r : ℕ} (hr : r < G.A.PE_size) : sent G r 0 = r := by
  rw [sent, Nat.sub_zero, Nat.add_mod_right, Nat.mod_eq_of_lt hr]

/-- the block received in a round is the one sent in the next -/
theorem sent_right {l k : ℕ} (hl : l < G.A.PE_size) (hk : k + 1 < G.A.PE_size) :
    sent G (right G l) (k + 1) = sent G l k := by
  simp only [sent, right]
  by_cases h : l + 1 < G.A.PE_size
  · rw [Nat.mod_eq_of_lt h]
    congr 1
    omega
  · have hl' : l + 1 = G.A.PE_size := by omega
    rw [hl', Nat.mod_self, show l + G.A.PE_size - k = 0 + G.A.PE_size - (k + 1) + G.A.PE_size by omega,
      Nat.add_mod_right]

/-- every other block is received in some round -/
theorem exists_round {l b : ℕ} (hl : l < G.A.PE_size) (hb : b < G.A.PE_size) (hne : b ≠ right G l) :
    ∃ k < G.A.PE_size - 1, sent G l k = b := by
  rcases Nat.lt_or_ge l b with hlt | hge
  · refine ⟨l + G.A.PE_size - b, ?_, ?_⟩
    · by_contra hk
      refine hne ?_
      rw [right, Nat.mod_eq_of_lt (by omega)]
      omega
    · rw [sent, show l + G.A.PE_size - (l + G.A.PE_size - b) = b by omega, Nat.mod_eq_of_lt hb]
  · refine ⟨l - b, ?_, ?_⟩
    · by_contra hk
      refine hne ?_
      rw [right, show l + 1 = G.A.PE_size by omega, Nat.mod_self]
      omega
    · rw [sent, show l + G.A.PE_size - (l - b) = b + G.A.PE_size by omega, Nat.add_mod_right, Nat.mod_eq_of_lt hb]

end

/-! ## The pSync words -/

section
variable {G} {α : Type*}

theorem prog_of (hlen : G.len ≠ 0) {r t : ℕ} {ins : Instr} (hr : r < G.A.PE_size) (h : CodeAt G r t ins) :
    (G.machine (α := α) (fcollectRing G)).prog (G.A.pe r) t = some ins := by
  simp only [FcollectArgs.machine, once, if_pos (G.A.pe_mem hr)]
  exact h.getElem hlen

theorem prog_cases (hlen : G.len ≠ 0) {v t : ℕ} {ins : Instr}
    (h : (G.machine (α := α) (fcollectRing G)).prog v t = some ins) : ∃ r < G.A.PE_size, v = G.A.pe r ∧ CodeAt G r t ins := by
  simp only [FcollectArgs.machine, once] at h
  split_ifs at h with hv
  obtain ⟨r, hr, rfl⟩ := G.A.mem_members.mp hv
  exact ⟨r, hr, rfl, codeAt_of_getElem hlen h⟩

variable (G) in
/-- the word of the right neighbour of l -/
def ledger (l : ℕ) : Ledger :=
  ⟨G.A.pe (right G l), 0, (Finset.range (G.A.PE_size - 1)).image fun k => (G.A.pe l, 4 + 5 * k), fun _ => 1,
    some (G.A.pe (right G l), clearPos G)⟩

theorem ledger_of (hlen : G.len ≠ 0) {l : ℕ} (hl : l < G.A.PE_size) :
    (ledger G l).Of (G.machine (α := α) (fcollectRing G)) := by
  refine ⟨fun v i x hp => ?_, fun v i x hp => ?_, fun p hp => ?_, fun p hp => ?_, fun i x hp => ?_⟩
  · obtain ⟨r, hr, rfl, hat⟩ := prog_cases hlen hp
    generalize hpe : (ledger G l).pe = pe at hat
    cases hat with
    | add k hk =>
      obtain rfl : l = r := right_inj hl hr (G.A.pe_inj.mp hpe)
      exact ⟨Finset.mem_image_of_mem _ (Finset.mem_range.mpr hk), rfl⟩
  · obtain ⟨r, hr, rfl, hat⟩ := prog_cases hlen hp
    generalize hpe : (ledger G l).pe = pe at hat
    cases hat with
    | zero =>
      obtain rfl : right G l = r := G.A.pe_inj.mp hpe
      exact ⟨rfl, rfl⟩
  · obtain ⟨k, hk, rfl⟩ := Finset.mem_image.mp hp
    exact prog_of hlen hl (.add k (Finset.mem_range.mp hk))
  · obtain rfl := Option.some.inj hp
    exact prog_of hlen (right_lt l) .zero
  · obtain ⟨r, hr, -, hat⟩ := prog_cases hlen hp
    cases hat

variable (G) in
/-- words count adds, waits got what they waited for, other words are not used -/
structure Sync (s : St α) : Prop where
  words : ∀ l < G.A.PE_size, (ledger G l).Holds s
  waits : ∀ l < G.A.PE_size, ∀ k < G.A.PE_size - 1, 5 + 5 * k < s.pc (G.A.pe (right G l)) →
    s.done (G.A.pe l) (4 + 5 * k) 0 = true
  zeros : 2 ≤ G.A.PE_size → ∀ r < G.A.PE_size, clearPos G + 1 < s.pc (G.A.pe r) →
    s.done (G.A.pe r) (clearPos G) 0 = true
  others : ∀ r < G.A.PE_size, ∀ w, w ≠ 0 → s.cell (G.A.pe r) w = 0

variable {s : St α}

/-- what is fenced by the add of a round -/
theorem add_after (hlen : G.len ≠ 0) (hh : (G.machine (fcollectRing G)).Hist s) {l k : ℕ} (hl : l < G.A.PE_size)
    (hk : k < G.A.PE_size - 1) (h : s.done (G.A.pe l) (4 + 5 * k) 0 = true) {t j : ℕ} {ins : Instr}
    (hat : CodeAt G l t ins) (ht : t < 3 + 5 * k) (hdest : ins.dest = some (G.A.pe (right G l))) (hj : j < ins.parts) :
    s.done (G.A.pe l) t j = true := by
  have hp := prog_of (α := α) hlen hl hat
  refine hh.fenced _ _ _ h (3 + 5 * k) (by omega) (prog_of hlen hl (.fence k hk)) t ht ?_ j ?_
  · rw [destAt_eq _ hp, destAt_eq _ (prog_of hlen hl (.add k hk)), hdest]
    rfl
  · rw [partsAt_eq _ hp]
    exact hj

/-- the data of a round arrive before its add -/
theorem data_before_add (hlen : G.len ≠ 0) (hh : (G.machine (fcollectRing G)).Hist s) {l k : ℕ} (hl : l < G.A.PE_size)
    (hk : k < G.A.PE_size - 1) (h : s.done (G.A.pe l) (4 + 5 * k) 0 = true) {j : ℕ} (hj : j < G.len) :
    s.done (G.A.pe l) (1 + 5 * k) j = true :=
  add_after hlen hh hl hk h (.put k hk) (by omega) rfl hj

/-- the adds arrive in order -/
theorem adds_in_order (hlen : G.len ≠ 0) (hh : (G.machine (fcollectRing G)).Hist s) {l k k' : ℕ} (hl : l < G.A.PE_size)
    (hk' : k' < G.A.PE_size - 1) (hle : k ≤ k') (h : s.done (G.A.pe l) (4 + 5 * k') 0 = true) :
    s.done (G.A.pe l) (4 + 5 * k) 0 = true := by
  rcases Nat.eq_or_lt_of_le hle with rfl | hlt
  · exact h
  · exact add_after hlen hh hl hk' h (.add k (by omega)) (by omega) rfl Nat.one_pos

/-- a word that has been cleared had all its adds -/
theorem Sync.last (h : Sync G s) (hh : (G.machine (fcollectRing G)).Hist s) {l : ℕ} (hl : l < G.A.PE_size)
    (hc : (ledger G l).Cleared s) : ∀ p ∈ (ledger G l).adds, s.done p.1 p.2 0 = true := by
  intro p hp
  obtain ⟨k, hk, rfl⟩ := Finset.mem_image.mp hp
  obtain ⟨q, hq, hd⟩ := hc
  obtain rfl := Option.some.inj hq
  have hlt := (hh.doneIssued _ _ _ hd).1
  have hk := Finset.mem_range.mp hk
  refine h.waits l hl k hk ?_
  simp only [clearPos] at hlt
  omega

/-- a word that has not been cleared counts -/
theorem Sync.not_cleared (hh : (G.machine (fcollectRing G)).Hist s) {l : ℕ}
    (hpc : s.pc (G.A.pe (right G l)) ≤ clearPos G) : ¬ (ledger G l).Cleared s := by
  rintro ⟨p, hp, hd⟩
  obtain rfl := Option.some.inj hp
  exact absurd (hh.doneIssued _ _ _ hd).1 (Nat.not_lt.mpr hpc)

theorem Sync.pass_wait (hlen : G.len ≠ 0) (h : Sync G s) (hh : (G.machine (fcollectRing G)).Hist s) {l k : ℕ}
    (hl : l < G.A.PE_size) (hk : k < G.A.PE_size - 1) (hpc : s.pc (G.A.pe (right G l)) = 5 + 5 * k)
    (he : ((k + 1 : ℕ) : ℤ) ≤ s.cell (G.A.pe (right G l)) 0) : s.done (G.A.pe l) (4 + 5 * k) 0 = true := by
  have hcell := (h.words l hl).cell
  rw [if_neg (Sync.not_cleared hh (by simp only [clearPos]; omega))] at hcell
  have hsum : (k + 1 : ℤ) ≤ (ledger G l).sum s := by
    rw [← hcell]
    exact_mod_cast he
  obtain ⟨k', hk', hle, hd⟩ := Ledger.exists_ge rfl (fun _ _ => rfl) hsum
  exact adds_in_order hlen hh hl hk' hle hd

theorem Sync.pass_zero (h : Sync G s) (hn : 2 ≤ G.A.PE_size) {r : ℕ} (hr : r < G.A.PE_size)
    (hpc : s.pc (G.A.pe r) = clearPos G + 1) (he : s.cell (G.A.pe r) 0 = 0) :
    s.done (G.A.pe r) (clearPos G) 0 = true := by
  obtain ⟨l, hl, rfl⟩ := exists_left hr
  by_contra hnd
  have hcell := (h.words l hl).cell
  have hnot : ¬ (ledger G l).Cleared s := by
    rintro ⟨p, hp, hd⟩
    obtain rfl := Option.some.inj hp
    exact hnd hd
  rw [if_neg hnot] at hcell
  -- the add of round 0 is counted
  have hd := h.waits l hl 0 (by omega) (by rw [hpc]; simp only [clearPos]; omega)
  have hpos : (0 : ℤ) < (ledger G l).sum s := by
    refine Finset.sum_pos' (fun p _ => by split_ifs <;> simp [ledger]) ⟨(G.A.pe l, 4 + 5 * 0), ?_, ?_⟩
    · exact Finset.mem_image_of_mem _ (Finset.mem_range.mpr (by omega))
    · rw [if_pos hd]
      exact one_pos
  rw [← hcell] at hpos
  exact absurd he hpos.ne'

theorem Sync.exec (hlen : G.len ≠ 0) (h : Sync G s) (hh : (G.machine (fcollectRing G)).Hist s) {v : ℕ} {ins : Instr}
    (hp : (G.machine (α := α) (fcollectRing G)).prog v (s.pc v) = some ins)
    (he : (G.machine (fcollectRing G)).Enabled s v ins) :
    Sync G (advance ((G.machine (fcollectRing G)).effect s v ins) v) := by
  obtain ⟨r, hr, rfl, hat⟩ := prog_cases hlen hp
  have hinj : ∀ {ins'}, CodeAt G r (s.pc (G.A.pe r)) ins' → ins' = ins := fun hat' =>
    Option.some.inj ((prog_of hlen hr hat').symm.trans hp)
  have hcell : ((G.machine (fcollectRing G)).effect s (G.A.pe r) ins).cell = s.cell := by
    generalize s.pc (G.A.pe r) = t at hat
    cases hat <;> rfl
  refine ⟨fun l hl => (h.words l hl).exec (ledger_of hlen hl) hp, fun l hl k hk hlt => ?_, fun hn q hq hlt => ?_,
    fun q hq w hw => ?_⟩
  · rw [advance_done, effect_done]
    by_cases hrl : right G l = r
    · subst hrl
      rw [advance_pc_self, effect_pc] at hlt
      rcases Nat.lt_succ_iff_lt_or_eq.mp hlt with hlt | heq
      · exact h.waits l hl k hk hlt
      · obtain rfl := hinj (.at_pos (.wait k hk) heq)
        exact h.pass_wait hlen hh hl hk heq.symm he
    · rw [advance_pc_other _ (fun heq => hrl (G.A.pe_inj.mp heq)), effect_pc] at hlt
      exact h.waits l hl k hk hlt
  · rw [advance_done, effect_done]
    by_cases hqr : q = r
    · subst hqr
      rw [advance_pc_self, effect_pc] at hlt
      rcases Nat.lt_succ_iff_lt_or_eq.mp hlt with hlt | heq
      · exact h.zeros hn q hq hlt
      · obtain rfl := hinj (.at_pos .zeroed heq)
        exact h.pass_zero hn hq heq.symm he
    · rw [advance_pc_other _ (fun heq => hqr (G.A.pe_inj.mp heq)), effect_pc] at hlt
      exact h.zeros hn q hq hlt
  · rw [advance_cell, hcell]
    exact h.others q hq w hw

theorem Sync.deliver (hlen : G.len ≠ 0) (h : Sync G s) (hh : (G.machine (fcollectRing G)).Hist s) {v t j : ℕ}
    {ins : Instr} (hp : (G.machine (α := α) (fcollectRing G)).prog v t = some ins)
    (hd : (G.machine (fcollectRing G)).Deliverable s v t j) :
    Sync G (mark ((G.machine (fcollectRing G)).arrive s v t j ins) v t j) := by
  have hlat := (G.machine (fcollectRing G)).later_deliver s v t j ins
  refine ⟨fun l hl => (h.words l hl).deliver (ledger_of hlen hl) hp hd (h.last hh hl), fun l hl k hk hlt => ?_,
    fun hn q hq hlt => ?_, fun q hq w hw => ?_⟩
  · rw [mark_pc, arrive_pc] at hlt
    exact hlat.done _ _ _ (h.waits l hl k hk hlt)
  · rw [mark_pc, arrive_pc] at hlt
    exact hlat.done _ _ _ (h.zeros hn q hq hlt)
  · obtain ⟨r, -, -, hat⟩ := prog_cases hlen hp
    have hword : ins.word ≠ some w := by
      cases hat <;> simp [Instr.word, Ne.symm hw]
    rw [mark_cell, arrive_cell_other _ _ _ _ _ hword]
    exact h.others q hq w hw

/-! ## The target -/

variable {m0 : ℕ → Loc → α}

theorem fill (hlen : G.len ≠ 0) (hsep : G.Separate) (v t : ℕ) (ins : Instr)
    (hp : (G.machine (α := α) (fcollectRing G)).prog v t = some ins) : (G.region m0).Fill (m0 v) ins := by
  obtain ⟨r, hr, rfl, hat⟩ := prog_cases hlen hp
  cases hat with
  | copy => exact FcollectArgs.fill_copy hsep hr
  | put k hk => exact FcollectArgs.fill_pass (FcollectArgs.block_le (sent_lt r k)) _ _
  | _ => exact .idle _ rfl

/-- a member has its own block from the start -/
theorem own_written (hlen : G.len ≠ 0) {r : ℕ} (hr : r < G.A.PE_size) (hpc : 0 < s.pc (G.A.pe r)) {j : ℕ}
    (hj : j < G.len) : (G.region m0).Written (G.machine (fcollectRing G)) s (G.A.pe r) (r * G.len + j) :=
  .inl ⟨0, hpc, r * G.len, G.len, _, prog_of hlen hr .copy, by omega, by omega⟩

/-- who is past the wait of a round has the block of the round -/
theorem Sync.written (hlen : G.len ≠ 0) (h : Sync G s) (hh : (G.machine (fcollectRing G)).Hist s) {l k : ℕ}
    (hl : l < G.A.PE_size) (hk : k < G.A.PE_size - 1) (hpc : 5 + 5 * k < s.pc (G.A.pe (right G l))) {j : ℕ}
    (hj : j < G.len) :
    (G.region m0).Written (G.machine (fcollectRing G)) s (G.A.pe (right G l)) (sent G l k * G.len + j) :=
  .inr ⟨G.A.pe l, 1 + 5 * k, j, sent G l k * G.len, G.len, _, data_before_add hlen hh hl hk (h.waits l hl k hk hpc) hj,
    prog_of hlen hl (.put k hk), rfl⟩

/-- a block is not sent on before it has been received -/
theorem Sync.forwards (hlen : G.len ≠ 0) (h : Sync G s) (hh : (G.machine (fcollectRing G)).Hist s) {v t y n pe : ℕ}
    (hp : (G.machine (α := α) (fcollectRing G)).prog v t = some (.putNb (G.target + y) (.sym (G.target + y)) n pe))
    (ht : t < s.pc v) {j : ℕ} (hj : j < n) : (G.region m0).Written (G.machine (fcollectRing G)) s v (y + j) := by
  obtain ⟨r, hr, rfl, hat⟩ := prog_cases hlen hp
  generalize hdst : G.target + y = dst at hat
  cases hat with
  | put k hk =>
    obtain rfl : y = sent G r k * G.len := by omega
    cases k with
    | zero =>
      rw [sent_zero hr]
      exact own_written hlen hr (by omega) hj
    | succ k =>
      obtain ⟨l, hl, rfl⟩ := exists_left hr
      rw [sent_right hl (by omega)]
      exact h.written hlen hh hl (by omega) (by omega) hj

/-- who has returned has all blocks -/
theorem Sync.all_written (hlen : G.len ≠ 0) (h : Sync G s) (hh : (G.machine (fcollectRing G)).Hist s) {r : ℕ}
    (hr : r < G.A.PE_size) (hpc : s.pc (G.A.pe r) = clearPos G + 2) {x : ℕ} (hx : x < G.A.PE_size * G.len) :
    (G.region m0).Written (G.machine (fcollectRing G)) s (G.A.pe r) x := by
  have hj : x % G.len < G.len := Nat.mod_lt _ (by omega)
  have hb : x / G.len < G.A.PE_size := Nat.div_lt_of_lt_mul (by rwa [Nat.mul_comm] at hx)
  have hx : x = x / G.len * G.len + x % G.len := by rw [Nat.mul_comm, Nat.div_add_mod]
  rw [hx]
  by_cases hown : x / G.len = r
  · rw [hown]
    exact own_written hlen hr (by omega) hj
  · obtain ⟨l, hl, rfl⟩ := exists_left hr
    obtain ⟨k, hk, hsent⟩ := exists_round hl hb hown
    rw [← hsent]
    refine h.written hlen hh hl hk ?_ hj
    simp only [clearPos] at hpc
    omega

/-- the word of who has returned is zero -/
theorem Sync.word_returned (h : Sync G s) {r : ℕ} (hr : r < G.A.PE_size) (hpc : s.pc (G.A.pe r) = clearPos G + 2)
    (w : ℕ) : s.cell (G.A.pe r) w = 0 := by
  by_cases hw : w = 0
  · subst hw
    obtain ⟨l, hl, rfl⟩ := exists_left hr
    refine (h.words l hl).cell.trans ?_
    split_ifs with hc
    · rfl
    · rcases Nat.lt_or_ge G.A.PE_size 2 with hn | hn
      · -- nobody adds to the word of a single member
        have hempty : (ledger G l).adds = ∅ := by
          simp [ledger, show G.A.PE_size - 1 = 0 by omega]
        rw [Ledger.sum, hempty]
        rfl
      · exact absurd ⟨_, rfl, h.zeros hn _ hr (by omega)⟩ hc
  · exact h.others r hr w hw

theorem keeps (hlen : G.len ≠ 0) (hsep : G.Separate) : (G.machine (fcollectRing G)).Keeps fun s =>
    Sync G s ∧ (G.region m0).Filled (G.machine (fcollectRing G)) m0 s where
  exec s r ins hh h hp he := ⟨h.1.exec hlen hh hp he, h.2.exec (fill hlen hsep) hp⟩
  capture s r i j ins a hh h hp hpc hj hnone hsrc := by
    refine ⟨⟨fun l hl => (h.1.words l hl).capture r i j a, h.1.waits, h.1.zeros, h.1.others⟩, ?_⟩
    refine h.2.capture (fill hlen hsep) hp hj hsrc fun y n pe heq hlt => ?_
    exact h.1.forwards hlen hh (hp.trans (congrArg some heq)) hpc hlt
  deliver s r i j ins hh h hp hd := ⟨h.1.deliver hlen hh hp hd, h.2.deliver (fill hlen hsep) hp hd⟩

/-- **The ring collect.** -/
theorem ring_ok (hsep : G.Separate) (c0 : ℕ → ℕ → ℤ) (h0 : ∀ v ∈ G.A.members, ∀ w, c0 v w = 0) (ops : List Op) :
    FcollectOk G (fcollectRing G) m0 ((G.machine (fcollectRing G)).run (init c0 m0) ops) := by
  by_cases hlen : G.len = 0
  · exact FcollectArgs.ok_of_nil hlen (fun v => if_pos hlen) h0 ops
  · have hinit : Sync G (init c0 m0) := by
      refine ⟨fun l hl => Ledger.holds_init m0 (h0 _ (G.A.pe_mem (right_lt l)) 0), fun _ _ _ _ hlt => ?_,
        fun _ _ _ hlt => ?_, fun r hr w _ => h0 _ (G.A.pe_mem hr) w⟩
      · exact absurd hlt (Nat.not_lt_zero _)
      · exact absurd hlt (Nat.not_lt_zero _)
    have hfill : (G.region m0).Filled (G.machine (fcollectRing G)) m0 (init c0 m0) := Region.filled_init c0
    obtain ⟨hh, hsync, hfilled⟩ := (keeps hlen hsep).run (hist_init _ c0 m0) ⟨hinit, hfill⟩ ops
    refine FcollectArgs.ok hfilled (fill hlen hsep) ?_ ?_ ?_
    · intro v hv hpc x hx
      obtain ⟨r, hr, rfl⟩ := G.A.mem_members.mp hv
      rw [length_fcollectRing hlen] at hpc
      exact hsync.all_written hlen hh hr hpc hx
    · intro v t y n pe hp ht j hj
      exact hsync.forwards hlen hh hp ht hj
    · intro v hv hpc w
      obtain ⟨r, hr, rfl⟩ := G.A.mem_members.mp hv
      rw [length_fcollectRing hlen] at hpc
      exact hsync.word_returned hr hpc w

end

end SandiaShmem.Collectives.FcollectRing
