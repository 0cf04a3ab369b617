/-
The recursive doubling collect, for PE_size a power of two.

In round i a member exchanges with the member whose rank differs in bit i. Each sends all it has: the blocks of the ranks
that agree with its own from bit i on, which lie side by side from curr_offset. Every round has a word of its own, to
which the peer adds 1 and from which the member takes 1 off again; the quiet at the end waits for the subtractions. A
member of the next round may send its blocks any time, but these are none of the blocks of this round.

- `fcollectRecdbl_eq`: the loop, with curr_offset as a function of the round.
- `Sync`: the words, and who is past a wait got the add it waited for.
- `recdbl_ok`: the collect in every state of a run.
-/
import SandiaShmem.Core.Reduction
import SandiaShmem.Collectives.Fcollect

namespace SandiaShmem.Collectives.FcollectRecdbl

open OneSided OneSided.Machine SandiaShmem.Collectives

/-! ## Model -/

variable (G : FcollectArgs)

/-- an iteration of the loop -/
def round (my_pe i distance curr_offset : ℕ) : List Instr :=
  let peer := G.A.rank my_pe ^^^ distance
  let real_peer := G.A.PE_start + peer * G.A.PE_stride
  [.putNb (G.target + curr_offset) (.sym (G.target + curr_offset)) (distance * G.len) real_peer, .putWait, .fence,
    .atomicAdd i 1 real_peer, .waitUntil i .NE 0, .atomicAdd i (-1) my_pe]

/-- the loop: `for (i = 0, distance = 0x1 ; distance < PE_size ; i++, distance <<= 1)` -/
def fcollectRecdblLoop (my_pe : ℕ) : ℕ → ℕ → ℕ → ℕ → List Instr
  | 0, _, _, _ => []
  | fuel + 1, i, distance, curr_offset =>
    if distance < G.A.PE_size then
      round G my_pe i distance curr_offset ++ fcollectRecdblLoop my_pe fuel (i + 1) (distance * 2)
        (if G.A.rank my_pe > G.A.rank my_pe ^^^ distance then curr_offset - distance * G.len else curr_offset)
    else []

/-- `shmem_internal_fcollect_recdbl` on the PE my_pe; PE_size turns of the loop are more than enough -/
def fcollectRecdbl (my_pe : ℕ) : List Instr :=
  if G.len = 0 then []
  else
    .memcpy (.sym (G.target + G.A.rank my_pe * G.len)) (.sym G.source) G.len ::
      (fcollectRecdblLoop G my_pe G.A.PE_size 0 1 (G.A.rank my_pe * G.len) ++ [.quiet])

/-! ## Windows -/

/-- the first block of rank r in round i -/
def first (r i : ℕ) : ℕ := r / 2 ^ i * 2 ^ i

theorem xor_one_cases (q : ℕ) : (q % 2 = 1 ∧ q ^^^ 1 = q - 1) ∨ (q % 2 = 0 ∧ q ^^^ 1 = q + 1) := by
  have hdiv : (q ^^^ 1) / 2 = q / 2 := by
    rw [Nat.xor_div_two]
    simp
  have hmod : (q ^^^ 1) % 2 = (q + 1) % 2 := Nat.xor_mod_two_eq
  omega

/-- the first block of the next round: the peer's if the peer has the lower rank -/
theorem first_succ (r i : ℕ) : first r (i + 1) = if r > r ^^^ 2 ^ i then first r i - 2 ^ i else first r i := by
  have hpos : 0 < 2 ^ i := by positivity
  have hdiv := Reduction.xor_two_pow_div r i
  have hmod : (r ^^^ 2 ^ i) % 2 ^ i = r % 2 ^ i := by
    rw [Nat.xor_mod_two_pow, Nat.mod_self, Nat.xor_zero]
  have hr := Nat.div_add_mod r (2 ^ i)
  have hp := Nat.div_add_mod (r ^^^ 2 ^ i) (2 ^ i)
  rw [hdiv, hmod] at hp
  have hhalf : r / 2 ^ (i + 1) = r / 2 ^ i / 2 := by rw [Nat.pow_succ, Nat.div_div_eq_div_mul]
  simp only [first, hhalf]
  generalize r / 2 ^ i = q at *
  have hq2 : q / 2 * 2 ^ (i + 1) = q / 2 * 2 * 2 ^ i := by rw [Nat.pow_succ]; ring
  rw [hq2]
  rcases xor_one_cases q with ⟨hodd, hx⟩ | ⟨heven, hx⟩
  · obtain ⟨h, rfl⟩ : ∃ h, q = 2 * h + 1 := ⟨q / 2, by omega⟩
    rw [hx, Nat.add_sub_cancel] at hp
    have hlt : r > r ^^^ 2 ^ i := by
      rw [← hp]
      nth_rewrite 1 [← hr]
      rw [Nat.mul_add, Nat.mul_one]
      omega
    rw [if_pos hlt, show (2 * h + 1) / 2 = h by omega, Nat.add_mul, Nat.one_mul, Nat.add_sub_cancel, Nat.mul_comm h 2]
  · obtain ⟨h, rfl⟩ : ∃ h, q = 2 * h := ⟨q / 2, by omega⟩
    rw [hx] at hp
    have hge : ¬ r > r ^^^ 2 ^ i := by
      rw [← hp]
      nth_rewrite 1 [← hr]
      rw [Nat.mul_add, Nat.mul_one]
      omega
    rw [if_neg hge, show 2 * h / 2 = h by omega, Nat.mul_comm h 2]

/-! ## Positions -/

section
variable {G} {m : ℕ} (hm : G.A.PE_size = 2 ^ m)
include hm

theorem fcollectRecdblLoop_eq (r fuel i : ℕ) (hf : m ≤ i + fuel) :
    fcollectRecdblLoop G (G.A.pe r) fuel i (2 ^ i) (first r i * G.len) =
      (List.range' i (m - i)).flatMap fun i => round G (G.A.pe r) i (2 ^ i) (first r i * G.len) := by
  induction fuel generalizing i with
  | zero =>
    rw [show m - i = 0 by omega]
    rfl
  | succ fuel ih =>
    have hiff : 2 ^ i < G.A.PE_size ↔ i < m := by
      rw [hm]
      exact Nat.pow_lt_pow_iff_right (by decide)
    simp only [fcollectRecdblLoop, G.A.rank_pe]
    by_cases hi : i < m
    · have hnext : (if r > r ^^^ 2 ^ i then first r i * G.len - 2 ^ i * G.len else first r i * G.len) =
          first r (i + 1) * G.len := by
        rw [first_succ]
        split_ifs
        · rw [Nat.sub_mul]
        · rfl
      rw [if_pos (hiff.mpr hi), hnext, ← Nat.pow_succ, ih (i + 1) (by omega),
        show m - i = (m - (i + 1)) + 1 by omega, List.range'_succ, List.flatMap_cons]
    · rw [if_neg (fun h => hi (hiff.mp h)), show m - i = 0 by omega]
      rfl

theorem fcollectRecdbl_eq (hlen : G.len ≠ 0) (r : ℕ) : fcollectRecdbl G (G.A.pe r) =
    .memcpy (.sym (G.target + r * G.len)) (.sym G.source) G.len ::
      (((List.range m).flatMap fun i => round G (G.A.pe r) i (2 ^ i) (first r i * G.len)) ++ [.quiet]) := by
  have hle : m ≤ 0 + G.A.PE_size := by
    rw [hm, Nat.zero_add]
    exact Nat.lt_two_pow_self.le
  have hloop := fcollectRecdblLoop_eq hm r G.A.PE_size 0 hle
  rw [pow_zero, Nat.sub_zero, ← List.range_eq_range', first, pow_zero, Nat.div_one, Nat.mul_one] at hloop
  rw [fcollectRecdbl, if_neg hlen, G.A.rank_pe, hloop]

end

/-- the rank that rank r exchanges with in round i -/
def peer (r i : ℕ) : ℕ := r ^^^ 2 ^ i

/-- what stands where in the program of rank r, with m rounds -/
inductive CodeAt (m r : ℕ) : ℕ → Instr → Prop
  | copy : CodeAt m r 0 (.memcpy (.sym (G.target + r * G.len)) (.sym G.source) G.len)
  | put (i : ℕ) (hi : i < m) : CodeAt m r (1 + 6 * i)
      (.putNb (G.target + first r i * G.len) (.sym (G.target + first r i * G.len)) (2 ^ i * G.len) (G.A.pe (peer r i)))
  | putWait (i : ℕ) (hi : i < m) : CodeAt m r (2 + 6 * i) .putWait
  | fence (i : ℕ) (hi : i < m) : CodeAt m r (3 + 6 * i) .fence
  | add (i : ℕ) (hi : i < m) : CodeAt m r (4 + 6 * i) (.atomicAdd i 1 (G.A.pe (peer r i)))
  | wait (i : ℕ) (hi : i < m) : CodeAt m r (5 + 6 * i) (.waitUntil i .NE 0)
  | sub (i : ℕ) (hi : i < m) : CodeAt m r (6 + 6 * i) (.atomicAdd i (-1) (G.A.pe r))
  | quiet : CodeAt m r (1 + 6 * m) .quiet

variable {G}

theorem CodeAt.at_pos {m r t t' : ℕ} {ins : Instr} (h : CodeAt G m r t ins) (heq : t = t') : CodeAt G m r t' ins :=
  heq ▸ h

theorem length_rounds (m r : ℕ) :
    ((List.range m).flatMap fun i => round G (G.A.pe r) i (2 ^ i) (first r i * G.len)).length = 6 * m := by
  simp [List.length_flatMap, round, Nat.mul_comm]

section
variable {m : ℕ} (hm : G.A.PE_size = 2 ^ m) (hlen : G.len ≠ 0)
include hm hlen

theorem length_fcollectRecdbl (r : ℕ) : (fcollectRecdbl G (G.A.pe r)).length = 2 + 6 * m := by
  rw [fcollectRecdbl_eq hm hlen, List.length_cons, List.length_append, length_rounds, List.length_singleton]
  omega

/-- instruction b of round i -/
theorem getElem_round (r : ℕ) {i b : ℕ} (hi : i < m) (hb : b < 6) :
    (fcollectRecdbl G (G.A.pe r))[1 + 6 * i + b]? =
      [Instr.putNb (G.target + first r i * G.len) (.sym (G.target + first r i * G.len)) (2 ^ i * G.len)
        (G.A.pe (peer r i)), .putWait, .fence, .atomicAdd i 1 (G.A.pe (peer r i)), .waitUntil i .NE 0,
        .atomicAdd i (-1) (G.A.pe r)][b]? := by
  have hround : round G (G.A.pe r) i (2 ^ i) (first r i * G.len) =
      [Instr.putNb (G.target + first r i * G.len) (.sym (G.target + first r i * G.len)) (2 ^ i * G.len)
        (G.A.pe (peer r i)), .putWait, .fence, .atomicAdd i 1 (G.A.pe (peer r i)), .waitUntil i .NE 0,
        .atomicAdd i (-1) (G.A.pe r)] := by
    simp only [round, G.A.rank_pe]
    rfl
  have hrounds := length_rounds (G := G) m r
  rw [fcollectRecdbl_eq hm hlen, show 1 + 6 * i + b = 6 * i + b + 1 by omega, List.getElem?_cons_succ,
    List.getElem?_append_left (by omega),
    getElem?_flatMap_range (fun i => round G (G.A.pe r) i (2 ^ i) (first r i * G.len)) (show 0 < 6 by decide)
      (fun _ => rfl), if_pos (by omega), show (6 * i + b) / 6 = i by omega, show (6 * i + b) % 6 = b by omega, hround]

theorem getElem_quiet (r : ℕ) : (fcollectRecdbl G (G.A.pe r))[1 + 6 * m]? = some .quiet := by
  have hrounds := length_rounds (G := G) m r
  rw [fcollectRecdbl_eq hm hlen, show 1 + 6 * m = 6 * m + 1 by omega, List.getElem?_cons_succ,
    List.getElem?_append_right (by omega), hrounds, Nat.sub_self]
  rfl

theorem CodeAt.getElem {r t : ℕ} {ins : Instr} (h : CodeAt G m r t ins) :
    (fcollectRecdbl G (G.A.pe r))[t]? = some ins := by
  cases h with
  | copy => rw [fcollectRecdbl_eq hm hlen, List.getElem?_cons_zero]
  | put i hi => exact getElem_round hm hlen r (b := 0) hi (by decide)
  | putWait i hi =>
    rw [show 2 + 6 * i = 1 + 6 * i + 1 by omega]
    exact getElem_round hm hlen r hi (by decide)
  | fence i hi =>
    rw [show 3 + 6 * i = 1 + 6 * i + 2 by omega]
    exact getElem_round hm hlen r hi (by decide)
  | add i hi =>
    rw [show 4 + 6 * i = 1 + 6 * i + 3 by omega]
    exact getElem_round hm hlen r hi (by decide)
  | wait i hi =>
    rw [show 5 + 6 * i = 1 + 6 * i + 4 by omega]
    exact getElem_round hm hlen r hi (by decide)
  | sub i hi =>
    rw [show 6 + 6 * i = 1 + 6 * i + 5 by omega]
    exact getElem_round hm hlen r hi (by decide)
  | quiet => exact getElem_quiet hm hlen r

/-- the program of a member, instruction by instruction -/
theorem codeAt_of_getElem {r t : ℕ} {ins : Instr} (h : (fcollectRecdbl G (G.A.pe r))[t]? = some ins) :
    CodeAt G m r t ins := by
  have ht : t < 2 + 6 * m := by
    have := (List.getElem?_eq_some_iff.mp h).1
    rwa [length_fcollectRecdbl hm hlen] at this
  rcases Nat.eq_zero_or_pos t with rfl | hpos
  · have := Option.some.inj (h.symm.trans ((CodeAt.copy (m := m) (r := r)).getElem hm hlen))
    exact this ▸ .copy
  rcases Nat.lt_or_ge t (1 + 6 * m) with hlt | hge
  · obtain ⟨i, b, hi, hb, rfl⟩ : ∃ i b, i < m ∧ b < 6 ∧ t = 1 + 6 * i + b :=
      ⟨(t - 1) / 6, (t - 1) % 6, by omega, by omega, by omega⟩
    rw [getElem_round hm hlen r hi hb] at h
    match b, hb, h with
    | 0, _, h => simp only [List.getElem?_cons_zero, Option.some.injEq] at h; subst h; exact .put i hi
    | 1, _, h => simp at h; subst h; exact .at_pos (.putWait i hi) (by omega)
    | 2, _, h => simp at h; subst h; exact .at_pos (.fence i hi) (by omega)
    | 3, _, h => simp at h; subst h; exact .at_pos (.add i hi) (by omega)
    | 4, _, h => simp at h; subst h; exact .at_pos (.wait i hi) (by omega)
    | 5, _, h => simp at h; subst h; exact .at_pos (.sub i hi) (by omega)
  · obtain rfl : t = 1 + 6 * m := by omega
    have := Option.some.inj (h.symm.trans (getElem_quiet hm hlen r))
    exact this ▸ .quiet

end

/-! ## Peers -/

theorem peer_peer (r i : ℕ) : peer (peer r i) i = r := by
  rw [peer, peer, Nat.xor_assoc, Nat.xor_self, Nat.xor_zero]

theorem peer_ne (r i : ℕ) : peer r i ≠ r := by
  intro heq
  exact Reduction.xor_div_ne r i (congrArg (· / 2 ^ i) heq)

theorem peer_lt {m r i : ℕ} (hm : G.A.PE_size = 2 ^ m) (hr : r < G.A.PE_size) (hi : i < m) :
    peer r i < G.A.PE_size := by
  rw [hm] at hr ⊢
  exact Nat.xor_lt_two_pow hr (Nat.pow_lt_pow_right (by decide) hi)

/-! ## The pSync words -/

section
variable {α : Type*} {m : ℕ} (hm : G.A.PE_size = 2 ^ m) (hlen : G.len ≠ 0)
include hm hlen

theorem prog_of {r t : ℕ} {ins : Instr} (hr : r < G.A.PE_size) (h : CodeAt G m r t ins) :
    (G.machine (α := α) (fcollectRecdbl G)).prog (G.A.pe r) t = some ins := by
  simp only [FcollectArgs.machine, once, if_pos (G.A.pe_mem hr)]
  exact h.getElem hm hlen

theorem prog_cases {v t : ℕ} {ins : Instr} (h : (G.machine (α := α) (fcollectRecdbl G)).prog v t = some ins) :
    ∃ r < G.A.PE_size, v = G.A.pe r ∧ CodeAt G m r t ins := by
  simp only [FcollectArgs.machine, once] at h
  split_ifs at h with hv
  obtain ⟨r, hr, rfl⟩ := G.A.mem_members.mp hv
  exact ⟨r, hr, rfl, codeAt_of_getElem hm hlen h⟩

omit hm hlen in
variable (G) in
/-- the word of rank r for round i: the add of the peer, and its own subtraction -/
def ledger (r i : ℕ) : Ledger :=
  ⟨G.A.pe r, i, {(G.A.pe (peer r i), 4 + 6 * i), (G.A.pe r, 6 + 6 * i)},
    fun p => if p.1 = G.A.pe r then -1 else 1, none⟩

omit hm hlen in
theorem ledger_sum (s : St α) (r i : ℕ) : (ledger G r i).sum s =
    (if s.done (G.A.pe (peer r i)) (4 + 6 * i) 0 = true then 1 else 0) -
      if s.done (G.A.pe r) (6 + 6 * i) 0 = true then 1 else 0 := by
  have hne : G.A.pe (peer r i) ≠ G.A.pe r := fun heq => peer_ne r i (G.A.pe_inj.mp heq)
  have hpair : ((G.A.pe (peer r i), 4 + 6 * i) : ℕ × ℕ) ≠ (G.A.pe r, 6 + 6 * i) := fun heq => hne (congrArg Prod.fst heq)
  rw [Ledger.sum, ledger, Finset.sum_pair hpair]
  simp only [if_neg hne, if_true]
  split_ifs <;> ring

theorem ledger_of {r i : ℕ} (hr : r < G.A.PE_size) (hi : i < m) :
    (ledger G r i).Of (G.machine (α := α) (fcollectRecdbl G)) := by
  have hne : G.A.pe (peer r i) ≠ G.A.pe r := fun heq => peer_ne r i (G.A.pe_inj.mp heq)
  refine ⟨fun v t x hp => ?_, fun v t x hp => ?_, fun p hp => ?_, fun p hp => ?_, fun t x hp => ?_⟩
  · obtain ⟨q, hq, rfl, hat⟩ := prog_cases hm hlen hp
    generalize hpe : (ledger G r i).pe = pe at hat
    generalize hw : (ledger G r i).cell = w at hat
    cases hat with
    | add k hk =>
      obtain rfl : i = w := hw
      obtain rfl : q = peer r i := by rw [G.A.pe_inj.mp hpe, peer_peer]
      exact ⟨by simp [ledger], by simp [ledger, hne]⟩
    | sub k hk =>
      obtain rfl : i = w := hw
      obtain rfl : r = q := G.A.pe_inj.mp hpe
      exact ⟨by simp [ledger], by simp [ledger]⟩
  · obtain ⟨q, hq, -, hat⟩ := prog_cases hm hlen hp
    cases hat
  · simp only [ledger, Finset.mem_insert, Finset.mem_singleton] at hp
    rcases hp with rfl | rfl
    · have hcode := prog_of (α := α) hm hlen (peer_lt hm hr hi) (.add i hi)
      rw [peer_peer] at hcode
      simpa [ledger, hne] using hcode
    · simpa [ledger] using prog_of (α := α) hm hlen hr (.sub i hi)
  · exact absurd hp (by simp [ledger])
  · obtain ⟨q, hq, -, hat⟩ := prog_cases hm hlen hp
    cases hat

omit hm hlen in
variable (G m) in
/-- the words, waits got what they waited for, other words are not used -/
structure Sync (s : St α) : Prop where
  words : ∀ r < G.A.PE_size, ∀ i < m, (ledger G r i).Holds s
  waits : ∀ r < G.A.PE_size, ∀ i < m, 5 + 6 * i < s.pc (G.A.pe r) → s.done (G.A.pe (peer r i)) (4 + 6 * i) 0 = true
  others : ∀ r < G.A.PE_size, ∀ w, m ≤ w → s.cell (G.A.pe r) w = 0

variable {s : St α}

omit hm hlen in
theorem Sync.word (h : Sync G m s) {r i : ℕ} (hr : r < G.A.PE_size) (hi : i < m) : s.cell (G.A.pe r) i =
    (if s.done (G.A.pe (peer r i)) (4 + 6 * i) 0 = true then 1 else 0) -
      if s.done (G.A.pe r) (6 + 6 * i) 0 = true then 1 else 0 := by
  have hcell := (h.words r hr i hi).cell
  rw [if_neg (fun hc => by simp [Ledger.Cleared, ledger] at hc), ledger_sum] at hcell
  exact hcell

omit hm hlen in
theorem Sync.pass_wait (h : Sync G m s) (hh : (G.machine (fcollectRecdbl G)).Hist s) {r i : ℕ} (hr : r < G.A.PE_size)
    (hi : i < m) (hpc : s.pc (G.A.pe r) = 5 + 6 * i) (he : s.cell (G.A.pe r) i ≠ 0) :
    s.done (G.A.pe (peer r i)) (4 + 6 * i) 0 = true := by
  by_contra hnd
  have hsub : ¬ s.done (G.A.pe r) (6 + 6 * i) 0 = true := by
    intro hd
    have := (hh.doneIssued _ _ _ hd).1
    omega
  rw [h.word hr hi, if_neg hnd, if_neg hsub] at he
  exact he rfl

theorem Sync.exec (h : Sync G m s) (hh : (G.machine (fcollectRecdbl G)).Hist s) {v : ℕ} {ins : Instr}
    (hp : (G.machine (α := α) (fcollectRecdbl G)).prog v (s.pc v) = some ins)
    (he : (G.machine (fcollectRecdbl G)).Enabled s v ins) :
    Sync G m (advance ((G.machine (fcollectRecdbl G)).effect s v ins) v) := by
  obtain ⟨r, hr, rfl, hat⟩ := prog_cases hm hlen hp
  have hcell : ((G.machine (fcollectRecdbl G)).effect s (G.A.pe r) ins).cell = s.cell := by
    generalize s.pc (G.A.pe r) = t at hat
    cases hat <;> rfl
  refine ⟨fun q hq i hi => (h.words q hq i hi).exec (ledger_of hm hlen hq hi) hp, fun q hq i hi hlt => ?_,
    fun q hq w hw => ?_⟩
  · rw [advance_done, effect_done]
    by_cases hqr : q = r
    · subst hqr
      rw [advance_pc_self, effect_pc] at hlt
      rcases Nat.lt_succ_iff_lt_or_eq.mp hlt with hlt | heq
      · exact h.waits q hq i hi hlt
      · obtain rfl : .waitUntil i .NE 0 = ins :=
          Option.some.inj ((prog_of hm hlen hr (.at_pos (.wait i hi) heq)).symm.trans hp)
        exact h.pass_wait hh hq hi heq.symm he
    · rw [advance_pc_other _ (fun heq => hqr (G.A.pe_inj.mp heq)), effect_pc] at hlt
      exact h.waits q hq i hi hlt
  · rw [advance_cell, hcell]
    exact h.others q hq w hw

theorem Sync.deliver (h : Sync G m s) {v t j : ℕ} {ins : Instr}
    (hp : (G.machine (α := α) (fcollectRecdbl G)).prog v t = some ins)
    (hd : (G.machine (fcollectRecdbl G)).Deliverable s v t j) :
    Sync G m (mark ((G.machine (fcollectRecdbl G)).arrive s v t j ins) v t j) := by
  have hlat := (G.machine (fcollectRecdbl G)).later_deliver s v t j ins
  refine ⟨fun q hq i hi => (h.words q hq i hi).deliver (ledger_of hm hlen hq hi) hp hd fun hc => ?_,
    fun q hq i hi hlt => ?_, fun q hq w hw => ?_⟩
  · simp [Ledger.Cleared, ledger] at hc
  · rw [mark_pc, arrive_pc] at hlt
    exact hlat.done _ _ _ (h.waits q hq i hi hlt)
  · obtain ⟨r, -, -, hat⟩ := prog_cases hm hlen hp
    have hword : ins.word ≠ some w := by
      cases hat with
      | add i hi => simp only [Instr.word, ne_eq, Option.some.injEq]; omega
      | sub i hi => simp only [Instr.word, ne_eq, Option.some.injEq]; omega
      | _ => simp [Instr.word]
    rw [mark_cell, arrive_cell_other _ _ _ _ _ hword]
    exact h.others q hq w hw

/-! ## The target -/

variable {m0 : ℕ → Loc → α}

omit hlen in
/-- the window of a round lies in the target -/
theorem window_le {r i : ℕ} (hr : r < G.A.PE_size) (hi : i ≤ m) :
    first r i * G.len + 2 ^ i * G.len ≤ G.A.PE_size * G.len := by
  have hle : first r i + 2 ^ i ≤ G.A.PE_size := by
    obtain ⟨d, rfl⟩ : ∃ d, m = d + i := ⟨m - i, by omega⟩
    have hdiv : r / 2 ^ i < 2 ^ d := by
      refine Nat.div_lt_of_lt_mul ?_
      rw [hm, Nat.pow_add, Nat.mul_comm] at hr
      exact hr
    calc first r i + 2 ^ i = (r / 2 ^ i + 1) * 2 ^ i := by rw [first]; ring
      _ ≤ 2 ^ d * 2 ^ i := Nat.mul_le_mul_right _ hdiv
      _ = G.A.PE_size := by rw [hm, Nat.pow_add]
  rw [← Nat.add_mul]
  exact Nat.mul_le_mul_right _ hle

theorem fill (hsep : G.Separate) (v t : ℕ) (ins : Instr)
    (hp : (G.machine (α := α) (fcollectRecdbl G)).prog v t = some ins) : (G.region m0).Fill (m0 v) ins := by
  obtain ⟨r, hr, rfl, hat⟩ := prog_cases hm hlen hp
  cases hat with
  | copy => exact FcollectArgs.fill_copy hsep hr
  | put i hi => exact FcollectArgs.fill_pass (window_le hm hr hi.le) _ _
  | _ => exact .idle _ rfl

/-- the data of a round arrive before its add -/
theorem data_before_add (hh : (G.machine (fcollectRecdbl G)).Hist s) {r i j : ℕ} (hr : r < G.A.PE_size) (hi : i < m)
    (h : s.done (G.A.pe r) (4 + 6 * i) 0 = true) (hj : j < 2 ^ i * G.len) : s.done (G.A.pe r) (1 + 6 * i) j = true := by
  have hp := prog_of (α := α) hm hlen hr (.put i hi)
  refine hh.fenced _ _ _ h (3 + 6 * i) (by omega) (prog_of hm hlen hr (.fence i hi)) (1 + 6 * i) (by omega) ?_ j ?_
  · rw [destAt_eq _ hp, destAt_eq _ (prog_of hm hlen hr (.add i hi))]
    rfl
  · rw [partsAt_eq _ hp]
    exact hj

/-- **Doubling.** Who has reached round i has the blocks of all ranks that agree with its own from bit i on. -/
theorem Sync.written (h : Sync G m s) (hh : (G.machine (fcollectRecdbl G)).Hist s) {r i : ℕ} (hr : r < G.A.PE_size)
    (hi : i ≤ m) (hpc : 6 * i < s.pc (G.A.pe r)) {b j : ℕ} (hb : b / 2 ^ i = r / 2 ^ i) (hj : j < G.len) :
    (G.region m0).Written (G.machine (fcollectRecdbl G)) s (G.A.pe r) (b * G.len + j) := by
  induction i with
  | zero =>
    rw [pow_zero, Nat.div_one, Nat.div_one] at hb
    subst hb
    exact .inl ⟨0, hpc, b * G.len, G.len, _, prog_of hm hlen hr .copy, by omega, by omega⟩
  | succ i ih =>
    rcases (Reduction.div_two_pow_succ_eq_iff b r i).mp hb with hsame | hother
    · exact ih (by omega) (by omega) hsame
    · -- the peer has sent its window
      have hq := peer_lt hm hr (show i < m by omega)
      have hadd := h.waits r hr i (by omega) (by omega)
      have hfirst : b * G.len + j = first (peer r i) i * G.len + (b % 2 ^ i * G.len + j) := by
        have hsplit : b = first (peer r i) i + b % 2 ^ i := by
          rw [first, peer, ← hother, Nat.mul_comm, Nat.div_add_mod]
        nth_rewrite 1 [hsplit]
        ring
      have hlt : b % 2 ^ i * G.len + j < 2 ^ i * G.len := by
        have hmod : b % 2 ^ i + 1 ≤ 2 ^ i := Nat.mod_lt _ (by positivity)
        calc b % 2 ^ i * G.len + j < (b % 2 ^ i + 1) * G.len := by rw [Nat.add_mul]; omega
          _ ≤ 2 ^ i * G.len := Nat.mul_le_mul_right _ hmod
      have hput := prog_of (α := α) hm hlen hq (.put i (by omega))
      rw [peer_peer] at hput
      exact .inr ⟨G.A.pe (peer r i), 1 + 6 * i, b % 2 ^ i * G.len + j, first (peer r i) i * G.len, 2 ^ i * G.len, _,
        data_before_add hm hlen hh hq (by omega) hadd hlt, hput, hfirst⟩

/-- a window is not sent before it has been received -/
theorem Sync.forwards (h : Sync G m s) (hh : (G.machine (fcollectRecdbl G)).Hist s) {v t y n pe : ℕ}
    (hp : (G.machine (α := α) (fcollectRecdbl G)).prog v t = some (.putNb (G.target + y) (.sym (G.target + y)) n pe))
    (ht : t < s.pc v) {j : ℕ} (hj : j < n) : (G.region m0).Written (G.machine (fcollectRecdbl G)) s v (y + j) := by
  obtain ⟨r, hr, rfl, hat⟩ := prog_cases hm hlen hp
  generalize hdst : G.target + y = dst at hat
  cases hat with
  | put i hi =>
    obtain rfl : y = first r i * G.len := by omega
    -- element j is in block j / len of the window
    have hblock : j / G.len < 2 ^ i := Nat.div_lt_of_lt_mul (by rwa [Nat.mul_comm] at hj)
    have hpos : first r i * G.len + j = (first r i + j / G.len) * G.len + j % G.len := by
      rw [Nat.add_mul, Nat.add_assoc, Nat.mul_comm (j / G.len), Nat.div_add_mod]
    rw [hpos]
    refine h.written hm hlen hh hr hi.le (by omega) ?_ (Nat.mod_lt _ (by omega))
    rw [first, Nat.mul_comm, Nat.mul_add_div (by positivity), Nat.div_eq_of_lt hblock, Nat.add_zero]

/-- who has returned has all blocks -/
theorem Sync.all_written (h : Sync G m s) (hh : (G.machine (fcollectRecdbl G)).Hist s) {r : ℕ} (hr : r < G.A.PE_size)
    (hpc : s.pc (G.A.pe r) = 2 + 6 * m) {x : ℕ} (hx : x < G.A.PE_size * G.len) :
    (G.region m0).Written (G.machine (fcollectRecdbl G)) s (G.A.pe r) x := by
  have hj : x % G.len < G.len := Nat.mod_lt _ (by omega)
  have hb : x / G.len < G.A.PE_size := Nat.div_lt_of_lt_mul (by rwa [Nat.mul_comm] at hx)
  have hx : x = x / G.len * G.len + x % G.len := by rw [Nat.mul_comm, Nat.div_add_mod]
  rw [hx]
  refine h.written hm hlen hh hr (le_refl m) (by omega) ?_ hj
  rw [hm] at hb hr
  rw [Nat.div_eq_of_lt hb, Nat.div_eq_of_lt hr]

/-- the words of who has returned are zero -/
theorem Sync.word_returned (h : Sync G m s) (hh : (G.machine (fcollectRecdbl G)).Hist s) {r : ℕ} (hr : r < G.A.PE_size)
    (hpc : s.pc (G.A.pe r) = 2 + 6 * m) (w : ℕ) : s.cell (G.A.pe r) w = 0 := by
  rcases Nat.lt_or_ge w m with hw | hw
  · have hadd := h.waits r hr w hw (by omega)
    have hsub : s.done (G.A.pe r) (6 + 6 * w) 0 = true := by
      refine hh.quieted _ _ (prog_of hm hlen hr .quiet) (by omega) (6 + 6 * w) (by omega) 0 ?_
      rw [partsAt_eq _ (prog_of hm hlen hr (.sub w hw))]
      exact Nat.one_pos
    rw [h.word hr hw, if_pos hadd, if_pos hsub, sub_self]
  · exact h.others r hr w hw

theorem keeps (hsep : G.Separate) : (G.machine (fcollectRecdbl G)).Keeps fun s =>
    Sync G m s ∧ (G.region m0).Filled (G.machine (fcollectRecdbl G)) m0 s where
  exec s r ins hh h hp he := ⟨h.1.exec hm hlen hh hp he, h.2.exec (fill hm hlen hsep) hp⟩
  capture s r i j ins a hh h hp hpc hj hnone hsrc := by
    refine ⟨⟨fun q hq k hk => (h.1.words q hq k hk).capture r i j a, h.1.waits, h.1.others⟩, ?_⟩
    refine h.2.capture (fill hm hlen hsep) hp hj hsrc fun y n pe heq hlt => ?_
    exact h.1.forwards hm hlen hh (hp.trans (congrArg some heq)) hpc hlt
  deliver s r i j ins hh h hp hd := ⟨h.1.deliver hm hlen hp hd, h.2.deliver (fill hm hlen hsep) hp hd⟩

omit hlen in
/-- **The recursive doubling collect.** -/
theorem recdbl_ok (hsep : G.Separate) (c0 : ℕ → ℕ → ℤ) (h0 : ∀ v ∈ G.A.members, ∀ w, c0 v w = 0) (ops : List Op) :
    FcollectOk G (fcollectRecdbl G) m0 ((G.machine (fcollectRecdbl G)).run (init c0 m0) ops) := by
  by_cases hlen : G.len = 0
  · exact FcollectArgs.ok_of_nil hlen (fun v => if_pos hlen) h0 ops
  · have hinit : Sync G m (init c0 m0) := by
      refine ⟨fun r hr i _ => Ledger.holds_init m0 (h0 _ (G.A.pe_mem hr) i), fun _ _ _ _ hlt => ?_,
        fun r hr w _ => h0 _ (G.A.pe_mem hr) w⟩
      exact absurd hlt (Nat.not_lt_zero _)
    have hfill : (G.region m0).Filled (G.machine (fcollectRecdbl G)) m0 (init c0 m0) := Region.filled_init c0
    obtain ⟨hh, hsync, hfilled⟩ := (keeps hm hlen hsep).run (hist_init _ c0 m0) ⟨hinit, hfill⟩ ops
    refine FcollectArgs.ok hfilled (fill hm hlen hsep) ?_ ?_ ?_
    · intro v hv hpc x hx
      obtain ⟨r, hr, rfl⟩ := G.A.mem_members.mp hv
      rw [length_fcollectRecdbl hm hlen] at hpc
      exact hsync.all_written hm hlen hh hr hpc hx
    · intro v t y n pe hp ht j hj
      exact hsync.forwards hm hlen hh hp ht hj
    · intro v hv hpc w
      obtain ⟨r, hr, rfl⟩ := G.A.mem_members.mp hv
      rw [length_fcollectRecdbl hm hlen] at hpc
      exact hsync.word_returned hm hlen hh hr hpc w

end

end SandiaShmem.Collectives.FcollectRecdbl
