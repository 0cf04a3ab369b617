/-
The linear collect.

Everybody puts its block into the target of the first member and then adds 1 to its pSync word; the first member waits
for all, clears the word and broadcasts its target. The broadcast uses the next pSync word. A member that has sent its
block may be in the broadcast while others have not sent theirs, so the broadcast starts only with the first member:
then all blocks have arrived, and nothing of the first part is left (`calm`).

- `Sync`: the first part, with whatever comes behind it.
- `linear_ok`: the collect in every state of a run.
-/
import SandiaShmem.Collectives.Fcollect
import SandiaShmem.Collectives.Bcast

namespace SandiaShmem.Collectives.FcollectLinear

open OneSided OneSided.Machine SandiaShmem.Collectives

/-! ## Model -/

variable (G : FcollectArgs)

/-- the copy of the first member -/
def copy : List Instr := if G.source ≠ G.target then [.memcpy (.sym G.target) (.sym G.source) G.len] else []

/-- the part before the broadcast -/
def gather (my_pe : ℕ) : List Instr :=
  if G.A.PE_start = my_pe then
    copy G ++ [.atomicAdd 0 1 G.A.PE_start, .waitUntil 0 .EQ G.A.PE_size, .putScalar 0 0 G.A.PE_start,
      .waitUntil 0 .EQ 0]
  else
    let offset := (my_pe - G.A.PE_start) / G.A.PE_stride * G.len
    [.putNb (G.target + offset) (.sym G.source) G.len G.A.PE_start, .putWait, .fence, .atomicAdd 0 1 G.A.PE_start]

/-- the broadcast at the end: not complete, from the first member's target, with `pSync + 1` -/
def bcastArgs : BcastArgs := ⟨1, G.target, G.target, G.len * G.A.PE_size, false⟩

/-- `shmem_internal_fcollect_linear` on the PE my_pe -/
def fcollectLinear (alg : BcastAlg) (my_pe : ℕ) : List Instr :=
  gather G my_pe ++ bcastBody G.A (bcastArgs G) 0 alg my_pe

/-! ## Positions -/

/-- where rank r adds to the word -/
def addPos (r : ℕ) : ℕ := if r = 0 then (copy G).length else 3

/-- where rank r is through with the first part -/
def off (r : ℕ) : ℕ := if r = 0 then (copy G).length + 4 else 4

/-- the same for the PE v -/
def start (v : ℕ) : ℕ := off G (G.A.rank v)

/-- what stands where in the first part of rank r -/
inductive CodeAt : ℕ → ℕ → Instr → Prop
  | copy (h : G.source ≠ G.target) : CodeAt 0 0 (.memcpy (.sym G.target) (.sym G.source) G.len)
  | add (r : ℕ) : CodeAt r (addPos G r) (.atomicAdd 0 1 (G.A.pe 0))
  | wait : CodeAt 0 ((copy G).length + 1) (.waitUntil 0 .EQ G.A.PE_size)
  | zero : CodeAt 0 ((copy G).length + 2) (.putScalar 0 0 (G.A.pe 0))
  | zeroed : CodeAt 0 ((copy G).length + 3) (.waitUntil 0 .EQ 0)
  | put (r : ℕ) (hr : r ≠ 0) : CodeAt r 0 (.putNb (G.target + r * G.len) (.sym G.source) G.len (G.A.pe 0))
  | putWait (r : ℕ) (hr : r ≠ 0) : CodeAt r 1 .putWait
  | fence (r : ℕ) (hr : r ≠ 0) : CodeAt r 2 .fence

section
variable {G}

theorem CodeAt.at_pos {r t t' : ℕ} {ins : Instr} (h : CodeAt G r t ins) (heq : t = t') : CodeAt G r t' ins := heq ▸ h

theorem start_pe (r : ℕ) : start G (G.A.pe r) = off G r := by rw [start, G.A.rank_pe]

theorem gather_zero : gather G (G.A.pe 0) = copy G ++ [.atomicAdd 0 1 (G.A.pe 0), .waitUntil 0 .EQ G.A.PE_size,
    .putScalar 0 0 (G.A.pe 0), .waitUntil 0 .EQ 0] := by
  rw [gather, if_pos G.A.pe_zero.symm, G.A.pe_zero]

theorem gather_other {r : ℕ} (hr : r ≠ 0) : gather G (G.A.pe r) =
    [.putNb (G.target + r * G.len) (.sym G.source) G.len (G.A.pe 0), .putWait, .fence, .atomicAdd 0 1 (G.A.pe 0)] := by
  have hne : G.A.PE_start ≠ G.A.pe r := by
    rw [← G.A.pe_zero]
    exact fun h => hr (G.A.pe_inj.mp h).symm
  have hrank : (G.A.pe r - G.A.PE_start) / G.A.PE_stride = r := G.A.rank_pe r
  rw [gather, if_neg hne, hrank, G.A.pe_zero]

theorem length_gather (r : ℕ) : (gather G (G.A.pe r)).length = off G r := by
  by_cases hr : r = 0
  · subst hr
    rw [gather_zero, off, if_pos rfl, List.length_append]
    rfl
  · rw [gather_other hr, off, if_neg hr]
    rfl

theorem CodeAt.getElem {r t : ℕ} {ins : Instr} (h : CodeAt G r t ins) : (gather G (G.A.pe r))[t]? = some ins := by
  -- what is behind the copy
  have hbehind : ∀ {x : ℕ} {ins : Instr}, [Instr.atomicAdd 0 1 (G.A.pe 0), .waitUntil 0 .EQ G.A.PE_size,
      .putScalar 0 0 (G.A.pe 0), .waitUntil 0 .EQ 0][x]? = some ins →
      (gather G (G.A.pe 0))[(FcollectLinear.copy G).length + x]? = some ins := by
    intro x ins hx
    rw [gather_zero]
    exact getElem?_append_of_right _ hx
  cases h with
  | copy h =>
    rw [gather_zero]
    refine getElem?_append_of_left ?_
    simp [FcollectLinear.copy, h]
  | add =>
    by_cases hr : r = 0
    · subst hr
      exact hbehind (x := 0) rfl
    · rw [gather_other hr, addPos, if_neg hr]
      rfl
  | wait => exact hbehind rfl
  | zero => exact hbehind rfl
  | zeroed => exact hbehind rfl
  | put _ hr => rw [gather_other hr]; rfl
  | putWait _ hr => rw [gather_other hr]; rfl
  | fence _ hr => rw [gather_other hr]; rfl

/-- the first part of a member, instruction by instruction -/
theorem codeAt_of_getElem {r t : ℕ} {ins : Instr} (h : (gather G (G.A.pe r))[t]? = some ins) : CodeAt G r t ins := by
  by_cases hr : r = 0
  · subst hr
    rw [gather_zero] at h
    rcases getElem?_append_cases h with h | ⟨x, rfl, hx⟩
    · unfold FcollectLinear.copy at h
      split_ifs at h with hne
      · match t, h with
        | 0, h => exact Option.some.inj h ▸ .copy hne
        | t + 1, h => exact absurd h (by simp)
      · exact absurd h (by simp)
    · match x, hx with
      | 0, h => exact Option.some.inj h ▸ .add 0
      | 1, h => exact Option.some.inj h ▸ .wait
      | 2, h => exact Option.some.inj h ▸ .zero
      | 3, h => exact Option.some.inj h ▸ .zeroed
      | x + 4, h => exact absurd h (by simp)
  · rw [gather_other hr] at h
    match t, h with
    | 0, h => exact Option.some.inj h ▸ .put r hr
    | 1, h => exact Option.some.inj h ▸ .putWait r hr
    | 2, h => exact Option.some.inj h ▸ .fence r hr
    | 3, h => exact Option.some.inj h ▸ .at_pos (.add r) (by rw [addPos, if_neg hr])
    | t + 4, h => exact absurd h (by simp)

end

/-! ## The first part -/

/-- the first part with something behind it -/
def body (tail : ℕ → List Instr) (my_pe : ℕ) : List Instr := gather G my_pe ++ tail my_pe

/-- the pSync word of the first member -/
def ledger : Ledger :=
  ⟨G.A.pe 0, 0, (Finset.range G.A.PE_size).image fun r => (G.A.pe r, addPos G r), fun _ => 1,
    some (G.A.pe 0, (copy G).length + 2)⟩

section
variable {G} {α : Type*} {tail : ℕ → List Instr}

theorem prog_of {r t : ℕ} {ins : Instr} (hr : r < G.A.PE_size) (h : CodeAt G r t ins) :
    (G.machine (α := α) (body G tail)).prog (G.A.pe r) t = some ins := by
  simp only [FcollectArgs.machine, once, if_pos (G.A.pe_mem hr)]
  exact getElem?_append_of_left h.getElem

theorem prog_tail {r : ℕ} (hr : r < G.A.PE_size) (x : ℕ) :
    (G.machine (α := α) (body G tail)).prog (G.A.pe r) (off G r + x) = (tail (G.A.pe r))[x]? := by
  simp only [FcollectArgs.machine, once, if_pos (G.A.pe_mem hr), body]
  rw [← length_gather, List.getElem?_append_right (by omega), Nat.add_sub_cancel_left]

theorem prog_cases {v t : ℕ} {ins : Instr} (h : (G.machine (α := α) (body G tail)).prog v t = some ins) :
    ∃ r < G.A.PE_size, v = G.A.pe r ∧
      (CodeAt G r t ins ∨ ∃ x, t = off G r + x ∧ (tail (G.A.pe r))[x]? = some ins) := by
  simp only [FcollectArgs.machine, once] at h
  split_ifs at h with hv
  obtain ⟨r, hr, rfl⟩ := G.A.mem_members.mp hv
  refine ⟨r, hr, rfl, ?_⟩
  rw [← length_gather]
  exact (getElem?_append_cases h).imp_left codeAt_of_getElem

theorem card_adds : (ledger G).adds.card = G.A.PE_size := by
  have hinj : Function.Injective fun r => (G.A.pe r, addPos G r) := by
    intro r r' h
    exact G.A.pe_inj.mp (Prod.ext_iff.mp h).1
  exact (Finset.card_image_of_injective _ hinj).trans (Finset.card_range _)

variable (htail : ∀ r < G.A.PE_size, ∀ ins ∈ tail (G.A.pe r), ins.word ≠ some 0)
include htail

/-- the word is written in the first part only -/
theorem codeAt_of_word {v t : ℕ} {ins : Instr} (hp : (G.machine (α := α) (body G tail)).prog v t = some ins)
    (hw : ins.word = some 0) : ∃ r < G.A.PE_size, v = G.A.pe r ∧ CodeAt G r t ins := by
  obtain ⟨r, hr, rfl, hat | ⟨x, -, hx⟩⟩ := prog_cases hp
  · exact ⟨r, hr, rfl, hat⟩
  · exact absurd hw (htail r hr ins (List.mem_of_getElem? hx))

theorem ledger_of : (ledger G).Of (G.machine (α := α) (body G tail)) := by
  refine ⟨fun v i x hp => ?_, fun v i x hp => ?_, fun p hp => ?_, fun p hp => ?_, fun i x hp => ?_⟩
  · obtain ⟨r, hr, rfl, hat⟩ := codeAt_of_word htail hp rfl
    cases hat with
    | add => exact ⟨Finset.mem_image_of_mem _ (Finset.mem_range.mpr hr), rfl⟩
  · obtain ⟨r, hr, rfl, hat⟩ := codeAt_of_word htail hp rfl
    cases hat with
    | zero => exact ⟨rfl, rfl⟩
  · obtain ⟨r, hr, rfl⟩ := Finset.mem_image.mp hp
    exact prog_of (Finset.mem_range.mp hr) (.add r)
  · obtain rfl := Option.some.inj hp
    exact prog_of G.A.size_pos .zero
  · obtain ⟨r, hr, -, hat⟩ := codeAt_of_word htail hp rfl
    cases hat

/-- nobody writes the words of the others -/
theorem unused_of {r : ℕ} (hr : r ≠ 0) : (Ledger.unused (G.A.pe r) 0).Of (G.machine (α := α) (body G tail)) := by
  refine Ledger.unused_of fun v t ins hp hw => ?_
  have hne : some (G.A.pe 0) ≠ some (G.A.pe r) := fun h => hr (G.A.pe_inj.mp (Option.some.inj h)).symm
  obtain ⟨q, hq, rfl, hat⟩ := codeAt_of_word htail hp hw
  cases hat with
  | add => exact ⟨hne, fun _ => Option.some_ne_none _⟩
  | zero => exact ⟨hne, fun _ => Option.some_ne_none _⟩
  | _ => exact absurd hw (by simp [Instr.word])

variable (G) in
/-- the word counts the adds, and the first member got what it waited for -/
structure Sync (s : St α) : Prop where
  word : (ledger G).Holds s
  others : ∀ r < G.A.PE_size, r ≠ 0 → (Ledger.unused (G.A.pe r) 0).Holds s
  waited : (copy G).length + 1 < s.pc (G.A.pe 0) → ∀ r < G.A.PE_size, s.done (G.A.pe r) (addPos G r) 0 = true
  zeroed : (copy G).length + 3 < s.pc (G.A.pe 0) → s.done (G.A.pe 0) ((copy G).length + 2) 0 = true

variable {s : St α}

omit htail in
/-- a word that has been cleared had all its adds -/
theorem Sync.last (h : Sync G s) (hh : (G.machine (body G tail)).Hist s) (hc : (ledger G).Cleared s) :
    ∀ p ∈ (ledger G).adds, s.done p.1 p.2 0 = true := by
  intro p hp
  obtain ⟨r, hr, rfl⟩ := Finset.mem_image.mp hp
  obtain ⟨q, hq, hd⟩ := hc
  obtain rfl := Option.some.inj hq
  have hlt : (copy G).length + 2 < s.pc (G.A.pe 0) := (hh.doneIssued _ _ _ hd).1
  exact h.waited (by omega) r (Finset.mem_range.mp hr)

omit htail in
theorem Sync.pass_wait (h : Sync G s) (hh : (G.machine (body G tail)).Hist s)
    (hpc : s.pc (G.A.pe 0) = (copy G).length + 1) (he : s.cell (G.A.pe 0) 0 = (G.A.PE_size : ℤ)) {r : ℕ}
    (hr : r < G.A.PE_size) : s.done (G.A.pe r) (addPos G r) 0 = true := by
  have hnot : ¬ (ledger G).Cleared s := by
    rintro ⟨p, hp, hd⟩
    obtain rfl := Option.some.inj hp
    have hlt : (copy G).length + 2 < s.pc (G.A.pe 0) := (hh.doneIssued _ _ _ hd).1
    omega
  have hcell := h.word.cell
  rw [if_neg hnot] at hcell
  have hsum : ((ledger G).adds.card : ℤ) ≤ (ledger G).sum s := by
    rw [card_adds, ← hcell]
    exact he.ge
  exact Ledger.all_done (fun _ _ => rfl) hsum _ (Finset.mem_image_of_mem _ (Finset.mem_range.mpr hr))

omit htail in
theorem Sync.pass_zero (h : Sync G s) (hpc : s.pc (G.A.pe 0) = (copy G).length + 3)
    (he : s.cell (G.A.pe 0) 0 = 0) : s.done (G.A.pe 0) ((copy G).length + 2) 0 = true := by
  by_contra hnd
  have hnot : ¬ (ledger G).Cleared s := by
    rintro ⟨p, hp, hd⟩
    obtain rfl := Option.some.inj hp
    exact hnd hd
  have hall : ∀ p ∈ (ledger G).adds, s.done p.1 p.2 0 = true := by
    intro p hp
    obtain ⟨r, hr, rfl⟩ := Finset.mem_image.mp hp
    exact h.waited (by omega) r (Finset.mem_range.mp hr)
  have hcell := h.word.cell
  rw [if_neg hnot, Ledger.sum_eq_card (fun _ _ => rfl) hall, card_adds] at hcell
  have hzero : (G.A.PE_size : ℤ) = 0 := hcell.symm.trans he
  have hpos := G.A.size_pos
  omega

theorem Sync.exec (h : Sync G s) (hh : (G.machine (body G tail)).Hist s) {v : ℕ} {ins : Instr}
    (hp : (G.machine (α := α) (body G tail)).prog v (s.pc v) = some ins)
    (he : (G.machine (body G tail)).Enabled s v ins) :
    Sync G (advance ((G.machine (body G tail)).effect s v ins) v) := by
  have hinj : ∀ {t ins'}, G.A.pe 0 = v → t = s.pc v → CodeAt G 0 t ins' → ins' = ins := by
    rintro t ins' rfl rfl hat
    exact Option.some.inj ((prog_of G.A.size_pos hat).symm.trans hp)
  -- what the first member passes in this step
  have hpass : ∀ t, t < (advance ((G.machine (body G tail)).effect s v ins) v).pc (G.A.pe 0) →
      t < s.pc (G.A.pe 0) ∨ (G.A.pe 0 = v ∧ t = s.pc v) := by
    intro t ht
    by_cases hv : G.A.pe 0 = v
    · subst hv
      rw [advance_pc_self, effect_pc] at ht
      omega
    · rw [advance_pc_other _ hv, effect_pc] at ht
      exact .inl ht
  refine ⟨h.word.exec (ledger_of htail) hp, fun r hr h0 => (h.others r hr h0).exec (unused_of htail h0) hp,
    fun hlt r hr => ?_, fun hlt => ?_⟩
  · rw [advance_done, effect_done]
    rcases hpass _ hlt with hlt | ⟨hv, heq⟩
    · exact h.waited hlt r hr
    · obtain rfl := hinj hv heq .wait
      subst hv
      exact h.pass_wait hh heq.symm he hr
  · rw [advance_done, effect_done]
    rcases hpass _ hlt with hlt | ⟨hv, heq⟩
    · exact h.zeroed hlt
    · obtain rfl := hinj hv heq .zeroed
      subst hv
      exact h.pass_zero heq.symm he

theorem Sync.deliver (h : Sync G s) (hh : (G.machine (body G tail)).Hist s) {v t j : ℕ} {ins : Instr}
    (hp : (G.machine (α := α) (body G tail)).prog v t = some ins)
    (hd : (G.machine (body G tail)).Deliverable s v t j) :
    Sync G (mark ((G.machine (body G tail)).arrive s v t j ins) v t j) := by
  have hlat := (G.machine (body G tail)).later_deliver s v t j ins
  have hlast : ∀ r, (Ledger.unused (G.A.pe r) 0).Cleared s → ∀ p ∈ (∅ : Finset (ℕ × ℕ)), s.done p.1 p.2 0 = true :=
    fun r _ p hp => absurd hp (Finset.notMem_empty p)
  refine ⟨h.word.deliver (ledger_of htail) hp hd (h.last hh),
    fun r hr h0 => (h.others r hr h0).deliver (unused_of htail h0) hp hd (hlast r), fun hlt r hr => ?_, fun hlt => ?_⟩
  · rw [mark_pc, arrive_pc] at hlt
    exact hlat.done _ _ _ (h.waited hlt r hr)
  · rw [mark_pc, arrive_pc] at hlt
    exact hlat.done _ _ _ (h.zeroed hlt)

omit htail in
/-- the block of a member arrives before its add -/
theorem data_before_add (hh : (G.machine (body G tail)).Hist s) {r : ℕ} (hr : r < G.A.PE_size) (h0 : r ≠ 0)
    (h : s.done (G.A.pe r) (addPos G r) 0 = true) {j : ℕ} (hj : j < G.len) : s.done (G.A.pe r) 0 j = true := by
  have hput : (G.machine (α := α) (body G tail)).prog _ _ = some _ := prog_of hr (.put r h0)
  refine hh.fenced _ _ _ h 2 (by rw [addPos, if_neg h0]; decide) (prog_of hr (.fence r h0)) 0 (by decide) ?_ j ?_
  · rw [destAt_eq _ hput, destAt_eq _ (prog_of hr (.add r))]
    rfl
  · rw [partsAt_eq _ hput]
    exact hj

omit htail in
/-- once the first member is through with the first part, everybody is, and all of it has arrived -/
theorem Sync.over (h : Sync G s) (hh : (G.machine (body G tail)).Hist s) (hpc : off G 0 ≤ s.pc (G.A.pe 0)) {r : ℕ}
    (hr : r < G.A.PE_size) : off G r ≤ s.pc (G.A.pe r) ∧
      ∀ t < off G r, ∀ j < (G.machine (α := α) (body G tail)).partsAt (G.A.pe r) t, s.done (G.A.pe r) t j = true := by
  have hpc : (copy G).length + 4 ≤ s.pc (G.A.pe 0) := hpc
  have hadd := h.waited (by omega) r hr
  refine ⟨?_, fun t ht j hj => ?_⟩
  · by_cases h0 : r = 0
    · subst h0
      exact hpc
    · have hlt := (hh.doneIssued _ _ _ hadd).1
      rw [addPos, if_neg h0] at hlt
      rw [off, if_neg h0]
      exact hlt
  · rw [← length_gather] at ht
    obtain ⟨ins, hins⟩ : ∃ ins, (gather G (G.A.pe r))[t]? = some ins := ⟨_, List.getElem?_eq_getElem ht⟩
    have hat := codeAt_of_getElem hins
    rw [partsAt_eq _ (prog_of hr hat)] at hj
    cases hat with
    | add =>
      obtain rfl := Nat.lt_one_iff.mp hj
      exact hadd
    | zero =>
      obtain rfl := Nat.lt_one_iff.mp hj
      exact h.zeroed (by omega)
    | put _ h0 => exact data_before_add hh hr h0 hadd hj
    | _ => exact absurd hj (Nat.not_lt_zero _)

/-! ## The target of the first member -/

variable {m0 : ℕ → Loc → α}

omit htail in
/-- the first member has all blocks -/
theorem Sync.root_written (hsep : G.Separate) (h : Sync G s) (hh : (G.machine (body G tail)).Hist s)
    (hpc : off G 0 ≤ s.pc (G.A.pe 0)) {x : ℕ} (hx : x < G.A.PE_size * G.len) :
    (G.region m0).Written (G.machine (body G tail)) s (G.A.pe 0) x := by
  have hpc : (copy G).length + 4 ≤ s.pc (G.A.pe 0) := hpc
  have hlen : 0 < G.len := Nat.pos_of_ne_zero fun h0 => by rw [h0, Nat.mul_zero] at hx; omega
  have hj : x % G.len < G.len := Nat.mod_lt _ hlen
  have hb : x / G.len < G.A.PE_size := Nat.div_lt_of_lt_mul (by rwa [Nat.mul_comm] at hx)
  have hsplit : x = x / G.len * G.len + x % G.len := by rw [Nat.mul_comm, Nat.div_add_mod]
  by_cases h0 : x / G.len = 0
  · have hne : G.source ≠ G.target := by
      have := FcollectArgs.block_le (G := G) (r := 0) G.A.size_pos
      rcases hsep with h | h <;> omega
    rw [h0] at hsplit
    exact .inl ⟨0, by omega, 0, G.len, _, prog_of G.A.size_pos (.copy hne), by omega, by omega⟩
  · have hd := data_before_add hh hb h0 (h.waited (by omega) _ hb) hj
    exact .inr ⟨_, 0, x % G.len, x / G.len * G.len, G.len, _, hd, prog_of hb (.put _ h0), hsplit⟩

omit htail in
/-- the first part puts blocks in their places -/
theorem fill (hsep : G.Separate) (hfill : ∀ r < G.A.PE_size, ∀ ins ∈ tail (G.A.pe r), (G.region m0).Fill (m0 (G.A.pe r)) ins)
    (v t : ℕ) (ins : Instr) (hp : (G.machine (α := α) (body G tail)).prog v t = some ins) :
    (G.region m0).Fill (m0 v) ins := by
  obtain ⟨r, hr, rfl, hat | ⟨x, -, hx⟩⟩ := prog_cases hp
  · cases hat with
    | copy hne =>
      have hcopy : (G.region m0).Fill _ _ := FcollectArgs.fill_copy hsep hr
      rwa [Nat.zero_mul] at hcopy
    | put r h0 => exact FcollectArgs.fill_send hsep hr _
    | _ => exact .idle _ rfl
  · exact hfill r hr ins (List.mem_of_getElem? hx)

omit htail in
/-- the blocks the members send are not parts of their targets -/
theorem not_forwarding (hsep : G.Separate) {r t y n pe : ℕ}
    (hat : CodeAt G r t (.putNb (G.target + y) (.sym (G.target + y)) n pe)) (hr : r < G.A.PE_size) : n = 0 := by
  have hle := FcollectArgs.block_le (G := G) hr
  generalize hsrc : Loc.sym (G.target + y) = src at hat
  generalize G.target + y = dst at hat hsrc
  cases hat with
  | put _ h0 =>
    have hsrc : G.target + r * G.len = G.source := Loc.sym.inj hsrc
    rcases hsep with h | h <;> omega

omit htail in
/-- the word of who is through with the first part is zero -/
theorem Sync.word_over (h : Sync G s) {r : ℕ} (hr : r < G.A.PE_size) (hpc : off G r ≤ s.pc (G.A.pe r)) :
    s.cell (G.A.pe r) 0 = 0 := by
  by_cases h0 : r = 0
  · subst h0
    have hpc : (copy G).length + 4 ≤ s.pc (G.A.pe 0) := hpc
    refine h.word.cell.trans (if_pos ⟨_, rfl, h.zeroed ?_⟩)
    omega
  · exact (h.others r hr h0).unused

omit htail in
theorem sync_init {c0 : ℕ → ℕ → ℤ} (h0 : ∀ v ∈ G.A.members, ∀ w, c0 v w = 0) : Sync G (init c0 m0) := by
  refine ⟨Ledger.holds_init m0 (h0 _ (G.A.pe_mem G.A.size_pos) 0),
    fun r hr _ => Ledger.holds_init m0 (h0 _ (G.A.pe_mem hr) 0), fun hlt => ?_, fun hlt => ?_⟩
  · exact absurd hlt (Nat.not_lt_zero _)
  · exact absurd hlt (Nat.not_lt_zero _)

end

/-! ## The broadcast -/

section
variable {G} {α : Type*} {m0 : ℕ → Loc → α} {s : St α} {tail : ℕ → List Instr} {S : Shape}
  (hnodes : ∀ v, v ∈ G.A.members ↔ v ∈ S.T.nodes) (hedge : S.T.children S.T.root ≠ [])
  (hbody : ∀ v ∈ G.A.members, tail v = S.node (bcastArgs G) v)

include hnodes

theorem calm (h : Sync G s) (hh : (G.machine (body G tail)).Hist s) (hroot : S.T.root = G.A.pe 0) :
    Calm (G.machine (body G tail)) S (start G) s := by
  intro hpc v hv
  obtain ⟨r, hr, rfl⟩ := G.A.mem_members.mp ((hnodes v).mpr hv)
  rw [hroot, start_pe] at hpc
  obtain ⟨hle, hdone⟩ := h.over hh hpc.le hr
  rw [start_pe]
  exact ⟨fun t ins h1 h2 => absurd (h1.trans_lt h2) (Nat.not_lt.mpr hle), hdone⟩

include hedge hbody

theorem embed : Embed (G.machine (α := α) (body G tail)) S (bcastArgs G) (start G) := by
  refine ⟨hedge, fun v t ins hp => ?_, fun v hv x => ?_, fun v t ins hp hlt => ?_⟩
  · obtain ⟨r, hr, rfl, -⟩ := prog_cases hp
    exact (hnodes _).mp (G.A.pe_mem hr)
  · obtain ⟨r, hr, rfl⟩ := G.A.mem_members.mp ((hnodes v).mpr hv)
    rw [start_pe, prog_tail hr, hbody _ (G.A.pe_mem hr)]
  · obtain ⟨r, hr, rfl, hat | ⟨x, rfl, -⟩⟩ := prog_cases hp
    · cases hat <;> simp [Instr.word, bcastArgs]
    · rw [start_pe] at hlt
      omega

variable (m0) in
omit hnodes hedge in
/-- the broadcast writes the other word, and passes the target on as a whole -/
theorem tail_cases {r : ℕ} (hr : r < G.A.PE_size) {ins : Instr} (hmem : ins ∈ tail (G.A.pe r)) :
    ins.word ≠ some 0 ∧ (G.region m0).Fill (m0 (G.A.pe r)) ins := by
  rw [hbody _ (G.A.pe_mem hr)] at hmem
  obtain ⟨x, hx⟩ := List.getElem?_of_mem hmem
  cases Shape.nodeAt_of_getElem hx with
  | data i c hc =>
    have hsrc : S.sendBuf (bcastArgs G) (G.A.pe r) = G.target := ite_self _
    rw [hsrc]
    exact ⟨by simp [Instr.word], FcollectArgs.fill_pass (y := 0) (by simp [bcastArgs, Nat.mul_comm]) _ _⟩
  | _ => exact ⟨by simp [Instr.word, bcastArgs], .idle _ rfl⟩

/-- who has begun with the broadcast has all blocks -/
theorem written (hsep : G.Separate) (hroot : S.T.root = G.A.pe 0) (h : Sync G s)
    (hb : BInv S (bcastArgs G) (start G) (G.block m0) s) (hh : (G.machine (body G tail)).Hist s) {r : ℕ}
    (hr : r < G.A.PE_size) (hpc : off G r < s.pc (G.A.pe r)) {x : ℕ} (hx : x < G.A.PE_size * G.len) :
    (G.region m0).Written (G.machine (body G tail)) s (G.A.pe r) x := by
  have E := embed (α := α) hnodes hedge hbody
  by_cases h0 : r = 0
  · subst h0
    exact h.root_written hsep hh hpc.le hx
  · have hv := (hnodes _).mp (G.A.pe_mem hr)
    have hne : G.A.pe r ≠ S.T.root := by
      rw [hroot]
      exact fun heq => h0 (G.A.pe_inj.mp heq)
    rw [← start_pe] at hpc
    have hd := hb.received E hh hv hne hpc (j := x) (by rwa [bcastArgs, Nat.mul_comm])
    have hp := E.prog_of (S.T.parent_mem _ hv) (.data _ _ (getElem_idxOf hv hne))
    exact .inr ⟨_, _, x, 0, _, _, hd, hp, (Nat.zero_add x).symm⟩

/-- nobody passes on a block it has not received -/
theorem forwards (hsep : G.Separate) (hroot : S.T.root = G.A.pe 0) (h : Sync G s)
    (hb : BInv S (bcastArgs G) (start G) (G.block m0) s) (hh : (G.machine (body G tail)).Hist s) {v t y n pe : ℕ}
    (hp : (G.machine (α := α) (body G tail)).prog v t = some (.putNb (G.target + y) (.sym (G.target + y)) n pe))
    (ht : t < s.pc v) {j : ℕ} (hj : j < n) : (G.region m0).Written (G.machine (body G tail)) s v (y + j) := by
  obtain ⟨r, hr, rfl, hat | ⟨x, rfl, hx⟩⟩ := prog_cases hp
  · rw [not_forwarding hsep hat hr] at hj
    exact absurd hj (Nat.not_lt_zero _)
  · refine written hnodes hedge hbody hsep hroot h hb hh hr (by omega) ?_
    -- the broadcast stays inside the target
    have hfill := (tail_cases m0 hbody hr (List.mem_of_getElem? hx)).2
    generalize hdst : G.target + y = dst at hfill
    cases hfill with
    | send y' _ _ _ hfit => simp only [FcollectArgs.region] at hfit hdst; omega
    | pass y' _ _ hfit => simp only [FcollectArgs.region] at hfit hdst; omega
    | idle _ hidle => exact absurd hidle Bool.noConfusion

theorem keeps (hsep : G.Separate) (hroot : S.T.root = G.A.pe 0) : (G.machine (body G tail)).Keeps fun s =>
    Sync G s ∧ (G.region m0).Filled (G.machine (body G tail)) m0 s ∧
      BInv S (bcastArgs G) (start G) (G.block m0) s := by
  have E := embed (α := α) hnodes hedge hbody
  have hword : ∀ r < G.A.PE_size, ∀ ins ∈ tail (G.A.pe r), ins.word ≠ some 0 :=
    fun r hr ins hmem => (tail_cases m0 hbody hr hmem).1
  have hfill := fill hsep fun r hr ins hmem => (tail_cases m0 hbody hr hmem).2
  refine ⟨?_, ?_, ?_⟩
  · rintro s v ins hh ⟨h, hf, hb⟩ hp he
    refine ⟨h.exec hword hh hp he, hf.exec hfill hp, hb.exec E hh (calm hnodes h hh hroot) hp he fun hpc j hj => ?_⟩
    -- the first member starts with all blocks
    have hx : j < G.A.PE_size * G.len := by rwa [bcastArgs, Nat.mul_comm] at hj
    rw [hroot, start_pe] at hpc
    rw [hroot]
    exact hf.inside _ j hx (h.root_written hsep hh hpc.ge hx)
  · rintro s v i j ins a hh ⟨h, hf, hb⟩ hp hpc hj - hsrc
    refine ⟨⟨h.word.capture v i j a, fun r hr h0 => (h.others r hr h0).capture v i j a, h.waited, h.zeroed⟩, ?_,
      hb.capture E hh hp hpc hj hsrc⟩
    refine hf.capture hfill hp hj hsrc fun y n pe heq hlt => ?_
    exact forwards hnodes hedge hbody hsep hroot h hb hh (hp.trans (congrArg some heq)) hpc hlt
  · rintro s v i j ins hh ⟨h, hf, hb⟩ hp hd
    exact ⟨h.deliver hword hh hp hd, hf.deliver hfill hp hd, hb.deliver E hh (calm hnodes h hh hroot) hp hd⟩

end

/-! ## The collect -/

section
variable {G} {α : Type*} {m0 : ℕ → Loc → α} {alg : BcastAlg}

/-- nothing is broadcast: there is one member, or there are no data -/
theorem ok_of_nil (hsep : G.Separate) (hcond : G.A.PE_size = 1 ∨ G.len = 0) (c0 : ℕ → ℕ → ℤ)
    (h0 : ∀ v ∈ G.A.members, ∀ w, c0 v w = 0) (ops : List Op) :
    FcollectOk G (body G fun _ => []) m0 ((G.machine (body G fun _ => [])).run (init c0 m0) ops) := by
  have hnone : ∀ r < G.A.PE_size, ∀ ins ∈ ([] : List Instr), ins.word ≠ some 0 := fun r _ ins hmem =>
    absurd hmem List.not_mem_nil
  have hfill : ∀ v t ins, (G.machine (α := α) (body G fun _ => [])).prog v t = some ins →
      (G.region m0).Fill (m0 v) ins := fill hsep fun r _ ins hmem => absurd hmem List.not_mem_nil
  -- nothing is passed on
  have hat : ∀ {v t : ℕ} {ins : Instr}, (G.machine (α := α) (body G fun _ => [])).prog v t = some ins →
      ∃ r < G.A.PE_size, v = G.A.pe r ∧ CodeAt G r t ins := by
    intro v t ins hp
    obtain ⟨r, hr, rfl, hat | ⟨x, -, hx⟩⟩ := prog_cases hp
    · exact ⟨r, hr, rfl, hat⟩
    · exact absurd hx (by simp)
  have hpass : ∀ {v t y n pe : ℕ}, (G.machine (α := α) (body G fun _ => [])).prog v t =
      some (.putNb (G.target + y) (.sym (G.target + y)) n pe) → n = 0 := by
    intro v t y n pe hp
    obtain ⟨r, hr, -, hat⟩ := hat hp
    exact not_forwarding hsep hat hr
  have hkeeps : (G.machine (body G fun _ => [])).Keeps fun s =>
      Sync G s ∧ (G.region m0).Filled (G.machine (body G fun _ => [])) m0 s := by
    refine ⟨fun s v ins hh h hp he => ⟨h.1.exec hnone hh hp he, h.2.exec hfill hp⟩, ?_,
      fun s v i j ins hh h hp hd => ⟨h.1.deliver hnone hh hp hd, h.2.deliver hfill hp hd⟩⟩
    intro s v i j ins a hh h hp hpc hj _ hsrc
    refine ⟨⟨h.1.word.capture v i j a, fun r hr hr0 => (h.1.others r hr hr0).capture v i j a, h.1.waited,
      h.1.zeroed⟩, h.2.capture hfill hp hj hsrc fun y n pe heq hlt => ?_⟩
    rw [hpass (hp.trans (congrArg some heq))] at hlt
    exact absurd hlt (Nat.not_lt_zero _)
  obtain ⟨hh, h, hf⟩ := hkeeps.run (hist_init _ c0 m0) ⟨sync_init h0, Region.filled_init c0⟩ ops
  have hend : ∀ r, (body G (fun _ => []) (G.A.pe r)).length = off G r := by
    intro r
    rw [body, List.append_nil, length_gather]
  refine FcollectArgs.ok hf hfill ?_ ?_ ?_
  · intro v hv hpc x hx
    obtain ⟨r, hr, rfl⟩ := G.A.mem_members.mp hv
    rw [hend] at hpc
    rcases hcond with h1 | hlen
    · obtain rfl : r = 0 := by omega
      exact h.root_written hsep hh hpc.ge hx
    · rw [hlen, Nat.mul_zero] at hx
      exact absurd hx (Nat.not_lt_zero _)
  · intro v t y n pe hp ht j hj
    rw [hpass hp] at hj
    exact absurd hj (Nat.not_lt_zero _)
  · intro v hv hpc w
    obtain ⟨r, hr, rfl⟩ := G.A.mem_members.mp hv
    rw [hend] at hpc
    by_cases hw : w = 0
    · subst hw
      exact h.word_over hr hpc.ge
    · rw [run_cell_unwritten (fun v t ins hp => ?_)]
      · exact h0 _ hv w
      · obtain ⟨r, hr, -, hat⟩ := hat hp
        cases hat <;> simp [Instr.word, Ne.symm hw]

/-- **The linear collect.** -/
theorem linear_ok (hsep : G.Separate) (halg : alg.Valid G.A (bcastArgs G).len 0) (c0 : ℕ → ℕ → ℤ)
    (h0 : ∀ v ∈ G.A.members, ∀ w, c0 v w = 0) (ops : List Op) :
    FcollectOk G (fcollectLinear G alg) m0 ((G.machine (fcollectLinear G alg)).run (init c0 m0) ops) := by
  by_cases hcond : G.A.PE_size = 1 ∨ G.len = 0
  · have hnil : fcollectLinear G alg = body G fun _ => [] := by
      funext v
      have hbcast : G.A.PE_size = 1 ∨ (bcastArgs G).len = 0 := hcond.imp_right fun hl => by simp [bcastArgs, hl]
      rw [fcollectLinear, bcastBody_nil hbcast]
      rfl
    rw [hnil]
    exact ok_of_nil hsep hcond c0 h0 ops
  push Not at hcond
  rw [show fcollectLinear G alg = body G (bcastBody G.A (bcastArgs G) 0 alg) from rfl]
  have hsize := G.A.size_pos
  have hlen : (bcastArgs G).len ≠ 0 := Nat.mul_ne_zero hcond.2 (by omega)
  obtain ⟨S, hroot, hnodes, hedge, hshape⟩ := exists_shape (show 0 < G.A.PE_size by omega) (by omega) halg hlen
  have hbody : ∀ v ∈ G.A.members, bcastBody G.A (bcastArgs G) 0 alg v = S.node (bcastArgs G) v :=
    fun v hv => (hshape v hv).1
  have hidle : BInv S (bcastArgs G) (start G) (G.block m0) (init c0 m0) :=
    BInv.idle (hist_init (G.machine (body G (bcastBody G.A (bcastArgs G) 0 alg))) c0 m0) (fun v _ => Nat.zero_le _)
      fun v hv => h0 v ((hnodes v).mpr hv) 1
  obtain ⟨hh, h, hf, hb⟩ := (keeps hnodes hedge hbody hsep hroot).run (hist_init _ c0 m0)
    ⟨sync_init h0, Region.filled_init c0, hidle⟩ ops
  have hend : ∀ r < G.A.PE_size, (body G (bcastBody G.A (bcastArgs G) 0 alg) (G.A.pe r)).length =
      off G r + (S.node (bcastArgs G) (G.A.pe r)).length := by
    intro r hr
    rw [body, List.length_append, length_gather, hbody _ (G.A.pe_mem hr)]
  refine FcollectArgs.ok hf (fill hsep fun r hr ins hmem => (tail_cases m0 hbody hr hmem).2) ?_ ?_ ?_
  · intro v hv hpc x hx
    obtain ⟨r, hr, rfl⟩ := G.A.mem_members.mp hv
    rw [hend r hr] at hpc
    by_cases hr0 : r = 0
    · subst hr0
      exact h.root_written hsep hh (by omega) hx
    · have hne : G.A.pe r ≠ S.T.root := by
        rw [hroot]
        exact fun heq => hr0 (G.A.pe_inj.mp heq)
      have hpos := Shape.startPos_pos (B := bcastArgs G) hne
      have hle := Shape.startPos_le (S := S) (B := bcastArgs G) (G.A.pe r)
      rw [Shape.length_node] at hpc
      exact written hnodes hedge hbody hsep hroot h hb hh hr (by omega) hx
  · intro v t y n pe hp ht j hj
    exact forwards hnodes hedge hbody hsep hroot h hb hh hp ht hj
  · intro v hv hpc w
    obtain ⟨r, hr, rfl⟩ := G.A.mem_members.mp hv
    rw [hend r hr] at hpc
    rcases Nat.lt_or_ge w 2 with hw | hw
    · interval_cases w
      · exact h.word_over hr (by omega)
      · exact hb.word_returned ((hnodes _).mp hv) (by rw [start_pe]; exact hpc)
    · rw [run_cell_unwritten (fun v t ins hp => ?_)]
      · exact h0 _ hv w
      · obtain ⟨q, hq, -, hat | ⟨x, -, hx⟩⟩ := prog_cases hp
        · cases hat <;> simp [Instr.word] <;> omega
        · rw [hbody _ (G.A.pe_mem hq)] at hx
          cases Shape.nodeAt_of_getElem hx <;> simp [Instr.word, bcastArgs] <;> omega

end

end SandiaShmem.Collectives.FcollectLinear
