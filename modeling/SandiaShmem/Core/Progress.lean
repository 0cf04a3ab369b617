/-
Progress of the machine for one-sided communication.

A schedule is fair if it comes back to every operation. A machine whose programs are finite changes its state only so
many times, so under a fair schedule it comes to rest; and at rest every message has been delivered, and a PE that is not
at its end is at a wait whose condition does not hold. That a protocol has no deadlock is therefore a question about the
states at rest alone.

- `Stuck`: no operation changes the state. `Stuck.delivered`: then what has been sent has arrived.
- `upTo`: the machine whose programs end at given positions, for protocols that are called over and over.
- `Ends.rests`: under a fair schedule the machine comes to rest.
- `fair_finishes`: if every state at rest that can be reached is final, every fair schedule reaches a final state.
- `Resting.slice`: what is at rest is at rest in its parts.
- `fair_cycle`: there are fair schedules.
- `RegMachine.Keeps.rests`: programs with registers come to rest where those without them do.
-/
import SandiaShmem.Core.Registers
import SandiaShmem.Core.Slice

open Runs (Fair)

namespace OneSided.Machine

variable {α : Type*} {M : Machine α} {s s' : St α} {r i j : ℕ} {ins : Instr} {goal : ℕ → ℕ}

/-! ## At rest -/

/-- no operation changes the state -/
def Stuck (M : Machine α) (s : St α) : Prop := ∀ o, M.step s o = s

theorem Stuck.not_enabled (h : M.Stuck s) (hp : M.prog r (s.pc r) = some ins) : ¬ M.Enabled s r ins := by
  intro he
  have hstep := congrArg (fun t => t.pc r) (h (.exec r))
  simp only [Machine.step, hp, if_pos he, advance_pc_self, effect_pc] at hstep
  omega

/-- what is to be read has been read -/
theorem captured_of_rest (h : M.step s (.capture r i j) = s) (hi : i < s.pc r) (hj : j < M.readsAt r i) :
    (s.cap r i j).isSome = true := by
  cases hp : M.prog r i with
  | none => simp [readsAt, hp] at hj
  | some ins =>
    by_contra hnone
    have hcap : s.cap r i j = none := by simpa using hnone
    obtain ⟨v, hv⟩ : ∃ v, source s r j ins = some v := by
      rw [M.readsAt_eq hp] at hj
      cases ins with
      | putNb dst src len pe => exact ⟨_, rfl⟩
      | atomicv dst src len pe => exact ⟨_, rfl⟩
      | _ => exact absurd hj (Nat.not_lt_zero j)
    have hrec : M.step s (.capture r i j) = record s r i j v := by
      simp only [Machine.step, if_pos (And.intro hi (And.intro hj hcap)), hp, Option.bind_some, hv]
    rw [hrec] at h
    have hsome : (record s r i j v).cap r i j = some v := by simp [record, setCap]
    rw [h, hcap] at hsome
    cases hsome

/-- a message has been delivered when nothing up to it can be -/
theorem delivered_of_rest (hcap : ∀ i j, M.step s (.capture r i j) = s)
    (hdel : ∀ i' ≤ i, ∀ j, M.step s (.deliver r i' j) = s) (hi : i < s.pc r) (hj : j < M.partsAt r i) :
    s.done r i j = true := by
  -- fences ask only for what was sent before
  induction i using Nat.strong_induction_on generalizing j with
  | _ i ih =>
    by_contra hnot
    have hord : M.Ordered s r i := by
      intro f hf _ i' hi' _ j' hj'
      exact ih i' (by omega) (fun i'' hi'' => hdel i'' (by omega)) (by omega) hj'
    have hd : M.Deliverable s r i j :=
      ⟨hi, hj, by simpa using hnot, fun hread => captured_of_rest (hcap i j) hi hread, hord⟩
    cases hp : M.prog r i with
    | none => simp [partsAt, hp] at hj
    | some ins =>
      have hstep := hdel i (le_refl i) j
      simp only [Machine.step, hp, if_pos hd] at hstep
      exact hnot (by rw [← hstep]; exact (mark_done ..).mpr (Or.inl ⟨rfl, rfl, rfl⟩))

theorem Stuck.captured (h : M.Stuck s) (hi : i < s.pc r) (hj : j < M.readsAt r i) : (s.cap r i j).isSome = true :=
  captured_of_rest (h _) hi hj

theorem Stuck.delivered (h : M.Stuck s) (hi : i < s.pc r) (hj : j < M.partsAt r i) : s.done r i j = true :=
  delivered_of_rest (fun _ _ => h _) (fun _ _ _ => h _) hi hj

/-! ## Programs that end -/

/-- the programs end at the given positions -/
def upTo (M : Machine α) (goal : ℕ → ℕ) : Machine α where
  prog r t := if t < goal r then M.prog r t else none
  op := M.op
  members := M.members

theorem upTo_prog (h : i < goal r) : (M.upTo goal).prog r i = M.prog r i := if_pos h

theorem upTo_prog_none (h : goal r ≤ i) : (M.upTo goal).prog r i = none := if_neg (not_lt.mpr h)

theorem upTo_prog_some (h : (M.upTo goal).prog r i = some ins) : i < goal r ∧ M.prog r i = some ins := by
  unfold upTo at h
  dsimp only at h
  split_ifs at h with hlt
  exact ⟨hlt, h⟩

theorem upTo_partsAt (h : i < goal r) : (M.upTo goal).partsAt r i = M.partsAt r i := by
  unfold partsAt
  rw [upTo_prog h]

theorem upTo_readsAt (h : i < goal r) : (M.upTo goal).readsAt r i = M.readsAt r i := by
  unfold readsAt
  rw [upTo_prog h]

theorem upTo_destAt (h : i < goal r) : (M.upTo goal).destAt r i = M.destAt r i := by
  unfold destAt
  rw [upTo_prog h]

theorem upTo_arrivals (h : i ≤ goal r) : (M.upTo goal).arrivals r i = M.arrivals r i := by
  unfold arrivals
  congr 1
  refine List.filter_congr fun k hk => ?_
  rw [upTo_prog (lt_of_lt_of_le (List.mem_range.mp hk) h)]

theorem upTo_enabled (hpc : ∀ q, s.pc q ≤ goal q) : (M.upTo goal).Enabled s r ins ↔ M.Enabled s r ins := by
  have hlt : ∀ i < s.pc r, i < goal r := fun i hi => lt_of_lt_of_le hi (hpc r)
  cases ins with
  | putWait => exact forall₂_congr fun i hi => by rw [upTo_readsAt (hlt i hi)]
  | quiet => exact forall₂_congr fun i hi => by rw [upTo_partsAt (hlt i hi)]
  | barOut => exact forall₂_congr fun q hq => by rw [upTo_arrivals (hpc r), upTo_arrivals (hpc q)]
  | _ => exact Iff.rfl

theorem upTo_ordered (h : i < goal r) : (M.upTo goal).Ordered s r i ↔ M.Ordered s r i := by
  refine forall₂_congr fun f hf => ?_
  rw [upTo_prog (hf.trans h)]
  refine forall_congr' fun _ => forall₂_congr fun i' hi' => ?_
  rw [upTo_destAt (hi'.trans (hf.trans h)), upTo_destAt h, upTo_partsAt (hi'.trans (hf.trans h))]

/-- a step of the shorter programs is one of the longer, or nothing -/
theorem upTo_step (hpc : ∀ q, s.pc q ≤ goal q) (o : Op) :
    ((M.upTo goal).step s o = M.step s o ∨ (M.upTo goal).step s o = s) ∧
      ∀ q, ((M.upTo goal).step s o).pc q ≤ goal q := by
  rcases step_cases (M := M.upTo goal) s o with hs | ⟨r, ins, rfl, hp, he, hs⟩ |
    ⟨r, i, j, ins, v, rfl, hp, hi, hj, hn, hv, hs⟩ | ⟨r, i, j, ins, rfl, hp, hd, hs⟩
  · exact ⟨.inr hs, by rwa [hs]⟩
  · obtain ⟨hlt, hp'⟩ := upTo_prog_some hp
    have he' := (upTo_enabled hpc).mp he
    have heff : (M.upTo goal).effect s r ins = M.effect s r ins := by cases ins <;> rfl
    refine ⟨.inl ?_, fun q => ?_⟩
    · rw [hs, heff]
      simp only [Machine.step, hp', if_pos he']
    · rw [hs]
      by_cases hq : q = r
      · subst hq
        rw [advance_pc_self, effect_pc]
        omega
      · rw [advance_pc_other _ hq, effect_pc]
        exact hpc q
  · obtain ⟨-, hp'⟩ := upTo_prog_some hp
    refine ⟨.inl ?_, fun q => by rw [hs]; exact hpc q⟩
    rw [← M.readsAt_eq hp'] at hj
    rw [hs]
    simp only [Machine.step, if_pos (And.intro hi (And.intro hj hn)), hp', Option.bind_some, hv]
  · obtain ⟨hlt, hp'⟩ := upTo_prog_some hp
    refine ⟨.inl ?_, fun q => by rw [hs]; simpa using hpc q⟩
    obtain ⟨hi, hj, hdn, hcap, hord⟩ := hd
    rw [upTo_partsAt hlt] at hj
    rw [upTo_readsAt hlt] at hcap
    have hd' : M.Deliverable s r i j := ⟨hi, hj, hdn, hcap, (upTo_ordered hlt).mp hord⟩
    have harr : (M.upTo goal).arrive s r i j ins = M.arrive s r i j ins := by cases ins <;> rfl
    rw [hs, harr]
    simp only [Machine.step, hp', if_pos hd']

/-- a run of the shorter programs is one of the longer -/
theorem upTo_run (hpc : ∀ q, s.pc q ≤ goal q) (ops : List Op) :
    (∃ ops', (M.upTo goal).run s ops = M.run s ops') ∧ ∀ q, ((M.upTo goal).run s ops).pc q ≤ goal q := by
  induction ops using List.reverseRecOn with
  | nil => exact ⟨⟨[], rfl⟩, hpc⟩
  | append_singleton ops o ih =>
    obtain ⟨⟨ops', heq⟩, hle⟩ := ih
    obtain ⟨hstep, hle'⟩ := upTo_step (M := M) hle o
    have hrun : (M.upTo goal).run s (ops ++ [o]) = (M.upTo goal).step ((M.upTo goal).run s ops) o := Runs.run_snoc ..
    rw [hrun]
    refine ⟨?_, hle'⟩
    rcases hstep with h | h
    · refine ⟨ops' ++ [o], ?_⟩
      rw [h, heq]
      exact (Runs.run_snoc ..).symm
    · exact ⟨ops', by rw [h, heq]⟩

/-! ## Fair schedules -/

/-- the state after n operations of a schedule -/
def after (M : Machine α) (s : St α) (sched : ℕ → Op) (n : ℕ) : St α := Runs.after M.step s sched n

theorem after_eq_run (sched : ℕ → Op) (n : ℕ) : M.after s sched n = M.run s ((List.range n).map sched) :=
  Runs.after_eq_run ..

/-- the elements of the messages of the PEs below n -/
def slots (M : Machine α) (goal : ℕ → ℕ) (n : ℕ) : Finset (ℕ × ℕ × ℕ) :=
  (Finset.range n).biUnion fun r => (Finset.range (goal r)).biUnion fun i =>
    (Finset.range (M.partsAt r i)).image fun j => (r, i, j)

theorem mem_slots {n : ℕ} : (r, i, j) ∈ M.slots goal n ↔ r < n ∧ i < goal r ∧ j < M.partsAt r i := by
  simp only [slots, Finset.mem_biUnion, Finset.mem_range, Finset.mem_image, Prod.mk.injEq]
  constructor
  · rintro ⟨r', hr, i', hi, j', hj, rfl, rfl, rfl⟩
    exact ⟨hr, hi, hj⟩
  · rintro ⟨hr, hi, hj⟩
    exact ⟨r, hr, i, hi, j, hj, rfl, rfl, rfl⟩

/-- how many steps are left: instructions, elements to be read, elements to be delivered -/
def remaining (M : Machine α) (goal : ℕ → ℕ) (n : ℕ) (s : St α) : ℕ :=
  (∑ r ∈ Finset.range n, (goal r - s.pc r)) + ((M.slots goal n).filter fun x => s.cap x.1 x.2.1 x.2.2 = none).card +
    ((M.slots goal n).filter fun x => s.done x.1 x.2.1 x.2.2 = false).card

/-- the programs of the PEs below n end, and the others have none -/
structure Ends (M : Machine α) (goal : ℕ → ℕ) (n : ℕ) : Prop where
  ends : ∀ r t, goal r ≤ t → M.prog r t = none
  below : ∀ r t, n ≤ r → M.prog r t = none

theorem readsAt_le_partsAt (r i : ℕ) : M.readsAt r i ≤ M.partsAt r i := by
  unfold readsAt partsAt
  cases M.prog r i with
  | none => exact le_refl _
  | some ins => cases ins <;> simp [Instr.reads, Instr.parts]

theorem Ends.position {n : ℕ} (hM : M.Ends goal n) (hp : M.prog r i = some ins) : r < n ∧ i < goal r := by
  refine ⟨?_, ?_⟩
  · by_contra hge
    rw [hM.below r i (not_lt.mp hge)] at hp
    cases hp
  · by_contra hge
    rw [hM.ends r i (not_lt.mp hge)] at hp
    cases hp

/-- **A step that changes the state is one less.** -/
theorem Ends.step_remaining {n : ℕ} (hM : M.Ends goal n) (o : Op) :
    M.step s o = s ∨ M.remaining goal n (M.step s o) < M.remaining goal n s := by
  rcases step_cases s o with hs | ⟨r, ins, -, hp, -, hs⟩ | ⟨r, i, j, ins, v, -, hp, -, hj, hn, -, hs⟩ |
    ⟨r, i, j, ins, -, hp, ⟨-, hj, hdn, -, -⟩, hs⟩
  · exact .inl hs
  · right
    obtain ⟨hr, hi⟩ := hM.position hp
    rw [hs]
    unfold remaining
    simp only [advance_cap, effect_cap, advance_done, effect_done]
    refine Nat.add_lt_add_right (Nat.add_lt_add_right ?_ _) _
    refine Finset.sum_lt_sum (fun q _ => ?_) ⟨r, Finset.mem_range.mpr hr, ?_⟩
    · by_cases hq : q = r
      · subst hq
        rw [advance_pc_self, effect_pc]
        omega
      · rw [advance_pc_other _ hq, effect_pc]
    · rw [advance_pc_self, effect_pc]
      omega
  · right
    obtain ⟨hr, hi⟩ := hM.position hp
    rw [← M.readsAt_eq hp] at hj
    rw [hs]
    unfold remaining
    simp only [record_pc, record_done]
    refine Nat.add_lt_add_right (Nat.add_lt_add_left (Finset.card_lt_card ?_) _) _
    refine Finset.ssubset_iff_subset_ne.mpr ⟨fun x hx => ?_, fun heq => ?_⟩
    · obtain ⟨hmem, hnone⟩ := Finset.mem_filter.mp hx
      refine Finset.mem_filter.mpr ⟨hmem, ?_⟩
      by_contra hsome
      obtain ⟨w, hw⟩ := Option.ne_none_iff_exists'.mp hsome
      have hlater := (later_capture s r i j v hn).cap _ _ _ _ hw
      rw [hnone] at hlater
      cases hlater
    · have hmem : (r, i, j) ∈ (M.slots goal n).filter fun x => s.cap x.1 x.2.1 x.2.2 = none :=
        Finset.mem_filter.mpr ⟨mem_slots.mpr ⟨hr, hi, lt_of_lt_of_le hj (readsAt_le_partsAt r i)⟩, hn⟩
      rw [← heq] at hmem
      have hnone := (Finset.mem_filter.mp hmem).2
      simp [record, setCap] at hnone
  · right
    obtain ⟨hr, hi⟩ := hM.position hp
    rw [hs]
    unfold remaining
    simp only [mark_pc, arrive_pc, mark_cap, arrive_cap]
    refine Nat.add_lt_add_left (Finset.card_lt_card ?_) _
    refine Finset.ssubset_iff_subset_ne.mpr ⟨fun x hx => ?_, fun heq => ?_⟩
    · obtain ⟨hmem, hfalse⟩ := Finset.mem_filter.mp hx
      refine Finset.mem_filter.mpr ⟨hmem, ?_⟩
      by_contra htrue
      have hlater := (M.later_deliver s r i j ins).done _ _ _ (Bool.eq_true_of_not_eq_false htrue)
      rw [hfalse] at hlater
      cases hlater
    · have hmem : (r, i, j) ∈ (M.slots goal n).filter fun x => s.done x.1 x.2.1 x.2.2 = false :=
        Finset.mem_filter.mpr ⟨mem_slots.mpr ⟨hr, hi, hj⟩, hdn⟩
      rw [← heq] at hmem
      have hfalse := (Finset.mem_filter.mp hmem).2
      rw [(mark_done ..).mpr (Or.inl ⟨rfl, rfl, rfl⟩)] at hfalse
      cases hfalse

/-- **Under a fair schedule the machine comes to rest.** -/
theorem Ends.rests {n : ℕ} (hM : M.Ends goal n) (s : St α) {sched : ℕ → Op} (hfair : Fair sched) :
    ∃ k, M.Stuck (M.after s sched k) :=
  Runs.fair_rests (I := fun _ => True) (M.remaining goal n) trivial (fun _ _ _ => trivial)
    (fun _ o _ => hM.step_remaining o) hfair

/-! ## No deadlock -/

/-- a state of the shorter programs that is at rest, in terms of the longer: what has been sent has arrived, and who is
not at its end may not go on -/
structure Resting (M : Machine α) (goal : ℕ → ℕ) (s : St α) : Prop where
  pc_le : ∀ r, s.pc r ≤ goal r
  captured : ∀ r i j, i < s.pc r → j < M.readsAt r i → (s.cap r i j).isSome = true
  delivered : ∀ r i j, i < s.pc r → j < M.partsAt r i → s.done r i j = true
  blocked : ∀ r ins, s.pc r < goal r → M.prog r (s.pc r) = some ins → ¬ M.Enabled s r ins

theorem Stuck.resting (h : (M.upTo goal).Stuck s) (hpc : ∀ r, s.pc r ≤ goal r) : M.Resting goal s where
  pc_le := hpc
  captured r i j hi hj := h.captured hi (by rwa [upTo_readsAt (lt_of_lt_of_le hi (hpc r))])
  delivered r i j hi hj := h.delivered hi (by rwa [upTo_partsAt (lt_of_lt_of_le hi (hpc r))])
  blocked r ins hlt hp he := h.not_enabled ((upTo_prog hlt).trans hp) ((upTo_enabled hpc).mpr he)

/-- other ends, with the same instructions before them -/
theorem Resting.of_goal {goal' : ℕ → ℕ} (h : M.Resting goal s) (hle : ∀ r, s.pc r ≤ goal' r)
    (hlt : ∀ r ins, s.pc r < goal' r → M.prog r (s.pc r) = some ins → s.pc r < goal r) : M.Resting goal' s where
  pc_le := hle
  captured := h.captured
  delivered := h.delivered
  blocked r ins hr hp := h.blocked r ins (hlt r ins hr hp) hp

/-- nobody rests at an instruction that waits for nothing but messages of its own -/
theorem Resting.waits (h : M.Resting goal s) (hlt : s.pc r < goal r) (hp : M.prog r (s.pc r) = some ins) :
    (∃ c cmp v, ins = .waitUntil c cmp v ∧ ¬ cmp.holds (s.cell r c) v) ∨
      (∃ c v, ins = .assertLt c v ∧ v ≤ s.cell r c) ∨
      (ins = .barOut ∧ ∃ q ∈ M.members, M.arrivals q (s.pc q) < M.arrivals r (s.pc r)) := by
  have hne := h.blocked r ins hlt hp
  cases ins with
  | waitUntil c cmp v => exact .inl ⟨c, cmp, v, rfl, hne⟩
  | assertLt c v => exact .inr (.inl ⟨c, v, rfl, not_lt.mp hne⟩)
  | putWait => exact absurd (fun i hi j hj => h.captured r i j hi hj) hne
  | quiet => exact absurd (fun i hi j hj => h.delivered r i j hi hj) hne
  | barOut =>
    refine .inr (.inr ⟨rfl, ?_⟩)
    by_contra hall
    push Not at hall
    exact hne hall
  | _ => exact absurd trivial hne

/-- programs of one length: if nobody rests where all the others are, too, or behind them, all are at their end -/
theorem all_through {ms : List ℕ} {L : ℕ} (hstep : ∀ n < L, (∀ v ∈ ms, n ≤ s.pc v) → ∀ v ∈ ms, s.pc v ≠ n) :
    ∀ v ∈ ms, L ≤ s.pc v := by
  have hall : ∀ n ≤ L, ∀ v ∈ ms, n ≤ s.pc v := by
    intro n
    induction n with
    | zero => exact fun _ v _ => Nat.zero_le _
    | succ n ih =>
      intro hn v hv
      have hge := ih (by omega)
      have hne := hstep n (by omega) hge v hv
      have hle := hge v hv
      omega
  exact hall L (le_refl L)

theorem upTo_eq_self (h : ∀ r t, goal r ≤ t → M.prog r t = none) : M.upTo goal = M := by
  have hprog : (M.upTo goal).prog = M.prog := by
    funext r t
    by_cases ht : t < goal r
    · exact upTo_prog ht
    · rw [upTo_prog_none (not_lt.mp ht), h r t (not_lt.mp ht)]
  unfold upTo at hprog ⊢
  simp only at hprog
  rw [hprog]

/-- **No deadlock.** If every state at rest that can be reached is final, every fair schedule reaches a final state. -/
theorem fair_finishes {n : ℕ} (hbelow : ∀ r t, n ≤ r → M.prog r t = none) (hpc : ∀ r, s.pc r ≤ goal r)
    (Final : St α → Prop) (hfinal : ∀ ops, M.Resting goal (M.run s ops) → Final (M.run s ops)) {sched : ℕ → Op}
    (hfair : Fair sched) : ∃ k, Final ((M.upTo goal).after s sched k) := by
  have hM : (M.upTo goal).Ends goal n := by
    refine ⟨fun r t => upTo_prog_none, fun r t hr => ?_⟩
    by_cases ht : t < goal r
    · rw [upTo_prog ht, hbelow r t hr]
    · exact upTo_prog_none (not_lt.mp ht)
  obtain ⟨k, hk⟩ := hM.rests s hfair
  refine ⟨k, ?_⟩
  rw [after_eq_run] at hk ⊢
  obtain ⟨⟨ops, heq⟩, hle⟩ := upTo_run (M := M) hpc ((List.range k).map sched)
  have hrest := hk.resting hle
  rw [heq] at hrest ⊢
  exact hfinal ops hrest

/-- a collective inside a program that is at rest is at rest itself, when all have reached it -/
theorem Resting.slice {N : Machine Unit} {base : ℕ} {off len : ℕ → ℕ} (L : Slice M N base off len) (h : M.Resting goal s)
    (hoff : ∀ v, 0 < len v → off v ≤ s.pc v) (hgoal : ∀ v, 0 < len v → off v + len v ≤ goal v) :
    N.Resting len (proj base off len s) where
  pc_le v := min_le_right _ _
  captured v i j hi hj := by
    have hlt : i < len v := lt_of_lt_of_le hi (min_le_right _ _)
    cases hp : N.prog v i with
    | none => simp [readsAt, hp] at hj
    | some ins =>
      rw [N.readsAt_eq hp, Instr.reads_of_cellular (L.cellular v i ins hlt hp)] at hj
      exact absurd hj (Nat.not_lt_zero j)
  delivered v i j hi hj := by
    have hlt : i < len v := lt_of_lt_of_le hi (min_le_right _ _)
    have hpc : i < s.pc v - off v := lt_of_lt_of_le hi (min_le_left _ _)
    rw [L.partsAt_eq hlt] at hj
    exact Slice.proj_done.mpr ⟨hlt, h.delivered _ _ _ (by omega) hj⟩
  blocked v ins hlt hp he := by
    have hmin : (proj base off len s).pc v = min (s.pc v - off v) (len v) := rfl
    have hge := hoff v (by omega)
    have hpc : s.pc v = off v + (proj base off len s).pc v := by omega
    generalize (proj base off len s).pc v = x at hlt hp hpc
    have hcode := L.code v x hlt
    rw [hp, Option.map_some, ← hpc] at hcode
    refine h.blocked v _ (by have := hgoal v (by omega); omega) hcode ?_
    cases ins with
    | waitUntil c cmp z =>
      rw [Enabled, Slice.proj_cell (by omega)] at he
      exact he
    | assertLt c z =>
      rw [Enabled, Slice.proj_cell (by omega)] at he
      exact he
    | putWait => exact fun i hi j hj => h.captured v i j hi hj
    | quiet => exact fun i hi j hj => h.delivered v i j hi hj
    | barOut => exact absurd (L.cellular v x _ hlt hp) Bool.noConfusion
    | _ => trivial

/-- every operation has a number -/
def opOf (m : ℕ) : Op :=
  let x := (m / 3).unpair
  if m % 3 = 0 then .exec (m / 3)
  else if m % 3 = 1 then .capture x.1 x.2.unpair.1 x.2.unpair.2
  else .deliver x.1 x.2.unpair.1 x.2.unpair.2

/-- a schedule that goes through the numbers again and again -/
def cycle (n : ℕ) : Op := opOf n.unpair.1

theorem fair_cycle : Fair cycle := by
  have hsurj : ∀ o, ∃ m, opOf m = o := by
    intro o
    cases o with
    | exec r =>
      refine ⟨3 * r, ?_⟩
      rw [opOf, if_pos (by omega), show 3 * r / 3 = r by omega]
    | capture r i j =>
      refine ⟨3 * Nat.pair r (Nat.pair i j) + 1, ?_⟩
      rw [opOf, if_neg (by omega), if_pos (by omega)]
      simp [show (3 * Nat.pair r (Nat.pair i j) + 1) / 3 = Nat.pair r (Nat.pair i j) by omega]
    | deliver r i j =>
      refine ⟨3 * Nat.pair r (Nat.pair i j) + 2, ?_⟩
      rw [opOf, if_neg (by omega), if_neg (by omega)]
      simp [show (3 * Nat.pair r (Nat.pair i j) + 2) / 3 = Nat.pair r (Nat.pair i j) by omega]
  intro o n
  obtain ⟨m, rfl⟩ := hsurj o
  exact ⟨Nat.pair m n, Nat.right_le_pair m n, by rw [cycle, Nat.unpair_pair]⟩

end OneSided.Machine

/-! ## Registers -/

namespace OneSided.RegMachine

open Machine

variable {α : Type*} {R : RegMachine α} {val : ℕ → ℤ} {I : St α → Prop} {x : RegSt α}

/-- what holds in every run -/
def Sound (R : RegMachine α) (val : ℕ → ℤ) (I : St α → Prop) (x : RegSt α) : Prop :=
  (R.static val).Hist x.st ∧ R.InOrder x.st ∧ I x.st ∧ R.Set val x

/-- the state after n operations of a schedule -/
def after (R : RegMachine α) (x : RegSt α) (sched : ℕ → Op) (n : ℕ) : RegSt α := Runs.after R.step x sched n

theorem after_eq_run (sched : ℕ → Op) (n : ℕ) : R.after x sched n = R.run x ((List.range n).map sched) :=
  Runs.after_eq_run ..

/-- a step is one of the program without registers, or a message waits for the one it is behind -/
theorem Keeps.step_st (k : R.Keeps val I) (hset : R.Set val x) (o : Op) :
    (R.step x o).st = (R.static val).step x.st o ∨
      R.step x o = x ∧ ∃ r i j, o = .deliver r i j ∧ ∃ i' ∈ R.behind r i, x.st.done r i' 0 ≠ true := by
  cases o with
  | exec r =>
    left
    simp only [RegMachine.step]
    cases hc : R.code r (x.st.pc r) with
    | none => exact k.step_eq hset (.exec r)
    | some c =>
      cases c with
      | fixed ins => exact k.step_eq hset (.exec r)
      | uses f => exact k.step_eq hset (.exec r)
      | _ => simp [Machine.step, static, hc, Code.instr, Enabled, effect]
  | capture r i j => exact .inl (k.step_eq hset (.capture r i j))
  | deliver r i j =>
    simp only [RegMachine.step]
    split_ifs with hb
    · exact .inl (k.step_eq hset (.deliver r i j))
    · push Not at hb
      exact .inr ⟨rfl, r, i, j, rfl, hb⟩

/-- a register is set only with a step of the program -/
theorem step_of_st {o : Op} (h : (R.step x o).st = x.st) : R.step x o = x := by
  have hreg : (R.step x o).reg = x.reg := by
    cases o with
    | exec r =>
      have hadv : ∀ reg, (⟨advance x.st r, reg⟩ : RegSt α).st ≠ x.st := by
        intro reg heq
        have hpc : (advance x.st r).pc r = x.st.pc r := congrArg (fun s => s.pc r) heq
        rw [advance_pc_self] at hpc
        omega
      simp only [RegMachine.step] at h ⊢
      split at h
      · exact absurd h (hadv _)
      · exact absurd h (hadv _)
      · rfl
    | capture r i j => rfl
    | deliver r i j =>
      simp only [RegMachine.step]
      split_ifs <;> rfl
  calc R.step x o = ⟨(R.step x o).st, (R.step x o).reg⟩ := rfl
    _ = x := by rw [h, hreg]

/-- where no operation changes anything, the program without registers is at rest, too -/
theorem Keeps.stuck (k : R.Keeps val I) (hset : R.Set val x) (hstill : ∀ o, R.step x o = x)
    (hbehind : ∀ r i, ∀ i' ∈ R.behind r i, i' < i ∧ 0 < (R.static val).partsAt r i') : (R.static val).Stuck x.st := by
  have hstuck : ∀ o, (∀ r i j, o = .deliver r i j → ∀ i' ∈ R.behind r i, i < x.st.pc r → x.st.done r i' 0 = true) →
      (R.static val).step x.st o = x.st := by
    intro o hb
    rcases k.step_st hset o with hs | ⟨-, r, i, j, rfl, i', hi', hnot⟩
    · rw [← hs, hstill]
    · by_contra hne
      have hpc : i < x.st.pc r := by
        by_contra hlt
        refine hne ?_
        simp only [Machine.step]
        split
        · rfl
        · exact if_neg fun hd => hlt hd.1
      exact hnot (hb r i j rfl i' hi' hpc)
  have hcap : ∀ r i j, (R.static val).step x.st (.capture r i j) = x.st := fun r i j =>
    hstuck _ fun _ _ _ h => absurd h Op.noConfusion
  -- what a message is behind has been sent before it
  have hdel : ∀ r i j, (R.static val).step x.st (.deliver r i j) = x.st := by
    intro r i
    induction i using Nat.strong_induction_on with
    | _ i ih =>
      refine fun j => hstuck _ fun r' i₁ j₁ heq i' hi' hpc => ?_
      cases heq
      obtain ⟨hlt, hparts⟩ := hbehind r i i' hi'
      exact delivered_of_rest (hcap r) (fun i'' hi'' => ih i'' (by omega)) (by omega) hparts
  intro o
  cases o with
  | exec r => exact hstuck _ fun _ _ _ h => absurd h Op.noConfusion
  | capture r i j => exact hcap r i j
  | deliver r i j => exact hdel r i j

/-- **Programs with registers come to rest.** -/
theorem Keeps.rests (k : R.Keeps val I) {goal : ℕ → ℕ} {n : ℕ} (hM : (R.static val).Ends goal n)
    (hbehind : ∀ r i, ∀ i' ∈ R.behind r i, i' < i ∧ 0 < (R.static val).partsAt r i') {c0 : ℕ → ℕ → ℤ}
    {m0 : ℕ → Loc → α} (reg0 : ℕ → ℤ) (hi : I (init c0 m0)) {sched : ℕ → Op} (hfair : Fair sched) :
    ∃ m, (R.static val).Resting goal (R.after ⟨init c0 m0, reg0⟩ sched m).st := by
  have hkeep : ∀ x o, R.Sound val I x → R.Sound val I (R.step x o) := fun x o h => k.step o h
  have h0 : R.Sound val I ⟨init c0 m0, reg0⟩ := k.run reg0 hi []
  have hupTo : (R.static val).upTo goal = R.static val := upTo_eq_self hM.ends
  have hle : ∀ x o, R.Sound val I x ∧ (∀ q, x.st.pc q ≤ goal q) →
      R.Sound val I (R.step x o) ∧ ∀ q, (R.step x o).st.pc q ≤ goal q := by
    rintro x o ⟨h, hle⟩
    refine ⟨hkeep x o h, ?_⟩
    rcases k.step_st h.2.2.2 o with hs | ⟨hs, -⟩
    · rw [hs, ← hupTo]
      exact (upTo_step hle o).2
    · rwa [hs]
  have hless : ∀ x o, R.Sound val I x → R.step x o = x ∨
      (R.static val).remaining goal n (R.step x o).st < (R.static val).remaining goal n x.st := by
    intro x o h
    rcases k.step_st h.2.2.2 o with hs | ⟨hs, -⟩
    · rcases hM.step_remaining (s := x.st) o with hsame | hless
      · exact .inl (step_of_st (hs.trans hsame))
      · exact .inr (lt_of_eq_of_lt (congrArg _ hs) hless)
    · exact .inl hs
  obtain ⟨m, hstill⟩ := Runs.fair_rests (fun x => (R.static val).remaining goal n x.st) h0 hkeep hless hfair
  refine ⟨m, ?_⟩
  have hinv := Runs.run_inv R.step _ hle _ ⟨h0, fun q => Nat.zero_le _⟩ ((List.range m).map sched)
  rw [← Runs.after_eq_run] at hinv
  have hstuck := k.stuck hinv.1.2.2.2 hstill hbehind
  rw [← hupTo] at hstuck
  exact hstuck.resting hinv.2

end OneSided.RegMachine
