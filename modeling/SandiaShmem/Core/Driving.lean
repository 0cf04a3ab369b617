/-
Runs of the one-sided machine that move one PE on, for showing that a state is reached.

- `Reaches`: some schedule leads from one state to another.
- `reaches_silent`, `reaches_free`: a PE gets past a wait that is over, and through instructions that do not wait.
- `reaches_sends`: a message without a buffer is sent and arrives.
- `exists_captured`: the buffers of all that a PE has issued can be read.
- `exists_arrived`: a message can be delivered, all its elements.
- `exists_sent`: a PE that puts and then adds gets through, and both arrive.
-/
import SandiaShmem.Core.OneSided

namespace OneSided

/-- it does not wait and changes nothing on the PE that executes it -/
def Instr.free : Instr → Bool
  | .enter => true
  | .putScalar .. => true
  | .atomicAdd .. => true
  | .putNb .. => true
  | .atomicv .. => true
  | .fence => true
  | _ => false

namespace Machine
variable {α : Type*} (M : Machine α)

/-- a schedule leads from s to s' -/
def Reaches (s s' : St α) : Prop := ∃ ops, M.run s ops = s'

variable {M} {s s' s'' : St α} {r i j : ℕ} {ins : Instr}

theorem Reaches.refl (s : St α) : M.Reaches s s := ⟨[], rfl⟩

theorem Reaches.trans (h : M.Reaches s s') (h' : M.Reaches s' s'') : M.Reaches s s'' := by
  obtain ⟨ops, rfl⟩ := h
  obtain ⟨ops', rfl⟩ := h'
  exact ⟨ops ++ ops', Runs.run_append M.step s ops ops'⟩

theorem Reaches.hist (h : M.Reaches s s') (hh : M.Hist s) : M.Hist s' := by
  obtain ⟨ops, rfl⟩ := h
  exact Runs.run_inv M.step M.Hist (fun _ o hh => hh.step o) s hh ops

theorem reaches_exec (hp : M.prog r (s.pc r) = some ins) (he : M.Enabled s r ins) :
    M.Reaches s (advance (M.effect s r ins) r) := by
  refine ⟨[.exec r], ?_⟩
  rw [Machine.run, Runs.run_cons, Runs.run_nil, Machine.step, hp]
  exact if_pos he

theorem reaches_deliver (hp : M.prog r i = some ins) (hd : M.Deliverable s r i j) :
    M.Reaches s (mark (M.arrive s r i j ins) r i j) := by
  refine ⟨[.deliver r i j], ?_⟩
  rw [Machine.run, Runs.run_cons, Runs.run_nil, Machine.step, hp]
  exact if_pos hd

theorem advance_eq (s : St α) (r : ℕ) : advance s r = { s with pc := Function.update s.pc r (s.pc r + 1) } := rfl

/-- a PE gets past an instruction that changes nothing, when it does not have to wait -/
theorem reaches_silent {a : ℕ} (hpc : s.pc r = a) (hp : M.prog r a = some ins) (hs : ins.silent = true)
    (he : M.Enabled s r ins) : M.Reaches s { s with pc := Function.update s.pc r (a + 1) } := by
  subst hpc
  have hstep := reaches_exec hp he
  rwa [effect_silent M s r hs, advance_eq] at hstep

/-- a PE gets through n instructions that do not wait -/
theorem reaches_free {a : ℕ} (n : ℕ) (hpc : s.pc r = a)
    (h : ∀ k < n, ∃ ins, M.prog r (a + k) = some ins ∧ ins.free = true) :
    M.Reaches s { s with pc := Function.update s.pc r (a + n) } := by
  subst hpc
  induction n with
  | zero =>
    rw [Nat.add_zero, Function.update_eq_self]
    exact Reaches.refl s
  | succ n ih =>
    refine (ih fun k hk => h k (by omega)).trans ?_
    obtain ⟨ins, hp, hfree⟩ := h n (Nat.lt_succ_self n)
    have hstep : M.Reaches { s with pc := Function.update s.pc r (s.pc r + n) } (advance (M.effect
        { s with pc := Function.update s.pc r (s.pc r + n) } r ins) r) := by
      refine reaches_exec (by simpa only [Function.update_self] using hp) ?_
      cases ins <;> trivial
    have heff : M.effect { s with pc := Function.update s.pc r (s.pc r + n) } r ins =
        { s with pc := Function.update s.pc r (s.pc r + n) } := by
      cases ins <;> first | rfl | exact absurd hfree (by simp [Instr.free])
    rw [heff, advance_eq] at hstep
    simpa [Nat.add_assoc] using hstep

/-- nothing that is still to be issued has arrived -/
theorem Hist.new (hh : M.Hist s) {t : ℕ} (ht : s.pc r ≤ t) (j : ℕ) : s.done r t j = false := by
  rw [Bool.eq_false_iff]
  intro hd
  exact absurd (hh.doneIssued r t j hd).1 (not_lt.mpr ht)

/-- a PE sends a message of one element without a buffer, and it arrives at once -/
theorem reaches_sends {a : ℕ} (hh : M.Hist s) (hpc : s.pc r = a) (hp : M.prog r a = some ins) (hfree : ins.free = true)
    (hparts : ins.parts = 1) (hreads : ins.reads = 0) (hord : M.Ordered s r a) :
    M.Reaches s (mark (M.arrive { s with pc := Function.update s.pc r (a + 1) } r a 0 ins) r a 0) := by
  have hissue := reaches_free (M := M) 1 hpc fun k hk => by
    obtain rfl : k = 0 := by omega
    exact ⟨ins, hp, hfree⟩
  refine hissue.trans (reaches_deliver hp ⟨?_, ?_, hh.new hpc.le 0, fun hr => ?_, hord⟩)
  · simp
  · rw [M.partsAt_eq hp, hparts]
    exact Nat.one_pos
  · rw [M.readsAt_eq hp, hreads] at hr
    exact absurd hr (Nat.not_lt_zero _)

/-- an instruction reads its elements from a buffer -/
theorem source_isSome (s : St α) (r : ℕ) (hj : j < ins.reads) : ∃ v, source s r j ins = some v := by
  cases ins <;> first | exact ⟨_, rfl⟩ | exact absurd hj (Nat.not_lt_zero _)

theorem reaches_capture (hp : M.prog r i = some ins) (hi : i < s.pc r) (hj : j < ins.reads) :
    ∃ cap, M.Reaches s { s with cap := cap } ∧ (cap r i j).isSome = true ∧
      ∀ q t k, (s.cap q t k).isSome = true → (cap q t k).isSome = true := by
  by_cases hc : s.cap r i j = none
  · obtain ⟨v, hv⟩ := source_isSome s r hj
    refine ⟨setCap s.cap r i j v, ⟨[.capture r i j], ?_⟩, by simp [setCap], fun q t k hk => ?_⟩
    · rw [Machine.run, Runs.run_cons, Runs.run_nil, Machine.step, if_pos ⟨hi, by rwa [M.readsAt_eq hp], hc⟩, hp,
        Option.bind_some, hv]
      rfl
    · unfold setCap
      split_ifs
      · rfl
      · exact hk
  · exact ⟨s.cap, Reaches.refl s, Option.isSome_iff_ne_none.mpr hc, fun _ _ _ hk => hk⟩

/-- the buffers of all that a PE has issued can be read -/
theorem exists_captured (s : St α) (r : ℕ) : ∃ cap, M.Reaches s { s with cap := cap } ∧
    (∀ i < s.pc r, ∀ j < M.readsAt r i, (cap r i j).isSome = true) ∧
      ∀ q t k, (s.cap q t k).isSome = true → (cap q t k).isSome = true := by
  -- one element after the other
  have hlist : ∀ l : List (ℕ × ℕ), (∀ x ∈ l, x.1 < s.pc r ∧ x.2 < M.readsAt r x.1) →
      ∃ cap, M.Reaches s { s with cap := cap } ∧ (∀ x ∈ l, (cap r x.1 x.2).isSome = true) ∧
        ∀ q t k, (s.cap q t k).isSome = true → (cap q t k).isSome = true := by
    intro l
    induction l with
    | nil => exact fun _ => ⟨s.cap, Reaches.refl s, fun x hx => absurd hx List.not_mem_nil, fun _ _ _ hk => hk⟩
    | cons x l ih =>
      intro hl
      obtain ⟨cap, hreach, hsome, hkeep⟩ := ih fun y hy => hl y (List.mem_cons_of_mem x hy)
      obtain ⟨hpc, hx⟩ := hl x List.mem_cons_self
      obtain ⟨ins, hp⟩ : ∃ ins, M.prog r x.1 = some ins := by
        by_contra hno
        rw [readsAt, Option.eq_none_iff_forall_ne_some.mpr fun ins hp => hno ⟨ins, hp⟩] at hx
        exact absurd hx (Nat.not_lt_zero _)
      rw [M.readsAt_eq hp] at hx
      obtain ⟨cap', hreach', hsome', hkeep'⟩ := reaches_capture (s := { s with cap := cap }) hp hpc hx
      refine ⟨cap', hreach.trans hreach', fun y hy => ?_, fun q t k hk => hkeep' q t k (hkeep q t k hk)⟩
      rcases List.mem_cons.mp hy with rfl | hy
      · exact hsome'
      · exact hkeep' _ _ _ (hsome y hy)
  obtain ⟨cap, hreach, hsome, hkeep⟩ := hlist
    ((List.range (s.pc r)).flatMap fun i => (List.range (M.readsAt r i)).map fun j => (i, j)) fun x hx => by
      simp only [List.mem_flatMap, List.mem_range, List.mem_map] at hx
      obtain ⟨i, hi, j, hj, rfl⟩ := hx
      exact ⟨hi, hj⟩
  refine ⟨cap, hreach, fun i hi j hj => hsome (i, j) ?_, hkeep⟩
  exact List.mem_flatMap.mpr ⟨i, List.mem_range.mpr hi, List.mem_map.mpr ⟨j, List.mem_range.mpr hj, rfl⟩⟩

/-- a put whose buffer has been read can be delivered, all its elements -/
theorem exists_arrived {dst len pe : ℕ} {src : Loc} (hp : M.prog r i = some (.putNb dst src len pe)) (hi : i < s.pc r)
    (hcap : ∀ j < len, (s.cap r i j).isSome = true) (hord : M.Ordered s r i) :
    ∃ mem done, M.Reaches s { s with mem := mem, done := done } ∧
      ∀ q t j, done q t j = true ↔ s.done q t j = true ∨ (q = r ∧ t = i ∧ j < len) := by
  have hfirst : ∀ n ≤ len, ∃ mem done, M.Reaches s { s with mem := mem, done := done } ∧
      ∀ q t j, done q t j = true ↔ s.done q t j = true ∨ (q = r ∧ t = i ∧ j < n) := by
    intro n
    induction n with
    | zero => exact fun _ => ⟨s.mem, s.done, Reaches.refl s, fun q t j => by simp⟩
    | succ n ih =>
      intro hn
      obtain ⟨mem, done, hreach, hdone⟩ := ih (by omega)
      by_cases hdn : done r i n = true
      · refine ⟨mem, done, hreach, fun q t j => ?_⟩
        rw [hdone]
        refine or_congr_right' fun hnd => and_congr_right fun hq => and_congr_right fun ht => ?_
        subst hq ht
        have hne : j ≠ n := by
          rintro rfl
          rcases (hdone _ _ _).mp hdn with h | ⟨-, -, h⟩
          · exact hnd h
          · omega
        omega
      · have hlater : Later s { s with mem := mem, done := done } :=
          ⟨fun _ => le_refl _, fun q t j h => (hdone q t j).mpr (.inl h), fun _ _ _ _ h => h⟩
        have hd : M.Deliverable { s with mem := mem, done := done } r i n := by
          refine ⟨hi, ?_, by simpa using hdn, fun _ => hcap n (by omega), hord.later hlater⟩
          rw [M.partsAt_eq hp]
          exact hn
        obtain ⟨v, hv⟩ := Option.isSome_iff_exists.mp (hcap n (by omega))
        refine ⟨setLoc mem pe (.sym (dst + n)) v, setDone done r i n, ?_, fun q t j => ?_⟩
        · have hstep := hreach.trans (reaches_deliver hp hd)
          simp only [arrive, hv] at hstep
          exact hstep
        · rw [setDone_eq_true, hdone]
          constructor
          · rintro (⟨rfl, rfl, rfl⟩ | h | ⟨rfl, rfl, hj⟩)
            · exact .inr ⟨rfl, rfl, Nat.lt_succ_self _⟩
            · exact .inl h
            · exact .inr ⟨rfl, rfl, by omega⟩
          · rintro (h | ⟨rfl, rfl, hj⟩)
            · exact .inr (.inl h)
            · rcases Nat.lt_succ_iff_lt_or_eq.mp hj with hj | rfl
              · exact .inr (.inr ⟨rfl, rfl, hj⟩)
              · exact .inl ⟨rfl, rfl, rfl⟩
  exact hfirst len le_rfl

/-- a PE puts, waits for its buffer, and adds behind a fence: all of it can arrive -/
theorem exists_sent {dst len pe c : ℕ} {src : Loc} {x : ℤ} (hh : M.Hist s) (hpc : s.pc r = 0)
    (hput : M.prog r 0 = some (.putNb dst src len pe)) (hwait : M.prog r 1 = some .putWait)
    (hfence : M.prog r 2 = some .fence) (hadd : M.prog r 3 = some (.atomicAdd c x pe)) :
    ∃ s', M.Reaches s s' ∧ s'.pc = Function.update s.pc r 4 ∧ s'.cell = setCell s.cell pe c (s.cell pe c + x) := by
  have hissue := reaches_free (M := M) 1 hpc fun k hk => by
    obtain rfl : k = 0 := by omega
    exact ⟨_, hput, rfl⟩
  obtain ⟨cap, hread, hsome, -⟩ := exists_captured (M := M) { s with pc := Function.update s.pc r (0 + 1) } r
  simp only [Function.update_self] at hread hsome
  have hcap : ∀ j < len, (cap r 0 j).isSome = true := by
    intro j hj
    refine hsome 0 Nat.one_pos j ?_
    rw [M.readsAt_eq hput]
    exact hj
  have hread₁ := reaches_silent (M := M) (s := { s with pc := Function.update s.pc r (0 + 1), cap := cap })
    (Function.update_self ..) hwait rfl fun i hi j hj => by
      simp only [Function.update_self] at hi
      exact hsome i hi j hj
  have hbehind := reaches_free (M := M) (s := { s with
      pc := Function.update (Function.update s.pc r (0 + 1)) r (0 + 1 + 1), cap := cap }) 2
    (Function.update_self ..) fun k hk => by
      have hcases : k = 0 ∨ k = 1 := by omega
      rcases hcases with rfl | rfl
      · exact ⟨_, hfence, rfl⟩
      · exact ⟨_, hadd, rfl⟩
  simp only [Function.update_idem, Nat.zero_add, Nat.reduceAdd] at hissue hread hread₁ hbehind
  obtain ⟨mem, done, hdata, hdone⟩ := exists_arrived (M := M) (s := { s with
      pc := Function.update s.pc r 4, cap := cap }) hput (by simp) hcap fun f hf => absurd hf (Nat.not_lt_zero f)
  have hdel : M.Deliverable { s with pc := Function.update s.pc r 4, cap := cap, mem := mem, done := done } r 3 0 := by
    refine ⟨by simp, ?_, ?_, fun hr => ?_, fun f hf hp t ht hd j hj => ?_⟩
    · rw [M.partsAt_eq hadd]
      exact Nat.one_pos
    · rw [Bool.eq_false_iff]
      intro hd
      rcases (hdone _ _ _).mp hd with h | ⟨-, h, -⟩
      · exact absurd (h.symm.trans (hh.new (show s.pc r ≤ 3 by omega) 0)) (by decide)
      · exact absurd h (by decide)
    · rw [M.readsAt_eq hadd] at hr
      exact absurd hr (Nat.not_lt_zero _)
    · -- only the put goes to the PE before a fence
      have hcases : t = 0 ∨ t = 1 := by omega
      rcases hcases with rfl | rfl
      · rw [M.partsAt_eq hput] at hj
        exact (hdone _ _ _).mpr (.inr ⟨rfl, rfl, hj⟩)
      · rw [M.destAt_eq hwait, M.destAt_eq hadd] at hd
        exact absurd hd (by simp [Instr.dest])
  refine ⟨_, (((hissue.trans hread).trans hread₁).trans hbehind).trans (hdata.trans (reaches_deliver hadd hdel)), rfl, rfl⟩

end Machine

end OneSided
