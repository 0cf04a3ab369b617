/-
Programs that compute what they send.

A PE has a register that it sets from a cell or to a value, and later instructions depend on it. A message may also be
ordered behind another one of its PE: the two are one message of the program that becomes visible in this order.

If it is known what the registers are going to hold, the program is one without registers (`static`), and a run of it is
a run of that program, as long as every load finds what it should. The proof that it does may use everything that holds in
the run so far, so both are one induction.

- `RegMachine`, `step`: the machine.
- `step_congr`: a step depends on the programs up to the positions of the PEs only.
- `RegMachine.Keeps.run`: the invariant rule.
-/
import SandiaShmem.Core.OneSided

namespace OneSided

open Machine

/-! ## Steps and programs -/

namespace Machine
variable {α : Type*} {M M' : Machine α} {s : St α} (hmem : M.members = M'.members)
  (hprog : ∀ r, ∀ t ≤ s.pc r, M.prog r t = M'.prog r t)
include hprog

theorem partsAt_congr {r i : ℕ} (hi : i ≤ s.pc r) : M.partsAt r i = M'.partsAt r i := by
  rw [partsAt, partsAt, hprog r i hi]

theorem readsAt_congr {r i : ℕ} (hi : i ≤ s.pc r) : M.readsAt r i = M'.readsAt r i := by
  rw [readsAt, readsAt, hprog r i hi]

theorem destAt_congr {r i : ℕ} (hi : i ≤ s.pc r) : M.destAt r i = M'.destAt r i := by
  rw [destAt, destAt, hprog r i hi]

theorem arrivals_congr (q : ℕ) : M.arrivals q (s.pc q) = M'.arrivals q (s.pc q) := by
  simp only [arrivals]
  congr 1
  refine List.filter_congr fun k hk => ?_
  rw [hprog q k (List.mem_range.mp hk).le]

include hmem in
theorem enabled_congr (r : ℕ) (ins : Instr) : M.Enabled s r ins ↔ M'.Enabled s r ins := by
  cases ins with
  | putWait =>
    refine forall₂_congr fun i hi => ?_
    rw [readsAt_congr hprog hi.le]
  | quiet =>
    refine forall₂_congr fun i hi => ?_
    rw [partsAt_congr hprog hi.le]
  | barOut =>
    simp only [Enabled, hmem]
    refine forall₂_congr fun q _ => ?_
    rw [arrivals_congr hprog, arrivals_congr hprog]
  | _ => exact Iff.rfl

theorem deliverable_congr {r i : ℕ} (hi : i < s.pc r) (j : ℕ) : M.Deliverable s r i j ↔ M'.Deliverable s r i j := by
  have hord : M.Ordered s r i ↔ M'.Ordered s r i := by
    refine forall₂_congr fun f hf => ?_
    rw [hprog r f (by omega)]
    refine forall_congr' fun _ => forall₂_congr fun i' hi' => ?_
    rw [destAt_congr hprog (show i' ≤ s.pc r by omega), destAt_congr hprog hi.le,
      partsAt_congr hprog (show i' ≤ s.pc r by omega)]
  simp only [Deliverable, partsAt_congr hprog hi.le, readsAt_congr hprog hi.le, hord]

include hmem in
/-- two machines whose programs agree as far as they have been executed do the same -/
theorem step_congr (hop : M.op = M'.op) (o : Op) : M.step s o = M'.step s o := by
  cases o with
  | exec r =>
    simp only [Machine.step]
    rw [hprog r _ (le_refl _)]
    cases M'.prog r (s.pc r) with
    | none => rfl
    | some ins =>
      have heff : M.effect s r ins = M'.effect s r ins := by cases ins <;> simp only [effect, hop]
      simp only [enabled_congr hmem hprog r ins, heff]
  | capture r i j =>
    simp only [Machine.step]
    by_cases hi : i < s.pc r
    · rw [readsAt_congr hprog hi.le, hprog r i hi.le]
    · rw [if_neg (fun hc => hi hc.1), if_neg (fun hc => hi hc.1)]
  | deliver r i j =>
    simp only [Machine.step]
    by_cases hi : i < s.pc r
    · rw [hprog r i hi.le]
      cases M'.prog r i with
      | none => rfl
      | some ins =>
        have harr : M.arrive s r i j ins = M'.arrive s r i j ins := by cases ins <;> simp only [arrive, hop]
        simp only [deliverable_congr hprog hi j, harr]
    · have hnot : ∀ N : Machine α, N.step s (.deliver r i j) = s := by
        intro N
        simp only [Machine.step]
        split
        · rfl
        · exact if_neg fun hd => hi hd.1
      exact (hnot M).trans (hnot M').symm

end Machine

/-! ## Registers -/

/-- an instruction, or something with the register of the PE -/
inductive Code where
  | fixed (ins : Instr)
  /-- the register gets a value -/
  | assign (v : ℤ)
  /-- the register gets the value of a cell -/
  | load (cell : ℕ)
  /-- an instruction that depends on the register -/
  | uses (f : ℤ → Instr)

/-- the instruction when the register holds z -/
def Code.instr (z : ℤ) : Code → Instr
  | .fixed ins => ins
  | .assign _ => .enter
  | .load _ => .enter
  | .uses f => f z

/-- the programs, and which messages are ordered behind which -/
structure RegMachine (α : Type*) where
  code : ℕ → ℕ → Option Code
  behind : ℕ → ℕ → Option ℕ
  op : α → α → α
  members : List ℕ

/-- the state with the registers -/
structure RegSt (α : Type*) where
  st : St α
  reg : ℕ → ℤ

namespace RegMachine
variable {α : Type*} (R : RegMachine α)

/-- the machine when the registers hold `reg` -/
def static (reg : ℕ → ℤ) : Machine α where
  prog r t := (R.code r t).map (Code.instr (reg r))
  op := R.op
  members := R.members

/-- one step -/
def step (x : RegSt α) : Op → RegSt α
  | .exec r =>
    match R.code r (x.st.pc r) with
    | some (.assign v) => ⟨advance x.st r, Function.update x.reg r v⟩
    | some (.load c) => ⟨advance x.st r, Function.update x.reg r (x.st.cell r c)⟩
    | _ => ⟨(R.static x.reg).step x.st (.exec r), x.reg⟩
  | .capture r i j => ⟨(R.static x.reg).step x.st (.capture r i j), x.reg⟩
  | .deliver r i j =>
    if ∀ i' ∈ R.behind r i, x.st.done r i' 0 = true then ⟨(R.static x.reg).step x.st (.deliver r i j), x.reg⟩ else x

def run (x : RegSt α) (ops : List Op) : RegSt α := Runs.run R.step x ops

/-- the instruction at t sets the register of r -/
def Sets (r t : ℕ) : Prop := (∃ v, R.code r t = some (.assign v)) ∨ ∃ c, R.code r t = some (.load c)

/-- the messages are in order -/
def InOrder (s : St α) : Prop := ∀ r i, ∀ i' ∈ R.behind r i, ∀ j, s.done r i j = true → s.done r i' 0 = true

/-- what has to be shown of a step, the registers being `val`: what `Machine.Keeps` asks for with the messages in order,
and that a load finds its value -/
structure Keeps (val : ℕ → ℤ) (I : St α → Prop) : Prop where
  exec : ∀ s r ins, (R.static val).Hist s → R.InOrder s → I s → (R.static val).prog r (s.pc r) = some ins →
    (R.static val).Enabled s r ins → I (advance ((R.static val).effect s r ins) r)
  capture : ∀ s r i j ins v, (R.static val).Hist s → R.InOrder s → I s → (R.static val).prog r i = some ins → i < s.pc r →
    j < ins.reads → s.cap r i j = none → source s r j ins = some v → I (record s r i j v)
  deliver : ∀ s r i j ins, (R.static val).Hist s → R.InOrder s → I s → (R.static val).prog r i = some ins →
    (R.static val).Deliverable s r i j → (∀ i' ∈ R.behind r i, s.done r i' 0 = true) →
    I (mark ((R.static val).arrive s r i j ins) r i j)
  assigned : ∀ r t v, R.code r t = some (.assign v) → v = val r
  loaded : ∀ s r c, (R.static val).Hist s → R.InOrder s → I s → R.code r (s.pc r) = some (.load c) → s.cell r c = val r
  before : ∀ r t f, R.code r t = some (.uses f) → ∃ t' < t, R.Sets r t'

/-- the registers that have been set hold what they should -/
def Set (val : ℕ → ℤ) (x : RegSt α) : Prop := ∀ r t, R.Sets r t → t < x.st.pc r → x.reg r = val r

section
variable {R} {val : ℕ → ℤ} {I : St α → Prop} (k : R.Keeps val I) {x : RegSt α}
include k

/-- the programs agree as far as they have been executed -/
theorem Keeps.prog_eq (hset : R.Set val x) (r t : ℕ) (ht : t ≤ x.st.pc r) :
    (R.static x.reg).prog r t = (R.static val).prog r t := by
  simp only [static]
  cases hc : R.code r t with
  | none => rfl
  | some c =>
    cases c with
    | uses f =>
      obtain ⟨t', hlt, hs⟩ := k.before r t f hc
      rw [hset r t' hs (by omega)]
    | _ => rfl

theorem Keeps.step_eq (hset : R.Set val x) (o : Op) : (R.static x.reg).step x.st o = (R.static val).step x.st o := by
  have hmem : (R.static x.reg).members = (R.static val).members := rfl
  exact step_congr hmem (k.prog_eq hset) rfl o

/-- an instruction that sets the register -/
theorem Keeps.exec_sets (hh : (R.static val).Hist x.st) (hord : R.InOrder x.st) (hi : I x.st) {r : ℕ} {c : Code}
    (hc : R.code r (x.st.pc r) = some c) (henter : c.instr (val r) = .enter) :
    (R.static val).Hist (advance x.st r) ∧ I (advance x.st r) := by
  have hp : (R.static val).prog r (x.st.pc r) = some .enter := by simp [static, hc, henter]
  exact ⟨hh.exec hp trivial, k.exec x.st r .enter hh hord hi hp trivial⟩

end

/-- a register that is set to its value -/
theorem Set.update {R : RegMachine α} {val : ℕ → ℤ} {x : RegSt α} (hset : R.Set val x) (r : ℕ) :
    R.Set val ⟨advance x.st r, Function.update x.reg r (val r)⟩ := by
  intro q t hs ht
  by_cases hq : q = r
  · subst hq
    exact Function.update_self ..
  · rw [show (advance x.st r).pc q = x.st.pc q from advance_pc_other _ hq] at ht
    exact (Function.update_of_ne hq ..).trans (hset q t hs ht)

section
variable {R : RegMachine α} {val : ℕ → ℤ} {I : St α → Prop} (k : R.Keeps val I) {x : RegSt α}
include k

/-- a step of the program without registers keeps everything -/
theorem Keeps.static_step (hh : (R.static val).Hist x.st) (hord : R.InOrder x.st) (hi : I x.st) (o : Op)
    (hb : ∀ r i j, o = .deliver r i j → ∀ i' ∈ R.behind r i, x.st.done r i' 0 = true) :
    R.InOrder ((R.static val).step x.st o) ∧ I ((R.static val).step x.st o) := by
  rcases step_cases x.st o with hs | ⟨r, ins, -, hp, he, hs⟩ | ⟨r, i, j, ins, v, -, hp, hpc, hj, hn, hv, hs⟩ |
    ⟨r, i, j, ins, ho, hp, hd, hs⟩
  · rw [hs]
    exact ⟨hord, hi⟩
  · rw [hs]
    refine ⟨fun q t t' ht j hdone => ?_, k.exec x.st r ins hh hord hi hp he⟩
    rw [advance_done, effect_done] at hdone ⊢
    exact hord q t t' ht j hdone
  · rw [hs]
    exact ⟨hord, k.capture x.st r i j ins v hh hord hi hp hpc hj hn hv⟩
  · rw [hs]
    refine ⟨fun q t t' ht j' hdone => ?_, k.deliver x.st r i j ins hh hord hi hp hd (hb r i j ho)⟩
    rw [mark_done, arrive_done] at hdone ⊢
    rcases hdone with ⟨rfl, rfl, rfl⟩ | hdone
    · exact .inr (hb q t j' ho t' ht)
    · exact .inr (hord q t t' ht j' hdone)

/-- a step other than of a register -/
theorem Keeps.step_other (hh : (R.static val).Hist x.st) (hord : R.InOrder x.st) (hi : I x.st) (hset : R.Set val x)
    {o : Op} (hb : ∀ r i j, o = .deliver r i j → ∀ i' ∈ R.behind r i, x.st.done r i' 0 = true)
    (hno : ∀ r, o = .exec r → ¬ R.Sets r (x.st.pc r)) :
    (R.static val).Hist ((R.static x.reg).step x.st o) ∧ R.InOrder ((R.static x.reg).step x.st o) ∧
      I ((R.static x.reg).step x.st o) ∧ R.Set val ⟨(R.static x.reg).step x.st o, x.reg⟩ := by
  rw [k.step_eq hset o]
  obtain ⟨hord', hi'⟩ := k.static_step hh hord hi o hb
  refine ⟨hh.step o, hord', hi', fun q t hs ht => hset q t hs ?_⟩
  -- a position passed now and not before sets no register
  change t < ((R.static val).step x.st o).pc q at ht
  rcases step_cases x.st o with heq | ⟨r, ins, ho, -, -, heq⟩ | ⟨r, i, j, ins, v, -, -, -, -, -, -, heq⟩ |
    ⟨r, i, j, ins, -, -, -, heq⟩
  · rwa [heq] at ht
  · rw [heq] at ht
    by_cases hq : q = r
    · subst hq
      rw [advance_pc_self, effect_pc] at ht
      rcases Nat.lt_succ_iff_lt_or_eq.mp ht with hlt | rfl
      · exact hlt
      · exact absurd hs (hno q ho)
    · rwa [advance_pc_other _ hq, effect_pc] at ht
  · rw [heq] at ht
    exact ht
  · rwa [heq, mark_pc, arrive_pc] at ht

theorem Keeps.step (o : Op)
    (h : (R.static val).Hist x.st ∧ R.InOrder x.st ∧ I x.st ∧ R.Set val x) :
    (R.static val).Hist (R.step x o).st ∧ R.InOrder (R.step x o).st ∧ I (R.step x o).st ∧ R.Set val (R.step x o) := by
  obtain ⟨hh, hord, hi, hset⟩ := h
  cases o with
  | exec r =>
    have hplain : ¬ R.Sets r (x.st.pc r) → _ := fun hs =>
      k.step_other hh hord hi hset (o := .exec r) (fun _ _ _ h => absurd h Op.noConfusion) fun q hq => by
        cases hq
        exact hs
    simp only [RegMachine.step]
    cases hc : R.code r (x.st.pc r) with
    | none => exact hplain (by simp [Sets, hc])
    | some c =>
      cases c with
      | assign v =>
        obtain rfl := k.assigned r _ v hc
        obtain ⟨hh', hi'⟩ := k.exec_sets hh hord hi hc rfl
        exact ⟨hh', hord, hi', hset.update r⟩
      | load cell =>
        obtain ⟨hh', hi'⟩ := k.exec_sets hh hord hi hc rfl
        dsimp only
        rw [k.loaded x.st r cell hh hord hi hc]
        exact ⟨hh', hord, hi', hset.update r⟩
      | fixed ins => exact hplain (by simp [Sets, hc])
      | uses f => exact hplain (by simp [Sets, hc])
  | capture r i j =>
    exact k.step_other hh hord hi hset (o := .capture r i j) (fun _ _ _ h => absurd h Op.noConfusion)
      fun _ h => absurd h Op.noConfusion
  | deliver r i j =>
    simp only [RegMachine.step]
    split_ifs with hb
    · refine k.step_other hh hord hi hset (o := .deliver r i j) (fun q i' j' h => ?_) fun _ h => absurd h Op.noConfusion
      cases h
      exact hb
    · exact ⟨hh, hord, hi, hset⟩

/-- **Invariant rule.** What holds of the program without registers holds in every run, and the registers are right. -/
theorem Keeps.run {c0 : ℕ → ℕ → ℤ} {m0 : ℕ → Loc → α} (reg0 : ℕ → ℤ) (hi : I (init c0 m0)) (ops : List Op) :
    (R.static val).Hist (R.run ⟨init c0 m0, reg0⟩ ops).st ∧ R.InOrder (R.run ⟨init c0 m0, reg0⟩ ops).st ∧
      I (R.run ⟨init c0 m0, reg0⟩ ops).st ∧ R.Set val (R.run ⟨init c0 m0, reg0⟩ ops) := by
  refine Runs.run_inv R.step (fun x => (R.static val).Hist x.st ∧ R.InOrder x.st ∧ I x.st ∧ R.Set val x)
    (fun x o h => k.step o h) _ ⟨hist_init _ c0 m0, ?_, hi, ?_⟩ ops
  · intro r i i' _ j hd
    exact absurd hd (by simp [init])
  · intro r t _ ht
    exact absurd ht (Nat.not_lt_zero _)

end

end RegMachine

end OneSided
