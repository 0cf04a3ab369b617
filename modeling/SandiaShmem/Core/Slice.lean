/-
A collective inside a program.

A program may call a collective that works on cells of its own and on nothing else. Seen through those cells and through
the positions of the call, a run of the whole program is a run of the collective alone: the program does not notice
whether the collective waits for more (its quiet also waits for what was sent before the call), but the collective never
waits for less. So what is known about the collective alone holds for it inside the program.

Before and after the call the program leaves the cells alone, except that it may store zero to them after the call.

- `Slice`: the collective is a part of the program, with its cells moved.
- `proj`: a state of the program as a state of the collective.
- `Slice.keeps`: the projection of a run is a run.
-/
import SandiaShmem.Core.OneSided

namespace OneSided

open Machine

/-- the instruction on cells from `base` on -/
def Instr.shift (base : ℕ) : Instr → Instr
  | .putScalar cell v pe => .putScalar (base + cell) v pe
  | .atomicAdd cell v pe => .atomicAdd (base + cell) v pe
  | .waitUntil cell c v => .waitUntil (base + cell) c v
  | .assertLt cell v => .assertLt (base + cell) v
  | .store cell v => .store (base + cell) v
  | ins => ins

/-- it works on cells only -/
def Instr.cellular : Instr → Bool
  | .enter => true
  | .putScalar .. => true
  | .atomicAdd .. => true
  | .waitUntil .. => true
  | .assertLt .. => true
  | .fence => true
  | .quiet => true
  | .store .. => true
  | _ => false

section
variable {base : ℕ}

@[simp] theorem Instr.shift_parts (ins : Instr) : (ins.shift base).parts = ins.parts := by cases ins <;> rfl
@[simp] theorem Instr.shift_dest (ins : Instr) : (ins.shift base).dest = ins.dest := by cases ins <;> rfl

theorem Instr.reads_of_cellular {ins : Instr} (h : ins.cellular = true) : ins.reads = 0 := by
  cases ins with
  | putNb => exact absurd h Bool.noConfusion
  | atomicv => exact absurd h Bool.noConfusion
  | _ => rfl

end

/-- the collective N is the part of the program M that stands at positions `off v` to `off v + len v` -/
structure Slice {α : Type*} (M : Machine α) (N : Machine Unit) (base : ℕ) (off len : ℕ → ℕ) : Prop where
  code : ∀ v x, x < len v → M.prog v (off v + x) = (N.prog v x).map (Instr.shift base)
  cellular : ∀ v x ins, x < len v → N.prog v x = some ins → ins.cellular = true
  /-- messages go to PEs that take part -/
  dest : ∀ v x ins pe, x < len v → N.prog v x = some ins → ins.dest = some pe → 0 < len pe
  outside : ∀ v t ins, M.prog v t = some ins → t < off v ∨ off v + len v ≤ t → ∀ c, ins.word = some (base + c) →
    ins = .store (base + c) 0 ∧ off v + len v ≤ t

/-- the state of the collective in a state of the program; cells of PEs that do not take part are left out -/
def proj {α : Type*} (base : ℕ) (off len : ℕ → ℕ) (s : St α) : St Unit where
  pc v := min (s.pc v - off v) (len v)
  cell v c := if 0 < len v then s.cell v (base + c) else 0
  mem _ _ := ()
  cap _ _ _ := none
  done v x j := decide (x < len v) && s.done v (off v + x) j

namespace Slice
variable {α : Type*} {M : Machine α} {N : Machine Unit} {base : ℕ} {off len : ℕ → ℕ} {s : St α}

theorem proj_done {v x j : ℕ} :
    (proj base off len s).done v x j = true ↔ x < len v ∧ s.done v (off v + x) j = true := by
  simp [proj]

theorem proj_cell {v : ℕ} (h : 0 < len v) (c : ℕ) : (proj base off len s).cell v c = s.cell v (base + c) := if_pos h

/-- setting a cell of a PE that takes part -/
theorem proj_setCell {s' : St α} {v c : ℕ} {z : ℤ} (hv : 0 < len v) (h : s'.cell = setCell s.cell v (base + c) z)
    (w c' : ℕ) : (proj base off len s').cell w c' = setCell (proj base off len s).cell v c z w c' := by
  rw [setCell_apply]
  simp only [proj, h, setCell_apply, Nat.add_left_cancel_iff]
  by_cases hsame : w = v ∧ c' = c
  · rw [if_pos hsame, if_pos hsame, if_pos (hsame.1 ▸ hv)]
  · rw [if_neg hsame, if_neg hsame]

/-- two states of the collective are the same -/
theorem st_ext {a b : St Unit} (hpc : ∀ v, a.pc v = b.pc v) (hcell : ∀ v c, a.cell v c = b.cell v c)
    (hcap : ∀ v x j, a.cap v x j = b.cap v x j) (hdone : ∀ v x j, a.done v x j = true ↔ b.done v x j = true) : a = b := by
  have hpc : a.pc = b.pc := funext hpc
  have hcell : a.cell = b.cell := funext fun v => funext (hcell v)
  have hcap : a.cap = b.cap := funext fun v => funext fun x => funext (hcap v x)
  have hdone : a.done = b.done := by
    funext v x j
    exact Bool.eq_iff_iff.mpr (hdone v x j)
  cases a
  cases b
  simp only [St.mk.injEq] at hpc hcell hcap hdone ⊢
  exact ⟨hpc, hcell, Subsingleton.elim _ _, hcap, hdone⟩

variable (L : Slice M N base off len)
include L

theorem partsAt_eq {v x : ℕ} (hx : x < len v) : N.partsAt v x = M.partsAt v (off v + x) := by
  simp only [partsAt, L.code v x hx]
  cases N.prog v x <;> simp

theorem destAt_eq {v x : ℕ} (hx : x < len v) : N.destAt v x = M.destAt v (off v + x) := by
  simp only [destAt, L.code v x hx]
  cases N.prog v x <;> simp

/-- what the program may execute the collective may execute -/
theorem enabled {v x : ℕ} {ins : Instr} (hx : x < len v) (hpc : s.pc v = off v + x) (hp : N.prog v x = some ins)
    (he : M.Enabled s v (ins.shift base)) : N.Enabled (proj base off len s) v ins := by
  have hcell := L.cellular v x ins hx hp
  have hmin : (proj base off len s).pc v = x := by
    simp only [proj]
    omega
  have hlen : 0 < len v := by omega
  cases ins with
  | waitUntil c cmp z =>
    rw [Enabled, proj_cell hlen]
    exact he
  | assertLt c z =>
    rw [Enabled, proj_cell hlen]
    exact he
  | quiet =>
    intro i hi j hj
    rw [hmin] at hi
    rw [L.partsAt_eq (hi.trans hx)] at hj
    exact proj_done.mpr ⟨hi.trans hx, he (off v + i) (by omega) j hj⟩
  | putWait => exact absurd hcell Bool.noConfusion
  | barOut => exact absurd hcell Bool.noConfusion
  | _ => trivial

/-- an instruction of the collective -/
theorem exec_inside {v x : ℕ} {ins : Instr} (hx : x < len v) (hpc : s.pc v = off v + x) (hp : N.prog v x = some ins)
    (he : M.Enabled s v (ins.shift base)) :
    proj base off len (advance (M.effect s v (ins.shift base)) v) = N.step (proj base off len s) (.exec v) := by
  have hcell := L.cellular v x ins hx hp
  have hmin : (proj base off len s).pc v = x := by
    simp only [proj]
    omega
  simp only [Machine.step, hmin, hp]
  rw [if_pos (L.enabled hx hpc hp he)]
  refine st_ext (fun w => ?_) (fun w c => ?_) (fun _ _ _ => by cases ins <;> rfl) fun w y j => ?_
  · by_cases hw : w = v
    · subst hw
      rw [advance_pc_self, effect_pc, hmin]
      simp only [proj, advance_pc_self, effect_pc]
      omega
    · rw [advance_pc_other _ hw, effect_pc]
      simp only [proj, advance_pc_other _ hw, effect_pc]
  · cases ins with
    | store c' z => exact proj_setCell (by omega) rfl w c
    | memcpy => exact absurd hcell Bool.noConfusion
    | reduceLocal => exact absurd hcell Bool.noConfusion
    | _ => rfl
  · rw [advance_done, effect_done, proj_done, proj_done, advance_done, effect_done]

/-- an instruction before or after the call -/
theorem exec_outside {v : ℕ} {ins : Instr} (hp : M.prog v (s.pc v) = some ins)
    (hout : s.pc v < off v ∨ off v + len v ≤ s.pc v) (hzero : off v + len v ≤ s.pc v → ∀ c, s.cell v (base + c) = 0) :
    proj base off len (advance (M.effect s v ins) v) = proj base off len s := by
  refine st_ext (fun w => ?_) (fun w c => ?_) (fun _ _ _ => rfl) fun w y j => ?_
  · by_cases hw : w = v
    · subst hw
      simp only [proj, advance_pc_self, effect_pc]
      omega
    · simp only [proj, advance_pc_other _ hw, effect_pc]
  · suffices hcell : (M.effect s v ins).cell w (base + c) = s.cell w (base + c) by simp only [proj, advance_cell, hcell]
    by_cases hword : ins.word = some (base + c)
    · obtain ⟨rfl, hge⟩ := L.outside v _ ins hp hout c hword
      refine (setCell_apply ..).trans ?_
      split_ifs with hsame
      · rw [hsame.1]
        exact (hzero hge c).symm
      · rfl
    · exact effect_cell_other M s v hword w
  · rw [proj_done, proj_done, advance_done, effect_done]

/-- a message of the collective arrives -/
theorem deliver_inside {v x j : ℕ} {ins : Instr} (hx : x < len v) (hp : N.prog v x = some ins)
    (hd : M.Deliverable s v (off v + x) j) :
    proj base off len (mark (M.arrive s v (off v + x) j (ins.shift base)) v (off v + x) j) =
      N.step (proj base off len s) (.deliver v x j) := by
  obtain ⟨hi, hj, hnd, -, hord⟩ := hd
  have hcell := L.cellular v x ins hx hp
  have hdel : N.Deliverable (proj base off len s) v x j := by
    refine ⟨?_, ?_, ?_, ?_, ?_⟩
    · simp only [proj]
      omega
    · rwa [L.partsAt_eq hx]
    · simp [proj, hnd]
    · intro hr
      rw [readsAt_eq _ hp, Instr.reads_of_cellular hcell] at hr
      exact absurd hr (Nat.not_lt_zero _)
    · -- a fence of the collective is a fence of the program
      intro f hf hfence i' hi' hdest j' hj'
      have hf' : f < len v := by omega
      have hprog : M.prog v (off v + f) = some .fence := by rw [L.code v f hf', hfence]; rfl
      rw [L.destAt_eq (hi'.trans hf'), L.destAt_eq hx] at hdest
      rw [L.partsAt_eq (hi'.trans hf')] at hj'
      exact proj_done.mpr ⟨hi'.trans hf', hord (off v + f) (by omega) hprog (off v + i') (by omega) hdest j' hj'⟩
  simp only [Machine.step, hp]
  rw [if_pos hdel]
  refine st_ext (fun w => ?_) (fun w c => ?_) (fun w y k => ?_) fun w y k => ?_
  · rw [mark_pc, arrive_pc]
    simp only [proj, mark_pc, arrive_pc]
  · cases ins with
    | putScalar c' z pe => exact proj_setCell (L.dest v x _ pe hx hp rfl) rfl w c
    | atomicAdd c' z pe =>
      have hpe := L.dest v x _ pe hx hp rfl
      have hold : (proj base off len s).cell pe c' = s.cell pe (base + c') := proj_cell hpe c'
      refine (proj_setCell hpe rfl w c).trans ?_
      rw [← hold]
      rfl
    | putNb => exact absurd hcell Bool.noConfusion
    | atomicv => exact absurd hcell Bool.noConfusion
    | _ => rfl
  · rw [mark_cap, arrive_cap]
    rfl
  · rw [mark_done, arrive_done, proj_done, proj_done, mark_done, arrive_done]
    constructor
    · rintro ⟨hy, ⟨rfl, h2, rfl⟩ | hdone⟩
      · exact .inl ⟨rfl, by omega, rfl⟩
      · exact .inr ⟨hy, hdone⟩
    · rintro (⟨rfl, rfl, rfl⟩ | ⟨hy, hdone⟩)
      · exact ⟨hx, .inl ⟨rfl, rfl, rfl⟩⟩
      · exact ⟨hy, .inr hdone⟩

/-- another message arrives -/
theorem deliver_outside {v t j : ℕ} {ins : Instr} (hp : M.prog v t = some ins) (hd : M.Deliverable s v t j)
    (hout : t < off v ∨ off v + len v ≤ t) :
    proj base off len (mark (M.arrive s v t j ins) v t j) = proj base off len s := by
  have hparts := hd.2.1
  rw [Machine.partsAt_eq _ hp] at hparts
  refine st_ext (fun w => ?_) (fun w c => ?_) (fun _ _ _ => rfl) fun w y k => ?_
  · simp only [proj, mark_pc, arrive_pc]
  · suffices hcell : (M.arrive s v t j ins).cell w (base + c) = s.cell w (base + c) by simp only [proj, mark_cell, hcell]
    refine arrive_cell_other M s v t j (fun hword => ?_) w
    obtain ⟨rfl, -⟩ := L.outside v t ins hp hout c hword
    exact absurd hparts (Nat.not_lt_zero _)
  · rw [proj_done, proj_done, mark_done, arrive_done]
    refine and_congr_right fun hy => ⟨fun hdone => hdone.resolve_left ?_, .inr⟩
    rintro ⟨rfl, h2, -⟩
    omega

/-- **The projection of a run is a run.** The collective has to leave its cells zero. -/
theorem keeps {s0 : St Unit} (hpos : ∀ v t ins, M.prog v t = some ins → 0 < len v)
    (hzero : ∀ ops v, (∀ q, (N.run s0 ops).pc q ≤ len q) → 0 < len v → (N.run s0 ops).pc v = len v →
      ∀ c, (N.run s0 ops).cell v c = 0) : M.Keeps fun s => ∃ ops, proj base off len s = N.run s0 ops := by
  have hsnoc : ∀ (ops : List Op) (o : Op), N.step (N.run s0 ops) o = N.run s0 (ops ++ [o]) := fun ops o =>
    (Runs.run_snoc N.step s0 ops o).symm
  -- the position of v in the program
  have hin : ∀ {v t : ℕ} {ins : Instr}, M.prog v t = some ins → ¬ (t < off v ∨ off v + len v ≤ t) →
      ∃ x < len v, t = off v + x ∧ ∃ ins', N.prog v x = some ins' ∧ ins = ins'.shift base := by
    intro v t ins hp hout
    push Not at hout
    obtain ⟨x, rfl⟩ : ∃ x, t = off v + x := ⟨t - off v, by omega⟩
    have hx : x < len v := by omega
    rw [L.code v x hx] at hp
    obtain ⟨ins', hp', rfl⟩ := Option.map_eq_some_iff.mp hp
    exact ⟨x, hx, rfl, ins', hp', rfl⟩
  refine ⟨?_, ?_, ?_⟩
  · rintro s v ins hh ⟨ops, hrun⟩ hp he
    by_cases hout : s.pc v < off v ∨ off v + len v ≤ s.pc v
    · refine ⟨ops, (L.exec_outside hp hout fun hge c => ?_).trans hrun⟩
      have hlen := hpos v _ ins hp
      have hc := hzero ops v (fun q => ?_) hlen ?_ c
      · rwa [← hrun, proj_cell hlen] at hc
      · rw [← hrun]
        exact min_le_right _ _
      · rw [← hrun]
        simp only [proj]
        omega
    · obtain ⟨x, hx, hpc, ins', hp', rfl⟩ := hin hp hout
      exact ⟨ops ++ [.exec v], by rw [L.exec_inside hx hpc hp' he, hrun, hsnoc]⟩
  · rintro s v i j ins a hh ⟨ops, hrun⟩ - - - - -
    exact ⟨ops, hrun⟩
  · rintro s v t j ins hh ⟨ops, hrun⟩ hp hd
    by_cases hout : t < off v ∨ off v + len v ≤ t
    · exact ⟨ops, (L.deliver_outside hp hd hout).trans hrun⟩
    · obtain ⟨x, hx, rfl, ins', hp', rfl⟩ := hin hp hout
      exact ⟨ops ++ [.deliver v x j], by rw [L.deliver_inside hx hp' hd, hrun, hsnoc]⟩

end Slice

end OneSided
