/-
A region of symmetric memory that is filled with the same data on every PE.

Each write into the region writes what the region is to hold at that place, so it does not matter how often a place is
written or in which order. A PE copies the data from outside the region or sends them from there to another PE, or it
passes on a part of its own region. What remains to be shown of a program is that it passes on only what has been written.

- `Region.Fill`: the instructions of such a program.
- `Region.Written`: something has been written at a place of the region of a PE.
- `Region.Filled`: what has been written is right, and nothing outside the region has changed; `Filled.exec`,
  `Filled.capture` and `Filled.deliver` keep it.
-/
import SandiaShmem.Core.OneSided

namespace OneSided

open Machine

/-- it reads or writes buffers -/
def Instr.buffered : Instr → Bool
  | .putNb .. => true
  | .atomicv .. => true
  | .memcpy .. => true
  | .reduceLocal .. => true
  | _ => false

/-- where a region lies, and what it is to hold -/
structure Region (α : Type*) where
  base : ℕ
  size : ℕ
  V : ℕ → α

namespace Region
variable {α : Type*} (R : Region α)

def loc (x : ℕ) : Loc := .sym (R.base + x)

/-- a buffer outside the region -/
def Apart (src : Loc) (len : ℕ) : Prop := ∀ j < len, ∀ x < R.size, src.elem j ≠ R.loc x

/-- an instruction of a PE with memory m at the start -/
inductive Fill (m : Loc → α) : Instr → Prop
  | copy (y len : ℕ) (src : Loc) (hfit : y + len ≤ R.size) (hap : R.Apart src len)
    (hv : ∀ j < len, m (src.elem j) = R.V (y + j)) : Fill m (.memcpy (R.loc y) src len)
  | send (y len pe : ℕ) (src : Loc) (hfit : y + len ≤ R.size) (hap : R.Apart src len)
    (hv : ∀ j < len, m (src.elem j) = R.V (y + j)) : Fill m (.putNb (R.base + y) src len pe)
  | pass (y len pe : ℕ) (hfit : y + len ≤ R.size) : Fill m (.putNb (R.base + y) (R.loc y) len pe)
  | idle (ins : Instr) (h : ins.buffered = false) : Fill m ins

variable (M : Machine α) (m0 : ℕ → Loc → α) (s : St α)

/-- place x of the region of v has been written: by a copy, or by a put that has arrived -/
def Written (v x : ℕ) : Prop :=
  (∃ t < s.pc v, ∃ y len src, M.prog v t = some (.memcpy (R.loc y) src len) ∧ y ≤ x ∧ x < y + len) ∨
    ∃ u t j y len src, s.done u t j = true ∧ M.prog u t = some (.putNb (R.base + y) src len v) ∧ x = y + j

structure Filled : Prop where
  outside : ∀ v l, (∀ x < R.size, l ≠ R.loc x) → s.mem v l = m0 v l
  inside : ∀ v, ∀ x < R.size, R.Written M s v x → s.mem v (R.loc x) = R.V x
  cap : ∀ v t y len src pe, M.prog v t = some (.putNb (R.base + y) src len pe) →
    ∀ j a, s.cap v t j = some a → a = R.V (y + j)

variable {R M m0 s} {s' : St α}

theorem loc_inj {x y : ℕ} : R.loc x = R.loc y ↔ x = y := by simp [loc]

theorem loc_elem (x j : ℕ) : (R.loc x).elem j = R.loc (x + j) := by simp [loc, Loc.elem, Nat.add_assoc]

theorem Written.later (h : Later s s') {v x : ℕ} (hw : R.Written M s v x) : R.Written M s' v x := by
  rcases hw with ⟨t, ht, hcopy⟩ | ⟨u, t, j, y, len, src, hd, hput⟩
  · exact .inl ⟨t, ht.trans_le (h.pc v), hcopy⟩
  · exact .inr ⟨u, t, j, y, len, src, h.done u t j hd, hput⟩

/-- a write of what the region is to hold keeps what it holds -/
theorem Filled.write (h : R.Filled M m0 s) (hcap : s'.cap = s.cap)
    (hmem : ∀ v l, s'.mem v l = s.mem v l ∨ ∃ x < R.size, l = R.loc x ∧ s'.mem v l = R.V x)
    (hnew : ∀ v, ∀ x < R.size, R.Written M s' v x → R.Written M s v x ∨ s'.mem v (R.loc x) = R.V x) :
    R.Filled M m0 s' := by
  refine ⟨fun v l hl => ?_, fun v x hx hw => ?_, fun v t y len src pe hp j a ha => ?_⟩
  · rcases hmem v l with hsame | ⟨x, hx, heq, -⟩
    · rw [hsame]
      exact h.outside v l hl
    · exact absurd heq (hl x hx)
  · rcases hnew v x hx hw with hold | hright
    · rcases hmem v (R.loc x) with hsame | ⟨y, -, heq, hright⟩
      · rw [hsame]
        exact h.inside v x hx hold
      · rw [hright, loc_inj.mp heq]
    · exact hright
  · rw [hcap] at ha
    exact h.cap v t y len src pe hp j a ha

theorem Filled.exec (hfill : ∀ v t ins, M.prog v t = some ins → R.Fill (m0 v) ins) (h : R.Filled M m0 s) {r : ℕ}
    {ins : Instr} (hp : M.prog r (s.pc r) = some ins) : R.Filled M m0 (advance (M.effect s r ins) r) := by
  -- what is written by this step is written by a copy
  have hwritten : ∀ v x, R.Written M (advance (M.effect s r ins) r) v x → R.Written M s v x ∨
      (v = r ∧ ∃ y len src, ins = .memcpy (R.loc y) src len ∧ y ≤ x ∧ x < y + len) := by
    intro v x hw
    rcases hw with ⟨t, ht, y, len, src, hcopy, hrange⟩ | ⟨u, t, j, y, len, src, hd, hput⟩
    · by_cases hv : v = r
      · subst hv
        rw [advance_pc_self, effect_pc] at ht
        rcases Nat.lt_succ_iff_lt_or_eq.mp ht with hlt | rfl
        · exact .inl (.inl ⟨t, hlt, y, len, src, hcopy, hrange⟩)
        · rw [hp, Option.some.injEq] at hcopy
          exact .inr ⟨rfl, y, len, src, hcopy, hrange⟩
      · rw [advance_pc_other _ hv, effect_pc] at ht
        exact .inl (.inl ⟨t, ht, y, len, src, hcopy, hrange⟩)
    · rw [advance_done, effect_done] at hd
      exact .inl (.inr ⟨u, t, j, y, len, src, hd, hput⟩)
  have hcap : (advance (M.effect s r ins) r).cap = s.cap := by rw [advance_cap, effect_cap]
  cases hfill r _ ins hp with
  | copy y len src hfit hap hv =>
    have hsrc : ∀ j < len, s.mem r (src.elem j) = R.V (y + j) := fun j hj =>
      (h.outside r _ (hap j hj)).trans (hv j hj)
    have helem : ∀ j < len, (advance (M.effect s r (.memcpy (R.loc y) src len)) r).mem r (R.loc (y + j)) = R.V (y + j) := by
      intro j hj
      rw [← loc_elem]
      exact (setBuf_elem _ _ _ _ hj).trans (hsrc j hj)
    refine h.write hcap (fun v l => ?_) fun v x hx hw => ?_
    · by_cases hvr : v = r
      · subst hvr
        by_cases hin : ∃ j < len, l = (R.loc y).elem j
        · obtain ⟨j, hj, rfl⟩ := hin
          rw [loc_elem]
          exact .inr ⟨y + j, by omega, rfl, helem j hj⟩
        · push Not at hin
          exact .inl (setBuf_outside _ _ _ _ _ _ hin)
      · exact .inl (setBuf_other _ _ _ _ _ hvr l)
    · rcases hwritten v x hw with hold | ⟨rfl, y', len', src', heq, hle, hlt⟩
      · exact .inl hold
      · obtain ⟨hy, -, rfl⟩ := Instr.memcpy.inj heq
        obtain rfl := loc_inj.mp hy
        have := helem (x - y) (by omega)
        rw [Nat.add_sub_cancel' hle] at this
        exact .inr this
  | send y len pe src hfit hap hv =>
    refine h.write hcap (fun v l => .inl rfl) fun v x hx hw => .inl ?_
    exact (hwritten v x hw).resolve_right fun ⟨_, _, _, _, heq, _⟩ => absurd heq Instr.noConfusion
  | pass y len pe hfit =>
    refine h.write hcap (fun v l => .inl rfl) fun v x hx hw => .inl ?_
    exact (hwritten v x hw).resolve_right fun ⟨_, _, _, _, heq, _⟩ => absurd heq Instr.noConfusion
  | idle ins hidle =>
    have hmem : (advance (M.effect s r ins) r).mem = s.mem := by
      cases ins with
      | memcpy => exact absurd hidle Bool.noConfusion
      | reduceLocal => exact absurd hidle Bool.noConfusion
      | _ => rfl
    refine h.write hcap (fun v l => .inl (by rw [hmem])) fun v x hx hw => .inl ?_
    refine (hwritten v x hw).resolve_right fun ⟨_, _, _, _, heq, _⟩ => ?_
    rw [heq] at hidle
    exact absurd hidle Bool.noConfusion

theorem Filled.capture (hfill : ∀ v t ins, M.prog v t = some ins → R.Fill (m0 v) ins) (h : R.Filled M m0 s) {r i j : ℕ}
    {ins : Instr} {a : α} (hp : M.prog r i = some ins) (hj : j < ins.reads) (hsrc : source s r j ins = some a)
    (hpass : ∀ y len pe, ins = .putNb (R.base + y) (R.loc y) len pe → j < len → R.Written M s r (y + j)) :
    R.Filled M m0 (record s r i j a) := by
  refine ⟨h.outside, fun v x hx hw => h.inside v x hx hw, fun v t y len src pe hp' k b hb => ?_⟩
  rcases (record_cap ..).mp hb with ⟨rfl, rfl, rfl, rfl⟩ | ⟨-, hold⟩
  · obtain rfl : ins = .putNb (R.base + y) src len pe := Option.some.inj (hp.symm.trans hp')
    have ha : s.mem v (src.elem k) = a := Option.some.inj hsrc
    have hk : k < len := hj
    rw [← ha]
    generalize hdst : R.base + y = dst at hp hp' hj hsrc hpass
    cases hfill v t _ hp with
    | send y' _ _ _ hfit hap hv =>
      obtain rfl : y = y' := by omega
      exact (h.outside v _ (hap k hk)).trans (hv k hk)
    | pass y' _ _ hfit =>
      obtain rfl : y = y' := by omega
      rw [loc_elem]
      exact h.inside v _ (by omega) (hpass y len pe rfl hk)
    | idle _ hidle => exact absurd hidle Bool.noConfusion
  · exact h.cap v t y len src pe hp' k b hold

theorem Filled.deliver (hfill : ∀ v t ins, M.prog v t = some ins → R.Fill (m0 v) ins) (h : R.Filled M m0 s) {r i j : ℕ}
    {ins : Instr} (hp : M.prog r i = some ins) (hd : M.Deliverable s r i j) :
    R.Filled M m0 (mark (M.arrive s r i j ins) r i j) := by
  have hcap : (mark (M.arrive s r i j ins) r i j).cap = s.cap := by rw [mark_cap, arrive_cap]
  -- what is written by this step is written by the put that arrives
  have hwritten : ∀ v x, R.Written M (mark (M.arrive s r i j ins) r i j) v x → R.Written M s v x ∨
      ∃ y len src, ins = .putNb (R.base + y) src len v ∧ x = y + j := by
    intro v x hw
    rcases hw with ⟨t, ht, hcopy⟩ | ⟨u, t, k, y, len, src, hdone, hput, hx⟩
    · rw [mark_pc, arrive_pc] at ht
      exact .inl (.inl ⟨t, ht, hcopy⟩)
    · rcases (mark_done ..).mp hdone with ⟨rfl, rfl, rfl⟩ | hold
      · exact .inr ⟨y, len, src, Option.some.inj (hp.symm.trans hput), hx⟩
      · rw [arrive_done] at hold
        exact .inl (.inr ⟨u, t, k, y, len, src, hold, hput, hx⟩)
  have hput : ∀ y len src pe, ins = .putNb (R.base + y) src len pe → y + len ≤ R.size →
      R.Filled M m0 (mark (M.arrive s r i j ins) r i j) := by
    rintro y len src pe rfl hfit
    have hj : j < len := by
      have := hd.2.1
      rwa [partsAt_eq _ hp] at this
    have hread : j < M.readsAt r i := by
      rw [readsAt_eq _ hp]
      exact hj
    obtain ⟨a, ha⟩ := Option.isSome_iff_exists.mp (hd.2.2.2.1 hread)
    have hval : a = R.V (y + j) := h.cap r i y len src pe hp j a ha
    have hmem : (mark (M.arrive s r i j (.putNb (R.base + y) src len pe)) r i j).mem =
        setLoc s.mem pe (R.loc (y + j)) (R.V (y + j)) := by
      simp only [mark_mem, arrive, ha, hval, loc, Nat.add_assoc]
    refine h.write hcap (fun v l => ?_) fun v x hx hw => ?_
    · rw [hmem, setLoc_apply]
      split_ifs with hsame
      · exact .inr ⟨y + j, by omega, hsame.2, rfl⟩
      · exact .inl rfl
    · rcases hwritten v x hw with hold | ⟨y', len', src', heq, rfl⟩
      · exact .inl hold
      · obtain ⟨hy, -, -, rfl⟩ := Instr.putNb.inj heq
        obtain rfl : y = y' := by omega
        rw [hmem, setLoc_apply, if_pos ⟨rfl, rfl⟩]
        exact .inr rfl
  cases hfill r i ins hp with
  | copy y len src =>
    have := hd.2.1
    rw [partsAt_eq _ hp] at this
    exact absurd this (Nat.not_lt_zero _)
  | send y len pe src hfit => exact hput y len src pe rfl hfit
  | pass y len pe hfit => exact hput y len (R.loc y) pe rfl hfit
  | idle ins hidle =>
    have hmem : (mark (M.arrive s r i j ins) r i j).mem = s.mem := by
      cases ins with
      | putNb => exact absurd hidle Bool.noConfusion
      | atomicv => exact absurd hidle Bool.noConfusion
      | _ => rfl
    refine h.write hcap (fun v l => .inl (by rw [hmem])) fun v x hx hw => .inl ?_
    rcases hwritten v x hw with hold | ⟨_, _, _, heq, _⟩
    · exact hold
    · rw [heq] at hidle
      exact absurd hidle Bool.noConfusion

theorem filled_init (c0 : ℕ → ℕ → ℤ) : R.Filled M m0 (init c0 m0) := by
  refine ⟨fun _ _ _ => rfl, fun v x _ hw => ?_, fun v t y len src pe _ j a ha => absurd ha (by simp [init])⟩
  rcases hw with ⟨t, ht, -⟩ | ⟨u, t, j, y, len, src, hd, -⟩
  · exact absurd ht (Nat.not_lt_zero _)
  · exact absurd hd (by simp [init])

end Region

end OneSided
