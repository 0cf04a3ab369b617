/-
What a synchronisation cell holds.

A cell is written by adds from other PEs and, at the end, by a put of zero that clears it. As long as it has not been
cleared it holds the sum of the adds that have arrived; if all adds have arrived when it is cleared it is zero from then
on.

- `Ledger`: the adds and the put that a program has for a cell.
- `Ledger.Holds`: the cell holds what its ledger says; `Holds.exec`, `Holds.capture` and `Holds.deliver` keep it.
- `Ledger.all_done`, `Ledger.exists_ge`: what a counter that has reached a number has.
- `Flag`: the same for a cell that is set by a put of 1 instead.
-/
import Mathlib.Algebra.BigOperators.Group.Finset.Basic
import Mathlib.Algebra.Order.BigOperators.Group.Finset
import SandiaShmem.Core.OneSided

namespace OneSided

open Machine

section
variable {α : Type*} (M : Machine α) (s : St α) {pe cell : ℕ}

/-- a cell that the PE does not store to -/
theorem effect_cell_of_ne (r : ℕ) {ins : Instr} (h : r = pe → ∀ x, ins ≠ .store cell x) :
    (M.effect s r ins).cell pe cell = s.cell pe cell := by
  cases ins with
  | store c x =>
    refine (setCell_apply ..).trans (if_neg ?_)
    rintro ⟨rfl, rfl⟩
    exact h rfl x rfl
  | _ => rfl

/-- a cell that a message is not for -/
theorem arrive_cell_of_ne (r i j : ℕ) {ins : Instr} (hadd : ∀ x, ins ≠ .atomicAdd cell x pe)
    (hput : ∀ x, ins ≠ .putScalar cell x pe) : (M.arrive s r i j ins).cell pe cell = s.cell pe cell := by
  cases ins with
  | putScalar c x pe =>
    refine (setCell_apply ..).trans (if_neg ?_)
    rintro ⟨rfl, rfl⟩
    exact hput x rfl
  | atomicAdd c x pe =>
    refine (setCell_apply ..).trans (if_neg ?_)
    rintro ⟨rfl, rfl⟩
    exact hadd x rfl
  | putNb dst src len pe => simp only [arrive]; split <;> rfl
  | atomicv dst src len pe => simp only [arrive]; split <;> rfl
  | _ => rfl

end

/-- the messages (PE, position) to a cell of a PE: adds with their values, and the put that clears it -/
structure Ledger where
  pe : ℕ
  cell : ℕ
  adds : Finset (ℕ × ℕ)
  val : ℕ × ℕ → ℤ
  clear : Option (ℕ × ℕ)

namespace Ledger
variable {α : Type*} (L : Ledger) (M : Machine α) (s : St α)

/-- the adds that have arrived -/
def sum : ℤ := ∑ p ∈ L.adds, if s.done p.1 p.2 0 = true then L.val p else 0

def Cleared : Prop := ∃ p, L.clear = some p ∧ s.done p.1 p.2 0 = true

/-- the program writes the cell with these messages only -/
structure Of : Prop where
  add : ∀ r i x, M.prog r i = some (.atomicAdd L.cell x L.pe) → (r, i) ∈ L.adds ∧ L.val (r, i) = x
  put : ∀ r i x, M.prog r i = some (.putScalar L.cell x L.pe) → L.clear = some (r, i) ∧ x = 0
  adds : ∀ p ∈ L.adds, M.prog p.1 p.2 = some (.atomicAdd L.cell (L.val p) L.pe)
  clear : ∀ p, L.clear = some p → M.prog p.1 p.2 = some (.putScalar L.cell 0 L.pe)
  store : ∀ i x, M.prog L.pe i ≠ some (.store L.cell x)

open Classical in
structure Holds : Prop where
  cell : s.cell L.pe L.cell = if L.Cleared s then 0 else L.sum s

variable {L M s} {s' : St α}

theorem Holds.of_eq (h : L.Holds s) (hcell : s'.cell L.pe L.cell = s.cell L.pe L.cell) (hsum : L.sum s' = L.sum s)
    (hclear : L.Cleared s' ↔ L.Cleared s) : L.Holds s' := by
  classical
  refine ⟨?_⟩
  rw [hcell, h.cell, hsum]
  simp only [hclear]

theorem Holds.exec (hof : L.Of M) (h : L.Holds s) {r : ℕ} {ins : Instr} (hp : M.prog r (s.pc r) = some ins) :
    L.Holds (advance (M.effect s r ins) r) := by
  refine h.of_eq ?_ ?_ ?_
  · rw [advance_cell]
    refine effect_cell_of_ne M s r ?_
    rintro rfl x rfl
    exact hof.store _ _ hp
  · simp only [sum, advance_done, effect_done]
  · simp only [Cleared, advance_done, effect_done]

theorem Holds.capture (h : L.Holds s) (r i j : ℕ) (a : α) : L.Holds (record s r i j a) :=
  h.of_eq rfl rfl Iff.rfl

/-- a message that is not in the ledger -/
theorem Holds.deliver_other (hof : L.Of M) (h : L.Holds s) {r i j : ℕ} {ins : Instr} (hp : M.prog r i = some ins)
    (hadd : ∀ x, ins ≠ .atomicAdd L.cell x L.pe) (hput : ∀ x, ins ≠ .putScalar L.cell x L.pe) :
    L.Holds (mark (M.arrive s r i j ins) r i j) := by
  have hdone : ∀ p : ℕ × ℕ, p ≠ (r, i) →
      ((mark (M.arrive s r i j ins) r i j).done p.1 p.2 0 = true ↔ s.done p.1 p.2 0 = true) := by
    intro p hne
    rw [mark_done, arrive_done]
    refine ⟨fun hd => hd.resolve_left ?_, .inr⟩
    rintro ⟨h1, h2, -⟩
    exact hne (Prod.ext h1 h2)
  have hnadd : ∀ p ∈ L.adds, p ≠ (r, i) := by
    rintro p hmem rfl
    exact hadd _ (Option.some.inj (hp.symm.trans (hof.adds _ hmem)))
  have hnput : ∀ p, L.clear = some p → p ≠ (r, i) := by
    rintro p hc rfl
    exact hput _ (Option.some.inj (hp.symm.trans (hof.clear _ hc)))
  refine h.of_eq ?_ ?_ ?_
  · rw [mark_cell]
    exact arrive_cell_of_ne M s r i j hadd hput
  · refine Finset.sum_congr rfl fun p hmem => ?_
    simp only [hdone p (hnadd p hmem)]
  · constructor
    · rintro ⟨p, hc, hd⟩
      exact ⟨p, hc, (hdone p (hnput p hc)).mp hd⟩
    · rintro ⟨p, hc, hd⟩
      exact ⟨p, hc, (hdone p (hnput p hc)).mpr hd⟩

/-- an add -/
theorem Holds.deliver_add (hof : L.Of M) (h : L.Holds s) {r i : ℕ} {x : ℤ}
    (hp : M.prog r i = some (.atomicAdd L.cell x L.pe)) (hnew : s.done r i 0 = false)
    (hlast : L.Cleared s → ∀ p ∈ L.adds, s.done p.1 p.2 0 = true) :
    L.Holds (mark (M.arrive s r i 0 (.atomicAdd L.cell x L.pe)) r i 0) := by
  classical
  obtain ⟨hmem, hval⟩ := hof.add r i x hp
  have hnot : ¬ L.Cleared s := by
    intro hc
    exact absurd ((hlast hc _ hmem).symm.trans hnew) Bool.noConfusion
  have hdone : ∀ p : ℕ × ℕ, p ≠ (r, i) →
      ((mark (M.arrive s r i 0 (.atomicAdd L.cell x L.pe)) r i 0).done p.1 p.2 0 = true ↔ s.done p.1 p.2 0 = true) := by
    intro p hne
    rw [mark_done, arrive_done]
    refine ⟨fun hd => hd.resolve_left ?_, .inr⟩
    rintro ⟨h1, h2, -⟩
    exact hne (Prod.ext h1 h2)
  have hnot' : ¬ L.Cleared (mark (M.arrive s r i 0 (.atomicAdd L.cell x L.pe)) r i 0) := by
    rintro ⟨p, hc, hd⟩
    have hne : p ≠ (r, i) := by
      rintro rfl
      have := hp.symm.trans (hof.clear _ hc)
      exact absurd (Option.some.inj this) Instr.noConfusion
    exact hnot ⟨p, hc, (hdone p hne).mp hd⟩
  have hsum : L.sum (mark (M.arrive s r i 0 (.atomicAdd L.cell x L.pe)) r i 0) = L.sum s + x := by
    unfold sum
    rw [← Finset.add_sum_erase _ _ hmem, ← Finset.add_sum_erase L.adds _ hmem]
    have hrest : ∀ p ∈ L.adds.erase (r, i),
        (if (mark (M.arrive s r i 0 (.atomicAdd L.cell x L.pe)) r i 0).done p.1 p.2 0 = true then L.val p else 0) =
          if s.done p.1 p.2 0 = true then L.val p else 0 := by
      intro p hpm
      simp only [hdone p (Finset.ne_of_mem_erase hpm)]
    rw [Finset.sum_congr rfl hrest, if_pos ((mark_done ..).mpr (.inl ⟨rfl, rfl, rfl⟩)), if_neg (by simp [hnew]), hval]
    ring
  refine ⟨?_⟩
  rw [if_neg hnot', hsum, mark_cell]
  refine (setCell_self ..).trans ?_
  rw [h.cell, if_neg hnot]

/-- **The ledger of a cell.** What a message does to the cell is in its ledger, if the cell is cleared after the last
add. -/
theorem Holds.deliver (hof : L.Of M) (h : L.Holds s) {r i j : ℕ} {ins : Instr} (hp : M.prog r i = some ins)
    (hd : M.Deliverable s r i j) (hlast : L.Cleared s → ∀ p ∈ L.adds, s.done p.1 p.2 0 = true) :
    L.Holds (mark (M.arrive s r i j ins) r i j) := by
  classical
  have hparts := hd.2.1
  rw [partsAt_eq _ hp] at hparts
  by_cases hadd : ∃ x, ins = .atomicAdd L.cell x L.pe
  · obtain ⟨x, rfl⟩ := hadd
    obtain rfl : j = 0 := Nat.lt_one_iff.mp hparts
    exact h.deliver_add hof hp hd.2.2.1 hlast
  · by_cases hput : ∃ x, ins = .putScalar L.cell x L.pe
    · obtain ⟨x, rfl⟩ := hput
      obtain rfl : j = 0 := Nat.lt_one_iff.mp hparts
      obtain ⟨hclear, rfl⟩ := hof.put r i x hp
      refine ⟨?_⟩
      rw [if_pos ⟨(r, i), hclear, (mark_done ..).mpr (.inl ⟨rfl, rfl, rfl⟩)⟩, mark_cell]
      exact setCell_self ..
    · push Not at hadd hput
      exact h.deliver_other hof hp hadd hput

theorem holds_init {c0 : ℕ → ℕ → ℤ} (m0 : ℕ → Loc → α) (h0 : c0 L.pe L.cell = 0) : L.Holds (init c0 m0) := by
  classical
  refine ⟨?_⟩
  have hsum : L.sum (init c0 m0) = 0 := Finset.sum_eq_zero fun p _ => by simp [init]
  rw [hsum, ite_self]
  exact h0

/-- the ledger of a cell that nobody writes -/
def unused (pe cell : ℕ) : Ledger := ⟨pe, cell, ∅, fun _ => 0, none⟩

theorem unused_of {pe cell : ℕ} (h : ∀ r i ins, M.prog r i = some ins → ins.word = some cell →
    ins.dest ≠ some pe ∧ (r = pe → ins.dest ≠ none)) : (unused pe cell).Of M := by
  refine ⟨fun r i x hp => ?_, fun r i x hp => ?_, fun p hp => ?_, fun p hp => ?_, fun i x hp => ?_⟩
  · exact absurd rfl (h r i _ hp rfl).1
  · exact absurd rfl (h r i _ hp rfl).1
  · exact absurd hp (Finset.notMem_empty p)
  · exact absurd hp (by simp [unused])
  · exact (h _ i _ hp rfl).2 rfl rfl

theorem Holds.unused {pe cell : ℕ} (h : (Ledger.unused pe cell).Holds s) : s.cell pe cell = 0 := by
  have hcell := h.cell
  rwa [show (Ledger.unused pe cell).sum s = 0 from rfl, ite_self] at hcell

theorem unused_keeps {pe cell : ℕ} (hof : (Ledger.unused pe cell).Of M) : M.Keeps (Ledger.unused pe cell).Holds :=
  ⟨fun _ _ _ _ h hp _ => h.exec hof hp, fun _ v i j _ a _ h _ _ _ _ _ => h.capture v i j a,
    fun _ _ _ _ _ _ h hp hd => h.deliver hof hp hd fun _ p hmem => absurd hmem (Finset.notMem_empty p)⟩

/-! ## Counters -/

/-- a counter that has reached the number of its adds has all of them -/
theorem all_done (hval : ∀ p ∈ L.adds, L.val p = 1) (hsum : (L.adds.card : ℤ) ≤ L.sum s) :
    ∀ p ∈ L.adds, s.done p.1 p.2 0 = true := by
  have hcount : L.sum s = ((L.adds.filter fun p => s.done p.1 p.2 0 = true).card : ℤ) := by
    rw [sum, Finset.card_filter, Nat.cast_sum]
    refine Finset.sum_congr rfl fun p hp => ?_
    rw [hval p hp]
    push_cast
    rfl
  have hle : L.adds.card ≤ (L.adds.filter fun p => s.done p.1 p.2 0 = true).card := by
    rw [hcount] at hsum
    exact_mod_cast hsum
  exact Finset.card_filter_eq_iff.mp ((Finset.card_filter_le _ _).antisymm hle)

/-- a counter with all its adds -/
theorem sum_eq_card (hval : ∀ p ∈ L.adds, L.val p = 1) (hall : ∀ p ∈ L.adds, s.done p.1 p.2 0 = true) :
    L.sum s = L.adds.card := by
  rw [sum, Finset.card_eq_sum_ones, Nat.cast_sum]
  refine Finset.sum_congr rfl fun p hp => ?_
  rw [if_pos (hall p hp), hval p hp, Nat.cast_one]

/-- a counter has at least the adds that are known to have arrived -/
theorem card_le_sum (hval : ∀ p ∈ L.adds, L.val p = 1) {D : Finset (ℕ × ℕ)} (hsub : D ⊆ L.adds)
    (hD : ∀ p ∈ D, s.done p.1 p.2 0 = true) : (D.card : ℤ) ≤ L.sum s := by
  calc (D.card : ℤ) = ∑ p ∈ D, if s.done p.1 p.2 0 = true then L.val p else 0 := by
        rw [Finset.card_eq_sum_ones, Nat.cast_sum]
        refine Finset.sum_congr rfl fun p hp => ?_
        rw [if_pos (hD p hp), hval p (hsub hp), Nat.cast_one]
    _ ≤ L.sum s := by
        refine Finset.sum_le_sum_of_subset_of_nonneg hsub fun p hp _ => ?_
        split_ifs
        · rw [hval p hp]
          exact zero_le_one
        · exact le_refl 0

/-- a cell that counts messages of one PE -/
theorem exists_ge {u n : ℕ} {pos : ℕ → ℕ} (hadds : L.adds = (Finset.range n).image fun k => (u, pos k))
    (hval : ∀ p ∈ L.adds, L.val p = 1) {k : ℕ} (hsum : (k + 1 : ℤ) ≤ L.sum s) :
    ∃ k' < n, k ≤ k' ∧ s.done u (pos k') 0 = true := by
  by_contra hno
  push Not at hno
  have hle : L.sum s ≤ ∑ p ∈ (Finset.range k).image fun k => (u, pos k), (1 : ℤ) := by
    calc L.sum s = ∑ p ∈ L.adds with s.done p.1 p.2 0 = true, (1 : ℤ) := by
          rw [sum, Finset.sum_filter]
          refine Finset.sum_congr rfl fun p hp => ?_
          rw [hval p hp]
      _ ≤ _ := by
          refine Finset.sum_le_sum_of_subset_of_nonneg (fun p hp => ?_) fun _ _ _ => zero_le_one
          obtain ⟨hmem, hd⟩ := Finset.mem_filter.mp hp
          rw [hadds] at hmem
          obtain ⟨k', hk', rfl⟩ := Finset.mem_image.mp hmem
          refine Finset.mem_image_of_mem _ (Finset.mem_range.mpr ?_)
          by_contra hge
          exact absurd hd (by simpa using hno k' (Finset.mem_range.mp hk') (by omega))
  have hcard : (∑ p ∈ (Finset.range k).image fun k => (u, pos k), (1 : ℤ)) ≤ k := by
    rw [Finset.sum_const, nsmul_eq_mul, mul_one]
    exact_mod_cast Finset.card_image_le.trans (Finset.card_range k).le
  omega

end Ledger

/-! ## Flags -/

/-- a cell of a PE, the put that sets it and the put that clears it -/
structure Flag where
  pe : ℕ
  cell : ℕ
  set : ℕ × ℕ
  clear : ℕ × ℕ

namespace Flag
variable {α : Type*} (F : Flag) (M : Machine α) (s : St α)

/-- the program writes the cell with these messages only -/
structure Of : Prop where
  add : ∀ r i x, M.prog r i ≠ some (.atomicAdd F.cell x F.pe)
  put : ∀ r i x, M.prog r i = some (.putScalar F.cell x F.pe) → ((r, i) = F.set ∧ x = 1) ∨ ((r, i) = F.clear ∧ x = 0)
  set : M.prog F.set.1 F.set.2 = some (.putScalar F.cell 1 F.pe)
  clear : M.prog F.clear.1 F.clear.2 = some (.putScalar F.cell 0 F.pe)
  store : ∀ i x, M.prog F.pe i ≠ some (.store F.cell x)

def IsSet : Prop := s.done F.set.1 F.set.2 0 = true

def Cleared : Prop := s.done F.clear.1 F.clear.2 0 = true

open Classical in
structure Holds : Prop where
  cell : s.cell F.pe F.cell = if F.Cleared s then 0 else if F.IsSet s then 1 else 0

variable {F M s} {s' : St α}

theorem Holds.of_eq (h : F.Holds s) (hcell : s'.cell F.pe F.cell = s.cell F.pe F.cell) (hset : F.IsSet s' ↔ F.IsSet s)
    (hclear : F.Cleared s' ↔ F.Cleared s) : F.Holds s' := by
  classical
  refine ⟨?_⟩
  rw [hcell, h.cell]
  simp only [hset, hclear]

theorem Holds.exec (hof : F.Of M) (h : F.Holds s) {r : ℕ} {ins : Instr} (hp : M.prog r (s.pc r) = some ins) :
    F.Holds (advance (M.effect s r ins) r) := by
  refine h.of_eq ?_ ?_ ?_
  · rw [advance_cell]
    refine effect_cell_of_ne M s r ?_
    rintro rfl x rfl
    exact hof.store _ _ hp
  · simp only [IsSet, advance_done, effect_done]
  · simp only [Cleared, advance_done, effect_done]

theorem Holds.capture (h : F.Holds s) (r i j : ℕ) (a : α) : F.Holds (record s r i j a) :=
  h.of_eq rfl Iff.rfl Iff.rfl

/-- **The flag of a cell.** It is set once and cleared once, if it is cleared after it has been set. -/
theorem Holds.deliver (hof : F.Of M) (h : F.Holds s) {r i j : ℕ} {ins : Instr} (hp : M.prog r i = some ins)
    (hd : M.Deliverable s r i j) (hlast : F.Cleared s → F.IsSet s) :
    F.Holds (mark (M.arrive s r i j ins) r i j) := by
  classical
  have hparts := hd.2.1
  rw [partsAt_eq _ hp] at hparts
  have hdone : ∀ p : ℕ × ℕ, p ≠ (r, i) →
      ((mark (M.arrive s r i j ins) r i j).done p.1 p.2 0 = true ↔ s.done p.1 p.2 0 = true) := by
    intro p hne
    rw [mark_done, arrive_done]
    refine ⟨fun hd => hd.resolve_left ?_, .inr⟩
    rintro ⟨h1, h2, -⟩
    exact hne (Prod.ext h1 h2)
  by_cases hput : ∃ x, ins = .putScalar F.cell x F.pe
  · obtain ⟨x, rfl⟩ := hput
    obtain rfl : j = 0 := Nat.lt_one_iff.mp hparts
    have hnew : (mark (M.arrive s r i 0 (.putScalar F.cell x F.pe)) r i 0).done r i 0 = true :=
      (mark_done ..).mpr (.inl ⟨rfl, rfl, rfl⟩)
    refine ⟨?_⟩
    rw [mark_cell]
    refine (setCell_self ..).trans ?_
    rcases hof.put r i x hp with ⟨hset, rfl⟩ | ⟨hclear, rfl⟩
    · -- it has not been cleared, and the clear is another message
      have hnot : ¬ F.Cleared s := by
        intro hc
        have hs := hlast hc
        rw [IsSet, ← hset, hd.2.2.1] at hs
        exact absurd hs Bool.noConfusion
      have hne : F.clear ≠ (r, i) := by
        intro heq
        have hzero := hof.clear
        rw [heq, hp] at hzero
        exact absurd (Instr.putScalar.inj (Option.some.inj hzero)).2.1 one_ne_zero
      have hnot' : ¬ F.Cleared (mark (M.arrive s r i 0 (.putScalar F.cell 1 F.pe)) r i 0) :=
        fun hc => hnot ((hdone _ hne).mp hc)
      rw [if_neg hnot', if_pos (by rw [IsSet, ← hset]; exact hnew)]
    · rw [if_pos (by rw [Cleared, ← hclear]; exact hnew)]
  · push Not at hput
    have hadd : ∀ x, ins ≠ .atomicAdd F.cell x F.pe := by
      rintro x rfl
      exact hof.add r i x hp
    have hne : ∀ (p : ℕ × ℕ) (x : ℤ), M.prog p.1 p.2 = some (.putScalar F.cell x F.pe) → p ≠ (r, i) := by
      rintro p x hpx rfl
      exact hput x (Option.some.inj (hp.symm.trans hpx))
    refine h.of_eq ?_ (hdone _ (hne _ _ hof.set)) (hdone _ (hne _ _ hof.clear))
    rw [mark_cell]
    exact arrive_cell_of_ne M s r i j hadd hput

theorem holds_init {c0 : ℕ → ℕ → ℤ} (m0 : ℕ → Loc → α) (h0 : c0 F.pe F.cell = 0) : F.Holds (init c0 m0) := by
  classical
  refine ⟨?_⟩
  rw [if_neg (by simp [Cleared, init]), if_neg (by simp [IsSet, init])]
  exact h0

/-- a flag that is not zero has been set -/
theorem Holds.set_of_ne (h : F.Holds s) (hne : s.cell F.pe F.cell ≠ 0) : F.IsSet s := by
  classical
  by_contra hnot
  refine hne ?_
  rw [h.cell, if_neg hnot, ite_self]

/-- a flag that has been set and is zero has been cleared -/
theorem Holds.cleared_of_eq (h : F.Holds s) (hset : F.IsSet s) (heq : s.cell F.pe F.cell = 0) : F.Cleared s := by
  classical
  by_contra hnot
  rw [h.cell, if_neg hnot, if_pos hset] at heq
  exact one_ne_zero heq

end Flag

end OneSided
