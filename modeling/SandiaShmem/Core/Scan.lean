/-
Loops over the indices below n with a test p: how many pass, which one comes first from a given start, and a table of all
that pass.

- `count_eq_self_iff`: when all pass.
- `firstFrom_isSome_iff`: a scan that goes around from any start finds an index that passes, if there is one.
- `collect_spec`: the table has the indices that pass, in order, and nothing behind them is written.
-/
import Mathlib.Tactic

namespace SandiaShmem.Scan

/-- the number of indices that pass -/
def count (p : ℕ → Bool) (n : ℕ) : ℕ := (List.range n).foldl (fun c i => if p i then c + 1 else c) 0

/-- the first index that passes, from `start` upwards and around; index arithmetic is modulo w -/
def firstFrom (w : ℕ) (p : ℕ → Bool) (n start : ℕ) : Option ℕ :=
  (List.range n).findSome? fun i =>
    let idx := (i + start) % w % n
    if p idx then some idx else none

/-- the indices that pass, written to a table one after the other, and their number -/
def collect (p : ℕ → Bool) (n : ℕ) (table : ℕ → ℕ) : (ℕ → ℕ) × ℕ :=
  (List.range n).foldl (fun a i => if p i then (Function.update a.1 a.2 i, a.2 + 1) else a) (table, 0)

variable {p : ℕ → Bool} {n : ℕ}

/-! ## Counting -/

theorem count_eq (p : ℕ → Bool) (n : ℕ) : count p n = ((List.range n).filter p).length := by
  induction n with
  | zero => rfl
  | succ n ih =>
    unfold count at ih ⊢
    rw [List.range_succ, List.foldl_append, ih, List.filter_append, List.length_append, List.foldl_cons, List.foldl_nil]
    cases h : p n <;> simp [h]

theorem count_eq_self_iff : count p n = n ↔ ∀ i < n, p i = true := by
  rw [count_eq]
  constructor
  · intro h i hi
    have hall := (List.filter_eq_self (p := p)).mp
      (List.filter_sublist.eq_of_length (h.trans (List.length_range (n := n)).symm))
    exact hall i (List.mem_range.mpr hi)
  · intro h
    rw [List.filter_eq_self.mpr fun i hi => h i (List.mem_range.mp hi), List.length_range]

/-! ## The first from a start -/

theorem firstFrom_some {w start idx : ℕ} (h : firstFrom w p n start = some idx) : idx < n ∧ p idx = true := by
  obtain ⟨i, hi, hidx⟩ := List.exists_of_findSome?_eq_some h
  have hn : 0 < n := (Nat.zero_le i).trans_lt (List.mem_range.mp hi)
  simp only at hidx
  split_ifs at hidx with hp
  obtain rfl := Option.some.inj hidx
  exact ⟨Nat.mod_lt _ hn, hp⟩

/-- going around from any start visits every index -/
theorem exists_rotated {start idx : ℕ} (hstart : start ≤ n) (hidx : idx < n) : ∃ i < n, (i + start) % n = idx := by
  by_cases hle : start ≤ idx
  · refine ⟨idx - start, by omega, ?_⟩
    rw [Nat.sub_add_cancel hle, Nat.mod_eq_of_lt hidx]
  · refine ⟨idx + n - start, by omega, ?_⟩
    rw [Nat.sub_add_cancel (by omega), Nat.add_mod_right, Nat.mod_eq_of_lt hidx]

theorem firstFrom_isSome_iff {w start : ℕ} (hstart : start ≤ n) (hw : 2 * n ≤ w) :
    (∃ idx, firstFrom w p n start = some idx) ↔ ∃ i < n, p i = true := by
  constructor
  · rintro ⟨idx, h⟩
    exact ⟨idx, firstFrom_some h⟩
  · rintro ⟨idx, hidx, hp⟩
    refine Option.isSome_iff_exists.mp (List.findSome?_isSome_iff.mpr ?_)
    obtain ⟨i, hi, hrot⟩ := exists_rotated hstart hidx
    refine ⟨i, List.mem_range.mpr hi, ?_⟩
    simp only [Nat.mod_eq_of_lt (show i + start < w by omega), hrot, hp, if_true, Option.isSome_some]

theorem firstFrom_eq_none_iff {w start : ℕ} (hstart : start ≤ n) (hw : 2 * n ≤ w) :
    firstFrom w p n start = none ↔ ¬ ∃ i < n, p i = true := by
  rw [← firstFrom_isSome_iff hstart hw, Option.eq_none_iff_forall_ne_some]
  push Not
  rfl

/-- only the test of the indices below n matters -/
theorem firstFrom_congr {q : ℕ → Bool} (h : ∀ i < n, p i = q i) (w start : ℕ) :
    firstFrom w p n start = firstFrom w q n start := by
  unfold firstFrom
  rcases Nat.eq_zero_or_pos n with rfl | hn
  · rfl
  · have hcongr : (fun i => if p ((i + start) % w % n) then some ((i + start) % w % n) else none) =
        fun i => if q ((i + start) % w % n) then some ((i + start) % w % n) else none := by
      funext i
      rw [h _ (Nat.mod_lt _ hn)]
    simp only [hcongr]

/-! ## Collecting -/

/-- the table after the loop, and how far it is written -/
theorem collect_spec (p : ℕ → Bool) (n : ℕ) (table : ℕ → ℕ) :
    (collect p n table).2 = ((List.range n).filter p).length ∧
      ∀ k, (collect p n table).1 k = ((List.range n).filter p)[k]?.getD (table k) := by
  induction n with
  | zero => exact ⟨rfl, fun _ => rfl⟩
  | succ n ih =>
    obtain ⟨hlen, htable⟩ := ih
    have hstep : collect p (n + 1) table = if p n then
        (Function.update (collect p n table).1 (collect p n table).2 n, (collect p n table).2 + 1)
      else collect p n table := by
      unfold collect
      rw [List.range_succ, List.foldl_append]
      rfl
    rw [hstep, List.range_succ, List.filter_append]
    cases hp : p n with
    | false =>
      simp only [Bool.false_eq_true, if_false, hp, List.filter_cons_of_neg, List.filter_nil, List.append_nil, not_false_eq_true]
      exact ⟨hlen, htable⟩
    | true =>
      have hone : List.filter p [n] = [n] := List.filter_cons_of_pos hp
      simp only [if_true, hone]
      refine ⟨by rw [hlen, List.length_append, List.length_singleton], fun k => ?_⟩
      rw [hlen]
      rcases Nat.lt_trichotomy k ((List.range n).filter p).length with hk | hk | hk
      · rw [Function.update_of_ne (by omega), htable, List.getElem?_append_left hk]
      · rw [hk, Function.update_self, List.getElem?_append_right le_rfl, Nat.sub_self]
        rfl
      · rw [Function.update_of_ne (by omega), htable, List.getElem?_eq_none hk.le,
          List.getElem?_eq_none (by rw [List.length_append, List.length_singleton]; omega)]

theorem collect_congr {q : ℕ → Bool} (h : ∀ i < n, p i = q i) (table : ℕ → ℕ) : collect p n table = collect q n table := by
  obtain ⟨hlen, htable⟩ := collect_spec p n table
  obtain ⟨hlen', htable'⟩ := collect_spec q n table
  have hfilter : (List.range n).filter p = (List.range n).filter q :=
    List.filter_congr fun i hi => h i (List.mem_range.mp hi)
  refine Prod.ext (funext fun k => ?_) ?_
  · rw [htable, htable', hfilter]
  · rw [hlen, hlen', hfilter]

/-- what is in the table: the indices that pass, in ascending order, and the old contents behind them -/
structure Collected (p : ℕ → Bool) (n : ℕ) (table : ℕ → ℕ) (r : (ℕ → ℕ) × ℕ) : Prop where
  sound : ∀ k < r.2, r.1 k < n ∧ p (r.1 k) = true
  complete : ∀ i < n, p i = true → ∃ k < r.2, r.1 k = i
  mono : ∀ k k', k < k' → k' < r.2 → r.1 k < r.1 k'
  frame : ∀ k, r.2 ≤ k → r.1 k = table k

theorem collected (p : ℕ → Bool) (n : ℕ) (table : ℕ → ℕ) : Collected p n table (collect p n table) := by
  obtain ⟨hlen, htable⟩ := collect_spec p n table
  have hget : ∀ k, k < (collect p n table).2 → ((List.range n).filter p)[k]? = some ((collect p n table).1 k) := by
    intro k hk
    rw [hlen] at hk
    rw [htable, List.getElem?_eq_getElem hk]
    rfl
  refine ⟨fun k hk => ?_, fun i hi hp => ?_, fun k k' hkk hk' => ?_, fun k hk => ?_⟩
  · have hmem := List.mem_filter.mp (List.mem_of_getElem? (hget k hk))
    exact ⟨List.mem_range.mp hmem.1, hmem.2⟩
  · obtain ⟨k, hk⟩ := List.getElem?_of_mem (List.mem_filter.mpr ⟨List.mem_range.mpr hi, hp⟩)
    have hlt : k < (collect p n table).2 := by
      rw [hlen]
      exact (List.getElem?_eq_some_iff.mp hk).1
    exact ⟨k, hlt, Option.some.inj ((hget k hlt).symm.trans hk)⟩
  · obtain ⟨h₁, heq₁⟩ := List.getElem?_eq_some_iff.mp (hget k (hkk.trans hk'))
    obtain ⟨h₂, heq₂⟩ := List.getElem?_eq_some_iff.mp (hget k' hk')
    rw [← heq₁, ← heq₂]
    exact List.pairwise_iff_getElem.mp (List.pairwise_lt_range.filter p) k k' h₁ h₂ hkk
  · rw [htable, List.getElem?_eq_none (hlen ▸ hk)]
    rfl

end SandiaShmem.Scan
