/-
The instant of an operation.

A run changes a shared word: `word k` is its value before step k of the run. Some of the steps are those of one operation
(`own`), which begins with step b. The operation is atomic if one of its steps changes the word and all others leave it
alone: that step is its instant.

- `Unchanged`: before the instant.
- `Once`: after it.
-/
import Mathlib.Order.Basic

namespace Linear

variable {α : Type*} {word : ℕ → α} {own : ℕ → Prop} {b n : ℕ} {v v' : α}

/-- the steps of the operation before step n leave the word alone -/
def Unchanged (word : ℕ → α) (own : ℕ → Prop) (b n : ℕ) : Prop := ∀ k, b < k → k < n → own k → word (k + 1) = word k

/-- one of them changes it from v to v' -/
def Once (word : ℕ → α) (own : ℕ → Prop) (b n : ℕ) (v v' : α) : Prop :=
  ∃ τ, b < τ ∧ τ < n ∧ own τ ∧ word τ = v ∧ word (τ + 1) = v' ∧
    ∀ k, b < k → k < n → own k → k ≠ τ → word (k + 1) = word k

/-- the operation begins -/
theorem Unchanged.start (word : ℕ → α) (own : ℕ → Prop) (b : ℕ) : Unchanged word own b (b + 1) := by
  intro k hb hk
  omega

/-- a step that is not the instant -/
theorem Unchanged.succ (h : Unchanged word own b n) (hn : own n → word (n + 1) = word n) : Unchanged word own b (n + 1) := by
  intro k hb hk hown
  rcases Nat.lt_succ_iff_lt_or_eq.mp hk with hlt | rfl
  · exact h k hb hlt hown
  · exact hn hown

/-- the instant -/
theorem Unchanged.once (h : Unchanged word own b n) (hb : b < n) (hown : own n) (hv : word n = v)
    (hv' : word (n + 1) = v') : Once word own b (n + 1) v v' := by
  refine ⟨n, hb, Nat.lt_succ_self n, hown, hv, hv', fun k hk hlt ho hne => ?_⟩
  exact h k hk (Nat.lt_of_le_of_ne (Nat.le_of_lt_succ hlt) hne) ho

/-- a step after the instant -/
theorem Once.succ (h : Once word own b n v v') (hn : own n → word (n + 1) = word n) : Once word own b (n + 1) v v' := by
  obtain ⟨τ, hb, hτ, hown, hv, hv', hrest⟩ := h
  refine ⟨τ, hb, Nat.lt_succ_of_lt hτ, hown, hv, hv', fun k hk hlt ho hne => ?_⟩
  rcases Nat.lt_succ_iff_lt_or_eq.mp hlt with hlt | rfl
  · exact hrest k hk hlt ho hne
  · exact hn ho

end Linear
