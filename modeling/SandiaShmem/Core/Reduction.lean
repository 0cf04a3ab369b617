/-
Reductions with an operation that has no neutral element.

A parallel reduction combines values in an order and a grouping that depend on the algorithm and on the schedule.
`Red op f S a` says that a is the values f x, x ∈ S, combined with op in some order and grouping, each used once. With an
associative and commutative op there is only one such value.

- `Red.unique`: the value does not depend on order and grouping.
- `foldRanks`, `Red.eq_foldRanks`: over the ranks below n it is the left fold from rank 0.
- `doubling`: recursive doubling. After i exchanges the members of a sub-cube of dimension i agree when op is commutative
  (`doubling_congr`), and hold the reduction of the sub-cube (`doubling_red`).
-/
import Mathlib.Tactic
import Mathlib.Algebra.BigOperators.Group.Finset.Basic
import Mathlib.Algebra.Group.WithOne.Defs
import Mathlib.Algebra.Group.WithOne.Basic
import Mathlib.Data.Nat.Bitwise

namespace Reduction

variable {α : Type*} {ι : Type*} [DecidableEq ι]

/-- the values of the members of S, each used once -/
inductive Red (op : α → α → α) (f : ι → α) : Finset ι → α → Prop
  | single (x : ι) : Red op f {x} (f x)
  | join {S T : Finset ι} {a b : α} (ha : Red op f S a) (hb : Red op f T b) (h : Disjoint S T) :
    Red op f (S ∪ T) (op a b)

section
variable {op : α → α → α} {f : ι → α}

/-- one more value -/
theorem Red.snoc {S : Finset ι} {a : α} {x : ι} (ha : Red op f S a) (hx : x ∉ S) :
    Red op f (insert x S) (op a (f x)) := by
  have h := Red.join ha (Red.single x) (Finset.disjoint_singleton_right.mpr hx)
  rwa [Finset.union_comm, Finset.singleton_union] at h

theorem Red.congr {S T : Finset ι} {a : α} (ha : Red op f S a) (h : S = T) : Red op f T a := h ▸ ha

/-- the same values under other names -/
theorem Red.image {κ : Type*} [DecidableEq κ] {g : κ → α} {e : ι → κ} (he : Function.Injective e) {S : Finset ι} {a : α}
    (ha : Red op (fun x => g (e x)) S a) : Red op g (S.image e) a := by
  induction ha with
  | single x =>
    rw [Finset.image_singleton]
    exact .single (e x)
  | join _ _ hdisj iha ihb =>
    rw [Finset.image_union]
    exact .join iha ihb ((Finset.disjoint_image he).mpr hdisj)

/-- **The value of a reduction is unique** when op is associative and commutative. -/
theorem Red.unique (hassoc : ∀ a b c, op (op a b) c = op a (op b c)) (hcomm : ∀ a b, op a b = op b a) {S : Finset ι}
    {a b : α} (ha : Red op f S a) (hb : Red op f S b) : a = b := by
  -- with a neutral element added, both are the product over S
  let _ : CommSemigroup α := { mul := op, mul_assoc := hassoc, mul_comm := hcomm }
  have hprod : ∀ {S : Finset ι} {a : α}, Red op f S a → (a : WithOne α) = ∏ x ∈ S, (f x : WithOne α) := by
    intro S a h
    induction h with
    | single x => simp
    | join _ _ hdisj iha ihb =>
      rw [Finset.prod_union hdisj, ← iha, ← ihb, ← WithOne.coe_mul]
      rfl
  exact WithOne.coe_injective ((hprod ha).trans (hprod hb).symm)

end

/-- the left fold of the values of the ranks 0, …, n - 1 -/
def foldRanks (op : α → α → α) (f : ℕ → α) (n : ℕ) : α :=
  (List.range (n - 1)).foldl (fun acc r => op acc (f (r + 1))) (f 0)

variable {op : α → α → α} {f : ℕ → α}

theorem foldRanks_red {n : ℕ} (hn : 1 ≤ n) : Red op f (Finset.range n) (foldRanks op f n) := by
  induction n, hn using Nat.le_induction with
  | base => exact Red.single 0
  | succ n hn ih =>
    have hfold : foldRanks op f (n + 1) = op (foldRanks op f n) (f n) := by
      obtain ⟨m, rfl⟩ : ∃ m, n = m + 1 := ⟨n - 1, by omega⟩
      simp [foldRanks, List.range_succ]
    rw [hfold, Finset.range_add_one]
    exact ih.snoc (by simp)

/-- every reduction over the ranks below n is the left fold -/
theorem Red.eq_foldRanks (hassoc : ∀ a b c, op (op a b) c = op a (op b c)) (hcomm : ∀ a b, op a b = op b a) {n : ℕ}
    (hn : 1 ≤ n) {a : α} (h : Red op f (Finset.range n) a) : a = foldRanks op f n :=
  h.unique hassoc hcomm (foldRanks_red hn)

/-! ## Recursive doubling -/

/-- the value of rank r after i exchanges, the j-th with the rank that differs in bit j -/
def doubling (op : α → α → α) (f : ℕ → α) : ℕ → ℕ → α
  | 0, r => f r
  | i + 1, r => op (doubling op f i r) (doubling op f i (r ^^^ 2 ^ i))

theorem xor_two_pow_div (r i : ℕ) : (r ^^^ 2 ^ i) / 2 ^ i = r / 2 ^ i ^^^ 1 := by
  rw [Nat.xor_div_two_pow, Nat.div_self (by positivity)]

/-- a sub-cube is two sub-cubes of the next lower dimension -/
theorem div_two_pow_succ_eq_iff (x r i : ℕ) :
    x / 2 ^ (i + 1) = r / 2 ^ (i + 1) ↔ x / 2 ^ i = r / 2 ^ i ∨ x / 2 ^ i = (r ^^^ 2 ^ i) / 2 ^ i := by
  have hdiv : (r / 2 ^ i ^^^ 1) / 2 = r / 2 ^ i / 2 := by
    rw [Nat.xor_div_two]
    simp
  have hmod : (r / 2 ^ i ^^^ 1) % 2 = (r / 2 ^ i + 1) % 2 := Nat.xor_mod_two_eq
  rw [xor_two_pow_div, Nat.pow_succ, ← Nat.div_div_eq_div_mul, ← Nat.div_div_eq_div_mul]
  omega

theorem xor_div_ne (r i : ℕ) : (r ^^^ 2 ^ i) / 2 ^ i ≠ r / 2 ^ i := by
  have hmod : (r / 2 ^ i ^^^ 1) % 2 = (r / 2 ^ i + 1) % 2 := Nat.xor_mod_two_eq
  rw [xor_two_pow_div]
  omega

/-- **Agreement without associativity.** With a commutative op the members of a sub-cube hold the same value. -/
theorem doubling_congr (hcomm : ∀ a b, op a b = op b a) (i : ℕ) :
    ∀ r r', r / 2 ^ i = r' / 2 ^ i → doubling op f i r = doubling op f i r' := by
  induction i with
  | zero =>
    intro r r' h
    rw [Nat.pow_zero, Nat.div_one, Nat.div_one] at h
    rw [h]
  | succ i ih =>
    intro r r' h
    have hback : (r' ^^^ 2 ^ i) ^^^ 2 ^ i = r' := by rw [Nat.xor_assoc, Nat.xor_self, Nat.xor_zero]
    simp only [doubling]
    -- r' is in the half of r, or in the other one
    rcases (div_two_pow_succ_eq_iff r r' i).mp h with hsame | hother
    · rw [ih r r' hsame, ih (r ^^^ 2 ^ i) (r' ^^^ 2 ^ i) (by rw [xor_two_pow_div, xor_two_pow_div, hsame])]
    · have hflip : (r ^^^ 2 ^ i) / 2 ^ i = r' / 2 ^ i := by
        rw [xor_two_pow_div, hother, ← xor_two_pow_div, hback]
      rw [ih r (r' ^^^ 2 ^ i) hother, ih (r ^^^ 2 ^ i) r' hflip, hcomm]

/-- when rank r starts with the reduction of class r, it holds the reduction of the classes of its sub-cube -/
theorem doubling_red {g : ι → α} {U : Finset ι} {c : ι → ℕ} (k : ℕ)
    (h : ∀ r < 2 ^ k, Red op g (U.filter fun x => c x = r) (f r)) (i : ℕ) (hi : i ≤ k) :
    ∀ r < 2 ^ k, Red op g (U.filter fun x => c x / 2 ^ i = r / 2 ^ i) (doubling op f i r) := by
  induction i with
  | zero =>
    intro r hr
    simpa [doubling] using h r hr
  | succ i ih =>
    intro r hr
    have hr' : r ^^^ 2 ^ i < 2 ^ k := Nat.xor_lt_two_pow hr (Nat.pow_lt_pow_right (by decide) hi)
    have hdisj : Disjoint (U.filter fun x => c x / 2 ^ i = r / 2 ^ i)
        (U.filter fun x => c x / 2 ^ i = (r ^^^ 2 ^ i) / 2 ^ i) := by
      rw [Finset.disjoint_filter]
      intro x _ h1 h2
      exact xor_div_ne r i (h2.symm.trans h1)
    refine (Red.join (ih (by omega) r hr) (ih (by omega) _ hr') hdisj).congr ?_
    rw [← Finset.filter_or]
    exact Finset.filter_congr fun x _ => (div_two_pow_succ_eq_iff (c x) r i).symm

/-- after the last exchange everybody holds the reduction of everything -/
theorem doubling_all {g : ι → α} {U : Finset ι} {c : ι → ℕ} {k : ℕ}
    (h : ∀ r < 2 ^ k, Red op g (U.filter fun x => c x = r) (f r)) (hc : ∀ x ∈ U, c x < 2 ^ k) {r : ℕ} (hr : r < 2 ^ k) :
    Red op g U (doubling op f k r) := by
  refine (doubling_red k h k (le_refl k) r hr).congr ?_
  refine Finset.filter_true_of_mem fun x hx => ?_
  rw [Nat.div_eq_of_lt (hc x hx), Nat.div_eq_of_lt hr]

end Reduction
