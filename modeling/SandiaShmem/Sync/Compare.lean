/-
Comparisons of a variable with a value (`COMP` in `src/shmem_synchronization.h`), and the mask that takes variables out of a
test set (`src/synchronization_c.c4`).

The types that the routines are generated for are ordered by their value. A comparison operator that is none of the six
stops the job.
-/
import SandiaShmem.Core.Scan

namespace SandiaShmem.Sync

open SandiaShmem.Scan

/-- the comparison operators SHMEM_CMP_EQ to SHMEM_CMP_LE -/
inductive CmpOp where
  | EQ
  | NE
  | GT
  | GE
  | LT
  | LE
deriving DecidableEq, Repr

/-- `COMP` -/
def comp {α : Type*} [LinearOrder α] (type : CmpOp) (a b : α) : Bool :=
  match type with
  | .EQ => a = b
  | .NE => a ≠ b
  | .GT => a > b
  | .GE => a ≥ b
  | .LT => a < b
  | .LE => a ≤ b

/-- the largest `size_t` -/
def SIZE_MAX : ℕ := 2 ^ 64 - 1

/-- `status == NULL || !status[i]`; `none` stands for NULL -/
def included (status : Option (ℕ → ℤ)) (i : ℕ) : Bool :=
  match status with
  | none => true
  | some status => status i = 0

/-- the loop that counts num_ignored -/
def numIgnored (nelems : ℕ) (status : Option (ℕ → ℤ)) : ℕ :=
  match status with
  | none => 0
  | some status => count (fun i => status i ≠ 0) nelems

/-- the indices that are tested -/
def InTestSet (nelems : ℕ) (status : Option (ℕ → ℤ)) (i : ℕ) : Prop := i < nelems ∧ included status i = true

/-- the early return of the routines -/
theorem nothing_to_test_iff {nelems : ℕ} {status : Option (ℕ → ℤ)} :
    (nelems = 0 ∨ numIgnored nelems status = nelems) ↔ ¬ ∃ i, InTestSet nelems status i := by
  have hall : numIgnored nelems status = nelems ↔ nelems = 0 ∨ ∀ i < nelems, included status i = false := by
    cases status with
    | none =>
      simp only [numIgnored, included, Bool.true_eq_false, imp_false, not_lt]
      exact ⟨fun h => .inl h.symm, fun h => h.elim Eq.symm fun h => (Nat.le_zero.mp (h 0)).symm⟩
    | some m =>
      simp only [numIgnored, count_eq_self_iff, included, decide_eq_true_eq, decide_eq_false_iff_not]
      exact ⟨.inr, fun h => h.elim (fun h0 i hi => absurd hi (by omega)) id⟩
  rw [hall]
  unfold InTestSet
  push Not
  constructor
  · rintro (h0 | h0 | h) i hi
    · omega
    · omega
    · exact Bool.eq_false_iff.mp (h i hi)
  · intro h
    exact .inr (.inr fun i hi => Bool.eq_false_iff.mpr (h i hi))

end SandiaShmem.Sync
