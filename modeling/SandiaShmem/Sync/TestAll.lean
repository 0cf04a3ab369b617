/-
`shmem_TYPE_test_all` and `shmem_TYPE_test_all_vector` (`src/synchronization_c.c4`): have all variables of the test set
satisfied the comparison?

The variables that have are counted, and their number is compared with the number of all variables, those that are masked
out included. The value is the same for all variables, or one for each; otherwise the two routines are the same. The
variables are read as they are at the time of the call.

- `Decides`: the routine says what its documentation wants, and agrees with the routine that waits.
- `test_all_iff`: it does, except when a mask takes out some variables but not all and the others satisfy the comparison.
-/
import SandiaShmem.Sync.Compare

namespace SandiaShmem.Sync.TestAll

open SandiaShmem.Scan

/-! ## Model -/

section
variable {α : Type*} [LinearOrder α]

/-- the common body of `shmem_TYPE_test_all` and `shmem_TYPE_test_all_vector` -/
def testAllOf (vars : ℕ → α) (nelems : ℕ) (status : Option (ℕ → ℤ)) (cond : CmpOp) (value : ℕ → α) : ℕ :=
  let num_ignored := numIgnored nelems status
  if nelems = 0 ∨ num_ignored = nelems then 0
  else
    let ncompleted := count (fun i => included status i && comp cond (vars i) (value i)) nelems
    if ncompleted = nelems then 1 else 0

/-- `shmem_TYPE_test_all` -/
def testAll (vars : ℕ → α) (nelems : ℕ) (status : Option (ℕ → ℤ)) (cond : CmpOp) (value : α) : ℕ :=
  testAllOf vars nelems status cond fun _ => value

/-- `shmem_TYPE_test_all_vector` -/
def testAllVector (vars : ℕ → α) (nelems : ℕ) (status : Option (ℕ → ℤ)) (cond : CmpOp) (values : ℕ → α) : ℕ :=
  testAllOf vars nelems status cond values

/-- the common body of `shmem_TYPE_wait_until_all` and `shmem_TYPE_wait_until_all_vector`: whether it returns at the first
comparison with each variable -/
def waitUntilAllOf (vars : ℕ → α) (nelems : ℕ) (status : Option (ℕ → ℤ)) (cond : CmpOp) (value : ℕ → α) : Bool :=
  let num_ignored := numIgnored nelems status
  if nelems = 0 ∨ num_ignored = nelems then true
  else (List.range nelems).all fun i => if included status i then comp cond (vars i) (value i) else true

/-- `shmem_TYPE_wait_until_all` -/
def waitUntilAll (vars : ℕ → α) (nelems : ℕ) (status : Option (ℕ → ℤ)) (cond : CmpOp) (value : α) : Bool :=
  waitUntilAllOf vars nelems status cond fun _ => value

/-- `shmem_TYPE_wait_until_all_vector` -/
def waitUntilAllVector (vars : ℕ → α) (nelems : ℕ) (status : Option (ℕ → ℤ)) (cond : CmpOp) (values : ℕ → α) : Bool :=
  waitUntilAllOf vars nelems status cond values

/-! ## What the routine is for -/

/-- all variables of the test set satisfy the comparison -/
def AllHold (vars : ℕ → α) (nelems : ℕ) (status : Option (ℕ → ℤ)) (cond : CmpOp) (value : ℕ → α) : Prop :=
  ∀ i, InTestSet nelems status i → comp cond (vars i) (value i) = true

/-- a result of a test, and whether the routine that waits would return at once -/
structure Decides (vars : ℕ → α) (nelems : ℕ) (status : Option (ℕ → ℤ)) (cond : CmpOp) (value : ℕ → α) (result : ℕ)
    (returns : Bool) : Prop where
  one : result = 1 ↔ (∃ i, InTestSet nelems status i) ∧ AllHold vars nelems status cond value
  zero : ¬ ((∃ i, InTestSet nelems status i) ∧ AllHold vars nelems status cond value) → result = 0
  wait : result = 1 ↔ returns = true ∧ ∃ i, InTestSet nelems status i

/-- nothing is masked out, or everything is, or a variable fails the comparison -/
def Unmixed (vars : ℕ → α) (nelems : ℕ) (status : Option (ℕ → ℤ)) (cond : CmpOp) (value : ℕ → α) : Prop :=
  (∀ i < nelems, included status i = true) ∨ (∀ i < nelems, included status i = false) ∨
    ∃ i < nelems, included status i = true ∧ comp cond (vars i) (value i) = false

variable {vars : ℕ → α} {nelems : ℕ} {status : Option (ℕ → ℤ)} {cond : CmpOp} {value : ℕ → α}

theorem waitUntilAllOf_iff : waitUntilAllOf vars nelems status cond value = true ↔ AllHold vars nelems status cond value := by
  simp only [waitUntilAllOf]
  split_ifs with h
  · exact ⟨fun _ i hi => absurd ⟨i, hi⟩ (nothing_to_test_iff.mp h), fun _ => rfl⟩
  · rw [List.all_eq_true]
    constructor
    · rintro hall i ⟨hi, hin⟩
      have := hall i (List.mem_range.mpr hi)
      rwa [if_pos hin] at this
    · intro hall i hi
      split_ifs with hin
      · exact hall i ⟨List.mem_range.mp hi, hin⟩
      · rfl

/-- what the code tests: nothing is masked out -/
theorem testAllOf_eq_one_iff : testAllOf vars nelems status cond value = 1 ↔
    (∃ i, InTestSet nelems status i) ∧ ∀ i < nelems, included status i = true ∧ comp cond (vars i) (value i) = true := by
  simp only [testAllOf, count_eq_self_iff, Bool.and_eq_true]
  split_ifs with h h'
  · exact ⟨fun h0 => absurd h0 (by decide), fun h1 => absurd h1.1 (nothing_to_test_iff.mp h)⟩
  · exact ⟨fun _ => ⟨not_not.mp (mt nothing_to_test_iff.mpr h), h'⟩, fun _ => rfl⟩
  · exact ⟨fun h0 => absurd h0 (by decide), fun h1 => absurd h1.2 h'⟩

theorem testAllOf_zero_or_one : testAllOf vars nelems status cond value = 0 ∨ testAllOf vars nelems status cond value = 1 := by
  simp only [testAllOf]
  split_ifs <;> simp

theorem decides_iff : Decides vars nelems status cond value (testAllOf vars nelems status cond value)
      (waitUntilAllOf vars nelems status cond value) ↔ Unmixed vars nelems status cond value := by
  have hcode : testAllOf vars nelems status cond value = 1 ↔ (∃ i, InTestSet nelems status i) ∧
      ∀ i < nelems, included status i = true ∧ comp cond (vars i) (value i) = true := testAllOf_eq_one_iff
  constructor
  · intro h
    by_contra hmixed
    unfold Unmixed at hmixed
    push Not at hmixed
    obtain ⟨⟨j, hj, hout⟩, ⟨i, hi, hin⟩, hhold⟩ := hmixed
    -- the variables that are tested satisfy the comparison, but one is masked out
    have hone := h.one.mpr ⟨⟨i, hi, by simpa using hin⟩, fun i hi => by simpa using hhold i hi.1 hi.2⟩
    exact hout ((hcode.mp hone).2 j hj).1
  · intro h
    have hone : testAllOf vars nelems status cond value = 1 ↔
        (∃ i, InTestSet nelems status i) ∧ AllHold vars nelems status cond value := by
      rw [hcode]
      constructor
      · rintro ⟨hne, hall⟩
        exact ⟨hne, fun i hi => (hall i hi.1).2⟩
      · rintro ⟨⟨j, hj⟩, hall⟩
        refine ⟨⟨j, hj⟩, fun i hi => ?_⟩
        rcases h with hin | hout | ⟨k, hk, hin, hfail⟩
        · exact ⟨hin i hi, hall i ⟨hi, hin i hi⟩⟩
        · exact absurd (hj.2.symm.trans (hout j hj.1)) (by decide)
        · exact absurd ((hall k ⟨hk, hin⟩).symm.trans hfail) (by decide)
    refine ⟨hone, fun hnot => testAllOf_zero_or_one.resolve_right fun h1 => hnot (hone.mp h1), ?_⟩
    rw [hone, waitUntilAllOf_iff, and_comm]

/-! ## Main result -/

/-- **Test all.** Both routines decide whether all variables of the test set satisfy the comparison exactly if no mask takes
out some variables but not all while the others satisfy it. -/
theorem test_all_iff (vars : ℕ → α) (nelems : ℕ) (status : Option (ℕ → ℤ)) (cond : CmpOp) :
    (∀ value : α, Decides vars nelems status cond (fun _ => value) (testAll vars nelems status cond value)
        (waitUntilAll vars nelems status cond value) ↔ Unmixed vars nelems status cond fun _ => value) ∧
      ∀ values : ℕ → α, Decides vars nelems status cond values (testAllVector vars nelems status cond values)
        (waitUntilAllVector vars nelems status cond values) ↔ Unmixed vars nelems status cond values :=
  ⟨fun _ => decides_iff, fun _ => decides_iff⟩

end

/-- two variables with the value 1, the second one masked out: the test for 1 gives 0, and the routine that waits returns -/
theorem test_all_masked :
    testAll (fun _ => (1 : ℤ)) 2 (some fun i => i) .EQ 1 = 0 ∧ waitUntilAll (fun _ => (1 : ℤ)) 2 (some fun i => i) .EQ 1 = true ∧
      ¬ Decides (fun _ => (1 : ℤ)) 2 (some fun i => (i : ℤ)) .EQ (fun _ => 1)
        (testAll (fun _ => (1 : ℤ)) 2 (some fun i => i) .EQ 1) (waitUntilAll (fun _ => (1 : ℤ)) 2 (some fun i => i) .EQ 1) := by
  refine ⟨by decide, by decide, fun h => ?_⟩
  have hone := h.one.mpr ⟨⟨0, by decide, by decide⟩, fun _ _ => rfl⟩
  exact absurd hone (by decide)

end SandiaShmem.Sync.TestAll
