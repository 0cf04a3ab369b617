/-
The routines that look for one variable, or for all variables, of a test set that satisfy a comparison: `shmem_TYPE_test_any`,
`_test_some`, `_wait_until_any` and `_wait_until_some`, each with one value for all variables or with one for each
(`src/synchronization_c.c4`).

A call of a test reads the variables as they are at that time. A routine that waits goes over the variables again and again;
`vars k` are the variables as the pass number k sees them. It may never return, so the passes are limited by a fuel.
The indices are of type size_t.

- `testAnyOf_spec`, `testSomeOf_spec`: the tests.
- `waitUntilAnyOf_const`, `waitUntilSomeOf_const`: the routines that wait, on variables that do not change.
- `any_some_correct`: all of them.
-/
import SandiaShmem.Sync.Compare

namespace SandiaShmem.Sync.AnySome

open SandiaShmem.Scan

/-! ## Model -/

section
variable {α : Type*} [LinearOrder α]

/-- a variable that is not masked out and satisfies the comparison -/
def hit (vars : ℕ → α) (status : Option (ℕ → ℤ)) (cond : CmpOp) (value : ℕ → α) (i : ℕ) : Bool :=
  included status i && comp cond (vars i) (value i)

/-- the loop over the variables from `start_idx` on; it stops at the first hit -/
def scanAny (vars : ℕ → α) (nelems : ℕ) (status : Option (ℕ → ℤ)) (cond : CmpOp) (value : ℕ → α) (start_idx : ℕ) : Option ℕ :=
  firstFrom (2 ^ 64) (hit vars status cond value) nelems start_idx

/-- the common body of `shmem_TYPE_test_any` and `shmem_TYPE_test_any_vector` -/
def testAnyOf (vars : ℕ → α) (nelems : ℕ) (status : Option (ℕ → ℤ)) (cond : CmpOp) (value : ℕ → α) (start_idx : ℕ) : ℕ :=
  (scanAny vars nelems status cond value start_idx).getD SIZE_MAX

/-- the common body of `shmem_TYPE_test_some` and `shmem_TYPE_test_some_vector`: the array of indices and the result -/
def testSomeOf (vars : ℕ → α) (nelems : ℕ) (indices : ℕ → ℕ) (status : Option (ℕ → ℤ)) (cond : CmpOp) (value : ℕ → α) :
    (ℕ → ℕ) × ℕ :=
  if nelems = 0 ∨ numIgnored nelems status = nelems then (indices, 0)
  else collect (hit vars status cond value) nelems indices

/-- `while (!cmpret)`, from pass k on -/
def anyLoop (vars : ℕ → ℕ → α) (nelems : ℕ) (status : Option (ℕ → ℤ)) (cond : CmpOp) (value : ℕ → α) (start_idx : ℕ) :
    ℕ → ℕ → Option ℕ
  | 0, _ => none
  | fuel + 1, k =>
    match scanAny (vars k) nelems status cond value start_idx with
    | some found_idx => some found_idx
    | none => anyLoop vars nelems status cond value start_idx fuel (k + 1)

/-- the common body of `shmem_TYPE_wait_until_any` and `shmem_TYPE_wait_until_any_vector` -/
def waitUntilAnyOf (vars : ℕ → ℕ → α) (nelems : ℕ) (status : Option (ℕ → ℤ)) (cond : CmpOp) (value : ℕ → α)
    (start_idx fuel : ℕ) : Option ℕ :=
  if nelems = 0 ∨ numIgnored nelems status = nelems then some SIZE_MAX
  else anyLoop vars nelems status cond value start_idx fuel 0

/-- `while (ncompleted == 0)`, from pass k on -/
def someLoop (vars : ℕ → ℕ → α) (nelems : ℕ) (indices : ℕ → ℕ) (status : Option (ℕ → ℤ)) (cond : CmpOp) (value : ℕ → α) :
    ℕ → ℕ → Option ((ℕ → ℕ) × ℕ)
  | 0, _ => none
  | fuel + 1, k =>
    let r := collect (hit (vars k) status cond value) nelems indices
    if r.2 = 0 then someLoop vars nelems r.1 status cond value fuel (k + 1) else some r

/-- the common body of `shmem_TYPE_wait_until_some` and `shmem_TYPE_wait_until_some_vector` -/
def waitUntilSomeOf (vars : ℕ → ℕ → α) (nelems : ℕ) (indices : ℕ → ℕ) (status : Option (ℕ → ℤ)) (cond : CmpOp)
    (value : ℕ → α) (fuel : ℕ) : Option ((ℕ → ℕ) × ℕ) :=
  if nelems = 0 ∨ numIgnored nelems status = nelems then some (indices, 0)
  else someLoop vars nelems indices status cond value fuel 0

section
variable (vars : ℕ → α) (snap : ℕ → ℕ → α) (nelems : ℕ) (indices : ℕ → ℕ) (status : Option (ℕ → ℤ)) (cond : CmpOp)

/-- `shmem_TYPE_test_any` -/
def testAny (value : α) (start_idx : ℕ) : ℕ := testAnyOf vars nelems status cond (fun _ => value) start_idx

/-- `shmem_TYPE_test_any_vector` -/
def testAnyVector (values : ℕ → α) (start_idx : ℕ) : ℕ := testAnyOf vars nelems status cond values start_idx

/-- `shmem_TYPE_test_some` -/
def testSome (value : α) : (ℕ → ℕ) × ℕ := testSomeOf vars nelems indices status cond fun _ => value

/-- `shmem_TYPE_test_some_vector` -/
def testSomeVector (values : ℕ → α) : (ℕ → ℕ) × ℕ := testSomeOf vars nelems indices status cond values

/-- `shmem_TYPE_wait_until_any` -/
def waitUntilAny (value : α) (start_idx fuel : ℕ) : Option ℕ :=
  waitUntilAnyOf snap nelems status cond (fun _ => value) start_idx fuel

/-- `shmem_TYPE_wait_until_any_vector` -/
def waitUntilAnyVector (values : ℕ → α) (start_idx fuel : ℕ) : Option ℕ :=
  waitUntilAnyOf snap nelems status cond values start_idx fuel

/-- `shmem_TYPE_wait_until_some` -/
def waitUntilSome (value : α) (fuel : ℕ) : Option ((ℕ → ℕ) × ℕ) :=
  waitUntilSomeOf snap nelems indices status cond (fun _ => value) fuel

/-- `shmem_TYPE_wait_until_some_vector` -/
def waitUntilSomeVector (values : ℕ → α) (fuel : ℕ) : Option ((ℕ → ℕ) × ℕ) :=
  waitUntilSomeOf snap nelems indices status cond values fuel

end

/-! ## What the routines are for -/

variable {vars : ℕ → α} {snap : ℕ → ℕ → α} {nelems : ℕ} {indices : ℕ → ℕ} {status : Option (ℕ → ℤ)} {cond : CmpOp}
  {value : ℕ → α} {start_idx : ℕ}

/-- index i is in the test set and satisfies the comparison -/
def Satisfies (vars : ℕ → α) (nelems : ℕ) (status : Option (ℕ → ℤ)) (cond : CmpOp) (value : ℕ → α) (i : ℕ) : Prop :=
  InTestSet nelems status i ∧ comp cond (vars i) (value i) = true

/-- what a routine stores and returns that looks for all variables -/
structure Listed (vars : ℕ → α) (nelems : ℕ) (indices : ℕ → ℕ) (status : Option (ℕ → ℤ)) (cond : CmpOp) (value : ℕ → α)
    (r : (ℕ → ℕ) × ℕ) : Prop where
  mem : ∀ i, (∃ k < r.2, r.1 k = i) ↔ Satisfies vars nelems status cond value i
  mono : ∀ k k', k < k' → k' < r.2 → r.1 k < r.1 k'
  frame : ∀ k, r.2 ≤ k → r.1 k = indices k

theorem hit_iff {i : ℕ} : (i < nelems ∧ hit vars status cond value i = true) ↔ Satisfies vars nelems status cond value i := by
  unfold hit Satisfies InTestSet
  rw [Bool.and_eq_true, and_assoc]

theorem exists_hit_iff :
    (∃ i < nelems, hit vars status cond value i = true) ↔ ∃ i, Satisfies vars nelems status cond value i :=
  exists_congr fun _ => hit_iff

variable (vars cond value) in
theorem not_satisfies_of_empty (h : ¬ ∃ i, InTestSet nelems status i) : ¬ ∃ i, Satisfies vars nelems status cond value i :=
  fun ⟨i, hi⟩ => h ⟨i, hi.1⟩

/-! ## The tests -/

/-- the conditions under which the indices of a scan do not overflow: the start is chosen below nelems, and the variables,
which have two bytes and more, fit into memory -/
structure Small (nelems start_idx : ℕ) : Prop where
  start : start_idx ≤ nelems
  fits : 2 * nelems ≤ 2 ^ 64

variable (vars status cond value) in
theorem scanAny_spec (hs : Small nelems start_idx) :
    (∀ i ∈ scanAny vars nelems status cond value start_idx, Satisfies vars nelems status cond value i) ∧
      (scanAny vars nelems status cond value start_idx = none ↔ ¬ ∃ i, Satisfies vars nelems status cond value i) := by
  refine ⟨fun i hi => hit_iff.mp (firstFrom_some hi), ?_⟩
  rw [← exists_hit_iff]
  exact firstFrom_eq_none_iff hs.start hs.fits

/-- an index is not SIZE_MAX -/
theorem Satisfies.ne (h : Satisfies vars nelems status cond value start_idx) (hfit : 2 * nelems ≤ 2 ^ 64) :
    start_idx ≠ SIZE_MAX := by
  have := h.1.1
  unfold SIZE_MAX
  omega

theorem testAnyOf_spec (hs : Small nelems start_idx) :
    (testAnyOf vars nelems status cond value start_idx = SIZE_MAX ↔ ¬ ∃ i, Satisfies vars nelems status cond value i) ∧
      ((∃ i, Satisfies vars nelems status cond value i) →
        Satisfies vars nelems status cond value (testAnyOf vars nelems status cond value start_idx)) := by
  obtain ⟨hsound, hnone⟩ := scanAny_spec vars status cond value hs
  unfold testAnyOf
  cases h : scanAny vars nelems status cond value start_idx with
  | none => exact ⟨⟨fun _ => hnone.mp h, fun _ => rfl⟩, fun hex => absurd hex (hnone.mp h)⟩
  | some i =>
    have hi := hsound i h
    exact ⟨⟨fun heq => absurd heq (hi.ne hs.fits), fun hno => absurd ⟨i, hi⟩ hno⟩, fun _ => hi⟩

theorem listed_collect : Listed vars nelems indices status cond value (collect (hit vars status cond value) nelems indices) := by
  have h := collected (hit vars status cond value) nelems indices
  refine ⟨fun i => ⟨?_, fun hi => ?_⟩, h.mono, h.frame⟩
  · rintro ⟨k, hk, rfl⟩
    exact hit_iff.mp (h.sound k hk)
  · have hi := hit_iff.mpr hi
    exact h.complete i hi.1 hi.2

theorem testSomeOf_spec : Listed vars nelems indices status cond value (testSomeOf vars nelems indices status cond value) := by
  unfold testSomeOf
  split_ifs with h
  · have hno := not_satisfies_of_empty vars cond value (nothing_to_test_iff.mp h)
    exact ⟨fun i => ⟨fun ⟨k, hk, _⟩ => absurd hk (Nat.not_lt_zero k), fun hi => absurd ⟨i, hi⟩ hno⟩,
      fun _ k' _ hk' => absurd hk' (Nat.not_lt_zero k'), fun _ _ => rfl⟩
  · exact listed_collect

/-- how many there are -/
theorem Listed.eq_zero_iff {r : (ℕ → ℕ) × ℕ} (h : Listed vars nelems indices status cond value r) :
    r.2 = 0 ↔ ¬ ∃ i, Satisfies vars nelems status cond value i := by
  constructor
  · rintro h0 ⟨i, hi⟩
    obtain ⟨k, hk, -⟩ := (h.mem i).mpr hi
    omega
  · intro hno
    by_contra hne
    exact hno ⟨r.1 0, (h.mem _).mp ⟨0, Nat.pos_of_ne_zero hne, rfl⟩⟩

/-! ## Waiting -/

/-- a pass that finds something ends the loop, one that finds nothing does not -/
theorem anyLoop_const (fuel k : ℕ) : anyLoop (fun _ => vars) nelems status cond value start_idx fuel k =
    if fuel = 0 then none else scanAny vars nelems status cond value start_idx := by
  induction fuel generalizing k with
  | zero => rfl
  | succ fuel ih =>
    rw [if_neg (Nat.succ_ne_zero fuel)]
    simp only [anyLoop]
    cases h : scanAny vars nelems status cond value start_idx with
    | some i => rfl
    | none =>
      simp only
      rw [ih, h, ite_self]

theorem someLoop_const (fuel k : ℕ) (hno : ¬ ∃ i, Satisfies vars nelems status cond value i) :
    someLoop (fun _ => vars) nelems indices status cond value fuel k = none := by
  induction fuel generalizing k indices with
  | zero => rfl
  | succ fuel ih =>
    simp only [someLoop]
    rw [if_pos (listed_collect.eq_zero_iff.mpr hno)]
    exact ih (k + 1)

/-- the routine that waits for one variable, when the variables do not change -/
structure WaitsAny (vars : ℕ → α) (nelems : ℕ) (status : Option (ℕ → ℤ)) (cond : CmpOp) (value : ℕ → α)
    (result : ℕ → Option ℕ) : Prop where
  found : (∃ i, Satisfies vars nelems status cond value i) → ∀ fuel, 0 < fuel →
    ∃ i ∈ result fuel, Satisfies vars nelems status cond value i
  /-- at once, before the first pass -/
  empty : result 0 = some SIZE_MAX ↔ ¬ ∃ i, InTestSet nelems status i
  only : ∀ fuel, result fuel = some SIZE_MAX → ¬ ∃ i, InTestSet nelems status i

/-- the routine that waits for some variables, when the variables do not change -/
structure WaitsSome (vars : ℕ → α) (nelems : ℕ) (indices : ℕ → ℕ) (status : Option (ℕ → ℤ)) (cond : CmpOp) (value : ℕ → α)
    (result : ℕ → Option ((ℕ → ℕ) × ℕ)) : Prop where
  found : (∃ i, Satisfies vars nelems status cond value i) → ∀ fuel, 0 < fuel →
    ∃ r ∈ result fuel, 0 < r.2 ∧ Listed vars nelems indices status cond value r
  empty : result 0 = some (indices, 0) ↔ ¬ ∃ i, InTestSet nelems status i
  only : ∀ fuel, ∀ r ∈ result fuel, r.2 = 0 → ¬ ∃ i, InTestSet nelems status i
  frame : ∀ fuel, ∀ r ∈ result fuel, ∀ k, r.2 ≤ k → r.1 k = indices k

theorem waitUntilAnyOf_const (hs : Small nelems start_idx) : WaitsAny vars nelems status cond value
    (waitUntilAnyOf (fun _ => vars) nelems status cond value start_idx) := by
  obtain ⟨hsound, hnone⟩ := scanAny_spec vars status cond value hs
  have hcode : ∀ fuel, waitUntilAnyOf (fun _ => vars) nelems status cond value start_idx fuel =
      if nelems = 0 ∨ numIgnored nelems status = nelems then some SIZE_MAX
      else if fuel = 0 then none else scanAny vars nelems status cond value start_idx := by
    intro fuel
    unfold waitUntilAnyOf
    rw [anyLoop_const]
  refine ⟨fun hex fuel hfuel => ?_, ?_, fun fuel h => ?_⟩
  · have hin : ¬ (nelems = 0 ∨ numIgnored nelems status = nelems) := fun h0 =>
      nothing_to_test_iff.mp h0 (hex.imp fun i hi => hi.1)
    rw [hcode, if_neg hin, if_neg (by omega)]
    cases h : scanAny vars nelems status cond value start_idx with
    | none => exact absurd hex (hnone.mp h)
    | some i => exact ⟨i, rfl, hsound i h⟩
  · rw [hcode, ← nothing_to_test_iff, if_pos (rfl : 0 = 0)]
    split_ifs with h
    · exact ⟨fun _ => h, fun _ => rfl⟩
    · exact ⟨fun h0 => absurd h0 (by simp), fun h0 => absurd h0 h⟩
  · rw [hcode] at h
    split_ifs at h with h0 hfuel
    · exact nothing_to_test_iff.mp h0
    · exact absurd rfl ((hsound _ h).ne hs.fits)

/-- the routine returns what the first pass finds, if it finds anything -/
theorem waitUntilSomeOf_some {fuel : ℕ} (hin : ¬ (nelems = 0 ∨ numIgnored nelems status = nelems)) {r : (ℕ → ℕ) × ℕ}
    (hr : waitUntilSomeOf (fun _ => vars) nelems indices status cond value fuel = some r) :
    0 < r.2 ∧ r = collect (hit vars status cond value) nelems indices := by
  have hlisted : Listed vars nelems indices status cond value (collect (hit vars status cond value) nelems indices) :=
    listed_collect
  rw [waitUntilSomeOf, if_neg hin] at hr
  cases fuel with
  | zero => exact absurd hr (by simp [someLoop])
  | succ fuel =>
    simp only [someLoop] at hr
    split_ifs at hr with h0
    · have hno := hlisted.eq_zero_iff.mp h0
      rw [someLoop_const _ _ hno] at hr
      exact absurd hr (by simp)
    · rw [← Option.some.inj hr]
      exact ⟨Nat.pos_of_ne_zero h0, rfl⟩

theorem waitUntilSomeOf_const : WaitsSome vars nelems indices status cond value
    (waitUntilSomeOf (fun _ => vars) nelems indices status cond value) := by
  have hlisted : Listed vars nelems indices status cond value (collect (hit vars status cond value) nelems indices) :=
    listed_collect
  refine ⟨fun hex fuel hfuel => ?_, ?_, fun fuel r hr h0 => ?_, fun fuel r hr k hk => ?_⟩
  · have hin : ¬ (nelems = 0 ∨ numIgnored nelems status = nelems) := fun h0 =>
      nothing_to_test_iff.mp h0 (hex.imp fun i hi => hi.1)
    have hne : (collect (hit vars status cond value) nelems indices).2 ≠ 0 := fun h0 => hlisted.eq_zero_iff.mp h0 hex
    obtain ⟨fuel, rfl⟩ := Nat.exists_eq_add_of_lt hfuel
    refine ⟨_, ?_, Nat.pos_of_ne_zero hne, hlisted⟩
    rw [waitUntilSomeOf, if_neg hin, Nat.zero_add]
    simp only [someLoop]
    rw [if_neg hne]
    rfl
  · rw [← nothing_to_test_iff]
    constructor
    · intro h
      by_contra hin
      exact absurd (waitUntilSomeOf_some hin h).1 (Nat.lt_irrefl 0)
    · intro h
      exact if_pos h
  · by_contra hin
    have := (waitUntilSomeOf_some (fun h => nothing_to_test_iff.mp h hin) hr).1
    omega
  · by_cases hin : nelems = 0 ∨ numIgnored nelems status = nelems
    · rw [waitUntilSomeOf, if_pos hin, Option.mem_some_iff] at hr
      subst hr
      rfl
    · obtain ⟨-, rfl⟩ := waitUntilSomeOf_some hin hr
      exact hlisted.frame k hk

/-! ## Main result -/

/-- the four routines with one kind of value -/
structure Correct (vars : ℕ → α) (nelems : ℕ) (indices : ℕ → ℕ) (status : Option (ℕ → ℤ)) (cond : CmpOp) (value : ℕ → α)
    (any : ℕ) (some : (ℕ → ℕ) × ℕ) (waitAny : ℕ → Option ℕ) (waitSome : ℕ → Option ((ℕ → ℕ) × ℕ)) : Prop where
  none_iff : any = SIZE_MAX ↔ ¬ ∃ i, Satisfies vars nelems status cond value i
  any : (∃ i, Satisfies vars nelems status cond value i) → Satisfies vars nelems status cond value any
  some : Listed vars nelems indices status cond value some
  waitAny : WaitsAny vars nelems status cond value waitAny
  waitSome : WaitsSome vars nelems indices status cond value waitSome

theorem correct_of (hs : Small nelems start_idx) : Correct vars nelems indices status cond value
    (testAnyOf vars nelems status cond value start_idx) (testSomeOf vars nelems indices status cond value)
    (waitUntilAnyOf (fun _ => vars) nelems status cond value start_idx)
    (waitUntilSomeOf (fun _ => vars) nelems indices status cond value) :=
  ⟨(testAnyOf_spec hs).1, (testAnyOf_spec hs).2, testSomeOf_spec, waitUntilAnyOf_const hs, waitUntilSomeOf_const⟩

theorem hit_congr {values : ℕ → α} (h : ∀ i < nelems, values i = value i) :
    ∀ i < nelems, hit vars status cond values i = hit vars status cond value i := by
  intro i hi
  simp only [hit, h i hi]

theorem anyLoop_congr {values : ℕ → α} (h : ∀ i < nelems, values i = value i) (fuel k : ℕ) :
    anyLoop snap nelems status cond values start_idx fuel k = anyLoop snap nelems status cond value start_idx fuel k := by
  induction fuel generalizing k with
  | zero => rfl
  | succ fuel ih =>
    have hscan : scanAny (snap k) nelems status cond values start_idx = scanAny (snap k) nelems status cond value start_idx :=
      firstFrom_congr (hit_congr h) _ _
    simp only [anyLoop, hscan, ih]

theorem someLoop_congr {values : ℕ → α} (h : ∀ i < nelems, values i = value i) (fuel k : ℕ) :
    someLoop snap nelems indices status cond values fuel k = someLoop snap nelems indices status cond value fuel k := by
  induction fuel generalizing k indices with
  | zero => rfl
  | succ fuel ih => simp only [someLoop, collect_congr (hit_congr h), ih]

/-- **Any and some.** For all variables, masks, comparisons, values and starts of the scan, the routines find what satisfies
the comparison; with one value for each variable they do the same as with one for all if the values are equal. -/
theorem any_some_correct (vars : ℕ → α) (nelems : ℕ) (indices : ℕ → ℕ) (status : Option (ℕ → ℤ)) (cond : CmpOp)
    (start_idx : ℕ) (hs : Small nelems start_idx) :
    (∀ value, Correct vars nelems indices status cond (fun _ => value) (testAny vars nelems status cond value start_idx)
        (testSome vars nelems indices status cond value) (waitUntilAny (fun _ => vars) nelems status cond value start_idx)
        (waitUntilSome (fun _ => vars) nelems indices status cond value)) ∧
      (∀ values, Correct vars nelems indices status cond values (testAnyVector vars nelems status cond values start_idx)
        (testSomeVector vars nelems indices status cond values)
        (waitUntilAnyVector (fun _ => vars) nelems status cond values start_idx)
        (waitUntilSomeVector (fun _ => vars) nelems indices status cond values)) ∧
      ∀ value values, (∀ i < nelems, values i = value) →
        testAnyVector vars nelems status cond values start_idx = testAny vars nelems status cond value start_idx ∧
        testSomeVector vars nelems indices status cond values = testSome vars nelems indices status cond value ∧
        ∀ (snap : ℕ → ℕ → α) (fuel : ℕ),
          waitUntilAnyVector snap nelems status cond values start_idx fuel =
            waitUntilAny snap nelems status cond value start_idx fuel ∧
          waitUntilSomeVector snap nelems indices status cond values fuel =
            waitUntilSome snap nelems indices status cond value fuel := by
  refine ⟨fun _ => correct_of hs, fun _ => correct_of hs, fun value values h => ⟨?_, ?_, fun snap fuel => ⟨?_, ?_⟩⟩⟩
  · exact congrArg (Option.getD · SIZE_MAX) (firstFrom_congr (hit_congr h) _ _)
  · simp only [testSomeVector, testSome, testSomeOf, collect_congr (hit_congr h)]
  · simp only [waitUntilAnyVector, waitUntilAny, waitUntilAnyOf, anyLoop_congr h]
  · simp only [waitUntilSomeVector, waitUntilSome, waitUntilSomeOf, someLoop_congr h]

end

/-- four variables, the third one masked out: the scan for values above 1 starts at the third and finds the last one -/
theorem any_some_correct_four :
    testAny (fun i => (i : ℤ)) 4 (some fun i => if i = 2 then 1 else 0) .GT 1 2 = 3 ∧
      Satisfies (fun i => (i : ℤ)) 4 (some fun i => if i = 2 then 1 else 0) .GT (fun _ => 1) 3 := by
  have h := (any_some_correct (fun i => (i : ℤ)) 4 (fun _ => 0) (some fun i => if i = 2 then 1 else 0) .GT 2
    ⟨by decide, by decide⟩).1 1
  have hres : testAny (fun i => (i : ℤ)) 4 (some fun i => if i = 2 then 1 else 0) .GT 1 2 = 3 := by decide
  refine ⟨hres, ?_⟩
  have hany := h.any ⟨3, ⟨by decide, by decide⟩, by decide⟩
  rwa [hres] at hany

end SandiaShmem.Sync.AnySome
