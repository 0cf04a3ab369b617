/-
The bit arrays of `src/shmem_internal.h`: `shmem_internal_bit_set`, `shmem_internal_bit_clear`,
`shmem_internal_bit_fetch` and `shmem_internal_bit_1st_nonzero` on an array of bytes.

An array of bytes is a function from byte numbers. `bitFetch_bitSet` and `bitFetch_bitClear` say what the two updates do
to every bit; `bit1stNonzero_eq_some` and `bit1stNonzero_eq_none` say that the search returns the lowest bit that is set.
-/
import SandiaShmem.Config

namespace SandiaShmem.Teams

/-- an array of `unsigned char` -/
abbrev Bytes := ℕ → BitVec 8

/-- `shmem_internal_bit_set` -/
def bitSet (ptr : Bytes) (index : ℕ) : Bytes :=
  Function.update ptr (index / CHAR_BIT) (ptr (index / CHAR_BIT) ||| (1#8 <<< (index % CHAR_BIT)))

/-- `shmem_internal_bit_clear` -/
def bitClear (ptr : Bytes) (index : ℕ) : Bytes :=
  Function.update ptr (index / CHAR_BIT) (ptr (index / CHAR_BIT) &&& ~~~(1#8 <<< (index % CHAR_BIT)))

/-- `shmem_internal_bit_fetch`, as a truth value -/
def bitFetch (ptr : Bytes) (index : ℕ) : Bool :=
  ((ptr (index / CHAR_BIT) >>> (index % CHAR_BIT)) &&& 1#8) = 1#8

/-- the inner loop of `shmem_internal_bit_1st_nonzero`: `bit_val` is shifted while it is not zero and j < CHAR_BIT -/
def bit1stByte (bit_val : BitVec 8) (j : ℕ) : ℕ → Option ℕ
  | 0 => none
  | k + 1 =>
    if bit_val = 0#8 then none
    else if bit_val &&& 1#8 = 1#8 then some j
    else bit1stByte (bit_val >>> 1) (j + 1) k

/-- the outer loop of `shmem_internal_bit_1st_nonzero`, from byte i on -/
def bit1stFrom (ptr : Bytes) (i : ℕ) : ℕ → Option ℕ
  | 0 => none
  | k + 1 =>
    match bit1stByte (ptr i) 0 CHAR_BIT with
    | some j => some (i * CHAR_BIT + j)
    | none => bit1stFrom ptr (i + 1) k

/-- `shmem_internal_bit_1st_nonzero`; `none` is its return value -1 -/
def bit1stNonzero (ptr : Bytes) (size : ℕ) : Option ℕ := bit1stFrom ptr 0 size

/-! ## Single bits -/

theorem and_one_eq (b : BitVec 8) : (b &&& 1#8 = 1#8) ↔ b.getLsbD 0 = true := by
  revert b; decide

theorem bitFetch_eq (ptr : Bytes) (i : ℕ) : bitFetch ptr i = (ptr (i / 8)).getLsbD (i % 8) := by
  rw [Bool.eq_iff_iff]
  simp [bitFetch, CHAR_BIT, and_one_eq]

theorem one_shift_bit (i j : ℕ) (hi : i < 8) (hj : j < 8) : (1#8 <<< i).getLsbD j = decide (j = i) := by
  interval_cases i <;> interval_cases j <;> decide

/-- setting a bit sets that bit and no other -/
theorem bitFetch_bitSet (ptr : Bytes) (i j : ℕ) : bitFetch (bitSet ptr i) j = (decide (j = i) || bitFetch ptr j) := by
  simp only [bitFetch_eq, bitSet, CHAR_BIT]
  have hj := Nat.mod_lt j (show 0 < 8 by decide)
  have hi := Nat.mod_lt i (show 0 < 8 by decide)
  by_cases hb : j / 8 = i / 8
  · rw [hb, Function.update_self, BitVec.getLsbD_or, one_shift_bit _ _ hi hj, Bool.or_comm]
    congr 1
    exact decide_eq_decide.2 ⟨fun h => by omega, fun h => by omega⟩
  · rw [Function.update_of_ne hb]
    have : j ≠ i := by rintro rfl; exact hb rfl
    simp [this]

/-- clearing a bit clears that bit and no other -/
theorem bitFetch_bitClear (ptr : Bytes) (i j : ℕ) :
    bitFetch (bitClear ptr i) j = (decide (j ≠ i) && bitFetch ptr j) := by
  simp only [bitFetch_eq, bitClear, CHAR_BIT]
  have hj := Nat.mod_lt j (show 0 < 8 by decide)
  have hi := Nat.mod_lt i (show 0 < 8 by decide)
  by_cases hb : j / 8 = i / 8
  · rw [hb, Function.update_self, BitVec.getLsbD_and, BitVec.getLsbD_not, one_shift_bit _ _ hi hj, Bool.and_comm]
    congr 1
    simp only [hj, decide_true, Bool.true_and, ne_eq, decide_not]
    congr 1
    exact decide_eq_decide.2 ⟨fun h => by omega, fun h => by omega⟩
  · rw [Function.update_of_ne hb]
    have : j ≠ i := by rintro rfl; exact hb rfl
    simp [this]

/-! ## The search -/

/-- the inner loop finds the lowest set bit among the next k bits -/
theorem bit1stByte_eq_some (b : BitVec 8) (j k r : ℕ) (h : bit1stByte b j k = some r) :
    j ≤ r ∧ r < j + k ∧ b.getLsbD (r - j) = true ∧ ∀ m < r - j, b.getLsbD m = false := by
  induction k generalizing b j with
  | zero => simp [bit1stByte] at h
  | succ k ih =>
    simp only [bit1stByte] at h
    split_ifs at h with h0 h1
    · simp only [Option.some.injEq] at h
      subst h
      refine ⟨le_rfl, by omega, ?_, by omega⟩
      rw [Nat.sub_self]; exact (and_one_eq b).1 h1
    · obtain ⟨i1, i2, i3, i4⟩ := ih _ _ h
      have e : r - j = (r - (j + 1)) + 1 := by omega
      refine ⟨by omega, by omega, ?_, fun m hm => ?_⟩
      · rw [BitVec.getLsbD_ushiftRight] at i3
        rw [e, Nat.add_comm]; exact i3
      · cases m with
        | zero => simpa using fun hb => h1 ((and_one_eq b).2 hb)
        | succ m =>
          have := i4 m (by omega)
          rw [BitVec.getLsbD_ushiftRight] at this
          rw [Nat.add_comm]; exact this

theorem bit1stByte_eq_none (b : BitVec 8) (j k : ℕ) (h : bit1stByte b j k = none) : ∀ m < k, b.getLsbD m = false := by
  induction k generalizing b j with
  | zero => intro m hm; omega
  | succ k ih =>
    simp only [bit1stByte] at h
    split_ifs at h with h0 h1
    · intro m _; rw [h0]; simp
    · intro m hm
      cases m with
      | zero => simpa using fun hb => h1 ((and_one_eq b).2 hb)
      | succ m =>
        have := ih _ _ h m (by omega)
        rw [BitVec.getLsbD_ushiftRight] at this
        rw [Nat.add_comm]; exact this

theorem bit1stFrom_eq_some (ptr : Bytes) (i k r : ℕ) (h : bit1stFrom ptr i k = some r) :
    8 * i ≤ r ∧ r < 8 * (i + k) ∧ bitFetch ptr r = true ∧ ∀ m, 8 * i ≤ m → m < r → bitFetch ptr m = false := by
  induction k generalizing i with
  | zero => simp [bit1stFrom] at h
  | succ k ih =>
    simp only [bit1stFrom, CHAR_BIT] at h
    cases hb : bit1stByte (ptr i) 0 8 with
    | some j =>
      obtain ⟨-, j2, j3, j4⟩ := bit1stByte_eq_some _ _ _ _ hb
      simp only [hb, Option.some.injEq] at h
      subst h
      simp only [Nat.sub_zero] at j3 j4
      refine ⟨by omega, by omega, ?_, fun m h1 h2 => ?_⟩
      · rw [bitFetch_eq, show (i * 8 + j) / 8 = i by omega, show (i * 8 + j) % 8 = j by omega]; exact j3
      · rw [bitFetch_eq, show m / 8 = i by omega]; exact j4 _ (by omega)
    | none =>
      have hz := bit1stByte_eq_none _ _ _ hb
      simp only [hb] at h
      obtain ⟨i1, i2, i3, i4⟩ := ih _ h
      refine ⟨by omega, by omega, i3, fun m h1 h2 => ?_⟩
      by_cases hm : m < 8 * (i + 1)
      · rw [bitFetch_eq, show m / 8 = i by omega]; exact hz _ (by omega)
      · exact i4 m (by omega) h2

theorem bit1stFrom_eq_none (ptr : Bytes) (i k : ℕ) (h : bit1stFrom ptr i k = none) :
    ∀ m, 8 * i ≤ m → m < 8 * (i + k) → bitFetch ptr m = false := by
  induction k generalizing i with
  | zero => intro m h1 h2; omega
  | succ k ih =>
    simp only [bit1stFrom, CHAR_BIT] at h
    cases hb : bit1stByte (ptr i) 0 8 with
    | some j => simp [hb] at h
    | none =>
      have hz := bit1stByte_eq_none _ _ _ hb
      simp only [hb] at h
      intro m h1 h2
      by_cases hm : m < 8 * (i + 1)
      · rw [bitFetch_eq, show m / 8 = i by omega]; exact hz _ (by omega)
      · exact ih _ h m (by omega) (by omega)

/-- the search returns the lowest bit that is set -/
theorem bit1stNonzero_eq_some (ptr : Bytes) (size r : ℕ) (h : bit1stNonzero ptr size = some r) :
    r < 8 * size ∧ bitFetch ptr r = true ∧ ∀ m < r, bitFetch ptr m = false := by
  obtain ⟨-, h2, h3, h4⟩ := bit1stFrom_eq_some ptr 0 size r h
  exact ⟨by omega, h3, fun m hm => h4 m (by omega) hm⟩

/-- it returns -1 only when no bit is set -/
theorem bit1stNonzero_eq_none (ptr : Bytes) (size : ℕ) (h : bit1stNonzero ptr size = none) :
    ∀ m < 8 * size, bitFetch ptr m = false :=
  fun m hm => bit1stFrom_eq_none ptr 0 size h m (by omega) (by omega)

end SandiaShmem.Teams
