/-
Integers of a fixed width, as compiled C computes with them. Values are taken as integers, and an operation is the exact
one followed by a reduction to the width of its type.

- `Fits`: what a signed type of w bits holds.
- `wrap`: the two's complement value of w bits that stands for an integer.
- `wrap_of_fits`: what fits is kept, so that only results that do not fit have to be reduced.
- `wrap_wrap_add`, `wrap_add_wrap`, `wrap_wrap_mul`: in a sum of products only the last reduction counts.
- `uwrap`: the same for the unsigned types.
- `checked`: the signed operations for code in which a result that does not fit is an error.
-/
import Mathlib.Tactic

namespace CInt

/-! ## Two's complement -/

/-- the values of a signed type of w bits -/
def Fits (w : ℕ) (x : ℤ) : Prop := -2 ^ (w - 1) ≤ x ∧ x < 2 ^ (w - 1)

instance (w : ℕ) (x : ℤ) : Decidable (Fits w x) := inferInstanceAs (Decidable (_ ∧ _))

/-- the value of w bits that stands for x -/
def wrap (w : ℕ) (x : ℤ) : ℤ := x.bmod (2 ^ w)

section
variable {w : ℕ} {x y : ℤ}

theorem fits_of_le (h0 : 0 ≤ x) (hxy : x ≤ y) (h : Fits w y) : Fits w x := by
  refine ⟨le_trans ?_ h0, lt_of_le_of_lt hxy h.2⟩
  have : (0 : ℤ) < 2 ^ (w - 1) := by positivity
  omega

theorem fits_of_abs (h : |x| < 2 ^ (w - 1)) : Fits w x := by
  obtain ⟨h1, h2⟩ := abs_lt.mp h
  exact ⟨h1.le, h2⟩

/-- a quotient is not larger than the dividend -/
theorem fits_tdiv (h0 : 0 ≤ x) (h : Fits w x) (y : ℤ) : Fits w (x.tdiv y) := by
  have habs : (x.tdiv y).natAbs ≤ x.natAbs := Int.natAbs_tdiv_le_natAbs x y
  obtain ⟨-, h2⟩ := h
  exact ⟨by omega, by omega⟩

/-- the multiple of y that the division of x leaves behind -/
theorem tdiv_mul_bounds (h0 : 0 ≤ x) (y : ℤ) : 0 ≤ x.tdiv y * y ∧ x.tdiv y * y ≤ x := by
  have heq := Int.tdiv_mul_add_tmod x y
  have hnonneg := Int.tmod_nonneg y h0
  have hle : (x.tmod y).natAbs ≤ x.natAbs := by
    rw [Int.natAbs_tmod]
    exact Nat.mod_le _ _
  omega

theorem two_pow_succ_pred (hw : 1 ≤ w) : (2 : ℤ) ^ w = 2 * 2 ^ (w - 1) := by
  obtain ⟨v, rfl⟩ : ∃ v, w = v + 1 := ⟨w - 1, by omega⟩
  rw [Nat.add_sub_cancel, pow_succ]
  ring

/-- the reduction written with a remainder -/
theorem wrap_eq (hw : 1 ≤ w) (x : ℤ) : wrap w x = (x + 2 ^ (w - 1)) % 2 ^ w - 2 ^ (w - 1) := by
  have hpow := two_pow_succ_pred hw
  have hpos : (0 : ℤ) < 2 ^ (w - 1) := by positivity
  have hcast : ((2 ^ w : ℕ) : ℤ) = 2 ^ w := by push_cast; rfl
  unfold wrap
  rw [Int.bmod_eq_iff (by positivity), hcast]
  have h1 := Int.emod_nonneg (x + 2 ^ (w - 1)) (b := 2 ^ w) (by omega)
  have h2 := Int.emod_lt_of_pos (x + 2 ^ (w - 1)) (b := 2 ^ w) (by omega)
  have h3 := Int.mul_ediv_add_emod (x + 2 ^ (w - 1)) (2 ^ w)
  refine ⟨by omega, by omega, (x + 2 ^ (w - 1)) / 2 ^ w * -1, ?_⟩
  rw [mul_neg_one, mul_neg]
  omega

theorem fits_wrap (hw : 1 ≤ w) (x : ℤ) : Fits w (wrap w x) := by
  have hpow := two_pow_succ_pred hw
  have hpos : (0 : ℤ) < 2 ^ (w - 1) := by positivity
  have h1 := Int.emod_nonneg (x + 2 ^ (w - 1)) (b := 2 ^ w) (by omega)
  have h2 := Int.emod_lt_of_pos (x + 2 ^ (w - 1)) (b := 2 ^ w) (by omega)
  rw [wrap_eq hw]
  exact ⟨by omega, by omega⟩

theorem wrap_of_fits (hw : 1 ≤ w) (h : Fits w x) : wrap w x = x := by
  obtain ⟨h1, h2⟩ := h
  have hpow := two_pow_succ_pred hw
  rw [wrap_eq hw, Int.emod_eq_of_lt (by omega) (by omega)]
  omega

/-- the reduction takes away a multiple of 2^w -/
theorem exists_wrap (w : ℕ) (x : ℤ) : ∃ m, wrap w x = x - m * 2 ^ w := by
  obtain ⟨m, hm⟩ : ((2 ^ w : ℕ) : ℤ) ∣ x - wrap w x := Int.dvd_self_sub_bmod
  push_cast at hm
  exact ⟨m, by rw [mul_comm, ← hm]; omega⟩

/-- and the value is the only one of the type with that property -/
theorem wrap_eq_of_fits (hw : 1 ≤ w) {m : ℤ} (h : Fits w (x - m * 2 ^ w)) : wrap w x = x - m * 2 ^ w := by
  have hcast : ((2 ^ w : ℕ) : ℤ) = 2 ^ w := by push_cast; rfl
  rw [← wrap_of_fits hw h, wrap, wrap, ← hcast, Int.sub_mul_bmod_self_right]

theorem wrap_le (hw : 1 ≤ w) (h : 0 ≤ x) : wrap w x ≤ x := by
  have hpos : (0 : ℤ) < 2 ^ (w - 1) := by positivity
  by_cases hx : x < 2 ^ (w - 1)
  · exact (wrap_of_fits hw ⟨by omega, hx⟩).le
  · have := (fits_wrap hw x).2
    omega

@[simp] theorem wrap_wrap_add : wrap w (wrap w x + y) = wrap w (x + y) := Int.bmod_add_bmod

@[simp] theorem wrap_add_wrap : wrap w (x + wrap w y) = wrap w (x + y) := Int.add_bmod_bmod

@[simp] theorem wrap_wrap_mul : wrap w (wrap w x * y) = wrap w (x * y) := Int.bmod_mul_bmod

end

/-! ## Unsigned arithmetic -/

/-- the value of an unsigned type of w bits that stands for x -/
def uwrap (w : ℕ) (x : ℤ) : ℤ := x % 2 ^ w

section
variable {w : ℕ} {x y : ℤ}

theorem uwrap_nonneg (w : ℕ) (x : ℤ) : 0 ≤ uwrap w x := Int.emod_nonneg _ (by positivity)

theorem uwrap_lt (w : ℕ) (x : ℤ) : uwrap w x < 2 ^ w := Int.emod_lt_of_pos _ (by positivity)

theorem uwrap_of_lt (h0 : 0 ≤ x) (h : x < 2 ^ w) : uwrap w x = x := Int.emod_eq_of_lt h0 h

/-- the value is the only one of the type with the same remainder -/
theorem uwrap_eq_of_lt {m : ℤ} (h0 : 0 ≤ x - m * 2 ^ w) (h : x - m * 2 ^ w < 2 ^ w) : uwrap w x = x - m * 2 ^ w := by
  rw [← uwrap_of_lt h0 h, uwrap, uwrap, Int.sub_mul_emod_self_right]

@[simp] theorem uwrap_uwrap_add : uwrap w (uwrap w x + y) = uwrap w (x + y) := (Int.mod_modEq x _).add_right y

@[simp] theorem uwrap_add_uwrap : uwrap w (x + uwrap w y) = uwrap w (x + y) := (Int.mod_modEq y _).add_left x

@[simp] theorem uwrap_uwrap_mul : uwrap w (uwrap w x * y) = uwrap w (x * y) := (Int.mod_modEq x _).mul_right y

@[simp] theorem uwrap_mul_uwrap : uwrap w (x * uwrap w y) = uwrap w (x * y) := (Int.mod_modEq y _).mul_left x

end

/-! ## Checked arithmetic -/

/-- what stops a program that must not compute anything undefined -/
inductive Fault where
  | divZero
  | overflow
deriving DecidableEq, Repr

/-- a result that must fit into w bits -/
def checked (w : ℕ) (x : ℤ) : Except Fault ℤ := if Fits w x then .ok x else .error .overflow

/-- the division of C, which rounds towards 0 -/
def cdiv (w : ℕ) (a b : ℤ) : Except Fault ℤ := if b = 0 then .error .divZero else checked w (a.tdiv b)

/-- a computation in two parts has a result if both have -/
theorem bind_eq_ok {ε α β : Type} {m : Except ε α} {f : α → Except ε β} {y : β} :
    (m >>= f) = .ok y ↔ ∃ x, m = .ok x ∧ f x = .ok y := by
  cases m with
  | error e => simp [bind, Except.bind]
  | ok x => simp [bind, Except.bind]

section
variable {w : ℕ} {a b x : ℤ}

theorem checked_of_fits (h : Fits w x) : checked w x = .ok x := if_pos h

theorem checked_eq_ok {y : ℤ} : checked w x = .ok y ↔ Fits w x ∧ x = y := by
  unfold checked
  split_ifs with h <;> simp [h]

theorem cdiv_of_ne (hb : b ≠ 0) (h : Fits w (a.tdiv b)) : cdiv w a b = .ok (a.tdiv b) := by
  rw [cdiv, if_neg hb, checked_of_fits h]

theorem cdiv_eq_ok {y : ℤ} : cdiv w a b = .ok y ↔ b ≠ 0 ∧ Fits w (a.tdiv b) ∧ a.tdiv b = y := by
  unfold cdiv
  split_ifs with h
  · simp [h]
  · rw [checked_eq_ok]
    exact (and_iff_right h).symm

end

end CInt
