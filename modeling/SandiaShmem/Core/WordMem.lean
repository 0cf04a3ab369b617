/-
A memory of 8-byte words, seen as bytes. The first byte of a word is its lowest.

- `blend`: a word of which the first bytes are replaced.
- `byte_write`, `byte_setByte`: what is in memory after some bytes, or one, have been written.
-/
import Mathlib.Tactic

namespace WordMem

/-- the byte at an address, in the word around it -/
def byte (mem : ℕ → ℕ) (y : ℕ) : ℕ := mem (y / 8 * 8) / 256 ^ (y % 8) % 256

/-- the first n bytes of w, and the others of old -/
def blend (n w old : ℕ) : ℕ := w % 256 ^ n + 256 ^ n * (old / 256 ^ n)

/-- n bytes from dst on become those of src, whose words are given by their offsets -/
def write (mem : ℕ → ℕ) (dst n : ℕ) (src : ℕ → ℕ) : ℕ → ℕ := fun x =>
  if dst ≤ x ∧ x < dst + n ∧ 8 ∣ x - dst then blend (min 8 (dst + n - x)) (src (x - dst)) (mem x) else mem x

/-- a byte is written -/
def setByte (mem : ℕ → ℕ) (y b : ℕ) : ℕ → ℕ :=
  Function.update mem (y / 8 * 8) (blend (y % 8) (mem (y / 8 * 8)) (blend (y % 8 + 1) (256 ^ (y % 8) * b) (mem (y / 8 * 8))))

section
variable {mem mem' src : ℕ → ℕ} {dst n i j w old x y : ℕ}

theorem blend_low (h : j < n) : blend n w old / 256 ^ j % 256 = w / 256 ^ j % 256 := by
  have hpow : 256 ^ n = 256 ^ j * 256 ^ (n - j) := by rw [← pow_add, Nat.add_sub_cancel' h.le]
  have hdvd : 256 ∣ 256 ^ (n - j) := dvd_pow_self 256 (by omega)
  rw [blend, hpow, mul_assoc, Nat.add_mul_div_left _ _ (by positivity), Nat.mod_mul_right_div_self, Nat.add_mod,
    Nat.mod_mod_of_dvd _ hdvd, Nat.mod_eq_zero_of_dvd (hdvd.mul_right _), Nat.add_zero, Nat.mod_mod]

theorem blend_high (h : n ≤ j) : blend n w old / 256 ^ j % 256 = old / 256 ^ j % 256 := by
  have hpow : 256 ^ j = 256 ^ n * 256 ^ (j - n) := by rw [← pow_add, Nat.add_sub_cancel' h]
  have hlow : w % 256 ^ n / 256 ^ n = 0 := Nat.div_eq_of_lt (Nat.mod_lt _ (by positivity))
  rw [blend, hpow, ← Nat.div_div_eq_div_mul, Nat.add_mul_div_left _ _ (by positivity), hlow, Nat.zero_add,
    Nat.div_div_eq_div_mul]

/-- a byte that is written, and one that is not -/
theorem byte_write (hdst : 8 ∣ dst) : byte (write mem dst n src) y =
    if dst ≤ y ∧ y < dst + n then src ((y - dst) / 8 * 8) / 256 ^ ((y - dst) % 8) % 256 else byte mem y := by
  obtain ⟨d, rfl⟩ := hdst
  unfold byte write
  by_cases hin : 8 * d ≤ y ∧ y < 8 * d + n
  · have hoff : y / 8 * 8 - 8 * d = (y - 8 * d) / 8 * 8 := by omega
    have hmod : (y - 8 * d) % 8 = y % 8 := by omega
    rw [if_pos hin, if_pos ⟨by omega, by omega, by omega⟩, blend_low (by omega), hoff, hmod]
  · rw [if_neg hin]
    by_cases hword : 8 * d ≤ y / 8 * 8 ∧ y / 8 * 8 < 8 * d + n ∧ 8 ∣ y / 8 * 8 - 8 * d
    · rw [if_pos hword, blend_high (by omega)]
    · rw [if_neg hword]

theorem byte_setByte {b : ℕ} : byte (setByte mem x b) y = if y = x then b % 256 else byte mem y := by
  unfold byte setByte
  by_cases hword : y / 8 * 8 = x / 8 * 8
  · rw [hword, Function.update_self]
    by_cases hlow : y % 8 < x % 8
    · rw [if_neg (by omega), blend_low hlow]
    · rw [blend_high (not_lt.mp hlow)]
      by_cases hself : y = x
      · rw [if_pos hself, hself, blend_low (Nat.lt_succ_self _), Nat.mul_div_cancel_left _ (by positivity)]
      · rw [if_neg hself, blend_high (by omega)]
  · rw [Function.update_of_ne hword, if_neg (by rintro rfl; exact hword rfl)]

theorem setByte_of_ne {b : ℕ} (h : y ≠ x / 8 * 8) : setByte mem x b y = mem y := Function.update_of_ne h ..

/-- bytes of words that are the same -/
theorem byte_congr (h : mem' (y / 8 * 8) = mem (y / 8 * 8)) : byte mem' y = byte mem y := by
  rw [byte, byte, h]

/-- a copy from another place -/
theorem byte_copy {src₀ : ℕ} (hdst : 8 ∣ dst) (hsrc : 8 ∣ src₀) (hi : i < n) :
    byte (write mem dst n fun o => mem (src₀ + o)) (dst + i) = byte mem (src₀ + i) := by
  have hoff : src₀ + i / 8 * 8 = (src₀ + i) / 8 * 8 := by omega
  have hmod : (src₀ + i) % 8 = i % 8 := by omega
  rw [byte_write hdst, if_pos ⟨by omega, by omega⟩, Nat.add_sub_cancel_left, hoff, byte, hmod]

end

end WordMem
