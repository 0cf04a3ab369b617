/-
Words as sets of bit numbers: one bit set or cleared, the lowest bit that is set, and all bits above it.

- `getLsbD_setBit`, `getLsbD_clearBit`: setting and clearing a bit changes no other.
- `ctz_spec`: trailing zeros end at the lowest bit that is set.
- `getLsbD_leastBit`: `x & -x` is the lowest bit of x.
- `scan_spec`: the search for the lowest bit of x as the zeros of `x & -x`.
- `getLsbD_leftBits_single`: `(b << 1) | -(b << 1)` are the bits above the single bit b.
-/
import Mathlib.Tactic

namespace BitScan
variable {w : ℕ}

/-- the bit with number i -/
def single (w i : ℕ) : BitVec w := 1#w <<< i

def setBit (x : BitVec w) (i : ℕ) : BitVec w := x ||| single w i

def clearBit (x : BitVec w) (i : ℕ) : BitVec w := x &&& ~~~single w i

/-- the lowest bit that is set -/
def leastBit (x : BitVec w) : BitVec w := x &&& -x

/-- all bits above the lowest one that is set -/
def leftBits (x : BitVec w) : BitVec w := (x <<< 1) ||| -(x <<< 1)

/-- the number of trailing zeros -/
def ctz (x : BitVec w) : ℕ := (List.range w).findIdx x.getLsbD

theorem getLsbD_single (i j : ℕ) : (single w i).getLsbD j = (decide (j = i) && decide (j < w)) := by
  rw [single, ← BitVec.twoPow_eq, BitVec.getLsbD_twoPow, Bool.eq_iff_iff]
  simp only [Bool.and_eq_true, decide_eq_true_eq]
  omega

theorem getLsbD_setBit (x : BitVec w) (i j : ℕ) :
    (setBit x i).getLsbD j = (x.getLsbD j || decide (j = i) && decide (j < w)) := by
  rw [setBit, BitVec.getLsbD_or, getLsbD_single]

theorem getLsbD_clearBit (x : BitVec w) (i j : ℕ) : (clearBit x i).getLsbD j = (x.getLsbD j && decide (j ≠ i)) := by
  rw [clearBit, BitVec.getLsbD_and, BitVec.getLsbD_not, getLsbD_single, Bool.eq_iff_iff]
  simp only [Bool.and_eq_true, decide_eq_true_eq, Bool.not_eq_true', Bool.and_eq_false_iff, decide_eq_false_iff_not]
  constructor
  · rintro ⟨hx, hj, h | h⟩
    · exact ⟨hx, h⟩
    · exact absurd hj h
  · rintro ⟨hx, hne⟩
    exact ⟨hx, BitVec.lt_of_getLsbD hx, .inl hne⟩

/-- the zeros end at the lowest bit -/
theorem ctz_spec {x : BitVec w} {i : ℕ} (h : x.getLsbD i = true) :
    x.getLsbD (ctz x) = true ∧ ctz x ≤ i ∧ ∀ j < ctz x, x.getLsbD j = false := by
  have hi := BitVec.lt_of_getLsbD h
  have hlt : ctz x < (List.range w).length :=
    List.findIdx_lt_length_of_exists ⟨i, List.mem_range.mpr hi, h⟩
  have hget : x.getLsbD (List.range w)[ctz x] = true := List.findIdx_getElem (w := hlt)
  rw [List.getElem_range] at hget
  have hbelow : ∀ j < ctz x, x.getLsbD j = false := by
    intro j hj
    have := List.not_of_lt_findIdx hj
    rwa [List.getElem_range] at this
  refine ⟨hget, ?_, hbelow⟩
  by_contra hlt'
  rw [hbelow i (not_le.mp hlt')] at h
  cases h

theorem getLsbD_leastBit (x : BitVec w) (i : ℕ) :
    (leastBit x).getLsbD i = true ↔ x.getLsbD i = true ∧ ∀ j < i, x.getLsbD j = false := by
  rw [leastBit, BitVec.getLsbD_and, BitVec.getLsbD_neg]
  constructor
  · intro h
    simp only [Bool.and_eq_true] at h
    obtain ⟨hx, h⟩ := h
    refine ⟨hx, fun j hj => ?_⟩
    have hlt := BitVec.lt_of_getLsbD hx
    rw [hx, Bool.true_xor, decide_eq_true hlt, Bool.true_and, Bool.not_eq_true', decide_eq_false_iff_not] at h
    by_contra hj'
    exact h ⟨j, hj, by simpa using hj'⟩
  · rintro ⟨hx, hlow⟩
    have hnone : ¬ ∃ j < i, x.getLsbD j = true := by
      rintro ⟨j, hj, hxj⟩
      rw [hlow j hj] at hxj
      cases hxj
    simp [hx, hnone]

/-- the lowest bit found through `x & -x` -/
theorem scan_spec {x : BitVec w} {i : ℕ} (h : x.getLsbD i = true) :
    x.getLsbD (ctz (leastBit x)) = true ∧ ∀ j < ctz (leastBit x), x.getLsbD j = false := by
  obtain ⟨hc, -, hlow⟩ := ctz_spec h
  have hleast := (getLsbD_leastBit x (ctz x)).mpr ⟨hc, hlow⟩
  exact (getLsbD_leastBit ..).mp (ctz_spec hleast).1

theorem exists_of_ne_zero {x : BitVec w} (h : x ≠ 0#w) : ∃ i < w, x.getLsbD i = true := by
  by_contra hnone
  refine h (BitVec.eq_of_getLsbD_eq fun i hi => ?_)
  rw [BitVec.getLsbD_zero]
  exact Bool.eq_false_iff.mpr fun hx => hnone ⟨i, hi, hx⟩

theorem eq_zero_iff {x : BitVec w} : x = 0#w ↔ ∀ i < w, x.getLsbD i = false := by
  constructor
  · rintro rfl i -
    exact BitVec.getLsbD_zero
  · intro h
    by_contra hne
    obtain ⟨i, hi, hx⟩ := exists_of_ne_zero hne
    rw [h i hi] at hx
    cases hx

theorem getLsbD_leftBits_single {i j : ℕ} :
    (leftBits (single w i)).getLsbD j = true ↔ i < j ∧ j < w := by
  have hshift : single w i <<< 1 = single w (i + 1) := by
    rw [single, single, BitVec.shiftLeft_add]
  rw [leftBits, hshift, BitVec.getLsbD_or, BitVec.getLsbD_neg, getLsbD_single]
  have hex : (∃ k < j, (single w (i + 1)).getLsbD k = true) ↔ i + 1 < j ∧ i + 1 < w := by
    simp only [getLsbD_single, Bool.and_eq_true, decide_eq_true_eq]
    constructor
    · rintro ⟨k, hk, rfl, hw⟩
      exact ⟨hk, hw⟩
    · rintro ⟨hj, hw⟩
      exact ⟨i + 1, hj, rfl, hw⟩
  simp only [hex]
  by_cases hw : j < w
  · rcases lt_trichotomy j (i + 1) with h | rfl | h
    · simp [h.ne, h.not_gt, hw, Nat.lt_succ_iff.mp h]
    · simp [hw]
    · simp [h.ne', h, hw, h.trans hw, Nat.lt_of_succ_lt h]
  · simp [hw]

theorem getLsbD_ushiftRight_shiftLeft (x : BitVec w) (i j : ℕ) :
    ((x >>> i) <<< i).getLsbD j = (x.getLsbD j && decide (i ≤ j)) := by
  rw [BitVec.getLsbD_shiftLeft, BitVec.getLsbD_ushiftRight, Bool.eq_iff_iff]
  simp only [Bool.and_eq_true, Bool.not_eq_true', decide_eq_true_eq, decide_eq_false_iff_not]
  constructor
  · rintro ⟨⟨-, hij⟩, hx⟩
    rw [Nat.add_sub_cancel' (not_lt.mp hij)] at hx
    exact ⟨hx, not_lt.mp hij⟩
  · rintro ⟨hx, hij⟩
    rw [Nat.add_sub_cancel' hij]
    exact ⟨⟨BitVec.lt_of_getLsbD hx, not_lt.mpr hij⟩, hx⟩

/-- if one of the two lowest bits is set, the complement of the lowest one tells which -/
theorem lowTwo_spec {x : BitVec 32} (h : x &&& 3 ≠ 0) :
    x.getLsbD (~~~x &&& 1).toNat = true ∧ (~~~x &&& 1).toNat ≤ 1 := by
  have hlt := x.isLt
  have hlow : (~~~x &&& 1).toNat = 1 - x.toNat % 2 := by
    rw [BitVec.toNat_and, BitVec.toNat_not, show (1 : BitVec 32).toNat = 1 from rfl, Nat.and_one_is_mod]
    omega
  have hmod : x.toNat % 4 ≠ 0 := by
    intro hz
    refine h (BitVec.eq_of_toNat_eq ?_)
    rw [BitVec.toNat_and, show (3 : BitVec 32).toNat = 2 ^ 2 - 1 from rfl, Nat.and_two_pow_sub_one_eq_mod]
    exact hz
  rw [hlow]
  refine ⟨?_, by omega⟩
  rw [← BitVec.testBit_toNat, Nat.testBit_eq_decide_div_mod_eq, decide_eq_true_eq]
  rcases Nat.mod_two_eq_zero_or_one x.toNat with hbit | hbit
  · rw [hbit]
    omega
  · rw [hbit]
    simpa using hbit

end BitScan
