/-
Byte-addressed memory with little-endian numbers and pointers.

Memory is a function from addresses to bytes. A number or a pointer overlays the bytes from its address on, so a store
changes what overlaps it, and it changes nothing else.
- `load_store`: what has been stored is read back.
- `loadPtr_storePtr`, `loadPtr_storePtr_of_apart`: the same for a pointer, and for a pointer elsewhere.
- `loadPtr_of_agree`: a pointer depends on its own eight bytes only.
-/
import Mathlib.Tactic
import Mathlib.Algebra.BigOperators.Fin

namespace ByteMem

/-- memory, by address -/
abbrev Mem := ℕ → BitVec 8

/-- the two memories agree on the n bytes from a on -/
def Agree (m m' : Mem) (a n : ℕ) : Prop := ∀ x, a ≤ x → x < a + n → m x = m' x

/-- the ranges of n bytes at a and of k bytes at b do not meet -/
def Apart (a n b k : ℕ) : Prop := a + n ≤ b ∨ b + k ≤ a

instance (a n b k : ℕ) : Decidable (Apart a n b k) := inferInstanceAs (Decidable (_ ∨ _))

theorem Apart.symm {a n b k : ℕ} (h : Apart a n b k) : Apart b k a n := Or.symm h

instance (n : ℕ) : Std.Symm fun a b => Apart a n b n := ⟨fun _ _ => Apart.symm⟩

/-- parts of ranges that do not meet -/
theorem Apart.mono {a n b k a' n' b' k' : ℕ} (h : Apart a n b k) (ha : a ≤ a' ∧ a' + n' ≤ a + n)
    (hb : b ≤ b' ∧ b' + k' ≤ b + k) : Apart a' n' b' k' := by
  rcases h with h | h
  · exact .inl ((ha.2.trans h).trans hb.1)
  · exact .inr ((hb.2.trans h).trans ha.1)

theorem agree_of_apart {m m' : Mem} {a n b k : ℕ} (hm : ∀ x, x < b ∨ b + k ≤ x → m x = m' x) (h : Apart a n b k) :
    Agree m m' a n := by
  intro x ha hn
  rcases h with h | h
  · exact hm x (.inl (hn.trans_le h))
  · exact hm x (.inr (h.trans ha))

/-- the number in the n bytes at a -/
def load (n : ℕ) (m : Mem) (a : ℕ) : ℕ := ∑ i ∈ Finset.range n, (m (a + i)).toNat * 256 ^ i

/-- v in the n bytes at a -/
def store (n : ℕ) (m : Mem) (a v : ℕ) : Mem := fun x =>
  if a ≤ x ∧ x < a + n then BitVec.ofNat 8 (v / 256 ^ (x - a)) else m x

theorem load_of_agree {n : ℕ} {m m' : Mem} {a : ℕ} (h : Agree m m' a n) : load n m a = load n m' a := by
  refine Finset.sum_congr rfl fun i hi => ?_
  rw [h (a + i) (Nat.le_add_right a i) (Nat.add_lt_add_left (Finset.mem_range.mp hi) a)]

theorem store_of_outside {n : ℕ} (m : Mem) {a v x : ℕ} (h : x < a ∨ a + n ≤ x) : store n m a v x = m x :=
  if_neg fun hx => by omega

/-- the bytes of a number are its digits -/
theorem sum_digits (n v : ℕ) : ∑ i ∈ Finset.range n, v / 256 ^ i % 256 * 256 ^ i = v % 256 ^ n := by
  induction n with
  | zero => simp [Nat.mod_one]
  | succ n ih => rw [Finset.sum_range_succ, ih, Nat.mod_pow_succ, Nat.mul_comm]

theorem load_store (n : ℕ) (m : Mem) (a v : ℕ) : load n (store n m a v) a = v % 256 ^ n := by
  rw [← sum_digits]
  refine Finset.sum_congr rfl fun i hi => ?_
  have hin : a ≤ a + i ∧ a + i < a + n := ⟨Nat.le_add_right a i, Nat.add_lt_add_left (Finset.mem_range.mp hi) a⟩
  rw [store, if_pos hin, Nat.add_sub_cancel_left, BitVec.toNat_ofNat]

/-- the pointer at a; the null pointer is 0 -/
def loadPtr (m : Mem) (a : ℕ) : Option ℕ := if load 8 m a = 0 then none else some (load 8 m a)

/-- a pointer stored at a -/
def storePtr (m : Mem) (a : ℕ) (p : Option ℕ) : Mem := store 8 m a (p.getD 0)

/-- the null pointer, or an address of the 64-bit space other than 0 -/
def IsPtr (p : Option ℕ) : Prop := ∀ v ∈ p, 0 < v ∧ v < 2 ^ 64

theorem isPtr_some {v : ℕ} : IsPtr (some v) ↔ 0 < v ∧ v < 2 ^ 64 :=
  ⟨fun h => h v rfl, fun h _ hw => Option.some.inj hw ▸ h⟩

theorem loadPtr_storePtr (m : Mem) (a : ℕ) {p : Option ℕ} (hp : IsPtr p) : loadPtr (storePtr m a p) a = p := by
  rw [loadPtr, storePtr, load_store]
  cases p with
  | none => rfl
  | some v =>
    obtain ⟨hpos, hlt⟩ := hp v rfl
    have hmod : v % 256 ^ 8 = v := Nat.mod_eq_of_lt (by simpa using hlt)
    rw [Option.getD_some, hmod, if_neg hpos.ne']

theorem loadPtr_of_agree {m m' : Mem} {a : ℕ} (h : Agree m m' a 8) : loadPtr m a = loadPtr m' a := by
  rw [loadPtr, loadPtr, load_of_agree h]

theorem storePtr_of_outside (m : Mem) {a x : ℕ} (p : Option ℕ) (h : x < a ∨ a + 8 ≤ x) : storePtr m a p x = m x :=
  store_of_outside m h

theorem loadPtr_storePtr_of_apart (m : Mem) {a b : ℕ} (p : Option ℕ) (h : Apart a 8 b 8) :
    loadPtr (storePtr m b p) a = loadPtr m a :=
  loadPtr_of_agree (agree_of_apart (fun _ hx => storePtr_of_outside m p hx) h)

end ByteMem
