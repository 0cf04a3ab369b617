/-
C strings: characters up to a NUL, in memory that is a function from addresses to characters.

- `CStr`: the characters of a string, none of which is the NUL.
- `Reads`: from an address on the memory has the characters of a list and then a NUL.
- `Holds`: the same without the NUL, so that a text can be put together from its parts.
- `strcpy`: the copy of a string, with its NUL.
-/
import Mathlib.Tactic
import Mathlib.Data.List.GetD

namespace CString

/-- a `char` -/
abbrev Ch := BitVec 8

/-- the characters before the NUL; the length is a `size_t` -/
structure CStr where
  chars : List Ch
  nonzero : ∀ c ∈ chars, c ≠ 0
  fits : chars.length < 2 ^ 64

/-- what is read at an offset within the string or at its NUL -/
def CStr.get (s : CStr) (i : ℕ) : Ch := s.chars.getD i 0

theorem CStr.get_eq {s : CStr} {i : ℕ} (hi : i < s.chars.length) : s.get i = s.chars[i] := List.getD_eq_getElem _ _ hi

/-- the loop condition `*p != '\0'` -/
theorem CStr.get_ne_zero_iff {s : CStr} {i : ℕ} : s.get i ≠ 0 ↔ i < s.chars.length := by
  constructor
  · intro h
    by_contra hge
    exact h (List.getD_eq_default _ _ (not_lt.mp hge))
  · intro hi
    rw [CStr.get_eq hi]
    exact s.nonzero _ (List.getElem_mem hi)

/-- from an address on there are the characters of l -/
def Holds (mem : ℕ → Ch) (p : ℕ) (l : List Ch) : Prop := ∀ i, (hi : i < l.length) → mem (p + i) = l[i]

/-- and then a NUL -/
def Reads (mem : ℕ → Ch) (p : ℕ) (l : List Ch) : Prop := Holds mem p l ∧ mem (p + l.length) = 0

/-- `strcpy`: the characters and the NUL -/
def strcpy (mem : ℕ → Ch) (dst : ℕ) (src : CStr) : ℕ → Ch := fun x =>
  if dst ≤ x ∧ x ≤ dst + src.chars.length then src.get (x - dst) else mem x

variable {mem : ℕ → Ch} {p : ℕ} {l r : List Ch}

theorem Holds.left (h : Holds mem p (l ++ r)) : Holds mem p l := fun i hi =>
  (h i (by rw [List.length_append]; omega)).trans (List.getElem_append_left hi)

theorem Holds.congr {mem' : ℕ → Ch} (h : Holds mem p l) (heq : ∀ x < p + l.length, mem' x = mem x) : Holds mem' p l :=
  fun i hi => (heq (p + i) (Nat.add_lt_add_left hi p)).trans (h i hi)

theorem Holds.append (h : Holds mem p l) (hr : Holds mem (p + l.length) r) : Holds mem p (l ++ r) := by
  intro i hi
  rw [List.getElem_append]
  split_ifs with hil
  · exact h i hil
  · rw [← hr (i - l.length) (by rw [List.length_append] at hi; omega)]
    exact congrArg mem (by omega)

/-- a character at the end -/
theorem Holds.put (h : Holds mem p l) (c : Ch) : Holds (Function.update mem (p + l.length) c) p (l ++ [c]) := by
  apply Holds.append
  · exact h.congr fun x hx => Function.update_of_ne hx.ne c mem
  · intro i hi
    obtain rfl : i = 0 := by simpa using hi
    exact Function.update_self ..

theorem Holds.nul (h : Holds mem p l) : Reads (Function.update mem (p + l.length) 0) p l :=
  ⟨h.congr fun _ hx => Function.update_of_ne hx.ne 0 mem, Function.update_self ..⟩

/-- a string at the end -/
theorem Holds.strcpy (h : Holds mem p l) (src : CStr) : Holds (strcpy mem (p + l.length) src) p (l ++ src.chars) := by
  apply Holds.append
  · exact h.congr fun x hx => if_neg fun hin => absurd hin.1 (not_le.mpr hx)
  · intro i hi
    rw [CString.strcpy, if_pos ⟨Nat.le_add_right _ i, by omega⟩, Nat.add_sub_cancel_left, CStr.get_eq hi]

end CString
