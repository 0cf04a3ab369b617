/-
The text form of values in the key-value store of PMI (`shmem_runtime_util_encode` and `shmem_runtime_util_decode` in
`src/runtime_util.c`): two hex digits for each byte, the low half first.

The lengths of the encoder are `int`s. The decoder computes with `char`s, which are signed, and stores the high half with
an `|=` on `int`s.

- `decodeByte_encode`, `encode_decodeByte`: a byte and its two digits.
- `encode_eq_some`: what the encoder writes, and where.
- `decode_eq_some`: what the decoder writes.
- `codec`: the round trips, and when the two fail.
-/
import SandiaShmem.Core.CInt
import SandiaShmem.Core.CString

namespace SandiaShmem.Runtime.HexCodec

open CInt CString

/-! ## Model -/

/-- the digits '0' to '9' and 'a' to 'f' -/
def encodings : List Ch := [48, 49, 50, 51, 52, 53, 54, 55, 56, 57, 97, 98, 99, 100, 101, 102]

/-- `encodings[b & 0xf]` -/
def lowDigit (b : BitVec 8) : Ch := encodings.getD (b &&& 0xf).toNat 0

/-- `encodings[b >> 4]` -/
def highDigit (b : BitVec 8) : Ch := encodings.getD (b >>> 4).toNat 0

/-- `shmem_runtime_util_encode`: outval after it, or `none` when it returns 1 -/
def encode (inval : List (BitVec 8)) (outval : ℕ → Ch) (outvallen : ℤ) : Option (ℕ → Ch) :=
  if wrap 32 (wrap 32 (inval.length * 2) + 1) > outvallen then none
  else
    let outval := (List.range inval.length).foldl (fun outval i =>
      let outval := Function.update outval (2 * i) (lowDigit (inval.getD i 0))
      Function.update outval (2 * i + 1) (highDigit (inval.getD i 0))) outval
    some (Function.update outval (inval.length * 2) 0)

/-- `c - '0'` or `c - 'a' + 10`, an `int` -/
def digit (c : Ch) : BitVec 32 :=
  if 48 ≤ c.toInt ∧ c.toInt ≤ 57 then c.signExtend 32 - 48 else c.signExtend 32 - 97 + 10

/-- the first assignment to `ret[i]` -/
def storeLow (c : Ch) : BitVec 8 := (digit c).setWidth 8

/-- and the `|=` -/
def orHigh (ret : BitVec 8) (c : Ch) : BitVec 8 := (ret.signExtend 32 ||| digit c <<< 4).setWidth 8

/-- `shmem_runtime_util_decode`: outval after it, or `none` when it returns 1 -/
def decode (inval : CStr) (outval : ℕ → BitVec 8) (outvallen : ℕ) : Option (ℕ → BitVec 8) :=
  if outvallen ≠ inval.chars.length / 2 then none
  else
    some ((List.range outvallen).foldl (fun ret i =>
      let ret := Function.update ret i (storeLow (inval.get (2 * i)))
      Function.update ret i (orHigh (ret i) (inval.get (2 * i + 1)))) outval)

/-! ## One byte -/

/-- what the decoder makes of two digits -/
def decodeByte (low high : Ch) : BitVec 8 := orHigh (storeLow low) high

theorem decodeByte_encode : ∀ b : BitVec 8, decodeByte (lowDigit b) (highDigit b) = b := by decide +kernel

theorem digits_mem : ∀ b : BitVec 8, lowDigit b ∈ encodings ∧ highDigit b ∈ encodings := by decide +kernel

/-- two digits are those of the byte that the decoder makes of them -/
theorem encode_decodeByte : ∀ low ∈ encodings, ∀ high ∈ encodings,
    lowDigit (decodeByte low high) = low ∧ highDigit (decodeByte low high) = high := by decide +kernel

theorem encodings_ne_zero : ∀ c ∈ encodings, c ≠ 0 := by decide

/-! ## The encoder -/

/-- the character at an index of the text -/
def digitAt (s : List (BitVec 8)) (j : ℕ) : Ch :=
  if j % 2 = 0 then lowDigit (s.getD (j / 2) 0) else highDigit (s.getD (j / 2) 0)

/-- the text of a byte string -/
def digits (s : List (BitVec 8)) : List Ch := (List.range (2 * s.length)).map (digitAt s)

@[simp] theorem length_digits (s : List (BitVec 8)) : (digits s).length = 2 * s.length := by simp [digits]

theorem digits_hex (s : List (BitVec 8)) : ∀ c ∈ digits s, c ∈ encodings := by
  intro c hc
  obtain ⟨j, -, rfl⟩ := List.mem_map.mp hc
  unfold digitAt
  split_ifs
  · exact (digits_mem _).1
  · exact (digits_mem _).2

/-- the first n rounds of the loop write the first 2 * n characters -/
theorem encodeLoop_apply (s : List (BitVec 8)) (outval : ℕ → Ch) (n j : ℕ) :
    (List.range n).foldl (fun outval i =>
      Function.update (Function.update outval (2 * i) (lowDigit (s.getD i 0))) (2 * i + 1) (highDigit (s.getD i 0)))
      outval j = if j < 2 * n then digitAt s j else outval j := by
  induction n with
  | zero => simp
  | succ n ih =>
    rw [List.range_succ, List.foldl_append, List.foldl_cons, List.foldl_nil]
    by_cases hodd : j = 2 * n + 1
    · have hmod : j % 2 ≠ 0 := by omega
      have hdiv : j / 2 = n := by omega
      rw [if_pos (by omega), digitAt, if_neg hmod, hdiv, hodd, Function.update_self]
    · rw [Function.update_of_ne hodd]
      by_cases heven : j = 2 * n
      · have hmod : j % 2 = 0 := by omega
        have hdiv : j / 2 = n := by omega
        rw [if_pos (by omega), digitAt, if_pos hmod, hdiv, heven, Function.update_self]
      · rw [Function.update_of_ne heven, ih]
        congr 1
        rw [eq_iff_iff]
        omega

/-- the lengths are compared as they are, if the text fits into an `int` -/
theorem encode_eq (s : List (BitVec 8)) (hs : 2 * s.length + 1 < 2 ^ 31) (outval : ℕ → Ch) (n : ℤ) :
    encode s outval n =
      if (2 * s.length + 1 : ℤ) ≤ n then
        some fun j => if j < 2 * s.length then digitAt s j else if j = 2 * s.length then 0 else outval j
      else none := by
  have hwrap : wrap 32 (wrap 32 (s.length * 2) + 1) = 2 * s.length + 1 := by
    rw [wrap_wrap_add, wrap_of_fits (by omega) ⟨by omega, by omega⟩, mul_comm]
  unfold encode
  rw [hwrap]
  by_cases hn : (2 * s.length + 1 : ℤ) ≤ n
  · rw [if_neg (by omega), if_pos hn]
    refine congrArg some (funext fun j => ?_)
    by_cases hj : j = s.length * 2
    · rw [hj, Function.update_self, if_neg (by omega), if_pos (by omega)]
    · rw [Function.update_of_ne hj, encodeLoop_apply]
      by_cases hlt : j < 2 * s.length
      · rw [if_pos hlt, if_pos hlt]
      · rw [if_neg hlt, if_neg hlt, if_neg (by omega)]
  · rw [if_pos (by omega), if_neg hn]

/-- the digits, a NUL, and nothing else -/
theorem encode_eq_some {s : List (BitVec 8)} (hs : 2 * s.length + 1 < 2 ^ 31) {outval out : ℕ → Ch} {n : ℤ}
    (h : encode s outval n = some out) : Reads out 0 (digits s) ∧ ∀ j, 2 * s.length < j → out j = outval j := by
  rw [encode_eq s hs] at h
  split_ifs at h with hn
  obtain rfl := Option.some.inj h
  refine ⟨⟨fun i hi => ?_, ?_⟩, fun j hj => ?_⟩
  · rw [length_digits] at hi
    simp [digits, hi]
  · simp
  · beta_reduce
    rw [if_neg (by omega), if_neg (by omega)]

/-! ## The decoder -/

/-- the first n rounds of the loop write the first n bytes -/
theorem decodeLoop_apply (t : CStr) (outval : ℕ → BitVec 8) (n j : ℕ) :
    (List.range n).foldl (fun ret i =>
      Function.update (Function.update ret i (storeLow (t.get (2 * i)))) i
        (orHigh (Function.update ret i (storeLow (t.get (2 * i))) i) (t.get (2 * i + 1)))) outval j =
      if j < n then decodeByte (t.get (2 * j)) (t.get (2 * j + 1)) else outval j := by
  induction n with
  | zero => simp
  | succ n ih =>
    rw [List.range_succ, List.foldl_append, List.foldl_cons, List.foldl_nil, Function.update_idem, Function.update_self]
    by_cases hj : j = n
    · rw [hj, Function.update_self, if_pos (by omega), decodeByte]
    · rw [Function.update_of_ne hj, ih]
      congr 1
      rw [eq_iff_iff]
      omega

theorem decode_eq_some {t : CStr} {outval out : ℕ → BitVec 8} {n : ℕ} (h : decode t outval n = some out) :
    ∀ j, out j = if j < n then decodeByte (t.get (2 * j)) (t.get (2 * j + 1)) else outval j := by
  unfold decode at h
  split_ifs at h
  obtain rfl := Option.some.inj h
  exact decodeLoop_apply t outval n

/-- only the length decides -/
theorem decode_eq_none_iff (t : CStr) (outval : ℕ → BitVec 8) (n : ℕ) :
    decode t outval n = none ↔ n ≠ t.chars.length / 2 := by
  unfold decode
  split_ifs with h
  · exact iff_of_true rfl h
  · exact iff_of_false (by simp) h

/-! ## Round trips -/

/-- the bytes from the start of a buffer -/
def bytesOf (mem : ℕ → BitVec 8) (n : ℕ) : List (BitVec 8) := (List.range n).map mem

theorem decode_digits {s : List (BitVec 8)} {t : CStr} (ht : t.chars = digits s) (outval : ℕ → BitVec 8) :
    ∃ out, decode t outval s.length = some out ∧ bytesOf out s.length = s := by
  have hlen : s.length = t.chars.length / 2 := by
    rw [ht, length_digits]
    omega
  cases hdec : decode t outval s.length with
  | none => exact absurd hlen ((decode_eq_none_iff t outval s.length).mp hdec)
  | some out =>
    refine ⟨out, rfl, List.ext_getElem (by simp [bytesOf]) fun i hi hi' => ?_⟩
    have hlow : t.get (2 * i) = lowDigit s[i] := by
      rw [CStr.get_eq (by rw [ht, length_digits]; omega)]
      simp [ht, digits, digitAt, hi']
    have hhigh : t.get (2 * i + 1) = highDigit s[i] := by
      rw [CStr.get_eq (by rw [ht, length_digits]; omega)]
      have hdiv : (2 * i + 1) / 2 = i := by omega
      simp [ht, digits, digitAt, hdiv, hi']
    simp only [bytesOf, List.getElem_map, List.getElem_range]
    rw [decode_eq_some hdec, if_pos hi', hlow, hhigh, decodeByte_encode]

theorem digits_decode {t : CStr} (hhex : ∀ c ∈ t.chars, c ∈ encodings) (heven : t.chars.length % 2 = 0)
    {outval out : ℕ → BitVec 8} (hdec : decode t outval (t.chars.length / 2) = some out) :
    digits (bytesOf out (t.chars.length / 2)) = t.chars := by
  refine List.ext_getElem (by simp [bytesOf]; omega) fun j hj hj' => ?_
  have hmem : ∀ i, i < t.chars.length → t.get i ∈ encodings := fun i hi => by
    rw [CStr.get_eq hi]
    exact hhex _ (List.getElem_mem hi)
  have hbyte : (bytesOf out (t.chars.length / 2)).getD (j / 2) 0 =
      decodeByte (t.get (2 * (j / 2))) (t.get (2 * (j / 2) + 1)) := by
    have hlt : j / 2 < t.chars.length / 2 := by omega
    rw [bytesOf, List.getD_eq_getElem _ _ (by simpa using hlt), List.getElem_map, List.getElem_range,
      decode_eq_some hdec, if_pos hlt]
  obtain ⟨hlow, hhigh⟩ := encode_decodeByte _ (hmem (2 * (j / 2)) (by omega)) _ (hmem (2 * (j / 2) + 1) (by omega))
  simp only [digits, List.getElem_map, List.getElem_range, digitAt, hbyte]
  split_ifs with hmod
  · rw [hlow, ← CStr.get_eq hj', show 2 * (j / 2) = j by omega]
  · rw [hhigh, ← CStr.get_eq hj', show 2 * (j / 2) + 1 = j by omega]

/-- the encoder makes a string of hex digits if there is room for it, and the decoder restores the bytes from that -/
structure BytesRestored (s : List (BitVec 8)) (outval : ℕ → Ch) (n : ℤ) : Prop where
  succeeds : (∃ out, encode s outval n = some out) ↔ 2 * s.length + 1 ≤ n
  written : ∀ out, encode s outval n = some out → ∃ t : CStr,
    t.chars.length = 2 * s.length ∧ (∀ c ∈ t.chars, c ∈ encodings) ∧ Reads out 0 t.chars ∧
    (∀ j, 2 * s.length < j → out j = outval j) ∧
    ∀ buf, ∃ bytes, decode t buf s.length = some bytes ∧ bytesOf bytes s.length = s

/-- the decoder makes bytes of a string of hex digits, and the encoder restores the string from them -/
def StringRestored (t : CStr) : Prop :=
  ∀ (buf : ℕ → BitVec 8) (outval : ℕ → Ch) (n : ℤ), t.chars.length + 1 ≤ n → ∃ bytes out,
    decode t buf (t.chars.length / 2) = some bytes ∧
    encode (bytesOf bytes (t.chars.length / 2)) outval n = some out ∧ Reads out 0 t.chars

theorem bytesRestored {s : List (BitVec 8)} (hs : 2 * s.length + 1 < 2 ^ 31) (outval : ℕ → Ch) (n : ℤ) :
    BytesRestored s outval n where
  succeeds := by
    rw [encode_eq s hs]
    split_ifs with hn
    · exact iff_of_true ⟨_, rfl⟩ hn
    · exact iff_of_false (by simp) hn
  written out hout := by
    obtain ⟨hreads, hrest⟩ := encode_eq_some hs hout
    let t : CStr := ⟨digits s, fun c hc => encodings_ne_zero c (digits_hex s c hc), by rw [length_digits]; omega⟩
    exact ⟨t, length_digits s, digits_hex s, hreads, hrest, decode_digits rfl⟩

theorem stringRestored {t : CStr} (hhex : ∀ c ∈ t.chars, c ∈ encodings) (heven : t.chars.length % 2 = 0)
    (ht : t.chars.length + 1 < 2 ^ 31) : StringRestored t := by
  intro buf outval n hn
  cases hdec : decode t buf (t.chars.length / 2) with
  | none => exact absurd rfl ((decode_eq_none_iff t buf _).mp hdec)
  | some bytes =>
    have hlen : (bytesOf bytes (t.chars.length / 2)).length = t.chars.length / 2 := by simp [bytesOf]
    have hfits : 2 * (bytesOf bytes (t.chars.length / 2)).length + 1 < 2 ^ 31 := by omega
    obtain ⟨out, hout⟩ := (bytesRestored hfits outval n).succeeds.mpr (by omega)
    obtain ⟨hreads, -⟩ := encode_eq_some hfits hout
    rw [digits_decode hhex heven hdec] at hreads
    exact ⟨bytes, out, rfl, hout, hreads⟩

/-- **The codec.** -/
theorem codec :
    (∀ (s : List (BitVec 8)) (outval : ℕ → Ch) (n : ℤ), 2 * s.length + 1 < 2 ^ 31 → BytesRestored s outval n) ∧
      (∀ t : CStr, (∀ c ∈ t.chars, c ∈ encodings) → t.chars.length % 2 = 0 → t.chars.length + 1 < 2 ^ 31 →
        StringRestored t) ∧
      ∀ (t : CStr) (buf : ℕ → BitVec 8) (m : ℕ), decode t buf m = none ↔ m ≠ t.chars.length / 2 :=
  ⟨fun _ outval n hs => bytesRestored hs outval n, fun _ hhex heven ht => stringRestored hhex heven ht, decode_eq_none_iff⟩

/-- the bytes 0x80 and 0xff, and the string "0f" -/
theorem codec_small :
    BytesRestored [0x80, 0xff] (fun _ => 0) 5 ∧ StringRestored ⟨[48, 102], by decide, by decide⟩ :=
  ⟨codec.1 _ _ _ (by decide), codec.2.1 _ (by decide) (by decide) (by decide)⟩

end SandiaShmem.Runtime.HexCodec
