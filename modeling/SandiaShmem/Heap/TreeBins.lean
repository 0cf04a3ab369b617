/-
The tree bins of the allocator (`src/malloc.c`): the bin for a size, insertion, and the search for the best fit.

A bin is a trie on the bits of the sizes in it. The bits are taken one by one from the top of a word, into which the size
has been shifted. A search goes down by the bits of the request and remembers the deepest second child it did not take; the
smallest chunk of that subtree is next if the request's own path has none. `compute_tree_index` (as compiled by GCC for
x86) computes with the size as an `unsigned int` after the shift, so that it is wrong from 2^40 on.

- `treeIndex_spec`, `treeIndex_wrong`: which sizes are in which bin.
- `items_insertTree`, `ordered_insertTree`: insertion adds one chunk and keeps the order.
- `Best`: what a search has found among the chunks it has seen.
- `descend_covers`, `leftmost_best`: the two loops of `tmalloc_large`.
-/
import SandiaShmem.Core.BitScan
import SandiaShmem.Core.BitTrie
import SandiaShmem.Heap.Chunks

namespace SandiaShmem.Heap

open BitTrie

/-! ## Model -/

def NTREEBINS : ℕ := 32

def TREEBIN_SHIFT : ℕ := 8

def SIZE_T_BITSIZE : ℕ := 64

/-- `compute_tree_index`; X is an `unsigned int` -/
def treeIndex (S : ℕ) : ℕ :=
  let X := (S >>> TREEBIN_SHIFT) % 2 ^ 32
  if X = 0 then 0
  else if X > 0xFFFF then NTREEBINS - 1
  else
    -- 31 - __builtin_clz(X)
    let K := X.log2
    (K <<< 1) + (S >>> (K + (TREEBIN_SHIFT - 1))) % 2

/-- `leftshift_for_tree_index` -/
def leftshift (i : ℕ) : ℕ :=
  if i = NTREEBINS - 1 then 0 else SIZE_T_BITSIZE - 1 - (i / 2 + TREEBIN_SHIFT - 2)

/-- `minsize_for_tree_index` -/
def minsize (i : ℕ) : ℕ := (1 <<< (i / 2 + TREEBIN_SHIFT)) ||| ((i % 2) <<< (i / 2 + TREEBIN_SHIFT - 1))

/-- the loop of `insert_large_chunk`, at the subtree that K leads to -/
def insertTree (size : ℕ → ℕ) (X S : ℕ) : BitVec 64 → Trie ℕ → Trie ℕ
  | _, .nil => .node X [] .nil .nil
  | K, .node T chain child0 child1 =>
    if size T ≠ S then
      if K.msb then .node T chain child0 (insertTree size X S (K <<< 1) child1)
      else .node T chain (insertTree size X S (K <<< 1) child0) child1
    else .node T (X :: chain) child0 child1

/-- a chunk and what would be left of it: v and rsize -/
abbrev Fit := Option ℕ × ℕ

/-- `if (trem < rsize) { rsize = trem; v = t; }` -/
def consider (size : ℕ → ℕ) (nb t : ℕ) (best : Fit) : Fit :=
  let trem := sub (size t) nb
  if trem < best.2 then (some t, trem) else best

/-- the first loop of `tmalloc_large`, at the subtree t: what has been found, and where the second loop starts -/
def descend (size : ℕ → ℕ) (nb : ℕ) : BitVec 64 → Trie ℕ → Fit → Trie ℕ → Fit × Trie ℕ
  | _, .nil, best, rst => (best, rst)
  | sizebits, .node t chain child0 child1, best, rst =>
    if sub (size t) nb < best.2 ∧ sub (size t) nb = 0 then ((some t, 0), .node t chain child0 child1)
    else if sizebits.msb then descend size nb (sizebits <<< 1) child1 (consider size nb t best) rst
    else
      descend size nb (sizebits <<< 1) child0 (consider size nb t best) (if child1.isNil then rst else child1)

/-- the second loop of `tmalloc_large`, and the loop of `tmalloc_small` -/
def leftmost (size : ℕ → ℕ) (nb : ℕ) : Trie ℕ → Fit → Fit
  | .nil, best => best
  | .node t _ child0 child1, best =>
    if child0.isNil then leftmost size nb child1 (consider size nb t best)
    else leftmost size nb child0 (consider size nb t best)

/-! ## Which bin -/

/-- the first size of the interval that the trie of a bin covers -/
def binLo (i : ℕ) : ℕ := if i = NTREEBINS - 1 then 0 else minsize i

/-- the interval has 2^binBits sizes -/
def binBits (i : ℕ) : ℕ := SIZE_T_BITSIZE - leftshift i

theorem binBits_eq {i : ℕ} (hi : i < NTREEBINS - 1) : binBits i = i / 2 + 7 := by
  have h31 : i < 31 := hi
  unfold binBits leftshift SIZE_T_BITSIZE TREEBIN_SHIFT
  rw [if_neg hi.ne]
  omega

theorem binBits_le (i : ℕ) : binBits i ≤ 64 := Nat.sub_le _ _

theorem minsize_eq {K b : ℕ} (hb : b < 2) : minsize (2 * K + b) = 2 ^ (K + 8) + b * 2 ^ (K + 7) := by
  have hdiv : (2 * K + b) / 2 = K := by omega
  have hmod : (2 * K + b) % 2 = b := by omega
  rw [minsize, hdiv, hmod, Nat.one_shiftLeft, TREEBIN_SHIFT, show K + 8 - 1 = K + 7 by omega, Nat.shiftLeft_eq]
  have hlt : b * 2 ^ (K + 7) < 2 ^ (K + 8) := by
    rw [show K + 8 = K + 7 + 1 by omega, pow_succ, Nat.mul_comm]
    exact Nat.mul_lt_mul_of_pos_left hb (by positivity)
  have hor := Nat.two_pow_add_eq_or_of_lt hlt 1
  rw [Nat.mul_one] at hor
  exact hor.symm

theorem minsize_le_minsize : ∀ i < 32, ∀ j < 32, i < j → minsize i + 2 ^ (i / 2 + 7) ≤ minsize j := by decide

theorem minsize_dvd : ∀ i < 32, 2 ^ (i / 2 + 7) ∣ minsize i := by decide

theorem binLo_dvd {i : ℕ} (hi : i < NTREEBINS) : 2 ^ binBits i ∣ binLo i := by
  by_cases h : i = NTREEBINS - 1
  · rw [binLo, if_pos h]
    exact dvd_zero _
  · have hlt : i < NTREEBINS - 1 := by
      unfold NTREEBINS at hi h ⊢
      omega
    rw [binLo, if_neg h, binBits_eq hlt]
    exact minsize_dvd i hi

theorem treeIndex_lt (S : ℕ) : treeIndex S < NTREEBINS := by
  unfold treeIndex NTREEBINS
  simp only
  split_ifs with h0 h1
  · decide
  · decide
  · have hlog : ((S >>> TREEBIN_SHIFT) % 2 ^ 32).log2 < 16 := (Nat.log2_lt h0).mpr (by omega)
    rw [Nat.shiftLeft_eq]
    omega

/-- a chunk below 2^40 is in a bin whose interval it is in; the last bin has everything from its first size on -/
theorem treeIndex_spec {S : ℕ} (hmin : MIN_LARGE_SIZE ≤ S) (hmax : S < 2 ^ 40) :
    minsize (treeIndex S) ≤ S ∧ (treeIndex S ≠ NTREEBINS - 1 → S < minsize (treeIndex S) + 2 ^ (treeIndex S / 2 + 7)) := by
  unfold MIN_LARGE_SIZE at hmin
  have hX : (S >>> TREEBIN_SHIFT) % 2 ^ 32 = S / 256 := by
    rw [TREEBIN_SHIFT, Nat.shiftRight_eq_div_pow]
    omega
  unfold treeIndex
  simp only [hX]
  split_ifs with h0 h1
  · omega
  · refine ⟨?_, fun h => absurd rfl h⟩
    have hm : minsize (NTREEBINS - 1) = 12582912 := by decide
    omega
  · generalize hK : (S / 256).log2 = K
    have hlo : 2 ^ K ≤ S / 256 := hK ▸ Nat.log2_self_le h0
    have hhi : S / 256 < 2 ^ (K + 1) := hK ▸ Nat.lt_log2_self
    generalize hb : S >>> (K + (TREEBIN_SHIFT - 1)) % 2 = b
    have hb2 : b < 2 := hb ▸ Nat.mod_lt _ (by decide)
    rw [TREEBIN_SHIFT, show 8 - 1 = 7 from rfl, Nat.shiftRight_eq_div_pow] at hb
    rw [Nat.shiftLeft_eq, pow_one, Nat.mul_comm K 2, minsize_eq hb2, show (2 * K + b) / 2 = K by omega]
    -- S is between 2^(K+8) and 2^(K+9), and b says in which half
    have h8 : 2 ^ (K + 8) = 2 ^ K * 256 := by rw [pow_add]; norm_num
    have h7 : 2 ^ (K + 7) = 2 ^ K * 128 := by rw [pow_add]; norm_num
    have h1' : 2 ^ (K + 1) = 2 ^ K * 2 := by rw [pow_succ]
    have hpos : 0 < 2 ^ (K + 7) := by positivity
    have hq := Nat.div_add_mod S (2 ^ (K + 7))
    have hr := Nat.mod_lt S hpos
    have hge : 2 ≤ S / 2 ^ (K + 7) := (Nat.le_div_iff_mul_le hpos).mpr (by omega)
    have hlt : S / 2 ^ (K + 7) < 4 := Nat.div_lt_of_lt_mul (by omega)
    rcases (show S / 2 ^ (K + 7) = 2 ∨ S / 2 ^ (K + 7) = 3 by omega) with hd | hd
    · rw [hd] at hb hq
      obtain rfl : b = 0 := by omega
      exact ⟨by omega, fun _ => by omega⟩
    · rw [hd] at hb hq
      obtain rfl : b = 1 := by omega
      exact ⟨by omega, fun _ => by omega⟩

/-- the bins are in the order of the sizes -/
theorem lt_of_treeIndex_lt {S S' : ℕ} (hmin : MIN_LARGE_SIZE ≤ S) (hmax : S < 2 ^ 40) (hmin' : MIN_LARGE_SIZE ≤ S')
    (hmax' : S' < 2 ^ 40) (h : treeIndex S < treeIndex S') : S < S' := by
  have h1 := treeIndex_spec hmin hmax
  have h2 := treeIndex_spec hmin' hmax'
  have hi' : treeIndex S' < 32 := treeIndex_lt S'
  have hle := minsize_le_minsize _ (h.trans hi') _ hi' h
  have hne : treeIndex S ≠ NTREEBINS - 1 := by
    unfold NTREEBINS
    omega
  have := h1.2 hne
  omega

/-- the interval of the bin -/
theorem binLo_le {S : ℕ} (hmin : MIN_LARGE_SIZE ≤ S) (hmax : S < 2 ^ 40) :
    binLo (treeIndex S) ≤ S ∧ S < binLo (treeIndex S) + 2 ^ binBits (treeIndex S) := by
  obtain ⟨hlo, hhi⟩ := treeIndex_spec hmin hmax
  by_cases h : treeIndex S = NTREEBINS - 1
  · have hbits : binBits (NTREEBINS - 1) = 64 := by decide
    rw [binLo, if_pos h, h, hbits]
    omega
  · have hlt : treeIndex S < NTREEBINS - 1 := by
      have := treeIndex_lt S
      unfold NTREEBINS at this h ⊢
      omega
    rw [binLo, if_neg h, binBits_eq hlt]
    exact ⟨hlo, hhi h⟩

/-- at 2^40 the shifted size is 0 as an `unsigned int` -/
theorem treeIndex_wrong : treeIndex (2 ^ 40) = 0 ∧ treeIndex (2 ^ 39) = NTREEBINS - 1 := by decide

/-! ## Digits -/

section
variable {S lo k : ℕ}

/-- the word that has the k lowest digits of S at its top -/
def digits (S k : ℕ) : BitVec 64 := BitVec.ofNat 64 (S <<< (64 - k))

theorem digits_shift (hk : k < 64) : digits S (k + 1) <<< 1 = digits S k := by
  apply BitVec.eq_of_toNat_eq
  simp only [digits, BitVec.toNat_shiftLeft, BitVec.toNat_ofNat, Nat.shiftLeft_eq]
  rw [Nat.mod_mul_mod, Nat.mul_assoc, pow_one, ← pow_succ, show 64 - (k + 1) + 1 = 64 - k by omega]

/-- the top digit says in which half of an interval S is -/
theorem digits_msb (hk : k < 64) (hdvd : 2 ^ (k + 1) ∣ lo) (hlo : lo ≤ S) (hhi : S < lo + 2 ^ (k + 1)) :
    (digits S (k + 1)).msb = true ↔ lo + 2 ^ k ≤ S := by
  have hbit : (digits S (k + 1)).msb = S.testBit k := by
    rw [digits, BitVec.msb_eq_getLsbD_last, BitVec.getLsbD_ofNat, Nat.testBit_shiftLeft]
    have hk' : 63 - (63 - k) = k := by omega
    simp [hk']
  rw [hbit, Nat.testBit_eq_decide_div_mod_eq, decide_eq_true_eq]
  obtain ⟨q, rfl⟩ := hdvd
  obtain ⟨x, rfl⟩ := Nat.exists_eq_add_of_le hlo
  have hx : x < 2 ^ (k + 1) := by omega
  have hpos : 0 < 2 ^ k := by positivity
  have hdiv : (2 ^ (k + 1) * q + x) / 2 ^ k = 2 * q + x / 2 ^ k := by
    rw [pow_succ, Nat.mul_assoc, Nat.mul_add_div hpos]
  rw [hdiv, Nat.mul_add_mod]
  have hlt : x / 2 ^ k < 2 := Nat.div_lt_of_lt_mul (by rwa [← pow_succ])
  have hone : 1 ≤ x / 2 ^ k ↔ 2 ^ k ≤ x := by
    rw [Nat.le_div_iff_mul_le hpos, Nat.one_mul]
  generalize x / 2 ^ k = d at hlt hone
  omega

end

/-! ## Insertion -/

section
variable {size : ℕ → ℕ} {X S lo k : ℕ}

/-- insertion adds one chunk -/
theorem items_insertTree (K : BitVec 64) (T : Trie ℕ) : (insertTree size X S K T).items = {X} + T.items := by
  induction T generalizing K with
  | nil => simp [insertTree]
  | node t chain l r ihl ihr =>
    rw [insertTree]
    split_ifs
    · rw [Trie.items_node, Trie.items_node, ihr]
      abel
    · rw [Trie.items_node, Trie.items_node, ihl]
      abel
    · rw [Trie.items_node, Trie.items_node, ← Multiset.cons_coe, ← Multiset.singleton_add]
      abel

theorem mem_insertTree {K : BitVec 64} {T : Trie ℕ} {x : ℕ} :
    x ∈ (insertTree size X S K T).toList ↔ x = X ∨ x ∈ T.toList := by
  have h : x ∈ (insertTree size X S K T).items ↔ x ∈ {X} + T.items := by rw [items_insertTree]
  simpa [Trie.items] using h

theorem nodup_insertTree {K : BitVec 64} {T : Trie ℕ} (h : T.toList.Nodup) (hX : X ∉ T.toList) :
    (insertTree size X S K T).toList.Nodup := by
  have hperm : (insertTree size X S K T).toList.Perm (X :: T.toList) := by
    rw [← Multiset.coe_eq_coe, ← Multiset.cons_coe, ← Multiset.singleton_add]
    exact items_insertTree K T
  exact hperm.nodup_iff.mpr (List.nodup_cons.mpr ⟨hX, h⟩)

theorem insertTree_ne_nil (K : BitVec 64) (T : Trie ℕ) : insertTree size X S K T ≠ .nil := by
  cases T with
  | nil => exact nofun
  | node t chain l r =>
    rw [insertTree]
    split_ifs <;> exact nofun

/-- insertion keeps the order -/
theorem ordered_insertTree {T : Trie ℕ} (h : T.Ordered size lo k) (hX : size X = S) (hdvd : 2 ^ k ∣ lo) (hlo : lo ≤ S)
    (hhi : S < lo + 2 ^ k) (hk : k ≤ 64) : (insertTree size X S (digits S k) T).Ordered size lo k := by
  induction k generalizing T lo with
  | zero =>
    cases T with
    | nil => exact ⟨by omega, by simp, rfl, rfl⟩
    | node t chain l r =>
      obtain ⟨ht, hchain, rfl, rfl⟩ := h
      rw [insertTree, if_neg (by omega)]
      refine ⟨ht, fun x hx => ?_, rfl, rfl⟩
      rcases List.mem_cons.mp hx with rfl | hx
      · omega
      · exact hchain x hx
  | succ k ih =>
    cases T with
    | nil => exact ⟨by omega, by omega, by simp, Trie.ordered_nil, Trie.ordered_nil⟩
    | node t chain l r =>
      obtain ⟨h1, h2, hchain, hl, hr⟩ := h
      have hpow : 2 ^ (k + 1) = 2 ^ k + 2 ^ k := by ring
      have hdvd' : 2 ^ k ∣ lo := (pow_dvd_pow 2 (Nat.le_succ k)).trans hdvd
      have hmsb := digits_msb (by omega) hdvd hlo hhi
      rw [insertTree, digits_shift (by omega)]
      split_ifs with ht hbit
      · have hge := hmsb.mp hbit
        exact ⟨h1, h2, hchain, hl, ih hr (dvd_add hdvd' dvd_rfl) hge (by omega) (by omega)⟩
      · have hlt : ¬ lo + 2 ^ k ≤ S := fun hge => hbit (hmsb.mpr hge)
        exact ⟨h1, h2, hchain, ih hl hdvd' hlo (by omega) (by omega), hr⟩
      · refine ⟨h1, h2, fun x hx => ?_, hl, hr⟩
        rcases List.mem_cons.mp hx with rfl | hx
        · omega
        · exact hchain x hx

end

/-! ## Search -/

section
variable {size : ℕ → ℕ} {nb : ℕ} {P Q : ℕ → Prop} {best : Fit}

/-- the best fit among the chunks seen: a smallest of those that are large enough, and what would be left of it -/
structure Best (size : ℕ → ℕ) (nb : ℕ) (P : ℕ → Prop) (best : Fit) : Prop where
  none : best.1 = none → best.2 = 2 ^ 64 - nb ∧ ∀ x, P x → size x < nb
  some : ∀ v, best.1 = some v → P v ∧ nb + best.2 = size v ∧ size v < 2 ^ 64 ∧
    ∀ x, P x → nb ≤ size x → size v ≤ size x

/-- nothing seen yet; rsize is -nb -/
theorem best_start (size : ℕ → ℕ) (hnb : 0 < nb) (hlt : nb < 2 ^ 64) : Best size nb (fun _ => False) (none, sub 0 nb) :=
  ⟨fun _ => ⟨by simp [sub_of_lt hnb hlt], by simp⟩, by simp⟩

theorem Best.consider {t : ℕ} (h : Best size nb P best) (ht : size t < 2 ^ 64) (hlt : nb < 2 ^ 64) :
    Best size nb (fun x => P x ∨ x = t) (Heap.consider size nb t best) := by
  obtain ⟨v, rsize⟩ := best
  unfold Heap.consider
  by_cases hfit : nb ≤ size t
  · simp only [sub_of_le hfit ht]
    split_ifs with hless
    · refine ⟨by simp, ?_⟩
      rintro _ ⟨⟩
      refine ⟨.inr rfl, by dsimp only; omega, ht, ?_⟩
      rintro x (hx | rfl) hle
      · cases v with
        | none => exact absurd ((h.none rfl).2 x hx) (by omega)
        | some v =>
          obtain ⟨-, hr, -, hmin⟩ := h.some v rfl
          have := hmin x hx hle
          dsimp only at hr
          omega
      · exact le_refl _
    · cases v with
      | none =>
        obtain ⟨hr, -⟩ := h.none rfl
        dsimp only at hr
        omega
      | some v =>
        obtain ⟨hv, hr, hb, hmin⟩ := h.some v rfl
        refine ⟨by simp, ?_⟩
        rintro _ ⟨⟩
        refine ⟨.inl hv, hr, hb, ?_⟩
        rintro x (hx | rfl) hle
        · exact hmin x hx hle
        · dsimp only at hr
          omega
  · -- the difference wraps around
    simp only [sub_of_lt (not_le.mp hfit) hlt]
    have hno : ¬ 2 ^ 64 - (nb - size t) < rsize := by
      cases v with
      | none =>
        have : rsize = 2 ^ 64 - nb := (h.none rfl).1
        omega
      | some v =>
        obtain ⟨-, hr, hb, -⟩ := h.some v rfl
        dsimp only at hr
        omega
    rw [if_neg hno]
    refine ⟨fun hn => ⟨(h.none hn).1, ?_⟩, fun v hv => ?_⟩
    · rintro x (hx | rfl)
      · exact (h.none hn).2 x hx
      · omega
    · obtain ⟨h1, h2, h3, h4⟩ := h.some v hv
      refine ⟨.inl h1, h2, h3, ?_⟩
      rintro x (hx | rfl) hle
      · exact h4 x hx hle
      · exact absurd hle hfit

/-- more chunks may be added if each is too small or not smaller than one seen that is large enough -/
theorem Best.mono (h : Best size nb P best) (hPQ : ∀ x, P x → Q x)
    (hQ : ∀ x, Q x → nb ≤ size x → ∃ y, P y ∧ nb ≤ size y ∧ size y ≤ size x) : Best size nb Q best := by
  refine ⟨fun hn => ⟨(h.none hn).1, fun x hx => ?_⟩, fun v hv => ?_⟩
  · by_contra hle
    obtain ⟨y, hy, hge, -⟩ := hQ x hx (not_lt.mp hle)
    have := (h.none hn).2 y hy
    omega
  · obtain ⟨h1, h2, h3, h4⟩ := h.some v hv
    refine ⟨hPQ v h1, h2, h3, fun x hx hle => ?_⟩
    obtain ⟨y, hy, hge, hyx⟩ := hQ x hx hle
    exact (h4 y hy hge).trans hyx

/-- the loop to the first children sees the chunks of that path -/
theorem leftmost_spec {T : Trie ℕ} (h : Best size nb P best) (hT : ∀ x ∈ T.toList, size x < 2 ^ 64) (hlt : nb < 2 ^ 64) :
    Best size nb (fun x => P x ∨ x ∈ T.leftPath) (leftmost size nb T best) := by
  induction T generalizing P best with
  | nil => simpa [leftmost, Trie.leftPath] using h
  | node t chain l r ihl ihr =>
    have hstep := h.consider (hT t (by simp [Trie.toList])) hlt
    rw [leftmost]
    simp only [Trie.leftPath, List.mem_cons, ← or_assoc]
    split_ifs
    · exact ihr hstep fun x hx => hT x (by simp [Trie.toList, hx])
    · exact ihl hstep fun x hx => hT x (by simp [Trie.toList, hx])

/-- in an ordered trie these stand for all -/
theorem leftmost_best {T : Trie ℕ} {lo k : ℕ} (h : Best size nb P best) (ho : T.Ordered size lo k)
    (hT : ∀ x ∈ T.toList, size x < 2 ^ 64 ∧ nb ≤ size x) (hlt : nb < 2 ^ 64) :
    Best size nb (fun x => P x ∨ x ∈ T.toList) (leftmost size nb T best) := by
  refine (leftmost_spec h (fun x hx => (hT x hx).1) hlt).mono ?_ ?_
  · rintro x (hx | hx)
    · exact .inl hx
    · exact .inr (Trie.leftPath_subset x hx)
  · rintro x (hx | hx) hle
    · exact ⟨x, .inl hx, hle, le_refl _⟩
    · obtain ⟨y, hy, hyx⟩ := ho.leftPath_le hx
      exact ⟨y, .inr hy, (hT y (Trie.leftPath_subset y hy)).2, hyx⟩

/-- the chunks on the way down by the digits of the request -/
def path : BitVec 64 → Trie ℕ → List ℕ
  | _, .nil => []
  | K, .node t _ child0 child1 => t :: if K.msb then path (K <<< 1) child1 else path (K <<< 1) child0

theorem path_subset {K : BitVec 64} {T : Trie ℕ} : ∀ x ∈ path K T, x ∈ T.toList := by
  induction T generalizing K with
  | nil => simp [path]
  | node t chain l r ihl ihr =>
    intro x hx
    simp only [path, List.mem_cons] at hx
    simp only [Trie.toList, List.mem_cons, List.mem_append]
    rcases hx with rfl | hx
    · exact .inl rfl
    · split_ifs at hx
      · exact .inr (.inr (.inr (ihr x hx)))
      · exact .inr (.inr (.inl (ihl x hx)))

/-- the first loop sees the chunks on the way down; the second one starts in this trie, or where it would have -/
theorem descend_seen (K : BitVec 64) {T : Trie ℕ} (rst : Trie ℕ) (h : Best size nb P best)
    (hT : ∀ x ∈ T.toList, size x < 2 ^ 64) (hlt : nb < 2 ^ 64) :
    Best size nb (fun x => P x ∨ x ∈ path K T) (descend size nb K T best rst).1 ∧
      ∀ x ∈ (descend size nb K T best rst).2.toList, x ∈ T.toList ∨ x ∈ rst.toList := by
  induction T generalizing P best K rst with
  | nil => exact ⟨by simpa [descend, path] using h, fun x hx => .inr hx⟩
  | node t chain l r ihl ihr =>
    have hstep := h.consider (hT t (by simp [Trie.toList])) hlt
    have hl : ∀ x ∈ l.toList, size x < 2 ^ 64 := fun x hx => hT x (by simp [Trie.toList, hx])
    have hr : ∀ x ∈ r.toList, size x < 2 ^ 64 := fun x hx => hT x (by simp [Trie.toList, hx])
    rw [descend]
    simp only [path, List.mem_cons, ← or_assoc]
    by_cases hexact : sub (size t) nb < best.2 ∧ sub (size t) nb = 0
    · -- a chunk of the very size: nothing else can be better
      have heq : consider size nb t best = (some t, 0) := by
        rw [consider, if_pos hexact.1, hexact.2]
      rw [heq] at hstep
      have hsize : size t = nb := by
        have := (hstep.some t rfl).2.1
        dsimp only at this
        omega
      simp only [if_pos hexact]
      exact ⟨hstep.mono (fun x hx => .inl hx) fun x _ hle => ⟨t, .inr rfl, by omega, by omega⟩, fun x hx => .inl hx⟩
    rw [if_neg hexact]
    split_ifs with hmsb hnil
    · exact ⟨(ihr _ _ hstep hr).1, fun x hx => ((ihr _ _ hstep hr).2 x hx).imp_left fun hx => by simp [Trie.toList, hx]⟩
    · exact ⟨(ihl _ _ hstep hl).1, fun x hx => ((ihl _ _ hstep hl).2 x hx).imp_left fun hx => by simp [Trie.toList, hx]⟩
    · refine ⟨(ihl _ _ hstep hl).1, fun x hx => .inl ?_⟩
      rcases (ihl _ _ hstep hl).2 x hx with hx | hx <;> simp [Trie.toList, hx]

/-- what the first loop leaves to the second: a trie of chunks that are large enough -/
structure Rest (size : ℕ → ℕ) (nb : ℕ) (T : Trie ℕ) : Prop where
  ordered : ∃ lo k, T.Ordered size lo k
  large : ∀ x ∈ T.toList, nb ≤ size x

/-- every chunk of P that is large enough has one among those seen, or among those left, that is not larger -/
def Covers (size : ℕ → ℕ) (nb : ℕ) (seen : List ℕ) (rest : Trie ℕ) (P : ℕ → Prop) : Prop :=
  ∀ x, P x → nb ≤ size x → ∃ y, (y ∈ seen ∨ y ∈ rest.toList) ∧ nb ≤ size y ∧ size y ≤ size x

/-- the first loop finds a chunk of the very size, or the two loops together see a best fit -/
theorem descend_covers (best : Fit) {T : Trie ℕ} (rst : Trie ℕ) {lo k : ℕ} (ho : T.Ordered size lo k) (hrst : Rest size nb rst)
    (hbound : ∀ x ∈ rst.toList, lo + 2 ^ k ≤ size x) (hT : ∀ x ∈ T.toList, size x < 2 ^ 64) (hdvd : 2 ^ k ∣ lo)
    (hlo : lo ≤ nb) (hhi : nb < lo + 2 ^ k) (hk : k ≤ 64) (hlt : nb < 2 ^ 64) :
    (∃ t ∈ path (digits nb k) T, size t = nb) ∨
      Rest size nb (descend size nb (digits nb k) T best rst).2 ∧
        Covers size nb (path (digits nb k) T) (descend size nb (digits nb k) T best rst).2
          (fun x => x ∈ T.toList ∨ x ∈ rst.toList) := by
  induction k generalizing T rst lo best with
  | zero =>
    cases T with
    | nil =>
      refine .inr ⟨hrst, ?_⟩
      rintro x (hx | hx) hle
      · cases hx
      · exact ⟨x, .inr hx, hle, le_refl _⟩
    | node t chain l r =>
      have ht := ho.1
      exact .inl ⟨t, by simp [path], by omega⟩
  | succ k ih =>
    cases T with
    | nil =>
      refine .inr ⟨hrst, ?_⟩
      rintro x (hx | hx) hle
      · cases hx
      · exact ⟨x, .inr hx, hle, le_refl _⟩
    | node t chain l r =>
      obtain ⟨-, -, hchain, hl, hr⟩ := ho
      have hpow : 2 ^ (k + 1) = 2 ^ k + 2 ^ k := by ring
      have hdvd' : 2 ^ k ∣ lo := (pow_dvd_pow 2 (Nat.le_succ k)).trans hdvd
      have hmsb := digits_msb (by omega) hdvd hlo hhi
      have hTl : ∀ x ∈ l.toList, size x < 2 ^ 64 := fun x hx => hT x (by simp [Trie.toList, hx])
      have hTr : ∀ x ∈ r.toList, size x < 2 ^ 64 := fun x hx => hT x (by simp [Trie.toList, hx])
      by_cases hsize : size t = nb
      · exact .inl ⟨t, by simp [path], hsize⟩
      have hexact : ¬ (sub (size t) nb < best.2 ∧ sub (size t) nb = 0) := by
        rintro ⟨-, hzero⟩
        have := hT t (by simp [Trie.toList])
        unfold sub at hzero
        omega
      rw [descend, if_neg hexact, path, digits_shift (by omega)]
      by_cases hbit : (digits nb (k + 1)).msb = true
      · -- to the second child; what is in the first is too small
        have hge := hmsb.mp hbit
        rw [if_pos hbit, if_pos hbit]
        have hrec := ih (consider size nb t best) rst hr hrst (fun x hx => by have := hbound x hx; omega) hTr
          (dvd_add hdvd' dvd_rfl) hge (by omega) (by omega)
        refine hrec.imp (Exists.imp fun y => And.imp_left (List.mem_cons_of_mem _)) (And.imp_right fun hcov => ?_)
        have hlift : ∀ x, x ∈ r.toList ∨ x ∈ rst.toList → nb ≤ size x → ∃ y, (y ∈ t :: path (digits nb k) r ∨
            y ∈ (descend size nb (digits nb k) r (consider size nb t best) rst).2.toList) ∧
            nb ≤ size y ∧ size y ≤ size x := fun x hx hle => by
          obtain ⟨y, hy, h1, h2⟩ := hcov x hx hle
          exact ⟨y, hy.imp_left (List.mem_cons_of_mem _), h1, h2⟩
        rintro x (hx | hx) hle
        · simp only [Trie.toList, List.mem_cons, List.mem_append] at hx
          rcases hx with rfl | hx | hx | hx
          · exact ⟨x, .inl List.mem_cons_self, hle, le_refl _⟩
          · have heq := hchain x hx
            exact ⟨t, .inl List.mem_cons_self, by omega, by omega⟩
          · have := hl.bounds x hx
            omega
          · exact hlift x (.inl hx) hle
        · exact hlift x (.inr hx) hle
      · -- to the first child; the second, if there is one, comes before everything remembered so far
        have hlow : nb < lo + 2 ^ k := not_le.mp fun hge => hbit (hmsb.mpr hge)
        rw [if_neg hbit, if_neg hbit]
        have hrst' : Rest size nb (if r.isNil then rst else r) ∧
            ∀ x ∈ (if r.isNil then rst else r).toList, lo + 2 ^ k ≤ size x := by
          split_ifs
          · exact ⟨hrst, fun x hx => by have := hbound x hx; omega⟩
          · exact ⟨⟨⟨_, _, hr⟩, fun x hx => by have := hr.bounds x hx; omega⟩, fun x hx => (hr.bounds x hx).1⟩
        have hrec := ih (consider size nb t best) _ hl hrst'.1 hrst'.2 hTl hdvd' hlo hlow (by omega)
        refine hrec.imp (Exists.imp fun y => And.imp_left (List.mem_cons_of_mem _)) (And.imp_right fun hcov => ?_)
        have hlift : ∀ x, x ∈ l.toList ∨ x ∈ (if r.isNil then rst else r).toList → nb ≤ size x →
            ∃ y, (y ∈ t :: path (digits nb k) l ∨ y ∈ (descend size nb (digits nb k) l (consider size nb t best)
              (if r.isNil then rst else r)).2.toList) ∧ nb ≤ size y ∧ size y ≤ size x := fun x hx hle => by
          obtain ⟨y, hy, h1, h2⟩ := hcov x hx hle
          exact ⟨y, hy.imp_left (List.mem_cons_of_mem _), h1, h2⟩
        rintro x (hx | hx) hle
        · simp only [Trie.toList, List.mem_cons, List.mem_append] at hx
          rcases hx with rfl | hx | hx | hx
          · exact ⟨x, .inl List.mem_cons_self, hle, le_refl _⟩
          · have heq := hchain x hx
            exact ⟨t, .inl List.mem_cons_self, by omega, by omega⟩
          · exact hlift x (.inl hx) hle
          · have hnil : r.isNil = false := by
              cases r with
              | nil => cases hx
              | node => rfl
            exact hlift x (.inr (by simp [hnil, hx])) hle
        · cases r with
          | nil => exact hlift x (.inr (by simp [Trie.isNil, hx])) hle
          | node t' chain' l' r' =>
            have ht' := hr.bounds t' (by simp [Trie.toList])
            have hxb := hbound x hx
            obtain ⟨y, hy, h1, h2⟩ := hlift t' (.inr (by simp [Trie.isNil, Trie.toList])) (by omega)
            exact ⟨y, hy, h1, by omega⟩

end

end SandiaShmem.Heap
