/-
What the bins of the allocator hold (`src/malloc.c`): a small bin is a list of chunks of one size, from the header's fd on, a
tree bin is a trie, and for both there is a map with a bit for each bin that is not empty. `Heap/Links.lean` has the bins as
they are in memory. When the last chunk leaves a small bin, only its bit is cleared.

- `SmallBinned`, `TreeBinned`, `Binned`: the bins hold exactly the chunks of a set, each in the bin for its size.
- `Binned.insert_small`, `Binned.insert_large`, `Binned.remove_small`, `Binned.remove_large`: one chunk enters or leaves.
-/
import SandiaShmem.Heap.TreeBins

namespace SandiaShmem.Heap

open BitScan BitTrie Function

/-! ## Model -/

/-- how the program may end: CORRUPTION_ERROR_ACTION, USAGE_ERROR_ACTION, where the heap would get a second segment, or in
a loop over a tree bin that has more rounds than the segment has bytes -/
inductive Stop where
  | corruption
  | usage
  | segment
  | running
deriving DecidableEq, Repr

def NSMALLBINS : ℕ := 32

def SMALLBIN_SHIFT : ℕ := 3

abbrev BinMap := BitVec 32

def is_small (s : ℕ) : Bool := s >>> SMALLBIN_SHIFT < NSMALLBINS

def small_index (s : ℕ) : ℕ := s >>> SMALLBIN_SHIFT

def small_index2size (i : ℕ) : ℕ := i <<< SMALLBIN_SHIFT

/-! ## Contents -/

/-- the maps, and the chunks of each bin -/
structure Bins where
  smallmap : BinMap
  treemap : BinMap
  smallbins : ℕ → List ℕ
  treebins : ℕ → Trie ℕ

def Bins.empty : Bins := ⟨0, 0, fun _ => [], fun _ => .nil⟩

/-- the small bins hold exactly the chunks of a set -/
structure SmallBinned (size : ℕ → ℕ) (free : Set ℕ) (map : BinMap) (bins : ℕ → List ℕ) : Prop where
  bin : ∀ i, map.getLsbD i = true →
    bins i ≠ [] ∧ (bins i).Nodup ∧ ∀ p ∈ bins i, p ∈ free ∧ size p = small_index2size i
  all : ∀ p ∈ free, map.getLsbD (small_index (size p)) = true ∧ p ∈ bins (small_index (size p))

/-- the tree bins hold exactly the chunks of a set, and if no chunk is too large they are in order -/
structure TreeBinned (bound : ℕ) (size : ℕ → ℕ) (free : Set ℕ) (map : BinMap) (bins : ℕ → Trie ℕ) : Prop where
  map_iff : ∀ i, map.getLsbD i = true ↔ bins i ≠ .nil
  nodup : ∀ i, (bins i).toList.Nodup
  bin : ∀ i, ∀ p ∈ (bins i).toList, p ∈ free ∧ treeIndex (size p) = i
  all : ∀ p ∈ free, p ∈ (bins (treeIndex (size p))).toList
  large : ∀ p ∈ free, MIN_LARGE_SIZE ≤ size p
  le : ∀ p ∈ free, size p ≤ bound
  ordered : bound < 2 ^ 40 → ∀ i < NTREEBINS, (bins i).Ordered size (binLo i) (binBits i)

/-- all bins -/
structure Binned (bound : ℕ) (size : ℕ → ℕ) (free : Set ℕ) (b : Bins) : Prop where
  small : SmallBinned size {p ∈ free | is_small (size p)} b.smallmap b.smallbins
  tree : TreeBinned bound size {p ∈ free | ¬ is_small (size p)} b.treemap b.treebins

section
variable {size size' : ℕ → ℕ} {free : Set ℕ} {bound least_addr P S i : ℕ}

theorem is_small_iff {s : ℕ} : is_small s = true ↔ s < MIN_LARGE_SIZE := by
  simp only [is_small, SMALLBIN_SHIFT, NSMALLBINS, MIN_LARGE_SIZE, Nat.shiftRight_eq_div_pow, decide_eq_true_eq]
  omega

theorem small_index_size (i : ℕ) : small_index (small_index2size i) = i := by
  simp only [small_index, small_index2size, SMALLBIN_SHIFT, Nat.shiftRight_eq_div_pow, Nat.shiftLeft_eq]
  omega

theorem small_size_index {s : ℕ} (h : 8 ∣ s) : small_index2size (small_index s) = s := by
  simp only [small_index, small_index2size, SMALLBIN_SHIFT, Nat.shiftRight_eq_div_pow, Nat.shiftLeft_eq]
  omega

theorem small_index_lt {s : ℕ} (h : is_small s = true) : small_index s < 32 := by
  rw [is_small_iff] at h
  simp only [small_index, SMALLBIN_SHIFT, Nat.shiftRight_eq_div_pow, MIN_LARGE_SIZE] at h ⊢
  omega

/-! ### Small bins -/

section
variable {map : BinMap} {bins : ℕ → List ℕ}

theorem SmallBinned.congr (h : SmallBinned size free map bins) (heq : ∀ p ∈ free, size' p = size p) :
    SmallBinned size' free map bins := by
  refine ⟨fun i hi => ?_, fun p hp => ?_⟩
  · obtain ⟨hne, hnodup, hmem⟩ := h.bin i hi
    exact ⟨hne, hnodup, fun p hp => ⟨(hmem p hp).1, (heq p (hmem p hp).1).trans (hmem p hp).2⟩⟩
  · rw [heq p hp]
    exact h.all p hp

theorem SmallBinned.insert (h : SmallBinned size free map bins) (hP : P ∉ free) (hS : size P = S)
    (hsize : small_index2size (small_index S) = S) (hlt : small_index S < 32) :
    SmallBinned size (Insert.insert P free) (setBit map (small_index S)) (update bins (small_index S)
      (if map.getLsbD (small_index S) = false then [P] else P :: bins (small_index S))) := by
  refine ⟨fun i hi => ?_, fun p hp => ?_⟩
  · rw [getLsbD_setBit] at hi
    by_cases hi' : i = small_index S
    · subst hi'
      rw [update_self]
      split_ifs with hmap
      · simp [hS, hsize]
      · obtain ⟨-, hnodup, hmem⟩ := h.bin _ (Bool.of_not_eq_false hmap)
        refine ⟨by simp, List.nodup_cons.mpr ⟨fun hbin => hP (hmem P hbin).1, hnodup⟩, fun p hp => ?_⟩
        rcases List.mem_cons.mp hp with rfl | hp
        · exact ⟨Set.mem_insert .., hS.trans hsize.symm⟩
        · exact ⟨Set.mem_insert_of_mem _ (hmem p hp).1, (hmem p hp).2⟩
    · rw [update_of_ne hi']
      simp only [hi', decide_false, Bool.false_and, Bool.or_false] at hi
      obtain ⟨hne, hnodup, hmem⟩ := h.bin i hi
      exact ⟨hne, hnodup, fun p hp => ⟨Set.mem_insert_of_mem _ (hmem p hp).1, (hmem p hp).2⟩⟩
  · rw [getLsbD_setBit]
    rcases hp with rfl | hp
    · rw [hS, update_self]
      refine ⟨by simp [hlt], ?_⟩
      split_ifs <;> simp
    · obtain ⟨hmap, hmem⟩ := h.all p hp
      refine ⟨by simp [hmap], ?_⟩
      by_cases hi : small_index (size p) = small_index S
      · rw [hi] at hmap hmem ⊢
        rw [update_self, if_neg (by simp [hmap])]
        exact List.mem_cons_of_mem _ hmem
      · rwa [update_of_ne hi]

theorem SmallBinned.remove (h : SmallBinned size free map bins) (hP : P ∈ free)
    (hi : small_index (size P) = i) :
    SmallBinned size (free \ {P}) (if bins i = [P] then clearBit map i else map)
      (if bins i = [P] then bins else update bins i ((bins i).erase P)) := by
  subst hi
  obtain ⟨hmap, hmem⟩ := h.all P hP
  obtain ⟨-, hnodup, hbin⟩ := h.bin _ hmap
  have hother : ∀ j, j ≠ small_index (size P) → ∀ p ∈ bins j, map.getLsbD j = true →
      p ∈ free \ {P} ∧ size p = small_index2size j := by
    intro j hj p hp hmap'
    obtain ⟨hfree, hsize⟩ := (h.bin j hmap').2.2 p hp
    refine ⟨⟨hfree, ?_⟩, hsize⟩
    rintro rfl
    rw [hsize, small_index_size] at hj
    exact hj rfl
  split_ifs with hone
  · refine ⟨fun j hj => ?_, fun p ⟨hp, hne⟩ => ?_⟩
    · rw [getLsbD_clearBit, Bool.and_eq_true, decide_eq_true_eq] at hj
      obtain ⟨hne, hnodup', -⟩ := h.bin j hj.1
      exact ⟨hne, hnodup', fun p hp => hother j hj.2 p hp hj.1⟩
    · obtain ⟨hmap', hmem'⟩ := h.all p hp
      rw [getLsbD_clearBit, hmap', Bool.true_and, decide_eq_true_eq]
      refine ⟨fun heq => hne ?_, hmem'⟩
      rw [heq, hone] at hmem'
      exact List.mem_singleton.mp hmem'
  · refine ⟨fun j hj => ?_, fun p ⟨hp, hne⟩ => ?_⟩
    · by_cases hji : j = small_index (size P)
      · subst hji
        rw [update_self]
        refine ⟨?_, hnodup.erase _, fun p hp => ?_⟩
        · intro hnil
          rcases List.erase_eq_nil_iff.mp hnil with hnil | hone'
          · rw [hnil] at hmem
            cases hmem
          · exact hone hone'
        · rw [hnodup.mem_erase_iff] at hp
          exact ⟨⟨(hbin p hp.2).1, hp.1⟩, (hbin p hp.2).2⟩
      · rw [update_of_ne hji]
        obtain ⟨hne, hnodup', -⟩ := h.bin j hj
        exact ⟨hne, hnodup', fun p hp => hother j hji p hp hj⟩
    · obtain ⟨hmap', hmem'⟩ := h.all p hp
      refine ⟨hmap', ?_⟩
      by_cases hji : small_index (size p) = small_index (size P)
      · rw [hji] at hmem' ⊢
        rw [update_self, hnodup.mem_erase_iff]
        exact ⟨hne, hmem'⟩
      · rwa [update_of_ne hji]

end

/-! ### Tree bins -/

section
variable {map : BinMap} {bins : ℕ → Trie ℕ}

theorem TreeBinned.congr (h : TreeBinned bound size free map bins) (heq : ∀ p ∈ free, size' p = size p) :
    TreeBinned bound size' free map bins where
  map_iff := h.map_iff
  nodup := h.nodup
  bin i p hp := by
    rw [heq p (h.bin i p hp).1]
    exact h.bin i p hp
  all p hp := by
    rw [heq p hp]
    exact h.all p hp
  large p hp := by
    rw [heq p hp]
    exact h.large p hp
  le p hp := by
    rw [heq p hp]
    exact h.le p hp
  ordered hb i hi := (h.ordered hb i hi).congr fun p hp => heq p (h.bin i p hp).1

/-- the word that a search or an insertion starts with -/
theorem digits_treeIndex (S : ℕ) : BitVec.ofNat 64 (S <<< leftshift (treeIndex S)) = digits S (binBits (treeIndex S)) := by
  have hle : leftshift (treeIndex S) ≤ 64 := by
    unfold leftshift SIZE_T_BITSIZE
    split_ifs <;> omega
  rw [digits, binBits, SIZE_T_BITSIZE, Nat.sub_sub_self hle]

theorem TreeBinned.insert (h : TreeBinned bound size free map bins) (hP : P ∉ free) (hS : size P = S)
    (hlarge : MIN_LARGE_SIZE ≤ S) (hle : S ≤ bound) :
    TreeBinned bound size (Insert.insert P free) (setBit map (treeIndex S))
      (update bins (treeIndex S)
        (insertTree size P S (BitVec.ofNat 64 (S <<< leftshift (treeIndex S))) (bins (treeIndex S)))) := by
  have hnot : ∀ i, P ∉ (bins i).toList := fun i hbin => hP (h.bin i P hbin).1
  have hI : treeIndex S < 32 := treeIndex_lt S
  refine ⟨fun i => ?_, fun i => ?_, fun i p hp => ?_, fun p hp => ?_, fun p hp => ?_, fun p hp => ?_, fun hb i hi => ?_⟩
  · rw [getLsbD_setBit, Bool.or_eq_true, h.map_iff]
    by_cases hi : i = treeIndex S
    · rw [hi, update_self]
      simp [insertTree_ne_nil, hI]
    · rw [update_of_ne hi]
      simp [hi]
  · by_cases hi : i = treeIndex S
    · rw [hi, update_self]
      exact nodup_insertTree (h.nodup _) (hnot _)
    · rw [update_of_ne hi]
      exact h.nodup i
  · by_cases hi : i = treeIndex S
    · subst hi
      rw [update_self, mem_insertTree] at hp
      rcases hp with rfl | hp
      · exact ⟨Set.mem_insert .., by rw [hS]⟩
      · exact (h.bin _ p hp).imp_left (Set.mem_insert_of_mem _)
    · rw [update_of_ne hi] at hp
      exact (h.bin i p hp).imp_left (Set.mem_insert_of_mem _)
  · rcases hp with rfl | hp
    · rw [hS, update_self, mem_insertTree]
      exact .inl rfl
    · have hmem := h.all p hp
      by_cases hi : treeIndex (size p) = treeIndex S
      · rw [hi] at hmem ⊢
        rw [update_self, mem_insertTree]
        exact .inr hmem
      · rwa [update_of_ne hi]
  · rcases hp with rfl | hp
    · rwa [hS]
    · exact h.large p hp
  · rcases hp with rfl | hp
    · rwa [hS]
    · exact h.le p hp
  · by_cases hi' : i = treeIndex S
    · subst hi'
      rw [update_self, digits_treeIndex]
      obtain ⟨hlo, hhi⟩ := binLo_le hlarge (hle.trans_lt hb)
      exact ordered_insertTree (h.ordered hb _ hi) hS (binLo_dvd hi) hlo hhi (binBits_le _)
    · rw [update_of_ne hi']
      exact h.ordered hb i hi

theorem TreeBinned.remove (h : TreeBinned bound size free map bins) (hP : P ∈ free)
    (hi : treeIndex (size P) = i) :
    TreeBinned bound size (free \ {P}) (if ((bins i).remove P).isNil then clearBit map i else map)
      (update bins i ((bins i).remove P)) := by
  subst hi
  generalize hI : treeIndex (size P) = I
  refine ⟨fun i => ?_, fun i => ?_, fun i p hp => ?_, fun p ⟨hp, hne⟩ => ?_, fun p hp => h.large p hp.1,
    fun p hp => h.le p hp.1, fun hb i hi => ?_⟩
  · by_cases hi : i = I
    · subst hi
      rw [update_self]
      split_ifs with hnil
      · simp [getLsbD_clearBit, Trie.isNil_iff.mp hnil]
      · have hmap := (h.map_iff i).mpr fun hbin => by
          have := h.all P hP
          rw [hI, hbin] at this
          cases this
        simp only [hmap, true_iff]
        exact fun heq => hnil (Trie.isNil_iff.mpr heq)
    · rw [update_of_ne hi, ← h.map_iff]
      split_ifs
      · simp [getLsbD_clearBit, hi]
      · rfl
  · by_cases hi : i = I
    · rw [hi, update_self]
      exact Trie.nodup_remove (h.nodup _)
    · rw [update_of_ne hi]
      exact h.nodup i
  · by_cases hi : i = I
    · subst hi
      rw [update_self, Trie.mem_remove (h.nodup _)] at hp
      exact ⟨⟨(h.bin i p hp.1).1, hp.2⟩, (h.bin i p hp.1).2⟩
    · rw [update_of_ne hi] at hp
      obtain ⟨h1, h2⟩ := h.bin i p hp
      refine ⟨⟨h1, ?_⟩, h2⟩
      rintro rfl
      exact hi (h2.symm.trans hI)
  · have hmem := h.all p hp
    by_cases hi : treeIndex (size p) = I
    · rw [hi] at hmem ⊢
      rw [update_self, Trie.mem_remove (h.nodup _)]
      exact ⟨hmem, hne⟩
    · rwa [update_of_ne hi]
  · by_cases hi' : i = I
    · rw [hi', update_self]
      exact (h.ordered hb _ (hi' ▸ hi)).remove P
    · rw [update_of_ne hi']
      exact h.ordered hb i hi

end

/-! ### All bins -/

section
variable {b : Bins}

/-- the chunks of a set for which C holds, without one of them or with one more -/
theorem sep_diff {C : ℕ → Prop} : {p ∈ free \ {P} | C p} = {p ∈ free | C p} \ {P} := by
  ext p
  simp only [Set.mem_ofPred_eq, Set.mem_sdiff, Set.mem_singleton_iff]
  tauto

theorem sep_diff_of_not {C : ℕ → Prop} (h : ¬ C P) : {p ∈ free \ {P} | C p} = {p ∈ free | C p} := by
  rw [sep_diff, Set.sdiff_singleton_eq_self fun hP => h hP.2]

theorem sep_insert {C : ℕ → Prop} (h : C P) : {p ∈ insert P free | C p} = insert P {p ∈ free | C p} := by
  ext p
  simp only [Set.mem_ofPred_eq, Set.mem_insert_iff]
  constructor
  · rintro ⟨rfl | hp, hc⟩
    · exact .inl rfl
    · exact .inr ⟨hp, hc⟩
  · rintro (rfl | ⟨hp, hc⟩)
    · exact ⟨.inl rfl, h⟩
    · exact ⟨.inr hp, hc⟩

theorem sep_insert_of_not {C : ℕ → Prop} (h : ¬ C P) : {p ∈ insert P free | C p} = {p ∈ free | C p} := by
  ext p
  simp only [Set.mem_ofPred_eq, Set.mem_insert_iff]
  constructor
  · rintro ⟨rfl | hp, hc⟩
    · exact absurd hc h
    · exact ⟨hp, hc⟩
  · rintro ⟨hp, hc⟩
    exact ⟨.inr hp, hc⟩

theorem sep_congr (heq : ∀ p ∈ free, size' p = size p) {C : ℕ → Prop} :
    {p ∈ free | C (size' p)} = {p ∈ free | C (size p)} := by
  ext p
  simp only [Set.mem_ofPred_eq, and_congr_right_iff]
  intro hp
  rw [heq p hp]

theorem Binned.congr (h : Binned bound size free b) (heq : ∀ p ∈ free, size' p = size p) : Binned bound size' free b := by
  constructor
  · rw [sep_congr heq (C := fun s => is_small s)]
    exact h.small.congr fun p hp => heq p hp.1
  · rw [sep_congr heq (C := fun s => ¬ is_small s)]
    exact h.tree.congr fun p hp => heq p hp.1

theorem binned_empty : Binned bound size ∅ .empty := by
  have hmap : ∀ i, ¬ (0 : BinMap).getLsbD i = true := fun i => by simp
  have hnone : ∀ p, ¬ p ∈ {p ∈ (∅ : Set ℕ) | is_small (size p)} := fun p hp => hp.1
  have hnone' : ∀ p, ¬ p ∈ {p ∈ (∅ : Set ℕ) | ¬ is_small (size p)} := fun p hp => hp.1
  refine ⟨⟨fun i hi => absurd hi (hmap i), fun p hp => absurd hp (hnone p)⟩, ?_, ?_, ?_, ?_, ?_, ?_, ?_⟩
  · exact fun i => ⟨fun hi => absurd hi (hmap i), fun hi => absurd rfl hi⟩
  · exact fun i => List.nodup_nil
  · exact fun i p hp => absurd hp List.not_mem_nil
  · exact fun p hp => absurd hp (hnone' p)
  · exact fun p hp => absurd hp (hnone' p)
  · exact fun p hp => absurd hp (hnone' p)
  · exact fun _ i _ => Trie.ordered_nil

/-- a bit that is set is not changed -/
theorem setBit_of_set {map : BinMap} (h : map.getLsbD i = true) : setBit map i = map := by
  apply BitVec.eq_of_getLsbD_eq
  intro j hj
  rw [getLsbD_setBit]
  by_cases hji : j = i
  · rw [hji, h, Bool.true_or]
  · simp [hji]

/-- a chunk enters a small bin -/
theorem Binned.insert_small (h : Binned bound size free b) (hP : P ∉ free) (hS : size P = S) (h8 : 8 ∣ S)
    (hsmall : is_small S = true) :
    Binned bound size (insert P free)
      { b with smallmap := setBit b.smallmap (small_index S),
               smallbins := update b.smallbins (small_index S)
                 (if b.smallmap.getLsbD (small_index S) = false then [P] else P :: b.smallbins (small_index S)) } := by
  have hsP : is_small (size P) = true := by rwa [hS]
  constructor
  · rw [sep_insert (C := fun p => is_small (size p)) hsP]
    exact h.small.insert (fun hmem => hP hmem.1) hS (small_size_index h8) (small_index_lt hsmall)
  · rw [sep_insert_of_not (C := fun p => ¬ is_small (size p)) (P := P) (not_not.mpr hsP)]
    exact h.tree

/-- a chunk enters a tree bin -/
theorem Binned.insert_large (h : Binned bound size free b) (hP : P ∉ free) (hS : size P = S) (hle : S ≤ bound)
    (hlarge : ¬ is_small S = true) :
    Binned bound size (insert P free)
      { b with treemap := setBit b.treemap (treeIndex S),
               treebins := update b.treebins (treeIndex S)
                 (insertTree size P S (BitVec.ofNat 64 (S <<< leftshift (treeIndex S))) (b.treebins (treeIndex S))) } := by
  have hsP : ¬ is_small (size P) = true := by rwa [hS]
  constructor
  · rw [sep_insert_of_not (C := fun p => is_small (size p)) (P := P) hsP]
    exact h.small
  · rw [sep_insert (C := fun p => ¬ is_small (size p)) hsP]
    refine h.tree.insert (fun hmem => hP hmem.1) hS ?_ hle
    rw [is_small_iff] at hlarge
    exact not_lt.mp hlarge

/-- a chunk leaves a small bin -/
theorem Binned.remove_small (h : Binned bound size free b) (hP : P ∈ free) (hS : size P = S) (hsmall : is_small S = true) :
    Binned bound size (free \ {P})
      { b with smallmap := if b.smallbins (small_index S) = [P] then clearBit b.smallmap (small_index S) else b.smallmap,
               smallbins := if b.smallbins (small_index S) = [P] then b.smallbins
                 else update b.smallbins (small_index S) ((b.smallbins (small_index S)).erase P) } := by
  subst hS
  constructor
  · rw [sep_diff]
    exact h.small.remove ⟨hP, hsmall⟩ rfl
  · rw [sep_diff_of_not (C := fun p => ¬ is_small (size p)) (P := P) (not_not.mpr hsmall)]
    exact h.tree

/-- a chunk leaves a tree bin -/
theorem Binned.remove_large (h : Binned bound size free b) (hP : P ∈ free) (hS : size P = S)
    (hlarge : ¬ is_small S = true) :
    Binned bound size (free \ {P})
      { b with treemap := if ((b.treebins (treeIndex S)).remove P).isNil then clearBit b.treemap (treeIndex S)
                 else b.treemap,
               treebins := update b.treebins (treeIndex S) ((b.treebins (treeIndex S)).remove P) } := by
  subst hS
  constructor
  · rw [sep_diff_of_not (C := fun p => is_small (size p)) (P := P) hlarge]
    exact h.small
  · rw [sep_diff]
    exact h.tree.remove ⟨hP, hlarge⟩ rfl

end

end

end SandiaShmem.Heap
