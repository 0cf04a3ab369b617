/-
The searches in the tree bins (`tmalloc_large` and `tmalloc_small` in `src/malloc.c`): down the tree that is in memory, they
find what a search in the trie finds.

- `findLarge`, `findSmall`: the loops, on the links in memory.
- `Bins.bestLarge`, `Bins.bestSmall`: the searches in the tries.
- `findLarge_eq`, `findSmall_eq`: the loops end, and they are the same.
- `bestLarge_best`, `bestSmall_best`: what is found is a best fit.
-/
import SandiaShmem.Heap.Inv

namespace SandiaShmem.Heap

open BitScan BitTrie LinkedTrie Blocks

/-! ## Model -/

def leftmost_child (mem : Mem) (t : ℕ) : ℕ :=
  if link mem (.child false) t ≠ 0 then link mem (.child false) t else link mem (.child true) t

/-- `if (trem < rsize) { rsize = trem; v = t; }`, on v and rsize -/
def considerPtr (mem : Mem) (nb t : ℕ) (best : ℕ × ℕ) : ℕ × ℕ :=
  let trem := sub (chunksize mem t) nb
  if trem < best.2 then (t, trem) else best

/-- the second loop of `tmalloc_large`, and the loop of `tmalloc_small` -/
def leftmostLoop (mem : Mem) (nb : ℕ) : ℕ → ℕ → ℕ × ℕ → Except Stop (ℕ × ℕ)
  | 0, t, best => if t = 0 then .ok best else .error .running
  | fuel + 1, t, best =>
    if t = 0 then .ok best else leftmostLoop mem nb fuel (leftmost_child mem t) (considerPtr mem nb t best)

/-- the first loop of `tmalloc_large`: v and rsize, and where the second loop starts -/
def descendLoop (mem : Mem) (nb : ℕ) : ℕ → ℕ → BitVec 64 → ℕ × ℕ → ℕ → Except Stop ((ℕ × ℕ) × ℕ)
  | 0, _, _, _, _ => .error .running
  | fuel + 1, t, sizebits, best, rst =>
    if sub (chunksize mem t) nb < best.2 ∧ sub (chunksize mem t) nb = 0 then .ok ((t, 0), t)
    else
      let best := considerPtr mem nb t best
      let rt := link mem (.child true) t
      let t := link mem (.child sizebits.msb) t
      let rst := if rt ≠ 0 ∧ rt ≠ t then rt else rst
      if t = 0 then .ok (best, rst) else descendLoop mem nb fuel t (sizebits <<< 1) best rst

/-- the root of the next tree bin that is not empty -/
def nextTree (Y : Sys) (s : MState) (idx : ℕ) : ℕ :=
  let leftbits := leftBits (single 32 idx) &&& s.treemap
  if leftbits ≠ 0 then s.mem (treebin_at Y (ctz (leastBit leftbits))) else 0

/-- the first loop, if the bin for the request is not empty -/
def searchBin (Y : Sys) (s : MState) (nb idx : ℕ) : Except Stop ((ℕ × ℕ) × ℕ) :=
  let t := s.mem (treebin_at Y idx)
  if t ≠ 0 then descendLoop s.mem nb s.footprint t (BitVec.ofNat 64 (nb <<< leftshift idx)) (0, sub 0 nb) 0
  else .ok ((0, sub 0 nb), 0)

/-- the search of `tmalloc_large`: v and rsize -/
def findLarge (Y : Sys) (s : MState) (nb : ℕ) : Except Stop (ℕ × ℕ) := do
  let idx := treeIndex nb
  let (best, t) ← searchBin Y s nb idx
  let t := if t = 0 ∧ best.1 = 0 then nextTree Y s idx else t
  leftmostLoop s.mem nb s.footprint t best

/-- the search of `tmalloc_small` -/
def findSmall (Y : Sys) (s : MState) (nb : ℕ) : Except Stop (ℕ × ℕ) :=
  let t := s.mem (treebin_at Y (ctz (leastBit s.treemap)))
  leftmostLoop s.mem nb s.footprint (leftmost_child s.mem t) (t, sub (chunksize s.mem t) nb)

/-! ## Searches in tries -/

/-- the next trie that is not empty -/
def Bins.next (b : Bins) (idx : ℕ) : Trie ℕ :=
  let leftbits := leftBits (single 32 idx) &&& b.treemap
  if leftbits ≠ 0 then b.treebins (ctz (leastBit leftbits)) else .nil

def Bins.bestLarge (b : Bins) (size : ℕ → ℕ) (nb : ℕ) : Fit :=
  let idx := treeIndex nb
  let (best, t) := descend size nb (BitVec.ofNat 64 (nb <<< leftshift idx)) (b.treebins idx) (none, sub 0 nb) .nil
  let t := if t.isNil ∧ best.1 = none then b.next idx else t
  leftmost size nb t best

def Bins.bestSmall (b : Bins) (size : ℕ → ℕ) (nb : ℕ) : Fit :=
  leftmost size nb (b.treebins (ctz (leastBit b.treemap))) (none, sub 0 nb)

/-- none is 0 -/
def Fit.ptr (best : Fit) : ℕ × ℕ := (best.1.getD 0, best.2)

/-! ## The loops -/

section
variable {mem : Mem} {nb p v fuel : ℕ} {U R : Trie ℕ} {best : Fit} {K : BitVec 64}

theorem considerPtr_eq (mem : Mem) (nb t : ℕ) (best : Fit) :
    considerPtr mem nb t best.ptr = (consider (chunksize mem) nb t best).ptr := by
  unfold considerPtr consider Fit.ptr
  generalize sub (chunksize mem t) nb = trem
  by_cases hlt : trem < best.2
  · simp only [if_pos hlt, Option.getD_some]
  · simp only [if_neg hlt]

/-- a loop down the first children -/
theorem leftmostLoop_spec (h : Linked (link mem) p U) (h0 : 0 ∉ U.toList) (hfuel : U.toList.length ≤ fuel) :
    leftmostLoop mem nb fuel (ptr U) best.ptr = .ok (leftmost (chunksize mem) nb U best).ptr := by
  induction U generalizing p fuel best with
  | nil =>
    have hptr : ptr (Trie.nil : Trie ℕ) = 0 := rfl
    cases fuel <;> rw [hptr, leftmostLoop, if_pos rfl, leftmost]
  | node t chain l r ihl ihr =>
    obtain ⟨⟨-, hl, hr, -⟩, hLl, hLr⟩ := h
    simp only [Trie.toList, List.mem_cons, List.mem_append, not_or, List.length_cons, List.length_append] at h0 hfuel
    obtain ⟨n, rfl⟩ : ∃ n, fuel = n + 1 := Nat.exists_eq_succ_of_ne_zero (by omega)
    rw [ptr, leftmostLoop, if_neg (Ne.symm h0.1), considerPtr_eq, leftmost, leftmost_child, hl, hr]
    by_cases hln : l = .nil
    · subst hln
      have hnil : (Trie.nil : Trie ℕ).isNil = true := rfl
      rw [if_neg (by simp [ptr]), if_pos hnil]
      exact ihr hLr h0.2.2.2 (by omega)
    · rw [if_pos fun heq => hln ((ptr_eq_zero h0.2.2.1).mp heq), if_neg fun hnil => hln (Trie.isNil_iff.mp hnil)]
      exact ihl hLl h0.2.2.1 (by omega)

/-- the loop down the digits of the request -/
theorem descendLoop_spec (nb fuel : ℕ) (K : BitVec 64) (best : Fit) (R : Trie ℕ) (h : Linked (link mem) p U)
    (h0 : 0 ∉ U.toList) (hnodup : U.toList.Nodup) (hne : U ≠ .nil) (hfuel : U.toList.length ≤ fuel) :
    descendLoop mem nb fuel (ptr U) K best.ptr (ptr R) =
      .ok ((descend (chunksize mem) nb K U best R).1.ptr, ptr (descend (chunksize mem) nb K U best R).2) := by
  induction U generalizing p fuel best K R with
  | nil => exact absurd rfl hne
  | node t chain l r ihl ihr =>
    obtain ⟨⟨-, hl, hr, -⟩, hLl, hLr⟩ := h
    simp only [Trie.toList, List.mem_cons, List.mem_append, not_or, List.length_cons, List.length_append] at h0 hfuel
    simp only [Trie.toList, List.nodup_cons, List.nodup_append, List.mem_append] at hnodup
    obtain ⟨-, -, ⟨hln, hrn, hlr⟩, -⟩ := hnodup
    obtain ⟨n, rfl⟩ : ∃ n, fuel = n + 1 := Nat.exists_eq_succ_of_ne_zero (by omega)
    rw [ptr, descendLoop, descend, considerPtr_eq]
    have hsnd : best.ptr.2 = best.2 := rfl
    rw [hsnd]
    by_cases hexact : sub (chunksize mem t) nb < best.2 ∧ sub (chunksize mem t) nb = 0
    · rw [if_pos hexact, if_pos hexact]
      rfl
    rw [if_neg hexact, if_neg hexact]
    -- a child is not there, or the loop goes on with it
    have hstep : ∀ (V R' : Trie ℕ), 0 ∉ V.toList → (V ≠ .nil →
          descendLoop mem nb n (ptr V) (K <<< 1) (consider (chunksize mem) nb t best).ptr (ptr R') =
            .ok ((descend (chunksize mem) nb (K <<< 1) V (consider (chunksize mem) nb t best) R').1.ptr,
              ptr (descend (chunksize mem) nb (K <<< 1) V (consider (chunksize mem) nb t best) R').2)) →
        (if ptr V = 0 then .ok ((consider (chunksize mem) nb t best).ptr, ptr R')
          else descendLoop mem nb n (ptr V) (K <<< 1) (consider (chunksize mem) nb t best).ptr (ptr R')) =
          Except.ok ((descend (chunksize mem) nb (K <<< 1) V (consider (chunksize mem) nb t best) R').1.ptr,
            ptr (descend (chunksize mem) nb (K <<< 1) V (consider (chunksize mem) nb t best) R').2) := by
      intro V R' h0V ih
      by_cases hnil : V = .nil
      · subst hnil
        have hptr : ptr (Trie.nil : Trie ℕ) = 0 := rfl
        rw [hptr, if_pos rfl, descend]
      · rw [if_neg fun heq => hnil ((ptr_eq_zero h0V).mp heq)]
        exact ih hnil
    simp only [hr]
    by_cases hmsb : K.msb = true
    · simp only [hmsb, hr, ne_eq, not_true_eq_false, and_false, if_false, if_true]
      exact hstep r R h0.2.2.2 fun hn => ihr n _ _ _ hLr h0.2.2.2 hrn hn (by omega)
    · have hrst : (if ptr r ≠ 0 ∧ ptr r ≠ ptr l then ptr r else ptr R) = ptr (if r.isNil then R else r) := by
        by_cases hnil : r = .nil
        · subst hnil
          rfl
        · have hr0 : ptr r ≠ 0 := fun heq => hnil ((ptr_eq_zero h0.2.2.2).mp heq)
          have hne' : ptr r ≠ ptr l := fun heq => hlr _ (ptr_mem (heq ▸ hr0)) _ (ptr_mem hr0) heq.symm
          rw [if_neg fun hn => hnil (Trie.isNil_iff.mp hn), if_pos ⟨hr0, hne'⟩]
      simp only [Bool.of_not_eq_true hmsb, hl, Bool.false_eq_true, if_false]
      rw [hrst]
      exact hstep l _ h0.2.2.1 fun hn => ihl n _ _ _ hLl h0.2.2.1 hln hn (by omega)

/-- the children of a trie in memory -/
theorem child_part (t : ℕ) (chain : List ℕ) (l r : Trie ℕ)
    (h : (Trie.node t chain l r).toList.Nodup ∧ ∃ p, Linked (link mem) p (.node t chain l r)) :
    (l.toList.Nodup ∧ ∃ p, Linked (link mem) p l) ∧ r.toList.Nodup ∧ ∃ p, Linked (link mem) p r := by
  obtain ⟨hnodup, p, -, hLl, hLr⟩ := h
  simp only [Trie.toList, List.nodup_cons, List.nodup_append] at hnodup
  exact ⟨⟨hnodup.2.2.1.1, t, hLl⟩, hnodup.2.2.1.2.1, t, hLr⟩

/-- where the second loop starts is a part of the trie -/
theorem descend_rest {C : Trie ℕ → Prop} (size : ℕ → ℕ) (nb : ℕ) (K : BitVec 64) (best : Fit)
    (hC : ∀ t chain l r, C (.node t chain l r) → C l ∧ C r) (hU : C U)
    (hR : C R) : C (descend size nb K U best R).2 := by
  induction U generalizing K best R with
  | nil => exact hR
  | node t chain l r ihl ihr =>
    obtain ⟨hl, hr⟩ := hC t chain l r hU
    rw [descend]
    split_ifs
    · exact hU
    · exact ihr _ _ hr hR
    · exact ihl _ _ hl hR
    · exact ihl _ _ hl hr

end

/-! ## Chunks in tree bins -/

section
variable {Y : Sys} {s : MState} {bs : List (ℕ × Tag)} {p nb i idx : ℕ} {b : Bins}

/-- b is what the bins hold between calls -/
abbrev BinsOf (Y : Sys) (s : MState) (bs : List (ℕ × Tag)) (b : Bins) : Prop := HasBins Y s (frees Y.base bs \ {s.dv}) b

/-- the chunks in tree bins -/
def Large (Y : Sys) (s : MState) (bs : List (ℕ × Tag)) (q : ℕ) : Prop :=
  q ∈ frees Y.base bs \ {s.dv} ∧ MIN_LARGE_SIZE ≤ chunksize s.mem q

theorem HasBins.large_mem (hb : BinsOf Y s bs b) (hp : p ∈ (b.treebins i).toList) :
    Large Y s bs p ∧ treeIndex (chunksize s.mem p) = i := by
  obtain ⟨⟨hfree, hsmall⟩, hidx⟩ := hb.binned.tree.bin i p hp
  rw [is_small_iff, not_lt] at hsmall
  exact ⟨⟨hfree, hsmall⟩, hidx⟩

theorem HasBins.mem_large (hb : BinsOf Y s bs b) (hp : Large Y s bs p) :
    p ∈ (b.treebins (treeIndex (chunksize s.mem p))).toList :=
  hb.binned.tree.all p ⟨hp.1, by rw [is_small_iff]; exact not_lt.mpr hp.2⟩

theorem Inv.large_lt (h : Inv Y s bs) (hp : Large Y s bs p) : chunksize s.mem p ≤ Y.length :=
  h.free_le (h.free_size hp.1.1)

/-- the lowest tree bin that is not empty, as the map has it -/
theorem HasBins.tree_first (hb : BinsOf Y s bs b) (hmap : b.treemap ≠ 0) :
    ctz (leastBit b.treemap) < NTREEBINS ∧ b.treebins (ctz (leastBit b.treemap)) ≠ .nil ∧
      ∀ j < ctz (leastBit b.treemap), b.treebins j = .nil := by
  obtain ⟨j, -, hj⟩ := exists_of_ne_zero hmap
  obtain ⟨hc, hlow⟩ := scan_spec hj
  refine ⟨BitVec.lt_of_getLsbD hc, (hb.binned.tree.map_iff _).mp hc, fun k hk => ?_⟩
  by_contra hne
  have hmark := (hb.binned.tree.map_iff k).mpr hne
  rw [hlow k hk] at hmark
  cases hmark

/-- `tmalloc_small` starts with the root of the bin -/
theorem findSmall_eq (h : Inv Y s bs) (hb : BinsOf Y s bs b) (hmap : b.treemap ≠ 0) (hnb : nb ≤ MIN_LARGE_SIZE)
    (hpos : 0 < nb) : findSmall Y s nb = .ok (b.bestSmall (chunksize s.mem) nb).ptr := by
  have hbound := Y.bound'
  obtain ⟨hi32, hne, -⟩ := hb.tree_first hmap
  unfold findSmall Bins.bestSmall
  rw [← hb.treemap]
  generalize ctz (leastBit b.treemap) = i at hi32 hne ⊢
  have hlinked := hb.memory.tree i hi32
  rw [hb.memory.root i hi32]
  have hmem : ∀ p ∈ (b.treebins i).toList, Large Y s bs p := fun p hp => (hb.large_mem hp).1
  have hnodup := hb.binned.tree.nodup i
  generalize b.treebins i = T at hne hlinked hmem hnodup ⊢
  have h0 : 0 ∉ T.toList := fun hz => h.zero_notMem (hmem 0 hz).1.1
  have hlen := h.nodes_frees.length_le hnodup fun q hq => (hmem q hq).1.1
  cases T with
  | nil => exact absurd rfl hne
  | node t chain l r =>
    obtain ⟨⟨-, hl, hr, -⟩, hLl, hLr⟩ := hlinked
    have hlarge := hmem t (by simp [Trie.toList])
    have hle := h.large_lt hlarge
    have hge := hlarge.2
    unfold MIN_LARGE_SIZE at hge hnb
    have hcons : consider (chunksize s.mem) nb t (none, sub 0 nb) = (some t, sub (chunksize s.mem t) nb) := by
      have hlt : sub (chunksize s.mem t) nb < sub 0 nb := by
        rw [sub_of_le (by omega) (by omega), sub_of_lt hpos (by omega)]
        omega
      unfold consider
      rw [if_pos hlt]
    simp only [Trie.toList, List.mem_cons, List.mem_append, not_or, List.length_cons, List.length_append] at h0 hlen
    have hbest : (t, sub (chunksize s.mem t) nb) = Fit.ptr (some t, sub (chunksize s.mem t) nb) := rfl
    rw [leftmost, hcons, ptr]
    dsimp only
    rw [hbest, leftmost_child, hl, hr]
    by_cases hln : l = .nil
    · subst hln
      have hnil : (Trie.nil : Trie ℕ).isNil = true := rfl
      rw [if_neg (by simp [ptr]), if_pos hnil]
      exact leftmostLoop_spec hLr h0.2.2.2 (by omega)
    · rw [if_pos fun heq => hln ((ptr_eq_zero h0.2.2.1).mp heq), if_neg fun hnil => hln (Trie.isNil_iff.mp hnil)]
      exact leftmostLoop_spec hLl h0.2.2.1 (by omega)

/-- the two loops of `tmalloc_large` -/
theorem findLarge_eq (h : Inv Y s bs) (hb : BinsOf Y s bs b) (hpos : 0 < nb) (hlt : nb < 2 ^ 64) :
    findLarge Y s nb = .ok (b.bestLarge (chunksize s.mem) nb).ptr := by
  have hroot : ∀ i < 32, s.mem (treebin_at Y i) = ptr (b.treebins i) := fun i hi => hb.memory.root i hi
  have h0 : ∀ i, 0 ∉ (b.treebins i).toList := fun i hz => h.zero_notMem (hb.large_mem hz).1.1.1
  have hlen : ∀ i, (b.treebins i).toList.Nodup ∧ (b.treebins i).toList.length ≤ s.footprint := fun i =>
    ⟨hb.binned.tree.nodup i, h.nodes_frees.length_le (hb.binned.tree.nodup i) fun q hq => (hb.large_mem hq).1.1.1⟩
  have hidx := treeIndex_lt nb
  have hnext : nextTree Y s (treeIndex nb) = ptr (b.next (treeIndex nb)) := by
    unfold nextTree Bins.next
    simp only [← hb.treemap]
    by_cases hbits : leftBits (single 32 (treeIndex nb)) &&& b.treemap ≠ 0
    · obtain ⟨j, -, hj⟩ := exists_of_ne_zero hbits
      have hscan := (scan_spec hj).1
      rw [if_pos hbits, if_pos hbits, hroot _ (BitVec.lt_of_getLsbD hscan)]
    · rw [if_neg hbits, if_neg hbits]
      rfl
  have hbound := Y.bound'
  have hsize : ∀ x ∈ (b.treebins (treeIndex nb)).toList, chunksize s.mem x < 2 ^ 64 := fun x hx => by
    have := h.large_lt (hb.large_mem hx).1
    omega
  have hfirst := descendLoop_spec nb s.footprint (BitVec.ofNat 64 (nb <<< leftshift (treeIndex nb))) (none, sub 0 nb) .nil
    (hb.memory.tree _ hidx) (h0 (treeIndex nb)) (hlen (treeIndex nb)).1
  obtain ⟨hbest, hrest⟩ := descend_seen (BitVec.ofNat 64 (nb <<< leftshift (treeIndex nb))) .nil
    (best_start (chunksize s.mem) hpos hlt) hsize hlt
  have hpart := descend_rest (R := .nil) (C := fun T => T.toList.Nodup ∧ ∃ p, Linked (link s.mem) p T) (chunksize s.mem) nb
    (BitVec.ofNat 64 (nb <<< leftshift (treeIndex nb))) (none, sub 0 nb) child_part
    ⟨(hlen (treeIndex nb)).1, _, hb.memory.tree _ hidx⟩ ⟨List.nodup_nil, 0, trivial⟩
  unfold findLarge Bins.bestLarge
  simp only [hnext]
  generalize hd : descend (chunksize s.mem) nb (BitVec.ofNat 64 (nb <<< leftshift (treeIndex nb)))
    (b.treebins (treeIndex nb)) (none, sub 0 nb) .nil = d at hbest hrest hfirst hpart ⊢
  -- the first loop
  have hstage : searchBin Y s nb (treeIndex nb) = .ok (d.1.ptr, ptr d.2) := by
    unfold searchBin
    simp only [hroot _ hidx]
    by_cases hnil : b.treebins (treeIndex nb) = .nil
    · rw [hnil, descend] at hd
      rw [hnil, ← hd, if_neg (by simp [ptr])]
      rfl
    · rw [if_pos fun heq => hnil ((ptr_eq_zero (h0 _)).mp heq)]
      exact hfirst hnil (hlen _).2
  -- where the second one starts
  have h0d : 0 ∉ d.2.toList := fun hz => (hrest 0 hz).elim (h0 _) (by simp [Trie.toList])
  have hzero : (ptr d.2 = 0 ∧ d.1.ptr.1 = 0) ↔ (d.2.isNil = true ∧ d.1.1 = none) := by
    rw [ptr_eq_zero h0d, Trie.isNil_iff]
    refine and_congr_right fun _ => ?_
    cases hv : d.1.1 with
    | none => simp [Fit.ptr, hv]
    | some v =>
      obtain ⟨hmem, -⟩ := hbest.some v hv
      have hv0 : v ≠ 0 := by
        rintro rfl
        exact h0 _ (path_subset 0 (hmem.resolve_left id))
      simp [Fit.ptr, hv, hv0]
  have hsecond : ∀ T : Trie ℕ, (T.toList.Nodup ∧ ∃ p, Linked (link s.mem) p T) → (∀ q ∈ T.toList, q ∈ frees Y.base bs) →
      leftmostLoop s.mem nb s.footprint (ptr T) d.1.ptr = .ok (leftmost (chunksize s.mem) nb T d.1).ptr := by
    rintro T ⟨hnodup, p, hlinked⟩ hT
    exact leftmostLoop_spec hlinked (fun hz => h.zero_notMem (hT 0 hz)) (h.nodes_frees.length_le hnodup hT)
  rw [hstage]
  simp only [bind, Except.bind]
  by_cases hnone : d.2.isNil = true ∧ d.1.1 = none
  · rw [if_pos (hzero.mpr hnone), if_pos hnone]
    refine hsecond _ ?_ ?_
    · unfold Bins.next
      simp only
      split_ifs with hbits
      · obtain ⟨j, -, hj⟩ := exists_of_ne_zero hbits
        exact ⟨(hlen _).1, _, hb.memory.tree _ (BitVec.lt_of_getLsbD (scan_spec hj).1)⟩
      · exact ⟨List.nodup_nil, 0, trivial⟩
    · unfold Bins.next
      simp only
      split_ifs with hbits
      · exact fun q hq => (hb.large_mem hq).1.1.1
      · exact fun q hq => absurd hq List.not_mem_nil
  · rw [if_neg fun hz => hnone (hzero.mp hz), if_neg hnone]
    exact hsecond _ hpart fun q hq => (hb.large_mem ((hrest q hq).resolve_right (by simp [Trie.toList]))).1.1.1

/-- `tmalloc_small` finds a chunk -/
theorem bestSmall_spec (h : Inv Y s bs) (hb : BinsOf Y s bs b) (hmap : b.treemap ≠ 0) (hnb : nb ≤ MIN_LARGE_SIZE)
    (hpos : 0 < nb) :
    ∃ v rsize, b.bestSmall (chunksize s.mem) nb = (some v, rsize) ∧ Large Y s bs v ∧ nb + rsize = chunksize s.mem v := by
  have hbound := Y.bound'
  unfold MIN_LARGE_SIZE at hnb
  obtain ⟨-, hne, -⟩ := hb.tree_first hmap
  unfold Bins.bestSmall
  have hbest := leftmost_spec (T := b.treebins (ctz (leastBit b.treemap)))
    (best_start (chunksize s.mem) hpos (by omega)) (fun x hx => by have := h.large_lt (hb.large_mem hx).1; omega) (by omega)
  generalize leftmost (chunksize s.mem) nb (b.treebins (ctz (leastBit b.treemap))) (none, sub 0 nb) = best at hbest
  obtain ⟨v, rsize⟩ := best
  cases v with
  | none =>
    cases hT : b.treebins (ctz (leastBit b.treemap)) with
    | nil => exact absurd hT hne
    | node t chain l r =>
      have hsize := (hb.large_mem (p := t) (i := ctz (leastBit b.treemap)) (by rw [hT]; simp [Trie.toList])).1.2
      have hlt := (hbest.none rfl).2 t (.inr (by rw [hT]; simp [Trie.leftPath]))
      unfold MIN_LARGE_SIZE at hsize
      omega
  | some v =>
    obtain ⟨hv, hr, -, -⟩ := hbest.some v rfl
    exact ⟨v, rsize, rfl, (hb.large_mem (Trie.leftPath_subset v (hv.resolve_left id))).1, hr⟩

/-- what `tmalloc_large` finds is in a tree bin, and large enough -/
theorem bestLarge_spec (h : Inv Y s bs) (hb : BinsOf Y s bs b) (hpos : 0 < nb) (hlt : nb < 2 ^ 64) :
    ∀ v, (b.bestLarge (chunksize s.mem) nb).1 = some v →
      Large Y s bs v ∧ nb + (b.bestLarge (chunksize s.mem) nb).2 = chunksize s.mem v := by
  have hbound := Y.bound'
  intro v hv
  have hsize : ∀ i, ∀ x ∈ (b.treebins i).toList, chunksize s.mem x < 2 ^ 64 := fun i x hx => by
    have := h.large_lt (hb.large_mem hx).1
    omega
  unfold Bins.bestLarge at hv ⊢
  simp only at hv ⊢
  obtain ⟨hbest, hrest⟩ := descend_seen (BitVec.ofNat 64 (nb <<< leftshift (treeIndex nb))) .nil
    (best_start (chunksize s.mem) hpos hlt) (hsize (treeIndex nb)) hlt
  generalize descend (chunksize s.mem) nb (BitVec.ofNat 64 (nb <<< leftshift (treeIndex nb)))
    (b.treebins (treeIndex nb)) (none, sub 0 nb) .nil = d at hv hbest hrest ⊢
  have hsub : ∀ x ∈ (if d.2.isNil = true ∧ d.1.1 = none then b.next (treeIndex nb) else d.2).toList,
      ∃ i, x ∈ (b.treebins i).toList := by
    intro x hx
    split_ifs at hx
    · unfold Bins.next at hx
      simp only at hx
      split_ifs at hx
      · exact ⟨_, hx⟩
      · cases hx
    · exact ⟨_, (hrest x hx).resolve_right (by simp [Trie.toList])⟩
  have hbest' := leftmost_spec hbest (fun x hx => (hsub x hx).elim fun i hi => hsize i x hi) hlt
  obtain ⟨hP, hr, -, -⟩ := hbest'.some v hv
  refine ⟨?_, hr⟩
  rcases hP with (hfalse | hpath) | hleft
  · exact hfalse.elim
  · exact (hb.large_mem (path_subset v hpath)).1
  · obtain ⟨i, hi⟩ := hsub v (Trie.leftPath_subset v hleft)
    exact (hb.large_mem hi).1

/-- no chunk is in a tree bin -/
theorem HasBins.large_none (hb : BinsOf Y s bs b) (hmap : b.treemap = 0) : ∀ q, ¬ Large Y s bs q := by
  intro q hq
  have hmem := hb.mem_large hq
  have hnil : b.treebins (treeIndex (chunksize s.mem q)) = .nil := by
    by_contra hne
    have hmark := (hb.binned.tree.map_iff _).mpr hne
    rw [hmap] at hmark
    simp at hmark
  rw [hnil] at hmem
  cases hmem

end

/-! ## Best fit -/

section
variable {Y : Sys} {s : MState} {bs : List (ℕ × Tag)} {q nb idx : ℕ} {b : Bins}

/-- the next tree bin that is not empty, as the map has it -/
theorem HasBins.next_spec (hb : BinsOf Y s bs b) (idx : ℕ) :
    (∃ i, idx < i ∧ b.next idx = b.treebins i ∧ b.treebins i ≠ .nil ∧ i < NTREEBINS ∧
        ∀ j, idx < j → j < i → b.treebins j = .nil) ∨
      (b.next idx = .nil ∧ ∀ j, idx < j → b.treebins j = .nil) := by
  have hbit : ∀ j, (leftBits (single 32 idx) &&& b.treemap).getLsbD j = true ↔
      idx < j ∧ b.treebins j ≠ .nil := fun j => by
    rw [BitVec.getLsbD_and, Bool.and_eq_true, getLsbD_leftBits_single, hb.binned.tree.map_iff]
    constructor
    · exact fun h => ⟨h.1.1, h.2⟩
    · exact fun h => ⟨⟨h.1, BitVec.lt_of_getLsbD ((hb.binned.tree.map_iff j).mpr h.2)⟩, h.2⟩
  have hnone : ∀ j, (leftBits (single 32 idx) &&& b.treemap).getLsbD j = false → idx < j →
      b.treebins j = .nil := fun j hj hlt => by
    by_contra hne
    rw [(hbit j).mpr ⟨hlt, hne⟩] at hj
    cases hj
  unfold Bins.next
  simp only
  by_cases hbits : leftBits (single 32 idx) &&& b.treemap ≠ 0
  · obtain ⟨j, -, hj⟩ := exists_of_ne_zero hbits
    obtain ⟨hc, hlow⟩ := scan_spec hj
    obtain ⟨hlt, hne⟩ := (hbit _).mp hc
    rw [if_pos hbits]
    exact .inl ⟨_, hlt, rfl, hne, BitVec.lt_of_getLsbD hc, fun j h1 h2 => hnone j (hlow j h2) h1⟩
  · rw [if_neg hbits]
    refine .inr ⟨rfl, fun j hj => hnone j ?_ hj⟩
    rw [not_not.mp hbits]
    simp

theorem Inv.large_range (h : Inv Y s bs) (hlen : Y.length < 2 ^ 40) (hq : Large Y s bs q) :
    MIN_LARGE_SIZE ≤ chunksize s.mem q ∧ chunksize s.mem q < 2 ^ 40 :=
  ⟨hq.2, (h.large_lt hq).trans_lt hlen⟩

/-- a chunk of an earlier bin is smaller -/
theorem Inv.lt_of_index_lt {x y : ℕ} (h : Inv Y s bs) (hlen : Y.length < 2 ^ 40) (hx : Large Y s bs x) (hy : Large Y s bs y)
    (hlt : treeIndex (chunksize s.mem x) < treeIndex (chunksize s.mem y)) : chunksize s.mem x < chunksize s.mem y := by
  obtain ⟨hx1, hx2⟩ := h.large_range hlen hx
  obtain ⟨hy1, hy2⟩ := h.large_range hlen hy
  exact lt_of_treeIndex_lt hx1 hx2 hy1 hy2 hlt

/-- chunks that are large enough are in the bin of the request or in a later one -/
theorem Inv.index_le (h : Inv Y s bs) (hlen : Y.length < 2 ^ 40) (hmin : MIN_LARGE_SIZE ≤ nb) (hq : Large Y s bs q)
    (hle : nb ≤ chunksize s.mem q) : treeIndex nb ≤ treeIndex (chunksize s.mem q) := by
  by_contra hgt
  obtain ⟨h1, h2⟩ := h.large_range hlen hq
  have hsize := lt_of_treeIndex_lt h1 h2 hmin (hle.trans_lt h2) (not_le.mp hgt)
  omega

section
variable {best : Fit} {P : ℕ → Prop}

/-- the second loop when the bin of the request has no chunk that is large enough: in the next bin that is not empty -/
theorem next_best (h : Inv Y s bs) (hb : BinsOf Y s bs b) (hlen : Y.length < 2 ^ 40) (hmin : MIN_LARGE_SIZE ≤ nb)
    (hlt : nb < 2 ^ 64) (hbest : Best (chunksize s.mem) nb P best) (hP : ∀ x, P x → Large Y s bs x)
    (hno : nb < 2 ^ 40 → ∀ q ∈ (b.treebins (treeIndex nb)).toList, chunksize s.mem q < nb) :
    Best (chunksize s.mem) nb (Large Y s bs) (leftmost (chunksize s.mem) nb (b.next (treeIndex nb)) best) := by
  -- no chunk of the bin of the request, nor of an empty one
  have hnot : ∀ q, Large Y s bs q → nb ≤ chunksize s.mem q → (treeIndex nb < treeIndex (chunksize s.mem q) →
      b.treebins (treeIndex (chunksize s.mem q)) = .nil) → False := by
    intro q hq hle hnil
    have hqmem := hb.mem_large hq
    rcases (h.index_le hlen hmin hq hle).lt_or_eq with hgt | heq
    · rw [hnil hgt] at hqmem
      cases hqmem
    · rw [← heq] at hqmem
      have := hno (hle.trans_lt (h.large_range hlen hq).2) q hqmem
      omega
  rcases hb.next_spec (treeIndex nb) with ⟨i, hi, heq, hne, hi32, hbetween⟩ | ⟨heq, hnone⟩
  · rw [heq]
    have hsize : ∀ x ∈ (b.treebins i).toList, chunksize s.mem x < 2 ^ 64 := fun x hx => by
      have := (h.large_range hlen (hb.large_mem hx).1).2
      omega
    by_cases hsmall : nb < 2 ^ 40
    · have hge : ∀ x ∈ (b.treebins i).toList, nb ≤ chunksize s.mem x := fun x hx => by
        obtain ⟨hlx, hix⟩ := hb.large_mem hx
        obtain ⟨h1, h2⟩ := h.large_range hlen hlx
        exact (lt_of_treeIndex_lt hmin hsmall h1 h2 (hix ▸ hi)).le
      refine (leftmost_best hbest (hb.binned.tree.ordered hlen i hi32) (fun x hx => ⟨hsize x hx, hge x hx⟩) hlt).mono
        (fun x hx => hx.elim (hP x) fun hx => (hb.large_mem hx).1) fun q hq hle => ?_
      rcases lt_trichotomy (treeIndex (chunksize s.mem q)) i with hj | hj | hj
      · exact (hnot q hq hle fun hgt => hbetween _ hgt hj).elim
      · exact ⟨q, .inr (hj ▸ hb.mem_large hq), hle, le_refl _⟩
      · obtain ⟨t, ht⟩ := Trie.exists_mem hne
        obtain ⟨hlt', hit⟩ := hb.large_mem ht
        exact ⟨t, .inr ht, hge t ht, (h.lt_of_index_lt hlen hlt' hq (hit ▸ hj)).le⟩
    · refine (leftmost_spec hbest hsize hlt).mono
        (fun x hx => hx.elim (hP x) fun hx => (hb.large_mem (Trie.leftPath_subset x hx)).1) fun q hq hle => ?_
      have := (h.large_range hlen hq).2
      omega
  · rw [heq]
    exact hbest.mono hP fun q hq hle => (hnot q hq hle fun hgt => hnone _ hgt).elim

/-- the second loop when the bin of the request has a chunk that is large enough: in what the first loop has left -/
theorem rest_best {T : Trie ℕ} (h : Inv Y s bs) (hb : BinsOf Y s bs b) (hlen : Y.length < 2 ^ 40)
    (hmin : MIN_LARGE_SIZE ≤ nb) (hlt : nb < 2 ^ 64) (hbest : Best (chunksize s.mem) nb P best)
    (hP : ∀ x, P x → Large Y s bs x ∧ treeIndex (chunksize s.mem x) = treeIndex nb)
    (hT : ∀ x ∈ T.toList, Large Y s bs x ∧ treeIndex (chunksize s.mem x) = treeIndex nb)
    (hfirst : ¬ (T.isNil = true ∧ best.1 = none))
    (hcovers : nb < 2 ^ 40 → (∃ t, P t ∧ chunksize s.mem t = nb) ∨ Rest (chunksize s.mem) nb T ∧
      ∀ q ∈ (b.treebins (treeIndex nb)).toList, nb ≤ chunksize s.mem q →
        ∃ y, (P y ∨ y ∈ T.toList) ∧ nb ≤ chunksize s.mem y ∧ chunksize s.mem y ≤ chunksize s.mem q) :
    Best (chunksize s.mem) nb (Large Y s bs) (leftmost (chunksize s.mem) nb T best) := by
  have hsize : ∀ x ∈ T.toList, chunksize s.mem x < 2 ^ 64 := fun x hx => by
    have := (h.large_range hlen (hT x hx).1).2
    omega
  have hleft := leftmost_spec hbest hsize hlt
  have hsub : ∀ x, P x ∨ x ∈ T.leftPath → Large Y s bs x := fun x hx =>
    hx.elim (fun hx => (hP x hx).1) fun hx => (hT x (Trie.leftPath_subset x hx)).1
  by_cases hsmall : nb < 2 ^ 40
  · rcases hcovers hsmall with ⟨t, ht, heq⟩ | ⟨hres, hcov⟩
    · exact hleft.mono hsub fun q hq hle => ⟨t, .inl ht, heq.ge, heq.le.trans hle⟩
    · obtain ⟨lo, k, ho⟩ := hres.ordered
      have hex : ∃ y, (P y ∨ y ∈ T.toList) ∧ nb ≤ chunksize s.mem y := by
        by_cases hnil : T = .nil
        · obtain ⟨v, hv⟩ := Option.ne_none_iff_exists'.mp fun hn => hfirst ⟨Trie.isNil_iff.mpr hnil, hn⟩
          obtain ⟨hv, hr, -, -⟩ := hbest.some v hv
          exact ⟨v, .inl hv, by omega⟩
        · obtain ⟨t, ht⟩ := Trie.exists_mem hnil
          exact ⟨t, .inr ht, hres.large t ht⟩
      refine (leftmost_best hbest ho (fun x hx => ⟨hsize x hx, hres.large x hx⟩) hlt).mono
        (fun x hx => hx.elim (fun hx => (hP x hx).1) fun hx => (hT x hx).1) fun q hq hle => ?_
      rcases (h.index_le hlen hmin hq hle).lt_or_eq with hgt | heq
      · obtain ⟨y, hy, hge⟩ := hex
        obtain ⟨hly, hiy⟩ := hy.elim (hP y) (hT y)
        exact ⟨y, hy, hge, (h.lt_of_index_lt hlen hly hq (hiy ▸ hgt)).le⟩
      · exact hcov q (heq ▸ hb.mem_large hq) hle
  · refine hleft.mono hsub fun q hq hle => ?_
    have := (h.large_range hlen hq).2
    omega

end

/-- **The search of `tmalloc_large` finds a best fit.** In a heap of less than 2^40 bytes. -/
theorem bestLarge_best (h : Inv Y s bs) (hb : BinsOf Y s bs b) (hlen : Y.length < 2 ^ 40) (hmin : MIN_LARGE_SIZE ≤ nb)
    (hlt : nb < 2 ^ 64) :
    Best (chunksize s.mem) nb (Large Y s bs) (b.bestLarge (chunksize s.mem) nb) := by
  have hpos : 0 < nb := by
    unfold MIN_LARGE_SIZE at hmin
    omega
  have hsize : ∀ x ∈ (b.treebins (treeIndex nb)).toList, chunksize s.mem x < 2 ^ 64 := fun x hx => by
    have := (h.large_range hlen (hb.large_mem hx).1).2
    omega
  have hidx := treeIndex_lt nb
  unfold Bins.bestLarge
  simp only [digits_treeIndex]
  obtain ⟨hbest, hrest⟩ := descend_seen (digits nb (binBits (treeIndex nb))) .nil
    (best_start (chunksize s.mem) hpos hlt) hsize hlt
  have hcovers : nb < 2 ^ 40 → _ := fun hsmall =>
    descend_covers (none, sub 0 nb) .nil (hb.binned.tree.ordered hlen _ hidx)
      ⟨⟨0, 0, Trie.ordered_nil⟩, by simp [Trie.toList]⟩ (by simp [Trie.toList]) hsize
      (binLo_dvd hidx) (binLo_le hmin hsmall).1 (binLo_le hmin hsmall).2 (binBits_le _) hlt
  generalize descend (chunksize s.mem) nb (digits nb (binBits (treeIndex nb))) (b.treebins (treeIndex nb))
    (none, sub 0 nb) .nil = d at hbest hrest hcovers ⊢
  have hpath : ∀ x, False ∨ x ∈ path (digits nb (binBits (treeIndex nb))) (b.treebins (treeIndex nb)) →
      Large Y s bs x ∧ treeIndex (chunksize s.mem x) = treeIndex nb :=
    fun x hx => hb.large_mem (path_subset x (hx.resolve_left id))
  -- what the first loop has not seen is in the trie that it leaves
  have hcov : nb < 2 ^ 40 → (∃ t, (False ∨ t ∈ path (digits nb (binBits (treeIndex nb))) (b.treebins (treeIndex nb))) ∧
      chunksize s.mem t = nb) ∨ Rest (chunksize s.mem) nb d.2 ∧
      ∀ q ∈ (b.treebins (treeIndex nb)).toList, nb ≤ chunksize s.mem q →
        ∃ y, ((False ∨ y ∈ path (digits nb (binBits (treeIndex nb))) (b.treebins (treeIndex nb))) ∨ y ∈ d.2.toList) ∧
          nb ≤ chunksize s.mem y ∧ chunksize s.mem y ≤ chunksize s.mem q := by
    simpa only [false_or] using fun hsmall => (hcovers hsmall).imp_right (And.imp_right fun hc q hq => hc q (.inl hq))
  by_cases hfirst : d.2.isNil = true ∧ d.1.1 = none
  · -- the bin of the request has none
    rw [if_pos hfirst]
    refine next_best h hb hlen hmin hlt hbest (fun x hx => (hpath x hx).1) fun hsmall q hq => ?_
    by_contra hge
    have hseen := (hbest.none hfirst.2).2
    rcases hcov hsmall with ⟨t, ht, heq⟩ | ⟨-, hc⟩
    · have := hseen t ht
      omega
    · obtain ⟨y, hy, hge', -⟩ := hc q hq (not_lt.mp hge)
      rw [Trie.isNil_iff.mp hfirst.1] at hy
      have := hseen y (hy.resolve_right (by simp [Trie.toList]))
      omega
  · -- the bin of the request has one
    rw [if_neg hfirst]
    exact rest_best h hb hlen hmin hlt hbest hpath
      (fun x hx => hb.large_mem ((hrest x hx).resolve_right (by simp [Trie.toList]))) hfirst hcov

/-- **The search of `tmalloc_small` finds a smallest chunk.** In a heap of less than 2^40 bytes. -/
theorem bestSmall_best (h : Inv Y s bs) (hb : BinsOf Y s bs b) (hlen : Y.length < 2 ^ 40) (hmap : b.treemap ≠ 0)
    (hnb : nb ≤ MIN_LARGE_SIZE) (hpos : 0 < nb) :
    Best (chunksize s.mem) nb (Large Y s bs) (b.bestSmall (chunksize s.mem) nb) := by
  have hbound := Y.bound'
  have hnb' := hnb
  unfold MIN_LARGE_SIZE at hnb'
  obtain ⟨hi32, hne, hlow⟩ := hb.tree_first hmap
  unfold Bins.bestSmall
  generalize ctz (leastBit b.treemap) = i at hi32 hne hlow
  have hall : ∀ x ∈ (b.treebins i).toList, chunksize s.mem x < 2 ^ 64 ∧ nb ≤ chunksize s.mem x := fun x hx => by
    obtain ⟨h1, h2⟩ := h.large_range hlen (hb.large_mem hx).1
    exact ⟨by omega, hnb.trans h1⟩
  refine (leftmost_best (best_start (chunksize s.mem) hpos (by omega)) (hb.binned.tree.ordered hlen i hi32) hall
    (by omega)).mono ?_ fun q hq hle => ?_
  · rintro x (hfalse | hx)
    · exact hfalse.elim
    · exact (hb.large_mem hx).1
  · have hqmem := hb.mem_large hq
    rcases lt_trichotomy (treeIndex (chunksize s.mem q)) i with hj | hj | hj
    · rw [hlow _ hj] at hqmem
      cases hqmem
    · exact ⟨q, .inr (hj ▸ hqmem), hle, le_refl _⟩
    · obtain ⟨t, ht⟩ := Trie.exists_mem hne
      obtain ⟨hlt', hit⟩ := hb.large_mem ht
      exact ⟨t, .inr ht, (hall t ht).2, (h.lt_of_index_lt hlen hlt' hq (hit ▸ hj)).le⟩

end

end SandiaShmem.Heap
