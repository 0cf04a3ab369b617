/-
`shmem_internal_build_kary_tree` (`src/collectives.c`) with its `int` arithmetic, reduced to 32 bits as compiled.

The radix is the caller's, converted to `int`, and nothing relates it to the number of PEs;
`shmem_internal_collectives_init` caps its radix at the number of PEs for the same purpose. The indices of the children
that the members try, radix * my_id + i, are all the numbers from 1 to radix * PE_size, and from 2^31 on they come out
negative and pass for members.

- `buildKaryTree_pe`: what a member computes, on ranks.
- `Matches.buildKaryTree_eq`, `spanning_of_lt`: below 2^31 it is the k-ary tree on unbounded numbers.
- `Matches.buildKaryTree_append`: from there on it is that tree with more children.
- `Spanning.not_wrapped`, `Spanning.not_shifted`: from there on, some member has a child that is not its child.
- `spanning_iff`: the exact condition.
-/
import SandiaShmem.Core.CInt
import SandiaShmem.Collectives.Trees

namespace SandiaShmem.Collectives.KaryTree

open CInt

/-! ## Model -/

section
variable (radix PE_start stride PE_size PE_root my_pe : ℤ)

/-- my_id -/
def myId : ℤ :=
  (wrap 32 (wrap 32 ((wrap 32 (my_pe - PE_start)).tdiv stride + PE_size) - PE_root)).tmod PE_size

/-- `PE_start + idx * stride` -/
def toPe (idx : ℤ) : ℤ := wrap 32 (PE_start + wrap 32 (idx * stride))

/-- *parent -/
def parentOf (my_id : ℤ) : ℤ :=
  toPe PE_start stride ((wrap 32 ((wrap 32 (my_id - 1)).tdiv radix + PE_root)).tmod PE_size)

/-- `radix * my_id + i` -/
def childId (my_id i : ℤ) : ℤ := wrap 32 (wrap 32 (radix * my_id) + i)

/-- the body of the loop over i -/
def childStep (my_id i : ℤ) (children : List ℤ) : List ℤ :=
  let tmp := childId radix my_id i
  if tmp < PE_size then
    let child_idx := (wrap 32 (PE_root + tmp)).tmod PE_size
    children ++ [toPe PE_start stride child_idx]
  else children

/-- `for (i = 1 ; i <= radix ; ++i)` -/
def childLoop (my_id : ℤ) : ℕ → ℤ → List ℤ → Option (List ℤ)
  | 0, _, _ => none
  | fuel + 1, i, children =>
    if i ≤ radix then
      childLoop my_id fuel (wrap 32 (i + 1)) (childStep radix PE_start stride PE_size PE_root my_id i children)
    else some children

/-- `shmem_internal_build_kary_tree`: the parent and the children -/
def buildKaryTree (fuel : ℕ) : Option (ℤ × List ℤ) :=
  let my_id := myId PE_start stride PE_size PE_root my_pe
  (childLoop radix PE_start stride PE_size PE_root my_id fuel 1 []).map fun children =>
    (parentOf radix PE_start stride PE_size PE_root my_id, children)

end

/-- the arguments of a call: a radix of at least 2 and a root in an active set of PEs, all of them `int`s -/
structure Args where
  num_pes : ℤ
  radix : ℤ
  PE_start : ℤ
  stride : ℤ
  PE_size : ℤ
  PE_root : ℤ
  two_le : 2 ≤ radix
  radix_lt : radix < 2 ^ 31
  start_nonneg : 0 ≤ PE_start
  stride_pos : 1 ≤ stride
  root_nonneg : 0 ≤ PE_root
  root_lt : PE_root < PE_size
  last_lt : PE_start + (PE_size - 1) * stride < num_pes
  num_pes_lt : num_pes < 2 ^ 31

namespace Args
variable (A : Args)

/-- the PE with a rank in the set -/
def pe (r : ℤ) : ℤ := A.PE_start + r * A.stride

/-- the members -/
def members : Set ℤ := {p | ∃ r, 0 ≤ r ∧ r < A.PE_size ∧ p = A.pe r}

/-- every member gets a parent and at most radix children, and together these are a spanning tree with the root
PE_root -/
def Spanning : Prop :=
  ∃ (fuel : ℕ) (parent : ℤ → ℤ) (children : ℤ → List ℤ),
    (∀ p ∈ A.members,
      buildKaryTree A.radix A.PE_start A.stride A.PE_size A.PE_root p fuel = some (parent p, children p) ∧
      (children p).length ≤ A.radix) ∧
    SpanningTree A.members (A.pe A.PE_root) parent children

/-! ## On ranks -/

/-- my_id of the member with a rank -/
def idOf (r : ℤ) : ℤ := (wrap 32 (r + A.PE_size - A.PE_root)).tmod A.PE_size

/-- the rank of the parent of an index -/
def parentRank (my_id : ℤ) : ℤ := (wrap 32 ((my_id - 1).tdiv A.radix + A.PE_root)).tmod A.PE_size

/-- the rank of the child with an index -/
def childRank (tmp : ℤ) : ℤ := (wrap 32 (A.PE_root + tmp)).tmod A.PE_size

theorem size_pos : 1 ≤ A.PE_size := by
  have := A.root_nonneg
  have := A.root_lt
  omega

/-- a distance in the set, in PEs -/
theorem mul_stride_le {x : ℤ} (hx : x < A.PE_size) : x * A.stride ≤ (A.PE_size - 1) * A.stride :=
  mul_le_mul_of_nonneg_right (by omega) (by have := A.stride_pos; omega)

theorem span_lt : (A.PE_size - 1) * A.stride < 2 ^ 31 := by
  have := A.last_lt
  have := A.num_pes_lt
  have := A.start_nonneg
  omega

theorem size_lt : A.PE_size < 2 ^ 31 := by
  have hpos := A.size_pos
  have hle : (A.PE_size - 1) * 1 ≤ (A.PE_size - 1) * A.stride := mul_le_mul_of_nonneg_left A.stride_pos (by omega)
  have := A.last_lt
  have := A.num_pes_lt
  have := A.start_nonneg
  omega

/-- no distance in the set overflows -/
theorem toPe_eq {x : ℤ} (h1 : -A.PE_size < x) (h2 : x < A.PE_size) : toPe A.PE_start A.stride x = A.pe x := by
  have hle := A.mul_stride_le h2
  have hge := A.mul_stride_le (show -x < A.PE_size by omega)
  have hspan := A.span_lt
  have hlast := A.last_lt
  have hnum := A.num_pes_lt
  have h0 := A.start_nonneg
  rw [neg_mul] at hge
  rw [toPe, wrap_of_fits (by omega) (show Fits 32 (x * A.stride) from ⟨by omega, by omega⟩),
    wrap_of_fits (by omega) ⟨by omega, by omega⟩, pe]

theorem toPe_tmod (x : ℤ) : toPe A.PE_start A.stride (x.tmod A.PE_size) = A.pe (x.tmod A.PE_size) :=
  have hpos := A.size_pos
  A.toPe_eq (Int.lt_tmod_of_pos x (by omega)) (Int.tmod_lt_of_pos x (by omega))

theorem pe_inj {x y : ℤ} : A.pe x = A.pe y ↔ x = y := by
  have := A.stride_pos
  unfold pe
  rw [add_right_inj, mul_left_inj' (by omega)]

theorem pe_mem {x : ℤ} : A.pe x ∈ A.members ↔ 0 ≤ x ∧ x < A.PE_size := by
  constructor
  · rintro ⟨r, h0, hr, heq⟩
    rw [A.pe_inj.mp heq]
    exact ⟨h0, hr⟩
  · exact fun ⟨h0, hx⟩ => ⟨x, h0, hx, rfl⟩

theorem myId_pe {r : ℤ} (h0 : 0 ≤ r) (hr : r < A.PE_size) :
    myId A.PE_start A.stride A.PE_size A.PE_root (A.pe r) = A.idOf r := by
  have hstride := A.stride_pos
  have hle := A.mul_stride_le hr
  have hspan := A.span_lt
  have hmul : 0 ≤ r * A.stride := mul_nonneg h0 (by omega)
  have hsub : A.pe r - A.PE_start = r * A.stride := by rw [pe]; ring
  rw [myId, hsub, wrap_of_fits (by omega) (show Fits 32 (r * A.stride) from ⟨by omega, by omega⟩),
    Int.mul_tdiv_cancel _ (by omega), sub_eq_add_neg, wrap_wrap_add, ← sub_eq_add_neg, idOf]

theorem idOf_bounds (r : ℤ) : -A.PE_size < A.idOf r ∧ A.idOf r < A.PE_size :=
  have hpos := A.size_pos
  ⟨Int.lt_tmod_of_pos _ (by omega), Int.tmod_lt_of_pos _ (by omega)⟩

theorem parentOf_eq {my_id : ℤ} (h1 : -A.PE_size < my_id) (h2 : my_id < A.PE_size) :
    parentOf A.radix A.PE_start A.stride A.PE_size A.PE_root my_id = A.pe (A.parentRank my_id) := by
  have := A.size_lt
  rw [parentOf, wrap_of_fits (by omega) (show Fits 32 (my_id - 1) from ⟨by omega, by omega⟩), toPe_tmod, parentRank]

/-- the indices that the loop tries from i on -/
def childIds (my_id i : ℤ) (n : ℕ) : List ℤ :=
  ((List.range n).map fun j : ℕ => childId A.radix my_id (i + j)).filter (· < A.PE_size)

theorem childIds_succ (my_id i : ℤ) (n : ℕ) :
    A.childIds my_id i (n + 1) =
      (if childId A.radix my_id i < A.PE_size then [childId A.radix my_id i] else []) ++
        A.childIds my_id (i + 1) n := by
  have htail : ((List.range n).map Nat.succ).map (fun j : ℕ => childId A.radix my_id (i + j)) =
      (List.range n).map fun j : ℕ => childId A.radix my_id (i + 1 + j) := by
    rw [List.map_map]
    refine List.map_congr_left fun j _ => ?_
    simp only [Function.comp_apply]
    congr 1
    push_cast
    ring
  rw [childIds, List.range_succ_eq_map, List.map_cons, htail, Nat.cast_zero, add_zero]
  split_ifs with hlt
  · rw [List.filter_cons_of_pos (by simpa using hlt)]
    rfl
  · rw [List.filter_cons_of_neg (by simpa using hlt)]
    rfl

/-- the loop, which needs one more round than there are numbers left -/
theorem childLoop_eq (hlt : A.radix < 2 ^ 31 - 1) (my_id : ℤ) (fuel : ℕ) {i : ℤ} (hi : 1 ≤ i) (hir : i ≤ A.radix + 1)
    (children : List ℤ) :
    childLoop A.radix A.PE_start A.stride A.PE_size A.PE_root my_id fuel i children =
      if A.radix + 1 - i < fuel then
        some (children ++ (A.childIds my_id i (A.radix + 1 - i).toNat).map fun tmp => A.pe (A.childRank tmp))
      else none := by
  induction fuel generalizing i children with
  | zero => rw [childLoop, if_neg (by omega)]
  | succ fuel ih =>
    by_cases hle : i ≤ A.radix
    · have hnext : wrap 32 (i + 1) = i + 1 := wrap_of_fits (by omega) ⟨by omega, by omega⟩
      have hleft : (A.radix + 1 - i).toNat = (A.radix + 1 - (i + 1)).toNat + 1 := by omega
      rw [childLoop, if_pos hle, hnext, ih (by omega) (by omega)]
      by_cases hfuel : A.radix + 1 - (i + 1) < fuel
      · rw [if_pos hfuel, if_pos (by omega), hleft, childIds_succ, childStep]
        by_cases hchild : childId A.radix my_id i < A.PE_size
        · simp [hchild, toPe_tmod, childRank]
        · simp [hchild]
      · rw [if_neg hfuel, if_neg (by omega)]
    · obtain rfl : i = A.radix + 1 := by omega
      rw [childLoop, if_neg hle, if_pos (by omega), sub_self]
      simp [childIds]

/-- the greatest `int` is not left behind by the counter -/
theorem childLoop_none (hmax : A.radix = 2 ^ 31 - 1) (my_id : ℤ) (fuel : ℕ) {i : ℤ} (hi : i < 2 ^ 31)
    (children : List ℤ) : childLoop A.radix A.PE_start A.stride A.PE_size A.PE_root my_id fuel i children = none := by
  induction fuel generalizing i children with
  | zero => rfl
  | succ fuel ih =>
    rw [childLoop, if_pos (by omega)]
    exact ih (fits_wrap (by omega) (i + 1)).2 _

/-- **What a member computes.** -/
theorem buildKaryTree_pe (hlt : A.radix < 2 ^ 31 - 1) {r : ℤ} (h0 : 0 ≤ r) (hr : r < A.PE_size) (fuel : ℕ) :
    buildKaryTree A.radix A.PE_start A.stride A.PE_size A.PE_root (A.pe r) fuel =
      if A.radix < fuel then
        some (A.pe (A.parentRank (A.idOf r)),
          (A.childIds (A.idOf r) 1 A.radix.toNat).map fun tmp => A.pe (A.childRank tmp))
      else none := by
  have hradix := A.two_le
  obtain ⟨h1, h2⟩ := A.idOf_bounds r
  simp only [buildKaryTree, A.myId_pe h0 hr, A.parentOf_eq h1 h2,
    A.childLoop_eq hlt _ fuel le_rfl (show 1 ≤ A.radix + 1 by omega), add_sub_cancel_right, List.nil_append]
  split_ifs <;> rfl

/-! ## Below 2^31 -/

/-- the arguments as natural numbers -/
structure Matches (S : ActiveSet) (radix PE_root : ℕ) : Prop where
  radix_eq : A.radix = radix
  start_eq : A.PE_start = S.PE_start
  stride_eq : A.stride = S.PE_stride
  size_eq : A.PE_size = S.PE_size
  root_eq : A.PE_root = PE_root

theorem exists_matches : ∃ S radix PE_root, A.Matches S radix PE_root := by
  have hstart := A.start_nonneg
  have hstride := A.stride_pos
  have hsize := A.size_pos
  have hlast := A.last_lt
  obtain ⟨start, hstart⟩ := Int.eq_ofNat_of_zero_le hstart
  obtain ⟨stride, hstride'⟩ := Int.eq_ofNat_of_zero_le (show 0 ≤ A.stride by omega)
  obtain ⟨size, hsize'⟩ := Int.eq_ofNat_of_zero_le (show 0 ≤ A.PE_size by omega)
  have hbound : start + stride * (size - 1) < A.num_pes.toNat := by
    have hpred : (size : ℤ) - 1 = ((size - 1 : ℕ) : ℤ) := by omega
    rw [hstart, hsize', hstride', hpred, ← Nat.cast_mul, mul_comm] at hlast
    omega
  exact ⟨⟨start, stride, size, A.num_pes.toNat, by omega, by omega, hbound⟩, A.radix.toNat, A.PE_root.toNat,
    by have := A.two_le; omega, hstart, hstride', hsize', by have := A.root_nonneg; omega⟩

theorem wrap_tmod {x n : ℕ} (hx : x < 2 ^ 31) : (wrap 32 (x : ℤ)).tmod n = (x % n : ℕ) := by
  rw [wrap_of_fits (by omega) ⟨by omega, by omega⟩, Int.ofNat_tmod]

section
variable {A} {S : ActiveSet} {radix PE_root : ℕ}

/-- with a radix of 2 the sums of two ranks are below 2^31 as well -/
theorem Matches.two_mul_le (h : A.Matches S radix PE_root) (hlt : radix * S.PE_size < 2 ^ 31) :
    2 * S.PE_size ≤ 2 ^ 31 := by
  have h2 := A.two_le
  rw [h.radix_eq] at h2
  have := Nat.mul_le_mul_right S.PE_size (show 2 ≤ radix by omega)
  omega

theorem Matches.root_lt (h : A.Matches S radix PE_root) : PE_root < S.PE_size := by
  have := A.root_lt
  rw [h.root_eq, h.size_eq] at this
  omega

theorem Matches.pe_eq (h : A.Matches S radix PE_root) (x : ℕ) : A.pe x = (S.pe x : ℕ) := by
  rw [pe, h.start_eq, h.stride_eq, ActiveSet.pe]
  push_cast
  rfl

theorem Matches.idOf_eq (h : A.Matches S radix PE_root) (h2 : 2 * S.PE_size ≤ 2 ^ 31) {r : ℕ}
    (hr : r < S.PE_size) : A.idOf r = ((r + S.PE_size - PE_root) % S.PE_size : ℕ) := by
  have hroot := h.root_lt
  have hcast : (r : ℤ) + S.PE_size - PE_root = (r + S.PE_size - PE_root : ℕ) := by omega
  rw [idOf, h.size_eq, h.root_eq, hcast, wrap_tmod (by omega)]

theorem Matches.parentRank_eq (h : A.Matches S radix PE_root) (h2 : 2 * S.PE_size ≤ 2 ^ 31) {x : ℕ}
    (hx : x < S.PE_size) : A.parentRank x = (((x - 1) / radix + PE_root) % S.PE_size : ℕ) := by
  have hroot := h.root_lt
  have hradix := A.two_le
  rw [h.radix_eq] at hradix
  -- C rounds the quotient of the root towards 0
  have hdiv : ((x : ℤ) - 1).tdiv radix = ((x - 1) / radix : ℕ) := by
    cases x with
    | zero => rw [Nat.cast_zero, zero_sub, Int.neg_tdiv, Int.tdiv_eq_zero_of_lt (by omega) (by omega)]; simp
    | succ x => rw [Nat.cast_succ, add_sub_cancel_right, Nat.add_sub_cancel, Int.ofNat_tdiv]
  have hle := Nat.div_le_self (x - 1) radix
  rw [parentRank, h.size_eq, h.root_eq, h.radix_eq, hdiv, ← Nat.cast_add, wrap_tmod (by omega)]

theorem Matches.childRank_eq (h : A.Matches S radix PE_root) (h2 : 2 * S.PE_size ≤ 2 ^ 31) {t : ℕ}
    (ht : t < S.PE_size) : A.childRank t = ((PE_root + t) % S.PE_size : ℕ) := by
  have hroot := h.root_lt
  rw [childRank, h.size_eq, h.root_eq, ← Nat.cast_add, wrap_tmod (by omega)]

/-- an index that is an `int` -/
theorem Matches.childId_eq (h : A.Matches S radix PE_root) {x j : ℕ} (hfit : radix * x + (j + 1) < 2 ^ 31) :
    childId A.radix x (1 + j) = (radix * x + (j + 1) : ℕ) := by
  have hsum : (radix : ℤ) * x + (1 + j) = (radix * x + (j + 1) : ℕ) := by push_cast; ring
  rw [childId, h.radix_eq, wrap_wrap_add, hsum, wrap_of_fits (by omega) ⟨by omega, by omega⟩]

/-- the indices of the children in the k-ary tree -/
def treeIds (radix n x : ℕ) : List ℕ := ((List.range radix).map fun i => radix * x + (i + 1)).filter (· < n)

/-- the indices that the loop tries: first those of the children, then those that have come out too small -/
theorem Matches.childIds_append (h : A.Matches S radix PE_root) {x : ℕ} (hx : x < S.PE_size) :
    ∃ wrapped : List ℤ, A.childIds x 1 A.radix.toNat = ((treeIds radix S.PE_size x).map fun t : ℕ => (t : ℤ)) ++ wrapped := by
  have hsize := A.size_lt
  rw [h.size_eq] at hsize
  -- the first k numbers belong to the set
  obtain ⟨k, hk⟩ : ∃ k, k = min (S.PE_size - 1 - radix * x) radix := ⟨_, rfl⟩
  have hrange : List.range radix = List.range k ++ (List.range (radix - k)).map (k + ·) := by
    rw [← List.range_add]
    congr 1
    omega
  have hids : treeIds radix S.PE_size x = (List.range k).map fun i => radix * x + (i + 1) := by
    rw [treeIds, hrange, List.map_append, List.filter_append, List.filter_eq_self.mpr, List.filter_eq_nil_iff.mpr,
      List.append_nil]
    · intro t ht
      obtain ⟨j, hj, rfl⟩ := List.mem_map.mp ht
      obtain ⟨i, hi, rfl⟩ := List.mem_map.mp hj
      have hi := List.mem_range.mp hi
      simp only [decide_eq_true_eq]
      omega
    · intro t ht
      obtain ⟨j, hj, rfl⟩ := List.mem_map.mp ht
      have hj := List.mem_range.mp hj
      simp only [decide_eq_true_eq]
      omega
  have hchild : (List.range k).map (fun j : ℕ => childId A.radix x (1 + j)) =
      ((List.range k).map fun i => radix * x + (i + 1)).map fun t : ℕ => (t : ℤ) := by
    rw [List.map_map]
    refine List.map_congr_left fun j hj => h.childId_eq ?_
    have hj := List.mem_range.mp hj
    omega
  rw [childIds, h.radix_eq, Int.toNat_natCast, ← h.radix_eq, hrange, List.map_append, List.filter_append, hchild, ← hids]
  refine ⟨_, congrArg (· ++ _) (List.filter_eq_self.mpr fun t ht => ?_)⟩
  obtain ⟨i, hi, rfl⟩ := List.mem_map.mp ht
  have hlt : i < S.PE_size := by simpa using (List.mem_filter.mp hi).2
  rw [h.size_eq]
  simpa using hlt

theorem Matches.childIds_eq (h : A.Matches S radix PE_root) (hlt : radix * S.PE_size < 2 ^ 31) {x : ℕ}
    (hx : x < S.PE_size) :
    A.childIds x 1 A.radix.toNat = (treeIds radix S.PE_size x).map fun t : ℕ => (t : ℤ) := by
  have hcast : (List.range radix).map (fun j : ℕ => childId A.radix x (1 + j)) =
      ((List.range radix).map fun i => radix * x + (i + 1)).map fun t : ℕ => (t : ℤ) := by
    rw [List.map_map]
    refine List.map_congr_left fun j hj => h.childId_eq ?_
    have hj := List.mem_range.mp hj
    have hmul : radix * x + radix ≤ radix * S.PE_size := by
      rw [← Nat.mul_succ]
      exact Nat.mul_le_mul_left radix hx
    omega
  rw [childIds, h.radix_eq, Int.toNat_natCast, ← h.radix_eq, hcast, List.filter_map, h.size_eq, treeIds]
  congr 1
  refine List.filter_congr fun t _ => ?_
  simp

/-- the children in the k-ary tree, by their indices -/
theorem Matches.map_treeIds (h : A.Matches S radix PE_root) (h2 : 2 * S.PE_size ≤ 2 ^ 31) (hradix : 1 ≤ radix) (r : ℕ) :
    ((treeIds radix S.PE_size ((r + S.PE_size - PE_root) % S.PE_size)).map fun t : ℕ => (t : ℤ)).map
        (fun tmp => A.pe (A.childRank tmp)) =
      ((karyTree radix hradix S PE_root h.root_lt).children (S.pe r)).map fun c : ℕ => (c : ℤ) := by
  rw [karyTree_children, S.rank_pe, List.map_map, List.map_map, treeIds]
  refine List.map_congr_left fun t ht => ?_
  have ht : t < S.PE_size := by simpa using (List.mem_filter.mp ht).2
  simp only [Function.comp_apply, h.childRank_eq h2 ht, h.pe_eq]

/-- **Whatever the radix, the member computes its parent, and its children come first.** -/
theorem Matches.buildKaryTree_append (h : A.Matches S radix PE_root) (h2 : 2 * S.PE_size ≤ 2 ^ 31)
    (hmax : A.radix < 2 ^ 31 - 1) (hradix : 1 ≤ radix) {r : ℕ} (hr : r < S.PE_size) {fuel : ℕ} (hfuel : radix < fuel) :
    ∃ extra : List ℤ, buildKaryTree A.radix A.PE_start A.stride A.PE_size A.PE_root (S.pe r : ℕ) fuel =
      some (((karyTree radix hradix S PE_root h.root_lt).parent (S.pe r) : ℤ),
        (((karyTree radix hradix S PE_root h.root_lt).children (S.pe r)).map fun c : ℕ => (c : ℤ)) ++ extra) := by
  have hid := Nat.mod_lt (r + S.PE_size - PE_root) S.size_pos
  have hr' : (r : ℤ) < A.PE_size := by rw [h.size_eq]; omega
  obtain ⟨wrapped, hids⟩ := h.childIds_append hid
  rw [← h.pe_eq, A.buildKaryTree_pe hmax (by omega) hr', if_pos (by rw [h.radix_eq]; omega), h.idOf_eq h2 hr,
    h.parentRank_eq h2 hid, hids, h.pe_eq, List.map_append, h.map_treeIds h2 hradix, karyTree_parent, S.rank_pe]
  exact ⟨_, rfl⟩

/-- **Below 2^31 the member computes its parent and its children in the k-ary tree.** -/
theorem Matches.buildKaryTree_eq (h : A.Matches S radix PE_root) (hlt : radix * S.PE_size < 2 ^ 31)
    (hmax : A.radix < 2 ^ 31 - 1) (hradix : 1 ≤ radix) {r : ℕ} (hr : r < S.PE_size) {fuel : ℕ} (hfuel : radix < fuel) :
    buildKaryTree A.radix A.PE_start A.stride A.PE_size A.PE_root (S.pe r : ℕ) fuel =
      some (((karyTree radix hradix S PE_root h.root_lt).parent (S.pe r) : ℤ),
        ((karyTree radix hradix S PE_root h.root_lt).children (S.pe r)).map fun c : ℕ => (c : ℤ)) := by
  have hid := Nat.mod_lt (r + S.PE_size - PE_root) S.size_pos
  have hr' : (r : ℤ) < A.PE_size := by rw [h.size_eq]; omega
  have h2 := h.two_mul_le hlt
  rw [← h.pe_eq, A.buildKaryTree_pe hmax (by omega) hr', if_pos (by rw [h.radix_eq]; omega), h.idOf_eq h2 hr,
    h.parentRank_eq h2 hid, h.childIds_eq hlt hid, h.pe_eq, h.map_treeIds h2 hradix, karyTree_parent, S.rank_pe]

theorem Matches.members_eq (h : A.Matches S radix PE_root) (hr : 1 ≤ radix) :
    A.members = (Nat.cast : ℕ → ℤ) '' (karyTree radix hr S PE_root h.root_lt).nodes := by
  ext p
  simp only [Set.mem_image, Finset.mem_coe, mem_karyTree, S.mem_members]
  constructor
  · rintro ⟨r, h0, hlt, rfl⟩
    lift r to ℕ using h0
    rw [h.size_eq] at hlt
    exact ⟨S.pe r, ⟨r, by omega, rfl⟩, (h.pe_eq r).symm⟩
  · rintro ⟨_, ⟨r, hr, rfl⟩, rfl⟩
    exact ⟨r, by omega, by rw [h.size_eq]; omega, (h.pe_eq r).symm⟩

end

/-- with products below 2^31 the members make a spanning tree -/
theorem spanning_of_lt (hlt : A.radix * A.PE_size < 2 ^ 31) (hmax : A.radix < 2 ^ 31 - 1) : A.Spanning := by
  obtain ⟨S, radix, PE_root, h⟩ := A.exists_matches
  have hlt : radix * S.PE_size < 2 ^ 31 := by
    rw [h.radix_eq, h.size_eq] at hlt
    exact_mod_cast hlt
  have hr : 1 ≤ radix := by
    have := A.two_le
    have := h.radix_eq
    omega
  refine ⟨radix + 1, fun p => (karyTree radix hr S PE_root h.root_lt).parent p.toNat,
    fun p => ((karyTree radix hr S PE_root h.root_lt).children p.toNat).map fun c : ℕ => (c : ℤ), ?_, ?_⟩
  · rintro _ ⟨r, h0, hrn, rfl⟩
    lift r to ℕ using h0
    rw [h.size_eq] at hrn
    rw [h.pe_eq]
    refine ⟨h.buildKaryTree_eq hlt hmax hr (by omega) (Nat.lt_succ_self radix), ?_⟩
    have hlen := List.length_filter_le (fun t => decide (t < S.PE_size))
      ((List.range radix).map fun i => radix * ((S.rank (S.pe r) + S.PE_size - PE_root) % S.PE_size) + (i + 1))
    rw [List.length_map, List.length_range] at hlen
    rw [h.radix_eq, List.length_map, Int.toNat_natCast, karyTree_children, List.length_map]
    exact_mod_cast hlen
  · rw [h.members_eq hr, h.root_eq, h.pe_eq, ← karyTree_root radix hr S PE_root h.root_lt]
    refine (karyTree radix hr S PE_root h.root_lt).spanningTree Nat.cast_injective (fun v _ => ?_) fun v _ => ?_
    · rw [Int.toNat_natCast]
    · rw [Int.toNat_natCast]

/-! ## From 2^31 on -/

theorem tmod_nonpos {x : ℤ} (hx : x ≤ 0) (n : ℤ) : x.tmod n ≤ 0 := by
  have h := Int.tmod_nonneg n (show 0 ≤ -x by omega)
  rw [Int.neg_tmod] at h
  omega

/-- once around -/
theorem add_tmod {x n : ℤ} (h0 : 0 ≤ x) (hx : x < n) : (n + x).tmod n = x := by
  rw [Int.tmod_eq_emod_of_nonneg (by omega), Int.add_emod_left, Int.emod_eq_of_lt h0 hx]

/-- the quotient of an index and the radix -/
theorem tdiv_bounds {x k : ℤ} (h0 : 0 ≤ x) (hk : 2 ≤ k) :
    0 ≤ x.tdiv k ∧ x.tdiv k ≤ x ∧ k * x.tdiv k ≤ x ∧ x < k * x.tdiv k + k := by
  have hq := Int.tdiv_nonneg h0 (show 0 ≤ k by omega)
  have heq := Int.tdiv_mul_add_tmod x k
  have h1 := Int.tmod_nonneg k h0
  have h2 := Int.tmod_lt_of_pos x (show 0 < k by omega)
  have hle : x.tdiv k * 1 ≤ x.tdiv k * k := mul_le_mul_of_nonneg_left (by omega) hq
  rw [mul_comm k]
  omega

/-- the members before the root come after the others -/
theorem idOf_of_lt {r : ℤ} (h0 : 0 ≤ r) (hr : r < A.PE_root) : A.idOf r = r + A.PE_size - A.PE_root := by
  have := A.root_lt
  have := A.size_lt
  rw [idOf, wrap_of_fits (by omega) ⟨by omega, by omega⟩, Int.tmod_eq_of_lt (by omega) (by omega)]

theorem idOf_of_ge {r : ℤ} (h0 : A.PE_root ≤ r) (hr : r < A.PE_size) (hlt : r + A.PE_size - A.PE_root < 2 ^ 31) :
    A.idOf r = r - A.PE_root := by
  have := A.root_nonneg
  rw [idOf, wrap_of_fits (by omega) ⟨by omega, by omega⟩,
    show r + A.PE_size - A.PE_root = A.PE_size + (r - A.PE_root) by ring, add_tmod (by omega) (by omega)]

/-- a sum that does not fit, of two `int`s that are not negative, is negative -/
theorem wrap_tmod_nonpos {x : ℤ} (h1 : 2 ^ 31 ≤ x) (h2 : x < 2 ^ 32) (n : ℤ) : (wrap 32 x).tmod n ≤ 0 := by
  have heq : wrap 32 x = x - 1 * 2 ^ 32 := wrap_eq_of_fits (by omega) ⟨by omega, by omega⟩
  exact tmod_nonpos (by omega) n

/-- the parent of a member before the root -/
theorem parentRank_of_lt {x : ℤ} (h1 : 1 ≤ x) (hx : x < A.PE_size) :
    A.parentRank x = (x - 1).tdiv A.radix + A.PE_root ∨
      A.parentRank x = (x - 1).tdiv A.radix + A.PE_root - A.PE_size ∧ A.PE_size ≤ (x - 1).tdiv A.radix + A.PE_root ∨
      A.parentRank x ≤ 0 ∧ A.PE_size ≤ (x - 1).tdiv A.radix + A.PE_root := by
  obtain ⟨hq0, hqx, -, -⟩ := tdiv_bounds (show 0 ≤ x - 1 by omega) A.two_le
  have hroot0 := A.root_nonneg
  have hroot := A.root_lt
  have hsize := A.size_lt
  unfold parentRank
  by_cases hfits : (x - 1).tdiv A.radix + A.PE_root < 2 ^ 31
  · rw [wrap_of_fits (by omega) ⟨by omega, hfits⟩]
    by_cases hlt : (x - 1).tdiv A.radix + A.PE_root < A.PE_size
    · exact .inl (Int.tmod_eq_of_lt (by omega) hlt)
    · refine .inr (.inl ⟨?_, by omega⟩)
      have hsub : (x - 1).tdiv A.radix + A.PE_root =
          A.PE_size + ((x - 1).tdiv A.radix + A.PE_root - A.PE_size) := by ring
      rw [hsub, add_tmod (by omega) (by omega)]
      ring
  · exact .inr (.inr ⟨wrap_tmod_nonpos (by omega) (by omega) _, by omega⟩)

/-- a member before the root whose parent is d behind the root has its index in the block of d -/
theorem index_of_parent {c d : ℤ} (h0 : 0 ≤ c) (hc : c < A.PE_root) (hd : 1 ≤ d)
    (hparent : A.parentRank (A.idOf c) = A.PE_root + d) :
    A.radix * d ≤ c + A.PE_size - A.PE_root - 1 ∧ c + A.PE_size - A.PE_root - 1 < A.radix * d + A.radix := by
  have hroot := A.root_lt
  obtain ⟨-, hqx, hq1, hq2⟩ := tdiv_bounds (show 0 ≤ c + A.PE_size - A.PE_root - 1 by omega) A.two_le
  have hcases := A.parentRank_of_lt (show 1 ≤ c + A.PE_size - A.PE_root by omega) (by omega)
  rw [A.idOf_of_lt h0 hc] at hparent
  have hq : (c + A.PE_size - A.PE_root - 1).tdiv A.radix = d := by omega
  rw [hq] at hq1 hq2
  exact ⟨hq1, hq2⟩

/-- the first member whose sum does not fit -/
theorem idOf_shifted {d : ℤ} (hd : 1 ≤ d) (hsum : d + A.PE_size = 2 ^ 31) (hlt : A.PE_root + d < A.PE_size) :
    A.idOf (A.PE_root + d) = -d := by
  have hroot := A.root_nonneg
  have hwrap : wrap 32 (A.PE_root + d + A.PE_size - A.PE_root) = -(A.PE_size + d) := by
    rw [show A.PE_root + d + A.PE_size - A.PE_root = 2 ^ 31 by omega, wrap_eq (by omega)]
    omega
  rw [idOf, hwrap, Int.neg_tmod, add_tmod (by omega) (by omega)]

section
variable {A} (h : A.Spanning)

include h

/-- the loop over the children ends -/
theorem Spanning.radix_lt : A.radix < 2 ^ 31 - 1 := by
  obtain ⟨fuel, parent, children, hbuild, -⟩ := h
  by_contra hge
  have := A.radix_lt
  obtain ⟨hroot, -⟩ := hbuild _ (A.pe_mem.mpr ⟨A.root_nonneg, A.root_lt⟩)
  rw [buildKaryTree, A.childLoop_none (by omega) _ fuel (by omega)] at hroot
  simp at hroot

theorem Spanning.exists_tree : ∃ (parent : ℤ → ℤ) (children : ℤ → List ℤ),
    (∀ r, 0 ≤ r → r < A.PE_size → parent (A.pe r) = A.pe (A.parentRank (A.idOf r)) ∧
      children (A.pe r) = (A.childIds (A.idOf r) 1 A.radix.toNat).map fun tmp => A.pe (A.childRank tmp)) ∧
    SpanningTree A.members (A.pe A.PE_root) parent children := by
  have hmax := h.radix_lt
  obtain ⟨fuel, parent, children, hbuild, htree⟩ := h
  refine ⟨parent, children, fun r h0 hr => ?_, htree⟩
  obtain ⟨hr, -⟩ := hbuild _ (A.pe_mem.mpr ⟨h0, hr⟩)
  rw [A.buildKaryTree_pe hmax h0 ‹_›] at hr
  split_ifs at hr
  obtain ⟨h1, h2⟩ := Prod.ext_iff.mp (Option.some.inj hr)
  exact ⟨h1.symm, h2.symm⟩

/-- a child of a member is a member other than the root, and its parent is the member -/
theorem Spanning.child {r i : ℤ} (h0 : 0 ≤ r) (hr : r < A.PE_size) (hi : 1 ≤ i) (hir : i ≤ A.radix)
    (hlt : childId A.radix (A.idOf r) i < A.PE_size) :
    (0 ≤ A.childRank (childId A.radix (A.idOf r) i) ∧ A.childRank (childId A.radix (A.idOf r) i) < A.PE_size) ∧
      A.childRank (childId A.radix (A.idOf r) i) ≠ A.PE_root ∧
      A.parentRank (A.idOf (A.childRank (childId A.radix (A.idOf r) i))) = r := by
  obtain ⟨parent, children, hcomp, htree⟩ := h.exists_tree
  have hmem : A.pe (A.childRank (childId A.radix (A.idOf r) i)) ∈ children (A.pe r) := by
    rw [(hcomp r h0 hr).2]
    refine List.mem_map_of_mem (List.mem_filter.mpr ⟨List.mem_map.mpr ⟨(i - 1).toNat, ?_, ?_⟩, by simpa using hlt⟩)
    · rw [List.mem_range]
      omega
    · congr 1
      omega
  have hchild := htree.child_mem _ (A.pe_mem.mpr ⟨h0, hr⟩) _ hmem
  obtain ⟨hparent, hne⟩ := (htree.child_iff _ (A.pe_mem.mpr ⟨h0, hr⟩) _ hchild).mp hmem
  obtain ⟨hc0, hcn⟩ := A.pe_mem.mp hchild
  rw [(hcomp _ hc0 hcn).1] at hparent
  exact ⟨⟨hc0, hcn⟩, fun heq => hne (heq ▸ rfl), A.pe_inj.mp hparent⟩

/-- and it is a child once -/
theorem Spanning.child_inj {r i i' : ℤ} (h0 : 0 ≤ r) (hr : r < A.PE_size) (hi : 1 ≤ i) (hir : i ≤ A.radix)
    (hlt : childId A.radix (A.idOf r) i < A.PE_size) (hi' : 1 ≤ i') (hir' : i' ≤ A.radix)
    (hlt' : childId A.radix (A.idOf r) i' < A.PE_size)
    (heq : A.childRank (childId A.radix (A.idOf r) i) = A.childRank (childId A.radix (A.idOf r) i')) : i = i' := by
  obtain ⟨parent, children, hcomp, htree⟩ := h.exists_tree
  have hnodup := htree.nodup _ (A.pe_mem.mpr ⟨h0, hr⟩)
  rw [(hcomp r h0 hr).2, childIds, List.filter_map, List.map_map] at hnodup
  have hcast : ∀ {i : ℤ}, 1 ≤ i → 1 + ((i - 1).toNat : ℤ) = i := fun hi => by omega
  have hmem : ∀ {i : ℤ}, 1 ≤ i → i ≤ A.radix → childId A.radix (A.idOf r) i < A.PE_size →
      (i - 1).toNat ∈ (List.range A.radix.toNat).filter
        ((fun tmp : ℤ => decide (tmp < A.PE_size)) ∘ fun j : ℕ => childId A.radix (A.idOf r) (1 + j)) := by
    intro i hi hir hlt
    refine List.mem_filter.mpr ⟨List.mem_range.mpr (by omega), ?_⟩
    simpa only [Function.comp_apply, hcast hi, decide_eq_true_eq] using hlt
  have hsame := List.inj_on_of_nodup_map hnodup (hmem hi hir hlt) (hmem hi' hir' hlt') (by
    simp only [Function.comp_apply, hcast hi, hcast hi', heq])
  omega

/-- a member that would have a child with the index 2^31 has a wrong one -/
theorem Spanning.not_wrapped {r : ℤ} (h0 : 0 ≤ r) (hr : r < A.PE_size) (h1 : A.radix * A.idOf r < 2 ^ 31)
    (h2 : 2 ^ 31 ≤ A.radix * A.idOf r + A.radix) : False := by
  have hradix := A.two_le
  have hmax := h.radix_lt
  have hroot0 := A.root_nonneg
  have hrootlt := A.root_lt
  have hsize := A.size_lt
  have htmp : childId A.radix (A.idOf r) (2 ^ 31 - A.radix * A.idOf r) = -2 ^ 31 := by
    rw [childId, wrap_wrap_add, add_sub_cancel, wrap_eq (by omega)]
    norm_num
  have htmplt : childId A.radix (A.idOf r) (2 ^ 31 - A.radix * A.idOf r) < A.PE_size := by omega
  obtain ⟨⟨hc0, -⟩, hcroot, hparent⟩ := h.child h0 hr (show 1 ≤ 2 ^ 31 - A.radix * A.idOf r by omega) (by omega) htmplt
  -- the rank of the child is not positive, so it is 0
  have hrank : A.childRank (childId A.radix (A.idOf r) (2 ^ 31 - A.radix * A.idOf r)) = 0 := by
    refine le_antisymm ?_ hc0
    rw [htmp, childRank, wrap_of_fits (by omega) ⟨by omega, by omega⟩]
    exact tmod_nonpos (by omega) _
  rw [hrank] at hcroot hparent
  rw [A.idOf_of_lt le_rfl (by omega), zero_add] at hparent
  obtain ⟨hq0, hqx, hq1, hq2⟩ := tdiv_bounds (show 0 ≤ A.PE_size - A.PE_root - 1 by omega) hradix
  have hreq : r = (A.PE_size - A.PE_root - 1).tdiv A.radix + A.PE_root := by
    have := A.parentRank_of_lt (show 1 ≤ A.PE_size - A.PE_root by omega) (by omega)
    omega
  by_cases hfits : r + A.PE_size - A.PE_root < 2 ^ 31
  · -- rank 0 is a child of the member already
    have hid := A.idOf_of_ge (by omega) hr hfits
    have hidq : A.idOf r = (A.PE_size - A.PE_root - 1).tdiv A.radix := by omega
    have htmp' : childId A.radix (A.idOf r) (A.PE_size - A.PE_root - A.radix * A.idOf r) = A.PE_size - A.PE_root := by
      rw [childId, wrap_wrap_add, add_sub_cancel, wrap_of_fits (by omega) ⟨by omega, by omega⟩]
    have hrank' : A.childRank (A.PE_size - A.PE_root) = 0 := by
      rw [childRank, add_sub_cancel, wrap_of_fits (by omega) ⟨by omega, hsize⟩, Int.tmod_self]
    rw [← hidq] at hq1 hq2
    have hsame := h.child_inj h0 hr (by omega) (by omega) htmplt
      (show 1 ≤ A.PE_size - A.PE_root - A.radix * A.idOf r by omega) (by omega) (by omega)
      (by rw [hrank, htmp', hrank'])
    omega
  · -- the index of the member is not positive, and the child would be smaller
    have hid : A.idOf r ≤ 0 := wrap_tmod_nonpos (by omega) (by omega) _
    have := mul_nonpos_of_nonneg_of_nonpos (show 0 ≤ A.radix by omega) hid
    omega

/-- the first member whose sum does not fit is d = 2^31 − PE_size behind the root; its index is −d, and its children come
before the root. They have it for their parent only if their own indices are in the block of d. -/
theorem Spanning.shifted_child {d i : ℤ} (hd : 1 ≤ d) (hsum : d + A.PE_size = 2 ^ 31) (hlt : A.PE_root + d < A.PE_size)
    (hmul : A.radix * d < 2 ^ 31) (hi : 1 ≤ i) (hir : i ≤ A.radix) :
    A.radix * d ≤ A.PE_size - A.radix * d + i - 1 ∧ A.PE_size - A.radix * d + i - 1 < A.radix * d + A.radix := by
  have hradix := A.two_le
  have hroot0 := A.root_nonneg
  have hle : A.radix * 1 ≤ A.radix * d := mul_le_mul_of_nonneg_left hd (by omega)
  have hid := A.idOf_shifted hd hsum hlt
  have htmp : childId A.radix (-d) i = -(A.radix * d) + i := by
    rw [childId, wrap_wrap_add, mul_neg, wrap_of_fits (by omega) ⟨by omega, by omega⟩]
  have hchild := h.child (r := A.PE_root + d) (i := i) (by omega) hlt hi hir (by rw [hid, htmp]; omega)
  have hrank : A.childRank (-(A.radix * d) + i) = (A.PE_root - A.radix * d + i).tmod A.PE_size := by
    rw [childRank, wrap_of_fits (by omega) ⟨by omega, by omega⟩]
    congr 1
    ring
  rw [hid, htmp, hrank] at hchild
  obtain ⟨⟨hc0, -⟩, hcroot, hparent⟩ := hchild
  by_cases hneg : A.PE_root - A.radix * d + i < 0
  · -- the child would be rank 0, a whole round before the root
    have hzero : (A.PE_root - A.radix * d + i).tmod A.PE_size = 0 := le_antisymm (tmod_nonpos hneg.le _) hc0
    have hround : A.PE_size ≤ -(A.PE_root - A.radix * d + i) :=
      Int.le_of_dvd (by omega) (Int.dvd_neg.mpr (Int.dvd_of_tmod_eq_zero hzero))
    rw [hzero] at hcroot hparent
    have := A.index_of_parent le_rfl (by omega) hd hparent
    omega
  · rw [Int.tmod_eq_of_lt (by omega) (by omega)] at hcroot hparent
    have := A.index_of_parent (by omega) (by omega) hd hparent
    omega

/-- and all of them are only if 2 * radix + 1 divides a power of 2 -/
theorem Spanning.not_shifted {d : ℤ} (hd : 1 ≤ d) (hsum : d + A.PE_size = 2 ^ 31) (hlt : A.PE_root + d < A.PE_size)
    (hmul : A.radix * d < 2 ^ 31) : False := by
  have hradix := A.two_le
  obtain ⟨hfirst, -⟩ := h.shifted_child hd hsum hlt hmul le_rfl (by omega)
  obtain ⟨-, hlast⟩ := h.shifted_child hd hsum hlt hmul (show 1 ≤ A.radix by omega) le_rfl
  have hsize : A.PE_size = 2 * (A.radix * d) := by omega
  have hdvd : 2 * A.radix + 1 ∣ 2 ^ 32 * A.radix := by
    refine ⟨A.PE_size, ?_⟩
    calc 2 ^ 32 * A.radix = 2 * A.radix * (d + A.PE_size) := by rw [hsum]; ring
      _ = 2 * (A.radix * d) + 2 * A.radix * A.PE_size := by ring
      _ = (2 * A.radix + 1) * A.PE_size := by rw [← hsize]; ring
  have hcoprime : IsCoprime (2 * A.radix + 1) (2 ^ 32 * A.radix) :=
    (IsCoprime.pow_right ⟨1, -A.radix, by ring⟩).mul_right ⟨1, -2, by ring⟩
  have hunit := Int.isUnit_iff.mp (hcoprime.isUnit_of_dvd' (dvd_refl _) hdvd)
  omega

/-- the indices of the children stay below 2^31 -/
theorem Spanning.mul_lt : A.radix * A.PE_size < 2 ^ 31 := by
  have hradix := A.two_le
  have hroot0 := A.root_nonneg
  have hrootlt := A.root_lt
  have hsize := A.size_lt
  by_contra hge
  obtain ⟨hm0, -, hm1, hm2⟩ := tdiv_bounds (show (0 : ℤ) ≤ 2 ^ 31 - 1 by decide) hradix
  set m := (2 ^ 31 - 1 : ℤ).tdiv A.radix
  have hmsize : m < A.PE_size := lt_of_mul_lt_mul_left (show A.radix * m < A.radix * A.PE_size by omega) (by omega)
  -- the member with the index m, whose last child reaches 2^31
  by_cases hbefore : A.PE_size ≤ m + A.PE_root
  · have hid : A.idOf (m + A.PE_root - A.PE_size) = m := by
      rw [A.idOf_of_lt (by omega) (by omega)]
      ring
    exact h.not_wrapped (r := m + A.PE_root - A.PE_size) (by omega) (by omega) (by rw [hid]; omega) (by rw [hid]; omega)
  · by_cases hfits : m + A.PE_size < 2 ^ 31
    · have hid : A.idOf (m + A.PE_root) = m := by
        rw [A.idOf_of_ge (by omega) (by omega) (by omega)]
        ring
      exact h.not_wrapped (r := m + A.PE_root) (by omega) (by omega) (by rw [hid]; omega) (by rw [hid]; omega)
    · -- its own sum does not fit
      have hle : A.radix * (2 ^ 31 - A.PE_size) ≤ A.radix * m := mul_le_mul_of_nonneg_left (by omega) (by omega)
      exact h.not_shifted (d := 2 ^ 31 - A.PE_size) (by omega) (by omega) (by omega) (by omega)

end

/-- **When the members make a spanning tree**: the indices of all children are below 2^31, and the counter of the loop
can pass the radix. -/
theorem spanning_iff : A.Spanning ↔ A.radix * A.PE_size < 2 ^ 31 ∧ A.radix < 2 ^ 31 - 1 :=
  ⟨fun h => ⟨h.mul_lt, h.radix_lt⟩, fun h => A.spanning_of_lt h.1 h.2⟩

end Args

/-- 100000 PEs and the radix 30000. The member 71582 takes 30000 * 71582 + 23648 for the index of a child, which is
2^31. -/
def largeArgs : Args where
  num_pes := 100000
  radix := 30000
  PE_start := 0
  stride := 1
  PE_size := 100000
  PE_root := 0
  two_le := by decide
  radix_lt := by decide
  start_nonneg := by decide
  stride_pos := by decide
  root_nonneg := by decide
  root_lt := by decide
  last_lt := by decide
  num_pes_lt := by decide

theorem large_not_spanning : ¬ largeArgs.Spanning := fun h => absurd h.mul_lt (by decide)

example : largeArgs.childRank (childId 30000 (largeArgs.idOf 71582) 23648) = -83648 := by decide

end SandiaShmem.Collectives.KaryTree
