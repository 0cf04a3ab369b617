/-
The tree of a call.

The tree algorithms take the tree of all PEs, which `shmem_internal_collectives_init` has built, when the active set is
all PEs and the root is 0, and the one of `shmem_internal_build_kary_tree` else. The radix is the parameter
SHMEM_COLL_RADIX, which nothing relates to the number of PEs, and the indices are `int`s.

- `treeFamily`: what a PE computes for itself.
- `TreeFits`: the initialisation has worked, or the indices of all children are below 2^31.
- `exists_tree`: the members compute a spanning tree of the active set then. Where `shmem_internal_build_kary_tree` is
  called, from 2^31 on they do not (`KaryTree.Args.spanning_iff`).
- `exists_tree_append`: from there on some of them take on children that are not theirs.
-/
import SandiaShmem.Collectives.KaryTree
import SandiaShmem.Collectives.CollInit

namespace SandiaShmem.Collectives

open CInt

/-! ## Model -/

/-- the `int` that stands for a PE; a negative one is no PE of any job -/
def toPE (p : ℤ) : ℕ := (uwrap 32 p).toNat

/-- the parent and the children of a PE in the tree algorithms. A library whose initialisation has failed makes no calls,
and the loop over the children ends unless the radix is 2^31 − 1. -/
def treeFamily (radix : ℕ) (A : ActiveSet) (PE_root my_pe : ℕ) : ℕ × List ℕ :=
  if A.PE_size = A.num_pes ∧ PE_root = 0 then
    match CollInit.collectivesInit A.num_pes radix my_pe (A.num_pes + 1) with
    | .ok T => (toPE T.full_tree_parent, T.children.map toPE)
    | .error _ => (my_pe, [])
  else
    match KaryTree.buildKaryTree (wrap 32 radix) A.PE_start A.PE_stride A.PE_size PE_root my_pe (radix + 1) with
    | some (parent, children) => (toPE parent, children.map toPE)
    | none => (my_pe, [])

/-- the call takes the tree of all PEs -/
def UsesFullTree (A : ActiveSet) (PE_root : ℕ) : Prop := A.PE_size = A.num_pes ∧ PE_root = 0

/-- the tree is right, in a job of `int` many PEs: an initialisation that has worked has given it, or the indices of the
children are `int`s -/
structure TreeFits (radix : ℕ) (A : ActiveSet) (PE_root : ℕ) : Prop where
  two_le : 2 ≤ radix
  num_pes_lt : A.num_pes < 2 ^ 31
  init : UsesFullTree A PE_root → ∃ k, CollInit.PowWithin A.num_pes radix k
  index_lt : ¬ UsesFullTree A PE_root → radix * A.PE_size < 2 ^ 31

/-- the members of a barrier come out of the construction of the tree, whatever children it gives them: the
initialisation has worked, or the radix can be passed by the counter of the loop, and the rank and the size of the set
add up to an `int` -/
structure TreeRuns (radix : ℕ) (A : ActiveSet) : Prop where
  two_le : 2 ≤ radix
  num_pes_lt : A.num_pes < 2 ^ 31
  init : UsesFullTree A 0 → ∃ k, CollInit.PowWithin A.num_pes radix k
  radix_lt : ¬ UsesFullTree A 0 → radix < 2 ^ 31 - 1
  size_le : ¬ UsesFullTree A 0 → A.PE_size ≤ 2 ^ 30

/-! ## The tree -/

theorem toPE_cast {p : ℕ} (h : p < 2 ^ 31) : toPE p = p := by
  rw [toPE, uwrap_of_lt (by omega) (by omega), Int.toNat_natCast]

theorem map_toPE {l : List ℕ} (h : ∀ c ∈ l, c < 2 ^ 31) : (l.map fun c : ℕ => (c : ℤ)).map toPE = l := by
  rw [List.map_map]
  exact (List.map_congr_left fun c hc => toPE_cast (h c hc)).trans (List.map_id l)

/-- a member is one of the PEs of the job -/
theorem ActiveSet.lt_of_mem {A : ActiveSet} {v : ℕ} (hv : v ∈ A.members) : v < A.num_pes := by
  obtain ⟨r, hr, rfl⟩ := A.mem_members.mp hv
  have hle := Nat.mul_le_mul_left A.PE_stride (show r ≤ A.PE_size - 1 by omega)
  have hbound := A.bound
  rw [ActiveSet.pe, Nat.mul_comm]
  omega

/-- what the arithmetic gives is the tree, when it gives the edges as `int`s -/
theorem toPE_tree {A : ActiveSet} {T : ParentTree} (hnodes : ∀ v, v ∈ A.members ↔ v ∈ T.nodes)
    (hnum : A.num_pes < 2 ^ 31) {v : ℕ} (hv : v ∈ A.members) :
    (toPE (T.parent v), ((T.children v).map fun c : ℕ => (c : ℤ)).map toPE) = (T.parent v, T.children v) := by
  have hlt : ∀ {u : ℕ}, u ∈ T.nodes → u < 2 ^ 31 := fun hu => (ActiveSet.lt_of_mem ((hnodes _).mpr hu)).trans hnum
  have hvn := (hnodes v).mp hv
  rw [toPE_cast (hlt (T.parent_mem v hvn)), map_toPE fun c hc => hlt (T.child_mem hvn hc)]

section
variable {radix : ℕ} {A : ActiveSet} {PE_root : ℕ}

theorem TreeFits.radix_lt (h : TreeFits radix A PE_root) (h2 : 2 ≤ A.PE_size) (hkary : ¬ UsesFullTree A PE_root) :
    radix < 2 ^ 31 - 1 := by
  have hle := Nat.mul_le_mul_left radix h2
  have := h.two_le
  have := h.index_lt hkary
  omega

/-- where the tree is right the construction ends -/
theorem TreeFits.runs (h : TreeFits radix A 0) (h2 : 2 ≤ A.PE_size) : TreeRuns radix A where
  two_le := h.two_le
  num_pes_lt := h.num_pes_lt
  init := h.init
  radix_lt := h.radix_lt h2
  size_le hkary := by
    have hle := Nat.mul_le_mul_right A.PE_size h.two_le
    have hlt := h.index_lt hkary
    omega

/-- the call as one of `shmem_internal_build_kary_tree` -/
def karyArgs (radix : ℕ) (A : ActiveSet) (PE_root : ℕ) (hradix : 2 ≤ radix) (hlt : radix < 2 ^ 31 - 1)
    (hnum : A.num_pes < 2 ^ 31) (hroot : PE_root < A.PE_size) : KaryTree.Args where
  num_pes := A.num_pes
  radix := radix
  PE_start := A.PE_start
  stride := A.PE_stride
  PE_size := A.PE_size
  PE_root := PE_root
  two_le := by exact_mod_cast hradix
  radix_lt := by omega
  start_nonneg := by omega
  stride_pos := by exact_mod_cast A.stride_pos
  root_nonneg := by omega
  root_lt := by exact_mod_cast hroot
  last_lt := by
    have hpred : (A.PE_size : ℤ) - 1 = ((A.PE_size - 1 : ℕ) : ℤ) := by omega
    rw [hpred, mul_comm]
    exact_mod_cast A.bound
  num_pes_lt := by exact_mod_cast hnum

/-- **The members of a call agree on a tree of the active set.** -/
theorem exists_tree (h : TreeFits radix A PE_root) (h2 : 2 ≤ A.PE_size) (hroot : PE_root < A.PE_size) :
    ∃ T : ParentTree, T.root = A.pe PE_root ∧ (∀ v, v ∈ A.members ↔ v ∈ T.nodes) ∧
      ∀ v ∈ A.members, treeFamily radix A PE_root v = (T.parent v, T.children v) := by
  have hradix := h.two_le
  by_cases hfull : UsesFullTree A PE_root
  · obtain ⟨k, hpow⟩ := h.init hfull
    obtain ⟨hsize, rfl⟩ := hfull
    obtain ⟨h0, h1⟩ := ActiveSet.full hsize h2
    have hnodes : ∀ v, v ∈ A.members ↔ v ∈ (fullTree A.num_pes radix (by omega) hradix).nodes := by
      intro v
      simp [fullTree, A.mem_members, ActiveSet.pe, h0, h1, hsize]
    refine ⟨fullTree A.num_pes radix (by omega) hradix, by rw [A.pe_zero, h0]; rfl, hnodes, fun v hv => ?_⟩
    obtain ⟨T, hT, -, hparent, hchildren⟩ := hpow.collectivesInit_eq (by omega) (A.lt_of_mem hv)
    rw [treeFamily, if_pos ⟨hsize, rfl⟩, hT]
    simp only [hparent, hchildren]
    exact toPE_tree hnodes h.num_pes_lt hv
  · have hnodes : ∀ v, v ∈ A.members ↔ v ∈ (karyTree radix (by omega) A PE_root hroot).nodes :=
      fun v => (mem_karyTree radix (by omega) A PE_root hroot).symm
    refine ⟨karyTree radix (by omega) A PE_root hroot, karyTree_root .., hnodes, fun v hv => ?_⟩
    have hmax := h.radix_lt h2 hfull
    have hmatch : (karyArgs radix A PE_root hradix hmax h.num_pes_lt hroot).Matches A radix PE_root :=
      ⟨rfl, rfl, rfl, rfl, rfl⟩
    obtain ⟨r, hr, rfl⟩ := A.mem_members.mp hv
    have heq := hmatch.buildKaryTree_eq (h.index_lt hfull) (show (radix : ℤ) < 2 ^ 31 - 1 by omega) (by omega) hr
      (Nat.lt_succ_self radix)
    have hint : Fits 32 (radix : ℤ) := ⟨by omega, by omega⟩
    rw [treeFamily, if_neg (show ¬ (A.PE_size = A.num_pes ∧ PE_root = 0) from hfull), wrap_of_fits (by omega) hint]
    simp only [karyArgs] at heq
    rw [heq]
    exact toPE_tree hnodes h.num_pes_lt hv

/-- **Whatever the radix, they agree on it but for some that take on more children**, in calls with root 0. -/
theorem exists_tree_append (h : TreeRuns radix A) (h2 : 2 ≤ A.PE_size) :
    ∃ (T : ParentTree) (extra : ℕ → List ℕ), T.root = A.pe 0 ∧ (∀ v, v ∈ A.members ↔ v ∈ T.nodes) ∧
      ∀ v ∈ A.members, treeFamily radix A 0 v = (T.parent v, T.children v ++ extra v) := by
  have hradix := h.two_le
  have hroot : 0 < A.PE_size := by omega
  by_cases hfull : UsesFullTree A 0
  · obtain ⟨T, hT, hnodes, hfam⟩ :=
      exists_tree ⟨hradix, h.num_pes_lt, h.init, fun hnot => absurd hfull hnot⟩ h2 hroot
    exact ⟨T, fun _ => [], hT, hnodes, fun v hv => by rw [hfam v hv, List.append_nil]⟩
  · have hmax := h.radix_lt hfull
    have hsize := h.size_le hfull
    have hnodes : ∀ v, v ∈ A.members ↔ v ∈ (karyTree radix (by omega) A 0 hroot).nodes :=
      fun v => (mem_karyTree radix (by omega) A 0 hroot).symm
    have hmatch : (karyArgs radix A 0 hradix hmax h.num_pes_lt hroot).Matches A radix 0 := ⟨rfl, rfl, rfl, rfl, rfl⟩
    have hint : Fits 32 (radix : ℤ) := ⟨by omega, by omega⟩
    have hmember : ∀ v ∈ A.members, ∃ more : List ℕ, treeFamily radix A 0 v =
        ((karyTree radix (by omega) A 0 hroot).parent v, (karyTree radix (by omega) A 0 hroot).children v ++ more) := by
      intro v hv
      obtain ⟨r, hr, rfl⟩ := A.mem_members.mp hv
      obtain ⟨extra, heq⟩ := hmatch.buildKaryTree_append (by omega) (show (radix : ℤ) < 2 ^ 31 - 1 by omega) (by omega) hr
        (Nat.lt_succ_self radix)
      have htree := toPE_tree hnodes h.num_pes_lt (A.pe_mem hr)
      simp only [Prod.mk.injEq] at htree
      rw [treeFamily, if_neg (show ¬ (A.PE_size = A.num_pes ∧ 0 = 0) from hfull), wrap_of_fits (by omega) hint]
      simp only [karyArgs] at heq
      rw [heq]
      dsimp only
      rw [List.map_append, htree.1, htree.2]
      exact ⟨_, rfl⟩
    choose! extra hfam using hmember
    exact ⟨_, extra, karyTree_root .., hnodes, hfam⟩

end

end SandiaShmem.Collectives
