/-
Active sets and the trees of the collectives.

An active set is `PE_size` PEs from `PE_start` on, `PE_stride` apart. The collectives run over one of three trees: the
star of the linear algorithms, the k-ary tree, which `shmem_internal_build_kary_tree` computes in `int`s
(`Collectives.KaryTree`), and, when the set is all PEs, the tree that `shmem_internal_collectives_init` builds once
(`full_tree_parent`, `full_tree_children`).

- `starTree`, `karyTree`, `fullTree`: the trees, on numbers without a bound.
-/
import SandiaShmem.Core.ParentTree
import SandiaShmem.Config

namespace SandiaShmem.Collectives

/-! ## Active sets -/

/-- a valid active set in a job of `num_pes` PEs -/
structure ActiveSet where
  PE_start : ℕ
  PE_stride : ℕ
  PE_size : ℕ
  num_pes : ℕ
  stride_pos : 1 ≤ PE_stride
  size_pos : 1 ≤ PE_size
  bound : PE_start + PE_stride * (PE_size - 1) < num_pes

namespace ActiveSet
variable (A : ActiveSet)

/-- the size of the sets of three PEs in the witnesses -/
theorem three_pos : 1 ≤ 3 := by decide

/-- the PE with a rank in the set -/
def pe (r : ℕ) : ℕ := A.PE_start + r * A.PE_stride

/-- the rank a PE computes for itself -/
def rank (my_pe : ℕ) : ℕ := (my_pe - A.PE_start) / A.PE_stride

/-- the members in the order of their ranks -/
def members : List ℕ := (List.range A.PE_size).map A.pe

@[simp] theorem rank_pe (r : ℕ) : A.rank (A.pe r) = r := by
  have := A.stride_pos
  simp only [rank, pe, Nat.add_sub_cancel_left]
  exact Nat.mul_div_cancel r (by omega)

theorem pe_inj {r r' : ℕ} : A.pe r = A.pe r' ↔ r = r' :=
  ⟨fun h => by rw [← A.rank_pe r, h, A.rank_pe], fun h => h ▸ rfl⟩

theorem pe_lt_iff {r r' : ℕ} : A.pe r < A.pe r' ↔ r < r' := by
  simp only [pe, Nat.add_lt_add_iff_left]
  exact Nat.mul_lt_mul_right A.stride_pos

@[simp] theorem pe_zero : A.pe 0 = A.PE_start := by simp [pe]

theorem mem_members {v : ℕ} : v ∈ A.members ↔ ∃ r < A.PE_size, A.pe r = v := by simp [members]

theorem pe_mem {r : ℕ} (h : r < A.PE_size) : A.pe r ∈ A.members := A.mem_members.mpr ⟨r, h, rfl⟩

theorem image_pe : (Finset.range A.PE_size).image A.pe = A.members.toFinset := by
  ext v
  simp [mem_members]

/-- around the ranks: different ranks have different next ones -/
theorem next_inj {r r' : ℕ} (h : r < A.PE_size) (h' : r' < A.PE_size) (heq : (r + 1) % A.PE_size = (r' + 1) % A.PE_size) :
    r = r' := by
  have := Nat.ModEq.add_right_cancel' 1 heq
  rwa [Nat.ModEq, Nat.mod_eq_of_lt h, Nat.mod_eq_of_lt h'] at this

/-- and every rank is the next one of another -/
theorem exists_previous {r : ℕ} (h : r < A.PE_size) : ∃ l < A.PE_size, (l + 1) % A.PE_size = r := by
  refine ⟨(r + A.PE_size - 1) % A.PE_size, Nat.mod_lt _ A.size_pos, ?_⟩
  rw [Nat.mod_add_mod, show r + A.PE_size - 1 + 1 = r + A.PE_size by omega, Nat.add_mod_right, Nat.mod_eq_of_lt h]

/-- a set of all PEs starts at 0 and has no gaps -/
theorem full {A : ActiveSet} (h : A.PE_size = A.num_pes) (h2 : 2 ≤ A.PE_size) : A.PE_start = 0 ∧ A.PE_stride = 1 := by
  have hb := A.bound
  have hs := A.stride_pos
  obtain ⟨m, hm⟩ : ∃ m, A.PE_size = m + 2 := ⟨A.PE_size - 2, by omega⟩
  rw [← h, hm] at hb
  have hle : A.PE_stride * (m + 1) < m + 2 := by
    have : m + 2 - 1 = m + 1 := by omega
    rw [this] at hb
    omega
  have hone : A.PE_stride = 1 := by
    by_contra hne
    have : 2 * (m + 1) ≤ A.PE_stride * (m + 1) := Nat.mul_le_mul_right _ (by omega)
    omega
  refine ⟨?_, hone⟩
  rw [hone] at hb
  omega

end ActiveSet

/-! ## The star -/

/-- the ranks of the linear algorithms: everybody under rank 0 -/
def starRanks (n : ℕ) (hn : 1 ≤ n) : ParentTree where
  nodes := Finset.range n
  root := 0
  parent _ := 0
  children v := if v = 0 then (List.range (n - 1)).map (· + 1) else []
  depth v := v
  root_mem := by simp; omega
  parent_root := rfl
  parent_mem _ _ := by simp; omega
  mem_children v hv c := by
    by_cases h : v = 0
    · subst h
      simp only [if_true, List.mem_map, List.mem_range, Finset.mem_range]
      constructor
      · rintro ⟨x, hx, rfl⟩
        exact ⟨by omega, by omega, trivial⟩
      · rintro ⟨hc, h0, -⟩
        exact ⟨c - 1, by omega, by omega⟩
    · simp only [h, if_false, List.not_mem_nil, false_iff]
      rintro ⟨-, -, h0⟩
      exact h h0.symm
  nodup v _ := by
    split_ifs
    · exact List.nodup_range.map (fun a b h => by simpa using h)
    · exact List.nodup_nil
  depth_parent v _ hne := by omega

/-- the tree of the linear algorithms -/
def starTree (A : ActiveSet) : ParentTree :=
  (starRanks A.PE_size A.size_pos).map A.pe A.rank fun v _ => A.rank_pe v

/-! ## The k-ary tree -/

/-- the k-ary tree on the shifted indices, the root being 0 -/
def karyIds (radix n : ℕ) (hr : 1 ≤ radix) (hn : 1 ≤ n) : ParentTree where
  nodes := Finset.range n
  root := 0
  parent v := (v - 1) / radix
  children v := ((List.range radix).map fun i => radix * v + (i + 1)).filter (· < n)
  depth v := v
  root_mem := by simp; omega
  parent_root := by simp
  parent_mem v hv := by
    simp only [Finset.mem_range] at hv ⊢
    have := Nat.div_le_self (v - 1) radix
    omega
  mem_children v hv c := by
    simp only [List.mem_filter, List.mem_map, List.mem_range, decide_eq_true_eq, Finset.mem_range]
    constructor
    · rintro ⟨⟨i, hi, rfl⟩, hc⟩
      refine ⟨hc, by omega, ?_⟩
      rw [show radix * v + (i + 1) - 1 = radix * v + i by omega, Nat.mul_add_div (by omega), Nat.div_eq_of_lt hi,
        Nat.add_zero]
    · rintro ⟨hc, h0, rfl⟩
      refine ⟨⟨(c - 1) % radix, Nat.mod_lt _ (by omega), ?_⟩, hc⟩
      have := Nat.div_add_mod (c - 1) radix
      omega
  nodup v _ := by
    refine List.Nodup.filter _ (List.nodup_range.map ?_)
    intro a b h
    simpa using h
  depth_parent v _ hne := by
    have := Nat.div_le_self (v - 1) radix
    omega

/-- the index of a PE in the shifted order and back -/
theorem unshift {n root t : ℕ} (hroot : root < n) (ht : t < n) : ((root + t) % n + n - root) % n = t := by
  by_cases h : root + t < n
  · rw [Nat.mod_eq_of_lt h, show root + t + n - root = t + n by omega, Nat.add_mod_right, Nat.mod_eq_of_lt ht]
  · have hmod : (root + t) % n = root + t - n := by
      rw [Nat.mod_eq_sub_mod (by omega), Nat.mod_eq_of_lt (by omega)]
    rw [hmod, show root + t - n + n - root = t by omega, Nat.mod_eq_of_lt ht]

/-- the k-ary tree of an active set: index t is the PE t places behind the root -/
def karyTree (radix : ℕ) (hr : 1 ≤ radix) (A : ActiveSet) (PE_root : ℕ) (hroot : PE_root < A.PE_size) : ParentTree :=
  (karyIds radix A.PE_size hr A.size_pos).map (fun t => A.pe ((PE_root + t) % A.PE_size))
    (fun v => (A.rank v + A.PE_size - PE_root) % A.PE_size) fun t ht => by
      rw [A.rank_pe]
      exact unshift hroot (Finset.mem_range.mp ht)

/-- going around from the root reaches every rank -/
theorem mem_karyTree (radix : ℕ) (hr : 1 ≤ radix) (A : ActiveSet) (PE_root : ℕ) (hroot : PE_root < A.PE_size) {v : ℕ} :
    v ∈ (karyTree radix hr A PE_root hroot).nodes ↔ v ∈ A.members := by
  simp only [karyTree, ParentTree.map, karyIds, Finset.mem_image, Finset.mem_range, A.mem_members]
  constructor
  · rintro ⟨t, -, rfl⟩
    exact ⟨_, Nat.mod_lt _ A.size_pos, rfl⟩
  · rintro ⟨r, hr, rfl⟩
    refine ⟨(r + A.PE_size - PE_root) % A.PE_size, Nat.mod_lt _ A.size_pos, ?_⟩
    congr 1
    rw [Nat.add_mod_mod, show PE_root + (r + A.PE_size - PE_root) = r + A.PE_size by omega, Nat.add_mod_right,
      Nat.mod_eq_of_lt hr]

theorem karyTree_root (radix : ℕ) (hr : 1 ≤ radix) (A : ActiveSet) (PE_root : ℕ) (hroot : PE_root < A.PE_size) :
    (karyTree radix hr A PE_root hroot).root = A.pe PE_root := by
  simp [karyTree, ParentTree.map, karyIds, Nat.mod_eq_of_lt hroot]

theorem karyTree_parent (radix : ℕ) (hr : 1 ≤ radix) (A : ActiveSet) (PE_root : ℕ) (hroot : PE_root < A.PE_size)
    (my_pe : ℕ) : (karyTree radix hr A PE_root hroot).parent my_pe =
      A.pe ((((A.rank my_pe + A.PE_size - PE_root) % A.PE_size - 1) / radix + PE_root) % A.PE_size) := by
  simp only [karyTree, ParentTree.map, karyIds]
  rw [Nat.add_comm]

theorem karyTree_children (radix : ℕ) (hr : 1 ≤ radix) (A : ActiveSet) (PE_root : ℕ) (hroot : PE_root < A.PE_size)
    (my_pe : ℕ) : (karyTree radix hr A PE_root hroot).children my_pe =
      (((List.range radix).map fun i => radix * ((A.rank my_pe + A.PE_size - PE_root) % A.PE_size) + (i + 1)).filter
        (· < A.PE_size)).map fun t => A.pe ((PE_root + t) % A.PE_size) := rfl

/-! ## The tree of all PEs -/

/-- the fan-out of a level of the full tree, `i` being the distance of the level -/
def levelRadix (num_pes radix i : ℕ) : ℕ := if num_pes / i < radix then num_pes / i + 1 else radix

/-- the loop of `shmem_internal_collectives_init` over the levels: the children in the order they are found, and the
last `my_root` -/
def fullTreeLoop (num_pes radix my_pe : ℕ) : ℕ → ℕ → ℕ → List ℕ × ℕ
  | 0, _, my_root => ([], my_root)
  | fuel + 1, i, my_root =>
    if i ≤ num_pes then
      let tmp_radix := levelRadix num_pes radix i
      let my_root := my_pe / (tmp_radix * i) * (tmp_radix * i)
      if my_root ≠ my_pe then ([], my_root)
      else
        let next := fullTreeLoop num_pes radix my_pe fuel (i * radix) my_root
        ((((List.range (tmp_radix - 1)).map fun j => my_pe + i * (j + 1)).filter (· < num_pes)) ++ next.1, next.2)
    else ([], my_root)

/-- `full_tree_children`, which is filled from its end -/
def fullTreeChildren (num_pes radix my_pe : ℕ) : List ℕ :=
  (fullTreeLoop num_pes radix my_pe (num_pes + 1) 1 0).1.reverse

/-- `full_tree_parent` -/
def fullTreeParent (num_pes radix my_pe : ℕ) : ℕ := (fullTreeLoop num_pes radix my_pe (num_pes + 1) 1 0).2

example : (List.range 6).map (fullTreeParent 6 2) = [0, 0, 0, 2, 0, 4] := by decide
example : (List.range 6).map (fullTreeChildren 6 2) = [[4, 2, 1], [], [3], [], [5], []] := by decide

section
variable {N R : ℕ}

/-- the number of PEs under a PE that starts a block of level l -/
def blockSize (N R l : ℕ) : ℕ := levelRadix N R (R ^ l) * R ^ l

theorem levelRadix_le (i : ℕ) : levelRadix N R i ≤ R := by
  unfold levelRadix
  split_ifs <;> omega

/-- below the top level a block has R blocks of the level before -/
theorem blockSize_of_le (hR : 2 ≤ R) {l : ℕ} (h : R ^ (l + 1) ≤ N) : blockSize N R l = R ^ (l + 1) := by
  have hpos : 0 < R ^ l := Nat.pow_pos (by omega)
  have hge : R ≤ N / R ^ l := (Nat.le_div_iff_mul_le hpos).mpr (by rwa [← Nat.pow_succ'])
  rw [blockSize, levelRadix, if_neg (by omega), Nat.pow_succ']

/-- the block of the top level has everybody -/
theorem lt_blockSize (hR : 2 ≤ R) {l : ℕ} (h : N < R ^ (l + 1)) : N < blockSize N R l := by
  have hpos : 0 < R ^ l := Nat.pow_pos (by omega)
  have hlt : N / R ^ l < R := (Nat.div_lt_iff_lt_mul hpos).mpr (by rwa [← Nat.pow_succ'])
  rw [blockSize, levelRadix, if_pos hlt, Nat.mul_comm]
  exact Nat.lt_mul_div_succ N hpos

theorem blockSize_pos (hR : 2 ≤ R) (l : ℕ) : 0 < blockSize N R l := by
  have hpos : 0 < R ^ l := Nat.pow_pos (by omega)
  refine Nat.mul_pos ?_ hpos
  unfold levelRadix
  split_ifs
  · exact Nat.succ_pos _
  · omega

/-- a block of a lower level fits into what stands above it -/
theorem blockSize_dvd_pow (hR : 2 ≤ R) {l l' : ℕ} (hl : l < l') (h : R ^ l' ≤ N) : blockSize N R l ∣ R ^ l' := by
  have hle : R ^ (l + 1) ≤ R ^ l' := Nat.pow_le_pow_right (by omega) hl
  rw [blockSize_of_le hR (by omega)]
  exact Nat.pow_dvd_pow R hl

theorem div_mul_ne_iff {a b : ℕ} : a / b * b ≠ a ↔ ¬ b ∣ a :=
  not_congr ⟨fun h => ⟨a / b, by rw [Nat.mul_comm]; exact h.symm⟩, Nat.div_mul_cancel⟩

/-- a PE that starts its blocks up to level l' and not the one of level l' gets that block's start as parent -/
theorem fullTreeLoop_parent {v l' : ℕ} (hl' : R ^ l' ≤ N) (hv : ¬ blockSize N R l' ∣ v) (fuel l r : ℕ) (hl : l ≤ l')
    (hfuel : l' < l + fuel) (hlow : ∀ k, l ≤ k → k < l' → blockSize N R k ∣ v) (hR : 2 ≤ R) :
    (fullTreeLoop N R v fuel (R ^ l) r).2 = v / blockSize N R l' * blockSize N R l' := by
  induction fuel generalizing l r with
  | zero => omega
  | succ fuel ih =>
    have hle : R ^ l ≤ N := le_trans (Nat.pow_le_pow_right (by omega) hl) hl'
    simp only [fullTreeLoop, hle, if_true]
    rcases Nat.eq_or_lt_of_le hl with rfl | hlt
    · have hne := div_mul_ne_iff.mpr hv
      rw [blockSize] at hne ⊢
      rw [if_pos hne]
    · have heq : v / blockSize N R l * blockSize N R l = v := by
        by_contra hne
        exact div_mul_ne_iff.mp hne (hlow l (le_refl l) hlt)
      rw [blockSize] at heq
      rw [if_neg (by simpa using heq)]
      dsimp only
      rw [← Nat.pow_succ]
      exact ih (l + 1) _ hlt (by omega) fun k hk => hlow k (by omega)

theorem fullTreeLoop_parent_zero (fuel i : ℕ) : (fullTreeLoop N R 0 fuel i 0).2 = 0 := by
  induction fuel generalizing i with
  | zero => rfl
  | succ fuel ih =>
    simp only [fullTreeLoop, Nat.zero_div, Nat.zero_mul, ne_eq, not_true_eq_false, if_false]
    split_ifs
    · exact ih _
    · rfl

/-- the children are found level by level, as long as the PE starts its blocks -/
theorem mem_fullTreeLoop {v c : ℕ} (hR : 2 ≤ R) (fuel l r : ℕ) (hfuel : N < R ^ (l + fuel)) :
    c ∈ (fullTreeLoop N R v fuel (R ^ l) r).1 ↔
      ∃ l', l ≤ l' ∧ R ^ l' ≤ N ∧ (∀ k, l ≤ k → k ≤ l' → blockSize N R k ∣ v) ∧
        ∃ j, 1 ≤ j ∧ j < levelRadix N R (R ^ l') ∧ c = v + R ^ l' * j ∧ c < N := by
  induction fuel generalizing l r with
  | zero =>
    simp only [fullTreeLoop, List.not_mem_nil, false_iff]
    rintro ⟨l', hl, hle, -⟩
    have := Nat.pow_le_pow_right (show 0 < R by omega) hl
    rw [Nat.add_zero] at hfuel
    omega
  | succ fuel ih =>
    by_cases hle : R ^ l ≤ N
    · simp only [fullTreeLoop, hle, if_true]
      by_cases hd : blockSize N R l ∣ v
      · have heq : v / blockSize N R l * blockSize N R l = v := Nat.div_mul_cancel hd
        rw [blockSize] at heq
        rw [if_neg (by simpa using heq)]
        simp only [List.mem_append, List.mem_filter, List.mem_map, List.mem_range, decide_eq_true_eq]
        rw [← Nat.pow_succ, ih (l + 1) _ (by rwa [show l + 1 + fuel = l + (fuel + 1) by omega])]
        constructor
        · rintro (⟨⟨j, hj, rfl⟩, hc⟩ | ⟨l', hl, hle', hall, hj⟩)
          · refine ⟨l, le_refl l, hle, ?_, j + 1, by omega, by omega, rfl, hc⟩
            intro k h1 h2
            rwa [show k = l by omega]
          · refine ⟨l', by omega, hle', ?_, hj⟩
            intro k h1 h2
            rcases Nat.eq_or_lt_of_le h1 with rfl | h1
            · exact hd
            · exact hall k h1 h2
        · rintro ⟨l', hl, hle', hall, j, h1, h2, rfl, hc⟩
          rcases Nat.eq_or_lt_of_le hl with rfl | hl
          · exact Or.inl ⟨⟨j - 1, by omega, by rw [show j - 1 + 1 = j by omega]⟩, hc⟩
          · exact Or.inr ⟨l', hl, hle', fun k hk => hall k (by omega), j, h1, h2, rfl, hc⟩
      · have hne := div_mul_ne_iff.mpr hd
        rw [blockSize] at hne
        rw [if_pos hne]
        simp only [List.not_mem_nil, false_iff]
        rintro ⟨l', hl, -, hall, -⟩
        exact hd (hall l (le_refl l) hl)
    · simp only [fullTreeLoop, hle, if_false, List.not_mem_nil, false_iff]
      rintro ⟨l', hl, hle', -⟩
      exact hle (le_trans (Nat.pow_le_pow_right (by omega) hl) hle')

/-- they are found in increasing order, each at most once -/
theorem fullTreeLoop_sorted {v : ℕ} (hR : 2 ≤ R) (fuel l r : ℕ) :
    (fullTreeLoop N R v fuel (R ^ l) r).1.Pairwise (· < ·) ∧
      ∀ c ∈ (fullTreeLoop N R v fuel (R ^ l) r).1, v + R ^ l ≤ c := by
  have hpos : ∀ l, 0 < R ^ l := fun l => Nat.pow_pos (by omega)
  induction fuel generalizing l r with
  | zero => simp [fullTreeLoop]
  | succ fuel ih =>
    simp only [fullTreeLoop]
    split_ifs with hle hne
    · simp
    · rw [← Nat.pow_succ]
      obtain ⟨hs, hge⟩ := ih (l + 1) (v / (levelRadix N R (R ^ l) * R ^ l) * (levelRadix N R (R ^ l) * R ^ l))
      refine ⟨List.pairwise_append.mpr ⟨?_, hs, ?_⟩, ?_⟩
      · refine List.Pairwise.filter _ (List.pairwise_map.mpr ?_)
        refine List.pairwise_lt_range.imp ?_
        intro a b hab
        have := Nat.mul_lt_mul_of_pos_left (show a + 1 < b + 1 by omega) (hpos l)
        omega
      · intro a ha b hb
        simp only [List.mem_filter, List.mem_map, List.mem_range] at ha
        obtain ⟨⟨j, hj, rfl⟩, -⟩ := ha
        have hjR : j + 1 < R := by have := levelRadix_le (N := N) (R := R) (R ^ l); omega
        have h1 := Nat.mul_lt_mul_of_pos_left hjR (hpos l)
        have h2 := hge b hb
        rw [Nat.pow_succ] at h2
        omega
      · intro c hc
        rcases List.mem_append.mp hc with hc | hc
        · simp only [List.mem_filter, List.mem_map, List.mem_range] at hc
          obtain ⟨⟨j, hj, rfl⟩, -⟩ := hc
          have := Nat.le_mul_of_pos_right (R ^ l) (show 0 < j + 1 by omega)
          omega
        · have h2 := hge c hc
          rw [Nat.pow_succ] at h2
          have := Nat.le_mul_of_pos_right (R ^ l) (show 0 < R by omega)
          omega
    · simp

theorem lt_pow_fuel (hR : 2 ≤ R) : N < R ^ (0 + (N + 1)) := by
  have h1 : N + 1 < R ^ (N + 1) := Nat.lt_pow_self (by omega)
  rw [Nat.zero_add]
  omega

/-- where the loop of a PE other than 0 breaks off -/
theorem exists_break (hR : 2 ≤ R) {v : ℕ} (hv : v < N) (h0 : v ≠ 0) :
    ∃ l, R ^ l ≤ N ∧ l ≤ N ∧ ¬ blockSize N R l ∣ v ∧ ∀ k < l, blockSize N R k ∣ v := by
  classical
  -- the PE does not start the block of the top level
  obtain ⟨t, ht1, ht2⟩ : ∃ t, R ^ t ≤ N ∧ N < R ^ (t + 1) :=
    ⟨Nat.log R N, Nat.pow_log_le_self R (by omega), Nat.lt_pow_succ_log_self (by omega) N⟩
  have htop : ¬ blockSize N R t ∣ v := by
    intro hd
    have := Nat.le_of_dvd (by omega) hd
    have := lt_blockSize hR ht2
    omega
  have hex : ∃ l, ¬ blockSize N R l ∣ v := ⟨t, htop⟩
  have hle : Nat.find hex ≤ t := Nat.find_min' hex htop
  have hpow : R ^ Nat.find hex ≤ N := le_trans (Nat.pow_le_pow_right (by omega) hle) ht1
  refine ⟨Nat.find hex, hpow, ?_, Nat.find_spec hex, fun k hk => not_not.mp (Nat.find_min hex hk)⟩
  have : Nat.find hex < R ^ Nat.find hex := Nat.lt_pow_self (by omega)
  omega

/-- the parent of a PE other than 0, and how far the PE is from it -/
theorem fullTreeParent_eq (hR : 2 ≤ R) {v l : ℕ} (hl : R ^ l ≤ N) (hlN : l ≤ N) (hd : ¬ blockSize N R l ∣ v)
    (hlow : ∀ k < l, blockSize N R k ∣ v) :
    fullTreeParent N R v = v / blockSize N R l * blockSize N R l := by
  have := fullTreeLoop_parent hl hd (N + 1) 0 0 (Nat.zero_le l) (by omega) (fun k _ hk => hlow k hk) hR
  simpa [fullTreeParent] using this

theorem fullTree_mem_children (hR : 2 ≤ R) {v c : ℕ} :
    c ∈ fullTreeChildren N R v ↔
      ∃ l, R ^ l ≤ N ∧ (∀ k ≤ l, blockSize N R k ∣ v) ∧
        ∃ j, 1 ≤ j ∧ j < levelRadix N R (R ^ l) ∧ c = v + R ^ l * j ∧ c < N := by
  have := mem_fullTreeLoop (v := v) (c := c) hR (N + 1) 0 0 (lt_pow_fuel hR)
  simpa [fullTreeChildren] using this

/-- a child of v has v as its parent -/
theorem fullTree_parent_of_child (hR : 2 ≤ R) {v l j : ℕ} (hl : R ^ l ≤ N) (hv : ∀ k ≤ l, blockSize N R k ∣ v)
    (h1 : 1 ≤ j) (h2 : j < levelRadix N R (R ^ l)) : fullTreeParent N R (v + R ^ l * j) = v := by
  have hpos : 0 < R ^ l := Nat.pow_pos (by omega)
  have hlt : R ^ l * j < blockSize N R l := by
    rw [blockSize, Nat.mul_comm]
    exact Nat.mul_lt_mul_of_pos_right h2 hpos
  have hgt : 0 < R ^ l * j := Nat.mul_pos hpos h1
  obtain ⟨q, hq⟩ := hv l (le_refl l)
  have hdiv : (v + R ^ l * j) / blockSize N R l = q := by
    rw [hq, Nat.mul_add_div (blockSize_pos hR l), Nat.div_eq_of_lt hlt, Nat.add_zero]
  have hnd : ¬ blockSize N R l ∣ v + R ^ l * j := by
    rw [Nat.dvd_add_right (hv l (le_refl l))]
    intro hd
    have := Nat.le_of_dvd hgt hd
    omega
  have hlN : l ≤ N := le_trans (Nat.le_of_lt (Nat.lt_pow_self (by omega))) hl
  rw [fullTreeParent_eq hR hl hlN hnd, hdiv, hq, Nat.mul_comm]
  intro k hk
  exact Nat.dvd_add (hv k (le_of_lt hk)) (Dvd.dvd.mul_right (blockSize_dvd_pow hR hk hl) j)

/-- a PE other than 0 is below its parent, and a child of it -/
theorem fullTree_child_of_parent (hR : 2 ≤ R) {c : ℕ} (hc : c < N) (h0 : c ≠ 0) :
    fullTreeParent N R c < c ∧ c ∈ fullTreeChildren N R (fullTreeParent N R c) := by
  obtain ⟨l, hl, hlN, hd, hlow⟩ := exists_break hR hc h0
  have hpos : 0 < R ^ l := Nat.pow_pos (by omega)
  have hpow : R ^ l ∣ c := by
    cases l with
    | zero => simp
    | succ l =>
      have := hlow l (by omega)
      rwa [blockSize_of_le hR hl] at this
  rw [fullTreeParent_eq hR hl hlN hd hlow]
  have hmul := Nat.div_add_mod c (blockSize N R l)
  rw [Nat.mul_comm] at hmul
  have hmodpos : 0 < c % blockSize N R l := Nat.pos_of_ne_zero fun h => hd (Nat.dvd_of_mod_eq_zero h)
  have hmodlt : c % blockSize N R l < blockSize N R l := Nat.mod_lt _ (blockSize_pos hR l)
  -- the rest is a multiple of the distance of the level
  have hpb : R ^ l ∣ blockSize N R l := Dvd.intro_left _ rfl
  obtain ⟨j, hj⟩ : R ^ l ∣ c % blockSize N R l := (Nat.dvd_mod_iff hpb).mpr hpow
  refine ⟨by omega, (fullTree_mem_children hR).mpr ⟨l, hl, ?_, j, ?_, ?_, by omega, hc⟩⟩
  · intro k hk
    refine Dvd.dvd.mul_left ?_ _
    rcases Nat.eq_or_lt_of_le hk with rfl | hk
    · exact dvd_refl _
    · exact dvd_trans (blockSize_dvd_pow hR hk hl) hpb
  · rcases Nat.eq_zero_or_pos j with rfl | hj'
    · omega
    · exact hj'
  · rw [hj, blockSize, Nat.mul_comm] at hmodlt
    exact Nat.lt_of_mul_lt_mul_right hmodlt

/-- the tree of `shmem_internal_collectives_init` -/
def fullTree (N R : ℕ) (hN : 1 ≤ N) (hR : 2 ≤ R) : ParentTree where
  nodes := Finset.range N
  root := 0
  parent := fullTreeParent N R
  children := fullTreeChildren N R
  depth v := v
  root_mem := by simp; omega
  parent_root := fullTreeLoop_parent_zero _ _
  parent_mem v hv := by
    rw [Finset.mem_range] at hv ⊢
    by_cases h0 : v = 0
    · subst h0
      rw [fullTreeParent, fullTreeLoop_parent_zero]
      omega
    · have := (fullTree_child_of_parent hR hv h0).1
      omega
  mem_children v hv c := by
    rw [Finset.mem_range]
    constructor
    · intro hc
      obtain ⟨l, hl, hall, j, h1, h2, rfl, hlt⟩ := (fullTree_mem_children hR).mp hc
      have hpos : 0 < R ^ l * j := Nat.mul_pos (Nat.pow_pos (by omega)) h1
      exact ⟨hlt, by omega, fullTree_parent_of_child hR hl hall h1 h2⟩
    · rintro ⟨hc, h0, rfl⟩
      exact (fullTree_child_of_parent hR hc h0).2
  nodup v _ := by
    rw [fullTreeChildren, List.nodup_reverse]
    have h := (fullTreeLoop_sorted (N := N) (v := v) hR (N + 1) 0 0).1
    rw [pow_zero] at h
    exact h.imp fun hlt => ne_of_lt hlt
  depth_parent v hv hne := (fullTree_child_of_parent hR (Finset.mem_range.mp hv) hne).1

end

end SandiaShmem.Collectives
