/-
What `shmem_internal_team_split_2d` builds (`src/shmem_team.c`).

It cuts the parent into rows of xrange PEs, the last one possibly shorter, and into xrange columns. Each row and each
column is a call of `shmem_internal_team_split_strided`, with a start that counts PEs of the parent and a stride that counts
PEs of the job, as that function expects them. The quotient that gives the number of rows is exact, and so are the values
of the int expressions.

- `row_iff`, `col_iff`: where the rows and the columns end.
- `sub_valid`: the triplets of the calls pass the checks and stay in the parent.
- `axis_spec`: what a sequence of splits into disjoint sets of PEs does.
- `split_2d_grid`: every PE gets its row and its column.
-/
import SandiaShmem.Teams.SplitStrided

namespace SandiaShmem.Teams.Split2d

open SandiaShmem.Teams.MyPe SandiaShmem.Teams.SplitStrided

/-! ## Rows and columns -/

/-- the number of rows -/
def numRows (n x : ℕ) : ℕ := (n + x - 1) / x

/-- the length of row i -/
def rowSize (n x i : ℕ) : ℕ := if i + 1 = numRows n x ∧ n % x ≠ 0 then n % x else x

/-- the length of column i -/
def colSize (n x i : ℕ) : ℕ := if n % x ≠ 0 ∧ i < n % x then n / x + 1 else n / x

section
variable {n x i k : ℕ}

theorem numRows_eq (hx : 0 < x) : numRows n x = if n % x = 0 then n / x else n / x + 1 := by
  have hn := Nat.div_add_mod n x
  have hb := Nat.mod_lt n hx
  unfold numRows
  split_ifs with h
  · refine Nat.div_eq_of_lt_le ?_ ?_
    · rw [Nat.mul_comm]; omega
    · rw [Nat.succ_mul, Nat.mul_comm]; omega
  · refine Nat.div_eq_of_lt_le ?_ ?_
    · rw [Nat.succ_mul, Nat.mul_comm]; omega
    · rw [Nat.succ_mul, Nat.succ_mul, Nat.mul_comm]; omega

/-- row i has the elements i * x + k that exist -/
theorem row_iff (hx : 0 < x) (hi : i < numRows n x) : k < rowSize n x i ↔ k < x ∧ i * x + k < n := by
  have hn := Nat.div_add_mod n x
  have hb := Nat.mod_lt n hx
  have hrows := numRows_eq (n := n) hx
  unfold rowSize
  split_ifs with h
  · -- the last row, a short one
    rw [if_neg h.2] at hrows
    obtain rfl : i = n / x := by omega
    rw [Nat.mul_comm] at hn
    omega
  · -- the row is followed by another one, or nothing is left
    have hle : (i + 1) * x ≤ n := by
      have hi' : i + 1 ≤ n / x := by
        split_ifs at hrows with h0
        · omega
        · have : i + 1 ≠ numRows n x := fun heq => h ⟨heq, h0⟩
          omega
      exact (Nat.mul_le_mul_right x hi').trans (Nat.div_mul_le_self n x)
    rw [Nat.succ_mul] at hle
    omega

/-- column i has the elements i + k * x that exist -/
theorem col_iff (hi : i < x) : k < colSize n x i ↔ i + k * x < n := by
  have hn := Nat.div_add_mod n x
  have hb := Nat.mod_lt n (show 0 < x by omega)
  rw [Nat.mul_comm] at hn
  have hcol : k < colSize n x i ↔ k < n / x ∨ k = n / x ∧ i < n % x := by
    unfold colSize
    split_ifs <;> omega
  rw [hcol]
  rcases Nat.lt_trichotomy k (n / x) with h | h | h
  · have := Nat.mul_le_mul_right x (Nat.succ_le_of_lt h)
    rw [Nat.succ_mul] at this
    omega
  · rw [h]
    omega
  · have := Nat.mul_le_mul_right x (Nat.succ_le_of_lt h)
    rw [Nat.succ_mul] at this
    omega

theorem row_lt_numRows (hx : 0 < x) {q : ℕ} (hq : q < n) : q / x < numRows n x := by
  have hn := Nat.div_add_mod n x
  have hb := Nat.mod_lt n hx
  have hrows : n ≤ numRows n x * x := by
    rw [numRows_eq hx]
    split_ifs with h
    · rw [Nat.mul_comm]
      omega
    · rw [Nat.succ_mul, Nat.mul_comm]
      omega
  exact (Nat.div_lt_iff_lt_mul hx).mpr (by omega)

end

/-! ## The calls -/

/-- number r of the parent, as a PE of the job -/
def peOf (parent : TeamDesc) (r : ℕ) : ℕ := parent.start + r * parent.stride

/-- the triplet of a call of `shmem_internal_team_split_strided` for the PEs start, start + stride, … of the parent -/
def sub (parent : TeamDesc) (c : ℕ × ℕ × ℕ) : ℤ × ℤ × ℤ := (c.1, (c.2.1 * parent.stride : ℕ), c.2.2)

/-- the rows and the columns by their numbers in the parent -/
def rows (n x : ℕ) : List (ℕ × ℕ × ℕ) := (List.range (numRows n x)).map fun i => (i * x, 1, rowSize n x i)
def cols (n x : ℕ) : List (ℕ × ℕ × ℕ) := (List.range x).map fun i => (i, x, colSize n x i)

/-- the PEs that get a team by a call -/
def childOf (parent : TeamDesc) (c : ℤ × ℤ × ℤ) : List ℕ := activeSet (teamPe parent c.1) c.2.1 c.2.2

/-- the PEs start, start + stride, … are PEs of a parent of size n -/
structure Fits (n : ℕ) (c : ℕ × ℕ × ℕ) : Prop where
  stride : 1 ≤ c.2.1
  size : 1 ≤ c.2.2
  lt : ∀ k < c.2.2, c.1 + k * c.2.1 < n

/-- number q of the parent is one of these -/
def Has (c : ℕ × ℕ × ℕ) (q : ℕ) : Prop := ∃ k < c.2.2, q = c.1 + k * c.2.1

section
variable {C : Cfg} {parent : TeamDesc} {c : ℕ × ℕ × ℕ} {n x : ℕ}

theorem xaxisCalls_eq (parent : TeamDesc) (x : ℕ) :
    xaxisCalls parent x (numRows parent.size x) = (rows parent.size x).map (sub parent) := by
  unfold xaxisCalls rows
  rw [List.map_map]
  refine List.map_congr_left fun i _ => ?_
  have hrem : (parent.size : ℤ).tmod x = (parent.size % x : ℕ) := Int.ofNat_tmod parent.size x
  simp only [Function.comp_apply, sub, rowSize, hrem, Nat.one_mul, Nat.cast_mul, ne_eq, Nat.cast_eq_zero, Prod.mk.injEq, true_and]
  split_ifs <;> rfl

theorem yaxisCalls_eq (parent : TeamDesc) (x : ℕ) :
    yaxisCalls parent x = (cols parent.size x).map (sub parent) := by
  have hrange : (do let i ← List.range x; pure (i : ℤ)) = (List.range x).map Nat.cast := List.flatMap_pure_eq_map _ _
  unfold yaxisCalls cols
  rw [Int.toNat_natCast, hrange, List.map_map, List.map_map]
  refine List.map_congr_left fun i _ => ?_
  have hrem : (parent.size : ℤ).tmod x = (parent.size % x : ℕ) := Int.ofNat_tmod parent.size x
  have hdiv : (parent.size : ℤ).tdiv x = (parent.size / x : ℕ) := Int.ofNat_tdiv parent.size x
  simp only [Function.comp_apply, sub, colSize, hrem, hdiv, ne_eq, Nat.cast_eq_zero, Nat.cast_lt, Nat.cast_mul, Prod.mk.injEq,
    true_and]
  split_ifs <;> push_cast <;> rfl

theorem teamPe_natCast (parent : TeamDesc) (r : ℕ) : teamPe parent r = peOf parent r := by
  simp only [teamPe, peOf]
  push_cast
  ring

theorem peOf_inj (h : 1 ≤ parent.stride) {q r : ℕ} (heq : peOf parent q = peOf parent r) : q = r :=
  Nat.eq_of_mul_eq_mul_right h (Nat.add_left_cancel heq)

theorem mem_pes {q : ℕ} (hq : q < parent.size) : peOf parent q ∈ parent.pes :=
  List.mem_map.mpr ⟨q, List.mem_range.mpr hq, rfl⟩

theorem childOf_sub (parent : TeamDesc) (c : ℕ × ℕ × ℕ) :
    childOf parent (sub parent c) = (List.range c.2.2).map fun k => peOf parent (c.1 + k * c.2.1) := by
  unfold childOf activeSet sub
  rw [Int.toNat_natCast]
  refine List.map_congr_left fun k _ => ?_
  rw [teamPe_natCast]
  have : (peOf parent c.1 : ℤ) + k * (c.2.1 * parent.stride : ℕ) = (peOf parent (c.1 + k * c.2.1) : ℕ) := by
    simp only [peOf]
    push_cast
    ring
  rw [this, Int.toNat_natCast]

theorem mem_childOf (h : 1 ≤ parent.stride) {q : ℕ} : peOf parent q ∈ childOf parent (sub parent c) ↔ Has c q := by
  rw [childOf_sub, List.mem_map]
  constructor
  · rintro ⟨k, hk, heq⟩
    exact ⟨k, List.mem_range.mp hk, (peOf_inj h heq).symm⟩
  · rintro ⟨k, hk, rfl⟩
    exact ⟨k, List.mem_range.mpr hk, rfl⟩

/-- a PE that gets a team is a number of the parent -/
theorem exists_has {p : ℕ} (hp : p ∈ childOf parent (sub parent c)) : ∃ q, p = peOf parent q ∧ Has c q := by
  rw [childOf_sub] at hp
  obtain ⟨k, hk, rfl⟩ := List.mem_map.mp hp
  exact ⟨_, rfl, k, List.mem_range.mp hk, rfl⟩

theorem rows_fit (hx : 0 < x) : ∀ c ∈ rows n x, Fits n c := by
  intro c hc
  obtain ⟨i, hi, rfl⟩ := List.mem_map.mp hc
  have hi := List.mem_range.mp hi
  refine ⟨le_rfl, ?_, fun k hk => ?_⟩
  · have hlast : i * x < n := by
      have := (Nat.lt_div_iff_mul_lt hx).mp hi
      omega
    exact (row_iff (k := 0) hx hi).mpr ⟨hx, hlast⟩
  · have := ((row_iff hx hi).mp hk).2
    rwa [Nat.mul_one]

theorem cols_fit (hxn : x ≤ n) : ∀ c ∈ cols n x, Fits n c := by
  intro c hc
  obtain ⟨i, hi, rfl⟩ := List.mem_map.mp hc
  have hi := List.mem_range.mp hi
  exact ⟨by simp only; omega, (col_iff (k := 0) hi).mpr (by omega), fun k hk => (col_iff hi).mp hk⟩

/-- row i has the numbers with quotient i, and each at its remainder -/
theorem has_row (hx : 0 < x) {i q : ℕ} (hi : i < numRows n x) (hq : q < n) :
    Has (i * x, 1, rowSize n x i) q ↔ q / x = i := by
  constructor
  · rintro ⟨k, hk, rfl⟩
    have hkx := ((row_iff hx hi).mp hk).1
    simp only [Nat.mul_one]
    rw [Nat.add_comm, Nat.add_mul_div_right _ _ hx, Nat.div_eq_of_lt hkx, Nat.zero_add]
  · rintro rfl
    have hdm := Nat.div_add_mod' q x
    exact ⟨q % x, (row_iff hx hi).mpr ⟨Nat.mod_lt q hx, by omega⟩, by simp only; omega⟩

/-- column i has the numbers with remainder i, and each at its quotient -/
theorem has_col {i q : ℕ} (hi : i < x) (hq : q < n) : Has (i, x, colSize n x i) q ↔ q % x = i := by
  constructor
  · rintro ⟨k, -, rfl⟩
    simp only
    rw [Nat.add_mul_mod_self_right, Nat.mod_eq_of_lt hi]
  · rintro rfl
    have hdm := Nat.div_add_mod' q x
    exact ⟨q / x, (col_iff hi).mpr (by omega), by simp only; omega⟩

theorem Fits.has_lt (h : Fits n c) {q : ℕ} (hq : Has c q) : q < n := by
  obtain ⟨k, hk, rfl⟩ := hq
  exact h.lt k hk

/-- two calls of an axis have no PE in common -/
def Apart (c c' : ℕ × ℕ × ℕ) : Prop := ∀ q, Has c q → ¬ Has c' q

theorem rows_apart (hx : 0 < x) : (rows n x).Pairwise Apart := by
  refine List.pairwise_map.mpr (List.pairwise_lt_range.imp_of_mem fun {i j} hi hj hij q hq hq' => ?_)
  have hi := List.mem_range.mp hi
  have hj := List.mem_range.mp hj
  have hlt := (rows_fit hx _ (List.mem_map.mpr ⟨i, List.mem_range.mpr hi, rfl⟩)).has_lt hq
  have := (has_row hx hi hlt).mp hq
  have := (has_row hx hj hlt).mp hq'
  omega

theorem cols_apart (hxn : x ≤ n) : (cols n x).Pairwise Apart := by
  refine List.pairwise_map.mpr (List.pairwise_lt_range.imp_of_mem fun {i j} hi hj hij q hq hq' => ?_)
  have hi := List.mem_range.mp hi
  have hj := List.mem_range.mp hj
  have hlt := (cols_fit hxn _ (List.mem_map.mpr ⟨i, List.mem_range.mpr hi, rfl⟩)).has_lt hq
  have := (has_col hi hlt).mp hq
  have := (has_col hj hlt).mp hq'
  omega

/-! ## The checks -/

/-- a split of PEs of the parent passes the checks, and only PEs of the parent take part -/
theorem sub_valid (hvalid : ValidTeam C parent) (hint : C.numPes < 2 ^ 31) (hc : Fits parent.size c) :
    ¬ splitRefused C.numPes parent (sub parent c).1 (sub parent c).2.1 (sub parent c).2.2 ∧
      ∀ q ∈ childOf parent (sub parent c), q ∈ parent.pes := by
  obtain ⟨hstride, hsize, hlt⟩ := hc
  have hpe : ∀ r < parent.size, peOf parent r < C.numPes := by
    intro r hr
    have := hvalid.lt r hr
    rwa [Nat.mul_comm] at this
  have hfirst : c.1 < parent.size := by simpa using hlt 0 (by omega)
  have hlast := hlt (c.2.2 - 1) (by omega)
  have hend : newTeamPe parent (sub parent c).1 (sub parent c).2.1 ((sub parent c).2.2 - 1) =
      peOf parent (c.1 + (c.2.2 - 1) * c.2.1) := by
    simp only [newTeamPe, sub, teamPe_natCast, peOf]
    have : ((c.2.2 : ℤ) - 1) = (c.2.2 - 1 : ℕ) := by omega
    rw [this]
    push_cast
    ring
  have hendlt := hpe _ hlast
  constructor
  · refine (not_refused_iff (by omega)).mpr ⟨⟨Int.natCast_nonneg _, ?_⟩, ⟨?_, ?_⟩, ?_, ?_, ?_⟩
    · exact Int.ofNat_lt.mpr hfirst
    · exact Int.ofNat_le.mpr hsize
    · have := Nat.le_mul_of_pos_right (c.2.2 - 1) hstride
      simp only [sub]
      omega
    · have := Nat.mul_le_mul hstride hvalid.stride_pos
      simp only [sub]
      omega
    · have := hpe _ hfirst
      simp only [sub, teamPe_natCast]
      omega
    · omega
  · intro q hq
    rw [childOf_sub] at hq
    obtain ⟨k, hk, rfl⟩ := List.mem_map.mp hq
    exact mem_pes (hlt k (List.mem_range.mp hk))

/-! ## One split -/

/-- the team that member k gets -/
def teamAt (parent : TeamDesc) (c : ℕ × ℕ × ℕ) (uid i k : ℕ) : TeamDesc :=
  ⟨uid, k, peOf parent c.1, c.2.1 * parent.stride, c.2.2, i⟩

/-- a split of PEs of the parent that succeeds with index i -/
structure Given (C : Cfg) (s : St) (parent : TeamDesc) (c : ℕ × ℕ × ℕ) (i : ℕ) (r : SplitResult) : Prop where
  ret : ∀ p, r.ret p = 0
  nextUid : r.st.nextUid = s.nextUid + 1
  lt : i < C.TEAMS_MAX
  /-- it is the lowest index that is free on all members -/
  lowest : ∀ j, (∀ p ∈ childOf parent (sub parent c), bitFetch (s.pe p).psync_pool_avail j = true) → j < C.TEAMS_MAX → i ≤ j
  other : ∀ p ∉ childOf parent (sub parent c), r.new_team p = none ∧ r.st.pe p = s.pe p
  member : ∀ k < c.2.2, r.new_team (peOf parent (c.1 + k * c.2.1)) = some (teamAt parent c s.nextUid i k) ∧
    r.st.pe (peOf parent (c.1 + k * c.2.1)) =
      (s.pe (peOf parent (c.1 + k * c.2.1))).take i (teamAt parent c s.nextUid i k)

/-- the index in the active set of a split -/
theorem childOf_index (hstride : 1 ≤ parent.stride) (hc : Fits n c) (p : ℕ) :
    (peInActiveSet p (peOf parent c.1) (c.2.1 * parent.stride : ℕ) c.2.2 ≠ -1 ↔ p ∈ childOf parent (sub parent c)) ∧
      ∀ k < c.2.2, p = peOf parent (c.1 + k * c.2.1) →
        peInActiveSet p (peOf parent c.1) (c.2.1 * parent.stride : ℕ) c.2.2 = k := by
  have hd : 1 ≤ c.2.1 * parent.stride := Nat.mul_le_mul hc.stride hstride
  have hsize := hc.size
  constructor
  · rw [peInActiveSet_ne p _ _ _ (by omega) (by omega)]
    simp only [childOf, sub, teamPe_natCast]
  · intro k hk hp
    have hpe : p = peOf parent c.1 + k * (c.2.1 * parent.stride) := by
      rw [hp]
      simp only [peOf]
      ring
    rw [hpe]
    exact peInActiveSet_member hk hd

/-- a split that finds an index -/
theorem split_given (hvalid : ValidTeam C parent) (hint : C.numPes < 2 ^ 31) (hc : Fits parent.size c) {s : St}
    (hfree : ¬ NoCommonIndex C s (childOf parent (sub parent c))) :
    ∃ r i, teamSplitStrided C s parent (sub parent c).1 (sub parent c).2.1 (sub parent c).2.2 = some r ∧
      Given C s parent c i r := by
  obtain ⟨hchecks, hsub⟩ := sub_valid hvalid hint hc
  obtain ⟨i, hlt, hfilter, hlowest⟩ := search_of_common hfree
  have hnotsub : ¬ ∃ q ∈ childOf parent (sub parent c), q ∉ parent.pes := by
    rintro ⟨q, hq, hn⟩
    exact hn (hsub q hq)
  simp only [childOf] at hfilter hnotsub
  have hr : ∃ r, teamSplitStrided C s parent (sub parent c).1 (sub parent c).2.1 (sub parent c).2.2 = some r := by
    unfold teamSplitStrided
    simp only
    rw [if_neg hchecks, if_neg hnotsub, hfilter]
    exact ⟨_, rfl⟩
  obtain ⟨r, hr⟩ := hr
  refine ⟨r, i, hr, ?_⟩
  unfold teamSplitStrided at hr
  simp only at hr
  rw [if_neg hchecks, if_neg hnotsub, hfilter] at hr
  obtain rfl := Option.some.inj hr
  have hindex := childOf_index (c := c) hvalid.stride_pos hc
  refine ⟨fun _ => retReduced_zero _, rfl, hlt,
    fun m hall _ => hlowest m ((bitFetch_availReduced _ _ _).mpr hall), ?_, ?_⟩
  · intro p hp
    have hnot : ¬ (p ∈ parent.pes ∧
        peInActiveSet p (teamPe parent (sub parent c).1) (sub parent c).2.1 (sub parent c).2.2 ≠ -1) := by
      rintro ⟨-, hne⟩
      simp only [sub, teamPe_natCast] at hne
      exact hp ((hindex p).1.mp hne)
    simp only
    rw [if_neg hnot, if_neg hnot]
    exact ⟨rfl, rfl⟩
  · intro k hk
    have hk' := (hindex _).2 k hk rfl
    have hmem : peOf parent (c.1 + k * c.2.1) ∈ parent.pes ∧
        peInActiveSet (peOf parent (c.1 + k * c.2.1)) (teamPe parent (sub parent c).1) (sub parent c).2.1
          (sub parent c).2.2 ≠ -1 := by
      refine ⟨mem_pes (hc.lt k hk), ?_⟩
      simp only [sub, teamPe_natCast, hk']
      omega
    simp only
    rw [if_pos hmem, if_pos hmem]
    simp only [sub, teamPe_natCast, hk', Int.toNat_natCast, teamAt, and_self]

/-! ## The splits of an axis -/

/-- every split of an axis finds an index -/
def EnoughSlots (C : Cfg) (parent : TeamDesc) : List (ℤ × ℤ × ℤ) → St → Prop
  | [], _ => True
  | (start, PE_stride, size) :: calls, s =>
    ¬ NoCommonIndex C s (childOf parent (start, PE_stride, size)) ∧
      ∀ r, teamSplitStrided C s parent start PE_stride size = some r → EnoughSlots C parent calls r.st

/-- the assertion behind each split: whoever gets a team has none of this axis yet -/
def AssertsHold (C : Cfg) (parent : TeamDesc) : List (ℤ × ℤ × ℤ) → St → (ℕ → Option TeamDesc) → Prop
  | [], _, _ => True
  | (start, PE_stride, size) :: calls, s, axis_team =>
    ∀ r, teamSplitStrided C s parent start PE_stride size = some r →
      (∀ q ∈ parent.pes, (r.new_team q).isSome → axis_team q = none) ∧
        AssertsHold C parent calls r.st fun q => (r.new_team q).or (axis_team q)

/-- the PEs of the calls have the teams of the calls, the others what they had -/
structure Axis (parent : TeamDesc) (L : List (ℕ × ℕ × ℕ)) (uid : ℕ) (axis axis' : ℕ → Option TeamDesc) : Prop where
  other : ∀ p, (∀ c ∈ L, p ∉ childOf parent (sub parent c)) → axis' p = axis p
  member : ∀ i (hi : i < L.length), ∀ k < L[i].2.2, ∃ idx,
    axis' (peOf parent (L[i].1 + k * L[i].2.1)) = some (teamAt parent L[i] (uid + i) idx k)

/-- a PE of one of two calls without a common PE is none of the other -/
theorem Apart.not_mem {c' : ℕ × ℕ × ℕ} (h : Apart c c') (hstride : 1 ≤ parent.stride) {p : ℕ}
    (hp : p ∈ childOf parent (sub parent c')) : p ∉ childOf parent (sub parent c) := by
  obtain ⟨q, rfl, hq⟩ := exists_has hp
  exact fun hp' => h q ((mem_childOf hstride).mp hp') hq

/-- the first split of an axis, and the rest -/
theorem Given.splitAxis_cons {s : St} {i : ℕ} {r : SplitResult} (h : Given C s parent c i r)
    (hr : teamSplitStrided C s parent (sub parent c).1 (sub parent c).2.1 (sub parent c).2.2 = some r)
    (L : List (ℕ × ℕ × ℕ)) (axis : ℕ → Option TeamDesc) :
    splitAxis C parent ((c :: L).map (sub parent)) s axis =
      splitAxis C parent (L.map (sub parent)) r.st fun q => (r.new_team q).or (axis q) := by
  have hret : ¬ ∃ q ∈ parent.pes, r.ret q ≠ 0 := by
    rintro ⟨q, -, hq⟩
    exact hq (h.ret q)
  rw [List.map_cons, splitAxis]
  simp only [hr]
  rw [if_neg hret]

theorem Given.axis_cons {s : St} {i : ℕ} {r : SplitResult} (h : Given C s parent c i r) (hstride : 1 ≤ parent.stride)
    {L : List (ℕ × ℕ × ℕ)} (hapart : ∀ c' ∈ L, Apart c c') {axis axis' : ℕ → Option TeamDesc}
    (haxis : Axis parent L r.st.nextUid (fun q => (r.new_team q).or (axis q)) axis') :
    Axis parent (c :: L) s.nextUid axis axis' := by
  refine ⟨fun p hp => ?_, fun j hj k hk => ?_⟩
  · rw [haxis.other p fun c' hc' => hp c' (List.mem_cons_of_mem c hc'), (h.other p (hp c List.mem_cons_self)).1]
    rfl
  · cases j with
    | zero =>
      -- this call; the later ones leave the team alone
      refine ⟨i, ?_⟩
      simp only [List.getElem_cons_zero] at hk ⊢
      have hmem : peOf parent (c.1 + k * c.2.1) ∈ childOf parent (sub parent c) := (mem_childOf hstride).mpr ⟨k, hk, rfl⟩
      rw [haxis.other _ fun c' hc' hp => (hapart c' hc').not_mem hstride hp hmem, (h.member k hk).1]
      rfl
    | succ j =>
      obtain ⟨idx, hidx⟩ := haxis.member j (Nat.lt_of_succ_lt_succ hj) k hk
      refine ⟨idx, ?_⟩
      rw [h.nextUid, Nat.add_assoc, Nat.add_comm 1 j] at hidx
      exact hidx

/-- splits into disjoint sets of PEs, none of which has a team of the axis yet -/
theorem axis_spec (hvalid : ValidTeam C parent) (hint : C.numPes < 2 ^ 31) (L : List (ℕ × ℕ × ℕ))
    (hfit : ∀ c ∈ L, Fits parent.size c) (hapart : L.Pairwise Apart) (s : St) (axis : ℕ → Option TeamDesc)
    (hslots : EnoughSlots C parent (L.map (sub parent)) s)
    (hnone : ∀ c ∈ L, ∀ p ∈ childOf parent (sub parent c), axis p = none) :
    AssertsHold C parent (L.map (sub parent)) s axis ∧
      ∃ s' axis', splitAxis C parent (L.map (sub parent)) s axis = some (s', axis') ∧
        s'.nextUid = s.nextUid + L.length ∧ Axis parent L s.nextUid axis axis' := by
  induction L generalizing s axis with
  | nil =>
    exact ⟨trivial, s, axis, rfl, rfl, fun _ _ => rfl, fun i hi => absurd hi (Nat.not_lt_zero i)⟩
  | cons c L ih =>
    obtain ⟨hfree, hrest⟩ := hslots
    have hc := hfit c List.mem_cons_self
    obtain ⟨r, i, hr, hg⟩ := split_given hvalid hint hc hfree
    obtain ⟨hhead, htail⟩ := List.pairwise_cons.mp hapart
    have hnone' : ∀ c' ∈ L, ∀ p ∈ childOf parent (sub parent c'), (r.new_team p).or (axis p) = none := by
      intro c' hc' p hp
      rw [(hg.other p ((hhead c' hc').not_mem hvalid.stride_pos hp)).1, hnone c' (List.mem_cons_of_mem c hc') p hp]
      rfl
    obtain ⟨hassert, s', axis', hsplit, huid, haxis⟩ := ih (fun c' hc' => hfit c' (List.mem_cons_of_mem c hc')) htail r.st
      (fun q => (r.new_team q).or (axis q)) (hrest r hr) hnone'
    refine ⟨fun r' hr' => ?_, s', axis', ?_, ?_, hg.axis_cons hvalid.stride_pos hhead haxis⟩
    · obtain rfl := Option.some.inj (hr.symm.trans hr')
      refine ⟨fun q _ hsome => ?_, hassert⟩
      by_contra hne
      have hq : q ∉ childOf parent (sub parent c) := fun hq => hne (hnone c List.mem_cons_self q hq)
      rw [(hg.other q hq).1] at hsome
      exact absurd hsome (by decide)
    · rw [hg.splitAxis_cons hr]
      exact hsplit
    · rw [huid, hg.nextUid, List.length_cons]
      omega

/-! ## Two free indices are enough -/

theorem Given.bit {s : St} {i : ℕ} {r : SplitResult} (h : Given C s parent c i r) {j p : ℕ} (hij : i < j)
    (hp : bitFetch (s.pe p).psync_pool_avail j = true) :
    bitFetch (r.st.pe p).psync_pool_avail j = true := by
  by_cases hmem : p ∈ childOf parent (sub parent c)
  · obtain ⟨q, rfl, k, hk, rfl⟩ := exists_has hmem
    rw [(h.member k hk).2, PeSt.take, bitFetch_bitClear, hp, Bool.and_true, decide_eq_true_eq]
    omega
  · rw [(h.other p hmem).2]
    exact hp

/-- an index that is free on all PEs lets the splits of an axis succeed, and higher ones stay free -/
theorem enough_of_free (hvalid : ValidTeam C parent) (hint : C.numPes < 2 ^ 31) (L : List (ℕ × ℕ × ℕ))
    (hfit : ∀ c ∈ L, Fits parent.size c) (hapart : L.Pairwise Apart) (s : St) {i : ℕ} (hi : i < C.TEAMS_MAX)
    (hfree : ∀ c ∈ L, ∀ p ∈ childOf parent (sub parent c), bitFetch (s.pe p).psync_pool_avail i = true) :
    EnoughSlots C parent (L.map (sub parent)) s ∧
      ∀ axis s' axis', splitAxis C parent (L.map (sub parent)) s axis = some (s', axis') → ∀ j, i < j → ∀ p,
        bitFetch (s.pe p).psync_pool_avail j = true → bitFetch (s'.pe p).psync_pool_avail j = true := by
  induction L generalizing s with
  | nil =>
    refine ⟨trivial, fun axis s' axis' hs j _ p hp => ?_⟩
    obtain ⟨rfl, -⟩ := Prod.mk.inj (Option.some.inj hs)
    exact hp
  | cons c L ih =>
    have hcommon : ¬ NoCommonIndex C s (childOf parent (sub parent c)) := by
      intro hno
      obtain ⟨q, hq, hbit⟩ := hno i hi
      exact absurd ((hfree c List.mem_cons_self q hq).symm.trans hbit) (by decide)
    obtain ⟨r, k, hr, hg⟩ := split_given hvalid hint (hfit c List.mem_cons_self) hcommon
    have hk : k ≤ i := hg.lowest i (hfree c List.mem_cons_self) hi
    obtain ⟨hhead, htail⟩ := List.pairwise_cons.mp hapart
    have hfree' : ∀ c' ∈ L, ∀ p ∈ childOf parent (sub parent c'), bitFetch (r.st.pe p).psync_pool_avail i = true := by
      intro c' hc' p hp
      rw [(hg.other p ((hhead c' hc').not_mem hvalid.stride_pos hp)).2]
      exact hfree c' (List.mem_cons_of_mem c hc') p hp
    obtain ⟨hslots, hkeep⟩ := ih (fun c' hc' => hfit c' (List.mem_cons_of_mem c hc')) htail r.st hfree'
    refine ⟨⟨hcommon, fun r' hr' => ?_⟩, fun axis s' axis' hs j hj p hp => ?_⟩
    · obtain rfl := Option.some.inj (hr.symm.trans hr')
      exact hslots
    · rw [hg.splitAxis_cons hr] at hs
      exact hkeep _ _ _ hs j hj p (hg.bit (by omega) hp)

/-- every split of `shmem_internal_team_split_2d` finds an index -/
def EnoughSlots2d (C : Cfg) (parent : TeamDesc) (x : ℕ) (s : St) : Prop :=
  EnoughSlots C parent (xaxisCalls parent x (numRows parent.size x)) s ∧
    ∀ s₁ xaxis, splitAxis C parent (xaxisCalls parent x (numRows parent.size x)) s (fun _ => none) = some (s₁, xaxis) →
      EnoughSlots C parent (yaxisCalls parent x) s₁

theorem enough_of_two (hvalid : ValidTeam C parent) (hint : C.numPes < 2 ^ 31) (hx : 0 < x) (hxn : x ≤ parent.size) {s : St}
    {i j : ℕ} (hij : i < j) (hj : j < C.TEAMS_MAX)
    (hfree : ∀ p ∈ parent.pes, bitFetch (s.pe p).psync_pool_avail i = true ∧ bitFetch (s.pe p).psync_pool_avail j = true) :
    EnoughSlots2d C parent x s := by
  have hsub : ∀ c, Fits parent.size c → ∀ p ∈ childOf parent (sub parent c), p ∈ parent.pes :=
    fun c hc => (sub_valid hvalid hint hc).2
  unfold EnoughSlots2d
  rw [xaxisCalls_eq, yaxisCalls_eq]
  obtain ⟨hslots, hkeep⟩ := enough_of_free hvalid hint (rows parent.size x) (rows_fit hx) (rows_apart hx) s
    (hij.trans hj) fun c hc p hp => (hfree p (hsub c (rows_fit hx c hc) p hp)).1
  refine ⟨hslots, fun s₁ xaxis hs => ?_⟩
  refine (enough_of_free hvalid hint (cols parent.size x) (cols_fit hxn) (cols_apart hxn) s₁ hj fun c hc p hp => ?_).1
  exact hkeep _ _ _ hs j hij p (hfree p (hsub c (cols_fit hxn c hc) p hp)).2

/-! ## Main result -/

/-- the row of number q of the parent, as this PE knows it -/
structure IsRow (parent : TeamDesc) (x q : ℕ) (t : TeamDesc) : Prop where
  my_pe : t.my_pe = q % x
  pe : ∀ i < t.size, teamPe t i = peOf parent (q / x * x + i)
  mem : ∀ r < parent.size, peOf parent r ∈ t.pes ↔ r / x = q / x

/-- the column of number q of the parent, as this PE knows it -/
structure IsColumn (parent : TeamDesc) (x q : ℕ) (t : TeamDesc) : Prop where
  my_pe : t.my_pe = q / x
  pe : ∀ i < t.size, teamPe t i = peOf parent (q % x + i * x)
  mem : ∀ r < parent.size, peOf parent r ∈ t.pes ↔ r % x = q % x

/-- the teams of an axis partition the parent -/
structure Partition (parent : TeamDesc) (calls : List (ℤ × ℤ × ℤ)) (axis : ℕ → Option TeamDesc) : Prop where
  /-- every PE is in one of the splits, and in no other one -/
  once : ∀ q < parent.size, ∃! c, c ∈ calls ∧ peOf parent q ∈ childOf parent c
  own : ∀ q < parent.size, ∃ t ∈ axis (peOf parent q), peOf parent q ∈ t.pes ∧ ∀ p ∈ t.pes, p ∈ parent.pes
  /-- two teams are the same or have no PE in common -/
  part : ∀ q < parent.size, ∀ q' < parent.size, ∀ t ∈ axis (peOf parent q), ∀ t' ∈ axis (peOf parent q'),
    t.uid = t'.uid ∧ t.pes = t'.pes ∨ t.uid ≠ t'.uid ∧ ∀ p ∈ t.pes, p ∉ t'.pes

/-- rows and columns -/
structure Grid (parent : TeamDesc) (x : ℕ) (xaxis yaxis : ℕ → Option TeamDesc) : Prop where
  row : ∀ q < parent.size, ∃ t, xaxis (peOf parent q) = some t ∧ IsRow parent x q t
  column : ∀ q < parent.size, ∃ t, yaxis (peOf parent q) = some t ∧ IsColumn parent x q t
  rows : Partition parent (xaxisCalls parent x (numRows parent.size x)) xaxis
  columns : Partition parent (yaxisCalls parent x) yaxis
  /-- a row and a column have at most one PE in common -/
  cross : ∀ q < parent.size, ∀ q' < parent.size, ∀ t ∈ xaxis (peOf parent q), ∀ u ∈ yaxis (peOf parent q'),
    ∀ p ∈ t.pes, p ∈ u.pes → ∀ p' ∈ t.pes, p' ∈ u.pes → p = p'

theorem teamAt_pes (parent : TeamDesc) (c : ℕ × ℕ × ℕ) (uid i k : ℕ) :
    (teamAt parent c uid i k).pes = childOf parent (sub parent c) := by
  rw [childOf_sub]
  unfold TeamDesc.pes
  refine List.map_congr_left fun k _ => ?_
  simp only [teamAt, peOf]
  ring

/-- a PE of the parent has the team of the call it is in -/
theorem Axis.get {L : List (ℕ × ℕ × ℕ)} {uid : ℕ} {axis axis' : ℕ → Option TeamDesc} (h : Axis parent L uid axis axis')
    {i : ℕ} (hi : L[i]? = some c) {q k : ℕ} (hk : k < c.2.2) (hq : q = c.1 + k * c.2.1) :
    ∃ idx, axis' (peOf parent q) = some (teamAt parent c (uid + i) idx k) := by
  obtain ⟨hlt, rfl⟩ := List.getElem?_eq_some_iff.mp hi
  rw [hq]
  exact h.member i hlt k hk

section
variable {L : List (ℕ × ℕ × ℕ)} {uid : ℕ} {axis axis' : ℕ → Option TeamDesc}

/-- call i of an axis is for the numbers of class i -/
structure Classes (n : ℕ) (L : List (ℕ × ℕ × ℕ)) (cls : ℕ → ℕ) : Prop where
  fit : ∀ c ∈ L, Fits n c
  lt : ∀ q < n, cls q < L.length
  has : ∀ i c, L[i]? = some c → ∀ q < n, Has c q ↔ cls q = i

variable {cls : ℕ → ℕ} (hvalid : ValidTeam C parent) (h : Axis parent L uid axis axis') (hcls : Classes parent.size L cls)
include hcls

/-- the call that a number is in -/
theorem Classes.call {q : ℕ} (hq : q < parent.size) : ∃ c, L[cls q]? = some c ∧ Has c q := by
  have hc := List.getElem?_eq_getElem (hcls.lt q hq)
  exact ⟨_, hc, (hcls.has (cls q) _ hc q hq).mpr rfl⟩

include h

/-- the team that a PE gets there -/
theorem Axis.team {q : ℕ} (hq : q < parent.size) : ∃ c idx k, L[cls q]? = some c ∧
    axis' (peOf parent q) = some (teamAt parent c (uid + cls q) idx k) := by
  obtain ⟨c, hc, k, hk, hqk⟩ := hcls.call hq
  obtain ⟨idx, hidx⟩ := h.get hc hk hqk
  exact ⟨c, idx, k, hc, hidx⟩

theorem Axis.pes {q : ℕ} (hq : q < parent.size) {t : TeamDesc} (ht : t ∈ axis' (peOf parent q)) :
    ∃ c, L[cls q]? = some c ∧ t.uid = uid + cls q ∧ t.pes = childOf parent (sub parent c) := by
  obtain ⟨c, idx, k, hc, hidx⟩ := h.team hcls hq
  rw [hidx, Option.mem_some_iff] at ht
  subst ht
  exact ⟨c, hc, rfl, teamAt_pes _ _ _ _ _⟩

include hvalid

/-- a team has the PEs of its class -/
theorem Axis.mem {q : ℕ} (hq : q < parent.size) {t : TeamDesc} (ht : t ∈ axis' (peOf parent q)) {r : ℕ}
    (hr : r < parent.size) : peOf parent r ∈ t.pes ↔ cls r = cls q := by
  obtain ⟨c, hc, -, heq⟩ := h.pes hcls hq ht
  rw [heq, mem_childOf hvalid.stride_pos]
  exact hcls.has (cls q) c hc r hr

omit hvalid in
theorem Axis.inside {q : ℕ} (hq : q < parent.size) {t : TeamDesc} (ht : t ∈ axis' (peOf parent q)) {p : ℕ}
    (hp : p ∈ t.pes) : ∃ r < parent.size, p = peOf parent r := by
  obtain ⟨c, hc, -, heq⟩ := h.pes hcls hq ht
  rw [heq] at hp
  obtain ⟨r, rfl, hr⟩ := exists_has hp
  exact ⟨r, (hcls.fit c (List.mem_of_getElem? hc)).has_lt hr, rfl⟩

theorem Axis.partition : Partition parent (L.map (sub parent)) axis' := by
  refine ⟨fun q hq => ?_, fun q hq => ?_, fun q hq q' hq' t ht t' ht' => ?_⟩
  · obtain ⟨c, hc, hhas⟩ := hcls.call hq
    refine ⟨sub parent c, ⟨List.mem_map_of_mem (List.mem_of_getElem? hc), (mem_childOf hvalid.stride_pos).mpr hhas⟩, ?_⟩
    rintro _ ⟨hc', hqc⟩
    obtain ⟨c', hcL, rfl⟩ := List.mem_map.mp hc'
    obtain ⟨i, hi⟩ := List.getElem?_of_mem hcL
    obtain rfl := (hcls.has i c' hi q hq).mp ((mem_childOf hvalid.stride_pos).mp hqc)
    rw [Option.some.inj (hc.symm.trans hi)]
  · obtain ⟨c, idx, k, -, hidx⟩ := h.team hcls hq
    refine ⟨_, hidx, (h.mem hvalid hcls hq hidx hq).mpr rfl, fun p hp => ?_⟩
    obtain ⟨r, hr, rfl⟩ := h.inside hcls hq hidx hp
    exact mem_pes hr
  · obtain ⟨c, hc, huid, hpes₁⟩ := h.pes hcls hq ht
    obtain ⟨c', hc', huid', hpes₂⟩ := h.pes hcls hq' ht'
    by_cases heq : cls q = cls q'
    · refine .inl ⟨by rw [huid, huid', heq], ?_⟩
      rw [heq] at hc
      rw [hpes₁, hpes₂, Option.some.inj (hc.symm.trans hc')]
    · refine .inr ⟨by omega, fun p hp hp' => heq ?_⟩
      obtain ⟨r, hr, rfl⟩ := h.inside hcls hq ht hp
      exact ((h.mem hvalid hcls hq ht hr).mp hp).symm.trans ((h.mem hvalid hcls hq' ht' hr).mp hp')

end

theorem rows_getElem {i : ℕ} (hi : i < numRows n x) : (rows n x)[i]? = some (i * x, 1, rowSize n x i) := by
  rw [rows, List.getElem?_map, List.getElem?_range hi]
  rfl

theorem cols_getElem {i : ℕ} (hi : i < x) : (cols n x)[i]? = some (i, x, colSize n x i) := by
  rw [cols, List.getElem?_map, List.getElem?_range hi]
  rfl

theorem rows_classes (hx : 0 < x) : Classes n (rows n x) fun q => q / x := by
  have hlen : (rows n x).length = numRows n x := by rw [rows, List.length_map, List.length_range]
  refine ⟨rows_fit hx, fun q hq => (row_lt_numRows hx hq).trans_eq hlen.symm, fun i c hc q hq => ?_⟩
  have hi := (List.getElem?_eq_some_iff.mp hc).1
  rw [hlen] at hi
  rw [← Option.some.inj ((rows_getElem hi).symm.trans hc)]
  exact has_row hx hi hq

theorem cols_classes (hx : 0 < x) (hxn : x ≤ n) : Classes n (cols n x) fun q => q % x := by
  have hlen : (cols n x).length = x := by rw [cols, List.length_map, List.length_range]
  refine ⟨cols_fit hxn, fun q _ => (Nat.mod_lt q hx).trans_eq hlen.symm, fun i c hc q hq => ?_⟩
  have hi := (List.getElem?_eq_some_iff.mp hc).1
  rw [hlen] at hi
  rw [← Option.some.inj ((cols_getElem hi).symm.trans hc)]
  exact has_col hi hq

theorem eq_of_div_mod {r r' : ℕ} (hdiv : r / x = r' / x) (hmod : r % x = r' % x) : r = r' := by
  have h₁ := Nat.div_add_mod r x
  have h₂ := Nat.div_add_mod r' x
  rw [hdiv, hmod] at h₁
  exact h₁.symm.trans h₂

/-- what the two axes are, from the splits -/
theorem grid_of_axes (hvalid : ValidTeam C parent) (hx : 0 < x) (hxn : x ≤ parent.size) {uid uid' : ℕ}
    {xaxis yaxis : ℕ → Option TeamDesc} (hrows : Axis parent (rows parent.size x) uid (fun _ => none) xaxis)
    (hcols : Axis parent (cols parent.size x) uid' (fun _ => none) yaxis) : Grid parent x xaxis yaxis := by
  have hrow := rows_classes (n := parent.size) hx
  have hcol := cols_classes hx hxn
  refine ⟨fun q hq => ?_, fun q hq => ?_, ?_, ?_, fun q hq q' hq' t ht u hu p hp hpu p' hp' hpu' => ?_⟩
  · have hdm := Nat.div_add_mod' q x
    have hi := row_lt_numRows hx hq
    obtain ⟨idx, hidx⟩ := hrows.get (rows_getElem hi) ((row_iff hx hi).mpr ⟨Nat.mod_lt q hx, by omega⟩)
      (show q = q / x * x + q % x * 1 by omega)
    refine ⟨_, hidx, rfl, fun i _ => ?_, fun r hr => hrows.mem hvalid hrow hq hidx hr⟩
    simp only [teamPe, teamAt, peOf]
    push_cast
    ring
  · have hdm := Nat.div_add_mod' q x
    have hi := Nat.mod_lt q hx
    obtain ⟨idx, hidx⟩ := hcols.get (cols_getElem hi) ((col_iff (n := parent.size) (k := q / x) hi).mpr (by omega))
      (show q = q % x + q / x * x by omega)
    refine ⟨_, hidx, rfl, fun i _ => ?_, fun r hr => hcols.mem hvalid hcol hq hidx hr⟩
    simp only [teamPe, teamAt, peOf]
    push_cast
    ring
  · rw [xaxisCalls_eq]
    exact hrows.partition hvalid hrow
  · rw [yaxisCalls_eq]
    exact hcols.partition hvalid hcol
  · -- quotient and remainder decide about the number
    obtain ⟨r, hr, rfl⟩ := hrows.inside hrow hq ht hp
    obtain ⟨r', hr', rfl⟩ := hrows.inside hrow hq ht hp'
    have hdiv := ((hrows.mem hvalid hrow hq ht hr).mp hp).trans ((hrows.mem hvalid hrow hq ht hr').mp hp').symm
    have hmod := ((hcols.mem hvalid hcol hq' hu hr).mp hpu).trans ((hcols.mem hvalid hcol hq' hu hr').mp hpu').symm
    rw [eq_of_div_mod hdiv hmod]

end

/-- ten PEs on one node -/
def tenPes : Cfg where
  numPes := 10
  TEAMS_MAX := 10
  two_le := SplitStrided.fourPes.two_le
  le := SplitStrided.fourPes.le
  TEAM_SHARED_ONLY_SELF := false
  USE_XPMEM := true
  shr_rank := fun _ q => q

/-- five of them, with gaps -/
def oddTeam : TeamDesc := ⟨11, 0, 1, 2, 5, 2⟩

end SandiaShmem.Teams.Split2d
