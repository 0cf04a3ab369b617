/-
The number of a PE in its teams: the field my_pe of `shmem_internal_team_t`.

A split sets it to the index in the active set of the new team. `shmem_internal_team_split_2d` splits the parent into rows
and then into columns. For the two pre-defined teams `shmem_internal_team_init` sets it to the number of the PE in the
job, which for SHMEM_TEAM_SHARED is its number in the team only if the team starts at PE 0 without gaps.

The number of rows is computed with a float in the source; here it is any number.

- `KnowsIndex`: what my_pe is for.
- `knowsIndex_of_ne_shared`: it is right in every team but SHMEM_TEAM_SHARED, after every history of calls.
- `knowsIndex_iff`: it is right in all teams exactly if every PE but PE 0 finds PEs 0 and 1 on its node, and more PEs than
  its own number.
-/
import SandiaShmem.Teams.Alloc

namespace SandiaShmem.Teams.MyPe

/-! ## Model -/

/-- splits of the parent with these arguments, one after the other, and the team each PE is in; `none` when one of them
does not complete, or fails and stops the job -/
def splitAxis (C : Cfg) (parent : TeamDesc) : List (ℤ × ℤ × ℤ) → St → (ℕ → Option TeamDesc) →
    Option (St × (ℕ → Option TeamDesc))
  | [], s, axis_team => some (s, axis_team)
  | (start, PE_stride, size) :: calls, s, axis_team =>
    match teamSplitStrided C s parent start PE_stride size with
    | none => none
    | some r =>
      if ∃ q ∈ parent.pes, r.ret q ≠ 0 then none
      else splitAxis C parent calls r.st fun q => (r.new_team q).or (axis_team q)

/-- the splits for the rows -/
def xaxisCalls (parent : TeamDesc) (xrange : ℤ) (num_xteams : ℕ) : List (ℤ × ℤ × ℤ) :=
  (List.range num_xteams).map fun i =>
    let remainder := (parent.size : ℤ).tmod xrange
    let xsize := if i + 1 = num_xteams ∧ remainder ≠ 0 then remainder else xrange
    (i * xrange, parent.stride, xsize)

/-- the splits for the columns -/
def yaxisCalls (parent : TeamDesc) (xrange : ℤ) : List (ℤ × ℤ × ℤ) :=
  (List.range xrange.toNat).map fun i =>
    let remainder := (parent.size : ℤ).tmod xrange
    let yrange := (parent.size : ℤ).tdiv xrange
    let ysize := if remainder ≠ 0 ∧ (i : ℤ) < remainder then yrange + 1 else yrange
    ((i : ℤ), xrange * parent.stride, ysize)

/-- `shmem_internal_team_split_2d` on all PEs of a valid parent: the tables after it, and the row and the column of each PE -/
def teamSplit2d (C : Cfg) (s : St) (parent : TeamDesc) (xrange : ℤ) (num_xteams : ℕ) :
    Option (St × (ℕ → Option TeamDesc) × (ℕ → Option TeamDesc)) :=
  let xrange := if xrange > parent.size then (parent.size : ℤ) else xrange
  match splitAxis C parent (xaxisCalls parent xrange num_xteams) s fun _ => none with
  | none => none
  | some (s', xaxis_team) =>
    match splitAxis C parent (yaxisCalls parent xrange) s' fun _ => none with
    | none => none
    | some (s'', yaxis_team) => some (s'', xaxis_team, yaxis_team)

/-- the calls of a history -/
inductive Call where
  /-- a strided split or a destroy -/
  | op (o : Op)
  /-- all PEs of the team with this uid, as `caller` knows it, split it into rows and columns -/
  | split2d (caller uid : ℕ) (xrange : ℤ) (num_xteams : ℕ)

/-- one call, when it is a legal one and completes -/
def call (C : Cfg) (s : St) : Call → St
  | .op o => step C s o
  | .split2d caller uid xrange num_xteams =>
    match teamOf s caller uid with
    | none => s
    | some parent =>
      if Collective C s parent then
        match teamSplit2d C s parent xrange num_xteams with
        | none => s
        | some r => r.1
      else s

def runCalls (C : Cfg) (calls : List Call) : St := Runs.run (call C) (init C) calls

/-- the PE p has its number in the team t, and all numbers of the team are those of PEs -/
structure KnowsIndex (C : Cfg) (p : ℕ) (t : TeamDesc) : Prop where
  lt : t.my_pe < t.size
  pe : teamPe t t.my_pe = p
  range : ∀ i < t.size, 0 ≤ teamPe t i ∧ teamPe t i < C.numPes

/-- every PE but PE 0 reaches PEs 0 and 1, and more PEs than its own number -/
def FromZero (C : Cfg) : Prop :=
  ∀ p, 0 < p → p < C.numPes → C.TEAM_SHARED_ONLY_SELF = false ∧ C.ptr p 0 = true ∧ C.ptr p 1 = true ∧
    p < (reached (C.ptr p) C.numPes).length

/-! ## The pre-defined teams -/

section
variable {C : Cfg} {p : ℕ}

theorem world_knows (hp : p < C.numPes) : KnowsIndex C p (world C p) := by
  refine ⟨hp, by simp [teamPe, world], fun i hi => ?_⟩
  have hi : i < C.numPes := hi
  simp only [teamPe, world, Nat.cast_zero, Nat.cast_one, zero_add, one_mul]
  omega

/-- the members of SHMEM_TEAM_SHARED are PEs, so that only my_pe may be wrong -/
theorem shared_knows_iff (hp : p < C.numPes) : KnowsIndex C p (shared C p) ↔
    p < (shared C p).size ∧ (shared C p).start + (shared C p).stride * p = p := by
  have hteam : ∀ i : ℕ, teamPe (shared C p) i = ((shared C p).start + (shared C p).stride * i : ℕ) := by
    intro i
    simp only [teamPe]
    push_cast
    rfl
  constructor
  · intro h
    have hpe := h.pe
    rw [hteam] at hpe
    exact ⟨h.lt, by exact_mod_cast hpe⟩
  · rintro ⟨hlt, hpe⟩
    refine ⟨hlt, ?_, fun i hi => ?_⟩
    · rw [hteam]
      exact_mod_cast hpe
    · rw [hteam]
      exact ⟨by positivity, by exact_mod_cast (shared_lt C hp).2.2 i hi⟩

/-- the triplet of SHMEM_TEAM_SHARED as numbers -/
theorem shared_of_triplet {start stride size : ℕ} (h : C.triplet p = ⟨start, stride, size⟩) :
    (shared C p).start = start ∧ (shared C p).stride = stride ∧ (shared C p).size = size := by
  simp only [shared, h, Int.toNat_natCast, and_self]

/-- on PE 0 it starts at PE 0 -/
theorem shared_start_zero (h0 : 0 < C.numPes) : (shared C 0).start = 0 := by
  rcases sharedTriplet_cases C.TEAM_SHARED_ONLY_SELF h0 (C.ptr_self 0) with h | ⟨a, b, L, -, hL, -, -, h⟩
  · have htriplet : C.triplet 0 = ⟨(0 : ℕ), (1 : ℕ), (1 : ℕ)⟩ := h
    exact (shared_of_triplet htriplet).1
  · have hmem : 0 ∈ a :: b :: L := hL ▸ mem_reached.mpr ⟨h0, C.ptr_self 0⟩
    have hsorted := reached_sorted (C.ptr 0) C.numPes
    rw [hL] at hsorted
    have ha : a = 0 := by
      rcases List.mem_cons.mp hmem with h | h
      · exact h.symm
      · exact absurd (List.rel_of_pairwise_cons hsorted h) (Nat.not_lt_zero _)
    have htriplet : (C.triplet 0).start = a := congrArg Triplet.start h
    simp only [shared, htriplet, ha]
    rfl

/-- SHMEM_TEAM_SHARED has the right my_pe on PE 0, and on another PE exactly if it starts with PEs 0 and 1 and is large
enough -/
theorem shared_index_iff (hp : p < C.numPes) :
    (p < (shared C p).size ∧ (shared C p).start + (shared C p).stride * p = p) ↔
      (0 < p → C.TEAM_SHARED_ONLY_SELF = false ∧ C.ptr p 0 = true ∧ C.ptr p 1 = true ∧
        p < (reached (C.ptr p) C.numPes).length) := by
  constructor
  · rintro ⟨hlt, hpe⟩ h0
    rcases sharedTriplet_cases C.TEAM_SHARED_ONLY_SELF hp (C.ptr_self p) with h | ⟨a, b, L, hself, hL, hab, -, h⟩
    · -- the PE is alone in its team
      have htriplet : C.triplet p = ⟨p, (1 : ℕ), (1 : ℕ)⟩ := h
      obtain ⟨-, -, hsize⟩ := shared_of_triplet htriplet
      omega
    · have htriplet : C.triplet p = ⟨a, (b - a : ℕ), (L.length + 2 : ℕ)⟩ := by
        rw [Cfg.triplet, h, Nat.cast_sub hab.le]
      obtain ⟨hstart, hstride, hsize⟩ := shared_of_triplet htriplet
      rw [hsize] at hlt
      rw [hstart, hstride] at hpe
      have hle : p ≤ (b - a) * p := Nat.le_mul_of_pos_left p (by omega)
      obtain rfl : a = 0 := by omega
      have hone : b * p = 1 * p := by simpa using hpe
      obtain rfl : b = 1 := Nat.eq_of_mul_eq_mul_right h0 hone
      have hmem : ∀ x ∈ [0, 1], C.ptr p x = true := by
        intro x hx
        refine (mem_reached.mp (hL ▸ ?_ : x ∈ reached (C.ptr p) C.numPes)).2
        exact List.mem_append_left L hx
      exact ⟨hself, hmem 0 (by simp), hmem 1 (by simp), hL ▸ hlt⟩
  · intro hcond
    rcases Nat.eq_zero_or_pos p with rfl | h0
    · rw [shared_start_zero hp]
      exact ⟨(shared_lt C hp).1, by simp⟩
    · obtain ⟨hself, hzero, hone, hlen⟩ := hcond h0
      have htriplet : C.triplet p = ⟨(0 : ℕ), (1 : ℕ), (reached (C.ptr p) C.numPes).length⟩ := by
        rw [Cfg.triplet, hself]
        exact sharedTriplet_of_zero_one (by omega) hzero hone
      obtain ⟨hstart, hstride, hsize⟩ := shared_of_triplet htriplet
      rw [hstart, hstride, hsize]
      exact ⟨hlen, by omega⟩

end

/-! ## The calls -/

/-- every team but SHMEM_TEAM_SHARED is right -/
def IndexInv (C : Cfg) (s : St) : Prop :=
  ∀ p < C.numPes, ∀ t ∈ (s.pe p).live, t = shared C p ∨ KnowsIndex C p t

section
variable {C : Cfg} {s s' : St}

theorem index_init (C : Cfg) : IndexInv C (init C) := by
  intro p hp t ht
  rcases (live_init C).mp ht with rfl | rfl
  · exact .inr (world_knows hp)
  · exact .inl rfl

/-- the index in the active set is the number in the new team -/
theorem split_member_knows {g q : ℕ} {PE_stride PE_size : ℤ} (hstride : 1 ≤ PE_stride) (hsize : 0 < PE_size)
    (hlt : ∀ v ∈ activeSet g PE_stride PE_size, v < C.numPes) (hq : peInActiveSet q g PE_stride PE_size ≠ -1)
    (uid i : ℕ) : KnowsIndex C q
      ⟨uid, (peInActiveSet q g PE_stride PE_size).toNat, g, PE_stride.toNat, PE_size.toNat, i⟩ := by
  obtain ⟨d, rfl⟩ : ∃ d : ℕ, PE_stride = d := ⟨PE_stride.toNat, by omega⟩
  obtain ⟨n, rfl⟩ : ∃ n : ℕ, PE_size = n := ⟨PE_size.toNat, by omega⟩
  obtain ⟨k, hk, hpe⟩ := List.mem_map.mp ((peInActiveSet_ne q g d n hstride hsize).mp hq)
  have hk : k < n := by simpa using hk
  have hpe : q = g + k * d := by
    rw [← hpe]
    exact_mod_cast Int.toNat_natCast _
  -- the index is k
  have hidx : peInActiveSet q g d n = k := by
    rw [hpe]
    exact peInActiveSet_member hk (by omega)
  rw [hidx]
  refine ⟨hk, ?_, fun j hj => ⟨by simp only [teamPe]; positivity, ?_⟩⟩
  · simp only [teamPe, Int.toNat_natCast]
    rw [hpe]
    push_cast
    ring
  · have hmem : g + j * d ∈ activeSet g d n := by
      refine List.mem_map.mpr ⟨j, by simpa using hj, ?_⟩
      exact_mod_cast Int.toNat_natCast _
    have := hlt _ hmem
    simp only [teamPe, Int.toNat_natCast]
    rw [Int.mul_comm]
    exact_mod_cast this

theorem split_index {parent : TeamDesc} (hpar : ∀ q ∈ parent.pes, q < C.numPes) (h : IndexInv C s)
    {PE_start PE_stride PE_size : ℤ} {r : SplitResult}
    (hr : teamSplitStrided C s parent PE_start PE_stride PE_size = some r) : IndexInv C r.st := by
  rcases split_cases hr with rfl | ⟨g, -, hsize, hstride, hsub, rfl | ⟨i, -, -, mt, hmt, rfl⟩⟩
  · exact h
  · exact h
  · intro p hp t ht
    simp only at ht
    split_ifs at ht with hM
    · rcases List.mem_append.mp ht with ht | ht
      · exact h p hp t ht
      · rw [List.mem_singleton.mp ht, hmt]
        exact .inr (split_member_knows hstride hsize (fun v hv => hpar v (hsub v hv)) hM.2 _ i)
    · exact h p hp t ht

/-- a team that a split gives to a PE is one of its teams, and no team is lost -/
theorem split_live {parent : TeamDesc} {PE_start PE_stride PE_size : ℤ} {r : SplitResult}
    (hr : teamSplitStrided C s parent PE_start PE_stride PE_size = some r) (q : ℕ) :
    (∀ t ∈ (s.pe q).live, t ∈ (r.st.pe q).live) ∧ ∀ t ∈ r.new_team q, t ∈ (r.st.pe q).live := by
  rcases split_cases hr with rfl | ⟨g, -, -, -, -, rfl | ⟨i, -, -, mt, -, rfl⟩⟩
  · exact ⟨fun t ht => ht, fun t ht => absurd ht (by simp)⟩
  · exact ⟨fun t ht => ht, fun t ht => absurd ht (by simp)⟩
  · simp only
    split_ifs with hM
    · exact ⟨fun t ht => List.mem_append_left _ ht,
        fun t ht => List.mem_append_right _ (List.mem_singleton.mpr (Option.some.inj ht).symm)⟩
    · exact ⟨fun t ht => ht, fun t ht => absurd ht (by simp)⟩

theorem splitAxis_index {parent : TeamDesc} (hpar : ∀ q ∈ parent.pes, q < C.numPes) (calls : List (ℤ × ℤ × ℤ))
    (h : IndexInv C s) {axis axis' : ℕ → Option TeamDesc} (hr : splitAxis C parent calls s axis = some (s', axis')) :
    IndexInv C s' := by
  induction calls generalizing s axis with
  | nil =>
    obtain ⟨rfl, -⟩ := Prod.mk.inj (Option.some.inj hr)
    exact h
  | cons c calls ih =>
    simp only [splitAxis] at hr
    split at hr
    · exact absurd hr (by simp)
    · rename_i r hsplit
      split_ifs at hr
      exact ih (split_index hpar h hsplit) hr

/-- the teams of an axis are teams of their PEs, and no team is lost -/
theorem splitAxis_live {parent : TeamDesc} (calls : List (ℤ × ℤ × ℤ)) {axis axis' : ℕ → Option TeamDesc}
    (hr : splitAxis C parent calls s axis = some (s', axis')) (q : ℕ) (haxis : ∀ t ∈ axis q, t ∈ (s.pe q).live) :
    (∀ t ∈ (s.pe q).live, t ∈ (s'.pe q).live) ∧ ∀ t ∈ axis' q, t ∈ (s'.pe q).live := by
  induction calls generalizing s axis with
  | nil =>
    obtain ⟨rfl, rfl⟩ := Prod.mk.inj (Option.some.inj hr)
    exact ⟨fun t ht => ht, haxis⟩
  | cons c calls ih =>
    simp only [splitAxis] at hr
    split at hr
    · exact absurd hr (by simp)
    · rename_i r hsplit
      split_ifs at hr
      obtain ⟨hkeep, hnew⟩ := split_live hsplit q
      obtain ⟨hkeep', haxis'⟩ := ih hr fun t ht => (Option.or_eq_some_iff.mp ht).elim (hnew t)
        fun h => hkeep t (haxis t h.2)
      exact ⟨fun t ht => hkeep' t (hkeep t ht), haxis'⟩

/-- the row and the column that `shmem_internal_team_split_2d` gives to a PE are teams of it -/
theorem teamSplit2d_live {parent : TeamDesc} {xrange : ℤ} {num_xteams : ℕ} {xaxis yaxis : ℕ → Option TeamDesc}
    (hr : teamSplit2d C s parent xrange num_xteams = some (s', xaxis, yaxis)) (q : ℕ) {t : TeamDesc}
    (ht : t ∈ xaxis q ∨ t ∈ yaxis q) : t ∈ (s'.pe q).live := by
  simp only [teamSplit2d] at hr
  split at hr
  · exact absurd hr (by simp)
  rename_i s₁ xaxis₁ hx
  split at hr
  · exact absurd hr (by simp)
  rename_i s₂ yaxis₂ hy
  obtain ⟨rfl, hxy⟩ := Prod.mk.inj (Option.some.inj hr)
  obtain ⟨rfl, rfl⟩ := Prod.mk.inj hxy
  have hrows := splitAxis_live _ hx q fun t ht => absurd ht (by simp)
  have hcols := splitAxis_live _ hy q fun t ht => absurd ht (by simp)
  exact ht.elim (fun ht => hcols.1 t (hrows.2 t ht)) (hcols.2 t)

theorem teamSplit2d_index {parent : TeamDesc} (hpar : ∀ q ∈ parent.pes, q < C.numPes) (h : IndexInv C s) {xrange : ℤ}
    {num_xteams : ℕ} {r : St × (ℕ → Option TeamDesc) × (ℕ → Option TeamDesc)}
    (hr : teamSplit2d C s parent xrange num_xteams = some r) : IndexInv C r.1 := by
  simp only [teamSplit2d] at hr
  split at hr
  · exact absurd hr (by simp)
  rename_i s₁ xaxis hx
  split at hr
  · exact absurd hr (by simp)
  rename_i s₂ yaxis hy
  rw [← Option.some.inj hr]
  exact splitAxis_index hpar _ (splitAxis_index hpar _ h hx) hy

theorem step_index (h : IndexInv C s) (o : Op) : IndexInv C (step C s o) := by
  have hcalls := step_calls C s o
  generalize step C s o = s' at hcalls ⊢
  cases hcalls with
  | idle => exact h
  | split hc hr => exact split_index (fun q hq => (hc q hq).1) h hr
  | @destroy p team t _ _ _ _ hd =>
    intro q hq u hu
    simp only at hu
    by_cases hqp : q = p
    · subst hqp
      rw [Function.update_self] at hu
      exact h q hq u (teamDestroy_live hd hu)
    · rw [Function.update_of_ne hqp] at hu
      exact h q hq u hu

theorem call_index (h : IndexInv C s) (c : Call) : IndexInv C (call C s c) := by
  cases c with
  | op o => exact step_index h o
  | split2d caller uid xrange num_xteams =>
    simp only [call]
    split
    · exact h
    · split_ifs with hcoll
      · split
        · exact h
        · rename_i r hr
          exact teamSplit2d_index (fun q hq => (hcoll q hq).1) h hr
      · exact h

end

/-- after every history of calls, in every team but SHMEM_TEAM_SHARED -/
theorem knowsIndex_of_ne_shared (C : Cfg) (calls : List Call) {p : ℕ} (hp : p < C.numPes) {t : TeamDesc}
    (ht : t ∈ ((runCalls C calls).pe p).live) (hne : t ≠ shared C p) : KnowsIndex C p t :=
  (Runs.run_inv (call C) (IndexInv C) (fun _ c h => call_index h c) (init C) (index_init C) calls p hp t ht).resolve_left hne

/-! ## Main results -/

/-- **Members know their number** in all teams, in every state that a history of calls reaches, exactly if every PE but
PE 0 reaches PEs 0 and 1 and more PEs than its own number: then SHMEM_TEAM_SHARED starts with PEs 0 and 1 everywhere, and
the number of a PE in the job is its number in the team. -/
theorem knowsIndex_iff (C : Cfg) :
    (∀ calls, ∀ p < C.numPes, ∀ t ∈ ((runCalls C calls).pe p).live, KnowsIndex C p t) ↔ FromZero C := by
  constructor
  · intro h p h0 hp
    have hlive : shared C p ∈ ((runCalls C []).pe p).live := List.mem_cons_of_mem _ List.mem_cons_self
    exact (shared_index_iff hp).mp ((shared_knows_iff hp).mp (h [] p hp _ hlive)) h0
  · intro hzero calls p hp t ht
    by_cases hne : t = shared C p
    · rw [hne]
      exact (shared_knows_iff hp).mpr ((shared_index_iff hp).mpr fun h0 => hzero p h0 hp)
    · exact knowsIndex_of_ne_shared C calls hp ht hne

/-- when reaching each other is being on one node, this means that there is one node only -/
theorem fromZero_iff_one_node (C : Cfg) (node : ℕ → ℕ)
    (hnode : ∀ p < C.numPes, ∀ q < C.numPes, C.ptr p q = true ↔ node p = node q) :
    FromZero C ↔ C.numPes ≤ 1 ∨ C.TEAM_SHARED_ONLY_SELF = false ∧ ∀ p < C.numPes, node p = node 0 := by
  constructor
  · intro h
    rcases Nat.lt_or_ge 1 C.numPes with h2 | h1
    · refine .inr ⟨(h 1 Nat.one_pos h2).1, fun p hp => ?_⟩
      rcases Nat.eq_zero_or_pos p with rfl | h0
      · rfl
      · exact (hnode p hp 0 (by omega)).mp (h p h0 hp).2.1
    · exact .inl h1
  · rintro (h1 | ⟨hself, hone⟩) p h0 hp
    · omega
    · have hall : ∀ q < C.numPes, C.ptr p q = true := fun q hq => (hnode p hp q hq).mpr ((hone p hp).trans (hone q hq).symm)
      have hreached : reached (C.ptr p) C.numPes = List.range C.numPes :=
        List.filter_eq_self.mpr fun q hq => hall q (List.mem_range.mp hq)
      refine ⟨hself, hall 0 (by omega), hall 1 (by omega), ?_⟩
      rwa [hreached, List.length_range]

/-- two PEs on two nodes: PE 1 is alone in its SHMEM_TEAM_SHARED and has number 1 there -/
theorem shared_index_wrong :
    shared twoPes 1 ∈ ((runCalls twoPes []).pe 1).live ∧ (shared twoPes 1).my_pe = 1 ∧ (shared twoPes 1).size = 1 ∧
      teamPe (shared twoPes 1) (shared twoPes 1).my_pe = 2 ∧ ¬ KnowsIndex twoPes 1 (shared twoPes 1) := by
  refine ⟨List.mem_cons_of_mem _ List.mem_cons_self, by decide, by decide, by decide, fun h => ?_⟩
  exact absurd h.lt (by decide)

end SandiaShmem.Teams.MyPe
