/-
The tree collectives behind the bound of `TreeFits`.

SHMEM_COLL_RADIX is 131072, and 40000 of 40001 PEs call. The tree of all PEs has one level, so the initialisation works.
The index 131072 * 32768 + i of a child of PE 32768 leaves the `int`s and comes out as i, so PE 32768 takes all PEs from
1 on for its children, as PE 0 does.

- `treeFamily_root`, `treeFamily_wrapped`, `treeFamily_leaf`: what PEs 0, 32768 and 2 compute.
- `phantom_flag`: in a broadcast PE 2 gets a second flag, from PE 32768, after it has returned.
- `bcast_overflows`, `fcollect_overflows`: its pSync is not zero then.
- `op_to_all_overflows`: in a reduction PE 32768 clears PE 2 to send, and the contribution of PE 2 gets into the target
  of PE 0 before PE 0 has stored its own.
-/
import SandiaShmem.Core.Driving
import SandiaShmem.Collectives.ReduceTree
import SandiaShmem.Collectives.FcollectSelect

namespace SandiaShmem.Collectives.KaryOverflow

open CInt OneSided OneSided.Machine

/-! ## The tree -/

theorem many_bound : 0 + 1 * (40000 - 1) < 40001 := by decide

theorem many_pos : 1 ≤ 40000 := by decide

theorem many_start : (0 : ℤ) ≤ 0 := by decide

theorem many_stride : (1 : ℤ) ≤ 1 := by decide

theorem many_num_pes : (40001 : ℤ) < 2 ^ 31 := by decide

/-- PEs 0 to 39999 of 40001 -/
def manyPes : ActiveSet := ⟨0, 1, 40000, 40001, Nat.one_pos, many_pos, many_bound⟩

/-- a call of `shmem_internal_build_kary_tree` there -/
def manyArgs : KaryTree.Args where
  num_pes := 40001
  radix := 131072
  PE_start := 0
  stride := 1
  PE_size := 40000
  PE_root := 0
  two_le := by decide
  radix_lt := by decide
  start_nonneg := many_start
  stride_pos := many_stride
  root_nonneg := many_start
  root_lt := by decide
  last_lt := by decide
  num_pes_lt := many_num_pes

/-- PEs 1 to 39999 -/
def kids : List ℕ := (List.range 39999).map (· + 1)

theorem pe_eq (v : ℕ) : manyPes.pe v = v := by
  show 0 + v * 1 = v
  omega

theorem mem_many {v : ℕ} (hv : v < 40000) : v ∈ manyPes.members := pe_eq v ▸ manyPes.pe_mem hv

theorem kids_getElem {i : ℕ} (hi : i < 39999) : kids[i]? = some (i + 1) := by
  rw [kids, List.getElem?_map, List.getElem?_range hi]
  rfl

theorem kids_length : kids.length = 39999 := by rw [kids, List.length_map, List.length_range]

theorem kids_ne : kids ≠ [] := List.ne_nil_of_length_pos (by rw [kids_length]; decide)

/-- what a member computes, from the indices that it tries -/
theorem treeFamily_eq {v : ℕ} (hv : v < 40000) {my_id rank : ℤ} {ids : List ℤ} (hid : manyArgs.idOf v = my_id)
    (hparent : manyArgs.parentRank my_id = rank) (hids : manyArgs.childIds my_id 1 131072 = ids) :
    treeFamily 131072 manyPes 0 v =
      (toPE (manyArgs.pe rank), (ids.map fun tmp => manyArgs.pe (manyArgs.childRank tmp)).map toPE) := by
  have hpe : manyArgs.pe v = v := by simp only [KaryTree.Args.pe, manyArgs, zero_add, mul_one]
  have hbuild : KaryTree.buildKaryTree 131072 0 1 40000 0 v 131073 =
      some (manyArgs.pe rank, ids.map fun tmp => manyArgs.pe (manyArgs.childRank tmp)) := by
    have h := manyArgs.buildKaryTree_pe (by decide) (Int.natCast_nonneg v) (show (v : ℤ) < 40000 by omega) 131073
    rwa [hpe, if_pos (by decide), hid, hparent, show manyArgs.radix.toNat = 131072 from rfl, hids] at h
  have hwrap : wrap 32 131072 = 131072 := by decide
  have hnot : ¬ (manyPes.PE_size = manyPes.num_pes ∧ 0 = 0) := by decide
  rw [treeFamily, if_neg hnot]
  simp only [manyPes, Nat.cast_ofNat, Nat.cast_zero, Nat.cast_one, hwrap, hbuild]

theorem childRank_eq {t : ℕ} (ht : t < 40000) : manyArgs.childRank t = t := by
  simp only [KaryTree.Args.childRank, manyArgs, zero_add]
  rw [wrap_of_fits (by decide) ⟨by omega, by omega⟩, Int.tmod_eq_of_lt (by omega) (by omega)]

theorem argsPe_eq (t : ℕ) : manyArgs.pe t = t := by simp only [KaryTree.Args.pe, manyArgs, zero_add, mul_one]

theorem toPE_child {t : ℕ} (ht : t < 40000) : toPE (manyArgs.pe (manyArgs.childRank t)) = t := by
  rw [childRank_eq ht, argsPe_eq]
  exact toPE_cast (by omega)

/-- indices of members -/
theorem children_toPE {ids : List ℕ} (hlt : ∀ t ∈ ids, t < 40000) :
    ((ids.map fun t : ℕ => (t : ℤ)).map fun tmp => manyArgs.pe (manyArgs.childRank tmp)).map toPE = ids := by
  induction ids with
  | nil => rfl
  | cons t ids ih =>
    rw [List.map_cons, List.map_cons, List.map_cons, toPE_child (hlt t List.mem_cons_self),
      ih fun u hu => hlt u (List.mem_cons_of_mem t hu)]

/-- the indices of PEs 1 to 39999 -/
theorem childIds_kids {my_id m : ℤ} (h : 131072 * my_id = m * 2 ^ 32) :
    manyArgs.childIds my_id 1 131072 = kids.map fun t : ℕ => (t : ℤ) := by
  have hid : ∀ j < 131072, KaryTree.childId 131072 my_id (1 + (j : ℕ)) = ((j + 1 : ℕ) : ℤ) := by
    intro j hj
    have hsum : 131072 * my_id + (1 + (j : ℤ)) - m * 2 ^ 32 = ((j + 1 : ℕ) : ℤ) := by
      rw [h]
      push_cast
      ring
    rw [KaryTree.childId, wrap_wrap_add, wrap_eq_of_fits (m := m) (by decide), hsum]
    rw [hsum]
    exact ⟨by omega, by omega⟩
  have hmap : (List.range 131072).map (fun j : ℕ => KaryTree.childId 131072 my_id (1 + j)) =
      (List.range 131072).map fun j : ℕ => ((j + 1 : ℕ) : ℤ) :=
    List.map_congr_left fun j hj => hid j (List.mem_range.mp hj)
  show (((List.range 131072).map fun j : ℕ => KaryTree.childId 131072 my_id (1 + j)).filter (· < 40000)) = _
  -- from 40000 on there are no PEs
  rw [hmap, show 131072 = 39999 + 91073 from rfl, List.range_add, List.map_append, List.filter_append,
    List.filter_eq_self.mpr, List.filter_eq_nil_iff.mpr, List.append_nil, kids, List.map_map]
  · rfl
  · intro t ht
    obtain ⟨j, hj, rfl⟩ := List.mem_map.mp ht
    obtain ⟨k, -, rfl⟩ := List.mem_map.mp hj
    simp only [decide_eq_true_eq]
    omega
  · intro t ht
    obtain ⟨j, hj, rfl⟩ := List.mem_map.mp ht
    have := List.mem_range.mp hj
    simp only [decide_eq_true_eq]
    omega

theorem kids_lt {t : ℕ} (ht : t ∈ kids) : t < 40000 := by
  obtain ⟨j, hj, rfl⟩ := List.mem_map.mp ht
  have := List.mem_range.mp hj
  omega

/-- PE 0 is the root of PEs 1 to 39999 -/
theorem treeFamily_root : treeFamily 131072 manyPes 0 0 = (0, kids) := by
  have h := treeFamily_eq (v := 0) (by decide) (show manyArgs.idOf 0 = 0 by decide)
    (show manyArgs.parentRank 0 = 0 by decide) (childIds_kids (m := 0) (by decide))
  rwa [children_toPE fun t ht => kids_lt ht, show toPE (manyArgs.pe 0) = 0 by decide] at h

/-- and PE 32768, a child of PE 0, takes the same PEs for its children -/
theorem treeFamily_wrapped : treeFamily 131072 manyPes 0 32768 = (0, kids) := by
  have h := treeFamily_eq (v := 32768) (by decide) (show manyArgs.idOf 32768 = 32768 by decide)
    (show manyArgs.parentRank 32768 = 0 by decide) (childIds_kids (m := 1) (by decide))
  rwa [children_toPE fun t ht => kids_lt ht, show toPE (manyArgs.pe 0) = 0 by decide] at h

/-- PE 2 is a leaf under PE 0 -/
theorem treeFamily_leaf : treeFamily 131072 manyPes 0 2 = (0, []) := by
  have hids : manyArgs.childIds 2 1 131072 = [] := by
    show (((List.range 131072).map fun j : ℕ => KaryTree.childId 131072 2 (1 + j)).filter (· < 40000)) = _
    rw [List.filter_eq_nil_iff]
    intro t ht
    obtain ⟨j, hj, rfl⟩ := List.mem_map.mp ht
    have := List.mem_range.mp hj
    rw [KaryTree.childId, wrap_wrap_add, wrap_of_fits (by decide) ⟨by omega, by omega⟩]
    simp only [decide_eq_true_eq]
    omega
  have h := treeFamily_eq (v := 2) (by decide) (show manyArgs.idOf 2 = 2 by decide)
    (show manyArgs.parentRank 2 = 0 by decide) hids
  rwa [show toPE (manyArgs.pe 0) = 0 by decide] at h

/-! ## A broadcast -/

/-- a PE passes the data in the buffer `src` on to PEs 1 to 39999 -/
def passOn (B : BcastArgs) (src : ℕ) : List Instr :=
  kids.map (fun c => .putNb B.target (.sym src) B.len c) ++ ([.putWait, .fence] ++ kids.map fun c => .putScalar B.word 1 c)

section
variable {α : Type*} {M : Machine α} {B : BcastArgs} {s : St α}

/-- from position p on PE v passes the data on, and before it has only sent to PE 0 -/
structure Relay (M : Machine α) (B : BcastArgs) (v p src : ℕ) : Prop where
  code : ∀ x ins, (passOn B src)[x]? = some ins → M.prog v (p + x) = some ins
  before : ∀ t < p, ∀ c, M.destAt v t = some c → c = 0

namespace Relay
variable {v p src : ℕ} (R : Relay M B v p src)
include R

theorem data {i : ℕ} (hi : i < 39999) : M.prog v (p + i) = some (.putNb B.target (.sym src) B.len (i + 1)) := by
  refine R.code i _ (getElem?_append_of_left ?_)
  rw [List.getElem?_map, kids_getElem hi]
  rfl

theorem behind {x : ℕ} {ins : Instr}
    (h : ([.putWait, .fence] ++ kids.map fun c => Instr.putScalar B.word 1 c)[x]? = some ins) :
    M.prog v (p + (39999 + x)) = some ins := by
  refine R.code _ _ ?_
  have := getElem?_append_of_right (kids.map fun c => Instr.putNb B.target (.sym src) B.len c) h
  rwa [List.length_map, kids_length] at this

theorem flag {i : ℕ} (hi : i < 39999) : M.prog v (p + (40001 + i)) = some (.putScalar B.word 1 (i + 1)) := by
  rw [show 40001 + i = 39999 + (2 + i) by omega]
  refine R.behind ?_
  have hflag : (kids.map fun c => Instr.putScalar B.word 1 c)[i]? = some (.putScalar B.word 1 (i + 1)) := by
    rw [List.getElem?_map, kids_getElem hi]
    rfl
  exact getElem?_append_of_right [.putWait, .fence] hflag

/-- nothing that is sent before the data of a child goes to the child -/
theorem dest_eq {i t : ℕ} (hi : i < 39999) (ht : t < p + 40001) (hd : M.destAt v t = some (i + 1)) : t = p + i := by
  rcases Nat.lt_or_ge t p with hlt | hge
  · have := R.before t hlt _ hd
    omega
  obtain ⟨x, rfl⟩ := Nat.exists_eq_add_of_le hge
  rcases Nat.lt_or_ge x 39999 with hx | hx
  · rw [M.destAt_eq (R.data hx)] at hd
    have : x + 1 = i + 1 := Option.some.inj hd
    omega
  · have hcases : x = 39999 ∨ x = 40000 := by omega
    rcases hcases with rfl | rfl
    · rw [M.destAt_eq (R.behind (x := 0) rfl)] at hd
      exact absurd hd (by simp [Instr.dest])
    · rw [M.destAt_eq (R.behind (x := 1) rfl)] at hd
      exact absurd hd (by simp [Instr.dest])

/-- the PE gets through -/
theorem through (hpc : s.pc v = p) :
    ∃ cap, M.Reaches s { s with pc := Function.update s.pc v (p + 80000), cap := cap } ∧
      ∀ i < 39999, ∀ j < B.len, (cap v (p + i) j).isSome = true := by
  have hdata : M.Reaches s { s with pc := Function.update s.pc v (p + 39999) } :=
    reaches_free 39999 hpc fun k hk => ⟨.putNb B.target (.sym src) B.len (k + 1), R.data hk, rfl⟩
  obtain ⟨cap, hread, hsome, -⟩ := exists_captured (M := M) { s with pc := Function.update s.pc v (p + 39999) } v
  simp only [Function.update_self] at hread hsome
  have hwait := reaches_silent (M := M) (s := { s with pc := Function.update s.pc v (p + 39999), cap := cap })
    (Function.update_self ..) (R.behind (x := 0) rfl) rfl fun i hi j hj => by
      simp only [Function.update_self] at hi
      exact hsome i hi j hj
  have hflags := reaches_free (M := M) (s := { s with
      pc := Function.update (Function.update s.pc v (p + 39999)) v (p + (39999 + 0) + 1), cap := cap }) 40000
    (Function.update_self ..) fun k hk => by
      cases k with
      | zero => exact ⟨.fence, R.behind (x := 1) rfl, rfl⟩
      | succ k =>
        refine ⟨.putScalar B.word 1 (k + 1), ?_, rfl⟩
        rw [show p + (39999 + 0) + 1 + (k + 1) = p + (40001 + k) by omega]
        exact R.flag (by omega)
  simp only [Function.update_idem, Nat.add_assoc, Nat.reduceAdd] at hwait hflags
  refine ⟨cap, (hdata.trans hread).trans (hwait.trans hflags), fun i hi j hj => ?_⟩
  refine hsome (p + i) (by omega) j ?_
  rw [M.readsAt_eq (R.data hi)]
  exact hj

/-- and its data and its flag get to a child -/
theorem hand_over {i : ℕ} (hi : i < 39999) (hpc : s.pc v = p + 80000)
    (hcap : ∀ i < 39999, ∀ j < B.len, (s.cap v (p + i) j).isSome = true)
    (hnew : s.done v (p + (40001 + i)) 0 = false) :
    ∃ mem done, M.Reaches s { s with mem := mem, done := done, cell := setCell s.cell (i + 1) B.word 1 } ∧
      ∀ q t j, done q t j = true → s.done q t j = true ∨ (q = v ∧ (t = p + i ∨ t = p + (40001 + i))) := by
  have hdest : M.destAt v (p + i) = some (i + 1) := M.destAt_eq (R.data hi)
  obtain ⟨mem, done, hreach, hdone⟩ := exists_arrived (M := M) (s := s) (R.data hi) (by omega) (hcap i hi)
    (fun f hf _ t ht hd j hj => by
      rw [hdest] at hd
      have := R.dest_eq hi (by omega) hd
      omega)
  have hflag := R.flag hi
  have hdel : M.Deliverable { s with mem := mem, done := done } v (p + (40001 + i)) 0 := by
    refine ⟨show p + (40001 + i) < s.pc v by omega, ?_, ?_, fun hr => ?_, fun f hf hp t ht hd j hj => ?_⟩
    · rw [M.partsAt_eq hflag]
      exact Nat.one_pos
    · rw [Bool.eq_false_iff]
      intro hd
      rcases (hdone _ _ _).mp hd with h | ⟨-, h, -⟩
      · rw [hnew] at h
        exact absurd h (by decide)
      · omega
    · rw [M.readsAt_eq hflag] at hr
      exact absurd hr (Nat.not_lt_zero _)
    · -- only the data of the child are before a fence
      rw [M.destAt_eq hflag] at hd
      have hlt : t < p + 40001 := by
        by_contra hge
        obtain ⟨k, rfl⟩ := Nat.exists_eq_add_of_le (show p + 40001 ≤ f by omega)
        rw [show p + 40001 + k = p + (40001 + k) by omega, R.flag (by omega)] at hp
        exact absurd hp (by simp)
      have heq := R.dest_eq hi hlt hd
      subst heq
      rw [M.partsAt_eq (R.data hi)] at hj
      exact (hdone _ _ _).mpr (.inr ⟨rfl, rfl, hj⟩)
  refine ⟨mem, setDone done v (p + (40001 + i)) 0, hreach.trans ?_, fun q t j hd => ?_⟩
  · have hstep := reaches_deliver hflag hdel
    exact hstep
  · rcases (setDone_eq_true ..).mp hd with ⟨rfl, rfl, -⟩ | hd
    · exact .inr ⟨rfl, .inr rfl⟩
    · rcases (hdone _ _ _).mp hd with h | ⟨rfl, rfl, -⟩
      · exact .inl h
      · exact .inr ⟨rfl, .inl rfl⟩

end Relay

/-- PE 2 waits for a flag at position u and clears it -/
structure Leaf (M : Machine α) (B : BcastArgs) (u : ℕ) : Prop where
  arrive : M.prog 2 u = some (.waitUntil B.word .NE 0)
  clear : M.prog 2 (u + 1) = some (.putScalar B.word 0 2)
  cleared : M.prog 2 (u + 2) = some (.waitUntil B.word .EQ 0)
  before : ∀ t < u, ∀ c, M.destAt 2 t = some c → c = 0

/-- with the flag there it returns -/
theorem Leaf.returns {u : ℕ} (L : Leaf M B u) (hh : M.Hist s) (hpc : s.pc 2 = u) (hflag : s.cell 2 B.word ≠ 0) :
    ∃ s', M.Reaches s s' ∧ s'.pc = Function.update s.pc 2 (u + 3) ∧ s'.cell = setCell s.cell 2 B.word 0 := by
  have hwait := reaches_silent hpc L.arrive rfl hflag
  have hclear := reaches_sends (hwait.hist hh) (Function.update_self ..) L.clear rfl rfl rfl fun f hf _ t ht hd => by
    rw [M.destAt_eq L.clear] at hd
    exact absurd (L.before t (by omega) 2 hd) (by decide)
  have hcleared := reaches_silent (M := M) (s := { s with
      pc := Function.update s.pc 2 (u + 2), cell := setCell s.cell 2 B.word 0, done := setDone s.done 2 (u + 1) 0 })
    (Function.update_self ..) L.cleared rfl (setCell_self s.cell 2 B.word 0)
  simp only [Function.update_idem, Nat.add_assoc, Nat.reduceAdd] at hclear hcleared
  exact ⟨_, (hwait.trans hclear).trans hcleared, rfl, rfl⟩

/-- **A second flag.** PE 0 passes the data on to PEs 32768 and 2, PE 2 returns, and then the flag of PE 32768 gets to
PE 2. -/
theorem phantom_flag {p₀ p₁ u src₀ src₁ : ℕ} (R₀ : Relay M B 0 p₀ src₀) (R₁ : Relay M B 32768 (p₁ + 1) src₁)
    (hwait : M.prog 32768 p₁ = some (.waitUntil B.word .NE 0)) (L : Leaf M B u) (hh : M.Hist s) (h₀ : s.pc 0 = p₀)
    (h₁ : s.pc 32768 = p₁) (h₂ : s.pc 2 = u) :
    ∃ s', M.Reaches s s' ∧ s'.pc 2 = u + 3 ∧ s'.cell 2 B.word = 1 := by
  -- PE 0 passes the data on, first to PE 32768 and then to PE 2
  obtain ⟨cap₁, hr₁, hsome₁⟩ := R₀.through h₀
  obtain ⟨mem₂, done₂, hr₂, hdone₂⟩ := R₀.hand_over (s := { s with pc := Function.update s.pc 0 (p₀ + 80000), cap := cap₁ })
    (i := 32767) (by decide) (by simp) hsome₁ (hh.new (by omega) 0)
  have hnew₂ : done₂ 0 (p₀ + (40001 + 1)) 0 = false := by
    rw [Bool.eq_false_iff]
    intro hd
    rcases hdone₂ _ _ _ hd with h | ⟨-, h⟩
    · exact absurd (h.symm.trans (hh.new (show s.pc 0 ≤ p₀ + (40001 + 1) by omega) 0)) (by decide)
    · omega
  obtain ⟨mem₃, done₃, hr₃, -⟩ := R₀.hand_over (i := 1)
    (s := { s with
      pc := Function.update s.pc 0 (p₀ + 80000), cap := cap₁, mem := mem₂, done := done₂,
      cell := setCell s.cell 32768 B.word 1 }) (by decide) (by simp) hsome₁ hnew₂
  -- PE 2 returns
  have hr₃ := (hr₁.trans hr₂).trans hr₃
  obtain ⟨s₄, hr₄, hpc₄, hcell₄⟩ := L.returns (hr₃.hist hh) (by simpa using h₂) (by simp)
  have hr₄ := hr₃.trans hr₄
  have hat : s₄.pc 32768 = p₁ := by
    rw [hpc₄]
    simpa using h₁
  have hflag : s₄.cell 32768 B.word = 1 := by
    rw [hcell₄]
    simp [setCell_apply]
  -- PE 32768 has its flag and passes the data on to PE 2
  have hr₅ := reaches_silent hat hwait rfl (by rw [Enabled, hflag]; decide)
  obtain ⟨cap₆, hr₆, hsome₆⟩ := R₁.through (s := { s₄ with pc := Function.update s₄.pc 32768 (p₁ + 1) }) (by simp)
  obtain ⟨mem₇, done₇, hr₇, -⟩ := R₁.hand_over (i := 1) (s := { s₄ with
      pc := Function.update (Function.update s₄.pc 32768 (p₁ + 1)) 32768 (p₁ + 1 + 80000), cap := cap₆ }) (by decide)
    (by simp) hsome₆ ((hr₄.hist hh).new (by omega) 0)
  refine ⟨_, (hr₄.trans hr₅).trans (hr₆.trans hr₇), ?_, ?_⟩
  · simp [hpc₄]
  · simp

/-- the waits and the reset behind a PE that has passed the data on -/
def tidy (B : BcastArgs) (my_pe : ℕ) : List Instr := [.putScalar B.word 0 my_pe, .waitUntil B.word .EQ 0]

variable (hlen : B.len ≠ 0) (hcomplete : B.complete = false)
include hlen hcomplete

theorem body_root : bcastBody manyPes B 0 (.tree 131072) 0 = passOn B B.source ++ tidy B 0 := by
  have hcond : ¬ (manyPes.PE_size = 1 ∨ B.len = 0) := not_or.mpr ⟨by decide, hlen⟩
  have hkids := kids_ne
  simp only [bcastBody, bcastTree, if_neg hcond, treeFamily_root, if_pos hkids, hcomplete, passOn, tidy]
  simp

theorem body_wrapped : bcastBody manyPes B 0 (.tree 131072) 32768 =
    .waitUntil B.word .NE 0 :: (passOn B B.target ++ tidy B 32768) := by
  have hcond : ¬ (manyPes.PE_size = 1 ∨ B.len = 0) := not_or.mpr ⟨by decide, hlen⟩
  have hkids := kids_ne
  simp only [bcastBody, bcastTree, if_neg hcond, treeFamily_wrapped, if_pos hkids, hcomplete, passOn, tidy]
  simp

theorem body_leaf : bcastBody manyPes B 0 (.tree 131072) 2 = .waitUntil B.word .NE 0 :: tidy B 2 := by
  have hcond : ¬ (manyPes.PE_size = 1 ∨ B.len = 0) := not_or.mpr ⟨by decide, hlen⟩
  simp only [bcastBody, bcastTree, if_neg hcond, treeFamily_leaf, hcomplete, tidy]
  simp

end

/-- what comes before the broadcast is sent to PE 0 -/
def ToRoot (pre : List Instr) : Prop := ∀ ins ∈ pre, ∀ c, ins.dest = some c → c = 0

theorem ToRoot.before {pre post : List Instr} (h : ToRoot pre) {α : Type*} {M : Machine α} {v : ℕ}
    (hprog : ∀ t, M.prog v t = (pre ++ post)[t]?) : ∀ t < pre.length, ∀ c, M.destAt v t = some c → c = 0 := by
  intro t ht c hd
  have hp : M.prog v t = some pre[t] := by rw [hprog, List.getElem?_append_left ht, List.getElem?_eq_getElem ht]
  rw [M.destAt_eq hp] at hd
  exact h _ (List.getElem_mem ht) c hd

section
variable {α : Type*} {M : Machine α} {B : BcastArgs} {s : St α} (hlen : B.len ≠ 0) (hcomplete : B.complete = false)
include hlen hcomplete

/-- **The broadcast of these PEs, behind instructions that send to PE 0 only.** When PEs 0, 2 and 32768 have begun it,
PE 2 can be made to return with 1 in its pSync. -/
theorem exists_phantom {pre : ℕ → List Instr}
    (hprog : ∀ v ∈ manyPes.members, ∀ t, M.prog v t = (pre v ++ bcastBody manyPes B 0 (.tree 131072) v)[t]?)
    (hpre : ∀ v, ToRoot (pre v)) (hh : M.Hist s) (hpc : ∀ v ∈ manyPes.members, s.pc v = (pre v).length) :
    ∃ s', M.Reaches s s' ∧ s'.pc 2 = (pre 2 ++ bcastBody manyPes B 0 (.tree 131072) 2).length ∧ s'.cell 2 B.word = 1 := by
  have hmem₀ := mem_many (v := 0) (by decide)
  have hmem₁ := mem_many (v := 32768) (by decide)
  have hmem₂ := mem_many (v := 2) (by decide)
  have hprog₀ := hprog 0 hmem₀
  have hprog₁ := hprog 32768 hmem₁
  have hprog₂ := hprog 2 hmem₂
  rw [body_root hlen hcomplete] at hprog₀
  rw [body_wrapped hlen hcomplete] at hprog₁
  rw [body_leaf hlen hcomplete] at hprog₂ ⊢
  have R₀ : Relay M B 0 (pre 0).length B.source :=
    ⟨fun x ins hx => (hprog₀ _).trans (getElem?_append_of_right _ (getElem?_append_of_left hx)), (hpre 0).before hprog₀⟩
  have hwait : M.prog 32768 (pre 32768).length = some (.waitUntil B.word .NE 0) :=
    (hprog₁ _).trans (getElem?_append_of_right (t := 0) _ rfl)
  have R₁ : Relay M B 32768 ((pre 32768).length + 1) B.target := by
    refine ⟨fun x ins hx => ?_, fun t ht c hd => ?_⟩
    · rw [hprog₁, Nat.add_assoc, Nat.add_comm 1 x]
      refine getElem?_append_of_right _ ?_
      rw [List.getElem?_cons_succ]
      exact getElem?_append_of_left hx
    · rcases Nat.lt_succ_iff_lt_or_eq.mp ht with ht | rfl
      · exact (hpre 32768).before hprog₁ t ht c hd
      · rw [M.destAt_eq hwait] at hd
        exact absurd hd (by simp [Instr.dest])
  have L : Leaf M B (pre 2).length :=
    ⟨(hprog₂ _).trans (getElem?_append_of_right (t := 0) _ rfl), (hprog₂ _).trans (getElem?_append_of_right (t := 1) _ rfl),
      (hprog₂ _).trans (getElem?_append_of_right (t := 2) _ rfl), (hpre 2).before hprog₂⟩
  obtain ⟨s', hreach, hend, hcell⟩ := phantom_flag R₀ R₁ hwait L hh (hpc 0 hmem₀) (hpc 32768 hmem₁) (hpc 2 hmem₂)
  refine ⟨s', hreach, ?_, hcell⟩
  rw [hend, List.length_append]
  rfl

end

theorem once_prog {α : Type*} {ms : List ℕ} {op : α → α → α} {body : ℕ → List Instr} {v : ℕ} (hv : v ∈ ms) (t : ℕ) :
    (once ms op body).prog v t = (body v)[t]? := if_pos hv

/-- PE 0 sends one element, with its pSync in word 0 -/
def manyBcast : BcastArgs := ⟨0, 0, 1, 1, false⟩

/-- nothing comes before this broadcast -/
def noInstr : ℕ → List Instr := fun _ => []

/-- nothing but zeros -/
def zeros : St ℤ := init (fun _ _ => 0) fun _ _ => 0

/-- **PE 2 returns from the broadcast and its pSync becomes 1.** -/
theorem bcast_overflows : ¬ ∀ ops, BcastOk manyPes manyBcast 0 (.tree 131072) (fun a _ => a) (fun _ _ => (0 : ℤ))
    ((bcastMachine manyPes manyBcast 0 (.tree 131072) fun a _ => a).run zeros ops) := by
  intro h
  have hprog : ∀ v ∈ manyPes.members, ∀ t, (bcastMachine manyPes manyBcast 0 (.tree 131072) fun (a : ℤ) _ => a).prog v t =
      (noInstr v ++ bcastBody manyPes manyBcast 0 (.tree 131072) v)[t]? := fun v hv t => by
    rw [bcastMachine, once_prog hv, noInstr, List.nil_append]
  obtain ⟨s', ⟨ops, rfl⟩, hpc, hcell⟩ := exists_phantom (s := zeros) (by decide) rfl hprog
    (fun _ ins hins => absurd hins List.not_mem_nil) (hist_init _ _ _) fun _ _ => rfl
  rw [noInstr, List.nil_append] at hpc
  have hzero := (h ops).zero 2 (mem_many (by decide)) hpc
  exact absurd (hcell.symm.trans hzero) (by decide)

/-! ## The linear collect -/

/-- these PEs collect one element each from address 40000 to address 0 -/
def manyCollect : FcollectArgs := ⟨manyPes, 0, 40000, 1⟩

/-- with a broadcast over the tree -/
def linearTree : FcollectAlg := .linear (.tree 131072)

theorem many_gather {v : ℕ} (hv : v ≠ 0) : FcollectLinear.gather manyCollect v =
    [.putNb v (.sym 40000) 1 0, .putWait, .fence, .atomicAdd 0 1 0] := by
  have h := FcollectLinear.gather_other (G := manyCollect) hv
  rw [show manyCollect.A = manyPes from rfl, pe_eq, pe_eq, show manyCollect.target + v * manyCollect.len = v from
    (Nat.zero_add _).trans (Nat.mul_one v)] at h
  exact h

theorem many_gather_zero : FcollectLinear.gather manyCollect 0 =
    [.memcpy (.sym 0) (.sym 40000) 1, .atomicAdd 0 1 0, .waitUntil 0 .EQ 40000, .putScalar 0 0 0, .waitUntil 0 .EQ 0] :=
  rfl

theorem gather_toRoot (v : ℕ) : ToRoot (FcollectLinear.gather manyCollect v) := by
  intro ins hins c hd
  by_cases hv : v = 0
  · subst hv
    rw [many_gather_zero] at hins
    simp only [List.mem_cons, List.not_mem_nil, or_false] at hins
    rcases hins with rfl | rfl | rfl | rfl | rfl <;> simp [Instr.dest] at hd <;> omega
  · rw [many_gather hv] at hins
    simp only [List.mem_cons, List.not_mem_nil, or_false] at hins
    rcases hins with rfl | rfl | rfl | rfl <;> simp [Instr.dest] at hd <;> omega

section
variable {M : Machine ℤ} {s : St ℤ} (hprog : ∀ v ∈ manyPes.members, ∀ t, M.prog v t =
  (FcollectLinear.gather manyCollect v ++ bcastBody manyPes (FcollectLinear.bcastArgs manyCollect) 0 (.tree 131072) v)[t]?)
include hprog

/-- one PE after the other sends its element -/
theorem exists_gathered (n : ℕ) (hn : n < 40000) : ∃ s, M.Reaches zeros s ∧ s.cell 0 0 = n ∧
    ∀ u, s.pc u = if 1 ≤ u ∧ u ≤ n then 4 else 0 := by
  induction n with
  | zero => exact ⟨zeros, Reaches.refl zeros, rfl, fun u => by rw [if_neg (by omega)]; rfl⟩
  | succ n ih =>
    obtain ⟨s, hreach, hcell, hpc⟩ := ih (by omega)
    have hcode : ∀ {t : ℕ} {ins : Instr}, (FcollectLinear.gather manyCollect (n + 1))[t]? = some ins →
        M.prog (n + 1) t = some ins := fun h => (hprog _ (mem_many hn) _).trans (getElem?_append_of_left h)
    rw [many_gather (Nat.succ_ne_zero n)] at hcode
    obtain ⟨s', hreach', hpc', hcell'⟩ := exists_sent (hreach.hist (M.hist_init _ _)) ((hpc (n + 1)).trans (if_neg (by omega)))
      (hcode (t := 0) rfl) (hcode (t := 1) rfl) (hcode (t := 2) rfl) (hcode (t := 3) rfl)
    refine ⟨s', hreach.trans hreach', ?_, fun u => ?_⟩
    · rw [hcell', setCell_self, hcell]
      push_cast
      rfl
    · rw [hpc', Function.update_apply, hpc]
      split_ifs <;> omega

/-- then PE 0 has all of them and gets to the broadcast -/
theorem exists_collected : ∃ s, M.Reaches zeros s ∧ ∀ v ∈ manyPes.members, s.pc v =
    (FcollectLinear.gather manyCollect v).length := by
  obtain ⟨s, hreach, hcell, hpc⟩ := exists_gathered hprog 39999 (by omega)
  have hcode : ∀ {t : ℕ} {ins : Instr}, (FcollectLinear.gather manyCollect 0)[t]? = some ins → M.prog 0 t = some ins :=
    fun h => (hprog _ (mem_many (by decide)) _).trans (getElem?_append_of_left h)
  rw [many_gather_zero] at hcode
  have hpc₀ : s.pc 0 = 0 := (hpc 0).trans (if_neg (by omega))
  have hord : ∀ (s : St ℤ), ∀ a < 5, M.Ordered s 0 a := by
    intro s a ha f hf hp
    have hfence : f = 0 ∨ f = 1 ∨ f = 2 ∨ f = 3 := by omega
    rcases hfence with rfl | rfl | rfl | rfl <;> rw [hcode rfl] at hp <;> exact absurd hp (by simp)
  obtain ⟨s₁, hr₁, hpc₁, hcell₁⟩ : ∃ s₁, M.Reaches s s₁ ∧ s₁.pc = Function.update s.pc 0 1 ∧ s₁.cell = s.cell := by
    have hcopy : M.prog 0 (s.pc 0) = some (.memcpy (.sym 0) (.sym 40000) 1) := by
      rw [hpc₀]
      exact hcode rfl
    exact ⟨_, reaches_exec hcopy trivial, by rw [advance_eq, effect_pc, hpc₀], rfl⟩
  have hh₁ := (hreach.trans hr₁).hist (M.hist_init _ _)
  obtain ⟨s₂, hr₂, hpc₂, hcell₂⟩ : ∃ s₂, M.Reaches s₁ s₂ ∧ s₂.pc = Function.update s₁.pc 0 2 ∧
      s₂.cell = setCell s₁.cell 0 0 (s₁.cell 0 0 + 1) :=
    ⟨_, reaches_sends hh₁ (by simp [hpc₁]) (hcode (t := 1) rfl) rfl rfl rfl (hord _ 1 (by omega)), rfl, rfl⟩
  have hcounted : s₂.cell 0 0 = 40000 := by
    rw [hcell₂, setCell_self, hcell₁, hcell]
    rfl
  have hr₃ := reaches_silent (a := 2) (by simp [hpc₂]) (hcode (t := 2) rfl) rfl hcounted
  have hh₃ := hr₃.hist (hr₂.hist hh₁)
  obtain ⟨s₄, hr₄, hpc₄, hcell₄⟩ : ∃ s₄, M.Reaches { s₂ with pc := Function.update s₂.pc 0 3 } s₄ ∧
      s₄.pc = Function.update (Function.update s₂.pc 0 3) 0 4 ∧ s₄.cell = setCell s₂.cell 0 0 0 :=
    ⟨_, reaches_sends hh₃ (by simp) (hcode (t := 3) rfl) rfl rfl rfl (hord _ 3 (by omega)), rfl, rfl⟩
  have hr₅ := reaches_silent (a := 4) (by simp [hpc₄]) (hcode (t := 4) rfl) rfl (show s₄.cell 0 0 = 0 by simp [hcell₄])
  refine ⟨_, hreach.trans ((hr₁.trans hr₂).trans (hr₃.trans (hr₄.trans hr₅))), fun v hv => ?_⟩
  obtain ⟨r, hr, rfl⟩ := manyPes.mem_members.mp hv
  have hr : r < 40000 := hr
  rw [pe_eq]
  by_cases h0 : r = 0
  · subst h0
    simp [many_gather_zero]
  · rw [many_gather h0]
    simp only [hpc₄, hpc₂, hpc₁, Function.update_of_ne h0, hpc, List.length_cons, List.length_nil]
    exact if_pos ⟨by omega, by omega⟩

end

/-- these PEs reduce one element from address 1 to address 0 -/
def manyReduce : ReduceArgs := ⟨manyPes, 0, 1, 1⟩

/-- over the tree, with a linear broadcast -/
def reduceTree : ℕ → List Instr := (ReduceTree.ReduceAlg.tree 131072).body manyReduce .linear

theorem reduceTree_eq (v : ℕ) : ∃ post, reduceTree v = ReduceTree.treePart manyReduce 131072 v ++ post := by
  have hsize : ¬ manyReduce.A.PE_size = 1 := by decide
  have hcount : ¬ manyReduce.count = 0 := by decide
  refine ⟨bcastBody manyReduce.A (ReduceTree.bcastArgs manyReduce) 0 .linear v, ?_⟩
  rw [reduceTree, ReduceTree.ReduceAlg.body, ReduceTree.opToAllTree, if_neg hsize, if_neg hcount]

theorem reduce_wrapped : ∃ post, reduceTree 32768 =
    [.putNb 0 (.sym 1) 1 32768, .putWait, .quiet] ++ (kids.map (fun c => Instr.putScalar 1 1 c) ++ post) := by
  obtain ⟨post, h⟩ := reduceTree_eq 32768
  have hfam : treeFamily 131072 manyReduce.A 0 32768 = (0, kids) := treeFamily_wrapped
  have hkids := kids_ne
  simp only [h, ReduceTree.treePart, hfam, if_pos hkids, List.append_assoc]
  exact ⟨_, rfl⟩

theorem reduce_leaf : ∃ post, reduceTree 2 = [.waitUntil 1 .NE 0, .putScalar 1 0 2, .waitUntil 1 .EQ 0,
    .atomicv 0 (.sym 1) 1 0] ++ post := by
  obtain ⟨post, h⟩ := reduceTree_eq 2
  have hfam : treeFamily 131072 manyReduce.A 0 2 = (0, []) := treeFamily_leaf
  simp only [h, ReduceTree.treePart, hfam]
  exact ⟨_, rfl⟩

section
variable {M : Machine ℤ} {s : St ℤ} (hprog : ∀ v ∈ manyPes.members, ∀ t, M.prog v t = (reduceTree v)[t]?)
include hprog

/-- PE 32768 stores its own contribution and clears PE 2 to send -/
theorem exists_cleared : ∃ s, M.Reaches zeros s ∧ s.cell 2 1 = 1 ∧ ∀ u, u ≠ 32768 → s.pc u = 0 := by
  obtain ⟨post, hbody⟩ := reduce_wrapped
  have hcode : ∀ t, M.prog 32768 t = _ := hprog 32768 (mem_many (by decide))
  rw [hbody] at hcode
  have hown : ∀ {t : ℕ} {ins : Instr}, [Instr.putNb 0 (.sym 1) 1 32768, .putWait, .quiet][t]? = some ins →
      M.prog 32768 t = some ins := fun ht => (hcode _).trans (getElem?_append_of_left ht)
  have hcts : ∀ i < 39999, M.prog 32768 (3 + i) = some (.putScalar 1 1 (i + 1)) := fun i hi => by
    refine (hcode _).trans (getElem?_append_of_right [_, _, _] (getElem?_append_of_left ?_))
    rw [List.getElem?_map, kids_getElem hi]
    rfl
  have hput := hown (t := 0) rfl
  obtain ⟨s₁, hs₁⟩ : ∃ s₁ : St ℤ, s₁ = { zeros with pc := Function.update zeros.pc 32768 1 } := ⟨_, rfl⟩
  have hr₁ : M.Reaches zeros s₁ := by
    rw [hs₁]
    refine reaches_free 1 rfl fun k hk => ?_
    obtain rfl : k = 0 := by omega
    exact ⟨_, hput, rfl⟩
  have hpc₁ : s₁.pc 32768 = 1 := by simp [hs₁]
  obtain ⟨cap, hr₂, hsome, -⟩ := exists_captured (M := M) s₁ 32768
  rw [hpc₁] at hsome
  have hr₃ := reaches_silent (M := M) (s := { s₁ with cap := cap }) hpc₁ (hown (t := 1) rfl) rfl fun i hi j hj =>
    hsome i (hpc₁ ▸ hi) j hj
  have hcap : ∀ j < 1, (cap 32768 0 j).isSome = true := by
    intro j hj
    refine hsome 0 Nat.one_pos j ?_
    rw [M.readsAt_eq hput]
    exact hj
  obtain ⟨mem, done, hr₄, hdone⟩ := exists_arrived (M := M) (s := { s₁ with
      pc := Function.update s₁.pc 32768 (1 + 1), cap := cap }) hput (by simp) hcap fun f hf => absurd hf (Nat.not_lt_zero f)
  have hr₅ := reaches_silent (M := M) (s := { s₁ with
      pc := Function.update s₁.pc 32768 (1 + 1), cap := cap, mem := mem, done := done }) (Function.update_self ..)
    (hown (t := 2) rfl) rfl fun i hi j hj => by
      simp only [Function.update_self] at hi
      have hcases : i = 0 ∨ i = 1 := by omega
      rcases hcases with rfl | rfl
      · rw [M.partsAt_eq hput] at hj
        exact (hdone _ _ _).mpr (.inr ⟨rfl, rfl, hj⟩)
      · rw [M.partsAt_eq (hown (t := 1) rfl)] at hj
        exact absurd hj (Nat.not_lt_zero j)
  -- the first child is PE 1, the second PE 2
  have hr₆ := reaches_free (M := M) (s := { s₁ with
      pc := Function.update (Function.update s₁.pc 32768 (1 + 1)) 32768 (1 + 1 + 1), cap := cap, mem := mem, done := done })
    1 (Function.update_self ..) fun k hk => ⟨_, hcts k (by omega), rfl⟩
  have hr := (hr₁.trans hr₂).trans ((hr₃.trans hr₄).trans (hr₅.trans hr₆))
  have hr₇ := reaches_sends (hr.hist (M.hist_init _ _)) (a := 4) (Function.update_self ..) (hcts 1 (by decide)) rfl rfl rfl
    fun f hf hp => by
      have hcases : f = 0 ∨ f = 1 ∨ f = 2 ∨ f = 3 := by omega
      rcases hcases with rfl | rfl | rfl | rfl
      · rw [hown (t := 0) rfl] at hp
        exact absurd hp (by simp)
      · rw [hown (t := 1) rfl] at hp
        exact absurd hp (by simp)
      · rw [hown (t := 2) rfl] at hp
        exact absurd hp (by simp)
      · rw [hcts 0 (by decide)] at hp
        exact absurd hp (by simp)
  refine ⟨_, hr.trans hr₇, by simp [arrive], fun u hu => ?_⟩
  simp [hs₁, hu, zeros, init]

/-- then PE 2 applies its element to the target of PE 0 -/
theorem exists_contributed : ∃ s, M.Reaches zeros s ∧ s.done 2 3 0 = true ∧ s.pc 0 = 0 := by
  obtain ⟨s, hr, hflag, hpc⟩ := exists_cleared hprog
  obtain ⟨post, hbody⟩ := reduce_leaf
  have hcode : ∀ {t : ℕ} {ins : Instr}, [Instr.waitUntil 1 .NE 0, .putScalar 1 0 2, .waitUntil 1 .EQ 0,
      .atomicv 0 (.sym 1) 1 0][t]? = some ins → M.prog 2 t = some ins := fun ht => by
    rw [hprog 2 (mem_many (by decide)), hbody]
    exact getElem?_append_of_left ht
  have hord : ∀ s : St ℤ, ∀ a < 5, M.Ordered s 2 a := by
    intro s a ha f hf hp
    have hcases : f = 0 ∨ f = 1 ∨ f = 2 ∨ f = 3 := by omega
    rcases hcases with rfl | rfl | rfl | rfl <;> rw [hcode rfl] at hp <;> exact absurd hp (by simp)
  have hsend := hcode (t := 3) rfl
  have hr₁ := reaches_silent (hpc 2 (by decide)) (hcode (t := 0) rfl) rfl (show Cmp.NE.holds (s.cell 2 1) 0 by
    rw [hflag]
    decide)
  have hr₂ := reaches_sends ((hr.trans hr₁).hist (M.hist_init _ _)) (Function.update_self ..) (hcode (t := 1) rfl) rfl rfl rfl
    (hord _ 1 (by decide))
  obtain ⟨s₂, hs₂, hpc₂⟩ : ∃ s₂, M.Reaches s s₂ ∧ s₂.pc = Function.update s.pc 2 2 ∧ s₂.cell 2 1 = 0 :=
    ⟨_, hr₁.trans hr₂, by simp, by simp [arrive]⟩
  have hr₃ := reaches_silent (a := 2) (by rw [hpc₂.1, Function.update_self]) (hcode (t := 2) rfl) rfl hpc₂.2
  have hr₄ := reaches_free (M := M) (s := { s₂ with pc := Function.update s₂.pc 2 3 }) 1 (Function.update_self ..)
    fun k hk => by
      obtain rfl : k = 0 := by omega
      exact ⟨_, hsend, rfl⟩
  obtain ⟨cap, hr₅, hsome, -⟩ := exists_captured (M := M) { s₂ with
    pc := Function.update (Function.update s₂.pc 2 3) 2 (3 + 1) } 2
  have hall := (hr.trans hs₂).trans ((hr₃.trans hr₄).trans hr₅)
  have hr₆ := reaches_deliver (M := M) (j := 0) (s := { s₂ with
      pc := Function.update (Function.update s₂.pc 2 3) 2 (3 + 1), cap := cap }) hsend (by
    refine ⟨by simp, ?_, ?_, fun hj => hsome 3 (by simp) 0 ?_, hord _ 3 (by decide)⟩
    · rw [M.partsAt_eq hsend]
      exact Nat.one_pos
    · exact ((hr.trans hs₂).hist (M.hist_init _ _)).new (by rw [hpc₂.1, Function.update_self]; decide) 0
    · rw [M.readsAt_eq hsend]
      exact Nat.one_pos)
  refine ⟨_, hall.trans hr₆, ?_, ?_⟩
  · exact (mark_done ..).mpr (.inl ⟨rfl, rfl, rfl⟩)
  · simp [hpc₂.1, hpc 0 (by decide)]

end

/-- **The contribution of PE 2 gets to PE 0 before PE 0 has begun.** -/
theorem op_to_all_overflows : ¬ ∀ ops, ReduceTree.ReduceOk manyReduce (fun a b => a + b) reduceTree (fun _ _ => (0 : ℤ))
    ((once manyPes.members (fun a b => a + b) reduceTree).run zeros ops) := by
  intro h
  have hprog : ∀ v ∈ manyPes.members, ∀ t, (once manyPes.members (fun a b : ℤ => a + b) reduceTree).prog v t =
      (reduceTree v)[t]? := fun v hv t => once_prog hv t
  obtain ⟨s, hr, hdone, hpc⟩ := exists_contributed hprog
  have hh := hr.hist (hist_init _ _ _)
  obtain ⟨post, hleaf⟩ := reduce_leaf
  have hsend : (once manyPes.members (fun a b : ℤ => a + b) reduceTree).prog 2 3 = some (.atomicv 0 (.sym 1) 1 0) := by
    rw [hprog 2 (mem_many (by decide)), hleaf]
    rfl
  obtain ⟨ops, rfl⟩ := hr
  obtain ⟨u, -, hstored⟩ := (h ops).stored 2 3 _ _ _ _ hsend 0 hdone
  have hnone := hh.new (r := 0) (t := u) (by omega) 0
  exact absurd ((hstored 0 (by decide)).symm.trans hnone) (by decide)

end SandiaShmem.Collectives.KaryOverflow
