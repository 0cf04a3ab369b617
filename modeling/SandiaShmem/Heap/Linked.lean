/-
The bins in memory hold what they should, and stay so.

- `InMemory`: the links in memory are those of lists and tries.
- `Nodes`: the chunks are apart from each other and from the state of the allocator.
- `InBins`: the chunks of a set are in the bins.
- `InBins.insert`, `InBins.unlink`, `InBins.first`: no check of a macro fails, and one chunk enters or leaves.
-/
import SandiaShmem.Heap.Links

namespace SandiaShmem.Heap

open BitScan BitTrie LinkedTrie Rings Function

/-! ## Links in memory -/

/-- the links, and the map, are those of the lists and tries -/
structure InMemory (Y : Sys) (mem : Mem) (b : Bins) : Prop where
  ring : ∀ i < 32, b.smallmap.getLsbD i = true →
    Path (link mem .fd) (link mem .bk) (smallbin_at Y i) (b.smallbins i) (smallbin_at Y i)
  root : ∀ i < 32, mem (treebin_at Y i) = ptr (b.treebins i)
  tree : ∀ i < 32, Linked (link mem) (treebin_at Y i) (b.treebins i)
  index : ∀ i < 32, ∀ p ∈ (b.treebins i).toList, index mem p = i

/-- free chunks are in the segment, apart from each other and from `_gm_` -/
structure Nodes (Y : Sys) (s : MState) (free : Set ℕ) : Prop where
  inside : ∀ q ∈ free, s.least_addr ≤ q ∧ q < s.least_addr + s.footprint
  pos : ∀ q ∈ free, 0 < q
  min : ∀ q ∈ free, 32 ≤ chunksize s.mem q
  apart : ∀ q ∈ free, ∀ r ∈ free, q ≠ r → q + chunksize s.mem q ≤ r ∨ r + chunksize s.mem r ≤ q
  away : ∀ q ∈ free, q + chunksize s.mem q ≤ Y.gm ∨ Y.gm + STATE_SIZE ≤ q

/-- the words of a chunk behind its head -/
def Area (size : ℕ → ℕ) (q x : ℕ) : Prop := q + 16 ≤ x ∧ x < q + size q

/-- the words of the chunks in T, and those of `_gm_` in A, are all that has changed -/
def Outside (s : MState) (A T : Set ℕ) (mem' : Mem) : Prop :=
  ∀ x, x ∉ A → (∀ q ∈ T, ¬ Area (chunksize s.mem) q x) → mem' x = s.mem x

/-- only links have changed, of the chunks of a set and in `_gm_`, and the maps -/
structure Relinked (Y : Sys) (free : Set ℕ) (s s' : MState) : Prop where
  same : s' = { s with mem := s'.mem, smallmap := s'.smallmap, treemap := s'.treemap }
  outside : Outside s {x | Y.State x} free s'.mem

/-- the bins, in memory and as they should be, hold the chunks of a set -/
structure HasBins (Y : Sys) (s : MState) (free : Set ℕ) (b : Bins) : Prop where
  smallmap : b.smallmap = s.smallmap
  treemap : b.treemap = s.treemap
  binned : Binned Y.length (chunksize s.mem) free b
  memory : InMemory Y s.mem b

/-- the chunks of a set are in the bins -/
def InBins (Y : Sys) (s : MState) (free : Set ℕ) : Prop := ∃ b, HasBins Y s free b

section
variable {Y : Sys} {s s' : MState} {mem mem' : Mem} {b : Bins} {free : Set ℕ} {p q x v i j : ℕ} {f g : Field}

theorem offset_lt (f : Field) : 16 ≤ offset f ∧ offset f < 56 := by
  cases f with
  | child second => cases second <;> decide
  | _ => decide

theorem offset_inj (h : offset f = offset g) : f = g := by
  cases f with
  | child b => cases g with
    | child b' => cases b <;> cases b' <;> first | rfl | cases h
    | _ => cases b <;> cases h
  | _ => cases g with
    | child b' => cases b' <;> cases h
    | _ => first | rfl | cases h

theorem link_put_of_ne {w : ℕ} (h : q + offset g ≠ x) : link (put mem x w) g q = link mem g q := put_of_ne h

@[simp] theorem link_set_link_self : link (set_link mem f p v) f p = v := put_self

theorem link_set_link_of_ne (h : q + offset g ≠ p + offset f) : link (set_link mem f p v) g q = link mem g q := put_of_ne h

theorem set_link_of_ne (h : x ≠ p + offset f) : set_link mem f p v x = mem x := put_of_ne h

theorem smallbin_at_eq (Y : Sys) (i : ℕ) : smallbin_at Y i = Y.gm + 72 + 16 * i := by
  unfold smallbin_at
  rw [Nat.shiftLeft_eq]
  omega

/-! ### What is apart -/

variable {size : ℕ → ℕ} {bound : ℕ} {T A : Set ℕ} {l : List ℕ} {map : BinMap}

theorem Nodes.mono {G : Set ℕ} (h : Nodes Y s free) (hsub : G ⊆ free) : Nodes Y s G :=
  ⟨fun q hq => h.inside q (hsub hq), fun q hq => h.pos q (hsub hq), fun q hq => h.min q (hsub hq),
    fun q hq r hr => h.apart q (hsub hq) r (hsub hr), fun q hq => h.away q (hsub hq)⟩

/-- a word of a chunk is not one of `_gm_` -/
theorem Nodes.area_state (h : Nodes Y s free) (hq : q ∈ free) (hx : Area (chunksize s.mem) q x) : ¬ Y.State x := by
  obtain ⟨h1, h2⟩ := hx
  have := h.away q hq
  unfold Sys.State
  omega

/-- nor one of another chunk -/
theorem Nodes.area_area {r : ℕ} (h : Nodes Y s free) (hq : q ∈ free) (hr : r ∈ free) (hne : q ≠ r)
    (hx : Area (chunksize s.mem) q x) : ¬ Area (chunksize s.mem) r x := by
  obtain ⟨h1, h2⟩ := hx
  rintro ⟨h3, h4⟩
  have := h.apart q hq r hr hne
  omega

theorem area_link (hsize : offset f + 8 ≤ size q) : Area size q (q + offset f) := by
  have := offset_lt f
  exact ⟨by omega, by omega⟩

theorem state_treebin (hi : i < 32) : Y.State (treebin_at Y i) := by
  unfold treebin_at Sys.State STATE_SIZE
  omega

theorem Outside.link_same (h : Outside s A T mem') (hN : Nodes Y s free) (hA : ∀ x ∈ A, Y.State x) (hT : T ⊆ free)
    (hq : q ∈ free) (hqT : q ∉ T) (hsize : offset f + 8 ≤ chunksize s.mem q) : link mem' f q = link s.mem f q := by
  have harea := area_link (f := f) hsize
  exact h _ (fun hx => hN.area_state hq harea (hA _ hx)) fun r hr =>
    hN.area_area hq (hT hr) (fun heq => hqT (heq ▸ hr)) harea

theorem Outside.state_same (h : Outside s A T mem') (hN : Nodes Y s free) (hT : T ⊆ free) (hx : Y.State x) (hxA : x ∉ A) :
    mem' x = s.mem x :=
  h x hxA fun _ hr harea => hN.area_state (hT hr) harea hx

theorem Outside.index_same (h : Outside s A T mem') (hN : Nodes Y s free) (hA : ∀ x ∈ A, Y.State x) (hT : T ⊆ free)
    (hq : q ∈ free) (hqT : q ∉ T) (hsize : 64 ≤ chunksize s.mem q) : index mem' q = index s.mem q := by
  have harea : Area (chunksize s.mem) q (q + 56) := ⟨by omega, by omega⟩
  rw [index, index, h _ (fun hx => hN.area_state hq harea (hA _ hx)) fun r hr =>
    hN.area_area hq (hT hr) (fun heq => hqT (heq ▸ hr)) harea]

/-- heads are outside -/
theorem Outside.chunksize_same (h : Outside s A T mem') (hN : Nodes Y s free) (hA : ∀ x ∈ A, Y.State x) (hT : T ⊆ free)
    (hq : q ∈ free) : chunksize mem' q = chunksize s.mem q := by
  have hmin := hN.min q hq
  have haway := hN.away q hq
  rw [chunksize, head, chunksize, head, SIZE_T_SIZE, h (q + 8) (fun hx => ?_) fun r hr => ?_]
  · have := hA _ hx
    unfold Sys.State at this
    omega
  · rintro ⟨h1, h2⟩
    by_cases hqr : q = r
    · subst hqr
      omega
    · have := hN.apart q hq r (hT hr) hqr
      omega

/-- what is in the bins that are not touched stays there: a small bin has changed -/
theorem InMemory.change_small {l' : List ℕ} (h : InMemory Y s.mem b) (hb : Binned bound (chunksize s.mem) free b)
    (hN : Nodes Y s (T ∪ free)) (hi : i < 32)
    (hout : Outside s {x | smallbin_at Y i + 16 ≤ x ∧ x < smallbin_at Y i + 32} T mem')
    (hT : ∀ j < 32, j ≠ i → b.smallmap.getLsbD j = true → ∀ q ∈ b.smallbins j, q ∉ T)
    (hT' : ∀ q ∈ T, is_small (chunksize s.mem q) = true) (hmap : ∀ j < 32, j ≠ i → map.getLsbD j = b.smallmap.getLsbD j)
    (hring : map.getLsbD i = true → Path (link mem' .fd) (link mem' .bk) (smallbin_at Y i) l' (smallbin_at Y i)) :
    InMemory Y mem' { b with smallmap := map, smallbins := update b.smallbins i l' } := by
  have hA : ∀ x ∈ {x | smallbin_at Y i + 16 ≤ x ∧ x < smallbin_at Y i + 32}, Y.State x := by
    rintro x ⟨h1, h2⟩
    rw [smallbin_at_eq] at h1 h2
    unfold Sys.State STATE_SIZE
    omega
  have hsub : T ⊆ T ∪ free := Set.subset_union_left
  have hlarge : ∀ j, ∀ q ∈ (b.treebins j).toList, q ∈ T ∪ free ∧ q ∉ T ∧ 64 ≤ chunksize s.mem q := by
    intro j q hq
    obtain ⟨⟨hfree, hsmall⟩, -⟩ := hb.tree.bin j q hq
    refine ⟨.inr hfree, fun hqT => hsmall (hT' q hqT), ?_⟩
    rw [is_small_iff] at hsmall
    unfold MIN_LARGE_SIZE at hsmall
    omega
  refine ⟨fun j hj hmark => ?_, fun j hj => ?_, fun j hj => ?_, fun j hj q hq => ?_⟩
  · dsimp only at hmark ⊢
    by_cases hji : j = i
    · subst hji
      rw [update_self]
      exact hring hmark
    · rw [update_of_ne hji]
      rw [hmap j hj hji] at hmark
      have hold := h.ring j hj hmark
      have hsame : ∀ z ∈ smallbin_at Y j :: b.smallbins j, ∀ f, offset f + 8 ≤ 32 → link mem' f z = link s.mem f z := by
        intro z hz f hf
        rcases List.mem_cons.mp hz with rfl | hz
        · have := offset_lt f
          refine hout.state_same hN hsub (x := smallbin_at Y j + offset f) ?_ ?_
          · rw [smallbin_at_eq]
            unfold Sys.State STATE_SIZE
            omega
          · rw [smallbin_at_eq, smallbin_at_eq]
            rintro ⟨h1, h2⟩
            omega
        · have hz' : z ∈ T ∪ free := .inr ((hb.small.bin j hmark).2.2 z hz).1.1
          exact hout.link_same hN hA hsub hz' (hT j hj hji hmark z hz) (hf.trans (hN.min z hz'))
      refine hold.congr (fun z hz => hsame z hz _ (by decide)) fun z hz => hsame z ?_ _ (by decide)
      simpa [or_comm] using hz
  · refine (hout.state_same hN hsub (state_treebin hj) ?_).trans (h.root j hj)
    rw [smallbin_at_eq]
    unfold treebin_at
    rintro ⟨h1, h2⟩
    omega
  · refine (h.tree j hj).congr fun q hq f => ?_
    obtain ⟨h1, h2, h3⟩ := hlarge j q hq
    have := offset_lt f
    exact hout.link_same hN hA hsub h1 h2 (by omega)
  · obtain ⟨h1, h2, h3⟩ := hlarge j q hq
    rw [hout.index_same hN hA hsub h1 h2 h3]
    exact h.index j hj q hq

/-- a tree bin has changed -/
theorem InMemory.change_tree {U : Trie ℕ} (h : InMemory Y s.mem b) (hb : Binned bound (chunksize s.mem) free b)
    (hN : Nodes Y s (T ∪ free)) (hi : i < 32) (hout : Outside s {treebin_at Y i} T mem')
    (hT : ∀ j < 32, j ≠ i → ∀ q ∈ (b.treebins j).toList, q ∉ T) (hT' : ∀ q ∈ T, ¬ is_small (chunksize s.mem q) = true)
    (hroot : mem' (treebin_at Y i) = ptr U) (hlinked : Linked (link mem') (treebin_at Y i) U)
    (hindex : ∀ q ∈ U.toList, Heap.index mem' q = i) :
    InMemory Y mem' { b with treemap := map, treebins := update b.treebins i U } := by
  have hA : ∀ x ∈ ({treebin_at Y i} : Set ℕ), Y.State x := fun x hx => hx ▸ state_treebin hi
  have hsub : T ⊆ T ∪ free := Set.subset_union_left
  have hlarge : ∀ j < 32, j ≠ i → ∀ q ∈ (b.treebins j).toList, q ∈ T ∪ free ∧ q ∉ T ∧ 64 ≤ chunksize s.mem q := by
    intro j hj hji q hq
    obtain ⟨⟨hfree, hsmall⟩, -⟩ := hb.tree.bin j q hq
    refine ⟨.inr hfree, hT j hj hji q hq, ?_⟩
    rw [is_small_iff] at hsmall
    unfold MIN_LARGE_SIZE at hsmall
    omega
  refine ⟨fun j hj hmark => ?_, fun j hj => ?_, fun j hj => ?_, fun j hj q hq => ?_⟩
  · have hsame : ∀ z ∈ smallbin_at Y j :: b.smallbins j, ∀ f, offset f + 8 ≤ 32 → link mem' f z = link s.mem f z := by
      intro z hz f hf
      rcases List.mem_cons.mp hz with rfl | hz
      · have := offset_lt f
        refine hout.state_same hN hsub (x := smallbin_at Y j + offset f) ?_ ?_
        · rw [smallbin_at_eq]
          unfold Sys.State STATE_SIZE
          omega
        · rw [smallbin_at_eq, Set.mem_singleton_iff]
          unfold treebin_at
          omega
      · obtain ⟨hfree, hsmall⟩ := ((hb.small.bin j hmark).2.2 z hz).1
        exact hout.link_same hN hA hsub (.inr hfree) (fun hzT => hT' z hzT hsmall) (hf.trans (hN.min z (.inr hfree)))
    refine (h.ring j hj hmark).congr (fun z hz => hsame z hz _ (by decide)) fun z hz => hsame z ?_ _ (by decide)
    simpa [or_comm] using hz
  · dsimp only
    by_cases hji : j = i
    · subst hji
      rw [update_self, hroot]
    · rw [update_of_ne hji]
      refine (hout.state_same hN hsub (state_treebin hj) ?_).trans (h.root j hj)
      rw [Set.mem_singleton_iff]
      unfold treebin_at
      omega
  · dsimp only
    by_cases hji : j = i
    · subst hji
      rwa [update_self]
    · rw [update_of_ne hji]
      refine (h.tree j hj).congr fun q hq f => ?_
      obtain ⟨h1, h2, h3⟩ := hlarge j hj hji q hq
      have := offset_lt f
      exact hout.link_same hN hA hsub h1 h2 (by omega)
  · dsimp only at hq
    by_cases hji : j = i
    · subst hji
      rw [update_self] at hq
      exact hindex q hq
    · rw [update_of_ne hji] at hq
      obtain ⟨h1, h2, h3⟩ := hlarge j hj hji q hq
      rw [hout.index_same hN hA hsub h1 h2 h3]
      exact h.index j hj q hq

/-! ### Small bins -/

/-- a header or a chunk -/
def RingNode (Y : Sys) (free : Set ℕ) (z : ℕ) : Prop := (∃ i < 32, z = smallbin_at Y i) ∨ z ∈ free

theorem ring_apart (hN : Nodes Y s free) (hp : RingNode Y free p) (hq : RingNode Y free q) (hne : p ≠ q) :
    p + 16 ≤ q ∨ q + 16 ≤ p := by
  have haway : ∀ r ∈ free, ∀ k < 32, smallbin_at Y k + 16 ≤ r ∨ r + 16 ≤ smallbin_at Y k := by
    intro r hr k hk
    have h1 := hN.away r hr
    have h2 := hN.min r hr
    rw [smallbin_at_eq]
    unfold STATE_SIZE at h1
    omega
  rcases hp with ⟨i, hi, rfl⟩ | hp <;> rcases hq with ⟨j, hj, rfl⟩ | hq
  · rw [smallbin_at_eq, smallbin_at_eq] at *
    omega
  · exact haway q hq i hi
  · exact (haway p hp j hj).symm
  · have h1 := hN.apart p hp q hq hne
    have h2 := hN.min p hp
    have h3 := hN.min q hq
    omega

theorem link_set_ring (hN : Nodes Y s free) (hp : RingNode Y free p) (hq : RingNode Y free q) (hf : f = .fd ∨ f = .bk)
    (hg : g = .fd ∨ g = .bk) : link (set_link mem f p v) g q = if q = p ∧ g = f then v else link mem g q := by
  by_cases hqp : q = p
  · subst hqp
    by_cases hgf : g = f
    · rw [if_pos ⟨rfl, hgf⟩, hgf, link_set_link_self]
    · rw [if_neg fun h => hgf h.2, link_set_link_of_ne fun h => hgf (offset_inj (Nat.add_left_cancel h))]
  · have hapart := ring_apart hN hp hq (Ne.symm hqp)
    have hoff : ∀ f : Field, f = .fd ∨ f = .bk → offset f = 16 ∨ offset f = 24 := by
      rintro f (rfl | rfl)
      · exact .inl rfl
      · exact .inr rfl
    have h1 := hoff f hf
    have h2 := hoff g hg
    rw [if_neg fun h => hqp h.1, link_set_link_of_ne (by omega)]

section
variable {B F P S I : ℕ}

theorem linkBetween_fd (hN : Nodes Y s free) (hB : RingNode Y free B) (hF : RingNode Y free F) (hP : RingNode Y free P)
    (hq : RingNode Y free q) :
    link (linkBetween s B F P).mem .fd q = if q = P then F else if q = B then P else link s.mem .fd q := by
  unfold linkBetween
  dsimp only
  rw [link_set_ring hN hP hq (.inr rfl) (.inl rfl), link_set_ring hN hP hq (.inl rfl) (.inl rfl),
    link_set_ring hN hF hq (.inr rfl) (.inl rfl), link_set_ring hN hB hq (.inl rfl) (.inl rfl)]
  simp

theorem linkBetween_bk (hN : Nodes Y s free) (hB : RingNode Y free B) (hF : RingNode Y free F) (hP : RingNode Y free P)
    (hq : RingNode Y free q) :
    link (linkBetween s B F P).mem .bk q = if q = P then B else if q = F then P else link s.mem .bk q := by
  unfold linkBetween
  dsimp only
  rw [link_set_ring hN hP hq (.inr rfl) (.inr rfl), link_set_ring hN hP hq (.inl rfl) (.inr rfl),
    link_set_ring hN hF hq (.inr rfl) (.inr rfl), link_set_ring hN hB hq (.inl rfl) (.inr rfl)]
  simp

theorem linkPast_fd (hN : Nodes Y s free) (hB : RingNode Y free B) (hF : RingNode Y free F) (hq : RingNode Y free q) :
    link (linkPast s B F).mem .fd q = if q = B then F else link s.mem .fd q := by
  unfold linkPast
  dsimp only
  rw [link_set_ring hN hB hq (.inl rfl) (.inl rfl), link_set_ring hN hF hq (.inr rfl) (.inl rfl)]
  simp

theorem linkPast_bk (hN : Nodes Y s free) (hB : RingNode Y free B) (hF : RingNode Y free F) (hq : RingNode Y free q) :
    link (linkPast s B F).mem .bk q = if q = F then B else link s.mem .bk q := by
  unfold linkPast
  dsimp only
  rw [link_set_ring hN hB hq (.inl rfl) (.inr rfl), link_set_ring hN hF hq (.inr rfl) (.inr rfl)]
  simp

/-- the words of a header -/
def headerWords (Y : Sys) (I : ℕ) : Set ℕ := {x | smallbin_at Y I + 16 ≤ x ∧ x < smallbin_at Y I + 32}

/-- the chunks of a set that belong into a small bin -/
def smallSet (size : ℕ → ℕ) (free : Set ℕ) (I : ℕ) : Set ℕ :=
  {q ∈ free | is_small (size q) = true ∧ small_index (size q) = I}

/-- a node of the ring of a bin -/
def InRing (Y : Sys) (s : MState) (free : Set ℕ) (I z : ℕ) : Prop :=
  z = smallbin_at Y I ∨ z ∈ smallSet (chunksize s.mem) free I

theorem InRing.ringNode (h : InRing Y s free I q) (hI : I < 32) : RingNode Y free q :=
  h.imp (fun h => ⟨I, hI, h⟩) fun h => h.1

theorem InRing.outside {z : ℕ} (h : InRing Y s free I z) (hN : Nodes Y s free) (hf : f = .fd ∨ f = .bk)
    (hx : x ∉ headerWords Y I) (hx' : ∀ q ∈ smallSet (chunksize s.mem) free I, ¬ Area (chunksize s.mem) q x) :
    x ≠ z + offset f := by
  have hoff : offset f = 16 ∨ offset f = 24 := by
    rcases hf with rfl | rfl
    · exact .inl rfl
    · exact .inr rfl
  rintro rfl
  rcases h with rfl | h
  · exact hx ⟨by omega, by omega⟩
  · have := hN.min z h.1
    exact hx' z h ⟨by omega, by omega⟩

theorem linkBetween_outside (hN : Nodes Y s free) (hB : InRing Y s free I B) (hF : InRing Y s free I F)
    (hP : InRing Y s free I P) :
    Outside s (headerWords Y I) (smallSet (chunksize s.mem) free I) (linkBetween s B F P).mem := by
  intro x hx hx'
  unfold linkBetween
  dsimp only
  rw [set_link_of_ne (hP.outside hN (.inr rfl) hx hx'), set_link_of_ne (hP.outside hN (.inl rfl) hx hx'),
    set_link_of_ne (hF.outside hN (.inr rfl) hx hx'), set_link_of_ne (hB.outside hN (.inl rfl) hx hx')]

theorem linkPast_outside (hN : Nodes Y s free) (hB : InRing Y s free I B) (hF : InRing Y s free I F) :
    Outside s (headerWords Y I) (smallSet (chunksize s.mem) free I) (linkPast s B F).mem := by
  intro x hx hx'
  unfold linkPast
  dsimp only
  rw [set_link_of_ne (hB.outside hN (.inl rfl) hx hx'), set_link_of_ne (hF.outside hN (.inr rfl) hx hx')]

/-- the chunks of a bin -/
theorem Binned.inRing (h : Binned bound (chunksize s.mem) free b) (hmark : b.smallmap.getLsbD I = true)
    (hq : q ∈ b.smallbins I) : q ∈ smallSet (chunksize s.mem) free I := by
  obtain ⟨hfree, hsize⟩ := (h.small.bin I hmark).2.2 q hq
  exact ⟨hfree.1, hfree.2, by rw [hsize, small_index_size]⟩

/-- the ring of a bin -/
theorem InMemory.path (h : InMemory Y s.mem b) (hb : Binned bound (chunksize s.mem) free b) (hN : Nodes Y s free)
    (hI : I < 32) (hmark : b.smallmap.getLsbD I = true) :
    Path (link s.mem .fd) (link s.mem .bk) (smallbin_at Y I) (b.smallbins I) (smallbin_at Y I) ∧
      (smallbin_at Y I :: b.smallbins I).Nodup ∧ ∀ z ∈ smallbin_at Y I :: b.smallbins I, InRing Y s free I z := by
  refine ⟨h.ring I hI hmark, List.nodup_cons.mpr ⟨fun hmem => ?_, (hb.small.bin I hmark).2.1⟩, fun z hz => ?_⟩
  · have haway := hN.away _ (hb.inRing hmark hmem).1
    have hmin := hN.min _ (hb.inRing hmark hmem).1
    rw [smallbin_at_eq] at haway hmin
    unfold STATE_SIZE at haway
    omega
  · exact (List.mem_cons.mp hz).imp_right fun hz => hb.inRing hmark hz

/-- a ring has changed -/
theorem InMemory.change_ring {G : Set ℕ} {l' : List ℕ} (h : InMemory Y s.mem b)
    (hb : Binned bound (chunksize s.mem) free b) (hN : Nodes Y s G) (hsub : free ⊆ G) (hI : I < 32)
    (hout : Outside s (headerWords Y I) (smallSet (chunksize s.mem) G I) mem')
    (hmap : ∀ j < 32, j ≠ I → map.getLsbD j = b.smallmap.getLsbD j)
    (hring : map.getLsbD I = true → Path (link mem' .fd) (link mem' .bk) (smallbin_at Y I) l' (smallbin_at Y I)) :
    InMemory Y mem' { b with smallmap := map, smallbins := update b.smallbins I l' } := by
  refine h.change_small hb (hN.mono ?_) hI hout (fun j _ hjI hmark q hq hmem => hjI ?_) (fun q hq => hq.2.1) hmap hring
  · exact Set.union_subset (fun q hq => hq.1) hsub
  · rw [← (hb.inRing hmark hq).2.2, hmem.2.2]

/-- a chunk enters a small bin -/
theorem InMemory.insert_small (h : InMemory Y s.mem b) (hmap : b.smallmap = s.smallmap)
    (hb : Binned bound (chunksize s.mem) free b) (hN : Nodes Y s (insert P free)) (hP : P ∉ free)
    (hS : chunksize s.mem P = S) (hsmall : is_small S = true) :
    ∃ mem', insert_small_chunk Y s P S = .ok { s with mem := mem', smallmap := setBit s.smallmap (small_index S) } ∧
      Outside s (headerWords Y (small_index S)) (smallSet (chunksize s.mem) (insert P free) (small_index S)) mem' ∧
      InMemory Y mem' { b with smallmap := setBit b.smallmap (small_index S),
                               smallbins := update b.smallbins (small_index S)
                                 (if b.smallmap.getLsbD (small_index S) = false then [P]
                                  else P :: b.smallbins (small_index S)) } := by
  have hI := small_index_lt hsmall
  have hsub : free ⊆ insert P free := Set.subset_insert ..
  have hset : ∀ j < 32, j ≠ small_index S →
      (setBit b.smallmap (small_index S)).getLsbD j = b.smallmap.getLsbD j := by
    intro j _ hj
    rw [getLsbD_setBit]
    simp [hj]
  have hPring : InRing Y s (insert P free) (small_index S) P :=
    .inr ⟨Set.mem_insert .., hS.symm ▸ hsmall, by rw [hS]⟩
  have hBring : InRing Y s (insert P free) (small_index S) (smallbin_at Y (small_index S)) := .inl rfl
  have hPB : P ≠ smallbin_at Y (small_index S) := by
    intro heq
    have haway := hN.away P (Set.mem_insert ..)
    have hmin := hN.min P (Set.mem_insert ..)
    rw [smallbin_at_eq] at heq
    unfold STATE_SIZE at haway
    omega
  generalize hIe : small_index S = I at hI hset hPring hBring hPB ⊢
  generalize hBe : smallbin_at Y I = B at hPB hBring
  unfold insert_small_chunk
  simp only [hIe, hBe, ← hmap]
  have hPnode := hPring.ringNode hI
  have hBnode := hBring.ringNode hI
  by_cases hmark : b.smallmap.getLsbD I = false
  · rw [if_pos hmark, if_pos hmark]
    refine ⟨(linkBetween s B B P).mem, rfl, linkBetween_outside hN hBring hBring hPring,
      h.change_ring hb hN hsub hI (linkBetween_outside hN hBring hBring hPring) hset fun _ => ?_⟩
    rw [hBe]
    refine ⟨⟨?_, ?_⟩, ?_, ?_⟩
    · rw [linkBetween_fd hN hBnode hBnode hPnode hBnode, if_neg (Ne.symm hPB), if_pos rfl]
    · rw [linkBetween_bk hN hBnode hBnode hPnode hPnode, if_pos rfl]
    · rw [linkBetween_fd hN hBnode hBnode hPnode hPnode, if_pos rfl]
    · rw [linkBetween_bk hN hBnode hBnode hPnode hBnode, if_neg (Ne.symm hPB), if_pos rfl]
  · rw [if_neg hmark, if_neg hmark]
    have hmark' := Bool.of_not_eq_false hmark
    obtain ⟨hpath, hnodup, hin⟩ := h.path hb (hN.mono hsub) hI hmark'
    rw [hBe] at hpath hnodup hin
    have hin' : ∀ z ∈ B :: b.smallbins I, InRing Y s (insert P free) I z := fun z hz =>
      (hin z hz).imp_right fun hz => ⟨hsub hz.1, hz.2⟩
    -- the first chunk
    obtain ⟨hne, -⟩ := hb.small.bin I hmark'
    have hFmem : link s.mem .fd B ∈ b.smallbins I := by
      rw [hpath.fd_eq]
      obtain ⟨F, ps, hps⟩ := List.exists_cons_of_ne_nil hne
      simp [hps]
    have hFfree := (hb.inRing hmark' hFmem).1
    have hok : ok_address s (link s.mem .fd B) = true := decide_eq_true (hN.inside _ (hsub hFfree)).1
    have hPnot : ∀ z ∈ B :: b.smallbins I, z ≠ P := by
      rintro z hz rfl
      rcases List.mem_cons.mp hz with heq | hz
      · exact hPB heq
      · exact hP (hb.inRing hmark' hz).1
    rw [if_pos hok]
    generalize hFe : link s.mem .fd B = F at hFmem hFfree
    have hFin : F ∈ B :: b.smallbins I := List.mem_cons_of_mem _ hFmem
    have hFring := hin' F hFin
    have hFnode := hFring.ringNode hI
    have hnode : ∀ z ∈ B :: b.smallbins I, RingNode Y (insert P free) z := fun z hz => (hin' z hz).ringNode hI
    refine ⟨(linkBetween s B F P).mem, ?_, linkBetween_outside hN hBring hFring hPring,
      h.change_ring hb hN hsub hI (linkBetween_outside hN hBring hFring hPring) hset fun _ => ?_⟩
    · rw [setBit_of_set hmark', hmap]
      rfl
    rw [hBe]
    refine hpath.insert hnodup ?_ ?_ ?_ ?_ (fun z hz => ?_) fun z hz hzF => ?_
    · rw [linkBetween_fd hN hBnode hFnode hPnode hBnode, if_neg (Ne.symm hPB), if_pos rfl]
    · rw [linkBetween_fd hN hBnode hFnode hPnode hPnode, if_pos rfl, hFe]
    · rw [hFe, linkBetween_bk hN hBnode hFnode hPnode hFnode, if_neg (hPnot F hFin), if_pos rfl]
    · rw [linkBetween_bk hN hBnode hFnode hPnode hPnode, if_pos rfl]
    · have hz' : z ∈ B :: b.smallbins I := List.mem_cons_of_mem _ hz
      have hzB : z ≠ B := fun heq => (List.nodup_cons.mp hnodup).1 (heq ▸ hz)
      rw [linkBetween_fd hN hBnode hFnode hPnode (hnode z hz'), if_neg (hPnot z hz'), if_neg hzB]
    · rw [hFe] at hzF
      rw [linkBetween_bk hN hBnode hFnode hPnode (hnode z hz), if_neg (hPnot z hz), if_neg hzF]

/-- a chunk leaves a ring that has another one -/
theorem InMemory.past (h : InMemory Y s.mem b) (hb : Binned bound (chunksize s.mem) free b) (hN : Nodes Y s free)
    (hI : I < 32) (hmark : b.smallmap.getLsbD I = true) (hP : P ∈ b.smallbins I) :
    Outside s (headerWords Y I) (smallSet (chunksize s.mem) free I) (linkPast s (link s.mem .bk P) (link s.mem .fd P)).mem ∧
      InMemory Y (linkPast s (link s.mem .bk P) (link s.mem .fd P)).mem
        { b with smallbins := update b.smallbins I ((b.smallbins I).erase P) } := by
  obtain ⟨hpath, hnodup, hin⟩ := h.path hb hN hI hmark
  obtain ⟨hF, hB, -, -⟩ := hpath.ring_mem hP
  have hFring := hin _ (List.mem_cons.mpr hF)
  have hBring := hin _ (List.mem_cons.mpr hB)
  have hout := linkPast_outside hN hBring hFring
  refine ⟨hout, h.change_ring hb hN (le_refl free) hI hout (fun _ _ _ => rfl) fun _ => ?_⟩
  have hFnode := hFring.ringNode hI
  have hBnode := hBring.ringNode hI
  refine hpath.remove hnodup hP ?_ ?_ (fun z hz hzB _ => ?_) fun z hz hzF _ => ?_
  · rw [linkPast_fd hN hBnode hFnode hBnode, if_pos rfl]
  · rw [linkPast_bk hN hBnode hFnode hFnode, if_pos rfl]
  · rw [linkPast_fd hN hBnode hFnode ((hin z hz).ringNode hI), if_neg hzB]
  · rw [linkPast_bk hN hBnode hFnode ((hin z hz).ringNode hI), if_neg hzF]

/-- the last chunk leaves a small bin -/
theorem InMemory.clear (h : InMemory Y s.mem b) : InMemory Y s.mem { b with smallmap := clearBit b.smallmap I } := by
  refine ⟨fun j hj hmark => h.ring j hj ?_, h.root, h.tree, h.index⟩
  rw [getLsbD_clearBit, Bool.and_eq_true] at hmark
  exact hmark.1

/-- a chunk leaves a small bin -/
theorem InMemory.unlink_small (h : InMemory Y s.mem b)
    (hb : Binned bound (chunksize s.mem) free b) (hN : Nodes Y s free) (hP : P ∈ free) (hS : chunksize s.mem P = S)
    (hsmall : is_small S = true) :
    ∃ mem', unlink_small_chunk Y s P S =
        .ok { s with mem := mem',
                     smallmap := if b.smallbins (small_index S) = [P] then clearBit s.smallmap (small_index S)
                       else s.smallmap } ∧
      Outside s (headerWords Y (small_index S)) (smallSet (chunksize s.mem) free (small_index S)) mem' ∧
      InMemory Y mem' { b with smallmap := if b.smallbins (small_index S) = [P] then clearBit b.smallmap (small_index S)
                                 else b.smallmap,
                               smallbins := if b.smallbins (small_index S) = [P] then b.smallbins
                                 else update b.smallbins (small_index S) ((b.smallbins (small_index S)).erase P) } := by
  have hI := small_index_lt hsmall
  obtain ⟨hmark, hmem⟩ := hb.small.all P ⟨hP, by rwa [hS]⟩
  rw [hS] at hmark hmem
  obtain ⟨hpath, hnodup, hin⟩ := h.path hb hN hI hmark
  obtain ⟨hF, hB, hFP, hBP⟩ := hpath.ring_mem hmem
  have hok : ∀ z, z = smallbin_at Y (small_index S) ∨ z ∈ b.smallbins (small_index S) →
      z = smallbin_at Y (small_index S) ∨ ok_address s z = true := by
    intro z hz
    exact hz.imp_right fun hz => decide_eq_true (hN.inside z (hb.inRing hmark hz).1).1
  have hone := hpath.fd_eq_bk_iff hnodup hmem
  unfold unlink_small_chunk
  simp only
  rw [if_pos ((hok _ hF).imp_right fun hz => ⟨hz, hFP⟩)]
  by_cases hlast : b.smallbins (small_index S) = [P]
  · rw [if_pos (hone.mpr hlast).symm]
    simp only [if_pos hlast]
    exact ⟨s.mem, rfl, fun _ _ _ => rfl, h.clear⟩
  · rw [if_neg fun heq => hlast (hone.mp heq.symm), if_pos ((hok _ hB).imp_right fun hz => ⟨hz, hBP⟩)]
    simp only [if_neg hlast]
    obtain ⟨hout, hnew⟩ := h.past hb hN hI hmark hmem
    exact ⟨_, rfl, hout, hnew⟩

/-- the first chunk leaves a small bin -/
theorem InMemory.unlink_first (h : InMemory Y s.mem b)
    (hb : Binned bound (chunksize s.mem) free b) (hN : Nodes Y s free) (hmark : b.smallmap.getLsbD I = true) :
    ∃ P mem', link s.mem .fd (smallbin_at Y I) = P ∧ P ∈ free ∧ is_small (chunksize s.mem P) = true ∧
      chunksize s.mem P = small_index2size I ∧
      unlink_first_small_chunk s (smallbin_at Y I) P I =
        .ok { s with mem := mem',
                     smallmap := if b.smallbins I = [P] then clearBit s.smallmap I else s.smallmap } ∧
      Outside s (headerWords Y I) (smallSet (chunksize s.mem) free I) mem' ∧
      InMemory Y mem' { b with smallmap := if b.smallbins I = [P] then clearBit b.smallmap I else b.smallmap,
                               smallbins := if b.smallbins I = [P] then b.smallbins
                                 else update b.smallbins I ((b.smallbins I).erase P) } := by
  have hI : I < 32 := BitVec.lt_of_getLsbD hmark
  obtain ⟨hne, -, hbin⟩ := hb.small.bin I hmark
  obtain ⟨hpath, hnodup, hin⟩ := h.path hb hN hI hmark
  obtain ⟨P, ps, hps⟩ := List.exists_cons_of_ne_nil hne
  have hmem : P ∈ b.smallbins I := by simp [hps]
  have hfirst : link s.mem .fd (smallbin_at Y I) = P := by
    rw [hpath.fd_eq, hps]
    rfl
  obtain ⟨⟨hPfree, hPsmall⟩, hPsize⟩ := hbin P hmem
  obtain ⟨hF, -, hFP, -⟩ := hpath.ring_mem hmem
  have hone := hpath.fd_eq_bk_iff hnodup hmem
  have hbk : link s.mem .bk P = smallbin_at Y I := by
    rw [hps] at hpath
    exact hpath.1.2
  rw [hbk] at hone
  refine ⟨P, ?_⟩
  unfold unlink_first_small_chunk
  simp only
  by_cases hlast : b.smallbins I = [P]
  · simp only [if_pos (hone.mpr hlast).symm, if_pos hlast]
    exact ⟨s.mem, hfirst, hPfree, hPsmall, hPsize, rfl, fun _ _ _ => rfl, h.clear⟩
  · have hFne : smallbin_at Y I ≠ link s.mem .fd P := fun heq => hlast (hone.mp heq.symm)
    have hFok : ok_address s (link s.mem .fd P) = true := by
      rcases hF with hF | hF
      · exact absurd hF.symm hFne
      · exact decide_eq_true (hN.inside _ (hb.inRing hmark hF).1).1
    simp only [if_neg hFne, if_neg hlast, hFok, hFP, and_self, if_true]
    obtain ⟨hout, hnew⟩ := h.past hb hN hI hmark hmem
    rw [hbk] at hout hnew
    exact ⟨_, hfirst, hPfree, hPsmall, hPsize, rfl, hout, hnew⟩

end

/-! ### Tree bins -/

section
variable {N : Set ℕ} {L L' : Links ℕ} {X S R F t I : ℕ} {K : BitVec 64} {c : Ctx ℕ} {U l r l' r' : Trie ℕ}
  {chain ch : List ℕ}

/-- chunks with room for all links -/
def Spaced (N : Set ℕ) : Prop := ∀ p ∈ N, ∀ q ∈ N, p ≠ q → p + 64 ≤ q ∨ q + 64 ≤ p

/-- the links of the chunks of a set -/
def Agree (N : Set ℕ) (L L' : Links ℕ) : Prop := ∀ y ∈ N, ∀ f, L' f y = L f y

/-- all that has changed are links of the chunks of a set -/
def Within (N : Set ℕ) (mem mem' : Mem) : Prop := ∀ x, (∀ q ∈ N, ¬ (q + 16 ≤ x ∧ x < q + 56)) → mem' x = mem x

theorem Agree.refl (N : Set ℕ) (L : Links ℕ) : Agree N L L := fun _ _ _ => rfl

theorem Agree.trans {L'' : Links ℕ} (h : Agree N L L') (h' : Agree N L' L'') : Agree N L L'' :=
  fun y hy f => (h' y hy f).trans (h y hy f)

theorem Within.refl (N : Set ℕ) (mem : Mem) : Within N mem mem := fun _ _ => rfl

theorem Within.trans {mem'' : Mem} (h : Within N mem mem') (h' : Within N mem' mem'') : Within N mem mem'' :=
  fun x hx => (h' x hx).trans (h x hx)

theorem within_set_link (mem : Mem) (f : Field) (v : ℕ) (hp : p ∈ N) : Within N mem (set_link mem f p v) := by
  intro x hx
  have hf := offset_lt f
  refine set_link_of_ne ?_
  rintro rfl
  exact hx p hp ⟨by omega, by omega⟩

theorem Within.index (h : Within N mem mem') (hN : Spaced N) (hq : q ∈ N) : index mem' q = index mem q := by
  rw [Heap.index, Heap.index, h]
  rintro r hr ⟨h1, h2⟩
  by_cases hqr : q = r
  · omega
  · have := hN q hq r hr hqr
    omega

/-- a link that is set in memory -/
theorem Agree.set_link (h : Agree N L (link mem)) (hN : Spaced N) (hp : p ∈ N) (f : Field) (v : ℕ) :
    Agree N (set L f p v) (link (set_link mem f p v)) := by
  intro q hq g
  have hf := offset_lt f
  have hg := offset_lt g
  by_cases hqp : q = p
  · subst hqp
    by_cases hgf : g = f
    · rw [hgf, link_set_link_self, set_self]
    · rw [link_set_link_of_ne fun heq => hgf (offset_inj (Nat.add_left_cancel heq)), set_of_field hgf]
      exact h q hq g
  · have hapart := hN q hq p hp hqp
    rw [link_set_link_of_ne (by omega), set_of_node hqp]
    exact h q hq g

theorem linked_agree {p : ℕ} (h : Linked L p U) (hagree : Agree N L L') (hsub : ∀ y ∈ U.toList, y ∈ N) : Linked L' p U :=
  h.congr fun y hy f => hagree y (hsub y hy) f

theorem agree_linkSelf (h : Agree N L (link mem)) (hN : Spaced N) (hX : X ∈ N) :
    Agree N (set (set L .bk X X) .fd X X) (link (linkSelf mem X)) :=
  (h.set_link hN hX .bk X).set_link hN hX .fd X

theorem within_linkSelf (mem : Mem) (hX : X ∈ N) : Within N mem (linkSelf mem X) :=
  (within_set_link mem .bk X hX).trans (within_set_link _ .fd X hX)

/-! #### Insertion -/

/-- the chunk becomes a child of t -/
theorem hang_spec {p : ℕ} {b : Bool} {W : Trie ℕ} (hN : Spaced N)
    (hsub : ∀ y ∈ (plug (c ++ [⟨b, t, chain, W⟩]) .nil).toList, y ∈ N)
    (hL : Linked (link s.mem) p (plug (c ++ [⟨b, t, chain, W⟩]) .nil))
    (hnodup : (plug (c ++ [⟨b, t, chain, W⟩]) .nil).toList.Nodup) (htN : t ∈ N) (hXN : X ∈ N)
    (hX : X ∉ (plug (c ++ [⟨b, t, chain, W⟩]) .nil).toList) (hchild : ∀ b, link s.mem (.child b) X = 0) :
    Within N s.mem (linkSelf (set_link (set_link s.mem (.child b) t X) .parent X t) X) ∧
      Linked (link (linkSelf (set_link (set_link s.mem (.child b) t X) .parent X t) X)) p
        (plug (c ++ [⟨b, t, chain, W⟩]) (.node X [] .nil .nil)) := by
  refine ⟨((within_set_link _ _ _ htN).trans (within_set_link _ _ _ hXN)).trans (within_linkSelf _ hXN), ?_⟩
  have hagree := agree_linkSelf (((Agree.refl N (link s.mem)).set_link hN htN (.child b) X).set_link hN hXN .parent t)
    hN hXN
  refine linked_agree (hL.hang hnodup hX hchild) hagree fun y hy => ?_
  rw [mem_plug] at hy
  rcases hy with hy | hy
  · exact hsub y (mem_plug.mpr (.inl hy))
  · simp only [Trie.toList, List.append_nil, List.mem_singleton] at hy
    exact hy ▸ hXN

/-- the chunk enters the ring of t, behind t -/
theorem chain_spec {p : ℕ} (hN : Spaced N) (hsub : ∀ y ∈ (plug c (.node t chain l r)).toList, y ∈ N)
    (hL : Linked (link s.mem) p (plug c (.node t chain l r))) (hnodup : (plug c (.node t chain l r)).toList.Nodup)
    (hXN : X ∈ N) (hX : X ∉ (plug c (.node t chain l r)).toList) (hchild : ∀ b, link s.mem (.child b) X = 0) :
    link s.mem .fd t ∈ N ∧
    Within N s.mem (set_link (set_link (set_link (set_link (set_link s.mem .bk (link s.mem .fd t) X) .fd t X)
      .fd X (link s.mem .fd t)) .bk X t) .parent X 0) ∧
      Linked (link (set_link (set_link (set_link (set_link (set_link s.mem .bk (link s.mem .fd t) X) .fd t X)
        .fd X (link s.mem .fd t)) .bk X t) .parent X 0)) p (plug c (.node t (X :: chain) l r)) := by
  have htN : t ∈ N := hsub t (mem_plug.mpr (.inr List.mem_cons_self))
  obtain ⟨-, ⟨⟨-, -, -, hring⟩, -, -⟩⟩ := linked_plug.mp hL
  generalize hF : link s.mem .fd t = F
  have hFN : F ∈ N := by
    have hmem := headD_mem t chain
    rw [← hring.path.fd_eq, hF] at hmem
    refine hsub F (mem_plug.mpr (.inr ?_))
    simp only [Trie.toList, List.mem_cons, List.mem_append, List.not_mem_nil, or_false] at hmem ⊢
    tauto
  refine ⟨hFN, ?_, ?_⟩
  · exact ((((within_set_link _ _ _ hFN).trans (within_set_link _ _ _ htN)).trans (within_set_link _ _ _ hXN)).trans
      (within_set_link _ _ _ hXN)).trans (within_set_link _ _ _ hXN)
  · have hagree := (((((Agree.refl N (link s.mem)).set_link hN hFN .bk X).set_link hN htN .fd X).set_link hN hXN
      .fd F).set_link hN hXN .bk t).set_link hN hXN .parent 0
    refine linked_agree (hL.chain_insert hnodup hX hchild hF) hagree fun y hy => ?_
    by_cases hyX : y = X
    · exact hyX ▸ hXN
    · refine hsub y ?_
      rw [mem_plug] at hy ⊢
      refine hy.imp_right fun hy => ?_
      simp only [Trie.toList, List.mem_cons, List.mem_append] at hy ⊢
      tauto

/-- the loop finds the place, and links the chunk to it -/
theorem insertLoop_spec {p fuel : ℕ} (hN : Spaced N) (hsub : ∀ y ∈ (plug c U).toList, y ∈ N)
    (hleast : ∀ y ∈ N, s.least_addr ≤ y) (hL : Linked (link s.mem) p (plug c U)) (hnodup : (plug c U).toList.Nodup)
    (h0 : 0 ∉ U.toList) (hXN : X ∈ N) (hX : X ∉ (plug c U).toList) (hchild : ∀ b, link s.mem (.child b) X = 0)
    (hne : U ≠ .nil) (hfuel : U.toList.length ≤ fuel) :
    ∃ mem', insertLoop s X S fuel (ptr U) K = .ok { s with mem := mem' } ∧ Within N s.mem mem' ∧
      Linked (link mem') p (plug c (insertTree (chunksize s.mem) X S K U)) := by
  induction U generalizing c K fuel with
  | nil => exact absurd rfl hne
  | node t chain l r ihl ihr =>
    obtain ⟨n, rfl⟩ : ∃ n, fuel = n + 1 := by
      simp only [Trie.toList, List.length_cons] at hfuel
      exact Nat.exists_eq_succ_of_ne_zero (by omega)
    have htN : t ∈ N := hsub t (mem_plug.mpr (.inr List.mem_cons_self))
    obtain ⟨-, ⟨⟨-, hl, hr, -⟩, -, -⟩⟩ := linked_plug.mp hL
    rw [ptr, insertLoop, insertTree]
    by_cases hsize : chunksize s.mem t ≠ S
    · rw [if_pos hsize, if_pos hsize]
      -- the child that the digit says, and what is beside it
      have hstep : ∀ (b : Bool) (V W : Trie ℕ), link s.mem (.child b) t = ptr V →
          (⟨b, t, chain, W⟩ : Frame ℕ).fill V = .node t chain l r → 0 ∉ V.toList → V.toList.length ≤ n →
          (∀ {c : Ctx ℕ} {K : BitVec 64} {fuel : ℕ}, (∀ y ∈ (plug c V).toList, y ∈ N) →
            Linked (link s.mem) p (plug c V) → (plug c V).toList.Nodup → 0 ∉ V.toList → X ∉ (plug c V).toList → V ≠ .nil →
            V.toList.length ≤ fuel → ∃ mem', insertLoop s X S fuel (ptr V) K = .ok { s with mem := mem' } ∧
              Within N s.mem mem' ∧ Linked (link mem') p (plug c (insertTree (chunksize s.mem) X S K V))) →
          ∃ mem', (if link s.mem (.child b) t ≠ 0 then insertLoop s X S n (link s.mem (.child b) t) (K <<< 1)
              else if ok_address s (t + offset (.child b)) = true then
                .ok { s with mem := linkSelf (Heap.set_link (Heap.set_link s.mem (.child b) t X) .parent X t) X }
              else .error .corruption) = .ok { s with mem := mem' } ∧ Within N s.mem mem' ∧
            Linked (link mem') p
              (plug c ((⟨b, t, chain, W⟩ : Frame ℕ).fill (insertTree (chunksize s.mem) X S (K <<< 1) V))) := by
        intro b V W hptr hfill h0V hlen ih
        have hplug : ∀ V', plug (c ++ [⟨b, t, chain, W⟩]) V' = plug c ((⟨b, t, chain, W⟩ : Frame ℕ).fill V') :=
          fun V' => plug_append
        have hwhole : plug (c ++ [⟨b, t, chain, W⟩]) V = plug c (.node t chain l r) := by rw [hplug, hfill]
        rw [← hwhole] at hL hnodup hX hsub
        rw [hptr, ← hplug]
        by_cases hnil : V = .nil
        · subst hnil
          have hok : ok_address s (t + offset (.child b)) = true :=
            decide_eq_true ((hleast t htN).trans (Nat.le_add_right ..))
          rw [if_neg (by simp [ptr]), if_pos hok, insertTree]
          exact ⟨_, rfl, hang_spec hN hsub hL hnodup htN hXN hX hchild⟩
        · have hne0 : ptr V ≠ 0 := fun heq => hnil ((ptr_eq_zero h0V).mp heq)
          rw [if_pos hne0]
          exact ih hsub hL hnodup h0V hX hnil hlen
      simp only [Trie.toList, List.mem_cons, List.mem_append, not_or, List.length_cons, List.length_append] at h0 hfuel
      by_cases hmsb : K.msb = true
      · rw [if_pos hmsb, hmsb]
        exact hstep true r l hr rfl h0.2.2.2 (by omega) fun h1 h2 h3 h4 h5 h6 h7 => ihr h1 h2 h3 h4 h5 h6 h7
      · rw [if_neg hmsb, Bool.of_not_eq_true hmsb]
        exact hstep false l r hl rfl h0.2.2.1 (by omega) fun h1 h2 h3 h4 h5 h6 h7 => ihl h1 h2 h3 h4 h5 h6 h7
    · rw [if_neg hsize, if_neg hsize]
      obtain ⟨hFN, hspec⟩ := chain_spec hN hsub hL hnodup hXN hX hchild
      have hok : ok_address s t = true ∧ ok_address s (link s.mem .fd t) = true :=
        ⟨decide_eq_true (hleast t htN), decide_eq_true (hleast _ hFN)⟩
      simp only [if_pos hok]
      exact ⟨_, rfl, hspec⟩

/-- only the sizes in the trie matter -/
theorem insertTree_congr {size' : ℕ → ℕ} (heq : ∀ q ∈ U.toList, size' q = size q) :
    insertTree size' X S K U = insertTree size X S K U := by
  induction U generalizing K with
  | nil => rfl
  | node t chain l r ihl ihr =>
    simp only [Trie.toList, List.mem_cons, List.mem_append] at heq
    have hl := ihl (K := K <<< 1) fun q hq => heq q (.inr (.inr (.inl hq)))
    have hr := ihr (K := K <<< 1) fun q hq => heq q (.inr (.inr (.inr hq)))
    rw [insertTree, insertTree, heq t (.inl rfl), hl, hr]

/-- the root stays where there is one -/
theorem ptr_insertTree (hne : U ≠ .nil) : ptr (insertTree size X S K U) = ptr U := by
  cases U with
  | nil => exact absurd rfl hne
  | node t chain l r =>
    rw [insertTree]
    split_ifs <;> rfl

/-- the chunks of a set that belong into a tree bin -/
def largeSet (size : ℕ → ℕ) (free : Set ℕ) (I : ℕ) : Set ℕ :=
  {q ∈ free | ¬ is_small (size q) = true ∧ treeIndex (size q) = I}

theorem le_of_large (hq : q ∈ largeSet size free I) : 256 ≤ size q := by
  have := hq.2.1
  rw [is_small_iff] at this
  exact not_lt.mp this

theorem Nodes.spaced (h : Nodes Y s free) : Spaced (largeSet (chunksize s.mem) free I) := by
  intro p hp q hq hne
  have h1 := h.apart p hp.1 q hq.1 hne
  have h2 := le_of_large hp
  have h3 := le_of_large hq
  omega

theorem Within.outside (h : Within (largeSet (chunksize s.mem) free I) s.mem mem') :
    Outside s A (largeSet (chunksize s.mem) free I) mem' := by
  refine fun x _ hx => h x fun q hq hx' => hx q hq ⟨hx'.1, ?_⟩
  have := le_of_large hq
  omega

/-- the chunks of a tree bin -/
theorem Binned.inTree (h : Binned bound (chunksize s.mem) free b) (hq : q ∈ (b.treebins I).toList) :
    q ∈ largeSet (chunksize s.mem) free I := by
  obtain ⟨hfree, hidx⟩ := h.tree.bin I q hq
  exact ⟨hfree.1, hfree.2, hidx⟩

/-- there are not more chunks than bytes -/
theorem Nodes.length_le {l : List ℕ} (h : Nodes Y s free) (hnodup : l.Nodup) (hsub : ∀ q ∈ l, q ∈ free) :
    l.length ≤ s.footprint := by
  have hcard : l.toFinset ⊆ Finset.Ico s.least_addr (s.least_addr + s.footprint) := by
    intro q hq
    rw [List.mem_toFinset] at hq
    exact Finset.mem_Ico.mpr (h.inside q (hsub q hq))
  have hle := Finset.card_le_card hcard
  rwa [List.toFinset_card_of_nodup hnodup, Nat.card_Ico, Nat.add_sub_cancel_left] at hle

theorem agree_put {w : ℕ} (h : Agree N L (link mem)) (hx : ∀ q ∈ N, ∀ f, q + offset f ≠ x) :
    Agree N L (link (put mem x w)) :=
  fun q hq f => (link_put_of_ne (hx q hq f)).trans (h q hq f)

theorem index_set_index (hi : i < 2 ^ 32) : index (set_index mem X i) X = i := by
  unfold index set_index
  rw [put_self]
  omega

theorem set_index_of_ne (h : x ≠ X + 56) : set_index mem X i x = mem x := put_of_ne h

/-- a tree bin is not empty if its bit is set -/
theorem Binned.tree_nil (h : Binned bound size free b) (hmark : b.treemap.getLsbD I = false) : b.treebins I = .nil := by
  by_contra hne
  rw [(h.tree.map_iff I).mpr hne] at hmark
  cases hmark

/-- links of the chunks of a tree bin have changed, and at most the root -/
theorem InMemory.tree_done {G : Set ℕ} (h : InMemory Y s.mem b) (hb : Binned bound (chunksize s.mem) free b)
    (hN : Nodes Y s G) (hsub : free ⊆ G) (hI : I < 32)
    (hsame : ∀ x, x ≠ treebin_at Y I → (∀ q ∈ largeSet (chunksize s.mem) G I, ¬ (q + 16 ≤ x ∧ x < q + 64)) →
      mem' x = s.mem x)
    (hroot : mem' (treebin_at Y I) = ptr U) (hlinked : Linked (link mem') (treebin_at Y I) U)
    (hindex : ∀ q ∈ U.toList, Heap.index mem' q = I) :
    Outside s {treebin_at Y I} (largeSet (chunksize s.mem) G I) mem' ∧
      InMemory Y mem' { b with treemap := map, treebins := update b.treebins I U } := by
  have hout : Outside s {treebin_at Y I} (largeSet (chunksize s.mem) G I) mem' := by
    refine fun x hxH hx => hsame x hxH fun q hq h' => hx q hq ⟨h'.1, ?_⟩
    have := le_of_large hq
    omega
  refine ⟨hout, h.change_tree hb (hN.mono ?_) hI hout (fun j _ hjI q hq hmem => hjI ?_) (fun q hq => hq.2.1) hroot hlinked
    hindex⟩
  · exact Set.union_subset (fun q hq => hq.1) hsub
  · rw [← hmem.2.2, (hb.inTree hq).2.2]

/-- the links and the index of a large chunk are not in `_gm_` -/
theorem Nodes.large_state {G : Set ℕ} (hN : Nodes Y s G) (hq : q ∈ largeSet (chunksize s.mem) G I) (h1 : q + 16 ≤ x)
    (h2 : x < q + 64) : ¬ Y.State x := by
  have := le_of_large hq
  exact hN.area_state hq.1 ⟨h1, by omega⟩

/-- the chunks of a bin, when one more is there to enter it -/
theorem Binned.inTree_insert {P : ℕ} (hb : Binned bound (chunksize s.mem) free b) (hq : q ∈ (b.treebins I).toList) :
    q ∈ largeSet (chunksize s.mem) (insert P free) I := by
  obtain ⟨h1, h2⟩ := hb.inTree hq
  exact ⟨Set.mem_insert_of_mem _ h1, h2⟩

/-- after the first stores of `insert_large_chunk`: P has its index and no children, and the bin is as it was -/
structure Entering (Y : Sys) (s : MState) (N : Set ℕ) (I P : ℕ) (U : Trie ℕ) (mem : Mem) : Prop where
  linked : Linked (link mem) (treebin_at Y I) U
  child : ∀ b, link mem (.child b) P = 0
  index : ∀ q, q = P ∨ q ∈ U.toList → Heap.index mem q = I
  same : ∀ x, (∀ q ∈ N, ¬ (q + 16 ≤ x ∧ x < q + 64)) → mem x = s.mem x

section
variable {P : ℕ}

theorem InMemory.entering (h : InMemory Y s.mem b) (hb : Binned bound (chunksize s.mem) free b)
    (hN : Nodes Y s (insert P free)) (hP : P ∉ free) (hPlarge : P ∈ largeSet (chunksize s.mem) (insert P free) I)
    (hI : I < 32) :
    Entering Y s (largeSet (chunksize s.mem) (insert P free) I) I P (b.treebins I)
      (set_link (set_link (set_index s.mem P I) (.child true) P 0) (.child false) P 0) := by
  have hspaced := hN.spaced (I := I)
  have hinN : ∀ q ∈ (b.treebins I).toList, q ∈ largeSet (chunksize s.mem) (insert P free) I :=
    fun q hq => hb.inTree_insert hq
  have hPnot : P ∉ (b.treebins I).toList := fun hmem => hP (hb.inTree hmem).1
  generalize largeSet (chunksize s.mem) (insert P free) I = N at hPlarge hspaced hinN ⊢
  generalize hmem₁ : set_link (set_link (set_index s.mem P I) (.child true) P 0) (.child false) P 0 = mem₁
  have hagree₀ : Agree N (link s.mem) (link (set_index s.mem P I)) := by
    refine agree_put (Agree.refl N _) fun q hq f heq => ?_
    have hf := offset_lt f
    by_cases hqP : q = P
    · omega
    · have := hspaced q hq P hPlarge hqP
      omega
  have hagree₁ : Agree N (set (set (link s.mem) (.child true) P 0) (.child false) P 0) (link mem₁) :=
    hmem₁ ▸ (hagree₀.set_link hspaced hPlarge (.child true) 0).set_link hspaced hPlarge (.child false) 0
  have hwithin₁ : Within N (set_index s.mem P I) mem₁ :=
    hmem₁ ▸ (within_set_link _ _ _ hPlarge).trans (within_set_link _ _ _ hPlarge)
  refine ⟨linked_agree (((h.tree I hI).set_other hPnot).set_other hPnot) hagree₁ hinN, fun b' => ?_, fun q hq => ?_,
    fun x hx => ?_⟩
  · rw [hagree₁ P hPlarge]
    cases b'
    · exact set_self
    · rw [set_of_field (by simp), set_self]
  · rcases hq with rfl | hq
    · rw [hwithin₁.index hspaced hPlarge, index_set_index (by omega)]
    · have hne : q ≠ P := fun heq => hPnot (heq ▸ hq)
      have hapart := hspaced q (hinN q hq) P hPlarge hne
      rw [hwithin₁.index hspaced (hinN q hq), Heap.index, set_index_of_ne (by omega)]
      exact h.index I hI q hq
  · rw [hwithin₁ x fun q hq h' => hx q hq ⟨h'.1, by omega⟩, set_index_of_ne]
    rintro rfl
    exact hx P hPlarge ⟨by omega, by omega⟩

/-- words of `_gm_` are as they were -/
theorem Entering.state {G : Set ℕ} {mem₁ : Mem}
    (h : Entering Y s (largeSet (chunksize s.mem) G I) I P U mem₁) (hN : Nodes Y s G) (hx : Y.State x) : mem₁ x = s.mem x :=
  h.same x fun _ hq h' => hN.large_state hq h'.1 h'.2 hx

/-- what is left to do changes links of these chunks, and at most the root -/
theorem InMemory.entered {mem₁ : Mem} {V : Trie ℕ} (h : InMemory Y s.mem b)
    (hb : Binned bound (chunksize s.mem) free b) (hN : Nodes Y s (insert P free))
    (hPlarge : P ∈ largeSet (chunksize s.mem) (insert P free) I) (hI : I < 32)
    (hE : Entering Y s (largeSet (chunksize s.mem) (insert P free) I) I P (b.treebins I) mem₁)
    (hsame : ∀ x, x ≠ treebin_at Y I →
      (∀ q ∈ largeSet (chunksize s.mem) (insert P free) I, ¬ (q + 16 ≤ x ∧ x < q + 56)) → mem' x = mem₁ x)
    (hroot : mem' (treebin_at Y I) = ptr V) (hlinked : Linked (link mem') (treebin_at Y I) V)
    (hV : ∀ q ∈ V.toList, q = P ∨ q ∈ (b.treebins I).toList) :
    Outside s {treebin_at Y I} (largeSet (chunksize s.mem) (insert P free) I) mem' ∧
      InMemory Y mem' { b with treemap := map, treebins := update b.treebins I V } := by
  refine h.tree_done hb hN (Set.subset_insert ..) hI (fun x hxH hx => ?_) hroot hlinked fun q hq => ?_
  · rw [hsame x hxH fun q hq h' => hx q hq ⟨h'.1, by omega⟩, hE.same x hx]
  · have hqN : q ∈ largeSet (chunksize s.mem) (insert P free) I := by
      rcases hV q hq with rfl | hq
      · exact hPlarge
      · exact hb.inTree_insert hq
    rw [← hE.index q (hV q hq), Heap.index, Heap.index, hsame]
    · exact fun heq => hN.large_state hqN (by omega) (by omega) (heq ▸ state_treebin hI)
    · rintro r hr ⟨h1, h2⟩
      by_cases hqr : q = r
      · omega
      · have := hN.spaced q hqN r hr hqr
        omega

/-- the first chunk of a tree bin -/
theorem InMemory.enter_empty {mem₁ : Mem} (h : InMemory Y s.mem b)
    (hb : Binned bound (chunksize s.mem) free b) (hN : Nodes Y s (insert P free))
    (hPlarge : P ∈ largeSet (chunksize s.mem) (insert P free) I) (hI : I < 32)
    (hE : Entering Y s (largeSet (chunksize s.mem) (insert P free) I) I P (b.treebins I) mem₁) :
    Outside s {treebin_at Y I} (largeSet (chunksize s.mem) (insert P free) I)
        (linkSelf (set_link (put mem₁ (treebin_at Y I) P) .parent P (treebin_at Y I)) P) ∧
      InMemory Y (linkSelf (set_link (put mem₁ (treebin_at Y I) P) .parent P (treebin_at Y I)) P)
        { b with treemap := map, treebins := update b.treebins I (.node P [] .nil .nil) } := by
  have hspaced := hN.spaced (I := I)
  have hH : ∀ q ∈ largeSet (chunksize s.mem) (insert P free) I, ∀ x, q + 16 ≤ x → x < q + 64 → x ≠ treebin_at Y I :=
    fun q hq x h1 h2 heq => hN.large_state hq h1 h2 (heq ▸ state_treebin hI)
  generalize hput : put mem₁ (treebin_at Y I) P = mem₂
  have hagree₂ : Agree (largeSet (chunksize s.mem) (insert P free) I) (link mem₁) (link mem₂) :=
    hput ▸ agree_put (Agree.refl _ _) fun q hq f =>
      hH q hq _ (by have := offset_lt f; omega) (by have := offset_lt f; omega)
  have hagree₃ := agree_linkSelf (hagree₂.set_link hspaced hPlarge .parent (treebin_at Y I)) hspaced hPlarge
  have hwithin₃ : Within (largeSet (chunksize s.mem) (insert P free) I) mem₂
      (linkSelf (set_link mem₂ .parent P (treebin_at Y I)) P) :=
    (within_set_link _ _ _ hPlarge).trans (within_linkSelf _ hPlarge)
  refine h.entered hb hN hPlarge hI hE (fun x hxH hx => ?_) ?_ (linked_leaf ?_ (fun b' => ?_) ?_ ?_) fun q hq => ?_
  · rw [hwithin₃ x hx, ← hput, put_of_ne hxH]
  · rw [hwithin₃ _ fun q hq h' => hH q hq _ h'.1 (by omega) rfl, ← hput, put_self, ptr]
  · rw [hagree₃ P hPlarge, set_of_field LinkedTrie.Field.noConfusion, set_of_field LinkedTrie.Field.noConfusion, set_self]
  · rw [hagree₃ P hPlarge, set_of_field LinkedTrie.Field.noConfusion, set_of_field LinkedTrie.Field.noConfusion,
      set_of_field LinkedTrie.Field.noConfusion, hE.child]
  · rw [hagree₃ P hPlarge, set_self]
  · rw [hagree₃ P hPlarge, set_of_field LinkedTrie.Field.noConfusion, set_self]
  · exact .inl (by simpa [Trie.toList] using hq)

end

/-- a chunk enters a tree bin -/
theorem InMemory.insert_large {P : ℕ} (h : InMemory Y s.mem b) (hmap : b.treemap = s.treemap)
    (hb : Binned bound (chunksize s.mem) free b) (hN : Nodes Y s (insert P free)) (hP : P ∉ free)
    (hS : chunksize s.mem P = S) (hlarge : ¬ is_small S = true) :
    ∃ mem', insert_large_chunk Y s P S = .ok { s with mem := mem', treemap := setBit s.treemap (treeIndex S) } ∧
      Outside s {treebin_at Y (treeIndex S)} (largeSet (chunksize s.mem) (insert P free) (treeIndex S)) mem' ∧
      InMemory Y mem' { b with treemap := setBit b.treemap (treeIndex S),
                               treebins := update b.treebins (treeIndex S)
                                 (insertTree (chunksize s.mem) P S (BitVec.ofNat 64 (S <<< leftshift (treeIndex S)))
                                   (b.treebins (treeIndex S))) } := by
  have hI : treeIndex S < 32 := treeIndex_lt S
  have hPlarge : P ∈ largeSet (chunksize s.mem) (insert P free) (treeIndex S) :=
    ⟨Set.mem_insert .., hS.symm ▸ hlarge, by rw [hS]⟩
  have hPnot : P ∉ (b.treebins (treeIndex S)).toList := fun hmem => hP (hb.inTree hmem).1
  have hE := h.entering hb hN hP hPlarge hI
  generalize hIe : treeIndex S = I at hI hPlarge hPnot hE ⊢
  unfold insert_large_chunk
  simp only [hIe]
  generalize set_link (set_link (set_index s.mem P I) (.child true) P 0) (.child false) P 0 = mem₁ at hE ⊢
  by_cases hmark : s.treemap.getLsbD I = false
  · rw [if_pos hmark, hb.tree_nil (hmap ▸ hmark), insertTree]
    exact ⟨_, rfl, h.enter_empty hb hN hPlarge hI hE⟩
  · rw [if_neg hmark]
    have hmark' := Bool.of_not_eq_false hmark
    have hne : b.treebins I ≠ .nil := (hb.tree.map_iff I).mp (hmap ▸ hmark')
    have hfree : ∀ q ∈ (b.treebins I).toList, q ∈ insert P free := fun q hq => Set.mem_insert_of_mem _ (hb.inTree hq).1
    have h0 : 0 ∉ (b.treebins I).toList := fun hmem => (hN.pos 0 (hfree 0 hmem)).ne rfl
    have hnodup := hb.tree.nodup I
    have hroot₁ : mem₁ (treebin_at Y I) = ptr (b.treebins I) := (hE.state hN (state_treebin hI)).trans (h.root I hI)
    -- the sizes are as they were
    have hcongr : insertTree (chunksize mem₁) P S (BitVec.ofNat 64 (S <<< leftshift I)) (b.treebins I) =
        insertTree (chunksize s.mem) P S (BitVec.ofNat 64 (S <<< leftshift I)) (b.treebins I) := by
      have hout₁ : Outside s ∅ (largeSet (chunksize s.mem) (insert P free) I) mem₁ := fun x _ hx =>
        hE.same x fun q hq h' => hx q hq ⟨h'.1, by have := le_of_large hq; omega⟩
      exact insertTree_congr fun q hq => hout₁.chunksize_same hN (fun x hx => absurd hx (Set.notMem_empty x))
        (fun r hr => hr.1) (hfree q hq)
    obtain ⟨mem', hloop, hwithin, hlinked⟩ := insertLoop_spec (s := { s with mem := mem₁ }) (c := []) (S := S)
      (K := BitVec.ofNat 64 (S <<< leftshift I)) hN.spaced (fun q hq => hb.inTree_insert hq)
      (fun y hy => (hN.inside y hy.1).1) hE.linked hnodup h0 hPlarge hPnot hE.child hne (hN.length_le hnodup hfree)
    refine ⟨mem', ?_, h.entered hb hN hPlarge hI hE (fun x _ hx => hwithin x hx) ?_ (hcongr ▸ hlinked) fun q hq => ?_⟩
    · rw [hroot₁, hloop, setBit_of_set hmark']
    · rw [ptr_insertTree hne, ← hroot₁]
      exact hwithin _ fun q hq h' => hN.large_state hq h'.1 (by omega) (state_treebin hI)
    · exact mem_insertTree.mp hq

/-! #### Removal -/

/-- the loop ends at the leaf that is to be taken -/
theorem leafLoop_spec {p : ℕ} (fuel : ℕ) (RP : ℕ × Bool) (hL : Linked (link mem) p U) (h0 : 0 ∉ U.toList)
    (hne : U ≠ .nil) (hfuel : U.toList.length ≤ fuel) :
    ∃ c R chain, leafLoop mem fuel (ptr U) RP = .ok (R, slot RP c) ∧ U = plug c (.node R chain .nil .nil) ∧
      U.takeLeaf = some ((R, chain), plug c .nil) := by
  induction U generalizing p fuel RP with
  | nil => exact absurd rfl hne
  | node t chain l r ihl ihr =>
    obtain ⟨⟨-, hl, hr, -⟩, hLl, hLr⟩ := hL
    simp only [Trie.toList, List.mem_cons, List.mem_append, not_or, List.length_cons, List.length_append] at h0 hfuel
    obtain ⟨n, rfl⟩ : ∃ n, fuel = n + 1 := Nat.exists_eq_succ_of_ne_zero (by omega)
    rw [ptr, leafLoop, hl, hr]
    by_cases hrn : r = .nil
    · subst hrn
      rw [if_neg (by simp [ptr])]
      by_cases hln : l = .nil
      · subst hln
        rw [if_neg (by simp [ptr])]
        exact ⟨[], t, chain, rfl, rfl, rfl⟩
      · rw [if_pos fun heq => hln ((ptr_eq_zero h0.2.2.1).mp heq)]
        obtain ⟨c, R, ch, hloop, hplug, htake⟩ := ihl n (t, false) hLl h0.2.2.1 hln (by omega)
        refine ⟨⟨false, t, chain, .nil⟩ :: c, R, ch, hloop, by rw [hplug]; rfl, ?_⟩
        simp only [Trie.takeLeaf, htake]
        rfl
    · rw [if_pos fun heq => hrn ((ptr_eq_zero h0.2.2.2).mp heq)]
      obtain ⟨c, R, ch, hloop, hplug, htake⟩ := ihr n (t, true) hLr h0.2.2.2 hrn (by omega)
      refine ⟨⟨true, t, chain, l⟩ :: c, R, ch, hloop, by rw [hplug]; rfl, ?_⟩
      simp only [Trie.takeLeaf, htake]
      rfl

theorem vacant_agree {p v : ℕ} (h : Vacant L p c v X R chain l r) (hagree : Agree N L L')
    (hsub : ∀ y ∈ (plug c (.node X (R :: chain) l r)).toList, y ∈ N) : Vacant L' p c v X R chain l r :=
  h.congr fun y hy f => hagree y (hsub y hy) f

/-- what takes the place of a node -/
theorem removeRoot_items (h : Trie.removeRoot chain l r = .node R ch l' r') :
    (plug c (.node X (R :: ch) l' r')).items = (plug c (.node X chain l r)).items := by
  rw [items_plug, items_plug (S := .node X chain l r), Trie.items_removeRoot X chain l r, h, Trie.items_node,
    Trie.items_node, ← Multiset.cons_coe, ← Multiset.singleton_add]
  abel

/-- the place of a link is a node -/
theorem slot_mem (d : ℕ × Bool) (c : Ctx ℕ) : (slot d c).1 = d.1 ∨ (slot d c).1 ∈ (plug c .nil).toList := by
  induction c generalizing d with
  | nil => exact .inl rfl
  | cons e c ih =>
    rw [slot, plug, mem_fill]
    rcases ih (e.node, e.second) with h | h
    · exact .inr (.inl h)
    · exact .inr (.inr (.inr (.inr h)))

/-- a leaf is taken from below a node that has no chain -/
theorem leaf_spec {p : ℕ} {b : Bool} {V W : Trie ℕ} (hN : Spaced N) (hfill : (⟨b, X, [], W⟩ : Frame ℕ).fill V = U)
    (hsub : ∀ y ∈ (plug c U).toList, y ∈ N) (hleast : ∀ y ∈ N, s.least_addr ≤ y) (hL : Linked (link s.mem) p (plug c U))
    (hnodup : (plug c U).toList.Nodup) (h0 : 0 ∉ (plug c U).toList) (hfuel : (plug c U).toList.length ≤ s.footprint)
    (hV : V ≠ .nil) :
    ∃ R ch V' RP mem', leafLoop s.mem s.footprint (ptr V) (X, b) = .ok (R, RP) ∧
      ok_address s (RP.1 + offset (.child RP.2)) = true ∧ set_link s.mem (.child RP.2) RP.1 0 = mem' ∧ Within N s.mem mem' ∧
      V.takeLeaf = some ((R, ch), V') ∧
      Vacant (link mem') p c X X R ch (if b then W else V') (if b then V' else W) := by
  subst hfill
  have hmem : ∀ y ∈ V.toList, y ∈ (plug c ((⟨b, X, [], W⟩ : Frame ℕ).fill V)).toList := fun y hy =>
    mem_plug.mpr (.inr (mem_fill.mpr (.inr (.inr (.inr hy)))))
  have hVL := (linked_fill.mp (linked_plug.mp hL).2).2
  have hlen : V.toList.length ≤ s.footprint := by
    have hVn : V.toList.Nodup := by
      have h1 := (nodup_plug.mp hnodup).2.1
      unfold Frame.fill at h1
      split_ifs at h1 <;>
      · simp only [Trie.toList, List.nil_append, List.nodup_cons, List.nodup_append] at h1
        tauto
    exact (hVn.subperm hmem).length_le.trans hfuel
  obtain ⟨c', R, ch, hloop, hplug, htake⟩ := leafLoop_spec s.footprint (X, b) hVL (fun hy => h0 (hmem 0 hy)) hV hlen
  subst hplug
  obtain ⟨⟨y, b'⟩, hslot⟩ : ∃ d, slot (X, b) c' = d := ⟨_, rfl⟩
  have hyN : y ∈ N := by
    have hy := slot_mem (X, b) c'
    rw [hslot] at hy
    refine hsub y (mem_plug.mpr (.inr (mem_fill.mpr ?_)))
    rcases hy with hy | hy
    · exact .inl hy
    · exact .inr (.inr (.inr (mem_plug.mpr (.inl hy))))
  have hwhole : plug (c ++ ⟨b, X, [], W⟩ :: c') (.node R ch .nil .nil) =
      plug c ((⟨b, X, [], W⟩ : Frame ℕ).fill (plug c' (.node R ch .nil .nil))) := plug_append
  obtain ⟨h1, h2, h3, h4, h5⟩ := Linked.leaf_out (hwhole ▸ hL) (hwhole ▸ hnodup) hslot
  refine ⟨R, ch, plug c' .nil, (y, b'), _, hslot ▸ hloop, ?_, rfl, within_set_link _ _ _ hyN, htake, ?_⟩
  · exact decide_eq_true ((hleast y hyN).trans (Nat.le_add_right ..))
  · have hvacant : Vacant (set (link s.mem) (.child b') y 0) p c X X R ch (if b then W else plug c' .nil)
        (if b then plug c' .nil else W) := by
      cases b
      · exact ⟨h1, h2.parent, h2.child, h2.other, h3, h2.linked, h4, h5⟩
      · exact ⟨h1, h2.parent, h2.other, h2.child, h2.linked, h3, h4, h5⟩
    refine vacant_agree hvacant ((Agree.refl N _).set_link hN hyN _ _) fun z hz => hsub z ?_
    rw [← mem_items, items_plug, Multiset.mem_add] at hz ⊢
    refine hz.imp_right fun hz => ?_
    rw [mem_items] at hz ⊢
    rw [mem_fill]
    have hin : ∀ w, w ∈ (plug c' Trie.nil).toList ∨ w = R ∨ w ∈ ch → w ∈ (plug c' (Trie.node R ch .nil .nil)).toList := by
      intro w hw
      refine mem_plug.mpr (hw.imp_right fun hw => ?_)
      simpa [Trie.toList] using hw
    cases b <;>
    · simp only [Trie.toList, List.mem_cons, List.mem_append, Bool.false_eq_true, if_false, if_true, List.not_mem_nil,
        false_or] at hz ⊢
      have := hin z
      tauto

/-- the last of the chain, a leaf of the subtree, or nothing is to replace a node -/
theorem takeReplacement_spec {p : ℕ} (hN : Spaced N) (hsub : ∀ y ∈ (plug c (.node X chain l r)).toList, y ∈ N)
    (hleast : ∀ y ∈ N, s.least_addr ≤ y) (hL : Linked (link s.mem) p (plug c (.node X chain l r)))
    (hnodup : (plug c (.node X chain l r)).toList.Nodup) (h0 : 0 ∉ (plug c (.node X chain l r)).toList)
    (hfuel : (plug c (.node X chain l r)).toList.length ≤ s.footprint) :
    (takeReplacement s X = .ok (0, s) ∧ Trie.removeRoot chain l r = .nil) ∨
      ∃ R ch l' r' mem', takeReplacement s X = .ok (R, { s with mem := mem' }) ∧ Within N s.mem mem' ∧
        Vacant (link mem') p c X X R ch l' r' ∧ Trie.removeRoot chain l r = .node R ch l' r' := by
  obtain ⟨-, ⟨-, hl, hr, hring⟩, -, -⟩ := linked_plug.mp hL
  have hin : ∀ y, y = X ∨ y ∈ chain → y ∈ N := fun y hy => by
    refine hsub y (mem_plug.mpr (.inr ?_))
    simp only [Trie.toList, List.mem_cons, List.mem_append]
    tauto
  have hXc : X ∉ chain := by
    have h1 := (nodup_plug.mp hnodup).2.1
    simp only [Trie.toList, List.nodup_cons, List.mem_append, not_or] at h1
    exact h1.1.1
  unfold takeReplacement
  rcases List.eq_nil_or_concat' chain with rfl | ⟨ys, R, rfl⟩
  · have hbk : link s.mem .bk X = X := hring.path.2
    simp only [hbk, ne_eq, not_true_eq_false, if_false, hr]
    have h0l : 0 ∉ l.toList := fun hy => h0 (mem_plug.mpr (.inr (by simp [Trie.toList, hy])))
    have h0r : 0 ∉ r.toList := fun hy => h0 (mem_plug.mpr (.inr (by simp [Trie.toList, hy])))
    by_cases hrn : r = .nil
    · subst hrn
      by_cases hln : l = .nil
      · subst hln
        left
        simp [ptr, hl, Trie.removeRoot, Trie.takeLeaf]
      · right
        obtain ⟨R, ch, V', RP, mem', hloop, hok, hmem, hwithin, htake, hvacant⟩ :=
          leaf_spec (b := false) hN rfl hsub hleast hL hnodup h0 hfuel hln
        refine ⟨R, ch, V', .nil, mem', ?_, hwithin, hvacant, ?_⟩
        · have hne : ptr l ≠ 0 := fun heq => hln ((ptr_eq_zero h0l).mp heq)
          have hnil : ptr (Trie.nil : Trie ℕ) = 0 := rfl
          simp only [hnil, not_true_eq_false, decide_false, hl, hne, not_false_eq_true, if_true]
          rw [hloop]
          simp only [bind, Except.bind]
          rw [if_pos hok, hmem]
        · simp [Trie.removeRoot, Trie.takeLeaf, htake]
    · right
      obtain ⟨R, ch, V', RP, mem', hloop, hok, hmem, hwithin, htake, hvacant⟩ :=
        leaf_spec (b := true) hN rfl hsub hleast hL hnodup h0 hfuel hrn
      refine ⟨R, ch, l, V', mem', ?_, hwithin, hvacant, ?_⟩
      · have hne : ptr r ≠ 0 := fun heq => hrn ((ptr_eq_zero h0r).mp heq)
        simp only [hne, not_false_eq_true, decide_true, hr, if_true]
        rw [hloop]
        simp only [bind, Except.bind]
        rw [if_pos hok, hmem]
      · simp [Trie.removeRoot, htake]
  · right
    obtain ⟨hR, hvacant⟩ := hL.last_out hnodup rfl
    obtain ⟨hF, -, hFX, hRX⟩ := hring.path.rotate.ring_mem List.mem_cons_self
    generalize hFe : link s.mem .fd X = F at hF hFX hvacant
    have hFN : F ∈ N := by
      rcases hF with rfl | hF
      · exact hin _ (.inr (by simp))
      · rcases List.mem_cons.mp hF with rfl | hF
        · exact hin _ (.inl rfl)
        · exact hin _ (.inr (by simp [hF]))
    have hRN : R ∈ N := hin _ (.inr (by simp))
    rw [hR] at hRX
    have hRX' : R ≠ X := by
      rintro rfl
      exact hXc (by simp)
    have hok : ok_address s F = true := decide_eq_true (hleast F hFN)
    refine ⟨R, ys, l, r, set_link (set_link s.mem .bk F R) .fd R F, ?_, ?_, ?_, ?_⟩
    · simp only [hR, hRX', ne_eq, not_false_eq_true, if_true, hok, hFX, hRX, and_self]
      rfl
    · exact (within_set_link _ _ _ hFN).trans (within_set_link _ _ _ hRN)
    · refine vacant_agree hvacant (((Agree.refl N _).set_link hN hFN .bk R).set_link hN hRN .fd F) fun y hy => hsub y ?_
      rw [mem_plug] at hy ⊢
      refine hy.imp_right fun hy => ?_
      simp only [Trie.toList, List.mem_cons, List.mem_append, List.not_mem_nil, or_false] at hy ⊢
      tauto
    · rw [Trie.removeRoot, List.getLast?_concat, List.dropLast_concat]

/-- a child is adopted, in memory and as links -/
theorem adoptChild_spec {b : Bool} (h : Agree N L (link s.mem)) (hN : Spaced N) (hleast : ∀ y ∈ N, s.least_addr ≤ y)
    (hX : X ∈ N) (hR : R ∈ N) (hC : L (.child b) X ≠ 0 → L (.child b) X ∈ N) :
    ∃ mem', adoptChild s X R b = .ok { s with mem := mem' } ∧ Within N s.mem mem' ∧
      Agree N (adopt L X R b) (link mem') := by
  have hlink : link s.mem (.child b) X = L (.child b) X := h X hX _
  unfold adoptChild adopt
  simp only [hlink]
  by_cases h0 : L (.child b) X = 0
  · rw [if_neg (not_not.mpr h0), if_pos h0]
    exact ⟨s.mem, rfl, Within.refl N _, h⟩
  · have hCN := hC h0
    have hok : ok_address s (L (.child b) X) = true := decide_eq_true (hleast _ hCN)
    rw [if_pos h0, if_neg h0, if_pos hok]
    exact ⟨_, rfl, (within_set_link _ _ _ hR).trans (within_set_link _ _ _ hCN),
      (h.set_link hN hR _ _).set_link hN hCN _ _⟩

/-- the parent and the children of a node become those of what replaces it -/
theorem adopt_spec {p : ℕ} (h : Vacant (link s.mem) p c R X R ch l r) (hN : Spaced N)
    (hsub : ∀ y ∈ (plug c (.node X (R :: ch) l r)).toList, y ∈ N) (hleast : ∀ y ∈ N, s.least_addr ≤ y)
    (hnodup : (plug c (.node X (R :: ch) l r)).toList.Nodup) (h0 : 0 ∉ (plug c (.node X (R :: ch) l r)).toList) :
    ∃ mem', (adoptChild { s with mem := set_link s.mem .parent R (above p c) } X R false >>=
          fun s => adoptChild s X R true) = .ok { s with mem := mem' } ∧ Within N s.mem mem' ∧ Linked (link mem') p (plug c (.node R ch l r)) := by
  have hin : ∀ y, y ∈ (Trie.node X (R :: ch) l r).toList → y ∈ N := fun y hy => hsub y (mem_plug.mpr (.inr hy))
  have hX : X ∈ N := hin X (by simp [Trie.toList])
  have hR : R ∈ N := hin R (by simp [Trie.toList])
  have hroot : ∀ T : Trie ℕ, (∀ y ∈ T.toList, y ∈ N) → ptr T ≠ 0 → ptr T ∈ N := fun T hT hne => hT _ (ptr_mem hne)
  have hXR : X ≠ R := by
    have h1 := (nodup_plug.mp hnodup).2.1
    simp only [Trie.toList, List.nodup_cons, List.mem_append, List.mem_cons, not_or] at h1
    exact h1.1.1.1
  have hl : ∀ y ∈ l.toList, y ∈ N := fun y hy => hin y (by simp [Trie.toList, hy])
  have hr : ∀ y ∈ r.toList, y ∈ N := fun y hy => hin y (by simp [Trie.toList, hy])
  have hXl : X ∉ l.toList := by
    have h1 := (nodup_plug.mp hnodup).2.1
    simp only [Trie.toList, List.nodup_cons, List.mem_append, List.mem_cons, not_or] at h1
    exact h1.1.2.1
  have hX0 : X ≠ 0 := fun heq => h0 (mem_plug.mpr (.inr (by simp [Trie.toList, heq])))
  generalize hL₁ : set (link s.mem) .parent R (above p c) = L₁
  have hfirst : L₁ (.child false) X = ptr l := by rw [← hL₁, set_of_node hXR, h.first]
  have hsecond : adopt L₁ X R false (.child true) X = ptr r := by
    rw [adopt_of_node hXR, ← hL₁, set_of_node hXR, h.second]
    rintro heq
    rw [hfirst] at heq
    exact hXl (heq ▸ ptr_mem (heq ▸ hX0))
  obtain ⟨mem₁, hop₁, hwithin₁, hagree₁⟩ := adoptChild_spec (b := false)
    (s := { s with mem := set_link s.mem .parent R (above p c) }) (hL₁ ▸ (Agree.refl N _).set_link hN hR .parent (above p c))
    hN hleast hX hR (hfirst ▸ hroot l hl)
  obtain ⟨mem₂, hop₂, hwithin₂, hagree₂⟩ := adoptChild_spec (b := true) (s := { s with mem := mem₁ }) hagree₁ hN hleast hX hR
    (hsecond ▸ hroot r hr)
  refine ⟨mem₂, ?_, ((within_set_link _ _ _ hR).trans hwithin₁).trans hwithin₂, ?_⟩
  · rw [hop₁]
    exact hop₂
  · refine linked_agree (hL₁ ▸ h.replace hnodup h0) hagree₂ fun y hy => ?_
    rw [mem_plug] at hy
    rcases hy with hy | hy
    · exact hsub y (mem_plug.mpr (.inl hy))
    · exact hin y (by simp only [Trie.toList, List.mem_cons, List.mem_append] at hy ⊢; tauto)

/-- the link to a node becomes one to R: the root, or a child of the parent -/
theorem replaceLink_spec (hN : Spaced N) (hleast : ∀ y ∈ N, s.least_addr ≤ y) (hsub : ∀ y ∈ (plug c .nil).toList, y ∈ N)
    (hroot : s.mem (treebin_at Y I) = entry X c) (hindex : Heap.index s.mem X = I)
    (hctx : LinkedCtx (link s.mem) (treebin_at Y I) c X) (hX : X ∉ (plug c .nil).toList) (hX0 : X ≠ 0)
    (hout : ∀ q ∈ N, ∀ f, q + offset f ≠ treebin_at Y I) :
    ∃ mem', replaceLink Y s X (above (treebin_at Y I) c) R =
        .ok { s with mem := mem', treemap := if R = 0 ∧ c = [] then clearBit s.treemap I else s.treemap } ∧
      (∀ x, x ≠ treebin_at Y I → (∀ q ∈ N, ¬ (q + 16 ≤ x ∧ x < q + 56)) → mem' x = s.mem x) ∧
      mem' (treebin_at Y I) = entry R c ∧ Agree N (setHole (link s.mem) c R) (link mem') := by
  unfold replaceLink
  simp only [hindex]
  rcases List.eq_nil_or_concat' c with rfl | ⟨c, e, rfl⟩
  · have hX : X = s.mem (treebin_at Y I) := hroot.symm
    simp only [if_pos hX, and_true]
    refine ⟨_, rfl, fun x hx _ => put_of_ne hx, put_self, ?_⟩
    exact agree_put (Agree.refl N _) hout
  · have he : e.node ∈ (plug (c ++ [e]) Trie.nil).toList := by
      rw [plug_append, mem_plug]
      exact .inr (mem_fill.mpr (.inl rfl))
    have heN := hsub _ he
    have habove : above (treebin_at Y I) (c ++ [e]) = e.node := by rw [above_append]; rfl
    have hne : X ≠ s.mem (treebin_at Y I) := by
      rw [hroot]
      intro heq
      refine hX ?_
      rw [heq]
      cases c with
      | nil => exact he
      | cons e' c => exact mem_fill.mpr (.inl rfl)
    have hok : ok_address s e.node = true := decide_eq_true (hleast _ heN)
    -- which child the node is
    have hchild : decide (link s.mem (.child false) e.node ≠ X) = e.second := by
      obtain ⟨-, hframe, -⟩ := linkedCtx_append.mp hctx
      have h1 := hframe.child
      have h2 := hframe.other
      simp only [entry] at h1
      cases hs : e.second
      · rw [hs] at h1
        simp [h1]
      · rw [hs] at h2
        refine decide_eq_true ?_
        rw [Bool.not_true] at h2
        rw [h2]
        intro heq
        refine hX ?_
        rw [plug_append, mem_plug]
        exact .inr (mem_fill.mpr (.inr (.inr (.inl (heq ▸ ptr_mem (heq ▸ hX0))))))
    have hsome : ¬ (R = 0 ∧ c ++ [e] = []) := by simp
    simp only [habove, if_neg hne, if_pos hok, hchild, if_neg hsome]
    refine ⟨_, rfl, fun x _ hx => within_set_link _ _ _ heN x hx, ?_, ?_⟩
    · rw [set_link_of_ne (Ne.symm (hout _ heN _)), hroot]
      cases c <;> rfl
    · rw [setHole_concat]
      exact (Agree.refl N _).set_link hN heN _ _

/-- an item of a chain leaves a tree bin -/
theorem unlink_chain (hN : Spaced N) (hsub : ∀ y ∈ (plug c (.node t chain l r)).toList, y ∈ N)
    (hleast : ∀ y ∈ N, s.least_addr ≤ y) (hL : Linked (link s.mem) (treebin_at Y I) (plug c (.node t chain l r)))
    (hnodup : (plug c (.node t chain l r)).toList.Nodup) (hX : X ∈ chain) :
    ∃ mem', unlink_large_chunk Y s X = .ok { s with mem := mem' } ∧ Within N s.mem mem' ∧
      Linked (link mem') (treebin_at Y I) (plug c (.node t (chain.erase X) l r)) := by
  obtain ⟨-, ⟨-, -, -, hring⟩, -, -⟩ := linked_plug.mp hL
  have hin : ∀ y, y = t ∨ y ∈ chain → y ∈ N := fun y hy => by
    refine hsub y (mem_plug.mpr (.inr ?_))
    simp only [Trie.toList, List.mem_cons, List.mem_append]
    tauto
  have hnode : (t :: chain).Nodup := by
    have h1 := (nodup_plug.mp hnodup).2.1
    simp only [Trie.toList, List.nodup_cons, List.nodup_append, List.mem_append, not_or] at h1
    exact List.nodup_cons.mpr ⟨h1.1.1, h1.2.1⟩
  obtain ⟨hF, hR, hFX, hRX⟩ := hring.path.ring_mem hX
  have hne := hring.path.bk_ne hnode hX
  generalize hFe : link s.mem .fd X = F at hF hFX
  generalize hRe : link s.mem .bk X = R at hR hRX hne
  have hFN := hin F hF
  have hRN := hin R hR
  have hok : ok_address s F = true := decide_eq_true (hleast F hFN)
  unfold unlink_large_chunk takeReplacement
  simp only [hring.parent X hX, hFe, hRe, ne_eq, hne, not_false_eq_true, if_true, hok, hFX, hRX, and_self]
  refine ⟨_, rfl, (within_set_link _ _ _ hFN).trans (within_set_link _ _ _ hRN), ?_⟩
  refine linked_agree (hL.chain_remove hnodup hX hFe hRe) (((Agree.refl N _).set_link hN hFN .bk R).set_link hN hRN .fd F)
    fun y hy => hsub y ?_
  rw [mem_plug] at hy ⊢
  refine hy.imp_right fun hy => ?_
  simp only [Trie.toList, List.mem_cons, List.mem_append] at hy ⊢
  have := List.mem_of_mem_erase (a := y) (b := X) (l := chain)
  tauto

theorem isNil_plug : (plug c U).isNil = true ↔ U = .nil ∧ c = [] := by
  cases c with
  | nil => simp [plug]
  | cons e c =>
    rw [plug, Frame.fill]
    split_ifs <;> simp [Trie.isNil]

/-- the item of a node leaves a tree bin -/
theorem unlink_node (hN : Spaced N) (hsub : ∀ y ∈ (plug c (.node X chain l r)).toList, y ∈ N)
    (hleast : ∀ y ∈ N, s.least_addr ≤ y) (hL : Linked (link s.mem) (treebin_at Y I) (plug c (.node X chain l r)))
    (hnodup : (plug c (.node X chain l r)).toList.Nodup) (h0 : 0 ∉ (plug c (.node X chain l r)).toList)
    (hfuel : (plug c (.node X chain l r)).toList.length ≤ s.footprint)
    (hroot : s.mem (treebin_at Y I) = entry X c) (hindex : Heap.index s.mem X = I)
    (hout : ∀ q ∈ N, ∀ x, q + 16 ≤ x → x < q + 56 → x ≠ treebin_at Y I) :
    ∃ mem', unlink_large_chunk Y s X =
        .ok { s with mem := mem', treemap := if (plug c (Trie.removeRoot chain l r)).isNil then clearBit s.treemap I
                                    else s.treemap } ∧
      (∀ x, x ≠ treebin_at Y I → (∀ q ∈ N, ¬ (q + 16 ≤ x ∧ x < q + 56)) → mem' x = s.mem x) ∧
      mem' (treebin_at Y I) = ptr (plug c (Trie.removeRoot chain l r)) ∧
      Linked (link mem') (treebin_at Y I) (plug c (Trie.removeRoot chain l r)) := by
  obtain ⟨hctx, ⟨hparent, -, -, -⟩, -, -⟩ := linked_plug.mp hL
  have hXP : above (treebin_at Y I) c ≠ 0 := by
    rcases List.eq_nil_or_concat' c with rfl | ⟨c, e, rfl⟩
    · have := Y.gm_pos
      rw [above, treebin_at]
      omega
    · rw [above_append, above, above]
      intro heq
      refine h0 (mem_plug.mpr (.inl ?_))
      rw [plug_append, mem_plug]
      exact .inr (mem_fill.mpr (.inl heq.symm))
  have hX0 : X ≠ 0 := fun heq => h0 (mem_plug.mpr (.inr (by simp [Trie.toList, heq])))
  have hXN : X ∈ N := hsub X (mem_plug.mpr (.inr (by simp [Trie.toList])))
  obtain ⟨hcn, -, hapart⟩ := nodup_plug.mp hnodup
  have hXc : X ∉ (plug c .nil).toList := fun hmem => hapart X hmem (by simp [Trie.toList])
  have hsubc : ∀ y ∈ (plug c .nil).toList, y ∈ N := fun y hy => hsub y (mem_plug.mpr (.inl hy))
  have hout' : ∀ q ∈ N, ∀ f, q + offset f ≠ treebin_at Y I := by
    intro q hq f
    have := offset_lt f
    exact hout q hq _ (by omega) (by omega)
  have hkeep : ∀ {mem mem' : Mem}, Within N mem mem' → mem' (treebin_at Y I) = mem (treebin_at Y I) :=
    fun h => h _ fun q hq h' => hout q hq _ h'.1 h'.2 rfl
  unfold unlink_large_chunk
  rcases takeReplacement_spec hN hsub hleast hL hnodup h0 hfuel with
    ⟨htake, hnil⟩ | ⟨R, ch, l', r', mem₁, htake, hwithin₁, hv, hrem⟩
  · obtain ⟨mem', hrep, hsame, hroot', hagree⟩ := replaceLink_spec (R := 0) hN hleast hsubc hroot hindex hctx hXc hX0 hout'
    rw [hparent, htake]
    simp only [bind, Except.bind, ne_eq, hXP, not_false_eq_true, if_true, hrep, not_true_eq_false, if_false]
    have hnil' : (plug c (Trie.removeRoot chain l r)).isNil = true ↔ True ∧ c = [] := by
      rw [isNil_plug, hnil]
      simp
    refine ⟨mem', ?_, hsame, ?_, ?_⟩
    · simp only [hnil']
    · rw [hroot', ptr_plug, hnil]
      rfl
    · rw [hnil]
      exact linked_agree (linked_plug.mpr ⟨hctx.setHole hcn, trivial⟩) hagree hsubc
  · have hitems := removeRoot_items (c := c) (X := X) hrem
    have hsub' : ∀ y ∈ (plug c (.node X (R :: ch) l' r')).toList, y ∈ N := fun y hy => hsub y (by
      rw [← mem_items, ← hitems, mem_items]
      exact hy)
    have hnodup' := (nodup_of_items hitems).mpr hnodup
    have h0' : 0 ∉ (plug c (.node X (R :: ch) l' r')).toList := by
      rw [← mem_items, hitems, mem_items]
      exact h0
    have hR0 : R ≠ 0 := fun heq => h0' (mem_plug.mpr (.inr (by simp [Trie.toList, heq])))
    have hRN : R ∈ N := hsub' R (mem_plug.mpr (.inr (by simp [Trie.toList])))
    have hokR : ∀ m : Mem, ok_address { s with mem := m } R = true := fun _ => decide_eq_true (hleast R hRN)
    obtain ⟨mem₂, hrep, hsame₂, hroot₂, hagree₂⟩ := replaceLink_spec (s := { s with mem := mem₁ }) (R := R) hN hleast hsubc
      ((hkeep hwithin₁).trans hroot) ((hwithin₁.index hN hXN).trans hindex) hv.ctx hXc hX0 hout'
    have hv₂ := vacant_agree (hv.setHole hnodup') hagree₂ hsub'
    obtain ⟨mem₃, hadopt, hwithin₃, hlinked⟩ := adopt_spec (s := { s with mem := mem₂ }) hv₂ hN hsub' hleast hnodup' h0'
    rw [hparent, htake]
    have hsome : ¬ (R = 0 ∧ c = []) := fun h => hR0 h.1
    have hnil' : ¬ (plug c (Trie.removeRoot chain l r)).isNil = true := by
      rw [isNil_plug, hrem]
      simp
    rw [if_neg hsome] at hrep
    simp only [bind, Except.bind] at hadopt ⊢
    simp only [ne_eq, hXP, not_false_eq_true, if_true, hrep, hR0, hokR, if_neg hnil']
    refine ⟨mem₃, hadopt, fun x hxH hx => ?_, ?_, ?_⟩
    · rw [hwithin₃ x hx]
      exact (hsame₂ x hxH hx).trans (hwithin₁ x hx)
    · rw [hkeep hwithin₃, hrem, ptr_plug]
      exact hroot₂
    · rw [hrem]
      exact hlinked

/-- a chunk leaves a tree bin -/
theorem InMemory.unlink_large {P : ℕ} (h : InMemory Y s.mem b) (hb : Binned bound (chunksize s.mem) free b)
    (hN : Nodes Y s free) (hP : P ∈ free) (hS : chunksize s.mem P = S) (hlarge : ¬ is_small S = true) :
    ∃ mem', unlink_large_chunk Y s P =
        .ok { s with mem := mem', treemap := if ((b.treebins (treeIndex S)).remove P).isNil then
                                      clearBit s.treemap (treeIndex S) else s.treemap } ∧
      Outside s {treebin_at Y (treeIndex S)} (largeSet (chunksize s.mem) free (treeIndex S)) mem' ∧
      InMemory Y mem' { b with treemap := if ((b.treebins (treeIndex S)).remove P).isNil then
                                   clearBit b.treemap (treeIndex S) else b.treemap,
                               treebins := update b.treebins (treeIndex S) ((b.treebins (treeIndex S)).remove P) } := by
  have hI : treeIndex S < 32 := treeIndex_lt S
  have hmem := hb.tree.all P ⟨hP, by rwa [hS]⟩
  rw [hS] at hmem
  generalize treeIndex S = I at hI hmem ⊢
  have hnodup := hb.tree.nodup I
  have hinN : ∀ q ∈ (b.treebins I).toList, q ∈ largeSet (chunksize s.mem) free I := fun q hq => hb.inTree hq
  have hspaced := hN.spaced (I := I)
  have hleast : ∀ q ∈ largeSet (chunksize s.mem) free I, s.least_addr ≤ q := fun q hq => (hN.inside q hq.1).1
  have hlen := hN.length_le hnodup fun q hq => (hb.inTree hq).1
  have h0 : 0 ∉ (b.treebins I).toList := fun h => (hN.pos 0 (hb.inTree h).1).ne rfl
  have hH : ∀ q ∈ largeSet (chunksize s.mem) free I, ∀ x, q + 16 ≤ x → x < q + 56 → x ≠ treebin_at Y I := by
    rintro q hq x h1 h2 rfl
    have := le_of_large hq
    exact hN.area_state hq.1 ⟨h1, by omega⟩ (state_treebin hI)
  have hlinked := h.tree I hI
  have hroot := h.root I hI
  have hindex := h.index I hI
  generalize hNe : largeSet (chunksize s.mem) free I = N at hinN hspaced hleast hH ⊢
  generalize hTe : b.treebins I = T at hmem hnodup hinN hlen h0 hlinked hroot hindex
  -- it is enough that the links are right afterwards
  have hfinal : ∀ mem' : Mem, (∀ x, x ≠ treebin_at Y I → (∀ q ∈ N, ¬ (q + 16 ≤ x ∧ x < q + 56)) → mem' x = s.mem x) →
      mem' (treebin_at Y I) = ptr (T.remove P) → Linked (link mem') (treebin_at Y I) (T.remove P) →
      Outside s {treebin_at Y I} N mem' ∧
        InMemory Y mem' { b with treemap := if (T.remove P).isNil then clearBit b.treemap I else b.treemap,
                                 treebins := update b.treebins I (T.remove P) } := by
    intro mem' hsame hroot' hlinked'
    rw [← hNe]
    refine h.tree_done hb hN (le_refl free) hI (fun x hxH hx => ?_) hroot' hlinked' fun q hq => ?_
    · rw [hNe] at hx
      exact hsame x hxH fun q hq h' => hx q hq ⟨h'.1, by omega⟩
    · have hqT := ((Trie.mem_remove hnodup).mp hq).1
      have hqN := hinN q hqT
      rw [← hindex q hqT, Heap.index, Heap.index, hsame]
      · rintro heq
        rw [← hNe] at hqN
        have := le_of_large hqN
        exact hN.area_state hqN.1 ⟨by omega, by omega⟩ (heq ▸ state_treebin hI)
      · rintro r hr ⟨h1, h2⟩
        by_cases hqr : q = r
        · omega
        · have := hspaced q hqN r hr hqr
          omega
  obtain ⟨c, t, chain, l, r, rfl, hPt⟩ := exists_plug hmem
  obtain ⟨-, hnode, hapart⟩ := nodup_plug.mp hnodup
  simp only [Trie.toList, List.nodup_cons, List.mem_append, not_or] at hnode
  have hPc : P ∉ (plug c .nil).toList := fun hc => hapart P hc (by
    simp only [Trie.toList, List.mem_cons, List.mem_append]
    tauto)
  have hremove := remove_plug (S := .node t chain l r) hPc
  by_cases hPeq : P = t
  · subst hPeq
    rw [Trie.remove, if_pos rfl] at hremove
    rw [hremove] at hfinal ⊢
    obtain ⟨mem', hop, hsame, hroot', hlinked'⟩ := unlink_node hspaced hinN hleast hlinked hnodup h0 hlen
      (hroot.trans (by rw [ptr_plug]; rfl)) (hindex P hmem) hH
    exact ⟨mem', hop, hfinal mem' hsame hroot' hlinked'⟩
  · have hPchain := hPt.resolve_left hPeq
    rw [Trie.remove, if_neg hPeq, if_pos hPchain] at hremove
    rw [hremove] at hfinal ⊢
    obtain ⟨mem', hop, hwithin, hlinked'⟩ := unlink_chain hspaced hinN hleast hlinked hnodup hPchain
    have hnil : ¬ (plug c (.node t (chain.erase P) l r)).isNil = true := by
      rw [isNil_plug]
      simp
    refine ⟨mem', ?_, hfinal mem' (fun x _ hx => hwithin x hx) ?_ hlinked'⟩
    · rw [hop, if_neg hnil]
    · rw [hwithin _ fun q hq h' => hH q hq _ h'.1 h'.2 rfl, hroot, ptr_plug, ptr_plug]
      rfl

end

/-! ### All bins -/

section
variable {P S : ℕ}

theorem Relinked.refl (Y : Sys) (free : Set ℕ) (s : MState) : Relinked Y free s s := ⟨rfl, fun _ _ _ => rfl⟩

theorem Relinked.dv (h : Relinked Y free s s') : s'.dv = s.dv := by rw [h.same]

theorem Relinked.dvsize (h : Relinked Y free s s') : s'.dvsize = s.dvsize := by rw [h.same]

/-- heads are not links -/
theorem Relinked.chunksize_eq (h : Relinked Y free s s') (hN : Nodes Y s free) (hq : q ∈ free) :
    chunksize s'.mem q = chunksize s.mem q :=
  h.outside.chunksize_same hN (fun _ hx => hx) (le_refl free) hq

theorem relinked_of_outside {sm tm : BinMap} (hout : Outside s A T mem') (hA : ∀ x ∈ A, Y.State x) (hT : T ⊆ free) :
    Relinked Y free s { s with mem := mem', smallmap := sm, treemap := tm } :=
  ⟨rfl, fun x hx hx' => hout x (fun hxA => hx (hA x hxA)) fun q hq => hx' q (hT hq)⟩

/-- an operation on the links -/
theorem HasBins.relinked {b' : Bins} {G : Set ℕ} {sm tm : BinMap} (hN : Nodes Y s free) (hout : Outside s A T mem')
    (hA : ∀ x ∈ A, Y.State x) (hT : T ⊆ free) (hG : G ⊆ free) (hbinned : Binned Y.length (chunksize s.mem) G b')
    (hmem : InMemory Y mem' b') (hsmall : b'.smallmap = sm) (htree : b'.treemap = tm) :
    Relinked Y free s { s with mem := mem', smallmap := sm, treemap := tm } ∧
      InBins Y { s with mem := mem', smallmap := sm, treemap := tm } G :=
  ⟨relinked_of_outside hout hA hT, b', hsmall, htree,
    hbinned.congr fun _ hq => hout.chunksize_same hN hA hT (hG hq), hmem⟩

theorem state_header (hi : i < 32) : ∀ x ∈ headerWords Y i, Y.State x := by
  rintro x ⟨h1, h2⟩
  rw [smallbin_at_eq] at h1 h2
  unfold Sys.State STATE_SIZE
  omega

/-- **A chunk enters its bin.** The checks do not fail. -/
theorem InBins.insert (h : InBins Y s free) (hN : Nodes Y s (insert P free)) (hP : P ∉ free) (hS : chunksize s.mem P = S)
    (h8 : 8 ∣ S) (hle : S ≤ Y.length) :
    ∃ s₁, insert_chunk Y s P S = .ok s₁ ∧ Relinked Y (insert P free) s s₁ ∧ InBins Y s₁ (insert P free) := by
  obtain ⟨b, hsm, htm, hbinned, hmem⟩ := h
  unfold insert_chunk
  by_cases hsmall : is_small S = true
  · obtain ⟨mem', hop, hout, hnew⟩ := hmem.insert_small hsm hbinned hN hP hS hsmall
    rw [if_pos hsmall, hop]
    refine ⟨_, rfl, HasBins.relinked hN hout (state_header (small_index_lt hsmall)) (fun q hq => hq.1) (le_refl _)
      (hbinned.insert_small hP hS h8 hsmall) hnew ?_ htm⟩
    rw [hsm]
  · obtain ⟨mem', hop, hout, hnew⟩ := hmem.insert_large htm hbinned hN hP hS hsmall
    rw [if_neg hsmall, hop]
    refine ⟨_, rfl, HasBins.relinked hN hout (fun x hx => hx ▸ state_treebin (treeIndex_lt S)) (fun q hq => hq.1) (le_refl _)
      (hbinned.insert_large hP hS hle hsmall) hnew hsm ?_⟩
    rw [htm]

/-- **A chunk leaves its bin.** The checks do not fail. -/
theorem InBins.unlink (h : InBins Y s free) (hN : Nodes Y s free) (hP : P ∈ free) (hS : chunksize s.mem P = S) :
    ∃ s₁, unlink_chunk Y s P S = .ok s₁ ∧ Relinked Y free s s₁ ∧ InBins Y s₁ (free \ {P}) := by
  obtain ⟨b, hsm, htm, hbinned, hmem⟩ := h
  unfold unlink_chunk
  by_cases hsmall : is_small S = true
  · obtain ⟨mem', hop, hout, hnew⟩ := hmem.unlink_small hbinned hN hP hS hsmall
    rw [if_pos hsmall, hop]
    refine ⟨_, rfl, HasBins.relinked hN hout (state_header (small_index_lt hsmall)) (fun q hq => hq.1) Set.sdiff_subset
      (hbinned.remove_small hP hS hsmall) hnew ?_ htm⟩
    rw [hsm]
  · obtain ⟨mem', hop, hout, hnew⟩ := hmem.unlink_large hbinned hN hP hS hsmall
    rw [if_neg hsmall, hop]
    refine ⟨_, rfl, HasBins.relinked hN hout (fun x hx => hx ▸ state_treebin (treeIndex_lt S)) (fun q hq => hq.1)
      Set.sdiff_subset (hbinned.remove_large hP hS hsmall) hnew hsm ?_⟩
    rw [htm]

/-- **The first chunk leaves a small bin.** -/
theorem InBins.first (h : InBins Y s free) (hN : Nodes Y s free) (hmark : s.smallmap.getLsbD i = true) :
    ∃ P s₁, link s.mem .fd (smallbin_at Y i) = P ∧ P ∈ free ∧ chunksize s.mem P = small_index2size i ∧
      unlink_first_small_chunk s (smallbin_at Y i) P i = .ok s₁ ∧ Relinked Y free s s₁ ∧ InBins Y s₁ (free \ {P}) := by
  obtain ⟨b, hsm, htm, hbinned, hmem⟩ := h
  have hi : i < 32 := BitVec.lt_of_getLsbD hmark
  obtain ⟨P, mem', hfirst, hP, hsmall, hsize, hop, hout, hnew⟩ := hmem.unlink_first hbinned hN (hsm ▸ hmark)
  have hremove := hbinned.remove_small hP rfl hsmall
  rw [hsize, small_index_size] at hremove
  refine ⟨P, _, hfirst, hP, hsize, hop, HasBins.relinked hN hout (state_header hi) (fun q hq => hq.1) Set.sdiff_subset
    hremove hnew ?_ htm⟩
  rw [hsm]

/-- what is not a link of the chunks, nor one of their heads, may change -/
theorem HasBins.congr (h : HasBins Y s free b) (hN : Nodes Y s free) (hsmall : s'.smallmap = s.smallmap)
    (htree : s'.treemap = s.treemap) (hsize : ∀ q ∈ free, chunksize s'.mem q = chunksize s.mem q)
    (harea : ∀ q ∈ free, ∀ x, Area (chunksize s.mem) q x → s'.mem x = s.mem x)
    (hstate : ∀ x, Y.State x → s'.mem x = s.mem x) : HasBins Y s' free b := by
  obtain ⟨hsm, htm, hbinned, hmem⟩ := h
  have hlink : ∀ q ∈ free, ∀ f, offset f + 8 ≤ chunksize s.mem q → link s'.mem f q = link s.mem f q :=
    fun q hq f hf => harea q hq _ (area_link hf)
  have hlarge : ∀ j, ∀ q ∈ (b.treebins j).toList, q ∈ free ∧ 256 ≤ chunksize s.mem q := fun j q hq => by
    have hq' := hbinned.inTree hq
    exact ⟨hq'.1, le_of_large hq'⟩
  refine ⟨hsm.trans hsmall.symm, htm.trans htree.symm, hbinned.congr hsize, fun j hj hmark => ?_, fun j hj => ?_,
    fun j hj => ?_, fun j hj q hq => ?_⟩
  · have hsame : ∀ z ∈ smallbin_at Y j :: b.smallbins j, ∀ f, offset f + 8 ≤ 32 → link s'.mem f z = link s.mem f z := by
      intro z hz f hf
      rcases List.mem_cons.mp hz with rfl | hz
      · have := offset_lt f
        refine hstate _ ?_
        rw [smallbin_at_eq]
        unfold Sys.State STATE_SIZE
        omega
      · have hz' := (hbinned.inRing hmark hz).1
        exact hlink z hz' f (hf.trans (hN.min z hz'))
    refine (hmem.ring j hj hmark).congr (fun z hz => hsame z hz _ (by decide)) fun z hz => hsame z ?_ _ (by decide)
    simpa [or_comm] using hz
  · rw [hstate _ (state_treebin hj), hmem.root j hj]
  · refine (hmem.tree j hj).congr fun q hq f => hlink q (hlarge j q hq).1 f ?_
    have h1 := (hlarge j q hq).2
    have h2 := offset_lt f
    omega
  · obtain ⟨h1, h2⟩ := hlarge j q hq
    have harea' : Area (chunksize s.mem) q (q + 56) := ⟨by omega, by omega⟩
    rw [Heap.index, harea q h1 _ harea']
    exact hmem.index j hj q hq

theorem InBins.congr (h : InBins Y s free) (hN : Nodes Y s free) (hsmall : s'.smallmap = s.smallmap)
    (htree : s'.treemap = s.treemap) (hsize : ∀ q ∈ free, chunksize s'.mem q = chunksize s.mem q)
    (harea : ∀ q ∈ free, ∀ x, Area (chunksize s.mem) q x → s'.mem x = s.mem x)
    (hstate : ∀ x, Y.State x → s'.mem x = s.mem x) : InBins Y s' free :=
  h.imp fun _ hb => hb.congr hN hsmall htree hsize harea hstate

theorem InBins.of_same (h : InBins Y s free) (hmem : s'.mem = s.mem) (hsmall : s'.smallmap = s.smallmap)
    (htree : s'.treemap = s.treemap) : InBins Y s' free := by
  obtain ⟨b, hb⟩ := h
  exact ⟨b, hb.smallmap.trans hsmall.symm, hb.treemap.trans htree.symm, hmem ▸ hb.binned, hmem ▸ hb.memory⟩

theorem initBinsLoop_of_not (n : ℕ) (h : ∀ j < n, x ≠ smallbin_at Y j + 16 ∧ x ≠ smallbin_at Y j + 24) :
    initBinsLoop Y mem n x = mem x := by
  induction n with
  | zero => rfl
  | succ n ih =>
    obtain ⟨h1, h2⟩ := h n (Nat.lt_succ_self n)
    rw [initBinsLoop, set_link_of_ne h1, set_link_of_ne h2, ih fun j hj => h j (Nat.lt_succ_of_lt hj)]

theorem init_bins_tree : init_bins Y mem (treebin_at Y i) = mem (treebin_at Y i) := by
  refine initBinsLoop_of_not 32 fun j hj => ?_
  rw [smallbin_at_eq]
  unfold treebin_at
  omega

/-- no chunk is in a bin -/
theorem inBins_empty (hsmall : s.smallmap = 0) (htree : s.treemap = 0) (hroot : ∀ i < 32, s.mem (treebin_at Y i) = 0) :
    InBins Y s ∅ := by
  refine ⟨.empty, hsmall.symm, htree.symm, binned_empty,
    ⟨fun j _ hmark => ?_, hroot, fun _ _ => trivial, fun j _ q hq => ?_⟩⟩
  · simp [Bins.empty] at hmark
  · cases hq

end

end

end SandiaShmem.Heap
