/-
How many shared transmit contexts a PE takes with `OFI_STX_AUTO` (`shmem_transport_startup` in `src/transport_ofi.c`).

The contexts of the provider are to be divided evenly among the PEs of a node. Each PE computes its own share, and the
remainder goes to the PEs for which `node_pe % num_on_node` is below it. `node_pe` is the rank in the job
(`my_pe % num_pes`), not the rank on the node.

- `share_spread`: the shares of a node are at least 1 and differ by at most 1.
- `partition_iff`: they add up to the number of contexts exactly if as many PEs are below the remainder as it says, and
  the feature is not disabled.
- `partition_every_cnt_iff`: they do so for every number of contexts if no two PEs of the node have the same rank modulo
  the number of PEs on the node.
-/
import Mathlib.Tactic
import Mathlib.Algebra.BigOperators.Ring.Finset

namespace SandiaShmem.Transport.StxAuto

/-! ## Model -/

/-- a job, and the node each PE is on -/
structure Job where
  num_pes : ℕ
  node : ℕ → ℕ

namespace Job
variable (J : Job)

/-- the PEs of a node -/
def pesOn (v : ℕ) : Finset ℕ := (Finset.range J.num_pes).filter fun p => J.node p = v

/-- `shmem_runtime_get_node_size` -/
def nodeSize (my_pe : ℕ) : ℕ := (J.pesOn (J.node my_pe)).card

end Job

/-- how the startup fails -/
inductive StartupError where
  /-- "Invalid number of TX contexts (%ld)" -/
  | invalidCount (ofi_tx_ctx_cnt : ℕ)
  /-- "Not enough TX contexts (%d)" -/
  | notEnough (num_on_node : ℕ)
deriving DecidableEq, Repr

/-- the part of `shmem_transport_startup` that sets `shmem_transport_ofi_stx_max`; `stx_max` is what it was before. The
branch behind the second error, which would take 1, is not reached. -/
def startupStxMax (J : Job) (OFI_STX_AUTO : Bool) (stx_max ofi_tx_ctx_cnt my_pe : ℕ) : Except StartupError ℕ :=
  if OFI_STX_AUTO ∧ stx_max = 0 then .ok stx_max
  else if OFI_STX_AUTO then
    let num_on_node := J.nodeSize my_pe
    if ofi_tx_ctx_cnt ≤ 0 then .error (.invalidCount ofi_tx_ctx_cnt)
    else
      let remainder := ofi_tx_ctx_cnt % num_on_node
      let node_pe := my_pe % J.num_pes
      let stx_max := ofi_tx_ctx_cnt / num_on_node +
        if remainder > 0 ∧ node_pe % num_on_node < remainder then 1 else 0
      if stx_max ≤ 0 then .error (.notEnough num_on_node) else .ok stx_max
  else .ok stx_max

/-! ## The shares of a node -/

/-- the PEs that take one of the remainder -/
def takers (s : Finset ℕ) (r : ℕ) : Finset ℕ := s.filter fun p => p % s.card < r

/-- the number of contexts of a PE of the node -/
def share (s : Finset ℕ) (cnt p : ℕ) : ℕ := cnt / s.card + if p % s.card < cnt % s.card then 1 else 0

theorem startupStxMax_eq (J : Job) {v p cnt stx_max : ℕ} (hmax : stx_max ≠ 0) (hp : p ∈ J.pesOn v)
    (hcnt : (J.pesOn v).card ≤ cnt) : startupStxMax J true stx_max cnt p = .ok (share (J.pesOn v) cnt p) := by
  obtain ⟨hlt, rfl⟩ : p < J.num_pes ∧ J.node p = v := by simpa [Job.pesOn] using hp
  have hpos : 0 < (J.pesOn (J.node p)).card := Finset.card_pos.mpr ⟨p, hp⟩
  have hdiv : 0 < cnt / (J.pesOn (J.node p)).card := Nat.div_pos hcnt hpos
  have hif : (cnt % (J.pesOn (J.node p)).card > 0 ∧
      p % J.num_pes % (J.pesOn (J.node p)).card < cnt % (J.pesOn (J.node p)).card) ↔
      p % (J.pesOn (J.node p)).card < cnt % (J.pesOn (J.node p)).card := by
    rw [Nat.mod_eq_of_lt hlt]
    omega
  simp only [startupStxMax, Job.nodeSize, hmax, hif, and_false, if_true, if_false]
  rw [if_neg (by omega), if_neg (by omega), share]

/-- the shares are as even as they can be -/
theorem share_spread {s : Finset ℕ} {cnt : ℕ} (hne : s.Nonempty) (hcnt : s.card ≤ cnt) (p q : ℕ) :
    1 ≤ share s cnt p ∧ share s cnt p ≤ share s cnt q + 1 := by
  have hdiv : 0 < cnt / s.card := Nat.div_pos hcnt (Finset.card_pos.mpr hne)
  unfold share
  split_ifs <;> omega

theorem sum_share (s : Finset ℕ) (cnt : ℕ) :
    ∑ p ∈ s, share s cnt p = s.card * (cnt / s.card) + (takers s (cnt % s.card)).card := by
  unfold share takers
  rw [Finset.sum_add_distrib, Finset.sum_const, smul_eq_mul, Finset.card_filter]

/-! ## When they add up -/

/-- the PEs of a node take exactly the contexts there are, evenly -/
def Partitioned (J : Job) (v stx_max cnt : ℕ) : Prop :=
  ∃ share : ℕ → ℕ, (∀ p ∈ J.pesOn v, startupStxMax J true stx_max cnt p = .ok (share p)) ∧
    ∑ p ∈ J.pesOn v, share p = cnt ∧ (∀ p ∈ J.pesOn v, ∀ q ∈ J.pesOn v, share p ≤ share q + 1) ∧
    ∀ p ∈ J.pesOn v, 1 ≤ share p

/-- an `stx_max` of 0 before disables the feature -/
theorem partition_iff (J : Job) {v stx_max cnt : ℕ} (hne : (J.pesOn v).Nonempty) (hcnt : (J.pesOn v).card ≤ cnt) :
    Partitioned J v stx_max cnt ↔
      stx_max ≠ 0 ∧ (takers (J.pesOn v) (cnt % (J.pesOn v).card)).card = cnt % (J.pesOn v).card := by
  have hsum := sum_share (J.pesOn v) cnt
  have hdiv := Nat.div_add_mod cnt (J.pesOn v).card
  constructor
  · rintro ⟨share', hshare, htotal, -, hpos⟩
    have hmax : stx_max ≠ 0 := by
      rintro rfl
      obtain ⟨p, hp⟩ := hne
      have hzero : startupStxMax J true 0 cnt p = .ok 0 := if_pos ⟨rfl, rfl⟩
      have := hpos p hp
      have := Except.ok.inj (hzero.symm.trans (hshare p hp))
      omega
    refine ⟨hmax, ?_⟩
    have heq : ∀ p ∈ J.pesOn v, share' p = share (J.pesOn v) cnt p := by
      intro p hp
      have h := hshare p hp
      rw [startupStxMax_eq J hmax hp hcnt] at h
      exact (Except.ok.inj h).symm
    rw [Finset.sum_congr rfl heq, hsum] at htotal
    omega
  · rintro ⟨hmax, htakers⟩
    refine ⟨share (J.pesOn v) cnt, fun p hp => startupStxMax_eq J hmax hp hcnt, by omega, ?_, ?_⟩
    · exact fun p _ q _ => (share_spread hne hcnt p q).2
    · exact fun p _ => (share_spread hne hcnt p p).1

theorem card_takers_succ (s : Finset ℕ) (r : ℕ) :
    (takers s (r + 1)).card = (takers s r).card + (s.filter fun x => x % s.card = r).card := by
  have hsplit : takers s (r + 1) = takers s r ∪ s.filter fun x => x % s.card = r := by
    rw [takers, takers, ← Finset.filter_or]
    exact Finset.filter_congr fun x _ => Nat.lt_succ_iff_lt_or_eq
  rw [hsplit]
  apply Finset.card_union_of_disjoint
  rw [takers, Finset.disjoint_filter]
  intro x _ h
  omega

/-- one rank of each remainder -/
theorem takers_card_iff {s : Finset ℕ} (hne : s.Nonempty) :
    (∀ r < s.card, (takers s r).card = r) ↔ Set.InjOn (· % s.card) (s : Set ℕ) := by
  have hpos : 0 < s.card := Finset.card_pos.mpr hne
  constructor
  · intro hall p hp q hq hpq
    -- all ranks up to a remainder are one more than those below it
    have hall' : ∀ r ≤ s.card, (takers s r).card = r := by
      intro r hr
      rcases Nat.lt_or_eq_of_le hr with hlt | rfl
      · exact hall r hlt
      · rw [takers, Finset.filter_true_of_mem fun p _ => Nat.mod_lt p hpos]
    have hlt : p % s.card < s.card := Nat.mod_lt p hpos
    have hcard := card_takers_succ s (p % s.card)
    rw [hall' _ hlt, hall' _ hlt.le] at hcard
    obtain ⟨a, ha⟩ := Finset.card_eq_one.mp (show (s.filter fun x => x % s.card = p % s.card).card = 1 by omega)
    have hpa : p = a := Finset.mem_singleton.mp (ha ▸ Finset.mem_filter.mpr ⟨hp, rfl⟩)
    have hqa : q = a := Finset.mem_singleton.mp (ha ▸ Finset.mem_filter.mpr ⟨hq, hpq.symm⟩)
    rw [hpa, hqa]
  · intro hinj r hr
    -- every remainder occurs, as there are as many PEs as remainders
    have himage : s.image (· % s.card) = Finset.range s.card := by
      refine Finset.eq_of_subset_of_card_le ?_ ?_
      · intro x hx
        obtain ⟨p, -, rfl⟩ := Finset.mem_image.mp hx
        exact Finset.mem_range.mpr (Nat.mod_lt p hpos)
      · rw [Finset.card_range, Finset.card_image_of_injOn hinj]
    have htakers : (takers s r).image (· % s.card) = Finset.range r := by
      ext x
      simp only [takers, Finset.mem_image, Finset.mem_filter, Finset.mem_range]
      constructor
      · rintro ⟨p, ⟨-, h⟩, rfl⟩
        exact h
      · intro hx
        obtain ⟨p, hp, rfl⟩ := Finset.mem_image.mp (himage ▸ Finset.mem_range.mpr (hx.trans hr))
        exact ⟨p, ⟨hp, hx⟩, rfl⟩
    have hsub : Set.InjOn (· % s.card) (takers s r : Set ℕ) :=
      hinj.mono fun p hp => Finset.mem_of_mem_filter p hp
    rw [← Finset.card_image_of_injOn hsub, htakers, Finset.card_range]

/-- the placements for which the division is right whatever the provider has -/
theorem partition_every_cnt_iff (J : Job) {v stx_max : ℕ} (hne : (J.pesOn v).Nonempty) (hmax : stx_max ≠ 0) :
    (∀ cnt, (J.pesOn v).card ≤ cnt → Partitioned J v stx_max cnt) ↔
      Set.InjOn (· % (J.pesOn v).card) (J.pesOn v : Set ℕ) := by
  have hpos : 0 < (J.pesOn v).card := Finset.card_pos.mpr hne
  rw [← takers_card_iff hne]
  constructor
  · intro hall r hr
    have h := ((partition_iff J hne (Nat.le_add_right _ r)).mp (hall _ (Nat.le_add_right _ r))).2
    rwa [Nat.add_mod_left, Nat.mod_eq_of_lt hr] at h
  · intro htakers cnt hcnt
    exact (partition_iff J hne hcnt).mpr ⟨hmax, htakers _ (Nat.mod_lt cnt hpos)⟩

/-- 4 PEs, the even ones on one node and the odd ones on the other -/
def cyclic : Job := ⟨4, fun p => p % 2⟩

/-- 4 PEs, two in a row on each node -/
def block : Job := ⟨4, fun p => p / 2⟩

/-- of 3 contexts the PEs 2 and 3 take all -/
theorem partition_iff_block : Partitioned block 1 1 3 :=
  (partition_iff block ⟨2, by decide⟩ (by decide)).mpr (by decide)

/-- of 3 contexts the PEs 0 and 2 take 4 -/
theorem cyclic_overcommits : ¬ Partitioned cyclic 0 1 3 := by
  rintro ⟨share, hshare, htotal, -⟩
  have h0 : startupStxMax cyclic true 1 3 0 = .ok 2 := by decide
  have h2 : startupStxMax cyclic true 1 3 2 = .ok 2 := by decide
  have hpes : cyclic.pesOn 0 = {0, 2} := by decide
  rw [hpes] at htotal hshare
  rw [Finset.sum_pair (by decide)] at htotal
  have hs0 := Except.ok.inj (h0.symm.trans (hshare 0 (by decide)))
  have hs2 := Except.ok.inj (h2.symm.trans (hshare 2 (by decide)))
  omega

end SandiaShmem.Transport.StxAuto
