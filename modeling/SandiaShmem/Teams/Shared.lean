/-
The triplet of SHMEM_TEAM_SHARED (`shmem_internal_team_init` in `src/shmem_team.c`).

A PE looks for the PEs whose heap it can reach by a pointer, in the order of their numbers. The first two that it finds
are the start and the stride, and the number of all of them is the size, as long as each is a multiple of the stride away
from the start. If one is not, or if it is told to, the PE is alone in its team. The assertion about the size, which stops
the job, is left out.

- `searchPeers_two`: what the search finds.
- `sharedTriplet_search`, `sharedTriplet_cases`: the ways in which the triplet comes about.
- `sharedTriplet_of_zero_one`: what it is when PEs 0 and 1 are found.
- `sharedTriplet_lt`: the PEs of the triplet are PEs of the job.
- `denotes_iff`: the sets of PEs for which the search is right.
-/
import Mathlib.Tactic

namespace SandiaShmem.Teams

/-! ## Model -/

/-- what the search has found; a negative start or stride has not been set -/
structure Triplet where
  start : ℤ
  stride : ℤ
  size : ℤ
deriving DecidableEq, Repr

/-- `check_for_linear_stride`; `none` stands for -1 -/
def checkForLinearStride (pe : ℤ) (t : Triplet) : Option Triplet :=
  if t.start < 0 then some { t with start := pe, size := t.size + 1 }
  else if t.stride < 0 then some { t with stride := pe - t.start, size := t.size + 1 }
  else if (pe - t.start).tmod t.stride ≠ 0 then none
  else some { t with size := t.size + 1 }

/-- `shmem_internal_ptr` of an address of the own heap is not NULL -/
def internalPtr (USE_XPMEM : Bool) (shr_rank : ℕ → ℤ) (my_pe pe : ℕ) : Bool :=
  if pe = my_pe then true else if shr_rank pe ≠ -1 then USE_XPMEM else false

/-- the search over the PEs; `ptr` are those that can be reached -/
def searchPeers (ptr : ℕ → Bool) (my_pe : ℕ) : List ℕ → Triplet → Triplet
  | [], t => t
  | pe :: pes, t =>
    if ptr pe then
      match checkForLinearStride pe t with
      | none => ⟨my_pe, 1, 1⟩
      | some t' => searchPeers ptr my_pe pes t'
    else searchPeers ptr my_pe pes t

/-- start, stride and size of SHMEM_TEAM_SHARED on the PE my_pe -/
def sharedTriplet (TEAM_SHARED_ONLY_SELF : Bool) (ptr : ℕ → Bool) (num_pes my_pe : ℕ) : Triplet :=
  if TEAM_SHARED_ONLY_SELF then ⟨my_pe, 1, 1⟩
  else
    let t := searchPeers ptr my_pe (List.range num_pes) ⟨-1, -1, 0⟩
    { t with stride := if t.stride = -1 then 1 else t.stride }

/-! ## The search -/

/-- the PEs that can be reached -/
def reached (ptr : ℕ → Bool) (num_pes : ℕ) : List ℕ := (List.range num_pes).filter ptr

section
variable {ptr : ℕ → Bool} {my_pe num_pes : ℕ}

/-- the others do not matter -/
theorem searchPeers_filter (pes : List ℕ) (t : Triplet) :
    searchPeers ptr my_pe pes t = searchPeers (fun _ => true) my_pe (pes.filter ptr) t := by
  induction pes generalizing t with
  | nil => rfl
  | cons pe pes ih =>
    cases hp : ptr pe with
    | true =>
      rw [List.filter_cons_of_pos hp, searchPeers, searchPeers, if_pos hp, if_pos rfl]
      cases checkForLinearStride pe t with
      | none => rfl
      | some t' => exact ih t'
    | false =>
      rw [List.filter_cons_of_neg (by simp [hp]), searchPeers, if_neg (by simp [hp])]
      exact ih t

/-- a search with a start and a stride -/
theorem searchPeers_set {a d n : ℤ} (ha : 0 ≤ a) (hd : 0 ≤ d) (L : List ℕ) :
    searchPeers (fun _ => true) my_pe L ⟨a, d, n⟩ =
      if ∀ x ∈ L, d ∣ (x : ℤ) - a then ⟨a, d, n + L.length⟩ else ⟨my_pe, 1, 1⟩ := by
  induction L generalizing n with
  | nil => simp [searchPeers]
  | cons x L ih =>
    rw [searchPeers, if_pos rfl, checkForLinearStride, if_neg (by simpa using ha), if_neg (by simpa using hd)]
    by_cases hx : d ∣ (x : ℤ) - a
    · rw [if_neg (not_not.mpr (Int.tmod_eq_zero_of_dvd hx))]
      simp only [ih, List.forall_mem_cons, hx, true_and, List.length_cons, Nat.cast_add, Nat.cast_one, add_assoc,
        add_comm (1 : ℤ)]
    · rw [if_pos fun h => hx (Int.dvd_of_tmod_eq_zero h), if_neg fun h => hx (h x List.mem_cons_self)]

variable (my_pe) in
/-- a search that finds two PEs and more -/
theorem searchPeers_two {a b : ℕ} (hab : a < b) (L : List ℕ) :
    searchPeers (fun _ => true) my_pe (a :: b :: L) ⟨-1, -1, 0⟩ =
      if ∀ x ∈ L, (b : ℤ) - a ∣ (x : ℤ) - a then ⟨a, b - a, (L.length + 2 : ℕ)⟩ else ⟨my_pe, 1, 1⟩ := by
  have hfirst : checkForLinearStride a ⟨-1, -1, 0⟩ = some ⟨a, -1, 1⟩ := rfl
  have hsecond : checkForLinearStride b ⟨a, -1, 1⟩ = some ⟨a, b - a, 2⟩ := by
    rw [checkForLinearStride, if_neg (by simp)]
    rfl
  rw [searchPeers, if_pos rfl, hfirst]
  simp only
  rw [searchPeers, if_pos rfl, hsecond]
  simp only
  rw [searchPeers_set (by omega) (by omega)]
  simp only [Nat.cast_add, Nat.cast_ofNat, add_comm (2 : ℤ)]

variable (ptr num_pes) in
theorem reached_sorted : (reached ptr num_pes).Pairwise (· < ·) := List.pairwise_lt_range.filter _

theorem mem_reached {q : ℕ} : q ∈ reached ptr num_pes ↔ q < num_pes ∧ ptr q = true := by
  rw [reached, List.mem_filter, List.mem_range]

/-- the triplet by the search among the PEs that can be reached -/
theorem sharedTriplet_of_search {t : Triplet}
    (h : searchPeers (fun _ => true) my_pe (reached ptr num_pes) ⟨-1, -1, 0⟩ = t) :
    sharedTriplet false ptr num_pes my_pe = { t with stride := if t.stride = -1 then 1 else t.stride } := by
  rw [reached, ← searchPeers_filter] at h
  rw [← h]
  rfl

/-- the triplet by the PEs that can be reached: the PE itself, PEs with a stride, or no common stride -/
theorem sharedTriplet_search (hmy : my_pe < num_pes) (hown : ptr my_pe = true) :
    (reached ptr num_pes = [my_pe] ∧ sharedTriplet false ptr num_pes my_pe = ⟨my_pe, 1, 1⟩) ∨
      ∃ a b L, reached ptr num_pes = a :: b :: L ∧ a < b ∧
        sharedTriplet false ptr num_pes my_pe =
          if ∀ x ∈ L, (b : ℤ) - a ∣ (x : ℤ) - a then ⟨a, b - a, (L.length + 2 : ℕ)⟩ else ⟨my_pe, 1, 1⟩ := by
  have hmem : my_pe ∈ reached ptr num_pes := mem_reached.mpr ⟨hmy, hown⟩
  have hsorted := reached_sorted ptr num_pes
  match hL : reached ptr num_pes with
  | [] =>
    rw [hL] at hmem
    exact absurd hmem List.not_mem_nil
  | [a] =>
    rw [hL] at hmem
    obtain rfl := List.mem_singleton.mp hmem
    exact .inl ⟨rfl, sharedTriplet_of_search (by rw [hL])⟩
  | a :: b :: L =>
    rw [hL] at hsorted
    have hab : a < b := List.rel_of_pairwise_cons hsorted List.mem_cons_self
    have htwo := searchPeers_two my_pe hab L
    refine .inr ⟨a, b, L, rfl, hab, ?_⟩
    by_cases hdvd : ∀ x ∈ L, (b : ℤ) - a ∣ (x : ℤ) - a
    · rw [if_pos hdvd, ← hL] at htwo
      rw [if_pos hdvd]
      exact (sharedTriplet_of_search htwo).trans (congrArg (Triplet.mk a · _) (if_neg (by simp only; omega)))
    · rw [if_neg hdvd, ← hL] at htwo
      rw [if_neg hdvd]
      exact sharedTriplet_of_search htwo

/-- the PE is alone, or the triplet is that of PEs with a stride -/
theorem sharedTriplet_cases (TEAM_SHARED_ONLY_SELF : Bool) (hmy : my_pe < num_pes) (hown : ptr my_pe = true) :
    sharedTriplet TEAM_SHARED_ONLY_SELF ptr num_pes my_pe = ⟨my_pe, 1, 1⟩ ∨
      ∃ a b L, TEAM_SHARED_ONLY_SELF = false ∧ reached ptr num_pes = a :: b :: L ∧ a < b ∧
        (∀ x ∈ L, (b : ℤ) - a ∣ (x : ℤ) - a) ∧
        sharedTriplet TEAM_SHARED_ONLY_SELF ptr num_pes my_pe = ⟨a, b - a, (L.length + 2 : ℕ)⟩ := by
  cases TEAM_SHARED_ONLY_SELF with
  | true => exact .inl rfl
  | false =>
    rcases sharedTriplet_search hmy hown with ⟨-, h⟩ | ⟨a, b, L, hL, hab, h⟩
    · exact .inl h
    · split_ifs at h with hdvd
      · exact .inr ⟨a, b, L, rfl, hL, hab, hdvd, h⟩
      · exact .inl h

/-- an ascending list with 0 and 1 in it begins with them -/
theorem eq_zero_one_of_mem {a b : ℕ} {L : List ℕ} (hsorted : (a :: b :: L).Pairwise (· < ·)) (h0 : 0 ∈ a :: b :: L)
    (h1 : 1 ∈ a :: b :: L) : a = 0 ∧ b = 1 := by
  have hab : ∀ x ∈ b :: L, a < x := fun x hx => List.rel_of_pairwise_cons hsorted hx
  have hbx : ∀ x ∈ L, b < x := fun x hx => List.rel_of_pairwise_cons (List.Pairwise.of_cons hsorted) hx
  have ha : a = 0 := by
    rcases List.mem_cons.mp h0 with h | h
    · exact h.symm
    · exact absurd (hab 0 h) (Nat.not_lt_zero _)
  refine ⟨ha, ?_⟩
  have hb := hab b List.mem_cons_self
  rcases List.mem_cons.mp h1 with h | h
  · omega
  · rcases List.mem_cons.mp h with h | h
    · exact h.symm
    · have := hbx 1 h
      omega

/-- whoever finds PEs 0 and 1 takes all that it finds -/
theorem sharedTriplet_of_zero_one (hn : 1 < num_pes) (hzero : ptr 0 = true) (hone : ptr 1 = true) :
    sharedTriplet false ptr num_pes my_pe = ⟨0, 1, (reached ptr num_pes).length⟩ := by
  have h0 : 0 ∈ reached ptr num_pes := mem_reached.mpr ⟨by omega, hzero⟩
  have h1 : 1 ∈ reached ptr num_pes := mem_reached.mpr ⟨hn, hone⟩
  have hsorted := reached_sorted ptr num_pes
  match hL : reached ptr num_pes with
  | [] => exact absurd (hL ▸ h0) List.not_mem_nil
  | [a] =>
    rw [hL, List.mem_singleton] at h0 h1
    omega
  | a :: b :: L =>
    rw [hL] at hsorted h0 h1
    obtain ⟨rfl, rfl⟩ := eq_zero_one_of_mem hsorted h0 h1
    have htwo := searchPeers_two my_pe Nat.one_pos L
    rw [if_pos (fun x _ => by simp), ← hL] at htwo
    exact sharedTriplet_of_search htwo

/-- ascending numbers that are multiples of d away from a are at least so far away -/
theorem exists_ge_of_sorted {a d : ℕ} {L : List ℕ} (hsorted : (a :: L).Pairwise (· < ·))
    (hdvd : ∀ x ∈ L, (d : ℤ) ∣ (x : ℤ) - a) {i : ℕ} (hi : i < L.length) : ∃ x ∈ L, a + d * (i + 1) ≤ x := by
  induction L generalizing a i with
  | nil => exact absurd hi (Nat.not_lt_zero _)
  | cons b L ih =>
    have hab : a < b := List.rel_of_pairwise_cons hsorted List.mem_cons_self
    have hle : a + d ≤ b := by
      have := Int.le_of_dvd (by omega) (hdvd b List.mem_cons_self)
      omega
    cases i with
    | zero => exact ⟨b, List.mem_cons_self, by omega⟩
    | succ i =>
      have hdvd' : ∀ x ∈ L, (d : ℤ) ∣ (x : ℤ) - b := by
        intro x hx
        have h := Int.dvd_sub (hdvd x (List.mem_cons_of_mem b hx)) (hdvd b List.mem_cons_self)
        rwa [sub_sub_sub_cancel_right] at h
      obtain ⟨x, hx, hge⟩ := ih (List.Pairwise.of_cons hsorted) hdvd' (Nat.lt_of_succ_lt_succ hi)
      refine ⟨x, List.mem_cons_of_mem b hx, ?_⟩
      calc a + d * (i + 1 + 1)
        _ = a + d + d * (i + 1) := by ring
        _ ≤ b + d * (i + 1) := Nat.add_le_add_right hle _
        _ ≤ x := hge

/-- **The PEs of the triplet** are PEs of the job, and there is at least one. -/
theorem sharedTriplet_lt (TEAM_SHARED_ONLY_SELF : Bool) (hmy : my_pe < num_pes) (hown : ptr my_pe = true) :
    ∃ start stride size : ℕ, sharedTriplet TEAM_SHARED_ONLY_SELF ptr num_pes my_pe = ⟨start, stride, size⟩ ∧
      0 < size ∧ 1 ≤ stride ∧ ∀ i < size, start + stride * i < num_pes := by
  rcases sharedTriplet_cases TEAM_SHARED_ONLY_SELF hmy hown with h | ⟨a, b, L, -, hL, hab, hdvd, h⟩
  · refine ⟨my_pe, 1, 1, h, Nat.one_pos, le_refl _, fun i hi => ?_⟩
    obtain rfl := Nat.lt_one_iff.mp hi
    exact hmy
  · have hd : ((b - a : ℕ) : ℤ) = (b : ℤ) - a := by omega
    rw [← hd] at h hdvd
    refine ⟨a, b - a, L.length + 2, h, by omega, by omega, fun i hi => ?_⟩
    have hlt : ∀ x ∈ reached ptr num_pes, x < num_pes := fun x hx => (mem_reached.mp hx).1
    have hsorted := reached_sorted ptr num_pes
    rw [hL] at hlt hsorted
    cases i with
    | zero => exact hlt a List.mem_cons_self
    | succ i =>
      have hall : ∀ x ∈ b :: L, ((b - a : ℕ) : ℤ) ∣ (x : ℤ) - a := by
        refine List.forall_mem_cons.mpr ⟨?_, hdvd⟩
        rw [hd]
      obtain ⟨x, hx, hge⟩ := exists_ge_of_sorted hsorted hall (i := i) (by simpa using hi)
      exact hge.trans_lt (hlt x (List.mem_cons_of_mem a hx))

/-! ## The sets that are found -/

/-- the PEs of a triplet -/
def Triplet.pes (t : Triplet) : Set ℤ := {x | ∃ i : ℕ, i < t.size ∧ x = t.start + t.stride * i}

variable (ptr num_pes) in
/-- the PEs that can be reached have a common stride -/
def Progression : Prop := ∃ a d n : ℕ, 1 ≤ d ∧ ∀ q, q ∈ reached ptr num_pes ↔ ∃ i < n, q = a + d * i

/-- the triplet stands for the PEs that can be reached if they have a common stride, and for the PE alone if not -/
structure Denotes (ptr : ℕ → Bool) (num_pes my_pe : ℕ) : Prop where
  progression : Progression ptr num_pes → ∀ x : ℤ,
    x ∈ (sharedTriplet false ptr num_pes my_pe).pes ↔ ∃ q ∈ reached ptr num_pes, x = q
  irregular : ¬ Progression ptr num_pes → sharedTriplet false ptr num_pes my_pe = ⟨my_pe, 1, 1⟩
  subset : ∀ x ∈ (sharedTriplet false ptr num_pes my_pe).pes, ∃ q ∈ reached ptr num_pes, x = q

variable (ptr num_pes) in
/-- one of the PEs is not a multiple of the first gap away from the first PE -/
def Uneven : Prop := ∃ a b L, reached ptr num_pes = a :: b :: L ∧ ∃ x ∈ L, ¬ (b : ℤ) - a ∣ (x : ℤ) - a

/-- the PEs of a progression, in order -/
theorem reached_of_progression {a d n : ℕ} (hd : 1 ≤ d) (h : ∀ q, q ∈ reached ptr num_pes ↔ ∃ i < n, q = a + d * i) :
    reached ptr num_pes = (List.range n).map fun i => a + d * i := by
  have hsorted : ((List.range n).map fun i => a + d * i).Pairwise (· < ·) := by
    refine List.pairwise_map.mpr (List.pairwise_lt_range.imp fun {i j} hij => ?_)
    have := Nat.mul_lt_mul_of_pos_left hij hd
    omega
  refine (reached_sorted ptr num_pes).eq_of_mem_iff hsorted fun q => ?_
  rw [h q, List.mem_map]
  constructor
  · rintro ⟨i, hi, rfl⟩
    exact ⟨i, List.mem_range.mpr hi, rfl⟩
  · rintro ⟨i, hi, rfl⟩
    exact ⟨i, List.mem_range.mp hi, rfl⟩

/-- a single PE is a progression -/
theorem progression_of_singleton (h : reached ptr num_pes = [my_pe]) : Progression ptr num_pes := by
  refine ⟨my_pe, 1, 1, le_rfl, fun q => ?_⟩
  rw [h, List.mem_singleton]
  constructor
  · rintro rfl
    exact ⟨0, Nat.one_pos, by omega⟩
  · rintro ⟨i, hi, rfl⟩
    omega

/-- in a progression of two PEs and more the first two give the start and the stride -/
theorem progression_head {a d n b c : ℕ} {L : List ℕ} (hL : reached ptr num_pes = b :: c :: L)
    (h : reached ptr num_pes = (List.range n).map fun i => a + d * i) : b = a ∧ c = a + d ∧ n = L.length + 2 := by
  rw [hL] at h
  have hn := congrArg List.length h
  rw [List.length_map, List.length_range, List.length_cons, List.length_cons] at hn
  subst hn
  have h0 := congrArg (·[0]?) h
  have h1 := congrArg (·[1]?) h
  simp only [List.getElem?_cons_zero, List.getElem?_cons_succ, List.getElem?_map,
    List.getElem?_range (show 0 < L.length + 1 + 1 by omega), List.getElem?_range (show 1 < L.length + 1 + 1 by omega),
    Option.map_some, Option.some.injEq] at h0 h1
  omega

/-- a triplet that is not an irregular one -/
theorem mem_pes_of_progression {a d n : ℕ} (h : reached ptr num_pes = (List.range n).map fun i => a + d * i) (x : ℤ) :
    x ∈ (⟨a, d, n⟩ : Triplet).pes ↔ ∃ q ∈ reached ptr num_pes, x = q := by
  rw [h]
  constructor
  · rintro ⟨i, hi, rfl⟩
    exact ⟨a + d * i, List.mem_map_of_mem (List.mem_range.mpr (Int.ofNat_lt.mp hi)), by push_cast; rfl⟩
  · rintro ⟨q, hq, rfl⟩
    obtain ⟨i, hi, rfl⟩ := List.mem_map.mp hq
    exact ⟨i, Int.ofNat_lt.mpr (List.mem_range.mp hi), by push_cast; rfl⟩

/-- the PE alone -/
theorem mem_pes_alone (x : ℤ) : x ∈ (⟨my_pe, 1, 1⟩ : Triplet).pes ↔ x = my_pe := by
  constructor
  · rintro ⟨i, hi, rfl⟩
    obtain rfl : i = 0 := by simp only at hi; omega
    simp
  · rintro rfl
    exact ⟨0, by simp, by simp⟩

/-- a progression has no uneven PE -/
theorem Progression.even (h : Progression ptr num_pes) : ¬ Uneven ptr num_pes := by
  obtain ⟨a, d, n, hd, h⟩ := h
  have hlist := reached_of_progression hd h
  rintro ⟨b, c, L, hL, x, hx, hdvd⟩
  obtain ⟨rfl, rfl, -⟩ := progression_head hL hlist
  obtain ⟨i, -, rfl⟩ := (h x).mp (by rw [hL]; exact List.mem_cons_of_mem _ (List.mem_cons_of_mem _ hx))
  exact hdvd ⟨i, by push_cast; ring⟩

/-- **The search of a linear stride** is right exactly for the sets that are progressions, and those where a PE is not a
multiple of the first gap away from the first PE: a set with larger gaps that are multiples of the first one is taken for a
progression without gaps. -/
theorem denotes_iff (hmy : my_pe < num_pes) (hown : ptr my_pe = true) :
    Denotes ptr num_pes my_pe ↔ Progression ptr num_pes ∨ Uneven ptr num_pes := by
  have hmem : my_pe ∈ reached ptr num_pes := mem_reached.mpr ⟨hmy, hown⟩
  have halone : ∀ x : ℤ, x ∈ (⟨my_pe, 1, 1⟩ : Triplet).pes → ∃ q ∈ reached ptr num_pes, x = q :=
    fun x hx => ⟨my_pe, hmem, (mem_pes_alone x).mp hx⟩
  constructor
  · intro h
    by_contra hnot
    push Not at hnot
    obtain ⟨hirr, heven⟩ := hnot
    have ht := h.irregular hirr
    rcases sharedTriplet_search hmy hown with ⟨hone, -⟩ | ⟨a, b, L, hL, hab, htriplet⟩
    · exact hirr (progression_of_singleton hone)
    · -- no PE is uneven, so the search has taken all of them
      rw [if_pos fun x hx => by_contra fun hn => heven ⟨a, b, L, hL, x, hx, hn⟩, ht] at htriplet
      have := congrArg Triplet.size htriplet
      simp only at this
      omega
  · rintro (hprog | huneven)
    · have hpes : ∀ x : ℤ, x ∈ (sharedTriplet false ptr num_pes my_pe).pes ↔
          ∃ q ∈ reached ptr num_pes, x = q := by
        intro x
        rcases sharedTriplet_search hmy hown with ⟨hone, ht⟩ | ⟨a, b, L, hL, hab, ht⟩
        · rw [ht, hone, mem_pes_alone]
          simp
        · rw [if_pos fun y hy => by_contra fun hn => hprog.even ⟨a, b, L, hL, y, hy, hn⟩] at ht
          obtain ⟨a', d, n, hd, hmem'⟩ := hprog
          have hlist := reached_of_progression hd hmem'
          obtain ⟨rfl, rfl, rfl⟩ := progression_head hL hlist
          rw [ht, ← mem_pes_of_progression hlist]
          simp only [Nat.cast_add, add_sub_cancel_left]
      exact ⟨fun _ => hpes, fun hirr => absurd hprog hirr, fun x hx => (hpes x).mp hx⟩
    · obtain ⟨a, b, L, hL, x, hx, hdvd⟩ := huneven
      have ht : sharedTriplet false ptr num_pes my_pe = ⟨my_pe, 1, 1⟩ := by
        rcases sharedTriplet_search hmy hown with ⟨-, ht⟩ | ⟨a', b', L', hL', -, ht⟩
        · exact ht
        · rw [hL] at hL'
          obtain ⟨rfl, h'⟩ := List.cons.inj hL'
          obtain ⟨rfl, rfl⟩ := List.cons.inj h'
          rwa [if_neg fun hall => hdvd (hall x hx)] at ht
      refine ⟨fun hprog => absurd ⟨a, b, L, hL, x, hx, hdvd⟩ hprog.even, fun _ => ht, fun y hy => ?_⟩
      rw [ht] at hy
      exact halone y hy

end

/-- PEs 1, 3 and 5 of six -/
theorem denotes_odd : Denotes (fun q => q % 2 == 1) 6 3 :=
  (denotes_iff (by decide) (by decide)).mpr (.inl ⟨1, 2, 3, by decide, fun q => by
    rw [mem_reached]
    constructor
    · rintro ⟨hq, hodd⟩
      exact ⟨q / 2, by omega, by have := beq_iff_eq.mp hodd; omega⟩
    · rintro ⟨i, hi, rfl⟩
      exact ⟨by omega, beq_iff_eq.mpr (by omega)⟩⟩)

/-- of PEs 0, 2 and 6 the search makes PEs 0, 2 and 4 -/
theorem search_skips_gap :
    sharedTriplet false (fun q => q == 0 || q == 2 || q == 6) 7 0 = ⟨0, 2, 3⟩ ∧
      (4 : ℤ) ∈ (sharedTriplet false (fun q => q == 0 || q == 2 || q == 6) 7 0).pes ∧
      ¬ Denotes (fun q => q == 0 || q == 2 || q == 6) 7 0 := by
  have ht : sharedTriplet false (fun q => q == 0 || q == 2 || q == 6) 7 0 = ⟨0, 2, 3⟩ := by decide
  have hfour : (4 : ℤ) ∈ (sharedTriplet false (fun q => q == 0 || q == 2 || q == 6) 7 0).pes := by
    rw [ht]
    exact ⟨2, by decide, by decide⟩
  refine ⟨ht, hfour, fun h => ?_⟩
  obtain ⟨q, hq, heq⟩ := h.subset 4 hfour
  obtain rfl : q = 4 := by exact_mod_cast heq.symm
  exact absurd (mem_reached.mp hq).2 (by decide)

end SandiaShmem.Teams
