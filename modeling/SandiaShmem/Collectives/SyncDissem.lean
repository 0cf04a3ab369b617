/-
The dissemination barrier.

In its i-th round a member adds 1 to slot i of the member 2^i ranks to the right, waits until its own slot i is not zero
and takes 1 off it again. The adds travel freely: a fast member may add for its next call before a slow one has consumed
the add of this call, and adds of two calls may overtake each other. Only the quiet at the end of a call ties a member's
own subtractions to the call.

For a sender r, `D r i` is the set of calls whose add to slot i has arrived, for a receiver `E r i` the set of calls whose
subtraction has.

- `Inv`: a slot is the number of adds that have arrived less the number of subtractions, and who is past a wait got the add.
- `Inv.reached`: who starts round i of a call has everybody within 2^i ranks to its left in that call.
- `Inv.slot_bounds`: a slot is 0, 1 or 2.
- `dissem_reusable`: both for all active sets of up to 2^30 PEs and all schedules.
-/
import Mathlib.Data.Nat.Log
import Mathlib.Data.Finset.Card
import SandiaShmem.Core.CInt
import SandiaShmem.Collectives.Calls

namespace SandiaShmem.Collectives.Dissem

open CInt OneSided OneSided.Machine SandiaShmem.Collectives

/-! ## Model -/

/-- one round of the loop; the rank it sends to is negative only if the sum leaves the `int`s -/
def round (A : ActiveSet) (my_pe i : ℕ) (distance : ℤ) : List Instr :=
  let to_rank := (wrap 32 (A.rank my_pe + distance)).tmod A.PE_size
  [.atomicAdd i 1 (A.pe to_rank.toNat), .waitUntil i .NE 0, .assertLt i 3, .atomicAdd i (-1) my_pe]

/-- the loop: `for (i = 0, distance = 1 ; distance < PE_size ; ++i, distance <<= 1)` -/
def syncDissemLoop (A : ActiveSet) (my_pe : ℕ) : ℕ → ℕ → ℤ → List Instr
  | 0, _, _ => []
  | fuel + 1, i, distance =>
    if distance < A.PE_size then
      round A my_pe i distance ++ syncDissemLoop A my_pe fuel (i + 1) (wrap 32 (distance * 2))
    else []

/-- `shmem_internal_sync_dissem` on the PE my_pe. Up to 2^30 PEs, PE_size turns of the loop are more than enough; with
more, distance goes from 2^30 to −2^31 and then to 0, and the loop has no end. -/
def syncDissem (A : ActiveSet) (my_pe : ℕ) : List Instr :=
  .enter :: syncDissemLoop A my_pe A.PE_size 0 1 ++ [.quiet]

/-! ## Positions -/

/-- the number of rounds -/
def rounds (A : ActiveSet) : ℕ := Nat.clog 2 A.PE_size

/-- the length of the body -/
def len (A : ActiveSet) : ℕ := 2 + 4 * rounds A

theorem rounds_le {A : ActiveSet} (hmax : A.PE_size ≤ 2 ^ 30) : rounds A ≤ 30 := Nat.clog_le_of_le_pow hmax

/-- the distance of a round, and the next one, are `int`s -/
theorem fits_distance {A : ActiveSet} (hmax : A.PE_size ≤ 2 ^ 30) {i : ℕ} (hi : i < rounds A) :
    Fits 32 ((2 : ℤ) ^ i * 2) := by
  have hpow : (2 : ℤ) ^ (i + 1) ≤ 2 ^ 30 := by
    have := rounds_le hmax
    exact pow_le_pow_right₀ (by decide) (by omega)
  rw [pow_succ] at hpow
  have hpos : (0 : ℤ) < 2 ^ i := by positivity
  exact ⟨by omega, by omega⟩

theorem syncDissemLoop_eq {A : ActiveSet} (hmax : A.PE_size ≤ 2 ^ 30) (my_pe fuel i : ℕ) (hf : rounds A ≤ i + fuel) :
    syncDissemLoop A my_pe fuel i (2 ^ i) = (List.range' i (rounds A - i)).flatMap fun i => round A my_pe i (2 ^ i) := by
  induction fuel generalizing i with
  | zero =>
    rw [show rounds A - i = 0 by omega]
    rfl
  | succ fuel ih =>
    simp only [syncDissemLoop]
    have hiff : (2 : ℤ) ^ i < A.PE_size ↔ i < rounds A := by
      rw [rounds, Nat.lt_clog_iff_pow_lt (by decide)]
      exact_mod_cast Iff.rfl
    by_cases hi : i < rounds A
    · rw [if_pos (hiff.mpr hi), wrap_of_fits (by decide) (fits_distance hmax hi), ← pow_succ, ih (i + 1) (by omega),
        show rounds A - i = (rounds A - (i + 1)) + 1 by omega, List.range'_succ, List.flatMap_cons]
    · rw [if_neg (fun h => hi (hiff.mp h)), show rounds A - i = 0 by omega]
      rfl

/-- the body, with the rounds counted -/
theorem syncDissem_eq {A : ActiveSet} (hmax : A.PE_size ≤ 2 ^ 30) (my_pe : ℕ) :
    syncDissem A my_pe =
      .enter :: ((List.range (rounds A)).flatMap fun i => round A my_pe i (2 ^ i)) ++ [.quiet] := by
  have hle : rounds A ≤ 0 + A.PE_size := by
    rw [Nat.zero_add]
    exact Nat.clog_le_of_le_pow (le_of_lt Nat.lt_two_pow_self)
  have h := syncDissemLoop_eq hmax my_pe A.PE_size 0 hle
  rw [pow_zero, Nat.sub_zero, ← List.range_eq_range'] at h
  rw [syncDissem, h]

/-- the rank a round sends to -/
def toRank (A : ActiveSet) (r i : ℕ) : ℕ := (r + 2 ^ i) % A.PE_size

/-- what stands where in the body of rank r -/
inductive BodyAt (A : ActiveSet) (r : ℕ) : ℕ → Instr → Prop
  | enter : BodyAt A r 0 .enter
  | add (i : ℕ) (hi : i < rounds A) : BodyAt A r (1 + 4 * i) (.atomicAdd i 1 (A.pe (toRank A r i)))
  | wait (i : ℕ) (hi : i < rounds A) : BodyAt A r (2 + 4 * i) (.waitUntil i .NE 0)
  | check (i : ℕ) (hi : i < rounds A) : BodyAt A r (3 + 4 * i) (.assertLt i 3)
  | sub (i : ℕ) (hi : i < rounds A) : BodyAt A r (4 + 4 * i) (.atomicAdd i (-1) (A.pe r))
  | quiet : BodyAt A r (1 + 4 * rounds A) .quiet

/-- no sum of a rank and a distance leaves the `int`s -/
theorem toRank_eq {A : ActiveSet} (hmax : A.PE_size ≤ 2 ^ 30) {r i : ℕ} (hr : r < A.PE_size) (hi : i < rounds A) :
    ((wrap 32 ((r : ℤ) + 2 ^ i)).tmod A.PE_size).toNat = toRank A r i := by
  obtain ⟨h1, h2⟩ := fits_distance hmax hi
  have hpos : (0 : ℤ) < 2 ^ i := by positivity
  have hcast : (r : ℤ) + 2 ^ i = ((r + 2 ^ i : ℕ) : ℤ) := by push_cast; rfl
  rw [wrap_of_fits (by decide) ⟨by omega, by omega⟩, hcast, ← Int.ofNat_tmod, Int.toNat_natCast, toRank]

theorem round_length (A : ActiveSet) (my_pe i : ℕ) (d : ℤ) : (round A my_pe i d).length = 4 := rfl

theorem syncDissem_length {A : ActiveSet} (hmax : A.PE_size ≤ 2 ^ 30) (my_pe : ℕ) :
    (syncDissem A my_pe).length = len A := by
  rw [syncDissem_eq hmax, len]
  simp [List.length_flatMap, round_length]
  omega

theorem rounds_length (A : ActiveSet) (my_pe : ℕ) :
    ((List.range (rounds A)).flatMap fun i => round A my_pe i (2 ^ i)).length = rounds A * 4 := by
  simp [List.length_flatMap, round_length]

theorem getElem_sub {A : ActiveSet} (hmax : A.PE_size ≤ 2 ^ 30) {my_pe i : ℕ} (hi : i < rounds A) :
    (syncDissem A my_pe)[4 + 4 * i]? = some (.atomicAdd i (-1) my_pe) := by
  rw [syncDissem_eq hmax, show 4 + 4 * i = 3 + 4 * i + 1 by omega, List.cons_append, List.getElem?_cons_succ,
    List.getElem?_append_left (by rw [rounds_length]; omega),
    getElem?_flatMap_range _ (by decide) (fun i => round_length A _ i _), if_pos (by omega),
    show (3 + 4 * i) / 4 = i by omega, show (3 + 4 * i) % 4 = 3 by omega]
  rfl

theorem getElem_quiet {A : ActiveSet} (hmax : A.PE_size ≤ 2 ^ 30) (my_pe : ℕ) :
    (syncDissem A my_pe)[1 + 4 * rounds A]? = some .quiet := by
  have h := rounds_length A my_pe
  rw [syncDissem_eq hmax, show 1 + 4 * rounds A = rounds A * 4 + 1 by omega, List.cons_append, List.getElem?_cons_succ,
    List.getElem?_append_right (by omega), h, Nat.sub_self]
  rfl

theorem bodyAt_of_getElem {A : ActiveSet} (hmax : A.PE_size ≤ 2 ^ 30) {r t : ℕ} (hr : r < A.PE_size) {ins : Instr}
    (h : (syncDissem A (A.pe r))[t]? = some ins) : BodyAt A r t ins := by
  rw [syncDissem_eq hmax] at h
  cases t with
  | zero => simp at h; subst h; exact .enter
  | succ t =>
    rw [List.cons_append, List.getElem?_cons_succ, List.getElem?_append] at h
    rw [rounds_length] at h
    split_ifs at h with ht
    · rw [getElem?_flatMap_range _ (by decide) (fun i => round_length A _ i _), if_pos ht] at h
      have hi : t / 4 < rounds A := Nat.div_lt_of_lt_mul (by omega)
      have hsplit := Nat.div_add_mod t 4
      have hmod := Nat.mod_lt t (show 0 < 4 by decide)
      generalize t / 4 = i at h hi hsplit
      generalize t % 4 = x at h hsplit hmod
      simp only [round, A.rank_pe, toRank_eq hmax hr hi] at h
      match x, h with
      | 0, h => simp at h; subst h; exact (show t + 1 = 1 + 4 * i by omega) ▸ .add i hi
      | 1, h => simp at h; subst h; exact (show t + 1 = 2 + 4 * i by omega) ▸ .wait i hi
      | 2, h => simp at h; subst h; exact (show t + 1 = 3 + 4 * i by omega) ▸ .check i hi
      | 3, h => simp at h; subst h; exact (show t + 1 = 4 + 4 * i by omega) ▸ .sub i hi
      | x + 4, h => omega
    · have h0 : t - rounds A * 4 = 0 := by
        have := (List.getElem?_eq_some_iff.mp h).1
        simp at this
        omega
      rw [h0] at h
      simp at h
      subst h
      exact (show t + 1 = 1 + 4 * rounds A by omega) ▸ .quiet

/-! ## The invariant -/

/-- the members calling the barrier over and over -/
def machine (A : ActiveSet) : Machine Unit := calls A.members (syncDissem A)

/-- what holds in every state, with the calls whose adds D and whose subtractions E have arrived -/
structure Inv (A : ActiveSet) (s : St Unit) (D E : ℕ → ℕ → Finset ℕ) : Prop where
  /-- the distances are `int`s -/
  small : A.PE_size ≤ 2 ^ 30
  adds : ∀ r < A.PE_size, ∀ i < rounds A, ∀ k,
    s.done (A.pe r) (k * len A + (1 + 4 * i)) 0 = true ↔ k ∈ D r i
  subs : ∀ r < A.PE_size, ∀ i < rounds A, ∀ k,
    s.done (A.pe r) (k * len A + (4 + 4 * i)) 0 = true ↔ k ∈ E r i
  /-- who is past its wait of call k got at least k + 1 adds -/
  waits : ∀ r < A.PE_size, ∀ i < rounds A, ∀ k,
    k * len A + (2 + 4 * i) < s.pc (A.pe (toRank A r i)) → k + 1 ≤ (D r i).card
  value : ∀ r < A.PE_size, ∀ i < rounds A,
    s.cell (A.pe (toRank A r i)) i = (D r i).card - (E (toRank A r i) i).card
  unused : ∀ v i, rounds A ≤ i → s.cell v i = 0

theorem toRank_lt (A : ActiveSet) (r i : ℕ) : toRank A r i < A.PE_size := Nat.mod_lt _ A.size_pos

/-- two ranks send to different ranks -/
theorem toRank_inj {A : ActiveSet} {r r' i : ℕ} (hr : r < A.PE_size) (hr' : r' < A.PE_size)
    (h : toRank A r i = toRank A r' i) : r = r' := by
  have := Nat.ModEq.add_right_cancel' (2 ^ i) h
  rwa [Nat.ModEq, Nat.mod_eq_of_lt hr, Nat.mod_eq_of_lt hr'] at this

/-- every rank is sent to -/
theorem exists_sender (A : ActiveSet) {t : ℕ} (ht : t < A.PE_size) (i : ℕ) : ∃ r < A.PE_size, toRank A r i = t := by
  have hpos := A.size_pos
  have hd : 2 ^ i % A.PE_size < A.PE_size := Nat.mod_lt _ hpos
  refine ⟨(t + (A.PE_size - 2 ^ i % A.PE_size)) % A.PE_size, Nat.mod_lt _ hpos, ?_⟩
  rw [toRank, Nat.mod_add_mod, Nat.add_mod, ← Nat.add_mod_mod, Nat.mod_mod]
  rw [Nat.mod_add_mod, show t + (A.PE_size - 2 ^ i % A.PE_size) + 2 ^ i % A.PE_size = t + A.PE_size by omega,
    Nat.add_mod_right, Nat.mod_eq_of_lt ht]

theorem prog_cases {A : ActiveSet} (hmax : A.PE_size ≤ 2 ^ 30) {v t : ℕ} {ins : Instr} (h : (machine A).prog v t = some ins) :
    ∃ r < A.PE_size, v = A.pe r ∧ BodyAt A r (t % len A) ins := by
  simp only [machine, calls] at h
  split_ifs at h with hv
  obtain ⟨r, hr, rfl⟩ := A.mem_members.mp hv
  rw [syncDissem_length hmax] at h
  exact ⟨r, hr, rfl, bodyAt_of_getElem hmax hr h⟩

/-- a set of calls with more than k elements has one from k on -/
theorem exists_ge_of_card {S : Finset ℕ} {k : ℕ} (h : k < S.card) : ∃ x ∈ S, k ≤ x := by
  by_contra hno
  push Not at hno
  have hsub : S ⊆ Finset.range k := fun x hx => Finset.mem_range.mpr (hno x hx)
  have := Finset.card_le_card hsub
  rw [Finset.card_range] at this
  omega

section
variable {A : ActiveSet} {s : St Unit} {D E : ℕ → ℕ → Finset ℕ}

theorem prog_of_getElem (hmax : A.PE_size ≤ 2 ^ 30) {r x : ℕ} {ins : Instr} (hr : r < A.PE_size) (hx : x < len A)
    (h : (syncDissem A (A.pe r))[x]? = some ins) (k : ℕ) : (machine A).prog (A.pe r) (k * len A + x) = some ins := by
  simp only [machine, calls, if_pos (A.pe_mem hr), syncDissem_length hmax]
  rw [Nat.mul_comm, Nat.mul_add_mod, Nat.mod_eq_of_lt hx, h]

/-- who is through call k has all its subtractions up to call k done -/
theorem Inv.subs_done (h : Inv A s D E) (hh : (machine A).Hist s) {r i k : ℕ} (hr : r < A.PE_size)
    (hi : i < rounds A) (hret : (k + 1) * len A ≤ s.pc (A.pe r)) : ∀ k' ≤ k, k' ∈ E r i := by
  intro k' hk'
  have hlen : len A = 2 + 4 * rounds A := rfl
  have hquiet := prog_of_getElem h.small hr (x := 1 + 4 * rounds A) (by omega) (getElem_quiet h.small (A.pe r)) k
  have hsub := prog_of_getElem h.small hr (x := 4 + 4 * i) (by omega) (getElem_sub h.small hi) k'
  have hle : k' * len A ≤ k * len A := Nat.mul_le_mul_right _ hk'
  rw [Nat.add_mul, Nat.one_mul] at hret
  refine (h.subs r hr i hi k').mp (hh.quieted _ _ hquiet (by omega) _ (by omega) 0 ?_)
  rw [partsAt_eq _ hsub]
  exact Nat.zero_lt_one

/-- who is in call k before its subtraction has done exactly the k subtractions of the calls before -/
theorem Inv.subs_card (h : Inv A s D E) (hh : (machine A).Hist s) {r i k x : ℕ} (hr : r < A.PE_size)
    (hi : i < rounds A) (hpc : s.pc (A.pe r) = k * len A + x) (hx : x ≤ 4 + 4 * i) : (E r i).card = k := by
  have heq : E r i = Finset.range k := by
    ext k'
    rw [Finset.mem_range]
    constructor
    · intro hk'
      by_contra hge
      have hlt := (hh.doneIssued _ _ _ ((h.subs r hr i hi k').mpr hk')).1
      have hle : k * len A ≤ k' * len A := Nat.mul_le_mul_right _ (by omega)
      omega
    · intro hk'
      obtain ⟨k, rfl⟩ : ∃ m, k = m + 1 := ⟨k - 1, by omega⟩
      exact h.subs_done hh hr hi (k := k) (by omega) k' (by omega)
  rw [heq, Finset.card_range]

/-- the add of call k was sent if that many have arrived -/
theorem Inv.sent (h : Inv A s D E) (hh : (machine A).Hist s) {r i k : ℕ} (hr : r < A.PE_size) (hi : i < rounds A)
    (hk : k < (D r i).card) : k * len A + (1 + 4 * i) < s.pc (A.pe r) := by
  obtain ⟨k', hmem, hle⟩ := exists_ge_of_card hk
  have hlt := (hh.doneIssued _ _ _ ((h.adds r hr i hi k').mpr hmem)).1
  have := Nat.mul_le_mul_right (len A) hle
  omega

/-- **Dissemination.** Who has reached round i of call k has everybody up to 2^i - 1 ranks to its left in call k. -/
theorem Inv.reached (h : Inv A s D E) (hh : (machine A).Hist s) (k : ℕ) {i : ℕ} (hi : i ≤ rounds A) :
    ∀ t < A.PE_size, k * len A + (1 + 4 * i) ≤ s.pc (A.pe t) →
      ∀ x < A.PE_size, ∀ j < 2 ^ i, (x + j) % A.PE_size = t → k * len A < s.pc (A.pe x) := by
  induction i with
  | zero =>
    intro t ht hpc x hx j hj hxj
    have hj0 : j = 0 := by simpa using hj
    rw [hj0, Nat.add_zero, Nat.mod_eq_of_lt hx] at hxj
    subst hxj
    omega
  | succ i ih =>
    intro t ht hpc x hx j hj hxj
    rcases Nat.lt_or_ge j (2 ^ i) with hlt | hge
    · exact ih (by omega) t ht (by omega) x hx j hlt hxj
    · -- the rest of the way is the sender's
      obtain ⟨r, hr, hrt⟩ := exists_sender A ht i
      have hcard := h.waits r hr i (by omega) k (by rw [hrt]; omega)
      have hsent := h.sent hh hr (by omega) (show k < (D r i).card by omega)
      refine ih (by omega) r hr (by omega) x hx (j - 2 ^ i) (by rw [Nat.pow_succ] at hj; omega) ?_
      have hmod : toRank A ((x + (j - 2 ^ i)) % A.PE_size) i = toRank A r i := by
        rw [hrt, ← hxj, toRank, Nat.mod_add_mod, Nat.add_assoc, Nat.sub_add_cancel hge]
      exact toRank_inj (Nat.mod_lt _ A.size_pos) hr hmod

/-- **Barrier.** -/
theorem Inv.barrier (h : Inv A s D E) (hh : (machine A).Hist s) {t x k : ℕ} (ht : t < A.PE_size) (hx : x < A.PE_size)
    (hret : (k + 1) * len A ≤ s.pc (A.pe t)) : k * len A < s.pc (A.pe x) := by
  have hlen : len A = 2 + 4 * rounds A := rfl
  have hpow : A.PE_size ≤ 2 ^ rounds A := Nat.le_pow_clog (by decide) _
  rw [Nat.add_mul, Nat.one_mul] at hret
  have hj : (t + A.PE_size - x) % A.PE_size < A.PE_size := Nat.mod_lt _ A.size_pos
  refine h.reached hh k (le_refl _) t ht (by omega) x hx ((t + A.PE_size - x) % A.PE_size) (by omega) ?_
  rw [Nat.add_mod_mod, show x + (t + A.PE_size - x) = t + A.PE_size by omega, Nat.add_mod_right, Nat.mod_eq_of_lt ht]

/-- **A slot is 0, 1 or 2.** -/
theorem Inv.slot_bounds (h : Inv A s D E) (hh : (machine A).Hist s) {t : ℕ} (ht : t < A.PE_size) (i : ℕ) :
    0 ≤ s.cell (A.pe t) i ∧ s.cell (A.pe t) i ≤ 2 := by
  by_cases hi : i < rounds A
  · obtain ⟨r, hr, rfl⟩ := exists_sender A ht i
    rw [h.value r hr i hi]
    have hlen : len A = 2 + 4 * rounds A := rfl
    constructor
    · -- a subtraction comes after its wait
      have hle : (E (toRank A r i) i).card ≤ (D r i).card := by
        rcases Nat.eq_zero_or_pos (E (toRank A r i) i).card with h0 | hpos
        · omega
        · obtain ⟨k, hk, hge⟩ := exists_ge_of_card (show (E (toRank A r i) i).card - 1 < (E (toRank A r i) i).card by omega)
          have hlt := (hh.doneIssued _ _ _ ((h.subs _ ht i hi k).mpr hk)).1
          have := h.waits r hr i hi k (by omega)
          omega
      omega
    · -- the sender of the add of call m is through call m - 1, so the receiver is through call m - 2
      have hle : (D r i).card ≤ (E (toRank A r i) i).card + 2 := by
        by_contra hgt
        obtain ⟨m, hm⟩ : ∃ m, (D r i).card = m + 3 := ⟨(D r i).card - 3, by omega⟩
        have hsent := h.sent hh hr hi (show m + 2 < (D r i).card by omega)
        have hret : (m + 2) * len A ≤ s.pc (A.pe r) := by omega
        have hin := h.barrier hh hr ht (k := m + 1) hret
        have hall : Finset.range (m + 1) ⊆ E (toRank A r i) i := fun k hk =>
          h.subs_done hh ht hi (k := m) (by omega) k (by rw [Finset.mem_range] at hk; omega)
        have := Finset.card_le_card hall
        rw [Finset.card_range] at this
        omega
      omega
  · rw [h.unused _ i (by omega)]
    exact ⟨le_refl _, by decide⟩

end

/-! ## Steps -/

section
variable {A : ActiveSet} {s : St Unit} {D E : ℕ → ℕ → Finset ℕ}

/-- who is past a wait of call k got the add of call k or a later one -/
theorem Inv.pass_wait (h : Inv A s D E) (hh : (machine A).Hist s) {r i k : ℕ} (hr : r < A.PE_size) (hi : i < rounds A)
    (hpc : s.pc (A.pe (toRank A r i)) = k * len A + (2 + 4 * i)) (hne : s.cell (A.pe (toRank A r i)) i ≠ 0) :
    k + 1 ≤ (D r i).card := by
  have hlen : len A = 2 + 4 * rounds A := rfl
  have hE := h.subs_card hh (toRank_lt A r i) hi hpc (by omega)
  rw [h.value r hr i hi, hE] at hne
  rcases Nat.eq_zero_or_pos k with rfl | hk
  · omega
  · obtain ⟨k, rfl⟩ : ∃ m, k = m + 1 := ⟨k - 1, by omega⟩
    rw [Nat.add_mul, Nat.one_mul] at hpc
    have := h.waits r hr i hi k (by omega)
    omega

theorem bodyAt_effect {r x : ℕ} {ins : Instr} (hat : BodyAt A r x ins) (s : St Unit) (v : ℕ) :
    (machine A).effect s v ins = s := by
  cases hat <;> rfl

theorem Inv.exec (h : Inv A s D E) (hh : (machine A).Hist s) {v : ℕ} {ins : Instr}
    (hp : (machine A).prog v (s.pc v) = some ins) (he : (machine A).Enabled s v ins) :
    Inv A (advance ((machine A).effect s v ins) v) D E := by
  obtain ⟨q, hq, rfl, hat⟩ := prog_cases h.small hp
  rw [bodyAt_effect hat]
  have hlen : len A = 2 + 4 * rounds A := rfl
  refine ⟨h.small, h.adds, h.subs, ?_, h.value, h.unused⟩
  intro r hr i hi k hk
  by_cases hrq : toRank A r i = q
  · subst hrq
    rw [advance_pc_self] at hk
    rcases passed_cases (by omega) hk with hk | ⟨hpc, hm⟩
    · exact h.waits r hr i hi k hk
    · refine h.pass_wait hh hr hi hpc ?_
      rw [hm] at hat
      generalize hx : 2 + 4 * i = x at hat
      cases hat with
      | wait i' hi' =>
        have : i' = i := by omega
        subst this
        exact he
      | _ => omega
  · have hne : A.pe (toRank A r i) ≠ A.pe q := fun heq => hrq (A.pe_inj.mp heq)
    rw [advance_pc_other _ hne] at hk
    exact h.waits r hr i hi k hk

/-- one more call in the set of one sender and slot -/
def addCall (F : ℕ → ℕ → Finset ℕ) (r i k : ℕ) : ℕ → ℕ → Finset ℕ :=
  fun r' i' => if r' = r ∧ i' = i then insert k (F r' i') else F r' i'

theorem addCall_card {F : ℕ → ℕ → Finset ℕ} {r i k : ℕ} (hk : k ∉ F r i) (r' i' : ℕ) :
    (addCall F r i k r' i').card = (F r' i').card + if r' = r ∧ i' = i then 1 else 0 := by
  unfold addCall
  split_ifs with h
  · obtain ⟨rfl, rfl⟩ := h
    rw [Finset.card_insert_of_notMem hk]
  · rfl

/-- a delivery enters its call into the set of its position, if the position is the same, and nothing else -/
theorem done_addCall {F : ℕ → ℕ → Finset ℕ} {q k k' r i i' b : ℕ} (hb : b + 4 * i < len A) (hb' : b + 4 * i' < len A)
    (h : s.done (A.pe q) (k' * len A + (b + 4 * i')) 0 = true ↔ k' ∈ F q i') :
    (mark s (A.pe r) (k * len A + (b + 4 * i)) 0).done (A.pe q) (k' * len A + (b + 4 * i')) 0 = true ↔
      k' ∈ addCall F r i k q i' := by
  rw [mark_done, h, addCall]
  constructor
  · rintro (⟨hq, hpos, -⟩ | hmem)
    · obtain ⟨rfl, hx⟩ := pos_inj hb' hb hpos
      have : i' = i := by omega
      subst this
      rw [if_pos ⟨A.pe_inj.mp hq, rfl⟩]
      exact Finset.mem_insert_self _ _
    · split_ifs
      · exact Finset.mem_insert_of_mem hmem
      · exact hmem
  · intro hmem
    split_ifs at hmem with heq
    · obtain ⟨rfl, rfl⟩ := heq
      rcases Finset.mem_insert.mp hmem with rfl | hmem
      · exact Or.inl ⟨rfl, rfl, rfl⟩
      · exact Or.inr hmem
    · exact Or.inr hmem

/-- an add arrives -/
theorem Inv.deliver_add (h : Inv A s D E) {r i k : ℕ} (hr : r < A.PE_size) (hi : i < rounds A)
    (hnd : s.done (A.pe r) (k * len A + (1 + 4 * i)) 0 = false) :
    Inv A (mark { s with cell := setCell s.cell (A.pe (toRank A r i)) i (s.cell (A.pe (toRank A r i)) i + 1) } (A.pe r)
      (k * len A + (1 + 4 * i)) 0) (addCall D r i k) E := by
  have hlen : len A = 2 + 4 * rounds A := rfl
  have hk : k ∉ D r i := fun hmem => by simp [(h.adds r hr i hi k).mpr hmem] at hnd
  refine ⟨h.small, ?_, ?_, ?_, ?_, ?_⟩
  · intro q hq i' hi' k'
    exact done_addCall (by omega) (by omega) (h.adds q hq i' hi' k')
  · intro q hq i' hi' k'
    exact (mark_done_ne (by omega) (by omega) fun _ => by omega).trans (h.subs q hq i' hi' k')
  · intro q hq i' hi' k' hk'
    have := h.waits q hq i' hi' k' hk'
    rw [addCall_card hk]
    omega
  · intro q hq i' hi'
    have hval := h.value q hq i' hi'
    rw [addCall_card hk]
    simp only [mark_cell, setCell_apply]
    by_cases heq : q = r ∧ i' = i
    · obtain ⟨rfl, rfl⟩ := heq
      simp only [and_self, if_true, hval]
      push_cast
      ring
    · have hne : ¬ (A.pe (toRank A q i') = A.pe (toRank A r i) ∧ i' = i) := by
        rintro ⟨h1, rfl⟩
        exact heq ⟨toRank_inj hq hr (A.pe_inj.mp h1), rfl⟩
      rw [if_neg hne, if_neg heq]
      exact hval
  · intro v i' hi'
    simp only [mark_cell, setCell_apply]
    rw [if_neg (by omega)]
    exact h.unused v i' hi'

/-- a subtraction arrives -/
theorem Inv.deliver_sub (h : Inv A s D E) {t i k : ℕ} (ht : t < A.PE_size) (hi : i < rounds A)
    (hnd : s.done (A.pe t) (k * len A + (4 + 4 * i)) 0 = false) :
    Inv A (mark { s with cell := setCell s.cell (A.pe t) i (s.cell (A.pe t) i + -1) } (A.pe t)
      (k * len A + (4 + 4 * i)) 0) D (addCall E t i k) := by
  have hlen : len A = 2 + 4 * rounds A := rfl
  have hk : k ∉ E t i := fun hmem => by simp [(h.subs t ht i hi k).mpr hmem] at hnd
  refine ⟨h.small, ?_, ?_, h.waits, ?_, ?_⟩
  · intro q hq i' hi' k'
    exact (mark_done_ne (by omega) (by omega) fun _ => by omega).trans (h.adds q hq i' hi' k')
  · intro q hq i' hi' k'
    exact done_addCall (by omega) (by omega) (h.subs q hq i' hi' k')
  · intro q hq i' hi'
    have hval := h.value q hq i' hi'
    rw [addCall_card hk]
    simp only [mark_cell, setCell_apply]
    by_cases heq : toRank A q i' = t ∧ i' = i
    · obtain ⟨rfl, rfl⟩ := heq
      simp only [and_self, if_true, hval]
      push_cast
      ring
    · have hne : ¬ (A.pe (toRank A q i') = A.pe t ∧ i' = i) := by
        rintro ⟨h1, h2⟩
        exact heq ⟨A.pe_inj.mp h1, h2⟩
      rw [if_neg hne, if_neg heq]
      exact hval
  · intro v i' hi'
    simp only [mark_cell, setCell_apply]
    rw [if_neg (by omega)]
    exact h.unused v i' hi'

theorem bodyAt_parts {r x : ℕ} {ins : Instr} (hat : BodyAt A r x ins) : ins.reads = 0 ∧ ins.parts ≤ 1 := by
  cases hat <;> simp [Instr.reads, Instr.parts]

theorem Inv.deliver (h : Inv A s D E) {v t j : ℕ} {ins : Instr} (hp : (machine A).prog v t = some ins)
    (hd : (machine A).Deliverable s v t j) :
    ∃ D' E', Inv A (mark ((machine A).arrive s v t j ins) v t j) D' E' := by
  obtain ⟨q, hq, rfl, hat⟩ := prog_cases h.small hp
  obtain ⟨hpc, hj, hnd, -, -⟩ := hd
  rw [partsAt_eq _ hp] at hj
  have hj0 : j = 0 := by have := (bodyAt_parts hat).2; omega
  subst hj0
  have ht : t = t / len A * len A + t % len A := by rw [Nat.mul_comm]; exact (Nat.div_add_mod t _).symm
  generalize t % len A = x at hat ht
  generalize t / len A = k at ht
  subst ht
  cases hat with
  | add i hi => exact ⟨_, _, h.deliver_add hq hi hnd⟩
  | sub i hi => exact ⟨_, _, h.deliver_sub hq hi hnd⟩
  | _ => exact absurd hj (by simp [Instr.parts])

theorem keeps (A : ActiveSet) : (machine A).Keeps fun s => ∃ D E, Inv A s D E where
  exec s v ins hh hi hp he := by
    obtain ⟨D, E, h⟩ := hi
    exact ⟨D, E, h.exec hh hp he⟩
  capture s v t j ins w hh hi hp hpc hj hc hw := by
    obtain ⟨D, E, h⟩ := hi
    obtain ⟨q, hq, rfl, hat⟩ := prog_cases h.small hp
    have := (bodyAt_parts hat).1
    omega
  deliver s v t j ins hh hi hp hd := by
    obtain ⟨D, E, h⟩ := hi
    exact h.deliver hp hd

theorem inv_init {A : ActiveSet} (hmax : A.PE_size ≤ 2 ^ 30) :
    Inv A (init (fun _ _ => 0) fun _ _ => ()) (fun _ _ => ∅) fun _ _ => ∅ := by
  refine ⟨hmax, ?_, ?_, ?_, ?_, ?_⟩ <;> simp [init]

/-- the invariant of every run -/
theorem run_inv {A : ActiveSet} (hmax : A.PE_size ≤ 2 ^ 30) (ops : List Op) :
    (machine A).Hist ((machine A).run (init (fun _ _ => 0) fun _ _ => ()) ops) ∧
      ∃ D E, Inv A ((machine A).run (init (fun _ _ => 0) fun _ _ => ()) ops) D E :=
  (keeps A).run (hist_init _ _ _) ⟨_, _, inv_init hmax⟩ ops

end

/-- **The dissemination barrier is reusable and its slots are bounded.** For every active set of up to 2^30 PEs,
under every schedule of consecutive calls and deliveries: the slots are ints of pSync, every slot is 0, 1 or 2 (so that
the assertion holds whenever it is reached), and nobody returns from its k-th call before everybody has entered it. -/
theorem dissem_reusable (A : ActiveSet) (hmax : A.PE_size ≤ 2 ^ 30) (ops : List Op) :
    let s := (calls A.members (syncDissem A)).run (init (fun _ _ => 0) fun _ _ => ()) ops
    (∀ p ∈ A.members, ∀ ins ∈ syncDissem A p, ∀ i v, ins = .assertLt i v → i < 2 * SHMEM_BARRIER_SYNC_SIZE) ∧
    (∀ p ∈ A.members, ∀ i, s.cell p i = 0 ∨ s.cell p i = 1 ∨ s.cell p i = 2) ∧
    (∀ p ∈ A.members, ∀ i v, (calls A.members (syncDissem A)).prog p (s.pc p) = some (.assertLt i v) →
      s.cell p i < v) ∧
    (∀ p ∈ A.members, ∀ q ∈ A.members, ∀ k, Returned (syncDissem A) s p k → Entered (syncDissem A) s q k) := by
  intro s
  obtain ⟨hh, D, E, h⟩ := run_inv hmax ops
  have hslot : ∀ p ∈ A.members, ∀ i, 0 ≤ s.cell p i ∧ s.cell p i ≤ 2 := by
    intro p hp i
    obtain ⟨r, hr, rfl⟩ := A.mem_members.mp hp
    exact h.slot_bounds hh hr i
  have hrounds := rounds_le hmax
  refine ⟨?_, ?_, ?_, ?_⟩
  · intro p hp ins hins i v heq
    obtain ⟨r, hr, rfl⟩ := A.mem_members.mp hp
    obtain ⟨x, hx⟩ := List.getElem?_of_mem hins
    have hat := bodyAt_of_getElem hmax hr hx
    subst heq
    cases hat with
    | check _ hi =>
      have hsize : SHMEM_BARRIER_SYNC_SIZE = 16 := by decide
      omega
  · intro p hp i
    have := hslot p hp i
    omega
  · intro p hp i v hpr
    obtain ⟨r, hr, -, hat⟩ := prog_cases hmax hpr
    have := hslot p hp i
    generalize s.pc p % len A = x at hat
    cases hat with
    | check _ hi => omega
  · intro p hp q hq k hret
    obtain ⟨r, hr, rfl⟩ := A.mem_members.mp hp
    obtain ⟨t, ht, rfl⟩ := A.mem_members.mp hq
    unfold Returned Entered at *
    rw [syncDissem_length hmax] at hret ⊢
    exact h.barrier hh hr ht hret

/-- PEs 0 and 1 -/
def pair : ActiveSet := ⟨0, 1, 2, 2, Nat.one_pos, Nat.two_pos, Nat.one_lt_two⟩

/-- PE 0 is through its first call and has sent the add of its second before PE 1 consumes the first -/
def pairSched : List Op :=
  [.exec 0, .exec 0, .deliver 0 1 0, .exec 1, .exec 1, .deliver 1 1 0, .exec 0, .exec 0, .exec 0, .deliver 0 4 0,
    .exec 0, .exec 0, .exec 0, .deliver 0 7 0]

theorem dissem_reusable_pair :
    ((calls pair.members (syncDissem pair)).run (init (fun _ _ => 0) fun _ _ => ()) pairSched).cell 1 0 = 2 ∧
    (Returned (syncDissem pair) ((calls pair.members (syncDissem pair)).run (init (fun _ _ => 0) fun _ _ => ()) pairSched)
        0 0 ∧
      Entered (syncDissem pair) ((calls pair.members (syncDissem pair)).run (init (fun _ _ => 0) fun _ _ => ()) pairSched)
        1 0) := by
  have hret : Returned (syncDissem pair) ((calls pair.members (syncDissem pair)).run (init (fun _ _ => 0) fun _ _ => ())
      pairSched) 0 0 := by
    unfold Returned
    decide +kernel
  have h := (dissem_reusable pair (by decide) pairSched).2.2.2 0 (by decide) 1 (by decide) 0 hret
  exact ⟨by decide +kernel, hret, h⟩

end SandiaShmem.Collectives.Dissem
