/-
`shmem_internal_team_translate_pe` (`src/shmem_team.c`): the number that a PE of one team has in another.

The function lets the number of the source team's PE pass if it is not greater than the size of the team, so the size itself
passes, and every negative number. What such a number stands for is a PE of the job or none at all; the assertion behind the
check may stop the job, and if it does not, the result is the number of some PE that is not in the source team. The
assertion is compiled in with ENABLE_ERROR_CHECKING only.

- `peInActiveSet_eq_iff`: the number of a PE in an active set.
- `Correct`: the function is the partial bijection between the PEs of the two teams.
- `correct_iff`: it is, exactly for the numbers of the team, the numbers above the size, and those of the others that pass
  the assertion and stand for no PE of the other team.
-/
import SandiaShmem.Teams.SplitStrided

namespace SandiaShmem.Teams.Translate

open SandiaShmem.Teams.SplitStrided

/-! ## Model -/

/-- `shmem_internal_team_translate_pe`; a team is `none` if it is SHMEM_TEAM_INVALID, and the result is `none` when the
assertion stops the job -/
def teamTranslatePe (ENABLE_ERROR_CHECKING : Bool) (numPes : ℕ) (src_team : Option TeamDesc) (src_pe : ℤ)
    (dest_team : Option TeamDesc) : Option ℤ :=
  match src_team, dest_team with
  | some src_team, some dest_team =>
    if src_pe > src_team.size then some (-1)
    else
      let src_pe_world := cInt (src_team.start + src_pe * src_team.stride)
      if ENABLE_ERROR_CHECKING ∧ ¬ (src_pe_world ≥ src_team.start ∧ src_pe_world < numPes) then none
      else some (peInActiveSet src_pe_world dest_team.start dest_team.stride dest_team.size)
  | _, _ => some (-1)

/-- number p of team A and number q of team B are the same PE -/
def SamePe (A B : TeamDesc) (p q : ℤ) : Prop := (0 ≤ p ∧ p < A.size) ∧ (0 ≤ q ∧ q < B.size) ∧ teamPe A p = teamPe B q

/-- the translation of p from A to B is right, and can be undone -/
structure Correct (ENABLE_ERROR_CHECKING : Bool) (C : Cfg) (A B : TeamDesc) (p : ℤ) : Prop where
  iff : ∀ q, 0 ≤ q → (teamTranslatePe ENABLE_ERROR_CHECKING C.numPes (some A) p (some B) = some q ↔ SamePe A B p q)
  other : (∀ q, ¬ SamePe A B p q) → teamTranslatePe ENABLE_ERROR_CHECKING C.numPes (some A) p (some B) = some (-1)
  back : ∀ q, 0 ≤ q → teamTranslatePe ENABLE_ERROR_CHECKING C.numPes (some A) p (some B) = some q →
    teamTranslatePe ENABLE_ERROR_CHECKING C.numPes (some B) q (some A) = some p

/-- a number that is not one of A, but passes the check: it has to pass the assertion, and be no PE of B -/
def Harmless (ENABLE_ERROR_CHECKING : Bool) (C : Cfg) (A B : TeamDesc) (p : ℤ) : Prop :=
  p < 0 ∨ p = A.size →
    (ENABLE_ERROR_CHECKING = true → A.start ≤ cInt (teamPe A p) ∧ cInt (teamPe A p) < C.numPes) ∧
      ∀ q : ℤ, 0 ≤ q → q < B.size → cInt (teamPe A p) ≠ teamPe B q

/-! ## The active set -/

section
variable {w start stride size : ℤ}

theorem peInActiveSet_cases (w start stride size : ℤ) (hstride : 1 ≤ stride) :
    peInActiveSet w start stride size = -1 ∨
      ∃ q, peInActiveSet w start stride size = q ∧ 0 ≤ q ∧ q < size ∧ w = start + stride * q := by
  unfold peInActiveSet
  simp only
  split_ifs with h
  · exact .inl rfl
  · push Not at h
    obtain ⟨hle, hmod, hlt⟩ := h
    have hdiv := Int.mul_tdiv_add_tmod (w - start) stride
    exact .inr ⟨_, rfl, Int.tdiv_nonneg (by omega) (by omega), hlt, by omega⟩

theorem peInActiveSet_of_mem (hstride : 1 ≤ stride) {q : ℤ} (h0 : 0 ≤ q) (hq : q < size) (hw : w = start + stride * q) :
    peInActiveSet w start stride size = q := by
  have hmul : w - start = stride * q := by omega
  have hnonneg : 0 ≤ stride * q := Int.mul_nonneg (by omega) h0
  have hdiv : (stride * q).tdiv stride = q := Int.mul_tdiv_cancel_left q (by omega)
  unfold peInActiveSet
  rw [hmul, hdiv, Int.mul_tmod_right, if_neg (by omega)]

theorem peInActiveSet_eq_iff (hstride : 1 ≤ stride) {q : ℤ} (h0 : 0 ≤ q) :
    peInActiveSet w start stride size = q ↔ q < size ∧ w = start + stride * q := by
  constructor
  · intro h
    rcases peInActiveSet_cases w start stride size hstride with h1 | ⟨q', h1, -, hlt, hw⟩
    · omega
    · rw [← h, h1]
      exact ⟨hlt, hw⟩
  · rintro ⟨hq, hw⟩
    exact peInActiveSet_of_mem hstride h0 hq hw

end

/-! ## Main result -/

section
variable {ENABLE_ERROR_CHECKING : Bool} {C : Cfg} {A B : TeamDesc} {p q : ℤ}

/-- what a number does that passes the check -/
theorem translate_of_le (h : p ≤ A.size) : teamTranslatePe ENABLE_ERROR_CHECKING C.numPes (some A) p (some B) =
    if ENABLE_ERROR_CHECKING ∧ ¬ (cInt (teamPe A p) ≥ A.start ∧ cInt (teamPe A p) < C.numPes) then none
    else some (peInActiveSet (cInt (teamPe A p)) B.start B.stride B.size) := by
  have hmul : A.start + p * A.stride = teamPe A p := by rw [teamPe, Int.mul_comm p]
  unfold teamTranslatePe
  simp only [hmul]
  exact if_neg (by omega)

/-- a PE of the team is an int -/
theorem cInt_teamPe (hA : ValidTeam C A) (hint : C.numPes < 2 ^ 31) (h0 : 0 ≤ p) (hp : p < A.size) :
    cInt (teamPe A p) = teamPe A p ∧ A.start ≤ teamPe A p ∧ teamPe A p < C.numPes := by
  have hlt := hA.pe_lt h0 hp
  have hle : (A.start : ℤ) ≤ teamPe A p := by
    have : 0 ≤ (A.stride : ℤ) * p := Int.mul_nonneg (by omega) h0
    unfold teamPe
    omega
  exact ⟨cInt_eq (by omega), hle, hlt⟩

theorem translate_member (hA : ValidTeam C A) (hint : C.numPes < 2 ^ 31) (h0 : 0 ≤ p) (hp : p < A.size) :
    teamTranslatePe ENABLE_ERROR_CHECKING C.numPes (some A) p (some B) =
      some (peInActiveSet (teamPe A p) B.start B.stride B.size) := by
  obtain ⟨hw, hle, hlt⟩ := cInt_teamPe hA hint h0 hp
  rw [translate_of_le hp.le, hw, if_neg (fun h => h.2 ⟨hle, hlt⟩)]

theorem SamePe.symm (h : SamePe A B p q) : SamePe B A q p := ⟨h.2.1, h.1, h.2.2.symm⟩

/-- the numbers of the team -/
theorem translate_iff (hA : ValidTeam C A) (hB : ValidTeam C B) (hint : C.numPes < 2 ^ 31) (h0 : 0 ≤ p) (hp : p < A.size)
    (hq : 0 ≤ q) :
    teamTranslatePe ENABLE_ERROR_CHECKING C.numPes (some A) p (some B) = some q ↔ SamePe A B p q := by
  have hstride := hB.stride_pos
  rw [translate_member hA hint h0 hp, Option.some.injEq, peInActiveSet_eq_iff (by omega) hq]
  exact ⟨fun h => ⟨⟨h0, hp⟩, ⟨hq, h.1⟩, h.2⟩, fun h => ⟨h.2.1.2, h.2.2⟩⟩

/-- **Translation between teams.** For every two teams of PEs of the job and every number, the translation is right exactly
if the number is `Harmless`. -/
theorem correct_iff (hA : ValidTeam C A) (hB : ValidTeam C B) (hint : C.numPes < 2 ^ 31) :
    Correct ENABLE_ERROR_CHECKING C A B p ↔ Harmless ENABLE_ERROR_CHECKING C A B p := by
  have hstride := hB.stride_pos
  constructor
  · intro h hout
    have hnot : ∀ q, ¬ SamePe A B p q := fun q hq => by
      have := hq.1
      omega
    have hres := h.other hnot
    rw [translate_of_le (by omega)] at hres
    split_ifs at hres with hassert
    refine ⟨fun hcheck => ?_, fun q h0 hq heq => ?_⟩
    · by_contra hfail
      exact hassert ⟨hcheck, hfail⟩
    · rw [Option.some.injEq, peInActiveSet_of_mem (by omega) h0 hq heq] at hres
      omega
  · intro h
    by_cases hin : 0 ≤ p ∧ p < A.size
    · refine ⟨fun q hq => translate_iff hA hB hint hin.1 hin.2 hq, fun hnone => ?_, fun q hq hres => ?_⟩
      · rw [translate_member hA hint hin.1 hin.2]
        rcases peInActiveSet_cases (teamPe A p) B.start B.stride B.size (by omega) with h1 | ⟨q, -, h0, hlt, hw⟩
        · rw [h1]
        · exact absurd ⟨hin, ⟨h0, hlt⟩, hw⟩ (hnone q)
      · have hsame := (translate_iff hA hB hint hin.1 hin.2 hq).mp hres
        exact (translate_iff hB hA hint hsame.2.1.1 hsame.2.1.2 hin.1).mpr hsame.symm
    · have hnot : ∀ q, ¬ SamePe A B p q := fun q hq => hin hq.1
      have hres : teamTranslatePe ENABLE_ERROR_CHECKING C.numPes (some A) p (some B) = some (-1) := by
        by_cases hgt : p > A.size
        · exact if_pos hgt
        · obtain ⟨hassert, hother⟩ := h (by omega)
          rw [translate_of_le (by omega), if_neg fun hf => hf.2 (hassert hf.1)]
          rcases peInActiveSet_cases (cInt (teamPe A p)) B.start B.stride B.size (by omega) with h1 | ⟨q, -, h0, hlt, hw⟩
          · rw [h1]
          · exact absurd hw (hother q h0 hlt)
      refine ⟨fun q hq => ?_, fun _ => hres, fun q hq hq' => ?_⟩
      · rw [hres, Option.some.injEq]
        exact ⟨fun heq => by omega, fun hsame => absurd hsame (hnot q)⟩
      · rw [hres, Option.some.injEq] at hq'
        omega

end

/-- PE 1 of SHMEM_TEAM_WORLD with two PEs, from the team to itself -/
theorem correct_iff_world : Correct true twoPes (world twoPes 0) (world twoPes 0) 1 := by
  have hworld : ValidTeam twoPes (world twoPes 0) := ⟨by decide, by decide, by decide⟩
  exact (correct_iff hworld hworld (by decide)).mpr fun h => absurd h (by decide)

/-- there is no PE 2 there, but the translation of 2 fails an assertion instead of returning -1; and without assertions the
number 1 of a team that is PE 0 only is translated to PE 1 -/
theorem size_passes :
    teamTranslatePe true twoPes.numPes (some (world twoPes 0)) 2 (some (world twoPes 0)) = none ∧
      teamTranslatePe false twoPes.numPes (some ⟨3, 0, 0, 1, 1, 2⟩) 1 (some (world twoPes 0)) = some 1 ∧
      ¬ Correct true twoPes (world twoPes 0) (world twoPes 0) 2 := by
  refine ⟨by decide, by decide, fun h => ?_⟩
  have hres := h.other fun q hq => absurd hq.1.2 (by decide)
  exact absurd hres (by decide)

end SandiaShmem.Teams.Translate
