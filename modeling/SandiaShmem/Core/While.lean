/-
Loops `while (cond) body` whose body may stop the program, with a limit on the number of rounds.

- `loop_rule`: an invariant with a number of the rounds done, and a bound on that number. It gives a result for every limit
  that is not below the bound.
- `loop_forever`: an invariant under which a loop is not left.
- `pieces`: a length that is cut into pieces of at most `limit`, all but the last one of that size.
- `pieces_cover`, `pieces_apart`: the pieces are a partition.
-/
import Mathlib.Tactic

namespace SandiaShmem.While

/-! ## Loops -/

/-- how a program ends: with a result, by stopping with an error, or not within the limit -/
inductive Outcome (σ : Type*) where
  | returned (s : σ)
  | stopped
  | running
deriving DecidableEq, Repr

section
variable {σ : Type*} (cond : σ → Bool) (body : σ → Option σ)

/-- at most `fuel` rounds of a loop -/
def loop : ℕ → σ → Outcome σ
  | 0, s => if cond s then .running else .returned s
  | fuel + 1, s =>
    if cond s then
      match body s with
      | none => .stopped
      | some s' => loop fuel s'
    else .returned s

/-- a loop whose state after k rounds is in `inv k`, which has rounds below the bound only -/
theorem loop_rule (inv : ℕ → σ → Prop) (bound : ℕ) (hbound : ∀ k s, inv k s → cond s = true → k < bound)
    (hbody : ∀ k s s', inv k s → cond s = true → body s = some s' → inv (k + 1) s') (fuel k : ℕ) (s : σ) (hs : inv k s)
    (hfuel : bound ≤ k + fuel) :
    (∃ k' s', loop cond body fuel s = .returned s' ∧ inv k' s' ∧ cond s' = false) ∨
      (loop cond body fuel s = .stopped ∧ ∃ k' s', inv k' s' ∧ body s' = none) := by
  induction fuel generalizing k s with
  | zero =>
    cases hc : cond s with
    | false => exact .inl ⟨k, s, by simp [loop, hc], hs, hc⟩
    | true =>
      have := hbound k s hs hc
      omega
  | succ fuel ih =>
    cases hc : cond s with
    | false => exact .inl ⟨k, s, by simp [loop, hc], hs, hc⟩
    | true =>
      cases hb : body s with
      | none => exact .inr ⟨by simp [loop, hc, hb], k, s, hs, hb⟩
      | some s' =>
        have hloop : loop cond body (fuel + 1) s = loop cond body fuel s' := by simp [loop, hc, hb]
        rw [hloop]
        exact ih (k + 1) s' (hbody k s s' hs hc hb) (by omega)

/-- a loop that is never left, whatever the limit -/
theorem loop_forever (inv : σ → Prop) (hcond : ∀ s, inv s → cond s = true)
    (hbody : ∀ s, inv s → ∃ s', body s = some s' ∧ inv s') (fuel : ℕ) (s : σ) (hs : inv s) :
    loop cond body fuel s = .running := by
  induction fuel generalizing s with
  | zero => simp [loop, hcond s hs]
  | succ fuel ih =>
    obtain ⟨s', hb, hs'⟩ := hbody s hs
    simp only [loop, hcond s hs, if_true, hb]
    exact ih s' hs'

end

/-! ## Pieces -/

/-- offset and length of piece i -/
def piece (limit len i : ℕ) : ℕ × ℕ := (i * limit, min limit (len - i * limit))

/-- the number of pieces -/
def numPieces (limit len : ℕ) : ℕ := (len + limit - 1) / limit

def pieces (limit len : ℕ) : List (ℕ × ℕ) := (List.range (numPieces limit len)).map (piece limit len)

section
variable {limit len : ℕ} (hlimit : 0 < limit)
include hlimit

/-- a piece begins before the end -/
theorem lt_numPieces_iff {i : ℕ} : i < numPieces limit len ↔ i * limit < len := by
  unfold numPieces
  rw [Nat.lt_div_iff_mul_lt hlimit]
  omega

/-- there are not more pieces than units -/
theorem numPieces_le (len : ℕ) : numPieces limit len ≤ len := by
  by_contra h
  have hlt := (lt_numPieces_iff hlimit).mp (not_le.mp h)
  have := Nat.le_mul_of_pos_right len hlimit
  omega

/-- what is within the limit stays in one piece -/
theorem numPieces_eq_one (hpos : 0 < len) (hle : len ≤ limit) : numPieces limit len = 1 := by
  have h0 : 0 < numPieces limit len := (lt_numPieces_iff hlimit).mpr (by omega)
  have h1 : ¬ 1 < numPieces limit len := by
    rw [lt_numPieces_iff hlimit]
    omega
  omega

theorem mem_pieces {f : ℕ × ℕ} : f ∈ pieces limit len ↔ ∃ i, i * limit < len ∧ f = piece limit len i := by
  unfold pieces
  rw [List.mem_map]
  constructor
  · rintro ⟨i, hi, rfl⟩
    exact ⟨i, (lt_numPieces_iff hlimit).mp (List.mem_range.mp hi), rfl⟩
  · rintro ⟨i, hi, rfl⟩
    exact ⟨i, List.mem_range.mpr ((lt_numPieces_iff hlimit).mpr hi), rfl⟩

/-- every piece has a length, none is too long, and all are within the length -/
theorem pieces_bounds {f : ℕ × ℕ} (hf : f ∈ pieces limit len) : 0 < f.2 ∧ f.2 ≤ limit ∧ f.1 + f.2 ≤ len := by
  obtain ⟨i, hi, rfl⟩ := (mem_pieces hlimit).mp hf
  simp only [piece]
  omega

/-- every position is in a piece -/
theorem pieces_cover {x : ℕ} (hx : x < len) : ∃ f ∈ pieces limit len, f.1 ≤ x ∧ x < f.1 + f.2 := by
  have hle := Nat.div_mul_le_self x limit
  have hlt := Nat.lt_div_mul_add hlimit (a := x)
  refine ⟨piece limit len (x / limit), (mem_pieces hlimit).mpr ⟨x / limit, by omega, rfl⟩, hle, ?_⟩
  simp only [piece]
  omega

omit hlimit in
/-- no position is in two pieces -/
theorem pieces_apart (limit len : ℕ) : (pieces limit len).Pairwise fun f g => f.1 + f.2 ≤ g.1 := by
  refine List.pairwise_map.mpr (List.pairwise_lt_range.imp fun {i j} hij => ?_)
  have := Nat.mul_le_mul_right limit (Nat.succ_le_of_lt hij)
  rw [Nat.succ_mul] at this
  simp only [piece]
  omega

end

end SandiaShmem.While
