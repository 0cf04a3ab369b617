/-
Completion by counting.

A program counts the operations it issues in a pending counter, and the network counts the operations it has acknowledged
in an event counter. To wait for its operations the program compares the two counters; it never learns which operations
have been acknowledged. Operations are numbered in the order of their increments (`issued`, which unlike `pending` the
program cannot write).

- `Tally.WF`: an acknowledged operation was posted after it was counted, and is counted once.
- `Tally.Le`: nothing is taken back.
- `Tally.WF.all_acked`: when the event counter has reached the number of operations, all of them are acknowledged.
- `Tally.WF.read_then_compare`: the same when the event counter was read first and may have moved on.
-/
import Mathlib.Tactic
import Mathlib.Data.Finset.Card

/-- the two counters and the operations behind them -/
structure Tally where
  pending : ℕ
  issued : ℕ
  posted : ℕ → Bool
  acked : ℕ → Bool
  count : ℕ

namespace Tally

/-- nothing has been issued -/
def zero : Tally := ⟨0, 0, fun _ => false, fun _ => false, 0⟩

/-- the next operation is counted -/
def inc (T : Tally) : Tally := { T with pending := T.pending + 1, issued := T.issued + 1 }

/-- it is handed to the network -/
def post (T : Tally) (k : ℕ) : Tally := { T with posted := Function.update T.posted k true }

/-- the network acknowledges it -/
def ack (T : Tally) (k : ℕ) : Tally := { T with acked := Function.update T.acked k true, count := T.count + 1 }

/-- the program writes its counter -/
def write (T : Tally) (n : ℕ) : Tally := { T with pending := n }

/-- the operations that have been acknowledged -/
def ackedOps (T : Tally) : Finset ℕ := (Finset.range T.issued).filter fun k => T.acked k = true

@[simp] theorem mem_ackedOps (T : Tally) (k : ℕ) : k ∈ T.ackedOps ↔ k < T.issued ∧ T.acked k = true := by
  simp [ackedOps]

structure WF (T : Tally) : Prop where
  acked : ∀ k, T.acked k = true → T.posted k = true
  posted : ∀ k, T.posted k = true → k < T.issued
  count : T.count = T.ackedOps.card

theorem wf_zero : zero.WF := ⟨fun k h => absurd h (by simp [zero]), fun k h => absurd h (by simp [zero]), rfl⟩

variable {T : Tally}

theorem WF.inc (h : T.WF) : T.inc.WF := by
  refine ⟨h.acked, fun k hk => Nat.lt_succ_of_lt (h.posted k hk), ?_⟩
  have hsame : T.inc.ackedOps = T.ackedOps := by
    ext k
    simp only [mem_ackedOps, Tally.inc]
    constructor
    · rintro ⟨-, hk⟩
      exact ⟨h.posted k (h.acked k hk), hk⟩
    · rintro ⟨hlt, hk⟩
      exact ⟨by omega, hk⟩
  rw [hsame]
  exact h.count

theorem WF.post (h : T.WF) {k : ℕ} (hk : k < T.issued) : (T.post k).WF := by
  refine ⟨fun j hj => ?_, fun j hj => ?_, h.count⟩
  · by_cases hjk : j = k
    · subst hjk; simp [Tally.post]
    · simpa [Tally.post, hjk] using h.acked j hj
  · by_cases hjk : j = k
    · exact hjk ▸ hk
    · exact h.posted j (by simpa [Tally.post, hjk] using hj)

theorem WF.ack (h : T.WF) {k : ℕ} (hp : T.posted k = true) (hn : T.acked k = false) : (T.ack k).WF := by
  refine ⟨fun j hj => ?_, h.posted, ?_⟩
  · by_cases hjk : j = k
    · exact hjk ▸ hp
    · exact h.acked j (by simpa [Tally.ack, hjk] using hj)
  · have hnew : (T.ack k).ackedOps = insert k T.ackedOps := by
      ext j
      simp only [mem_ackedOps, Tally.ack, Finset.mem_insert]
      by_cases hjk : j = k
      · subst hjk
        simp [h.posted j hp]
      · simp [hjk]
    have hnot : k ∉ T.ackedOps := by simp [hn]
    rw [hnew, Finset.card_insert_of_notMem hnot, ← h.count]
    rfl

theorem WF.write (h : T.WF) (n : ℕ) : (T.write n).WF := ⟨h.acked, h.posted, h.count⟩

theorem WF.count_le (h : T.WF) : T.count ≤ T.issued := by
  rw [h.count, ackedOps]
  exact (Finset.card_filter_le _ _).trans (by simp)

/-- **Counting is enough.** When as many operations are acknowledged as were issued, all are. -/
theorem WF.all_acked (h : T.WF) (hle : T.issued ≤ T.count) : ∀ k < T.issued, T.acked k = true := by
  intro k hk
  have hcard : T.ackedOps.card = (Finset.range T.issued).card := by
    rw [← h.count, Finset.card_range]
    exact le_antisymm h.count_le hle
  exact (Finset.card_filter_eq_iff.mp hcard) k (Finset.mem_range.mpr hk)

/-- T' is later than T -/
structure Le (T T' : Tally) : Prop where
  issued : T.issued ≤ T'.issued
  count : T.count ≤ T'.count
  acked : ∀ k, T.acked k = true → T'.acked k = true

theorem Le.refl (T : Tally) : Le T T := ⟨le_refl _, le_refl _, fun _ h => h⟩

theorem le_inc (T : Tally) : Le T T.inc := ⟨Nat.le_succ _, le_refl _, fun _ h => h⟩

theorem le_post (T : Tally) (k : ℕ) : Le T (T.post k) := ⟨le_refl _, le_refl _, fun _ h => h⟩

theorem le_ack (T : Tally) (k : ℕ) : Le T (T.ack k) := by
  refine ⟨le_refl _, Nat.le_succ _, fun j hj => ?_⟩
  by_cases hjk : j = k
  · subst hjk; simp [Tally.ack]
  · simpa [Tally.ack, hjk] using hj

theorem le_write (T : Tally) (n : ℕ) : Le T (T.write n) := ⟨le_refl _, le_refl _, fun _ h => h⟩

/-- the event counter was read first (`success`), then the pending counter -/
theorem WF.read_then_compare (h : T.WF) (hsync : T.pending = T.issued) {success : ℕ} (hread : success ≤ T.count)
    (hcmp : T.pending ≤ success) : ∀ k < T.issued, T.acked k = true :=
  h.all_acked (by omega)

end Tally
