/-
What one thread does with its mutexes.

A call is the list of the locks and unlocks it makes. `held` runs such a list from the set of mutexes the thread holds and
fails on an unlock of a mutex that is not held and on a lock of one that is.

- `Neutral`: from a set of held mutexes, a list that does not fail and gives the set back. Neutral lists compose.
-/
import Mathlib.Data.Finset.Basic
import Mathlib.Data.List.Basic

namespace LockTrace

variable {μ : Type*} [DecidableEq μ]

/-- what is done with a mutex -/
inductive Act (μ : Type*) where
  | lock (m : μ)
  | unlock (m : μ)
deriving DecidableEq, Repr

/-- one lock or unlock by a thread that holds h -/
def actOn (h : Finset μ) : Act μ → Option (Finset μ)
  | .lock m => if m ∈ h then none else some (insert m h)
  | .unlock m => if m ∈ h then some (h.erase m) else none

/-- a whole list of them -/
def held (h : Finset μ) : List (Act μ) → Option (Finset μ)
  | [] => some h
  | a :: as => (actOn h a).bind fun h' => held h' as

theorem held_append (h : Finset μ) (as bs : List (Act μ)) : held h (as ++ bs) = (held h as).bind fun h' => held h' bs := by
  induction as generalizing h with
  | nil => rfl
  | cons a as ih =>
    simp only [List.cons_append, held]
    cases actOn h a with
    | none => rfl
    | some h' => exact ih h'

/-- the list does not fail and gives the mutexes back -/
def Neutral (h : Finset μ) (as : List (Act μ)) : Prop := held h as = some h

instance (h : Finset μ) (as : List (Act μ)) : Decidable (Neutral h as) := inferInstanceAs (Decidable (_ = _))

theorem neutral_nil (h : Finset μ) : Neutral h [] := rfl

theorem Neutral.append {h : Finset μ} {as bs : List (Act μ)} (ha : Neutral h as) (hb : Neutral h bs) :
    Neutral h (as ++ bs) := by
  rw [Neutral, held_append, ha]
  exact hb

theorem Neutral.flatMap {ι : Type*} {h : Finset μ} {f : ι → List (Act μ)} {l : List ι} (hf : ∀ x ∈ l, Neutral h (f x)) :
    Neutral h (l.flatMap f) := by
  induction l with
  | nil => exact neutral_nil h
  | cons x l ih =>
    rw [List.flatMap_cons]
    exact (hf x List.mem_cons_self).append (ih fun y hy => hf y (List.mem_cons_of_mem x hy))

/-- a section under a mutex -/
theorem Neutral.section {h : Finset μ} {m : μ} {as : List (Act μ)} (hm : m ∉ h) (ha : Neutral (insert m h) as) :
    Neutral h (.lock m :: (as ++ [.unlock m])) := by
  have hback : held (insert m h) [.unlock m] = some h := by simp [held, actOn, Finset.erase_insert hm]
  rw [Neutral, held, actOn, if_neg hm, Option.bind_some, held_append, ha]
  exact hback

/-- once it has failed it has failed -/
theorem held_eq_none_of_left {h : Finset μ} {as : List (Act μ)} (bs : List (Act μ)) (ha : held h as = none) :
    held h (as ++ bs) = none := by
  rw [held_append, ha]
  rfl

end LockTrace
