/-
What the creation of a context shares between the transports (`src/transport_ofi.c`, `src/transport_portals4.c`,
`src/shmem_internal.h`): the mutexes of the library, and the array of a team's contexts.

SHMEM_MUTEX_LOCK does something only in a build with threads and at SHMEM_THREAD_MULTIPLE. The locks are not recursive: a
thread that takes one it holds waits for ever.

A creation takes the first free entry of team->contexts, and lengthens the array when there is none.
-/
import Mathlib.Data.List.Basic

namespace SandiaShmem.Transport.Contexts

/-! ## Mutexes -/

/-- `shmem_internal_thread_level` -/
inductive ThreadLevel where
  | SINGLE
  | FUNNELED
  | SERIALIZED
  | MULTIPLE
deriving DecidableEq, Repr

/-- the threads of a job -/
structure Threads where
  ENABLE_THREADS : Bool
  level : ThreadLevel
deriving DecidableEq, Repr

/-- the mutexes are real -/
def Threads.mutexes (T : Threads) : Bool := T.ENABLE_THREADS && decide (T.level = .MULTIPLE)

/-- SHMEM_MUTEX_LOCK by a thread that holds the mutex or does not; `none` when it waits for itself -/
def mutexLock (T : Threads) (held : Bool) : Option Bool :=
  if T.mutexes then if held then none else some true else some held

/-- SHMEM_MUTEX_UNLOCK -/
def mutexUnlock (T : Threads) (held : Bool) : Bool := if T.mutexes then false else held

section
variable {T : Threads}

theorem mutexLock_off (h : T.mutexes = false) (held : Bool) : mutexLock T held = some held := by
  simp [mutexLock, h]

theorem mutexUnlock_off (h : T.mutexes = false) (held : Bool) : mutexUnlock T held = held := by
  simp [mutexUnlock, h]

/-- a lock that is free can be taken, and is free when it has been given back -/
theorem mutexLock_unlock (T : Threads) : ∃ h, mutexLock T false = some h ∧ mutexUnlock T h = false := by
  cases hT : T.mutexes with
  | true => exact ⟨true, by simp [mutexLock, hT], by simp [mutexUnlock, hT]⟩
  | false => exact ⟨false, mutexLock_off hT false, mutexUnlock_off hT false⟩

theorem mutexLock_free (h : T.mutexes = true) : mutexLock T false = some true := by
  simp [mutexLock, h]

theorem mutexLock_held (h : T.mutexes = true) : mutexLock T true = none := by
  simp [mutexLock, h]

end

/-! ## team->contexts -/

section
variable {γ : Type*}

/-- `shmem_transport_ofi_grow_size`, `shmem_transport_portals4_grow_size` -/
def growSize : ℕ := 128

/-- the loop that looks for an open slot; the length when there is none -/
def openSlot (contexts : List (Option γ)) : ℕ := contexts.findIdx Option.isNone

/-- the array, with NULLs behind it when it was full -/
def grown (contexts : List (Option γ)) : List (Option γ) :=
  if openSlot contexts < contexts.length then contexts else contexts ++ List.replicate growSize none

/-- the context at an occupied entry -/
def Occupied (contexts : List (Option γ)) (i : ℕ) (c : γ) : Prop := contexts[i]? = some (some c)

theorem openSlot_grown (contexts : List (Option γ)) : (grown contexts)[openSlot contexts]? = some none := by
  unfold grown
  split
  · rename_i h
    have hnone : (contexts[openSlot contexts]).isNone = true := List.findIdx_getElem
    rw [List.getElem?_eq_getElem h, Option.isNone_iff_eq_none.mp hnone]
  · rename_i h
    have heq : openSlot contexts = contexts.length := Nat.le_antisymm List.findIdx_le_length (Nat.le_of_not_lt h)
    rw [heq, List.getElem?_append_right (Nat.le_refl _), Nat.sub_self]
    rfl

theorem occupied_grown (contexts : List (Option γ)) (i : ℕ) (c : γ) :
    Occupied (grown contexts) i c ↔ Occupied contexts i c := by
  unfold grown Occupied
  split
  · exact Iff.rfl
  · by_cases hi : i < contexts.length
    · rw [List.getElem?_append_left hi]
    · have hi : contexts.length ≤ i := Nat.le_of_not_lt hi
      rw [List.getElem?_append_right hi, List.getElem?_replicate, List.getElem?_eq_none hi]
      constructor
      · intro h
        split at h
        · exact absurd (Option.some.inj h) nofun
        · exact absurd h nofun
      · exact fun h => absurd h nofun

/-- clearing the open slot changes nothing -/
theorem grown_set_none (contexts : List (Option γ)) : (grown contexts).set (openSlot contexts) none = grown contexts := by
  have hlt : openSlot contexts < (grown contexts).length := (List.getElem?_eq_some_iff.mp (openSlot_grown contexts)).1
  have hget : (grown contexts)[openSlot contexts] = none := (List.getElem?_eq_some_iff.mp (openSlot_grown contexts)).2
  conv_rhs => rw [← List.set_getElem_self hlt, hget]

end

end SandiaShmem.Transport.Contexts
