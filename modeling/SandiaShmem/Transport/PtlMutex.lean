/-
The mutexes of the Portals4 transport in SHMEM_THREAD_MULTIPLE (`src/transport_portals4.h`).

A call is the list of the locks and unlocks it makes, given the events it drains while it waits for a slot of the event
queue or for a completion. `shmem_transport_portals4_drain_eq` expects the event_slots mutex to be held: it releases it
while it blocks, takes it again, and takes the frag mutex for itself. `shmem_transport_put_wait` calls it without the
event_slots mutex, and `shmem_transport_atomicv` calls it with the frag mutex held.

- `discipline_iff`: a call keeps the discipline iff it is not one of these two that has to drain.
-/
import SandiaShmem.Core.LockTrace
import Mathlib.Tactic
import Mathlib.Algebra.Order.Floor.Div

namespace SandiaShmem.Transport.PtlMutex

open LockTrace

/-- `shmem_internal_mutex_ptl4_event_slots`, `shmem_internal_mutex_ptl4_frag`, and the locks of the two free lists -/
inductive Mutex where
  | eventSlots
  | frag
  | bounceBuffers
  | longFrags
deriving DecidableEq, Repr

/-- the send events: of a bounce buffer, and of a long fragment that has more events to come or not -/
inductive Event where
  | bounce
  | longMore
  | longLast
deriving DecidableEq, Repr

/-- the sizes the calls compare with -/
structure Sizes where
  max_volatile_size : ℕ
  bounce_buffer_size : ℕ
  max_atomic_size : ℕ

/-- `shmem_free_list_alloc` and `shmem_free_list_free` between their lock and unlock -/
def freeList (m : Mutex) : List (Act Mutex) := [.lock m, .unlock m]

/-- `shmem_transport_portals4_drain_eq`, for the event it gets -/
def drainEq (ev : Event) : List (Act Mutex) :=
  [.unlock .eventSlots, .lock .eventSlots, .lock .frag, .unlock .frag] ++
    match ev with
    | .bounce => freeList .bounceBuffers
    | .longMore => []
    | .longLast => freeList .longFrags

/-- the loop `while (0 >= --event_slots) { event_slots++; drain_eq(); }` with its mutex, for the events it drains -/
def throttle (evs : List Event) : List (Act Mutex) := .lock .eventSlots :: (evs.flatMap drainEq ++ [.unlock .eventSlots])

/-- `shmem_transport_portals4_put_nb_internal`; `buffered` is the option SHMEMX_CTX_BOUNCE_BUFFER of the context -/
def putNbInternal (Z : Sizes) (buffered : Bool) (len : ℕ) (evs : List Event) : List (Act Mutex) :=
  if len ≤ Z.max_volatile_size then []
  else if len ≤ Z.bounce_buffer_size ∧ buffered then throttle evs ++ freeList .bounceBuffers
  else throttle evs ++ freeList .longFrags

/-- `shmem_transport_put_nbi` takes no mutex -/
def putNbi : List (Act Mutex) := []

/-- `shmem_transport_put_nb` -/
def putNb (Z : Sizes) (buffered : Bool) (len : ℕ) (evs : List Event) : List (Act Mutex) :=
  if buffered then putNbInternal Z buffered len evs else putNbi

/-- `shmem_transport_quiet` takes no mutex -/
def quiet : List (Act Mutex) := []

/-- `shmem_transport_put_wait`, for the events it drains while it sees *completion > 0 -/
def putWait (buffered : Bool) (evs : List Event) : List (Act Mutex) :=
  if buffered then evs.flatMap drainEq else quiet

/-- `shmem_transport_atomicv`, for the events drained before each of the operations it posts -/
def atomicv (Z : Sizes) (len : ℕ) (evs : ℕ → List Event) : List (Act Mutex) :=
  if len ≤ Z.max_volatile_size then []
  else if len ≤ min Z.bounce_buffer_size Z.max_atomic_size then throttle (evs 0) ++ freeList .bounceBuffers
  else
    freeList .longFrags ++
      .lock .frag :: ((List.range (len ⌈/⌉ Z.max_atomic_size)).flatMap (fun i => throttle (evs i)) ++ [.unlock .frag])

/-- a call with what happens in it -/
inductive Call where
  | putNb (buffered : Bool) (len : ℕ) (evs : List Event)
  | putNbi (buffered : Bool) (len : ℕ)
  | putWait (buffered : Bool) (evs : List Event)
  | atomicv (len : ℕ) (evs : ℕ → List Event)
  | quiet

/-- its locks and unlocks -/
def Call.acts (Z : Sizes) : Call → List (Act Mutex)
  | .putNb buffered len evs => PtlMutex.putNb Z buffered len evs
  | .putNbi _ _ => PtlMutex.putNbi
  | .putWait buffered evs => PtlMutex.putWait buffered evs
  | .atomicv len evs => PtlMutex.atomicv Z len evs
  | .quiet => PtlMutex.quiet

/-- from a state where the thread holds no mutex, the call unlocks what it holds, locks what it does not hold, and returns
holding nothing -/
def Disciplined (Z : Sizes) (c : Call) : Prop := Neutral ∅ (c.acts Z)

/-- a drain that is not made under the event_slots mutex alone: by a `put_wait` that finds *completion > 0, or by an
`atomicv` that has to wait for a slot between the operations of a long transfer -/
def DrainsUnprotected (Z : Sizes) : Call → Prop
  | .putWait buffered evs => buffered = true ∧ evs ≠ []
  | .atomicv len evs => Z.max_volatile_size < len ∧ min Z.bounce_buffer_size Z.max_atomic_size < len ∧
      ∃ i < len ⌈/⌉ Z.max_atomic_size, evs i ≠ []
  | _ => False

/-! ## Draining -/

theorem freeList_neutral {h : Finset Mutex} {m : Mutex} (hm : m ∉ h) : Neutral h (freeList m) :=
  Neutral.section hm (neutral_nil _)

/-- under the event_slots mutex alone a drain is as it should be -/
theorem drainEq_neutral (ev : Event) : Neutral {Mutex.eventSlots} (drainEq ev) := by
  refine Neutral.append (by decide) ?_
  cases ev with
  | bounce => exact freeList_neutral (by decide)
  | longMore => exact neutral_nil _
  | longLast => exact freeList_neutral (by decide)

theorem throttle_neutral (evs : List Event) : Neutral ∅ (throttle evs) := by
  refine Neutral.section (by decide) (Neutral.flatMap fun ev _ => ?_)
  exact drainEq_neutral ev

/-- without the event_slots mutex it fails -/
theorem drainEq_unheld (ev : Event) : held ∅ (drainEq ev) = none :=
  held_eq_none_of_left _ (by decide)

/-- with the frag mutex held it fails -/
theorem drainEq_frag (ev : Event) : held {Mutex.eventSlots, Mutex.frag} (drainEq ev) = none :=
  held_eq_none_of_left _ (by decide)

/-- a wait for a slot with the frag mutex held, when there is a slot and when there is none -/
theorem throttle_frag (evs : List Event) :
    held {Mutex.frag} (throttle evs) = if evs = [] then some {Mutex.frag} else none := by
  cases evs with
  | nil => decide
  | cons ev evs =>
    have hlock : actOn {Mutex.frag} (.lock Mutex.eventSlots) = some {Mutex.eventSlots, Mutex.frag} := by decide
    rw [if_neg (List.cons_ne_nil _ _), throttle, held, hlock, Option.bind_some, List.flatMap_cons, List.append_assoc]
    exact held_eq_none_of_left _ (drainEq_frag ev)

/-- a loop of such waits -/
theorem throttles_frag (evs : ℕ → List Event) (n : ℕ) :
    held {Mutex.frag} ((List.range n).flatMap fun i => throttle (evs i)) =
      if ∀ i < n, evs i = [] then some {Mutex.frag} else none := by
  induction n with
  | zero => simp [held]
  | succ n ih =>
    rw [List.range_succ, List.flatMap_append, held_append, ih]
    by_cases hall : ∀ i < n, evs i = []
    · rw [if_pos hall, Option.bind_some, List.flatMap_singleton, throttle_frag]
      have hiff : (∀ i < n + 1, evs i = []) ↔ evs n = [] := by
        refine ⟨fun h => h n (by omega), fun h i hi => ?_⟩
        rcases Nat.lt_succ_iff_lt_or_eq.mp hi with hi | rfl
        · exact hall i hi
        · exact h
      simp only [hiff]
    · rw [if_neg hall, if_neg fun h => hall fun i hi => h i (by omega)]
      rfl

/-! ## Calls -/

theorem putNb_disciplined (Z : Sizes) (buffered : Bool) (len : ℕ) (evs : List Event) :
    Neutral ∅ (putNb Z buffered len evs) := by
  unfold putNb putNbInternal
  split_ifs
  · exact neutral_nil _
  · exact (throttle_neutral evs).append (freeList_neutral (by decide))
  · exact (throttle_neutral evs).append (freeList_neutral (by decide))
  · exact neutral_nil _

theorem putWait_disciplined_iff (buffered : Bool) (evs : List Event) :
    Neutral ∅ (putWait buffered evs) ↔ ¬ (buffered = true ∧ evs ≠ []) := by
  unfold putWait
  cases buffered with
  | false => simp [quiet, neutral_nil]
  | true =>
    cases evs with
    | nil => simp [neutral_nil]
    | cons ev evs =>
      have hnone : held ∅ ((ev :: evs).flatMap drainEq) = none := by
        rw [List.flatMap_cons]
        exact held_eq_none_of_left _ (drainEq_unheld ev)
      rw [if_pos rfl, Neutral, hnone]
      exact iff_of_false (by simp) fun h => h ⟨rfl, List.cons_ne_nil _ _⟩

theorem atomicv_disciplined_iff (Z : Sizes) (len : ℕ) (evs : ℕ → List Event) :
    Neutral ∅ (atomicv Z len evs) ↔ ¬ DrainsUnprotected Z (.atomicv len evs) := by
  unfold atomicv DrainsUnprotected
  by_cases hvol : len ≤ Z.max_volatile_size
  · rw [if_pos hvol]
    exact iff_of_true (neutral_nil _) fun h => absurd h.1 (by omega)
  · rw [if_neg hvol]
    by_cases hbb : len ≤ min Z.bounce_buffer_size Z.max_atomic_size
    · rw [if_pos hbb]
      exact iff_of_true ((throttle_neutral _).append (freeList_neutral (by decide))) fun h => absurd h.2.1 (by omega)
    · -- the long transfer: the frag mutex is held around the waits
      rw [if_neg hbb, Neutral, held_append, freeList_neutral (by decide), Option.bind_some, held,
        show actOn ∅ (.lock Mutex.frag) = some {Mutex.frag} by decide, Option.bind_some, held_append, throttles_frag]
      by_cases hall : ∀ i < len ⌈/⌉ Z.max_atomic_size, evs i = []
      · rw [if_pos hall]
        refine iff_of_true (by decide) ?_
        rintro ⟨-, -, i, hi, hne⟩
        exact hne (hall i hi)
      · rw [if_neg hall]
        push Not at hall
        exact iff_of_false (by simp) fun h => h ⟨by omega, by omega, hall⟩

/-- **The discipline, exactly.** For all sizes and every call, whatever the events it drains: the call keeps the
discipline iff it is neither a `put_wait` on a buffered context that drains nor an `atomicv` that drains between the
operations of a long transfer. -/
theorem discipline_iff (Z : Sizes) (c : Call) : Disciplined Z c ↔ ¬ DrainsUnprotected Z c := by
  cases c with
  | putNb buffered len evs => exact iff_of_true (putNb_disciplined Z buffered len evs) fun h => h
  | putNbi buffered len => exact iff_of_true (neutral_nil _) fun h => h
  | putWait buffered evs => exact putWait_disciplined_iff buffered evs
  | atomicv len evs => exact atomicv_disciplined_iff Z len evs
  | quiet => exact iff_of_true (neutral_nil _) fun h => h

/-- **A wait unlocks a mutex it does not hold.** `put_wait` with one long transfer outstanding. -/
theorem put_wait_not_disciplined : ¬ ∀ (Z : Sizes) (c : Call), Disciplined Z c := by
  intro h
  have hwait := h ⟨8, 4096, 64⟩ (.putWait true [.longLast])
  exact absurd hwait (show ¬ Neutral ∅ (putWait true [.longLast]) by decide)

/-- `atomicv` locks the frag mutex twice when it has to wait between the operations of a long transfer -/
example : held ∅ (atomicv ⟨8, 4096, 64⟩ 8192 fun i => if i = 1 then [.longMore] else []) = none := by decide +kernel

end SandiaShmem.Transport.PtlMutex
