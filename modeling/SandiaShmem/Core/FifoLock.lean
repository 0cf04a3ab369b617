/-
The abstract first-come-first-served lock, over an arbitrary type of parties.

The lock is known by its events. A party joins the queue (`enqueue`), the oldest queued party that does not hold the
lock yet gets it (`acquire`), the holder leaves (`release`). `step` accepts an event or refuses it, `accepts` runs a
whole history. What a history that is accepted satisfies:
- `acquired_prefix`: the lock is acquired exactly in the order of the `enqueue` events;
- `accepts_queueOf`: the queue is what has been enqueued and not yet released, oldest first.
-/
import Mathlib.Tactic

namespace FifoLock

variable {P : Type*} [DecidableEq P]

/-- the events of a first-come-first-served lock -/
inductive Ev (P : Type*) where
  | enqueue (p : P)
  | acquire (p : P)
  | release (p : P)
deriving DecidableEq, Repr

/-- the queue, oldest first, and whether its head holds the lock -/
structure St (P : Type*) where
  queue : List P
  granted : Bool
deriving DecidableEq, Repr

/-- the lock with nobody queued -/
def init : St P := ⟨[], false⟩

/-- one event; `none` when a first-come-first-served lock does not allow it -/
def step (s : St P) : Ev P → Option (St P)
  | .enqueue p => if p ∈ s.queue then none else some { s with queue := s.queue ++ [p] }
  | .acquire p => if s.queue.head? = some p ∧ s.granted = false then some { s with granted := true } else none
  | .release p => if s.queue.head? = some p ∧ s.granted = true then some ⟨s.queue.tail, false⟩ else none

/-- a whole history -/
def accepts (s : St P) : List (Ev P) → Option (St P)
  | [] => some s
  | e :: es => (step s e).bind fun t => accepts t es

theorem accepts_append (s : St P) (a b : List (Ev P)) :
    accepts s (a ++ b) = (accepts s a).bind fun t => accepts t b := by
  induction a generalizing s with
  | nil => rfl
  | cons e es ih => simp only [List.cons_append, accepts, ih, Option.bind_assoc]

theorem accepts_snoc (s : St P) (es : List (Ev P)) (e : Ev P) :
    accepts s (es ++ [e]) = (accepts s es).bind fun t => step t e := by
  rw [accepts_append]
  congr 1
  funext t
  simp [accepts]

/-- the parties of the `enqueue` events, in order -/
def enqueued : List (Ev P) → List P :=
  List.filterMap fun | .enqueue p => some p | _ => none

/-- the parties of the `acquire` events, in order -/
def acquired : List (Ev P) → List P :=
  List.filterMap fun | .acquire p => some p | _ => none

/-- the parties of the `release` events, in order -/
def released : List (Ev P) → List P :=
  List.filterMap fun | .release p => some p | _ => none

omit [DecidableEq P] in
@[simp] theorem enqueued_append (a b : List (Ev P)) : enqueued (a ++ b) = enqueued a ++ enqueued b := by
  simp [enqueued]

omit [DecidableEq P] in
@[simp] theorem acquired_append (a b : List (Ev P)) : acquired (a ++ b) = acquired a ++ acquired b := by
  simp [acquired]

omit [DecidableEq P] in
@[simp] theorem released_append (a b : List (Ev P)) : released (a ++ b) = released a ++ released b := by
  simp [released]

/-- the parties that have enqueued and not yet released, in the order of their `enqueue` events -/
def queueOf (es : List (Ev P)) : List P :=
  es.foldl (fun q e => match e with | .enqueue p => q ++ [p] | .acquire _ => q | .release p => q.erase p) []

/-- the queue of an accepted history, read off the history -/
theorem accepts_queueOf (es : List (Ev P)) (s : St P) (h : accepts init es = some s) : queueOf es = s.queue := by
  induction es using List.reverseRecOn generalizing s with
  | nil =>
    simp only [accepts, Option.some.injEq] at h
    rw [← h]; rfl
  | append_singleton es e ih =>
    rw [accepts_snoc] at h
    obtain ⟨t, ht, hte⟩ := Option.bind_eq_some_iff.1 h
    have hq := ih t ht
    unfold queueOf at hq ⊢
    rw [List.foldl_append, hq]
    cases e with
    | enqueue p =>
      simp only [step] at hte
      split_ifs at hte
      cases hte; rfl
    | acquire p =>
      simp only [step] at hte
      split_ifs at hte
      cases hte; rfl
    | release p =>
      simp only [step] at hte
      split_ifs at hte with hp
      cases hte
      rcases ht' : t.queue with _ | ⟨x, xs⟩
      · rw [ht'] at hp; simp at hp
      · rw [ht'] at hp
        simp only [List.head?_cons, Option.some.injEq] at hp
        simp [hp.1]

/-- who holds the lock: the head of the queue, once it has acquired -/
def holder (s : St P) : List P := if s.granted then s.queue.take 1 else []

/-- the bookkeeping of an accepted history -/
structure Book (es : List (Ev P)) (s : St P) : Prop where
  enq : enqueued es = released es ++ s.queue
  acq : acquired es = released es ++ holder s
  nodup : s.queue.Nodup
  held : s.granted = true → s.queue ≠ []

omit [DecidableEq P] in
theorem book_init : Book ([] : List (Ev P)) init := by
  constructor <;> simp [enqueued, acquired, released, holder, init]

theorem step_book (es : List (Ev P)) (s t : St P) (e : Ev P) (h : Book es s) (hs : step s e = some t) :
    Book (es ++ [e]) t := by
  cases e with
  | enqueue p =>
    simp only [step] at hs
    split_ifs at hs with hp
    cases hs
    refine ⟨?_, ?_, ?_, ?_⟩
    · rw [enqueued_append, released_append, h.enq]
      simp [enqueued, released]
    · have hh : holder { s with queue := s.queue ++ [p] } = holder s := by
        unfold holder
        by_cases hg : s.granted = true
        · have := h.held hg
          rcases hq : s.queue with _ | ⟨x, xs⟩
          · exact absurd hq this
          · simp [hg]
        · simp [hg]
      rw [hh, acquired_append, released_append, h.acq]
      simp [acquired, released]
    · exact List.nodup_append.2 ⟨h.nodup, List.nodup_singleton _, by
        intro a ha b hb; simp at hb; subst hb; rintro rfl; exact hp ha⟩
    · intro _; simp
  | acquire p =>
    simp only [step] at hs
    split_ifs at hs with hp
    cases hs
    obtain ⟨hhead, hg⟩ := hp
    rcases hq : s.queue with _ | ⟨x, xs⟩
    · rw [hq] at hhead; simp at hhead
    · rw [hq] at hhead
      simp only [List.head?_cons, Option.some.injEq] at hhead
      subst hhead
      refine ⟨?_, ?_, ?_, ?_⟩
      · rw [enqueued_append, released_append, h.enq]
        simp [enqueued, released, hq]
      · rw [acquired_append, released_append, h.acq]
        simp [acquired, released, holder, hg]
      · simpa [hq] using h.nodup
      · intro _; simp
  | release p =>
    simp only [step] at hs
    split_ifs at hs with hp
    cases hs
    obtain ⟨hhead, hg⟩ := hp
    rcases hq : s.queue with _ | ⟨x, xs⟩
    · rw [hq] at hhead; simp at hhead
    · rw [hq] at hhead
      simp only [List.head?_cons, Option.some.injEq] at hhead
      subst hhead
      refine ⟨?_, ?_, ?_, ?_⟩
      · rw [enqueued_append, released_append, h.enq]
        simp [enqueued, released, hq]
      · rw [acquired_append, released_append, h.acq]
        simp [acquired, released, holder, hg, hq]
      · exact (by simpa [hq] using h.nodup : (x :: xs).Nodup).tail
      · intro hf; simp at hf

theorem accepts_book (es : List (Ev P)) (s : St P) (h : accepts init es = some s) : Book es s := by
  induction es using List.reverseRecOn generalizing s with
  | nil =>
    simp only [accepts, Option.some.injEq] at h
    exact h ▸ book_init
  | append_singleton es e ih =>
    rw [accepts_snoc] at h
    obtain ⟨t, ht, hte⟩ := Option.bind_eq_some_iff.1 h
    exact step_book es t s e (ih t ht) hte

/-- **First come, first served.** The lock is acquired exactly in the order of the `enqueue` events. -/
theorem acquired_prefix (es : List (Ev P)) (s : St P) (h : accepts init es = some s) :
    acquired es <+: enqueued es := by
  have hb := accepts_book es s h
  rw [hb.acq, hb.enq]
  refine (List.prefix_append_right_inj _).2 ?_
  unfold holder
  split_ifs
  · exact List.take_prefix _ _
  · exact List.nil_prefix

end FifoLock
