/-
Blocking puts of the UCX transport (`src/transport_ucx.h`, `src/transport_ucx.c`).

The puts of one call share a completion word, 0 at the start. UCX finishes a put when it is posted, or hands out a request
and runs the callback of the put later, in a probe of some thread or in the progress thread. A put that finishes when it
is posted makes the caller store 0, a callback stores 1, and put_wait goes around its loop while the word is positive.
The word says which of the two wrote last and not whether a put is still out.

- `LocalCompletion`: put_wait returns only when all puts have completed, and leaves its loop once they have.
- `put_wait_iff`: it holds in every state of a run exactly if each callback runs before some put stores its 0.
-/
import Mathlib.Data.Int.Notation
import Mathlib.Data.List.Induction
import SandiaShmem.Core.Runs

namespace SandiaShmem.Transport.UcxPut

open Runs

/-! ## Model -/

/-- where the calling thread is; `imm` says that ucp_put_nbx returned NULL -/
inductive Pc where
  | idle
  /-- in shmem_transport_put_nb, ucp_put_nbx has returned -/
  | posted (imm : Bool)
  /-- in the loop of shmem_transport_put_wait -/
  | waiting
  | returned
deriving DecidableEq, Repr

/-- what can happen: moves of the calling thread and callbacks -/
inductive Ev where
  /-- `ucp_put_nbx`: NULL for a put that has completed, a request otherwise -/
  | put_nbx (imm : Bool)
  | post_cb_op (imm : Bool)
  | cb_complete (i : ℕ)
  | put_wait
  /-- the load in the loop of shmem_transport_put_wait, and a probe or the return -/
  | load
deriving DecidableEq, Repr

/-- the state: which of the posted puts have completed locally, and the completion word -/
structure St where
  pc : Pc
  puts : List Bool
  completion : ℤ
deriving DecidableEq, Repr

def init : St := ⟨.idle, [], 0⟩

/-- `shmem_transport_ucx_post_cb_op`; a request is only freed -/
def postCbOp (imm : Bool) (completion : ℤ) : ℤ := if imm then 0 else completion

/-- `shmem_transport_ucx_cb_complete` -/
def cbComplete : ℤ := 1

/-- the condition of the loop in `shmem_transport_put_wait` -/
def waitCond (completion : ℤ) : Prop := completion > 0

instance (c : ℤ) : Decidable (waitCond c) := inferInstanceAs (Decidable (_ > _))

/-- the event can happen: the thread is there, and a callback runs once, for a put that is out -/
def Enabled (s : St) : Ev → Prop
  | .put_nbx _ => s.pc = .idle
  | .post_cb_op imm => s.pc = .posted imm
  | .cb_complete i => s.puts[i]? = some false
  | .put_wait => s.pc = .idle
  | .load => s.pc = .waiting

instance (s : St) (e : Ev) : Decidable (Enabled s e) := by
  cases e <;> exact inferInstanceAs (Decidable (_ = _))

def step (s : St) : Ev → St
  | .put_nbx imm => { s with pc := .posted imm, puts := s.puts ++ [imm] }
  | .post_cb_op imm => { s with pc := .idle, completion := postCbOp imm s.completion }
  | .cb_complete i => { s with puts := s.puts.set i true, completion := cbComplete }
  | .put_wait => { s with pc := .waiting }
  | .load => if waitCond s.completion then s else { s with pc := .returned }

/-- all puts posted so far have completed locally -/
def St.AllDone (s : St) : Prop := ∀ p ∈ s.puts, p = true

/-- put_wait has been called -/
def St.Late (s : St) : Prop := s.pc = .waiting ∨ s.pc = .returned

instance (s : St) : Decidable s.AllDone := inferInstanceAs (Decidable (∀ _ ∈ _, _))
instance (s : St) : Decidable s.Late := inferInstanceAs (Decidable (_ ∨ _))

/-- put_wait returns only when all puts have completed, and when they have its loop condition is false -/
structure LocalCompletion (s : St) : Prop where
  returned : s.pc = .returned → s.AllDone
  exits : s.pc = .waiting → s.AllDone → ¬ waitCond s.completion

instance (s : St) : Decidable (LocalCompletion s) :=
  decidable_of_iff ((s.pc = .returned → s.AllDone) ∧ (s.pc = .waiting → s.AllDone → ¬ waitCond s.completion))
    ⟨fun h => ⟨h.1, h.2⟩, fun h => ⟨h.1, h.2⟩⟩

/-- a run of one call: every event can happen when it does, put_wait is called, and UCX finishes every put -/
structure Complete (evs : List Ev) : Prop where
  enabled : Meets step Enabled init evs
  late : (run step init evs).Late
  done : (run step init evs).AllDone

/-! ## One step -/

/-- the word is positive after a step only if a callback has run, or it was positive and no 0 was stored -/
theorem step_positive {s : St} {e : Ev} (h : waitCond (step s e).completion) :
    (∃ i, e = .cb_complete i) ∨ (waitCond s.completion ∧ e ≠ .post_cb_op true) := by
  cases e with
  | put_nbx imm => exact .inr ⟨h, nofun⟩
  | post_cb_op imm =>
    cases imm with
    | false => exact .inr ⟨h, by simp⟩
    | true => exact absurd h (Int.lt_irrefl 0)
  | cb_complete i => exact .inl ⟨i, rfl⟩
  | put_wait => exact .inr ⟨h, nofun⟩
  | load =>
    refine .inr ⟨?_, nofun⟩
    simp only [step] at h
    split at h
    · exact h
    · exact h

/-- a positive word stays so until a 0 is stored, and put_wait does not return from it -/
theorem step_stays {s : St} {e : Ev} (hw : waitCond s.completion) (he : e ≠ .post_cb_op true) :
    waitCond (step s e).completion ∧ ((step s e).pc = .returned → s.pc = .returned) := by
  cases e with
  | put_nbx imm => exact ⟨hw, nofun⟩
  | post_cb_op imm =>
    cases imm with
    | false => exact ⟨hw, nofun⟩
    | true => exact absurd rfl he
  | cb_complete i => exact ⟨Int.one_pos, id⟩
  | put_wait => exact ⟨hw, nofun⟩
  | load =>
    simp only [step]
    rw [if_pos hw]
    exact ⟨hw, id⟩

/-- once put_wait has been called, only callbacks change what has completed, and no 0 is stored -/
theorem step_late {s : St} {e : Ev} (hs : s.Late) (he : Enabled s e) :
    (step s e).Late ∧ e ≠ .post_cb_op true ∧ ((∃ i, e = .cb_complete i) ∨ (step s e).puts = s.puts) := by
  have hidle : s.pc ≠ .idle := by
    rcases hs with h | h
    · rw [h]; nofun
    · rw [h]; nofun
  have hposted : ∀ imm, s.pc ≠ .posted imm := by
    intro imm
    rcases hs with h | h
    · rw [h]; nofun
    · rw [h]; nofun
  cases e with
  | put_nbx imm => exact absurd he hidle
  | post_cb_op imm => exact absurd he (hposted imm)
  | cb_complete i => exact ⟨hs, nofun, .inl ⟨i, rfl⟩⟩
  | put_wait => exact absurd he hidle
  | load =>
    refine ⟨?_, nofun, .inr ?_⟩
    · simp only [step]
      split
      · exact hs
      · exact .inr rfl
    · simp only [step]
      split
      · rfl
      · rfl

/-! ## Runs -/

/-- the word is positive only if no 0 has been stored since the last callback -/
theorem run_positive (evs : List Ev) (h : waitCond (run step init evs).completion) :
    ∃ a i b, evs = a ++ .cb_complete i :: b ∧ Ev.post_cb_op true ∉ b := by
  induction evs using List.reverseRecOn with
  | nil => exact absurd h (Int.lt_irrefl 0)
  | append_singleton evs e ih =>
    rw [run_snoc] at h
    rcases step_positive h with ⟨i, rfl⟩ | ⟨hw, he⟩
    · exact ⟨evs, i, [], rfl, List.not_mem_nil⟩
    · obtain ⟨a, i, b, rfl, hb⟩ := ih hw
      refine ⟨a, i, b ++ [e], by simp, ?_⟩
      rw [List.mem_append, List.mem_singleton]
      exact not_or.mpr ⟨hb, Ne.symm he⟩

/-- from a positive word, without a 0 being stored, put_wait does not return any more -/
theorem run_stays (evs : List Ev) (s : St) (hw : waitCond s.completion) (h : Ev.post_cb_op true ∉ evs) :
    waitCond (run step s evs).completion ∧ ((run step s evs).pc = .returned → s.pc = .returned) := by
  induction evs generalizing s with
  | nil => exact ⟨hw, id⟩
  | cons e evs ih =>
    rw [List.mem_cons] at h
    obtain ⟨he, hevs⟩ := not_or.mp h
    obtain ⟨hw', hpc⟩ := step_stays hw (Ne.symm he)
    obtain ⟨hend, hret⟩ := ih _ hw' hevs
    exact ⟨hend, fun h => hpc (hret h)⟩

/-- after the call of put_wait no 0 is stored, and without a callback nothing completes -/
theorem run_late (evs : List Ev) (s : St) (hs : s.Late) (h : Meets step Enabled s evs) :
    Ev.post_cb_op true ∉ evs ∧ ((∀ i, Ev.cb_complete i ∉ evs) → (run step s evs).puts = s.puts) := by
  induction evs generalizing s with
  | nil => exact ⟨List.not_mem_nil, fun _ => rfl⟩
  | cons e evs ih =>
    obtain ⟨hl, he, hp⟩ := step_late hs h.1
    obtain ⟨hevs, hputs⟩ := ih _ hl h.2
    refine ⟨?_, fun hcb => ?_⟩
    · rw [List.mem_cons]
      exact not_or.mpr ⟨Ne.symm he, hevs⟩
    · rcases hp with ⟨i, rfl⟩ | hp
      · exact absurd List.mem_cons_self (hcb i)
      · exact (hputs fun i hi => hcb i (List.mem_cons_of_mem e hi)).trans hp

/-! ## When a blocking put completes locally -/

/-- every callback runs before some put stores its 0 -/
def CallbacksFirst (evs : List Ev) : Prop :=
  ∀ a i b, evs = a ++ .cb_complete i :: b → Ev.post_cb_op true ∈ b

/-- a callback behind the last 0 is seen by put_wait as a put that is still out, or not at all -/
theorem not_localCompletion {a b : List Ev} {i : ℕ} (h : Complete (a ++ .cb_complete i :: b))
    (hb : Ev.post_cb_op true ∉ b) :
    ¬ LocalCompletion (run step init a) ∨ ¬ LocalCompletion (run step init (a ++ .cb_complete i :: b)) := by
  have hcb : Enabled (run step init a) (.cb_complete i) := ((meets_append step Enabled init a _).mp h.enabled).2.1
  have hlate := h.late
  have hdone := h.done
  rw [run_append, run_cons] at hlate hdone ⊢
  obtain ⟨hw, hret⟩ := run_stays b (step (run step init a) (.cb_complete i)) Int.one_pos hb
  rcases hlate with hpc | hpc
  · exact .inr fun hl => hl.exits hpc hdone hw
  · refine .inl fun hl => ?_
    have hall : (run step init a).AllDone := hl.returned (hret hpc)
    exact Bool.noConfusion (hall false (List.mem_of_getElem? hcb))

/-- **Local completion of blocking puts.** In a call whose puts all finish, put_wait returns only when all of them have
completed, and its loop condition is false once they have, exactly if every put that was not finished when it was posted
has its callback run before a put that was stores its 0. -/
theorem put_wait_iff (evs : List Ev) (h : Complete evs) :
    (∀ n, LocalCompletion (run step init (evs.take n))) ↔ CallbacksFirst evs := by
  constructor
  · rintro hall a i b rfl
    by_contra hb
    rcases not_localCompletion h hb with hbad | hbad
    · have hpre := hall a.length
      rw [List.take_left' rfl] at hpre
      exact hbad hpre
    · have hend := hall (a ++ Ev.cb_complete i :: b).length
      rw [List.take_length] at hend
      exact hbad hend
  · intro hfirst n
    -- what is left to happen when put_wait has been called holds no callback: no put stores a 0 any more
    have hsplit : evs.take n ++ evs.drop n = evs := List.take_append_drop n evs
    have hmeets := h.enabled
    rw [← hsplit, meets_append] at hmeets
    have hdone : (run step init (evs.take n)).Late → (run step init (evs.take n)).AllDone := by
      intro hlate
      obtain ⟨hno, hputs⟩ := run_late _ _ hlate hmeets.2
      have hcb : ∀ i, Ev.cb_complete i ∉ evs.drop n := by
        intro i hi
        obtain ⟨a, b, hab⟩ := List.append_of_mem hi
        have hmem := hfirst (evs.take n ++ a) i b (by rw [List.append_assoc, ← hab, hsplit])
        exact hno (hab ▸ List.mem_append_right a (List.mem_cons_of_mem _ hmem))
      have hend := h.done
      rw [← hsplit, run_append] at hend
      unfold St.AllDone at hend ⊢
      rwa [hputs hcb] at hend
    refine ⟨fun hpc => hdone (.inr hpc), fun hpc _ hw => ?_⟩
    obtain ⟨a, i, b, hab, hb⟩ := run_positive _ hw
    have heq : evs = a ++ Ev.cb_complete i :: (b ++ evs.drop n) :=
      calc evs = evs.take n ++ evs.drop n := hsplit.symm
        _ = (a ++ Ev.cb_complete i :: b) ++ evs.drop n := by rw [hab]
        _ = a ++ Ev.cb_complete i :: (b ++ evs.drop n) := List.append_assoc ..
    have hmem := hfirst a i (b ++ evs.drop n) heq
    obtain ⟨hno, -⟩ := run_late _ _ (.inl hpc) hmeets.2
    rcases List.mem_append.mp hmem with h' | h'
    · exact hb h'
    · exact hno h'

/-- a deferred put, its callback, and a put that finishes when it is posted -/
def mixedRun : List Ev :=
  [.put_nbx false, .post_cb_op false, .put_nbx true, .cb_complete 0, .post_cb_op true, .put_wait, .load]

theorem put_wait_iff_mixed : (∀ n, LocalCompletion (run step init (mixedRun.take n))) ↔ CallbacksFirst mixedRun :=
  put_wait_iff mixedRun ⟨⟨rfl, rfl, rfl, rfl, rfl, rfl, rfl, trivial⟩, by decide, by decide⟩

/-- **A put that is not finished when it is posted.** put_wait returns before the put has completed; and when the callback
has run before the call, the loop condition stays true although the put has completed. -/
theorem put_wait_deferred :
    (Complete [.put_nbx false, .post_cb_op false, .put_wait, .load, .cb_complete 0] ∧
      ¬ LocalCompletion (run step init [.put_nbx false, .post_cb_op false, .put_wait, .load])) ∧
    (Complete [.put_nbx false, .post_cb_op false, .cb_complete 0, .put_wait, .load] ∧
      ¬ LocalCompletion (run step init [.put_nbx false, .post_cb_op false, .cb_complete 0, .put_wait, .load])) :=
  ⟨⟨⟨⟨rfl, rfl, rfl, rfl, rfl, trivial⟩, by decide, by decide⟩, by decide⟩,
    ⟨⟨rfl, rfl, rfl, rfl, rfl, trivial⟩, by decide, by decide⟩, by decide⟩

end SandiaShmem.Transport.UcxPut
