/-
Which operations a call posts, beside the model of quiet of the OFI transport (`src/transport_ofi.h`).

`Watched` adds to the state of a context the last call of each thread and the operations that this call has posted, in
their order. Nothing of the transport reads them.

- `exec_moves`: what one instruction does to the code of its thread.
- `Waits`: operations for which a quiet of a thread waits, has waited, or is still to wait.
- `Waits.step`: no step of any thread changes that.
- `Own`: the operations of a call have increasing numbers.
-/
import SandiaShmem.Transport.OfiQuiet

namespace SandiaShmem.Transport.OfiPosts

open SandiaShmem.Transport.OfiQuiet

/-! ## Model -/

structure Watched where
  st : St
  call : ℕ → Option Call
  mine : ℕ → List ℕ

def init : Watched := ⟨OfiQuiet.init, fun _ => none, fun _ => []⟩

variable (P : Params)

/-- thread t can call: it is in no call, and no thread is when the application calls from one thread at a time -/
def Accepts (s : St) (t : ℕ) : Prop := (s.thr t).code = [] ∧ (P.serial = true → s.app = none)

instance (s : St) (t : ℕ) : Decidable (Accepts P s t) := by
  unfold Accepts
  infer_instance

/-- the provider takes an operation of thread t -/
def takes (s : St) (t : ℕ) (a : Answer) : Bool :=
  match (s.thr t).code, a with
  | .post _ :: _, .ok => true
  | _, _ => false

def calls (w : Watched) : Op → ℕ → Option Call
  | .call t c => if Accepts P w.st t then Function.update w.call t (some c) else w.call
  | _ => w.call

def posts (w : Watched) : Op → ℕ → List ℕ
  | .call t _ => if Accepts P w.st t then Function.update w.mine t [] else w.mine
  | .exec t a => if takes w.st t a then Function.update w.mine t (w.mine t ++ [(w.st.thr t).cur]) else w.mine
  | _ => w.mine

def step (w : Watched) (o : Op) : Watched := ⟨OfiQuiet.step P w.st o, calls P w o, posts P w o⟩

/-- the transport is not watched -/
theorem run_st (ops : List Op) :
    (Runs.run (step P) init ops).st = Runs.run (OfiQuiet.step P) OfiQuiet.init ops :=
  Runs.run_map Watched.st (step P) (OfiQuiet.step P) (fun _ _ => rfl) init ops

/-- the code of a thread until it returns to the application -/
def live (c : List Instr) : List Instr := c.takeWhile fun i => i ≠ .appEnd

/-- the instructions that count or post an operation, and those around a quiet -/
def Instr.marks : Instr → Bool
  | .inc => true
  | .post _ => true
  | .quiet => true
  | .quietEnd => true
  | .appEnd => true
  | _ => false

/-! ## Code -/

variable {P} {s : St} {t u : ℕ} {i : Instr} {rest : List Instr} {a : Answer}

@[simp] theorem live_nil : live [] = [] := rfl

@[simp] theorem live_appEnd (rest : List Instr) : live (.appEnd :: rest) = [] := by simp [live]

theorem live_cons (hi : i ≠ .appEnd) : live (i :: rest) = i :: live rest := by simp [live, hi]

theorem live_append {pre : List Instr} (hpre : ∀ j ∈ pre, j ≠ .appEnd) : live (pre ++ rest) = pre ++ live rest :=
  List.takeWhile_append_of_pos fun j hj => decide_eq_true (hpre j hj)

theorem live_append_appEnd (c : List Instr) : live (c ++ [.appEnd]) = live c := by
  induction c with
  | nil => exact live_appEnd []
  | cons i c ih =>
    by_cases hi : i = .appEnd
    · subst hi
      simp
    · rw [List.cons_append, live_cons hi, live_cons hi, ih]

theorem ne_of_not_marks {pre : List Instr} (hpre : ∀ j ∈ pre, Instr.marks j = false) (hi : Instr.marks i = true) :
    ∀ j ∈ pre, j ≠ i := by
  rintro j hj rfl
  exact absurd ((hpre j hj).symm.trans hi) Bool.noConfusion

theorem quietBody_ne_appEnd (P : Params) : ∀ j ∈ quietBody P, j ≠ .appEnd := by
  unfold quietBody
  cases P.bounce <;> decide

theorem quietEnd_mem_quietBody (P : Params) : Instr.quietEnd ∈ quietBody P := by
  unfold quietBody
  cases P.bounce <;> decide

/-- what becomes of a thread with instruction i at the front: y is the thread afterwards -/
inductive Moves (P : Params) (s : St) (t : ℕ) (i : Instr) (rest : List Instr) (a : Answer) (y : Thread) : Prop
  /-- the instruction is done; it may put others in its place -/
  | next (pre : List Instr) (hpre : ∀ j ∈ pre, Instr.marks j = false) (hcode : y.code = pre ++ rest)
      (hstart : y.start = (s.thr t).start) (hquiet : i ≠ .quiet) (happ : i ≠ .appEnd)
      (hok : ∀ bb, i = .post bb → a = .ok)
  /-- the instruction waits or is tried again -/
  | again (pre : List Instr) (hpre : ∀ j ∈ pre, Instr.marks j = false) (hcode : y.code = pre ++ i :: rest)
      (hstart : y.start = (s.thr t).start) (happ : i ≠ .appEnd) (hok : ∀ bb, i = .post bb → a ≠ .ok)
  | quiet (hi : i = .quiet) (hcode : y.code = quietBody P ++ rest) (hstart : y.start = s.put.issued)
  | done (hi : i = .appEnd) (hcode : y.code = [])

theorem Moves.pop {y : Thread} (hcode : y.code = rest) (hstart : y.start = (s.thr t).start) (hquiet : i ≠ .quiet)
    (happ : i ≠ .appEnd) (hok : ∀ bb, i = .post bb → a = .ok) : Moves P s t i rest a y :=
  .next [] (fun _ hj => absurd hj List.not_mem_nil) hcode hstart hquiet happ hok

theorem Moves.stay (hc : (s.thr t).code = i :: rest) (happ : i ≠ .appEnd) (hok : ∀ bb, i = .post bb → a ≠ .ok) :
    Moves P s t i rest a (s.thr t) :=
  .again [] (fun _ hj => absurd hj List.not_mem_nil) hc rfl happ hok

theorem exec_moves (hc : (s.thr t).code = i :: rest) (a : Answer) :
    Moves P s t i rest a ((exec P s t rest a i).thr t) := by
  cases i with
  | ctxLock =>
    simp only [exec]
    split_ifs
    · exact .pop (by simp) (by simp) Instr.noConfusion Instr.noConfusion (by simp)
    · exact .stay hc Instr.noConfusion (by simp)
    · exact .pop (by simp) (by simp) Instr.noConfusion Instr.noConfusion (by simp)
  | ctxUnlock =>
    simp only [exec]
    split_ifs <;> exact .pop (by simp) (by simp) Instr.noConfusion Instr.noConfusion (by simp)
  | inc => exact .pop (by simp [exec]) (by simp [exec]) Instr.noConfusion Instr.noConfusion (by simp)
  | bbLock =>
    simp only [exec]
    split_ifs
    · exact .pop (by simp) (by simp) Instr.noConfusion Instr.noConfusion (by simp)
    · exact .pop (by simp) (by simp) Instr.noConfusion Instr.noConfusion (by simp)
    · exact .stay hc Instr.noConfusion (by simp)
  | bbUnlock =>
    simp only [exec]
    split_ifs <;> exact .pop (by simp) (by simp) Instr.noConfusion Instr.noConfusion (by simp)
  | throttle =>
    simp only [exec]
    split_ifs
    · exact .again [.drain] (by decide) (by simp) (by simp) Instr.noConfusion (by simp)
    · exact .next [.bbAlloc] (by decide) (by simp) (by simp) Instr.noConfusion Instr.noConfusion (by simp)
  | bbAlloc => exact .pop (by simp [exec]) (by simp [exec]) Instr.noConfusion Instr.noConfusion (by simp)
  | drain =>
    cases a with
    | event b =>
      simp only [exec]
      split_ifs <;> exact .stay hc Instr.noConfusion (by simp)
    | again => exact .pop (by simp [exec]) (by simp [exec]) Instr.noConfusion Instr.noConfusion (by simp)
    | ok => exact .pop (by simp [exec]) (by simp [exec]) Instr.noConfusion Instr.noConfusion (by simp)
  | drainAll =>
    simp only [exec]
    split_ifs
    · exact .again [.drain] (by decide) (by simp) (by simp) Instr.noConfusion (by simp)
    · exact .pop (by simp) (by simp) Instr.noConfusion Instr.noConfusion (by simp)
  | post bb =>
    have hretry : a ≠ .ok → Moves P s t (.post bb) rest a ((if P.bounce = true then s.setThr t { s.thr t with
        code := .bbLock :: .drain :: .bbUnlock :: .post bb :: rest } else s).thr t) := by
      intro ha
      split_ifs
      · exact .again [.bbLock, .drain, .bbUnlock] (by decide) (by simp) (by simp) Instr.noConfusion fun _ _ => ha
      · exact .stay hc Instr.noConfusion fun _ _ => ha
    cases a with
    | event b => exact hretry Answer.noConfusion
    | again => exact hretry Answer.noConfusion
    | ok => exact .pop (by simp [exec]) (by simp [exec]) Instr.noConfusion Instr.noConfusion fun _ _ => rfl
  | quiet => exact .quiet rfl (by simp [exec]) (by simp [exec])
  | pollTest n =>
    simp only [exec]
    split_ifs
    · exact .next [.pollRead n] (by simp [Instr.marks]) (by simp) (by simp) Instr.noConfusion Instr.noConfusion (by simp)
    · exact .next [.waitFor] (by decide) (by simp) (by simp) Instr.noConfusion Instr.noConfusion (by simp)
  | pollRead n =>
    exact .next [.pollCmp n] (by simp [Instr.marks]) (by simp [exec]) (by simp [exec]) Instr.noConfusion
      Instr.noConfusion (by simp)
  | pollCmp n =>
    simp only [exec]
    split_ifs
    · exact .next [.ctxUnlock, .ctxLock, .pollTest (n + 1)] (by simp [Instr.marks]) (by simp) (by simp) Instr.noConfusion
        Instr.noConfusion (by simp)
    · exact .pop (by simp) (by simp) Instr.noConfusion Instr.noConfusion (by simp)
  | waitFor =>
    exact .next [.cntrWait] (by decide) (by simp [exec]) (by simp [exec]) Instr.noConfusion Instr.noConfusion (by simp)
  | cntrWait =>
    simp only [exec]
    split_ifs
    · exact .next [.recheck] (by decide) (by simp) (by simp) Instr.noConfusion Instr.noConfusion (by simp)
    · exact .stay hc Instr.noConfusion (by simp)
  | recheck =>
    simp only [exec]
    split_ifs
    · exact .next [.cntrWait] (by decide) (by simp) (by simp) Instr.noConfusion Instr.noConfusion (by simp)
    · exact .pop (by simp) (by simp) Instr.noConfusion Instr.noConfusion (by simp)
  | quietEnd => exact .pop (by simp [exec]) (by simp [exec]) Instr.noConfusion Instr.noConfusion (by simp)
  | getWait => exact .pop (by simp [exec]) (by simp [exec]) Instr.noConfusion Instr.noConfusion (by simp)
  | appEnd => exact .done rfl (by simp [exec])

/-- an instruction leaves the other threads alone -/
theorem exec_thr_ne (hu : u ≠ t) (a : Answer) (i : Instr) : (exec P s t rest a i).thr u = s.thr u := by
  cases i <;> simp only [exec] <;> (repeat' split) <;> first | rfl | exact setThr_thr_ne _ _ hu

theorem exec_put_le (a : Answer) (i : Instr) : Tally.Le s.put (exec P s t rest a i).put := by
  cases i <;> simp only [exec] <;> (repeat' split) <;>
    first | exact Tally.Le.refl _ | exact Tally.le_inc _ | exact Tally.le_post _ _

/-- nothing is taken back -/
theorem step_put_le (s : St) (o : Op) : Tally.Le s.put (OfiQuiet.step P s o).put := by
  cases o with
  | call t c =>
    simp only [OfiQuiet.step]
    repeat' split
    all_goals exact Tally.Le.refl _
  | exec t a =>
    simp only [OfiQuiet.step]
    split
    · exact Tally.Le.refl _
    · exact exec_put_le a _
  | complete k =>
    simp only [OfiQuiet.step]
    split
    · exact Tally.le_ack _ _
    · exact Tally.Le.refl _
  | event b =>
    simp only [OfiQuiet.step]
    split
    · exact Tally.Le.refl _
    · exact Tally.Le.refl _

variable {w : Watched} {o : Op}

/-- what one step does to thread u and to the operations of its call -/
inductive Seen (P : Params) (w : Watched) (o : Op) (u : ℕ) : Prop
  | same (hthr : (step P w o).st.thr u = w.st.thr u) (hcall : (step P w o).call u = w.call u)
      (hmine : (step P w o).mine u = w.mine u)
  | call (c : Call) (hidle : (w.st.thr u).code = []) (hcode : live ((step P w o).st.thr u).code = live (c.code P))
      (hcall : (step P w o).call u = some c) (hmine : (step P w o).mine u = [])
  /-- an instruction that posts nothing -/
  | exec (a : Answer) (i : Instr) (rest : List Instr) (hc : (w.st.thr u).code = i :: rest)
      (hst : (step P w o).st = exec P w.st u rest a i) (hpost : ∀ bb, i = .post bb → a ≠ .ok)
      (hcall : (step P w o).call u = w.call u) (hmine : (step P w o).mine u = w.mine u)
  | post (bb : Bool) (rest : List Instr) (hc : (w.st.thr u).code = .post bb :: rest)
      (hst : (step P w o).st = OfiQuiet.exec P w.st u rest .ok (.post bb))
      (hcall : (step P w o).call u = w.call u) (hmine : (step P w o).mine u = w.mine u ++ [(w.st.thr u).cur])

theorem takes_of_code (hc : (s.thr t).code = i :: rest) (hpost : ∀ bb, i = .post bb → a ≠ .ok) : takes s t a = false := by
  unfold takes
  rw [hc]
  cases i with
  | post bb =>
    have ha := hpost bb rfl
    cases a <;> first | rfl | exact absurd rfl ha
  | _ => rfl

/-- a call puts its code into the thread -/
theorem step_call (hacc : Accepts P w.st t) (c : Call) :
    live ((step P w (.call t c)).st.thr t).code = live (c.code P) := by
  simp only [step, OfiQuiet.step, if_pos hacc.1]
  split_ifs with hser happ
  · rw [setThr_thr_self]
    exact live_append_appEnd _
  · exact absurd (hacc.2 hser) happ
  · rw [setThr_thr_self]

theorem step_seen (w : Watched) (o : Op) (u : ℕ) : Seen P w o u := by
  cases o with
  | call t c =>
    by_cases hacc : Accepts P w.st t
    · by_cases hu : u = t
      · subst hu
        exact .call c hacc.1 (step_call hacc c) (by simp [step, calls, hacc]) (by simp [step, posts, hacc])
      · refine .same ?_ (by simp [step, calls, hacc, hu]) (by simp [step, posts, hacc, hu])
        simp only [step, OfiQuiet.step]
        repeat' split
        all_goals first | rfl | exact setThr_thr_ne _ _ hu
    · refine .same ?_ (by simp [step, calls, hacc]) (by simp [step, posts, hacc])
      simp only [step, OfiQuiet.step]
      split_ifs with hidle hser happ
      · exact absurd ⟨hidle, fun _ => happ⟩ hacc
      · rfl
      · exact absurd ⟨hidle, fun h => absurd h hser⟩ hacc
      · rfl
  | exec t a =>
    cases hc : (w.st.thr t).code with
    | nil =>
      have htakes : takes w.st t a = false := by simp [takes, hc]
      exact .same (by simp [step, OfiQuiet.step, hc]) rfl (by simp [step, posts, htakes])
    | cons i rest =>
      have hst : (step P w (.exec t a)).st = exec P w.st t rest a i := by simp [step, OfiQuiet.step, hc]
      by_cases hu : u = t
      · subst hu
        by_cases hpost : ∃ bb, i = .post bb ∧ a = .ok
        · obtain ⟨bb, rfl, rfl⟩ := hpost
          have htakes : takes w.st u .ok = true := by simp [takes, hc]
          exact .post bb rest hc hst rfl (by simp [step, posts, htakes])
        · have hnot : ∀ bb, i = .post bb → a ≠ .ok := fun bb hi ha => hpost ⟨bb, hi, ha⟩
          exact .exec a i rest hc hst hnot rfl (by simp [step, posts, takes_of_code hc hnot])
      · refine .same ?_ rfl ?_
        · rw [hst]
          exact exec_thr_ne hu a i
        · simp only [step, posts]
          split
          · exact Function.update_of_ne hu _ _
          · rfl
  | complete k =>
    refine .same ?_ rfl rfl
    simp only [step, OfiQuiet.step]
    split <;> rfl
  | event b =>
    refine .same ?_ rfl rfl
    simp only [step, OfiQuiet.step]
    split <;> rfl

/-! ## Waiting -/

/-- thread t waits for the operations D: its quiet is still to come, it is in the quiet, or the quiet is over -/
structure Waits (s : St) (t : ℕ) (D : List ℕ) : Prop where
  issued : ∀ k ∈ D, k < s.put.issued
  phase : Instr.quiet ∈ live (s.thr t).code ∨
    (Instr.quietEnd ∈ live (s.thr t).code ∧ ∀ k ∈ D, k < (s.thr t).start) ∨ ∀ k ∈ D, s.put.acked k = true

variable {D : List ℕ}

/-- other instructions stay ahead -/
theorem Moves.mem_live {y : Thread} {j : Instr} (h : Moves P s t i rest a y) (hij : j ≠ i)
    (hmem : j ∈ live (i :: rest)) : j ∈ live y.code := by
  have hrest : i ≠ .appEnd → j ∈ live rest := by
    intro happ
    rw [live_cons happ] at hmem
    exact (List.mem_cons.mp hmem).resolve_left hij
  cases h with
  | next pre hpre hcode _ _ happ _ =>
    rw [hcode, live_append (ne_of_not_marks hpre rfl)]
    exact List.mem_append_right pre (hrest happ)
  | again pre hpre hcode _ happ _ =>
    rw [hcode, live_append (ne_of_not_marks hpre rfl)]
    exact List.mem_append_right pre hmem
  | quiet hi hcode _ =>
    rw [hcode, live_append (quietBody_ne_appEnd P)]
    exact List.mem_append_right _ (hrest (by rw [hi]; exact Instr.noConfusion))
  | done hi _ =>
    subst hi
    rw [live_appEnd] at hmem
    exact absurd hmem List.not_mem_nil

/-- the code stays what it is ahead of an instruction that is tried again -/
theorem Moves.mem_again {y : Thread} {pre : List Instr} {j : Instr} (hpre : ∀ k ∈ pre, Instr.marks k = false)
    (hcode : y.code = pre ++ i :: rest) (hmem : j ∈ live (i :: rest)) : j ∈ live y.code := by
  rw [hcode, live_append (ne_of_not_marks hpre rfl)]
  exact List.mem_append_right pre hmem

/-- an instruction of the thread itself -/
theorem Waits.exec (h : Inv P s) (hw : Waits s t D) (hc : (s.thr t).code = i :: rest) (a : Answer) :
    Waits (exec P s t rest a i) t D := by
  have hle : Tally.Le s.put (OfiQuiet.exec P s t rest a i).put := exec_put_le a i
  have hmoves := exec_moves (P := P) hc a
  refine ⟨fun k hk => (hw.issued k hk).trans_le hle.issued, ?_⟩
  rcases hw.phase with hquiet | ⟨hend, hstart⟩ | hover
  · rw [hc] at hquiet
    by_cases hi : Instr.quiet = i
    · cases hmoves with
      | next _ _ _ _ hne _ _ => exact absurd hi.symm hne
      | again pre hpre hcode _ _ _ => exact .inl (Moves.mem_again hpre hcode hquiet)
      | quiet _ hcode hstart =>
        -- what D holds was issued before the quiet
        refine .inr (.inl ⟨?_, fun k hk => ?_⟩)
        · rw [hcode, live_append (quietBody_ne_appEnd P)]
          exact List.mem_append_left _ (quietEnd_mem_quietBody P)
        · rw [hstart]
          exact hw.issued k hk
      | done happ _ => exact absurd (hi.trans happ) Instr.noConfusion
    · exact .inl (hmoves.mem_live hi hquiet)
  · rw [hc] at hend
    by_cases hi : Instr.quietEnd = i
    · subst hi
      obtain ⟨-, hall, -⟩ := h.returns hc
      exact .inr (.inr fun k hk => hle.acked k (hall k (hstart k hk)))
    · have hstay := hmoves.mem_live hi hend
      refine .inr (.inl ⟨hstay, fun k hk => ?_⟩)
      cases hmoves with
      | next _ _ _ hsame _ _ _ =>
        rw [hsame]
        exact hstart k hk
      | again _ _ _ hsame _ _ =>
        rw [hsame]
        exact hstart k hk
      | quiet _ _ hnew =>
        rw [hnew]
        exact hw.issued k hk
      | done happ _ =>
        subst happ
        rw [live_appEnd] at hend
        exact absurd hend List.not_mem_nil
  · exact .inr (.inr fun k hk => hle.acked k (hover k hk))

/-- **No step stops the waiting.** -/
theorem Waits.step (h : Inv P w.st) (hw : Waits w.st t D) (o : Op) : Waits (step P w o).st t D := by
  have hle : Tally.Le w.st.put (OfiPosts.step P w o).st.put := step_put_le w.st o
  cases step_seen (P := P) w o t with
  | same hthr _ _ =>
    refine ⟨fun k hk => (hw.issued k hk).trans_le hle.issued, ?_⟩
    rw [hthr]
    exact hw.phase.imp_right (Or.imp_right fun hover k hk => hle.acked k (hover k hk))
  | call c hidle _ _ _ =>
    -- an idle thread has nothing ahead
    refine ⟨fun k hk => (hw.issued k hk).trans_le hle.issued, .inr (.inr fun k hk => hle.acked k ?_)⟩
    rcases hw.phase with hquiet | ⟨hend, -⟩ | hover
    · rw [hidle] at hquiet
      exact absurd hquiet List.not_mem_nil
    · rw [hidle] at hend
      exact absurd hend List.not_mem_nil
    · exact hover k hk
  | exec a i rest hc hst _ _ _ =>
    rw [hst]
    exact hw.exec h hc a
  | post bb rest hc hst _ _ =>
    rw [hst]
    exact hw.exec h hc .ok

/-! ## The operations of a call -/

/-- the next operation of the code has been counted -/
def owed : List Instr → Bool
  | [] => false
  | .inc :: _ => false
  | .post _ :: _ => true
  | _ :: r => owed r

theorem owed_append {pre : List Instr} (hpre : ∀ j ∈ pre, Instr.marks j = false) (c : List Instr) :
    owed (pre ++ c) = owed c := by
  induction pre with
  | nil => rfl
  | cons i pre ih =>
    have hi := hpre i List.mem_cons_self
    have hrest := ih fun j hj => hpre j (List.mem_cons_of_mem i hj)
    cases i <;> first | exact hrest | exact absurd hi Bool.noConfusion

theorem owed_quietBody (P : Params) (c : List Instr) : owed (quietBody P ++ c) = owed c := by
  unfold quietBody
  cases P.bounce <;> rfl

/-- code that owes nothing counts before it posts -/
theorem owed_of_codeOk {b h q : Bool} {c : List Instr} (hok : CodeOk b false h q c) : owed (live c) = false := by
  induction c generalizing b h q with
  | nil => rfl
  | cons i c ih =>
    cases i <;> simp only [CodeOk] at hok
    case appEnd => rw [live_appEnd]; rfl
    case post => exact absurd hok.2.1 Bool.noConfusion
    case inc => rw [live_cons Instr.noConfusion]; rfl
    all_goals
      rw [live_cons Instr.noConfusion]
      first | exact ih hok | exact ih hok.2 | exact ih hok.2.2

/-- an instruction keeps what the code owes, unless it counts or posts -/
theorem Moves.owed {y : Thread} (h : Moves P s t i rest a y) (hinc : i ≠ .inc) (hpost : ∀ bb, i = .post bb → a ≠ .ok) :
    owed (live y.code) = owed (live (i :: rest)) := by
  cases h with
  | next pre hpre hcode _ _ happ hok =>
    rw [hcode, live_append (ne_of_not_marks hpre rfl), owed_append hpre, live_cons happ]
    cases i with
    | post bb => exact absurd (hok bb rfl) (hpost bb rfl)
    | inc => exact absurd rfl hinc
    | _ => rfl
  | again pre hpre hcode _ _ _ => rw [hcode, live_append (ne_of_not_marks hpre rfl), owed_append hpre]
  | quiet hi hcode _ =>
    subst hi
    rw [hcode, live_append (quietBody_ne_appEnd P), owed_quietBody, live_cons Instr.noConfusion]
    rfl
  | done hi hcode =>
    subst hi
    rw [hcode, live_appEnd]
    rfl

theorem exec_cur (hi : i ≠ .inc) (a : Answer) : ((exec P s t rest a i).thr t).cur = (s.thr t).cur := by
  cases i with
  | inc => exact absurd rfl hi
  | _ =>
    simp only [exec]
    repeat' split
    all_goals first | rfl | simp

/-- the operations of the last call of thread t -/
structure Own (w : Watched) (t : ℕ) : Prop where
  sorted : (w.mine t).Pairwise (· < ·)
  issued : ∀ k ∈ w.mine t, k < w.st.put.issued
  owed : owed (live (w.st.thr t).code) = true → ∀ k ∈ w.mine t, k < (w.st.thr t).cur

theorem own_init (t : ℕ) : Own init t :=
  ⟨List.Pairwise.nil, fun _ hk => absurd hk List.not_mem_nil, fun _ _ hk => absurd hk List.not_mem_nil⟩

/-- the operation that a thread posts has been counted -/
theorem cur_issued {bb : Bool} (h : Inv P s) (hc : (s.thr t).code = .post bb :: rest) :
    (s.thr t).cur < s.put.issued ∧ OfiPosts.owed (live rest) = false := by
  obtain ⟨o, b, q, hok, hcur, -⟩ := (h.thr t).code
  rw [hc] at hok
  exact ⟨hcur hok.2.1, owed_of_codeOk hok.2.2.2⟩

theorem Own.step (h : Inv P w.st) (hw : Own w t) (o : Op) : Own (step P w o) t := by
  have hle : Tally.Le w.st.put (OfiPosts.step P w o).st.put := step_put_le w.st o
  cases step_seen (P := P) w o t with
  | same hthr _ hmine =>
    refine ⟨?_, ?_, ?_⟩
    · rw [hmine]
      exact hw.sorted
    · rw [hmine]
      exact fun k hk => (hw.issued k hk).trans_le hle.issued
    · rw [hmine, hthr]
      exact hw.owed
  | call c _ _ _ hmine =>
    refine ⟨?_, ?_, ?_⟩ <;> rw [hmine]
    · exact List.Pairwise.nil
    · exact fun _ hk => absurd hk List.not_mem_nil
    · exact fun _ _ hk => absurd hk List.not_mem_nil
  | exec a i rest hc hst hpost _ hmine =>
    refine ⟨?_, ?_, ?_⟩
    · rw [hmine]
      exact hw.sorted
    · rw [hmine]
      exact fun k hk => (hw.issued k hk).trans_le hle.issued
    · rw [hmine, hst]
      by_cases hinc : i = .inc
      · -- the new operation has the highest number
        subst hinc
        intro _ k hk
        rw [exec, setThr_thr_self]
        exact hw.issued k hk
      · rw [(exec_moves hc a).owed hinc hpost, exec_cur hinc, ← hc]
        exact hw.owed
  | post bb rest hc hst _ hmine =>
    obtain ⟨hcur, hrest⟩ := cur_issued h hc
    have hbelow : ∀ k ∈ w.mine t, k < (w.st.thr t).cur := by
      apply hw.owed
      rw [hc, live_cons Instr.noConfusion]
      rfl
    refine ⟨?_, ?_, ?_⟩
    · rw [hmine]
      refine List.pairwise_append.mpr ⟨hw.sorted, List.pairwise_singleton _ _, fun k hk l hl => ?_⟩
      rw [List.mem_singleton.mp hl]
      exact hbelow k hk
    · rw [hmine]
      intro k hk
      rcases List.mem_append.mp hk with hk | hk
      · exact (hw.issued k hk).trans_le hle.issued
      · rw [List.mem_singleton.mp hk]
        exact hcur.trans_le hle.issued
    · rw [hst, exec, setThr_thr_self]
      intro howed
      exact absurd (hrest.symm.trans howed) Bool.noConfusion

/-- what holds of every run: the transport keeps its invariants, and the operations of a call are different -/
theorem run_own (ops : List Op) : Inv P (Runs.run (step P) init ops).st ∧ ∀ t, Own (Runs.run (step P) init ops) t :=
  Runs.run_inv (OfiPosts.step P) (fun w => Inv P w.st ∧ ∀ t, Own w t)
    (fun _ o hw => ⟨hw.1.step o, fun t => (hw.2 t).step hw.1 o⟩) init ⟨inv_init, own_init⟩ ops

end SandiaShmem.Transport.OfiPosts
