/-
Put with signal of the OFI transport (`src/transport_ofi.h`), without FI_FENCE and without total data ordering.

`shmem_transport_put_signal_nbi` posts its data, calls `shmem_transport_fence`, whose quiet waits for everything counted on
the context before it, and then posts the signal, an atomic operation of its own. A completion in put_cntr means delivery
at the target.

- `SigOk`: the code of the call, while it is executed.
- `signal_after_data`: when the signal is posted, and every time after, the data have been delivered.
-/
import SandiaShmem.Transport.OfiFragments
import SandiaShmem.Transport.OfiPosts

namespace SandiaShmem.Transport.PutSignal

open SandiaShmem.While SandiaShmem.Transport.OfiPosts
open SandiaShmem.Transport.OfiQuiet hiding step init

variable (P : Params)

/-- the operations that carry the data -/
def dataOps (len : ℕ) : ℕ := if len ≤ P.max_buffered_send then 1 else numPieces P.max_msg_size len

def Instr.isPost : Instr → Bool
  | .post _ => true
  | _ => false

/-- the operations that are still to be posted -/
def postsLeft (c : List Instr) : ℕ := c.countP Instr.isPost

/-- one operation is posted behind a quiet and behind its end, and a quiet is ahead of all others -/
def SigOk : List Instr → Prop
  | [] => True
  | .quiet :: r => postsLeft r = 1 ∧ SigOk r
  | .quietEnd :: r => postsLeft r = 1 ∧ SigOk r
  | .post _ :: r => (postsLeft r = 0 ∨ Instr.quiet ∈ r) ∧ SigOk r
  | _ :: r => SigOk r

/-! ## Code -/

variable {P} {s : St} {t : ℕ} {i : Instr} {pre rest c : List Instr} {a : Answer}

@[simp] theorem postsLeft_append (c d : List Instr) : postsLeft (c ++ d) = postsLeft c + postsLeft d := List.countP_append

theorem postsLeft_silent (hpre : ∀ j ∈ pre, Instr.marks j = false) : postsLeft pre = 0 := by
  refine List.countP_eq_zero.mpr fun j hj hpost => ?_
  have hj := hpre j hj
  cases j <;> first | exact absurd hpost Bool.noConfusion | exact absurd hj Bool.noConfusion

theorem SigOk.silent (hpre : ∀ j ∈ pre, Instr.marks j = false) (h : SigOk c) : SigOk (pre ++ c) := by
  induction pre with
  | nil => exact h
  | cons i pre ih =>
    have hi := hpre i List.mem_cons_self
    have hrest := ih fun j hj => hpre j (List.mem_cons_of_mem i hj)
    cases i <;> first | exact hrest | exact absurd hi Bool.noConfusion

theorem SigOk.tail (h : SigOk (i :: c)) : SigOk c := by
  cases i <;> first | exact h | exact h.2

/-- a quiet has an operation behind it -/
theorem SigOk.behind (h : SigOk c) (hmem : Instr.quiet ∈ c ∨ Instr.quietEnd ∈ c) : 1 ≤ postsLeft c := by
  induction c with
  | nil => exact hmem.elim (absurd · List.not_mem_nil) (absurd · List.not_mem_nil)
  | cons i c ih =>
    have hle : postsLeft c ≤ postsLeft (i :: c) := (List.sublist_cons_self i c).countP_le
    by_cases hi : i = .quiet ∨ i = .quietEnd
    · have hone : postsLeft c = 1 := by
        rcases hi with rfl | rfl
        · exact h.1
        · exact h.1
      omega
    · have hrest : Instr.quiet ∈ c ∨ Instr.quietEnd ∈ c := by
        refine hmem.imp (fun hm => ?_) (fun hm => ?_)
        · exact (List.mem_cons.mp hm).resolve_left fun heq => hi (.inl heq.symm)
        · exact (List.mem_cons.mp hm).resolve_left fun heq => hi (.inr heq.symm)
      exact (ih h.tail hrest).trans hle

theorem postsLeft_quietBody (P : Params) : postsLeft (quietBody P) = 0 := by
  unfold quietBody
  cases P.bounce <;> rfl

theorem SigOk.quietBody (h : SigOk c) (hone : postsLeft c = 1) : SigOk (quietBody P ++ c) := by
  unfold OfiQuiet.quietBody
  cases P.bounce <;> exact ⟨hone, h⟩

/-- an instruction that posts nothing keeps the code well-formed, and as many operations to post -/
theorem moves_sigOk {y : Thread} (h : Moves P s t i rest a y) (hpost : ∀ bb, i = .post bb → a ≠ .ok)
    (hok : SigOk (live (i :: rest))) :
    SigOk (live y.code) ∧ postsLeft (live y.code) = postsLeft (live (i :: rest)) := by
  cases h with
  | next pre hpre hcode _ _ happ hnot =>
    rw [live_cons happ] at hok ⊢
    rw [hcode, live_append (ne_of_not_marks hpre rfl), postsLeft_append, postsLeft_silent hpre, Nat.zero_add]
    refine ⟨hok.tail.silent hpre, ?_⟩
    cases i with
    | post bb => exact absurd (hnot bb rfl) (hpost bb rfl)
    | _ => rfl
  | again pre hpre hcode _ _ _ =>
    rw [hcode, live_append (ne_of_not_marks hpre rfl), postsLeft_append, postsLeft_silent hpre, Nat.zero_add]
    exact ⟨hok.silent hpre, rfl⟩
  | quiet hi hcode _ =>
    subst hi
    rw [live_cons Instr.noConfusion] at hok ⊢
    rw [hcode, live_append (quietBody_ne_appEnd P), postsLeft_append, postsLeft_quietBody, Nat.zero_add]
    exact ⟨hok.2.quietBody hok.1, rfl⟩
  | done hi hcode =>
    subst hi
    rw [hcode, live_appEnd]
    exact ⟨trivial, rfl⟩

/-! ## The call -/

theorem mem_fragments {n : ℕ} {j : Instr} (hj : j ∈ fragments n) : j = .inc ∨ j = .post false := by
  unfold fragments at hj
  obtain ⟨l, hl, hj⟩ := List.mem_flatten.mp hj
  rw [List.eq_of_mem_replicate hl] at hj
  simpa using hj

theorem postsLeft_fragments (n : ℕ) : postsLeft (fragments n) = n := by
  induction n with
  | zero => rfl
  | succ n ih =>
    have hsucc : fragments (n + 1) = [Instr.inc, .post false] ++ fragments n := rfl
    rw [hsucc, postsLeft_append, ih, Nat.add_comm]
    rfl

theorem SigOk.fragments (h : SigOk c) (hquiet : Instr.quiet ∈ c) (n : ℕ) : SigOk (fragments n ++ c) := by
  induction n with
  | zero => exact h
  | succ n ih => exact ⟨.inr (List.mem_append_right _ hquiet), ih⟩

/-- the code of the call is that of its data, a quiet, and the signal -/
theorem call_sigOk (hfence : P.USE_FI_FENCE = false) (horder : P.WANT_TOTAL_DATA_ORDERING = false) (len : ℕ) :
    let c := live (Call.code P (.putSignalNbi len))
    SigOk c ∧ postsLeft c = dataOps P len + 1 ∧ Instr.quiet ∈ c := by
  have hcode : Call.code P (.putSignalNbi len) =
      .ctxLock :: (fragments (dataOps P len) ++ (.ctxUnlock :: .quiet :: .getWait :: putScalar)) := by
    show OfiQuiet.putSignalNbi P len = _
    unfold OfiQuiet.putSignalNbi OfiQuiet.fence dataOps
    rw [hfence, horder]
    split
    · rfl
    · rw [OfiFragments.putLarge_fragments]
      simp
  have hlive : live (Call.code P (.putSignalNbi len)) = Call.code P (.putSignalNbi len) := by
    have hne : ∀ j ∈ Call.code P (.putSignalNbi len), j ≠ .appEnd := by
      rw [hcode]
      rintro j hj rfl
      rcases List.mem_append.mp ((List.mem_cons.mp hj).resolve_left Instr.noConfusion) with hj | hj
      · rcases mem_fragments hj with h | h <;> exact absurd h Instr.noConfusion
      · exact absurd hj (by decide)
    have happ : live (Call.code P (.putSignalNbi len) ++ []) = Call.code P (.putSignalNbi len) ++ live [] := live_append hne
    rwa [List.append_nil, live_nil, List.append_nil] at happ
  intro c
  have hc : c = [.ctxLock] ++ (fragments (dataOps P len) ++ (.ctxUnlock :: .quiet :: .getWait :: putScalar)) :=
    hlive.trans hcode
  rw [hc]
  refine ⟨?_, ?_, ?_⟩
  · have htail : SigOk (.ctxUnlock :: .quiet :: .getWait :: putScalar) := ⟨rfl, .inl rfl, trivial⟩
    exact htail.fragments (by decide) (dataOps P len)
  · rw [postsLeft_append, postsLeft_append, postsLeft_fragments]
    show 0 + (dataOps P len + 1) = _
    omega
  · exact List.mem_append_right _ (List.mem_append_right _ (by decide))

/-! ## Runs -/

variable {w : Watched} {n : ℕ}

/-- thread t is in a put with signal whose data are n operations, or has returned from it -/
structure Sig (w : Watched) (t n : ℕ) : Prop where
  count : (w.mine t).length + postsLeft (live (w.st.thr t).code) = n + 1
  code : SigOk (live (w.st.thr t).code)
  waits : Waits w.st t ((w.mine t).take n)

theorem Sig.call (hfence : P.USE_FI_FENCE = false) (horder : P.WANT_TOTAL_DATA_ORDERING = false) {len : ℕ}
    (hcode : live (w.st.thr t).code = live (Call.code P (.putSignalNbi len))) (hmine : w.mine t = []) :
    Sig w t (dataOps P len) := by
  obtain ⟨hok, hposts, hquiet⟩ := call_sigOk hfence horder len
  rw [← hcode] at hok hposts hquiet
  refine ⟨?_, hok, ?_, .inl hquiet⟩
  · rw [hmine, hposts, List.length_nil, Nat.zero_add]
  · rw [hmine, List.take_nil]
    exact fun _ hk => absurd hk List.not_mem_nil

/-- the next operation of the call is posted -/
theorem Sig.post {w' : Watched} {bb : Bool} (h : Inv P w.st) (hw : Sig w t n)
    (hc : (w.st.thr t).code = .post bb :: rest) (hwaits : Waits w'.st t ((w.mine t).take n))
    (hle : Tally.Le w.st.put w'.st.put) (hcode : (w'.st.thr t).code = rest)
    (hmine : w'.mine t = w.mine t ++ [(w.st.thr t).cur]) : Sig w' t n := by
  have hcount := hw.count
  have hok := hw.code
  rw [hc, live_cons Instr.noConfusion] at hcount hok
  have hleft : postsLeft (.post bb :: live rest) = postsLeft (live rest) + 1 := List.countP_cons_of_pos rfl
  rw [hleft] at hcount
  refine ⟨?_, ?_, ?_⟩
  · rw [hmine, hcode, List.length_append, List.length_singleton]
    omega
  · rw [hcode]
    exact hok.2
  · by_cases hfull : n ≤ (w.mine t).length
    · rw [hmine, List.take_append_of_le_length hfull]
      exact hwaits
    · -- another operation of the data: the quiet is still ahead
      have hquiet : Instr.quiet ∈ live rest := hok.1.resolve_left (by omega)
      refine ⟨fun k hk => ?_, .inl (hcode ▸ hquiet)⟩
      have hk := List.mem_of_mem_take hk
      rw [hmine] at hk
      rcases List.mem_append.mp hk with hk | hk
      · refine hwaits.issued k ?_
        rwa [List.take_of_length_le (by omega)]
      · rw [List.mem_singleton.mp hk]
        exact (cur_issued h hc).1.trans_le hle.issued

theorem Sig.exec {w' : Watched} (hw : Sig w t n) (hc : (w.st.thr t).code = i :: rest)
    (hmoves : Moves P w.st t i rest a (w'.st.thr t)) (hpost : ∀ bb, i = .post bb → a ≠ .ok)
    (hwaits : Waits w'.st t ((w.mine t).take n)) (hmine : w'.mine t = w.mine t) : Sig w' t n := by
  have hok := hw.code
  rw [hc] at hok
  obtain ⟨hsig, hleft⟩ := moves_sigOk hmoves hpost hok
  refine ⟨?_, hsig, ?_⟩
  · rw [hmine, hleft, ← hc]
    exact hw.count
  · rw [hmine]
    exact hwaits

/-- every put with signal of thread t keeps to its order -/
theorem sig_step (hfence : P.USE_FI_FENCE = false) (horder : P.WANT_TOTAL_DATA_ORDERING = false) (h : Inv P w.st)
    (hw : ∀ len, w.call t = some (.putSignalNbi len) → Sig w t (dataOps P len)) (o : Op) (len : ℕ)
    (hcall : (step P w o).call t = some (.putSignalNbi len)) : Sig (step P w o) t (dataOps P len) := by
  cases step_seen (P := P) w o t with
  | same hthr hsame hmine =>
    have hsig := hw len (hsame ▸ hcall)
    refine ⟨?_, ?_, ?_⟩
    · rw [hmine, hthr]
      exact hsig.count
    · rw [hthr]
      exact hsig.code
    · rw [hmine]
      exact hsig.waits.step h o
  | call c _ hcode hnew hmine =>
    obtain rfl : c = .putSignalNbi len := Option.some.inj (hnew.symm.trans hcall)
    exact Sig.call hfence horder hcode hmine
  | exec a i rest hc hst hpost hsame hmine =>
    have hsig := hw len (hsame ▸ hcall)
    have hmoves : Moves P w.st t i rest a ((step P w o).st.thr t) := by
      rw [hst]
      exact exec_moves hc a
    exact hsig.exec hc hmoves hpost (hsig.waits.step h o) hmine
  | post bb rest hc hst hsame hmine =>
    have hsig := hw len (hsame ▸ hcall)
    refine hsig.post h hc (hsig.waits.step h o) (step_put_le w.st o) ?_ hmine
    rw [hst]
    simp [exec]

theorem run_sig (hfence : P.USE_FI_FENCE = false) (horder : P.WANT_TOTAL_DATA_ORDERING = false) (ops : List Op) :
    Inv P (Runs.run (step P) init ops).st ∧ ∀ t len, (Runs.run (step P) init ops).call t = some (.putSignalNbi len) →
      Sig (Runs.run (step P) init ops) t (dataOps P len) := by
  refine Runs.run_inv (step P)
    (fun w => Inv P w.st ∧ ∀ t len, w.call t = some (.putSignalNbi len) → Sig w t (dataOps P len)) ?_ init ?_ ops
  · exact fun w o hw => ⟨hw.1.step o, fun t => sig_step hfence horder hw.1 (hw.2 t) o⟩
  · exact ⟨inv_init, fun _ _ hcall => absurd hcall (Option.some_ne_none _).symm⟩

/-- with no more than one operation to post behind it, the quiet is over -/
theorem Sig.delivered (hw : Sig w t n) (hcode : Instr.quiet ∉ live (w.st.thr t).code)
    (hend : Instr.quietEnd ∉ live (w.st.thr t).code) : ∀ k ∈ (w.mine t).take n, w.st.put.acked k = true :=
  (hw.waits.phase.resolve_left hcode).resolve_left fun h => hend h.1

/-- **The signal comes after the data.** In every run, with any calls of any threads on the context and any order of
completions: a put with signal posts the operations of its data and then one more, the signal, all of them different; when
it has returned it has posted them all; and from the moment where the signal is the next to be posted, all operations of
the data have been delivered. -/
theorem signal_after_data (P : Params) (hfence : P.USE_FI_FENCE = false) (horder : P.WANT_TOTAL_DATA_ORDERING = false)
    (ops : List Op) (t len : ℕ) :
    let w := Runs.run (step P) init ops
    w.call t = some (.putSignalNbi len) →
      (w.mine t).Pairwise (· < ·) ∧ (w.mine t).length ≤ dataOps P len + 1 ∧
      ((w.st.thr t).code = [] → (w.mine t).length = dataOps P len + 1) ∧
      (∀ bb rest, (w.st.thr t).code = .post bb :: rest → (w.mine t).length = dataOps P len →
        ∀ k ∈ w.mine t, w.st.put.acked k = true) ∧
      ((w.mine t).length = dataOps P len + 1 → ∀ k ∈ (w.mine t).take (dataOps P len), w.st.put.acked k = true) := by
  intro w hcall
  have hsig : Sig w t (dataOps P len) := (run_sig hfence horder ops).2 t len hcall
  have hown : Own w t := (run_own ops).2 t
  have hcount := hsig.count
  refine ⟨hown.sorted, by omega, fun hidle => ?_, fun bb rest hc hlen k hk => ?_, fun hlen => ?_⟩
  · rw [hidle] at hcount
    exact hcount
  · have hok := hsig.code
    rw [hc, live_cons Instr.noConfusion] at hcount hok
    have hleft : postsLeft (.post bb :: live rest) = postsLeft (live rest) + 1 := List.countP_cons_of_pos rfl
    rw [hleft] at hcount
    have hnone : ¬ (Instr.quiet ∈ live rest ∨ Instr.quietEnd ∈ live rest) := by
      intro hmem
      have := hok.2.behind hmem
      omega
    refine hsig.delivered ?_ ?_ k (by rwa [List.take_of_length_le hlen.le])
    · rw [hc, live_cons Instr.noConfusion]
      exact fun hmem => hnone (.inl ((List.mem_cons.mp hmem).resolve_left Instr.noConfusion))
    · rw [hc, live_cons Instr.noConfusion]
      exact fun hmem => hnone (.inr ((List.mem_cons.mp hmem).resolve_left Instr.noConfusion))
  · have hnone : ¬ (Instr.quiet ∈ live (w.st.thr t).code ∨ Instr.quietEnd ∈ live (w.st.thr t).code) := by
      intro hmem
      have := hsig.code.behind hmem
      omega
    exact hsig.delivered (fun hmem => hnone (.inl hmem)) (fun hmem => hnone (.inr hmem))

/-- messages of 1024 bytes -/
def messages : Params := ⟨8, 0, 1024, 0, 1, false, false, true, false, false⟩

/-- 2000 bytes in two operations; another thread has an operation that does not complete while the data are posted -/
def twoFragments : List Op :=
  [Op.call 1 .putScalar] ++ List.replicate 4 (Op.exec 1 .ok) ++ [Op.call 0 (.putSignalNbi 2000)] ++
    List.replicate 8 (Op.exec 0 .ok) ++ [Op.complete 2, .complete 0, .complete 1] ++ List.replicate 8 (Op.exec 0 .ok)

theorem signal_after_data_two :
    let w := Runs.run (step messages) init twoFragments
    (w.st.thr 0).code = [.post false, .ctxUnlock] ∧ w.mine 0 = [1, 2] ∧ ∀ k ∈ w.mine 0, w.st.put.acked k = true := by
  intro w
  have hcall : w.call 0 = some (.putSignalNbi 2000) := by decide +kernel
  have hcode : (w.st.thr 0).code = [.post false, .ctxUnlock] := by decide +kernel
  have hmine : w.mine 0 = [1, 2] := by decide +kernel
  obtain ⟨-, -, -, hall, -⟩ := signal_after_data messages rfl rfl twoFragments 0 2000 hcall
  exact ⟨hcode, hmine, hall false _ hcode (by rw [hmine]; decide +kernel)⟩

end SandiaShmem.Transport.PutSignal
