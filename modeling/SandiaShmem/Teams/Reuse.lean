/-
When the members of a team reuse a pSync slot.

All members of a team perform the same operations in the same order, each in its own time. `psync_avail` is private to
each member; it is re-armed only after a sync on the team: the one of `shmem_team_sync`, the parent barrier inside
`shmem_internal_team_split_strided`, or the one hidden in `shmem_internal_team_choose_psync` when no slot is available.

A member's way through an operation is a list of small steps (`Micro`): choose a slot, use it (the collective itself),
be done with it, enter and leave a sync on the team, release, return. A member of the parent that is not in the child
chooses the slot of a split's first reduction like everybody else but does not use it. The only step that waits for
other members is leaving a sync: it needs every member to have entered that sync, which is what the sync algorithms
guarantee. Collectives are not taken to synchronise at all. Slots are numbers (entries of `psync_avail`).

History of a member: the slots it chose, with the operation and whether it was the first reduction of a split (`sel`),
how many of them it is done with (`fin`), and for every sync it entered what it had done by then (`marks`).

- `run_inv`: every member is at some point of the one common sequence of local states, and no member has left more syncs
  than every other member has entered.
- `SplitInv`: where a member is in a split, and that the final reduction of a split has slot 0.
- `slots_quiescent`: all members choose the same slots, and when a member starts to use a slot every member is done with
  every earlier use of that slot and has returned from the operation of that use, except that it may still be in the
  last part of a split whose first reduction used the slot.
- `still_in_split`: that exception is real.
-/
import SandiaShmem.Teams.Alloc

namespace SandiaShmem.Teams.Reuse

open SandiaShmem.Teams

/-! ## Model -/

/-- the operations on a team -/
inductive TOp where
  | teamSync
  | broadcast
  | reduce
  | collect
  | fcollect
  | alltoall
  | alltoalls
  | splitStrided (PE_start PE_stride PE_size : ℤ)
deriving DecidableEq, Repr

/-- the steps of a member inside an operation -/
inductive Micro where
  /-- `shmem_internal_team_choose_psync`; `inner` for the first reduction of a split -/
  | choose (op : TeamOp) (inner : Bool)
  /-- the rest of `shmem_internal_team_choose_psync` after its own sync -/
  | pick (inner : Bool)
  | use
  | fin
  | barIn
  | barOut
  | release (op : TeamOp)
  | ret
deriving DecidableEq, Repr

/-- an operation that chooses a slot, runs a collective on it, releases and returns -/
def collective (op : TeamOp) : List Micro := [.choose op false, .use, .fin, .release op, .ret]

/-- the steps of an operation on the team -/
def micros (numPes : ℕ) (team : TeamDesc) : TOp → List Micro
  | .teamSync => [.barIn, .barOut, .release .SYNC, .ret]
  | .broadcast => collective .BCAST
  | .reduce => collective .REDUCE
  | .collect => collective .COLLECT
  | .fcollect => collective .COLLECT
  | .alltoall => collective .ALLTOALL
  | .alltoalls => collective .ALLTOALL
  | .splitStrided PE_start PE_stride PE_size =>
    if splitRefused numPes team PE_start PE_stride PE_size then [.ret]
    else
      -- the AND reduction over the child, the parent barrier, the MAX reduction over the parent
      [.choose .REDUCE true, .use, .fin, .release .REDUCE, .barIn, .barOut, .release .SYNC] ++ collective .REDUCE

/-- a choice a member made: in which operation, which slot, and whether for the first reduction of a split -/
structure Sel where
  op : ℕ
  slot : Fin N_PSYNCS_PER_TEAM
  inner : Bool
deriving DecidableEq, Repr

/-- a member -/
structure MSt where
  /-- operations it has returned from -/
  opn : ℕ
  /-- what it still has to do in the current operation -/
  todo : List Micro
  avail : Fin N_PSYNCS_PER_TEAM → Bool
  /-- syncs entered and left -/
  bars : ℕ
  outs : ℕ
  sel : List Sel
  fin : ℕ
  /-- for every sync it entered: `fin` and `opn` at that time -/
  marks : List (ℕ × ℕ)

/-- after `shmem_internal_team_init` or the creation of the team -/
def minit : MSt := ⟨0, [], fun _ => true, 0, 0, [], 0, []⟩

/-- the team, TEAMS_MAX, the size of the job and the operations all members perform -/
structure Sys where
  T : ℕ
  numPes : ℕ
  team : TeamDesc
  prog : List TOp

/-- the effect of a member's next step on the member -/
def mstep (Y : Sys) (m : MSt) : MSt :=
  match m.todo with
  | [] =>
    match Y.prog[m.opn]? with
    | none => m
    | some op => { m with todo := micros Y.numPes Y.team op }
  | .choose op inner :: rest =>
    let c := teamChoosePsync Y.T ⟨Y.team, m.avail⟩ op
    if c.synced then { m with todo := .barIn :: .barOut :: .pick inner :: rest }
    else { m with
      todo := rest
      avail := c.team.psync_avail
      sel := m.sel ++ [⟨m.opn, c.slot.getD 0, inner⟩] }
  | .pick inner :: rest =>
    { m with
      todo := rest
      avail := Function.update (fun _ => true) 0 false
      sel := m.sel ++ [⟨m.opn, 0, inner⟩] }
  | .use :: rest => { m with todo := rest }
  | .fin :: rest => { m with todo := rest, fin := m.fin + 1 }
  | .barIn :: rest => { m with todo := rest, bars := m.bars + 1, marks := m.marks ++ [(m.fin, m.opn)] }
  | .barOut :: rest => { m with todo := rest, outs := m.outs + 1 }
  | .release op :: rest => { m with todo := rest, avail := (teamReleasePsyncs ⟨Y.team, m.avail⟩ op).psync_avail }
  | .ret :: rest => { m with todo := rest, opn := m.opn + 1 }

/-- all members -/
abbrev St := ℕ → MSt

/-- member p may take its next step: leaving a sync needs every member to have entered it -/
def Enabled (Y : Sys) (s : St) (p : ℕ) : Prop :=
  (s p).todo.head? = some .barOut → ∀ q < Y.team.size, (s p).outs < (s q).bars

instance (Y : Sys) (s : St) (p : ℕ) : Decidable (Enabled Y s p) := inferInstanceAs (Decidable (_ → _))

def step (Y : Sys) (s : St) (p : ℕ) : St :=
  if p < Y.team.size ∧ Enabled Y s p then Function.update s p (mstep Y (s p)) else s

/-- the state after a schedule, the list of the members that take a step -/
def run (Y : Sys) (sched : List ℕ) : St := Runs.run (step Y) (fun _ => minit) sched

/-- member p's position is in the active set of the reduction it is about to run: everybody's, except for the first
reduction of a split, which only the members of the child run -/
def Participates (Y : Sys) (m : MSt) (p : ℕ) : Prop :=
  match m.sel.getLast?, Y.prog[m.opn]? with
  | some ⟨_, _, true⟩, some (.splitStrided PE_start PE_stride PE_size) =>
    peInActiveSet (teamPe Y.team p) (teamPe Y.team PE_start) PE_stride PE_size ≠ -1
  | _, _ => True

/-- member p is about to start the collective on slot `sl`, its choice number j -/
def StartsUse (Y : Sys) (s : St) (p j : ℕ) (sl : Fin N_PSYNCS_PER_TEAM) : Prop :=
  (s p).todo.head? = some .use ∧ Participates Y (s p) p ∧ (s p).sel.length = j + 1 ∧
    ((s p).sel[j]?).map Sel.slot = some sl

/-- every member takes part in a collective that is not the first reduction of a split -/
theorem participates_of_outer {Y : Sys} {m : MSt} {p : ℕ} (h : (m.sel.getLast?).map Sel.inner = some false) :
    Participates Y m p := by
  unfold Participates
  split
  · rename_i hl _
    simp [hl] at h
  · trivial

/-! ## One member -/

/-- where a member is between two syncs: it has no choice open, it has one it is not done with, it is done with it but
not yet released, it is inside a sync, it has just left one -/
inductive Ph where
  | free
  | pend (inner : Bool)
  | after (inner : Bool)
  | inBar
  | synced
deriving DecidableEq, Repr

/-- the steps left in an operation, by phase -/
def typed : Ph → List Micro → Prop
  | .free, [] => True
  | .free, .choose op inner :: r => op ≠ .SYNC ∧ typed (.pend inner) r
  | .free, .barIn :: r => typed .inBar r
  | .free, .ret :: r => typed .free r
  | .pend inner, .use :: r => typed (.pend inner) r
  | .pend inner, .fin :: r => typed (.after inner) r
  | .after true, .barIn :: r => typed .inBar r
  | .after inner, .release op :: r => op ≠ .SYNC ∧ typed (.after inner) r
  | .after false, .ret :: r => typed .free r
  | .inBar, .barOut :: r => typed .synced r
  | .synced, .release op :: r => op = .SYNC ∧ typed .free r
  | .synced, .pick inner :: r => typed (.pend inner) r
  | _, _ => False

/-- a choice the member is not done with -/
def Ph.opened : Ph → ℕ
  | .pend _ => 1
  | _ => 0

/-- a sync it has not left -/
def Ph.inside : Ph → ℕ
  | .inBar => 1
  | _ => 0

/-- every operation goes through the phases from free to free -/
theorem micros_typed (numPes : ℕ) (team : TeamDesc) (op : TOp) : typed .free (micros numPes team op) := by
  cases op with
  | splitStrided a b c =>
    simp only [micros]
    split_ifs <;> simp [typed, collective]
  | _ => simp [micros, typed, collective]

/-- how many choices were done with when the member entered the last sync it has left -/
def sealed (m : MSt) : ℕ :=
  match m.outs with
  | 0 => 0
  | k + 1 => ((m.marks[k]?).map Prod.fst).getD 0

/-- what holds of a member between its steps -/
structure LInv (m : MSt) (ph : Ph) : Prop where
  todo : typed ph m.todo
  nmarks : m.marks.length = m.bars
  nsyncs : m.bars = m.outs + ph.inside
  nsel : m.sel.length = m.fin + ph.opened
  opLe : ∀ x ∈ m.sel, x.op ≤ m.opn
  marksLe : ∀ k ∈ m.marks, k.1 ≤ m.fin ∧ k.2 ≤ m.opn
  /-- what was done with at a sync was also returned from, but for first reductions -/
  marksRet : ∀ k ∈ m.marks, ∀ i x, i < k.1 → m.sel[i]? = some x → x.inner = false → x.op < k.2
  returned : ph ≠ .pend false → ph ≠ .after false → ∀ x ∈ m.sel, x.inner = false → x.op < m.opn
  /-- the choices since the last sync are of distinct slots, none of them available -/
  since : ∀ i x, sealed m ≤ i → m.sel[i]? = some x →
    m.avail x.slot = false ∧ ∀ j y, i < j → m.sel[j]? = some y → y.slot ≠ x.slot
  atBar : ph = .inBar → m.marks[m.outs]? = some (m.fin, m.opn)
  atSync : ph = .synced → sealed m = m.fin

section
variable {Y : Sys} {m : MSt} {ph : Ph} {rest : List Micro}

theorem minit_inv : LInv minit .free := by
  constructor <;> simp [minit, typed, Ph.inside, Ph.opened, sealed]

/-- a step that only moves on keeps the facts about the history -/
theorem LInv.move (h : LInv m ph) {ph' : Ph} (todo : List Micro) (ht : typed ph' todo) (ho : ph'.opened = ph.opened)
    (hi : ph'.inside = ph.inside)
    (hr : ph' ≠ .pend false → ph' ≠ .after false → ph ≠ .pend false ∧ ph ≠ .after false)
    (hb : ph' ≠ .inBar) (hs : ph' ≠ .synced) : LInv { m with todo := todo } ph' where
  todo := ht
  nmarks := h.nmarks
  nsyncs := by rw [hi]; exact h.nsyncs
  nsel := by rw [ho]; exact h.nsel
  opLe := h.opLe
  marksLe := h.marksLe
  marksRet := h.marksRet
  returned h1 h2 := h.returned (hr h1 h2).1 (hr h1 h2).2
  since := h.since
  atBar hp := absurd hp hb
  atSync hp := absurd hp hs

/-- a choice of an available slot -/
theorem LInv.select (h : LInv m .free) (sl : Fin N_PSYNCS_PER_TEAM) (hsl : m.avail sl = true) (inner : Bool)
    (ht : typed (.pend inner) rest) :
    LInv { m with
      todo := rest
      avail := Function.update m.avail sl false
      sel := m.sel ++ [⟨m.opn, sl, inner⟩] } (.pend inner) := by
  have hn := h.nsel
  simp only [Ph.opened, Nat.add_zero] at hn
  -- an old choice is of another slot, because its slot is not available
  have hold : ∀ i x, sealed m ≤ i → m.sel[i]? = some x → x.slot ≠ sl := by
    intro i x hi hx heq
    have := (h.since i x hi hx).1
    rw [heq, hsl] at this
    exact absurd this (by decide)
  refine ⟨ht, h.nmarks, h.nsyncs, by simp [Ph.opened, hn], ?_, h.marksLe, ?_, ?_, ?_, by simp, by simp⟩
  · intro x hx
    rcases List.mem_append.mp hx with hx | hx
    · exact h.opLe x hx
    · simp only [List.mem_singleton] at hx
      subst hx
      exact le_refl _
  · intro k hk i x hi hx
    have hlt : i < m.sel.length := by have := (h.marksLe k hk).1; omega
    rw [List.getElem?_append_left hlt] at hx
    exact h.marksRet k hk i x hi hx
  · intro h1 _ x hx hin
    rcases List.mem_append.mp hx with hx | hx
    · exact h.returned (by simp) (by simp) x hx hin
    · simp only [List.mem_singleton] at hx
      subst hx
      simp only at hin
      subst hin
      exact absurd rfl h1
  · intro i x hi hx
    have hlen : i < m.sel.length + 1 := by
      have := (List.getElem?_eq_some_iff.mp hx).1
      simpa using this
    rcases Nat.lt_succ_iff_lt_or_eq.mp hlen with hlt | rfl
    · rw [List.getElem?_append_left hlt] at hx
      obtain ⟨hav, hne⟩ := h.since i x hi hx
      refine ⟨by simp [Function.update_of_ne (hold i x hi hx), hav], ?_⟩
      intro j y hij hy
      rcases Nat.lt_or_ge j m.sel.length with hj | hj
      · rw [List.getElem?_append_left hj] at hy
        exact hne j y hij hy
      · rw [List.getElem?_append_right hj, List.getElem?_singleton] at hy
        split_ifs at hy
        simp only [Option.some.injEq] at hy
        subst hy
        exact fun heq => hold i x hi hx heq.symm
    · simp only [List.getElem?_concat_length, Option.some.injEq] at hx
      subst hx
      refine ⟨by simp, ?_⟩
      intro j y hij hy
      have := (List.getElem?_eq_some_iff.mp hy).1
      simp at this
      omega

/-- `choose`: an available slot at once, or first a sync -/
theorem LInv.choose {op : TeamOp} {inner : Bool} (h : LInv m ph) (ht : m.todo = .choose op inner :: rest) :
    ∃ ph', LInv (mstep Y m) ph' := by
  have hty := h.todo
  rw [ht] at hty
  cases ph with
  | free =>
    obtain ⟨hop, hrest⟩ := hty
    simp only [mstep, ht, choose_cases _ _ _ hop]
    by_cases h0 : m.avail 0 = true
    · simp only [h0, if_true]
      exact ⟨_, h.select 0 h0 inner hrest⟩
    · by_cases h1 : m.avail 1 = true
      · simp only [h0, h1, if_true]
        exact ⟨_, h.select 1 h1 inner hrest⟩
      · simp only [h0, h1]
        exact ⟨.free, h.move _ hrest rfl rfl (fun _ _ => ⟨by simp, by simp⟩) (by simp) (by simp)⟩
  | after b => cases b <;> exact hty.elim
  | _ => exact hty.elim

theorem LInv.pick {inner : Bool} (h : LInv m ph) (ht : m.todo = .pick inner :: rest) : ∃ ph', LInv (mstep Y m) ph' := by
  have hty := h.todo
  rw [ht] at hty
  cases ph with
  | synced =>
    simp only [mstep, ht]
    have hn := h.nsel
    have hsealed := h.atSync rfl
    simp only [Ph.opened, Nat.add_zero] at hn
    -- as after releasing every slot
    have hfree : LInv { m with todo := [], avail := fun _ => true } .free := by
      refine ⟨trivial, h.nmarks, h.nsyncs, h.nsel, h.opLe, h.marksLe, h.marksRet,
        fun _ _ => h.returned (by simp) (by simp), ?_, by simp, by simp⟩
      intro i x hi hx
      have hi' : m.fin ≤ i := hsealed ▸ hi
      have := (List.getElem?_eq_some_iff.mp hx).1
      simp only at this
      omega
    exact ⟨_, hfree.select 0 rfl inner hty⟩
  | after b => cases b <;> exact hty.elim
  | _ => exact hty.elim

theorem LInv.use (h : LInv m ph) (ht : m.todo = .use :: rest) : ∃ ph', LInv (mstep Y m) ph' := by
  have hty := h.todo
  rw [ht] at hty
  simp only [mstep, ht]
  cases ph with
  | pend b => exact ⟨.pend b, h.move _ hty rfl rfl (fun h1 _ => ⟨h1, by simp⟩) (by simp) (by simp)⟩
  | after b => cases b <;> exact hty.elim
  | _ => exact hty.elim

theorem LInv.fin (h : LInv m ph) (ht : m.todo = .fin :: rest) : ∃ ph', LInv (mstep Y m) ph' := by
  have hty := h.todo
  rw [ht] at hty
  simp only [mstep, ht]
  cases ph with
  | pend b =>
    refine ⟨.after b, hty, h.nmarks, h.nsyncs, h.nsel, h.opLe, ?_, h.marksRet, ?_, h.since, by simp, by simp⟩
    · exact fun k hk => ⟨Nat.le_succ_of_le (h.marksLe k hk).1, (h.marksLe k hk).2⟩
    · exact fun _ h2 => h.returned (fun hb => h2 (by simpa using hb)) (by simp)
  | after b => cases b <;> exact hty.elim
  | _ => exact hty.elim

/-- entering a sync keeps what the last sync sealed -/
theorem sealed_barIn (h : LInv m ph) (hb : m.bars = m.outs) (k : ℕ × ℕ) (todo : List Micro) :
    sealed { m with todo := todo, bars := m.bars + 1, marks := m.marks ++ [k] } = sealed m := by
  have hn := h.nmarks
  unfold sealed
  cases ho : m.outs with
  | zero => rfl
  | succ k => simp only; rw [List.getElem?_append_left (by omega)]

theorem LInv.enter (h : LInv m ph) (h1 : ph ≠ .pend false) (h2 : ph ≠ .after false) (ho : ph.opened = 0)
    (hi : ph.inside = 0) (hty : typed .inBar rest) :
    LInv { m with todo := rest, bars := m.bars + 1, marks := m.marks ++ [(m.fin, m.opn)] } .inBar := by
  have hb : m.bars = m.outs := by have := h.nsyncs; omega
  have hn := h.nmarks
  have hs := h.nsel
  refine ⟨hty, by simp [hn], by simp [Ph.inside, hb], by rw [hs, ho]; rfl, h.opLe, ?_, ?_, fun _ _ => h.returned h1 h2,
    ?_, ?_, by simp⟩
  · intro k hk
    rcases List.mem_append.mp hk with hk | hk
    · exact h.marksLe k hk
    · simp only [List.mem_singleton] at hk
      subst hk
      exact ⟨le_refl _, le_refl _⟩
  · intro k hk i x hi hx hin
    rcases List.mem_append.mp hk with hk | hk
    · exact h.marksRet k hk i x hi hx hin
    · simp only [List.mem_singleton] at hk
      subst hk
      exact h.returned h1 h2 x (List.mem_of_getElem? hx) hin
  · rw [sealed_barIn h hb]
    exact h.since
  · intro _
    have : m.outs = m.marks.length := by omega
    simp [this]

theorem LInv.barIn (h : LInv m ph) (ht : m.todo = .barIn :: rest) : ∃ ph', LInv (mstep Y m) ph' := by
  have hty := h.todo
  rw [ht] at hty
  simp only [mstep, ht]
  cases ph with
  | free => exact ⟨_, h.enter (by simp) (by simp) rfl rfl hty⟩
  | after b =>
    cases b with
    | true => exact ⟨_, h.enter (by simp) (by simp) rfl rfl hty⟩
    | false => exact hty.elim
  | _ => exact hty.elim

theorem LInv.barOut (h : LInv m ph) (ht : m.todo = .barOut :: rest) : ∃ ph', LInv (mstep Y m) ph' := by
  have hty := h.todo
  rw [ht] at hty
  simp only [mstep, ht]
  cases ph with
  | inBar =>
    have hat := h.atBar rfl
    have hsealed : sealed { m with todo := rest, outs := m.outs + 1 } = m.fin := by
      simp [sealed, hat]
    refine ⟨.synced, hty, h.nmarks, h.nsyncs, h.nsel, h.opLe, h.marksLe, h.marksRet,
      fun _ _ => h.returned (by simp) (by simp), ?_, by simp, fun _ => hsealed⟩
    intro i x hi hx
    have hn := h.nsel
    simp only [Ph.opened, Nat.add_zero] at hn
    have hlt := (List.getElem?_eq_some_iff.mp hx).1
    rw [hsealed] at hi
    simp only at hlt
    omega
  | after b => cases b <;> exact hty.elim
  | _ => exact hty.elim

theorem LInv.release {op : TeamOp} (h : LInv m ph) (ht : m.todo = .release op :: rest) :
    ∃ ph', LInv (mstep Y m) ph' := by
  have hty := h.todo
  rw [ht] at hty
  simp only [mstep, ht]
  cases ph with
  | after b =>
    have hop : op ≠ .SYNC ∧ typed (.after b) rest := by cases b <;> exact hty
    have hsame : (teamReleasePsyncs ⟨Y.team, m.avail⟩ op).psync_avail = m.avail := by
      cases op with
      | SYNC => exact absurd rfl hop.1
      | _ => rfl
    rw [hsame]
    exact ⟨.after b, h.move _ hop.2 rfl rfl (fun h1 h2 => ⟨by simp, h2⟩) (by simp) (by simp)⟩
  | synced =>
    obtain ⟨rfl, hrest⟩ := hty
    refine ⟨.free, hrest, h.nmarks, h.nsyncs, h.nsel, h.opLe, h.marksLe, h.marksRet,
      fun _ _ => h.returned (by simp) (by simp), ?_, by simp, by simp⟩
    intro i x hi hx
    -- every choice was sealed by the sync just left
    have hi' : m.fin ≤ i := h.atSync rfl ▸ hi
    have hn := h.nsel
    simp only [Ph.opened, Nat.add_zero] at hn
    have hlt := (List.getElem?_eq_some_iff.mp hx).1
    simp only at hlt
    omega
  | _ => exact hty.elim

theorem LInv.ret (h : LInv m ph) (ht : m.todo = .ret :: rest) : ∃ ph', LInv (mstep Y m) ph' := by
  have hty := h.todo
  rw [ht] at hty
  simp only [mstep, ht]
  have hopened : ph.opened = 0 ∧ ph.inside = 0 ∧ typed .free rest := by
    cases ph with
    | free => exact ⟨rfl, rfl, hty⟩
    | after b =>
      cases b with
      | true => exact hty.elim
      | false => exact ⟨rfl, rfl, hty⟩
    | _ => exact hty.elim
  obtain ⟨ho, hi, hrest⟩ := hopened
  refine ⟨.free, hrest, h.nmarks, by rw [h.nsyncs, hi]; rfl, by rw [h.nsel, ho]; rfl, ?_, ?_, h.marksRet, ?_, h.since,
    by simp, by simp⟩
  · exact fun x hx => Nat.le_succ_of_le (h.opLe x hx)
  · exact fun k hk => ⟨(h.marksLe k hk).1, Nat.le_succ_of_le (h.marksLe k hk).2⟩
  · exact fun _ _ x hx _ => Nat.lt_succ_of_le (h.opLe x hx)

/-- **A step of a member keeps its invariant**, in some phase. -/
theorem mstep_inv (Y : Sys) (h : LInv m ph) : ∃ ph', LInv (mstep Y m) ph' := by
  cases ht : m.todo with
  | nil =>
    simp only [mstep, ht]
    cases hp : Y.prog[m.opn]? with
    | none => exact ⟨ph, h⟩
    | some op =>
      have hty := h.todo
      rw [ht] at hty
      cases ph with
      | free =>
        exact ⟨.free, h.move _ (micros_typed _ _ op) rfl rfl (fun _ _ => ⟨by simp, by simp⟩) (by simp) (by simp)⟩
      | after b => cases b <;> exact hty.elim
      | _ => exact hty.elim
  | cons a rest =>
    cases a with
    | choose op inner => exact h.choose ht
    | pick inner => exact h.pick ht
    | use => exact h.use ht
    | fin => exact h.fin ht
    | barIn => exact h.barIn ht
    | barOut => exact h.barOut ht
    | release op => exact h.release ht
    | ret => exact h.ret ht

end

/-! ## Inside a split -/

/-- from the parent barrier on: leave it, release, and the MAX reduction -/
def finalPart : List Micro := .barOut :: .release .SYNC :: collective .REDUCE

/-- what a split does when it has chosen the slot of its first reduction -/
def afterChoice : List Micro := [.use, .fin, .release .REDUCE, .barIn] ++ finalPart

/-- a member has made choice i in the current split, and d of the steps since -/
structure AtStep (m : MSt) (i d : ℕ) : Prop where
  lt : d < 11
  todo : m.todo = afterChoice.drop d
  /-- it has not entered a sync since -/
  unmarked : d ≤ 3 → ∀ k ∈ m.marks, k.1 ≤ i
  first : d ≤ 6 → m.sel.length = i + 1
  fin : m.fin = i + if d < 2 then 0 else if d < 9 then 1 else 2
  armed : d = 6 → m.avail = fun _ => true
  /-- the final reduction has slot 0 -/
  second : 7 ≤ d → m.sel[i + 1]? = some ⟨m.opn, 0, false⟩

/-- the choices of the first reductions, in the splits a member has returned from and in the one it is in -/
structure SplitInv (m : MSt) : Prop where
  rest : ∀ a r, a :: r <:+ m.todo → (a = .pick true ∨ ∃ op, a = .choose op true) → r = afterChoice
  past : ∀ i x, m.sel[i]? = some x → x.inner = true → x.op < m.opn →
    m.sel[i + 1]? = some ⟨x.op, 0, false⟩ ∧ i + 1 < m.fin
  now : ∀ i x, m.sel[i]? = some x → x.inner = true → x.op = m.opn → ∃ d, AtStep m i d

section
variable {Y : Sys} {m : MSt} {ph : Ph}

theorem micros_rest (numPes : ℕ) (team : TeamDesc) (op : TOp) :
    ∀ a r, a :: r <:+ micros numPes team op → (a = .pick true ∨ ∃ op, a = .choose op true) → r = afterChoice := by
  intro a r h hc
  cases op with
  | splitStrided PE_start PE_stride PE_size =>
    simp only [micros] at h
    split_ifs at h
    · rcases hc with rfl | ⟨op, rfl⟩ <;> simp [List.suffix_cons_iff] at h
    · rcases hc with rfl | ⟨op, rfl⟩ <;> simp [List.suffix_cons_iff, collective] at h
      rw [h.2]
      rfl
  | _ => rcases hc with rfl | ⟨op, rfl⟩ <;> simp [micros, collective, List.suffix_cons_iff] at h

/-- what a step does to the choices -/
theorem mstep_sel (Y : Sys) (m : MSt) : (mstep Y m).sel = m.sel ∨
    ∃ a rest sl inner, m.todo = a :: rest ∧ (a = .pick inner ∨ ∃ op, a = .choose op inner) ∧
      (mstep Y m).sel = m.sel ++ [⟨m.opn, sl, inner⟩] ∧ (mstep Y m).todo = rest ∧ (mstep Y m).opn = m.opn ∧
      (mstep Y m).marks = m.marks ∧ (mstep Y m).fin = m.fin := by
  unfold mstep
  split
  · split <;> exact .inl rfl
  · rename_i op inner rest ht
    dsimp only
    split
    · exact .inl rfl
    · exact .inr ⟨_, _, _, _, ht, .inr ⟨op, rfl⟩, rfl, rfl, rfl, rfl, rfl⟩
  · rename_i inner rest ht
    exact .inr ⟨_, _, _, _, ht, .inl rfl, rfl, rfl, rfl, rfl, rfl⟩
  all_goals exact .inl rfl

theorem mstep_opn (Y : Sys) (m : MSt) :
    (mstep Y m).opn = m.opn + if m.todo.head? = some .ret then 1 else 0 := by
  unfold mstep
  split
  · rename_i ht
    split <;> simp [ht]
  · rename_i ht
    dsimp only
    split <;> simp [ht]
  all_goals
    rename_i ht
    simp [ht]

theorem mstep_fin (Y : Sys) (m : MSt) : m.fin ≤ (mstep Y m).fin := by
  unfold mstep
  split
  · split <;> exact le_refl _
  · dsimp only
    split <;> exact le_refl _
  all_goals simp

/-- a member that is about to choose is done with all its choices -/
theorem LInv.fin_of_choice (h : LInv m ph) {a : Micro} {rest : List Micro} {inner : Bool} (ht : m.todo = a :: rest)
    (ha : a = .pick inner ∨ ∃ op, a = .choose op inner) : m.fin = m.sel.length := by
  have hty := h.todo
  have hn := h.nsel
  rw [ht] at hty
  cases ph with
  | pend b => rcases ha with rfl | ⟨op, rfl⟩ <;> exact hty.elim
  | _ => exact hn.symm

/-- the slot of the final reduction is chosen -/
theorem AtStep.choose {i : ℕ} (h : AtStep m i 6) : AtStep (mstep Y m) i 7 := by
  have ht : m.todo = .choose .REDUCE false :: [.use, .fin, .release .REDUCE, .ret] := h.todo
  have hsynced : (teamChoosePsync Y.T ⟨Y.team, m.avail⟩ .REDUCE).synced = false := by
    rw [h.armed rfl]
    rfl
  have hslot : (teamChoosePsync Y.T ⟨Y.team, m.avail⟩ .REDUCE).slot = some 0 := by
    rw [h.armed rfl]
    rfl
  have hlen := h.first (le_refl 6)
  refine ⟨by omega, ?_, by omega, by omega, ?_, by omega, fun _ => ?_⟩
  · simp only [mstep, ht, hsynced, Bool.false_eq_true, if_false]
    rfl
  · simp only [mstep, ht, hsynced, Bool.false_eq_true, if_false]
    exact h.fin
  · simp only [mstep, ht, hsynced, Bool.false_eq_true, if_false, hslot, Option.getD_some]
    rw [← hlen, List.getElem?_concat_length]

/-- the other steps of a split -/
theorem AtStep.next {i d : ℕ} (h : AtStep m i d) (hd : d < 10) : AtStep (mstep Y m) i (d + 1) := by
  have hsteps : d = 0 ∨ d = 1 ∨ d = 2 ∨ d = 3 ∨ d = 4 ∨ d = 5 ∨ d = 6 ∨ d = 7 ∨ d = 8 ∨ d = 9 := by omega
  obtain ⟨-, ht, hmarks, hlen, hfin, -, hsel⟩ := id h
  rcases hsteps with rfl | rfl | rfl | rfl | rfl | rfl | rfl | rfl | rfl | rfl
  case inr.inr.inr.inr.inr.inr.inl => exact h.choose
  all_goals
    simp only [afterChoice, finalPart, collective, List.cons_append, List.nil_append, List.drop] at ht
    simp only [mstep, ht]
    first
      | exact ⟨by omega, rfl, by omega, fun _ => hlen (by omega), by simpa using hfin, by omega, by omega⟩
      | exact ⟨by omega, rfl, fun _ => hmarks (by omega), fun _ => hlen (by omega), by simpa using hfin, by omega, by omega⟩
      | exact ⟨by omega, rfl, by omega, fun _ => hlen (by omega), by simpa using hfin, fun _ => rfl, by omega⟩
      | exact ⟨by omega, rfl, by omega, by omega, by simpa using hfin, by omega, fun _ => hsel (by omega)⟩

/-- a step pops a step of the operation, begins an operation, or puts off a choice until after a sync -/
theorem mstep_todo (h : SplitInv m) : ∀ a r, a :: r <:+ (mstep Y m).todo →
    (a = .pick true ∨ ∃ op, a = .choose op true) → r = afterChoice := by
  -- what is left of the operation
  have htail : ∀ {b : Micro} {rest : List Micro}, m.todo = b :: rest → ∀ a r, a :: r <:+ rest →
      (a = .pick true ∨ ∃ op, a = .choose op true) → r = afterChoice := fun ht a r hs hc =>
    h.rest a r (hs.trans (ht ▸ List.suffix_cons _ _)) hc
  unfold mstep
  split
  · split
    · exact h.rest
    · exact micros_rest _ _ _
  · rename_i op inner rest ht
    dsimp only
    split
    · intro a r hs hc
      rcases List.suffix_cons_iff.mp hs with heq | hs
      · rcases hc with rfl | ⟨op, rfl⟩ <;> simp at heq
      rcases List.suffix_cons_iff.mp hs with heq | hs
      · rcases hc with rfl | ⟨op, rfl⟩ <;> simp at heq
      rcases List.suffix_cons_iff.mp hs with heq | hs
      · -- the choice after the sync is followed by what followed the choice
        obtain ⟨rfl, rfl⟩ := List.cons.inj heq
        rcases hc with hc | ⟨op', hc⟩
        · obtain rfl := Micro.pick.inj hc
          exact h.rest _ _ (ht ▸ List.suffix_rfl) (.inr ⟨op, rfl⟩)
        · exact absurd hc (by simp)
      · exact htail ht a r hs hc
    · exact htail ht
  all_goals
    rename_i ht
    exact htail ht

/-- **A step of a member keeps what is known about its splits.** -/
theorem SplitInv.step (hl : LInv m ph) (h : SplitInv m) : SplitInv (mstep Y m) := by
  -- an old choice
  have hold : ∀ i x, m.sel[i]? = some x → x.inner = true → x.op = m.opn →
      ((mstep Y m).opn = m.opn ∧ ∃ d, AtStep (mstep Y m) i d) ∨
        ((mstep Y m).opn = m.opn + 1 ∧ (mstep Y m).sel[i + 1]? = some ⟨x.op, 0, false⟩ ∧ i + 1 < (mstep Y m).fin) := by
    intro i x hx hin hop
    obtain ⟨d, hd⟩ := h.now i x hx hin hop
    by_cases hlast : d = 10
    · subst hlast
      have ht : m.todo = [.ret] := hd.todo
      refine .inr ⟨by simp [mstep_opn, ht], ?_⟩
      have hfin := hd.fin
      rw [hop]
      simp only [mstep, ht]
      exact ⟨hd.second (by omega), by simp at hfin; omega⟩
    · have hlt := hd.lt
      have hret : ∀ d < 10, (afterChoice.drop d).head? ≠ some .ret := by decide
      refine .inl ⟨?_, d + 1, hd.next (by omega)⟩
      rw [mstep_opn, hd.todo, if_neg (hret d (by omega)), Nat.add_zero]
  have hopn : m.opn ≤ (mstep Y m).opn := by
    rw [mstep_opn]
    exact Nat.le_add_right _ _
  rcases mstep_sel Y m with hsel | ⟨a, rest, sl, inner, ht, ha, hsel, htodo, hopn', hmarks, hfin'⟩
  · refine ⟨mstep_todo h, fun i x hx hin hop => ?_, fun i x hx hin hop => ?_⟩
    · rw [hsel] at hx
      rcases (hl.opLe x (List.mem_of_getElem? hx)).lt_or_eq with hlt | heq
      · rw [hsel]
        obtain ⟨hs, hfin⟩ := h.past i x hx hin hlt
        exact ⟨hs, hfin.trans_le (mstep_fin Y m)⟩
      · rcases hold i x hx hin heq with ⟨ho, -⟩ | ⟨-, hs⟩
        · omega
        · exact hs
    · rw [hsel] at hx
      have hle := hl.opLe x (List.mem_of_getElem? hx)
      rcases hold i x hx hin (by omega) with ⟨-, hd⟩ | ⟨ho, -⟩
      · exact hd
      · omega
  · -- a new choice
    have hcases : ∀ i x, (mstep Y m).sel[i]? = some x → m.sel[i]? = some x ∨ (i = m.sel.length ∧ x = ⟨m.opn, sl, inner⟩) := by
      intro i x hx
      rw [hsel, List.getElem?_append] at hx
      split_ifs at hx with hi
      · exact .inl hx
      · rw [List.getElem?_singleton] at hx
        split_ifs at hx with h0
        exact .inr ⟨by omega, (Option.some.inj hx).symm⟩
    refine ⟨mstep_todo h, fun i x hx hin hop => ?_, fun i x hx hin hop => ?_⟩
    · rcases hcases i x hx with hx | ⟨-, rfl⟩
      · obtain ⟨hs, hfin⟩ := h.past i x hx hin (hopn' ▸ hop)
        rw [hsel, List.getElem?_append_left (List.getElem?_eq_some_iff.mp hs).1]
        exact ⟨hs, hfin.trans_le (mstep_fin Y m)⟩
      · exact absurd hop (by simp [hopn'])
    · rcases hcases i x hx with hx | ⟨rfl, rfl⟩
      · rcases hold i x hx hin (hop.trans hopn') with ⟨-, hd⟩ | ⟨ho, -⟩
        · exact hd
        · omega
      · have hn := hl.nsel
        subst hin
        have hrest := h.rest a rest (ht ▸ List.suffix_rfl) ha
        refine ⟨0, by omega, by rw [htodo, hrest]; rfl, fun _ k hk => ?_, fun _ => by rw [hsel]; simp, ?_, by omega, by omega⟩
        · have := (hl.marksLe k (hmarks ▸ hk)).1
          omega
        · rw [hfin', hl.fin_of_choice ht ha]
          rfl

end

/-! ## The sequence of local states -/

/-- the k-th local state of every member -/
def loc (Y : Sys) (k : ℕ) : MSt := (mstep Y)^[k] minit

theorem loc_succ (Y : Sys) (k : ℕ) : loc Y (k + 1) = mstep Y (loc Y k) := Function.iterate_succ_apply' _ _ _

theorem loc_inv (Y : Sys) (k : ℕ) : ∃ ph, LInv (loc Y k) ph := by
  induction k with
  | zero => exact ⟨_, minit_inv⟩
  | succ k ih =>
    obtain ⟨ph, h⟩ := ih
    rw [loc_succ]
    exact mstep_inv Y h

theorem loc_splitInv (Y : Sys) (k : ℕ) : SplitInv (loc Y k) := by
  induction k with
  | zero => exact ⟨by simp [loc, minit], by simp [loc, minit], by simp [loc, minit]⟩
  | succ k ih =>
    obtain ⟨ph, h⟩ := loc_inv Y k
    rw [loc_succ]
    exact ih.step h

/-- m' is later than m in the life of one member -/
structure Later (m m' : MSt) : Prop where
  sel : m.sel <+: m'.sel
  marks : m.marks <+: m'.marks

theorem Later.refl (m : MSt) : Later m m := ⟨List.prefix_rfl, List.prefix_rfl⟩

theorem Later.trans {a b c : MSt} (h : Later a b) (h' : Later b c) : Later a c :=
  ⟨h.sel.trans h'.sel, h.marks.trans h'.marks⟩

theorem mstep_later (Y : Sys) (m : MSt) : Later m (mstep Y m) := by
  unfold mstep
  split
  · split
    · exact Later.refl m
    · exact ⟨List.prefix_rfl, List.prefix_rfl⟩
  · dsimp only
    split
    · exact ⟨List.prefix_rfl, List.prefix_rfl⟩
    · exact ⟨List.prefix_append _ _, List.prefix_rfl⟩
  · exact ⟨List.prefix_append _ _, List.prefix_rfl⟩
  · exact ⟨List.prefix_rfl, List.prefix_rfl⟩
  · exact ⟨List.prefix_rfl, List.prefix_rfl⟩
  · exact ⟨List.prefix_rfl, List.prefix_append _ _⟩
  · exact ⟨List.prefix_rfl, List.prefix_rfl⟩
  · exact ⟨List.prefix_rfl, List.prefix_rfl⟩
  · exact ⟨List.prefix_rfl, List.prefix_rfl⟩

theorem loc_later (Y : Sys) {k k' : ℕ} (h : k ≤ k') : Later (loc Y k) (loc Y k') := by
  induction k', h using Nat.le_induction with
  | base => exact Later.refl _
  | succ k' _ ih =>
    rw [loc_succ]
    exact ih.trans (mstep_later Y _)

/-! ## All members -/

/-- every member is somewhere on the common sequence, and a sync is left only after all have entered it -/
structure Inv (Y : Sys) (s : St) : Prop where
  onPath : ∀ p, ∃ k, s p = loc Y k
  syncs : ∀ p < Y.team.size, ∀ q < Y.team.size, (s p).outs ≤ (s q).bars

/-- the syncs a step enters and leaves -/
theorem mstep_syncs (Y : Sys) (m : MSt) :
    m.bars ≤ (mstep Y m).bars ∧
      (mstep Y m).outs = m.outs + if m.todo.head? = some .barOut then 1 else 0 := by
  unfold mstep
  split
  · rename_i ht
    split <;> simp [ht]
  · rename_i ht
    dsimp only
    split <;> simp [ht]
  all_goals
    rename_i ht
    simp [ht]

theorem step_inv (Y : Sys) (s : St) (p : ℕ) (h : Inv Y s) : Inv Y (step Y s p) := by
  unfold step
  split_ifs with hen
  · obtain ⟨hp, hen⟩ := hen
    obtain ⟨hbars, houts⟩ := mstep_syncs Y (s p)
    refine ⟨?_, ?_⟩
    · intro q
      by_cases hq : q = p
      · subst hq
        obtain ⟨k, hk⟩ := h.onPath q
        exact ⟨k + 1, by rw [Function.update_self, loc_succ, hk]⟩
      · rw [Function.update_of_ne hq]
        exact h.onPath q
    · -- nobody's count of entered syncs goes down; p's count of left ones goes up only when it may
      have hle : ∀ q, (s q).bars ≤ (Function.update s p (mstep Y (s p)) q).bars := by
        intro q
        by_cases hq : q = p
        · subst hq
          rw [Function.update_self]
          exact hbars
        · rw [Function.update_of_ne hq]
      intro a ha q hq
      refine le_trans ?_ (hle q)
      by_cases hap : a = p
      · subst hap
        rw [Function.update_self, houts]
        split_ifs with hout
        · exact hen hout q hq
        · exact h.syncs a ha q hq
      · rw [Function.update_of_ne hap]
        exact h.syncs a ha q hq
  · exact h

/-- the invariant of every run -/
theorem run_inv (Y : Sys) (sched : List ℕ) : Inv Y (run Y sched) :=
  Runs.run_inv (step Y) (Inv Y) (step_inv Y) _ ⟨fun _ => ⟨0, rfl⟩, fun _ _ _ _ => le_refl _⟩ sched

/-- a choice of the same slot since the last sync there cannot be, so an earlier one was sealed by a sync -/
theorem LInv.sealed_of_reuse {m : MSt} {ph : Ph} (h : LInv m ph) {i j : ℕ} {x y : Sel} (hij : i < j)
    (hx : m.sel[i]? = some x) (hy : m.sel[j]? = some y) (hxy : x.slot = y.slot) :
    ∃ k ∈ m.marks, i < k.1 ∧ ∃ n, n < m.outs ∧ m.marks[n]? = some k := by
  have hi : i < sealed m := by
    by_contra hge
    exact (h.since i x (by omega) hx).2 j y hij hy hxy.symm
  unfold sealed at hi
  cases ho : m.outs with
  | zero => simp [ho] at hi
  | succ n =>
    simp only [ho] at hi
    cases hm : m.marks[n]? with
    | none => simp [hm] at hi
    | some k =>
      rw [hm] at hi
      exact ⟨k, List.mem_of_getElem? hm, by simpa using hi, n, by omega, hm⟩

/-- m is still in the split whose first reduction had choice i, x, of the choices `sel`: it has entered the parent barrier,
and the final reduction has the other slot -/
structure StillInSplit (m : MSt) (sel : List Sel) (i : ℕ) (x : Sel) : Prop where
  op : m.opn = x.op
  todo : m.todo <:+ finalPart
  other : ∃ y, sel[i + 1]? = some y ∧ y.op = x.op ∧ y.inner = false ∧ y.slot ≠ x.slot

/-- who has entered a sync since the first reduction of a split is in the last part of the split -/
theorem AtStep.suffix {m : MSt} {i d : ℕ} (h : AtStep m i d) {k : ℕ × ℕ} (hk : k ∈ m.marks) (hik : i < k.1) :
    m.todo <:+ finalPart := by
  have hd : 4 ≤ d := by
    by_contra hlt
    exact absurd (h.unmarked (by omega) k hk) (by omega)
  have hdrop : ∀ n, afterChoice.drop (4 + n) = finalPart.drop n := fun n => by
    rw [← List.drop_drop]
    rfl
  rw [h.todo, show d = 4 + (d - 4) by omega, hdrop]
  exact List.drop_suffix _ _

/-- a member that is about to use its slot has not yet finished with the last one it chose -/
theorem LInv.fin_of_use {ph : Ph} (h : LInv m ph) (huse : m.todo.head? = some .use) : m.fin + 1 = m.sel.length := by
  have hn := h.nsel
  have hty := h.todo
  obtain ⟨rest, ht⟩ : ∃ rest, m.todo = .use :: rest := by
    cases hcase : m.todo with
    | nil => simp [hcase] at huse
    | cons a rest =>
      rw [hcase] at huse
      exact ⟨rest, by rw [Option.some.inj huse]⟩
  rw [ht] at hty
  cases ph with
  | pend b =>
    simp only [Ph.opened] at hn
    omega
  | after b => cases b <;> exact hty.elim
  | _ => exact hty.elim

/-- two histories of which one continues the other agree where both have an entry -/
theorem getElem?_of_comparable {α : Type*} {l l' : List α} {n : ℕ} {x : α} (h : l <+: l' ∨ l' <+: l) (hx : l[n]? = some x)
    (hn : n < l'.length) : l'[n]? = some x := by
  rcases h with ⟨t, ht⟩ | ⟨t, ht⟩
  · rw [← ht, List.getElem?_append_left (List.getElem?_eq_some_iff.mp hx).1, hx]
  · rw [← hx, ← ht, List.getElem?_append_left hn]

/-- **Slots are reused only when quiescent.** Under every schedule all members choose the same slots, and when a member
starts to use a slot every member is done with every earlier use of it and has returned from the operation of that use.
There are two exceptions, when the earlier use was the first reduction of a split: the member that starts may be in the
final reduction of that same split, and a member may still be in its last part, with nothing left that uses the slot. -/
theorem slots_quiescent (Y : Sys) (sched : List ℕ) :
    (∀ p q, (run Y sched p).sel <+: (run Y sched q).sel ∨ (run Y sched q).sel <+: (run Y sched p).sel) ∧
    ∀ p < Y.team.size, ∀ j sl, StartsUse Y (run Y sched) p j sl →
      ∀ i x, i < j → (run Y sched p).sel[i]? = some x → x.slot = sl →
        ∀ q < Y.team.size, i < (run Y sched q).fin ∧ (x.op < (run Y sched q).opn ∨
          x.inner = true ∧ (x.op = (run Y sched p).opn ∨ StillInSplit (run Y sched q) (run Y sched p).sel i x)) := by
  have hinv := run_inv Y sched
  generalize run Y sched = s at hinv ⊢
  -- any two members are at comparable points of the common sequence
  have hcmp : ∀ p q, Later (s p) (s q) ∨ Later (s q) (s p) := by
    intro p q
    obtain ⟨k, hk⟩ := hinv.onPath p
    obtain ⟨k', hk'⟩ := hinv.onPath q
    rw [hk, hk']
    exact (le_total k k').imp (loc_later Y) (loc_later Y)
  have hlocal : ∀ p, (∃ ph, LInv (s p) ph) ∧ SplitInv (s p) := by
    intro p
    obtain ⟨k, hk⟩ := hinv.onPath p
    rw [hk]
    exact ⟨loc_inv Y k, loc_splitInv Y k⟩
  refine ⟨fun p q => (hcmp p q).imp Later.sel Later.sel, ?_⟩
  rintro p hp j sl ⟨huse, _, hlen, hj⟩ i x hij hx hsl q hq
  obtain ⟨y, hy, rfl⟩ := Option.map_eq_some_iff.mp hj
  obtain ⟨⟨ph, hip⟩, hsp⟩ := hlocal p
  obtain ⟨⟨ph', hiq⟩, hsq⟩ := hlocal q
  -- q has entered the sync that sealed an earlier use, with the same mark
  have hmark : ∀ i x, i < j → (s p).sel[i]? = some x → x.slot = y.slot →
      ∃ k ∈ (s q).marks, i < k.1 ∧ (x.inner = false → x.op < (s q).opn) := by
    intro i x hij hx hsl
    obtain ⟨k, hk, hik, n, hn, hnk⟩ := hip.sealed_of_reuse hij hx hy hsl
    have hlen : n < (s q).marks.length := by
      have := hinv.syncs p hp q hq
      have := hiq.nmarks
      omega
    have hmark := getElem?_of_comparable ((hcmp p q).imp Later.marks Later.marks) hnk hlen
    refine ⟨k, List.mem_of_getElem? hmark, hik, fun hin => ?_⟩
    have := hip.marksRet k hk i x hik hx hin
    have := (hiq.marksLe k (List.mem_of_getElem? hmark)).2
    omega
  obtain ⟨k, hk, hik, hret⟩ := hmark i x hij hx hsl
  have hfin := (hiq.marksLe k hk).1
  refine ⟨by omega, ?_⟩
  by_cases hdone : x.op < (s q).opn
  · exact .inl hdone
  by_cases hin : x.inner = false
  · exact absurd (hret hin) hdone
  rw [Bool.not_eq_false] at hin
  refine .inr ⟨hin, ?_⟩
  rcases (hip.opLe x (List.mem_of_getElem? hx)).lt_or_eq with hlt | heq
  · -- q has made the choice too, and is in the split
    have hn := hiq.nsel
    have hxq := getElem?_of_comparable ((hcmp p q).imp Later.sel Later.sel) hx (by omega)
    have hop : x.op = (s q).opn := le_antisymm (hiq.opLe x (List.mem_of_getElem? hxq)) (not_lt.mp hdone)
    obtain ⟨d, hd⟩ := hsq.now i x hxq hin hop
    obtain ⟨hfinal, hpast⟩ := hsp.past i x hx hin hlt
    refine .inr ⟨hop.symm, hd.suffix hk hik, _, hfinal, rfl, rfl, fun hslot => ?_⟩
    -- else the final reduction has the slot before p starts, and all have returned from it
    have hopen := hip.fin_of_use huse
    obtain ⟨-, -, -, hret'⟩ := hmark (i + 1) _ (by omega) hfinal (hslot.trans hsl)
    exact hdone (hret' rfl)
  · exact .inl heq

/-- a world of two PEs that broadcasts, splits off itself and broadcasts again -/
def twoPes : Sys := ⟨10, 2, ⟨0, 0, 0, 1, 2, 0⟩, [.broadcast, .splitStrided 0 1 2, .broadcast]⟩

/-- both members run up to the sync of the split and on into its final reduction; member 0 returns from the split and
starts the second broadcast -/
def splitSched : List ℕ :=
  List.replicate 12 0 ++ List.replicate 16 1 ++ List.replicate 9 0

set_option maxRecDepth 2000 in
theorem splitSched_starts : StartsUse twoPes (run twoPes splitSched) 0 3 1 := by
  have hlast : ((run twoPes splitSched 0).sel.getLast?).map Sel.inner = some false := by decide +kernel
  exact ⟨by decide +kernel, participates_of_outer hlast, by decide +kernel, by decide +kernel⟩

/-- the first reduction of the split used slot 1, so does the second broadcast, which member 0 starts while member 1 has
not returned from the split -/
theorem still_in_split :
    ¬ ∀ (Y : Sys) (sched : List ℕ), ∀ p < Y.team.size, ∀ j sl, StartsUse Y (run Y sched) p j sl →
      ∀ i x, i < j → (run Y sched p).sel[i]? = some x → x.slot = sl → x.op < (run Y sched p).opn →
        ∀ q < Y.team.size, x.op < (run Y sched q).opn := by
  intro h
  have := h twoPes splitSched 0 (by decide +kernel) 3 1 splitSched_starts 1 ⟨1, 1, true⟩ (by decide +kernel)
    (by decide +kernel) rfl
    (by decide +kernel) 1 (by decide +kernel)
  revert this
  decide +kernel

/-- at the same moment member 1 is done with that first reduction, and only its final reduction is left to it -/
theorem slots_quiescent_after_split :
    StartsUse twoPes (run twoPes splitSched) 0 3 1 ∧ 1 < (run twoPes splitSched 1).fin ∧
      StillInSplit (run twoPes splitSched 1) (run twoPes splitSched 0).sel 1 ⟨1, 1, true⟩ := by
  obtain ⟨hfin, h⟩ := (slots_quiescent twoPes splitSched).2 0 (by decide +kernel) 3 1 splitSched_starts 1 ⟨1, 1, true⟩
    (by decide +kernel) (by decide +kernel) rfl 1 (by decide +kernel)
  have hop : ¬ 1 < (run twoPes splitSched 1).opn := by decide +kernel
  have hop' : 1 ≠ (run twoPes splitSched 0).opn := by decide +kernel
  exact ⟨splitSched_starts, hfin, (h.resolve_left hop).2.resolve_left hop'⟩

end SandiaShmem.Teams.Reuse
