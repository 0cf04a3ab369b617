/-
A machine for one-sided communication between processing elements (PEs).

Each PE runs a straight-line program over its own memory: cells that hold integers (for synchronisation) and locations
that hold elements of a type α. Puts and remote atomics are issued and delivered later, one element at a time, in any
order, except that a fence orders what a PE issued before it ahead of what it issues after it to the same PE. A put or an
atomic of a buffer reads the buffer some time after it was issued. A message needs no identity of its own: it is the
instruction (PE, position) that issued it, with the number of the element.

- `Instr`, `Machine`, `St`, `step`: the machine. A schedule is a list of operations `Op`.
- `Hist`: what every state remembers: a delivered message was issued and its buffer read, fences, quiets, put_waits and
  barriers did what they are for.
- `Keeps.run`: the invariant rule, with `Hist` for free and one case for each kind of step.
-/
import Mathlib.Tactic
import SandiaShmem.Core.Runs

namespace OneSided

/-! ## The machine -/

/-- comparisons of a wait -/
inductive Cmp where
  | EQ
  | NE
  | GE
deriving DecidableEq, Repr

def Cmp.holds : Cmp → ℤ → ℤ → Prop
  | .EQ, a, b => a = b
  | .NE, a, b => a ≠ b
  | .GE, a, b => b ≤ a

instance (c : Cmp) (a b : ℤ) : Decidable (c.holds a b) :=
  match c with
  | .EQ => inferInstanceAs (Decidable (a = b))
  | .NE => inferInstanceAs (Decidable (a ≠ b))
  | .GE => inferInstanceAs (Decidable (b ≤ a))

/-- a location of a PE: the same address on every PE, or one of the PE alone -/
inductive Loc where
  | sym (a : ℕ)
  | priv (a : ℕ)
deriving DecidableEq, Repr

/-- the j-th element of the buffer at a location -/
def Loc.elem : Loc → ℕ → Loc
  | .sym a, j => .sym (a + j)
  | .priv a, j => .priv (a + j)

/-- which element of the buffer at a location another location is -/
def Loc.offset : Loc → Loc → Option ℕ
  | .sym b, .sym a => if b ≤ a then some (a - b) else none
  | .priv b, .priv a => if b ≤ a then some (a - b) else none
  | _, _ => none

/-- an instruction; `pe` is the PE a message goes to -/
inductive Instr where
  /-- the call has been entered -/
  | enter
  | putScalar (cell : ℕ) (v : ℤ) (pe : ℕ)
  | atomicAdd (cell : ℕ) (v : ℤ) (pe : ℕ)
  | waitUntil (cell : ℕ) (c : Cmp) (v : ℤ)
  | assertLt (cell : ℕ) (v : ℤ)
  | putNb (dst : ℕ) (src : Loc) (len : ℕ) (pe : ℕ)
  | atomicv (dst : ℕ) (src : Loc) (len : ℕ) (pe : ℕ)
  /-- wait until the buffers of all earlier puts and atomics have been read -/
  | putWait
  | fence
  /-- wait until all earlier messages have been delivered -/
  | quiet
  | memcpy (dst src : Loc) (len : ℕ)
  /-- `out[j] = op(out[j], in[j])` -/
  | reduceLocal (inb outb : Loc) (len : ℕ)
  | store (cell : ℕ) (v : ℤ)
  /-- enter and leave a barrier of all members -/
  | barIn
  | barOut
deriving DecidableEq, Repr

/-- how many elements an instruction sends -/
def Instr.parts : Instr → ℕ
  | .putScalar .. => 1
  | .atomicAdd .. => 1
  | .putNb _ _ len _ => len
  | .atomicv _ _ len _ => len
  | _ => 0

/-- how many of them it reads from a buffer -/
def Instr.reads : Instr → ℕ
  | .putNb _ _ len _ => len
  | .atomicv _ _ len _ => len
  | _ => 0

/-- the PE it sends to -/
def Instr.dest : Instr → Option ℕ
  | .putScalar _ _ pe => some pe
  | .atomicAdd _ _ pe => some pe
  | .putNb _ _ _ pe => some pe
  | .atomicv _ _ _ pe => some pe
  | _ => none

/-- the cell it writes, on the PE itself or on the one it sends to -/
def Instr.word : Instr → Option ℕ
  | .putScalar cell _ _ => some cell
  | .atomicAdd cell _ _ => some cell
  | .store cell _ => some cell
  | _ => none

/-- it changes no memory, and sends nothing -/
def Instr.silent : Instr → Bool
  | .enter => true
  | .waitUntil .. => true
  | .assertLt .. => true
  | .putWait => true
  | .fence => true
  | .quiet => true
  | .barIn => true
  | .barOut => true
  | _ => false

/-- the programs of the PEs, the operation of the atomics on buffers, and the members of the barriers -/
structure Machine (α : Type*) where
  prog : ℕ → ℕ → Option Instr
  op : α → α → α
  members : List ℕ

/-- the state: positions in the programs, memory, what has been read from buffers, what has been delivered -/
structure St (α : Type*) where
  pc : ℕ → ℕ
  cell : ℕ → ℕ → ℤ
  mem : ℕ → Loc → α
  cap : ℕ → ℕ → ℕ → Option α
  done : ℕ → ℕ → ℕ → Bool

/-- before the first step -/
def init {α : Type*} (cell : ℕ → ℕ → ℤ) (mem : ℕ → Loc → α) : St α :=
  ⟨fun _ => 0, cell, mem, fun _ _ _ => none, fun _ _ _ => false⟩

/-- a step: a PE executes its next instruction, an element of a buffer is read, an element is delivered -/
inductive Op where
  | exec (r : ℕ)
  | capture (r i j : ℕ)
  | deliver (r i j : ℕ)
deriving DecidableEq, Repr

/-- a cell of one PE set to a value -/
def setCell (f : ℕ → ℕ → ℤ) (r c : ℕ) (v : ℤ) : ℕ → ℕ → ℤ := Function.update f r (Function.update (f r) c v)

/-- a location of one PE set to a value -/
def setLoc {α : Type*} (f : ℕ → Loc → α) (r : ℕ) (l : Loc) (v : α) : ℕ → Loc → α :=
  Function.update f r (Function.update (f r) l v)

/-- the flag of one element set -/
def setDone (f : ℕ → ℕ → ℕ → Bool) (r i j : ℕ) : ℕ → ℕ → ℕ → Bool :=
  fun r' i' j' => if r' = r ∧ i' = i ∧ j' = j then true else f r' i' j'

/-- the value of one element recorded -/
def setCap {α : Type*} (f : ℕ → ℕ → ℕ → Option α) (r i j : ℕ) (v : α) : ℕ → ℕ → ℕ → Option α :=
  fun r' i' j' => if r' = r ∧ i' = i ∧ j' = j then some v else f r' i' j'

/-- the buffer of one PE at `dst` overwritten: element j gets `v j` -/
def setBuf {α : Type*} (f : ℕ → Loc → α) (r : ℕ) (dst : Loc) (len : ℕ) (v : ℕ → α) : ℕ → Loc → α :=
  Function.update f r fun l =>
    match dst.offset l with
    | some j => if j < len then v j else f r l
    | none => f r l

namespace Machine
variable {α : Type*} (M : Machine α)

def partsAt (r i : ℕ) : ℕ := ((M.prog r i).map Instr.parts).getD 0
def readsAt (r i : ℕ) : ℕ := ((M.prog r i).map Instr.reads).getD 0
def destAt (r i : ℕ) : Option ℕ := (M.prog r i).bind Instr.dest

/-- how many barriers PE r has entered when it is at position i -/
def arrivals (r i : ℕ) : ℕ := ((List.range i).filter (fun k => M.prog r k = some .barIn)).length

/-- PE r may execute the instruction it is at -/
def Enabled (s : St α) (r : ℕ) : Instr → Prop
  | .waitUntil c cmp v => cmp.holds (s.cell r c) v
  | .assertLt c v => s.cell r c < v
  | .putWait => ∀ i < s.pc r, ∀ j < M.readsAt r i, (s.cap r i j).isSome = true
  | .quiet => ∀ i < s.pc r, ∀ j < M.partsAt r i, s.done r i j = true
  | .barOut => ∀ q ∈ M.members, M.arrivals r (s.pc r) ≤ M.arrivals q (s.pc q)
  | _ => True

instance (s : St α) (r : ℕ) (ins : Instr) : Decidable (M.Enabled s r ins) := by
  unfold Enabled
  split <;> infer_instance

/-- the effect of an instruction on the PE that executes it -/
def effect (s : St α) (r : ℕ) : Instr → St α
  | .memcpy dst src len => { s with mem := setBuf s.mem r dst len fun j => s.mem r (src.elem j) }
  | .reduceLocal inb outb len =>
    { s with mem := setBuf s.mem r outb len fun j => M.op (s.mem r (outb.elem j)) (s.mem r (inb.elem j)) }
  | .store c v => { s with cell := setCell s.cell r c v }
  | _ => s

/-- the position moves on -/
def advance (s : St α) (r : ℕ) : St α := { s with pc := Function.update s.pc r (s.pc r + 1) }

/-- the element counts as delivered -/
def mark (s : St α) (r i j : ℕ) : St α := { s with done := setDone s.done r i j }

/-- the element has been read -/
def record (s : St α) (r i j : ℕ) (v : α) : St α := { s with cap := setCap s.cap r i j v }

/-- the j-th element of the buffer of an instruction -/
def source (s : St α) (r j : ℕ) : Instr → Option α
  | .putNb _ src _ _ => some (s.mem r (src.elem j))
  | .atomicv _ src _ _ => some (s.mem r (src.elem j))
  | _ => none

/-- what a fence before position i asks of the messages before the fence -/
def Ordered (s : St α) (r i : ℕ) : Prop :=
  ∀ f < i, M.prog r f = some .fence → ∀ i' < f, M.destAt r i' = M.destAt r i → ∀ j' < M.partsAt r i', s.done r i' j' = true

instance (s : St α) (r i : ℕ) : Decidable (M.Ordered s r i) := inferInstanceAs (Decidable (∀ f < i, _))

/-- the element may be delivered -/
def Deliverable (s : St α) (r i j : ℕ) : Prop :=
  i < s.pc r ∧ j < M.partsAt r i ∧ s.done r i j = false ∧ (j < M.readsAt r i → (s.cap r i j).isSome = true) ∧
    M.Ordered s r i

instance (s : St α) (r i j : ℕ) : Decidable (M.Deliverable s r i j) := inferInstanceAs (Decidable (_ ∧ _))

/-- the element arrives -/
def arrive (s : St α) (r i j : ℕ) : Instr → St α
  | .putScalar c v pe => { s with cell := setCell s.cell pe c v }
  | .atomicAdd c v pe => { s with cell := setCell s.cell pe c (s.cell pe c + v) }
  | .putNb dst _ _ pe =>
    match s.cap r i j with
    | some v => { s with mem := setLoc s.mem pe (.sym (dst + j)) v }
    | none => s
  | .atomicv dst _ _ pe =>
    match s.cap r i j with
    | some v => { s with mem := setLoc s.mem pe (.sym (dst + j)) (M.op (s.mem pe (.sym (dst + j))) v) }
    | none => s
  | _ => s

/-- one step; an operation that is not possible changes nothing -/
def step (s : St α) : Op → St α
  | .exec r =>
    match M.prog r (s.pc r) with
    | none => s
    | some ins => if M.Enabled s r ins then advance (M.effect s r ins) r else s
  | .capture r i j =>
    if i < s.pc r ∧ j < M.readsAt r i ∧ s.cap r i j = none then
      match (M.prog r i).bind (source s r j) with
      | some v => record s r i j v
      | none => s
    else s
  | .deliver r i j =>
    match M.prog r i with
    | none => s
    | some ins =>
      if M.Deliverable s r i j then mark (M.arrive s r i j ins) r i j else s

def run (s : St α) (ops : List Op) : St α := Runs.run M.step s ops

end Machine

/-! ## Memory -/

section
variable {α : Type*}

theorem setCell_apply (f : ℕ → ℕ → ℤ) (r c : ℕ) (v : ℤ) (r' c' : ℕ) :
    setCell f r c v r' c' = if r' = r ∧ c' = c then v else f r' c' := by
  unfold setCell
  by_cases hr : r' = r
  · subst hr
    by_cases hc : c' = c
    · subst hc; simp
    · simp [hc]
  · simp [hr]

@[simp] theorem setCell_self (f : ℕ → ℕ → ℤ) (r c : ℕ) (v : ℤ) : setCell f r c v r c = v := by simp [setCell]

theorem setLoc_apply (f : ℕ → Loc → α) (r : ℕ) (l : Loc) (v : α) (r' : ℕ) (l' : Loc) :
    setLoc f r l v r' l' = if r' = r ∧ l' = l then v else f r' l' := by
  unfold setLoc
  by_cases hr : r' = r
  · subst hr
    by_cases hl : l' = l
    · subst hl; simp
    · simp [hl]
  · simp [hr]

theorem setDone_eq_true (f : ℕ → ℕ → ℕ → Bool) (r i j r' i' j' : ℕ) :
    setDone f r i j r' i' j' = true ↔ (r' = r ∧ i' = i ∧ j' = j) ∨ f r' i' j' = true := by
  unfold setDone
  split_ifs with h <;> simp [h]

theorem setCap_eq_some (f : ℕ → ℕ → ℕ → Option α) (r i j r' i' j' : ℕ) (v w : α) :
    setCap f r i j v r' i' j' = some w ↔
      (r' = r ∧ i' = i ∧ j' = j ∧ v = w) ∨ (¬ (r' = r ∧ i' = i ∧ j' = j) ∧ f r' i' j' = some w) := by
  unfold setCap
  split_ifs with h
  · obtain ⟨rfl, rfl, rfl⟩ := h; simp
  · simp only [h, not_false_eq_true, true_and]
    constructor
    · exact Or.inr
    · rintro (⟨h1, h2, h3, -⟩ | h')
      · exact absurd ⟨h1, h2, h3⟩ h
      · exact h'

@[simp] theorem Loc.offset_elem (b : Loc) (j : ℕ) : b.offset (b.elem j) = some j := by
  cases b <;> simp [Loc.offset, Loc.elem]

theorem Loc.offset_eq_some {b l : Loc} {j : ℕ} (h : b.offset l = some j) : l = b.elem j := by
  cases b <;> cases l <;> simp only [Loc.offset, reduceCtorEq] at h <;> split_ifs at h with hle
  all_goals
    simp only [Option.some.injEq] at h
    simp only [Loc.elem, Loc.sym.injEq, Loc.priv.injEq]
    omega

@[simp] theorem Loc.elem_elem (b : Loc) (i j : ℕ) : (b.elem i).elem j = b.elem (i + j) := by
  cases b <;> simp [Loc.elem, Nat.add_assoc]

theorem Loc.elem_inj {b : Loc} {j k : ℕ} : b.elem j = b.elem k ↔ j = k := by
  cases b <;> simp [Loc.elem]

theorem setBuf_other (f : ℕ → Loc → α) (r : ℕ) (dst : Loc) (len : ℕ) (v : ℕ → α) {r' : ℕ} (h : r' ≠ r) (l : Loc) :
    setBuf f r dst len v r' l = f r' l := by
  simp [setBuf, h]

theorem setBuf_elem (f : ℕ → Loc → α) (r : ℕ) (dst : Loc) {len : ℕ} (v : ℕ → α) {j : ℕ} (h : j < len) :
    setBuf f r dst len v r (dst.elem j) = v j := by
  simp [setBuf, h]

theorem setBuf_outside (f : ℕ → Loc → α) (r : ℕ) (dst : Loc) (len : ℕ) (v : ℕ → α) (l : Loc)
    (h : ∀ j < len, l ≠ dst.elem j) : setBuf f r dst len v r l = f r l := by
  unfold setBuf
  rw [Function.update_self]
  cases ho : dst.offset l with
  | none => rfl
  | some j =>
    dsimp only
    split_ifs with hj
    · exact absurd (Loc.offset_eq_some ho) (h j hj)
    · rfl

end

/-- lookups in a program put together from parts -/
theorem getElem?_append_of_left {β : Type*} {l l' : List β} {t : ℕ} {x : β} (h : l[t]? = some x) :
    (l ++ l')[t]? = some x := by
  rw [List.getElem?_append_left (List.getElem?_eq_some_iff.mp h).1]
  exact h

theorem getElem?_append_of_right {β : Type*} (l : List β) {l' : List β} {t : ℕ} {x : β} (h : l'[t]? = some x) :
    (l ++ l')[l.length + t]? = some x := by
  rw [List.getElem?_append_right (by omega), Nat.add_sub_cancel_left]
  exact h

theorem getElem?_append_cases {β : Type*} {l l' : List β} {t : ℕ} {x : β} (h : (l ++ l')[t]? = some x) :
    l[t]? = some x ∨ ∃ t', t = l.length + t' ∧ l'[t']? = some x := by
  rcases Nat.lt_or_ge t l.length with hlt | hge
  · rw [List.getElem?_append_left hlt] at h
    exact Or.inl h
  · rw [List.getElem?_append_right hge] at h
    exact Or.inr ⟨t - l.length, by omega, h⟩

/-- a program that repeats blocks of one length -/
theorem getElem?_flatMap_range {β : Type*} (f : ℕ → List β) {b : ℕ} (hb : 0 < b) (hf : ∀ i, (f i).length = b)
    (q t : ℕ) : ((List.range q).flatMap f)[t]? = if t < q * b then (f (t / b))[t % b]? else none := by
  have hlen : ∀ q, ((List.range q).flatMap f).length = q * b := by
    intro q
    induction q with
    | zero => simp
    | succ q ih => rw [List.range_succ, List.flatMap_append, List.length_append, ih]; simp [hf]; ring
  induction q with
  | zero => simp
  | succ q ih =>
    rw [List.range_succ, List.flatMap_append, List.getElem?_append, hlen, ih]
    by_cases h1 : t < q * b
    · have h2 : t < (q + 1) * b := by rw [Nat.add_mul]; omega
      rw [if_pos h1, if_pos h1, if_pos h2]
    · rw [if_neg h1]
      simp only [List.flatMap_cons, List.flatMap_nil, List.append_nil]
      by_cases h2 : t < (q + 1) * b
      · have hlt : t - q * b < b := by rw [Nat.add_mul] at h2; omega
        have ht : t = b * q + (t - q * b) := by rw [Nat.mul_comm b q]; omega
        have hdiv : t / b = q := by
          rw [ht, Nat.mul_add_div hb, Nat.div_eq_of_lt hlt, Nat.add_zero]
        have hmod : t % b = t - q * b := by
          conv_lhs => rw [ht]
          rw [Nat.mul_add_mod, Nat.mod_eq_of_lt hlt]
        rw [if_pos h2, hdiv, hmod]
      · rw [if_neg h2]
        refine List.getElem?_eq_none ?_
        rw [hf]
        rw [Nat.add_mul] at h2
        omega

namespace Machine
variable {α : Type*} (M : Machine α)

@[simp] theorem advance_pc_self (s : St α) (r : ℕ) : (advance s r).pc r = s.pc r + 1 := by simp [advance]

theorem advance_pc_other (s : St α) {r r' : ℕ} (h : r' ≠ r) : (advance s r).pc r' = s.pc r' := by simp [advance, h]

@[simp] theorem advance_cell (s : St α) (r : ℕ) : (advance s r).cell = s.cell := rfl
@[simp] theorem advance_mem (s : St α) (r : ℕ) : (advance s r).mem = s.mem := rfl
@[simp] theorem advance_cap (s : St α) (r : ℕ) : (advance s r).cap = s.cap := rfl
@[simp] theorem advance_done (s : St α) (r : ℕ) : (advance s r).done = s.done := rfl

@[simp] theorem effect_pc (s : St α) (r : ℕ) (ins : Instr) : (M.effect s r ins).pc = s.pc := by
  cases ins <;> rfl

@[simp] theorem effect_cap (s : St α) (r : ℕ) (ins : Instr) : (M.effect s r ins).cap = s.cap := by
  cases ins <;> rfl

@[simp] theorem effect_done (s : St α) (r : ℕ) (ins : Instr) : (M.effect s r ins).done = s.done := by
  cases ins <;> rfl

@[simp] theorem arrive_pc (s : St α) (r i j : ℕ) (ins : Instr) : (M.arrive s r i j ins).pc = s.pc := by
  unfold arrive
  split <;> first | rfl | (split <;> rfl)

@[simp] theorem arrive_cap (s : St α) (r i j : ℕ) (ins : Instr) : (M.arrive s r i j ins).cap = s.cap := by
  unfold arrive
  split <;> first | rfl | (split <;> rfl)

@[simp] theorem arrive_done (s : St α) (r i j : ℕ) (ins : Instr) : (M.arrive s r i j ins).done = s.done := by
  unfold arrive
  split <;> first | rfl | (split <;> rfl)

theorem effect_silent (s : St α) (r : ℕ) {ins : Instr} (h : ins.silent = true) : M.effect s r ins = s := by
  cases ins with
  | memcpy => exact absurd h (by simp [Instr.silent])
  | reduceLocal => exact absurd h (by simp [Instr.silent])
  | store => exact absurd h (by simp [Instr.silent])
  | _ => rfl

/-- cells an instruction does not write -/
theorem effect_cell_other (s : St α) (r : ℕ) {ins : Instr} {c : ℕ} (h : ins.word ≠ some c) (v : ℕ) :
    (M.effect s r ins).cell v c = s.cell v c := by
  cases ins with
  | store c' x =>
    have hne : c ≠ c' := fun heq => h (by rw [heq]; rfl)
    exact (setCell_apply ..).trans (if_neg fun hc => hne hc.2)
  | _ => rfl

theorem arrive_cell_other (s : St α) (r i j : ℕ) {ins : Instr} {c : ℕ} (h : ins.word ≠ some c) (v : ℕ) :
    (M.arrive s r i j ins).cell v c = s.cell v c := by
  cases ins with
  | putScalar c' x pe =>
    have hne : c ≠ c' := fun heq => h (by rw [heq]; rfl)
    exact (setCell_apply ..).trans (if_neg fun hc => hne hc.2)
  | atomicAdd c' x pe =>
    have hne : c ≠ c' := fun heq => h (by rw [heq]; rfl)
    exact (setCell_apply ..).trans (if_neg fun hc => hne hc.2)
  | putNb dst src len pe => simp only [arrive]; split <;> rfl
  | atomicv dst src len pe => simp only [arrive]; split <;> rfl
  | _ => rfl

@[simp] theorem mark_pc (s : St α) (r i j : ℕ) : (mark s r i j).pc = s.pc := rfl
@[simp] theorem mark_cell (s : St α) (r i j : ℕ) : (mark s r i j).cell = s.cell := rfl
@[simp] theorem mark_mem (s : St α) (r i j : ℕ) : (mark s r i j).mem = s.mem := rfl
@[simp] theorem mark_cap (s : St α) (r i j : ℕ) : (mark s r i j).cap = s.cap := rfl

theorem mark_done (s : St α) (r i j r' i' j' : ℕ) :
    (mark s r i j).done r' i' j' = true ↔ (r' = r ∧ i' = i ∧ j' = j) ∨ s.done r' i' j' = true :=
  setDone_eq_true ..

@[simp] theorem record_pc (s : St α) (r i j : ℕ) (v : α) : (record s r i j v).pc = s.pc := rfl
@[simp] theorem record_cell (s : St α) (r i j : ℕ) (v : α) : (record s r i j v).cell = s.cell := rfl
@[simp] theorem record_mem (s : St α) (r i j : ℕ) (v : α) : (record s r i j v).mem = s.mem := rfl
@[simp] theorem record_done (s : St α) (r i j : ℕ) (v : α) : (record s r i j v).done = s.done := rfl

theorem record_cap (s : St α) (r i j r' i' j' : ℕ) (v w : α) :
    (record s r i j v).cap r' i' j' = some w ↔
      (r' = r ∧ i' = i ∧ j' = j ∧ v = w) ∨ (¬ (r' = r ∧ i' = i ∧ j' = j) ∧ s.cap r' i' j' = some w) :=
  setCap_eq_some ..

/-- the message a position sends, and its parts -/
theorem partsAt_eq {r i : ℕ} {ins : Instr} (h : M.prog r i = some ins) : M.partsAt r i = ins.parts := by
  simp [partsAt, h]

theorem readsAt_eq {r i : ℕ} {ins : Instr} (h : M.prog r i = some ins) : M.readsAt r i = ins.reads := by
  simp [readsAt, h]

theorem destAt_eq {r i : ℕ} {ins : Instr} (h : M.prog r i = some ins) : M.destAt r i = ins.dest := by
  simp [destAt, h]

/-! ## Nothing is undone -/

/-- s' is later than s -/
structure Later (s s' : St α) : Prop where
  pc : ∀ r, s.pc r ≤ s'.pc r
  done : ∀ r i j, s.done r i j = true → s'.done r i j = true
  cap : ∀ r i j v, s.cap r i j = some v → s'.cap r i j = some v

theorem later_exec (s : St α) (r : ℕ) (ins : Instr) : Later s (advance (M.effect s r ins) r) := by
  refine ⟨?_, by simp, by simp⟩
  intro q
  by_cases h : q = r
  · subst h; simp
  · rw [advance_pc_other _ h, effect_pc]

theorem later_capture (s : St α) (r i j : ℕ) (v : α) (h : s.cap r i j = none) : Later s (record s r i j v) := by
  refine ⟨fun _ => le_refl _, fun _ _ _ h => h, ?_⟩
  intro r' i' j' w hw
  rw [record_cap]
  by_cases hs : r' = r ∧ i' = i ∧ j' = j
  · obtain ⟨rfl, rfl, rfl⟩ := hs
    simp [h] at hw
  · exact Or.inr ⟨hs, hw⟩

theorem later_deliver (s : St α) (r i j : ℕ) (ins : Instr) : Later s (mark (M.arrive s r i j ins) r i j) := by
  refine ⟨fun q => by simp, fun r' i' j' h => ?_, fun r' i' j' v h => by simpa using h⟩
  exact (mark_done ..).mpr (Or.inr (by simpa using h))

/-- what a state remembers of the steps before it -/
structure Hist (s : St α) : Prop where
  doneIssued : ∀ r i j, s.done r i j = true → i < s.pc r ∧ j < M.partsAt r i
  capIssued : ∀ r i j v, s.cap r i j = some v → i < s.pc r
  doneCap : ∀ r i j, s.done r i j = true → j < M.readsAt r i → (s.cap r i j).isSome = true
  fenced : ∀ r i j, s.done r i j = true → M.Ordered s r i
  quieted : ∀ r t, M.prog r t = some .quiet → t < s.pc r → ∀ i < t, ∀ j < M.partsAt r i, s.done r i j = true
  putWaited : ∀ r t, M.prog r t = some .putWait → t < s.pc r →
    ∀ i < t, ∀ j < M.readsAt r i, (s.cap r i j).isSome = true
  barred : ∀ r t, M.prog r t = some .barOut → t < s.pc r → ∀ q ∈ M.members, M.arrivals r t ≤ M.arrivals q (s.pc q)

theorem hist_init (cell : ℕ → ℕ → ℤ) (mem : ℕ → Loc → α) : M.Hist (init cell mem) := by
  constructor <;> simp [init]

theorem arrivals_mono (r : ℕ) {i i' : ℕ} (h : i ≤ i') : M.arrivals r i ≤ M.arrivals r i' := by
  unfold arrivals
  exact ((List.range_sublist.mpr h).filter _).length_le

variable {M}

theorem Ordered.later {s s' : St α} (h : Later s s') {r i : ℕ} (ho : M.Ordered s r i) : M.Ordered s' r i :=
  fun f hf hp i' hi' hd j' hj' => h.done _ _ _ (ho f hf hp i' hi' hd j' hj')

theorem Later.isSome {s s' : St α} (h : Later s s') {r i j : ℕ} (hs : (s.cap r i j).isSome = true) :
    (s'.cap r i j).isSome = true := by
  obtain ⟨v, hv⟩ := Option.isSome_iff_exists.mp hs
  rw [h.cap r i j v hv]
  rfl

/-- an old fact about positions passed is kept by every step but the one that passes the position -/
theorem Hist.exec {s : St α} (h : M.Hist s) {r : ℕ} {ins : Instr} (hp : M.prog r (s.pc r) = some ins)
    (he : M.Enabled s r ins) : M.Hist (advance (M.effect s r ins) r) := by
  have hl := M.later_exec s r ins
  -- a position passed now was passed before or is the one PE r was at
  have hpos : ∀ q t, t < (advance (M.effect s r ins) r).pc q → t < s.pc q ∨ (q = r ∧ t = s.pc r) := by
    intro q t ht
    by_cases hq : q = r
    · subst hq
      rw [advance_pc_self, effect_pc] at ht
      rcases Nat.lt_succ_iff_lt_or_eq.mp ht with ht | ht
      · exact Or.inl ht
      · exact Or.inr ⟨rfl, ht⟩
    · rw [advance_pc_other _ hq, effect_pc] at ht
      exact Or.inl ht
  have harr : ∀ q, M.arrivals q (s.pc q) ≤ M.arrivals q ((advance (M.effect s r ins) r).pc q) :=
    fun q => M.arrivals_mono q (hl.pc q)
  refine ⟨?_, ?_, ?_, ?_, ?_, ?_, ?_⟩
  · intro q i j hd
    simp only [advance_done, effect_done] at hd
    obtain ⟨h1, h2⟩ := h.doneIssued q i j hd
    exact ⟨lt_of_lt_of_le h1 (hl.pc q), h2⟩
  · intro q i j v hc
    simp only [advance_cap, effect_cap] at hc
    exact lt_of_lt_of_le (h.capIssued q i j v hc) (hl.pc q)
  · intro q i j hd hj
    simp only [advance_done, effect_done] at hd
    exact hl.isSome (h.doneCap q i j hd hj)
  · intro q i j hd
    simp only [advance_done, effect_done] at hd
    exact (h.fenced q i j hd).later hl
  · intro q t hq ht i hi j hj
    rcases hpos q t ht with ht | ⟨rfl, rfl⟩
    · exact hl.done _ _ _ (h.quieted q t hq ht i hi j hj)
    · rw [hp, Option.some.injEq] at hq
      subst hq
      exact hl.done _ _ _ (he i hi j hj)
  · intro q t hq ht i hi j hj
    rcases hpos q t ht with ht | ⟨rfl, rfl⟩
    · exact hl.isSome (h.putWaited q t hq ht i hi j hj)
    · rw [hp, Option.some.injEq] at hq
      subst hq
      exact hl.isSome (he i hi j hj)
  · intro q t hq ht a ha
    rcases hpos q t ht with ht | ⟨rfl, rfl⟩
    · exact le_trans (h.barred q t hq ht a ha) (harr a)
    · rw [hp, Option.some.injEq] at hq
      subst hq
      exact le_trans (he a ha) (harr a)

theorem Hist.capture {s : St α} (h : M.Hist s) {r i j : ℕ} (v : α) (hi : i < s.pc r) (hc : s.cap r i j = none) :
    M.Hist (record s r i j v) := by
  have hl := later_capture s r i j v hc
  refine ⟨h.doneIssued, ?_, fun q t k hd hk => hl.isSome (h.doneCap q t k hd hk), h.fenced, h.quieted,
    fun q t hq ht k hk l hlk => hl.isSome (h.putWaited q t hq ht k hk l hlk), h.barred⟩
  intro q t k w hw
  rcases (record_cap ..).mp hw with ⟨rfl, rfl, -, -⟩ | ⟨-, hw⟩
  · exact hi
  · exact h.capIssued q t k w hw

theorem Hist.deliver {s : St α} (h : M.Hist s) {r i j : ℕ} {ins : Instr} (hd : M.Deliverable s r i j) :
    M.Hist (mark (M.arrive s r i j ins) r i j) := by
  have hl := M.later_deliver s r i j ins
  obtain ⟨hi, hj, -, hcap, hord⟩ := hd
  -- a message delivered now is the new one or was delivered before
  have hcases : ∀ q t k, (mark (M.arrive s r i j ins) r i j).done q t k = true →
      (q = r ∧ t = i ∧ k = j) ∨ s.done q t k = true := by
    intro q t k hq
    simpa using (mark_done ..).mp hq
  refine ⟨?_, ?_, ?_, ?_, ?_, ?_, ?_⟩
  · intro q t k hq
    simp only [mark_pc, arrive_pc]
    rcases hcases q t k hq with ⟨rfl, rfl, rfl⟩ | hq
    · exact ⟨hi, hj⟩
    · exact h.doneIssued q t k hq
  · intro q t k v hv
    simp only [mark_cap, arrive_cap, mark_pc, arrive_pc] at hv ⊢
    exact h.capIssued q t k v hv
  · intro q t k hq hk
    refine hl.isSome ?_
    rcases hcases q t k hq with ⟨rfl, rfl, rfl⟩ | hq
    · exact hcap hk
    · exact h.doneCap q t k hq hk
  · intro q t k hq
    refine Ordered.later hl ?_
    rcases hcases q t k hq with ⟨rfl, rfl, rfl⟩ | hq
    · exact hord
    · exact h.fenced q t k hq
  · intro q t hq ht a ha k hk
    simp only [mark_pc, arrive_pc] at ht
    exact hl.done _ _ _ (h.quieted q t hq ht a ha k hk)
  · intro q t hq ht a ha k hk
    simp only [mark_pc, arrive_pc] at ht
    exact hl.isSome (h.putWaited q t hq ht a ha k hk)
  · intro q t hq ht a ha
    simp only [mark_pc, arrive_pc] at ht ⊢
    exact h.barred q t hq ht a ha

/-- what a step can do -/
theorem step_cases (s : St α) (o : Op) : M.step s o = s ∨
    (∃ r ins, o = .exec r ∧ M.prog r (s.pc r) = some ins ∧ M.Enabled s r ins ∧
      M.step s o = advance (M.effect s r ins) r) ∨
    (∃ r i j ins v, o = .capture r i j ∧ M.prog r i = some ins ∧ i < s.pc r ∧ j < ins.reads ∧ s.cap r i j = none ∧
      source s r j ins = some v ∧ M.step s o = record s r i j v) ∨
    ∃ r i j ins, o = .deliver r i j ∧ M.prog r i = some ins ∧ M.Deliverable s r i j ∧
      M.step s o = mark (M.arrive s r i j ins) r i j := by
  cases o with
  | exec r =>
    simp only [Machine.step]
    cases hp : M.prog r (s.pc r) with
    | none => exact .inl rfl
    | some ins =>
      dsimp only
      split_ifs with he
      · exact .inr (.inl ⟨r, ins, rfl, hp, he, rfl⟩)
      · exact .inl rfl
  | capture r i j =>
    simp only [Machine.step]
    split_ifs with hc
    · obtain ⟨hpc, hj, hn⟩ := hc
      cases hp : M.prog r i with
      | none => exact .inl rfl
      | some ins =>
        rw [M.readsAt_eq hp] at hj
        simp only [Option.bind_some]
        cases hv : source s r j ins with
        | none => exact .inl rfl
        | some v => exact .inr (.inr (.inl ⟨r, i, j, ins, v, rfl, hp, hpc, hj, hn, hv, rfl⟩))
    · exact .inl rfl
  | deliver r i j =>
    simp only [Machine.step]
    cases hp : M.prog r i with
    | none => exact .inl rfl
    | some ins =>
      dsimp only
      split_ifs with hd
      · exact .inr (.inr (.inr ⟨r, i, j, ins, rfl, hp, hd, rfl⟩))
      · exact .inl rfl

/-- what has to be shown of a step: one case for each kind -/
structure Keeps (M : Machine α) (I : St α → Prop) : Prop where
  exec : ∀ s r ins, M.Hist s → I s → M.prog r (s.pc r) = some ins → M.Enabled s r ins →
    I (advance (M.effect s r ins) r)
  capture : ∀ s r i j ins v, M.Hist s → I s → M.prog r i = some ins → i < s.pc r → j < ins.reads →
    s.cap r i j = none → source s r j ins = some v → I (record s r i j v)
  deliver : ∀ s r i j ins, M.Hist s → I s → M.prog r i = some ins → M.Deliverable s r i j →
    I (mark (M.arrive s r i j ins) r i j)

theorem Hist.step {s : St α} (h : M.Hist s) (o : Op) : M.Hist (M.step s o) := by
  rcases step_cases s o with hs | ⟨r, ins, -, hp, he, hs⟩ | ⟨r, i, j, ins, v, -, -, hpc, -, hn, -, hs⟩ |
    ⟨r, i, j, ins, -, -, hd, hs⟩
  · rwa [hs]
  · rw [hs]
    exact h.exec hp he
  · rw [hs]
    exact h.capture v hpc hn
  · rw [hs]
    exact h.deliver hd

/-- one step keeps the history and the invariant -/
theorem Keeps.step {I : St α → Prop} (k : M.Keeps I) (s : St α) (o : Op) (h : M.Hist s ∧ I s) :
    M.Hist (M.step s o) ∧ I (M.step s o) := by
  obtain ⟨hh, hi⟩ := h
  refine ⟨hh.step o, ?_⟩
  rcases step_cases s o with hs | ⟨r, ins, -, hp, he, hs⟩ | ⟨r, i, j, ins, v, -, hp, hpc, hj, hn, hv, hs⟩ |
    ⟨r, i, j, ins, -, hp, hd, hs⟩
  · rwa [hs]
  · rw [hs]
    exact k.exec s r ins hh hi hp he
  · rw [hs]
    exact k.capture s r i j ins v hh hi hp hpc hj hn hv
  · rw [hs]
    exact k.deliver s r i j ins hh hi hp hd

/-- **Invariant rule.** What every kind of step keeps holds after every schedule, beside the history. -/
theorem Keeps.run {I : St α → Prop} (k : M.Keeps I) {s : St α} (h : M.Hist s) (hi : I s) (ops : List Op) :
    M.Hist (M.run s ops) ∧ I (M.run s ops) :=
  Runs.run_inv M.step (fun s => M.Hist s ∧ I s) k.step s ⟨h, hi⟩ ops

/-- cells that nobody writes -/
theorem run_cell_unwritten {c : ℕ} (h : ∀ r t ins, M.prog r t = some ins → ins.word ≠ some c) (s : St α)
    (ops : List Op) (v : ℕ) : (M.run s ops).cell v c = s.cell v c := by
  refine Runs.run_inv M.step (fun s' => s'.cell v c = s.cell v c) ?_ s rfl ops
  intro s' o hs
  rw [← hs]
  rcases step_cases s' o with heq | ⟨r, ins, -, hp, -, heq⟩ | ⟨r, i, j, ins, a, -, -, -, -, -, -, heq⟩ |
    ⟨r, i, j, ins, -, hp, -, heq⟩
  · rw [heq]
  · rw [heq]
    exact effect_cell_other M s' r (h r _ ins hp) v
  · rw [heq]
    rfl
  · rw [heq]
    exact arrive_cell_other M s' r i j (h r i ins hp) v

/-- without instructions nothing happens -/
theorem run_of_prog_none (hp : ∀ r t, M.prog r t = none) (s : St α) (ops : List Op) : M.run s ops = s := by
  refine Runs.run_inv M.step (fun s' => s' = s) ?_ s rfl ops
  rintro s' o rfl
  cases o with
  | exec r => simp [Machine.step, hp]
  | capture r i j => simp [Machine.step, hp]
  | deliver r i j => simp [Machine.step, hp]

end Machine

end OneSided
