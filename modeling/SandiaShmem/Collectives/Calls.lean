/-
Calls of a collective.

A collective is the list of instructions each member executes in one call. Either the members call it once (`once`), or
they call it over and over with nothing in between (`calls`): a member's program is then its body repeated, and position
`k * L + i` is instruction i of its k-th call, L being the length of the body.

The reductions share their arguments (`ReduceArgs`).
-/
import SandiaShmem.Core.OneSided
import SandiaShmem.Collectives.CallTree

namespace SandiaShmem.Collectives

open OneSided OneSided.Machine

/-- `coll_type_t`: the algorithm an environment variable asks for -/
inductive CollType where
  | AUTO
  | LINEAR
  | TREE
  | DISSEM
  | RING
  | RECDBL
deriving DecidableEq, Repr

/-- the members call `body` over and over -/
def calls (members : List ℕ) (body : ℕ → List Instr) : Machine Unit where
  prog v t := if v ∈ members then (body v)[t % (body v).length]? else none
  op _ _ := ()
  members := members

/-- the members call `body` once, on data of type α -/
def once {α : Type*} (members : List ℕ) (op : α → α → α) (body : ℕ → List Instr) : Machine α where
  prog v t := if v ∈ members then (body v)[t]? else none
  op := op
  members := members

/-- the arguments of a reduction: the active set, target and source as symmetric addresses, and the number of elements -/
structure ReduceArgs where
  A : ActiveSet
  target : ℕ
  source : ℕ
  count : ℕ

/-- target and source are the same or do not overlap -/
def ReduceArgs.Separate (G : ReduceArgs) : Prop :=
  G.target = G.source ∨ G.target + G.count ≤ G.source ∨ G.source + G.count ≤ G.target

/-- every count that is passed to `shmem_internal_reduce_local` is the `int` that arrives there -/
def CountsKept (members : List ℕ) (body : ℕ → List Instr) : Prop :=
  ∀ v ∈ members, ∀ (inb outb : Loc) (len : ℕ), .reduceLocal inb outb len ∈ body v → CInt.wrap 32 len = len

section
variable (body : ℕ → List Instr) (s : St Unit)

/-- v has entered its k-th call (counting from 0) -/
def Entered (v k : ℕ) : Prop := k * (body v).length < s.pc v

/-- v has returned from its k-th call -/
def Returned (v k : ℕ) : Prop := (k + 1) * (body v).length ≤ s.pc v

/-- v has returned from its k-th call and not entered the next -/
def JustReturned (v k : ℕ) : Prop := s.pc v = (k + 1) * (body v).length

end

theorem calls_congr {ms : List ℕ} {body body' : ℕ → List Instr} (h : ∀ v ∈ ms, body v = body' v) :
    calls ms body = calls ms body' := by
  have hprog : (calls ms body).prog = (calls ms body').prog := by
    funext v t
    simp only [calls]
    split_ifs with hv
    · rw [h v hv]
    · rfl
  unfold calls at hprog ⊢
  simp only at hprog
  rw [hprog]

theorem once_congr {α : Type*} {ms : List ℕ} {op : α → α → α} {body body' : ℕ → List Instr}
    (h : ∀ v ∈ ms, body v = body' v) : once ms op body = once ms op body' := by
  have hprog : (once ms op body).prog = (once ms op body').prog := by
    funext v t
    simp only [once]
    split_ifs with hv
    · rw [h v hv]
    · rfl
  unfold once at hprog ⊢
  simp only at hprog
  rw [hprog]

/-! ## Positions in a round -/

/-- the positions of two rounds do not mix -/
theorem pos_inj {L k k' i i' : ℕ} (hi : i < L) (hi' : i' < L) (h : k * L + i = k' * L + i') : k = k' ∧ i = i' := by
  have h1 : (k * L + i) / L = k := by
    rw [Nat.mul_comm, Nat.mul_add_div (by omega), Nat.div_eq_of_lt hi, Nat.add_zero]
  have h2 : (k' * L + i') / L = k' := by
    rw [Nat.mul_comm, Nat.mul_add_div (by omega), Nat.div_eq_of_lt hi', Nat.add_zero]
  have hk : k = k' := by rw [← h1, h, h2]
  subst hk
  exact ⟨rfl, by omega⟩

/-- an earlier round lies before a later one -/
theorem round_lt {L k i : ℕ} {t : ℕ} (hk : 1 ≤ k) (h : k * L + i < t) {i' : ℕ} (hi' : i' < L) : (k - 1) * L + i' < t := by
  obtain ⟨k, rfl⟩ : ∃ k', k = k' + 1 := ⟨k - 1, by omega⟩
  rw [Nat.add_sub_cancel]
  rw [Nat.add_mul, Nat.one_mul] at h
  omega

/-- the positions a step passes -/
theorem passed_cases {L k x t : ℕ} (hx : x < L) (h : k * L + x < t + 1) :
    k * L + x < t ∨ (t = k * L + x ∧ t % L = x) := by
  rcases Nat.lt_succ_iff_lt_or_eq.mp h with h | h
  · exact Or.inl h
  · refine Or.inr ⟨h.symm, ?_⟩
    rw [← h, Nat.mul_comm, Nat.mul_add_mod, Nat.mod_eq_of_lt hx]

/-- a delivery at another position of the round does not count -/
theorem mark_done_ne {s : St Unit} {r v k k' x x' L : ℕ} (hx : x < L) (hx' : x' < L) (hne : v = r → x' ≠ x) :
    (mark s r (k * L + x) 0).done v (k' * L + x') 0 = true ↔ s.done v (k' * L + x') 0 = true := by
  rw [mark_done]
  constructor
  · rintro (⟨hv, hpos, -⟩ | h)
    · exact absurd (pos_inj hx' hx hpos).2 (hne hv)
    · exact h
  · exact Or.inr

/-- the next delivery at the same position -/
theorem mark_done_next {s : St Unit} {r k x L n : ℕ} (hx : x < L)
    (h : ∀ k, s.done r (k * L + x) 0 = true ↔ k < n) (hk : k = n) (k' : ℕ) :
    (mark s r (k * L + x) 0).done r (k' * L + x) 0 = true ↔ k' < n + 1 := by
  rw [mark_done, h]
  constructor
  · rintro (⟨-, hpos, -⟩ | hlt)
    · have := (pos_inj hx hx hpos).1
      omega
    · omega
  · intro hlt
    rcases Nat.lt_succ_iff_lt_or_eq.mp hlt with hlt | rfl
    · exact Or.inr hlt
    · exact Or.inl ⟨rfl, by rw [hk], rfl⟩

/-- marks of other PEs and of other positions leave the facts about v alone -/
theorem mark_done_other {s : St Unit} {r i v i' : ℕ} (h : v ≠ r) :
    (mark s r i 0).done v i' 0 = true ↔ s.done v i' 0 = true := by
  rw [mark_done]
  simp [h]

end SandiaShmem.Collectives
