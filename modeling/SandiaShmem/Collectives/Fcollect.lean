/-
The fixed-length collect: what all its algorithms have in common.

The target of every member is to hold PE_size blocks of len elements, block r being the source of rank r. The target is a
region that is filled with the same data everywhere, so an algorithm is correct if who returns has every place of it
written, and who passes on a part of it has that part written.

- `FcollectArgs.region`: the target as a region.
- `FcollectOk`: what is to be shown of an algorithm.
- `FcollectArgs.ok`: it follows from what has been written.
-/
import SandiaShmem.Core.Fill
import SandiaShmem.Core.Ledger
import SandiaShmem.Collectives.Calls

namespace SandiaShmem.Collectives

open OneSided OneSided.Machine

/-- the arguments: the active set, target and source as symmetric addresses, and the length of a block -/
structure FcollectArgs where
  A : ActiveSet
  target : ℕ
  source : ℕ
  len : ℕ

namespace FcollectArgs
variable (G : FcollectArgs)

/-- source and target do not overlap -/
def Separate : Prop := G.target + G.A.PE_size * G.len ≤ G.source ∨ G.source + G.len ≤ G.target

/-- the members calling an algorithm once; nothing is reduced -/
def machine {α : Type*} (body : ℕ → List Instr) : Machine α := once G.A.members (fun a _ => a) body

/-- element x of the concatenation of all sources -/
def block {α : Type*} (m0 : ℕ → Loc → α) (x : ℕ) : α := m0 (G.A.pe (x / G.len)) (.sym (G.source + x % G.len))

def region {α : Type*} (m0 : ℕ → Loc → α) : Region α := ⟨G.target, G.A.PE_size * G.len, G.block m0⟩

variable {G} {α : Type*} {m0 : ℕ → Loc → α}

theorem block_eq {r j : ℕ} (hj : j < G.len) : G.block m0 (r * G.len + j) = m0 (G.A.pe r) (.sym (G.source + j)) := by
  rw [block, Nat.mul_comm, Nat.mul_add_div (by omega), Nat.div_eq_of_lt hj, Nat.mul_add_mod, Nat.mod_eq_of_lt hj,
    Nat.add_zero]

theorem block_le {r : ℕ} (hr : r < G.A.PE_size) : r * G.len + G.len ≤ G.A.PE_size * G.len := by
  calc r * G.len + G.len = (r + 1) * G.len := by ring
    _ ≤ G.A.PE_size * G.len := Nat.mul_le_mul_right _ hr

theorem source_apart (hsep : G.Separate) : (G.region m0).Apart (.sym G.source) G.len := by
  intro j hj x hx heq
  have hx : x < G.A.PE_size * G.len := hx
  have heq : G.source + j = G.target + x := by simpa [Region.loc, Loc.elem, region] using heq
  rcases hsep with h | h <;> omega

/-- a member copies its block into place -/
theorem fill_copy (hsep : G.Separate) {r : ℕ} (hr : r < G.A.PE_size) :
    (G.region m0).Fill (m0 (G.A.pe r)) (.memcpy (.sym (G.target + r * G.len)) (.sym G.source) G.len) :=
  .copy (r * G.len) G.len _ (block_le hr) (source_apart hsep) fun _ hj => (block_eq hj).symm

/-- a member sends its block to its place on another one -/
theorem fill_send (hsep : G.Separate) {r : ℕ} (hr : r < G.A.PE_size) (pe : ℕ) :
    (G.region m0).Fill (m0 (G.A.pe r)) (.putNb (G.target + r * G.len) (.sym G.source) G.len pe) :=
  .send (r * G.len) G.len pe _ (block_le hr) (source_apart hsep) fun _ hj => (block_eq hj).symm

/-- a member passes on a part of its target -/
theorem fill_pass {y l : ℕ} (hfit : y + l ≤ G.A.PE_size * G.len) (r pe : ℕ) :
    (G.region m0).Fill (m0 r) (.putNb (G.target + y) (.sym (G.target + y)) l pe) :=
  .pass y l pe hfit

end FcollectArgs

/-- what is true of a collect in a state s that it has reached from the memory m0 -/
structure FcollectOk {α : Type*} (G : FcollectArgs) (body : ℕ → List Instr) (m0 : ℕ → Loc → α) (s : St α) : Prop where
  /-- who has returned has the blocks of all members in the order of their ranks -/
  result : ∀ v ∈ G.A.members, s.pc v = (body v).length → ∀ r < G.A.PE_size, ∀ j < G.len,
    s.mem v (.sym (G.target + (r * G.len + j))) = m0 (G.A.pe r) (.sym (G.source + j))
  /-- who has begun to pass on a part of its target has it -/
  forwarded : ∀ v t y l pe, (G.machine (α := α) body).prog v t = some (.putNb (G.target + y) (.sym (G.target + y)) l pe) →
    t < s.pc v → ∀ j < l, s.mem v (.sym (G.target + (y + j))) = G.block m0 (y + j)
  /-- nothing but the target has changed -/
  outside : ∀ v l, (∀ x < G.A.PE_size * G.len, l ≠ .sym (G.target + x)) → s.mem v l = m0 v l
  /-- the pSync of who has returned is zero -/
  zero : ∀ v ∈ G.A.members, s.pc v = (body v).length → ∀ w, s.cell v w = 0

namespace FcollectArgs
variable {G : FcollectArgs} {α : Type*} {m0 : ℕ → Loc → α} {body : ℕ → List Instr} {s : St α}

/-- **Filling is enough.** -/
theorem ok (h : (G.region m0).Filled (G.machine body) m0 s)
    (hfill : ∀ v t ins, (G.machine (α := α) body).prog v t = some ins → (G.region m0).Fill (m0 v) ins)
    (hall : ∀ v ∈ G.A.members, s.pc v = (body v).length → ∀ x < G.A.PE_size * G.len,
      (G.region m0).Written (G.machine body) s v x)
    (hpass : ∀ v t y l pe, (G.machine (α := α) body).prog v t =
      some (.putNb (G.target + y) (.sym (G.target + y)) l pe) → t < s.pc v → ∀ j < l,
        (G.region m0).Written (G.machine body) s v (y + j))
    (hzero : ∀ v ∈ G.A.members, s.pc v = (body v).length → ∀ w, s.cell v w = 0) : FcollectOk G body m0 s := by
  refine ⟨fun v hv hpc r hr j hj => ?_, fun v t y l pe hp ht j hj => ?_, h.outside, hzero⟩
  · have hle := block_le hr
    have hx : r * G.len + j < G.A.PE_size * G.len := by omega
    exact (h.inside v _ hx (hall v hv hpc _ hx)).trans (block_eq hj)
  · have hfit : y + l ≤ G.A.PE_size * G.len := by
      generalize hdst : G.target + y = dst at hp
      cases hfill v t _ hp with
      | send y' _ _ _ hfit => simp only [region] at hfit hdst; omega
      | pass y' _ _ hfit => simp only [region] at hfit hdst; omega
      | idle _ hidle => exact absurd hidle Bool.noConfusion
    exact h.inside v (y + j) (show y + j < G.A.PE_size * G.len by omega) (hpass v t y l pe hp ht j hj)

/-- there is nothing to collect, and nothing happens -/
theorem ok_of_nil (hlen : G.len = 0) (hnil : ∀ v, body v = []) {c0 : ℕ → ℕ → ℤ}
    (h0 : ∀ v ∈ G.A.members, ∀ w, c0 v w = 0) (ops : List Op) :
    FcollectOk G body m0 ((G.machine body).run (init c0 m0) ops) := by
  have hp : ∀ v t, (G.machine (α := α) body).prog v t = none := by
    intro v t
    simp [machine, once, hnil]
  rw [run_of_prog_none hp]
  refine ⟨fun v _ _ r _ j hj => by omega, fun v t y l pe hput => ?_, fun _ _ _ => rfl, fun v hv _ w => h0 v hv w⟩
  rw [hp] at hput
  exact absurd hput (by simp)

end FcollectArgs

end SandiaShmem.Collectives
