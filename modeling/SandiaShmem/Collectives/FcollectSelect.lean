/-
The choice of the fixed-length collect.

`shmem_internal_fcollect` chooses one of three algorithms by an environment variable, and the linear one ends with the
broadcast that `shmem_internal_bcast` chooses. The choice takes recursive doubling only for a power of two, so whatever
is chosen is correct, and the choice makes no difference to what the members have in the end.

- `bcastSelect`, `fcollectSelect`: the two choices; `none` is the error of an illegal type.
- `fcollect_correct`: all algorithms compute the concatenation.
-/
import SandiaShmem.Collectives.FcollectLinear
import SandiaShmem.Collectives.FcollectRing
import SandiaShmem.Collectives.FcollectRecdbl

namespace SandiaShmem.Collectives

open OneSided OneSided.Machine

/-! ## Model -/

/-- `shmem_internal_bcast`: `radix` and `COLL_CROSSOVER` are parameters of the library -/
def bcastSelect (bcast_type : CollType) (radix COLL_CROSSOVER PE_size : ℕ) : Option BcastAlg :=
  match bcast_type with
  | .AUTO => if PE_size < COLL_CROSSOVER then some .linear else some (.tree radix)
  | .LINEAR => some .linear
  | .TREE => some (.tree radix)
  | _ => none

/-- the algorithms; the linear one with its broadcast -/
inductive FcollectAlg where
  | linear (bcast : BcastAlg)
  | ring
  | recdbl
deriving DecidableEq, Repr

/-- `shmem_internal_fcollect`: which algorithm is called -/
def fcollectSelect (fcollect_type : CollType) (bcast : Option BcastAlg) (PE_size : ℕ) : Option FcollectAlg :=
  match fcollect_type with
  | .AUTO => some .ring
  | .LINEAR => bcast.map .linear
  | .RING => some .ring
  | .RECDBL => if PE_size &&& (PE_size - 1) = 0 then some .recdbl else some .ring
  | _ => none

/-- what it does -/
def FcollectAlg.body (G : FcollectArgs) : FcollectAlg → ℕ → List Instr
  | .linear bcast => FcollectLinear.fcollectLinear G bcast
  | .ring => FcollectRing.fcollectRing G
  | .recdbl => FcollectRecdbl.fcollectRecdbl G

/-- what it asks for: trees branch and have `int` indices, and recursive doubling needs a power of two -/
def FcollectAlg.Valid (G : FcollectArgs) : FcollectAlg → Prop
  | .linear bcast => bcast.Valid G.A (FcollectLinear.bcastArgs G).len 0
  | .ring => True
  | .recdbl => ∃ m, G.A.PE_size = 2 ^ m

/-! ## Correctness -/

section
variable {α : Type*} {G : FcollectArgs} {m0 : ℕ → Loc → α}

/-- each of the algorithms -/
theorem fcollect_ok (hsep : G.Separate) {alg : FcollectAlg} (hvalid : alg.Valid G) (c0 : ℕ → ℕ → ℤ)
    (h0 : ∀ v ∈ G.A.members, ∀ w, c0 v w = 0) (ops : List Op) :
    FcollectOk G (alg.body G) m0 ((G.machine (alg.body G)).run (init c0 m0) ops) := by
  cases alg with
  | linear bcast => exact FcollectLinear.linear_ok hsep hvalid c0 h0 ops
  | ring => exact FcollectRing.ring_ok hsep c0 h0 ops
  | recdbl =>
    obtain ⟨m, hm⟩ := hvalid
    exact FcollectRecdbl.recdbl_ok hm hsep c0 h0 ops

/-- what is chosen may be used -/
theorem fcollectSelect_valid {fcollect_type bcast_type : CollType} {radix COLL_CROSSOVER : ℕ} {G : FcollectArgs}
    (htree : (BcastAlg.tree radix).Valid G.A (FcollectLinear.bcastArgs G).len 0) {alg : FcollectAlg}
    (h : fcollectSelect fcollect_type (bcastSelect bcast_type radix COLL_CROSSOVER G.A.PE_size) G.A.PE_size = some alg) :
    alg.Valid G := by
  have hbcast : ∀ b, bcastSelect bcast_type radix COLL_CROSSOVER G.A.PE_size = some b →
      b.Valid G.A (FcollectLinear.bcastArgs G).len 0 := by
    intro b hb
    have hcases : b = .linear ∨ b = .tree radix := by
      cases bcast_type <;> simp only [bcastSelect, Option.some.injEq, reduceCtorEq] at hb
      · split_ifs at hb
        · exact .inl (Option.some.inj hb).symm
        · exact .inr (Option.some.inj hb).symm
      · exact .inl hb.symm
      · exact .inr hb.symm
    rcases hcases with rfl | rfl
    · trivial
    · exact htree
  cases fcollect_type with
  | LINEAR =>
    obtain ⟨b, hb, rfl⟩ := Option.map_eq_some_iff.mp h
    exact hbcast b hb
  | RECDBL =>
    simp only [fcollectSelect] at h
    split_ifs at h with hpow
    · obtain rfl := Option.some.inj h
      exact (Nat.and_sub_one_eq_zero_iff_isPowerOfTwo (Nat.one_le_iff_ne_zero.mp G.A.size_pos)).mp hpow
    · obtain rfl := Option.some.inj h
      trivial
  | AUTO => obtain rfl := Option.some.inj h; trivial
  | RING => obtain rfl := Option.some.inj h; trivial
  | TREE => exact absurd h (by simp [fcollectSelect])
  | DISSEM => exact absurd h (by simp [fcollectSelect])

end

/-- PEs 1 and 3 of four collect one byte each from address 4 to address 0 -/
def twoPes : FcollectArgs := ⟨⟨1, 2, 2, 4, Nat.two_pos, Nat.two_pos, by decide⟩, 0, 4, 1⟩

/-- the linear algorithm with the broadcast over a binary tree -/
def overTree : FcollectAlg := .linear (.tree 2)

/-- PE 3 sends its block, PE 1 broadcasts and PE 3 returns -/
def twoSched : List Op :=
  [.exec 3, .capture 3 0 0, .exec 3, .deliver 3 0 0, .exec 3, .exec 3, .deliver 3 3 0, .exec 1, .exec 1, .deliver 1 1 0,
    .exec 1, .exec 1, .deliver 1 3 0, .exec 1, .exec 1, .capture 1 5 0, .capture 1 5 1, .exec 1, .exec 1, .exec 1,
    .deliver 1 5 1, .deliver 1 5 0, .deliver 1 8 0, .exec 3, .exec 3, .deliver 3 5 0, .exec 3]

end SandiaShmem.Collectives
