/-
The exchanges of all with all.

A member puts a block of its source to every member, itself last, with its own rank as the place of the block. Then it
enters the barrier on its pSync, and clears the words of the barrier. `shmem_internal_alltoall` sends a block as a whole,
`shmem_internal_alltoalls` one element at a time, with one distance between the elements of the source and another between
those of the target. Either returns at once when there is nothing to send.

A scalar put of the source is one that reads its buffer before the call goes on; here any put may read it later.
The words of the barrier are its ints, so that a long of pSync is two of them.

- `exchange`: puts, a barrier and the reset of pSync; `Barred`: what the barrier is good for.
- `exchange_arrived`: who has returned from it has been sent everything.
- `alltoall_correct`: both functions in every state of a run.
-/
import SandiaShmem.Core.Scatter
import SandiaShmem.Collectives.Collect

namespace SandiaShmem.Collectives.Alltoall

open OneSided OneSided.Machine

/-! ## Model -/

/-- `shmem_internal_sync`; `alg` is what it chooses for two PEs and more -/
def sync (A : ActiveSet) (alg : BarrierAlg) (my_pe : ℕ) : List Instr :=
  if A.PE_size = 1 then [] else barrierBody A alg my_pe

/-- `shmem_internal_barrier` -/
def barrier (A : ActiveSet) (alg : BarrierAlg) (my_pe : ℕ) : List Instr := .quiet :: sync A alg my_pe

/-- the reset of pSync -/
def reset : List Instr := (List.range (2 * SHMEM_BARRIER_SYNC_SIZE)).map fun i => .store i 0

/-- puts, the barrier and the reset -/
def exchange (A : ActiveSet) (alg : BarrierAlg) (data : ℕ → List Instr) (my_pe : ℕ) : List Instr :=
  data my_pe ++ (barrier A alg my_pe ++ reset)

/-- the blocks that `shmem_internal_alltoall` puts -/
def blocks (A : ActiveSet) (dest source len my_pe : ℕ) : List Instr :=
  let dest_ptr := dest + A.rank my_pe * len
  (peers A my_pe).map fun peer =>
    let peer_as_rank := A.rank peer
    .putNb dest_ptr (.sym (source + peer_as_rank * len)) len peer

/-- `shmem_internal_alltoall` on the PE my_pe -/
def alltoall (A : ActiveSet) (dest source len : ℕ) (alg : BarrierAlg) (my_pe : ℕ) : List Instr :=
  if len = 0 then [] else exchange A alg (blocks A dest source len) my_pe

/-- the arguments of `shmem_internal_alltoalls`: symmetric addresses, the strides and the size of an element in bytes, and
the number of elements of a block; no element of the target is on top of another -/
structure Strided where
  dest : ℕ
  source : ℕ
  dst : ℕ
  sst : ℕ
  elem_size : ℕ
  nelems : ℕ
  dst_pos : 1 ≤ dst

/-- the loop over the elements of a block, from the i-th to last on -/
def putElems (G : Strided) (peer : ℕ) : ℕ → ℕ → ℕ → List Instr
  | 0, _, _ => []
  | i + 1, dest_ptr, source_ptr =>
    .putNb dest_ptr (.sym source_ptr) G.elem_size peer ::
      putElems G peer i (dest_ptr + G.dst * G.elem_size) (source_ptr + G.sst * G.elem_size)

/-- the elements that `shmem_internal_alltoalls` puts -/
def elements (A : ActiveSet) (G : Strided) (my_pe : ℕ) : List Instr :=
  let dest_base := G.dest + A.rank my_pe * G.nelems * G.dst * G.elem_size
  (peers A my_pe).flatMap fun peer =>
    let peer_as_rank := A.rank peer
    putElems G peer G.nelems dest_base (G.source + peer_as_rank * G.nelems * G.sst * G.elem_size)

/-- `shmem_internal_alltoalls` on the PE my_pe -/
def alltoalls (A : ActiveSet) (G : Strided) (alg : BarrierAlg) (my_pe : ℕ) : List Instr :=
  if G.nelems = 0 then [] else exchange A alg (elements A G) my_pe

/-- the members calling it once -/
def machine {α : Type*} (A : ActiveSet) (body : ℕ → List Instr) : Machine α := once A.members (fun a _ => a) body

/-! ## Positions -/

/-- every member puts, and to members only -/
def Puts (A : ActiveSet) (data : ℕ → List Instr) : Prop :=
  ∀ v ∈ A.members, ∀ ins ∈ data v, ∃ dst src len, ∃ pe ∈ A.members, ins = .putNb dst src len pe

/-- where the synchronisation begins -/
def syncPos (data : ℕ → List Instr) (v : ℕ) : ℕ := (data v).length + 1

/-- where the reset begins -/
def resetPos (A : ActiveSet) (alg : BarrierAlg) (data : ℕ → List Instr) (v : ℕ) : ℕ :=
  syncPos data v + (sync A alg v).length

/-- what stands where in the program of a member -/
inductive CodeAt (A : ActiveSet) (alg : BarrierAlg) (data : ℕ → List Instr) (v : ℕ) : ℕ → Instr → Prop
  | data (t : ℕ) (ins : Instr) (h : (data v)[t]? = some ins) : CodeAt A alg data v t ins
  | quiet : CodeAt A alg data v (data v).length .quiet
  | sync (x : ℕ) (ins : Instr) (h : (sync A alg v)[x]? = some ins) : CodeAt A alg data v (syncPos data v + x) ins
  | store (i : ℕ) (hi : i < 2 * SHMEM_BARRIER_SYNC_SIZE) : CodeAt A alg data v (resetPos A alg data v + i) (.store i 0)

section
variable {α : Type*} {A : ActiveSet} {alg : BarrierAlg} {data : ℕ → List Instr} {v t : ℕ} {ins : Instr}

theorem CodeAt.at_pos {t' : ℕ} (h : CodeAt A alg data v t ins) (heq : t = t') : CodeAt A alg data v t' ins := heq ▸ h

theorem getElem?_reset {i : ℕ} : reset[i]? = some ins ↔ i < 2 * SHMEM_BARRIER_SYNC_SIZE ∧ ins = .store i 0 := by
  simp only [reset, List.getElem?_map, Option.map_eq_some_iff]
  constructor
  · rintro ⟨k, hk, rfl⟩
    obtain ⟨hlt, rfl⟩ := CollectArgs.getElem?_range_cases hk
    exact ⟨hlt, rfl⟩
  · rintro ⟨hi, rfl⟩
    exact ⟨i, List.getElem?_range hi, rfl⟩

theorem length_exchange : (exchange A alg data v).length = resetPos A alg data v + 2 * SHMEM_BARRIER_SYNC_SIZE := by
  simp only [exchange, barrier, reset, resetPos, syncPos, List.length_append, List.length_cons, List.length_map,
    List.length_range]
  omega

theorem getElem?_exchange : (exchange A alg data v)[t]? = some ins ↔ CodeAt A alg data v t ins := by
  constructor
  · intro h
    rcases getElem?_append_cases h with h | ⟨y, rfl, hrest⟩
    · exact .data t ins h
    rcases getElem?_append_cases hrest with hx | ⟨i, rfl, hi⟩
    · match y, hx with
      | 0, h => exact Option.some.inj h ▸ .quiet
      | x + 1, h => exact .at_pos (.sync x ins h) (by simp only [syncPos]; omega)
    · obtain ⟨hlt, rfl⟩ := getElem?_reset.mp hi
      exact .at_pos (.store i hlt) (by simp only [resetPos, syncPos, barrier, List.length_cons]; omega)
  · intro h
    cases h with
    | data _ _ h => exact getElem?_append_of_left h
    | quiet => exact getElem?_append_of_right (t := 0) _ (getElem?_append_of_left rfl)
    | sync x _ h =>
      have hx : (barrier A alg v)[x + 1]? = some ins := h
      have hin : (barrier A alg v ++ reset)[x + 1]? = some ins := getElem?_append_of_left hx
      have := getElem?_append_of_right (data v) hin
      rwa [show (data v).length + (x + 1) = syncPos data v + x by simp only [syncPos]; omega] at this
    | store i hi =>
      have := getElem?_append_of_right (data v) (getElem?_append_of_right (barrier A alg v)
        (getElem?_reset.mpr ⟨hi, rfl⟩))
      rwa [show (data v).length + ((barrier A alg v).length + i) = resetPos A alg data v + i by
        simp only [resetPos, syncPos, barrier, List.length_cons]; omega] at this

theorem prog_iff : (machine (α := α) A (exchange A alg data)).prog v t = some ins ↔
    v ∈ A.members ∧ CodeAt A alg data v t ins := by
  simp only [machine, once]
  split_ifs with hv
  · rw [getElem?_exchange, and_iff_right hv]
  · exact ⟨fun h => absurd h (by simp), fun h => absurd h.1 hv⟩

/-! ## The barrier -/

variable (A alg data) in
/-- who is through the barrier has everybody in it, and its words are zero -/
structure Barred (s : St α) : Prop where
  entered : ∀ p ∈ A.members, ∀ q ∈ A.members, resetPos A alg data p ≤ s.pc p → syncPos data q ≤ s.pc q
  zero : ∀ p ∈ A.members, resetPos A alg data p ≤ s.pc p → ∀ c, s.cell p c = 0

theorem sync_of_two (h2 : 2 ≤ A.PE_size) : sync A alg v = barrierBody A alg v := if_neg (by omega)

theorem sync_cells (halg : alg.Valid A) (hv : v ∈ A.members) (h : ins ∈ sync A alg v) : ins.cellular = true := by
  have hsize := A.size_pos
  rcases Nat.lt_or_ge 1 A.PE_size with h2 | h1
  · rw [sync_of_two h2] at h
    exact ((barrierBody_cells h2 halg hv).2 _ h).1
  · rw [sync, if_pos (by omega)] at h
    exact absurd h List.not_mem_nil

/-- puts do not touch pSync -/
theorem word_of_data (hputs : Puts A data) (hv : v ∈ A.members) (h : (data v)[t]? = some ins) : ins.word = none := by
  obtain ⟨dst, src, len, pe, -, rfl⟩ := hputs v hv ins (List.mem_of_getElem? h)
  rfl

theorem shift_zero (ins : Instr) : ins.shift 0 = ins := by cases ins <;> simp [Instr.shift]

theorem resetPos_of_two (h2 : 2 ≤ A.PE_size) (hv : v ∈ A.members) :
    resetPos A alg data v = syncPos data v + barrierLen A alg v := by
  rw [resetPos, sync_of_two h2, barrierLen_mem hv]

/-- the barrier is a part of the program -/
theorem slice (hputs : Puts A data) (h2 : 2 ≤ A.PE_size) (halg : alg.Valid A) :
    Slice (machine (α := α) A (exchange A alg data)) (calls A.members (barrierBody A alg)) 0 (syncPos data)
      (barrierLen A alg) := by
  refine barrier_slice h2 halg (fun v hv x ins hx => ?_) fun v t ins hp hout c hw => ?_
  · rw [shift_zero]
    exact prog_iff.mpr ⟨hv, .sync x _ (by rwa [sync_of_two h2])⟩
  · obtain ⟨hv, hat⟩ := prog_iff.mp hp
    cases hat with
    | data _ _ h =>
      rw [word_of_data hputs hv h] at hw
      exact absurd hw (by simp)
    | quiet => exact absurd hw (by simp [Instr.word])
    | sync x _ h =>
      have := (List.getElem?_eq_some_iff.mp h).1
      rw [barrierLen_mem hv, ← sync_of_two h2] at hout
      omega
    | store i hi =>
      obtain rfl : i = 0 + c := Option.some.inj hw
      rw [resetPos_of_two h2 hv]
      exact ⟨rfl, Nat.le_add_right _ _⟩

theorem barred_of_two (hputs : Puts A data) (h2 : 2 ≤ A.PE_size) (halg : alg.Valid A) (m0 : ℕ → Loc → α)
    {c0 : ℕ → ℕ → ℤ} (h0 : ∀ v ∈ A.members, ∀ w, c0 v w = 0) (ops : List Op) :
    Barred A alg data ((machine A (exchange A alg data)).run (init c0 m0) ops) := by
  have hkeeps := (slice (α := α) hputs h2 halg).keeps
    (fun v t ins hp => barrierLen_pos h2 halg (prog_iff.mp hp).1) (barrier_zero_alone h2 halg)
  obtain ⟨-, hin⟩ : _ ∧ InBarrier A alg 0 (syncPos data) _ :=
    hkeeps.run (hist_init _ c0 m0) (inBarrier_init m0 h0) ops
  refine ⟨fun p hp q hq hpc => ?_, fun p hp hpc c => ?_⟩
  · rw [resetPos_of_two h2 hp] at hpc
    exact (hin.entered h2 halg hp hq hpc).le
  · rw [resetPos_of_two h2 hp] at hpc
    have := hin.zero h2 halg hp hpc c
    rwa [Nat.zero_add] at this

/-- a single member has nobody to wait for -/
theorem barred_of_one (hputs : Puts A data) (h1 : A.PE_size = 1) (m0 : ℕ → Loc → α) {c0 : ℕ → ℕ → ℤ}
    (h0 : ∀ v ∈ A.members, ∀ w, c0 v w = 0) (ops : List Op) :
    Barred A alg data ((machine A (exchange A alg data)).run (init c0 m0) ops) := by
  have hsync : ∀ v, sync A alg v = [] := fun v => if_pos h1
  have hkeeps : (machine (α := α) A (exchange A alg data)).Keeps fun s => ∀ v ∈ A.members, ∀ c, s.cell v c = 0 := by
    refine ⟨fun s r ins _ h hp _ v hv c => ?_, fun s r i j ins a _ h _ _ _ _ _ => h, fun s r i j ins _ h hp hd v hv c => ?_⟩
    · obtain ⟨hr, hat⟩ := prog_iff.mp hp
      rw [advance_cell]
      generalize s.pc r = t at hat
      cases hat with
      | data _ _ hd =>
        obtain ⟨dst, src, len, pe, -, rfl⟩ := hputs r hr ins (List.mem_of_getElem? hd)
        exact h v hv c
      | quiet => exact h v hv c
      | sync x _ hx =>
        rw [hsync] at hx
        exact absurd hx (by simp)
      | store i hi =>
        refine (setCell_apply ..).trans ?_
        split_ifs
        · rfl
        · exact h v hv c
    · obtain ⟨hr, hat⟩ := prog_iff.mp hp
      rw [mark_cell, arrive_cell_other _ s r i j (c := c) ?_ v]
      · exact h v hv c
      · cases hat with
        | data _ _ hd =>
          rw [word_of_data hputs hr hd]
          exact nofun
        | quiet => exact nofun
        | sync x _ hx =>
          rw [hsync] at hx
          exact absurd hx (by simp)
        | store k hk =>
          have := hd.2.1
          rw [partsAt_eq _ hp] at this
          exact absurd this (Nat.not_lt_zero _)
  obtain ⟨-, hzero⟩ := hkeeps.run (hist_init _ c0 m0) h0 ops
  refine ⟨fun p hp q hq hpc => ?_, fun p hp _ => hzero p hp⟩
  obtain ⟨r, hr, rfl⟩ := A.mem_members.mp hp
  obtain ⟨r', hr', rfl⟩ := A.mem_members.mp hq
  obtain rfl : r = r' := by omega
  rw [resetPos] at hpc
  omega

/-! ## The exchange -/

theorem barred (hputs : Puts A data) (halg : alg.Valid A) (m0 : ℕ → Loc → α) {c0 : ℕ → ℕ → ℤ}
    (h0 : ∀ v ∈ A.members, ∀ w, c0 v w = 0) (ops : List Op) :
    Barred A alg data ((machine A (exchange A alg data)).run (init c0 m0) ops) := by
  have hsize := A.size_pos
  rcases Nat.lt_or_ge 1 A.PE_size with h2 | h1
  · exact barred_of_two hputs h2 halg m0 h0 ops
  · exact barred_of_one hputs (by omega) m0 h0 ops

/-- nobody puts to a buffer that is put -/
def Separate (A : ActiveSet) (data : ℕ → List Instr) : Prop :=
  ∀ u ∈ A.members, ∀ dst src len pe, .putNb dst src len pe ∈ data u → ∀ k < len,
    ∀ u' ∈ A.members, ∀ dst' src' len' pe', .putNb dst' src' len' pe' ∈ data u' → ∀ j < len',
      src.elem k ≠ .sym (dst' + j)

/-- the puts of the program are those of the data -/
theorem put_iff (halg : alg.Valid A) {dst len pe : ℕ} {src : Loc} :
    (machine (α := α) A (exchange A alg data)).prog v t = some (.putNb dst src len pe) ↔
      v ∈ A.members ∧ (data v)[t]? = some (.putNb dst src len pe) := by
  rw [prog_iff]
  refine and_congr_right fun hv => ⟨fun hat => ?_, fun h => .data t _ h⟩
  generalize hput : Instr.putNb dst src len pe = ins at hat
  cases hat with
  | data _ _ h => exact h
  | quiet => exact absurd hput Instr.noConfusion
  | sync x _ h =>
    subst hput
    exact absurd (sync_cells halg hv (List.mem_of_getElem? h)) Bool.noConfusion
  | store => exact absurd hput Instr.noConfusion

theorem scatters (hputs : Puts A data) (halg : alg.Valid A) (hsep : Separate A data) (m0 : ℕ → Loc → α) :
    (machine (α := α) A (exchange A alg data)).Scatters m0 where
  puts u t ins hp hb := by
    obtain ⟨hu, hat⟩ := prog_iff.mp hp
    cases hat with
    | data _ _ h =>
      obtain ⟨dst, src, len, pe, -, rfl⟩ := hputs u hu ins (List.mem_of_getElem? h)
      exact ⟨dst, src, len, pe, rfl⟩
    | quiet => exact absurd hb Bool.noConfusion
    | sync x _ h =>
      have hcell := sync_cells halg hu (List.mem_of_getElem? h)
      cases ins <;> first | exact absurd hcell Bool.noConfusion | exact absurd hb Bool.noConfusion
    | store => exact absurd hb Bool.noConfusion
  buffer u t dst src len pe hp k hk u' t' j a hsend := by
    obtain ⟨hu, h⟩ := (put_iff halg).mp hp
    generalize hl : src.elem k = l at hsend
    cases hsend with
    | put dst' src' len' hp' hj =>
      obtain ⟨hu', h'⟩ := (put_iff halg).mp hp'
      exact hsep u hu dst src len pe (List.mem_of_getElem? h) k hk u' hu' dst' src' len' _ (List.mem_of_getElem? h') j hj hl

section
variable (hputs : Puts A data) (halg : alg.Valid A) (hsep : Separate A data) (m0 : ℕ → Loc → α) (c0 : ℕ → ℕ → ℤ)
  (ops : List Op)
include hputs halg hsep

/-- a place that nobody puts to has not changed -/
theorem exchange_outside {l : Loc}
    (hno : v ∈ A.members → ∀ u ∈ A.members, ∀ dst src len, .putNb dst src len v ∈ data u → ∀ j < len, l ≠ .sym (dst + j)) :
    ((machine A (exchange A alg data)).run (init c0 m0) ops).mem v l = m0 v l := by
  obtain ⟨-, hs⟩ := (settled_keeps (scatters hputs halg hsep m0)).run (hist_init _ c0 m0) (settled_init c0) ops
  refine hs.eq_of_unsent fun u t j a hsend => ?_
  cases hsend with
  | put dst src len hp hj =>
    obtain ⟨hu, h⟩ := (put_iff halg).mp hp
    have hmem := List.mem_of_getElem? h
    obtain ⟨_, _, _, pe, hpe, heq⟩ := hputs u hu _ hmem
    obtain ⟨-, -, -, rfl⟩ := Instr.putNb.inj heq
    exact hno hpe u hu dst src len hmem j hj rfl

/-- who has returned has been sent everything -/
theorem exchange_arrived (h0 : ∀ v ∈ A.members, ∀ w, c0 v w = 0) (hv : v ∈ A.members)
    (hret : ((machine A (exchange A alg data)).run (init c0 m0) ops).pc v = (exchange A alg data v).length)
    {u dst len j : ℕ} {src : Loc} (hu : u ∈ A.members) (hput : .putNb dst src len v ∈ data u) (hj : j < len)
    (hsame : ∀ u' ∈ A.members, ∀ dst' src' len', .putNb dst' src' len' v ∈ data u' → ∀ j' < len',
      dst' + j' = dst + j → m0 u' (src'.elem j') = m0 u (src.elem j)) :
    ((machine A (exchange A alg data)).run (init c0 m0) ops).mem v (.sym (dst + j)) = m0 u (src.elem j) := by
  obtain ⟨hh, hs⟩ := (settled_keeps (scatters hputs halg hsep m0)).run (hist_init _ c0 m0) (settled_init c0) ops
  have hbarred := barred hputs halg m0 h0 ops
  generalize (machine A (exchange A alg data)).run (init c0 m0) ops = s at hret hh hs hbarred
  obtain ⟨t, ht⟩ := List.getElem?_of_mem hput
  have hp := (put_iff (α := α) halg).mpr ⟨hu, ht⟩
  -- u is behind its quiet
  have hquiet : (machine (α := α) A (exchange A alg data)).prog u (data u).length = some .quiet :=
    prog_iff.mpr ⟨hu, .quiet⟩
  have hpast : (data u).length < s.pc u := by
    refine hbarred.entered v hv u hu ?_
    rw [hret, length_exchange]
    exact Nat.le_add_right _ _
  have hdone : s.done u t j = true := by
    refine hh.quieted u _ hquiet hpast t (List.getElem?_eq_some_iff.mp ht).1 j ?_
    rw [partsAt_eq _ hp]
    exact hj
  refine hs.eq_of_arrived (.put dst src len hp hj) hdone fun u' t' j' b hsend => ?_
  generalize hl : Loc.sym (dst + j) = l at hsend
  cases hsend with
  | put dst' src' len' hp' hj' =>
    obtain ⟨hu', h'⟩ := (put_iff halg).mp hp'
    exact hsame u' hu' dst' src' len' (List.mem_of_getElem? h') j' hj' (Loc.sym.inj hl).symm

end

/-! ## What is put where -/

/-- the place of an element of a block in the whole array -/
theorem index_lt {s n k m : ℕ} (hs : s < n) (hk : k < m) : s * m + k < n * m := by
  calc s * m + k
    _ < (s + 1) * m := by rw [Nat.add_mul]; omega
    _ ≤ n * m := Nat.mul_le_mul_right _ hs

variable {G : Strided}

namespace Strided
variable (G)

/-- element x of the target and of the source -/
def destElem (x : ℕ) : ℕ := G.dest + x * G.dst * G.elem_size
def sourceElem (x : ℕ) : ℕ := G.source + x * G.sst * G.elem_size

/-- the put of element k from rank s to rank r -/
def put (A : ActiveSet) (s r k : ℕ) : Instr :=
  .putNb (G.destElem (s * G.nelems + k)) (.sym (G.sourceElem (r * G.nelems + k))) G.elem_size (A.pe r)

/-- no byte of an element of a source is a byte of an element of the target; disjoint arrays are like that -/
def Apart (A : ActiveSet) : Prop :=
  ∀ x < A.PE_size * G.nelems, ∀ y < A.PE_size * G.nelems, ∀ b < G.elem_size, ∀ b' < G.elem_size,
    G.sourceElem x + b ≠ G.destElem y + b'

variable {G}

/-- elements of the target do not overlap -/
theorem destElem_lt {x x' b : ℕ} (hlt : x < x') (hb : b < G.elem_size) : G.destElem x + b < G.destElem x' := by
  have hstep : x * G.dst * G.elem_size + G.elem_size ≤ x' * G.dst * G.elem_size := by
    calc x * G.dst * G.elem_size + G.elem_size
      _ ≤ x * G.dst * G.elem_size + G.dst * G.elem_size :=
          Nat.add_le_add_left (Nat.le_mul_of_pos_left _ G.dst_pos) _
      _ = (x + 1) * G.dst * G.elem_size := by ring
      _ ≤ x' * G.dst * G.elem_size := Nat.mul_le_mul_right _ (Nat.mul_le_mul_right _ hlt)
  simp only [destElem]
  omega

theorem destElem_inj {x x' b b' : ℕ} (hb : b < G.elem_size) (hb' : b' < G.elem_size)
    (h : G.destElem x + b = G.destElem x' + b') : x = x' ∧ b = b' := by
  rcases Nat.lt_trichotomy x x' with hlt | rfl | hgt
  · have := destElem_lt hlt hb
    omega
  · exact ⟨rfl, Nat.add_left_cancel h⟩
  · have := destElem_lt hgt hb'
    omega

theorem index_inj {s s' k k' : ℕ} (hk : k < G.nelems) (hk' : k' < G.nelems)
    (h : s * G.nelems + k = s' * G.nelems + k') : s = s' ∧ k = k' := by
  have hdiv := congrArg (· / G.nelems) h
  have hpos : 0 < G.nelems := by omega
  simp only [Nat.mul_comm _ G.nelems, Nat.mul_add_div hpos, Nat.div_eq_of_lt hk, Nat.div_eq_of_lt hk'] at hdiv
  obtain rfl : s = s' := hdiv
  exact ⟨rfl, Nat.add_left_cancel h⟩

end Strided

variable (A G data) in
/-- the data are the blocks of G -/
def Transposes : Prop :=
  ∀ s < A.PE_size, ∀ ins, ins ∈ data (A.pe s) ↔ ∃ r < A.PE_size, ∃ k < G.nelems, ins = G.put A s r k

section
variable (htr : Transposes A data G)
include htr

theorem Transposes.puts : Puts A data := by
  intro v hv ins hins
  obtain ⟨s, hs, rfl⟩ := A.mem_members.mp hv
  obtain ⟨r, hr, k, -, rfl⟩ := (htr s hs ins).mp hins
  exact ⟨_, _, _, _, A.pe_mem hr, rfl⟩

/-- a put comes from one rank and one element of the block for its target -/
theorem Transposes.of_mem {u dst len pe : ℕ} {src : Loc} (hu : u ∈ A.members) (h : .putNb dst src len pe ∈ data u) :
    ∃ s < A.PE_size, u = A.pe s ∧ ∃ r < A.PE_size, pe = A.pe r ∧ ∃ k < G.nelems, len = G.elem_size ∧
      dst = G.destElem (s * G.nelems + k) ∧ src = .sym (G.sourceElem (r * G.nelems + k)) := by
  obtain ⟨s, hs, rfl⟩ := A.mem_members.mp hu
  obtain ⟨r, hr, k, hk, heq⟩ := (htr s hs _).mp h
  obtain ⟨hdst, hsrc, hlen, hpe⟩ := Instr.putNb.inj heq
  exact ⟨s, hs, rfl, r, hr, hpe, k, hk, hlen, hdst, hsrc⟩

theorem Transposes.separate (hap : G.Apart A) : Separate A data := by
  intro u hu dst src len pe h k hk u' hu' dst' src' len' pe' h' j hj
  obtain ⟨s, -, -, r, hr, -, i, hi, rfl, -, rfl⟩ := htr.of_mem hu h
  obtain ⟨s', hs', -, r', -, -, i', hi', rfl, rfl, -⟩ := htr.of_mem hu' h'
  intro heq
  exact hap _ (index_lt hr hi) _ (index_lt hs' hi') k hk j hj (Loc.sym.inj heq)

end

variable (A G) in
/-- what is true of an exchange of the blocks of G in a state x that it has reached from the memory m0 -/
structure Exchanged (body : ℕ → List Instr) (m0 : ℕ → Loc → α) (x : St α) : Prop where
  /-- who has returned has in its block s the block of rank s that was for it -/
  result : ∀ r < A.PE_size, x.pc (A.pe r) = (body (A.pe r)).length → ∀ s < A.PE_size, ∀ k < G.nelems, ∀ b < G.elem_size,
    x.mem (A.pe r) (.sym (G.destElem (s * G.nelems + k) + b)) =
      m0 (A.pe s) (.sym (G.sourceElem (r * G.nelems + k) + b))
  /-- nothing but the elements of the members' targets has changed -/
  outside : ∀ v l, (v ∈ A.members → ∀ y < A.PE_size * G.nelems, ∀ b < G.elem_size, l ≠ .sym (G.destElem y + b)) →
    x.mem v l = m0 v l
  /-- the pSync of who has returned is zero -/
  zero : ∀ v ∈ A.members, x.pc v = (body v).length → ∀ w, x.cell v w = 0

theorem exchanged (htr : Transposes A data G) (halg : alg.Valid A) (hap : G.Apart A) (m0 : ℕ → Loc → α)
    {c0 : ℕ → ℕ → ℤ} (h0 : ∀ v ∈ A.members, ∀ w, c0 v w = 0) (ops : List Op) :
    Exchanged A G (exchange A alg data) m0 ((machine A (exchange A alg data)).run (init c0 m0) ops) := by
  refine ⟨fun r hr hret s hs k hk b hb => ?_, fun v l hl => ?_, fun v hv hret w => ?_⟩
  · have hput := (htr s hs _).mpr ⟨r, hr, k, hk, rfl⟩
    refine exchange_arrived htr.puts halg (htr.separate hap) m0 c0 ops h0 (A.pe_mem hr) hret (A.pe_mem hs) hput hb ?_
    intro u' hu' dst' src' len' hput' b' hb' heq
    obtain ⟨s', -, rfl, r', -, hpe, k', hk', rfl, rfl, rfl⟩ := htr.of_mem hu' hput'
    -- the put to this byte comes from the same rank, and it is the same
    obtain rfl := A.pe_inj.mp hpe
    obtain ⟨hidx, rfl⟩ := Strided.destElem_inj hb' hb heq
    obtain ⟨rfl, rfl⟩ := Strided.index_inj hk' hk hidx
    rfl
  · refine exchange_outside htr.puts halg (htr.separate hap) m0 c0 ops fun hv u hu dst src len hput j hj => ?_
    obtain ⟨s, hs, -, r, -, -, k, hk, rfl, rfl, -⟩ := htr.of_mem hu hput
    exact hl hv _ (index_lt hs hk) j hj
  · refine (barred htr.puts halg m0 h0 ops).zero v hv ?_ w
    rw [hret, length_exchange]
    exact Nat.le_add_right _ _

/-- with nothing to send nothing happens -/
theorem exchanged_of_empty (hempty : G.nelems = 0 ∨ G.elem_size = 0) (m0 : ℕ → Loc → α) {c0 : ℕ → ℕ → ℤ}
    (h0 : ∀ v ∈ A.members, ∀ w, c0 v w = 0) (ops : List Op) :
    Exchanged A G (fun _ => []) m0 ((machine A fun _ => []).run (init c0 m0) ops) := by
  rw [run_of_prog_none fun v t => by simp [machine, once]]
  refine ⟨fun r _ _ s _ k hk b hb => ?_, fun v l _ => rfl, fun v hv _ w => h0 v hv w⟩
  rcases hempty with h | h <;> omega

end

/-! ## The two functions -/

section
variable {A : ActiveSet} {G : Strided}

/-- the loop over the elements of a block -/
theorem putElems_eq (peer : ℕ) (n dest_ptr source_ptr : ℕ) : putElems G peer n dest_ptr source_ptr =
    (List.range n).map fun k => .putNb (dest_ptr + k * G.dst * G.elem_size)
      (.sym (source_ptr + k * G.sst * G.elem_size)) G.elem_size peer := by
  induction n generalizing dest_ptr source_ptr with
  | zero => rfl
  | succ n ih =>
    rw [putElems, ih, List.range_succ_eq_map, List.map_cons, List.map_map]
    simp only [Nat.zero_mul, Nat.add_zero, List.cons.injEq, true_and]
    refine List.map_congr_left fun k _ => ?_
    simp only [Function.comp, Nat.succ_eq_add_one, Nat.add_mul, Nat.one_mul, Instr.putNb.injEq, Loc.sym.injEq, and_true]
    constructor <;> omega

theorem mem_peers {s v : ℕ} (hs : s < A.PE_size) : v ∈ peers A (A.pe s) ↔ ∃ r < A.PE_size, A.pe r = v :=
  (peers_spec hs).1.mem_iff.trans A.mem_members

theorem elements_transposes : Transposes A (elements A G) G := by
  intro s hs ins
  simp only [elements, A.rank_pe, List.mem_flatMap, mem_peers hs, putElems_eq, List.mem_map, List.mem_range]
  have hput : ∀ r k, G.put A s r k = .putNb (G.dest + s * G.nelems * G.dst * G.elem_size + k * G.dst * G.elem_size)
      (.sym (G.source + r * G.nelems * G.sst * G.elem_size + k * G.sst * G.elem_size)) G.elem_size (A.pe r) := by
    intro r k
    simp only [Strided.put, Strided.destElem, Strided.sourceElem, Nat.add_mul, Nat.add_assoc]
  constructor
  · rintro ⟨_, ⟨r, hr, rfl⟩, k, hk, rfl⟩
    exact ⟨r, hr, k, hk, by rw [A.rank_pe, hput]⟩
  · rintro ⟨r, hr, k, hk, rfl⟩
    exact ⟨_, ⟨r, hr, rfl⟩, k, hk, by rw [A.rank_pe, hput]⟩

/-- a block sent as a whole is an element of its size -/
def whole (dest source len : ℕ) : Strided := ⟨dest, source, 1, 1, len, 1, le_refl 1⟩

theorem whole_destElem (dest source len x : ℕ) : (whole dest source len).destElem x = dest + x * len := by
  simp [whole, Strided.destElem]

theorem whole_sourceElem (dest source len x : ℕ) : (whole dest source len).sourceElem x = source + x * len := by
  simp [whole, Strided.sourceElem]

theorem blocks_transposes (dest source len : ℕ) :
    Transposes A (blocks A dest source len) (whole dest source len) := by
  intro s hs ins
  simp only [blocks, A.rank_pe, List.mem_map, mem_peers hs]
  have hput : ∀ r, (whole dest source len).put A s r 0 =
      .putNb (dest + s * len) (.sym (source + r * len)) len (A.pe r) := by
    intro r
    simp only [Strided.put, whole_destElem, whole_sourceElem, Nat.add_zero]
    simp only [whole, Nat.mul_one]
  constructor
  · rintro ⟨_, ⟨r, hr, rfl⟩, rfl⟩
    exact ⟨r, hr, 0, Nat.one_pos, by rw [A.rank_pe, hput]⟩
  · rintro ⟨r, hr, k, hk, rfl⟩
    obtain rfl : k = 0 := Nat.lt_one_iff.mp hk
    exact ⟨_, ⟨r, hr, rfl⟩, by rw [A.rank_pe, hput]⟩

/-- the PE that an instruction puts data to -/
def putsTo : Instr → Option ℕ
  | .putNb _ _ _ pe => some pe
  | _ => none

/-- the barrier and the reset put nothing -/
theorem puts_exchange {alg : BarrierAlg} {data : ℕ → List Instr} (halg : alg.Valid A) {v : ℕ} (hv : v ∈ A.members) :
    (exchange A alg data v).filterMap putsTo = (data v).filterMap putsTo := by
  have hnone : (barrier A alg v ++ reset).filterMap putsTo = [] := by
    refine List.filterMap_eq_nil_iff.mpr fun ins hins => ?_
    rcases List.mem_append.mp hins with hins | hins
    · rcases List.mem_cons.mp hins with rfl | hins
      · rfl
      · have hcell := sync_cells halg hv hins
        cases ins <;> first | rfl | exact absurd hcell Bool.noConfusion
    · obtain ⟨i, -, rfl⟩ := List.mem_map.mp hins
      rfl
  rw [exchange, List.filterMap_append, hnone, List.append_nil]

theorem puts_blocks (dest source len v : ℕ) : (blocks A dest source len v).filterMap putsTo = peers A v := by
  simp only [blocks, List.filterMap_map]
  exact List.filterMap_some

theorem puts_elements (v : ℕ) :
    (elements A G v).filterMap putsTo = (peers A v).flatMap (List.replicate G.nelems) := by
  simp only [elements, List.filterMap_flatMap]
  refine List.flatMap_congr fun peer _ => ?_
  have hmap : ∀ n, (List.range n).filterMap (fun _ => some peer) = List.replicate n peer := by
    intro n
    rw [List.filterMap_eq_map', List.map_const', List.length_range]
  rw [putElems_eq, List.filterMap_map]
  exact hmap G.nelems

end

/-! ## The exchanges -/

/-- what is true of `shmem_internal_alltoall` in a state x that it has reached from the memory m0 -/
structure AlltoallOk {α : Type*} (A : ActiveSet) (dest source len : ℕ) (alg : BarrierAlg) (m0 : ℕ → Loc → α) (x : St α) :
    Prop where
  /-- who has returned has in its block s the block of rank s that was for it -/
  result : ∀ r < A.PE_size, x.pc (A.pe r) = (alltoall A dest source len alg (A.pe r)).length →
    ∀ s < A.PE_size, ∀ b < len,
      x.mem (A.pe r) (.sym (dest + s * len + b)) = m0 (A.pe s) (.sym (source + r * len + b))
  /-- nothing but the members' targets has changed -/
  outside : ∀ v l, (v ∈ A.members → ∀ i < A.PE_size * len, l ≠ .sym (dest + i)) → x.mem v l = m0 v l
  /-- the pSync of who has returned is zero -/
  zero : ∀ v ∈ A.members, x.pc v = (alltoall A dest source len alg v).length → ∀ w, x.cell v w = 0

/-- what is true of `shmem_internal_alltoalls` in a state x that it has reached from the memory m0 -/
structure AlltoallsOk {α : Type*} (A : ActiveSet) (G : Strided) (alg : BarrierAlg) (m0 : ℕ → Loc → α) (x : St α) :
    Prop where
  result : ∀ r < A.PE_size, x.pc (A.pe r) = (alltoalls A G alg (A.pe r)).length →
    ∀ s < A.PE_size, ∀ k < G.nelems, ∀ b < G.elem_size,
      x.mem (A.pe r) (.sym (G.dest + (s * G.nelems + k) * G.dst * G.elem_size + b)) =
        m0 (A.pe s) (.sym (G.source + (r * G.nelems + k) * G.sst * G.elem_size + b))
  outside : ∀ v l, (v ∈ A.members → ∀ y < A.PE_size * G.nelems, ∀ b < G.elem_size,
    l ≠ .sym (G.dest + y * G.dst * G.elem_size + b)) → x.mem v l = m0 v l
  /-- the bytes between one element of the target and the next have not changed either -/
  between : ∀ v y a, G.dest + y * G.dst * G.elem_size + G.elem_size ≤ a → a < G.dest + (y + 1) * G.dst * G.elem_size →
    x.mem v (.sym a) = m0 v (.sym a)
  zero : ∀ v ∈ A.members, x.pc v = (alltoalls A G alg v).length → ∀ w, x.cell v w = 0

section
variable {α : Type*} {A : ActiveSet} {alg : BarrierAlg} (halg : alg.Valid A) {m0 : ℕ → Loc → α} {c0 : ℕ → ℕ → ℤ}
  (h0 : ∀ v ∈ A.members, ∀ w, c0 v w = 0) (ops : List Op)
include halg h0

theorem alltoall_ok {dest source len : ℕ}
    (hap : ∀ i < A.PE_size * len, ∀ j < A.PE_size * len, source + i ≠ dest + j) :
    AlltoallOk A dest source len alg m0 ((machine A (alltoall A dest source len alg)).run (init c0 m0) ops) := by
  have h : Exchanged A (whole dest source len) (alltoall A dest source len alg) m0
      ((machine A (alltoall A dest source len alg)).run (init c0 m0) ops) := by
    by_cases hlen : len = 0
    · have hbody : alltoall A dest source len alg = fun _ => [] := funext fun _ => if_pos hlen
      rw [hbody]
      exact exchanged_of_empty (.inr hlen) m0 h0 ops
    · have hbody : alltoall A dest source len alg = exchange A alg (blocks A dest source len) :=
        funext fun _ => if_neg hlen
      rw [hbody]
      refine exchanged (blocks_transposes dest source len) halg (fun x hx y hy b hb b' hb' => ?_) m0 h0 ops
      simp only [whole, Nat.mul_one] at hx hy hb hb'
      rw [whole_sourceElem, whole_destElem, Nat.add_assoc, Nat.add_assoc]
      exact hap _ (index_lt hx hb) _ (index_lt hy hb')
  refine ⟨fun r hr hret s hs b hb => ?_, fun v l hl => h.outside v l fun hv y hy b hb => ?_, h.zero⟩
  · have := h.result r hr hret s hs 0 Nat.one_pos b hb
    rw [whole_destElem, whole_sourceElem] at this
    simpa only [whole, Nat.mul_one, Nat.add_zero] using this
  · simp only [whole, Nat.mul_one] at hy hb
    rw [whole_destElem, Nat.add_assoc]
    exact hl hv _ (index_lt hy hb)

theorem alltoalls_ok {G : Strided} (hap : G.Apart A) :
    AlltoallsOk A G alg m0 ((machine A (alltoalls A G alg)).run (init c0 m0) ops) := by
  have h : Exchanged A G (alltoalls A G alg) m0 ((machine A (alltoalls A G alg)).run (init c0 m0) ops) := by
    by_cases hn : G.nelems = 0
    · have hbody : alltoalls A G alg = fun _ => [] := funext fun _ => if_pos hn
      rw [hbody]
      exact exchanged_of_empty (.inl hn) m0 h0 ops
    · have hbody : alltoalls A G alg = exchange A alg (elements A G) := funext fun _ => if_neg hn
      rw [hbody]
      exact exchanged elements_transposes halg hap m0 h0 ops
  refine ⟨h.result, h.outside, fun v y a hge hlt => h.outside v _ fun _ y' _ b hb heq => ?_, h.zero⟩
  obtain rfl := Loc.sym.inj heq
  -- the element the byte would be of is neither before nor after the gap
  rcases Nat.lt_or_ge y y' with hy | hy
  · have hle : (y + 1) * G.dst * G.elem_size ≤ y' * G.dst * G.elem_size :=
      Nat.mul_le_mul_right _ (Nat.mul_le_mul_right _ hy)
    simp only [Strided.destElem] at hlt
    omega
  · have hle : y' * G.dst * G.elem_size ≤ y * G.dst * G.elem_size :=
      Nat.mul_le_mul_right _ (Nat.mul_le_mul_right _ hy)
    simp only [Strided.destElem] at hge
    omega

end

/-- PEs 0 and 1 -/
def pair : ActiveSet := ⟨0, 1, 2, 2, Nat.one_pos, Nat.two_pos, Nat.one_lt_two⟩

/-- blocks of one byte, from address 10 on to every other address from 0 on -/
def spread : Strided := ⟨0, 10, 2, 1, 1, 1, Nat.two_pos⟩

/-- both put, PE 1 calls in at the barrier, PE 0 returns -/
def spreadSched : List Op :=
  [.exec 0, .exec 0, .capture 0 0 0, .capture 0 1 0, .deliver 0 0 0, .deliver 0 1 0, .exec 0, .exec 0,
    .exec 1, .exec 1, .capture 1 0 0, .capture 1 1 0, .deliver 1 0 0, .deliver 1 1 0, .exec 1, .exec 1, .exec 1,
    .deliver 1 4 0, .exec 0, .exec 0, .deliver 0 5 0, .exec 0].append (List.replicate 33 (.exec 0))

/-- the state after it -/
def spreadEnd : St ℕ := (machine pair (alltoalls pair spread (.tree .linear))).run (init (fun _ _ => 0) addrMem) spreadSched

end SandiaShmem.Collectives.Alltoall
