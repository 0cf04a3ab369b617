/-
The variable-length collect.

The members learn their offsets one after another: a member waits for the flag in pSync[1], takes its offset from
pSync[0], and sends its offset plus its own length with the flag to the next member. The two longs are one put, which
becomes visible with the flag last. Then it puts its source at its offset into the targets of all members, itself last,
and enters the barrier, which uses pSync[2] and what follows. After the barrier everybody clears its pSync. A member may
be anywhere in this while a member to its right still waits for its offset.

The words of the barrier are its ints, so that a long of pSync is two of them. Offsets and lengths are 64-bit numbers.

- `peers_eq`: the loop over the members.
- `Chain`: the first two words of pSync, and who is past the flag got it.
- `collect_correct`: the collect in every state of a run.
-/
import SandiaShmem.Core.Fill
import SandiaShmem.Core.Registers
import SandiaShmem.Collectives.Barrier

namespace SandiaShmem.Collectives

open OneSided OneSided.Machine

/-! ## Model -/

/-- `shmem_internal_circular_iter_next` -/
def circularIterNext (A : ActiveSet) (curr : ℕ) : ℕ :=
  let last := A.PE_start + A.PE_stride * (A.PE_size - 1)
  let next := curr + A.PE_stride
  if next > last then A.PE_start else next

/-- the peers of the loop `do .. while (peer != start_pe)` -/
def peersFrom (A : ActiveSet) (start_pe : ℕ) : ℕ → ℕ → List ℕ
  | 0, _ => []
  | fuel + 1, peer =>
    let next := circularIterNext A peer
    peer :: if next ≠ start_pe then peersFrom A start_pe fuel next else []

/-- the peers the PE my_pe sends to, in this order; PE_size turns of the loop are enough -/
def peers (A : ActiveSet) (my_pe : ℕ) : List ℕ :=
  let start_pe := circularIterNext A my_pe
  peersFrom A start_pe A.PE_size start_pe

/-- a size_t as a long -/
def toLong (n : ℕ) : ℤ := (n : ℤ).bmod (2 ^ 64)

/-- a long as a size_t -/
def toSize (z : ℤ) : ℕ := (z % 2 ^ 64).toNat

/-- the arguments: the active set, target and source as symmetric addresses, and the lengths by rank -/
structure CollectArgs where
  A : ActiveSet
  target : ℕ
  source : ℕ
  len : ℕ → ℕ

namespace CollectArgs
variable (G : CollectArgs)

/-- where the block of a rank begins -/
def offset (r : ℕ) : ℕ := ∑ i ∈ Finset.range r, G.len i

/-- no source overlaps the target; a single member may also collect in place -/
def Separate : Prop :=
  (G.A.PE_size = 1 ∧ G.target = G.source) ∨ G.target + G.offset G.A.PE_size ≤ G.source ∨
    ∀ r < G.A.PE_size, G.source + G.len r ≤ G.target

/-- the prefix sum; the register is `my_offset` -/
def prefixSum (my_pe : ℕ) : List Code :=
  let len := G.len (G.A.rank my_pe)
  if G.A.PE_start = my_pe then
    [.assign 0, .fixed (.putScalar 0 (toLong len) (G.A.PE_start + G.A.PE_stride)),
      .fixed (.putScalar 1 1 (G.A.PE_start + G.A.PE_stride))]
  else
    [.fixed (.waitUntil 1 .EQ 1), .load 0] ++
      if my_pe < G.A.PE_start + G.A.PE_stride * (G.A.PE_size - 1) then
        [.uses fun my_offset => .putScalar 0 (toLong (toSize my_offset + len)) (my_pe + G.A.PE_stride),
          .fixed (.putScalar 1 1 (my_pe + G.A.PE_stride))]
      else []

/-- the loop that sends the data -/
def sendData (my_pe : ℕ) : List Code :=
  let len := G.len (G.A.rank my_pe)
  (peers G.A my_pe).flatMap fun peer =>
    if len > 0 then [.uses fun my_offset => .putNb (G.target + toSize my_offset) (.sym G.source) len peer] else []

/-- the reset of pSync -/
def reset : List Code :=
  [.fixed (.store 0 0), .fixed (.store 1 0)] ++
    (List.range (2 * SHMEM_BARRIER_SYNC_SIZE)).map fun i => .fixed (.store (2 + i) 0)

/-- `shmem_internal_collect_linear` on the PE my_pe -/
def collectLinear (alg : BarrierAlg) (my_pe : ℕ) : List Code :=
  if G.A.PE_size = 1 then
    if G.target ≠ G.source then [.fixed (.memcpy (.sym G.target) (.sym G.source) (G.len (G.A.rank my_pe)))] else []
  else
    G.prefixSum my_pe ++ (G.sendData my_pe ++
      (.fixed .quiet :: ((barrierBody G.A alg my_pe).map (fun ins => .fixed (ins.shift 2)) ++ reset)))

/-- the members calling it once; the second long of the put of two is behind the first -/
def machine {α : Type*} (alg : BarrierAlg) : RegMachine α where
  code v t := if v ∈ G.A.members then (G.collectLinear alg v)[t]? else none
  behind v t :=
    match if v ∈ G.A.members then (G.collectLinear alg v)[t]? else none with
    | some (.fixed (.putScalar 1 _ _)) => some (t - 1)
    | _ => none
  op a _ := a
  members := G.A.members

end CollectArgs

/-! ## The loop over the members -/

section
variable {A : ActiveSet}

theorem circularIterNext_pe {r : ℕ} (hr : r < A.PE_size) : circularIterNext A (A.pe r) = A.pe ((r + 1) % A.PE_size) := by
  have hlast : A.PE_start + A.PE_stride * (A.PE_size - 1) = A.pe (A.PE_size - 1) := by rw [ActiveSet.pe, Nat.mul_comm]
  have hnext : A.pe r + A.PE_stride = A.pe (r + 1) := by simp only [ActiveSet.pe]; ring
  simp only [circularIterNext, hlast, hnext, gt_iff_lt, A.pe_lt_iff]
  by_cases hlt : r + 1 < A.PE_size
  · rw [if_neg (by omega), Nat.mod_eq_of_lt hlt]
  · rw [if_pos (by omega), show r + 1 = A.PE_size by omega, Nat.mod_self, A.pe_zero]

/-- the loop from its k-th turn on, m turns before it comes back to the start -/
theorem peersFrom_eq {a : ℕ} (ha : a < A.PE_size) (m k fuel : ℕ) (hm : k + m = A.PE_size) (hpos : 1 ≤ m)
    (hfuel : m ≤ fuel) : peersFrom A (A.pe a) fuel (A.pe ((a + k) % A.PE_size)) =
      (List.range' k m).map fun k => A.pe ((a + k) % A.PE_size) := by
  induction m generalizing k fuel with
  | zero => omega
  | succ m ih =>
    obtain ⟨fuel, rfl⟩ : ∃ f, fuel = f + 1 := ⟨fuel - 1, by omega⟩
    have hnext : circularIterNext A (A.pe ((a + k) % A.PE_size)) = A.pe ((a + (k + 1)) % A.PE_size) := by
      rw [circularIterNext_pe (Nat.mod_lt _ A.size_pos), Nat.mod_add_mod, Nat.add_assoc]
    simp only [peersFrom, hnext, List.range'_succ, List.map_cons]
    congr 1
    by_cases hlast : m = 0
    · -- the turn of the last peer: the next is the start
      subst hlast
      have hback : (a + (k + 1)) % A.PE_size = a := by
        rw [show a + (k + 1) = a + A.PE_size by omega, Nat.add_mod_right, Nat.mod_eq_of_lt ha]
      rw [if_neg (not_not.mpr (congrArg A.pe hback))]
      rfl
    · have hne : A.pe ((a + (k + 1)) % A.PE_size) ≠ A.pe a := by
        intro heq
        have hmod : (a + (k + 1)) % A.PE_size = a % A.PE_size := by rw [A.pe_inj.mp heq, Nat.mod_eq_of_lt ha]
        have hzero : k + 1 ≡ 0 [MOD A.PE_size] := Nat.ModEq.add_left_cancel' a hmod
        have := Nat.le_of_dvd (by omega) ((Nat.modEq_zero_iff_dvd).mp hzero)
        omega
      rw [if_pos hne]
      exact ih (k + 1) fuel (by omega) (by omega) (by omega)

/-- the peers are the members to the right of the caller, around to the caller -/
theorem peers_eq {r : ℕ} (hr : r < A.PE_size) :
    peers A (A.pe r) = (List.range A.PE_size).map fun k => A.pe ((r + 1 + k) % A.PE_size) := by
  have hsize := A.size_pos
  have ha : (r + 1) % A.PE_size < A.PE_size := Nat.mod_lt _ hsize
  have h := peersFrom_eq ha A.PE_size 0 A.PE_size (Nat.zero_add _) hsize (le_refl _)
  have hstart : ((r + 1) % A.PE_size + 0) % A.PE_size = (r + 1) % A.PE_size := Nat.mod_eq_of_lt ha
  simp only [peers, circularIterNext_pe hr]
  rw [hstart, ← List.range_eq_range'] at h
  rw [h]
  refine List.map_congr_left fun k _ => ?_
  rw [Nat.mod_add_mod]

/-- every member once, and the caller last -/
theorem peers_spec {r : ℕ} (hr : r < A.PE_size) :
    (peers A (A.pe r)).Perm A.members ∧ (peers A (A.pe r)).getLast? = some (A.pe r) := by
  have hsize := A.size_pos
  rw [peers_eq hr]
  constructor
  · have hinj : ((List.range A.PE_size).map fun k => A.pe ((r + 1 + k) % A.PE_size)).Nodup := by
      refine (List.nodup_range).map_on fun k hk k' hk' heq => ?_
      have hmod : r + 1 + k ≡ r + 1 + k' [MOD A.PE_size] := A.pe_inj.mp heq
      have hmod := Nat.ModEq.add_left_cancel' (r + 1) hmod
      rwa [Nat.ModEq, Nat.mod_eq_of_lt (List.mem_range.mp hk), Nat.mod_eq_of_lt (List.mem_range.mp hk')] at hmod
    refine (List.subperm_of_subset hinj fun v hv => ?_).perm_of_length_le (by simp [ActiveSet.members])
    obtain ⟨k, -, rfl⟩ := List.mem_map.mp hv
    exact A.pe_mem (Nat.mod_lt _ hsize)
  · obtain ⟨n, hn⟩ : ∃ n, A.PE_size = n + 1 := ⟨A.PE_size - 1, by omega⟩
    rw [hn, List.range_succ, List.map_append, List.map_singleton, List.getLast?_append, List.getLast?_singleton,
      show r + 1 + n = r + (n + 1) by omega, Nat.add_mod_right, Nat.mod_eq_of_lt (hn ▸ hr)]
    rfl

end

/-! ## Positions -/

namespace CollectArgs
variable (G : CollectArgs) (alg : BarrierAlg)

/-- where rank r begins to send to the next one -/
def sendPos (r : ℕ) : ℕ := if r = 0 then 1 else 2

/-- where its data begin -/
def dataPos (r : ℕ) : ℕ := sendPos r + if r + 1 < G.A.PE_size then 2 else 0

def quietPos (r : ℕ) : ℕ := G.dataPos r + if G.len r = 0 then 0 else G.A.PE_size

/-- where its barrier begins -/
def syncPos (r : ℕ) : ℕ := G.quietPos r + 1

/-- where it resets pSync -/
def resetPos (r : ℕ) : ℕ := G.syncPos r + (barrierBody G.A alg (G.A.pe r)).length

/-- the number of words of pSync -/
def words : ℕ := 2 + 2 * SHMEM_BARRIER_SYNC_SIZE

/-- rank r sends the offset of the next one -/
def sendOffset (r : ℕ) : Code :=
  if r = 0 then .fixed (.putScalar 0 (toLong (G.len 0)) (G.A.pe 1))
  else .uses fun my_offset => .putScalar 0 (toLong (toSize my_offset + G.len r)) (G.A.pe (r + 1))

/-- what stands where in the program of rank r -/
inductive CodeAt : ℕ → ℕ → Code → Prop
  | assign : CodeAt 0 0 (.assign 0)
  | wait (r : ℕ) (hr : r ≠ 0) : CodeAt r 0 (.fixed (.waitUntil 1 .EQ 1))
  | load (r : ℕ) (hr : r ≠ 0) : CodeAt r 1 (.load 0)
  | offset (r : ℕ) (hr : r + 1 < G.A.PE_size) : CodeAt r (sendPos r) (G.sendOffset r)
  | flag (r : ℕ) (hr : r + 1 < G.A.PE_size) : CodeAt r (sendPos r + 1) (.fixed (.putScalar 1 1 (G.A.pe (r + 1))))
  | data (r k : ℕ) (hk : k < G.A.PE_size) (hlen : G.len r ≠ 0) : CodeAt r (G.dataPos r + k)
      (.uses fun my_offset => .putNb (G.target + toSize my_offset) (.sym G.source) (G.len r)
        (G.A.pe ((r + 1 + k) % G.A.PE_size)))
  | quiet (r : ℕ) : CodeAt r (G.quietPos r) (.fixed .quiet)
  | sync (r x : ℕ) (ins : Instr) (h : (barrierBody G.A alg (G.A.pe r))[x]? = some ins) :
    CodeAt r (G.syncPos r + x) (.fixed (ins.shift 2))
  | store (r i : ℕ) (hi : i < words) : CodeAt r (G.resetPos alg r + i) (.fixed (.store i 0))

variable {G alg}

theorem CodeAt.at_pos {r t t' : ℕ} {c : Code} (h : G.CodeAt alg r t c) (heq : t = t') : G.CodeAt alg r t' c := heq ▸ h

theorem prefixSum_pe (h2 : 2 ≤ G.A.PE_size) (r : ℕ) : G.prefixSum (G.A.pe r) =
    (if r = 0 then [.assign 0] else [.fixed (.waitUntil 1 .EQ 1), .load 0]) ++
      if r + 1 < G.A.PE_size then [G.sendOffset r, .fixed (.putScalar 1 1 (G.A.pe (r + 1)))] else [] := by
  have hlast : G.A.PE_start + G.A.PE_stride * (G.A.PE_size - 1) = G.A.pe (G.A.PE_size - 1) := by
    rw [ActiveSet.pe, Nat.mul_comm]
  have hnext : G.A.pe r + G.A.PE_stride = G.A.pe (r + 1) := by simp only [ActiveSet.pe]; ring
  by_cases hr : r = 0
  · subst hr
    have hone : G.A.PE_start + G.A.PE_stride = G.A.pe 1 := by simp [ActiveSet.pe]
    simp only [prefixSum, if_pos G.A.pe_zero.symm, G.A.rank_pe, hone, sendOffset, if_true, Nat.zero_add]
    rw [if_pos (by omega)]
    rfl
  · have hne : G.A.PE_start ≠ G.A.pe r := by
      rw [← G.A.pe_zero]
      exact fun h => hr (G.A.pe_inj.mp h).symm
    simp only [prefixSum, if_neg hne, if_neg hr, G.A.rank_pe, hlast, hnext, G.A.pe_lt_iff, sendOffset]
    simp only [show r < G.A.PE_size - 1 ↔ r + 1 < G.A.PE_size by omega]

theorem sendData_pe {r : ℕ} (hr : r < G.A.PE_size) : G.sendData (G.A.pe r) =
    if G.len r = 0 then [] else (List.range G.A.PE_size).map fun k =>
      .uses fun my_offset => .putNb (G.target + toSize my_offset) (.sym G.source) (G.len r)
        (G.A.pe ((r + 1 + k) % G.A.PE_size)) := by
  simp only [sendData, G.A.rank_pe, peers_eq hr]
  by_cases h0 : G.len r = 0
  · rw [if_pos h0]
    simp [h0]
  · rw [if_neg h0]
    simp only [gt_iff_lt, Nat.pos_of_ne_zero h0, if_true, List.flatMap_map]
    exact List.map_eq_flatMap.symm

theorem reset_eq : reset = (List.range words).map fun i => .fixed (.store i 0) := by
  rw [reset, words, List.range_add, List.map_append, List.map_map]
  rfl

theorem getElem?_range_cases {n x k : ℕ} (h : (List.range n)[x]? = some k) : x < n ∧ k = x := by
  obtain ⟨hlt, rfl⟩ := List.getElem?_eq_some_iff.mp h
  exact ⟨by simpa using hlt, List.getElem_range hlt⟩

/-- the parts of the program of a rank -/
theorem collectLinear_pe (h2 : 2 ≤ G.A.PE_size) (r : ℕ) : G.collectLinear alg (G.A.pe r) =
    G.prefixSum (G.A.pe r) ++ (G.sendData (G.A.pe r) ++
      (.fixed .quiet :: ((barrierBody G.A alg (G.A.pe r)).map (fun ins => .fixed (ins.shift 2)) ++ reset))) := by
  rw [collectLinear, if_neg (by omega)]

theorem length_prefixSum (h2 : 2 ≤ G.A.PE_size) (r : ℕ) : (G.prefixSum (G.A.pe r)).length = G.dataPos r := by
  rw [prefixSum_pe h2, dataPos, sendPos, List.length_append]
  congr 1
  · split_ifs <;> rfl
  · split_ifs <;> rfl

theorem length_sendData {r : ℕ} (hr : r < G.A.PE_size) :
    (G.sendData (G.A.pe r)).length = if G.len r = 0 then 0 else G.A.PE_size := by
  rw [sendData_pe hr]
  split_ifs <;> simp

theorem length_collectLinear (h2 : 2 ≤ G.A.PE_size) {r : ℕ} (hr : r < G.A.PE_size) :
    (G.collectLinear alg (G.A.pe r)).length = G.resetPos alg r + words := by
  rw [collectLinear_pe h2, reset_eq]
  simp only [List.length_append, List.length_cons, List.length_map, List.length_range, length_prefixSum h2,
    length_sendData hr, resetPos, syncPos, quietPos]
  omega

theorem CodeAt.getElem (h2 : 2 ≤ G.A.PE_size) {r t : ℕ} {c : Code} (hr : r < G.A.PE_size) (h : G.CodeAt alg r t c) :
    (G.collectLinear alg (G.A.pe r))[t]? = some c := by
  rw [collectLinear_pe h2]
  -- what is behind the data
  have hbehind : ∀ {x : ℕ} {c : Code}, (Code.fixed .quiet :: ((barrierBody G.A alg (G.A.pe r)).map
      (fun ins => Code.fixed (ins.shift 2)) ++ reset))[x]? = some c →
      (G.prefixSum (G.A.pe r) ++ (G.sendData (G.A.pe r) ++ (.fixed .quiet :: ((barrierBody G.A alg (G.A.pe r)).map
        (fun ins => .fixed (ins.shift 2)) ++ reset))))[G.quietPos r + x]? = some c := by
    intro x c hx
    have h := getElem?_append_of_right (G.prefixSum (G.A.pe r)) (getElem?_append_of_right (G.sendData (G.A.pe r)) hx)
    rwa [length_prefixSum h2, length_sendData hr, ← Nat.add_assoc] at h
  cases h with
  | assign =>
    refine getElem?_append_of_left ?_
    rw [prefixSum_pe h2]
    rfl
  | wait _ h0 =>
    refine getElem?_append_of_left ?_
    rw [prefixSum_pe h2, if_neg h0]
    rfl
  | load _ h0 =>
    refine getElem?_append_of_left ?_
    rw [prefixSum_pe h2, if_neg h0]
    rfl
  | offset _ hlt =>
    refine getElem?_append_of_left ?_
    rw [prefixSum_pe h2, if_pos hlt, sendPos]
    split_ifs <;> rfl
  | flag _ hlt =>
    refine getElem?_append_of_left ?_
    rw [prefixSum_pe h2, if_pos hlt, sendPos]
    split_ifs <;> rfl
  | data _ k hk hlen =>
    rw [← length_prefixSum h2]
    refine getElem?_append_of_right _ (getElem?_append_of_left ?_)
    rw [sendData_pe hr, if_neg hlen, List.getElem?_map, List.getElem?_range hk]
    rfl
  | quiet => exact hbehind (x := 0) rfl
  | sync _ x ins hx =>
    have hmap : ((barrierBody G.A alg (G.A.pe r)).map fun ins => Code.fixed (ins.shift 2))[x]? =
        some (.fixed (ins.shift 2)) := by rw [List.getElem?_map, hx]; rfl
    rw [syncPos, Nat.add_assoc]
    refine hbehind ?_
    rw [Nat.add_comm 1 x, List.getElem?_cons_succ]
    exact getElem?_append_of_left hmap
  | store _ i hi =>
    have hstore : reset[i]? = some (.fixed (.store i 0)) := by
      rw [reset_eq, List.getElem?_map, List.getElem?_range hi]
      rfl
    have happ := getElem?_append_of_right ((barrierBody G.A alg (G.A.pe r)).map fun ins => Code.fixed (ins.shift 2)) hstore
    rw [List.length_map] at happ
    rw [resetPos, syncPos, Nat.add_assoc, Nat.add_assoc]
    refine hbehind ?_
    rw [Nat.add_comm 1, List.getElem?_cons_succ]
    exact happ

/-- the program of a member, instruction by instruction -/
theorem codeAt_of_getElem (h2 : 2 ≤ G.A.PE_size) {r t : ℕ} {c : Code} (hr : r < G.A.PE_size)
    (h : (G.collectLinear alg (G.A.pe r))[t]? = some c) : G.CodeAt alg r t c := by
  rw [collectLinear_pe h2] at h
  rcases getElem?_append_cases h with h | ⟨x, rfl, h1⟩
  · rw [prefixSum_pe h2] at h
    rcases getElem?_append_cases h with h | ⟨x, rfl, hx⟩
    · by_cases h0 : r = 0
      · subst h0
        match t, h with
        | 0, h => exact Option.some.inj h ▸ .assign
        | t + 1, h => exact absurd h (by simp)
      · rw [if_neg h0] at h
        match t, h with
        | 0, h => exact Option.some.inj h ▸ .wait r h0
        | 1, h => exact Option.some.inj h ▸ .load r h0
        | t + 2, h => exact absurd h (by simp)
    · have hlen : (if r = 0 then [Code.assign 0] else [.fixed (.waitUntil 1 .EQ 1), .load 0]).length = sendPos r := by
        rw [sendPos]
        split_ifs <;> rfl
      rw [hlen]
      split_ifs at hx with hlt
      · match x, hx with
        | 0, hx => exact Option.some.inj hx ▸ .offset r hlt
        | 1, hx => exact Option.some.inj hx ▸ .flag r hlt
        | x + 2, hx => exact absurd hx (by simp)
      · exact absurd hx (by simp)
  rw [length_prefixSum h2]
  rcases getElem?_append_cases h1 with h | ⟨y, rfl, h2⟩
  · rw [sendData_pe hr] at h
    split_ifs at h with h0
    · exact absurd h (by simp)
    · rw [List.getElem?_map] at h
      obtain ⟨k, hk, rfl⟩ := Option.map_eq_some_iff.mp h
      obtain ⟨hlt, rfl⟩ := getElem?_range_cases hk
      exact .data r _ hlt h0
  rw [length_sendData hr, ← Nat.add_assoc]
  match y, h2 with
  | 0, h => exact Option.some.inj h ▸ .quiet r
  | y + 1, h =>
    rw [List.getElem?_cons_succ] at h
    rcases getElem?_append_cases h with h | ⟨i, rfl, hi⟩
    · rw [List.getElem?_map] at h
      obtain ⟨ins, hins, rfl⟩ := Option.map_eq_some_iff.mp h
      exact .at_pos (.sync r y ins hins) (by simp only [syncPos, quietPos]; omega)
    · rw [reset_eq, List.getElem?_map] at hi
      obtain ⟨k, hk, rfl⟩ := Option.map_eq_some_iff.mp hi
      obtain ⟨hlt, rfl⟩ := getElem?_range_cases hk
      rw [List.length_map]
      exact .at_pos (.store r _ hlt) (by simp only [resetPos, syncPos, quietPos]; omega)

/-! ## The offsets -/

theorem sendOffset_word (r : ℕ) (z : ℤ) : ((G.sendOffset r).instr z).word = some 0 := by
  rw [sendOffset]
  split_ifs <;> rfl

theorem offset_succ (r : ℕ) : G.offset (r + 1) = G.offset r + G.len r := Finset.sum_range_succ _ _

theorem offset_mono {r r' : ℕ} (h : r ≤ r') : G.offset r ≤ G.offset r' :=
  monotone_nat_of_le_succ (fun r => by rw [offset_succ]; omega) h

theorem block_le {r : ℕ} (hr : r < G.A.PE_size) : G.offset r + G.len r ≤ G.offset G.A.PE_size := by
  rw [← offset_succ]
  exact offset_mono hr

theorem toLong_eq {n : ℕ} (h : n < 2 ^ 63) : toLong n = n := by
  have hlt : (n : ℤ) * 2 < (2 ^ 64 : ℕ) := by exact_mod_cast (show n * 2 < 2 ^ 64 by omega)
  exact Int.bmod_eq_of_le_mul_two (by push_cast; omega) hlt

theorem toSize_eq {n : ℕ} (h : n < 2 ^ 63) : toSize n = n := by
  rw [toSize]
  omega

variable (G) in
/-- what the register of a member is going to hold -/
def value (v : ℕ) : ℤ := G.offset (G.A.rank v)

section
variable (htotal : G.offset G.A.PE_size < 2 ^ 63)
include htotal

theorem toSize_offset {r : ℕ} (hr : r < G.A.PE_size) : toSize (G.offset r) = G.offset r := by
  have := offset_mono (G := G) hr.le
  exact toSize_eq (by omega)

/-- the next member is sent its offset -/
theorem sendOffset_instr {r : ℕ} (hr : r < G.A.PE_size) :
    (G.sendOffset r).instr (G.offset r) = .putScalar 0 (G.offset (r + 1)) (G.A.pe (r + 1)) := by
  have hle := block_le hr
  have hlong : toLong (G.offset r + G.len r) = ((G.offset (r + 1) : ℕ) : ℤ) := by
    rw [toLong_eq (by omega), offset_succ]
  rw [sendOffset]
  split_ifs with h0
  · subst h0
    rw [← hlong, show G.offset 0 = 0 from rfl, Nat.zero_add]
    rfl
  · simp only [Code.instr, toSize_offset htotal hr, hlong]

end

/-! ## The program without registers -/

section
variable {α : Type*}

theorem code_cases (h2 : 2 ≤ G.A.PE_size) {v t : ℕ} {c : Code} (h : (G.machine (α := α) alg).code v t = some c) :
    ∃ r < G.A.PE_size, v = G.A.pe r ∧ G.CodeAt alg r t c := by
  simp only [machine] at h
  split_ifs at h with hv
  obtain ⟨r, hr, rfl⟩ := G.A.mem_members.mp hv
  exact ⟨r, hr, rfl, codeAt_of_getElem h2 hr h⟩

theorem code_of (h2 : 2 ≤ G.A.PE_size) {r t : ℕ} {c : Code} (hr : r < G.A.PE_size) (h : G.CodeAt alg r t c) :
    (G.machine (α := α) alg).code (G.A.pe r) t = some c := by
  simp only [machine, if_pos (G.A.pe_mem hr)]
  exact h.getElem h2 hr

theorem prog_of (h2 : 2 ≤ G.A.PE_size) {r t : ℕ} {c : Code} (hr : r < G.A.PE_size) (h : G.CodeAt alg r t c) :
    ((G.machine (α := α) alg).static G.value).prog (G.A.pe r) t = some (c.instr (G.offset r)) := by
  simp only [RegMachine.static, code_of h2 hr h, value, G.A.rank_pe, Option.map_some]

theorem prog_cases (h2 : 2 ≤ G.A.PE_size) {v t : ℕ} {ins : Instr}
    (h : ((G.machine (α := α) alg).static G.value).prog v t = some ins) :
    ∃ r < G.A.PE_size, v = G.A.pe r ∧ ∃ c, G.CodeAt alg r t c ∧ c.instr (G.offset r) = ins := by
  obtain ⟨c, hc, hins⟩ := Option.map_eq_some_iff.mp h
  obtain ⟨r, hr, rfl, hat⟩ := code_cases h2 hc
  rw [value, G.A.rank_pe] at hins
  exact ⟨r, hr, rfl, c, hat, hins⟩

variable (alg) in
/-- the register is set before anything is sent -/
theorem exists_sets (h2 : 2 ≤ G.A.PE_size) {r : ℕ} (hr : r < G.A.PE_size) :
    ∃ t < sendPos r, (G.machine (α := α) alg).Sets (G.A.pe r) t := by
  by_cases h0 : r = 0
  · subst h0
    exact ⟨0, Nat.one_pos, .inl ⟨0, code_of h2 hr .assign⟩⟩
  · exact ⟨1, by simp [sendPos, h0], .inr ⟨0, code_of h2 hr (.load r h0)⟩⟩

/-- the flag is behind the offset, and nothing else is behind anything -/
theorem behind_iff (h2 : 2 ≤ G.A.PE_size) {v t t' : ℕ} : t' ∈ (G.machine (α := α) alg).behind v t ↔
    ∃ r, r + 1 < G.A.PE_size ∧ v = G.A.pe r ∧ t = sendPos r + 1 ∧ t' = sendPos r := by
  have hbehind : (G.machine (α := α) alg).behind v t =
      match (G.machine (α := α) alg).code v t with
      | some (.fixed (.putScalar 1 _ _)) => some (t - 1)
      | _ => none := rfl
  rw [hbehind]
  constructor
  · intro h
    cases hc : (G.machine (α := α) alg).code v t with
    | none => simp [hc] at h
    | some c =>
      rw [hc] at h
      obtain ⟨r, hr, rfl, hat⟩ := code_cases h2 hc
      cases hat with
      | flag _ hlt =>
        obtain rfl := Option.mem_some_iff.mp h
        exact ⟨r, hlt, rfl, rfl, rfl⟩
      | offset _ hlt =>
        rw [sendOffset] at h
        split_ifs at h <;> exact absurd h (by simp)
      | sync _ x ins hx =>
        split at h
        · rename_i heq
          have hcell : ins.shift 2 = .putScalar 1 _ _ := Code.fixed.inj (Option.some.inj heq)
          cases ins <;> simp [Instr.shift] at hcell
          omega
        · exact absurd h (by simp)
      | _ => exact absurd h (by simp)
  · rintro ⟨r, hlt, rfl, rfl, rfl⟩
    rw [code_of h2 (show r < G.A.PE_size by omega) (.flag r hlt)]
    rfl

/-! ## The first two words of pSync -/

variable (G) in
/-- what the two words of a rank are sent: its offset and the flag -/
def word (r w : ℕ) : ℤ := if w = 0 then G.offset r else 1

/-- the two messages to the next rank -/
theorem prog_send (h2 : 2 ≤ G.A.PE_size) (htotal : G.offset G.A.PE_size < 2 ^ 63) {r w : ℕ} (hr : r + 1 < G.A.PE_size)
    (hw : w < 2) : ((G.machine (α := α) alg).static G.value).prog (G.A.pe r) (sendPos r + w) =
      some (.putScalar w (G.word (r + 1) w) (G.A.pe (r + 1))) := by
  have hlt : r < G.A.PE_size := by omega
  interval_cases w
  · rw [Nat.add_zero, prog_of h2 hlt (.offset r hr), sendOffset_instr htotal hlt]
    rfl
  · exact prog_of h2 hlt (.flag r hr)

variable (G alg) in
/-- who is past the wait got the flag, and what the two words hold until they are reset -/
structure Chain (s : St α) : Prop where
  waited : ∀ r, r + 1 < G.A.PE_size → 0 < s.pc (G.A.pe (r + 1)) → s.done (G.A.pe r) (sendPos r + 1) 0 = true
  first : ∀ w < 2, s.cell (G.A.pe 0) w = 0
  words : ∀ r, r + 1 < G.A.PE_size → ∀ w < 2, s.cell (G.A.pe (r + 1)) w =
    if s.done (G.A.pe r) (sendPos r + w) 0 = true ∧ s.pc (G.A.pe (r + 1)) ≤ G.resetPos alg (r + 1) + w then
      G.word (r + 1) w
    else 0

variable {s : St α} (h2 : 2 ≤ G.A.PE_size)
include h2

/-- an instruction leaves the first two words alone, or it is the reset of one -/
theorem effect_word {q : ℕ} {ins : Instr} (hq : q < G.A.PE_size)
    (hp : ((G.machine (α := α) alg).static G.value).prog (G.A.pe q) (s.pc (G.A.pe q)) = some ins) {w : ℕ} (hw : w < 2)
    (v : ℕ) : (((G.machine alg).static G.value).effect s (G.A.pe q) ins).cell v w =
      if v = G.A.pe q ∧ s.pc (G.A.pe q) = G.resetPos alg q + w then 0 else s.cell v w := by
  obtain ⟨q', hq', hpe, c, hat, rfl⟩ := prog_cases h2 hp
  obtain rfl := G.A.pe_inj.mp hpe
  have hreset := prog_of (α := α) h2 hq (.store q w (hw.trans (by decide)) : G.CodeAt alg q _ _)
  by_cases hpos : s.pc (G.A.pe q) = G.resetPos alg q + w
  · -- this is the reset of the word
    rw [← hpos, hp, Option.some.injEq] at hreset
    rw [hreset]
    refine (setCell_apply ..).trans ?_
    simp only [hpos, and_true]
  · rw [if_neg fun hc => hpos hc.2]
    generalize htpc : s.pc (G.A.pe q) = t at hat hpos
    cases hat with
    | store _ i hi =>
      refine (setCell_apply ..).trans (if_neg ?_)
      rintro ⟨-, rfl⟩
      exact hpos rfl
    | offset _ hr =>
      rw [sendOffset]
      split_ifs <;> rfl
    | sync _ x ins hx =>
      refine effect_cell_other _ _ _ (fun heq => ?_) v
      cases ins <;> simp [Code.instr, Instr.shift, Instr.word] at heq
      all_goals omega
    | _ => rfl

theorem Chain.exec (h : Chain G alg s) {v : ℕ} {ins : Instr}
    (hp : ((G.machine (α := α) alg).static G.value).prog v (s.pc v) = some ins)
    (he : ((G.machine alg).static G.value).Enabled s v ins) :
    Chain G alg (advance (((G.machine alg).static G.value).effect s v ins) v) := by
  obtain ⟨q, hq, rfl, -⟩ := prog_cases h2 hp
  have hcell := fun {w : ℕ} (hw : w < 2) v => effect_word h2 hq hp hw v
  refine ⟨fun r hr hpc => ?_, fun w hw => ?_, fun r hr w hw => ?_⟩
  · rw [advance_done, effect_done]
    by_cases hqr : r + 1 = q
    · subst hqr
      rw [advance_pc_self, effect_pc] at hpc
      rcases Nat.eq_zero_or_pos (s.pc (G.A.pe (r + 1))) with h0 | hpos
      · -- the wait for the flag
        rw [h0, prog_of h2 hq (.wait _ (Nat.succ_ne_zero r)), Option.some.injEq] at hp
        subst hp
        have hone : s.cell (G.A.pe (r + 1)) 1 = 1 := he
        rw [h.words r hr 1 (by decide)] at hone
        split_ifs at hone with hc
        · exact hc.1
        · exact absurd hone (by decide)
      · exact h.waited r hr hpos
    · rw [advance_pc_other _ (fun heq => hqr (G.A.pe_inj.mp heq)), effect_pc] at hpc
      exact h.waited r hr hpc
  · rw [advance_cell, hcell hw]
    split_ifs
    · rfl
    · exact h.first w hw
  · rw [advance_cell, hcell hw, advance_done, effect_done]
    by_cases hqr : r + 1 = q
    · subst hqr
      rw [advance_pc_self, effect_pc, h.words r hr w hw]
      by_cases hpos : s.pc (G.A.pe (r + 1)) = G.resetPos alg (r + 1) + w
      · rw [if_pos ⟨rfl, hpos⟩, if_neg (by omega)]
      · rw [if_neg (fun hc => hpos hc.2)]
        have hiff : s.pc (G.A.pe (r + 1)) ≤ G.resetPos alg (r + 1) + w ↔
            s.pc (G.A.pe (r + 1)) + 1 ≤ G.resetPos alg (r + 1) + w := by omega
        simp only [hiff]
    · have hne : G.A.pe (r + 1) ≠ G.A.pe q := fun heq => hqr (G.A.pe_inj.mp heq)
      rw [if_neg (fun hc => hne hc.1), advance_pc_other _ hne, effect_pc]
      exact h.words r hr w hw

/-- a message other than an offset or a flag does not touch the first two words -/
theorem word_of_other {v t j : ℕ} {ins : Instr} (hp : ((G.machine (α := α) alg).static G.value).prog v t = some ins)
    (hj : j < ins.parts) (hno : ∀ r w, r + 1 < G.A.PE_size → w < 2 → v = G.A.pe r → t ≠ sendPos r + w) {w : ℕ}
    (hw : w < 2) : ins.word ≠ some w := by
  obtain ⟨q, hq, rfl, c, hat, rfl⟩ := prog_cases h2 hp
  cases hat with
  | offset _ hr => exact absurd rfl (hno q 0 hr (by decide) rfl)
  | flag _ hr => exact absurd rfl (hno q 1 hr (by decide) rfl)
  | sync _ x ins hx =>
    intro heq
    cases ins <;> simp [Code.instr, Instr.shift, Instr.word] at heq
    all_goals omega
  | store => exact absurd hj (Nat.not_lt_zero _)
  | _ => exact fun heq => absurd heq (by simp [Code.instr, Instr.word])

theorem Chain.deliver (htotal : G.offset G.A.PE_size < 2 ^ 63) (h : Chain G alg s)
    (hord : (G.machine (α := α) alg).InOrder s) {v t j : ℕ} {ins : Instr}
    (hp : ((G.machine (α := α) alg).static G.value).prog v t = some ins)
    (hd : ((G.machine alg).static G.value).Deliverable s v t j) :
    Chain G alg (mark (((G.machine alg).static G.value).arrive s v t j ins) v t j) := by
  have hlat := ((G.machine alg).static G.value).later_deliver s v t j ins
  obtain ⟨-, hj, hnd, -, -⟩ := hd
  rw [partsAt_eq _ hp] at hj
  have hwaited : ∀ r, r + 1 < G.A.PE_size →
      0 < (mark (((G.machine alg).static G.value).arrive s v t j ins) v t j).pc (G.A.pe (r + 1)) →
      (mark (((G.machine alg).static G.value).arrive s v t j ins) v t j).done (G.A.pe r) (sendPos r + 1) 0 = true := by
    intro r hr hpc
    rw [mark_pc, arrive_pc] at hpc
    exact hlat.done _ _ _ (h.waited r hr hpc)
  by_cases hmsg : ∃ r w, r + 1 < G.A.PE_size ∧ w < 2 ∧ v = G.A.pe r ∧ t = sendPos r + w
  · obtain ⟨q, w, hq, hw, rfl, rfl⟩ := hmsg
    rw [prog_send h2 htotal hq hw, Option.some.injEq] at hp
    subst hp
    obtain rfl : j = 0 := Nat.lt_one_iff.mp hj
    -- the word has not been reset yet: the next rank is still waiting
    have hearly : s.pc (G.A.pe (q + 1)) ≤ G.resetPos alg (q + 1) + w := by
      by_contra hlate
      have hflag := h.waited q hq (by omega)
      have hoff := hord (G.A.pe q) (sendPos q + 1) (sendPos q) ((behind_iff h2).mpr ⟨q, hq, rfl, rfl, rfl⟩) 0 hflag
      interval_cases w
      · exact absurd (hoff.symm.trans hnd) Bool.noConfusion
      · exact absurd (hflag.symm.trans hnd) Bool.noConfusion
    refine ⟨hwaited, fun w' hw' => ?_, fun r hr w' hw' => ?_⟩
    · rw [mark_cell]
      refine (setCell_apply ..).trans ((if_neg fun hc => ?_).trans (h.first w' hw'))
      exact absurd (G.A.pe_inj.mp hc.1) (Nat.succ_ne_zero q).symm
    · simp only [mark_done, arrive_done, mark_pc, arrive_pc]
      refine (setCell_apply ..).trans ?_
      by_cases hsame : r = q ∧ w' = w
      · obtain ⟨rfl, rfl⟩ := hsame
        rw [if_pos ⟨rfl, rfl⟩, if_pos ⟨.inl ⟨rfl, rfl, trivial⟩, hearly⟩]
      · have hne : ¬ (G.A.pe (r + 1) = G.A.pe (q + 1) ∧ w' = w) := by
          rintro ⟨hpe, hww⟩
          exact hsame ⟨by have := G.A.pe_inj.mp hpe; omega, hww⟩
        have hmsg : ¬ (G.A.pe r = G.A.pe q ∧ sendPos r + w' = sendPos q + w ∧ True) := by
          rintro ⟨hpe, hpos, -⟩
          obtain rfl := G.A.pe_inj.mp hpe
          exact hsame ⟨rfl, by omega⟩
        rw [if_neg hne, h.words r hr w' hw']
        simp only [hmsg, false_or]
  · push Not at hmsg
    have hword : ∀ w < 2, ∀ u, (mark (((G.machine alg).static G.value).arrive s v t j ins) v t j).cell u w = s.cell u w :=
      fun w hw u => arrive_cell_other _ s v t j (word_of_other h2 hp hj
        (fun r w' hr hw' hv => hmsg r w' hr hw' hv) hw) u
    refine ⟨hwaited, fun w hw => (hword w hw _).trans (h.first w hw), fun r hr w hw => ?_⟩
    have hne : ¬ (G.A.pe r = v ∧ sendPos r + w = t ∧ 0 = j) := by
      rintro ⟨rfl, rfl, -⟩
      exact hmsg r w hr hw rfl rfl
    rw [hword w hw, h.words r hr w hw]
    simp only [mark_done, arrive_done, mark_pc, arrive_pc, hne, false_or]

/-- a load finds the offset -/
theorem Chain.loaded (h : Chain G alg s) (hord : (G.machine (α := α) alg).InOrder s) {v c : ℕ}
    (hload : (G.machine (α := α) alg).code v (s.pc v) = some (.load c)) : s.cell v c = G.value v := by
  obtain ⟨r, hr, rfl, hat⟩ := code_cases h2 hload
  generalize htpc : s.pc (G.A.pe r) = t at hat
  generalize hcode : Code.load c = code at hat
  cases hat with
  | offset =>
    rw [sendOffset] at hcode
    split_ifs at hcode
  | load _ h0 =>
    obtain rfl := Code.load.inj hcode
    obtain ⟨q, rfl⟩ : ∃ q, r = q + 1 := ⟨r - 1, by omega⟩
    have hflag := h.waited q hr (by omega)
    have hoff := hord (G.A.pe q) (sendPos q + 1) (sendPos q) ((behind_iff h2).mpr ⟨q, hr, rfl, rfl, rfl⟩) 0 hflag
    have hpos : 1 ≤ G.resetPos alg (q + 1) + 0 := by simp only [resetPos, syncPos]; omega
    rw [h.words q hr 0 (by decide), if_pos ⟨hoff, by omega⟩, value, G.A.rank_pe]
    rfl
  | _ => exact absurd hcode Code.noConfusion

/-! ## The barrier -/

omit h2

variable (G) in
/-- where the barrier of a PE begins -/
def syncOff (v : ℕ) : ℕ := G.syncPos (G.A.rank v)

variable (G alg) in
/-- how long it is -/
def syncLen (v : ℕ) : ℕ := if v ∈ G.A.members then (barrierBody G.A alg v).length else 0

theorem syncOff_pe (r : ℕ) : G.syncOff (G.A.pe r) = G.syncPos r := by rw [syncOff, G.A.rank_pe]

variable (halg : alg.Valid G.A)
include h2 halg

/-- the barrier is a part of the program -/
theorem slice : Slice ((G.machine (α := α) alg).static G.value) (calls G.A.members (barrierBody G.A alg)) 2 G.syncOff
    (G.syncLen alg) := by
  refine barrier_slice h2 halg (fun v hv x ins hx => ?_) fun v t ins hp hout c hw => ?_
  · obtain ⟨r, hr, rfl⟩ := G.A.mem_members.mp hv
    rw [syncOff_pe]
    exact prog_of h2 hr (.sync r x _ hx)
  · obtain ⟨r, hr, rfl, code, hat, rfl⟩ := prog_cases h2 hp
    rw [syncOff_pe, barrierLen_mem (G.A.pe_mem hr)] at hout ⊢
    cases hat with
    | offset _ hlt =>
      rw [sendOffset_word] at hw
      exact absurd (Option.some.inj hw) (by omega)
    | sync _ x ins hx =>
      have := (List.getElem?_eq_some_iff.mp hx).1
      omega
    | store _ i hi =>
      obtain rfl := Option.some.inj hw
      exact ⟨rfl, Nat.le_add_right _ _⟩
    | flag => exact absurd (Option.some.inj hw) (by omega)
    | _ => exact absurd hw (by simp [Code.instr, Instr.word])

variable (G alg) in
/-- the barrier as it would be alone -/
def Synced (s : St α) : Prop := ∃ ops, proj 2 G.syncOff (G.syncLen alg) s =
  (calls G.A.members (barrierBody G.A alg)).run (init (fun _ _ => 0) fun _ _ => ()) ops

theorem synced_keeps : ((G.machine (α := α) alg).static G.value).Keeps (Synced G alg) := by
  refine (slice h2 halg).keeps (fun v t ins hp => ?_) (barrier_zero_alone h2 halg)
  obtain ⟨r, hr, rfl, -⟩ := prog_cases h2 hp
  exact barrierLen_pos h2 halg (G.A.pe_mem hr)

omit h2 halg in
/-- where the reset begins the barrier is over -/
theorem through {r : ℕ} (hr : r < G.A.PE_size) (hpc : G.resetPos alg r ≤ s.pc (G.A.pe r)) :
    G.syncOff (G.A.pe r) + barrierLen G.A alg (G.A.pe r) ≤ s.pc (G.A.pe r) := by
  rwa [syncOff_pe, barrierLen_mem (G.A.pe_mem hr)]

/-- who is through the barrier has everybody in it -/
theorem Synced.entered (h : Synced G alg s) {r q : ℕ} (hr : r < G.A.PE_size) (hq : q < G.A.PE_size)
    (hpc : G.resetPos alg r ≤ s.pc (G.A.pe r)) : G.syncPos q < s.pc (G.A.pe q) := by
  have := InBarrier.entered h2 halg h (G.A.pe_mem hr) (G.A.pe_mem hq) (through hr hpc)
  rwa [syncOff_pe] at this

/-- and its words of the barrier are zero -/
theorem Synced.zero (h : Synced G alg s) {r : ℕ} (hr : r < G.A.PE_size) (hpc : G.resetPos alg r ≤ s.pc (G.A.pe r))
    (c : ℕ) : s.cell (G.A.pe r) (2 + c) = 0 :=
  InBarrier.zero h2 halg h (G.A.pe_mem hr) (through hr hpc) c

/-! ## The target -/

omit h2 halg

variable (G) in
/-- the rank whose block element x of the concatenation is in -/
def blockOf (x : ℕ) : ℕ := Nat.findGreatest (fun r => G.offset r ≤ x) G.A.PE_size

variable (G) in
/-- the target: the concatenation of all sources -/
def region (m0 : ℕ → Loc → α) : Region α where
  base := G.target
  size := G.offset G.A.PE_size
  V x := m0 (G.A.pe (G.blockOf x)) (.sym (G.source + (x - G.offset (G.blockOf x))))

variable {m0 : ℕ → Loc → α}

theorem blockOf_eq {r j : ℕ} (hr : r < G.A.PE_size) (hj : j < G.len r) : G.blockOf (G.offset r + j) = r := by
  refine Nat.findGreatest_eq_iff.mpr ⟨hr.le, fun _ => Nat.le_add_right _ _, fun k hk _ hle => ?_⟩
  have := offset_mono (G := G) (show r + 1 ≤ k by omega)
  rw [offset_succ] at this
  omega

theorem region_eq {r j : ℕ} (hr : r < G.A.PE_size) (hj : j < G.len r) :
    (G.region m0).V (G.offset r + j) = m0 (G.A.pe r) (.sym (G.source + j)) := by
  simp only [region, blockOf_eq hr hj, Nat.add_sub_cancel_left]

/-- a source is not in the target -/
theorem source_ne (hsep : G.Separate) (hne : G.target ≠ G.source) {r j x : ℕ} (hr : r < G.A.PE_size) (hj : j < G.len r)
    (hx : x < G.offset G.A.PE_size) : G.source + j ≠ G.target + x := by
  rcases hsep with ⟨-, heq⟩ | hsep | hsep
  · exact absurd heq hne
  · omega
  · have := hsep r hr
    omega

theorem source_apart (hsep : G.Separate) (hne : G.target ≠ G.source) {r : ℕ} (hr : r < G.A.PE_size) :
    (G.region m0).Apart (.sym G.source) (G.len r) := by
  intro j hj x hx heq
  exact source_ne hsep hne hr hj hx (Loc.sym.inj heq)

/-- somebody has something to send: then target and source differ -/
theorem target_ne (h2 : 2 ≤ G.A.PE_size) (hsep : G.Separate) {r : ℕ} (hr : r < G.A.PE_size) (hlen : G.len r ≠ 0) :
    G.target ≠ G.source := by
  have hle := block_le hr
  rcases hsep with ⟨h1, -⟩ | hsep | hsep
  · omega
  · omega
  · have := hsep r hr
    omega

section
variable (h2 : 2 ≤ G.A.PE_size) (halg : alg.Valid G.A) (htotal : G.offset G.A.PE_size < 2 ^ 63) (hsep : G.Separate)
include h2 halg htotal hsep

theorem fill (v t : ℕ) (ins : Instr) (hp : ((G.machine (α := α) alg).static G.value).prog v t = some ins) :
    (G.region m0).Fill (m0 v) ins := by
  obtain ⟨r, hr, rfl, c, hat, rfl⟩ := prog_cases h2 hp
  cases hat with
  | data _ k hk hlen =>
    have hne := target_ne h2 hsep hr hlen
    simp only [Code.instr, toSize_offset htotal hr]
    exact .send (G.offset r) (G.len r) _ _ (block_le hr) (source_apart hsep hne hr) fun j hj => (region_eq hr hj).symm
  | offset =>
    rw [sendOffset_instr htotal hr]
    exact .idle _ rfl
  | sync _ x ins hx =>
    have hcell := ((barrierBody_cells h2 halg (G.A.pe_mem hr)).2 ins (List.mem_of_getElem? hx)).1
    refine .idle _ ?_
    cases ins <;> first | rfl | exact absurd hcell Bool.noConfusion
  | _ => exact .idle _ rfl

/-- nobody passes on a part of its target -/
theorem not_forwarding {v t y n pe : ℕ}
    (hp : ((G.machine (α := α) alg).static G.value).prog v t =
      some (.putNb (G.target + y) (.sym (G.target + y)) n pe)) : n = 0 := by
  obtain ⟨r, hr, rfl, c, hat, hins⟩ := prog_cases h2 hp
  cases hat with
  | data _ k hk hlen =>
    simp only [Code.instr, toSize_offset htotal hr, Instr.putNb.injEq, Loc.sym.injEq] at hins
    have hle := block_le hr
    have hne := source_ne hsep (target_ne h2 hsep hr hlen) hr (Nat.pos_of_ne_zero hlen) (show G.offset r < _ by omega)
    omega
  | offset =>
    rw [sendOffset_instr htotal hr] at hins
    exact absurd hins Instr.noConfusion
  | sync _ x ins hx =>
    have hcell := ((barrierBody_cells h2 halg (G.A.pe_mem hr)).2 ins (List.mem_of_getElem? hx)).1
    cases ins <;> first | exact absurd hins Instr.noConfusion | exact absurd hcell Bool.noConfusion
  | _ => exact absurd hins Instr.noConfusion

theorem keeps : (G.machine alg).Keeps G.value fun s =>
    Chain G alg s ∧ Synced G alg s ∧ (G.region m0).Filled ((G.machine alg).static G.value) m0 s where
  exec s r ins hh hord h hp he :=
    ⟨h.1.exec h2 hp he, (synced_keeps h2 halg).exec s r ins hh h.2.1 hp he, h.2.2.exec (fill h2 halg htotal hsep) hp⟩
  capture s r i j ins a hh hord h hp hpc hj hnone hsrc := by
    refine ⟨⟨h.1.waited, h.1.first, h.1.words⟩,
      (synced_keeps h2 halg).capture s r i j ins a hh h.2.1 hp hpc hj hnone hsrc,
      h.2.2.capture (fill h2 halg htotal hsep) hp hj hsrc fun y n pe heq hlt => ?_⟩
    subst heq
    rw [not_forwarding h2 halg htotal hsep hp] at hlt
    exact absurd hlt (Nat.not_lt_zero _)
  deliver s r i j ins hh hord h hp hd _ :=
    ⟨h.1.deliver h2 htotal hord hp hd, (synced_keeps h2 halg).deliver s r i j ins hh h.2.1 hp hd,
      h.2.2.deliver (fill h2 halg htotal hsep) hp hd⟩
  assigned r t v hc := by
    obtain ⟨q, hq, rfl, hat⟩ := code_cases h2 hc
    generalize hcode : Code.assign v = c at hat
    cases hat with
    | assign =>
      rw [value, G.A.rank_pe]
      exact Code.assign.inj hcode
    | offset =>
      rw [sendOffset] at hcode
      split_ifs at hcode
    | _ => exact absurd hcode Code.noConfusion
  loaded s r c hh hord h hload := h.1.loaded h2 hord hload
  before r t f hc := by
    obtain ⟨q, hq, rfl, hat⟩ := code_cases h2 hc
    obtain ⟨t', hlt, hsets⟩ := exists_sets (α := α) alg h2 hq
    refine ⟨t', hlt.trans_le ?_, hsets⟩
    generalize hcode : Code.uses f = c at hat
    cases hat with
    | offset => exact le_refl _
    | data _ k =>
      rw [dataPos]
      omega
    | _ => exact absurd hcode Code.noConfusion

omit hsep in
/-- who is through the barrier has all blocks -/
theorem written (hh : ((G.machine alg).static G.value).Hist s) (h : Synced G alg s) {r q : ℕ} (hr : r < G.A.PE_size)
    (hq : q < G.A.PE_size) (hpc : G.resetPos alg r ≤ s.pc (G.A.pe r)) {j : ℕ} (hj : j < G.len q) :
    (G.region m0).Written ((G.machine alg).static G.value) s (G.A.pe r) (G.offset q + j) := by
  have hlen : G.len q ≠ 0 := by omega
  have hsize := G.A.size_pos
  -- the turn of the loop in which q sends to r
  obtain ⟨k, hk, hto⟩ : ∃ k < G.A.PE_size, (q + 1 + k) % G.A.PE_size = r := by
    refine ⟨(r + 2 * G.A.PE_size - (q + 1)) % G.A.PE_size, Nat.mod_lt _ hsize, ?_⟩
    rw [Nat.add_mod_mod, show q + 1 + (r + 2 * G.A.PE_size - (q + 1)) = r + G.A.PE_size * 2 by omega,
      Nat.add_mul_mod_self_left, Nat.mod_eq_of_lt hr]
  have hdata := prog_of (α := α) h2 hq (.data q k hk hlen : G.CodeAt alg q _ _)
  simp only [Code.instr, toSize_offset htotal hq, hto] at hdata
  have hin := h.entered h2 halg hr hq hpc
  have hquiet := prog_of (α := α) h2 hq (.quiet q : G.CodeAt alg q _ _)
  have hdone : s.done (G.A.pe q) (G.dataPos q + k) j = true := by
    refine hh.quieted _ _ hquiet (by rw [syncPos] at hin; omega) _ ?_ j ?_
    · rw [quietPos, if_neg hlen]
      omega
    · rw [partsAt_eq _ hdata]
      exact hj
  exact .inr ⟨_, _, j, G.offset q, G.len q, _, hdone, hdata, rfl⟩

end

end

end CollectArgs

/-! ## The collect -/

/-- what is true of a collect in a state x that it has reached from the memory m0 -/
structure CollectOk {α : Type*} (G : CollectArgs) (alg : BarrierAlg) (m0 : ℕ → Loc → α) (x : RegSt α) : Prop where
  /-- who has got as far as sending has computed its offset, the sum of the lengths before it -/
  offset : 2 ≤ G.A.PE_size → ∀ r < G.A.PE_size, CollectArgs.sendPos r ≤ x.st.pc (G.A.pe r) →
    toSize (x.reg (G.A.pe r)) = ∑ i ∈ Finset.range r, G.len i
  /-- who has returned has the blocks of all members one after the other -/
  result : ∀ v ∈ G.A.members, x.st.pc v = (G.collectLinear alg v).length → ∀ r < G.A.PE_size, ∀ j < G.len r,
    x.st.mem v (.sym (G.target + (G.offset r + j))) = m0 (G.A.pe r) (.sym (G.source + j))
  /-- nothing but the target has changed -/
  outside : ∀ v l, (∀ k < G.offset G.A.PE_size, l ≠ .sym (G.target + k)) → x.st.mem v l = m0 v l
  /-- the pSync of who has returned is zero -/
  zero : ∀ v ∈ G.A.members, x.st.pc v = (G.collectLinear alg v).length → ∀ w, x.st.cell v w = 0

namespace CollectArgs
variable {G : CollectArgs} {alg : BarrierAlg} {α : Type*} {m0 : ℕ → Loc → α}

/-- at least two members -/
theorem ok_of_two (h2 : 2 ≤ G.A.PE_size) (halg : alg.Valid G.A) (htotal : G.offset G.A.PE_size < 2 ^ 63)
    (hsep : G.Separate) {c0 : ℕ → ℕ → ℤ} (h0 : ∀ v ∈ G.A.members, ∀ w, c0 v w = 0) (reg0 : ℕ → ℤ) (ops : List Op) :
    CollectOk G alg m0 ((G.machine alg).run ⟨init c0 m0, reg0⟩ ops) := by
  have hchain : Chain G alg (init c0 m0) := by
    refine ⟨fun r _ hpc => absurd hpc (Nat.not_lt_zero _), fun w _ => h0 _ (G.A.pe_mem G.A.size_pos) w, fun r hr w _ => ?_⟩
    rw [if_neg fun hc => absurd hc.1 Bool.noConfusion]
    exact h0 _ (G.A.pe_mem hr) w
  have hsynced : Synced G alg (init c0 m0) := inBarrier_init m0 h0
  obtain ⟨hh, hord, ⟨hc, hs, hf⟩, hset⟩ := (keeps h2 halg htotal hsep).run reg0
    ⟨hchain, hsynced, Region.filled_init c0⟩ ops
  refine ⟨fun _ r hr hpc => ?_, fun v hv hpc q hq j hj => ?_, hf.outside, fun v hv hpc w => ?_⟩
  · obtain ⟨t, hlt, hsets⟩ := exists_sets (α := α) alg h2 hr
    rw [hset _ t hsets (by omega), value, G.A.rank_pe]
    exact toSize_offset htotal hr
  · obtain ⟨r, hr, rfl⟩ := G.A.mem_members.mp hv
    rw [length_collectLinear h2 hr] at hpc
    have hle := block_le hq
    have hw : (G.region m0).Written _ _ _ _ := written h2 halg htotal hh hs hr hq (by omega) hj
    exact (hf.inside _ _ (show _ < G.offset _ by omega) hw).trans (region_eq hq hj)
  · obtain ⟨r, hr, rfl⟩ := G.A.mem_members.mp hv
    rw [length_collectLinear h2 hr] at hpc
    rcases Nat.lt_or_ge w 2 with hw | hw
    · have hwords : words = 34 := by decide
      by_cases hr0 : r = 0
      · subst hr0
        exact hc.first w hw
      · obtain ⟨q, rfl⟩ : ∃ q, r = q + 1 := ⟨r - 1, by omega⟩
        rw [hc.words q hr w hw, if_neg (by omega)]
    · obtain ⟨c, rfl⟩ : ∃ c, w = 2 + c := ⟨w - 2, by omega⟩
      exact hs.zero h2 halg hr (by omega) c

/-- a single member has nothing to do but to copy -/
theorem code_of_one (h1 : G.A.PE_size = 1) {v t : ℕ} {c : Code} (h : (G.machine (α := α) alg).code v t = some c) :
    v = G.A.pe 0 ∧ t = 0 ∧ G.target ≠ G.source ∧ c = .fixed (.memcpy (.sym G.target) (.sym G.source) (G.len 0)) := by
  simp only [machine] at h
  split_ifs at h with hv
  obtain ⟨r, hr, rfl⟩ := G.A.mem_members.mp hv
  obtain rfl : r = 0 := by omega
  rw [collectLinear, if_pos h1, G.A.rank_pe] at h
  split_ifs at h with hne
  · match t, h with
    | 0, h => exact ⟨rfl, rfl, hne, (Option.some.inj h).symm⟩
    | t + 1, h => exact absurd h (by simp)
  · exact absurd h (by simp)

theorem prog_of_one (h1 : G.A.PE_size = 1) {v t : ℕ} {ins : Instr}
    (h : ((G.machine (α := α) alg).static G.value).prog v t = some ins) :
    v = G.A.pe 0 ∧ G.target ≠ G.source ∧ ins = .memcpy (.sym G.target) (.sym G.source) (G.len 0) := by
  obtain ⟨c, hc, rfl⟩ := Option.map_eq_some_iff.mp h
  obtain ⟨hv, -, hne, rfl⟩ := code_of_one h1 hc
  exact ⟨hv, hne, rfl⟩

theorem keeps_of_one (h1 : G.A.PE_size = 1) (hsep : G.Separate) (c0 : ℕ → ℕ → ℤ) :
    (G.machine alg).Keeps G.value fun s => s.cell = c0 ∧ (G.target = G.source → s.mem = m0) ∧
      (G.region m0).Filled ((G.machine alg).static G.value) m0 s := by
  have hone : 0 < G.A.PE_size := by omega
  have hfill : ∀ v t ins, ((G.machine (α := α) alg).static G.value).prog v t = some ins →
      (G.region m0).Fill (m0 v) ins := by
    intro v t ins hp
    obtain ⟨rfl, hne, rfl⟩ := prog_of_one h1 hp
    refine .copy 0 (G.len 0) _ ?_ (source_apart hsep hne hone) fun j hj => (region_eq hone hj).symm
    exact block_le hone
  refine ⟨?_, ?_, ?_, ?_, ?_, ?_⟩
  · rintro s v ins hh - ⟨hcell, hmem, hf⟩ hp he
    obtain ⟨rfl, hne, rfl⟩ := prog_of_one h1 hp
    exact ⟨hcell, fun heq => absurd heq hne, hf.exec hfill hp⟩
  · rintro s v i j ins a hh - - hp - hj - -
    obtain ⟨-, -, rfl⟩ := prog_of_one h1 hp
    exact absurd hj (Nat.not_lt_zero _)
  · rintro s v i j ins hh - - hp hd -
    obtain ⟨-, -, rfl⟩ := prog_of_one h1 hp
    have hj := hd.2.1
    rw [partsAt_eq _ hp] at hj
    exact absurd hj (Nat.not_lt_zero _)
  · intro r t v hc
    exact absurd (code_of_one h1 hc).2.2.2 Code.noConfusion
  · intro s r c _ _ _ hc
    exact absurd (code_of_one h1 hc).2.2.2 Code.noConfusion
  · intro r t f hc
    exact absurd (code_of_one h1 hc).2.2.2 Code.noConfusion

theorem ok_of_one (h1 : G.A.PE_size = 1) (hsep : G.Separate) {c0 : ℕ → ℕ → ℤ}
    (h0 : ∀ v ∈ G.A.members, ∀ w, c0 v w = 0) (reg0 : ℕ → ℤ) (ops : List Op) :
    CollectOk G alg m0 ((G.machine alg).run ⟨init c0 m0, reg0⟩ ops) := by
  have hone : 0 < G.A.PE_size := by omega
  obtain ⟨-, -, ⟨hcell, hmem, hf⟩, -⟩ := (keeps_of_one h1 hsep c0).run reg0
    ⟨rfl, fun _ => rfl, Region.filled_init c0⟩ ops
  refine ⟨fun h2 => absurd h2 (by omega), fun v hv hpc r hr j hj => ?_, hf.outside, fun v hv _ w => ?_⟩
  · obtain ⟨q, hq, rfl⟩ := G.A.mem_members.mp hv
    obtain rfl : q = 0 := by omega
    obtain rfl : r = 0 := by omega
    have hzero : G.offset 0 = 0 := rfl
    by_cases heq : G.target = G.source
    · rw [hmem heq, heq, hzero, Nat.zero_add]
      rfl
    · have hcode : G.collectLinear alg (G.A.pe 0) =
          [.fixed (.memcpy (.sym G.target) (.sym G.source) (G.len 0))] := by
        rw [collectLinear, if_pos h1, if_pos heq, G.A.rank_pe]
      rw [hcode] at hpc
      have hprog : ((G.machine (α := α) alg).static G.value).prog (G.A.pe 0) 0 =
          some (.memcpy (.sym G.target) (.sym G.source) (G.len 0)) := by
        simp only [RegMachine.static, machine, if_pos hv, hcode]
        rfl
      have hlt : 0 < ((G.machine alg).run ⟨init c0 m0, reg0⟩ ops).st.pc (G.A.pe 0) := by
        rw [hpc]
        exact Nat.one_pos
      have hw : (G.region m0).Written ((G.machine alg).static G.value) _ (G.A.pe 0) (G.offset 0 + j) :=
        .inl ⟨0, hlt, 0, G.len 0, _, hprog, by omega, by omega⟩
      have hle := block_le hone
      exact (hf.inside _ _ (show _ < G.offset _ by omega) hw).trans (region_eq hone hj)
  · rw [hcell]
    exact h0 v hv w

/-- the PE that an instruction puts data to -/
def putsTo (z : ℤ) (c : Code) : Option ℕ :=
  match c.instr z with
  | .putNb _ _ _ pe => some pe
  | _ => none

/-- the data are put to the peers of the loop, and to nobody else; without data nothing is put -/
theorem puts_eq (h2 : 2 ≤ G.A.PE_size) (halg : alg.Valid G.A) {r : ℕ} (hr : r < G.A.PE_size) (z : ℤ) :
    (G.collectLinear alg (G.A.pe r)).filterMap (putsTo z) = if G.len r = 0 then [] else peers G.A (G.A.pe r) := by
  have hnone : ∀ {l : List Code}, (∀ c ∈ l, putsTo z c = none) → l.filterMap (putsTo z) = [] :=
    fun h => List.filterMap_eq_nil_iff.mpr h
  have hprefix : (G.prefixSum (G.A.pe r)).filterMap (putsTo z) = [] := by
    refine hnone fun c hc => ?_
    rw [prefixSum_pe h2] at hc
    rcases List.mem_append.mp hc with hc | hc
    · split_ifs at hc with h0
      · rw [List.mem_singleton.mp hc]
        rfl
      · rcases List.mem_pair.mp hc with rfl | rfl <;> rfl
    · split_ifs at hc with hlt
      · rcases List.mem_pair.mp hc with rfl | rfl
        · simp only [sendOffset]
          split_ifs <;> rfl
        · rfl
      · exact absurd hc List.not_mem_nil
  have hdata : (G.sendData (G.A.pe r)).filterMap (putsTo z) = if G.len r = 0 then [] else peers G.A (G.A.pe r) := by
    rw [sendData_pe hr, peers_eq hr]
    split_ifs with hlen
    · rfl
    · rw [List.filterMap_map]
      exact List.filterMap_eq_map ▸ rfl
  have hsync : ((barrierBody G.A alg (G.A.pe r)).map fun ins => Code.fixed (ins.shift 2)).filterMap (putsTo z) = [] := by
    refine hnone fun c hc => ?_
    obtain ⟨ins, hins, rfl⟩ := List.mem_map.mp hc
    have hcell := ((barrierBody_cells h2 halg (G.A.pe_mem hr)).2 ins hins).1
    cases ins <;> first | rfl | exact absurd hcell Bool.noConfusion
  have hreset : reset.filterMap (putsTo z) = [] := by
    refine hnone fun c hc => ?_
    rw [reset_eq] at hc
    obtain ⟨i, -, rfl⟩ := List.mem_map.mp hc
    rfl
  have hquiet : putsTo z (.fixed .quiet) = none := rfl
  rw [collectLinear_pe h2, List.filterMap_append, List.filterMap_append, List.filterMap_cons, List.filterMap_append,
    hprefix, hdata, hquiet, hsync, hreset, List.nil_append, List.append_nil, List.append_nil]

end CollectArgs

/-- PEs 0 and 1 collect one and two bytes from address 8 to address 0 -/
def lopsided : CollectArgs := ⟨⟨0, 1, 2, 2, Nat.one_pos, Nat.two_pos, Nat.one_lt_two⟩, 0, 8, fun r => r + 1⟩

/-- ten times the PE, and the address -/
def addrMem : ℕ → Loc → ℕ := fun v l => match l with | .sym a => 10 * v + a | .priv _ => 0

/-- PE 0 sends and returns, PE 1 has called in at the barrier -/
def lopsidedSched : List Op :=
  [.exec 0, .exec 0, .exec 0, .exec 0, .exec 0, .capture 0 3 0, .capture 0 4 0, .deliver 0 1 0, .deliver 0 2 0,
    .deliver 0 3 0, .deliver 0 4 0, .exec 0, .exec 0, .exec 1, .exec 1, .exec 1, .exec 1, .capture 1 2 0, .capture 1 2 1,
    .capture 1 3 0, .capture 1 3 1, .deliver 1 2 0, .deliver 1 2 1, .deliver 1 3 0, .deliver 1 3 1, .exec 1, .exec 1,
    .exec 1, .deliver 1 6 0, .exec 0, .exec 0, .deliver 0 8 0].append (List.replicate 36 (.exec 0))

/-- the state after it -/
def lopsidedEnd : RegSt ℕ :=
  (lopsided.machine (.tree .linear)).run ⟨init (fun _ _ => 0) addrMem, fun _ => 0⟩ lopsidedSched

end SandiaShmem.Collectives
