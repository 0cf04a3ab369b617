/-
The ring reduction.

The target is divided into PE_size chunks, the first count % PE_size of them one element longer. In the reduce-scatter
phase every member sends a chunk to its right neighbour, PE_size - 1 times: first its own source, then what it received
from the left and reduced its source into. In the allgather phase it passes on reduced chunks, again PE_size - 1 times.
The puts do not block, so a chunk is read some time after the put was issued, out of the very buffer the left neighbour
writes to.

The two phases are one sequence of 2 (PE_size - 1) stages: in stage k rank r sends chunk r - k (mod PE_size). The stage
of the neighbours differ by at most one, so r is in stage k - (PE_size - 1) at least when its left neighbour is in stage k.

The copy and the `shmem_internal_sync` of an in-place reduction are a copy to private memory and a barrier.

- `Sync`: the pSync words count the adds that have arrived, and the stages of neighbours stay together.
- `Data`: what the target of a member holds, by what has been delivered to it and what it has reduced.
- `ring_correct`: the result, the pSync words at return, and that nothing is overwritten that is still needed.
-/
import SandiaShmem.Core.Reduction
import SandiaShmem.Collectives.Calls

namespace SandiaShmem.Collectives.Ring

open OneSided OneSided.Machine SandiaShmem.Collectives

/-! ## Model -/

/-- the number of elements of a chunk -/
def chunkCount (count n chunk : ℕ) : ℕ := count / n + if chunk < count % n then 1 else 0

/-- where a chunk starts -/
def chunkDisp (count n chunk : ℕ) : ℕ :=
  if chunk < count % n then chunk * chunkCount count n chunk else chunk * chunkCount count n chunk + count % n

abbrev Args := ReduceArgs

namespace Args
variable (G : Args)

/-- where the source is read: from a private copy when the reduction is in place -/
def sourceBuf : Loc := if G.target = G.source then .priv 0 else .sym G.source

/-- the right neighbour -/
def peer (my_pe : ℕ) : ℕ := G.A.PE_start + (G.A.rank my_pe + 1) % G.A.PE_size * G.A.PE_stride

/-- an iteration of the reduce-scatter loop -/
def reduceScatter (my_pe i : ℕ) : List Instr :=
  let n := G.A.PE_size
  let chunk_in := (G.A.rank my_pe + n - i - 1) % n
  let chunk_out := (G.A.rank my_pe + n - i) % n
  let chunk_in_count := chunkCount G.count n chunk_in
  let chunk_out_count := chunkCount G.count n chunk_out
  let chunk_out_disp := chunkDisp G.count n chunk_out
  let chunk_in_disp := chunkDisp G.count n chunk_in
  [.putNb (G.target + chunk_out_disp)
      (if i = 0 then G.sourceBuf.elem chunk_out_disp else (Loc.sym G.target).elem chunk_out_disp) chunk_out_count
      (G.peer my_pe),
    .fence,
    .atomicAdd 0 1 (G.peer my_pe),
    .waitUntil 0 .GE (i + 1 : ℕ),
    .reduceLocal (G.sourceBuf.elem chunk_in_disp) ((Loc.sym G.target).elem chunk_in_disp) chunk_in_count]

/-- an iteration of the allgather loop -/
def allgather (my_pe i : ℕ) : List Instr :=
  let n := G.A.PE_size
  let chunk_out := (G.A.rank my_pe + 1 + n - i) % n
  let chunk_out_count := chunkCount G.count n chunk_out
  let chunk_out_disp := chunkDisp G.count n chunk_out
  [.putNb (G.target + chunk_out_disp) ((Loc.sym G.target).elem chunk_out_disp) chunk_out_count (G.peer my_pe),
    .fence,
    .atomicAdd 1 1 (G.peer my_pe),
    .waitUntil 1 .GE (i + 1 : ℕ)]

/-- the copy of the source of an in-place reduction -/
def inPlace : List Instr :=
  if G.target = G.source then [.memcpy (.priv 0) (.sym G.target) G.count, .barIn, .barOut] else []

/-- `shmem_internal_op_to_all_ring` on the PE my_pe -/
def opToAllRing (my_pe : ℕ) : List Instr :=
  if G.count = 0 then []
  else if G.A.PE_size = 1 then
    if G.target ≠ G.source then [.memcpy (.sym G.target) (.sym G.source) G.count] else []
  else
    G.inPlace ++ ((List.range (G.A.PE_size - 1)).flatMap (G.reduceScatter my_pe) ++
      ([.putScalar 0 0 my_pe, .waitUntil 0 .EQ 0] ++
        ((List.range (G.A.PE_size - 1)).flatMap (G.allgather my_pe) ++
          [.putScalar 1 0 my_pe, .waitUntil 1 .EQ 0])))

end Args

/-! ## Chunks -/

theorem chunkDisp_succ (count n c : ℕ) : chunkDisp count n (c + 1) = chunkDisp count n c + chunkCount count n c := by
  unfold chunkDisp chunkCount
  generalize count / n = q
  generalize hm : count % n = m
  by_cases h1 : c + 1 < m
  · rw [if_pos h1, if_pos h1, if_pos (by omega), if_pos (by omega)]
    ring
  · by_cases h2 : c < m
    · have : m = c + 1 := by omega
      subst this
      rw [if_neg h1, if_neg h1, if_pos h2, if_pos h2]
      ring
    · rw [if_neg h1, if_neg h1, if_neg h2, if_neg h2]
      ring

theorem chunkDisp_zero (count n : ℕ) : chunkDisp count n 0 = 0 := by
  unfold chunkDisp
  split_ifs with h
  · exact Nat.zero_mul _
  · rw [Nat.zero_mul]
    omega

theorem chunkDisp_all {count n : ℕ} (hn : 1 ≤ n) : chunkDisp count n n = count := by
  have hlt : ¬ n < count % n := by have := Nat.mod_lt count (show 0 < n by omega); omega
  unfold chunkDisp chunkCount
  rw [if_neg hlt, if_neg hlt, Nat.add_zero]
  exact Nat.div_add_mod count n

theorem chunkDisp_mono (count n : ℕ) {c c' : ℕ} (h : c ≤ c') : chunkDisp count n c ≤ chunkDisp count n c' := by
  induction c', h using Nat.le_induction with
  | base => exact le_refl _
  | succ c' _ ih => rw [chunkDisp_succ]; omega

/-- different elements of chunks are different elements of the buffer -/
theorem chunk_inj {count n c c' j j' : ℕ} (hj : j < chunkCount count n c) (hj' : j' < chunkCount count n c')
    (h : chunkDisp count n c + j = chunkDisp count n c' + j') : c = c' ∧ j = j' := by
  have hc : c = c' := by
    by_contra hne
    rcases Nat.lt_or_gt_of_ne hne with hlt | hlt
    · have := chunkDisp_mono count n (show c + 1 ≤ c' from hlt)
      rw [chunkDisp_succ] at this
      omega
    · have := chunkDisp_mono count n (show c' + 1 ≤ c from hlt)
      rw [chunkDisp_succ] at this
      omega
  subst hc
  exact ⟨rfl, by omega⟩

/-- a chunk lies inside the buffer -/
theorem chunk_lt {count n c j : ℕ} (hc : c < n) (hj : j < chunkCount count n c) : chunkDisp count n c + j < count := by
  have := chunkDisp_mono count n (show c + 1 ≤ n from hc)
  rw [chunkDisp_succ, chunkDisp_all (by omega)] at this
  omega

/-- every element of the buffer is in a chunk -/
theorem exists_chunk {count n e : ℕ} (hn : 1 ≤ n) (he : e < count) :
    ∃ c < n, ∃ j < chunkCount count n c, e = chunkDisp count n c + j := by
  have hall : ∀ m ≤ n, e < chunkDisp count n m → ∃ c < m, ∃ j < chunkCount count n c, e = chunkDisp count n c + j := by
    intro m
    induction m with
    | zero =>
      intro _ h
      rw [chunkDisp_zero] at h
      omega
    | succ m ih =>
      intro hm h
      rcases Nat.lt_or_ge e (chunkDisp count n m) with hlt | hge
      · obtain ⟨c, hc, rest⟩ := ih (by omega) hlt
        exact ⟨c, by omega, rest⟩
      · rw [chunkDisp_succ] at h
        exact ⟨m, by omega, e - chunkDisp count n m, by omega, by omega⟩
  exact hall n (le_refl n) (by rw [chunkDisp_all hn]; exact he)

/-! ## Stages and positions -/

namespace Args
variable (G : Args)

/-- the chunk rank r sends in stage k -/
def chunk (r k : ℕ) : ℕ := (r + 2 * G.A.PE_size - k) % G.A.PE_size

/-- the pSync word of stage k, and the value waited for -/
def word (k : ℕ) : ℕ := if k < G.A.PE_size - 1 then 0 else 1
def goal (k : ℕ) : ℕ := if k < G.A.PE_size - 1 then k + 1 else k - (G.A.PE_size - 1) + 1

/-- where the stages start -/
def base : ℕ := if G.target = G.source then 3 else 0

/-- where stage k starts -/
def putPos (k : ℕ) : ℕ :=
  if k < G.A.PE_size - 1 then G.base + 5 * k
  else G.base + 5 * (G.A.PE_size - 1) + 2 + 4 * (k - (G.A.PE_size - 1))

def clear0Pos : ℕ := G.base + 5 * (G.A.PE_size - 1)
def clear1Pos : ℕ := G.base + 5 * (G.A.PE_size - 1) + 2 + 4 * (G.A.PE_size - 1)

/-- where stage k reads the chunk it sends -/
def sendBuf (k : ℕ) : Loc := if k = 0 then G.sourceBuf else .sym G.target

/-- the rank to the right -/
def right (r : ℕ) : ℕ := (r + 1) % G.A.PE_size

/-- what stands where in the code of rank r -/
inductive CodeAt (r : ℕ) : ℕ → Instr → Prop
  | copy (h : G.target = G.source) : CodeAt r 0 (.memcpy (.priv 0) (.sym G.target) G.count)
  | barIn (h : G.target = G.source) : CodeAt r 1 .barIn
  | barOut (h : G.target = G.source) : CodeAt r 2 .barOut
  | put (k : ℕ) (hk : k < 2 * (G.A.PE_size - 1)) : CodeAt r (G.putPos k)
      (.putNb (G.target + chunkDisp G.count G.A.PE_size (G.chunk r k))
        ((G.sendBuf k).elem (chunkDisp G.count G.A.PE_size (G.chunk r k)))
        (chunkCount G.count G.A.PE_size (G.chunk r k)) (G.A.pe (G.right r)))
  | fence (k : ℕ) (hk : k < 2 * (G.A.PE_size - 1)) : CodeAt r (G.putPos k + 1) .fence
  | add (k : ℕ) (hk : k < 2 * (G.A.PE_size - 1)) :
    CodeAt r (G.putPos k + 2) (.atomicAdd (G.word k) 1 (G.A.pe (G.right r)))
  | wait (k : ℕ) (hk : k < 2 * (G.A.PE_size - 1)) : CodeAt r (G.putPos k + 3) (.waitUntil (G.word k) .GE (G.goal k))
  | reduce (k : ℕ) (hk : k < G.A.PE_size - 1) : CodeAt r (G.putPos k + 4)
      (.reduceLocal (G.sourceBuf.elem (chunkDisp G.count G.A.PE_size (G.chunk r (k + 1))))
        ((Loc.sym G.target).elem (chunkDisp G.count G.A.PE_size (G.chunk r (k + 1))))
        (chunkCount G.count G.A.PE_size (G.chunk r (k + 1))))
  | clear0 : CodeAt r G.clear0Pos (.putScalar 0 0 (G.A.pe r))
  | zero0 : CodeAt r (G.clear0Pos + 1) (.waitUntil 0 .EQ 0)
  | clear1 : CodeAt r G.clear1Pos (.putScalar 1 0 (G.A.pe r))
  | zero1 : CodeAt r (G.clear1Pos + 1) (.waitUntil 1 .EQ 0)

theorem peer_pe (r : ℕ) : G.peer (G.A.pe r) = G.A.pe (G.right r) := by rw [peer, G.A.rank_pe]; rfl

theorem inPlace_length : G.inPlace.length = G.base := by
  unfold inPlace base
  split_ifs <;> rfl

theorem reduceScatter_length (my_pe i : ℕ) : (G.reduceScatter my_pe i).length = 5 := rfl
theorem allgather_length (my_pe i : ℕ) : (G.allgather my_pe i).length = 4 := rfl

section
variable {G} (hn : 2 ≤ G.A.PE_size) (hc : G.count ≠ 0)
include hn hc

theorem opToAllRing_eq (my_pe : ℕ) : G.opToAllRing my_pe =
    G.inPlace ++ ((List.range (G.A.PE_size - 1)).flatMap (G.reduceScatter my_pe) ++
      ([.putScalar 0 0 my_pe, .waitUntil 0 .EQ 0] ++
        ((List.range (G.A.PE_size - 1)).flatMap (G.allgather my_pe) ++
          [.putScalar 1 0 my_pe, .waitUntil 1 .EQ 0]))) := by
  rw [opToAllRing, if_neg hc, if_neg (by omega)]

theorem length_opToAllRing (my_pe : ℕ) : (G.opToAllRing my_pe).length = G.clear1Pos + 2 := by
  rw [opToAllRing_eq hn hc]
  simp [inPlace_length, List.length_flatMap, reduceScatter_length, allgather_length, clear1Pos]
  omega

/-- instruction b of iteration k of the reduce-scatter loop -/
theorem getElem_reduceScatter (my_pe : ℕ) {k b : ℕ} (hk : k < G.A.PE_size - 1) (hb : b < 5) :
    (G.opToAllRing my_pe)[G.base + 5 * k + b]? = (G.reduceScatter my_pe k)[b]? := by
  have hlen : ((List.range (G.A.PE_size - 1)).flatMap (G.reduceScatter my_pe)).length = (G.A.PE_size - 1) * 5 := by
    simp [List.length_flatMap, reduceScatter_length]
  rw [opToAllRing_eq hn hc, List.getElem?_append_right (by rw [inPlace_length]; omega), inPlace_length,
    List.getElem?_append_left (by omega), getElem?_flatMap_range _ (by decide) (G.reduceScatter_length my_pe),
    if_pos (by omega), show (G.base + 5 * k + b - G.base) / 5 = k by omega,
    show (G.base + 5 * k + b - G.base) % 5 = b by omega]

/-- what stands behind the reduce-scatter loop -/
theorem getElem_behind (my_pe x : ℕ) : (G.opToAllRing my_pe)[G.clear0Pos + x]? =
    ([.putScalar 0 0 my_pe, .waitUntil 0 .EQ 0] ++ ((List.range (G.A.PE_size - 1)).flatMap (G.allgather my_pe) ++
      [.putScalar 1 0 my_pe, .waitUntil 1 .EQ 0]))[x]? := by
  have hlen : ((List.range (G.A.PE_size - 1)).flatMap (G.reduceScatter my_pe)).length = (G.A.PE_size - 1) * 5 := by
    simp [List.length_flatMap, reduceScatter_length]
  rw [opToAllRing_eq hn hc, clear0Pos, List.getElem?_append_right (by rw [inPlace_length]; omega), inPlace_length,
    List.getElem?_append_right (by omega), hlen]
  congr 1
  omega

/-- instruction b of iteration i of the allgather loop -/
theorem getElem_allgather (my_pe : ℕ) {i b : ℕ} (hi : i < G.A.PE_size - 1) (hb : b < 4) :
    (G.opToAllRing my_pe)[G.clear0Pos + (2 + 4 * i + b)]? = (G.allgather my_pe i)[b]? := by
  have hlen : ((List.range (G.A.PE_size - 1)).flatMap (G.allgather my_pe)).length = (G.A.PE_size - 1) * 4 := by
    simp [List.length_flatMap, allgather_length]
  rw [getElem_behind hn hc, List.getElem?_append_right (by simp; omega), List.getElem?_append_left (by simp [hlen]; omega),
    getElem?_flatMap_range _ (by decide) (G.allgather_length my_pe)]
  simp only [List.length_cons, List.length_nil]
  rw [if_pos (by omega), show (2 + 4 * i + b - (0 + 1 + 1)) / 4 = i by omega,
    show (2 + 4 * i + b - (0 + 1 + 1)) % 4 = b by omega]

omit hc in
theorem chunk_out_eq (r : ℕ) {i : ℕ} (hi : i ≤ G.A.PE_size) :
    (r + G.A.PE_size - i) % G.A.PE_size = G.chunk r i := by
  rw [chunk, show r + 2 * G.A.PE_size - i = r + G.A.PE_size - i + G.A.PE_size by omega, Nat.add_mod_right]

/-- the first four instructions of stage k -/
theorem getElem_stage {r k b : ℕ} (hk : k < 2 * (G.A.PE_size - 1)) (hb : b < 4) :
    (G.opToAllRing (G.A.pe r))[G.putPos k + b]? =
      [Instr.putNb (G.target + chunkDisp G.count G.A.PE_size (G.chunk r k))
        ((G.sendBuf k).elem (chunkDisp G.count G.A.PE_size (G.chunk r k)))
        (chunkCount G.count G.A.PE_size (G.chunk r k)) (G.A.pe (G.right r)), .fence,
        .atomicAdd (G.word k) 1 (G.A.pe (G.right r)), .waitUntil (G.word k) .GE (G.goal k)][b]? := by
  by_cases h : k < G.A.PE_size - 1
  · rw [putPos, if_pos h, getElem_reduceScatter hn hc _ h (by omega)]
    simp only [reduceScatter, G.A.rank_pe, chunk_out_eq hn r (show k ≤ G.A.PE_size by omega), sendBuf, word, goal,
      if_pos h, peer_pe]
    match b with
    | 0 => by_cases h0 : k = 0 <;> simp [h0]
    | 1 => rfl
    | 2 => rfl
    | 3 => rfl
    | b + 4 => omega
  · have hi : k - (G.A.PE_size - 1) < G.A.PE_size - 1 := by omega
    have hpos : G.putPos k + b = G.clear0Pos + (2 + 4 * (k - (G.A.PE_size - 1)) + b) := by
      simp only [putPos, if_neg h, clear0Pos]
      omega
    have hchunk : (r + 1 + G.A.PE_size - (k - (G.A.PE_size - 1))) % G.A.PE_size = G.chunk r k := by
      rw [chunk]
      congr 1
      omega
    rw [hpos, getElem_allgather hn hc _ hi hb]
    simp only [allgather, G.A.rank_pe, hchunk, sendBuf, word, goal, if_neg h, peer_pe]
    match b with
    | 0 => simp [show k ≠ 0 by omega]
    | 1 => rfl
    | 2 => rfl
    | 3 => rfl
    | b + 4 => omega

theorem getElem_reduce {r k : ℕ} (hk : k < G.A.PE_size - 1) :
    (G.opToAllRing (G.A.pe r))[G.putPos k + 4]? =
      some (.reduceLocal (G.sourceBuf.elem (chunkDisp G.count G.A.PE_size (G.chunk r (k + 1))))
        ((Loc.sym G.target).elem (chunkDisp G.count G.A.PE_size (G.chunk r (k + 1))))
        (chunkCount G.count G.A.PE_size (G.chunk r (k + 1)))) := by
  have hin : (r + G.A.PE_size - k - 1) % G.A.PE_size = G.chunk r (k + 1) := by
    rw [← chunk_out_eq hn r (show k + 1 ≤ G.A.PE_size by omega)]
    congr 1
  rw [putPos, if_pos hk, getElem_reduceScatter hn hc _ hk (by omega)]
  simp only [reduceScatter, G.A.rank_pe, hin]
  rfl

/-- the first four instructions of a stage are what `CodeAt` says -/
theorem codeAt_stage {r k b : ℕ} {ins : Instr} (hk : k < 2 * (G.A.PE_size - 1)) (hb : b < 4)
    (h : (G.opToAllRing (G.A.pe r))[G.putPos k + b]? = some ins) : G.CodeAt r (G.putPos k + b) ins := by
  rw [getElem_stage hn hc hk hb] at h
  match b with
  | 0 => simp only [List.getElem?_cons_zero, Option.some.injEq] at h; subst h; exact .put k hk
  | 1 => simp at h; subst h; exact .fence k hk
  | 2 => simp at h; subst h; exact .add k hk
  | 3 => simp at h; subst h; exact .wait k hk
  | b + 4 => omega

/-- the code of a member, instruction by instruction -/
theorem codeAt_of_getElem {r t : ℕ} {ins : Instr} (h : (G.opToAllRing (G.A.pe r))[t]? = some ins) :
    G.CodeAt r t ins := by
  have hlen := length_opToAllRing hn hc (G.A.pe r)
  have ht : t < G.clear1Pos + 2 := by
    have := (List.getElem?_eq_some_iff.mp h).1
    omega
  rcases Nat.lt_or_ge t G.base with h1 | h1
  · -- the copy and the barrier
    rw [opToAllRing_eq hn hc, List.getElem?_append_left (by rw [inPlace_length]; exact h1)] at h
    have heq : G.target = G.source := by
      by_contra hne
      simp [base, hne] at h1
    have hb : G.base = 3 := by simp [base, heq]
    simp only [inPlace, if_pos heq] at h
    match t, h with
    | 0, h => simp at h; subst h; exact .copy heq
    | 1, h => simp at h; subst h; exact .barIn heq
    | 2, h => simp at h; subst h; exact .barOut heq
    | t + 3, h => omega
  · rcases Nat.lt_or_ge t G.clear0Pos with h2 | h2
    · have hk : (t - G.base) / 5 < G.A.PE_size - 1 := by
        simp only [clear0Pos] at h2
        exact Nat.div_lt_of_lt_mul (by omega)
      have hsplit := Nat.div_add_mod (t - G.base) 5
      have hmod := Nat.mod_lt (t - G.base) (show 0 < 5 by decide)
      generalize (t - G.base) / 5 = k at hk hsplit
      generalize (t - G.base) % 5 = b at hsplit hmod
      have hpos : t = G.putPos k + b := by simp only [putPos, if_pos hk]; omega
      subst hpos
      rcases Nat.lt_or_ge b 4 with hb | hb
      · exact codeAt_stage hn hc (by omega) hb h
      · have : b = 4 := by omega
        subst this
        rw [getElem_reduce hn hc hk, Option.some.injEq] at h
        subst h
        exact .reduce k hk
    · obtain ⟨x, rfl⟩ : ∃ x, t = G.clear0Pos + x := ⟨t - G.clear0Pos, by omega⟩
      have hlen2 : ((List.range (G.A.PE_size - 1)).flatMap (G.allgather (G.A.pe r))).length = (G.A.PE_size - 1) * 4 := by
        simp [List.length_flatMap, allgather_length]
      have hc1 : G.clear1Pos = G.clear0Pos + (2 + 4 * (G.A.PE_size - 1)) := by simp only [clear1Pos, clear0Pos]; omega
      match x, h with
      | 0, h => rw [getElem_behind hn hc] at h; simp at h; subst h; exact .clear0
      | 1, h => rw [getElem_behind hn hc] at h; simp at h; subst h; exact .zero0
      | x + 2, h =>
        rcases Nat.lt_or_ge x ((G.A.PE_size - 1) * 4) with h3 | h3
        · have hi : x / 4 < G.A.PE_size - 1 := Nat.div_lt_of_lt_mul (by omega)
          have hsplit := Nat.div_add_mod x 4
          have hmod := Nat.mod_lt x (show 0 < 4 by decide)
          generalize x / 4 = i at hi hsplit
          generalize x % 4 = b at hsplit hmod
          have hpos : G.clear0Pos + (x + 2) = G.putPos (i + (G.A.PE_size - 1)) + b := by
            simp only [putPos, clear0Pos]
            rw [if_neg (by omega)]
            omega
          rw [hpos] at h ⊢
          exact codeAt_stage hn hc (by omega) hmod h
        · rw [getElem_behind hn hc, List.getElem?_append_right (by simp), List.getElem?_append_right (by simp [hlen2]; omega)] at h
          simp only [List.length_cons, List.length_nil, hlen2] at h
          obtain ⟨y, hy⟩ : ∃ y, x = (G.A.PE_size - 1) * 4 + y := ⟨x - (G.A.PE_size - 1) * 4, by omega⟩
          subst hy
          rw [show (G.A.PE_size - 1) * 4 + y + 2 - (0 + 1 + 1) - (G.A.PE_size - 1) * 4 = y by omega] at h
          match y, h with
          | 0, h =>
            simp at h; subst h
            exact (show G.clear0Pos + ((G.A.PE_size - 1) * 4 + 0 + 2) = G.clear1Pos by omega) ▸ .clear1
          | 1, h =>
            simp at h; subst h
            exact (show G.clear0Pos + ((G.A.PE_size - 1) * 4 + 1 + 2) = G.clear1Pos + 1 by omega) ▸ .zero1
          | y + 2, h => simp at h

end

end Args

/-! ## Neighbours -/

namespace Args
variable {G : Args}

theorem right_lt (r : ℕ) : G.right r < G.A.PE_size := Nat.mod_lt _ G.A.size_pos

theorem right_inj {l l' : ℕ} (h : l < G.A.PE_size) (h' : l' < G.A.PE_size) (heq : G.right l = G.right l') : l = l' :=
  G.A.next_inj h h' heq

theorem exists_left {r : ℕ} (h : r < G.A.PE_size) : ∃ l < G.A.PE_size, G.right l = r :=
  G.A.exists_previous h

/-- the chunk received in stage k is the one sent in the next stage -/
theorem chunk_right {l k : ℕ} (hl : l < G.A.PE_size) (hk : k < 2 * G.A.PE_size) :
    G.chunk (G.right l) (k + 1) = G.chunk l k := by
  simp only [chunk, right]
  by_cases h : l + 1 < G.A.PE_size
  · rw [Nat.mod_eq_of_lt h]
    congr 1
    omega
  · have hl' : l + 1 = G.A.PE_size := by omega
    rw [hl', Nat.mod_self, show l + 2 * G.A.PE_size - k = 0 + 2 * G.A.PE_size - (k + 1) + G.A.PE_size by omega,
      Nat.add_mod_right]

/-- a chunk comes around every PE_size stages -/
theorem chunk_add (r : ℕ) {k : ℕ} (hk : k + G.A.PE_size ≤ 2 * G.A.PE_size) : G.chunk r (k + G.A.PE_size) = G.chunk r k := by
  rw [chunk, chunk, show r + 2 * G.A.PE_size - k = r + 2 * G.A.PE_size - (k + G.A.PE_size) + G.A.PE_size by omega,
    Nat.add_mod_right]

theorem chunk_lt_size (r k : ℕ) : G.chunk r k < G.A.PE_size := Nat.mod_lt _ G.A.size_pos

/-- the stages of one sender with the same chunk -/
theorem chunk_eq_iff {r k k' : ℕ} (hk : k < 2 * (G.A.PE_size - 1)) (hk' : k' < 2 * (G.A.PE_size - 1))
    (h : G.chunk r k = G.chunk r k') : k = k' ∨ k = k' + G.A.PE_size ∨ k' = k + G.A.PE_size := by
  have hn := G.A.size_pos
  -- the two numbers of stages are congruent
  have hmod : k ≡ k' [MOD G.A.PE_size] := by
    have h1 : (r + 2 * G.A.PE_size - k) + k = (r + 2 * G.A.PE_size - k') + k' := by omega
    have h2 : (r + 2 * G.A.PE_size - k) ≡ (r + 2 * G.A.PE_size - k') [MOD G.A.PE_size] := h
    exact Nat.ModEq.add_left_cancel h2 (by rw [h1])
  have hd1 := Nat.div_add_mod k G.A.PE_size
  have hd2 := Nat.div_add_mod k' G.A.PE_size
  have hq1 : k / G.A.PE_size < 2 := Nat.div_lt_of_lt_mul (by omega)
  have hq2 : k' / G.A.PE_size < 2 := Nat.div_lt_of_lt_mul (by omega)
  have heq : k % G.A.PE_size = k' % G.A.PE_size := hmod
  rw [heq] at hd1
  generalize k % G.A.PE_size = x at heq
  generalize k / G.A.PE_size = q at hd1 hq1
  generalize k' / G.A.PE_size = q' at hd2 hq2
  rcases (show q = 0 ∨ q = 1 by omega) with rfl | rfl <;> rcases (show q' = 0 ∨ q' = 1 by omega) with rfl | rfl <;> omega

/-! ## Order of the positions -/

theorem putPos_lt {k k' : ℕ} (h : k < k') : G.putPos k + 4 ≤ G.putPos k' := by
  unfold putPos
  split_ifs <;> omega

theorem putPos_reduce_lt {k k' : ℕ} (h : k < k') (hk : k < G.A.PE_size - 1) : G.putPos k + 5 ≤ G.putPos k' := by
  unfold putPos
  split_ifs <;> omega

theorem base_le_putPos (k : ℕ) : G.base ≤ G.putPos k := by
  unfold putPos
  split_ifs <;> omega

theorem putPos_inj {k k' b b' : ℕ} (hb : b < 4) (hb' : b' < 4) (h : G.putPos k + b = G.putPos k' + b') :
    k = k' ∧ b = b' := by
  have hk : k = k' := by
    rcases Nat.lt_trichotomy k k' with hlt | heq | hlt
    · have := putPos_lt (G := G) hlt
      omega
    · exact heq
    · have := putPos_lt (G := G) hlt
      omega
  subst hk
  exact ⟨rfl, by omega⟩

/-- stage i of the phase of word w, and where the word is cleared -/
def stage (G : Args) (w i : ℕ) : ℕ := if w = 0 then i else G.A.PE_size - 1 + i
def clearPos (G : Args) (w : ℕ) : ℕ := if w = 0 then G.clear0Pos else G.clear1Pos

/-- every stage is one of a phase -/
theorem exists_stage {k : ℕ} (hk : k < 2 * (G.A.PE_size - 1)) :
    ∃ i < G.A.PE_size - 1, k = G.stage (G.word k) i ∧ G.goal k = i + 1 ∧ G.word k < 2 := by
  unfold word goal stage
  by_cases h : k < G.A.PE_size - 1
  · exact ⟨k, h, by simp [h], by simp [h], by simp [h]⟩
  · refine ⟨k - (G.A.PE_size - 1), by omega, ?_, by simp [h], by simp [h]⟩
    simp only [h, if_false]
    simp
    omega

theorem stage_lt {w i : ℕ} (hi : i < G.A.PE_size - 1) : G.stage w i < 2 * (G.A.PE_size - 1) := by
  unfold stage
  split_ifs <;> omega

theorem stage_le {w i i' : ℕ} (h : i ≤ i') : G.stage w i ≤ G.stage w i' := by
  unfold stage
  split_ifs <;> omega

theorem word_stage {w i : ℕ} (hw : w < 2) (hi : i < G.A.PE_size - 1) : G.word (G.stage w i) = w := by
  unfold word stage
  split_ifs <;> omega

theorem stage_inj {w i i' : ℕ} (h : G.stage w i = G.stage w i') : i = i' := by
  unfold stage at h
  split_ifs at h <;> omega

theorem putPos_ne_clearPos {k b w : ℕ} (hk : k < 2 * (G.A.PE_size - 1)) (hb : b < 4) : G.putPos k + b ≠ G.clearPos w := by
  unfold clearPos putPos clear0Pos clear1Pos
  split_ifs <;> omega

theorem clearPos_inj {w w' : ℕ} (hn : 2 ≤ G.A.PE_size) (hw : w < 2) (hw' : w' < 2) (h : G.clearPos w = G.clearPos w') :
    w = w' := by
  unfold clearPos clear0Pos clear1Pos at h
  split_ifs at h <;> omega

/-- a word is cleared behind all stages of its phase -/
theorem stage_lt_clearPos {w i : ℕ} (hi : i < G.A.PE_size - 1) : G.putPos (G.stage w i) + 4 ≤ G.clearPos w := by
  unfold stage clearPos putPos clear0Pos clear1Pos
  split_ifs <;> omega

end Args

/-! ## Counters -/

/-- the members calling the reduction once -/
def machine {α : Type*} (G : Args) (op : α → α → α) : Machine α := once G.A.members op G.opToAllRing

section
variable {α : Type*} {G : Args} {op : α → α → α}

theorem prog_pe {r : ℕ} (hr : r < G.A.PE_size) (t : ℕ) :
    (machine G op).prog (G.A.pe r) t = (G.opToAllRing (G.A.pe r))[t]? := by
  simp [machine, once, G.A.pe_mem hr]

variable (hn : 2 ≤ G.A.PE_size) (hc : G.count ≠ 0)
include hn hc

theorem prog_cases {v t : ℕ} {ins : Instr} (h : (machine G op).prog v t = some ins) :
    ∃ r < G.A.PE_size, v = G.A.pe r ∧ G.CodeAt r t ins := by
  simp only [machine, once] at h
  split_ifs at h with hv
  obtain ⟨r, hr, rfl⟩ := G.A.mem_members.mp hv
  exact ⟨r, hr, rfl, Args.codeAt_of_getElem hn hc h⟩

theorem Args.getElem_zero (my_pe : ℕ) {w : ℕ} (hw : w < 2) :
    (G.opToAllRing my_pe)[G.clearPos w + 1]? = some (.waitUntil w .EQ 0) := by
  rcases (show w = 0 ∨ w = 1 by omega) with rfl | rfl
  · rw [Args.clearPos, if_pos rfl, Args.getElem_behind hn hc]
    rfl
  · have hlen : ((List.range (G.A.PE_size - 1)).flatMap (G.allgather my_pe)).length = (G.A.PE_size - 1) * 4 := by
      simp [List.length_flatMap, Args.allgather_length]
    have hpos : G.clear1Pos + 1 = G.clear0Pos + (3 + (G.A.PE_size - 1) * 4) := by
      simp only [Args.clear1Pos, Args.clear0Pos]
      omega
    rw [Args.clearPos, if_neg (by decide), hpos, Args.getElem_behind hn hc, List.getElem?_append_right (by simp; omega),
      List.getElem?_append_right (by simp [hlen]; omega), hlen]
    simp only [List.length_cons, List.length_nil]
    rw [show 3 + (G.A.PE_size - 1) * 4 - (0 + 1 + 1) - (G.A.PE_size - 1) * 4 = 1 by omega]
    rfl

theorem prog_put {r k : ℕ} (hr : r < G.A.PE_size) (hk : k < 2 * (G.A.PE_size - 1)) :
    (machine G op).prog (G.A.pe r) (G.putPos k) =
      some (.putNb (G.target + chunkDisp G.count G.A.PE_size (G.chunk r k))
        ((G.sendBuf k).elem (chunkDisp G.count G.A.PE_size (G.chunk r k)))
        (chunkCount G.count G.A.PE_size (G.chunk r k)) (G.A.pe (G.right r))) := by
  rw [prog_pe hr]
  exact Args.getElem_stage hn hc (b := 0) hk (by decide)

theorem prog_fence {r k : ℕ} (hr : r < G.A.PE_size) (hk : k < 2 * (G.A.PE_size - 1)) :
    (machine G op).prog (G.A.pe r) (G.putPos k + 1) = some .fence := by
  rw [prog_pe hr]
  exact Args.getElem_stage hn hc (b := 1) hk (by decide)

theorem prog_add {r k : ℕ} (hr : r < G.A.PE_size) (hk : k < 2 * (G.A.PE_size - 1)) :
    (machine G op).prog (G.A.pe r) (G.putPos k + 2) = some (.atomicAdd (G.word k) 1 (G.A.pe (G.right r))) := by
  rw [prog_pe hr]
  exact Args.getElem_stage hn hc (b := 2) hk (by decide)

variable {s : St α} (hh : (machine G op).Hist s)
include hh

/-- the data of earlier stages have arrived before the add of a stage -/
theorem add_after_puts {r k : ℕ} (hr : r < G.A.PE_size) (hk : k < 2 * (G.A.PE_size - 1))
    (h : s.done (G.A.pe r) (G.putPos k + 2) 0 = true) {k' : ℕ} (hk' : k' ≤ k) {j : ℕ}
    (hj : j < chunkCount G.count G.A.PE_size (G.chunk r k')) : s.done (G.A.pe r) (G.putPos k') j = true := by
  have hlt : G.putPos k' < G.putPos k + 1 := by
    rcases Nat.eq_or_lt_of_le hk' with rfl | hlt
    · omega
    · have := Args.putPos_lt (G := G) hlt
      omega
  have hp : (machine G op).prog _ _ = some _ := prog_put hn hc hr (show k' < 2 * (G.A.PE_size - 1) by omega)
  refine hh.fenced _ _ _ h (G.putPos k + 1) (by omega) (prog_fence hn hc hr hk) (G.putPos k') hlt ?_ j ?_
  · rw [destAt_eq _ hp, destAt_eq _ (prog_add hn hc hr hk)]
    rfl
  · rw [partsAt_eq _ hp]
    exact hj

/-- the adds arrive in order -/
theorem add_after_adds {r k : ℕ} (hr : r < G.A.PE_size) (hk : k < 2 * (G.A.PE_size - 1))
    (h : s.done (G.A.pe r) (G.putPos k + 2) 0 = true) {k' : ℕ} (hk' : k' ≤ k) :
    s.done (G.A.pe r) (G.putPos k' + 2) 0 = true := by
  rcases Nat.eq_or_lt_of_le hk' with rfl | hlt
  · exact h
  · have hpos := Args.putPos_lt (G := G) hlt
    have hp : (machine G op).prog _ _ = some _ := prog_add hn hc hr (show k' < 2 * (G.A.PE_size - 1) by omega)
    refine hh.fenced _ _ _ h (G.putPos k + 1) (by omega) (prog_fence hn hc hr hk) (G.putPos k' + 2) (by omega) ?_ 0 ?_
    · rw [destAt_eq _ hp, destAt_eq _ (prog_add hn hc hr hk)]
      rfl
    · rw [partsAt_eq _ hp]
      exact Nat.zero_lt_one

/-- the data of a stage arrive before those of a later one -/
theorem put_after_puts {r k k' j j' : ℕ} (hr : r < G.A.PE_size) (hk : k < 2 * (G.A.PE_size - 1))
    (h : s.done (G.A.pe r) (G.putPos k) j = true) (hk' : k' < k)
    (hj' : j' < chunkCount G.count G.A.PE_size (G.chunk r k')) : s.done (G.A.pe r) (G.putPos k') j' = true := by
  have hpos := Args.putPos_lt (G := G) hk'
  have hk2 : k' < 2 * (G.A.PE_size - 1) := by omega
  have hp : (machine G op).prog _ _ = some _ := prog_put hn hc hr hk2
  refine hh.fenced _ _ _ h (G.putPos k' + 1) (by omega) (prog_fence hn hc hr hk2) (G.putPos k') (by omega) ?_ j' ?_
  · rw [destAt_eq _ hp, destAt_eq _ (prog_put hn hc hr hk)]
    rfl
  · rw [partsAt_eq _ hp]
    exact hj'

end

/-- the stages of a phase whose adds have arrived from l -/
def arrived {α : Type*} (G : Args) (s : St α) (l w : ℕ) : Finset ℕ :=
  (Finset.range (G.A.PE_size - 1)).filter fun i => s.done (G.A.pe l) (G.putPos (G.stage w i) + 2) 0 = true

/-- the pSync words count the adds of their phase until they are cleared; waits and clears have done their work -/
structure Sync {α : Type*} (G : Args) (s : St α) : Prop where
  counts : ∀ l < G.A.PE_size, ∀ w < 2, s.cell (G.A.pe (G.right l)) w =
    if s.done (G.A.pe (G.right l)) (G.clearPos w) 0 = true then 0 else ((arrived G s l w).card : ℤ)
  waits : ∀ l < G.A.PE_size, ∀ k < 2 * (G.A.PE_size - 1), G.putPos k + 3 < s.pc (G.A.pe (G.right l)) →
    s.done (G.A.pe l) (G.putPos k + 2) 0 = true
  zeros : ∀ r < G.A.PE_size, ∀ w < 2, G.clearPos w + 1 < s.pc (G.A.pe r) →
    s.done (G.A.pe r) (G.clearPos w) 0 = true

section
variable {α : Type*} {G : Args} {op : α → α → α} (hn : 2 ≤ G.A.PE_size) (hc : G.count ≠ 0) {s : St α}
include hn hc

/-- who is past the wait of a stage got its add -/
theorem Sync.pass_wait (h : Sync G s) (hh : (machine G op).Hist s) {l k : ℕ} (hl : l < G.A.PE_size)
    (hk : k < 2 * (G.A.PE_size - 1)) (hpc : s.pc (G.A.pe (G.right l)) = G.putPos k + 3)
    (he : (G.goal k : ℤ) ≤ s.cell (G.A.pe (G.right l)) (G.word k)) : s.done (G.A.pe l) (G.putPos k + 2) 0 = true := by
  obtain ⟨i, hi, hki, hgoal, hw⟩ := Args.exists_stage hk
  have hclear : ¬ s.done (G.A.pe (G.right l)) (G.clearPos (G.word k)) 0 = true := by
    intro hd
    have hlt := (hh.doneIssued _ _ _ hd).1
    have := Args.stage_lt_clearPos (G := G) (w := G.word k) hi
    rw [← hki] at this
    omega
  rw [h.counts l hl _ hw, if_neg hclear, hgoal] at he
  -- more than i of them have arrived, so one from i on
  obtain ⟨i', hmem, hle⟩ : ∃ i' ∈ arrived G s l (G.word k), i ≤ i' := by
    by_contra hno
    push Not at hno
    have hsub : arrived G s l (G.word k) ⊆ Finset.range i := fun x hx => Finset.mem_range.mpr (hno x hx)
    have := Finset.card_le_card hsub
    rw [Finset.card_range] at this
    omega
  obtain ⟨hi', hd⟩ := Finset.mem_filter.mp hmem
  refine add_after_adds hn hc hh hl (Args.stage_lt (Finset.mem_range.mp hi')) hd ?_
  calc k = G.stage (G.word k) i := hki
    _ ≤ G.stage (G.word k) i' := Args.stage_le hle

omit hc in
/-- who sees its word zero again has cleared it -/
theorem Sync.pass_zero (h : Sync G s) {r w : ℕ} (hr : r < G.A.PE_size) (hw : w < 2)
    (hpc : s.pc (G.A.pe r) = G.clearPos w + 1) (he : s.cell (G.A.pe r) w = 0) :
    s.done (G.A.pe r) (G.clearPos w) 0 = true := by
  obtain ⟨l, hl, rfl⟩ := Args.exists_left hr
  by_contra hnd
  rw [h.counts l hl w hw, if_neg hnd] at he
  have h0 : 0 < G.A.PE_size - 1 := by omega
  have hpos := Args.stage_lt_clearPos (G := G) (w := w) h0
  have hd := h.waits l hl (G.stage w 0) (Args.stage_lt h0) (by omega)
  have hmem : 0 ∈ arrived G s l w := Finset.mem_filter.mpr ⟨Finset.mem_range.mpr h0, hd⟩
  have := Finset.card_pos.mpr ⟨0, hmem⟩
  omega

theorem Sync.exec (h : Sync G s) (hh : (machine G op).Hist s) {v : ℕ} {ins : Instr}
    (hp : (machine G op).prog v (s.pc v) = some ins) (he : (machine G op).Enabled s v ins) :
    Sync G (advance ((machine G op).effect s v ins) v) := by
  obtain ⟨r, hr, rfl, hat⟩ := prog_cases hn hc hp
  have hcell : ((machine G op).effect s (G.A.pe r) ins).cell = s.cell := by
    generalize s.pc (G.A.pe r) = t at hat
    cases hat <;> rfl
  refine ⟨?_, ?_, ?_⟩
  · intro l hl w hw
    rw [advance_cell, hcell, advance_done, effect_done]
    simp only [arrived, advance_done, effect_done]
    exact h.counts l hl w hw
  · intro l hl k hk hlt
    rw [advance_done, effect_done]
    by_cases hrl : G.right l = r
    · subst hrl
      rw [advance_pc_self, effect_pc] at hlt
      rcases Nat.lt_succ_iff_lt_or_eq.mp hlt with hlt | heq
      · exact h.waits l hl k hk hlt
      · have hw := Args.getElem_stage hn hc (r := G.right l) (b := 3) hk (by decide)
        rw [heq] at hw
        have hw := hp.symm.trans ((prog_pe hr _).trans hw)
        simp only [List.getElem?_cons_succ, List.getElem?_cons_zero, Option.some.injEq] at hw
        subst hw
        exact h.pass_wait hn hc hh hl hk heq.symm he
    · have hne : G.A.pe (G.right l) ≠ G.A.pe r := fun heq => hrl (G.A.pe_inj.mp heq)
      rw [advance_pc_other _ hne, effect_pc] at hlt
      exact h.waits l hl k hk hlt
  · intro q hq w hw hlt
    rw [advance_done, effect_done]
    by_cases hqr : q = r
    · subst hqr
      rw [advance_pc_self, effect_pc] at hlt
      rcases Nat.lt_succ_iff_lt_or_eq.mp hlt with hlt | heq
      · exact h.zeros q hq w hw hlt
      · refine h.pass_zero hn hq hw heq.symm ?_
        have hins : ins = .waitUntil w .EQ 0 := by
          have hlook := Args.getElem_zero hn hc (G.A.pe q) hw
          rw [heq] at hlook
          exact Option.some.inj (hp.symm.trans ((prog_pe hr _).trans hlook))
        subst hins
        exact he
    · have hne : G.A.pe q ≠ G.A.pe r := fun heq => hqr (G.A.pe_inj.mp heq)
      rw [advance_pc_other _ hne, effect_pc] at hlt
      exact h.zeros q hq w hw hlt

omit hn hc in
theorem mem_arrived {l w i : ℕ} :
    i ∈ arrived G s l w ↔ i < G.A.PE_size - 1 ∧ s.done (G.A.pe l) (G.putPos (G.stage w i) + 2) 0 = true := by
  simp [arrived]

omit hn hc in
/-- deliveries do not undo waits and clears -/
theorem Sync.of_counts (h : Sync G s) {s' : St α} (hlat : Later s s') (hpc : s'.pc = s.pc)
    (hcounts : ∀ l < G.A.PE_size, ∀ w < 2, s'.cell (G.A.pe (G.right l)) w =
      if s'.done (G.A.pe (G.right l)) (G.clearPos w) 0 = true then 0 else ((arrived G s' l w).card : ℤ)) : Sync G s' where
  counts := hcounts
  waits l hl k hk hlt := hlat.done _ _ _ (h.waits l hl k hk (by rwa [hpc] at hlt))
  zeros r hr w hw hlt := hlat.done _ _ _ (h.zeros r hr w hw (by rwa [hpc] at hlt))

omit hn hc in
/-- data arrive: the counters stay -/
theorem Sync.deliver_put (h : Sync G s) {r k j : ℕ} {s' : St α} (hk : k < 2 * (G.A.PE_size - 1)) (hlat : Later s s')
    (hpc : s'.pc = s.pc) (hcell : s'.cell = s.cell)
    (hdone : ∀ v t x, s'.done v t x = true ↔ (v = G.A.pe r ∧ t = G.putPos k ∧ x = j) ∨ s.done v t x = true) :
    Sync G s' := by
  refine h.of_counts hlat hpc fun l hl w hw => ?_
  have harr : arrived G s' l w = arrived G s l w := by
    ext i
    rw [mem_arrived, mem_arrived, hdone]
    refine and_congr_right fun _ => ⟨?_, Or.inr⟩
    rintro (⟨-, hpos, -⟩ | hd)
    · have := Args.putPos_inj (G := G) (b := 2) (by decide) (show 0 < 4 by decide) hpos
      omega
    · exact hd
  have hclear : s'.done (G.A.pe (G.right l)) (G.clearPos w) 0 = s.done (G.A.pe (G.right l)) (G.clearPos w) 0 := by
    have hne := Args.putPos_ne_clearPos (G := G) (b := 0) (w := w) hk (by decide)
    rw [Bool.eq_iff_iff, hdone]
    simp only [Nat.add_zero] at hne
    simp [Ne.symm hne]
  rw [hcell, hclear, harr]
  exact h.counts l hl w hw

omit hn hc in
/-- the add of stage k arrives at the right neighbour -/
theorem Sync.deliver_add (h : Sync G s) (hh : (machine G op).Hist s) {l k : ℕ} {s' : St α} (hl : l < G.A.PE_size)
    (hk : k < 2 * (G.A.PE_size - 1)) (hnd : s.done (G.A.pe l) (G.putPos k + 2) 0 = false) (hlat : Later s s')
    (hpc : s'.pc = s.pc)
    (hcell : s'.cell = setCell s.cell (G.A.pe (G.right l)) (G.word k) (s.cell (G.A.pe (G.right l)) (G.word k) + 1))
    (hdone : ∀ v t x, s'.done v t x = true ↔ (v = G.A.pe l ∧ t = G.putPos k + 2 ∧ x = 0) ∨ s.done v t x = true) :
    Sync G s' := by
  refine h.of_counts hlat hpc fun l' hl' w' hw' => ?_
  obtain ⟨i, hi, hki, -, hw⟩ := Args.exists_stage hk
  have hclear : s'.done (G.A.pe (G.right l')) (G.clearPos w') 0 = s.done (G.A.pe (G.right l')) (G.clearPos w') 0 := by
    have hne := Args.putPos_ne_clearPos (G := G) (b := 2) (w := w') hk (by decide)
    rw [Bool.eq_iff_iff, hdone]
    simp [Ne.symm hne]
  rw [hclear, hcell, setCell_apply]
  by_cases heq : l' = l ∧ w' = G.word k
  · obtain ⟨rfl, rfl⟩ := heq
    -- the word is not cleared before all adds of its phase have arrived
    have hnc : ¬ s.done (G.A.pe (G.right l')) (G.clearPos (G.word k)) 0 = true := by
      intro hd
      have hlt := (hh.doneIssued _ _ _ hd).1
      have hpos := Args.stage_lt_clearPos (G := G) (w := G.word k) hi
      rw [← hki] at hpos
      have := h.waits l' hl k hk (by omega)
      rw [this] at hnd
      exact absurd hnd (by decide)
    have hins : arrived G s' l' (G.word k) = insert i (arrived G s l' (G.word k)) := by
      ext x
      rw [Finset.mem_insert, mem_arrived, mem_arrived, hdone]
      constructor
      · rintro ⟨hx, ⟨-, hpos, -⟩ | hd⟩
        · have hst := (Args.putPos_inj (G := G) (by decide) (by decide) hpos).1
          exact Or.inl (Args.stage_inj (hst.trans hki))
        · exact Or.inr ⟨hx, hd⟩
      · rintro (rfl | ⟨hx, hd⟩)
        · exact ⟨hi, Or.inl ⟨rfl, by rw [← hki], rfl⟩⟩
        · exact ⟨hx, Or.inr hd⟩
    have hnot : i ∉ arrived G s l' (G.word k) := by
      rw [mem_arrived, ← hki, hnd]
      simp
    have hcount := h.counts l' hl _ hw
    rw [if_neg hnc] at hcount
    rw [if_neg hnc, if_pos ⟨rfl, rfl⟩, hins, Finset.card_insert_of_notMem hnot, hcount]
    push_cast
    rfl
  · have hne : ¬ (G.A.pe (G.right l') = G.A.pe (G.right l) ∧ w' = G.word k) := by
      rintro ⟨h1, h2⟩
      exact heq ⟨Args.right_inj hl' hl (G.A.pe_inj.mp h1), h2⟩
    have harr : arrived G s' l' w' = arrived G s l' w' := by
      ext x
      rw [mem_arrived, mem_arrived, hdone]
      refine and_congr_right fun hx => ⟨?_, Or.inr⟩
      rintro (⟨hv, hpos, -⟩ | hd)
      · have hst := (Args.putPos_inj (G := G) (by decide) (by decide) hpos).1
        exact absurd ⟨G.A.pe_inj.mp hv, by rw [← hst, Args.word_stage hw' hx]⟩ heq
      · exact hd
    rw [if_neg hne, harr]
    exact h.counts l' hl' w' hw'

omit hc in
/-- a clear arrives -/
theorem Sync.deliver_clear (h : Sync G s) {r w : ℕ} {s' : St α} (hw : w < 2) (hlat : Later s s')
    (hpc : s'.pc = s.pc) (hcell : s'.cell = setCell s.cell (G.A.pe r) w 0)
    (hdone : ∀ v t x, s'.done v t x = true ↔ (v = G.A.pe r ∧ t = G.clearPos w ∧ x = 0) ∨ s.done v t x = true) :
    Sync G s' := by
  refine h.of_counts hlat hpc fun l hl w' hw' => ?_
  have harr : arrived G s' l w' = arrived G s l w' := by
    ext x
    rw [mem_arrived, mem_arrived, hdone]
    refine and_congr_right fun hx => ⟨?_, Or.inr⟩
    rintro (⟨-, hpos, -⟩ | hd)
    · exact absurd hpos (Args.putPos_ne_clearPos (Args.stage_lt hx) (by decide))
    · exact hd
  rw [hcell, setCell_apply, harr]
  by_cases heq : G.A.pe (G.right l) = G.A.pe r ∧ w' = w
  · obtain ⟨h1, rfl⟩ := heq
    rw [if_pos ⟨h1, rfl⟩, if_pos ((hdone _ _ _).mpr (Or.inl ⟨h1, rfl, rfl⟩))]
  · have hsame : s'.done (G.A.pe (G.right l)) (G.clearPos w') 0 = s.done (G.A.pe (G.right l)) (G.clearPos w') 0 := by
      rw [Bool.eq_iff_iff, hdone]
      refine ⟨?_, Or.inr⟩
      rintro (⟨h1, h2, -⟩ | hd)
      · exact absurd ⟨h1, Args.clearPos_inj hn hw' hw h2⟩ heq
      · exact hd
    rw [if_neg heq, hsame]
    exact h.counts l hl w' hw'

theorem Sync.deliver (h : Sync G s) (hh : (machine G op).Hist s) {v t j : ℕ} {ins : Instr}
    (hp : (machine G op).prog v t = some ins) (hd : (machine G op).Deliverable s v t j) :
    Sync G (mark ((machine G op).arrive s v t j ins) v t j) := by
  have hlat := (machine G op).later_deliver s v t j ins
  have hpc : (mark ((machine G op).arrive s v t j ins) v t j).pc = s.pc := by simp
  have hdone : ∀ v' t' x, (mark ((machine G op).arrive s v t j ins) v t j).done v' t' x = true ↔
      (v' = v ∧ t' = t ∧ x = j) ∨ s.done v' t' x = true := by
    intro v' t' x
    rw [mark_done, arrive_done]
  obtain ⟨-, hj, hnd, -, -⟩ := hd
  rw [partsAt_eq _ hp] at hj
  obtain ⟨r, hr, rfl, hat⟩ := prog_cases hn hc hp
  cases hat with
  | put k hk =>
    refine h.deliver_put hk hlat hpc ?_ hdone
    simp only [mark_cell, arrive]
    split <;> rfl
  | add k hk =>
    obtain rfl : j = 0 := by simp only [Instr.parts] at hj; omega
    exact h.deliver_add hh hr hk hnd hlat hpc rfl hdone
  | clear0 =>
    obtain rfl : j = 0 := by simp only [Instr.parts] at hj; omega
    exact h.deliver_clear hn (w := 0) (by decide) hlat hpc rfl hdone
  | clear1 =>
    obtain rfl : j = 0 := by simp only [Instr.parts] at hj; omega
    exact h.deliver_clear hn (w := 1) (by decide) hlat hpc rfl hdone
  | _ => exact absurd hj (by simp [Instr.parts])

/-! ## Who is where -/

omit hn hc in
/-- going left from a member past the wait of stage k, the stages go down by at most one a step -/
theorem Sync.behind (h : Sync G s) (hh : (machine G op).Hist s) (j : ℕ) :
    ∀ l < G.A.PE_size, ∀ k < 2 * (G.A.PE_size - 1), G.putPos k + 3 < s.pc (G.A.pe (G.right l)) → j ≤ k →
      ∀ x < G.A.PE_size, (x + j) % G.A.PE_size = l → s.done (G.A.pe x) (G.putPos (k - j) + 2) 0 = true := by
  induction j with
  | zero =>
    intro l hl k hk hpc _ x hx hxl
    rw [Nat.add_zero, Nat.mod_eq_of_lt hx] at hxl
    subst hxl
    exact h.waits x hx k hk hpc
  | succ j ih =>
    intro l hl k hk hpc hj x hx hxl
    have hr : (G.right x + j) % G.A.PE_size = l := by
      rw [← hxl, Args.right, Nat.mod_add_mod]
      congr 1
      omega
    have hd := ih l hl k hk hpc (by omega) (G.right x) (Args.right_lt x) hr
    have hlt := (hh.doneIssued _ _ _ hd).1
    have hpos := Args.putPos_lt (G := G) (show k - (j + 1) < k - j by omega)
    exact h.waits x hx _ (by omega) (by omega)

omit hc in
/-- when the left neighbour starts to send a chunk for the second time, it has been passed on -/
theorem Sync.forwarded (h : Sync G s) (hh : (machine G op).Hist s) {l k : ℕ} (hl : l < G.A.PE_size)
    (hk : k + G.A.PE_size < 2 * (G.A.PE_size - 1)) (hpc : G.putPos (k + G.A.PE_size) < s.pc (G.A.pe l)) :
    s.done (G.A.pe (G.right l)) (G.putPos (k + 1) + 2) 0 = true := by
  obtain ⟨y, hy, hyl⟩ := Args.exists_left hl
  have hpos := Args.putPos_lt (G := G) (show k + G.A.PE_size - 1 < k + G.A.PE_size by omega)
  -- PE_size - 2 steps to the left of y is the right neighbour of l
  have hx : (G.right l + (G.A.PE_size - 2)) % G.A.PE_size = y := by
    rw [← hyl, Args.right, Args.right, Nat.mod_add_mod, Nat.add_assoc, Nat.mod_add_mod,
      show y + 1 + (1 + (G.A.PE_size - 2)) = y + G.A.PE_size by omega, Nat.add_mod_right, Nat.mod_eq_of_lt hy]
  have := h.behind hh (G.A.PE_size - 2) y hy (k + G.A.PE_size - 1) (by omega) (by rw [hyl]; omega) (by omega)
    (G.right l) (Args.right_lt l) hx
  rwa [show k + G.A.PE_size - 1 - (G.A.PE_size - 2) = k + 1 by omega] at this

end

/-! ## Data -/

/-- the values of ranks c, c + 1, …, c + d (mod n), combined from the left -/
def part {α : Type*} (op : α → α → α) (f : ℕ → α) (n c : ℕ) : ℕ → α
  | 0 => f c
  | d + 1 => op (part op f n c d) (f ((c + d + 1) % n))

/-- element j of chunk c after d members have been reduced into the first one's -/
def val {α : Type*} (G : Args) (op : α → α → α) (m0 : ℕ → Loc → α) (c j d : ℕ) : α :=
  part op (fun q => m0 (G.A.pe q) (.sym (G.source + (chunkDisp G.count G.A.PE_size c + j)))) G.A.PE_size c d

/-- element j of chunk c in the target -/
def cellOf (G : Args) (c j : ℕ) : Loc := (Loc.sym G.target).elem (chunkDisp G.count G.A.PE_size c + j)

/-- what sources, buffers in flight and targets hold -/
structure Data {α : Type*} (G : Args) (op : α → α → α) (m0 : ℕ → Loc → α) (s : St α) : Prop where
  /-- the source, or its copy -/
  src : ∀ r < G.A.PE_size, (G.target = G.source → 0 < s.pc (G.A.pe r)) → ∀ e < G.count,
    s.mem (G.A.pe r) (G.sourceBuf.elem e) = m0 (G.A.pe r) (.sym (G.source + e))
  /-- the target of an in-place reduction before it is copied -/
  pre : G.target = G.source → ∀ r < G.A.PE_size, s.pc (G.A.pe r) = 0 → ∀ e < G.count,
    s.mem (G.A.pe r) (.sym (G.source + e)) = m0 (G.A.pe r) (.sym (G.source + e))
  cap : ∀ r < G.A.PE_size, ∀ k < 2 * (G.A.PE_size - 1), ∀ j v, s.cap (G.A.pe r) (G.putPos k) j = some v →
    v = val G op m0 (G.chunk r k) j (min k (G.A.PE_size - 1))
  /-- a chunk of the reduce-scatter has arrived and is not reduced yet -/
  got : ∀ l < G.A.PE_size, ∀ k < G.A.PE_size - 1, ∀ j < chunkCount G.count G.A.PE_size (G.chunk l k),
    s.done (G.A.pe l) (G.putPos k) j = true → s.pc (G.A.pe (G.right l)) ≤ G.putPos k + 4 →
      s.mem (G.A.pe (G.right l)) (cellOf G (G.chunk l k) j) = val G op m0 (G.chunk l k) j k
  /-- it is reduced, and has not come back in the allgather -/
  reduced : ∀ l < G.A.PE_size, ∀ k < G.A.PE_size - 1, ∀ j < chunkCount G.count G.A.PE_size (G.chunk l k),
    G.putPos k + 4 < s.pc (G.A.pe (G.right l)) →
    (k + G.A.PE_size < 2 * (G.A.PE_size - 1) → s.done (G.A.pe l) (G.putPos (k + G.A.PE_size)) j = false) →
      s.mem (G.A.pe (G.right l)) (cellOf G (G.chunk l k) j) = val G op m0 (G.chunk l k) j (k + 1)
  /-- a chunk of the allgather has arrived -/
  final : ∀ l < G.A.PE_size, ∀ k, G.A.PE_size - 1 ≤ k → k < 2 * (G.A.PE_size - 1) →
    ∀ j < chunkCount G.count G.A.PE_size (G.chunk l k), s.done (G.A.pe l) (G.putPos k) j = true →
      s.mem (G.A.pe (G.right l)) (cellOf G (G.chunk l k) j) = val G op m0 (G.chunk l k) j (G.A.PE_size - 1)

section
variable {α : Type*} {G : Args} {op : α → α → α} {m0 : ℕ → Loc → α} {s : St α}

theorem sourceBuf_ne (hsep : G.Separate) {e e' : ℕ} (he : e < G.count) (he' : e' < G.count) :
    G.sourceBuf.elem e ≠ (Loc.sym G.target).elem e' := by
  unfold Args.sourceBuf
  split_ifs with h
  · simp [Loc.elem]
  · rcases hsep with h' | h' | h'
    · exact absurd h' h
    · simp only [Loc.elem, ne_eq, Loc.sym.injEq]; omega
    · simp only [Loc.elem, ne_eq, Loc.sym.injEq]; omega

theorem cellOf_inj {c c' j j' : ℕ} (hj : j < chunkCount G.count G.A.PE_size c)
    (hj' : j' < chunkCount G.count G.A.PE_size c') (h : cellOf G c j = cellOf G c' j') : c = c' ∧ j = j' :=
  chunk_inj hj hj' (Loc.elem_inj.mp h)

/-- a cell that two stages write belongs to one receiver, and the stages are one round apart -/
theorem cell_stages {l l' k k' j j' : ℕ} (hl : l < G.A.PE_size) (hl' : l' < G.A.PE_size)
    (hk : k < 2 * (G.A.PE_size - 1)) (hk' : k' < 2 * (G.A.PE_size - 1))
    (hj : j < chunkCount G.count G.A.PE_size (G.chunk l k)) (hj' : j' < chunkCount G.count G.A.PE_size (G.chunk l' k'))
    (hpe : G.A.pe (G.right l') = G.A.pe (G.right l)) (hcell : cellOf G (G.chunk l' k') j' = cellOf G (G.chunk l k) j) :
    l' = l ∧ (k' = k ∨ k = k' + G.A.PE_size ∨ k' = k + G.A.PE_size) ∧ j' = j := by
  have hll := Args.right_inj hl' hl (G.A.pe_inj.mp hpe)
  subst hll
  obtain ⟨hcc, hjj⟩ := cellOf_inj hj' hj hcell
  refine ⟨rfl, ?_, hjj⟩
  rcases Args.chunk_eq_iff hk' hk hcc with h | h | h
  · exact Or.inl h
  · exact Or.inr (Or.inr h)
  · exact Or.inr (Or.inl h)

variable (hn : 2 ≤ G.A.PE_size) (hc : G.count ≠ 0)
include hn hc

/-- who sends in an in-place reduction is past the barrier, so everybody has copied its source -/
theorem copied (hin : G.target = G.source) (hh : (machine G op).Hist s) {l q t : ℕ} (hl : l < G.A.PE_size)
    (hq : q < G.A.PE_size) (ht : 2 ≤ t) (hpc : t < s.pc (G.A.pe l)) : 0 < s.pc (G.A.pe q) := by
  have hb : ∀ x < 3, (machine G op).prog (G.A.pe l) x = G.inPlace[x]? := by
    intro x hx
    rw [prog_pe hl, Args.opToAllRing_eq hn hc, List.getElem?_append_left (by simp [Args.inPlace_length, Args.base, hin]; omega)]
  have hin3 : G.inPlace = [.memcpy (.priv 0) (.sym G.target) G.count, .barIn, .barOut] := by simp [Args.inPlace, hin]
  have hout : (machine G op).prog (G.A.pe l) 2 = some .barOut := by rw [hb 2 (by decide), hin3]; rfl
  have hle := hh.barred _ 2 hout (by omega) (G.A.pe q) (G.A.pe_mem hq)
  have harr : 1 ≤ (machine G op).arrivals (G.A.pe l) 2 := by
    have h1 : (machine G op).prog (G.A.pe l) 1 = some .barIn := by rw [hb 1 (by decide), hin3]; rfl
    have hmem : 1 ∈ (List.range 2).filter fun k => (machine G op).prog (G.A.pe l) k = some .barIn := by
      simp [h1]
    exact List.length_pos_of_mem hmem
  by_contra h0
  have hzero : s.pc (G.A.pe q) = 0 := by omega
  have : (machine G op).arrivals (G.A.pe q) 0 = 0 := rfl
  rw [hzero] at hle
  omega

/-- data arrive -/
theorem Data.deliver_put (hsep : G.Separate) (h : Data G op m0 s) (hs : Sync G s) (hh : (machine G op).Hist s)
    {l k j : ℕ} {v : α} {s' : St α} (hl : l < G.A.PE_size) (hk : k < 2 * (G.A.PE_size - 1))
    (hj : j < chunkCount G.count G.A.PE_size (G.chunk l k)) (hpc : G.putPos k < s.pc (G.A.pe l))
    (hnd : s.done (G.A.pe l) (G.putPos k) j = false) (hv : s.cap (G.A.pe l) (G.putPos k) j = some v)
    (hpc' : s'.pc = s.pc) (hcap' : s'.cap = s.cap)
    (hmem' : s'.mem = setLoc s.mem (G.A.pe (G.right l)) (cellOf G (G.chunk l k) j) v)
    (hdone : ∀ v t x, s'.done v t x = true ↔ (v = G.A.pe l ∧ t = G.putPos k ∧ x = j) ∨ s.done v t x = true) :
    Data G op m0 s' := by
  have hval := h.cap l hl k hk j v hv
  -- another element is not touched
  have hother : ∀ l' < G.A.PE_size, ∀ k' < 2 * (G.A.PE_size - 1), ∀ j' < chunkCount G.count G.A.PE_size (G.chunk l' k'),
      ¬ (l' = l ∧ (k' = k ∨ k = k' + G.A.PE_size ∨ k' = k + G.A.PE_size) ∧ j' = j) →
      s'.mem (G.A.pe (G.right l')) (cellOf G (G.chunk l' k') j') = s.mem (G.A.pe (G.right l')) (cellOf G (G.chunk l' k') j') := by
    intro l' hl' k' hk' j' hj' hne
    rw [hmem', setLoc_apply, if_neg]
    rintro ⟨h1, h2⟩
    exact hne (cell_stages hl hl' hk hk' hj hj' h1 h2)
  have hold : ∀ l' k' j', ¬ (l' = l ∧ (k' = k ∨ k = k' + G.A.PE_size ∨ k' = k + G.A.PE_size) ∧ j' = j) →
      s'.done (G.A.pe l') (G.putPos k') j' = true → s.done (G.A.pe l') (G.putPos k') j' = true := by
    intro l' k' j' hne hd
    rcases (hdone _ _ _).mp hd with ⟨h1, h2, h3⟩ | hd
    · have := (Args.putPos_inj (G := G) (b := 0) (by decide) (show 0 < 4 by decide) h2).1
      exact absurd ⟨G.A.pe_inj.mp h1, Or.inl this, h3⟩ hne
    · exact hd
  have hself : s'.mem (G.A.pe (G.right l)) (cellOf G (G.chunk l k) j) = v := by
    rw [hmem', setLoc_apply, if_pos ⟨rfl, rfl⟩]
  have hin : chunkDisp G.count G.A.PE_size (G.chunk l k) + j < G.count := chunk_lt (Args.chunk_lt_size l k) hj
  -- a chunk that comes for the second time has been reduced and passed on
  have hpassed : ∀ k', k = k' + G.A.PE_size → G.putPos k' + 4 < s.pc (G.A.pe (G.right l)) := by
    intro k' hk'
    subst hk'
    have hlt := (hh.doneIssued _ _ _ (hs.forwarded hn hh hl hk hpc)).1
    have := Args.putPos_reduce_lt (G := G) (show k' < k' + 1 by omega) (by omega)
    omega
  refine ⟨?_, ?_, ?_, ?_, ?_, ?_⟩
  · intro r hr hpos e he
    rw [hpc'] at hpos
    rw [hmem', setLoc_apply, if_neg (fun heq => sourceBuf_ne hsep he hin heq.2)]
    exact h.src r hr hpos e he
  · intro htgt r hr h0 e he
    rw [hpc'] at h0
    have hbase : G.base = 3 := by simp [Args.base, htgt]
    have := Args.base_le_putPos (G := G) k
    have := copied hn hc htgt hh hl hr (show 2 ≤ G.putPos k by omega) hpc
    omega
  · rw [hcap']
    exact h.cap
  · intro l' hl' k' hk' j' hj' hd hle
    rw [hpc'] at hle
    by_cases hsame : l' = l ∧ (k' = k ∨ k = k' + G.A.PE_size ∨ k' = k + G.A.PE_size) ∧ j' = j
    · obtain ⟨rfl, rfl | hk2 | hk2, rfl⟩ := hsame
      · rw [hself, hval, Nat.min_eq_left (by omega)]
      · have := hpassed k' hk2
        omega
      · omega
    · have hd' := hold l' k' j' hsame hd
      rw [hother l' hl' k' (by omega) j' hj' hsame]
      exact h.got l' hl' k' hk' j' hj' hd' hle
  · intro l' hl' k' hk' j' hj' hlt hnot
    rw [hpc'] at hlt
    by_cases hsame : l' = l ∧ (k' = k ∨ k = k' + G.A.PE_size ∨ k' = k + G.A.PE_size) ∧ j' = j
    · obtain ⟨rfl, rfl | hk2 | hk2, rfl⟩ := hsame
      · -- a reduced chunk had arrived
        have hadd := hs.waits l' hl k' hk (by omega)
        rw [add_after_puts hn hc hh hl hk hadd (le_refl k') hj] at hnd
        exact absurd hnd (by decide)
      · have hfalse := hnot (by omega)
        rw [← hk2] at hfalse
        rw [(hdone _ _ _).mpr (Or.inl ⟨rfl, rfl, rfl⟩)] at hfalse
        exact absurd hfalse (by decide)
      · omega
    · rw [hother l' hl' k' (by omega) j' hj' hsame]
      refine h.reduced l' hl' k' hk' j' hj' hlt fun hk2 => ?_
      cases hd : s.done (G.A.pe l') (G.putPos (k' + G.A.PE_size)) j' with
      | false => rfl
      | true =>
        have hfalse := hnot hk2
        rw [(hdone _ _ _).mpr (Or.inr hd)] at hfalse
        exact absurd hfalse (by decide)
  · intro l' hl' k' hge hk' j' hj' hd
    by_cases hsame : l' = l ∧ (k' = k ∨ k = k' + G.A.PE_size ∨ k' = k + G.A.PE_size) ∧ j' = j
    · obtain ⟨rfl, rfl | hk2 | hk2, rfl⟩ := hsame
      · rw [hself, hval, Nat.min_eq_right hge]
      · omega
      · -- the chunk cannot come for the second time before the first
        have hd' : s.done (G.A.pe l') (G.putPos k') j' = true := by
          rcases (hdone _ _ _).mp hd with ⟨-, h2, -⟩ | hd
          · have := (Args.putPos_inj (G := G) (b := 0) (by decide) (show 0 < 4 by decide) h2).1
            omega
          · exact hd
        rw [put_after_puts hn hc hh hl hk' hd' (by omega) hj] at hnd
        exact absurd hnd (by decide)
    · have hd' := hold l' k' j' hsame hd
      rw [hother l' hl' k' hk' j' hj' hsame]
      exact h.final l' hl' k' hge hk' j' hj' hd'

omit hn hc in
/-- a delivery that is not of data -/
theorem Data.deliver_sync (h : Data G op m0 s) {s' : St α} (hpc : s'.pc = s.pc) (hcap : s'.cap = s.cap)
    (hmem : s'.mem = s.mem)
    (hdone : ∀ l, ∀ k < 2 * (G.A.PE_size - 1), ∀ j,
      s'.done (G.A.pe l) (G.putPos k) j = s.done (G.A.pe l) (G.putPos k) j) : Data G op m0 s' := by
  refine ⟨?_, ?_, ?_, ?_, ?_, ?_⟩
  · rw [hpc, hmem]; exact h.src
  · rw [hpc, hmem]; exact h.pre
  · rw [hcap]; exact h.cap
  · intro l hl k hk j hj hd
    rw [hdone l k (by omega)] at hd
    rw [hpc, hmem]
    exact h.got l hl k hk j hj hd
  · intro l hl k hk j hj hlt hnot
    rw [hpc] at hlt
    rw [hmem]
    refine h.reduced l hl k hk j hj hlt fun hk2 => ?_
    rw [← hdone l _ hk2]
    exact hnot hk2
  · intro l hl k hge hk j hj hd
    rw [hdone l k hk] at hd
    rw [hmem]
    exact h.final l hl k hge hk j hj hd

/-- the buffer of a put is read -/
theorem Data.capture (h : Data G op m0 s) (hs : Sync G s) (hh : (machine G op).Hist s) {r k j : ℕ}
    (hr : r < G.A.PE_size) (hk : k < 2 * (G.A.PE_size - 1)) (hj : j < chunkCount G.count G.A.PE_size (G.chunk r k))
    (hpc : G.putPos k < s.pc (G.A.pe r)) (hnone : s.cap (G.A.pe r) (G.putPos k) j = none) :
    s.mem (G.A.pe r) ((G.sendBuf k).elem (chunkDisp G.count G.A.PE_size (G.chunk r k) + j)) =
      val G op m0 (G.chunk r k) j (min k (G.A.PE_size - 1)) := by
  rcases Nat.eq_zero_or_pos k with rfl | hpos
  · have hr0 : G.chunk r 0 = r := by
      rw [Args.chunk, Nat.sub_zero, show r + 2 * G.A.PE_size = r + G.A.PE_size + G.A.PE_size by omega,
        Nat.add_mod_right, Nat.add_mod_right, Nat.mod_eq_of_lt hr]
    rw [Args.sendBuf, if_pos rfl, h.src r hr (fun _ => by omega) _ (chunk_lt (Args.chunk_lt_size r 0) hj), hr0]
    rfl
  · obtain ⟨k, rfl⟩ : ∃ m, k = m + 1 := ⟨k - 1, by omega⟩
    obtain ⟨l, hl, rfl⟩ := Args.exists_left hr
    have hchunk := Args.chunk_right (G := G) hl (show k < 2 * G.A.PE_size by omega)
    rw [Args.sendBuf, if_neg (by omega)]
    rw [hchunk] at hj ⊢
    by_cases hlow : k < G.A.PE_size - 1
    · rw [Nat.min_eq_left (by omega)]
      have hlt := Args.putPos_reduce_lt (G := G) (show k < k + 1 by omega) hlow
      refine h.reduced l hl k hlow j hj (by omega) fun hk2 => ?_
      -- the left neighbour would have waited for this very put
      cases hd : s.done (G.A.pe l) (G.putPos (k + G.A.PE_size)) j with
      | false => rfl
      | true =>
        have hadd := hs.forwarded hn hh hl hk2 (hh.doneIssued _ _ _ hd).1
        have hput := add_after_puts hn hc hh (Args.right_lt l) (by omega) hadd (le_refl _) (by rw [hchunk]; exact hj)
        have hp : (machine G op).prog _ _ = some _ := prog_put hn hc (Args.right_lt l) hk
        have := hh.doneCap _ _ _ hput (by rw [readsAt_eq _ hp]; simp only [Instr.reads]; rw [hchunk]; exact hj)
        rw [hnone] at this
        exact absurd this (by simp)
    · rw [Nat.min_eq_right (by omega)]
      have hlt := Args.putPos_lt (G := G) (show k < k + 1 by omega)
      have hadd := hs.waits l hl k (by omega) (by omega)
      exact h.final l hl k (by omega) (by omega) j hj (add_after_puts hn hc hh hl (by omega) hadd (le_refl k) hj)

omit hn hc in
/-- an instruction that leaves the memory alone -/
theorem Data.advance (h : Data G op m0 s) {r : ℕ} (hcopy : G.target = G.source → s.pc (G.A.pe r) ≠ 0)
    (hred : ∀ k < G.A.PE_size - 1, s.pc (G.A.pe r) ≠ G.putPos k + 4) : Data G op m0 (advance s (G.A.pe r)) := by
  have hle : ∀ q, s.pc q ≤ (Machine.advance s (G.A.pe r)).pc q := by
    intro q
    by_cases hq : q = G.A.pe r
    · subst hq; simp
    · rw [advance_pc_other _ hq]
  refine ⟨?_, ?_, h.cap, ?_, ?_, h.final⟩
  · intro q hq hpos e he
    refine h.src q hq (fun htgt => ?_) e he
    by_cases hqr : q = r
    · subst hqr
      have := hcopy htgt
      omega
    · have hne : G.A.pe q ≠ G.A.pe r := fun heq => hqr (G.A.pe_inj.mp heq)
      have := hpos htgt
      rwa [advance_pc_other _ hne] at this
  · intro htgt q hq h0 e he
    have := hle (G.A.pe q)
    exact h.pre htgt q hq (by omega) e he
  · intro l hl k hk j hj hd hpc
    exact h.got l hl k hk j hj hd (le_trans (hle _) hpc)
  · intro l hl k hk j hj hlt hnot
    refine h.reduced l hl k hk j hj ?_ hnot
    by_cases hqr : G.right l = r
    · subst hqr
      rw [advance_pc_self] at hlt
      have := hred k hk
      omega
    · have hne : G.A.pe (G.right l) ≠ G.A.pe r := fun heq => hqr (G.A.pe_inj.mp heq)
      rwa [advance_pc_other _ hne] at hlt

omit hn hc in
/-- the copy of the source of an in-place reduction -/
theorem Data.copy (h : Data G op m0 s) (htgt : G.target = G.source) {r : ℕ} (hpc : s.pc (G.A.pe r) = 0)
    {f : ℕ → Loc → α}
    (hf : f = setBuf s.mem (G.A.pe r) (.priv 0) G.count fun j => s.mem (G.A.pe r) ((Loc.sym G.target).elem j)) :
    Data G op m0 (Machine.advance { s with mem := f } (G.A.pe r)) := by
  have hbuf : G.sourceBuf = .priv 0 := by simp [Args.sourceBuf, htgt]
  -- symmetric memory is not touched
  have hsym : ∀ q a, f q (.sym a) = s.mem q (.sym a) := by
    intro q a
    rw [hf]
    by_cases hq : q = G.A.pe r
    · subst hq
      exact setBuf_outside _ _ _ _ _ _ fun j _ => by simp [Loc.elem]
    · exact setBuf_other _ _ _ _ _ hq _
  have hbase : G.base = 3 := by simp [Args.base, htgt]
  refine ⟨?_, ?_, h.cap, ?_, ?_, ?_⟩
  · intro q hq hpos e he
    rw [advance_mem, hbuf]
    by_cases hqr : q = r
    · subst hqr
      dsimp only
      rw [hf, setBuf_elem _ _ _ _ he, htgt]
      exact h.pre htgt q hq hpc e he
    · have hne : G.A.pe q ≠ G.A.pe r := fun heq => hqr (G.A.pe_inj.mp heq)
      rw [advance_pc_other _ hne] at hpos
      dsimp only
      rw [hf, setBuf_other _ _ _ _ _ hne, ← hbuf]
      exact h.src q hq hpos e he
  · intro _ q hq h0 e he
    have hqr : q ≠ r := by
      rintro rfl
      rw [advance_pc_self] at h0
      omega
    have hne : G.A.pe q ≠ G.A.pe r := fun heq => hqr (G.A.pe_inj.mp heq)
    rw [advance_pc_other _ hne] at h0
    rw [advance_mem]
    dsimp only
    rw [hsym]
    exact h.pre htgt q hq h0 e he
  · intro l hl k hk j hj hd hle
    rw [advance_mem]
    dsimp only
    rw [cellOf, Loc.elem, hsym]
    refine h.got l hl k hk j hj hd ?_
    by_cases hqr : G.right l = r
    · rw [hqr, hpc]
      exact Nat.zero_le _
    · have hne : G.A.pe (G.right l) ≠ G.A.pe r := fun heq => hqr (G.A.pe_inj.mp heq)
      rwa [advance_pc_other _ hne] at hle
  · intro l hl k hk j hj hlt hnot
    rw [advance_mem]
    dsimp only
    rw [cellOf, Loc.elem, hsym]
    refine h.reduced l hl k hk j hj ?_ hnot
    by_cases hqr : G.right l = r
    · subst hqr
      rw [advance_pc_self] at hlt
      dsimp only at hlt
      have := Args.base_le_putPos (G := G) k
      omega
    · have hne : G.A.pe (G.right l) ≠ G.A.pe r := fun heq => hqr (G.A.pe_inj.mp heq)
      rwa [advance_pc_other _ hne] at hlt
  · intro l hl k hge hk j hj hd
    rw [advance_mem]
    dsimp only
    rw [cellOf, Loc.elem, hsym]
    exact h.final l hl k hge hk j hj hd

omit hn hc in
/-- the rank of the receiver, counted from the chunk -/
theorem chunk_rank (l : ℕ) {k : ℕ} (hk : k ≤ 2 * G.A.PE_size) :
    (G.chunk l k + k + 1) % G.A.PE_size = G.right l := by
  rw [Args.chunk, Nat.add_assoc, Nat.mod_add_mod, show l + 2 * G.A.PE_size - k + (k + 1) = l + 1 + G.A.PE_size + G.A.PE_size by
    omega, Nat.add_mod_right, Nat.add_mod_right, Args.right]

/-- the chunk of stage k is reduced -/
theorem Data.reduce (hsep : G.Separate) (h : Data G op m0 s) (hs : Sync G s) (hh : (machine G op).Hist s) {l k : ℕ}
    (hl : l < G.A.PE_size) (hk : k < G.A.PE_size - 1) (hpc : s.pc (G.A.pe (G.right l)) = G.putPos k + 4)
    {f : ℕ → Loc → α} (hf : f = setBuf s.mem (G.A.pe (G.right l))
      ((Loc.sym G.target).elem (chunkDisp G.count G.A.PE_size (G.chunk l k)))
      (chunkCount G.count G.A.PE_size (G.chunk l k)) fun j =>
        op (s.mem (G.A.pe (G.right l)) (((Loc.sym G.target).elem (chunkDisp G.count G.A.PE_size (G.chunk l k))).elem j))
          (s.mem (G.A.pe (G.right l)) ((G.sourceBuf.elem (chunkDisp G.count G.A.PE_size (G.chunk l k))).elem j))) :
    Data G op m0 (Machine.advance { s with mem := f } (G.A.pe (G.right l))) := by
  have hk2 : k < 2 * (G.A.PE_size - 1) := by omega
  have hr := Args.right_lt (G := G) l
  -- the elements of the chunk
  have hself : ∀ j < chunkCount G.count G.A.PE_size (G.chunk l k),
      f (G.A.pe (G.right l)) (cellOf G (G.chunk l k) j) = val G op m0 (G.chunk l k) j (k + 1) := by
    intro j hj
    have hadd := hs.waits l hl k hk2 (by omega)
    have hgot := h.got l hl k hk j hj (add_after_puts hn hc hh hl hk2 hadd (le_refl k) hj) (by omega)
    have hsrc := h.src _ hr (fun _ => by omega) _ (chunk_lt (Args.chunk_lt_size l k) hj)
    rw [cellOf] at hgot
    rw [hf, cellOf, ← Loc.elem_elem, setBuf_elem _ _ _ _ hj]
    simp only [Loc.elem_elem]
    rw [hgot, hsrc, val, val, part, chunk_rank l (by omega)]
  -- everything else
  have hother : ∀ q t, (∀ j < chunkCount G.count G.A.PE_size (G.chunk l k),
      ¬ (q = G.A.pe (G.right l) ∧ t = cellOf G (G.chunk l k) j)) → f q t = s.mem q t := by
    intro q t hne
    rw [hf]
    by_cases hq : q = G.A.pe (G.right l)
    · subst hq
      refine setBuf_outside _ _ _ _ _ _ fun j hj heq => hne j hj ⟨rfl, ?_⟩
      rw [heq, Loc.elem_elem]
      rfl
    · exact setBuf_other _ _ _ _ _ hq _
  have hcell : ∀ l' < G.A.PE_size, ∀ k' < 2 * (G.A.PE_size - 1), ∀ j' < chunkCount G.count G.A.PE_size (G.chunk l' k'),
      ¬ (l' = l ∧ (k' = k ∨ k' = k + G.A.PE_size)) → f (G.A.pe (G.right l')) (cellOf G (G.chunk l' k') j') =
        s.mem (G.A.pe (G.right l')) (cellOf G (G.chunk l' k') j') := by
    intro l' hl' k' hk' j' hj' hne
    refine hother _ _ fun j hj => ?_
    rintro ⟨h1, h2⟩
    obtain ⟨hll, h3 | h3 | h3, -⟩ := cell_stages hl hl' hk2 hk' hj hj' h1 h2
    · exact hne ⟨hll, Or.inl h3⟩
    · omega
    · exact hne ⟨hll, Or.inr h3⟩
  have hpc' : ∀ l' < G.A.PE_size, l' ≠ l →
      (Machine.advance { s with mem := f } (G.A.pe (G.right l))).pc (G.A.pe (G.right l')) = s.pc (G.A.pe (G.right l')) := by
    intro l' hl' hne
    exact advance_pc_other _ fun heq => hne (Args.right_inj hl' hl (G.A.pe_inj.mp heq))
  refine ⟨?_, ?_, h.cap, ?_, ?_, ?_⟩
  · intro q hq hpos e he
    rw [advance_mem]
    refine (hother _ _ fun j hj heq => ?_).trans (h.src q hq (fun htgt => ?_) e he)
    · exact sourceBuf_ne hsep he (chunk_lt (Args.chunk_lt_size l k) hj) heq.2
    · by_cases hqr : q = G.right l
      · subst hqr; omega
      · have hne : G.A.pe q ≠ G.A.pe (G.right l) := fun heq => hqr (G.A.pe_inj.mp heq)
        have := hpos htgt
        rwa [advance_pc_other _ hne] at this
  · intro htgt q hq h0 e he
    have hqr : q ≠ G.right l := by
      rintro rfl
      rw [advance_pc_self] at h0
      omega
    have hne : G.A.pe q ≠ G.A.pe (G.right l) := fun heq => hqr (G.A.pe_inj.mp heq)
    rw [advance_pc_other _ hne] at h0
    rw [advance_mem]
    exact (hother _ _ fun j hj heq => hne heq.1).trans (h.pre htgt q hq h0 e he)
  · intro l' hl' k' hk' j' hj' hd hle
    rw [advance_mem]
    by_cases hll : l' = l
    · subst hll
      rw [advance_pc_self] at hle
      dsimp only at hle
      -- only a later stage is still to be reduced
      have hgt : k < k' := by
        by_contra hle'
        rcases Nat.eq_or_lt_of_le (Nat.le_of_not_lt hle') with rfl | hlt
        · omega
        · have := Args.putPos_lt (G := G) hlt
          omega
      refine (hcell l' hl' k' (by omega) j' hj' ?_).trans (h.got l' hl' k' hk' j' hj' hd (by omega))
      rintro ⟨-, h3 | h3⟩ <;> omega
    · rw [hpc' l' hl' hll] at hle
      exact (hcell l' hl' k' (by omega) j' hj' fun h3 => hll h3.1).trans (h.got l' hl' k' hk' j' hj' hd hle)
  · intro l' hl' k' hk' j' hj' hlt hnot
    rw [advance_mem]
    by_cases hll : l' = l
    · subst hll
      rw [advance_pc_self] at hlt
      dsimp only at hlt
      by_cases hkk : k' = k
      · subst hkk
        exact hself j' hj'
      · have hlt' : k' < k := by
          by_contra hge
          have := Args.putPos_lt (G := G) (show k < k' by omega)
          omega
        have := Args.putPos_reduce_lt (G := G) hlt' (by omega)
        refine (hcell l' hl' k' (by omega) j' hj' ?_).trans (h.reduced l' hl' k' hk' j' hj' (by omega) hnot)
        rintro ⟨-, h3 | h3⟩ <;> omega
    · rw [hpc' l' hl' hll] at hlt
      exact (hcell l' hl' k' (by omega) j' hj' fun h3 => hll h3.1).trans (h.reduced l' hl' k' hk' j' hj' hlt hnot)
  · intro l' hl' k' hge hk' j' hj' hd
    rw [advance_mem]
    refine (hcell l' hl' k' hk' j' hj' ?_).trans (h.final l' hl' k' hge hk' j' hj' hd)
    rintro ⟨rfl, h3 | h3⟩
    · omega
    · -- the chunk does not come back before it is reduced
      subst h3
      have hadd := hs.forwarded hn hh hl hk' (hh.doneIssued _ _ _ hd).1
      have hlt := (hh.doneIssued _ _ _ hadd).1
      have := Args.putPos_reduce_lt (G := G) (show k < k + 1 by omega) hk
      omega

theorem Data.exec (hsep : G.Separate) (h : Data G op m0 s) (hs : Sync G s) (hh : (machine G op).Hist s) {v : ℕ}
    {ins : Instr} (hp : (machine G op).prog v (s.pc v) = some ins) :
    Data G op m0 (Machine.advance ((machine G op).effect s v ins) v) := by
  obtain ⟨r, hr, rfl, hat⟩ := prog_cases hn hc hp
  by_cases hred : ∃ k < G.A.PE_size - 1, s.pc (G.A.pe r) = G.putPos k + 4
  · obtain ⟨k, hk, hpc⟩ := hred
    obtain ⟨l, hl, rfl⟩ := Args.exists_left hr
    rw [hpc, prog_pe hr, Args.getElem_reduce hn hc hk, Option.some.injEq, Args.chunk_right hl (by omega)] at hp
    subst hp
    exact h.reduce hn hc hsep hs hh hl hk hpc rfl
  · push Not at hred
    by_cases hcopy : G.target = G.source ∧ s.pc (G.A.pe r) = 0
    · obtain ⟨htgt, hpc⟩ := hcopy
      have hins : ins = .memcpy (.priv 0) (.sym G.target) G.count := by
        rw [hpc, prog_pe hr, Args.opToAllRing_eq hn hc, Args.inPlace, if_pos htgt] at hp
        simpa using hp.symm
      subst hins
      exact h.copy htgt hpc rfl
    · -- only the copy and the reductions write
      have hmem : (machine G op).effect s (G.A.pe r) ins = s := by
        generalize htt : s.pc (G.A.pe r) = t at hat
        cases hat with
        | copy htgt => exact absurd ⟨htgt, htt⟩ hcopy
        | reduce k hk => exact absurd htt (hred k hk)
        | _ => rfl
      rw [hmem]
      exact h.advance (fun htgt h0 => hcopy ⟨htgt, h0⟩) hred

theorem Data.deliver (hsep : G.Separate) (h : Data G op m0 s) (hs : Sync G s) (hh : (machine G op).Hist s)
    {v t j : ℕ} {ins : Instr} (hp : (machine G op).prog v t = some ins) (hd : (machine G op).Deliverable s v t j) :
    Data G op m0 (mark ((machine G op).arrive s v t j ins) v t j) := by
  obtain ⟨hpc, hj, hnd, hcap, -⟩ := hd
  rw [partsAt_eq _ hp] at hj
  rw [readsAt_eq _ hp] at hcap
  have hdone : ∀ v' t' x, (mark ((machine G op).arrive s v t j ins) v t j).done v' t' x = true ↔
      (v' = v ∧ t' = t ∧ x = j) ∨ s.done v' t' x = true := by
    intro v' t' x
    rw [mark_done, arrive_done]
  -- a position that is no put of data
  have hsync : (∀ k < 2 * (G.A.PE_size - 1), G.putPos k ≠ t) → ∀ l, ∀ k < 2 * (G.A.PE_size - 1), ∀ x,
      (mark ((machine G op).arrive s v t j ins) v t j).done (G.A.pe l) (G.putPos k) x =
        s.done (G.A.pe l) (G.putPos k) x := by
    intro hne l k hk x
    rw [Bool.eq_iff_iff, hdone]
    simp [hne k hk]
  have hb0 : 0 < 4 := by decide
  obtain ⟨r, hr, rfl, hat⟩ := prog_cases hn hc hp
  cases hat with
  | put k hk =>
    obtain ⟨w, hw⟩ := Option.isSome_iff_exists.mp (hcap hj)
    refine h.deliver_put hn hc hsep hs hh hr hk hj hpc hnd hw (by simp) (by simp) ?_ hdone
    simp only [mark_mem, arrive, hw]
    rw [cellOf, Loc.elem, Nat.add_assoc]
  | add k hk =>
    refine h.deliver_sync (by simp) (by simp) rfl (hsync fun k' _ heq => ?_)
    have := (Args.putPos_inj (show 0 < 4 by decide) (show 2 < 4 by decide) heq).2
    omega
  | clear0 => exact h.deliver_sync (by simp) (by simp) rfl (hsync fun k hk => Args.putPos_ne_clearPos (w := 0) hk hb0)
  | clear1 => exact h.deliver_sync (by simp) (by simp) rfl (hsync fun k hk => Args.putPos_ne_clearPos (w := 1) hk hb0)
  | _ => exact absurd hj (by simp [Instr.parts])

/-! ## Runs -/

omit hn hc in
theorem Sync.init {c0 : ℕ → ℕ → ℤ} (h0 : ∀ r < G.A.PE_size, ∀ w < 2, c0 (G.A.pe r) w = 0) :
    Sync G (OneSided.init c0 m0) := by
  refine ⟨?_, ?_, ?_⟩
  · intro l _ w hw
    have hnone : arrived G (OneSided.init c0 m0) l w = ∅ := by
      simp [arrived, OneSided.init]
    rw [hnone]
    simp only [OneSided.init, Bool.false_eq_true, if_false, Finset.card_empty, Nat.cast_zero]
    exact h0 _ (Args.right_lt l) w hw
  · intro l _ k _ hlt
    simp [OneSided.init] at hlt
  · intro r _ w _ hlt
    simp [OneSided.init] at hlt

omit hn hc in
theorem Data.init (op : α → α → α) (c0 : ℕ → ℕ → ℤ) : Data G op m0 (OneSided.init c0 m0) := by
  refine ⟨?_, ?_, ?_, ?_, ?_, ?_⟩
  · intro r _ hpos e _
    have hne : G.target ≠ G.source := fun htgt => absurd (hpos htgt) (by simp [OneSided.init])
    rw [Args.sourceBuf, if_neg hne]
    rfl
  · intro _ r _ _ e _
    rfl
  · intro r _ k _ j v hv
    simp [OneSided.init] at hv
  · intro l _ k _ j _ hd
    simp [OneSided.init] at hd
  · intro l _ k _ j _ hlt
    simp [OneSided.init] at hlt
  · intro l _ k _ _ j _ hd
    simp [OneSided.init] at hd

/-- every step keeps counters and data in order -/
theorem keeps (hsep : G.Separate) : (machine G op).Keeps fun s => Sync G s ∧ Data G op m0 s where
  exec s v ins hh h hp he := ⟨h.1.exec hn hc hh hp he, h.2.exec hn hc hsep h.1 hh hp⟩
  capture s v t j ins w hh h hp hpc hj hnone hsrc := by
    obtain ⟨hs, hd⟩ := h
    obtain ⟨r, hr, rfl, hat⟩ := prog_cases hn hc hp
    refine ⟨⟨hs.counts, hs.waits, hs.zeros⟩, hd.src, hd.pre, ?_, hd.got, hd.reduced, hd.final⟩
    intro q hq k hk i x hx
    rcases (record_cap ..).mp hx with ⟨hqr, hpos, rfl, rfl⟩ | ⟨-, hx⟩
    · have hqr := G.A.pe_inj.mp hqr
      subst hqr hpos
      -- the element of the buffer that is read
      rw [prog_put hn hc hr hk, Option.some.injEq] at hp
      subst hp
      simp only [source, Loc.elem_elem, Option.some.injEq] at hsrc
      rw [← hsrc]
      exact hd.capture hn hc hs hh hr hk hj hpc hnone
    · exact hd.cap q hq k hk i x hx
  deliver s v t j ins hh h hp hd := ⟨h.1.deliver hn hc hh hp hd, h.2.deliver hn hc hsep h.1 hh hp hd⟩

end

/-! ## Result -/

section
variable {α : Type*} {op : α → α → α} {f : ℕ → α}

/-- `part` combines the values of d + 1 neighbours -/
theorem part_red {n c : ℕ} (d : ℕ) (hd : d < n) (hc : c < n) :
    Reduction.Red op f ((Finset.range (d + 1)).image fun i => (c + i) % n) (part op f n c d) := by
  induction d with
  | zero =>
    have h : (Finset.range (0 + 1)).image (fun i => (c + i) % n) = {c} := by simp [Nat.mod_eq_of_lt hc]
    rw [h]
    exact .single c
  | succ d ih =>
    rw [Finset.range_add_one, Finset.image_insert]
    refine (ih (by omega)).snoc ?_
    intro hmem
    obtain ⟨i, hi, heq⟩ := Finset.mem_image.mp hmem
    have hlt := Finset.mem_range.mp hi
    have hmod : i ≡ d + 1 [MOD n] := Nat.ModEq.add_left_cancel' c heq
    rw [Nat.ModEq, Nat.mod_eq_of_lt (by omega), Nat.mod_eq_of_lt hd] at hmod
    omega

/-- all n neighbours are all ranks -/
theorem image_range_mod {n c : ℕ} : (Finset.range n).image (fun i => (c + i) % n) = Finset.range n := by
  refine Finset.eq_of_subset_of_card_le ?_ ?_
  · intro x hx
    obtain ⟨i, hi, rfl⟩ := Finset.mem_image.mp hx
    have hpos := Finset.mem_range.mp hi
    exact Finset.mem_range.mpr (Nat.mod_lt _ (by omega))
  · rw [Finset.card_image_of_injOn]
    intro i hi i' hi' heq
    have hmod : i ≡ i' [MOD n] := Nat.ModEq.add_left_cancel' c heq
    rwa [Nat.ModEq, Nat.mod_eq_of_lt (by simpa using hi), Nat.mod_eq_of_lt (by simpa using hi')] at hmod

theorem part_all (hassoc : ∀ a b c, op (op a b) c = op a (op b c)) (hcomm : ∀ a b, op a b = op b a) {n c : ℕ}
    (hc : c < n) : part op f n c (n - 1) = Reduction.foldRanks op f n := by
  refine Reduction.Red.eq_foldRanks hassoc hcomm (by omega) ?_
  have h : Reduction.Red op f _ _ := part_red (n - 1) (show n - 1 < n by omega) hc
  rwa [Nat.sub_add_cancel (by omega), image_range_mod] at h

end

/-- every chunk is received, complete, in one of the last PE_size stages -/
theorem exists_last_stage {G : Args} {l c : ℕ} (hn : 2 ≤ G.A.PE_size) (hc : c < G.A.PE_size) :
    ∃ k, G.A.PE_size - 2 ≤ k ∧ k < 2 * (G.A.PE_size - 1) ∧ G.chunk l k = c := by
  have hlt : (l + G.A.PE_size - c) % G.A.PE_size < G.A.PE_size := Nat.mod_lt _ G.A.size_pos
  have hk : G.chunk l ((l + G.A.PE_size - c) % G.A.PE_size) = c := by
    -- both sides plus the stage are congruent to l
    have hcong : c ≡ l + 2 * G.A.PE_size - (l + G.A.PE_size - c) % G.A.PE_size [MOD G.A.PE_size] := by
      refine Nat.ModEq.add_right_cancel (Nat.mod_modEq (l + G.A.PE_size - c) G.A.PE_size).symm ?_
      rw [show c + (l + G.A.PE_size - c) = l + G.A.PE_size by omega,
        show l + 2 * G.A.PE_size - (l + G.A.PE_size - c) % G.A.PE_size + (l + G.A.PE_size - c) % G.A.PE_size =
          l + G.A.PE_size + G.A.PE_size by omega]
      exact (Nat.add_mod_right _ _).symm
    rw [Args.chunk, ← hcong, Nat.mod_eq_of_lt hc]
  by_cases h : G.A.PE_size - 2 ≤ (l + G.A.PE_size - c) % G.A.PE_size
  · exact ⟨_, h, by omega, hk⟩
  · exact ⟨_, by omega, by omega, (Args.chunk_add l (by omega)).trans hk⟩

section
variable {α : Type*} {G : Args} {op : α → α → α} {m0 : ℕ → Loc → α} {s : St α}

/-- the element at address a of rank q still has to be copied, reduced or passed on -/
def Needed (G : Args) (s : St α) (q a : ℕ) : Prop :=
  (G.target = G.source ∧ s.pc (G.A.pe q) = 0) ∨
    ∃ l < G.A.PE_size, ∃ k < 2 * (G.A.PE_size - 1), ∃ j < chunkCount G.count G.A.PE_size (G.chunk l k),
      G.right l = q ∧ .sym a = cellOf G (G.chunk l k) j ∧ s.done (G.A.pe l) (G.putPos k) j = true ∧
        ((k < G.A.PE_size - 1 ∧ s.pc (G.A.pe q) ≤ G.putPos k + 4) ∨
          (k + 1 < 2 * (G.A.PE_size - 1) ∧ s.cap (G.A.pe q) (G.putPos (k + 1)) j = none))

variable (hn : 2 ≤ G.A.PE_size) (hc : G.count ≠ 0)
include hn hc

/-- who has returned has every element of the result -/
theorem Data.returned (h : Data G op m0 s) (hs : Sync G s) (hh : (machine G op).Hist s) {r : ℕ} (hr : r < G.A.PE_size)
    (hpc : s.pc (G.A.pe r) = (G.opToAllRing (G.A.pe r)).length) {c j : ℕ} (hcn : c < G.A.PE_size)
    (hj : j < chunkCount G.count G.A.PE_size c) :
    s.mem (G.A.pe r) (cellOf G c j) = val G op m0 c j (G.A.PE_size - 1) := by
  rw [Args.length_opToAllRing hn hc] at hpc
  obtain ⟨l, hl, rfl⟩ := Args.exists_left hr
  obtain ⟨k, hge, hk, rfl⟩ := exists_last_stage (l := l) hn hcn
  obtain ⟨i, hi, hki, -, hw⟩ := Args.exists_stage hk
  have hpos : G.putPos k + 4 ≤ G.clear1Pos := by
    unfold Args.putPos Args.clear1Pos
    split_ifs <;> omega
  by_cases hlast : k < G.A.PE_size - 1
  · have hk2 : k + 1 = G.A.PE_size - 1 := by omega
    rw [h.reduced l hl k hlast j hj (by omega) (by omega), hk2]
  · have hadd := hs.waits l hl k hk (by omega)
    exact h.final l hl k (by omega) hk j hj (add_after_puts hn hc hh hl hk hadd (le_refl k) hj)

/-- what arrives does not overwrite what is still needed -/
theorem not_needed (hs : Sync G s) (hh : (machine G op).Hist s) {v t dst len q j : ℕ} {src : Loc}
    (hp : (machine G op).prog v t = some (.putNb dst src len (G.A.pe q)))
    (hd : (machine G op).Deliverable s v t j) : ¬ Needed G s q (dst + j) := by
  obtain ⟨hpc, hj, hnd, -, -⟩ := hd
  rw [partsAt_eq _ hp] at hj
  obtain ⟨l, hl, rfl, hat⟩ := prog_cases hn hc hp
  generalize hq : G.A.pe q = pq at hat
  cases hat with
  | put k hk =>
    have hq := G.A.pe_inj.mp hq
    subst hq
    rintro (⟨htgt, h0⟩ | ⟨l', hl', k', hk', j', hj', hll, hcell, hd', hneed⟩)
    · have hbase : G.base = 3 := by simp [Args.base, htgt]
      have := Args.base_le_putPos (G := G) k
      have := copied hn hc htgt hh hl (Args.right_lt l) (show 2 ≤ G.putPos k by omega) hpc
      omega
    · have hll := Args.right_inj hl' hl hll
      subst hll
      have hcell2 : cellOf G (G.chunk l' k) j = cellOf G (G.chunk l' k') j' := by
        rw [← hcell, cellOf, Loc.elem, Nat.add_assoc]
      obtain ⟨hchunk, rfl⟩ := cellOf_inj hj hj' hcell2
      rcases Args.chunk_eq_iff hk hk' hchunk with rfl | rfl | rfl
      · rw [hd'] at hnd
        exact absurd hnd (by decide)
      · -- the second time: the chunk has been reduced and passed on
        have hadd := hs.forwarded hn hh hl hk hpc
        have hlt := (hh.doneIssued _ _ _ hadd).1
        have hred := Args.putPos_reduce_lt (G := G) (show k' < k' + 1 by omega) (by omega)
        have hnext := Args.chunk_right (G := G) hl (show k' < 2 * G.A.PE_size by omega)
        rcases hneed with ⟨-, hle⟩ | ⟨hk1, hnone⟩
        · omega
        · have hput := add_after_puts hn hc hh (Args.right_lt l') hk1 hadd (le_refl _) (by rw [hnext]; exact hj')
          have hp1 : (machine G op).prog _ _ = some _ := prog_put hn hc (Args.right_lt l') hk1
          have hcap := hh.doneCap _ _ _ hput (by rw [readsAt_eq _ hp1, Instr.reads, hnext]; exact hj')
          rw [hnone] at hcap
          exact absurd hcap (by simp)
      · -- a chunk does not come for the first time after it came for the second
        rw [put_after_puts hn hc hh hl hk' hd' (by omega) hj] at hnd
        exact absurd hnd (by decide)

end

/-- a reduction of nothing returns at once -/
theorem run_of_count_eq_zero {α : Type*} {G : Args} {op : α → α → α} (hc : G.count = 0) (s : St α) (ops : List Op) :
    (machine G op).run s ops = s :=
  run_of_prog_none (fun v t => by simp [machine, once, Args.opToAllRing, hc]) s ops

/-- PEs 0 and 1 reduce three elements in place -/
def inPlacePair : Args := ⟨⟨0, 1, 2, 2, Nat.one_pos, Nat.two_pos, Nat.one_lt_two⟩, 0, 0, 3⟩

/-- both go through the reduction, the elements of the first chunk arriving in reverse order -/
def inPlaceSched : List Op :=
  [.exec 0, .exec 0, .exec 1, .exec 1, .exec 0, .exec 1, .exec 0, .exec 0, .exec 0, .exec 1, .exec 1, .exec 1,
    .capture 0 3 0, .capture 0 3 1, .deliver 0 3 1, .deliver 0 3 0, .deliver 0 5 0,
    .capture 1 3 0, .deliver 1 3 0, .deliver 1 5 0,
    .exec 0, .exec 0, .exec 0, .deliver 0 8 0, .exec 0, .exec 0, .exec 0, .exec 0,
    .capture 0 10 0, .deliver 0 10 0, .deliver 0 12 0,
    .exec 1, .exec 1, .exec 1, .deliver 1 8 0, .exec 1, .exec 1, .exec 1, .exec 1,
    .capture 1 10 0, .capture 1 10 1, .deliver 1 10 0, .deliver 1 10 1, .deliver 1 12 0,
    .exec 0, .exec 0, .deliver 0 14 0, .exec 0, .exec 1, .exec 1, .deliver 1 14 0, .exec 1]

/-- the values of PE p: 10 p, 10 p + 1, 10 p + 2 -/
def inPlaceMem (p : ℕ) : Loc → ℤ
  | .sym a => 10 * p + a
  | .priv _ => 0

end SandiaShmem.Collectives.Ring
