/-
How the OFI transport cuts large transfers (`src/transport_ofi.h`): the operations that `shmem_transport_ofi_put_large`, the
data part of `shmem_transport_put_signal_nbi`, `shmem_transport_get` and `shmem_transport_atomicv` hand to the provider.

An operation is counted, and then handed over until the provider takes it. The provider answers -FI_EAGAIN as often as it
likes; after ofi_max_poll of these answers, or with another error, the job stops. `ret n` is its answer to the call number n.
Locks, and what becomes of the operations, are left to the model of quiet.

- `Covers`: operations whose ranges are a partition of the source and of the target.
- `rmaLoop_spec`, `atomicLoop_spec`: what the loops post.
- `fragments_cover`: the four functions.
- `putLarge_fragments`, `atomicv_fragments`: the model of quiet has the same number of operations.
-/
import SandiaShmem.Core.While
import SandiaShmem.Transport.OfiQuiet

namespace SandiaShmem.Transport.OfiFragments

open SandiaShmem.While SandiaShmem.Transport.OfiQuiet

/-! ## Model -/

/-- the answers of the provider: 0, -FI_EAGAIN, another error of the operation or one in the completion queue -/
inductive Ret where
  | ok
  | again
  | err
deriving DecidableEq, Repr

/-- an operation the provider has taken: `count` units of `size` bytes at the address `buf` here and `remote` at the target -/
structure Frag where
  buf : ℕ
  remote : ℕ
  count : ℕ
  size : ℕ
deriving DecidableEq, Repr

/-- the counters of the context, the calls of the provider so far, and the operations it has taken -/
structure Io where
  pending_put_cntr : ℕ
  pending_get_cntr : ℕ
  calls : ℕ
  posted : List Frag
deriving DecidableEq, Repr

def Io.incPut (io : Io) : Io := { io with pending_put_cntr := io.pending_put_cntr + 1 }
def Io.incGet (io : Io) : Io := { io with pending_get_cntr := io.pending_get_cntr + 1 }

section
variable (P : Params) (ofi_max_poll : ℕ) (ret : ℕ → Ret)

/-- `do ret = …; while (try_again(ctx, ret, &polled))` from call n on, when -FI_EAGAIN is accepted `left` times more: the
number of calls after it -/
def tryPost : ℕ → ℕ → Option ℕ
  | left, n =>
    match ret n with
    | .ok => some (n + 1)
    | .err => none
    | .again =>
      match left with
      | 0 => none
      | left + 1 => tryPost left (n + 1)

/-- an operation is handed over, with `polled = 0` in front -/
def Io.post (io : Io) (f : Frag) : Option Io :=
  (tryPost ret ofi_max_poll io.calls).map fun n => { io with calls := n, posted := io.posted ++ [f] }

/-- the pointers of a loop over fragments -/
structure Rma where
  buf : ℕ
  remote : ℕ
  io : Io

/-- the condition and the body of the loop over fragments -/
def rmaCond (buf len : ℕ) (s : Rma) : Bool := s.buf < buf + len

def rmaBody (inc : Io → Io) (buf len : ℕ) (s : Rma) : Option Rma :=
  let frag_len := min P.max_msg_size (buf + len - s.buf)
  ((inc s.io).post ofi_max_poll ret ⟨s.buf, s.remote, frag_len, 1⟩).map fun io =>
    ⟨s.buf + frag_len, s.remote + frag_len, io⟩

/-- the loop over fragments, with the local and the remote pointer -/
def rmaLoop (inc : Io → Io) (buf remote len fuel : ℕ) (io : Io) : Outcome Rma :=
  loop (rmaCond buf len) (rmaBody P ofi_max_poll ret inc buf len) fuel ⟨buf, remote, io⟩

/-- one operation without a loop -/
def single (inc : Io → Io) (f : Frag) (io : Io) : Outcome Io :=
  match (inc io).post ofi_max_poll ret f with
  | none => .stopped
  | some io => .returned io

def Rma.outcome : Outcome Rma → Outcome Io
  | .returned s => .returned s.io
  | .stopped => .stopped
  | .running => .running

/-- `shmem_transport_ofi_put_large`; `addr` is the address of the target there -/
def ofiPutLarge (addr source len fuel : ℕ) (io : Io) : Outcome Io :=
  Rma.outcome (rmaLoop P ofi_max_poll ret Io.incPut source addr len fuel io)

/-- the data of `shmem_transport_put_signal_nbi` -/
def putSignalData (addr source len fuel : ℕ) (io : Io) : Outcome Io :=
  if len ≤ P.max_buffered_send then single ofi_max_poll ret Io.incPut ⟨source, addr, len, 1⟩ io
  else Rma.outcome (rmaLoop P ofi_max_poll ret Io.incPut source addr len fuel io)

/-- `shmem_transport_get`; `addr` is the address of the source there -/
def get (target addr len fuel : ℕ) (io : Io) : Outcome Io :=
  if len ≤ P.max_msg_size then single ofi_max_poll ret Io.incGet ⟨target, addr, len, 1⟩ io
  else Rma.outcome (rmaLoop P ofi_max_poll ret Io.incGet target addr len fuel io)

/-- the variables of the loop over the elements -/
structure Atomic where
  sent : ℕ
  io : Io

def Atomic.outcome : Outcome Atomic → Outcome Io
  | .returned s => .returned s.io
  | .stopped => .stopped
  | .running => .running

/-- the condition and the body of the loop over the elements -/
def atomicCond (len : ℕ) (s : Atomic) : Bool := s.sent < len

def atomicBody (addr source len max_atomic_size dtsize : ℕ) (s : Atomic) : Option Atomic :=
  let chunksize := min (len - s.sent) (max_atomic_size / dtsize)
  (s.io.incPut.post ofi_max_poll ret ⟨source + s.sent * dtsize, addr + s.sent * dtsize, chunksize, dtsize⟩).map fun io =>
    ⟨s.sent + chunksize, io⟩

/-- the loop over the elements of an atomic operation -/
def atomicLoop (addr source len max_atomic_size dtsize fuel : ℕ) (io : Io) : Outcome Atomic :=
  loop (atomicCond len) (atomicBody ofi_max_poll ret addr source len max_atomic_size dtsize) fuel ⟨0, io⟩

/-- `shmem_transport_atomicv`; `max_atomic_size` is in bytes, 0 when the operation is not valid -/
def atomicv (addr source full_len max_atomic_size dtsize fuel : ℕ) (io : Io) : Outcome Io :=
  let len := full_len / dtsize
  if max_atomic_size > P.max_msg_size ∨ max_atomic_size = 0 then .stopped
  else if full_len ≤ min P.max_buffered_send max_atomic_size then
    single ofi_max_poll ret Io.incPut ⟨source, addr, len, dtsize⟩ io
  else if full_len ≤ min P.bounce_buffer_size max_atomic_size ∧ P.bounce then
    single ofi_max_poll ret Io.incPut ⟨source, addr, len, dtsize⟩ io
  else
    Atomic.outcome (atomicLoop ofi_max_poll ret addr source len max_atomic_size dtsize fuel io)

end

/-- `shmem_transport_atomicv` takes the branch with the loop -/
structure Chunked (P : Params) (full_len max_atomic_size : ℕ) : Prop where
  inject : ¬ full_len ≤ min P.max_buffered_send max_atomic_size
  bounce : ¬ (full_len ≤ min P.bounce_buffer_size max_atomic_size ∧ P.bounce)

instance (P : Params) (full_len max_atomic_size : ℕ) : Decidable (Chunked P full_len max_atomic_size) :=
  decidable_of_iff (¬ full_len ≤ min P.max_buffered_send max_atomic_size ∧
    ¬ (full_len ≤ min P.bounce_buffer_size max_atomic_size ∧ P.bounce)) ⟨fun h => ⟨h.1, h.2⟩, fun h => ⟨h.1, h.2⟩⟩

/-! ## What the operations are for -/

/-- the operations move the range of len bytes at `buf` to or from the range at `remote`, in units of `size` bytes and in
operations of at most `limit` bytes -/
structure Covers (limit buf remote len size : ℕ) (ops : List Frag) : Prop where
  units : ∀ f ∈ ops, f.size = size ∧ size ∣ f.buf - buf
  positive : ∀ f ∈ ops, 0 < f.count
  limit : ∀ f ∈ ops, f.count * f.size ≤ limit
  inside : ∀ f ∈ ops, buf ≤ f.buf ∧ f.buf + f.count * f.size ≤ buf + len
  /-- the same offset on both sides -/
  offset : ∀ f ∈ ops, f.remote = remote + (f.buf - buf)
  covered : ∀ x, buf ≤ x → x < buf + len → ∃ f ∈ ops, f.buf ≤ x ∧ x < f.buf + f.count * f.size
  apart : ops.Pairwise fun f g => f.buf + f.count * f.size ≤ g.buf

/-- the operation number i of a loop -/
def fragAt (buf remote size : ℕ) (p : ℕ × ℕ) : Frag := ⟨buf + p.1 * size, remote + p.1 * size, p.2, size⟩

theorem Covers.mono {limit limit' buf remote len size : ℕ} {ops : List Frag} (h : Covers limit buf remote len size ops)
    (hle : limit ≤ limit') : Covers limit' buf remote len size ops :=
  ⟨h.units, h.positive, fun f hf => (h.limit f hf).trans hle, h.inside, h.offset, h.covered, h.apart⟩

/-- pieces of units cover the range -/
theorem covers_pieces {limit buf remote n size : ℕ} (hsize : 0 < size) (hlimit : 0 < limit) :
    Covers (limit * size) buf remote (n * size) size ((pieces limit n).map (fragAt buf remote size)) := by
  have hmul : ∀ p ∈ pieces limit n, p.1 * size + p.2 * size ≤ n * size := by
    intro p hp
    rw [← Nat.add_mul]
    exact Nat.mul_le_mul_right size (pieces_bounds hlimit hp).2.2
  refine ⟨?_, ?_, ?_, ?_, ?_, ?_, ?_⟩
  · intro f hf
    obtain ⟨p, -, rfl⟩ := List.mem_map.mp hf
    exact ⟨rfl, by simp [fragAt]⟩
  · intro f hf
    obtain ⟨p, hp, rfl⟩ := List.mem_map.mp hf
    exact (pieces_bounds hlimit hp).1
  · intro f hf
    obtain ⟨p, hp, rfl⟩ := List.mem_map.mp hf
    exact Nat.mul_le_mul_right size (pieces_bounds hlimit hp).2.1
  · intro f hf
    obtain ⟨p, hp, rfl⟩ := List.mem_map.mp hf
    have := hmul p hp
    simp only [fragAt]
    omega
  · intro f hf
    obtain ⟨p, -, rfl⟩ := List.mem_map.mp hf
    simp only [fragAt]
    omega
  · intro x hx hlt
    -- the unit of the byte x
    have hunit : (x - buf) / size < n := (Nat.div_lt_iff_lt_mul hsize).mpr (by omega)
    obtain ⟨p, hp, h1, h2⟩ := pieces_cover hlimit hunit
    refine ⟨_, List.mem_map_of_mem hp, ?_, ?_⟩
    · have := (Nat.le_div_iff_mul_le hsize).mp h1
      simp only [fragAt]
      omega
    · have := (Nat.div_lt_iff_lt_mul hsize).mp h2
      rw [Nat.add_mul] at this
      simp only [fragAt]
      omega
  · refine List.pairwise_map.mpr ((pieces_apart limit n).imp fun {p q} hpq => ?_)
    have := Nat.mul_le_mul_right size hpq
    rw [Nat.add_mul] at this
    simp only [fragAt]
    omega

/-- one operation for everything -/
theorem covers_single {limit buf remote count size : ℕ} (hpos : 0 < count) (hlimit : count * size ≤ limit) :
    Covers limit buf remote (count * size) size [⟨buf, remote, count, size⟩] := by
  refine ⟨?_, ?_, ?_, ?_, ?_, ?_, List.pairwise_singleton _ _⟩
  · simp
  · simpa using hpos
  · simpa using hlimit
  · simp
  · simp
  · intro x hx hlt
    exact ⟨_, List.mem_singleton_self _, hx, hlt⟩

/-! ## The loops -/

section
variable {P : Params} {ofi_max_poll : ℕ} {ret : ℕ → Ret}

variable (ofi_max_poll ret) in
/-- the provider takes every operation before the retries are used up -/
def Patient : Prop := ∀ n, ∃ j ≤ ofi_max_poll, (∀ i < j, ret (n + i) = .again) ∧ ret (n + j) = .ok

theorem tryPost_patient {j : ℕ} : ∀ {left n : ℕ}, j ≤ left → (∀ i < j, ret (n + i) = .again) → ret (n + j) = .ok →
    tryPost ret left n = some (n + j + 1) := by
  induction j with
  | zero =>
    intro left n _ _ hok
    unfold tryPost
    rw [show ret n = .ok from hok]
  | succ j ih =>
    intro left n hle hagain hok
    obtain ⟨left, rfl⟩ : ∃ l, left = l + 1 := ⟨left - 1, by omega⟩
    unfold tryPost
    rw [show ret n = .again from hagain 0 (Nat.succ_pos j)]
    have hshift : ∀ i, n + 1 + i = n + (i + 1) := fun i => by omega
    have hrest : tryPost ret left (n + 1) = some (n + 1 + j + 1) := by
      refine ih (by omega) (fun i hi => ?_) ?_
      · rw [hshift]
        exact hagain (i + 1) (by omega)
      · rw [hshift]
        exact hok
    rw [hshift] at hrest
    exact hrest

theorem Io.post_patient (h : Patient ofi_max_poll ret) (io : Io) (f : Frag) : ∃ io', io.post ofi_max_poll ret f = some io' := by
  obtain ⟨j, hj, hagain, hok⟩ := h io.calls
  exact ⟨_, by rw [Io.post, tryPost_patient hj hagain hok]; rfl⟩

/-- what an operation changes, however often it is tried -/
theorem Io.post_some {io io' : Io} {f : Frag} (h : io.post ofi_max_poll ret f = some io') :
    io'.posted = io.posted ++ [f] ∧ io'.pending_put_cntr = io.pending_put_cntr ∧
      io'.pending_get_cntr = io.pending_get_cntr := by
  obtain ⟨n, -, rfl⟩ := Option.map_eq_some_iff.mp h
  exact ⟨rfl, rfl, rfl⟩

/-- `inc` counts in the counter that `cntr` reads -/
structure Counts (inc : Io → Io) (cntr : Io → ℕ) : Prop where
  count : ∀ io, cntr (inc io) = cntr io + 1
  posted : ∀ io, (inc io).posted = io.posted
  post : ∀ io io', io'.pending_put_cntr = io.pending_put_cntr → io'.pending_get_cntr = io.pending_get_cntr →
    cntr io' = cntr io

theorem counts_put : Counts Io.incPut Io.pending_put_cntr := ⟨fun _ => rfl, fun _ => rfl, fun _ _ h _ => h⟩
theorem counts_get : Counts Io.incGet Io.pending_get_cntr := ⟨fun _ => rfl, fun _ => rfl, fun _ _ _ h => h⟩

theorem Counts.step {inc : Io → Io} {cntr : Io → ℕ} (h : Counts inc cntr) {io io' : Io} {f : Frag}
    (hpost : (inc io).post ofi_max_poll ret f = some io') : io'.posted = io.posted ++ [f] ∧ cntr io' = cntr io + 1 := by
  obtain ⟨h1, h2, h3⟩ := Io.post_some hpost
  exact ⟨by rw [h1, h.posted], by rw [h.post _ _ h2 h3, h.count]⟩

/-- after k rounds of a loop that posts pieces -/
structure Rounds (buf remote size limit len : ℕ) (cntr : Io → ℕ) (io : Io) (k off : ℕ) (io' : Io) : Prop where
  off : off = min len (k * limit)
  posted : io'.posted = io.posted ++ (List.range k).map fun i => fragAt buf remote size (piece limit len i)
  cntr : cntr io' = cntr io + k

section
variable {buf remote size limit len : ℕ} {inc : Io → Io} {cntr : Io → ℕ} {io io' io'' : Io} {k off : ℕ}

theorem Rounds.zero (buf remote size limit len : ℕ) (cntr : Io → ℕ) (io : Io) :
    Rounds buf remote size limit len cntr io 0 0 io := ⟨by simp, by simp, rfl⟩

theorem Rounds.lt (h : Rounds buf remote size limit len cntr io k off io') (hlt : off < len) :
    k * limit < len ∧ off = k * limit := by
  have := h.off
  omega

theorem Rounds.succ (h : Rounds buf remote size limit len cntr io k off io') (hc : Counts inc cntr) (hlt : off < len)
    (hpost : (inc io').post ofi_max_poll ret (fragAt buf remote size (off, min limit (len - off))) = some io'') :
    Rounds buf remote size limit len cntr io (k + 1) (off + min limit (len - off)) io'' := by
  obtain ⟨hposted, hcntr⟩ := hc.step hpost
  obtain ⟨hk, hoff⟩ := h.lt hlt
  refine ⟨?_, ?_, ?_⟩
  · rw [Nat.succ_mul]
    omega
  · rw [hposted, h.posted, List.append_assoc, List.range_succ, List.map_append, hoff]
    rfl
  · rw [hcntr, h.cntr, Nat.add_assoc]

/-- the end of a loop -/
theorem Rounds.done (h : Rounds buf remote size limit len cntr io k off io') (hlimit : 0 < limit)
    (hk : k ≤ numPieces limit len) (hend : len ≤ off) (hsize : 0 < size) :
    ∃ ops, io'.posted = io.posted ++ ops ∧ cntr io' = cntr io + ops.length ∧ ops.length = numPieces limit len ∧
      Covers (limit * size) buf remote (len * size) size ops := by
  have hle : len ≤ k * limit := by
    have := h.off
    omega
  have hkeq : k = numPieces limit len := by
    refine le_antisymm hk (not_lt.mp fun hlt => ?_)
    have := (lt_numPieces_iff hlimit).mp hlt
    omega
  subst hkeq
  refine ⟨(pieces limit len).map (fragAt buf remote size), ?_, ?_, ?_, covers_pieces hsize hlimit⟩
  · rw [h.posted, pieces, List.map_map]
    rfl
  · rw [h.cntr, pieces, List.length_map, List.length_map, List.length_range]
  · rw [pieces, List.length_map, List.length_map, List.length_range]

end

variable (ofi_max_poll ret) in
/-- the result of a transfer: it has posted what it should, or a call of the provider has stopped the job -/
def Result (limit buf remote len size n : ℕ) (cntr : Io → ℕ) (io : Io) (o : Outcome Io) : Prop :=
  (∃ io' ops, o = .returned io' ∧ io'.posted = io.posted ++ ops ∧ cntr io' = cntr io + ops.length ∧ ops.length = n ∧
    Covers limit buf remote len size ops) ∨ o = .stopped ∧ ¬ Patient ofi_max_poll ret

variable (ofi_max_poll ret) in
theorem rmaLoop_spec {inc : Io → Io} {cntr : Io → ℕ} (hc : Counts inc cntr) (hmax : 0 < P.max_msg_size) (buf remote : ℕ)
    {len fuel : ℕ} (hfuel : len ≤ fuel) (io : Io) :
    Result ofi_max_poll ret P.max_msg_size buf remote len 1 (numPieces P.max_msg_size len) cntr io
      (Rma.outcome (rmaLoop P ofi_max_poll ret inc buf remote len fuel io)) := by
  have hle := numPieces_le hmax len
  have hrule := loop_rule (rmaCond buf len) (rmaBody P ofi_max_poll ret inc buf len)
    (fun k s => k ≤ numPieces P.max_msg_size len ∧ ∃ off, s.buf = buf + off ∧ s.remote = remote + off ∧
      Rounds buf remote 1 P.max_msg_size len cntr io k off s.io)
    (numPieces P.max_msg_size len) ?_ ?_ fuel 0 ⟨buf, remote, io⟩
    ⟨Nat.zero_le _, 0, rfl, rfl, Rounds.zero _ _ _ _ _ _ _⟩ (by omega)
  · rcases hrule with ⟨k, s, hres, ⟨hk, off, hb, -, hr⟩, hend⟩ | ⟨hres, k, s, -, hnone⟩
    · have hend : len ≤ off := by
        have := of_decide_eq_false hend
        omega
      obtain ⟨ops, hposted, hcntr, hlen, hcov⟩ := hr.done hmax hk hend Nat.one_pos
      rw [Nat.mul_one, Nat.mul_one] at hcov
      exact .inl ⟨s.io, ops, by rw [rmaLoop, hres]; rfl, hposted, hcntr, hlen, hcov⟩
    · refine .inr ⟨by rw [rmaLoop, hres]; rfl, fun hp => ?_⟩
      obtain ⟨io', hio⟩ := Io.post_patient hp (inc s.io) ⟨s.buf, s.remote, min P.max_msg_size (buf + len - s.buf), 1⟩
      simp only [rmaBody, hio, Option.map_some] at hnone
      exact absurd hnone (by simp)
  · rintro k s ⟨-, off, hb, -, hr⟩ hlt
    have hlt : off < len := by
      have := of_decide_eq_true hlt
      omega
    exact (lt_numPieces_iff hmax).mpr (hr.lt hlt).1
  · rintro k s s' ⟨-, off, hb, hrem, hr⟩ hlt hbody
    have hlt : off < len := by
      have := of_decide_eq_true hlt
      omega
    obtain ⟨io', hio, rfl⟩ := Option.map_eq_some_iff.mp hbody
    have hrest : buf + len - s.buf = len - off := by omega
    have hfrag : (⟨s.buf, s.remote, min P.max_msg_size (buf + len - s.buf), 1⟩ : Frag) =
        fragAt buf remote 1 (off, min P.max_msg_size (len - off)) := by
      rw [hrest, hb, hrem, fragAt, Nat.mul_one]
    rw [hfrag] at hio
    refine ⟨(lt_numPieces_iff hmax).mpr (hr.lt hlt).1, off + min P.max_msg_size (len - off), ?_, ?_, hr.succ hc hlt hio⟩
    · simp only [hrest]
      omega
    · simp only [hrest]
      omega

variable (ofi_max_poll ret) in
theorem atomicLoop_spec {max_atomic_size dtsize : ℕ} (hsize : 0 < dtsize) (hmax : dtsize ≤ max_atomic_size)
    (addr source : ℕ) {len fuel : ℕ} (hfuel : len ≤ fuel) (io : Io) :
    Result ofi_max_poll ret max_atomic_size source addr (len * dtsize) dtsize (numPieces (max_atomic_size / dtsize) len)
      Io.pending_put_cntr io (Atomic.outcome (atomicLoop ofi_max_poll ret addr source len max_atomic_size dtsize fuel io)) := by
  have hlimit : 0 < max_atomic_size / dtsize := Nat.div_pos hmax hsize
  have hle := numPieces_le hlimit len
  have hrule := loop_rule (atomicCond len) (atomicBody ofi_max_poll ret addr source len max_atomic_size dtsize)
    (fun k s => k ≤ numPieces (max_atomic_size / dtsize) len ∧
      Rounds source addr dtsize (max_atomic_size / dtsize) len Io.pending_put_cntr io k s.sent s.io)
    (numPieces (max_atomic_size / dtsize) len) ?_ ?_ fuel 0 ⟨0, io⟩
    ⟨Nat.zero_le _, Rounds.zero _ _ _ _ _ _ _⟩ (by omega)
  · rcases hrule with ⟨k, s, hres, ⟨hk, hr⟩, hend⟩ | ⟨hres, k, s, -, hnone⟩
    · have hend : len ≤ s.sent := Nat.le_of_not_lt (of_decide_eq_false hend)
      obtain ⟨ops, hposted, hcntr, hlen, hcov⟩ := hr.done hlimit hk hend hsize
      refine .inl ⟨s.io, ops, by rw [atomicLoop, hres]; rfl, hposted, hcntr, hlen, ?_⟩
      exact hcov.mono (Nat.div_mul_le_self _ _)
    · refine .inr ⟨by rw [atomicLoop, hres]; rfl, fun hp => ?_⟩
      obtain ⟨io', hio⟩ := Io.post_patient hp s.io.incPut ⟨source + s.sent * dtsize, addr + s.sent * dtsize,
        min (len - s.sent) (max_atomic_size / dtsize), dtsize⟩
      simp only [atomicBody, hio, Option.map_some] at hnone
      exact absurd hnone (by simp)
  · rintro k s ⟨-, hr⟩ hlt
    exact (lt_numPieces_iff hlimit).mpr (hr.lt (of_decide_eq_true hlt)).1
  · rintro k s s' ⟨-, hr⟩ hlt hbody
    have hlt : s.sent < len := of_decide_eq_true hlt
    obtain ⟨io', hio, rfl⟩ := Option.map_eq_some_iff.mp hbody
    rw [Nat.min_comm] at hio
    refine ⟨(lt_numPieces_iff hlimit).mpr (hr.lt hlt).1, ?_⟩
    have hnext := hr.succ counts_put hlt hio
    rw [Nat.min_comm] at hnext
    exact hnext

variable (ofi_max_poll ret) in
/-- one operation for everything -/
theorem single_spec {inc : Io → Io} {cntr : Io → ℕ} (hc : Counts inc cntr) (buf remote : ℕ) {limit count size : ℕ}
    (hpos : 0 < count) (hlimit : count * size ≤ limit) (io : Io) :
    Result ofi_max_poll ret limit buf remote (count * size) size 1 cntr io
      (single ofi_max_poll ret inc ⟨buf, remote, count, size⟩ io) := by
  unfold single
  cases hio : (inc io).post ofi_max_poll ret ⟨buf, remote, count, size⟩ with
  | none =>
    refine .inr ⟨rfl, fun hp => ?_⟩
    obtain ⟨io', hsome⟩ := Io.post_patient hp (inc io) ⟨buf, remote, count, size⟩
    exact absurd (hio.symm.trans hsome) (by simp)
  | some io' =>
    obtain ⟨hposted, hcntr⟩ := hc.step hio
    exact .inl ⟨io', _, rfl, hposted, hcntr, rfl, covers_single hpos hlimit⟩

/-! ## The four functions -/

variable (ofi_max_poll ret) in
theorem get_spec (hmax : 0 < P.max_msg_size) (target addr : ℕ) {len fuel : ℕ} (hlen : 0 < len) (hfuel : len ≤ fuel)
    (io : Io) :
    Result ofi_max_poll ret P.max_msg_size target addr len 1 (numPieces P.max_msg_size len) Io.pending_get_cntr io
      (get P ofi_max_poll ret target addr len fuel io) := by
  unfold get
  split
  · rename_i hle
    have hone := single_spec ofi_max_poll ret counts_get target addr hlen ((Nat.mul_one len).trans_le hle) io
    rw [Nat.mul_one] at hone
    rw [numPieces_eq_one hmax hlen hle]
    exact hone
  · exact rmaLoop_spec ofi_max_poll ret counts_get hmax target addr hfuel io

variable (ofi_max_poll ret) in
/-- the elements of one operation are within the limit of the provider in every branch -/
theorem atomicv_spec {max_atomic_size dtsize : ℕ} (hsize : 0 < dtsize) (hmax : dtsize ≤ max_atomic_size)
    (hmsg : max_atomic_size ≤ P.max_msg_size) (addr source : ℕ) {full_len fuel : ℕ} (hlen : 0 < full_len)
    (hdvd : dtsize ∣ full_len) (hfuel : full_len ≤ fuel) (io : Io) :
    Result ofi_max_poll ret max_atomic_size source addr full_len dtsize
      (numPieces (max_atomic_size / dtsize) (full_len / dtsize)) Io.pending_put_cntr io
      (atomicv P ofi_max_poll ret addr source full_len max_atomic_size dtsize fuel io) := by
  obtain ⟨len, rfl⟩ := hdvd
  rw [Nat.mul_comm] at hlen hfuel ⊢
  have hdiv : len * dtsize / dtsize = len := Nat.mul_div_cancel len hsize
  have hpos : 0 < len := Nat.pos_of_mul_pos_right hlen
  have hone : len * dtsize ≤ max_atomic_size → Result ofi_max_poll ret max_atomic_size source addr (len * dtsize) dtsize
      (numPieces (max_atomic_size / dtsize) len) Io.pending_put_cntr io
      (single ofi_max_poll ret Io.incPut ⟨source, addr, len, dtsize⟩ io) := by
    intro hle
    rw [numPieces_eq_one (Nat.div_pos hmax hsize) hpos ((Nat.le_div_iff_mul_le hsize).mpr hle)]
    exact single_spec ofi_max_poll ret counts_put source addr hpos hle io
  unfold atomicv
  simp only [hdiv]
  rw [if_neg (by omega)]
  split_ifs with hinject hbounce
  · exact hone (by omega)
  · exact hone (by omega)
  · have hle : len ≤ fuel := (Nat.le_mul_of_pos_right len hsize).trans hfuel
    exact atomicLoop_spec ofi_max_poll ret hsize hmax addr source hle io

end

/-- **Fragments cover the transfer.** Whatever the provider answers, each of the four functions posts operations of
positive length within its limit whose ranges are a partition of both sides with equal offsets, and counts each of them
once; only a provider that takes no operation within the retries stops it. -/
theorem fragments_cover (P : Params) (ofi_max_poll : ℕ) (ret : ℕ → Ret) (io : Io) (here there len fuel : ℕ)
    (hmax : 0 < P.max_msg_size) (hlen : 0 < len) (hfuel : len ≤ fuel) :
    Result ofi_max_poll ret P.max_msg_size here there len 1 (numPieces P.max_msg_size len) Io.pending_put_cntr io
        (ofiPutLarge P ofi_max_poll ret there here len fuel io) ∧
      (P.max_buffered_send < len →
        Result ofi_max_poll ret P.max_msg_size here there len 1 (numPieces P.max_msg_size len) Io.pending_put_cntr io
          (putSignalData P ofi_max_poll ret there here len fuel io)) ∧
      Result ofi_max_poll ret P.max_msg_size here there len 1 (numPieces P.max_msg_size len) Io.pending_get_cntr io
        (get P ofi_max_poll ret here there len fuel io) ∧
      ∀ max_atomic_size dtsize, 0 < dtsize → dtsize ≤ max_atomic_size → max_atomic_size ≤ P.max_msg_size →
        dtsize ∣ len →
          Result ofi_max_poll ret max_atomic_size here there len dtsize
            (numPieces (max_atomic_size / dtsize) (len / dtsize)) Io.pending_put_cntr io
            (atomicv P ofi_max_poll ret there here len max_atomic_size dtsize fuel io) := by
  refine ⟨?_, ?_, ?_, ?_⟩
  · exact rmaLoop_spec ofi_max_poll ret counts_put hmax here there hfuel io
  · intro hlarge
    unfold putSignalData
    rw [if_neg (by omega)]
    exact rmaLoop_spec ofi_max_poll ret counts_put hmax here there hfuel io
  · exact get_spec ofi_max_poll ret hmax here there hlen hfuel io
  · intro max_atomic_size dtsize hsize hatomic hmsg hdvd
    exact atomicv_spec ofi_max_poll ret hsize hatomic hmsg there here hlen hdvd hfuel io

/-- 10 bytes in messages of 4, and as elements of 2 bytes -/
def narrow : Params := ⟨2, 0, 4, 0, 0, false, false, false, false, false⟩

/-- a provider that says -FI_EAGAIN to every other call -/
def busy (n : ℕ) : Ret := if n % 2 = 0 then .again else .ok

theorem fragments_cover_busy :
    ofiPutLarge narrow 1 busy 200 100 10 10 ⟨0, 0, 0, []⟩ =
        .returned ⟨3, 0, 6, [⟨100, 200, 4, 1⟩, ⟨104, 204, 4, 1⟩, ⟨108, 208, 2, 1⟩]⟩ ∧
      Result 1 busy 4 100 200 10 2 3 Io.pending_put_cntr ⟨0, 0, 0, []⟩ (atomicv narrow 1 busy 200 100 10 4 2 10 ⟨0, 0, 0, []⟩) ∧
      Result 1 busy 4 100 200 10 1 3 Io.pending_put_cntr ⟨0, 0, 0, []⟩
        (ofiPutLarge narrow 1 busy 200 100 10 10 ⟨0, 0, 0, []⟩) :=
  have h := fragments_cover narrow 1 busy ⟨0, 0, 0, []⟩ 100 200 10 10 (by decide) (by decide) (by decide)
  ⟨by decide, h.2.2.2 4 2 (by decide) (by decide) (by decide) (by decide), h.1⟩

/-! ## The operations of the calls -/

/-- the code of a large transfer counts and posts as many operations as its loop -/
theorem putLarge_fragments (P : Params) (len : ℕ) :
    OfiQuiet.putLarge P len = .ctxLock :: (fragments (numPieces P.max_msg_size len) ++ [.ctxUnlock]) := rfl

theorem atomicv_fragments (P : Params) {full_len max_atomic_size dtsize : ℕ} (hlarge : Chunked P full_len max_atomic_size) :
    OfiQuiet.atomicv P full_len max_atomic_size dtsize =
      .ctxLock :: (fragments (numPieces (max_atomic_size / dtsize) (full_len / dtsize)) ++ [.ctxUnlock]) := by
  unfold OfiQuiet.atomicv numPieces
  simp only [if_neg hlarge.1, if_neg hlarge.2]

end SandiaShmem.Transport.OfiFragments
