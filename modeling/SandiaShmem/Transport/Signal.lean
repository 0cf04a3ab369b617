/-
Put-with-signal (`src/shmem_comm.h`, `src/shr_transport.h4`, `src/data_c.c4`): which way the update of the signal word goes.

A blocking put_signal updates the word like any other atomic: with a processor atomic where the shared-memory layer does
them, else with a network atomic. shmem_internal_put_signal_nbi goes by the data instead: without data it always takes the
network, and data that is written through shared memory takes the signal along, which is a plain load and store in a build
with USE_MEMCPY.

- `path`: the way of one call; none where it raises an error.
- `path_eq`: which way it is, by the build, the node of the caller, the length and the entry point.
- `signals_summed_iff`: the word ends with the sum of all signals in every interleaving exactly if calls that may overlap
  take one atomic way or signal 0.
- `summed_of_network`: without USE_MEMCPY and USE_SHR_ATOMICS it always does.
-/
import Mathlib.Data.BitVec
import SandiaShmem.Core.LostUpdate

namespace SandiaShmem.Transport.Signal

open Runs LostUpdate

/-! ## Model -/

/-- the shared-memory layer: configure defines at most one of USE_XPMEM and USE_CMA, and USE_MEMCPY only without them -/
inductive OnNode where
  | memcpy
  | xpmem
  | cma
  | none
deriving DecidableEq, Repr

structure Build where
  onNode : OnNode
  USE_SHR_ATOMICS : Bool
  /-- there is a network transport, not `transport_none.h` -/
  network : Bool
deriving DecidableEq, Repr

/-- what the calls look up at run time -/
structure Job where
  /-- `shmem_runtime_get_node_rank(pe)` on the PE me -/
  node_rank : (me pe : ℕ) → ℤ
  CMA_PUT_MAX : ℕ

/-- how the signal word is updated -/
inductive Path where
  /-- an atomic instruction -/
  | processor
  /-- an atomic operation of the network -/
  | network
  /-- `*sig_addr += signal` -/
  | plain
deriving DecidableEq, Repr

/-- a call with SHMEM_SIGNAL_ADD by the PE me -/
structure PutSignal where
  me : ℕ
  nbi : Bool
  len : ℕ
  signal : BitVec 64
deriving DecidableEq, Repr

section
variable (B : Build) (J : Job)

/-- `shmem_internal_get_shr_rank` -/
def getShrRank (me pe : ℕ) : ℤ :=
  match B.onNode with
  | .xpmem => J.node_rank me pe
  | .cma => J.node_rank me pe
  | .memcpy => if pe = me then 0 else -1
  | .none => -1

/-- `shmem_shr_transport_use_write` -/
def useWrite (me len pe : ℕ) : Bool :=
  match B.onNode with
  | .cma => getShrRank B J me pe ≠ -1 && len ≤ J.CMA_PUT_MAX
  | _ => getShrRank B J me pe ≠ -1

/-- `shmem_shr_transport_use_atomic` -/
def useAtomic (me pe : ℕ) : Bool := if B.USE_SHR_ATOMICS then getShrRank B J me pe ≠ -1 else false

/-- `shmem_transport_atomic` and `shmem_transport_put_signal_nbi`; without a transport they raise an error -/
def transportAtomic : Option Path := if B.network then some .network else none

/-- `shmem_shr_transport_atomic`, with `shmem_shr_transport_ptr` -/
def shrTransportAtomic (me pe : ℕ) : Option Path :=
  if B.USE_SHR_ATOMICS then
    if getShrRank B J me pe = -1 then none else if B.onNode = .xpmem then some .processor else none
  else none

/-- `shmem_shr_transport_put_signal` -/
def shrTransportPutSignal (me pe : ℕ) : Option Path :=
  match B.onNode with
  | .memcpy => some .plain
  | .xpmem => if B.USE_SHR_ATOMICS then shrTransportAtomic B J me pe else transportAtomic B
  | .cma => transportAtomic B
  | .none => none

/-- `shmem_internal_atomic` -/
def internalAtomic (me pe : ℕ) : Option Path :=
  if useAtomic B J me pe then shrTransportAtomic B J me pe else transportAtomic B

/-- `shmem_internal_put_nb` for the data of a put_signal: whether there is a way -/
def internalPutNb (me len pe : ℕ) : Bool :=
  if len = 0 then true else if useWrite B J me len pe then B.onNode ≠ .none else B.network

/-- `shmem_internal_put_signal_nbi` -/
def internalPutSignalNbi (me len pe : ℕ) : Option Path :=
  if len = 0 then transportAtomic B
  else if useWrite B J me len pe then shrTransportPutSignal B J me pe
  else transportAtomic B

/-- the way a call updates the word on the PE pe -/
def path (pe : ℕ) (c : PutSignal) : Option Path :=
  if c.nbi then internalPutSignalNbi B J c.me c.len pe
  else if internalPutNb B J c.me c.len pe then internalAtomic B J c.me pe else none

end

/-- a call whose signal goes with a processor atomic: XPMEM and USE_SHR_ATOMICS, the word on the caller's node, and no
put_signal_nbi without data -/
def ByProcessor (B : Build) (J : Job) (pe : ℕ) (c : PutSignal) : Prop :=
  B.onNode = .xpmem ∧ B.USE_SHR_ATOMICS = true ∧ J.node_rank c.me pe ≠ -1 ∧ (c.nbi = true → c.len ≠ 0)

/-- a call whose signal is stored: USE_MEMCPY, and a put_signal_nbi with data to the own PE -/
def ByStore (B : Build) (pe : ℕ) (c : PutSignal) : Prop :=
  B.onNode = .memcpy ∧ c.me = pe ∧ c.nbi = true ∧ c.len ≠ 0

instance (B : Build) (J : Job) (pe : ℕ) (c : PutSignal) : Decidable (ByProcessor B J pe c) :=
  inferInstanceAs (Decidable (_ ∧ _))

instance (B : Build) (pe : ℕ) (c : PutSignal) : Decidable (ByStore B pe c) := inferInstanceAs (Decidable (_ ∧ _))

section
variable {B : Build} {J : Job} {me pe len : ℕ}

theorem transportAtomic_eq (h : (transportAtomic B).isSome = true) : transportAtomic B = some .network := by
  unfold transportAtomic at h ⊢
  split_ifs at h ⊢
  · rfl
  · exact absurd h (by decide)

/-- an atomic that raises no error -/
theorem internalAtomic_eq (h : (internalAtomic B J me pe).isSome = true) : internalAtomic B J me pe =
    some (if B.onNode = .xpmem ∧ B.USE_SHR_ATOMICS = true ∧ J.node_rank me pe ≠ -1 then .processor else .network) := by
  unfold internalAtomic at h ⊢
  by_cases hshr : B.USE_SHR_ATOMICS = true
  · by_cases hon : B.onNode = .xpmem
    · by_cases hrank : J.node_rank me pe = -1
      · have huse : useAtomic B J me pe = false := by simp [useAtomic, getShrRank, hshr, hon, hrank]
        simp only [huse, Bool.false_eq_true, if_false] at h ⊢
        rw [transportAtomic_eq h, if_neg fun hc => hc.2.2 hrank]
      · have huse : useAtomic B J me pe = true := by simp [useAtomic, getShrRank, hshr, hon, hrank]
        rw [if_pos huse, if_pos ⟨hon, hshr, hrank⟩]
        simp [shrTransportAtomic, getShrRank, hshr, hon, hrank]
    · by_cases huse : useAtomic B J me pe = true
      · -- without XPMEM there is no pointer to the word
        rw [if_pos huse] at h
        simp [shrTransportAtomic, hshr, hon] at h
      · rw [if_neg huse] at h ⊢
        rw [transportAtomic_eq h, if_neg fun hc => hon hc.1]
  · have huse : useAtomic B J me pe = false := by simp [useAtomic, hshr]
    simp only [huse, Bool.false_eq_true, if_false] at h ⊢
    rw [transportAtomic_eq h, if_neg fun hc => hshr hc.2.1]

/-- the signal of a put_signal_nbi that raises no error -/
theorem internalPutSignalNbi_eq (h : (internalPutSignalNbi B J me len pe).isSome = true) :
    internalPutSignalNbi B J me len pe = some (if B.onNode = .memcpy ∧ me = pe ∧ len ≠ 0 then .plain
      else if B.onNode = .xpmem ∧ B.USE_SHR_ATOMICS = true ∧ J.node_rank me pe ≠ -1 ∧ len ≠ 0 then .processor
      else .network) := by
  unfold internalPutSignalNbi at h ⊢
  by_cases hlen : len = 0
  · rw [if_pos hlen] at h ⊢
    rw [transportAtomic_eq h, if_neg fun hc => hc.2.2 hlen, if_neg fun hc => hc.2.2.2 hlen]
  rw [if_neg hlen] at h ⊢
  by_cases huse : useWrite B J me len pe = true
  · rw [if_pos huse] at h ⊢
    unfold shrTransportPutSignal at h ⊢
    cases hon : B.onNode with
    | memcpy =>
      have hme : me = pe := by
        by_contra hne
        simp [useWrite, getShrRank, hon, Ne.symm hne] at huse
      exact congrArg some (if_pos ⟨rfl, hme, hlen⟩).symm
    | xpmem =>
      have hrank : J.node_rank me pe ≠ -1 := by simpa [useWrite, getShrRank, hon] using huse
      have hplain : ¬ (OnNode.xpmem = .memcpy ∧ me = pe ∧ len ≠ 0) := fun hc => OnNode.noConfusion hc.1
      simp only [hon] at h
      rw [if_neg hplain]
      by_cases hshr : B.USE_SHR_ATOMICS = true
      · simp [shrTransportAtomic, getShrRank, hshr, hon, hrank, hlen]
      · rw [if_neg hshr] at h
        simp [transportAtomic_eq h, hshr]
    | cma =>
      simp only [hon] at h
      simp [transportAtomic_eq h]
    | none =>
      simp only [hon] at h
      exact absurd h (by decide)
  · rw [if_neg huse] at h ⊢
    have hplain : ¬ (B.onNode = .memcpy ∧ me = pe ∧ len ≠ 0) := fun hc => huse (by
      simp [useWrite, getShrRank, hc.1, hc.2.1])
    have hproc : ¬ (B.onNode = .xpmem ∧ B.USE_SHR_ATOMICS = true ∧ J.node_rank me pe ≠ -1 ∧ len ≠ 0) := fun hc => huse (by
      simp [useWrite, getShrRank, hc.1, hc.2.2.1])
    rw [transportAtomic_eq h, if_neg hplain, if_neg hproc]

/-- **The way of a call that raises no error.** What is not a plain store and not a processor atomic goes through the
network. -/
theorem path_eq (c : PutSignal) (h : (path B J pe c).isSome = true) :
    path B J pe c = some (if ByStore B pe c then .plain else if ByProcessor B J pe c then .processor else .network) := by
  unfold path at h ⊢
  by_cases hnbi : c.nbi = true
  · rw [if_pos hnbi] at h ⊢
    rw [internalPutSignalNbi_eq h]
    simp only [ByStore, ByProcessor, hnbi, true_and, forall_const]
  · rw [if_neg hnbi] at h ⊢
    by_cases hdata : internalPutNb B J c.me c.len pe = true
    · rw [if_pos hdata] at h ⊢
      rw [internalAtomic_eq h]
      simp [ByStore, ByProcessor, hnbi]
    · rw [if_neg hdata] at h
      exact absurd h (by decide)

end

/-- calls that update one signal word on the PE pe, and which of them are complete before others begin: by the order of
the program, and by what the calls and the program wait for -/
structure Calls where
  pe : ℕ
  calls : List PutSignal
  before : ℕ → ℕ → Bool
  before_lt : ∀ i j, before i j = true → i < j
  before_trans : ∀ i j k, before i j = true → before j k = true → before i k = true

namespace Calls
variable (B : Build) (J : Job) (W : Calls)

def pathOf (i : ℕ) : Option Path := W.calls[i]?.bind (path B J W.pe)

def signal (i : ℕ) : BitVec 64 := (W.calls[i]?.map PutSignal.signal).getD 0

/-- processor atomics are atomic among themselves, and so are network atomics -/
def excl (i j : ℕ) : Bool :=
  W.pathOf B J i = W.pathOf B J j && (W.pathOf B J i = some .processor || W.pathOf B J i = some .network)

/-- the loads and stores of the calls -/
def adds : Adds (BitVec 64) where
  n := W.calls.length
  add := W.signal
  excl := W.excl B J
  before := W.before
  excl_comm i j := by
    unfold excl
    by_cases h : W.pathOf B J i = W.pathOf B J j
    · rw [h]
    · simp [h, Ne.symm h]
  before_lt := W.before_lt
  before_trans := W.before_trans

/-- the end of an interleaving that starts with w in the word -/
def after (w : BitVec 64) (sched : List ℕ) : St (BitVec 64) := run (W.adds B J).step (init w) sched

/-- no call raises an error -/
def NoError : Prop := ∀ c ∈ W.calls, (path B J W.pe c).isSome = true

instance : Decidable (W.NoError B J) := inferInstanceAs (Decidable (∀ _ ∈ _, _))

/-- in every interleaving in which all calls complete the word ends with the sum of all signals -/
def Summed : Prop :=
  ∀ w sched, (W.adds B J).Complete (W.after B J w sched) →
    (W.after B J w sched).word = w + (W.calls.map PutSignal.signal).sum

/-- two different calls that may overlap -/
def Overlap (i j : ℕ) : Prop := i ≠ j ∧ W.before i j = false ∧ W.before j i = false

/-- of calls that may overlap none is stored, and either both go with processor atomics or none does; or both signal 0 -/
def OneWay : Prop :=
  ∀ i j (hi : i < W.calls.length) (hj : j < W.calls.length), W.Overlap i j →
    (¬ ByStore B W.pe W.calls[i] ∧ ¬ ByStore B W.pe W.calls[j] ∧
      (ByProcessor B J W.pe W.calls[i] ↔ ByProcessor B J W.pe W.calls[j])) ∨
    (W.calls[i].signal = 0 ∧ W.calls[j].signal = 0)

/-! ## When no signal is lost -/

theorem sum_signal : ∑ i ∈ Finset.range W.calls.length, W.signal i = (W.calls.map PutSignal.signal).sum := by
  have h : ∀ l : List PutSignal,
      ∑ i ∈ Finset.range l.length, (l[i]?.map PutSignal.signal).getD 0 = (l.map PutSignal.signal).sum := by
    intro l
    induction l with
    | nil => rfl
    | cons c l ih =>
      rw [List.length_cons, Finset.sum_range_succ', List.map_cons, List.sum_cons, add_comm, ← ih]
      rfl
  exact h W.calls

variable {W}

theorem pathOf_eq {i : ℕ} (hi : i < W.calls.length) : W.pathOf B J i = path B J W.pe W.calls[i] := by
  unfold pathOf
  rw [List.getElem?_eq_getElem hi]
  rfl

theorem signal_eq {i : ℕ} (hi : i < W.calls.length) : W.signal i = W.calls[i].signal := by
  unfold signal
  rw [List.getElem?_eq_getElem hi]
  rfl

/-- calls without an error exclude each other if they take the same atomic way -/
theorem excl_iff (h : W.NoError B J) {i j : ℕ} (hi : i < W.calls.length) (hj : j < W.calls.length) :
    W.excl B J i j = true ↔ ¬ ByStore B W.pe W.calls[i] ∧ ¬ ByStore B W.pe W.calls[j] ∧
      (ByProcessor B J W.pe W.calls[i] ↔ ByProcessor B J W.pe W.calls[j]) := by
  unfold excl
  rw [pathOf_eq B J hi, pathOf_eq B J hj, path_eq _ (h _ (List.getElem_mem hi)), path_eq _ (h _ (List.getElem_mem hj))]
  by_cases hsi : ByStore B W.pe W.calls[i] <;> by_cases hsj : ByStore B W.pe W.calls[j] <;>
    by_cases hpi : ByProcessor B J W.pe W.calls[i] <;> by_cases hpj : ByProcessor B J W.pe W.calls[j] <;>
    simp [hsi, hsj, hpi, hpj]

theorem summed_iff_safe : W.Summed B J ↔ (W.adds B J).Safe := by
  unfold Summed
  rw [← sum_signal W]
  constructor
  · intro hw
    exact (sum_iff (W.adds B J) 0).mp fun sched hc => hw 0 sched hc
  · intro hsafe w sched hc
    exact word_of_safe (W.adds B J) hsafe w sched hc

theorem safe_iff_oneWay (h : W.NoError B J) : (W.adds B J).Safe ↔ W.OneWay B J := by
  constructor
  · intro hsafe i j hi hj hov
    by_cases hex : W.excl B J i j = true
    · exact .inl ((excl_iff B J h hi hj).mp hex)
    · have hzero := hsafe i hi j hj hov (Bool.eq_false_of_not_eq_true hex)
      exact .inr ⟨signal_eq hi ▸ hzero.1, signal_eq hj ▸ hzero.2⟩
  · intro hway i hi j hj hov hex
    rcases hway i j hi hj hov with hsame | ⟨hzi, hzj⟩
    · have htrue := (excl_iff B J h hi hj).mpr hsame
      exact absurd (htrue.symm.trans hex) Bool.noConfusion
    · exact ⟨(signal_eq hi).trans hzi, (signal_eq hj).trans hzj⟩

/-- **Atomicity of signal updates.** Calls that raise no error leave the sum of all signals, modulo 2^64, in every
interleaving exactly if, of any two that may overlap, none is a put_signal_nbi with data to the own PE in a build with
USE_MEMCPY, and either both or none is made on the node of the word, in a build with XPMEM and USE_SHR_ATOMICS, and no
put_signal_nbi without data; or both signal 0. -/
theorem signals_summed_iff (h : W.NoError B J) : W.Summed B J ↔ W.OneWay B J :=
  (summed_iff_safe B J).trans (safe_iff_oneWay B J h)

/-- two PEs on one node, and a third one elsewhere -/
def nodeJob : Job := ⟨fun me pe => if me = 2 ∨ pe = 2 then -1 else pe, 8192⟩

/-- a blocking put_signal by the PE with the word and a put_signal_nbi with data by the other PE on the node overlap; then
comes a put_signal_nbi by the third PE, when both are complete -/
def threeCalls : Calls where
  pe := 0
  calls := [⟨0, false, 0, 1⟩, ⟨1, true, 8, 2⟩, ⟨2, true, 8, 4⟩]
  before i j := decide (i < 2 ∧ j = 2)
  before_lt i j h := by
    have := of_decide_eq_true h
    omega
  before_trans i j k h h' := by
    have := of_decide_eq_true h
    have := of_decide_eq_true h'
    omega

/-- with XPMEM and USE_SHR_ATOMICS the first two are processor atomics, the third one is not, and nothing is lost -/
theorem signals_summed_xpmem : threeCalls.Summed ⟨.xpmem, true, true⟩ nodeJob := by
  refine (signals_summed_iff ⟨.xpmem, true, true⟩ nodeJob (by decide)).mpr fun i j hi hj hov => .inl ?_
  have hstore : ∀ c ∈ threeCalls.calls, ¬ ByStore ⟨.xpmem, true, true⟩ 0 c := by decide
  have hproc : ByProcessor ⟨.xpmem, true, true⟩ nodeJob 0 ⟨0, false, 0, 1⟩ ∧
      ByProcessor ⟨.xpmem, true, true⟩ nodeJob 0 ⟨1, true, 8, 2⟩ := by decide
  refine ⟨hstore _ (List.getElem_mem hi), hstore _ (List.getElem_mem hj), ?_⟩
  obtain ⟨hne, hij, hji⟩ := hov
  have hij := of_decide_eq_false hij
  have hji := of_decide_eq_false hji
  have hlt : i < 3 ∧ j < 3 := ⟨hi, hj⟩
  have hcases : (i = 0 ∧ j = 1) ∨ (i = 1 ∧ j = 0) := by omega
  rcases hcases with ⟨rfl, rfl⟩ | ⟨rfl, rfl⟩
  · exact iff_of_true hproc.1 hproc.2
  · exact iff_of_true hproc.2 hproc.1

/-- a put_signal_nbi by the PE with the word, and a blocking put_signal by another PE -/
def twoCalls (len : ℕ) : Calls where
  pe := 0
  calls := [⟨0, true, len, 1⟩, ⟨1, false, 8, 1⟩]
  before _ _ := false
  before_lt _ _ := nofun
  before_trans _ _ _ := nofun

/-- three PEs, each on a node of its own -/
def apartJob : Job := ⟨fun me pe => if me = pe then 0 else -1, 8192⟩

/-- **Two ways on one word.** A put_signal_nbi to the own PE and a blocking put_signal of another one lose a signal: with
USE_MEMCPY as a plain store against a network atomic, with XPMEM and USE_SHR_ATOMICS, without data, as a network atomic
against a processor atomic. -/
theorem signal_lost :
    ¬ (twoCalls 8).Summed ⟨.memcpy, false, true⟩ apartJob ∧ (twoCalls 8).NoError ⟨.memcpy, false, true⟩ apartJob ∧
    ¬ (twoCalls 0).Summed ⟨.xpmem, true, true⟩ nodeJob ∧ (twoCalls 0).NoError ⟨.xpmem, true, true⟩ nodeJob := by
  refine ⟨fun h => ?_, by decide, fun h => ?_, by decide⟩
  · exact absurd (h 0 [0, 1, 1, 0] (by decide)) (by decide)
  · exact absurd (h 0 [0, 1, 1, 0] (by decide)) (by decide)

/-- in a build without USE_MEMCPY and USE_SHR_ATOMICS no signal is lost -/
theorem summed_of_network (hm : B.onNode ≠ .memcpy) (hs : B.USE_SHR_ATOMICS = false) (h : W.NoError B J) :
    W.Summed B J := by
  refine (summed_iff_safe B J).mpr ((safe_iff_oneWay B J h).mpr fun i j hi hj _ => .inl ?_)
  have hproc : ∀ c, ¬ ByProcessor B J W.pe c := fun c hc => Bool.noConfusion (hs.symm.trans hc.2.1)
  exact ⟨fun hc => hm hc.1, fun hc => hm hc.1, iff_of_false (hproc _) (hproc _)⟩

end Calls

end SandiaShmem.Transport.Signal
